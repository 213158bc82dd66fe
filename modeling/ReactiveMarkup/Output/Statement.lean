/-
The statements of an emitted module.

A module builds its nodes with a few statements: creating nodes and appending
them, setting data and attributes, effects that do so again when a value
changes, conditions and loops. Nodes have local names, numbered through the
module, so that no two are the same.
-/
import ReactiveMarkup.Template.Node

namespace ReactiveMarkup.Output

open Markup (Segment)
open Template (Binding Head)

inductive LocalKind where
  | root
  | text
  | element
  | value
  | component
  | anchor
  | nodes
  | node
  | fragment
  | list
  | index
  deriving DecidableEq, Repr

def LocalKind.stem : LocalKind → String
  | root => "root"
  | text => "text"
  | element => "el"
  | value => "v"
  | component => "c"
  | anchor => "anchor"
  | nodes => "nodes"
  | node => "node"
  | fragment => "frag"
  | list => "list"
  | index => "i"

structure Local where
  kind : LocalKind
  number : Nat
  deriving DecidableEq, Repr

def Local.name (x : Local) : String := "_" ++ x.kind.stem ++ "$" ++ toString x.number

/-- The fragment that holds all nodes of the component. -/
def Local.root : Local := ⟨.root, 0⟩

def effectName : String := "_$createEffect"

def delegateName : String := "_$delegateEvents"

def mergeName : String := "_$mergeProps"

mutual

inductive Statement where
  | createText (x : Local)
  | createElement (x : Local) (tag : String)
  | createFragment (x : Local)
  | createComment (x : Local) (label : String)
  | createComponent (x : Local) (head : Head)
  | append (parent child : Local)
  | setData (x : Local) (data : List Segment)
  | bindData (x : Local) (data : List Segment)
  | setAttribute (x : Local) (name value : String)
  | declareValue (x : Local) (expression : String)
  | updateAttribute (x : Local) (name : String) (value : Local)
  | setHandler (x : Local) (event : Binding)
  | declareNodes (x : Local)
  | clearNodes (nodes node : Local)
  | declareList (x : Local) (expression : String)
  | declareItem (name : String) (list index : Local)
  | declareIndex (name : String) (index : Local)
  | keepNodes (nodes fragment : Local)
  | keepMoreNodes (nodes fragment : Local)
  | place (fragment anchor : Local)
  | effect (body : List Statement)
  | loop (list index : Local) (body : List Statement)
  | conditional (condition : String) (body : List Statement) (rest : Alternatives)

inductive Alternatives where
  | done
  | otherwise (body : List Statement)
  | elseIf (condition : String) (body : List Statement) (rest : Alternatives)

end

end ReactiveMarkup.Output
