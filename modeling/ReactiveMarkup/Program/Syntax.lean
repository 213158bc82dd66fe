/-
Programs that work on sources and nodes.

A program is a list of statements, which name cells (sources), nodes, listeners,
templates, records of properties and views of such records, each with names of
their own.
-/
import ReactiveMarkup.Dom.Scalar

namespace ReactiveMarkup.Program

open Dom (Scalar)

inductive Arith where
  | add
  | sub
  | mul
  | div
  | mod

inductive CellQuery where
  | get
  | peek
  | subscribers
  | describe

inductive EventQuery where
  | name
  | describe
  | target
  | current
  | stopped
  | prevented

inductive NodeQuery where
  | html
  | text
  | data
  | kind
  | tag
  | isElement
  | describe
  | childCount
  | first
  | attributes
  | parent
  | hasDocument

inductive KeyQuery where
  | attribute
  | hasAttribute
  | property
  | hasProperty
  | style
  | listeners
  | hasHandler
  | isDelegated

inductive RecordQuery where
  | get (key : String)
  | has (key : String)
  | keys
  | describe

inductive Expr where
  | literal (s : Scalar)
  | cell (q : CellQuery) (c : String)
  | arith (op : Arith) (a b : Expr)
  | less (a b : Expr)
  | equal (a b : Expr)
  | not (a : Expr)
  | cond (c a b : Expr)
  /-- The values, written one after the other. -/
  | join (es : List Expr)
  | list (es : List Expr)
  | untrack (e : Expr)
  /-- Whether reads are put down to a computation. -/
  | tracking
  | item
  | index
  | it
  | event (q : EventQuery)
  | node (q : NodeQuery) (n : String)
  | key (q : KeyQuery) (n k : String)
  | same (m n : String)
  | record (q : RecordQuery) (p : String)
  | view (q : RecordQuery) (v : String)

mutual

inductive Stmt where
  | log (es : List Expr)
  | eval (e : Expr)
  | cond (e : Expr) (yes no : List Stmt)
  | raise (message : String)
  | attempt (body : List Stmt)
  | signal (c : String) (e : Expr)
  | pair (c : String) (e : Expr)
  | memo (c : String) (body : List Stmt) (e : Expr)
  | effect (body : List Stmt)
  | set (c : String) (e : Expr)
  | update (c : String) (e : Expr)
  | drop (c : String)
  | batch (body : List Stmt)
  | untrack (body : List Stmt)
  | cleanup (body : List Stmt)
  | mount (body : List Stmt)
  | later (body : List Stmt)
  | flush
  | element (n tag : String)
  | text (n : String) (e : Expr)
  | comment (n : String) (e : Expr)
  | fragment (n : String)
  | newDocument (d : String)
  | dropDocument (d : String)
  | unbind (n : String)
  | child (new n : String) (i : Nat)
  | append (p n : String)
  | before (p n : String) (mark : Option String)
  | removeChild (p n : String)
  | remove (n : String)
  | copy (new n : String) (deep : Bool)
  | dispose (n : String)
  | setData (n : String) (e : Expr)
  | setAttribute (n k : String) (e : Expr)
  | removeAttribute (n k : String)
  | setProperty (n k : String) (e : Expr)
  | setStyle (n k : String) (e : Expr)
  | outline (n : String)
  | listen (n event l : String) (body : List Stmt)
  | unlisten (n l : String)
  | handler (n event : String) (body : List Stmt)
  | clearHandler (n event : String)
  | delegate (events : List String)
  | dispatch (n event : String)
  | stop
  | prevent
  | insert (p : String) (content : Content) (mark : Option String)
  | describeContent (content : Content)
  | spread (n : String) (pairs : List (String × Given))
  | template (t html : String)
  | instantiate (n t : String)
  | record (p : String)
  | putAccessor (p k : String) (e : Expr)
  | putValue (p k : String) (e : Expr)
  | removeKey (p k : String)
  | merge (v : String) (defaults : List (String × Expr)) (p : String)

inductive Content where
  | node (n : String)
  | value (e : Expr)
  | list (items : List Content)
  /-- Content that is built anew at each use. -/
  | accessor (content : Content)
  | element (tag : String) (attributes : List (String × Expr)) (children : List Content)
  | each (e : Expr) (content : Content)
  | cond (e : Expr) (yes no : Content)
  /-- Statements, and then content. -/
  | after (body : List Stmt) (content : Content)

inductive Given where
  | value (e : Expr)
  | style (entries : List (String × Expr))
  | children (content : Content)
  | handler (body : List Stmt)

end

instance : Inhabited Expr := ⟨.literal .null⟩

instance : Inhabited Stmt := ⟨.log []⟩

instance : Inhabited Content := ⟨.list []⟩

instance : Inhabited Given := ⟨.value default⟩

abbrev Block := List Stmt

end ReactiveMarkup.Program
