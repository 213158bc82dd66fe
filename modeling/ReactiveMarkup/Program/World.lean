/-
What programs work on.

* `World`: all nodes, the names of the program, and the log;
* `Code`: code that runs later or under a guard, with what it captured;
* `World.roots`: the nodes that are held on to.
-/
import ReactiveMarkup.Dom.Insertion
import ReactiveMarkup.Dom.Markup
import ReactiveMarkup.Program.Syntax
import ReactiveMarkup.Program.Value
import ReactiveMarkup.Reactive.Machine

namespace ReactiveMarkup.Program

open Dom (NodeId ListenerId Scalar Event)
open Reactive (SourceId)

abbrev EventId := Nat

/-- What the special words of expressions stand for. -/
structure Env where
  item : Value := .null
  index : Value := .null
  it : Value := .null
  event : Option EventId := none

def Env.later (env : Env) : Env := { env with event := none }

inductive Built where
  | node (n : NodeId)
  | scalar (s : Scalar)
  | list (items : List Built)
  | accessor (env : Env) (content : Content)

inductive Handler where
  | block (env : Env) (body : Block)
  /-- Looks up the handlers of the nodes that the event has passed. -/
  | walk (event : String)

inductive Gift where
  | value (s : Scalar)
  | style (entries : List (String × String))
  | children (content : Built)
  | handler (env : Env) (body : Block)

/-- Code that runs later or under a guard. -/
inductive Code where
  | block (env : Env) (body : Block)
  /-- Statements, and then the value of an expression. -/
  | value (env : Env) (body : Block) (e : Expr)
  /-- Statements whose reads are put down to nothing. -/
  | untracked (env : Env) (body : Block)
  | build (env : Env) (content : Content)
  | nodes (document : NodeId) (content : Built)
  /-- Keeps content that was put in up to date. -/
  | insertion (i : Nat)
  /-- Takes an event to a node and to those above it. -/
  | bubble (event : EventId) (n : NodeId)
  /-- Takes an event to the handlers of a node and of those above it. -/
  | walk (event : EventId) (name : String) (n : NodeId)

inductive Result where
  | nothing
  | value (v : Value)
  | content (c : Built)
  | nodes (ns : List NodeId)

inductive Item where
  | node (n : NodeId)
  | event (e : EventId)

inductive CellKind where
  | signal
  | memo
  | pair
  deriving DecidableEq

structure Cell where
  kind : CellKind
  source : SourceId

structure Insertion where
  parent : NodeId
  mark : Option NodeId
  document : NodeId
  env : Env
  content : Content
  nodes : List NodeId := []

inductive Accessor where
  | value (s : Scalar)
  | expr (env : Env) (e : Expr)

/-- A record of properties over defaults. -/
structure Overlay where
  record : Nat
  defaults : Table Scalar

inductive Entry where
  | values (vs : List Value)
  | unbound (name : String)
  | problem (e : Dom.Error)
  | noChild
  | noComputation
  | failed (message : String)
  | flushed (n : Nat)
  | removed (b : Bool)
  | dispatched (e : Event)
  | outline (o : Dom.Outline)
  | description (s : String)

structure World where
  store : Dom.Store Handler := {}
  main : NodeId := 0
  document : NodeId := 0
  cells : Table Cell := []
  nodes : Table NodeId := []
  listeners : Table ListenerId := []
  templates : Table NodeId := []
  records : Table Nat := []
  views : Table Overlay := []
  contents : Array (Table Accessor) := #[]
  events : Array Event := #[]
  insertions : Array Insertion := #[]
  /-- What the program has left behind, the latest first. -/
  log : List Entry := []

abbrev setting : Reactive.Setting where
  Value := Value
  Result := Result
  Code := Code
  Host := World
  Item := Item

abbrev Act := Reactive.Action setting

instance : BEq (Reactive.Setting.Value setting) := inferInstanceAs (BEq Value)

namespace World

def start : World :=
  let world : World := {}
  let (store, document) := world.store.newDocument
  let nodes := Table.put [] "document" document
  { world with
    store
    main := document
    document
    nodes := match store.body? document with
      | some body => nodes.put "body" body
      | none => nodes }

def event (w : World) (e : EventId) : Event := (w.events[e]?).getD ⟨"", 0, none, false, false⟩

def eventNodes (w : World) (e : EventId) : List NodeId :=
  let event := w.event e
  event.target :: event.current.toList

def itemNodes (w : World) : Item → List NodeId
  | .node n => [n]
  | .event e => w.eventNodes e

/-- The nodes that code holds on to while its computation is in use. -/
def codeNodes (w : World) : Code → List NodeId
  | .insertion i =>
    match w.insertions[i]? with
    | some x => x.parent :: x.document :: x.mark.toList ++ x.nodes
    | none => []
  | _ => []

/-- The nodes that are held on to: by names, by operations in progress, and by content kept up to
date. -/
def roots (w : World) (held : List Item) (living : List Code) : List NodeId :=
  w.main :: w.document :: w.nodes.map (·.2) ++ w.templates.map (·.2) ++
    held.flatMap w.itemNodes ++ living.flatMap w.codeNodes

end World

def rootsOf (v : Reactive.View setting) : List NodeId := v.host.roots v.held v.living

end ReactiveMarkup.Program
