/-
What the statements of a module do.

Statements run one after another.  They bind names, make and move nodes, and leave
effects behind, which run at once and again whenever something that they have read
has changed.  An effect keeps the names that were bound where it was made.  An
expression is only seen through its meaning, in the scope of the names that
repetitions bind.  Some names are taken from outside, and are what they always are
unless a repetition has bound the same name.

A run fails if a name is bound twice in a block, cannot be bound, or is not bound to
what is needed, and on what cannot be written down or is not known: a text without
parts, a component.
-/
import ReactiveMarkup.Dom.Listening
import ReactiveMarkup.Output.Build
import ReactiveMarkup.Proofs.Template.Rendering
import ReactiveMarkup.Script.Grammar.Parser

namespace ReactiveMarkup.Output

open Dom (NodeId Store)
open Markup (Segment)
open Template
open Text (lowered)

/-! ### Names -/

/-- What a name is bound to.  A list of nodes changes, so it is held in a cell. -/
inductive Bound (V : Type) where
  | node (n : NodeId)
  | nodes (cell : Nat)
  | list (items : List V)
  | index (i : Nat)
  | value (v : V)

abbrev Env (V : Type) := Table (Bound V)

/-- The names that statements take from outside: the document, functions of the language, and the
function that runs effects. -/
def outerNames : List String := ["document", "String", "Array", effectName]

/-- Words that no module can bind, beyond those that are reserved in all scripts. -/
def moduleWords : List String := [
  "arguments", "await", "eval", "implements", "interface", "let", "package", "private", "protected",
  "public", "static", "yield"]

/-- Whether a template may choose a name, as far as the name itself goes. -/
def isBindable (name : String) : Bool :=
  Text.isIdentifier name.toList && !(Script.Grammar.reservedWords ++ moduleWords).contains name

/-- What expressions see of the names that are bound. -/
def scopeOf {V : Type} (env : Env V) : Scope V := fun name =>
  match env.get? name with
  | some (.value v) => some v
  | _ => none

/-- The names that are bound, and which of them in the innermost block. -/
structure Frame (V : Type) where
  env : Env V
  block : List String

namespace Frame

variable {V : Type}

def enter (env : Env V) : Frame V := ⟨env, []⟩

/-- Binds a name.  A block binds no name twice. -/
def declare (frame : Frame V) (name : String) (bound : Bound V) : Option (Frame V) :=
  if name ∈ frame.block then none else some ⟨(name, bound) :: frame.env, name :: frame.block⟩

/-- Binds a name that a repetition has chosen. -/
def choose (frame : Frame V) (name : String) (v : V) : Option (Frame V) :=
  if isBindable name then frame.declare name (.value v) else none

/-- Finds a name from outside, if nothing that is bound hides it. -/
def outer? (frame : Frame V) (name : String) : Option Unit :=
  if (frame.env.get? name).isSome then none else some ()

def node? (frame : Frame V) (x : Local) : Option NodeId :=
  match frame.env.get? x.name with
  | some (.node n) => some n
  | _ => none

def cell? (frame : Frame V) (x : Local) : Option Nat :=
  match frame.env.get? x.name with
  | some (.nodes c) => some c
  | _ => none

def list? (frame : Frame V) (x : Local) : Option (List V) :=
  match frame.env.get? x.name with
  | some (.list items) => some items
  | _ => none

def index? (frame : Frame V) (x : Local) : Option Nat :=
  match frame.env.get? x.name with
  | some (.index i) => some i
  | _ => none

def value? (frame : Frame V) (x : Local) : Option V :=
  match frame.env.get? x.name with
  | some (.value v) => some v
  | _ => none

end Frame

/-! ### States -/

inductive Read (V : Type) where
  | condition (source : String) (scope : Scope V)
  | list (source : String) (scope : Scope V)
  | value (source : String) (scope : Scope V)

def Read.Same {V : Type} (m m' : Meaning V) : Read V → Prop
  | .condition source scope => m.holds source scope = m'.holds source scope
  | .list source scope => m.items source scope = m'.items source scope
  | .value source scope => m.value source scope = m'.value source scope

def dataReads {V : Type} (σ : Scope V) (data : List Segment) : List (Read V) :=
  data.filterMap fun segment =>
    match segment with
    | .literal _ => none
    | .expression source => some (.value source σ)

/-- An effect: the effects that it was made in, the innermost one first; the names that were bound
there; what it does; what it read when it ran last; and whether it is still in use. -/
structure Effect (V : Type) where
  owners : List Nat
  env : Env V
  body : List Statement
  reads : List (Read V)
  active : Bool

/-- All nodes, the document that new ones are made for, the lists of nodes, and all effects. -/
structure State (V : Type) where
  dom : Store (Closure V)
  document : NodeId
  cells : List (List NodeId)
  effects : List (Effect V)

namespace State

variable {V : Type}

def withDom (s : State V) (dom : Store (Closure V)) : State V := { s with dom }

def setCell (s : State V) (c : Nat) (ns : List NodeId) : State V :=
  { s with cells := s.cells.set c ns }

/-- The state with one more effect, which has read nothing yet. -/
def addEffect (s : State V) (owners : List Nat) (env : Env V) (body : List Statement) : State V :=
  { s with effects := s.effects ++ [⟨owners, env, body, [], true⟩] }

def setReads (s : State V) (e : Nat) (reads : List (Read V)) : State V :=
  { s with effects := s.effects.modify e fun r => { r with reads } }

/-- Takes all effects out of use that were made in an effect. -/
def dispose (s : State V) (e : Nat) : State V :=
  { s with
    effects := s.effects.map fun r => if e ∈ r.owners then { r with active := false } else r }

def create (s : State V) (frame : Frame V) (x : Local) (kind : Dom.Kind) (tag data : String) :
    Option (Frame V × State V × List (Read V)) := do
  frame.outer? "document"
  let (dom, n) := s.dom.create s.document kind tag data
  let frame ← frame.declare x.name (.node n)
  return (frame, s.withDom dom, [])

end State

/-! ### Running -/

section Running

variable {V : Type} [Presentable V] (m : Meaning V)

/-- Gives a text its data, and tells what was read. -/
def setText (x : Local) (data : List Segment) (frame : Frame V) (s : State V) :
    Option (State V × List (Read V)) := do
  let n ← frame.node? x
  if data.isEmpty then none
  else
    unless isStatic data do frame.outer? "String"
    let σ := scopeOf frame.env
    return (s.withDom (s.dom.setData n (textOf m σ data)), dataReads σ data)

def putValue (dom : Store (Closure V)) (n : NodeId) (name : String) (v : V) :
    Store (Closure V) :=
  if Presentable.isAbsent v then dom.removeAttribute n (lowered name)
  else dom.setAttribute n (lowered name) (Presentable.text v)

def iterate (step : Nat → State V → Option (State V × List (Read V))) :
    Nat → Nat → State V → Option (State V × List (Read V))
  | 0, _, s => some (s, [])
  | count + 1, i, s => do
    let (s, reads) ← step i s
    let (s, more) ← iterate step count (i + 1) s
    return (s, reads ++ more)

mutual

/-- Runs a statement inside effects, and tells what it read outside the effects that it made. -/
def Statement.run (owners : List Nat) :
    Statement → Frame V → State V → Option (Frame V × State V × List (Read V))
  | .createText x, frame, s => s.create frame x .text "" ""
  | .createElement x tag, frame, s => s.create frame x .element tag ""
  | .createFragment x, frame, s => s.create frame x .fragment "" ""
  | .createComment x label, frame, s => s.create frame x .comment "" label
  | .createComponent _ _, _, _ => none
  | .append parent child, frame, s => do
    let p ← frame.node? parent
    let n ← frame.node? child
    return (frame, s.withDom (s.dom.append p n), [])
  | .setData x data, frame, s => do
    let (s, reads) ← setText m x data frame s
    return (frame, s, reads)
  | .bindData x data, frame, s => do
    frame.outer? effectName
    let e := s.effects.length
    let s := s.addEffect owners frame.env [.setData x data]
    let (s, reads) ← setText m x data (.enter frame.env) s
    return (frame, s.setReads e reads, [])
  | .setAttribute x name value, frame, s => do
    let n ← frame.node? x
    return (frame, s.withDom (s.dom.setAttribute n (lowered name) value), [])
  | .declareValue x expression, frame, s => do
    let σ := scopeOf frame.env
    let frame ← frame.declare x.name (.value (m.value expression σ))
    return (frame, s, [.value expression σ])
  | .updateAttribute x name value, frame, s => do
    let n ← frame.node? x
    let v ← frame.value? value
    unless Presentable.isAbsent v do frame.outer? "String"
    return (frame, s.withDom (putValue s.dom n name v), [])
  | .setHandler x event, frame, s => do
    let n ← frame.node? x
    let closure := ⟨handler event.expression, scopeOf frame.env⟩
    return (frame, s.withDom (s.dom.setHandler n (lowered event.name) closure), [])
  | .declareNodes x, frame, s => do
    let frame ← frame.declare x.name (.nodes s.cells.length)
    return (frame, { s with cells := s.cells ++ [[]] }, [])
  | .clearNodes nodes _, frame, s => do
    let c ← frame.cell? nodes
    let ns ← s.cells[c]?
    return (frame, (s.withDom (ns.foldl Store.detach s.dom)).setCell c [], [])
  | .declareList x expression, frame, s => do
    let σ := scopeOf frame.env
    let frame ← frame.declare x.name (.list ((m.items expression σ).getD []))
    return (frame, s, [.list expression σ])
  | .declareItem name list index, frame, s => do
    let items ← frame.list? list
    let i ← frame.index? index
    let item ← items[i]?
    let frame ← frame.choose name item
    return (frame, s, [])
  | .declareIndex name index, frame, s => do
    let i ← frame.index? index
    let frame ← frame.choose name (Presentable.ofIndex i)
    return (frame, s, [])
  | .keepNodes nodes fragment, frame, s => do
    frame.outer? "Array"
    let c ← frame.cell? nodes
    let f ← frame.node? fragment
    return (frame, s.setCell c (s.dom.children f), [])
  | .keepMoreNodes nodes fragment, frame, s => do
    let c ← frame.cell? nodes
    let f ← frame.node? fragment
    let ns ← s.cells[c]?
    return (frame, s.setCell c (ns ++ s.dom.children f), [])
  | .place fragment anchor, frame, s => do
    let f ← frame.node? fragment
    let a ← frame.node? anchor
    let p ← s.dom.parent? a
    let dom ← s.dom.insertBefore? p f a
    return (frame, s.withDom dom, [])
  | .effect body, frame, s => do
    frame.outer? effectName
    let e := s.effects.length
    let s := s.addEffect owners frame.env body
    let (_, s, reads) ← runAll (e :: owners) body (.enter frame.env) s
    return (frame, s.setReads e reads, [])
  | .loop list index body, frame, s => do
    let items ← frame.list? list
    let step := fun i s =>
      (runAll owners body (.enter ((index.name, .index i) :: frame.env)) s).map Prod.snd
    let (s, reads) ← iterate step items.length 0 s
    return (frame, s, reads)
  | .conditional condition body rest, frame, s => do
    let σ := scopeOf frame.env
    let (s, reads) ←
      if m.holds condition σ then (runAll owners body (.enter frame.env) s).map Prod.snd
      else rest.run owners frame.env s
    return (frame, s, .condition condition σ :: reads)

def runAll (owners : List Nat) :
    List Statement → Frame V → State V → Option (Frame V × State V × List (Read V))
  | [], frame, s => some (frame, s, [])
  | statement :: rest, frame, s => do
    let (frame, s, reads) ← statement.run owners frame s
    let (frame, s, more) ← runAll owners rest frame s
    return (frame, s, reads ++ more)

def Alternatives.run (owners : List Nat) :
    Alternatives → Env V → State V → Option (State V × List (Read V))
  | .done, _, s => some (s, [])
  | .otherwise body, env, s => (runAll owners body (.enter env) s).map Prod.snd
  | .elseIf condition body rest, env, s => do
    let σ := scopeOf env
    let (s, reads) ←
      if m.holds condition σ then (runAll owners body (.enter env) s).map Prod.snd
      else rest.run owners env s
    return (s, .condition condition σ :: reads)

end

/-- The first run of the statements of a module: what it leaves, and the fragment that the module
returns. -/
def execute (statements : List Statement) (dom : Store (Closure V)) (document : NodeId) :
    Option (State V × NodeId) := do
  let (frame, s, _) ← runAll m [] statements (.enter []) ⟨dom, document, [], []⟩
  let root ← frame.node? .root
  return (s, root)

/-! ### Running again -/

namespace State

/-- Runs an effect again.  The effects that it has made are taken out of use before. -/
def rerun (s : State V) (e : Nat) : Option (State V) := do
  let r ← s.effects[e]?
  let (_, s, reads) ← runAll m (e :: r.owners) r.body (.enter r.env) (s.dispose e)
  return s.setReads e reads

def isActive (s : State V) (e : Nat) : Bool := (s.effects[e]?).any (·.active)

/-- Runs effects again one after another, without those that are no longer in use when their turn
comes. -/
def update (s : State V) (order : List Nat) : Option (State V) :=
  order.foldlM (fun s e => if s.isActive e then s.rerun m e else some s) s

/-- Whether an effect in use has read something that is not the same under another meaning. -/
def Affected (s : State V) (m' : Meaning V) (e : Nat) : Prop :=
  ∃ r, s.effects[e]? = some r ∧ r.active ∧ ∃ read ∈ r.reads, ¬ read.Same m m'

end State

/-- What a module can come to after any number of changes of what its expressions mean.  After each
change exactly the effects run again that have read something which has changed, in any order. -/
inductive Reached (statements : List Statement) (dom : Store (Closure V)) (document root : NodeId) :
    Meaning V → State V → Prop where
  | first {m : Meaning V} {s : State V} :
    execute m statements dom document = some (s, root) →
    Reached statements dom document root m s
  | change {m m' : Meaning V} {s s' : State V} {order : List Nat} :
    Reached statements dom document root m s → order.Nodup →
    (∀ e, e ∈ order ↔ s.Affected m m' e) → s.update m' order = some s' →
    Reached statements dom document root m' s'

end Running

end ReactiveMarkup.Output
