/-
The values of expressions.

A name that stands for nothing gives nothing. Reading a property runs what it
was given, so it goes through a call.
-/
import ReactiveMarkup.Program.World

namespace ReactiveMarkup.Program

open Dom (NodeId Scalar)
open Reactive (Action View)

/-! ### Small actions -/

def ask : Act World := Action.look Action.pure

def tell (f : World → World) : Act Unit := Action.change f (Action.pure ())

def survey : Act (View setting) := Action.survey Action.pure

/-- Runs code, and holds on to items meanwhile. -/
def perform (code : Code) (held : List Item := []) : Act Result := Action.call code held Action.pure

def log (entry : Entry) : Act Unit := tell fun w => { w with log := entry :: w.log }

def Result.toValue : Result → Value
  | .value v => v
  | _ => .null

/-! ### Facts -/

def describeCell (kind : CellKind) (value : Option Value) (subscribers : Nat) : Value :=
  let rest := ", subscribers: " ++ toString subscribers ++ " \x7d"
  match kind with
  | .signal =>
    .text ("Signal \x7b id: _, value: " ++ (value.map Value.toText).getD "" ++ rest)
  | .memo =>
    let value := match value with
      | some v => "Some(" ++ v.toText ++ ")"
      | none => "None"
    .text ("Memo \x7b id: _, value: " ++ value ++ rest)
  | .pair => .null

def textList (texts : List String) : Value := .list (texts.map Value.text)

def kindName : Dom.Kind → String
  | .document => "Document"
  | .fragment => "Fragment"
  | .element => "Element"
  | .text => "Text"
  | .comment => "Comment"

def describeEvent (w : World) (e : Dom.Event) : String :=
  "Event \x7b name: " ++ Dom.describeText e.name ++ ", target: " ++ w.store.describe e.target ++
    ", propagation_stopped: " ++ Scalar.boolText e.stopped ++ " \x7d"

def eventFact (w : World) (e : Dom.Event) : EventQuery → Value
  | .name => .text e.name
  | .describe => .text (describeEvent w e)
  | .target => .text (w.store.describe e.target)
  | .current => .ofText? (e.current.map w.store.describe)
  | .stopped => .bool e.stopped
  | .prevented => .bool e.prevented

def nodeFact (w : World) (roots : List NodeId) (n : NodeId) : NodeQuery → Value
  | .html => .text (w.store.html n)
  | .text => .text (w.store.textContent n)
  | .data => .text (w.store.node n).data
  | .kind => .text (kindName (w.store.node n).kind)
  | .tag => .text (w.store.node n).tag
  | .isElement => .bool ((w.store.node n).kind = .element)
  | .describe => .text (w.store.describe n)
  | .childCount => .ofNat (w.store.children n).length
  | .first => .ofText? ((w.store.children n).head?.map w.store.describe)
  | .attributes => textList (w.store.node n).attributes.keys
  | .parent => .ofText? ((w.store.parentIn? roots n).map w.store.describe)
  | .hasDocument => .bool (w.store.documentIn? roots n).isSome

def keyFact (w : World) (roots : List NodeId) (n : NodeId) (k : String) : KeyQuery → Value
  | .attribute => .ofText? ((w.store.node n).attributes.get? k)
  | .hasAttribute => .bool ((w.store.node n).attributes.has k)
  | .property => .scalar (((w.store.node n).properties.get? k).getD .null)
  | .hasProperty => .bool (w.store.hasProperty n k)
  | .style => .ofText? ((w.store.node n).style.get? k)
  | .listeners => .ofNat (w.store.listenersFor n k).length
  | .hasHandler => .bool ((w.store.node n).handlers.has k)
  | .isDelegated =>
    match w.store.documentIn? roots n with
    | some document => .bool ((w.store.node document).delegated.contains k)
    | none => .null

/-! ### Cells and records -/

def askCell (q : CellQuery) (c : String) : Act Value := do
  match (← ask).cells.get? c with
  | none => return .null
  | some cell =>
    match q with
    | .get => Action.read cell.source true Action.pure
    | .peek => Action.read cell.source false Action.pure
    | .subscribers =>
      if cell.kind = .pair then return .null
      return .ofNat ((← survey).graph.subscribers cell.source).length
    | .describe =>
      let g := (← survey).graph
      return describeCell cell.kind (g.value? cell.source) (g.subscribers cell.source).length

def readAccessor : Accessor → Act Scalar
  | .value s => return s
  | .expr env e => return (← perform (.value env [] e)).toValue.toScalar

def contentsOf (w : World) (record : Nat) : Table Accessor := (w.contents[record]?).getD []

def readProperty (record : Nat) (key : String) : Act (Option Scalar) := do
  match (contentsOf (← ask) record).get? key with
  | some accessor => return some (← readAccessor accessor)
  | none => return none

def askRecord (q : RecordQuery) (p : String) : Act Value := do
  let w ← ask
  match w.records.get? p with
  | none => return .null
  | some record =>
    let properties := contentsOf w record
    match q with
    | .get key => return .scalar ((← readProperty record key).getD .null)
    | .has key => return .bool (properties.has key)
    | .keys => return textList properties.keys
    | .describe =>
      return .text ("[" ++ ", ".intercalate (properties.keys.map Dom.describeText) ++ "]")

/-- The answer to a question about a view. The record goes before the defaults. -/
def askView (q : RecordQuery) (v : String) : Act Value := do
  let w ← ask
  match w.views.get? v with
  | none => return .null
  | some overlay =>
    let properties := contentsOf w overlay.record
    match q with
    | .get key =>
      let found ← readProperty overlay.record key
      return .scalar ((found.orElse fun _ => overlay.defaults.get? key).getD .null)
    | .has key => return .bool (properties.has key || overlay.defaults.has key)
    | .keys =>
      let more := properties.keys.filter fun k => !overlay.defaults.has k
      return textList (overlay.defaults.keys ++ more)
    | .describe => return .null

/-! ### Expressions -/

def Arith.apply : Arith → Float → Float → Float
  | .add, x, y => x + y
  | .sub, x, y => x - y
  | .mul, x, y => x * y
  | .div, x, y => x / y
  | .mod, x, y => Number.remainder x y

mutual

def eval (env : Env) : Expr → Act Value
  | .literal s => return .scalar s
  | .cell q c => askCell q c
  | .arith op a b => do
    let x ← eval env a
    let y ← eval env b
    return .number (op.apply x.toNumber y.toNumber)
  | .less a b => do
    let x ← eval env a
    let y ← eval env b
    return .bool (x.toNumber < y.toNumber)
  | .equal a b => do
    let x ← eval env a
    let y ← eval env b
    return .bool (x == y)
  | .not a => return .bool !(← eval env a).isTruthy
  | .cond c a b => do if (← eval env c).isTruthy then eval env a else eval env b
  | .join es => return .text (String.join ((← evalAll env es).map Value.toText))
  | .list es => return .list (← evalAll env es)
  | .untrack e => Action.untrack (.value env [] e) fun r => Action.pure r.toValue
  | .tracking => return .bool (← survey).graph.current.isSome
  | .item => return env.item
  | .index => return env.index
  | .it => return env.it
  | .event q => do
    let w ← ask
    return match env.event with
      | some e => eventFact w (w.event e) q
      | none => .null
  | .node q n => do
    let v ← survey
    return match v.host.nodes.get? n with
      | some id => nodeFact v.host (rootsOf v) id q
      | none => .null
  | .key q n k => do
    let v ← survey
    return match v.host.nodes.get? n with
      | some id => keyFact v.host (rootsOf v) id k q
      | none => .null
  | .same m n => do
    let w ← ask
    return match w.nodes.get? m, w.nodes.get? n with
      | some a, some b => .bool (a == b)
      | _, _ => .null
  | .record q p => askRecord q p
  | .view q v => askView q v

def evalAll (env : Env) : List Expr → Act (List Value)
  | [] => return []
  | e :: rest => do
    let v ← eval env e
    return v :: (← evalAll env rest)

end

def evalPairs {α : Type} (env : Env) (f : Value → α) :
    List (String × Expr) → Act (List (String × α))
  | [] => return []
  | (k, e) :: rest => do
    let v ← eval env e
    return (k, f v) :: (← evalPairs env f rest)

end ReactiveMarkup.Program
