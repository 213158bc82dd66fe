/-
The statements that build a template.

Each part is built into a parent. A chain or a repetition leaves a comment as its
anchor, and an effect that takes away the nodes of its last run, builds new ones
into a fragment and places them before the anchor.
-/
import ReactiveMarkup.Template.Plan
import ReactiveMarkup.Output.Statement

namespace ReactiveMarkup.Output

open Template

abbrev Fresh := StateM Nat

def fresh (kind : LocalKind) : Fresh Local := fun n => (⟨kind, n + 1⟩, n + 1)

/-- What the effect does that keeps a bound attribute. -/
def bindingBody (x value : Local) (b : Binding) : List Statement :=
  [.declareValue value b.expression, .updateAttribute x b.name value]

/-- The effects that keep bound attributes, with names for their values that are numbered from `k`
on. -/
def bindingStatements (x : Local) : List Binding → Nat → List Statement
  | [], _ => []
  | b :: rest, k => .effect (bindingBody x ⟨.value, k + 1⟩ b) :: bindingStatements x rest (k + 1)

def headStatements (x : Local) (head : Head) (k : Nat) : List Statement :=
  (head.attributes.map fun a => .setAttribute x a.name (a.value.getD "")) ++
    bindingStatements x head.bindings k ++ head.events.map fun b => .setHandler x b

def buildHead (x : Local) (head : Head) : Fresh (List Statement) :=
  fun k => (headStatements x head k, k + head.bindings.length)

def buildData (x : Local) (segments : List Markup.Segment) : Statement :=
  if isStatic segments then .setData x segments else .bindData x segments

mutual

def buildItem (parent : Local) : Item → Fresh (List Statement)
  | .text segments => do
    let x ← fresh .text
    return [.createText x, .append parent x, buildData x segments]
  | .element head children =>
    if head.isComponent then do
      let x ← fresh .component
      let inner ← build x children
      return [.createComponent x head, .append parent x] ++ inner
    else do
      let x ← fresh .element
      let own ← buildHead x head
      let inner ← build x children
      return [.createElement x head.tag, .append parent x] ++ own ++ inner
  | .each clause body => do
    let anchor ← fresh .anchor
    let nodes ← fresh .nodes
    let node ← fresh .node
    let list ← fresh .list
    let index ← fresh .index
    let fragment ← fresh .fragment
    let inner ← buildItem fragment body
    return [
      .createComment anchor "tn-for",
      .append parent anchor,
      .declareNodes nodes,
      .effect [
        .clearNodes nodes node,
        .declareList list clause.list,
        .loop list index (
          .declareItem clause.item list index ::
          (clause.index.toList.map fun name => .declareIndex name index) ++
          .createFragment fragment :: inner ++
          [.keepMoreNodes nodes fragment, .place fragment anchor])]]
  | .chain condition body rest => do
    let anchor ← fresh .anchor
    let nodes ← fresh .nodes
    let node ← fresh .node
    let fragment ← fresh .fragment
    let inner ← buildItem fragment body
    let others ← buildBranches fragment rest
    return [
      .createComment anchor "tn-if",
      .append parent anchor,
      .declareNodes nodes,
      .effect [
        .clearNodes nodes node,
        .createFragment fragment,
        .conditional condition inner others,
        .keepNodes nodes fragment,
        .place fragment anchor]]

def build (parent : Local) : List Item → Fresh (List Statement)
  | [] => return []
  | item :: rest => do
    let first ← buildItem parent item
    let others ← build parent rest
    return first ++ others

def buildBranches (parent : Local) : Branches → Fresh Alternatives
  | .done => return .done
  | .otherwise body => do
    let inner ← buildItem parent body
    return .otherwise inner
  | .elseIf condition body rest => do
    let inner ← buildItem parent body
    let others ← buildBranches parent rest
    return .elseIf condition inner others

end

def buildRoot (items : List Item) : List Statement :=
  .createFragment .root :: (build .root items 0).1

/-! ### Delegated events -/

mutual

/-- The events that elements in a node handle, with repetitions. -/
def eventsOf : Node → List String
  | .text _ => []
  | .element head children =>
    (if head.isComponent then [] else head.events.map fun b => Text.lowered b.name) ++
      eventsIn children

def eventsIn : List Node → List String
  | [] => []
  | node :: rest => eventsOf node ++ eventsIn rest

end

/-- Adds a text to an increasing list, unless it is there. -/
def insertSorted (s : String) : List String → List String
  | [] => [s]
  | t :: rest =>
    if s < t then s :: t :: rest else if s = t then t :: rest else t :: insertSorted s rest

/-- The events that elements of a template handle, in increasing order. -/
def delegatedEvents (nodes : List Node) : List String :=
  (eventsIn nodes).foldl (fun sorted e => insertSorted e sorted) []

end ReactiveMarkup.Output
