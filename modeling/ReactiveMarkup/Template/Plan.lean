/-
Templates with their conditions grouped.

Sibling elements with `tn-if`, `tn-else-if` and `tn-else` form one chain, with
nothing but blank texts between them, which are dropped.  An element that
continues a chain has to follow one.  An element that is repeated and conditional
is a condition around a repetition.
-/
import ReactiveMarkup.Template.Node

namespace ReactiveMarkup.Template

open Markup (Segment)

mutual

inductive Item where
  | text (segments : List Segment)
  | element (head : Head) (children : List Item)
  | each (clause : ForClause) (body : Item)
  | chain (condition : String) (body : Item) (rest : Branches)

inductive Branches where
  | done
  | otherwise (body : Item)
  | elseIf (condition : String) (body : Item) (rest : Branches)

end

/-- A chain that may go on: its conditions and bodies so far, the last one first, and the blank
texts since. -/
structure OpenChain where
  condition : String
  body : Item
  others : List (String × Item)
  blanks : List (List Segment)

/-- The branches after the first one, of which those with a condition are given with the last one
first. -/
def Branches.ofList (others : List (String × Item)) (last : Branches) : Branches :=
  others.foldl (fun rest b => .elseIf b.1 b.2 rest) last

namespace OpenChain

def start (condition : String) (body : Item) : OpenChain := ⟨condition, body, [], []⟩

/-- The chain with one more branch; blank texts before it are dropped. -/
def push (chain : OpenChain) (condition : String) (body : Item) : OpenChain :=
  { chain with others := (condition, body) :: chain.others, blanks := [] }

def skip (chain : OpenChain) (segments : List Segment) : OpenChain :=
  { chain with blanks := chain.blanks ++ [segments] }

def close (chain : OpenChain) : List Item :=
  .chain chain.condition chain.body (.ofList chain.others .done) :: chain.blanks.map Item.text

def closeWith (chain : OpenChain) (body : Item) : Item :=
  .chain chain.condition chain.body (.ofList chain.others (.otherwise body))

end OpenChain

def closeChain : Option OpenChain → List Item
  | none => []
  | some chain => chain.close

def repeated (head : Head) (children : List Item) : Item :=
  match head.directives.each with
  | some clause => .each clause (.element head children)
  | none => .element head children

def orphan (file : String) (kind : BranchKind) (head : Head) : Fault :=
  ⟨.orphanBranch kind head.tag, file, head.position, none⟩

/-- Groups siblings, given the chain that the first of them may continue. -/
def planFrom (file : String) : Option OpenChain → List Node → Except Fault (List Item)
  | chain, [] => .ok (closeChain chain)
  | chain, .text segments :: rest =>
    match chain, isBlankRun segments with
    | some chain, true => planFrom file (some (chain.skip segments)) rest
    | chain, _ => do
      let items ← planFrom file none rest
      return closeChain chain ++ .text segments :: items
  | chain, .element head children :: rest =>
    match head.directives.condition, head.directives.branchKind? with
    | some condition, _ => do
      let inner ← planFrom file none children
      let items ← planFrom file (some (.start condition (repeated head inner))) rest
      return closeChain chain ++ items
    | none, none => do
      let inner ← planFrom file none children
      let items ← planFrom file none rest
      return closeChain chain ++ repeated head inner :: items
    | none, some kind =>
      match chain with
      | none => .error (orphan file kind head)
      | some chain => do
        let inner ← planFrom file none children
        match head.directives.elseIf with
        | some condition => planFrom file (some (chain.push condition (repeated head inner))) rest
        | none => do
          let items ← planFrom file none rest
          return chain.closeWith (repeated head inner) :: items
termination_by _ nodes => sizeOf nodes
decreasing_by
  all_goals
    simp only [List.cons.sizeOf_spec, Node.text.sizeOf_spec, Node.element.sizeOf_spec]
    omega

def plan (file : String) (nodes : List Node) : Except Fault (List Item) :=
  planFrom file none nodes

end ReactiveMarkup.Template
