/-
What a template means: a tree of elements whose attributes have been sorted.

An element has plain attributes, attributes bound to expressions, event
handlers, and directives that say whether and how often it appears.
-/
import ReactiveMarkup.Markup.Tree

namespace ReactiveMarkup.Template

open Text (Position)
open Markup (Segment)

/-- Repetition over a list: the name of the item, perhaps the name of its index, and the list. -/
structure ForClause where
  item : String
  index : Option String
  list : String
  deriving DecidableEq, Repr

structure Directives where
  condition : Option String := none
  elseIf : Option String := none
  otherwise : Bool := false
  each : Option ForClause := none
  deriving DecidableEq, Repr

namespace Directives

def isConditional (d : Directives) : Bool :=
  d.condition.isSome || d.elseIf.isSome || d.otherwise

def isEmpty (d : Directives) : Bool := !d.isConditional && d.each.isNone

/-- The directives without the conditions. -/
def unconditional (d : Directives) : Directives := { each := d.each }

def branchKind? (d : Directives) : Option BranchKind :=
  if d.elseIf.isSome then some .elseIf else if d.otherwise then some .otherwise else none

end Directives

structure Binding where
  name : String
  expression : String
  deriving DecidableEq, Repr

structure Head where
  tag : String
  isComponent : Bool
  attributes : List Markup.Attribute
  bindings : List Binding
  events : List Binding
  directives : Directives
  position : Position
  deriving DecidableEq, Repr

inductive Node where
  | text (segments : List Segment)
  | element (head : Head) (children : List Node)

def isStatic (segments : List Segment) : Bool := segments.all Segment.isLiteral

def isBlankRun (segments : List Segment) : Bool := segments.all Segment.isBlank

end ReactiveMarkup.Template
