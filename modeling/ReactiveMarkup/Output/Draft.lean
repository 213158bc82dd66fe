/-
How the statements of a module are written.

A line is a sequence of pieces: fixed wording, text that the template gives, local
names that are bound or used, and names that a repetition has chosen.  A line may open
a block, close one, or do both.  The lines are written out with these blocks as
indentation.
-/
import ReactiveMarkup.Output.Handler
import ReactiveMarkup.Output.Statement

namespace ReactiveMarkup.Output

open Text (quote lowered isIdentifier)
open Markup (Segment)
open Template (Head)

/-! ### Lines -/

inductive Piece where
  /-- What is the same in all modules. -/
  | wording (text : String)
  /-- What comes from the template: expressions, and texts in quotes. -/
  | given (text : String)
  /-- The function that runs effects. -/
  | runner
  /-- A local name, which the line binds. -/
  | bound (x : Local)
  /-- A local name, which is bound elsewhere. -/
  | used (x : Local)
  /-- A name that a repetition has chosen, and that the line binds. -/
  | chosen (name : String)
  deriving DecidableEq, Repr

def Piece.text : Piece → String
  | .wording text | .given text => text
  | .runner => effectName
  | .bound x | .used x => x.name
  | .chosen name => name

/-- What a line does to blocks.  An `apart` line is a block of its own. -/
inductive Turn where
  | stays
  | apart
  | opens
  | closes
  | reopens
  deriving DecidableEq, Repr

/-- Whether a block is open after the line that was not before. -/
def Turn.isOpening : Turn → Bool
  | .opens | .reopens => true
  | _ => false

/-- Whether a block that was open before the line is closed by it. -/
def Turn.isClosing : Turn → Bool
  | .closes | .reopens => true
  | _ => false

structure Draft where
  turn : Turn
  pieces : List Piece
  deriving DecidableEq, Repr

def Draft.text (d : Draft) : String := d.pieces.foldr (fun p rest => p.text ++ rest) ""

/-- The depth at which a line is written, if `depth` blocks are open before it. -/
def Turn.before (turn : Turn) (depth : Nat) : Nat := if turn.isClosing then depth - 1 else depth

/-- How many blocks are open after a line. -/
def Turn.after (turn : Turn) (depth : Nat) : Nat :=
  if turn.isOpening then turn.before depth + 1 else turn.before depth

def line (depth : Nat) (text : String) : String :=
  String.ofList (List.replicate (2 * depth) ' ') ++ text

/-- Lines, where `depth` blocks are open. -/
def write : Nat → List Draft → List String
  | _, [] => []
  | depth, d :: rest => line (d.turn.before depth) d.text :: write (d.turn.after depth) rest

/-! ### Lines of statements -/

def dataCode (data : List Segment) : String :=
  " + ".intercalate (data.map fun segment => match segment with
    | .literal text => quote text
    | .expression source => "String(" ++ source ++ ")")

/-- What follows an element where its handler for an event is set. -/
def slotSuffix (event : String) : String :=
  let property := "$$" ++ lowered event
  if isIdentifier property.toList then "." ++ property else "[" ++ quote property ++ "]"

def propertyCodes (head : Head) : List String :=
  (head.attributes.map fun a =>
    quote a.name ++ ": " ++ match a.value with
      | some value => quote value
      | none => "true") ++
  (head.bindings.map fun b =>
    "get " ++ quote b.name ++ "() \x7b return (" ++ b.expression ++ "); \x7d") ++
  (head.events.map fun b => quote (handlerProperty b.name) ++ ": " ++ handler b.expression)

def propertiesCode (head : Head) : String :=
  match propertyCodes head with
  | [] => "\x7b\x7d"
  | entries => "\x7b " ++ ", ".intercalate entries ++ " \x7d"

mutual

def Statement.drafts : Statement → List Draft
  | .createText x =>
    [⟨.stays, [.wording "const ", .bound x, .wording " = document.createTextNode(\"\");"]⟩]
  | .createElement x tag =>
    [⟨.stays, [.wording "const ", .bound x, .wording " = document.createElement(",
      .given (quote tag), .wording ");"]⟩]
  | .createFragment x =>
    [⟨.stays, [.wording "const ", .bound x, .wording " = document.createDocumentFragment();"]⟩]
  | .createComment x label =>
    [⟨.stays, [.wording "const ", .bound x, .wording " = document.createComment(",
      .given (quote label), .wording ");"]⟩]
  | .createComponent x head =>
    [⟨.stays, [.wording "const ", .bound x, .wording " = ", .given head.tag, .wording "(",
      .given (propertiesCode head), .wording ");"]⟩]
  | .append parent child =>
    [⟨.stays, [.used parent, .wording ".appendChild(", .used child, .wording ");"]⟩]
  | .setData x data =>
    [⟨.stays, [.used x, .wording ".data = ", .given (dataCode data), .wording ";"]⟩]
  | .bindData x data =>
    [⟨.stays, [.runner, .wording "(() => \x7b ", .used x, .wording ".data = ",
      .given (dataCode data), .wording "; \x7d);"]⟩]
  | .setAttribute x name value =>
    [⟨.stays, [.used x, .wording ".setAttribute(", .given (quote name), .wording ", ",
      .given (quote value), .wording ");"]⟩]
  | .declareValue x expression =>
    [⟨.stays, [.wording "const ", .bound x, .wording " = (", .given expression, .wording ");"]⟩]
  | .updateAttribute x name value =>
    [⟨.stays, [.wording "if (", .used value, .wording " == null || ", .used value,
      .wording " === false) ", .used x, .wording ".removeAttribute(", .given (quote name),
      .wording ");"]⟩,
     ⟨.stays, [.wording "else ", .used x, .wording ".setAttribute(", .given (quote name),
      .wording ", String(", .used value, .wording "));"]⟩]
  | .setHandler x event =>
    [⟨.stays, [.used x, .given (slotSuffix event.name), .wording " = ",
      .given (handler event.expression), .wording ";"]⟩]
  | .declareNodes x => [⟨.stays, [.wording "let ", .bound x, .wording " = [];"]⟩]
  | .clearNodes nodes node =>
    [⟨.apart, [.wording "for (const ", .bound node, .wording " of ", .used nodes, .wording ") ",
      .used node, .wording ".remove();"]⟩,
     ⟨.stays, [.used nodes, .wording " = [];"]⟩]
  | .declareList x expression =>
    [⟨.stays, [.wording "const ", .bound x, .wording " = (", .given expression,
      .wording ") ?? [];"]⟩]
  | .declareItem name list index =>
    [⟨.stays, [.wording "const ", .chosen name, .wording " = ", .used list, .wording "[",
      .used index, .wording "];"]⟩]
  | .declareIndex name index =>
    [⟨.stays, [.wording "const ", .chosen name, .wording " = ", .used index, .wording ";"]⟩]
  | .keepNodes nodes fragment =>
    [⟨.stays, [.used nodes, .wording " = Array.from(", .used fragment,
      .wording ".childNodes);"]⟩]
  | .keepMoreNodes nodes fragment =>
    [⟨.stays, [.used nodes, .wording ".push(...", .used fragment, .wording ".childNodes);"]⟩]
  | .place fragment anchor =>
    [⟨.stays, [.used anchor, .wording ".parentNode.insertBefore(", .used fragment, .wording ", ",
      .used anchor, .wording ");"]⟩]
  | .effect body =>
    ⟨.opens, [.runner, .wording "(() => \x7b"]⟩ :: blockDrafts body ++
      [⟨.closes, [.wording "\x7d);"]⟩]
  | .loop list index body =>
    ⟨.opens, [.wording "for (let ", .bound index, .wording " = 0; ", .used index, .wording " < ",
      .used list, .wording ".length; ", .used index, .wording "++) \x7b"]⟩ :: blockDrafts body ++
      [⟨.closes, [.wording "\x7d"]⟩]
  | .conditional condition body rest =>
    ⟨.opens, [.wording "if (", .given condition, .wording ") \x7b"]⟩ :: blockDrafts body ++
      rest.drafts

def blockDrafts : List Statement → List Draft
  | [] => []
  | s :: rest => s.drafts ++ blockDrafts rest

def Alternatives.drafts : Alternatives → List Draft
  | .done => [⟨.closes, [.wording "\x7d"]⟩]
  | .otherwise body =>
    ⟨.reopens, [.wording "\x7d else \x7b"]⟩ :: blockDrafts body ++ [⟨.closes, [.wording "\x7d"]⟩]
  | .elseIf condition body rest =>
    ⟨.reopens, [.wording "\x7d else if (", .given condition, .wording ") \x7b"]⟩ ::
      blockDrafts body ++ rest.drafts

end

def Statement.lines (depth : Nat) (s : Statement) : List String := write depth s.drafts

end ReactiveMarkup.Output
