/-
What can be wrong with a component file, and how it is told.

A `Problem` is a cause, and a `Fault` says in which file and where it was found.
A `Report` is what a user sees: a code, a message, the rule that is broken, the
place and hints. Each stage of the compiler is told the name of the file, for the
faults that it finds.
-/
import ReactiveMarkup.Text.Position

namespace ReactiveMarkup

open Text (Position)

inductive BranchKind where
  | elseIf
  | otherwise
  deriving DecidableEq, Repr

def BranchKind.directive : BranchKind → String
  | .elseIf => "tn-else-if"
  | .otherwise => "tn-else"

/-- What can be wrong with a component file. -/
inductive Problem where
  | templateMissing
  | templateUnclosed
  | templateEmpty
  | invalidOpening
  | unterminatedOpening (tag : String)
  | invalidClosing
  | strayClosing (name : String)
  | mismatchedClosing (expected found : String)
  | unclosed (tag : String)
  | unterminatedComment
  | missingValue (name tag : String)
  | invalidFor (tag value : String)
  | orphanBranch (kind : BranchKind) (tag : String)
  | unreadable (reason : String)
  deriving DecidableEq, Repr

namespace Problem

def code : Problem → String
  | templateMissing | templateUnclosed | templateEmpty => "TN-PARSE-001"
  | invalidOpening | unterminatedOpening _ => "TN-PARSE-002"
  | invalidClosing => "TN-PARSE-003"
  | strayClosing _ | mismatchedClosing _ _ => "TN-PARSE-004"
  | unclosed _ => "TN-PARSE-005"
  | unterminatedComment => "TN-PARSE-006"
  | missingValue _ _ => "TN-DIR-001"
  | invalidFor _ _ => "TN-DIR-002"
  | orphanBranch _ _ => "TN-DIR-003"
  | unreadable _ => "TN-IO-001"

def message : Problem → String
  | templateMissing => "No <template> block found"
  | templateUnclosed => "The <template> block is never closed"
  | templateEmpty => "The <template> block is empty"
  | invalidOpening => "Invalid opening tag"
  | unterminatedOpening tag => "Opening tag <" ++ tag ++ "> is never terminated with '>'"
  | invalidClosing => "Invalid closing tag"
  | strayClosing name => "Unexpected closing tag </" ++ name ++ "> with no open element"
  | mismatchedClosing expected found =>
    "Mismatched closing tag: expected </" ++ expected ++ "> but found </" ++ found ++ ">"
  | unclosed tag => "Unclosed tag <" ++ tag ++ ">"
  | unterminatedComment => "Unterminated comment"
  | missingValue name tag => "`" ++ name ++ "` on <" ++ tag ++ "> requires a value"
  | invalidFor tag value =>
    "Invalid tn-for expression on <" ++ tag ++ ">: \"" ++ value ++ "\""
  | orphanBranch kind tag =>
    "`" ++ kind.directive ++ "` on <" ++ tag ++ "> has no preceding `tn-if`"
  | unreadable reason => "Failed to read file: " ++ reason

def hints : Problem → List String
  | templateMissing | templateUnclosed | templateEmpty =>
    ["Wrap the component markup in <template>...</template>"]
  | unclosed tag => ["Add a matching </" ++ tag ++ ">"]
  | missingValue name _ => ["Write it as " ++ name ++ "=\"expression\""]
  | invalidFor _ _ => ["Expected `item in list` or `item, index in list`"]
  | orphanBranch _ tag => ["Place <" ++ tag ++ "> directly after an element with tn-if"]
  | _ => []

end Problem

/-- The rule that a file with an error of this code breaks. -/
def guarantee (code : String) : String :=
  if code == "TN-PARSE-001" then
    "Every component renders from exactly one non-empty <template> block."
  else if code == "TN-PARSE-002" || code == "TN-PARSE-003" then
    "Templates are only compiled from well-formed tag syntax."
  else if code == "TN-PARSE-004" || code == "TN-PARSE-005" then
    "Every opening tag is closed exactly once, by a tag of the same name."
  else if code == "TN-PARSE-006" then
    "Template comments never swallow the rest of the template."
  else if code == "TN-DIR-001" then
    "Directives, bindings and event handlers always carry an expression."
  else if code == "TN-DIR-002" then
    "List directives always bind an item alias over a single list expression."
  else if code == "TN-DIR-003" then
    "tn-else-if and tn-else only ever continue a tn-if chain."
  else if code == "TN-IO-001" then
    "Every discovered component source is read before it is compiled."
  else "Unknown invariant."

def family (code : String) : String :=
  if code.startsWith "TN-PARSE" then "PARSE_ERROR"
  else if code.startsWith "TN-DIR" then "DIRECTIVE_ERROR"
  else if code.startsWith "TN-IO" then "IO_ERROR"
  else "COMPILER_ERROR"

structure Fault where
  problem : Problem
  file : String
  position : Position
  context : Option String := none
  deriving DecidableEq, Repr

structure Report where
  code : String
  message : String
  file : String
  position : Position
  context : Option String := none
  hints : List String := []
  deriving DecidableEq, Repr

def Fault.report (fault : Fault) : Report where
  code := fault.problem.code
  message := fault.problem.message
  file := fault.file
  position := fault.position
  context := fault.context
  hints := fault.problem.hints

def Report.display (r : Report) : String :=
  "[" ++ r.code ++ "] " ++ r.message ++ " (" ++ r.file ++ ":" ++ toString r.position.line ++ ":" ++
    toString r.position.column ++ ")"

end ReactiveMarkup
