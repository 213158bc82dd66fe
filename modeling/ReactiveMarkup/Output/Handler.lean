/-
Event handlers in emitted code.

A path of names such as `store.reset` and a function expression are handlers as
they stand. Anything else is a statement to run on each event, wrapped in a
function.
-/
import ReactiveMarkup.Text.Chars

namespace ReactiveMarkup.Output

open Text

def isPathTail : Nat → List Char → Bool
  | _, [] => true
  | 0, _ :: _ => false
  | fuel + 1, s =>
    match trimStart s with
    | '.' :: rest =>
      match takeIdentifier (trimStart rest) with
      | some (_, rest) => isPathTail fuel rest
      | none => false
    | _ => false

/-- Names with dots between them, and blanks around the dots. -/
def isPath (s : List Char) : Bool :=
  match takeIdentifier s with
  | some (_, rest) => isPathTail s.length rest
  | none => false

def arrowAhead (s : List Char) : Bool := (drop? ['=', '>'] (trimStart s)).isSome

def startsPlainFunction (s : List Char) : Bool :=
  let keyword := match drop? "function".toList s with
    | some rest => !wordAhead rest
    | none => false
  let arrow := match s with
    | '(' :: rest =>
      match rest.dropWhile fun c => c != '(' && c != ')' with
      | ')' :: rest => arrowAhead rest
      | _ => false
    | _ =>
      match takeIdentifier s with
      | some (_, rest) => arrowAhead rest
      | none => false
  keyword || arrow

def startsFunction (s : List Char) : Bool :=
  let marked := match drop? "async".toList s with
    | some (c :: rest) => isBlank c && startsPlainFunction (trimStart rest)
    | _ => false
  marked || startsPlainFunction s

def dropSemicolons (s : List Char) : List Char :=
  (s.reverse.dropWhile (· == ';')).reverse

def handler (expression : String) : String :=
  let s := trim expression.toList
  if isPath s || startsFunction s then String.ofList s
  else "($event) => \x7b " ++ String.ofList (dropSemicolons s) ++ "; \x7d"

/-- The property of a component that takes the handler of an event. -/
def handlerProperty (event : String) : String :=
  match event.toList with
  | [] => "on"
  | c :: rest => "on" ++ String.ofList (capital c ++ rest)

end ReactiveMarkup.Output
