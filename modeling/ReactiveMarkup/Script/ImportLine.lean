/-
Import statements of scripts that are not well formed.

Such a script is searched for lines that start with an import.  From there the
statement runs, over several lines if need be, to its module name in quotes, which
follows `import` itself or the word `from`; no semicolon and no other quote may
come before.  Imports marked with `type` are dropped with the others, but not kept,
unless what follows the mark starts with `from`.
-/
import ReactiveMarkup.Text.Chars

namespace ReactiveMarkup.Script

open Text

def isLineSpace (c : Char) : Bool := c == ' ' || c == '\t'

def dropBlanks? (s : List Char) : Option (List Char) :=
  match s with
  | c :: rest => if isBlank c then some (trimStart rest) else none
  | [] => none

/-- Whether a text that follows a blank ends in the word `from` and blanks.  It is given with its
last character first. -/
def endsInFrom (reversed : List Char) : Bool :=
  match trimStart reversed with
  | 'm' :: 'o' :: 'r' :: 'f' :: front => !wordAhead front
  | _ => false

def dropQuoted? (s : List Char) : Option (List Char) :=
  match s with
  | c :: rest =>
    if c = '\"' || c = '\'' then (cut? [c] rest).map Prod.snd else none
  | [] => none

/-- What follows the statement whose text after `import` and `type` is given. -/
def dropClause? (s : List Char) : Option (List Char) :=
  let isEnd (c : Char) : Bool := c == ';' || c == '\'' || c == '\"'
  let clause := s.takeWhile fun c => !isEnd c
  if clause.isEmpty || endsInFrom clause.reverse then
    (dropQuoted? (s.dropWhile fun c => !isEnd c)).map fun rest =>
      match rest.dropWhile isLineSpace with
      | ';' :: rest => rest
      | rest => rest
  else none

/-- Whether the statement at the start of a line is kept, and what follows it. -/
def importLine? (s : List Char) : Option (Bool × List Char) := do
  let rest ← drop? "import".toList (s.dropWhile isLineSpace)
  let rest ← dropBlanks? rest
  match (drop? "type".toList rest).bind dropBlanks? with
  | some after => do
    let rest ← dropClause? after
    return ((drop? "from".toList after).isSome, rest)
  | none => do
    let rest ← dropClause? rest
    return (true, rest)

def tidyImport (s : List Char) : String :=
  String.ofList (((trim s).reverse.dropWhile (· == ';')).reverse ++ [';'])

/-- The statements to keep, and the text without any, from a place that starts a line or not.  The
first `skip` characters belong to a statement. -/
def liftFrom : Bool → Nat → List Char → List String × List Char
  | _, _, [] => ([], [])
  | _, skip + 1, c :: cs => liftFrom (c == '\n') skip cs
  | lineStart, 0, c :: cs =>
    match if lineStart then importLine? (c :: cs) else none with
    | some (keep, rest) =>
      let size := (c :: cs).length - rest.length
      let (imports, body) := liftFrom (c == '\n') (size - 1) cs
      (if keep then (tidyImport ((c :: cs).take size) :: imports, body) else (imports, body))
    | none =>
      let (imports, body) := liftFrom (c == '\n') 0 cs
      (imports, c :: body)

def liftImportLines (s : List Char) : List String × List Char := liftFrom true 0 s

end ReactiveMarkup.Script
