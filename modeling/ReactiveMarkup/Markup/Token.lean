/-
The tokens of template markup.

A template is a sequence of comments, opening tags, closing tags and runs of text.
A comment ends at the first `-->`, an opening tag at the first `>` outside of
quotes, before which no `<` may stand outside of quotes. A run of text ends at the
next `<` outside of interpolated expressions.
-/
import ReactiveMarkup.Diagnostic
import ReactiveMarkup.Markup.Attribute
import ReactiveMarkup.Markup.Interpolation

namespace ReactiveMarkup.Markup

open Text

inductive Token where
  | comment
  | opening (tag : String) (attributes : List Attribute) (selfClosing : Bool)
  | closing (tag : String)
  | text (content : String)
  deriving DecidableEq, Repr

def isTagChar (c : Char) : Bool :=
  isAlphanumeric c || c == '-' || c == '_' || c == '.' || c == ':'

/-- The attributes' text in an opening tag, up to the `>` that ends it, and the text after the tag.
`quote` is the open quote. -/
def takeTagText? : Option Char → List Char → Option (List Char × List Char)
  | _, [] => none
  | some q, c :: cs =>
    (takeTagText? (if c = q then none else some q) cs).map fun p => (c :: p.1, p.2)
  | none, c :: cs =>
    if c = '>' then some ([], cs)
    else if c = '<' then none
    else
      (takeTagText? (if c = '\"' || c = '\'' then some c else none) cs).map fun p =>
        (c :: p.1, p.2)

/-- A run of text up to the next `<` outside of expressions, to which the first `skip` characters
belong. -/
def textRunFrom : Nat → List Char → List Char
  | _, [] => []
  | skip + 1, c :: cs => c :: textRunFrom skip cs
  | 0, c :: cs =>
    match interpolation? (c :: cs) with
    | some inside => c :: textRunFrom (inside.length + 3) cs
    | none => if c = '<' then [] else c :: textRunFrom 0 cs

def textRun (s : List Char) : List Char := textRunFrom 0 s

namespace Token

def takeComment (s : List Char) : Except Problem (Token × List Char) :=
  match cut? ['-', '-', '>'] s with
  | some (_, rest) => .ok (comment, rest)
  | none => .error .unterminatedComment

def takeClosing (s : List Char) : Except Problem (Token × List Char) :=
  let name := s.takeWhile isTagChar
  match (s.dropWhile isTagChar).dropWhile isSpace with
  | '>' :: rest =>
    if name.isEmpty then .error .invalidClosing
    else .ok (closing (String.ofList name), rest)
  | _ => .error .invalidClosing

/-- Whether the text of a tag ends in a slash, and the text without it. -/
def takeSlash (s : List Char) : Bool × List Char :=
  match (trimEnd s).reverse with
  | '/' :: front => (true, front.reverse)
  | back => (false, back.reverse)

def takeOpening (s : List Char) : Except Problem (Token × List Char) :=
  match s with
  | [] => .error .invalidOpening
  | c :: _ =>
    if isLetter c then
      let tag := String.ofList (s.takeWhile isTagChar)
      match takeTagText? none (s.dropWhile isTagChar) with
      | some (inside, rest) =>
        let (slash, inside) := takeSlash inside
        .ok (opening tag (attributes inside) slash, rest)
      | none => .error (.unterminatedOpening tag)
    else .error .invalidOpening

def first (s : List Char) : Except Problem (Token × List Char) :=
  match s with
  | '<' :: '!' :: '-' :: '-' :: rest => takeComment rest
  | '<' :: '/' :: rest => takeClosing rest
  | '<' :: rest => takeOpening rest
  | s =>
    let run := textRun s
    .ok (text (String.ofList run), s.drop run.length)

end Token

structure Lexeme where
  token : Token
  position : Position
  context : String
  deriving DecidableEq, Repr

/-- The text at a place, shortened to forty characters of one line. -/
def excerpt (s : List Char) : String := String.ofList ((firstLine s).take 40)

/-- The tokens of a text that starts at `position` of a file, and what stopped the scan. The first
`skip` characters belong to an earlier token. -/
def scanFrom (file : String) : Position → Nat → List Char → List Lexeme × Option Fault
  | _, _, [] => ([], none)
  | position, skip + 1, c :: cs => scanFrom file (position.next c) skip cs
  | position, 0, c :: cs =>
    match Token.first (c :: cs) with
    | .error problem => ([], some ⟨problem, file, position, some (excerpt (c :: cs))⟩)
    | .ok (token, rest) =>
      let (lexemes, fault) := scanFrom file (position.next c) (cs.length - rest.length) cs
      (⟨token, position, excerpt (c :: cs)⟩ :: lexemes, fault)

def scan (file : String) (origin : Position) (s : List Char) : List Lexeme × Option Fault :=
  scanFrom file origin 0 s

end ReactiveMarkup.Markup
