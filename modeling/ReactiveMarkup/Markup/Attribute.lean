/-
Attributes in the text of an opening tag.

An attribute is a name, up to a space or `=`, and perhaps a value after `=`,
bare or between single or double quotes. Spaces may stand around `=`. A quote
that is never closed runs to the end of the tag.
-/
import ReactiveMarkup.Text.Chars

namespace ReactiveMarkup.Markup

open Text

structure Attribute where
  name : String
  value : Option String
  deriving DecidableEq, Repr

def isNameChar (c : Char) : Bool := !isSpace c && c != '='

/-- Characters that divide attributes, among them a `=` without a name before it. -/
def isDivider (c : Char) : Bool := isSpace c || c == '/' || c == '='

def takeValue : List Char → List Char × List Char
  | [] => ([], [])
  | c :: cs =>
    if c = '\"' || c = '\'' then (cs.takeWhile (· != c), (cs.dropWhile (· != c)).drop 1)
    else ((c :: cs).takeWhile (!isSpace ·), (c :: cs).dropWhile (!isSpace ·))

def takeAttribute (s : List Char) : Attribute × List Char :=
  let name := String.ofList (s.takeWhile isNameChar)
  let rest := s.dropWhile isNameChar
  match rest.dropWhile isSpace with
  | '=' :: after =>
    let (value, rest) := takeValue (after.dropWhile isSpace)
    (⟨name, some (String.ofList value)⟩, rest)
  | _ => (⟨name, none⟩, rest)

/-- The attributes of a text, after its first `skip` characters. -/
def attributesFrom : Nat → List Char → List Attribute
  | _, [] => []
  | skip + 1, _ :: cs => attributesFrom skip cs
  | 0, c :: cs =>
    if isDivider c then attributesFrom 0 cs
    else
      let (found, rest) := takeAttribute (c :: cs)
      found :: attributesFrom (cs.length - rest.length) cs

def attributes (s : List Char) : List Attribute := attributesFrom 0 s

end ReactiveMarkup.Markup
