/-
Expressions inside texts.

In a text, `{{ e }}` stands for the value of the expression `e`, which ends at
the first `}}`; a mark that is never closed, or holds only blanks, is plain text.
-/
import ReactiveMarkup.Text.Chars

namespace ReactiveMarkup.Markup

open Text

inductive Segment where
  | literal (text : String)
  | expression (source : String)
  deriving DecidableEq, Repr

namespace Segment

def isLiteral : Segment → Bool
  | literal _ => true
  | expression _ => false

def isBlank : Segment → Bool
  | literal text => isBlankText text
  | expression _ => false

end Segment

def openingMark : List Char := ['{', '{']

def closingMark : List Char := ['}', '}']

/-- What stands between the marks at the front of a text, if there are such. -/
def interpolation? (s : List Char) : Option (List Char) := do
  let rest ← drop? openingMark s
  let (inside, _) ← cut? closingMark rest
  return inside

/-- The plain part with the given characters, last one first, if there are any. -/
def flush (plain : List Char) : List Segment :=
  if plain.isEmpty then [] else [.literal (String.ofList plain.reverse)]

/-- The parts of a text after its first `skip` characters, given the plain characters so far, last
one first. -/
def segmentsFrom : Nat → List Char → List Char → List Segment
  | _, plain, [] => flush plain
  | skip + 1, plain, _ :: cs => segmentsFrom skip plain cs
  | 0, plain, c :: cs =>
    match interpolation? (c :: cs) with
    | some inside =>
      let size := inside.length + 4
      if inside.all Text.isBlank then
        segmentsFrom (size - 1) (((c :: cs).take size).reverse ++ plain) cs
      else
        flush plain ++ .expression (String.ofList (trim inside)) :: segmentsFrom (size - 1) [] cs
    | none => segmentsFrom 0 (c :: plain) cs

def segments (text : String) : List Segment :=
  match segmentsFrom 0 [] text.toList with
  | [] => [.literal ""]
  | parts => parts

end ReactiveMarkup.Markup
