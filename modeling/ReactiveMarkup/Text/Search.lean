/-
Finding a fixed text inside another.

* `drop?`: what follows when a text starts with a given one;
* `cut?`: the text before the first occurrence of a given one, and the text
  after it.
-/

namespace ReactiveMarkup.Text

/-- What follows `pat` in a text that starts with it. -/
def drop? : List Char → List Char → Option (List Char)
  | [], s => some s
  | _ :: _, [] => none
  | p :: ps, c :: cs => if p = c then drop? ps cs else none

/-- The text before the first occurrence of `pat`, and the text after it. -/
def cut? (pat : List Char) : List Char → Option (List Char × List Char)
  | [] => if pat.isEmpty then some ([], []) else none
  | c :: cs =>
    match drop? pat (c :: cs) with
    | some rest => some ([], rest)
    | none => (cut? pat cs).map fun p => (c :: p.1, p.2)

/-- The first line of a text, without its line end.  A carriage return belongs to the line end
only if a line feed follows it. -/
def firstLine : List Char → List Char
  | [] => []
  | '\n' :: _ => []
  | '\r' :: '\n' :: _ => []
  | c :: cs => c :: firstLine cs

def splitBy (p : Char → Bool) : List Char → List (List Char)
  | [] => [[]]
  | c :: cs =>
    match p c, splitBy p cs with
    | true, parts => [] :: parts
    | false, [] => [[c]]
    | false, part :: parts => (c :: part) :: parts

end ReactiveMarkup.Text
