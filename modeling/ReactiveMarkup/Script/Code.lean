/-
Telling code from strings and comments.

A script is marked character by character: each is either code, or part of a
string literal or a comment.  A string runs from its quote to the next one that no
backslash stands before, a line comment up to the line feed, a block comment up to
the first `*/`; what is never closed runs to the end.
-/
import ReactiveMarkup.Text.Chars

namespace ReactiveMarkup.Script

open Text

structure Mark where
  char : Char
  isCode : Bool
  deriving DecidableEq, Repr

def chars (ms : List Mark) : List Char := ms.map Mark.char

def stringSize (quote : Char) : List Char → Nat
  | [] => 0
  | '\\' :: [] => 1
  | '\\' :: _ :: rest => stringSize quote rest + 2
  | c :: rest => if c = quote then 1 else stringSize quote rest + 1

/-- The size of the string literal or comment at the front of a text, if there is one. -/
def nonCode? : List Char → Option Nat
  | '/' :: '/' :: rest => some ((rest.takeWhile (· != '\n')).length + 2)
  | '/' :: '*' :: rest =>
    match cut? ['*', '/'] rest with
    | some (inside, _) => some (inside.length + 4)
    | none => some (rest.length + 2)
  | c :: rest =>
    if c = '\"' || c = '\'' || c = '\x60' then some (stringSize c rest + 1) else none
  | [] => none

/-- Marks a text, of which the first `skip` characters belong to a string or comment. -/
def marksFrom : Nat → List Char → List Mark
  | _, [] => []
  | skip + 1, c :: cs => ⟨c, false⟩ :: marksFrom skip cs
  | 0, c :: cs =>
    match nonCode? (c :: cs) with
    | some size => ⟨c, false⟩ :: marksFrom (size - 1) cs
    | none => ⟨c, true⟩ :: marksFrom 0 cs

def marks (s : List Char) : List Mark := marksFrom 0 s

/-! ### Brackets -/

/-- The text up to the bracket that brings the depth to zero, and the text after it. -/
def balancedFrom? (opening closing : Char) : Nat → List Mark → Option (List Mark × List Mark)
  | _, [] => none
  | depth, m :: ms =>
    let next (depth : Nat) :=
      (balancedFrom? opening closing depth ms).map fun p => (m :: p.1, p.2)
    if m.isCode then
      if m.char = opening then next (depth + 1)
      else if m.char = closing then
        match depth with
        | 0 => none
        | 1 => some ([m], ms)
        | depth + 2 => next (depth + 1)
      else next depth
    else next depth

def balancedEnd? (opening closing : Char) (ms : List Mark) : Option (List Mark × List Mark) :=
  balancedFrom? opening closing 0 ms

/-- The text up to the angle bracket that brings the depth to zero, and the text after it.
`previous` is the character before. -/
def typeArgumentsFrom? : Char → Nat → List Mark → Option (List Mark × List Mark)
  | _, _, [] => none
  | previous, depth, m :: ms =>
    let next (depth : Nat) :=
      (typeArgumentsFrom? m.char depth ms).map fun p => (m :: p.1, p.2)
    if m.isCode then
      if m.char = '<' then next (depth + 1)
      else if m.char = '>' && previous != '=' then
        match depth with
        | 0 => none
        | 1 => some ([m], ms)
        | depth + 2 => next (depth + 1)
      else next depth
    else next depth

def typeArgumentsEnd? (ms : List Mark) : Option (List Mark × List Mark) :=
  typeArgumentsFrom? ' ' 0 ms

/-- How a character of code changes the depth of nesting between arguments.  A `>` that starts the
text or follows `=` is no bracket. -/
def argumentDepth (previous : Option Char) (c : Char) (depth : Int) : Int :=
  if c = '(' || c = '[' || c = '{' || c = '<' then depth + 1
  else if c = ')' || c = ']' || c = '}' then depth - 1
  else if c = '>' && previous.any (· != '=') then depth - 1
  else depth

/-- The parts of a text between the commas outside of brackets, given the part so far with its last
character first. -/
def argumentsFrom : Option Char → Int → List Char → List Mark → List (List Char)
  | _, _, part, [] => [part.reverse]
  | previous, depth, part, m :: ms =>
    if m.isCode && m.char == ',' && depth == 0 then
      part.reverse :: argumentsFrom (some m.char) depth [] ms
    else
      let depth := if m.isCode then argumentDepth previous m.char depth else depth
      argumentsFrom (some m.char) depth (m.char :: part) ms

/-- The arguments of a call, trimmed.  Nothing after the last comma is no argument. -/
def arguments (ms : List Mark) : List (List Char) :=
  let parts := (argumentsFrom none 0 [] ms).map trim
  match parts.getLast? with
  | some [] => parts.dropLast
  | _ => parts

end ReactiveMarkup.Script
