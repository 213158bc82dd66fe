/-
A tree of HTML under construction.

Reading HTML moves elements about, so the tree is kept as cells that refer to
each other by number. Text next to text is joined to it.
-/
import ReactiveMarkup.Html.Names

namespace ReactiveMarkup.Html

inductive Tree where
  | element (name : String) (attributes : List (String × String)) (children : List Tree)
  | text (data : String)
  | comment (data : String)

/-- What a cell holds. The contents of a `template` are no children of it but hang on their own
cell. -/
inductive Matter where
  | root
  | element (vocabulary : Vocabulary) (name : String) (attributes : List (String × String))
      (contents : Option Nat)
  | text (data : List Char)
  | comment (data : String)

structure Cell where
  matter : Matter
  parent : Option Nat := none
  children : List Nat := []

structure Store where
  cells : Array Cell := #[{ matter := .root }]

namespace Store

def cell? (s : Store) (i : Nat) : Option Cell := s.cells[i]?

def modify (s : Store) (i : Nat) (f : Cell → Cell) : Store := { s with cells := s.cells.modify i f }

def add (s : Store) (matter : Matter) : Store × Nat :=
  ({ s with cells := s.cells.push { matter } }, s.cells.size)

def parent? (s : Store) (i : Nat) : Option Nat := (s.cell? i).bind (·.parent)

def children (s : Store) (i : Nat) : List Nat := ((s.cell? i).map (·.children)).getD []

def detach (s : Store) (i : Nat) : Store :=
  match s.parent? i with
  | none => s
  | some p =>
    (s.modify p fun c => { c with children := c.children.filter (· != i) }).modify i
      fun c => { c with parent := none }

def append (s : Store) (p i : Nat) : Store :=
  ((s.detach i).modify p fun c => { c with children := c.children ++ [i] }).modify i
    fun c => { c with parent := some p }

def putBefore (mark i : Nat) : List Nat → List Nat
  | [] => [i]
  | j :: js => if j = mark then i :: j :: js else j :: putBefore mark i js

def insertBefore (s : Store) (mark i : Nat) : Store :=
  let s := s.detach i
  match s.parent? mark with
  | none => s
  | some p =>
    (s.modify p fun c => { c with children := putBefore mark i c.children }).modify i
      fun c => { c with parent := some p }

def joinText? (s : Store) (i : Nat) (text : List Char) : Option Store :=
  match s.cell? i with
  | some { matter := .text data, .. } =>
    some (s.modify i fun c => { c with matter := .text (data ++ text) })
  | _ => none

def appendText (s : Store) (p : Nat) (text : List Char) : Store :=
  match (s.children p).getLast?.bind (s.joinText? · text) with
  | some s => s
  | none =>
    let (s, i) := s.add (.text text)
    s.append p i

def insertTextBefore (s : Store) (mark : Nat) (text : List Char) : Store :=
  let before := ((s.parent? mark).map s.children).getD [] |>.takeWhile (· != mark)
  match before.getLast?.bind (s.joinText? · text) with
  | some s => s
  | none =>
    let (s, i) := s.add (.text text)
    s.insertBefore mark i

def moveChildren (s : Store) (source target : Nat) : Store :=
  (s.children source).foldl (fun s i => s.append target i) s

def addAttributes (s : Store) (i : Nat) (more : List (String × String)) : Store :=
  s.modify i fun c =>
    match c.matter with
    | .element vocabulary name attributes contents =>
      let new := more.filter fun pair => !attributes.any (·.1 == pair.1)
      { c with matter := .element vocabulary name (attributes ++ new) contents }
    | _ => c

/-- The tree at a cell.  No tree is deeper than there are cells, which bounds the search. -/
def tree? (s : Store) : Nat → Nat → Option Tree
  | 0, _ => none
  | fuel + 1, i =>
    (s.cell? i).bind fun c =>
      match c.matter with
      | .root => none
      | .element _ name attributes _ =>
        some (.element name attributes (c.children.filterMap (s.tree? fuel)))
      | .text data => some (.text (String.ofList data))
      | .comment data => some (.comment data)

/-- The trees in a cell, where `html`, `head` and `body` give way to what they hold. -/
def forestAt (s : Store) : Nat → Nat → List Tree
  | 0, _ => []
  | fuel + 1, i =>
    match s.cell? i with
    | none => []
    | some c =>
      match c.matter with
      | .root => c.children.flatMap (s.forestAt fuel)
      | .element _ name _ _ =>
        if ["html", "head", "body"].contains name then c.children.flatMap (s.forestAt fuel)
        else (s.tree? fuel i).toList
      | _ => (s.tree? fuel i).toList

def forest (s : Store) : List Tree := s.forestAt (s.cells.size + 2) 0

end Store

end ReactiveMarkup.Html
