/-
The sections of a component file: one script, one template, any number of styles.

A section is `<name attributes>body</name>`, with the name in any case; its
opening tag ends at the first `>`, its body at the first closing tag. The first
script counts. The template runs from the first `<template>` to the last closing
tag outside of every script and style, so templates inside the template belong to
it.
-/
import ReactiveMarkup.Text.Chars
import ReactiveMarkup.Diagnostic

namespace ReactiveMarkup.Component

open Text

/-- A stretch of a text, from one offset up to another. -/
structure Span where
  start : Nat
  stop : Nat
  deriving DecidableEq, Repr

def Span.has (r : Span) (offset : Nat) : Bool := r.start ≤ offset && offset < r.stop

structure Sections where
  template : String
  script : String
  language : String
  styles : List String
  /-- Where the template starts in the file. -/
  origin : Position
  deriving DecidableEq, Repr

/-! ### Tag names without regard to case -/

/-- Lower case for tag names. Two characters beyond the English alphabet have one of its letters as
their lower case. -/
def foldCase (c : Char) : Char :=
  if c = '\u017f' then 's' else if c = '\u212a' then 'k' else toLower c

/-- What follows `pat`, given in lower case, in a text that starts with it in any case. -/
def dropFolded? : List Char → List Char → Option (List Char)
  | [], s => some s
  | _ :: _, [] => none
  | p :: ps, c :: cs => if foldCase c = p then dropFolded? ps cs else none

def cutFolded? (pat : List Char) : List Char → Option (List Char × List Char)
  | [] => if pat.isEmpty then some ([], []) else none
  | c :: cs =>
    match dropFolded? pat (c :: cs) with
    | some rest => some ([], rest)
    | none => (cutFolded? pat cs).map fun p => (c :: p.1, p.2)

/-! ### Blocks -/

structure Block where
  span : Span
  attributes : List Char
  body : List Char

/-- The attributes of an opening tag of the given name at the front of a text, and the text after
it. -/
def openingTag? (name : List Char) (s : List Char) : Option (List Char × List Char) := do
  let rest ← dropFolded? ('<' :: name) s
  if wordAhead rest then none else cut? ['>'] rest

/-- Attributes and body of a section of the given name at the front of a text, and the text after
it. -/
def section? (name : List Char) (s : List Char) : Option (List Char × List Char × List Char) := do
  let (attributes, rest) ← openingTag? name s
  let (body, rest) ← cutFolded? ('<' :: '/' :: name ++ ['>']) rest
  return (attributes, body, rest)

/-- The sections of the given name in a text that starts at an offset; the first `skip` characters
belong to an earlier one. -/
def blocksFrom (name : List Char) : Nat → Nat → List Char → List Block
  | _, _, [] => []
  | offset, skip + 1, _ :: cs => blocksFrom name (offset + 1) skip cs
  | offset, 0, c :: cs =>
    match section? name (c :: cs) with
    | some (attributes, body, rest) =>
      let size := (c :: cs).length - rest.length
      ⟨⟨offset, offset + size⟩, attributes, body⟩ :: blocksFrom name (offset + 1) (size - 1) cs
    | none => blocksFrom name (offset + 1) 0 cs

def blocks (name : String) (s : List Char) : List Block := blocksFrom name.toList 0 0 s

def openingsFrom (name : List Char) : Nat → Nat → List Char → List Span
  | _, _, [] => []
  | offset, skip + 1, _ :: cs => openingsFrom name (offset + 1) skip cs
  | offset, 0, c :: cs =>
    match openingTag? name (c :: cs) with
    | some (_, rest) =>
      let size := (c :: cs).length - rest.length
      ⟨offset, offset + size⟩ :: openingsFrom name (offset + 1) (size - 1) cs
    | none => openingsFrom name (offset + 1) 0 cs

def occurrencesFrom (pat : List Char) : Nat → List Char → List Nat
  | _, [] => []
  | offset, c :: cs =>
    let later := occurrencesFrom pat (offset + 1) cs
    if (drop? pat (c :: cs)).isSome then offset :: later else later

/-! ### Attributes of the script tag -/

def isAttributeChar (c : Char) : Bool :=
  isAlphanumeric c || c == '-' || c == '\u017f' || c == '\u212a'

/-- The value after a `=`, and its length with its quotes. A quote that is never closed belongs to
the value. -/
def attributeValue? (s : List Char) : Option (List Char × Nat) :=
  let bare := s.takeWhile fun c => c != '>' && !isBlank c
  let plain := if bare.isEmpty then none else some (bare, bare.length)
  match s with
  | '\"' :: rest =>
    match cut? ['\"'] rest with
    | some (value, _) => some (value, value.length + 2)
    | none => plain
  | '\'' :: rest =>
    match cut? ['\''] rest with
    | some (value, _) => some (value, value.length + 2)
    | none => plain
  | _ => plain

/-- The attributes in the text of a script tag, after its first `skip` characters. -/
def attributesFrom : Nat → List Char → List (List Char × Option (List Char))
  | _, [] => []
  | skip + 1, _ :: cs => attributesFrom skip cs
  | 0, c :: cs =>
    if isAttributeChar c then
      let name := c :: cs.takeWhile isAttributeChar
      match cs.dropWhile isAttributeChar with
      | '=' :: rest =>
        match attributeValue? rest with
        | some (value, size) => (name, some value) :: attributesFrom (name.length + size) cs
        | none => (name, none) :: attributesFrom (name.length - 1) cs
      | _ => (name, none) :: attributesFrom (name.length - 1) cs
    else attributesFrom 0 cs

/-- The first `lang` attribute that has a value, in lower case. -/
def language? (attributes : List Char) : Option String :=
  (attributesFrom 0 attributes).findSome? fun a =>
    if a.1.map toLower == "lang".toList then
      a.2.map fun value => String.ofList (value.map toLower)
    else none

/-! ### Cutting a file -/

def templateFault (file : String) (problem : Problem) : Fault :=
  { problem, file, position := .start }

def scriptOf : List Block → String × String
  | [] => ("", "js")
  | block :: _ => (String.ofList (trim block.body), (language? block.attributes).getD "js")

def stylesOf (styles : List Block) : List String :=
  (styles.map fun block => String.ofList (trim block.body)).filter fun css => !css.isEmpty

def templateSpan (file : String) (s : List Char) (excluded : List Span) : Except Fault Span := do
  let outside (offset : Nat) : Bool := !excluded.any fun r => r.has offset
  let some opening := (openingsFrom "template".toList 0 0 s).find? fun r => outside r.start
    | throw (templateFault file .templateMissing)
  let closings := (occurrencesFrom "</template>".toList 0 s).filter fun i =>
    opening.stop ≤ i && outside i
  let some closing := closings.getLast? | throw (templateFault file .templateUnclosed)
  return ⟨opening.stop, closing⟩

def Sections.ofText (file text : String) : Except Fault Sections := do
  let s := text.toList
  let scripts := blocks "script" s
  let styles := blocks "style" s
  let span ← templateSpan file s ((scripts ++ styles).map Block.span)
  let template := (s.take span.stop).drop span.start
  if template.all isBlank then throw (templateFault file .templateEmpty)
  return {
    template := String.ofList template
    script := (scriptOf scripts).1
    language := (scriptOf scripts).2
    styles := stylesOf styles
    origin := Position.start.after (s.take span.start) }

end ReactiveMarkup.Component
