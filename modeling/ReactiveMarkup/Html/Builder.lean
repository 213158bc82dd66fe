/-
The state of reading HTML, and what the rules of reading do to it.

The state has the tree, the open elements from the innermost out, and the
formatting elements from the latest back, with a mark where a scope of
formatting starts.
-/
import ReactiveMarkup.Html.Store
import ReactiveMarkup.Html.Token

namespace ReactiveMarkup.Html

open Text

inductive Mode where
  | initial
  | beforeHtml
  | beforeHead
  | inHead
  | afterHead
  | inBody
  | inText
  | inTable
  | inTableText
  | inCaption
  | inColumnGroup
  | inTableBody
  | inRow
  | inCell
  | inSelect
  | inSelectInTable
  | inTemplate
  | afterBody
  | inFrameset
  | afterFrameset
  | afterAfterBody
  | afterAfterFrameset
deriving DecidableEq

/-- A formatting element with the tag that opened it, or the start of a scope. -/
inductive Format where
  | mark
  | element (cell : Nat) (tag : Tag)

structure Builder where
  store : Store := {}
  mode : Mode := .initial
  back : Mode := .inBody
  templateModes : List Mode := []
  opened : List Nat := []
  formats : List Format := []
  head : Option Nat := none
  form : Option Nat := none
  standard : Bool := false
  framesetOk : Bool := true
  /-- Whether what does not fit into a table goes before it. -/
  fostering : Bool := false
  dropLine : Bool := false
  /-- Text in a table that has not been placed yet, the latest first. -/
  tableText : List (Bool × List Char) := []
  content : Content := .markup

abbrev Build := StateM Builder

/-! ### Looking -/

def Builder.name? (b : Builder) (i : Nat) : Option (Vocabulary × String) :=
  match b.store.cell? i with
  | some { matter := .element vocabulary name _ _, .. } => some (vocabulary, name)
  | _ => none

def Builder.isOneOf (b : Builder) (names : List String) (i : Nat) : Bool :=
  match b.name? i with
  | some (.html, name) => names.contains name
  | _ => false

/-- Whether a cell is an element of a drawing or formula that holds text or HTML. -/
def Builder.holdsText (b : Builder) (i : Nat) : Bool :=
  match b.name? i with
  | some (.formula, name) => formulaTexts.contains name
  | some (.drawing, name) => drawingTexts.contains name
  | _ => false

def Builder.inside (b : Builder) (names : List String) : Bool :=
  b.opened.head?.any (b.isOneOf names)

def Builder.isOpen (b : Builder) (names : List String) : Bool := b.opened.any (b.isOneOf names)

/-- Whether a search from the innermost element out meets `wanted` before `limit`. -/
def Builder.meets (b : Builder) (wanted limit : Nat → Bool) : Bool :=
  match b.opened.find? fun i => wanted i || limit i with
  | some i => wanted i
  | none => false

/-- Whether a search meets `wanted` within the usual limits and `more`. -/
def Builder.reaches (b : Builder) (wanted : Nat → Bool) (more : List String := []) : Bool :=
  b.meets wanted fun i => b.isOneOf (limits ++ more) i || b.holdsText i

def Builder.has (b : Builder) (names : List String) (more : List String := []) : Bool :=
  b.reaches (b.isOneOf names) more

def Builder.hasInTable (b : Builder) (names : List String) : Bool :=
  b.meets (b.isOneOf names) (b.isOneOf tableLimits)

def Builder.hasSelect (b : Builder) : Bool :=
  b.meets (b.isOneOf ["select"]) fun i => !b.isOneOf ["optgroup", "option"] i

/-! ### Ending elements -/

def pop : Build Unit := modify fun b => { b with opened := b.opened.drop 1 }

def popWhile (names : List String) : Build Unit :=
  modify fun b => { b with opened := b.opened.dropWhile (b.isOneOf names) }

def popThrough (names : List String) : Build Unit :=
  modify fun b => { b with opened := (b.opened.dropWhile fun i => !b.isOneOf names i).drop 1 }

def popTo (names : List String) : Build Unit :=
  modify fun b => { b with opened := b.opened.dropWhile fun i => !b.isOneOf names i }

/-- Ends the elements whose end is implied, but for one name. -/
def popImplied (but : String := "") : Build Unit := popWhile (impliedEnds.filter (· != but))

/-- Ends the elements inside the first with a name whose end is implied, and then it. -/
def close (name : String) : Build Unit := do popImplied name; popThrough [name]

/-- Ends the paragraph that is open, if a search for it is not limited. -/
def closeParagraph : Build Unit := do
  if (← get).has ["p"] ["button"] then close "p"

def removeOpened (i : Nat) : Build Unit :=
  modify fun b => { b with opened := b.opened.filter (· != i) }

def clearFormats : Build Unit :=
  modify fun b => { b with
    formats := (b.formats.dropWhile fun | .mark => false | .element .. => true).drop 1 }

def markFormats : Build Unit := modify fun b => { b with formats := .mark :: b.formats }

def setMode (mode : Mode) : Build Unit := modify fun b => { b with mode }

def noFrameset : Build Unit := modify fun b => { b with framesetOk := false }

/-! ### Placing -/

inductive Place where
  | last (parent : Nat)
  | before (mark : Nat)

def Builder.inner (b : Builder) (i : Nat) : Nat :=
  match b.store.cell? i with
  | some { matter := .element .html "template" _ (some contents), .. } => contents
  | _ => i

/-- Where something written in `target` goes. What does not fit into a table goes before it. -/
def Builder.place (b : Builder) (target : Nat) : Place :=
  if !(b.fostering && b.isOneOf tableFrames target) then .last (b.inner target)
  else
    match b.opened.dropWhile fun i => !b.isOneOf ["template", "table"] i with
    | [] => .last (b.opened.getLast?.getD 0)
    | i :: outer =>
      if b.isOneOf ["template"] i then .last (b.inner i)
      else if (b.store.parent? i).isSome then .before i
      else .last (outer.head?.getD 0)

def putCell (target i : Nat) : Build Unit := modify fun b =>
  { b with store := match b.place target with
    | .last p => b.store.append p i
    | .before mark => b.store.insertBefore mark i }

def Builder.current (b : Builder) : Nat := b.opened.head?.getD 0

def addText (text : List Char) : Build Unit := modify fun b =>
  { b with store := match b.place b.current with
    | .last p => b.store.appendText p text
    | .before mark => b.store.insertTextBefore mark text }

def newCell (matter : Matter) : Build Nat := do
  let b ← get
  let (store, i) := b.store.add matter
  set { b with store }
  return i

def newElement (vocabulary : Vocabulary) (tag : Tag) : Build Nat := do
  let contents ← if vocabulary = .html && tag.name == "template" then
    some <$> newCell .root else pure none
  newCell (.element vocabulary tag.name tag.attributes contents)

def openElement (vocabulary : Vocabulary) (tag : Tag) : Build Nat := do
  let i ← newElement vocabulary tag
  putCell (← get).current i
  modify fun b => { b with opened := i :: b.opened }
  return i

def openTag (tag : Tag) : Build Unit := discard (openElement .html tag)

def openNamed (name : String) : Build Unit := openTag { name }

def addTag (tag : Tag) : Build Unit := do openTag tag; pop

def addCommentTo (p : Nat) (text : String) : Build Unit := do
  let i ← newCell (.comment text)
  modify fun b => { b with store := b.store.append p i }

def addComment (text : String) : Build Unit := do
  let i ← newCell (.comment text)
  putCell (← get).current i

def openText (tag : Tag) (content : Content) : Build Unit := do
  openTag tag
  modify fun b => { b with back := b.mode, mode := .inText, content }

/-! ### Formatting elements -/

def Format.isCell (i : Nat) : Format → Bool
  | .mark => false
  | .element j _ => i == j

def Builder.scope (b : Builder) : List (Nat × Tag) :=
  (b.formats.takeWhile fun | .mark => false | .element .. => true).filterMap fun
    | .mark => none
    | .element i tag => some (i, tag)

def removeFormat (i : Nat) : Build Unit :=
  modify fun b => { b with formats := b.formats.filter fun f => !f.isCell i }

/-- Opens formatting elements again, given from the oldest on. -/
def reopen : List Format → Build (List Format)
  | [] => return []
  | .mark :: rest => return .mark :: (← reopen rest)
  | .element _ tag :: rest => do
    let i ← openElement .html tag
    return .element i tag :: (← reopen rest)

/-- Opens the formatting elements of the latest scope again that a block ended. -/
def reconstruct : Build Unit := do
  let b ← get
  let ended : Format → Bool
    | .mark => false
    | .element i _ => !b.opened.contains i
  let entries ← reopen (b.formats.takeWhile ended).reverse
  modify fun b' => { b' with formats := entries.reverse ++ b.formats.dropWhile ended }

def Tag.alike (s t : Tag) : Bool :=
  s.name == t.name && s.attributes.length == t.attributes.length &&
    s.attributes.all (t.attributes.contains ·)

/-- Adds a formatting element.  Of elements that are alike, a scope keeps the latest three. -/
def openFormat (tag : Tag) : Build Unit := do
  let same := (← get).scope.filter fun (_, t) => t.alike tag
  match same.getLast? with
  | some (i, _) => if same.length ≥ 3 then removeFormat i
  | none => pure ()
  let i ← openElement .html tag
  modify fun b => { b with formats := .element i tag :: b.formats }

/-- Ends the first element with a name, unless a special one stands before it. -/
def endOther (name : String) : Build Unit := do
  let b ← get
  if b.meets (b.isOneOf [name]) (b.isOneOf special) then close name

/-- What `adopt` knows while it goes through the elements between a formatting element and a
block. -/
structure Adoption where
  last : Nat
  after : Option Nat := none
  kept : List Nat := []

/-- Goes outwards through the elements between the block and the formatting element. Each formatting
element among the first three gives way to a new one that holds what came before. -/
def adoptBetween (block : Nat) : Nat → List Nat → Adoption → Build Adoption
  | _, [], a => return a
  | n, i :: rest, a => do
    let b ← get
    let tag? := b.formats.findSome? fun
      | .element j tag => if i == j then some tag else none
      | .mark => none
    match tag? with
    | none => adoptBetween block (n + 1) rest a
    | some tag =>
      if n ≥ 3 then
        removeFormat i
        adoptBetween block (n + 1) rest a
      else
        let new ← newElement .html tag
        modify fun b => { b with
          formats := b.formats.map fun f => if f.isCell i then .element new tag else f
          store := b.store.append new a.last }
        let after := if a.last == block then some new else a.after
        adoptBetween block (n + 1) rest { last := new, after, kept := a.kept ++ [new] }

/-- One round of ending the formatting element with a name, and whether there may be more to do. -/
def adoptOnce (name : String) : Build Bool := do
  let b ← get
  match b.scope.find? fun (_, tag) => tag.name == name with
  | none => endOther name; return false
  | some (format, tag) =>
    if !b.opened.contains format then removeFormat format; return false
    if !b.reaches (· == format) then return false
    let inner := b.opened.takeWhile (· != format)
    let outer := (b.opened.dropWhile (· != format)).drop 1
    match inner.reverse.find? (b.isOneOf special) with
    | none =>
      modify fun b => { b with opened := outer }
      removeFormat format
      return false
    | some block =>
      let within := inner.takeWhile (· != block)
      let between := (inner.dropWhile (· != block)).drop 1
      let a ← adoptBetween block 0 between { last := block }
      modify fun b => { b with store := b.store.detach a.last }
      putCell (outer.head?.getD 0) a.last
      let new ← newElement .html tag
      modify fun b => { b with
        store := (b.store.moveChildren block new).append block new
        opened := within ++ new :: block :: a.kept ++ outer
        formats := match a.after with
          | none => b.formats.map fun f => if f.isCell format then .element new tag else f
          | some mark => (b.formats.filter fun f => !f.isCell format).flatMap fun f =>
              if f.isCell mark then [.element new tag, f] else [f] }
      return true

def adoptRounds (name : String) : Nat → Build Unit
  | 0 => return ()
  | n + 1 => do if ← adoptOnce name then adoptRounds name n

/-- Ends the formatting element with a name. If a block is open in it, the element is split: one
part ends before the block, another goes on in it. -/
def adopt (name : String) : Build Unit := do
  let b ← get
  if b.inside [name] && !b.formats.any (·.isCell b.current) then pop
  else adoptRounds name 8

/-! ### The mode -/

/-- The mode that the open elements, from the given one out, ask for. -/
def Builder.modeFor (b : Builder) : List Nat → Mode
  | [] => .inBody
  | i :: outer =>
    let isLast := outer.isEmpty
    match b.name? i with
    | some (.html, name) =>
      match name, isLast with
      | "select", _ =>
        match outer.find? (b.isOneOf ["template", "table"]) with
        | some j => if b.isOneOf ["table"] j then .inSelectInTable else .inSelect
        | none => .inSelect
      | "td", false | "th", false => .inCell
      | "tr", _ => .inRow
      | "tbody", _ | "tfoot", _ | "thead", _ => .inTableBody
      | "caption", _ => .inCaption
      | "colgroup", _ => .inColumnGroup
      | "table", _ => .inTable
      | "template", _ => b.templateModes.head?.getD .inBody
      | "head", false => .inHead
      | "body", _ => .inBody
      | "frameset", _ => .inFrameset
      | "html", _ => if b.head.isNone then .beforeHead else .afterHead
      | _, _ => b.modeFor outer
    | _ => b.modeFor outer

def resetMode : Build Unit := modify fun b => { b with mode := b.modeFor b.opened }

end ReactiveMarkup.Html
