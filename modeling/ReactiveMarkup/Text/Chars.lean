/-
Classes of characters, and cutting of texts at blanks.

Texts are read as lists of characters.  A character is *blank* if the Unicode
standard calls it white space, a *word* character if it is a letter, a mark, a
decimal digit, a connecting punctuation mark or a joiner, and may begin or
continue a *name* as the standard's rules for identifiers say.
-/
import ReactiveMarkup.Text.Ranges

namespace ReactiveMarkup.Text

/-! ### Blanks -/

def blanks : List (Nat × Nat) := [
  (0x9, 0xD), (0x20, 0x20), (0x85, 0x85), (0xA0, 0xA0), (0x1680, 0x1680), (0x2000, 0x200A),
  (0x2028, 0x2029), (0x202F, 0x202F), (0x205F, 0x205F), (0x3000, 0x3000)]

def isBlank (c : Char) : Bool := inRanges blanks c.toNat

/-- White space within markup: space, tab, line feed, form feed and carriage return. -/
def isSpace (c : Char) : Bool :=
  c == ' ' || c == '\t' || c == '\n' || c == '\x0c' || c == '\r'

def trimStart (s : List Char) : List Char := s.dropWhile isBlank

def trimEnd (s : List Char) : List Char := (s.reverse.dropWhile isBlank).reverse

def trim (s : List Char) : List Char := trimEnd (trimStart s)

def trimmed (s : String) : String := String.ofList (trim s.toList)

def isBlankText (s : String) : Bool := s.toList.all isBlank

/-! ### Letters -/

def isLower (c : Char) : Bool := 'a' ≤ c && c ≤ 'z'

def isUpper (c : Char) : Bool := 'A' ≤ c && c ≤ 'Z'

def isLetter (c : Char) : Bool := isLower c || isUpper c

def isDigit (c : Char) : Bool := '0' ≤ c && c ≤ '9'

def isAlphanumeric (c : Char) : Bool := isLetter c || isDigit c

def toLower (c : Char) : Char := if isUpper c then Char.ofNat (c.toNat + 32) else c

def toUpper (c : Char) : Char := if isLower c then Char.ofNat (c.toNat - 32) else c

def lowered (s : String) : String := String.ofList (s.toList.map toLower)

def isCapital (c : Char) : Bool :=
  isUpper c || (c.toNat ≥ 128 && capitals.any fun r => r.has c.toNat)

def capital (c : Char) : List Char :=
  if c.toNat < 128 then [toUpper c]
  else match capitalTexts.find? fun e => e.1.has c.toNat with
    | some (_, shift, more) => Char.ofNat (Int.toNat (c.toNat + shift)) :: more.map Char.ofNat
    | none => [c]

/-! ### Words and names -/

def beginsName (c : Char) : Bool :=
  isLetter c || c == '_' || c == '$' ||
    (c.toNat ≥ 128 && inRanges identifierStarts c.toNat)

def continuesName (c : Char) : Bool :=
  beginsName c || isDigit c || (c.toNat ≥ 128 && inRanges identifierParts c.toNat)

def isWord (c : Char) : Bool :=
  isAlphanumeric c || c == '_' ||
    (c.toNat ≥ 128 && (inRanges wordsOnly c.toNat ||
      ((inRanges identifierStarts c.toNat || inRanges identifierParts c.toNat) &&
        !inRanges notWords c.toNat)))

def wordAhead : List Char → Bool
  | [] => false
  | c :: _ => isWord c

/-- The characters that begin the name of a variable in a template: plain letters, `_`, `$`. -/
def beginsIdentifier (c : Char) : Bool := isLetter c || c == '_' || c == '$'

/-- The characters that continue such a name: word characters and `$`. -/
def continuesIdentifier (c : Char) : Bool := isWord c || c == '$'

/-- The name of a variable at the front of a text, and the text after it. -/
def takeIdentifier : List Char → Option (List Char × List Char)
  | [] => none
  | c :: cs =>
    if beginsIdentifier c then
      some (c :: cs.takeWhile continuesIdentifier, cs.dropWhile continuesIdentifier)
    else none

def isIdentifier (s : List Char) : Bool :=
  match takeIdentifier s with
  | some (_, []) => true
  | _ => false

end ReactiveMarkup.Text
