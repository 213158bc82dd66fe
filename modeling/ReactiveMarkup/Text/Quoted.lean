/-
Texts between double quotes.

Writing: a quote and a backslash get a backslash before them, five control
characters have a letter of their own, every other control character is written
with its code in four hexadecimal digits, and all else stands for itself.

Reading accepts every escape of the JSON standard, also those that writing never
produces, and refuses bare control characters and surrogates that do not come in
pairs.
-/
import ReactiveMarkup.Text.Search

namespace ReactiveMarkup.Text

def hexDigit (n : Nat) : Char :=
  if n < 10 then Char.ofNat ('0'.toNat + n) else Char.ofNat ('a'.toNat + (n - 10))

def hexValue? (c : Char) : Option Nat :=
  if '0' ≤ c && c ≤ '9' then some (c.toNat - '0'.toNat)
  else if 'a' ≤ c && c ≤ 'f' then some (c.toNat - 'a'.toNat + 10)
  else if 'A' ≤ c && c ≤ 'F' then some (c.toNat - 'A'.toNat + 10)
  else none

/-! ### Writing -/

def escapeChar (c : Char) : List Char :=
  if c = '\"' then ['\\', '\"']
  else if c = '\\' then ['\\', '\\']
  else if c = '\x08' then ['\\', 'b']
  else if c = '\x0c' then ['\\', 'f']
  else if c = '\n' then ['\\', 'n']
  else if c = '\r' then ['\\', 'r']
  else if c = '\t' then ['\\', 't']
  else if c.toNat < 0x20 then
    ['\\', 'u', '0', '0', hexDigit (c.toNat / 16), hexDigit (c.toNat % 16)]
  else [c]

def escape (s : List Char) : List Char := s.flatMap escapeChar

def quote (s : String) : String := String.ofList ('\"' :: escape s.toList ++ ['\"'])

/-! ### Reading -/

/-- The value of four hexadecimal digits at the front of a text, and the text after them. -/
def takeHex4? : List Char → Option (Nat × List Char)
  | a :: b :: c :: d :: rest => do
    let a ← hexValue? a
    let b ← hexValue? b
    let c ← hexValue? c
    let d ← hexValue? d
    return (((a * 16 + b) * 16 + c) * 16 + d, rest)
  | _ => none

def simpleEscape? (c : Char) : Option Char :=
  if c = '\"' || c = '\\' || c = '/' then some c
  else if c = 'b' then some '\x08'
  else if c = 'f' then some '\x0c'
  else if c = 'n' then some '\n'
  else if c = 'r' then some '\r'
  else if c = 't' then some '\t'
  else none

/-- The character that an escape stands for, given what follows its backslash, and the number of
characters after the backslash that belong to it. -/
def readEscape? : List Char → Option (Char × Nat)
  | [] => none
  | 'u' :: rest => do
    let (n, rest) ← takeHex4? rest
    if 0xDC00 ≤ n && n ≤ 0xDFFF then none
    else if 0xD800 ≤ n && n ≤ 0xDBFF then
      match rest with
      | '\\' :: 'u' :: rest => do
        let (m, _) ← takeHex4? rest
        if 0xDC00 ≤ m && m ≤ 0xDFFF then
          return (Char.ofNat (0x10000 + (n - 0xD800) * 0x400 + (m - 0xDC00)), 11)
        else none
      | _ => none
    else return (Char.ofNat n, 5)
  | c :: _ => (simpleEscape? c).map fun d => (d, 1)

/-- The text that the characters between two quotes stand for, of which the first `skip` have
been read already. -/
def unescapeFrom? : Nat → List Char → Option (List Char)
  | _, [] => some []
  | skip + 1, _ :: cs => unescapeFrom? skip cs
  | 0, c :: cs =>
    if c = '\\' then do
      let (d, n) ← readEscape? cs
      let rest ← unescapeFrom? n cs
      return d :: rest
    else if c.toNat < 0x20 then none
    else (unescapeFrom? 0 cs).map (c :: ·)

def unescape? (s : List Char) : Option (List Char) := unescapeFrom? 0 s

/-- The characters before the closing quote, and the text after it.  Escapes are only checked for
their shape. -/
def takeQuoted? : List Char → Option (List Char × List Char)
  | [] => none
  | '\"' :: rest => some ([], rest)
  | '\\' :: 'u' :: a :: b :: c :: d :: rest =>
    if (takeHex4? [a, b, c, d]).isSome then
      (takeQuoted? rest).map fun p => ('\\' :: 'u' :: a :: b :: c :: d :: p.1, p.2)
    else none
  | '\\' :: c :: rest =>
    if (simpleEscape? c).isSome then
      (takeQuoted? rest).map fun p => ('\\' :: c :: p.1, p.2)
    else none
  | c :: rest =>
    if c = '\\' || c.toNat < 0x20 then none
    else (takeQuoted? rest).map fun p => (c :: p.1, p.2)

end ReactiveMarkup.Text
