/-
The tokens of a script.

Tokens are read one at a time, since what a character begins can depend on the
grammar: a slash may start a regular expression, a closing brace may go on with a
template, an angle bracket may belong to a type.  Angle brackets are therefore read
one by one and joined to longer operators on demand.
-/
import ReactiveMarkup.Text.Chars

namespace ReactiveMarkup.Script

open Text

structure Dialect where
  types : Bool
  markup : Bool
  deriving DecidableEq, Repr

/-- The dialect that a `lang` attribute names.  Names it does not know mean the plain language. -/
def Dialect.ofName (name : String) : Dialect :=
  if name == "ts" || name == "typescript" then ⟨true, false⟩
  else if name == "tsx" then ⟨true, true⟩
  else if name == "jsx" then ⟨false, true⟩
  else ⟨false, false⟩

/-- The kinds of tokens.  A template is either complete or stops at an expression. -/
inductive TokenKind where
  | word
  | privateName
  | number
  | text
  | template (complete : Bool)
  | mark
  | done
  deriving DecidableEq, Repr

/-- A token with its place.  `marred` tells a word with escapes in it, and a template with escapes
that mean nothing.  `newline` tells that a line ends somewhere before it. -/
structure Token where
  kind : TokenKind
  text : String
  marred : Bool
  newline : Bool
  start : Nat
  stop : Nat
  deriving DecidableEq, Repr

namespace Token

def isMark (t : Token) (mark : String) : Bool := t.kind == .mark && t.text == mark

def isWord (t : Token) (word : String) : Bool := t.kind == .word && t.text == word && !t.marred

end Token

/-! ### Gaps -/

def endsLine (c : Char) : Bool := c == '\n' || c == '\r' || c == '\u2028' || c == '\u2029'

def isGapChar (c : Char) : Bool :=
  c == ' ' || c == '\t' || c == '\x0b' || c == '\x0c' || c == '\u00a0' || c == '\ufeff' ||
    c == '\u0085' || c == '\u1680' || ('\u2000' ≤ c && c ≤ '\u200b') || c == '\u202f' ||
    c == '\u205f' || c == '\u3000'

inductive GapPlace where
  | between
  | inLine
  | inBlock

/-- The offset, whether a line ended, and the text after white space and comments.  A block comment
that is never closed is an error. -/
def skipGap? : GapPlace → Nat → Bool → List Char → Option (Nat × Bool × List Char)
  | .inBlock, _, _, [] => none
  | _, offset, newline, [] => some (offset, newline, [])
  | .between, offset, newline, '/' :: '/' :: cs => skipGap? .inLine (offset + 2) newline cs
  | .between, offset, newline, '/' :: '*' :: cs => skipGap? .inBlock (offset + 2) newline cs
  | .between, offset, newline, c :: cs =>
    if endsLine c then skipGap? .between (offset + 1) true cs
    else if isGapChar c then skipGap? .between (offset + 1) newline cs
    else some (offset, newline, c :: cs)
  | .inLine, offset, newline, c :: cs =>
    if endsLine c then skipGap? .between (offset + 1) true cs
    else skipGap? .inLine (offset + 1) newline cs
  | .inBlock, offset, newline, '*' :: '/' :: cs => skipGap? .between (offset + 2) newline cs
  | .inBlock, offset, newline, c :: cs =>
    skipGap? .inBlock (offset + 1) (newline || endsLine c) cs

/-! ### Escapes -/

def isHexDigit (c : Char) : Bool := (hexValue? c).isSome

/-- The code of a character written after `\u`, and the text after it. -/
def takeCode? : List Char → Option (Nat × List Char)
  | '{' :: rest =>
    let code := hexNumber (rest.takeWhile isHexDigit)
    match rest.dropWhile isHexDigit with
    | '}' :: after =>
      if rest.head? = some '}' || code > 0x10FFFF then none else some (code, after)
    | _ => none
  | rest => takeHex4? rest

/-! ### Words -/

/-- A word with escapes, and the text after it.  `first` tells that its first character is still to
come. -/
def takeEscapedWord? : Nat → Bool → List Char → Option (List Char × List Char)
  | 0, _, _ => none
  | fuel + 1, first, s =>
    let fits (c : Char) : Bool := if first then beginsName c else continuesName c
    let more (c : Char) (rest : List Char) : Option (List Char × List Char) :=
      (takeEscapedWord? fuel false rest).map fun (word, rest) => (c :: word, rest)
    match s with
    | '\\' :: 'u' :: rest => do
      let (n, rest) ← takeCode? rest
      if fits (Char.ofNat n) then more (Char.ofNat n) rest else none
    | '\\' :: _ => none
    | c :: rest => if fits c then more c rest else some ([], s)
    | [] => some ([], [])

/-- A word, whether it has escapes in it, and the text after it. -/
def takeWord? (s : List Char) : Option (String × Bool × List Char) :=
  match s.dropWhile continuesName with
  | '\\' :: _ => do
    let (word, rest) ← takeEscapedWord? (s.length + 1) true s
    if word.isEmpty then none else return (String.ofList word, true, rest)
  | rest => some (String.ofList (s.takeWhile continuesName), false, rest)

/-! ### Numbers -/

/-- Whether underscores stand only between digits, one at a time.  `after` tells that a digit came
just before. -/
def separatorsAreGood : Bool → List Char → Bool
  | after, [] => after
  | after, c :: rest => if c = '_' then after && separatorsAreGood false rest
    else separatorsAreGood true rest

def takeDigits? (isDigit : Char → Bool) (s : List Char) : Option (List Char) :=
  let isPart (c : Char) : Bool := isDigit c || c == '_'
  if separatorsAreGood false (s.takeWhile isPart) then some (s.dropWhile isPart) else none

def takeExponent? : List Char → Option (List Char)
  | 'e' :: rest | 'E' :: rest =>
    match rest with
    | '+' :: rest | '-' :: rest => takeDigits? isDigit rest
    | rest => takeDigits? isDigit rest
  | s => some s

def takeFraction? : List Char → Option (List Char)
  | '_' :: _ => none
  | s => if s.head?.any isDigit then takeDigits? isDigit s else some s

/-- What may follow the digits of a whole number: an `n`, or fraction and exponent. -/
def takeTail? : List Char → Option (List Char)
  | 'n' :: rest => some rest
  | '.' :: rest => takeFraction? rest >>= takeExponent?
  | s => takeExponent? s

def takeBased? (isDigit : Char → Bool) (s : List Char) : Option (List Char) := do
  match ← takeDigits? isDigit s with
  | 'n' :: rest => return rest
  | rest => return rest

def takeDigitsOf? : List Char → Option (List Char)
  | '0' :: rest =>
    match rest with
    | 'x' :: rest | 'X' :: rest => takeBased? isHexDigit rest
    | 'o' :: rest | 'O' :: rest => takeBased? (fun c => '0' ≤ c && c ≤ '7') rest
    | 'b' :: rest | 'B' :: rest => takeBased? (fun c => c == '0' || c == '1') rest
    | '_' :: _ => none
    | rest =>
      let digits := rest.takeWhile isDigit
      let after := rest.dropWhile isDigit
      if digits.isEmpty then takeTail? rest
      -- Digits after a zero: an old way to write octal numbers, unless an 8 or 9 is among them.
      else if digits.all (· ≤ '7') then some after
      else if after.head? = some 'n' then none
      else takeTail? after
  | '.' :: rest => takeDigits? isDigit rest >>= takeExponent?
  | s => takeDigits? isDigit s >>= takeTail?

def takeNumber? (s : List Char) : Option (List Char) := do
  let rest ← takeDigitsOf? s
  if rest.head?.any fun c => continuesName c || c = '\\' then none else return rest

/-! ### Strings, templates and regular expressions -/

/-- Whether an escape at the front of a text, after its backslash, means something. -/
def escapeIsGood : List Char → Bool
  | 'x' :: a :: b :: _ => isHexDigit a && isHexDigit b
  | 'x' :: _ => false
  | 'u' :: rest => (takeCode? rest).isSome
  | _ => true

def takeString? (quote : Char) : List Char → Option (List Char)
  | [] | ['\\'] => none
  | '\\' :: '\r' :: '\n' :: rest => takeString? quote rest
  | '\\' :: c :: rest => if escapeIsGood (c :: rest) then takeString? quote rest else none
  | c :: rest =>
    if c = quote then some rest
    else if c = '\n' || c = '\r' then none
    else takeString? quote rest

/-- Whether an escape in a template means something; octal escapes do not. -/
def templateEscapeIsGood : List Char → Bool
  | '0' :: c :: _ => !isDigit c
  | c :: rest => if '1' ≤ c && c ≤ '9' then false else escapeIsGood (c :: rest)
  | [] => false

/-- The rest of a template up to its end or its next expression: whether it is complete, whether it
has escapes that mean nothing, and the text after it. -/
def takeTemplate? : List Char → Option (Bool × Bool × List Char)
  | [] | ['\\'] => none
  | '\x60' :: rest => some (true, false, rest)
  | '$' :: '{' :: rest => some (false, false, rest)
  | '\\' :: c :: rest => (takeTemplate? rest).map fun (complete, marred, after) =>
    (complete, marred || !templateEscapeIsGood (c :: rest), after)
  | _ :: rest => takeTemplate? rest

/-- The text after the body of a regular expression and its closing slash.  `inClass` tells that a
bracket is open. -/
def takeRegexBody? : Bool → List Char → Option (List Char)
  | _, [] | _, ['\\'] => none
  | inClass, '\\' :: c :: rest => if endsLine c then none else takeRegexBody? inClass rest
  | inClass, c :: rest =>
    if endsLine c then none
    else if c = '/' && !inClass then some rest
    else takeRegexBody? (c = '[' || (inClass && c != ']')) rest

/-- The text after a regular expression, each flag of which may be given once. -/
def takeRegex? (s : List Char) : Option (List Char) := do
  let rest ← takeRegexBody? false s
  let flags := rest.takeWhile continuesName
  if flags.all ("dgimsuvy".toList.contains ·) && flags.eraseDups.length == flags.length then
    return rest.dropWhile continuesName
  else none

/-! ### Tokens -/

/-- The punctuation marks of more than one character, longer ones before shorter ones. -/
def longMarks : List (List Char) := [
  "??=", "**=", "&&=", "||=", "===", "!==", "...", "=>", "==", "!=", "++", "--", "+=", "-=", "*=",
  "/=", "%=", "&=", "|=", "^=", "&&", "||", "??", "**"].map String.toList

def shortMarks : List Char := "\x7b\x7d()[];,~?:.+-*/%&|^!=@<>".toList

def takeMark? (s : List Char) : Option (List Char) :=
  let optional := match s with
    | '?' :: '.' :: c :: _ => !isDigit c
    | ['?', '.'] => true
    | _ => false
  if optional then some ['?', '.']
  else (longMarks.find? fun m => m.isPrefixOf s).orElse fun _ =>
    (s.head?.filter (shortMarks.contains ·)).map ([·])

/-- The token at the front of a text without a gap before it, and the text after it. -/
def takeToken? (offset : Nat) (newline : Bool) (s : List Char) : Option (Token × List Char) :=
  let token (kind : TokenKind) (text : String) (marred : Bool) (after : List Char) :
      Token × List Char :=
    (⟨kind, text, marred, newline, offset, offset + (s.length - after.length)⟩, after)
  match s with
  | [] => some (token .done "" false [])
  | c :: rest =>
    if beginsName c || c = '\\' then
      (takeWord? s).map fun (word, marred, after) => token .word word marred after
    else if isDigit c || (c == '.' && rest.head?.any isDigit) then
      (takeNumber? s).map (token .number "" false)
    else if c = '\"' || c = '\'' then
      (takeString? c rest).map fun after =>
        token .text (String.ofList (rest.take (rest.length - after.length - 1))) false after
    else if c = '\x60' then
      (takeTemplate? rest).map fun (complete, marred, after) =>
        token (.template complete) "" marred after
    else if c = '#' then
      if rest.head?.any fun first => beginsName first || first = '\\' then
        (takeWord? rest).map fun (word, marred, after) => token .privateName word marred after
      else none
    else (takeMark? s).map fun mark =>
      token .mark (String.ofList mark) false (s.drop mark.length)

def Token.next? (offset : Nat) (s : List Char) : Option (Token × List Char) := do
  let (offset, newline, rest) ← skipGap? .between offset false s
  takeToken? offset newline rest

/-- The first token of a script, which may start with a line for the shell. -/
def Token.first? (s : List Char) : Option (Token × List Char) :=
  match s with
  | '#' :: '!' :: rest => do
    let (offset, _, rest) ← skipGap? .inLine 2 false rest
    takeToken? offset true rest
  | s => Token.next? 0 s

end ReactiveMarkup.Script
