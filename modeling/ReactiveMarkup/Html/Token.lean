/-
The tokens of HTML text.

Reading markup never fails: what is not a tag, a comment or a document type is
text. How text is read depends on the open element, so a reader is told which
kind of content it is in.
-/
import ReactiveMarkup.Html.References
import ReactiveMarkup.Text.Chars

namespace ReactiveMarkup.Html

open Text

structure Tag where
  name : String
  attributes : List (String × String) := []
  selfClosing : Bool := false

/-- What HTML text is made of. Characters come in runs, all space or without any. -/
inductive Token where
  | characters (space : Bool) (text : List Char)
  | null
  | comment (text : String)
  | startTag (tag : Tag)
  | endTag (name : String)
  | documentType (standard : Bool)
  | finish

/-- How text is read: as markup; as text with references or without up to an end tag; as a script;
or to the end. -/
inductive Content where
  | markup
  | escapable (name : String)
  | raw (name : String)
  | script
  | plain

def replacement : Char := Char.ofNat 0xFFFD

def withoutNull (s : List Char) : List Char := s.map fun c => if c.toNat = 0 then replacement else c

/-- The text with carriage returns, also those before a line feed, as line feeds. -/
def unifyLines : List Char → List Char
  | [] => []
  | '\r' :: '\n' :: cs => '\n' :: unifyLines cs
  | '\r' :: cs => '\n' :: unifyLines cs
  | c :: cs => c :: unifyLines cs

/-- The text that is read: without a byte order mark at its front, and with one kind of line end. -/
def clean (s : List Char) : List Char :=
  unifyLines (if s.head?.any (·.toNat == 0xFEFF) then s.drop 1 else s)

/-! ### Character references -/

/-- What the codes from 128 to 159 stand for, of which five stand for themselves. -/
def oldCodes : List Nat := [
  0x20AC, 0x81, 0x201A, 0x0192, 0x201E, 0x2026, 0x2020, 0x2021,
  0x02C6, 0x2030, 0x0160, 0x2039, 0x0152, 0x8D, 0x017D, 0x8F,
  0x90, 0x2018, 0x2019, 0x201C, 0x201D, 0x2022, 0x2013, 0x2014,
  0x02DC, 0x2122, 0x0161, 0x203A, 0x0153, 0x9D, 0x017E, 0x0178]

def characterOf (code : Nat) : Char :=
  if code = 0 || code > 0x10FFFF || (0xD800 ≤ code && code ≤ 0xDFFF) then replacement
  else if 0x80 ≤ code && code ≤ 0x9F then Char.ofNat (oldCodes.getD (code - 0x80) code)
  else Char.ofNat code

def coded? (s : List Char) : Option (List Char × Nat) :=
  let (mark, base, isDigitOf) : Nat × Nat × (Char → Bool) :=
    match s with
    | 'x' :: _ | 'X' :: _ => (1, 16, fun c => (hexValue? c).isSome)
    | _ => (0, 10, isDigit)
  let digits := (s.drop mark).takeWhile isDigitOf
  let code := digits.foldl (fun n c => n * base + (hexValue? c).getD 0) 0
  let stop := if (s.drop (mark + digits.length)).head? = some ';' then 1 else 0
  if digits.isEmpty then none else some ([characterOf code], mark + digits.length + stop)

def named? (s : List Char) : Option (List Char × Nat) :=
  references.foldl (fun best (name, chars) =>
    match drop? name s with
    | none => best
    | some rest =>
      let length :=
        if rest.head? = some ';' then some (name.length + 1)
        else if oldNames.contains name then some name.length
        else none
      match length, best with
      | none, _ => best
      | some n, some (_, m) => if n > m then some (chars, n) else best
      | some n, none => some (chars, n)) none

/-- A reference, after its `&`: its characters and its length. In an attribute's value, a name
without semicolon is none if a letter, a digit or `=` follows. -/
def reference? (inValue : Bool) (s : List Char) : Option (List Char × Nat) :=
  match s with
  | '#' :: rest => (coded? rest).map fun (chars, n) => (chars, n + 1)
  | c :: _ =>
    if !isAlphanumeric c then none
    else
      match named? s with
      | none => none
      | some (chars, n) =>
        let open? := (s.drop (n - 1)).head? != some ';'
        let next := (s.drop n).head?
        if inValue && open? && next.any (fun d => d = '=' || isAlphanumeric d) then none
        else some (chars, n)
  | [] => none

/-- The text with its references replaced, after its first `skip` characters. -/
def decodeFrom (inValue : Bool) : Nat → List Char → List Char
  | _, [] => []
  | skip + 1, _ :: cs => decodeFrom inValue skip cs
  | 0, c :: cs =>
    if c = '&' then
      match reference? inValue cs with
      | some (chars, n) => chars ++ decodeFrom inValue n cs
      | none => c :: decodeFrom inValue 0 cs
    else c :: decodeFrom inValue 0 cs

def decode (inValue : Bool) (s : List Char) : List Char := decodeFrom inValue 0 s

/-! ### Runs of characters -/

def runs (s : List Char) : List Token :=
  s.foldr (fun c tokens =>
    match tokens with
    | .characters space text :: rest =>
      if space == isSpace c then .characters space (c :: text) :: rest
      else .characters (isSpace c) [c] :: tokens
    | _ => .characters (isSpace c) [c] :: tokens) []

/-! ### Tags -/

def endsName (c : Char) : Bool := isSpace c || c = '/' || c = '>'

def nameOf (s : List Char) : String := String.ofList ((withoutNull s).map toLower)

def value? (s : List Char) : Option (List Char × List Char) :=
  match s.dropWhile isSpace with
  | [] => none
  | '\"' :: rest => cut? ['\"'] rest
  | '\'' :: rest => cut? ['\''] rest
  | rest =>
    some (rest.takeWhile fun c => !(isSpace c || c = '>'),
      rest.dropWhile fun c => !(isSpace c || c = '>'))

def attribute? (s : List Char) : Option ((String × String) × List Char) :=
  let goesOn (c : Char) : Bool := !(endsName c || c = '=')
  let name := s.take 1 ++ (s.drop 1).takeWhile goesOn
  let rest := (s.drop 1).dropWhile goesOn
  match rest.dropWhile isSpace with
  | '=' :: rest =>
    (value? rest).map fun (value, rest) =>
      ((nameOf name, String.ofList (decode true (withoutNull value))), rest)
  | _ => some ((nameOf name, ""), rest)

/-- The attributes of a tag, whether it closes itself, and the text after it; nothing if the text
ends first. Of two attributes of one name the first counts. -/
def attributesFrom? : Nat → List (String × String) → List Char →
    Option (List (String × String) × Bool × List Char)
  | 0, _, _ => none
  | _ + 1, _, [] => none
  | _ + 1, found, '>' :: rest => some (found.reverse, false, rest)
  | _ + 1, found, '/' :: '>' :: rest => some (found.reverse, true, rest)
  | fuel + 1, found, c :: rest =>
    if isSpace c || c = '/' then attributesFrom? fuel found rest
    else
      match attribute? (c :: rest) with
      | none => none
      | some (pair, rest) =>
        attributesFrom? fuel (if found.any (·.1 == pair.1) then found else pair :: found) rest

def tag? (s : List Char) : Option (Tag × List Char) :=
  let rest := s.dropWhile fun c => !endsName c
  (attributesFrom? (rest.length + 1) [] rest).map fun (attributes, selfClosing, rest) =>
    ({ name := nameOf (s.takeWhile fun c => !endsName c), attributes, selfClosing }, rest)

/-! ### Comments and declarations -/

/-- The text of a comment, after its `<!--`, that never ends: less the dashes at its end. -/
def unended (s : List Char) : List Char :=
  match s.reverse with
  | '!' :: '-' :: '-' :: rest => rest.reverse
  | '-' :: '-' :: rest => rest.reverse
  | '-' :: rest => rest.reverse
  | _ => s

def commentEnd? : List Char → Option (List Char × List Char)
  | [] => none
  | '-' :: '-' :: '>' :: rest => some ([], rest)
  | '-' :: '-' :: '!' :: '>' :: rest => some ([], rest)
  | c :: rest => (commentEnd? rest).map fun (text, rest) => (c :: text, rest)

def comment (s : List Char) : List Char × List Char :=
  match s with
  | '>' :: rest => ([], rest)
  | '-' :: '>' :: rest => ([], rest)
  | _ => (commentEnd? s).getD (unended s, [])

def untilClose (s : List Char) : List Char × List Char := (cut? ['>'] s).getD (s, [])

/-- The quoted identifier at the front of a declaration and the text after it; nothing if there is
none or it does not end before the declaration. -/
def identifier? (s : List Char) : Option (List Char) :=
  match s with
  | q :: rest =>
    if q = '\"' || q = '\'' then (cut? [q] rest).bind fun (text, rest) =>
      if text.contains '>' then none else some rest
    else none
  | [] => none

def closesWell (s : List Char) : Bool :=
  let s := s.dropWhile isSpace
  let word := nameOf (s.take 6)
  let rest := (s.drop 6).dropWhile isSpace
  if s.head? = some '>' then true
  else if word == "system" then (identifier? rest).any fun rest => rest.contains '>'
  else if word == "public" then
    match identifier? rest with
    | none => false
    | some rest =>
      let rest := rest.dropWhile isSpace
      rest.head? = some '>' || (identifier? rest).any fun rest => rest.contains '>'
  else false

/-- The document type after `<!doctype`, standard if it is well formed and its name is `html`. -/
def documentType (s : List Char) : Bool × List Char :=
  let s := s.dropWhile isSpace
  let isEnd (c : Char) : Bool := isSpace c || c = '>'
  let name := nameOf (s.takeWhile fun c => !isEnd c)
  let rest := s.dropWhile fun c => !isEnd c
  (name == "html" && closesWell rest, (untilClose rest).2)

def declaration (inForeign : Bool) (s : List Char) : List Token × List Char :=
  match s with
  | '-' :: '-' :: rest =>
    let (text, rest) := comment rest
    ([.comment (String.ofList (withoutNull text))], rest)
  | _ =>
    if nameOf (s.take 7) == "doctype" then
      let (standard, rest) := documentType (s.drop 7)
      ([.documentType standard], rest)
    else
      match if inForeign then drop? "[CDATA[".toList s else none with
      | some rest =>
        let (text, rest) := (cut? "]]>".toList rest).getD (rest, [])
        (runs (withoutNull text), rest)
      | none =>
        let (text, rest) := untilClose s
        ([.comment (String.ofList (withoutNull text))], rest)

/-! ### Reading -/

def markup (inForeign : Bool) (s : List Char) : List Token × List Char :=
  let remark (s : List Char) : List Token × List Char :=
    let (text, rest) := untilClose s
    ([.comment (String.ofList (withoutNull text))], rest)
  match s with
  | '!' :: rest => declaration inForeign rest
  | '?' :: _ => remark s
  | '/' :: [] => (runs ['<', '/'], [])
  | '/' :: '>' :: rest => ([], rest)
  | '/' :: c :: rest =>
    if isLetter c then
      match tag? (c :: rest) with
      | none => ([], [])
      | some (tag, rest) => ([.endTag tag.name], rest)
    else remark (c :: rest)
  | c :: _ =>
    if isLetter c then
      match tag? s with
      | none => ([], [])
      | some (tag, rest) => ([.startTag tag], rest)
    else (runs ['<'], s)
  | [] => (runs ['<'], s)

def closes (name : String) (s : List Char) : Bool :=
  match s with
  | '<' :: '/' :: rest =>
    nameOf (rest.take name.length) == name && (rest.drop name.length).head?.any endsName
  | _ => false

def upTo (name : String) : List Char → List Char
  | [] => []
  | c :: cs => if closes name (c :: cs) then [] else c :: upTo name cs

/-- Where in a script the text is: plain, in a comment, or in a script inside a comment. -/
inductive Inside where
  | script
  | comment
  | nested

/-- The text up to the end tag of a script. Between `<!--` and `-->` a script that is started has to
end first. `dashes` counts the dashes just read. -/
def scriptText : Inside → Nat → List Char → List Char
  | _, _, [] => []
  | .script, _, c :: cs =>
    if closes "script" (c :: cs) then []
    else if c = '<' && (drop? "!--".toList cs).isSome then c :: scriptText .comment 0 cs
    else c :: scriptText .script 0 cs
  | .comment, dashes, c :: cs =>
    if closes "script" (c :: cs) then []
    else if c = '-' then c :: scriptText .comment (dashes + 1) cs
    else if c = '>' && dashes ≥ 2 then c :: scriptText .script 0 cs
    else if c = '<' && nameOf (cs.take 6) == "script" && (cs.drop 6).head?.any endsName then
      c :: scriptText .nested 0 cs
    else c :: scriptText .comment 0 cs
  | .nested, dashes, c :: cs =>
    if c = '-' then c :: scriptText .nested (dashes + 1) cs
    else if c = '>' && dashes ≥ 2 then c :: scriptText .script 0 cs
    else if closes "script" (c :: cs) then c :: scriptText .comment 0 cs
    else c :: scriptText .nested 0 cs

/-- The tokens of a text that goes on to the end tag of an element: the text, if any, and otherwise
that tag. -/
def element (text : List Char) (decoded : List Char) (s : List Char) : List Token × List Char :=
  if text.isEmpty then
    match tag? (s.drop 2) with
    | none => ([], [])
    | some (tag, rest) => ([.endTag tag.name], rest)
  else (runs decoded, s.drop text.length)

/-- The tokens at the front of a text that is not empty, and the text after them. There may be none,
but some text is always read. -/
def Token.next (content : Content) (inForeign : Bool) (s : List Char) : List Token × List Char :=
  match content with
  | .plain => (runs (withoutNull s), [])
  | .raw name => let text := upTo name s; element text (withoutNull text) s
  | .script => let text := scriptText .script 0 s; element text (withoutNull text) s
  | .escapable name => let text := upTo name s; element text (decode false (withoutNull text)) s
  | .markup =>
    match s with
    | [] => ([], [])
    | '<' :: rest => markup inForeign rest
    | '&' :: rest =>
      match reference? false rest with
      | some (chars, n) => (runs chars, rest.drop n)
      | none => (runs ['&'], rest)
    | c :: rest =>
      if c.toNat = 0 then ([.null], rest)
      else
        let ends (c : Char) : Bool := c = '<' || c = '&' || c.toNat = 0
        (runs (s.takeWhile fun c => !ends c), s.dropWhile fun c => !ends c)

end ReactiveMarkup.Html
