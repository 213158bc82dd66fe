/-
A reader of JSON documents.

Texts and names inside a document keep their written form until they are asked
for (`Json.text?`, `Json.record?`), so that a document whose unused parts hold
escapes without a meaning can still be read.
-/
import ReactiveMarkup.Text.Quoted

namespace ReactiveMarkup.Text

/-- A JSON value.  Numbers keep nothing but the fact that they are numbers. -/
inductive Json where
  | null
  | bool (b : Bool)
  | number
  | string (written : List Char)
  | array (items : List Json)
  | object (fields : List (List Char × Json))

namespace Json

def isGap (c : Char) : Bool := c == ' ' || c == '\n' || c == '\t' || c == '\r'

def skipGap (s : List Char) : List Char := s.dropWhile isGap

def takeDigits? (s : List Char) : Option (List Char) :=
  match s with
  | c :: cs => if c.isDigit then some (cs.dropWhile Char.isDigit) else none
  | [] => none

def takeWhole? : List Char → Option (List Char)
  | '0' :: rest =>
    match rest with
    | c :: _ => if c.isDigit then none else some rest
    | [] => some rest
  | s => takeDigits? s

def takeFraction? : List Char → Option (List Char)
  | '.' :: rest => takeDigits? rest
  | s => some s

def takeExponent? : List Char → Option (List Char)
  | c :: rest =>
    if c = 'e' || c = 'E' then
      match rest with
      | '+' :: rest => takeDigits? rest
      | '-' :: rest => takeDigits? rest
      | rest => takeDigits? rest
    else some (c :: rest)
  | [] => some []

def takeNumber? (s : List Char) : Option (List Char) := do
  let s ← takeWhole? (match s with | '-' :: rest => rest | s => s)
  let s ← takeFraction? s
  takeExponent? s

mutual

def value? : Nat → List Char → Option (Json × List Char)
  | 0, _ => none
  | fuel + 1, s =>
    match skipGap s with
    | '\"' :: rest => (takeQuoted? rest).map fun p => (.string p.1, p.2)
    | '[' :: rest =>
      match skipGap rest with
      | ']' :: rest => some (.array [], rest)
      | rest => (items? fuel rest).map fun p => (.array p.1, p.2)
    | '{' :: rest =>
      match skipGap rest with
      | '}' :: rest => some (.object [], rest)
      | rest => (fields? fuel rest).map fun p => (.object p.1, p.2)
    | rest =>
      match drop? "null".toList rest, drop? "true".toList rest, drop? "false".toList rest with
      | some rest, _, _ => some (.null, rest)
      | _, some rest, _ => some (.bool true, rest)
      | _, _, some rest => some (.bool false, rest)
      | _, _, _ => (takeNumber? rest).map fun rest => (.number, rest)

def items? : Nat → List Char → Option (List Json × List Char)
  | 0, _ => none
  | fuel + 1, s => do
    let (item, s) ← value? fuel s
    match skipGap s with
    | ']' :: rest => return ([item], rest)
    | ',' :: rest => do
      let (items, rest) ← items? fuel rest
      return (item :: items, rest)
    | _ => none

def fields? : Nat → List Char → Option (List (List Char × Json) × List Char)
  | 0, _ => none
  | fuel + 1, s =>
    match skipGap s with
    | '\"' :: rest => do
      let (name, rest) ← takeQuoted? rest
      match skipGap rest with
      | ':' :: rest => do
        let (item, rest) ← value? fuel rest
        match skipGap rest with
        | '}' :: rest => return ([(name, item)], rest)
        | ',' :: rest => do
          let (fields, rest) ← fields? fuel rest
          return ((name, item) :: fields, rest)
        | _ => none
      | _ => none
    | _ => none

end

/-- The value a document holds.  Each step down reads at least one character, so twice the length
of the document is enough fuel. -/
def parse? (s : List Char) : Option Json := do
  let (v, rest) ← value? (2 * s.length + 2) s
  if (skipGap rest).isEmpty then return v else none

def text? : Json → Option String
  | .string written => (unescape? written).map String.ofList
  | _ => none

/-- The values of the fields of a record, in the order of `names`.  A field may not be missing or
given twice; fields of other names are ignored, but their names are read.  An array holds just the
fields, in order. -/
def record? (names : List String) : Json → Option (List Json)
  | .object fields => do
    let read ← fields.mapM fun f => unescape? f.1
    names.mapM fun name =>
      match (read.zip fields).filter fun f => f.1 == name.toList with
      | [f] => some f.2.2
      | _ => none
  | .array items => if items.length = names.length then some items else none
  | _ => none

end Json

end ReactiveMarkup.Text
