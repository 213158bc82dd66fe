/-
The two calls by which a script asks for the properties of its component.

`defineProps()` stands for the properties themselves; with an argument, which
holds defaults, for the defaults overlaid with the properties.  The second
argument of `withDefaults(…, …)` holds defaults in the same way.  Types in angle
brackets are dropped.
-/
import ReactiveMarkup.Script.Code

namespace ReactiveMarkup.Script

open Text

def propsName : List Char := "__props".toList

def overlay (defaults : List Char) : List Char :=
  "_$mergeProps(".toList ++ trim defaults ++ ", ".toList ++ propsName ++ [')']

def isPlainNameChar (c : Char) : Bool := isAlphanumeric c || c == '_' || c == '$'

/-- What follows a name at the front of a marked text, if it ends there. -/
def dropName? : List Char → List Mark → Option (List Mark)
  | [], [] => some []
  | [], m :: ms => if isPlainNameChar m.char then none else some (m :: ms)
  | _ :: _, [] => none
  | p :: ps, m :: ms => if m.char = p then dropName? ps ms else none

def skipSpaces (ms : List Mark) : List Mark := ms.dropWhile fun m => isSpace m.char

def takeParens? (ms : List Mark) : Option (List Mark × List Mark) :=
  match ms with
  | m :: _ =>
    if m.char = '(' then do
      let (group, rest) ← balancedEnd? '(' ')' ms
      return (group.dropLast.drop 1, rest)
    else none
  | [] => none

/-- What follows the types in angle brackets at the front of a marked text, if there are any. -/
def dropTypeArguments? (ms : List Mark) : Option (List Mark) :=
  match ms with
  | m :: _ =>
    if m.char = '<' then (typeArgumentsEnd? ms).map fun p => skipSpaces p.2 else some ms
  | [] => some ms

def withDefaultsCall? (ms : List Mark) : Option (List Char × List Mark) := do
  let rest ← dropName? "withDefaults".toList ms
  let (inside, rest) ← takeParens? (skipSpaces rest)
  match arguments inside with
  | _ :: defaults :: _ => return (overlay defaults, rest)
  | _ => return (propsName, rest)

def definePropsCall? (ms : List Mark) : Option (List Char × List Mark) := do
  let rest ← dropName? "defineProps".toList ms
  let rest ← dropTypeArguments? (skipSpaces rest)
  let (inside, rest) ← takeParens? rest
  let defaults := trim (chars inside)
  return (if defaults.isEmpty then propsName else overlay defaults, rest)

def propsCall? (ms : List Mark) : Option (List Char × List Mark) :=
  (withDefaultsCall? ms).or (definePropsCall? ms)

def isCallBoundary (previous : Option Char) : Bool :=
  !previous.any fun c => isPlainNameChar c || c == '.'

/-- The text with all calls replaced, of which the first `skip` characters belong to a call. -/
def expandFrom : Option Char → Nat → List Mark → List Char
  | _, _, [] => []
  | _, skip + 1, m :: ms => expandFrom (some m.char) skip ms
  | previous, 0, m :: ms =>
    let call := if m.isCode && isCallBoundary previous then propsCall? (m :: ms) else none
    match call with
    | some (text, rest) => text ++ expandFrom (some m.char) (ms.length - rest.length) ms
    | none => m.char :: expandFrom (some m.char) 0 ms

def expandProps (s : List Char) : List Char := expandFrom none 0 (marks s)

end ReactiveMarkup.Script
