/-
The values of attributes, properties and texts.

A value that says "nothing" or "false" takes an attribute away; content of
nothing or a truth value shows as nothing.
-/
import ReactiveMarkup.Number.Text
import ReactiveMarkup.Text.Quoted

namespace ReactiveMarkup.Dom

inductive Scalar where
  | null
  | bool (b : Bool)
  | number (x : Float)
  | text (s : String)

namespace Scalar

/-- Equality of values, under which a number that is none differs from itself. -/
def beq : Scalar → Scalar → Bool
  | null, null => true
  | bool a, bool b => a == b
  | number x, number y => x == y
  | text s, text t => s == t
  | _, _ => false

instance : BEq Scalar := ⟨beq⟩

instance : Inhabited Scalar := ⟨null⟩

def isFalsy : Scalar → Bool
  | null => true
  | bool b => !b
  | number x => x == 0.0 || x.isNaN
  | text s => s.isEmpty

def isRenderable : Scalar → Bool
  | null | bool _ => false
  | number _ | text _ => true

def boolText (b : Bool) : String := if b then "true" else "false"

def toText : Scalar → String
  | null => "null"
  | bool b => boolText b
  | number x => Number.plain x
  | text s => s

end Scalar

/-! ### Descriptions -/

def describeChar (c : Char) : List Char :=
  if c = '\"' then ['\\', '\"']
  else if c = '\\' then ['\\', '\\']
  else if c = '\n' then ['\\', 'n']
  else if c = '\r' then ['\\', 'r']
  else if c = '\t' then ['\\', 't']
  else if c.toNat = 0 then ['\\', '0']
  else if c.toNat < 0x20 || c.toNat = 0x7f then
    "\\u\x7b".toList ++ Nat.toDigits 16 c.toNat ++ ['\x7d']
  else [c]

def describeText (s : String) : String :=
  String.ofList ('\"' :: s.toList.flatMap describeChar ++ ['\"'])

def Scalar.describe : Scalar → String
  | null => "Null"
  | bool b => "Bool(" ++ boolText b ++ ")"
  | number x => "Number(" ++ Number.precise x ++ ")"
  | text s => "Str(" ++ describeText s ++ ")"

end ReactiveMarkup.Dom
