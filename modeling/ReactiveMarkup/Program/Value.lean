/-
The values of programs.

A value is a scalar or a list of values.
-/
import ReactiveMarkup.Dom.Scalar

namespace ReactiveMarkup.Program

open Dom (Scalar)

inductive Value where
  | scalar (s : Scalar)
  | list (items : List Value)

namespace Value

def null : Value := .scalar .null

def text (s : String) : Value := .scalar (.text s)

def bool (b : Bool) : Value := .scalar (.bool b)

def number (x : Float) : Value := .scalar (.number x)

def ofNat (n : Nat) : Value := number (Float.ofNat n)

def ofText? : Option String → Value
  | none => null
  | some s => text s

instance : Inhabited Value := ⟨null⟩

mutual

def beq : Value → Value → Bool
  | .scalar s, .scalar t => s == t
  | .list l, .list m => beqAll l m
  | _, _ => false

def beqAll : List Value → List Value → Bool
  | [], [] => true
  | v :: l, w :: m => beq v w && beqAll l m
  | _, _ => false

end

instance : BEq Value := ⟨beq⟩

mutual

def toText : Value → String
  | .scalar s => s.toText
  | .list items => "[" ++ ",".intercalate (toTexts items) ++ "]"

def toTexts : List Value → List String
  | [] => []
  | v :: rest => toText v :: toTexts rest

end

def toScalar : Value → Scalar
  | .scalar s => s
  | v => .text v.toText

def toNumber : Value → Float
  | .scalar (.number x) => x
  | _ => 0.0 / 0.0

def isTruthy : Value → Bool
  | .scalar s => !s.isFalsy
  | .list _ => true

end Value

end ReactiveMarkup.Program
