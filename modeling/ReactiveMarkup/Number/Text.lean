/-
Numbers as text, and the remainder of a division.

A number has two written forms. The plain form has no exponent: whole numbers
below `10 ^ 21` show all their digits, all others the shortest decimal that
reads back. The precise form, for inspection, tells whole numbers by a `.0` and
writes very large and very small numbers with an exponent.
-/
import ReactiveMarkup.Number.Shortest

namespace ReactiveMarkup.Number

def isNegative (x : Float) : Bool := x.toBits.toNat / Nat.pow 2 63 == 1

def sign (x : Float) : String := if isNegative x then "-" else ""

def magnitude (x : Float) : Magnitude := Magnitude.ofBits x.toBits

def whole? (x : Float) : Option Nat :=
  let m := magnitude x
  if 0 ≤ m.exponent then some (m.mantissa * Nat.pow 2 m.exponent.toNat)
  else
    let unit := Nat.pow 2 (-m.exponent).toNat
    if m.mantissa % unit = 0 then some (m.mantissa / unit) else none

def Decimal.positional (d : Decimal) : String :=
  let ds := Nat.toDigits 10 d.digits
  if 0 ≤ d.exponent then String.ofList (ds ++ List.replicate d.exponent.toNat '0')
  else
    let places := (-d.exponent).toNat
    if places < ds.length then
      String.ofList (ds.take (ds.length - places) ++ '.' :: ds.drop (ds.length - places))
    else String.ofList ('0' :: '.' :: List.replicate (places - ds.length) '0' ++ ds)

def Decimal.scientific (d : Decimal) : String :=
  let ds := Nat.toDigits 10 d.digits
  let e := d.exponent + (ds.length : Int) - 1
  let digits := match ds with
    | [c] => [c]
    | c :: cs => c :: '.' :: cs
    | [] => []
  String.ofList digits ++ "e" ++ toString e

def plain (x : Float) : String :=
  if x.isNaN then "NaN"
  else if x.isInf then sign x ++ "Infinity"
  else if x == 0 then "0"
  else match whole? x with
    | some n =>
      if n < Nat.pow 10 21 then sign x ++ toString n
      else sign x ++ (magnitude x).shortest.normal.positional
    | none => sign x ++ (magnitude x).shortest.normal.positional

/-- The precise form of a number, with exponents from `10 ^ 16` on and below `10 ^ -4`. -/
def precise (x : Float) : String :=
  if x.isNaN then "NaN"
  else if x.isInf then sign x ++ "inf"
  else if x == 0 then sign x ++ "0.0"
  else
    let d := (magnitude x).shortest.normal
    if x.abs >= 1e16 || x.abs < 1e-4 then sign x ++ d.scientific
    else if 0 ≤ d.exponent then sign x ++ d.positional ++ ".0"
    else sign x ++ d.positional

/-- The remainder of the division of `x` by `y`, with the sign of `x`; not a number if there is
none. -/
def remainder (x y : Float) : Float :=
  if x.isNaN || y.isNaN || x.isInf || y == 0 then 0.0 / 0.0
  else if y.isInf || x == 0 then x
  else
    let a := magnitude x
    let b := magnitude y
    let e := min a.exponent b.exponent
    let r := a.mantissa * Nat.pow 2 (a.exponent - e).toNat %
      (b.mantissa * Nat.pow 2 (b.exponent - e).toNat)
    let size := (Float.ofNat r).scaleB e
    if isNegative x then -size else size

end ReactiveMarkup.Number
