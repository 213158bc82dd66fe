/-
The shortest decimal that reads back as a given floating point number.

A positive double is `m * 2 ^ q`. The reals that round to it form an interval
around it, with its ends when `m` is even. For one digit, two digits and so on,
the two neighbours of the number on the grid of decimals with that many digits
are tried; the first grid with a neighbour in the interval gives the answer: the
nearer neighbour, of two equally near ones the even one. Seventeen digits are
always enough.
-/

namespace ReactiveMarkup.Number

/-- The positive number `mantissa * 2 ^ exponent`. If `narrow`, the next smaller double is only half
as far as the next larger one. -/
structure Magnitude where
  mantissa : Nat
  exponent : Int
  narrow : Bool

structure Decimal where
  digits : Nat
  exponent : Int
  deriving DecidableEq, Repr

def Magnitude.ofBits (bits : UInt64) : Magnitude :=
  let fraction : Nat := bits.toNat % Nat.pow 2 52
  let field : Nat := bits.toNat / Nat.pow 2 52 % Nat.pow 2 11
  if field = 0 then ⟨fraction, -1074, false⟩
  else ⟨Nat.pow 2 52 + fraction, (field : Int) - 1075, fraction == 0 && field > 1⟩

def digitCount (n : Nat) : Nat := if n = 0 then 0 else (Nat.toDigits 10 n).length

/-- The least `j ≥ from` with `den ≤ num * 10 ^ j`, searched for in `fuel` steps. -/
def scaleUp (num den : Nat) : Nat → Nat → Nat
  | 0, j => j
  | fuel + 1, j => if den ≤ num * Nat.pow 10 j then j else scaleUp num den fuel (j + 1)

def highest (num den : Nat) : Int :=
  if den ≤ num then (digitCount (num / den) : Int) - 1
  else -(scaleUp num den 400 1 : Int)

/-- The neighbour of `num / den` among the multiples of `10 ^ k` that lies between `low / den` and
`high / den`, the nearer one of two. The ends count if `ends`. -/
def onGrid? (low num high den : Nat) (ends : Bool) (k : Int) : Option Nat :=
  let up := Nat.pow 10 k.toNat
  let down := Nat.pow 10 (-k).toNat
  -- In units of `1 / (den * down)` a grid point `d` is `d * unit`.
  let unit := den * up
  let d := num * down / unit
  let inside (d : Nat) : Bool :=
    if ends then low * down ≤ d * unit && d * unit ≤ high * down
    else low * down < d * unit && d * unit < high * down
  let below := num * down - d * unit
  let above := (d + 1) * unit - num * down
  match inside d, inside (d + 1) with
  | true, true =>
    if below < above || (below == above && d % 2 == 0) then some d else some (d + 1)
  | true, false => some d
  | false, true => some (d + 1)
  | false, false => none

/-- The first grid with a neighbour in the interval, from grids of `n` digits on. -/
def search (low num high den : Nat) (ends : Bool) (top : Int) : Nat → Nat → Decimal
  | 0, _ => ⟨num / den, 0⟩
  | fuel + 1, n =>
    let k := top - n + 1
    match onGrid? low num high den ends k with
    | some d => ⟨d, k⟩
    | none => search low num high den ends top fuel (n + 1)

def Magnitude.shortest (x : Magnitude) : Decimal :=
  -- Quarters of the last place, so that both ends of the interval are whole numbers.
  let scale := Nat.pow 2 (x.exponent - 2).toNat
  let den := Nat.pow 2 (2 - x.exponent).toNat
  let num := 4 * x.mantissa * scale
  let low := (4 * x.mantissa - if x.narrow then 1 else 2) * scale
  let high := (4 * x.mantissa + 2) * scale
  search low num high den (x.mantissa % 2 == 0) (highest num den) 18 1

def Decimal.strip : Nat → Decimal → Decimal
  | 0, d => d
  | fuel + 1, d =>
    if d.digits ≠ 0 && d.digits % 10 = 0 then
      Decimal.strip fuel ⟨d.digits / 10, d.exponent + 1⟩
    else d

def Decimal.normal (d : Decimal) : Decimal := d.strip 20

end ReactiveMarkup.Number
