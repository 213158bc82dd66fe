/-
Blanks, and texts without the blanks around them.

* `continues_of_isBlank`: a blank continues no name;
* `Bare`: no blanks stand around a text;
* `exists_trim`, `trim_eq`: trimming takes away the blanks around a text, and nothing else;
* `inked`: the characters of a text that are no blanks, which trimming keeps.
-/
import ReactiveMarkup.Proofs.Markup.Grammar

namespace ReactiveMarkup.Text

open List

open Markup (exists_trimEnd trimEnd_append_blanks takeWhile_dropWhile_append)

/-! ### Blanks in names -/

theorem tableEntries_cons {line} {lines} :
    tableEntries (String.ofList line :: lines) = splitBy (· == ' ') line ++ tableEntries lines := by
  rw [tableEntries, flatMap_cons, String.toList_ofList]
  rfl

def inkedOnly (ranges : List (Nat × Nat)) : Bool :=
  ranges.all fun r => blanks.all fun b => b.2 < r.1 || r.2 < b.1

set_option maxRecDepth 20000 in
theorem inkedOnly_words :
    inkedOnly (identifierStarts ++ identifierParts ++ wordsOnly) = true := by
  unfold identifierStarts identifierParts wordsOnly
  repeat rw [tableEntries_cons]
  decide +kernel

theorem inRanges_append (r r' : List (Nat × Nat)) (n : Nat) :
    inRanges (r ++ r') n = (inRanges r n || inRanges r' n) :=
  any_append

theorem continues_of_isBlank (h : isBlank c = true) :
    continuesIdentifier c = false ∧ continuesName c = false := by
  obtain ⟨b, hb, hle⟩ := any_eq_true.1 h
  have hwords : inRanges (identifierStarts ++ identifierParts ++ wordsOnly) c.toNat = false := by
    refine any_eq_false.2 fun r hr => ?_
    have hapart := all_eq_true.1 (all_eq_true.1 inkedOnly_words r hr) b hb
    simp only [Bool.or_eq_true, decide_eq_true_eq, Bool.and_eq_true] at hapart hle ⊢
    omega
  rw [inRanges_append, inRanges_append] at hwords
  simp only [Bool.or_eq_false_iff] at hwords
  have hplain : ∀ b ∈ blanks, b.2 ≤ 32 ∨ 128 ≤ b.1 := by decide
  simp only [Bool.and_eq_true, decide_eq_true_eq] at hle
  have hc : c.toNat ≤ 32 ∨ 128 ≤ c.toNat := by
    have := hplain b hb
    omega
  have hrange (lo hi : Char) (h : 32 < lo.toNat ∧ hi.toNat < 128) :
      (decide (lo ≤ c) && decide (c ≤ hi)) = false := by
    rw [Bool.and_eq_false_iff, decide_eq_false_iff_not, decide_eq_false_iff_not, Char.le_def,
      Char.le_def, UInt32.le_iff_toNat_le, UInt32.le_iff_toNat_le]
    simp only [Char.toNat] at h hc
    omega
  have hne (d : Char) (hd : 32 < d.toNat ∧ d.toNat < 128) : (c == d) = false := by
    rw [beq_eq_false_iff_ne]
    rintro rfl
    omega
  simp [continuesIdentifier, isWord, continuesName, beginsName, isAlphanumeric, isLetter, isLower,
    isUpper, isDigit, hwords, hrange 'a' 'z' (by decide), hrange 'A' 'Z' (by decide),
    hrange '0' '9' (by decide), hne '_' (by decide), hne '$' (by decide)]

/-! ### Trimming -/

variable {s w w' : List Char}

/-- Blanks, at least one. -/
def IsGap (w : List Char) : Prop := w ≠ [] ∧ ∀ c ∈ w, isBlank c = true

/-- No blanks stand around a text. -/
def Bare (s : List Char) : Prop :=
  (∀ c ∈ s.head?, isBlank c = false) ∧ ∀ c ∈ s.getLast?, isBlank c = false

theorem trimStart_of_head (h : ∀ c ∈ s.head?, isBlank c = false) : trimStart s = s :=
  (@takeWhile_dropWhile_append [] _ _ nofun h).2

theorem exists_trimStart (s : List Char) :
    ∃ w, (∀ c ∈ w, isBlank c = true) ∧ s = w ++ trimStart s :=
  ⟨s.takeWhile isBlank, fun _ => mem_takeWhile_imp,
    takeWhile_append_dropWhile.symm⟩

theorem exists_trim (s : List Char) : ∃ w w', s = w ++ trim s ++ w' ∧
    (∀ c ∈ w, isBlank c = true) ∧ (∀ c ∈ w', isBlank c = true) ∧ Bare (trim s) := by
  obtain ⟨w', hend, hw', hlast⟩ := exists_trimEnd (trimStart s)
  obtain ⟨w, hw, hstart⟩ := exists_trimStart s
  refine ⟨w, w', ?_, hw, hw', ?_, hlast⟩
  · rw [append_assoc, trim, ← hend, ← hstart]
  · intro c hc
    have hnot := head?_dropWhile_not isBlank s
    rw [← trimStart, hend, List.head?_append, ← trim, Option.mem_def.1 hc] at hnot
    simpa using hnot

theorem trim_eq (hs : Bare s) (hw : ∀ c ∈ w, isBlank c = true) (hw' : ∀ c ∈ w', isBlank c = true) :
    trim (w ++ s ++ w') = s := by
  cases s with
  | nil =>
    have hall : ∀ c ∈ w ++ [] ++ w', isBlank c = true := by
      simpa [or_imp, forall_and] using ⟨hw, hw'⟩
    rw [trim, trimStart, dropWhile_eq_nil_iff.2 hall]
    rfl
  | cons c s =>
    have hhead : ∀ d ∈ (c :: s ++ w').head?, isBlank d = false := hs.1
    rw [trim, trimStart, append_assoc, (takeWhile_dropWhile_append hw hhead).2]
    exact trimEnd_append_blanks hw' hs.2

theorem bare_trim (s : List Char) : Bare (trim s) := by
  obtain ⟨_, _, -, -, -, h⟩ := exists_trim s
  exact h

/-- The characters that are no blanks. -/
def inked (s : List Char) : List Char := s.filter fun c => !isBlank c

theorem inked_append (s t : List Char) : inked (s ++ t) = inked s ++ inked t :=
  filter_append s t

theorem inked_eq_nil_iff : inked s = [] ↔ s.all isBlank = true := by
  simp [inked]

theorem inked_trim (s : List Char) : inked (trim s) = inked s := by
  obtain ⟨w, w', hs, hw, hw', -⟩ := exists_trim s
  have hnil {w : List Char} (hw : ∀ c ∈ w, isBlank c = true) : inked w = [] :=
    inked_eq_nil_iff.2 (all_eq_true.2 hw)
  have hinked := congrArg inked hs
  rw [inked_append, inked_append, hnil hw, hnil hw', append_nil] at hinked
  exact hinked.symm

theorem trim_eq_nil_iff : trim s = [] ↔ s.all isBlank = true := by
  constructor
  · intro h
    rw [← inked_eq_nil_iff, ← inked_trim, h]
    rfl
  · intro h
    simpa using @trim_eq [] _ [] ⟨nofun, nofun⟩ (all_eq_true.1 h) nofun

end ReactiveMarkup.Text
