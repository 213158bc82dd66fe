/-
Lines and columns of byte offsets.

A file is stored as bytes, and a tool that points into it counts them.  The line
and the column of an offset depend only on the text before it: on how many lines end
there, and on how many characters stand after the last of these ends.
-/
import Mathlib.Data.List.Induction
import Mathlib.Data.String.Basic
import ReactiveMarkup.Text.Position

namespace ReactiveMarkup.Text

open String (utf8Len utf8Len_append utf8Len_cons utf8Len_nil)

def lineAfter (s : List Char) : Nat := s.count '\n' + 1

def columnAfter (s : List Char) : Nat := (s.reverse.takeWhile (· != '\n')).length + 1

/-- The text before a byte offset, which has to be one between two characters. -/
def textBefore? : Nat → List Char → Option (List Char)
  | 0, _ => some []
  | _ + 1, [] => none
  | offset + 1, c :: cs =>
    if c.utf8Size ≤ offset + 1 then
      (textBefore? (offset + 1 - c.utf8Size) cs).map fun before => c :: before
    else none

def lineColumn? (s : List Char) (offset : Nat) : Option (Nat × Nat) :=
  (textBefore? offset s).map fun before => (lineAfter before, columnAfter before)

/-- A place is that of a byte offset.  Each of its numbers is right unless it is too large for 32
bits. -/
def Position.IsAt (place : Position) (s : List Char) (offset : Nat) : Prop :=
  ∃ line column, lineColumn? s offset = some (line, column) ∧
    (line < 2 ^ 32 → place.line.toNat = line) ∧ (column < 2 ^ 32 → place.column.toNat = column)

/-- Some text stands at a byte offset of another one. -/
def StandsAt (pat s : List Char) (offset : Nat) : Prop :=
  ∃ before after, textBefore? offset s = some before ∧ s = before ++ (pat ++ after)

theorem textBefore?_append (before after : List Char) :
    textBefore? (utf8Len before) (before ++ after) = some before := by
  induction before with
  | nil => simp [textBefore?]
  | cons c cs ih =>
    have hpos := c.utf8Size_pos
    obtain ⟨n, hn⟩ : ∃ n, utf8Len (c :: cs) = n + 1 := ⟨utf8Len (c :: cs) - 1, by
      rw [utf8Len_cons]
      omega⟩
    rw [utf8Len_cons] at hn
    have hsub : n + 1 - c.utf8Size = utf8Len cs := by omega
    rw [utf8Len_cons, hn, List.cons_append, textBefore?, if_pos (by omega), hsub, ih]
    rfl

theorem exists_append_of_textBefore? {offset} {s before} (h : textBefore? offset s = some before) :
    ∃ after, s = before ++ after ∧ offset = utf8Len before := by
  induction s generalizing offset before with
  | nil =>
    cases offset with
    | zero =>
      cases h
      exact ⟨[], rfl, rfl⟩
    | succ n => simp [textBefore?] at h
  | cons c cs ih =>
    cases offset with
    | zero =>
      cases h
      exact ⟨c :: cs, rfl, rfl⟩
    | succ n =>
      rw [textBefore?] at h
      split at h
      · obtain ⟨rest, hrest, rfl⟩ := Option.map_eq_some_iff.1 h
        obtain ⟨after, rfl, hsize⟩ := ih hrest
        refine ⟨after, rfl, ?_⟩
        rw [utf8Len_cons]
        omega
      · cases h

namespace Position

theorem line_after (s : List Char) : (start.after s).line = UInt32.ofNat (lineAfter s) := by
  induction s using List.reverseRecOn with
  | nil => rfl
  | append_singleton s c ih =>
    rw [after_append]
    by_cases hc : c = '\n'
    · simp [next, hc, ih, lineAfter]
    · simp [next, hc, ih, lineAfter]

theorem column_after (s : List Char) : (start.after s).column = UInt32.ofNat (columnAfter s) := by
  induction s using List.reverseRecOn with
  | nil => rfl
  | append_singleton s c ih =>
    rw [after_append]
    by_cases hc : c = '\n'
    · simp [next, hc, columnAfter]
    · simp [next, hc, ih, columnAfter]

theorem isAt_after_start (before after : List Char) :
    (start.after before).IsAt (before ++ after) (utf8Len before) := by
  refine ⟨lineAfter before, columnAfter before, ?_, ?_, ?_⟩
  · rw [lineColumn?, textBefore?_append]
    rfl
  · intro h
    rw [line_after]
    exact UInt32.toNat_ofNat_of_lt' h
  · intro h
    rw [column_after]
    exact UInt32.toNat_ofNat_of_lt' h

theorem isAt_after (front before after : List Char) :
    ((start.after front).after before).IsAt (front ++ (before ++ after))
      (utf8Len front + utf8Len before) := by
  rw [← after_append, ← List.append_assoc, ← utf8Len_append]
  exact isAt_after_start (front ++ before) after

end Position

end ReactiveMarkup.Text
