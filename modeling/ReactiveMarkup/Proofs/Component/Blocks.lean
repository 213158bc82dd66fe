/-
The sections of a text.

A section is looked for from left to right, and a tag begins with a `<` and ends at the first `>`.
So a tag is found in the first of two texts, or else in the second, if that begins with a tag.
-/
import ReactiveMarkup.Component.Sections
import ReactiveMarkup.Proofs.Markup.Grammar

namespace ReactiveMarkup.Component

open Text List Option
open Markup (FirstEnd cut?_eq_some_iff)

/-! ### Texts in any case -/

/-- A text, given in lower case, stands in another in any case. -/
def Mentions (pat : String) (s : List Char) : Prop :=
  ∃ before middle after, s = before ++ middle ++ after ∧ middle.map foldCase = pat.toList

theorem dropFolded?_eq_some_iff {pat s rest} :
    dropFolded? pat s = some rest ↔ ∃ middle, s = middle ++ rest ∧ middle.map foldCase = pat := by
  fun_induction dropFolded? pat s <;> simp_all [map_eq_cons_iff]

theorem dropFolded?_self {pat} (h : pat.map foldCase = pat) (s : List Char) :
    dropFolded? pat (pat ++ s) = some s :=
  dropFolded?_eq_some_iff.2 ⟨pat, rfl, h⟩

theorem cutFolded?_self {pat} (h : pat.map foldCase = pat) (hp : pat ≠ []) (s : List Char) :
    cutFolded? pat (pat ++ s) = some ([], s) := by
  obtain ⟨c, cs, rfl⟩ := exists_cons_of_ne_nil hp
  rw [cons_append, cutFolded?, ← cons_append, dropFolded?_self h]

theorem cutFolded?_eq_none_iff (pat : String) (hp : pat.toList ≠ []) :
    cutFolded? pat.toList s = none ↔ ¬ Mentions pat s := by
  fun_induction cutFolded? pat.toList s with
  | case1 h => simp_all
  | case2 h =>
    simp [Mentions]
    rintro rfl
    simp at hp
  | case3 c cs rest hd =>
    obtain ⟨middle, hs, hm⟩ := dropFolded?_eq_some_iff.1 hd
    simp only [reduceCtorEq, false_iff, not_not]
    exact ⟨[], middle, rest, hs, hm⟩
  | case4 c cs hd ih =>
    rw [map_eq_none_iff, ih, not_iff_not]
    constructor
    · rintro ⟨before, middle, after, rfl, hm⟩
      exact ⟨c :: before, middle, after, rfl, hm⟩
    · rintro ⟨_ | ⟨d, before⟩, middle, after, hs, hm⟩
      · cases hd.symm.trans (dropFolded?_eq_some_iff.2 ⟨middle, hs, hm⟩)
      · cases hs
        exact ⟨before, middle, after, rfl, hm⟩

instance (pat : String) (s : List Char) : Decidable (Mentions pat s) :=
  if hp : pat.toList = [] then .isTrue ⟨[], [], s, rfl, hp.symm⟩
  else decidable_of_iff (cutFolded? pat.toList s ≠ none)
    (not_congr (cutFolded?_eq_none_iff pat hp) |>.trans not_not)

/-! ### Tags after a text

A tag has a `<` in front only.  So if a text is followed by one that begins with a `<`, or by
nothing, then no tag begins in the first and ends in the second. -/

/-- A text that is empty or begins with a tag. -/
def Fresh (s : List Char) : Prop := ∀ c ∈ s.head?, c = '<'

theorem dropFolded?_append {pat} (hp : '<' ∉ pat) (x : List Char) (hs : Fresh s) :
    dropFolded? pat (x ++ s) = (dropFolded? pat x).map (· ++ s) := by
  induction pat generalizing x with
  | nil => rfl
  | cons p pat ih =>
    rw [mem_cons, not_or] at hp
    cases x with
    | nil =>
      cases s with
      | nil => rfl
      | cons c s =>
        cases hs c rfl
        have hne : ¬ foldCase '<' = p := hp.1
        simp [dropFolded?, hne]
    | cons c x =>
      rw [cons_append, dropFolded?, dropFolded?]
      split_ifs
      · exact ih hp.2 x
      · rfl

variable {q : List Char}

theorem dropFolded?_tag_append (hq : '<' ∉ q) (c : Char) (x : List Char) (hs : Fresh s) :
    dropFolded? ('<' :: q) (c :: x ++ s) = (dropFolded? ('<' :: q) (c :: x)).map (· ++ s) := by
  rw [cons_append, dropFolded?, dropFolded?]
  split_ifs
  · exact dropFolded?_append hq x hs
  · rfl

theorem cutFolded?_append (hq : '<' ∉ q) (x : List Char) (hs : Fresh s) :
    cutFolded? ('<' :: q) (x ++ s) =
      ((cutFolded? ('<' :: q) x).map fun p => (p.1, p.2 ++ s)).or
        ((cutFolded? ('<' :: q) s).map fun p => (x ++ p.1, p.2)) := by
  induction x with
  | nil => simp [cutFolded?]
  | cons c x ih =>
    rw [cons_append, cutFolded?, ← cons_append, dropFolded?_tag_append hq c x hs,
      cutFolded?]
    cases dropFolded? ('<' :: q) (c :: x) with
    | some rest => rfl
    | none =>
      simp only [ih]
      cases cutFolded? ('<' :: q) x <;> cases cutFolded? ('<' :: q) s <;> rfl

theorem cutFolded?_append_eq_none (hq : '<' ∉ q) (hs : Fresh s)
    (hx : cutFolded? ('<' :: q) x = none) (hn : cutFolded? ('<' :: q) s = none) :
    cutFolded? ('<' :: q) (x ++ s) = none := by
  rw [cutFolded?_append hq x hs, hx, hn]
  rfl

theorem cut?_char_iff {mark} {s before after} :
    cut? [mark] s = some (before, after) ↔ s = before ++ mark :: after ∧ mark ∉ before := by
  have hfirst : FirstEnd [mark] before ↔ mark ∉ before := by
    constructor
    · intro hf hmem
      obtain ⟨front, back, rfl⟩ := append_of_mem hmem
      have hnil := hf front (back ++ [mark]) (by simp)
      simp at hnil
    · intro hn front back he
      rcases eq_nil_or_concat back with rfl | ⟨back, c, rfl⟩
      · rfl
      · rw [concat_eq_append, ← append_assoc] at he
        exact absurd (by simp [(append_inj_left' he rfl)]) hn
  rw [cut?_eq_some_iff (by simp), hfirst, append_assoc]
  rfl

/-- A text that is empty or ends with a tag. -/
def Closed (x : List Char) : Prop := ∀ c ∈ x.getLast?, c = '>'

theorem Closed.tail (h : Closed (c :: x)) : Closed x := by
  intro d hd
  exact h d (by rw [getLast?_cons, mem_def.1 hd]; rfl)

theorem Closed.exists_front (h : Closed (c :: x)) (s : List Char) :
    ∃ front, c :: (x ++ s) = front ++ '>' :: s ∧ x.length = front.length := by
  obtain ⟨front, d, hd⟩ := (eq_nil_or_concat (c :: x)).resolve_left (by simp)
  rw [concat_eq_append] at hd
  cases h d (by simp [hd])
  refine ⟨front, ?_, by simpa using congrArg List.length hd⟩
  rw [← cons_append, hd, append_assoc]
  rfl

theorem exists_of_openingTag? {name x s attributes rest} (hn : '>' ∉ name)
    (h : openingTag? name (x ++ '>' :: s) = some (attributes, rest)) :
    ∃ y, rest = y ++ s ∧ y.length ≤ x.length := by
  simp only [openingTag?, bind_eq_bind, bind_eq_some_iff] at h
  obtain ⟨r, hd, h⟩ := h
  obtain ⟨middle, hs, hm⟩ := dropFolded?_eq_some_iff.1 hd
  split_ifs at h
  obtain ⟨rfl, ha⟩ := cut?_char_iff.1 h
  have hmiddle : '>' ∉ middle := by
    intro hmem
    have hfold : '>' ∈ middle.map foldCase := mem_map.2 ⟨'>', hmem, by decide⟩
    rw [hm, mem_cons] at hfold
    exact hfold.elim (by decide) hn
  rw [← append_assoc] at hs
  rcases append_eq_append_iff.1 hs with ⟨t, ht, hrest⟩ | ⟨t, ht, hrest⟩
  · cases t with
    | nil => exact ⟨[], by simpa using hrest.symm, by simp⟩
    | cons d t =>
      cases hrest
      have hmem : '>' ∈ middle ++ attributes := by simp [ht]
      exact absurd hmem (by simp [hmiddle, ha])
  · cases t with
    | nil => exact ⟨[], by simpa using hrest, by simp⟩
    | cons d t =>
      cases hrest
      exact ⟨t ++ ['>'], by simp, by simp [ht]; omega⟩

/-! ### The sections of a text -/

theorem blocksFrom_skip (name : List Char) (offset k : Nat) (x s : List Char) :
    blocksFrom name offset (x.length + k) (x ++ s) =
      blocksFrom name (offset + x.length) k s := by
  induction x generalizing offset with
  | nil => simp
  | cons c x ih =>
    rw [cons_append, length_cons, Nat.add_right_comm, blocksFrom, ih, Nat.add_assoc,
      Nat.add_comm 1]

theorem le_start_of_mem_blocksFrom {name} {offset k} (h : b ∈ blocksFrom name offset k s) :
    offset ≤ b.span.start := by
  fun_induction blocksFrom name offset k s with
  | case1 => cases h
  | case2 _ _ _ _ ih | case4 _ _ _ _ ih => exact Nat.le_of_succ_le (ih h)
  | case3 offset c cs attributes body rest hsection size ih =>
    rcases mem_cons.1 h with rfl | h
    · exact Nat.le_refl _
    · exact Nat.le_of_succ_le (ih h)

theorem blocksFrom_quiet {name} (hname : '<' ∉ name) (offset : Nat) (hs : Fresh s)
    (h : cutFolded? ('<' :: name) x = none) :
    blocksFrom name offset 0 (x ++ s) = blocksFrom name (offset + x.length) 0 s := by
  induction x generalizing offset with
  | nil => rfl
  | cons c x ih =>
    rw [cutFolded?] at h
    cases hd : dropFolded? ('<' :: name) (c :: x) with
    | some rest => simp [hd] at h
    | none =>
      simp only [hd, map_eq_none_iff] at h
      have hsection : section? name (c :: (x ++ s)) = none := by
        rw [section?, openingTag?, ← cons_append, dropFolded?_tag_append hname c x hs, hd]
        rfl
      rw [cons_append, blocksFrom, hsection]
      simp only [ih (offset + 1) h, length_cons, Nat.add_assoc, Nat.add_comm 1]

/-! ### Written sections -/

def closingTag (name : List Char) : List Char := '<' :: ('/' :: name ++ ['>'])

def written (name attributes body : List Char) : List Char :=
  '<' :: name ++ attributes ++ '>' :: body ++ closingTag name

/-- A name that a tag may have, in lower case. -/
def TagName (name : List Char) : Prop :=
  '<' ∉ name ∧ '>' ∉ name ∧ name.map foldCase = name

instance (name : List Char) : Decidable (TagName name) :=
  inferInstanceAs (Decidable (_ ∧ _))

variable {name attributes body s : List Char}

theorem fresh_cons (s : List Char) : Fresh ('<' :: s) := by
  intro c hc
  exact (Option.some.inj hc).symm

theorem closed_written (name attributes body : List Char) :
    Closed (written name attributes body) := by
  have hend : written name attributes body =
      '<' :: name ++ attributes ++ '>' :: body ++ '<' :: '/' :: name ++ ['>'] := by
    simp [written, closingTag]
  intro c hc
  rw [hend, getLast?_concat] at hc
  exact (Option.some.inj hc).symm

theorem openingTag?_written (hn : TagName name) (ha : '>' ∉ attributes)
    (hw : wordAhead attributes = false) :
    openingTag? name ('<' :: name ++ attributes ++ '>' :: s) = some (attributes, s) := by
  have htag : ('<' :: name).map foldCase = '<' :: name := by rw [map_cons, hn.2.2]; rfl
  have hword : wordAhead (attributes ++ '>' :: s) = false := by
    cases attributes with
    | nil => exact (by decide : isWord '>' = false)
    | cons c attributes => exact hw
  rw [openingTag?, append_assoc, dropFolded?_self htag]
  simp only [bind_eq_bind, bind_some, hword]
  exact cut?_char_iff.2 ⟨rfl, ha⟩

theorem cutFolded?_closingTag (hn : TagName name) (h : cutFolded? (closingTag name) body = none) :
    cutFolded? (closingTag name) (body ++ closingTag name ++ s) = some (body, s) := by
  have hq : '<' ∉ '/' :: name ++ ['>'] := by simp [hn.1]
  have hfold : (closingTag name).map foldCase = closingTag name := by
    simp only [closingTag, map_cons, map_append, hn.2.2]
    rfl
  have hfresh : Fresh (closingTag name ++ s) := fresh_cons _
  have hself := cutFolded?_self hfold (cons_ne_nil _ _) s
  have hcut := cutFolded?_append hq body hfresh
  rw [← closingTag, h, hself] at hcut
  simpa using hcut

theorem blocksFrom_written (hn : TagName name) (ha : '>' ∉ attributes)
    (hw : wordAhead attributes = false) (h : cutFolded? (closingTag name) body = none)
    (offset : Nat) :
    blocksFrom name offset 0 (written name attributes body ++ s) =
      ⟨⟨offset, offset + (written name attributes body).length⟩, attributes, body⟩ ::
        blocksFrom name (offset + (written name attributes body).length) 0 s := by
  have hsection : section? name (written name attributes body ++ s) =
      some (attributes, body, s) := by
    have hsplit : written name attributes body ++ s =
        '<' :: name ++ attributes ++ '>' :: (body ++ closingTag name ++ s) := by simp [written]
    rw [section?, hsplit, openingTag?_written hn ha hw]
    simp only [bind_eq_bind, bind_some, cons_append]
    rw [← cons_append, ← closingTag, cutFolded?_closingTag hn h]
    rfl
  obtain ⟨x, hx⟩ : ∃ x, written name attributes body = '<' :: x := ⟨_, rfl⟩
  rw [hx, cons_append] at hsection ⊢
  have hsize : ('<' :: (x ++ s)).length - s.length = x.length + 1 := by
    simp
    omega
  have hskip := blocksFrom_skip name (offset + 1) 0 x s
  rw [Nat.add_zero x.length, Nat.add_assoc, Nat.add_comm 1] at hskip
  rw [blocksFrom, hsection]
  simp only [hsize, Nat.add_sub_cancel]
  rw [hskip, length_cons]

theorem eq_of_foldCase (h : foldCase c = '<') : c = '<' := by
  rw [foldCase] at h
  split_ifs at h
  · cases h
  · cases h
  · rw [toLower] at h
    split_ifs at h with hc
    · simp only [isUpper, Bool.and_eq_true, decide_eq_true_eq] at hc
      have hcodes : ∀ n ≤ 90, 65 ≤ n → Char.ofNat (n + 32) ≠ '<' := by decide
      exact absurd h (hcodes c.toNat (UInt32.le_iff_toNat_le.1 hc.2)
        (UInt32.le_iff_toNat_le.1 hc.1))
    · exact h

theorem cutFolded?_opening (hx : '<' ∉ x) (hd : dropFolded? q (x ++ t) = none)
    (ht : cutFolded? ('<' :: q) t = none) : cutFolded? ('<' :: q) ('<' :: (x ++ t)) = none := by
  have hplain : cutFolded? ('<' :: q) (x ++ t) = none := by
    clear hd
    induction x with
    | nil => exact ht
    | cons c x ih =>
      rw [mem_cons, not_or] at hx
      rw [cons_append, cutFolded?, dropFolded?,
        if_neg fun hc => hx.1 (eq_of_foldCase hc).symm, ih hx.2]
      rfl
  rw [cutFolded?, dropFolded?, hd, hplain]
  rfl

end ReactiveMarkup.Component
