/-
Texts in parts.

A text is cut at its expressions in marks.  All that is left, marks with nothing but blanks between
them included, goes into literals as long as they can be.

* `segments_normal`: the parts of a text are in normal form and spell it, and parts in normal form
  are found again in the text that they are written as.
-/
import Mathlib.Data.List.Chain
import ReactiveMarkup.Proofs.Text.Blanks

namespace ReactiveMarkup.Markup

open Text List

/-! ### Parts in normal form -/

/-- No part is empty, and an expression is trimmed and ends where its marks do. -/
def Segment.Proper : Segment → Prop
  | literal t => t ≠ ""
  | expression e => e ≠ "" ∧ Bare e.toList ∧ ¬ closingMark <:+: e.toList

/-- Parts that a text is cut into: no two literals touch, and each part is proper. -/
structure Normal (parts : List Segment) : Prop where
  apart : parts.IsChain fun p q => ¬ (p.isLiteral = true ∧ q.isLiteral = true)
  proper : ∀ p ∈ parts, p.Proper

/-- Which texts are written with some parts.  Blanks may stand around expressions. -/
inductive Writes : List Segment → List Char → Prop
  | nil : Writes [] []
  | literal (t : String) {parts : List Segment} {s : List Char} (h : Writes parts s) :
      Writes (.literal t :: parts) (t.toList ++ s)
  | expression {e : String} {w w' : List Char} {parts : List Segment} {s : List Char}
      (hw : ∀ c ∈ w, isBlank c = true) (hw' : ∀ c ∈ w', isBlank c = true) (h : Writes parts s) :
      Writes (.expression e :: parts) (openingMark ++ (w ++ e.toList ++ w') ++ closingMark ++ s)

/-- A part as it is written, with a blank on each side of an expression. -/
def Segment.written : Segment → List Char
  | literal t => t.toList
  | expression e => openingMark ++ ([' '] ++ e.toList ++ [' ']) ++ closingMark

/-- A literal that no mark starts in. -/
def Plain (t : List Char) : Prop := ¬ openingMark <:+: t ∧ t.getLast? ≠ some '{'

variable {inside plain s : List Char} {c : Char} {p : Segment} {parts : List Segment} {e : String}

theorem normal_cons_iff : Normal (p :: parts) ↔ p.Proper ∧
    (∀ q ∈ parts.head?, ¬ (p.isLiteral = true ∧ q.isLiteral = true)) ∧ Normal parts := by
  constructor
  · rintro ⟨ha, hp⟩
    obtain ⟨hq, ha⟩ := isChain_cons.1 ha
    obtain ⟨hp, hps⟩ := forall_mem_cons.1 hp
    exact ⟨hp, hq, ha, hps⟩
  · rintro ⟨hp, hq, ha, hps⟩
    exact ⟨isChain_cons.2 ⟨hq, ha⟩, forall_mem_cons.2 ⟨hp, hps⟩⟩

theorem flush_eq (h : plain ≠ []) : flush plain = [.literal (String.ofList plain.reverse)] := by
  simp [flush, h]

/-- Plain characters become one literal in front of what is no literal. -/
theorem flush_normal (plain : List Char) (hn : Normal parts) (hw : Writes parts s)
    (hp : ∀ p ∈ parts.head?, p.isLiteral = false) :
    Normal (flush plain ++ parts) ∧ Writes (flush plain ++ parts) (plain.reverse ++ s) := by
  cases plain with
  | nil => exact ⟨hn, hw⟩
  | cons c plain =>
    rw [flush_eq (by simp)]
    refine ⟨normal_cons_iff.2 ⟨by simp [Segment.Proper], fun q hq => ?_, hn⟩, ?_⟩
    · simp [hp q hq]
    · simpa using Writes.literal (String.ofList (c :: plain).reverse) hw

/-- What is between marks neither holds the mark that closes it nor ends as that one begins. -/
theorem firstEnd_closingMark_iff :
    FirstEnd closingMark s ↔ ¬ closingMark <:+: s ∧ s.getLast? ≠ some '}' := by
  constructor
  · intro h
    refine ⟨?_, fun hlast => ?_⟩
    · rintro ⟨front, back, rfl⟩
      have hback := h front (back ++ closingMark) (by simp)
      simp [closingMark] at hback
    · obtain ⟨front, rfl⟩ := getLast?_eq_some_iff.1 hlast
      have hback := h front ['}'] (by simp [closingMark])
      simp at hback
  · rintro ⟨hin, hlast⟩ front back he
    rw [append_assoc] at he
    rcases append_eq_append_iff.1 he with ⟨x, -, hx⟩ | ⟨x, rfl, hx⟩
    · have hlen := congrArg List.length hx
      simp only [length_append] at hlen
      exact length_eq_zero_iff.1 (by omega)
    · rcases x with - | ⟨a, - | ⟨b, x⟩⟩
      · simpa using hx
      · simp_all [closingMark]
      · obtain ⟨rfl, rfl⟩ : '}' = a ∧ '}' = b := by simp_all [closingMark]
        exact absurd ⟨front, x, by simp [closingMark]⟩ hin

/-! ### Cutting -/

theorem segmentsFrom_append (read plain s : List Char) :
    segmentsFrom read.length plain (read ++ s) = segmentsFrom 0 plain s := by
  induction read with
  | nil => cases s <;> rfl
  | cons c read ih => rw [length_cons, cons_append, segmentsFrom, ih]

theorem segmentsFrom_span (hi : FirstEnd closingMark inside) (plain s : List Char) :
    segmentsFrom 0 plain (openingMark ++ inside ++ closingMark ++ s) =
      if inside.all Text.isBlank then
        segmentsFrom 0 ((openingMark ++ inside ++ closingMark).reverse ++ plain) s
      else flush plain ++ .expression (String.ofList (trim inside)) :: segmentsFrom 0 [] s := by
  have hfound : interpolation? (openingMark ++ inside ++ closingMark ++ s) = some inside :=
    interpolation?_eq_some_iff.2 ⟨s, rfl, hi⟩
  have htake : (openingMark ++ inside ++ closingMark ++ s).take (inside.length + 4) =
      openingMark ++ inside ++ closingMark := take_left' (by simp [openingMark, closingMark])
  rw [span_eq] at hfound htake ⊢
  simp only [segmentsFrom, hfound, htake, Nat.add_one_sub_one, length_span, segmentsFrom_append]

theorem segmentsFrom_char (ho : ¬ OpensSpan (c :: s)) (plain : List Char) :
    segmentsFrom 0 plain (c :: s) = segmentsFrom 0 (c :: plain) s := by
  simp only [segmentsFrom, interpolation?_eq_none_iff.mpr ho]

theorem segmentsFrom_normal (plain s : List Char) :
    Normal (segmentsFrom 0 plain s) ∧ Writes (segmentsFrom 0 plain s) (plain.reverse ++ s) := by
  induction s using induction_ahead generalizing plain with
  | nothing =>
    have hflush := flush_normal plain ⟨.nil, nofun⟩ .nil nofun
    rwa [append_nil] at hflush
  | @span inside hi s ih =>
    rw [segmentsFrom_span hi]
    split_ifs with hb
    · simpa using ih ((openingMark ++ inside ++ closingMark).reverse ++ plain)
    · obtain ⟨w, w', htrim, hw, hw', hbare⟩ := exists_trim inside
      have he : Segment.Proper (.expression (String.ofList (trim inside))) := by
        refine ⟨by simpa [trim_eq_nil_iff] using hb, ?_⟩
        rw [String.toList_ofList]
        exact ⟨hbare, fun h => (firstEnd_closingMark_iff.1 hi).1 (h.trans ⟨w, w', htrim.symm⟩)⟩
      obtain ⟨hn, hs⟩ := ih []
      refine flush_normal plain (normal_cons_iff.2 ⟨he, by simp [Segment.isLiteral], hn⟩) ?_
        (by simp [Segment.isLiteral])
      have hspan := Writes.expression (e := String.ofList (trim inside)) hw hw' hs
      rwa [String.toList_ofList, ← htrim] at hspan
  | char ho ih =>
    rw [segmentsFrom_char ho]
    simpa using ih (_ :: plain)

theorem segments_eq {text} (h : text ≠ "") :
    segments text = segmentsFrom 0 [] text.toList ∧ segments text ≠ [] := by
  rw [segments]
  split
  · rename_i hnil
    have hw := (segmentsFrom_normal [] text.toList).2
    rw [hnil] at hw
    generalize hs : text.toList = s at hw
    cases hw
    exact absurd (by simpa using hs) h
  · rename_i hne
    exact ⟨rfl, hne⟩

/-! ### Writing and cutting again -/

theorem segmentsFrom_plain (h : Plain s) (plain rest : List Char) :
    segmentsFrom 0 plain (s ++ rest) = segmentsFrom 0 (s.reverse ++ plain) rest := by
  induction s generalizing plain with
  | nil => rfl
  | cons c s ih =>
    have hopen : ¬ OpensSpan (c :: (s ++ rest)) := by
      rintro ⟨inside, after, he⟩
      cases s with
      | nil =>
        simp only [openingMark, cons_append, List.cons.injEq] at he
        exact h.2 (congrArg some he.1)
      | cons d s =>
        simp only [openingMark, cons_append, List.cons.injEq] at he
        obtain ⟨rfl, rfl, -⟩ := he
        exact h.1 ⟨[], s, rfl⟩
    have hplain : Plain s := by
      refine ⟨fun hs => h.1 (hs.trans (suffix_cons c s).isInfix), ?_⟩
      cases s with
      | nil => simp
      | cons d s => simpa using h.2
    rw [cons_append, segmentsFrom_char hopen, ih hplain, reverse_cons, append_assoc]
    rfl

theorem segmentsFrom_expression (h : Segment.Proper (.expression e)) (plain s : List Char) :
    segmentsFrom 0 plain ((Segment.expression e).written ++ s) =
      flush plain ++ .expression e :: segmentsFrom 0 [] s := by
  obtain ⟨hne, hb, hc⟩ := h
  have hend : FirstEnd closingMark ([' '] ++ e.toList ++ [' ']) := by
    refine firstEnd_closingMark_iff.2 ⟨?_, by simp [getLast?_cons]⟩
    rw [cons_append, cons_append, infix_cons_iff, infix_concat_iff]
    rintro (⟨_, h⟩ | h | h)
    · simp [closingMark] at h
    · simpa [closingMark] using h.getLast (by simp [closingMark])
    · exact hc h
  have hblank : ∀ c ∈ [' '], isBlank c = true := forall_mem_singleton.2 rfl
  have htrim : trim ([' '] ++ e.toList ++ [' ']) = e.toList := trim_eq hb hblank hblank
  have hink : ([' '] ++ e.toList ++ [' ']).all Text.isBlank = false := by
    rw [Bool.eq_false_iff, Ne, ← trim_eq_nil_iff, htrim]
    simpa using hne
  rw [Segment.written, segmentsFrom_span hend, hink, htrim, String.ofList_toList]
  rfl

theorem segmentsFrom_written (plain : List Char) (h : Normal parts)
    (hl : ∀ t, .literal t ∈ parts → Plain t.toList)
    (hp : plain = [] ∨ ∀ p ∈ parts.head?, p.isLiteral = false) :
    segmentsFrom 0 plain (parts.flatMap Segment.written) = flush plain ++ parts := by
  induction parts generalizing plain with
  | nil => exact (append_nil _).symm
  | cons p parts ih =>
    obtain ⟨hproper, hnext, hrest⟩ := normal_cons_iff.1 h
    have ih (plain : List Char) := ih plain hrest fun t ht => hl t (.tail _ ht)
    rw [flatMap_cons]
    cases p with
    | literal t =>
      obtain rfl : plain = [] := hp.resolve_right (by simp [Segment.isLiteral])
      have hhead : ∀ p ∈ parts.head?,
        p.isLiteral = false := by simpa [Segment.isLiteral] using hnext
      have hne : t.toList.reverse ≠ [] := by simpa [Segment.Proper] using hproper
      rw [Segment.written, segmentsFrom_plain (hl t (.head _)), append_nil, ih _ (.inr hhead),
        flush_eq hne]
      simp [flush]
    | expression e =>
      rw [segmentsFrom_expression hproper, ih _ (.inl rfl)]
      rfl

/-- **Texts are cut without loss, and only as far as they have to be.**  The parts of a text are in
normal form and spell it, but for one empty part that spells the empty text; and parts in normal
form whose literals hold no mark are found again in the text that they are written as. -/
theorem segments_normal (text : String) :
    (Writes (segments text) text.toList ∧ segments text ≠ [] ∧
      (Normal (segments text) ∨ segments text = [.literal ""])) ∧
    ∀ parts, parts ≠ [] → Normal parts → (∀ t, .literal t ∈ parts → Plain t.toList) →
      segments (String.ofList (parts.flatMap Segment.written)) = parts := by
  refine ⟨?_, fun parts hne hn hl => ?_⟩
  · obtain ⟨hn, hw⟩ := segmentsFrom_normal [] text.toList
    by_cases htext : text = ""
    · subst htext
      exact ⟨.literal "" .nil, cons_ne_nil _ _, .inr rfl⟩
    · obtain ⟨heq, hne⟩ := segments_eq htext
      rw [← heq] at hn hw
      exact ⟨hw, hne, .inl hn⟩
  · rw [segments, String.toList_ofList, segmentsFrom_written [] hn hl (.inl rfl)]
    obtain ⟨p, parts, rfl⟩ := exists_cons_of_ne_nil hne
    rfl

def greeting : List Segment := [.literal "Hi ", .expression "user.name", .literal "!"]

theorem segments_normal_greeting : segments "Hi \x7b\x7b user.name \x7d\x7d!" = greeting := by
  have htext :
      "Hi \x7b\x7b user.name \x7d\x7d!" = String.ofList (greeting.flatMap Segment.written) := by
    decide +kernel
  have hproper : ∀ p ∈ greeting, p.Proper := by
    simp only [greeting, forall_mem_cons, Segment.Proper]
    refine ⟨by decide, ⟨by decide, ⟨by simp; decide, by simp; decide⟩, ?_⟩, by decide, nofun⟩
    decide +kernel
  have hplain : ∀ t, .literal t ∈ greeting → Plain t.toList := by
    simp only [greeting, mem_cons, not_mem_nil, or_false, Segment.literal.injEq, reduceCtorEq,
      false_or]
    rintro t (rfl | rfl) <;> exact ⟨by decide, by decide⟩
  exact (congrArg segments htext).trans <|
    (segments_normal "").2 greeting (by simp [greeting]) ⟨by decide, hproper⟩ hplain

end ReactiveMarkup.Markup
