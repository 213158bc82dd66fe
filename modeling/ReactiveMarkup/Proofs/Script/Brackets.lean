/-
Where a group in brackets ends.

The search for the end of a group keeps a depth.  Up to each character, this is how many more
brackets have been opened than closed in code, so the search stops where both are as many for the
first time.

* `balancedEnd?_first`: the end of a group.
-/
import Mathlib.Data.List.Infix
import ReactiveMarkup.Proofs.Script.Calls

namespace ReactiveMarkup.Script

open List

/-- What is left of a marked text without its strings and comments. -/
def code (ms : List Mark) : List Char := chars (ms.filter Mark.isCode)

/-- How many more brackets a text opens than it closes. -/
def gain (opening closing : Char) (s : List Char) : Int := s.count opening - s.count closing

variable {opening closing previous : Char} {ms : List Mark}

theorem code_append (ms ms' : List Mark) : code (ms ++ ms') = code ms ++ code ms' := by
  simp [code, chars]

theorem gain_code_cons (hne : opening ≠ closing) (previous : Char) (m : Mark) (ms : List Mark) :
    gain opening closing (code (m :: ms)) =
      turn (bracketStep opening closing) previous m + gain opening closing (code ms) := by
  rw [turn, bracketStep]
  cases hm : m.isCode with
  | false => simp [code, hm]
  | true =>
    have hcode : code (m :: ms) = m.char :: code ms := by simp [code, chars, hm]
    rw [gain, gain]
    grind

theorem balances_iff (hne : opening ≠ closing) {depth} :
    Balances (bracketStep opening closing) previous depth ms ↔
      depth + gain opening closing (code ms) = 0 ∧
        ∀ p, p <+: ms → p ≠ ms → 0 < depth + gain opening closing (code p) := by
  induction ms generalizing previous depth with
  | nil =>
    have hnil : gain opening closing (code []) = 0 := by simp [code, chars, gain]
    simp +contextual [Balances, hnil]
  | cons m ms ih =>
    have hstep (p : List Mark) := gain_code_cons hne previous m p
    have hnil : depth + gain opening closing (code []) = depth := by simp [code, chars, gain]
    rw [Balances, ih, hstep, Int.add_assoc, and_left_comm]
    refine and_congr_right fun _ => ?_
    constructor
    · rintro ⟨hpos, h⟩ p hp hshort
      cases p with
      | nil => rwa [hnil]
      | cons m' p =>
        obtain ⟨rfl, hp'⟩ := cons_prefix_cons.1 hp
        rw [hstep, ← Int.add_assoc]
        exact h p hp' fun he => hshort (he ▸ rfl)
    · intro h
      refine ⟨by simpa [hnil] using h [] nil_prefix (by simp), fun p hp hshort => ?_⟩
      rw [Int.add_assoc, ← hstep]
      exact h (m :: p) (cons_prefix_cons.2 ⟨rfl, hp⟩) (by simpa using hshort)

/-- As long as a search finds nothing, brackets stay open. -/
theorem pos_of_balancedFrom? (hne : opening ≠ closing) {depth : Nat} (hpos : 0 < depth)
    (h : balancedFrom? opening closing depth ms = none) (hp : p <+: ms) :
    0 < depth + gain opening closing (code p) := by
  have hs := search_brackets opening closing
  induction ms generalizing depth p with
  | nil =>
    rw [prefix_nil.1 hp]
    simpa [code, chars, gain] using hpos
  | cons m ms ih =>
    cases p with
    | nil => simpa [code, chars, gain] using hpos
    | cons m' p =>
      obtain ⟨rfl, hp'⟩ := cons_prefix_cons.1 hp
      rw [gain_code_cons hne ' ' m']
      have hleast : -1 ≤ turn (bracketStep opening closing) ' ' m' := by
        rw [turn]
        split_ifs
        · exact hs.least ' ' m'.char
        · decide
      obtain ⟨later, hlater⟩ :=
        Int.eq_ofNat_of_zero_le (a := depth + turn (bracketStep opening closing) ' ' m') (by omega)
      rw [hs.cons hlater (by omega)] at h
      split_ifs at h with hzero
      have hrest := ih (Nat.pos_of_ne_zero hzero) (Option.map_eq_none_iff.1 h) hp'
      omega

theorem exists_prefix_of_code {q} (h : q <+: code ms) : ∃ p, p <+: ms ∧ code p = q := by
  obtain ⟨r, hr⟩ := h
  obtain ⟨a, b, hab, rfl, -⟩ := map_eq_append_iff.1 hr.symm
  obtain ⟨p, rest, rfl, rfl, -⟩ := filter_eq_append_iff.1 hab
  exact ⟨p, prefix_append p rest, rfl⟩

/-- As many brackets are closed as opened in the code of a text, which ends with code; up to each
character of code before that, more are opened. -/
def ClosesFirst (opening closing : Char) (group : List Mark) : Prop :=
  (∃ m ∈ group.getLast?, m.isCode = true) ∧
    (code group).count closing = (code group).count opening ∧
    ∀ p, p <+: code group → p ≠ [] → p ≠ code group → p.count closing < p.count opening

theorem mem_code (hm : m ∈ ms.getLast?) (hcode : m.isCode = true) : m.char ∈ code ms :=
  mem_map_of_mem (mem_filter.2 ⟨mem_of_getLast? hm, hcode⟩)

theorem isGroup_iff (hne : opening ≠ closing) :
    IsGroup (bracketStep opening closing) (⟨opening, true⟩ :: ms) ↔
      ClosesFirst opening closing (⟨opening, true⟩ :: ms) := by
  have hturn : turn (bracketStep opening closing) ' ' ⟨opening, true⟩ = 1 := by
    simp [turn, bracketStep]
  have hgain (p : List Mark) := gain_code_cons hne ' ' ⟨opening, true⟩ p
  rw [hturn] at hgain
  rw [IsGroup, and_iff_right hturn]
  constructor
  · intro hb
    obtain ⟨heven, hmore⟩ := (balances_iff hne).1 hb
    obtain ⟨m, hm, hlast⟩ := hb.exists_last Int.one_pos
    refine ⟨⟨m, by rw [getLast?_cons, Option.mem_def.1 hm]; rfl, hlast⟩, ?_, ?_⟩
    · rw [← hgain, gain] at heven
      omega
    · intro q hq hnil hshort
      obtain ⟨p, hp, rfl⟩ := exists_prefix_of_code hq
      cases p with
      | nil => exact absurd rfl hnil
      | cons m' p =>
        obtain ⟨rfl, hp'⟩ := cons_prefix_cons.1 hp
        have hpos := hmore p hp' fun he => hshort (he ▸ rfl)
        rw [← hgain, gain] at hpos
        omega
  · rintro ⟨⟨m, hm, hlast⟩, heven, hmore⟩
    refine (balances_iff hne).2 ⟨by rw [← hgain, gain]; omega, ?_⟩
    rintro p ⟨r, rfl⟩ hshort
    rw [← cons_append, code_append] at hmore
    have hlt := hmore _ (prefix_append _ _) (by simp [code, chars]) fun he => ?_
    · rw [← hgain, gain]
      omega
    · -- the last mark is code that the prefix lacks
      have hr : r ≠ [] := fun hr => hshort (by rw [hr, append_nil])
      rw [← cons_append, getLast?_append_of_ne_nil _ hr] at hm
      have hmem := mem_code hm hlast
      rw [self_eq_append_right.1 he] at hmem
      exact not_mem_nil hmem

/-- **The end of a group.**  From an opening bracket on, a group ends with the first piece of code
up to which as many brackets are closed as opened; up to each character before, more are opened.  No
end is found if, up to each character of code, not as many are closed as opened. -/
theorem balancedEnd?_first {s} (hne : opening ≠ closing) (hopen : nonCode? (opening :: s) = none) :
    (∀ group rest, balancedEnd? opening closing (marks (opening :: s)) = some (group, rest) ↔
      marks (opening :: s) = group ++ rest ∧ ClosesFirst opening closing group) ∧
    (balancedEnd? opening closing (marks (opening :: s)) = none ↔
      ∀ p, p <+: code (marks (opening :: s)) → p ≠ [] → p.count closing ≠ p.count opening) := by
  have hmarks : marks (opening :: s) = ⟨opening, true⟩ :: marks s := by
    rw [marks, marksFrom, hopen]
    rfl
  have hturn : turn (bracketStep opening closing) ' ' ⟨opening, true⟩ = 1 := by
    simp [turn, bracketStep]
  have hs := search_brackets opening closing
  rw [hmarks]
  have hsome (group rest : List Mark) :
      balancedEnd? opening closing (⟨opening, true⟩ :: marks s) = some (group, rest) ↔
      ⟨opening, true⟩ :: marks s = group ++ rest ∧ ClosesFirst opening closing group := by
    refine (hs.eq_some_iff hturn).trans (and_congr_right fun hsplit => ?_)
    cases group with
    | nil => simp [IsGroup, ClosesFirst]
    | cons m ms =>
      obtain rfl := (List.cons.inj hsplit).1
      exact isGroup_iff hne
  refine ⟨hsome, fun h q hq hnil heven => ?_, fun h => ?_⟩
  · have hdepth : ((0 : Nat) : Int) + turn (bracketStep opening closing) ' ' ⟨opening, true⟩ =
        ((1 : Nat) : Int) := by simp [hturn]
    rw [balancedEnd?, hs.cons hdepth (by simp)] at h
    obtain ⟨p, hp, rfl⟩ := exists_prefix_of_code hq
    cases p with
    | nil => exact hnil rfl
    | cons m' p =>
      obtain ⟨rfl, hp'⟩ := cons_prefix_cons.1 hp
      have hpos := pos_of_balancedFrom? hne Nat.one_pos (Option.map_eq_none_iff.1 h) hp'
      have hgain := gain_code_cons hne ' ' ⟨opening, true⟩ p
      rw [gain] at hgain
      omega
  · rw [Option.eq_none_iff_forall_ne_some]
    rintro ⟨group, rest⟩ hfind
    obtain ⟨hsplit, ⟨m, hm, hlast⟩, heven, -⟩ := (hsome group rest).1 hfind
    refine h (code group) ?_ (ne_nil_of_mem (mem_code hm hlast)) heven
    rw [hsplit, code_append]
    exact prefix_append _ _

/-- A group with another one in it, and with a closing bracket in a string. -/
theorem balancedEnd?_first_nested :
    ∃ group rest, balancedEnd? '(' ')' (marks "(a, ')', (b)) + c".toList) = some (group, rest) ∧
      chars group = "(a, ')', (b))".toList ∧ ClosesFirst '(' ')' group := by
  have hfind : balancedEnd? '(' ')' (marks "(a, ')', (b)) + c".toList) = some
      ((marks "(a, ')', (b)) + c".toList).take 13, (marks "(a, ')', (b)) + c".toList).drop 13) := by
    decide
  have hopen : nonCode? "(a, ')', (b)) + c".toList = none := by decide
  exact ⟨_, _, hfind, by decide, (((balancedEnd?_first (by decide) hopen).1 _ _).1 hfind).2⟩

end ReactiveMarkup.Script
