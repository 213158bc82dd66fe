/-
Runs that cannot be told apart.

How many batches are open is hidden from code, and so is how many steps the machine
takes.  Two runs cannot be told apart if each goes through states like those of the
other, in the same order, and if they end in the same states.

Such runs go side by side, step for step, until one of them has something to do that
the other has not: steps that change nothing but the number of open batches.
-/
import Mathlib.Order.Monotone.Basic
import ReactiveMarkup.Proofs.Reactive.Order

namespace ReactiveMarkup.Reactive

open State

variable {S : Setting}

/-- Two states with the same host and with graphs that are the same but for the number of open
batches. -/
def State.Alike (a b : State S) : Prop :=
  a.host = b.host ∧ { a.graph with depth := 0 } = { b.graph with depth := 0 }

theorem State.Alike.refl (a : State S) : a.Alike a := ⟨rfl, rfl⟩

theorem State.Alike.symm {a b : State S} (h : a.Alike b) : b.Alike a := ⟨h.1.symm, h.2.symm⟩

theorem State.Alike.trans {a b c : State S} (h : a.Alike b) (h' : b.Alike c) : a.Alike c :=
  ⟨h.1.trans h'.1, h.2.trans h'.2⟩

/-! ### Runs -/

section Run

variable [BEq S.Value] {L : Language S} {a a' last : State S}

theorem State.run_of_step (h : a.step? L = some a') (n : Nat) : a.run L (n + 1) = a'.run L n := by
  rw [State.run, h]

theorem State.run_of_end (h : last.step? L = none) (n : Nat) : last.run L n = last := by
  cases n with
  | zero => rfl
  | succ n => rw [State.run, h]

theorem State.run_add (a : State S) (m n : Nat) : a.run L (m + n) = (a.run L m).run L n := by
  induction m generalizing a with
  | zero => rw [Nat.zero_add]; rfl
  | succ m ih =>
    rw [show m + 1 + n = m + n + 1 by omega]
    cases h : a.step? L with
    | none => rw [run_of_end h, run_of_end h, run_of_end h]
    | some a' => rw [run_of_step h, run_of_step h, ih]

theorem State.run_succ_of_step (h : (a.run L n).step? L = some a') : a.run L (n + 1) = a' := by
  rw [run_add, run_of_step h]
  rfl

end Run

/-! ### Runs that cannot be told apart -/

/-- Two runs go through states that look alike, in the same order, and end in the same states. -/
structure Indistinct [BEq S.Value] (L : Language S) (a b : State S) : Prop where
  forth : ∃ f : Nat → Nat, Monotone f ∧ ∀ n, (a.run L n).Alike (b.run L (f n))
  back : ∃ f : Nat → Nat, Monotone f ∧ ∀ n, (b.run L n).Alike (a.run L (f n))
  ends : ∀ last, last.step? L = none → ((∃ n, a.run L n = last) ↔ ∃ n, b.run L n = last)

namespace Indistinct

variable [BEq S.Value] {L : Language S} {a a' b b' c : State S}

theorem refl (a : State S) : Indistinct L a a :=
  ⟨⟨id, monotone_id, fun _ => .refl _⟩, ⟨id, monotone_id, fun _ => .refl _⟩, fun _ _ => Iff.rfl⟩

theorem symm (h : Indistinct L a b) : Indistinct L b a :=
  ⟨h.back, h.forth, fun last hlast => (h.ends last hlast).symm⟩

theorem run_eq (h : Indistinct L a b) (ha : (a.run L m).step? L = none)
    (hb : (b.run L n).step? L = none) : a.run L m = b.run L n := by
  obtain ⟨i, hi⟩ := (h.ends _ ha).1 ⟨m, rfl⟩
  rw [← run_of_end hb i, ← run_add, Nat.add_comm, run_add, hi,
    run_of_end ha]

theorem of_step (hstep : a.step? L = some a') (halike : a.Alike a') (h : Indistinct L a' b) :
    Indistinct L a b := by
  obtain ⟨⟨f, hf, hforth⟩, ⟨g, hg, hback⟩, hends⟩ := h
  refine ⟨⟨fun n => f (n - 1), ?_, ?_⟩, ⟨fun n => g n + 1, ?_, ?_⟩, ?_⟩
  · intro m n hmn
    exact hf (Nat.sub_le_sub_right hmn 1)
  · intro n
    cases n with
    | zero => exact halike.trans (hforth 0)
    | succ n =>
      rw [run_of_step hstep]
      exact hforth n
  · intro m n hmn
    exact Nat.succ_le_succ (hg hmn)
  · intro n
    rw [run_of_step hstep]
    exact hback n
  · intro last hlast
    rw [← hends last hlast]
    constructor
    · rintro ⟨n, hn⟩
      cases n with
      | zero =>
        obtain rfl : a = last := hn
        rw [hstep] at hlast
        cases hlast
      | succ n => exact ⟨n, by rw [← hn, run_of_step hstep]⟩
    · rintro ⟨n, hn⟩
      exact ⟨n + 1, by rw [run_of_step hstep, hn]⟩

theorem of_run (halike : ∀ n ≤ N, (a.run L n).Alike (b.run L n))
    (h : Indistinct L (a.run L N) (b.run L N)) : Indistinct L a b := by
  -- One direction of the first part, for two runs of which nothing else is known.
  have hforth : ∀ {a b : State S}, (∀ n ≤ N, (a.run L n).Alike (b.run L n)) →
      (∃ f : Nat → Nat, Monotone f ∧
        ∀ n, ((a.run L N).run L n).Alike ((b.run L N).run L (f n))) →
      ∃ f : Nat → Nat, Monotone f ∧ ∀ n, (a.run L n).Alike (b.run L (f n)) := by
    intro a b halike hrest
    obtain ⟨f, hf, hrest⟩ := hrest
    refine ⟨fun n => if n ≤ N then n else N + f (n - N), ?_, ?_⟩
    · intro m n hmn
      have := hf (Nat.sub_le_sub_right hmn N)
      show (if m ≤ N then m else N + f (m - N)) ≤ if n ≤ N then n else N + f (n - N)
      split <;> split <;> omega
    · intro n
      show (a.run L n).Alike (b.run L (if n ≤ N then n else N + f (n - N)))
      split
      · next hn => exact halike n hn
      · next hn =>
        have hlater := hrest (n - N)
        rwa [← run_add, ← run_add, Nat.add_sub_cancel' (by omega)] at hlater
  -- A run that has ended stays where it is, so its end is also reached from its `N`th state.
  have hends : ∀ {a last : State S}, last.step? L = none →
      ((∃ n, (a.run L N).run L n = last) ↔ ∃ n, a.run L n = last) := by
    intro a last hlast
    constructor
    · rintro ⟨n, hn⟩
      exact ⟨N + n, by rw [run_add, hn]⟩
    · rintro ⟨n, hn⟩
      refine ⟨n, ?_⟩
      rw [← run_add, Nat.add_comm, run_add, hn, run_of_end hlast]
  refine ⟨hforth halike h.forth, hforth (fun n hn => (halike n hn).symm) h.back, ?_⟩
  intro last hlast
  exact (hends hlast).symm.trans ((h.ends last hlast).trans (hends hlast))

theorem of_steps (ha : a.step? L = some a') (hb : b.step? L = some b') (halike : a.Alike b)
    (halike' : a'.Alike b') (h : Indistinct L a' b') : Indistinct L a b := by
  have ha' : a.run L 1 = a' := run_of_step ha 0
  have hb' : b.run L 1 = b' := run_of_step hb 0
  refine of_run ?_ (by rw [ha', hb']; exact h)
  intro n hn
  obtain rfl | rfl : n = 0 ∨ n = 1 := by omega
  · exact halike
  · rw [ha', hb']
    exact halike'

theorem of_forever (halike : ∀ n, (a.run L n).Alike (b.run L n))
    (ha : ∀ n, (a.run L n).step? L ≠ none) (hb : ∀ n, (b.run L n).step? L ≠ none) :
    Indistinct L a b := by
  refine ⟨⟨id, monotone_id, halike⟩, ⟨id, monotone_id, fun n => (halike n).symm⟩, ?_⟩
  intro last hlast
  constructor
  · rintro ⟨n, rfl⟩
    exact absurd hlast (ha n)
  · rintro ⟨n, rfl⟩
    exact absurd hlast (hb n)

/-- Runs that go side by side, as long as they are related by `R`.  From related states both take
a step to related states, or they cannot be told apart anyhow. -/
theorem of_lockstep {R : State S → State S → Prop} (halike : ∀ {a b}, R a b → a.Alike b)
    (hstep : ∀ {a b}, R a b →
      (∃ a' b', a.step? L = some a' ∧ b.step? L = some b' ∧ R a' b') ∨ Indistinct L a b)
    (h : R a b) : Indistinct L a b := by
  by_cases hmeet : ∃ N, Indistinct L (a.run L N) (b.run L N) ∧
      ∀ n ≤ N, (a.run L n).Alike (b.run L n)
  · obtain ⟨N, hmeet, hbefore⟩ := hmeet
    exact of_run hbefore hmeet
  · -- They are related after each number of steps, since they never come to the other case.
    have hall : ∀ n, R (a.run L n) (b.run L n) ∧ ∀ m ≤ n, (a.run L m).Alike (b.run L m) := by
      intro n
      induction n with
      | zero =>
        refine ⟨h, fun m hm => ?_⟩
        obtain rfl : m = 0 := by omega
        exact halike h
      | succ n ih =>
        obtain ⟨hn, hbefore⟩ := ih
        rcases hstep hn with ⟨a', b', ha, hb, hnext⟩ | hdone
        · rw [← run_succ_of_step ha, ← run_succ_of_step hb] at hnext
          refine ⟨hnext, fun m hm => ?_⟩
          rcases Nat.lt_or_ge n m with hlt | hle
          · obtain rfl : m = n + 1 := by omega
            exact halike hnext
          · exact hbefore m hle
        · exact absurd ⟨n, hdone, hbefore⟩ hmeet
    have hgoes : ∀ n, ∃ a' b', (a.run L n).step? L = some a' ∧ (b.run L n).step? L = some b' := by
      intro n
      obtain ⟨hn, hbefore⟩ := hall n
      rcases hstep hn with ⟨a', b', ha, hb, -⟩ | hdone
      · exact ⟨a', b', ha, hb⟩
      · exact absurd ⟨n, hdone, hbefore⟩ hmeet
    refine of_forever (fun n => halike (hall n).1) ?_ ?_
    · intro n hend
      obtain ⟨a', b', ha, -⟩ := hgoes n
      rw [hend] at ha
      cases ha
    · intro n hend
      obtain ⟨a', b', -, hb⟩ := hgoes n
      rw [hend] at hb
      cases hb

end Indistinct

end ReactiveMarkup.Reactive
