/-
Results of stages, and lists.

General facts that no stage has for itself: what it takes for two stages in a row to
come to a result or to a fault, and how members of related lists are related.
-/
import Mathlib.Data.List.Forall2

namespace ReactiveMarkup

open List

section Stages

variable {ε α β : Type} {x : Except ε α} {f : α → Except ε β}

theorem exists_of_bind_eq_ok {b : β} (h : x >>= f = .ok b) : ∃ a, x = .ok a ∧ f a = .ok b := by
  cases x with
  | error e => cases h
  | ok a => exact ⟨a, rfl, h⟩

theorem exists_of_bind_eq_error {e : ε} (h : x >>= f = .error e) :
    x = .error e ∨ ∃ a, x = .ok a ∧ f a = .error e := by
  cases x with
  | error e => exact .inl (congrArg Except.error (Except.error.inj h))
  | ok a => exact .inr ⟨a, rfl, h⟩

end Stages

variable {α β γ : Type} {l : List α} {k : List β}

theorem forall_mem_of_all {p : α → Prop} [DecidablePred p]
    (h : (l.all fun a => decide (p a)) = true) : ∀ a ∈ l, p a :=
  fun a ha => of_decide_eq_true (all_eq_true.1 h a ha)

theorem exists_mem_of_forall₂ {R : α → β → Prop} {a : α} (h : Forall₂ R l k) (ha : a ∈ l) :
    ∃ b ∈ k, R a b := by
  induction h with
  | nil => simp at ha
  | cons hr _ ih =>
    rcases mem_cons.1 ha with rfl | ha
    · exact ⟨_, .head _, hr⟩
    · obtain ⟨b, hb, hab⟩ := ih ha
      exact ⟨b, .tail _ hb, hab⟩

/-- What is related to the values that a function has on a list is related to the members for which
it has one. -/
theorem forall₂_filter_of_filterMap {R : γ → β → Prop} {f : α → Option γ}
    (h : Forall₂ R (l.filterMap f) k) :
    Forall₂ (fun b a => a ∈ l ∧ ∃ c, f a = some c ∧ R c b) k
      (l.filter fun a => (f a).isSome) := by
  induction l generalizing k with
  | nil =>
    cases h
    exact .nil
  | cons a l ih =>
    have hmore : ∀ (b : β) (a' : α), (a' ∈ l ∧ ∃ c, f a' = some c ∧ R c b) →
        a' ∈ a :: l ∧ ∃ c, f a' = some c ∧ R c b :=
      fun b a' h => ⟨mem_cons_of_mem _ h.1, h.2⟩
    cases hf : f a with
    | none =>
      rw [filterMap_cons_none hf] at h
      rw [filter_cons_of_neg (by simp [hf])]
      exact (ih h).imp hmore
    | some c =>
      rw [filterMap_cons_some hf] at h
      rw [filter_cons_of_pos (by simp [hf])]
      cases h with
      | cons hr h => exact .cons ⟨mem_cons_self, c, hf, hr⟩ ((ih h).imp hmore)

end ReactiveMarkup
