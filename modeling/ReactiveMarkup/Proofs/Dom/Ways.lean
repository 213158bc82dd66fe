/-
Ways up from a node.

A way up goes from a node to its parent, and on as long as there is a parent in use.  Which
parents are in use depends on the nodes that are held.  A way stays the same if other nodes
are held instead, as long as none goes out of use and only nodes of the way itself are held
in addition: a node does not keep those above it in use.
-/
import ReactiveMarkup.Proofs.Dom.Disposal

namespace ReactiveMarkup.Dom

open List

variable {H : Type} {n t a p : NodeId} {path pre post : List NodeId}

/-- Whether some nodes are all those that one comes to from a node on, from one to the next. -/
inductive Way (next : NodeId → Option NodeId) : NodeId → List NodeId → Prop
  | last {n : NodeId} (h : next n = none) : Way next n [n]
  | up {n p : NodeId} {path : List NodeId} (h : next n = some p) (hw : Way next p path) :
      Way next n (n :: path)

namespace Way

variable {next next' : NodeId → Option NodeId}

theorem exists_cons (h : Way next t path) : ∃ rest, path = t :: rest := by
  cases h with
  | last _ => exact ⟨[], rfl⟩
  | up _ _ => exact ⟨_, rfl⟩

theorem congr (h : Way next t path) (heq : ∀ n ∈ path, next' n = next n) : Way next' t path := by
  induction h with
  | last hn => exact .last ((heq _ (.head _)).trans hn)
  | up hn _ ih =>
    exact .up ((heq _ (.head _)).trans hn) (ih fun n hmem => heq n (.tail _ hmem))

theorem unique {path'} (h : Way next t path) (h' : Way next t path') : path' = path := by
  induction h generalizing path' with
  | last hn =>
    cases h' with
    | last _ => rfl
    | up hn' _ => cases hn.symm.trans hn'
  | up hn _ ih =>
    cases h' with
    | last hn' => cases hn'.symm.trans hn
    | up hn' hrest =>
      obtain rfl := Option.some_inj.1 (hn.symm.trans hn')
      rw [ih hrest]

theorem tail (h : Way next t (a :: path)) (hne : path ≠ []) : ∃ p, Way next p path := by
  cases h with
  | last _ => exact absurd rfl hne
  | up _ hrest => exact ⟨_, hrest⟩

theorem next_eq (h : Way next t (pre ++ n :: post)) : next n = post.head? := by
  induction pre generalizing t with
  | nil =>
    cases h with
    | last hn => exact hn
    | up hn hrest =>
      obtain ⟨rest, rfl⟩ := hrest.exists_cons
      exact hn
  | cons b pre ih =>
    obtain ⟨p, hp⟩ := h.tail (by simp)
    exact ih hp

end Way

namespace Store

variable {s : Store H} {held held' : List NodeId}

/-! ### Nodes in use -/

theorem isAliveWithin_iff (s : Store H) (held : List NodeId) (k : Nat) (n : NodeId) :
    s.isAliveWithin held k n = true ↔ ∃ j, j < k ∧ ∃ a ∈ held, s.ancestor? j n = some a := by
  induction k generalizing n with
  | zero => simp [isAliveWithin]
  | succ k ih =>
    simp only [isAliveWithin, Bool.or_eq_true, contains_iff_mem]
    constructor
    · rintro (hn | hup)
      · exact ⟨0, Nat.succ_pos k, n, hn, rfl⟩
      · split at hup
        · cases hup
        · rename_i p hp
          obtain ⟨j, hj, a, ha, hja⟩ := (ih p).1 hup
          refine ⟨j + 1, Nat.succ_lt_succ hj, a, ha, ?_⟩
          rw [ancestor?, hp]
          exact hja
    · rintro ⟨j, hj, a, ha, hja⟩
      cases j with
      | zero =>
        cases hja
        exact .inl ha
      | succ j =>
        obtain ⟨p, hp, hpa⟩ := Option.bind_eq_some_iff.1 hja
        rw [hp]
        exact .inr ((ih p).2 ⟨j, Nat.lt_of_succ_lt_succ hj, a, ha, hpa⟩)

theorem IsForest.isAlive_iff (h : s.IsForest) :
    s.isAlive held n = true ↔ ∃ a ∈ held, s.Within n a := by
  rw [isAlive, isAliveWithin_iff]
  constructor
  · rintro ⟨j, -, a, ha, hja⟩
    exact ⟨a, ha, within_of_ancestor? hja⟩
  · rintro ⟨a, ha, hw⟩
    obtain ⟨j, hj, hja⟩ := h.within_iff_ancestor?.1 hw
    exact ⟨j, hj, a, ha, hja⟩

theorem parent?_of_parentIn? (h : s.parentIn? held n = some p) : s.parent? n = some p :=
  (Option.filter_eq_some_iff.1 h).1

theorem parentIn?_congr
    (h : ∀ p, s.parent? n = some p → (s.isAlive held' p = true ↔ s.isAlive held p = true)) :
    s.parentIn? held' n = s.parentIn? held n := by
  unfold parentIn?
  cases hp : s.parent? n with
  | none => rfl
  | some p =>
    have hsame : s.isAlive held' p = s.isAlive held p := Bool.eq_iff_iff.2 (h p hp)
    simp [Option.filter, hsame]

/-! ### Ways -/

theorem IsForest.exists_way (h : s.IsForest) (held : List NodeId) (t : NodeId) :
    ∃ path, Way (s.parentIn? held) t path := by
  induction t using h.grounded.induction with
  | _ t ih =>
    cases hp : s.parentIn? held t with
    | none => exact ⟨[t], .last hp⟩
    | some p =>
      obtain ⟨path, hpath⟩ := ih p (parent?_of_parentIn? hp)
      exact ⟨t :: path, .up hp hpath⟩

theorem within_of_way (h : Way (s.parentIn? held) t path) (ha : a ∈ path) : s.Within t a := by
  induction h with
  | last _ =>
    obtain rfl := mem_singleton.1 ha
    exact .refl
  | up hn _ ih =>
    rcases mem_cons.1 ha with rfl | ha
    · exact .refl
    · exact .head (parent?_of_parentIn? hn) (ih ha)

theorem within_of_mem_way (h : Way (s.parentIn? held) t (pre ++ n :: post)) (ha : a ∈ pre ++ [n]) :
    s.Within a n := by
  induction pre generalizing t with
  | nil =>
    obtain rfl := mem_singleton.1 ha
    exact .refl
  | cons b pre ih =>
    obtain ⟨rest, hb⟩ := h.exists_cons
    cases hb
    rcases mem_cons.1 ha with rfl | ha
    · exact within_of_way h (by simp)
    · obtain ⟨p, hp⟩ := h.tail (by simp)
      exact ih hp ha

theorem IsForest.nodup_way (h : s.IsForest) (hw : Way (s.parentIn? held) t path) : path.Nodup := by
  induction hw with
  | last _ => exact nodup_singleton _
  | up hn hrest ih =>
    refine nodup_cons.2 ⟨fun hmem => ?_, ih⟩
    exact h.not_within_of_parent? (parent?_of_parentIn? hn) (within_of_way hrest hmem)

theorem within_of_parentIn?_eq_none (h : Way (s.parentIn? held) t path) (hn : n ∈ path)
    (hp : s.parentIn? held n = none) (ha : a ∈ path) : s.Within a n := by
  obtain ⟨pre, post, rfl⟩ := append_of_mem hn
  have hend := h.next_eq
  rw [hp] at hend
  have hpost : post = [] := head?_eq_none_iff.1 hend.symm
  subst hpost
  exact within_of_mem_way h ha

theorem IsForest.way_hold (h : s.IsForest) (hw : Way (s.parentIn? held) t path)
    (hnew : ∀ a ∈ held', a ∈ held ∨ a ∈ path) (hold : ∀ a ∈ held, ∃ b ∈ held', s.Within a b) :
    Way (s.parentIn? held') t path := by
  refine hw.congr fun n hn => parentIn?_congr fun p hp => ?_
  rw [h.isAlive_iff, h.isAlive_iff]
  constructor
  · rintro ⟨a, ha, hpa⟩
    rcases hnew a ha with hmem | hmem
    · exact ⟨a, hmem, hpa⟩
    · by_contra hdead
      -- Then the way ends below the parent, so it does not come to what holds the parent.
      have hnone : s.parentIn? held n = none := by
        rw [parentIn?, hp]
        refine Option.filter_eq_none_iff.2 fun q hq => ?_
        cases hq
        rwa [h.isAlive_iff]
      exact h.not_within_of_parent? hp (hpa.trans (within_of_parentIn?_eq_none hw hn hnone hmem))
  · rintro ⟨a, ha, hpa⟩
    obtain ⟨b, hb, hab⟩ := hold a ha
    exact ⟨b, hb, hpa.trans hab⟩

end Store

end ReactiveMarkup.Dom
