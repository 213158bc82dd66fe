/-
What stops listening when a node is taken out for good.

A node that is taken out loses its parent, and it and all nodes below it lose their
listeners and handlers.  The search through the tree is bounded by the number of
nodes, which is more than the height of any tree.
-/
import Mathlib.Combinatorics.Pigeonhole
import ReactiveMarkup.Proofs.Dom.Placing

namespace ReactiveMarkup.Dom

open List Option

/-- What a node does about events. -/
def Node.hearing {H : Type} (d : Node H) : List (Listener H) × Table H × Table ListenerId :=
  (d.listeners, d.handlers, d.direct)

namespace Store

variable {H : Type} {s s' s'' : Store H} {m n p : NodeId} {k : Nat}

/-! ### The way up -/

theorem ancestor?_add (s : Store H) (j k : Nat) (n : NodeId) :
    s.ancestor? (j + k) n = (s.ancestor? j n).bind (s.ancestor? k) := by
  induction j generalizing n with
  | zero => simp [ancestor?]
  | succ j ih =>
    rw [show j + 1 + k = (j + k) + 1 by omega]
    simp only [ancestor?]
    cases s.parent? n with
    | none => rfl
    | some p => exact ih p

theorem within_of_ancestor? (h : s.ancestor? k m = some n) : s.Within m n := by
  induction k generalizing m with
  | zero => exact some_inj.1 h ▸ .refl
  | succ k ih =>
    obtain ⟨p, hp, hk⟩ := bind_eq_some_iff.1 h
    exact .head hp (ih hk)

theorem SameTrees.ancestor? (hs : SameTrees s s') (k : Nat) (n : NodeId) :
    s'.ancestor? k n = s.ancestor? k n := by
  induction k generalizing n with
  | zero => rfl
  | succ k ih =>
    simp only [Store.ancestor?, hs.parent]
    cases s.parent? n with
    | none => rfl
    | some p => exact ih p

theorem IsForest.le_size_of_ancestor? (h : s.IsForest) (hk : s.ancestor? k m = some n) :
    k ≤ s.nodes.size := by
  by_contra hlt
  -- All but the last node on the way have parents, and so are there.
  have hthere : ∀ j, j ≤ s.nodes.size → ∃ a, s.ancestor? j m = some a ∧ a < s.nodes.size := by
    intro j hj
    have hsplit : s.ancestor? (j + (k - j)) m = some n := by
      rw [show j + (k - j) = k by omega]
      exact hk
    rw [ancestor?_add] at hsplit
    obtain ⟨a, ha, hup⟩ := bind_eq_some_iff.1 hsplit
    obtain ⟨i, hi⟩ : ∃ i, k - j = i + 1 := ⟨k - j - 1, by omega⟩
    rw [hi] at hup
    obtain ⟨b, hb, -⟩ := bind_eq_some_iff.1 hup
    exact ⟨a, ha, lt_size_of_parent? hb⟩
  choose! way hat hsize using hthere
  obtain ⟨i, hi, j, hj, hne, heq⟩ := Finset.exists_ne_map_eq_of_card_lt_of_maps_to
    (s := Finset.range (s.nodes.size + 1)) (t := Finset.range s.nodes.size) (by simp)
    fun j hj => by
      have hj : j < s.nodes.size + 1 := by simpa using hj
      simpa using hsize j (by omega)
  -- A node that comes twice is above itself.
  have hloop : ∀ i j, i < j → j < s.nodes.size + 1 → way i ≠ way j := by
    intro i j hij hj heq
    have hup : s.ancestor? (i + (j - i)) m = some (way i) := by
      rw [show i + (j - i) = j by omega, heq]
      exact hat j (by omega)
    rw [ancestor?_add, hat i (by omega), bind_some,
      show j - i = (j - i - 1) + 1 by omega] at hup
    obtain ⟨b, hb, hback⟩ := bind_eq_some_iff.1 hup
    exact h.not_within_of_parent? hb (within_of_ancestor? hback)
  have hi : i < s.nodes.size + 1 := by simpa using hi
  have hj : j < s.nodes.size + 1 := by simpa using hj
  rcases Nat.lt_or_gt_of_ne hne with hij | hij
  · exact hloop i j hij hj heq
  · exact hloop j i hij hi heq.symm

theorem IsForest.within_iff_ancestor? (h : s.IsForest) :
    s.Within m n ↔ ∃ k, k < s.nodes.size + 1 ∧ s.ancestor? k m = some n := by
  constructor
  · intro hw
    obtain ⟨k, hk⟩ := hw.exists_ancestor?
    exact ⟨k, Nat.lt_succ_of_le (h.le_size_of_ancestor? hk), hk⟩
  · rintro ⟨k, -, hk⟩
    exact within_of_ancestor? hk

/-! ### Listening stops -/

/-- Whether some nodes have stopped listening, and nothing else has changed. -/
structure Hushed (s s' : Store H) (gone : NodeId → Prop) : Prop where
  trees : SameTrees s s'
  silent : ∀ m, gone m → (s'.node m).hearing = ([], [], [])
  heard : ∀ m, ¬ gone m → (s'.node m).hearing = (s.node m).hearing

theorem Hushed.trans {gone gone' both} (h : Hushed s s' gone) (h' : Hushed s' s'' gone')
    (hboth : ∀ m, both m ↔ gone m ∨ gone' m) : Hushed s s'' both where
  trees := h.trees.trans h'.trees
  silent m hm := by
    by_cases hm' : gone' m
    · exact h'.silent m hm'
    · rw [h'.heard m hm', h.silent m (((hboth m).1 hm).resolve_right hm')]
  heard m hm := by
    rw [hboth, not_or] at hm
    rw [h'.heard m hm.2, h.heard m hm.1]

theorem hushed_modify (s : Store H) (n : NodeId) :
    Hushed s (s.modify n fun d => { d with listeners := [], handlers := [], direct := [] })
      (· = n) where
  trees := sameTrees_modify s n _ fun _ => ⟨rfl, rfl, rfl⟩
  silent m hm := by
    subst hm
    by_cases hlt : m < s.nodes.size
    · rw [node_modify_self _ hlt]
      rfl
    · rw [node_eq_of_size_le (by simpa using Nat.le_of_not_lt hlt)]
      rfl
  heard m hm := by rw [node_modify_ne _ hm]

namespace IsForest

theorem hushed_disposeWithin (h : s.IsForest) (fuel : Nat) (n : NodeId) :
    Hushed s (disposeWithin fuel s n) fun m => ∃ k, k < fuel ∧ s.ancestor? k m = some n := by
  induction fuel generalizing s n with
  | zero => exact ⟨.refl s, fun m ⟨k, hk, _⟩ => absurd hk (Nat.not_lt_zero k), fun _ _ => rfl⟩
  | succ fuel ih =>
    have hfold : ∀ (cs : List NodeId) {t : Store H}, SameTrees s t →
        Hushed t (cs.foldl (disposeWithin fuel) t)
          fun m => ∃ c ∈ cs, ∃ k, k < fuel ∧ s.ancestor? k m = some c := by
      intro cs
      induction cs with
      | nil => exact fun {t} _ => ⟨.refl t, fun m ⟨_, hc, _⟩ => absurd hc (by simp), fun _ _ => rfl⟩
      | cons c rest ihc =>
        intro t ht
        have hfirst := ih (h.congr ht) c
        refine hfirst.trans (ihc (ht.trans hfirst.trees)) fun m => ?_
        simp only [ht.ancestor?, mem_cons, exists_eq_or_imp]
    have hself := hushed_modify s n
    have hbelow := hfold (s.children n) hself.trees
    rw [← hself.trees.children] at hbelow
    refine hself.trans hbelow fun m => ?_
    rw [hself.trees.children]
    -- The way up from a node below ends with a child.
    constructor
    · rintro ⟨k, hk, hup⟩
      rcases k with _ | k
      · exact .inl (some_inj.1 hup)
      · rw [ancestor?_add] at hup
        obtain ⟨c, hc, hlast⟩ := bind_eq_some_iff.1 hup
        have hparent : s.parent? c = some n := by simpa [ancestor?] using hlast
        exact .inr ⟨c, (h.linked c n).2 hparent, k, by omega, hc⟩
    · rintro (rfl | ⟨c, hc, k, hk, hup⟩)
      · exact ⟨0, by omega, rfl⟩
      · refine ⟨k + 1, by omega, ?_⟩
        rw [ancestor?_add, hup]
        simp [ancestor?, (h.linked c n).1 hc]

theorem hushed_dispose (h : s.IsForest) (n : NodeId) :
    Hushed s (s.dispose n) fun m => s.Within m n := by
  have hall := h.hushed_disposeWithin (s.nodes.size + 1) n
  exact ⟨hall.trees, fun m hm => hall.silent m (h.within_iff_ancestor?.1 hm),
    fun m hm => hall.heard m fun hk => hm (h.within_iff_ancestor?.2 hk)⟩

end IsForest

/-! ### Nodes that are taken out for good -/

/-- Whether nodes have lost their parents, and listening has stopped at and below them. -/
structure Discarded (s s' : Store H) (ns : List NodeId) : Prop where
  cut : Cut s s' ns
  silent : ∀ m, (∃ n ∈ ns, s.Within m n) → (s'.node m).hearing = ([], [], [])
  heard : ∀ m, (∀ n ∈ ns, ¬ s.Within m n) → (s'.node m).hearing = (s.node m).hearing

theorem within_detach (h : s.Within m p) : (s.detach n).Within m p ∨ s.Within m n := by
  induction h using Relation.ReflTransGen.head_induction_on with
  | refl => exact .inl .refl
  | @head a b hab _ ih =>
    by_cases ha : a = n
    · exact .inr (ha ▸ .refl)
    · refine ih.imp (fun hw => .head ?_ hw) fun hw => .head hab hw
      rw [parent?_detach, if_neg ha]
      exact hab

theorem Relinked.hearing (h : Relinked s s') (m : NodeId) :
    (s'.node m).hearing = (s.node m).hearing := by
  rw [h m]
  rfl

namespace IsForest

theorem discarded_discard (h : s.IsForest) (n : NodeId) : Discarded s (s.discard n) [n] := by
  have hcut := h.cut_detach n
  have hhush := (h.detach n).hushed_dispose n
  have hheard := (relinked_detach s n).hearing
  refine ⟨⟨hhush.trees.size.trans hcut.size, fun m => ?_, fun m => ?_, fun q => ?_⟩,
    fun m hm => ?_, fun m hm => ?_⟩
  · exact (hhush.trees.kind m).trans (hcut.kind m)
  · exact (hhush.trees.parent m).trans (hcut.parent m)
  · exact (hhush.trees.children q).trans (hcut.children q)
  · obtain ⟨a, ha, hw⟩ := hm
    obtain rfl := mem_singleton.1 ha
    refine hhush.silent m ?_
    -- The way from below ends at the node, so it has not lost its link.
    induction hw using Relation.ReflTransGen.head_induction_on with
    | refl => exact .refl
    | @head b c hbc hca ih =>
      have hne : b ≠ a := fun e => h.not_within_of_parent? (e ▸ hbc) hca
      refine .head ?_ ih
      rw [parent?_detach, if_neg hne]
      exact hbc
  · have hnot : ¬ (s.detach n).Within m n := fun hw =>
      hm n (.head _) (hw.mono fun _ _ => hcut.parent?_sub)
    exact (hhush.heard m hnot).trans (hheard m)

theorem discarded_foldl (h : s.IsForest) (ns : List NodeId) :
    Discarded s (ns.foldl Store.discard s) ns := by
  induction ns generalizing s with
  | nil => exact ⟨⟨rfl, fun _ => rfl, fun _ => by simp, fun _ => by simp⟩, by simp, fun _ _ => rfl⟩
  | cons n rest ih =>
    have hfirst := h.discarded_discard n
    have hrest := ih (h.discard n)
    refine ⟨⟨hrest.cut.size.trans hfirst.cut.size, fun m => ?_, fun m => ?_, fun q => ?_⟩,
      fun m hm => ?_, fun m hm => ?_⟩
    · exact (hrest.cut.kind m).trans (hfirst.cut.kind m)
    · rw [foldl_cons, hrest.cut.parent, hfirst.cut.parent]
      by_cases h₁ : m = n <;> by_cases h₂ : m ∈ rest <;> simp [h₁]
    · rw [foldl_cons, hrest.cut.children, hfirst.cut.children, filter_filter_not_mem]
      rfl
    · by_cases hlater : ∃ a ∈ rest, (s.discard n).Within m a
      · exact hrest.silent m hlater
      · -- Then the way up to a later node went over this one.
        have hhere : s.Within m n := by
          obtain ⟨a, ha, hw⟩ := hm
          rcases mem_cons.1 ha with rfl | ha
          · exact hw
          · refine (within_detach hw).resolve_left fun hw => hlater ⟨a, ha, ?_⟩
            exact hw.mono fun b c hbc => ((sameTrees_dispose (s.detach n) n).parent b).trans hbc
        rw [foldl_cons, hrest.heard m fun a ha hw => hlater ⟨a, ha, hw⟩,
          hfirst.silent m ⟨n, .head _, hhere⟩]
    · have hsub : ∀ a, (s.discard n).Within m a → s.Within m a := fun a hw =>
        hw.mono fun _ _ => hfirst.cut.parent?_sub
      rw [foldl_cons, hrest.heard m fun a ha hw => hm a (.tail _ ha) (hsub a hw),
        hfirst.heard m fun a ha => mem_singleton.1 ha ▸ hm n (.head _)]

end IsForest

end Store

end ReactiveMarkup.Dom
