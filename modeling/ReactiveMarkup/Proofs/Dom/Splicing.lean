/-
Many nodes before a mark.

Nodes that are placed one after the other before a mark stand there in their order.
Among them may be fragments, which bring what they hold, and nodes that are in one of
these fragments, or below another node of the list.
-/
import ReactiveMarkup.Proofs.Dom.Disposal

namespace ReactiveMarkup.Dom.Store

open List

variable {H : Type} {s s' : Store H} {c m n p : NodeId} {ns ns' kids except : List NodeId}

/-! ### What nodes bring in -/

/-- What a list of nodes brings in: a fragment brings its children, but for some. -/
def contents (s : Store H) (except ns : List NodeId) : List NodeId :=
  ns.flatMap fun n =>
    if (s.node n).kind = .fragment then (s.children n).filter (· ∉ except) else [n]

theorem mem_contents : c ∈ s.contents except ns ↔ ∃ n ∈ ns,
    (s.node n).kind = .fragment ∧ c ∈ s.children n ∧ c ∉ except ∨
      (s.node n).kind ≠ .fragment ∧ c = n := by
  simp only [contents, mem_flatMap]
  refine exists_congr fun n => and_congr_right fun _ => ?_
  by_cases hk : (s.node n).kind = .fragment <;> simp [hk]

theorem IsForest.mem_contents_iff (h : s.IsForest) (hc : s.parent? c = some p) (hp : p ∉ ns) :
    c ∈ s.contents except ns ↔ c ∈ ns := by
  have hk : (s.node c).kind ≠ .fragment := h.kind_ne_of_mem ((h.linked c p).2 hc)
  rw [mem_contents]
  constructor
  · rintro ⟨n, hn, ⟨-, hmem, -⟩ | ⟨-, rfl⟩⟩
    · have hpn : some p = some n := hc.symm.trans ((h.linked c n).1 hmem)
      exact absurd (Option.some_inj.1 hpn ▸ hn) hp
    · exact hn
  · exact fun hn => ⟨c, hn, .inr ⟨hk, rfl⟩⟩

/-- What is asked of nodes that are to be placed below `p` before `m`. -/
structure Placeable (s : Store H) (p m : NodeId) (ns : List NodeId) : Prop where
  there : ∀ n ∈ ns, n < s.nodes.size
  /-- None of them is the parent or above it. -/
  apart : ∀ n ∈ ns, ¬ s.Within p n
  mark : m ∉ ns
  distinct : ns.Nodup

theorem Placeable.not_mem (h : Placeable s p m ns) : p ∉ ns := fun hp => h.apart p hp .refl

/-! ### Placing -/

theorem Moved.congr_mem (h : Moved s s' p kids ns) (hmem : ∀ m, m ∈ ns ↔ m ∈ ns') :
    Moved s s' p kids ns' := by
  refine ⟨h.size, h.rest, fun m => ?_, h.kids, fun q hq => ?_⟩
  · simp only [h.parent, hmem]
  · simp only [h.others q hq, hmem]

/-- What is above the parent after a move was so before it. -/
theorem Moved.within (h : Moved s s' p kids ns) (hf : s'.IsForest) (hw : s'.Within p n) :
    s.Within p n := by
  induction hw with
  | refl => exact .refl
  | @tail b c hpb hbc ih =>
    by_cases hb : b ∈ ns
    · have hparent : s'.parent? b = some p := by rw [h.parent, if_pos hb]
      exact absurd hpb (hf.not_within_of_parent? hparent)
    · rw [h.parent, if_neg hb] at hbc
      exact ih.tail hbc

namespace IsForest

theorem exists_place (h : s.IsForest) (hm : s.parent? m = some p)
    (hn : Placeable s p m (n :: ns)) :
    ∃ s', s.place p (some m) n = s' ∧ s'.IsForest ∧ Moved s s' p
      (putAllBefore (some m) (s.inserted n) ((s.children p).filter (· ∉ s.inserted n)))
      (s.inserted n) ∧ m ∉ s.inserted n ∧ Placeable s' p m ns := by
  have hnot : ¬ s.Within p n := hn.apart n (.head _)
  have hne : n ≠ m := fun e => hn.mark (e ▸ .head _)
  obtain ⟨s', hs, hf, hmoved⟩ :=
    h.exists_insertBefore? (hn.there n (.head _)) hnot ((h.linked m p).2 hm)
  refine ⟨s', ?_, hf, hmoved, h.not_mem_inserted hnot hm hne, ?_⟩
  · rw [place, hs]
    rfl
  · refine ⟨fun a ha => ?_, fun a ha hw => ?_, ?_, (nodup_cons.1 hn.distinct).2⟩
    · rw [hmoved.size]
      exact hn.there a (.tail _ ha)
    · exact hn.apart a (.tail _ ha) (hmoved.within hf hw)
    · exact fun hmem => hn.mark (.tail _ hmem)

theorem contents_of_moved (h : s.IsForest) (hn : Placeable s p m (n :: ns))
    (hmoved : Moved s s' p kids (s.inserted n)) :
    s'.contents ns ns = s.contents (n :: ns) ns := by
  have hnns : n ∉ ns := (nodup_cons.1 hn.distinct).1
  refine flatMap_congr fun a ha => ?_
  have hap : a ≠ p := fun e => hn.not_mem (e ▸ mem_cons_of_mem _ ha)
  rw [hmoved.kind]
  by_cases hk : (s.node a).kind = .fragment
  · rw [if_pos hk, if_pos hk, hmoved.others a hap, filter_filter]
    refine filter_congr fun c hc => ?_
    have hca := (h.linked c a).1 hc
    -- A child of one fragment is not a child of another, and no fragment is a child.
    have hiff : c ∈ s.inserted n ↔ c = n := by
      unfold inserted
      split
      · rename_i hkn
        rw [h.linked, hca]
        constructor
        · exact fun e => absurd ha (Option.some_inj.1 e ▸ hnns)
        · rintro rfl
          cases (h.rootless c hkn).symm.trans hca
      · exact mem_singleton
    simp only [hiff, mem_cons, not_or, Bool.decide_and, Bool.and_comm]
  · rw [if_neg hk, if_neg hk]

/-- Nodes that are placed one after the other before a child stand there in their order, with what
fragments hold in their places. -/
theorem moved_foldl_place (h : s.IsForest) (hm : s.parent? m = some p) (ns : List NodeId)
    (hns : Placeable s p m ns) :
    (ns.foldl (fun s n => s.place p (some m) n) s).IsForest ∧
      Moved s (ns.foldl (fun s n => s.place p (some m) n) s) p
        (putAllBefore (some m) (s.contents ns ns) ((s.children p).filter (· ∉ s.contents ns ns)))
        (s.contents ns ns) := by
  induction ns generalizing s with
  | nil =>
    refine ⟨h, ?_⟩
    have hkids : putAllBefore (some m) [] ((s.children p).filter (· ∉ [])) = s.children p := by
      rw [show (s.children p).filter (· ∉ []) = s.children p by simp]
      obtain ⟨pre, post, hsplit, hpre⟩ :=
        eq_append_cons_of_mem ((h.linked m p).2 hm)
      rw [hsplit, putAllBefore_mark [] hpre]
      simp
    have hrefl := Moved.refl s p
    rw [← hkids] at hrefl
    exact hrefl
  | cons n rest ih =>
    obtain ⟨s₁, hplace, hf, hfirst, hmn, hrest⟩ := h.exists_place hm hns
    have hm₁ : s₁.parent? m = some p := by rw [hfirst.parent, if_neg hmn, hm]
    obtain ⟨hforest, hmoved⟩ := ih hf hm₁ hrest
    simp only [foldl_cons, hplace]
    refine ⟨hforest, ?_⟩
    have hparent : ∀ c ∈ s.inserted n, s₁.parent? c = some p := fun c hc => by
      rw [hfirst.parent, if_pos hc]
    have hnot : p ∉ rest := hrest.not_mem
    have hcontents := h.contents_of_moved hns hfirst
    have hmark : m ∉ s₁.contents rest rest := by
      rw [hf.mem_contents_iff hm₁ hnot]
      exact hrest.mark
    -- What the first node brings in and is not listed later stays where it was placed.
    have hhead : s.contents (n :: rest) (n :: rest) =
        (s.inserted n).filter (· ∉ s₁.contents rest rest) ++ s₁.contents rest rest := by
      have hlater : (s.inserted n).filter (· ∉ s₁.contents rest rest) =
          (s.inserted n).filter (· ∉ rest) :=
        filter_congr fun c hc =>
          decide_eq_decide.2 (not_congr (hf.mem_contents_iff (hparent c hc) hnot))
      rw [hlater, hcontents, contents, flatMap_cons]
      refine congrArg (· ++ s.contents (n :: rest) rest) ?_
      have hnr : n ∉ rest := (nodup_cons.1 hns.distinct).1
      unfold inserted
      split
      · rename_i hk
        refine filter_congr fun c hc => ?_
        have hcn : c ≠ n := by
          rintro rfl
          cases (h.rootless c hk).symm.trans ((h.linked c c).1 hc)
        simp [hcn]
      · simp [hnr]
    have hmem : ∀ c, c ∈ s.inserted n ++ s₁.contents rest rest ↔
        c ∈ s.contents (n :: rest) (n :: rest) := by
      intro c
      rw [hhead]
      by_cases hc : c ∈ s₁.contents rest rest <;> simp [hc]
    have hall := (hfirst.trans hmoved).congr_mem hmem
    rw [hfirst.kids, filter_putAllBefore, filter_filter_not_mem, putAllBefore_putAllBefore,
      ← hhead] at hall
    · simpa only [hmem] using hall
    · intro c hc e
      cases e
      exact hmn (mem_filter.1 hc).1
    · intro c e
      cases e
      exact decide_eq_true hmark

end IsForest

/-! ### Swapping -/

/-- Whether the nodes `ns` have been placed below `p` before `m` in place of `previous`. -/
structure Swapped (s s' : Store H) (p m : NodeId) (previous ns : List NodeId) : Prop where
  forest : s'.IsForest
  size : s'.nodes.size = s.nodes.size
  kids : s'.children p = putAllBefore (some m) (s.contents (ns ++ previous) ns)
    ((s.children p).filter (· ∉ ns ++ previous))
  parent : ∀ c, s'.parent? c = if c ∈ s.contents (ns ++ previous) ns then some p
    else if c ∈ previous ∧ c ∉ ns then none else s.parent? c
  silent : ∀ c, (∃ d ∈ previous, d ∉ ns ∧ s.Within c d) → (s'.node c).hearing = ([], [], [])
  heard : ∀ c, (∀ d ∈ previous, d ∉ ns → ¬ s.Within c d) →
    (s'.node c).hearing = (s.node c).hearing

/-- Nodes that are no longer listed are taken out for good, and then all that are listed are
placed. -/
theorem IsForest.swapped (h : s.IsForest) (hm : s.parent? m = some p) (hns : Placeable s p m ns)
    {previous} (hprev : m ∉ previous) :
    Swapped s (ns.foldl (fun s n => s.place p (some m) n)
      ((previous.filter fun n => !ns.contains n).foldl Store.discard s)) p m previous ns := by
  obtain ⟨dropped, hdropped⟩ : ∃ dropped, dropped = previous.filter fun n => !ns.contains n :=
    ⟨_, rfl⟩
  have hmem : ∀ d, d ∈ dropped ↔ d ∈ previous ∧ d ∉ ns := fun d => by simp [hdropped]
  rw [← hdropped]
  have hdis := h.discarded_foldl dropped
  have hf₁ := (h.foldl_discard dropped).1
  have hm₁ : (dropped.foldl Store.discard s).parent? m = some p := by
    rw [hdis.cut.parent, if_neg fun hd => hprev ((hmem m).1 hd).1, hm]
  have hns₁ : Placeable (dropped.foldl Store.discard s) p m ns := by
    refine ⟨fun n hn => ?_, fun n hn hw => ?_, hns.mark, hns.distinct⟩
    · rw [hdis.cut.size]
      exact hns.there n hn
    · exact hns.apart n hn (hw.mono fun _ _ => hdis.cut.parent?_sub)
  obtain ⟨hforest, hmoved⟩ := hf₁.moved_foldl_place hm₁ ns hns₁
  have hcontents : (dropped.foldl Store.discard s).contents ns ns =
      s.contents (ns ++ previous) ns := by
    refine flatMap_congr fun n _ => ?_
    rw [hdis.cut.kind, hdis.cut.children, filter_filter_not_mem]
    split
    · refine filter_congr fun c _ => decide_eq_decide.2 (not_congr ?_)
      simp only [mem_append, hmem]
      by_cases hc : c ∈ ns <;> simp [hc]
    · rfl
  have hkids : ((dropped.foldl Store.discard s).children p).filter
      (· ∉ s.contents (ns ++ previous) ns) = (s.children p).filter (· ∉ ns ++ previous) := by
    rw [hdis.cut.children, filter_filter_not_mem]
    refine filter_congr fun c hc => decide_eq_decide.2 (not_congr ?_)
    -- A child that has not been taken out is placed again exactly if it is listed.
    simp only [mem_append, hmem]
    by_cases hcd : c ∈ previous ∧ c ∉ ns
    · simp [hcd]
    · have hparent : (dropped.foldl Store.discard s).parent? c = some p := by
        rw [hdis.cut.parent, if_neg fun hd => hcd ((hmem c).1 hd), (h.linked c p).1 hc]
      rw [← hcontents, hf₁.mem_contents_iff hparent hns.not_mem]
      by_cases hcn : c ∈ ns <;> simp [hcn]
  rw [hcontents, hkids] at hmoved
  refine ⟨hforest, hmoved.size.trans hdis.cut.size, hmoved.kids, fun c => ?_, fun c hc => ?_,
    fun c hc => ?_⟩
  · simp only [hmoved.parent, hdis.cut.parent, hmem]
  · obtain ⟨d, hd, hdn, hw⟩ := hc
    rw [hmoved.rest.hearing, hdis.silent c ⟨d, (hmem d).2 ⟨hd, hdn⟩, hw⟩]
  · rw [hmoved.rest.hearing, hdis.heard c fun d hd => hc d ((hmem d).1 hd).1 ((hmem d).1 hd).2]

/-- The other children stay where they are, and what stood before the mark and was not listed
stays before what is placed. -/
theorem Swapped.children_eq {previous before stood after} (hs : Swapped s s' p m previous ns)
    (h : s.IsForest) (hkids : s.children p = before ++ stood ++ m :: after)
    (hm : m ∉ ns ++ previous) (hothers : ∀ c ∈ before ++ after, c ∉ ns ++ previous) :
    s'.children p = before ++ stood.filter (· ∉ ns ++ previous) ++
      s.contents (ns ++ previous) ns ++ m :: after := by
  have hd : (before ++ stood ++ m :: after).Nodup := hkids ▸ h.distinct p
  have hnot : m ∉ before ++ stood := fun hmem =>
    (disjoint_of_nodup_append hd) hmem (.head _)
  have hkeep : ∀ l : List NodeId, (∀ c ∈ l, c ∉ ns ++ previous) →
      l.filter (· ∉ ns ++ previous) = l := fun l hl =>
    filter_eq_self.2 fun c hc => decide_eq_true (hl c hc)
  rw [hs.kids, hkids, filter_append, filter_append,
    hkeep before fun c hc => hothers c (mem_append_left _ hc),
    hkeep (m :: after) (forall_mem_cons.2
      ⟨hm, fun c hc => hothers c (mem_append_right _ hc)⟩),
    putAllBefore_mark]
  intro hmem
  refine hnot (mem_append.2 ((mem_append.1 hmem).imp_right fun hs => ?_))
  exact (mem_filter.1 hs).1

end ReactiveMarkup.Dom.Store
