/-
Where nodes go.

A node that is inserted goes right before the mark, and a fragment lets its children
go there, in their order.  What they leave behind closes up.  Nothing else changes:
no other link between nodes, and nothing that nodes hold.
-/
import ReactiveMarkup.Proofs.Dom.Forest

namespace ReactiveMarkup.Dom.Store

open List

variable {H : Type} {s s' s'' : Store H} {m n p q : NodeId} {mark : Option NodeId}
  {kids kids' ns ns' : List NodeId}

/-! ### Lists -/

/-- The list with all of `ns` put before `mark`, or at its end if there is no mark in it. -/
def putAllBefore (mark : Option NodeId) (ns : List NodeId) : List NodeId → List NodeId
  | [] => ns
  | m :: rest => if mark = some m then ns ++ m :: rest else m :: putAllBefore mark ns rest

theorem putBefore_eq_putAllBefore (mark : Option NodeId) (n : NodeId) (kids : List NodeId) :
    putBefore mark n kids = putAllBefore mark [n] kids := by
  induction kids with
  | nil => rfl
  | cons m rest ih => simp [putBefore, putAllBefore, ih]

theorem putAllBefore_of_not_mem (h : ∀ m ∈ kids, mark ≠ some m) :
    putAllBefore mark ns kids = kids ++ ns := by
  induction kids with
  | nil => rfl
  | cons m rest ih =>
    have hm : mark ≠ some m := h m (.head _)
    simp [putAllBefore, hm, ih fun a ha => h a (.tail _ ha)]

theorem putAllBefore_mark {pre post} (ns : List NodeId) (h : m ∉ pre) :
    putAllBefore (some m) ns (pre ++ m :: post) = pre ++ ns ++ m :: post := by
  induction pre with
  | nil => simp [putAllBefore]
  | cons a rest ih =>
    have ha : m ≠ a := fun e => h (by simp [e])
    simp [putAllBefore, ha, ih fun hr => h (.tail _ hr)]

theorem putAllBefore_putAllBefore (h : ∀ m ∈ ns, mark ≠ some m) :
    putAllBefore mark ns' (putAllBefore mark ns kids) = putAllBefore mark (ns ++ ns') kids := by
  induction kids with
  | nil => exact putAllBefore_of_not_mem h
  | cons m rest ih =>
    by_cases hm : mark = some m
    · have hnot : m ∉ ns := fun hmem => h m hmem hm
      simp only [putAllBefore, if_pos hm]
      rw [hm, putAllBefore_mark ns' hnot]
    · simp only [putAllBefore, if_neg hm, ih]

theorem filter_putAllBefore {keep} (h : ∀ m, mark = some m → keep m = true) :
    (putAllBefore mark ns kids).filter keep =
      putAllBefore mark (ns.filter keep) (kids.filter keep) := by
  induction kids with
  | nil => rfl
  | cons m rest ih =>
    by_cases hm : mark = some m
    · simp [putAllBefore, hm, h m hm]
    · cases hk : keep m <;> simp [putAllBefore, hm, hk, ih]

theorem filter_filter_not_mem (kids ns ns' : List NodeId) :
    (kids.filter (· ∉ ns)).filter (· ∉ ns') = kids.filter (· ∉ ns ++ ns') := by
  rw [filter_filter]
  refine filter_congr fun m _ => ?_
  by_cases h₁ : m ∈ ns <;> by_cases h₂ : m ∈ ns' <;> simp [h₁]

/-! ### Links -/

/-- Whether no more than links between nodes have changed. -/
def Relinked (s s' : Store H) : Prop :=
  ∀ m, s'.node m = { s.node m with parent := s'.parent? m, children := s'.children m }

theorem Relinked.refl (s : Store H) : Relinked s s := fun _ => rfl

theorem Relinked.trans (h : Relinked s s') (h' : Relinked s' s'') : Relinked s s'' := by
  intro m
  have hm := h' m
  rw [h m] at hm
  exact hm

theorem Relinked.foldl (hf : ∀ s n, Relinked s (f s n)) (ns : List NodeId) :
    Relinked s (ns.foldl f s) := by
  induction ns generalizing s with
  | nil => exact .refl s
  | cons n rest ih => exact (hf s n).trans ih

theorem relinked_modify (n : NodeId)
    (hf : ∀ d, f d = { d with parent := (f d).parent, children := (f d).children }) :
    Relinked s (s.modify n f) := by
  intro m
  by_cases hm : m = n
  · subst hm
    by_cases hlt : m < s.nodes.size
    · rw [parent?, children, node_modify_self f hlt]
      exact hf _
    · have hle : s.nodes.size ≤ m := Nat.le_of_not_lt hlt
      rw [parent?, children, node_eq_of_size_le (by simpa using hle), node_eq_of_size_le hle]
  · rw [parent?, children, node_modify_ne f hm]

theorem relinked_detach (s : Store H) (n : NodeId) : Relinked s (s.detach n) := by
  unfold detach
  split
  · exact .refl s
  · exact (relinked_modify _ fun _ => rfl).trans (relinked_modify _ fun _ => rfl)

theorem relinked_attach (s : Store H) (p : NodeId) (mark : Option NodeId) (n : NodeId) :
    Relinked s (s.attach p mark n) :=
  ((relinked_detach s n).trans (relinked_modify n fun _ => rfl)).trans
    (relinked_modify p fun _ => rfl)

theorem relinked_empty (s : Store H) (n : NodeId) : Relinked s (s.empty n) :=
  (relinked_modify n fun _ => rfl).trans (.foldl (fun _ c => relinked_modify c fun _ => rfl) _)

/-! ### Moves -/

/-- Whether the nodes `ns` have gone from where they were to below `p`, which then has `kids`. -/
structure Moved (s s' : Store H) (p : NodeId) (kids ns : List NodeId) : Prop where
  size : s'.nodes.size = s.nodes.size
  rest : Relinked s s'
  parent : ∀ m, s'.parent? m = if m ∈ ns then some p else s.parent? m
  kids : s'.children p = kids
  others : ∀ q, q ≠ p → s'.children q = (s.children q).filter (· ∉ ns)

namespace Moved

theorem refl (s : Store H) (p : NodeId) : Moved s s p (s.children p) [] :=
  ⟨rfl, .refl s, fun _ => by simp, rfl, fun _ _ => by simp⟩

theorem kind (h : Moved s s' p kids ns) (m : NodeId) : (s'.node m).kind = (s.node m).kind := by
  rw [h.rest m]

theorem trans (h : Moved s s' p kids ns) (h' : Moved s' s'' p kids' ns') :
    Moved s s'' p kids' (ns ++ ns') where
  size := h'.size.trans h.size
  rest := h.rest.trans h'.rest
  parent m := by
    rw [h'.parent, h.parent]
    by_cases h₁ : m ∈ ns <;> by_cases h₂ : m ∈ ns' <;> simp [h₁]
  kids := h'.kids
  others q hq := by
    rw [h'.others q hq, h.others q hq, filter_filter_not_mem]

theorem of_cut (hc : Cut s s' ns) (hr : Relinked s s') (h : Moved s' s'' p kids ns) :
    Moved s s'' p kids ns where
  size := h.size.trans hc.size
  rest := hr.trans h.rest
  parent m := by
    rw [h.parent, hc.parent]
    by_cases hm : m ∈ ns <;> simp [hm]
  kids := h.kids
  others q hq := by
    rw [h.others q hq, hc.children]
    simp

theorem not_loops (h : Moved s s' p kids ns) (hns : ∀ n ∈ ns, ¬ s.Within p n) : ¬ Loops s s' := by
  rintro ⟨m, q, hq, hne, hw⟩
  rw [h.parent] at hq
  split at hq
  · rename_i hm
    cases hq
    exact hns m hm hw
  · exact hne hq

end Moved

/-- The nodes that inserting a node moves: the children of a fragment, any other node itself. -/
def inserted (s : Store H) (n : NodeId) : List NodeId :=
  if (s.node n).kind = .fragment then s.children n else [n]

namespace IsForest

section

variable (h : s.IsForest)

include h

theorem moved_attach (hn : n < s.nodes.size) (hp : p < s.nodes.size)
    (hne : p ≠ n) (mark : Option NodeId) :
    Moved s (s.attach p mark n) p
      (putAllBefore mark [n] ((s.children p).filter (· ∉ [n]))) [n] := by
  have hcut := h.cut_detach n
  have hroot : (s.detach n).parent? n = none := by simp [parent?_detach]
  have hattach : s.attach p mark n = (s.detach n).attach p mark n := by
    rw [Store.attach, Store.attach, detach_eq_self hroot]
  have hr := rehung_attach mark (by rw [size_detach]; exact hn)
    (by rw [size_detach]; exact hp) hne hroot
  rw [← hattach] at hr
  refine ⟨hr.size.trans (size_detach s n), relinked_attach s p mark n, fun m => ?_, ?_,
    fun q hq => ?_⟩
  · rw [(hung_attach hn p mark).parent]
    simp
  · rw [children, hr.parent, putBefore_eq_putAllBefore]
    exact congrArg _ (hcut.children p)
  · rw [← hcut.children q]
    by_cases hqn : q = n
    · rw [hqn, children, hr.child n (.head _), children]
    · rw [children, hr.other q hq (by simpa using hqn), children]

theorem moved_foldl_attach (hp : p < s.nodes.size) (mark : Option NodeId) (ns : List NodeId)
    (hns : ∀ n ∈ ns, n < s.nodes.size ∧ (s.node n).kind ≠ .fragment ∧ ¬ s.Within p n)
    (hd : ns.Nodup) (hmark : ∀ n ∈ ns, mark ≠ some n) :
    Moved s (ns.foldl (fun s n => s.attach p mark n) s) p
      (putAllBefore mark ns ((s.children p).filter (· ∉ ns))) ns := by
  induction ns generalizing s with
  | nil =>
    have hkids : putAllBefore mark [] ((s.children p).filter (· ∉ [])) = s.children p := by
      have hself : (s.children p).filter (· ∉ []) = s.children p := by simp
      rw [hself]
      induction s.children p with
      | nil => rfl
      | cons m rest ih => simp [putAllBefore, ih]
    rw [hkids]
    exact .refl s p
  | cons n rest ih =>
    obtain ⟨hlt, hk, hnot⟩ := hns n (.head _)
    obtain ⟨hnr, hdr⟩ := nodup_cons.1 hd
    have hne : p ≠ n := fun e => hnot (e ▸ .refl)
    have hfirst := h.moved_attach hlt hp hne mark
    have hhung := hung_attach hlt p mark
    have hrest := ih (h.attach hlt hp hk hnot mark) (by rw [hhung.size]; exact hp)
      (fun m hm => by
        obtain ⟨hlt', hk', hnot'⟩ := hns m (.tail _ hm)
        rw [hhung.size, hhung.kind]
        exact ⟨hlt', hk', fun hw => hnot' (hhung.within hw hnot)⟩)
      hdr (fun m hm => hmark m (.tail _ hm))
    -- What is placed after the first node finds it right before the mark.
    have hkids : putAllBefore mark rest
        ((putAllBefore mark [n] ((s.children p).filter (· ∉ [n]))).filter (· ∉ rest)) =
          putAllBefore mark (n :: rest) ((s.children p).filter (· ∉ n :: rest)) := by
      have hkeep : [n].filter (fun m => decide (m ∉ rest)) = [n] := by simp [hnr]
      rw [filter_putAllBefore, hkeep, filter_filter_not_mem, putAllBefore_putAllBefore]
      · rfl
      · exact fun m hm => hmark m (mem_singleton.1 hm ▸ .head _)
      · exact fun m hm => decide_eq_true fun hmem => hmark m (.tail _ hmem) hm
    have hall := hfirst.trans hrest
    rw [hfirst.kids, hkids] at hall
    exact hall

/-- A node, or what a fragment holds, goes right before the mark, or to the end if there is no
mark; it also goes to the end if it is itself the mark. -/
theorem moved_insertAt (hn : n < s.nodes.size) (hp : p < s.nodes.size)
    (hnot : ¬ s.Within p n) (mark : Option NodeId) (hmark : ∀ m ∈ s.children n, mark ≠ some m) :
    Moved s (s.insertAt p mark n) p
      (putAllBefore mark (s.inserted n) ((s.children p).filter (· ∉ s.inserted n)))
      (s.inserted n) := by
  unfold Store.insertAt inserted
  split
  · have hcut := h.cut_empty n
    have hmoved := (h.cut hcut).moved_foldl_attach (by rw [hcut.size]; exact hp) mark
      (s.children n)
      (fun c hc => by
        rw [hcut.size, hcut.kind]
        refine ⟨h.lt_size_of_child hc, h.kind_ne_of_mem hc, fun hw => hnot ?_⟩
        have hw : s.Within p c := hw.mono fun _ _ => hcut.parent?_sub
        exact hw.tail ((h.linked c n).1 hc))
      (h.distinct n) hmark
    have hkids : ((s.empty n).children p).filter (· ∉ s.children n) =
        (s.children p).filter (· ∉ s.children n) := by
      rw [hcut.children]
      simp
    rw [hkids] at hmoved
    exact .of_cut hcut (relinked_empty s n) hmoved
  · exact h.moved_attach hn hp (fun e => hnot (e ▸ .refl)) mark

theorem not_within_inserted (hnot : ¬ s.Within p n) (hm : m ∈ s.inserted n) :
    ¬ s.Within p m := by
  unfold inserted at hm
  split at hm
  · exact fun hw => hnot (hw.tail ((h.linked m n).1 hm))
  · rwa [mem_singleton.1 hm]

theorem not_mem_inserted (hnot : ¬ s.Within p n) (hm : s.parent? m = some p)
    (hne : n ≠ m) : m ∉ s.inserted n := by
  unfold inserted
  split
  · rw [h.linked, hm]
    exact fun e => hnot (Option.some_inj.1 e ▸ .refl)
  · exact fun hmem => hne (mem_singleton.1 hmem).symm

theorem exists_children_split (hm : s.parent? m = some p) (hns : m ∉ ns) :
    ∃ pre post, (s.children p).filter (· ∉ ns) = pre ++ m :: post ∧ m ∉ pre :=
  eq_append_cons_of_mem (mem_filter.2 ⟨(h.linked m p).2 hm, decide_eq_true hns⟩)

theorem exists_insertBefore? (hn : n < s.nodes.size) (hnot : ¬ s.Within p n)
    (hm : m ∈ s.children p) :
    ∃ s', s.insertBefore? p n m = some s' ∧ s'.IsForest ∧ Moved s s' p
      (putAllBefore (some m) (s.inserted n) ((s.children p).filter (· ∉ s.inserted n)))
      (s.inserted n) := by
  have hparent : s.parent? m = some p := (h.linked m p).1 hm
  have hp : p < s.nodes.size := lt_size_of_mem_children hm
  have hmoved := h.moved_insertAt hn hp hnot (some m) fun c hc e => by
    cases e
    have hc := (h.linked m n).1 hc
    rw [hparent] at hc
    exact hnot (Option.some_inj.1 hc ▸ .refl)
  refine ⟨_, if_pos hparent, ?_, hmoved⟩
  exact h.insertAt hn hp (some m) (hmoved.not_loops fun a ha => h.not_within_inserted hnot ha)

end

end IsForest

end ReactiveMarkup.Dom.Store
