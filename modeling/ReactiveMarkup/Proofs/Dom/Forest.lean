/-
Nodes stand in trees.

A node is in the list of children of exactly the parent that it has a link to, and
is there once; fragments have no parent; and links to parents come to an end.  All
ways to move, make and copy nodes keep this, as long as no node is put into itself
or below itself.
-/
import Mathlib.Logic.Relation
import ReactiveMarkup.Dom.Insertion
import ReactiveMarkup.Dom.Markup
import ReactiveMarkup.Proofs.Dom.Moves

namespace ReactiveMarkup.Dom.Store

open List

variable {H : Type} {s s' s'' : Store H} {m n p q c : NodeId} {mark : Option NodeId}

/-! ### Trees -/

/-- Whether nodes stand in trees. -/
structure IsForest (s : Store H) : Prop where
  /-- A parent lists the nodes that have a link to it. -/
  linked : ∀ n p, n ∈ s.children p ↔ s.parent? n = some p
  /-- A parent lists a node once. -/
  distinct : ∀ p, (s.children p).Nodup
  rootless : ∀ n, (s.node n).kind = .fragment → s.parent? n = none
  /-- Links to parents come to an end. -/
  grounded : WellFounded fun p n => s.parent? n = some p

/-- Whether a node is another one or below it. -/
def Within (s : Store H) : NodeId → NodeId → Prop :=
  Relation.ReflTransGen fun n p => s.parent? n = some p

/-- Whether a node has got a parent that was the node itself or below it. -/
def Loops (s s' : Store H) : Prop :=
  ∃ n p, s'.parent? n = some p ∧ s.parent? n ≠ some p ∧ s.Within p n

theorem node_eq_of_size_le (h : s.nodes.size ≤ n) : s.node n = { kind := .fragment } := by
  simp [node, Array.getElem?_eq_none h]

theorem lt_size_of_parent? (h : s.parent? n = some p) : n < s.nodes.size := by
  by_contra hn
  rw [parent?, node_eq_of_size_le (Nat.le_of_not_lt hn)] at h
  cases h

theorem lt_size_of_mem_children (h : n ∈ s.children p) : p < s.nodes.size := by
  by_contra hp
  rw [children, node_eq_of_size_le (Nat.le_of_not_lt hp)] at h
  cases h

theorem Within.mono (h : s'.Within m n)
    (hsub : ∀ n p, s'.parent? n = some p → s.parent? n = some p) :
    s.Within m n :=
  Relation.ReflTransGen.mono hsub _ _ h

theorem ne_of_not_within (h : ¬ s.Within m n) : m ≠ n := fun hm => h (hm ▸ .refl)

theorem Within.eq_of_parent? (h : s.Within m n) (hm : s.parent? m = none) : m = n := by
  rcases Relation.ReflTransGen.cases_head h with h | ⟨p, hp, -⟩
  · exact h
  · cases hm.symm.trans hp

namespace IsForest

section

variable (h : s.IsForest)

include h

theorem not_within_of_parent? (hn : s.parent? n = some p) : ¬ s.Within p n := by
  induction n using h.grounded.induction generalizing p with
  | _ n ih =>
    intro hw
    rcases Relation.ReflTransGen.cases_head hw with rfl | ⟨q, hq, hw'⟩
    · exact ih p hn hn .refl
    · exact ih p hn hq (hw'.tail hn)

theorem ne_of_parent? (hn : s.parent? n = some p) : p ≠ n := by
  rintro rfl
  exact h.not_within_of_parent? hn .refl

theorem lt_size_of_child (hn : n ∈ s.children p) : n < s.nodes.size :=
  lt_size_of_parent? ((h.linked n p).1 hn)

theorem not_mem_of_parent? (hn : s.parent? n = none) (p : NodeId) :
    n ∉ s.children p := by
  rw [h.linked, hn]
  simp

theorem kind_ne_of_mem (hn : n ∈ s.children p) : (s.node n).kind ≠ .fragment := by
  intro hk
  cases (h.rootless n hk).symm.trans ((h.linked n p).1 hn)

theorem nodup_flatMap : ((List.range s.nodes.size).flatMap s.children).Nodup := by
  refine List.nodup_flatMap.2 ⟨fun p _ => h.distinct p, ?_⟩
  refine nodup_range.imp fun {p q} hpq n hp hq => hpq ?_
  exact Option.some_inj.1 (((h.linked n p).1 hp).symm.trans ((h.linked n q).1 hq))

end

end IsForest

/-! ### Nodes of the same trees -/

/-- Whether two stores differ in none of what makes up the trees. -/
structure SameTrees (s s' : Store H) : Prop where
  size : s'.nodes.size = s.nodes.size
  kind : ∀ n, (s'.node n).kind = (s.node n).kind
  parent : ∀ n, s'.parent? n = s.parent? n
  children : ∀ n, s'.children n = s.children n

namespace SameTrees

theorem refl (s : Store H) : SameTrees s s := ⟨rfl, fun _ => rfl, fun _ => rfl, fun _ => rfl⟩

theorem trans (h : SameTrees s s') (h' : SameTrees s' s'') : SameTrees s s'' :=
  ⟨h'.size.trans h.size, fun n => (h'.kind n).trans (h.kind n),
    fun n => (h'.parent n).trans (h.parent n), fun n => (h'.children n).trans (h.children n)⟩

theorem foldl {α : Type} {f} (hf : ∀ s a, SameTrees s (f s a)) (l : List α) :
    SameTrees s (l.foldl f s) := by
  induction l generalizing s with
  | nil => exact refl s
  | cons a l ih => exact (hf s a).trans ih

end SameTrees

theorem map_node_modify {β : Type} (g : Node H → β) (hf : ∀ d, g (f d) = g d) :
    g ((s.modify n f).node m) = g (s.node m) := by
  by_cases hm : m = n
  · subst hm
    by_cases hlt : m < s.nodes.size
    · rw [node_modify_self f hlt, hf]
    · have hle : s.nodes.size ≤ m := Nat.le_of_not_lt hlt
      rw [node_eq_of_size_le hle, node_eq_of_size_le (by simpa using hle)]
  · rw [node_modify_ne f hm]

theorem sameTrees_modify (s : Store H) (n : NodeId) (f : Node H → Node H)
    (hf : ∀ d, (f d).kind = d.kind ∧ (f d).parent = d.parent ∧ (f d).children = d.children) :
    SameTrees s (s.modify n f) :=
  ⟨size_modify s n f, fun _ => map_node_modify Node.kind fun d => (hf d).1,
    fun _ => map_node_modify Node.parent fun d => (hf d).2.1,
    fun _ => map_node_modify Node.children fun d => (hf d).2.2⟩

theorem IsForest.congr (h : s.IsForest) (hs : SameTrees s s') : s'.IsForest where
  linked n p := by rw [hs.children, hs.parent, h.linked]
  distinct p := by rw [hs.children]; exact h.distinct p
  rootless n hk := by rw [hs.parent]; exact h.rootless n (hs.kind n ▸ hk)
  grounded := by simpa only [hs.parent] using h.grounded

/-! ### Taking nodes away -/

structure Cut (s s' : Store H) (ns : List NodeId) : Prop where
  size : s'.nodes.size = s.nodes.size
  kind : ∀ n, (s'.node n).kind = (s.node n).kind
  parent : ∀ n, s'.parent? n = if n ∈ ns then none else s.parent? n
  children : ∀ p, s'.children p = (s.children p).filter (· ∉ ns)

theorem Cut.parent?_sub {ns} (hc : Cut s s' ns) (h : s'.parent? n = some p) :
    s.parent? n = some p := by
  rw [hc.parent] at h
  split at h
  · cases h
  · exact h

theorem IsForest.cut {ns} (h : s.IsForest) (hc : Cut s s' ns) : s'.IsForest where
  linked n p := by
    rw [hc.children, hc.parent, mem_filter, h.linked]
    by_cases hn : n ∈ ns <;> simp [hn]
  distinct p := by rw [hc.children]; exact (h.distinct p).filter _
  rootless n hk := by
    rw [hc.parent]
    split
    · rfl
    · exact h.rootless n (hc.kind n ▸ hk)
  grounded := Subrelation.wf hc.parent?_sub h.grounded

/-- Nodes that hang below one parent are cut off. -/
theorem Rehung.cut {kids ns} (h : s.IsForest) (hr : Rehung s s' p kids none ns)
    (hns : ∀ n ∈ ns, n ∈ s.children p) (hkids : kids = (s.children p).filter (· ∉ ns)) :
    Cut s s' ns := by
  refine ⟨hr.size, fun n => ?_, fun n => ?_, fun q => ?_⟩
  · by_cases hn : n ∈ ns
    · rw [hr.child n hn]
    · by_cases hnp : n = p
      · rw [hnp, hr.parent]
      · rw [hr.other n hnp hn]
  · by_cases hn : n ∈ ns
    · rw [parent?, hr.child n hn, if_pos hn]
    · rw [if_neg hn]
      by_cases hnp : n = p
      · rw [hnp, parent?, hr.parent, parent?]
      · rw [parent?, hr.other n hnp hn, parent?]
  · by_cases hq : q = p
    · rw [hq, Store.children, hr.parent, hkids]
    · -- Another parent has none of the nodes.
      have hsame : s'.children q = s.children q := by
        by_cases hn : q ∈ ns
        · rw [Store.children, hr.child q hn, Store.children]
        · rw [Store.children, hr.other q hq hn, Store.children]
      rw [hsame]
      refine (filter_eq_self.2 fun n hn => ?_).symm
      refine decide_eq_true fun hmem => hq ?_
      exact Option.some_inj.1
        (((h.linked n q).1 hn).symm.trans ((h.linked n p).1 (hns n hmem)))

theorem detach_eq_self (h : s.parent? n = none) : s.detach n = s := by
  rw [detach, h]

theorem IsForest.cut_detach (h : s.IsForest) (n : NodeId) : Cut s (s.detach n) [n] := by
  cases hn : s.parent? n with
  | none =>
    rw [detach_eq_self hn]
    refine ⟨rfl, fun _ => rfl, fun m => ?_, fun p => ?_⟩
    · by_cases hm : m = n <;> simp [hm, hn]
    · refine (filter_eq_self.2 fun m hm => decide_eq_true ?_).symm
      rw [mem_singleton]
      rintro rfl
      exact h.not_mem_of_parent? hn p hm
  | some p =>
    have hmem : n ∈ s.children p := (h.linked n p).2 hn
    have hne : p ≠ n := h.ne_of_parent? hn
    have hr := rehung_detach (lt_size_of_parent? hn) (lt_size_of_mem_children hmem) hne hn
    refine hr.cut h (fun m hm => mem_singleton.1 hm ▸ hmem) ?_
    refine ((h.distinct p).erase_eq_filter n).trans ?_
    exact filter_congr fun m _ => by by_cases hm : m = n <;> simp [hm]

theorem IsForest.detach (h : s.IsForest) (n : NodeId) : (s.detach n).IsForest :=
  h.cut (h.cut_detach n)

/-- A child is taken away as a node is taken from its parent. -/
theorem IsForest.removeChild? (h : s.IsForest) (hs : s.removeChild? p n = some s') :
    s' = s.detach n := by
  unfold Store.removeChild? at hs
  split at hs
  · rename_i hmem
    have hn : s.parent? n = some p := (h.linked n p).1 (contains_iff_mem.1 hmem)
    rw [← Option.some_inj.1 hs, Store.detach, hn]
  · cases hs

theorem IsForest.cut_empty (h : s.IsForest) (n : NodeId) : Cut s (s.empty n) (s.children n) := by
  by_cases hn : n < s.nodes.size
  · have hself : n ∉ s.children n := fun hmem => h.ne_of_parent? ((h.linked n n).1 hmem) rfl
    have hr := rehung_empty hn (fun c hc => h.lt_size_of_child hc) hself
    refine hr.cut h (fun c hc => hc) (Eq.symm ?_)
    rw [filter_eq_nil_iff]
    intro c hc
    simp [hc]
  · have hnil : s.children n = [] := by
      rw [children, node_eq_of_size_le (Nat.le_of_not_lt hn)]
    have hs : SameTrees s (s.empty n) := by
      rw [empty, hnil]
      have hm : s.modify n (fun d => { d with children := [] }) = s := by
        simp [modify, Array.modify, Array.modifyM, hn]
      rw [hm]
      exact .refl s
    refine ⟨hs.size, hs.kind, fun m => ?_, fun p => ?_⟩
    · simp [hs.parent, hnil]
    · rw [hs.children]
      simp [hnil]

/-! ### Hanging nodes below others -/

theorem putBefore_perm (mark : Option NodeId) (n : NodeId) (kids : List NodeId) :
    (putBefore mark n kids).Perm (n :: kids) := by
  induction kids with
  | nil => exact .refl _
  | cons m rest ih =>
    rw [putBefore]
    split
    · exact .refl _
    · exact (ih.cons m).trans (.swap n m rest)

/-- A node has been hung below a parent. -/
structure Hung (s s' : Store H) (p n : NodeId) : Prop where
  size : s'.nodes.size = s.nodes.size
  kind : ∀ m, (s'.node m).kind = (s.node m).kind
  parent : ∀ m, s'.parent? m = if m = n then some p else s.parent? m

theorem Hung.within (hh : Hung s s' p n) (hw : s'.Within m q) (hm : ¬ s.Within m n) :
    s.Within m q := by
  induction hw using Relation.ReflTransGen.head_induction_on with
  | refl => exact .refl
  | @head a b hstep _ ih =>
    -- The way up does not come past the node that has been hung elsewhere.
    have hab : s.parent? a = some b := by rwa [hh.parent, if_neg (ne_of_not_within hm)] at hstep
    exact .head hab (ih fun hb => hm (.head hab hb))

theorem hung_modify (hn : n < s.nodes.size) :
    Hung s (s.modify n fun d => { d with parent := some p }) p n := by
  refine ⟨size_modify s n _, fun m => map_node_modify Node.kind (by intro; rfl), fun m => ?_⟩
  by_cases hm : m = n
  · rw [if_pos hm, hm, parent?, node_modify_self _ hn]
  · rw [if_neg hm, parent?, node_modify_ne _ hm, parent?]

theorem parent?_detach (s : Store H) (n m : NodeId) :
    (s.detach n).parent? m = if m = n then none else s.parent? m := by
  cases hn : s.parent? n with
  | none =>
    rw [detach_eq_self hn]
    by_cases hm : m = n <;> simp [hm, hn]
  | some p =>
    rw [detach, hn]
    by_cases hm : m = n
    · rw [if_pos hm, hm, parent?, node_modify_self _ (by simpa using lt_size_of_parent? hn)]
    · rw [if_neg hm, parent?, node_modify_ne _ hm]
      exact map_node_modify Node.parent (by intro; rfl)

theorem size_detach (s : Store H) (n : NodeId) : (s.detach n).nodes.size = s.nodes.size := by
  unfold detach
  split <;> simp

theorem kind_detach (s : Store H) (n m : NodeId) :
    ((s.detach n).node m).kind = (s.node m).kind := by
  unfold detach
  split
  · rfl
  · rw [map_node_modify Node.kind (by intro; rfl), map_node_modify Node.kind (by intro; rfl)]

theorem hung_attach (hn : n < s.nodes.size) (p : NodeId) (mark : Option NodeId) :
    Hung s (s.attach p mark n) p n := by
  have hset : Hung (s.detach n) _ p n := hung_modify (by rw [size_detach]; exact hn)
  refine ⟨(size_modify _ p _).trans (hset.size.trans (size_detach s n)), fun m => ?_, fun m => ?_⟩
  · rw [attach, map_node_modify Node.kind (by intro; rfl), hset.kind, kind_detach]
  · rw [attach, parent?, map_node_modify Node.parent (by intro; rfl)]
    refine (hset.parent m).trans ?_
    rw [parent?_detach]
    by_cases hm : m = n <;> simp [hm]

theorem parent?_foldl_attach (ns : List NodeId) (hns : ∀ n ∈ ns, n < s.nodes.size)
    (hn : n ∈ ns ∨ s.parent? n = some p) :
    (ns.foldl (fun s n => s.attach p mark n) s).parent? n = some p := by
  induction ns generalizing s with
  | nil => exact hn.resolve_left not_mem_nil
  | cons m rest ih =>
    have hhung := hung_attach (hns m (.head _)) p mark
    refine ih (fun a ha => by rw [hhung.size]; exact hns a (.tail _ ha)) ?_
    rw [hhung.parent]
    by_cases hnm : n = m
    · exact .inr (if_pos hnm)
    · rw [if_neg hnm]
      exact hn.imp (fun h => (mem_cons.1 h).resolve_left hnm) id

namespace IsForest

/-- A node without a parent is hung below one that is not below it. -/
theorem hang (h : s.IsForest) (hn : n < s.nodes.size) (hp : p < s.nodes.size)
    (hroot : s.parent? n = none) (hk : (s.node n).kind ≠ .fragment) (hnot : ¬ s.Within p n)
    (mark : Option NodeId) : (s.attach p mark n).IsForest := by
  have hne := ne_of_not_within hnot
  have hhung := hung_attach hn p mark
  have hr := rehung_attach mark hn hp hne hroot
  have hnode : ∀ m, m ≠ n → m ≠ p → (s.attach p mark n).node m = s.node m := fun m hmn hmp =>
    hr.other m hmp (by simpa using hmn)
  have hkids : ∀ q, q ≠ p → (s.attach p mark n).children q = s.children q := by
    intro q hq
    by_cases hqn : q = n
    · rw [hqn, children, hr.child n (.head _), children]
    · rw [children, hnode q hqn hq, children]
  have hkidsp : (s.attach p mark n).children p = putBefore mark n (s.children p) := by
    rw [children, hr.parent, children]
  refine ⟨fun m q => ?_, fun q => ?_, fun m hkm => ?_, ?_⟩
  · rw [hhung.parent]
    by_cases hq : q = p
    · subst hq
      rw [hkidsp, (putBefore_perm mark n _).mem_iff, mem_cons, h.linked]
      by_cases hmn : m = n <;> simp [hmn]
    · rw [hkids q hq, h.linked]
      by_cases hmn : m = n
      · simp [hmn, hroot, Ne.symm hq]
      · simp [hmn]
  · by_cases hq : q = p
    · subst hq
      rw [hkidsp, (putBefore_perm mark n _).nodup_iff, nodup_cons]
      exact ⟨h.not_mem_of_parent? hroot q, h.distinct q⟩
    · rw [hkids q hq]
      exact h.distinct q
  · rw [hhung.parent]
    rw [hhung.kind] at hkm
    rw [if_neg (fun hmn : m = n => hk (hmn ▸ hkm))]
    exact h.rootless m hkm
  · -- The way up from the parent does not come past the node, so it ends; hence so do all others.
    have hstays : ∀ a, ¬ s.Within a n →
        Acc (fun q m => (s.attach p mark n).parent? m = some q) a := by
      intro a
      induction a using h.grounded.induction with
      | _ a ih =>
        intro ha
        refine Acc.intro a fun b hb => ?_
        have hab : s.parent? a = some b := by rwa [hhung.parent, if_neg (ne_of_not_within ha)] at hb
        exact ih b hab fun hbn => ha (.head hab hbn)
    refine ⟨fun a => ?_⟩
    induction a using h.grounded.induction with
    | _ a ih =>
      refine Acc.intro a fun b hb => ?_
      rw [hhung.parent] at hb
      split at hb
      · cases hb
        exact hstays p hnot
      · exact ih b hb

theorem attach (h : s.IsForest) (hn : n < s.nodes.size) (hp : p < s.nodes.size)
    (hk : (s.node n).kind ≠ .fragment) (hnot : ¬ s.Within p n) (mark : Option NodeId) :
    (s.attach p mark n).IsForest := by
  have hroot : (s.detach n).parent? n = none := by simp [parent?_detach]
  have hattach : s.attach p mark n = (s.detach n).attach p mark n := by
    rw [Store.attach, Store.attach, detach_eq_self hroot]
  rw [hattach]
  exact (h.detach n).hang (by rw [size_detach]; exact hn) (by rw [size_detach]; exact hp) hroot
    (by rw [kind_detach]; exact hk)
    (fun hw => hnot (hw.mono fun _ _ => (h.cut_detach n).parent?_sub)) mark

theorem foldl_attach (h : s.IsForest) (hp : p < s.nodes.size) (mark : Option NodeId)
    (ns : List NodeId)
    (hns : ∀ n ∈ ns, n < s.nodes.size ∧ (s.node n).kind ≠ .fragment ∧ ¬ s.Within p n) :
    (ns.foldl (fun s n => s.attach p mark n) s).IsForest := by
  induction ns generalizing s with
  | nil => exact h
  | cons n rest ih =>
    obtain ⟨hlt, hk, hnot⟩ := hns n (.head _)
    have hhung := hung_attach hlt p mark
    refine ih (h.attach hlt hp hk hnot mark) (by rw [hhung.size]; exact hp) fun m hm => ?_
    obtain ⟨hlt', hk', hnot'⟩ := hns m (.tail _ hm)
    rw [hhung.size, hhung.kind]
    exact ⟨hlt', hk', fun hw => hnot' (hhung.within hw hnot)⟩

/-- A node is put below another, unless it, or a node of the fragment, comes to be below itself. -/
theorem insertAt (h : s.IsForest) (hn : n < s.nodes.size) (hp : p < s.nodes.size)
    (mark : Option NodeId) (hloop : ¬ Loops s (s.insertAt p mark n)) :
    (s.insertAt p mark n).IsForest := by
  unfold Store.insertAt at hloop ⊢
  split
  · rename_i hk
    rw [if_pos hk] at hloop
    have hcut := h.cut_empty n
    refine (h.cut hcut).foldl_attach (by rw [hcut.size]; exact hp) mark _ fun c hc => ?_
    rw [hcut.size, hcut.kind]
    refine ⟨h.lt_size_of_child hc, h.kind_ne_of_mem hc, fun hw => ?_⟩
    have hparent : s.parent? c = some n := (h.linked c n).1 hc
    have hw : s.Within p c := hw.mono fun _ _ => hcut.parent?_sub
    by_cases hpn : p = n
    · -- The children of a fragment go back to where they were.
      exact h.not_within_of_parent? hparent (hpn ▸ hw)
    · refine hloop ⟨c, p, parent?_foldl_attach _ ?_ (.inl hc), ?_, hw⟩
      · intro a ha
        rw [hcut.size]
        exact h.lt_size_of_child ha
      · rw [hparent]
        exact fun heq => hpn (Option.some_inj.1 heq).symm
  · rename_i hk
    rw [if_neg hk] at hloop
    refine h.attach hn hp hk (fun hw => ?_) mark
    by_cases hparent : s.parent? n = some p
    · exact h.not_within_of_parent? hparent hw
    · refine hloop ⟨n, p, ?_, hparent, hw⟩
      rw [(hung_attach hn p mark).parent, if_pos rfl]

end IsForest

theorem size_insertAt (h : s.IsForest) (hn : n < s.nodes.size) (p : NodeId) (mark : Option NodeId) :
    (s.insertAt p mark n).nodes.size = s.nodes.size := by
  have hfold : ∀ (ns : List NodeId) (t : Store H), (∀ n ∈ ns, n < t.nodes.size) →
      (ns.foldl (fun s n => s.attach p mark n) t).nodes.size = t.nodes.size := by
    intro ns
    induction ns with
    | nil => exact fun _ _ => rfl
    | cons m rest ih =>
      intro t ht
      have hsize := (hung_attach (ht m (.head _)) p mark).size
      rw [foldl_cons, ih _ fun a ha => by rw [hsize]; exact ht a (.tail _ ha), hsize]
  unfold insertAt
  split
  · have hcut := h.cut_empty n
    rw [hfold _ _ fun c hc => by rw [hcut.size]; exact h.lt_size_of_child hc, hcut.size]
  · exact (hung_attach hn p mark).size

theorem place_eq (s : Store H) (p : NodeId) (mark : Option NodeId) (n : NodeId) :
    ∃ mark', s.place p mark n = s.insertAt p mark' n := by
  cases mark with
  | none => exact ⟨none, rfl⟩
  | some m =>
    unfold place insertBefore?
    dsimp only
    split
    · exact ⟨some m, rfl⟩
    · exact ⟨none, rfl⟩

/-! ### New nodes -/

theorem isForest_empty : ({} : Store H).IsForest where
  linked n p := by simp [children, parent?, node]
  distinct p := by simp [children, node]
  rootless n _ := by simp [parent?, node]
  grounded := ⟨fun n => ⟨n, fun p hp => absurd hp (by simp [parent?, node])⟩⟩

theorem IsForest.add (h : s.IsForest) (hp : d.parent = none) (hc : d.children = []) :
    (s.add d).1.IsForest := by
  have hnone : s.node s.nodes.size = { kind := .fragment } := node_eq_of_size_le (Nat.le_refl _)
  have hparent : ∀ n, (s.add d).1.parent? n = s.parent? n := by
    intro n
    by_cases hn : n = s.nodes.size
    · rw [hn, parent?, node_add_self, hp, parent?, hnone]
    · rw [parent?, node_add_ne d hn, parent?]
  have hchildren : ∀ n, (s.add d).1.children n = s.children n := by
    intro n
    by_cases hn : n = s.nodes.size
    · rw [hn, children, node_add_self, hc, children, hnone]
    · rw [children, node_add_ne d hn, children]
  refine ⟨fun n p => ?_, fun p => ?_, fun n hk => ?_, ?_⟩
  · rw [hparent, hchildren, h.linked]
  · rw [hchildren]
    exact h.distinct p
  · rw [hparent]
    by_cases hn : n = s.nodes.size
    · rw [hn, parent?, hnone]
    · rw [node_add_ne d hn] at hk
      exact h.rootless n hk
  · simpa only [hparent] using h.grounded

/-- A new tree has grown beside those that were there, with a root of some kind. -/
structure Grown (s s' : Store H) (n : NodeId) (k : Kind) : Prop where
  forest : s'.IsForest
  new : s.nodes.size ≤ n
  bound : n < s'.nodes.size
  root : s'.parent? n = none
  kind : (s'.node n).kind = k
  old : ∀ m, m < s.nodes.size → s'.node m = s.node m

theorem IsForest.grown_add (h : s.IsForest) (hp : d.parent = none) (hc : d.children = []) :
    Grown s (s.add d).1 (s.add d).2 d.kind where
  forest := h.add hp hc
  new := Nat.le_refl _
  bound := by simp [Store.add]
  root := (congrArg Node.parent (node_add_self s d)).trans hp
  kind := congrArg Node.kind (node_add_self s d)
  old m hm := node_add_ne d (Nat.ne_of_lt hm)

namespace Grown

variable {k k' : Kind}

theorem size_le (h : Grown s s' n k) : s.nodes.size ≤ s'.nodes.size :=
  Nat.le_of_lt (Nat.lt_of_le_of_lt h.new h.bound)

/-- What does not change the trees may be done to a tree that has grown. -/
theorem modify (h : Grown s s' n k) (hs : SameTrees s' (s'.modify n f)) :
    Grown s (s'.modify n f) n k := by
  refine ⟨h.forest.congr hs, h.new, ?_, ?_, ?_, fun m hm => ?_⟩
  · rw [hs.size]
    exact h.bound
  · rw [hs.parent]
    exact h.root
  · rw [hs.kind]
    exact h.kind
  · rw [node_modify_ne f (Nat.ne_of_lt (Nat.lt_of_lt_of_le hm h.new)), h.old m hm]

/-- A new tree is hung below the root of one that has grown before. -/
theorem append (h : Grown s s' n k) (h' : Grown s' s'' c k') (hk : k' ≠ .fragment) :
    Grown s (s''.append n c) n k := by
  have hnc : n < c := Nat.lt_of_lt_of_le h.bound h'.new
  have hroot : s''.parent? n = none := by
    rw [parent?, h'.old n h.bound]
    exact h.root
  have hn : n < s''.nodes.size := Nat.lt_trans hnc h'.bound
  have hkc : (s''.node c).kind ≠ .fragment := h'.kind ▸ hk
  have happend : s''.append n c = s''.attach n none c := by
    rw [Store.append, Store.insertAt, if_neg hkc]
  have hhung := hung_attach h'.bound n none
  rw [happend]
  refine ⟨h'.forest.attach h'.bound hn hkc (fun hw => ?_) none, h.new, ?_, ?_, ?_, fun m hm => ?_⟩
  · exact Nat.ne_of_lt hnc (hw.eq_of_parent? hroot)
  · rw [hhung.size]
    exact hn
  · rw [hhung.parent, if_neg (Nat.ne_of_lt hnc)]
    exact hroot
  · rw [hhung.kind, h'.old n h.bound]
    exact h.kind
  · have hmn : m < n := Nat.lt_of_lt_of_le hm h.new
    have hr := rehung_attach none h'.bound hn (Nat.ne_of_lt hnc) h'.root
    rw [hr.other m (Nat.ne_of_lt hmn) (by simpa using Nat.ne_of_lt (Nat.lt_trans hmn hnc)),
      h'.old m (Nat.lt_trans hmn h.bound), h.old m hm]

/-- New trees are hung below the root of one that has grown before, one after another. -/
theorem foldl {α : Type} {grow : Store H → α → Store H × NodeId} (l : List α)
    (hgrow : ∀ t, Grown s t n k → ∀ a ∈ l,
      ∃ k', k' ≠ .fragment ∧ Grown t (grow t a).1 (grow t a).2 k')
    (h : Grown s s' n k) :
    Grown s (l.foldl (fun t a => (grow t a).1.append n (grow t a).2) s') n k := by
  induction l generalizing s' with
  | nil => exact h
  | cons a l ih =>
    obtain ⟨k', hk, hnew⟩ := hgrow s' h a (.head _)
    exact ih (fun t ht b hb => hgrow t ht b (.tail _ hb)) (h.append hnew hk)

end Grown

namespace IsForest

theorem grown_copyWithin (h : s.IsForest) (fuel : Nat) (n : NodeId) :
    Grown s (copyWithin fuel s n).1 (copyWithin fuel s n).2 (s.node n).kind := by
  induction fuel generalizing s n with
  | zero => exact h.grown_add rfl rfl
  | succ fuel ih =>
    have hroot : Grown s (s.copyNode n).1 (s.copyNode n).2 (s.node n).kind := h.grown_add rfl rfl
    refine hroot.foldl (s.children n) fun t ht c hc => ?_
    -- A child stands as it did, and so it is no fragment.
    have hold : t.node c = s.node c := ht.old c (h.lt_size_of_child hc)
    exact ⟨_, hold ▸ h.kind_ne_of_mem hc, ih ht.forest c⟩

theorem grown_copy (h : s.IsForest) (n : NodeId) (deep : Bool) :
    Grown s (s.copy n deep).1 (s.copy n deep).2 (s.node n).kind := by
  cases deep with
  | true => exact h.grown_copyWithin s.nodes.size n
  | false => exact h.grown_add rfl rfl

theorem grown_create (h : s.IsForest) (document : NodeId) (kind : Kind) (tag data : String) :
    Grown s (s.create document kind tag data).1 (s.create document kind tag data).2 kind :=
  h.grown_add rfl rfl

theorem grown_newDocument (h : s.IsForest) :
    Grown s s.newDocument.1 s.newDocument.2 .document := by
  have hdoc : Grown s (s.add { kind := .document }).1 (s.add { kind := .document }).2 .document :=
    h.grown_add rfl rfl
  exact hdoc.append (hdoc.forest.grown_create _ .element "body" "") (by simp)

theorem grown_foldl_setAttribute (h : Grown s s' n k) (attributes : List (String × String)) :
    Grown s (attributes.foldl (fun s (a, v) => s.setAttribute n a v) s') n k := by
  induction attributes generalizing s' with
  | nil => exact h
  | cons a rest ih => exact ih (h.modify (sameTrees_modify s' n _ fun _ => ⟨rfl, rfl, rfl⟩))

mutual

theorem grown_plant (document : NodeId) : ∀ (tree : Html.Tree) {s : Store H}, s.IsForest →
    ∃ k, k ≠ .fragment ∧ Grown s (plant document tree s).1 (plant document tree s).2 k
  | .text data, _, h => ⟨.text, by simp, h.grown_create document .text "" data⟩
  | .comment data, _, h => ⟨.comment, by simp, h.grown_create document .comment "" data⟩
  | .element name attributes children, _, h => by
    refine ⟨.element, by simp, ?_⟩
    exact grown_plantAll document children
      (grown_foldl_setAttribute (h.grown_create document .element name "") attributes)

theorem grown_plantAll (document : NodeId) {k : Kind} : ∀ (trees : List Html.Tree) {s s' : Store H}
    {n : NodeId}, Grown s s' n k → Grown s (plant.plantAll document n trees s') n k
  | [], _, _, _, h => h
  | tree :: rest, _, _, _, h => by
    obtain ⟨k', hk, hnew⟩ := grown_plant document tree h.forest
    exact grown_plantAll document rest (h.append hnew hk)

end

theorem grown_template (h : s.IsForest) {document} {html}
    (ht : s.template document html = .ok (s', n)) : ∃ k, Grown s s' n k := by
  unfold template at ht
  split at ht
  · cases ht
  · rename_i tree _
    obtain ⟨k, -, hg⟩ := grown_plant document tree h
    rw [Except.ok.inj ht] at hg
    exact ⟨k, hg⟩
  · obtain ⟨rfl, rfl⟩ := Prod.mk.inj (Except.ok.inj ht)
    exact ⟨.fragment, grown_plantAll document _ (h.grown_create document .fragment "" "")⟩

end IsForest

/-! ### What leaves the trees alone -/

theorem sameTrees_disposeWithin (fuel : Nat) (s : Store H) (n : NodeId) :
    SameTrees s (disposeWithin fuel s n) := by
  induction fuel generalizing s n with
  | zero => exact .refl s
  | succ fuel ih =>
    refine (sameTrees_modify s n _ ?_).trans (.foldl ih _)
    exact fun _ => ⟨rfl, rfl, rfl⟩

section

variable (s : Store H) (n : NodeId)

theorem sameTrees_setData (data : String) :
    SameTrees s (s.setData n data) :=
  sameTrees_modify s n _ fun _ => ⟨rfl, rfl, rfl⟩

theorem sameTrees_setAttribute (name value : String) :
    SameTrees s (s.setAttribute n name value) :=
  sameTrees_modify s n _ fun _ => ⟨rfl, rfl, rfl⟩

theorem sameTrees_removeAttribute (name : String) :
    SameTrees s (s.removeAttribute n name) :=
  sameTrees_modify s n _ fun _ => ⟨rfl, rfl, rfl⟩

theorem sameTrees_setProperty (name : String) (value : Scalar) :
    SameTrees s (s.setProperty n name value) :=
  sameTrees_modify s n _ fun _ => ⟨rfl, rfl, rfl⟩

theorem sameTrees_setStyle (name value : String) :
    SameTrees s (s.setStyle n name value) :=
  sameTrees_modify s n _ fun _ => ⟨rfl, rfl, rfl⟩

theorem sameTrees_setValue (name : String) (value : Scalar) :
    SameTrees s (s.setValue n name value) := by
  unfold setValue
  dsimp only
  split
  · split
    · exact (sameTrees_removeAttribute s n name).trans (sameTrees_setProperty _ n name _)
    · exact sameTrees_removeAttribute s n name
  · split
    · exact sameTrees_setProperty s n name value
    · exact sameTrees_setAttribute s n name _

theorem sameTrees_addListener (event : String) (handler : H) :
    SameTrees s (s.addListener n event handler).1 := by
  obtain ⟨hsize, hkind, hparent, hchildren⟩ := sameTrees_modify s n
    (fun d => { d with listeners := d.listeners ++ [⟨s.nextListener, event, handler⟩] })
    fun _ => ⟨rfl, rfl, rfl⟩
  exact ⟨hsize, hkind, hparent, hchildren⟩

theorem sameTrees_removeListener (id : ListenerId) :
    SameTrees s (s.removeListener n id) :=
  sameTrees_modify s n _ fun _ => ⟨rfl, rfl, rfl⟩

theorem sameTrees_setHandler (event : String) (handler : H) :
    SameTrees s (s.setHandler n event handler) :=
  sameTrees_modify s n _ fun _ => ⟨rfl, rfl, rfl⟩

theorem sameTrees_clearHandler (event : String) :
    SameTrees s (s.clearHandler n event) :=
  sameTrees_modify s n _ fun _ => ⟨rfl, rfl, rfl⟩

theorem sameTrees_delegate (document : NodeId) (event : String) (walk : H) :
    SameTrees s (s.delegate document event walk) := by
  unfold delegate
  split
  · exact .refl s
  · refine (sameTrees_modify s document _ ?_).trans (sameTrees_addListener _ document event walk)
    exact fun _ => ⟨rfl, rfl, rfl⟩

theorem sameTrees_dispose : SameTrees s (s.dispose n) :=
  sameTrees_disposeWithin _ s n

theorem sameTrees_removeDirect (event : String) :
    SameTrees s (s.removeDirect n event) := by
  unfold removeDirect
  split
  · exact sameTrees_removeListener s n _
  · exact .refl s

theorem sameTrees_setEvent (document : Option NodeId) (event : String) (handler walk : H) :
    SameTrees s (s.setEvent n document event handler walk) := by
  unfold setEvent
  split
  · cases document with
    | none => exact sameTrees_setHandler s n event handler
    | some document =>
      exact (sameTrees_setHandler s n event handler).trans
        (sameTrees_delegate _ document event walk)
  · refine ((sameTrees_removeDirect s n event).trans
      (sameTrees_addListener _ n event handler)).trans
      (sameTrees_modify _ n _ ?_)
    exact fun _ => ⟨rfl, rfl, rfl⟩

theorem sameTrees_removeEvent (event : String) :
    SameTrees s (s.removeEvent n event) :=
  (sameTrees_removeDirect s n event).trans (sameTrees_clearHandler _ n event)

theorem size_discard : (s.discard n).nodes.size = s.nodes.size :=
  (sameTrees_dispose _ n).size.trans (size_detach s n)

end

theorem IsForest.discard (h : s.IsForest) (n : NodeId) : (s.discard n).IsForest :=
  (h.detach n).congr (sameTrees_dispose _ n)

theorem IsForest.foldl_discard (h : s.IsForest) (ns : List NodeId) :
    (ns.foldl Store.discard s).IsForest ∧ (ns.foldl Store.discard s).nodes.size = s.nodes.size := by
  induction ns generalizing s with
  | nil => exact ⟨h, rfl⟩
  | cons n rest ih =>
    obtain ⟨hf, hsize⟩ := ih (h.discard n)
    exact ⟨hf, hsize.trans (s.size_discard n)⟩

/-! ### The way up -/

/-- The node so many links above a node. -/
def ancestor? (s : Store H) : Nat → NodeId → Option NodeId
  | 0, n => some n
  | k + 1, n => (s.parent? n).bind (s.ancestor? k)

theorem IsForest.exists_ancestor?_eq_none (h : s.IsForest) (n : NodeId) :
    ∃ k, s.ancestor? k n = none := by
  induction n using h.grounded.induction with
  | _ n ih =>
    cases hn : s.parent? n with
    | none => exact ⟨1, by simp [ancestor?, hn]⟩
    | some p =>
      obtain ⟨k, hk⟩ := ih p hn
      exact ⟨k + 1, by simp [ancestor?, hn, hk]⟩

theorem ancestor?_eq_none_of_le (h : s.ancestor? k n = none) (hkl : k ≤ l) :
    s.ancestor? l n = none := by
  induction k generalizing n l with
  | zero => exact absurd h (by simp [ancestor?])
  | succ k ih =>
    obtain ⟨l, rfl⟩ : ∃ j, l = j + 1 := ⟨l - 1, by omega⟩
    cases hn : s.parent? n with
    | none => simp [ancestor?, hn]
    | some p =>
      simp only [ancestor?, hn] at h ⊢
      exact ih h (Nat.le_of_succ_le_succ hkl)

theorem Within.exists_ancestor? (h : s.Within m n) : ∃ k, s.ancestor? k m = some n := by
  induction h using Relation.ReflTransGen.head_induction_on with
  | refl => exact ⟨0, rfl⟩
  | head hp _ ih =>
    obtain ⟨k, hk⟩ := ih
    exact ⟨k + 1, by simp [ancestor?, hp, hk]⟩

/-- Whether each node that has got another parent is not above that parent.  The way up from the
parent is looked at as far as there are nodes, which has to be all of it. -/
def clears (s s' : Store H) : Bool :=
  (List.range s'.nodes.size).all fun n =>
    match s'.parent? n with
    | none => true
    | some p => s.parent? n == some p || ((s.ancestor? s.nodes.size p).isNone &&
        (List.range s.nodes.size).all fun k => s.ancestor? k p != some n)

theorem not_loops_self (s : Store H) : ¬ Loops s s := by
  rintro ⟨n, p, hp, hne, -⟩
  exact hne hp

theorem not_loops_of_parent? (h : ∀ n p, s'.parent? n = some p → s.parent? n = some p) :
    ¬ Loops s s' := by
  rintro ⟨n, p, hp, hne, -⟩
  exact hne (h n p hp)

theorem SameTrees.not_loops (h : SameTrees s s') : ¬ Loops s s' :=
  not_loops_of_parent? fun n _ hp => (h.parent n).symm.trans hp

theorem not_loops_of_clears (h : s.clears s' = true) : ¬ Loops s s' := by
  rintro ⟨n, p, hp, hne, hw⟩
  have hn := all_eq_true.1 h n (mem_range.2 (lt_size_of_parent? hp))
  rw [hp] at hn
  simp only [Bool.or_eq_true, beq_iff_eq, hne, false_or, Bool.and_eq_true,
    Option.isNone_iff_eq_none,
    all_eq_true, mem_range, bne_iff_ne] at hn
  obtain ⟨hend, hnot⟩ := hn
  obtain ⟨k, hk⟩ := hw.exists_ancestor?
  by_cases hlt : k < s.nodes.size
  · exact hnot k hlt hk
  · rw [ancestor?_eq_none_of_le hend (Nat.le_of_not_lt hlt)] at hk
    cases hk

end ReactiveMarkup.Dom.Store
