/-
What moving nodes changes.

A node that is appended, inserted or taken away changes in its link to its parent,
and the parent changes in the list of its children.  All other nodes stay as they
are.
-/
import Mathlib.Data.List.Nodup
import ReactiveMarkup.Dom.Node

namespace ReactiveMarkup.Dom.Store

open List

variable {H : Type} {s s' s'' : Store H} {n m p f mark : NodeId}

/-! ### Single nodes -/

@[simp] theorem size_modify (s : Store H) (n : NodeId) (f : Node H → Node H) :
    (s.modify n f).nodes.size = s.nodes.size := by
  simp [modify]

theorem node_modify_self (f : Node H → Node H) (h : n < s.nodes.size) :
    (s.modify n f).node n = f (s.node n) := by
  simp [node, modify, h, Array.getElem_modify_self]

theorem node_modify_ne (f : Node H → Node H) (h : m ≠ n) :
    (s.modify n f).node m = s.node m := by
  have h' : n ≠ m := fun e => h e.symm
  simp [node, modify, Array.getElem?_modify, h']

@[simp] theorem size_add (s : Store H) (d : Node H) :
    (s.add d).1.nodes.size = s.nodes.size + 1 := by
  simp [add]

theorem node_add_self (s : Store H) (d : Node H) : (s.add d).1.node s.nodes.size = d := by
  simp [node, add]

theorem node_add_ne (d : Node H) (h : m ≠ s.nodes.size) : (s.add d).1.node m = s.node m := by
  rcases Nat.lt_or_gt_of_ne h with h | h
  · simp [node, add, Array.getElem?_push, Nat.ne_of_lt h]
  · simp [node, add, Array.getElem?_push, Nat.ne_of_gt h]

/-- Only one node has changed. -/
structure Touched (s s' : Store H) (n : NodeId) (d : Node H) : Prop where
  size : s'.nodes.size = s.nodes.size
  self : s'.node n = d
  other : ∀ m, m ≠ n → s'.node m = s.node m

theorem touched_refl (s : Store H) (n : NodeId) : Touched s s n (s.node n) :=
  ⟨rfl, rfl, fun _ _ => rfl⟩

theorem touched_modify (f : Node H → Node H) (h : n < s.nodes.size) :
    Touched s (s.modify n f) n (f (s.node n)) :=
  ⟨size_modify s n f, node_modify_self f h, fun _ hm => node_modify_ne f hm⟩

theorem Touched.trans (h : Touched s s' n d) (h' : Touched s' s'' n d') : Touched s s'' n d' :=
  ⟨h'.size.trans h.size, h'.self, fun m hm => (h'.other m hm).trans (h.other m hm)⟩

/-! ### Nodes under a new parent -/

/-- The nodes `ns` have got the parent link `q`, and the children of `p` are now `kids`. -/
structure Rehung (s s' : Store H) (p : NodeId) (kids : List NodeId) (q : Option NodeId)
    (ns : List NodeId) : Prop where
  size : s'.nodes.size = s.nodes.size
  parent : s'.node p = { s.node p with children := kids }
  child : ∀ n ∈ ns, s'.node n = { s.node n with parent := q }
  other : ∀ m, m ≠ p → m ∉ ns → s'.node m = s.node m

namespace Rehung

variable {kids kids' ns ns' : List NodeId} {q : Option NodeId}

theorem refl (s : Store H) (p : NodeId) (q : Option NodeId) :
    Rehung s s p (s.node p).children q [] where
  size := rfl
  parent := rfl
  child := by simp
  other _ _ _ := rfl

theorem trans (h : Rehung s s' p kids q ns) (h' : Rehung s' s'' p kids' q ns')
    (hp : p ∉ ns) (hp' : p ∉ ns') : Rehung s s'' p kids' q (ns ++ ns') where
  size := h'.size.trans h.size
  parent := by rw [h'.parent, h.parent]
  child := by
    intro n hn
    have hne : n ≠ p := by
      rintro rfl
      exact (mem_append.1 hn).elim hp hp'
    by_cases hn' : n ∈ ns'
    · rw [h'.child n hn']
      by_cases hn₁ : n ∈ ns
      · rw [h.child n hn₁]
      · rw [h.other n hne hn₁]
    · rw [h'.other n hne hn', h.child n ((mem_append.1 hn).resolve_right hn')]
  other := by
    intro m hm hmem
    rw [mem_append, not_or] at hmem
    rw [h'.other m hm hmem.2, h.other m hm hmem.1]

end Rehung

theorem rehung_detach (hn : n < s.nodes.size) (hp : p < s.nodes.size) (hne : p ≠ n)
    (h : (s.node n).parent = some p) :
    Rehung s (s.detach n) p ((s.node p).children.erase n) none [n] := by
  have hd : s.detach n = (s.modify p fun d => { d with children := d.children.erase n }).modify n
      fun d => { d with parent := none } := by
    rw [detach, parent?, h]
  rw [hd]
  refine ⟨by simp, ?_, ?_, ?_⟩
  · rw [node_modify_ne _ hne, node_modify_self _ hp]
  · intro m hm
    obtain rfl := mem_singleton.1 hm
    rw [node_modify_self _ (by simpa using hn), node_modify_ne _ (Ne.symm hne)]
  · intro m hmp hmn
    rw [node_modify_ne _ (by simpa using hmn), node_modify_ne _ hmp]

theorem rehung_attach (mark : Option NodeId) (hn : n < s.nodes.size) (hp : p < s.nodes.size)
    (hne : p ≠ n) (h : (s.node n).parent = none) :
    Rehung s (s.attach p mark n) p (putBefore mark n (s.node p).children) (some p) [n] := by
  have hd : s.detach n = s := by rw [detach, parent?, h]
  rw [attach, hd]
  refine ⟨by simp, ?_, ?_, ?_⟩
  · rw [node_modify_self _ (by simpa using hp), node_modify_ne _ hne]
  · intro m hm
    obtain rfl := mem_singleton.1 hm
    rw [node_modify_ne _ (Ne.symm hne), node_modify_self _ hn]
  · intro m hmp hmn
    rw [node_modify_ne _ hmp, node_modify_ne _ (by simpa using hmn)]

theorem putBefore_none (n : NodeId) (kids : List NodeId) : putBefore none n kids = kids ++ [n] := by
  induction kids with
  | nil => rfl
  | cons m rest ih => simp [putBefore, ih]

variable {post pre : List NodeId}

theorem putBefore_mark (n : NodeId) (h : mark ∉ pre) :
    putBefore (some mark) n (pre ++ mark :: post) = pre ++ n :: mark :: post := by
  induction pre with
  | nil => simp [putBefore]
  | cons m rest ih =>
    have hm : mark ≠ m := fun e => h (by simp [e])
    simp [putBefore, hm, ih fun hr => h (.tail _ hr)]

theorem rehung_append (hn : n < s.nodes.size) (hp : p < s.nodes.size) (hne : p ≠ n)
    (hk : (s.node n).kind ≠ .fragment) (h : (s.node n).parent = none) :
    Rehung s (s.append p n) p ((s.node p).children ++ [n]) (some p) [n] := by
  have := rehung_attach none hn hp hne h
  rw [putBefore_none] at this
  rwa [append, insertAt, if_neg hk]

/-- A new node is the last child of `p`. -/
structure Sprouted (s s' : Store H) (p : NodeId) (d : Node H) : Prop where
  size : s'.nodes.size = s.nodes.size + 1
  parent : s'.node p = { s.node p with children := (s.node p).children ++ [s.nodes.size] }
  self : s'.node s.nodes.size = { d with parent := some p }
  other : ∀ m, m ≠ p → m ≠ s.nodes.size → s'.node m = s.node m

theorem sprouted_append (hp : p < s.nodes.size) (hk : d.kind ≠ .fragment) (hd : d.parent = none) :
    Sprouted s ((s.add d).1.append p s.nodes.size) p d := by
  have hne : p ≠ s.nodes.size := Nat.ne_of_lt hp
  have hself := node_add_self s d
  have hother := fun m (hm : m ≠ s.nodes.size) => node_add_ne d hm
  have hrehung := rehung_append (s := (s.add d).1)
    (by simp) (by simpa using Nat.lt_succ_of_lt hp) hne (by rw [hself]; exact hk)
    (by rw [hself]; exact hd)
  refine ⟨hrehung.size.trans (size_add s d), ?_, ?_, ?_⟩
  · rw [hrehung.parent, hother p hne]
  · rw [hrehung.child _ (by simp), hself]
  · intro m hmp hm
    rw [hrehung.other m hmp (by simpa using hm), hother m hm]

/-! ### Many nodes -/

theorem rehung_foldl_detach (ns : List NodeId) (hp : p < s.nodes.size)
    (hns : ∀ n ∈ ns, n < s.nodes.size ∧ (s.node n).parent = some p) (hd : ns.Nodup) (hpn : p ∉ ns)
    (hpre : ∀ n ∈ ns, n ∉ pre) (hkids : (s.node p).children = pre ++ ns ++ post) :
    Rehung s (ns.foldl detach s) p (pre ++ post) none ns := by
  induction ns generalizing s with
  | nil =>
    have := Rehung.refl s p none
    rwa [hkids, append_nil] at this
  | cons n rest ih =>
    rw [nodup_cons] at hd
    rw [mem_cons, not_or] at hpn
    have hstep : Rehung s (s.detach n) p (pre ++ rest ++ post) none [n] := by
      have hn := hns n (by simp)
      have := rehung_detach hn.1 hp hpn.1 hn.2
      rwa [hkids, append_assoc, cons_append,
        erase_append_right _ (hpre n (by simp)), erase_cons_head,
        ← append_assoc] at this
    have hrest := ih (by rw [hstep.size]; exact hp)
      (by
        intro m hm
        have hmn : m ≠ n := fun e => hd.1 (e ▸ hm)
        have hmp : m ≠ p := fun e => hpn.2 (e ▸ hm)
        rw [hstep.size, hstep.other m hmp (by simpa using hmn)]
        exact hns m (.tail _ hm))
      hd.2 hpn.2 (fun m hm => hpre m (.tail _ hm)) (by rw [hstep.parent])
    exact hstep.trans hrest (by simpa using hpn.1) hpn.2

theorem rehung_foldl_attach (ns : List NodeId) (hp : p < s.nodes.size)
    (hns : ∀ n ∈ ns, n < s.nodes.size ∧ (s.node n).parent = none) (hd : ns.Nodup) (hpn : p ∉ ns)
    (hmark : mark ∉ pre) (hmn : mark ∉ ns) (hkids : (s.node p).children = pre ++ mark :: post) :
    Rehung s (ns.foldl (fun s c => s.attach p (some mark) c) s) p (pre ++ ns ++ mark :: post)
      (some p) ns := by
  induction ns generalizing s pre with
  | nil =>
    have := Rehung.refl s p (some p)
    rw [hkids] at this
    simpa using this
  | cons n rest ih =>
    rw [nodup_cons] at hd
    rw [mem_cons, not_or] at hpn hmn
    have hstep : Rehung s (s.attach p (some mark) n) p ((pre ++ [n]) ++ mark :: post)
        (some p) [n] := by
      have hn := hns n (by simp)
      have := rehung_attach (some mark) hn.1 hp hpn.1 hn.2
      rw [hkids, putBefore_mark n hmark] at this
      simpa using this
    have hrest := ih (by rw [hstep.size]; exact hp)
      (by
        intro m hm
        have hm₁ : m ≠ n := fun e => hd.1 (e ▸ hm)
        have hm₂ : m ≠ p := fun e => hpn.2 (e ▸ hm)
        rw [hstep.size, hstep.other m hm₂ (by simpa using hm₁)]
        exact hns m (.tail _ hm))
      hd.2 hpn.2 (show mark ∉ pre ++ [n] by simp [hmark, hmn.1]) hmn.2 (by rw [hstep.parent])
    have := hstep.trans hrest (by simpa using hpn.1) hpn.2
    simpa using this

theorem rehung_empty (hf : f < s.nodes.size)
    (hns : ∀ n ∈ (s.node f).children, n < s.nodes.size) (hfn : f ∉ (s.node f).children) :
    Rehung s (s.empty f) f [] none (s.node f).children := by
  have key : ∀ (ns : List NodeId) (t : Store H), (∀ n ∈ ns, n < t.nodes.size) → f ∉ ns →
      Rehung t (ns.foldl (fun s c => s.modify c fun d => { d with parent := none }) t) f
        (t.node f).children none ns := by
    intro ns
    induction ns with
    | nil => intro t _ _; exact Rehung.refl t f none
    | cons n rest ih =>
      intro t ht hfn
      rw [mem_cons, not_or] at hfn
      have hstep : Rehung t (t.modify n fun d => { d with parent := none }) f
          (t.node f).children none [n] := by
        refine ⟨by simp, by rw [node_modify_ne _ hfn.1], ?_, ?_⟩
        · intro m hm
          obtain rfl := mem_singleton.1 hm
          exact node_modify_self _ (ht m (by simp))
        · intro m _ hm
          exact node_modify_ne _ (by simpa using hm)
      have hrest := ih (t.modify n fun d => { d with parent := none })
        (fun m hm => by simpa using ht m (.tail _ hm)) hfn.2
      have := hstep.trans hrest (by simpa using hfn.1) hfn.2
      rw [node_modify_ne _ hfn.1] at this
      exact this
  have hfirst : Rehung s (s.modify f fun d => { d with children := [] }) f [] none [] :=
    ⟨by simp, node_modify_self _ hf, by simp, fun m hm _ => node_modify_ne _ hm⟩
  have hrest := key (s.node f).children (s.modify f fun d => { d with children := [] })
    (fun n hn => by simpa using hns n hn) hfn
  have := hfirst.trans hrest (by simp) hfn
  rw [node_modify_self _ hf] at this
  exact this

theorem rehung_insertBefore? (hf : f < s.nodes.size) (hp : p < s.nodes.size)
    (hk : (s.node f).kind = .fragment) (hpf : p ≠ f)
    (hns : ∀ n ∈ (s.node f).children, n < s.nodes.size) (hd : (s.node f).children.Nodup)
    (hfn : f ∉ (s.node f).children) (hpn : p ∉ (s.node f).children)
    (hmark : (s.node mark).parent = some p) (hmpre : mark ∉ pre) (hmn : mark ∉ (s.node f).children)
    (hkids : (s.node p).children = pre ++ mark :: post) :
    ∃ s', s.insertBefore? p f mark = some s' ∧ s'.nodes.size = s.nodes.size ∧
      s'.node p = { s.node p with children := pre ++ (s.node f).children ++ mark :: post } ∧
      (∀ n ∈ (s.node f).children, s'.node n = { s.node n with parent := some p }) ∧
      (∀ m, m ≠ p → m ≠ f → m ∉ (s.node f).children → s'.node m = s.node m) := by
  have hempty := rehung_empty hf hns hfn
  have hpe : (s.empty f).node p = s.node p := hempty.other p hpf hpn
  have hfill := rehung_foldl_attach (s.node f).children
    (by rw [hempty.size]; exact hp)
    (by
      intro n hn
      rw [hempty.size, hempty.child n hn]
      exact ⟨hns n hn, rfl⟩)
    hd hpn hmpre hmn (by rw [hpe, hkids])
  refine ⟨_, by rw [insertBefore?, parent?, if_pos hmark], ?_, ?_, ?_, ?_⟩
  · rw [insertAt, if_pos hk]
    exact hfill.size.trans hempty.size
  · rw [insertAt, if_pos hk, children, hfill.parent, hpe]
  · intro n hn
    rw [insertAt, if_pos hk, children, hfill.child n hn, hempty.child n hn]
  · intro m hmp hmf hm
    rw [insertAt, if_pos hk, children, hfill.other m hmp hm, hempty.other m hmf hm]

end ReactiveMarkup.Dom.Store
