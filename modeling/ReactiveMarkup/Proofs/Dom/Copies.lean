/-
A copy of a tree is a tree of its own.

The copy of a node and of all below it consists of new nodes.  It looks like the
original, but for what listens to events, and reads the same.  Nothing of what was
there before has changed, and nothing of it changes when something is done to the
copy later, since no link leads from the copy to where the original is.

* `Store.copy_faithful`: copies of trees.
-/
import ReactiveMarkup.Proofs.Dom.Disposal

namespace ReactiveMarkup.Dom

open List

/-- What a node is without its place in a tree and without what listens to events. -/
def Node.bare {H : Type} (d : Node H) : Node H where
  kind := d.kind
  tag := d.tag
  data := d.data
  attributes := d.attributes
  properties := d.properties
  style := d.style
  owner := d.owner

/-- The nodes of a tree down to some depth, each with what is below it. -/
inductive Sketch (H : Type) where
  | cut
  | mk (node : Node H) (below : List (Sketch H))

namespace Store

variable {H α : Type} {s s' t t' : Store H} {m n p q c b : NodeId} {kind : Kind}
  {f : Node H → List α → α} {a : α} {k : Nat}

/-! ### Reading a tree -/

/-- What a tree comes to if `f` tells what a node comes to, given that of its children.  The tree is
read down to a depth, and `a` stands for what is below. -/
def reading (s : Store H) (f : Node H → List α → α) (a : α) : Nat → NodeId → α
  | 0, _ => a
  | k + 1, n => f (s.node n).bare ((s.children n).map (s.reading f a k))

def sketch (s : Store H) : Nat → NodeId → Sketch H := s.reading .mk .cut

/-- Whether a tree is no deeper than a number. -/
def fits (s : Store H) : Nat → NodeId → Bool := s.reading (fun _ below => below.all id) false

def htmlOf (d : Node H) (below : List String) : String :=
  match d.kind with
  | .text => escapeText d.data
  | .comment => "<!--" ++ d.data ++ "-->"
  | .document | .fragment => String.join below
  | .element =>
    if voidTags.contains d.tag then startTag d
    else startTag d ++ String.join below ++ "</" ++ d.tag ++ ">"

def textOf (d : Node H) (below : List String) : String :=
  match d.kind with
  | .text => d.data
  | .comment => ""
  | _ => String.join below

theorem htmlWithin_eq (s : Store H) (k : Nat) : s.htmlWithin k = s.reading htmlOf "" k := by
  induction k with
  | zero => rfl
  | succ k ih =>
    funext n
    rw [reading, ← ih]
    rfl

theorem textWithin_eq (s : Store H) (k : Nat) : s.textWithin k = s.reading textOf "" k := by
  induction k with
  | zero => rfl
  | succ k ih =>
    funext n
    rw [reading, ← ih]
    rfl

theorem reading_add (h : s.fits k n = true) (j : Nat) :
    s.reading f a (k + j) n = s.reading f a k n := by
  induction k generalizing n with
  | zero => cases h
  | succ k ih =>
    rw [Nat.add_right_comm]
    refine congrArg _ (map_congr_left fun c hc => ih ?_)
    exact all_eq_true.1 h _ (mem_map_of_mem hc)

theorem IsForest.fits (h : s.IsForest) (hk : s.nodes.size < k) (n : NodeId) :
    s.fits k n = true := by
  -- otherwise there is a node so far below
  have hdeep : ∀ k n, s.fits k n = false → ∃ q, s.ancestor? k q = some n := by
    intro k
    induction k with
    | zero => exact fun n _ => ⟨n, rfl⟩
    | succ k ih =>
      intro n hn
      obtain ⟨fit, hfit, hfalse⟩ := all_eq_false.1 hn
      obtain ⟨c, hc, rfl⟩ := mem_map.1 hfit
      obtain ⟨q, hq⟩ := ih c (Bool.eq_false_iff.2 hfalse)
      refine ⟨q, ?_⟩
      rw [ancestor?_add, hq]
      simp [ancestor?, (h.linked c n).1 hc]
  by_contra hn
  obtain ⟨q, hq⟩ := hdeep k n (Bool.eq_false_iff.2 hn)
  exact Nat.not_le_of_lt hk (h.le_size_of_ancestor? hq)

theorem Grown.reading (hg : Grown s s' m kind) (h : s.IsForest) (hq : q < s.nodes.size) (k : Nat) :
    s'.reading f a k q = s.reading f a k q := by
  induction k generalizing q with
  | zero => rfl
  | succ k ih =>
    rw [Store.reading, children, hg.old q hq]
    exact congrArg _ (map_congr_left fun c hc => ih (h.lt_size_of_child hc))

/-- What is read of a node does not change when a tree is hung somewhere else. -/
theorem reading_append (h : s.IsForest) (hr : Rehung s s' p (s.children p ++ [n]) (some p) [n])
    (hp : s.parent? p = none) (hq : q ≠ p) (k : Nat) :
    s'.reading f a k q = s.reading f a k q := by
  induction k generalizing q with
  | zero => rfl
  | succ k ih =>
    have hnode : (s'.node q).bare = (s.node q).bare ∧ s'.children q = s.children q := by
      by_cases hn : q = n
      · rw [children, hr.child q (mem_singleton.2 hn)]
        exact ⟨rfl, rfl⟩
      · rw [children, hr.other q hq (by simpa using hn)]
        exact ⟨rfl, rfl⟩
    rw [reading, hnode.1, hnode.2]
    refine congrArg _ (map_congr_left fun c hc => ih ?_)
    rintro rfl
    exact h.not_mem_of_parent? hp q hc

/-! ### Copying -/

/-- Some children of a node have been copied, to below a copy of the node. -/
structure Copying (s t : Store H) (n m : NodeId) (done : List NodeId) : Prop where
  grown : Grown s t m (s.node n).kind
  silent : ∀ q, s.nodes.size ≤ q → (t.node q).hearing = ([], [], [])
  node : (t.node m).bare = (s.node n).bare
  children : ∀ {α : Type} (f : Node H → List α → α) (a : α) (k : Nat),
    (t.children m).map (t.reading f a k) = done.map (s.reading f a k)

theorem Copying.reading (h : Copying s t n m (s.children n)) (k : Nat) :
    t.reading f a k m = s.reading f a k n := by
  cases k with
  | zero => rfl
  | succ k => rw [Store.reading, Store.reading, h.node, h.children]

theorem IsForest.copying_copyNode (h : s.IsForest) (n : NodeId) :
    Copying s (s.copyNode n).1 n (s.copyNode n).2 [] := by
  have hnode : (s.copyNode n).1.node (s.copyNode n).2 = (s.node n).bare := node_add_self s _
  refine ⟨h.grown_add rfl rfl, fun q hq => ?_, ?_, fun f a k => ?_⟩
  · rcases Nat.eq_or_lt_of_le hq with rfl | hq
    · exact congrArg _ hnode
    · rw [node_eq_of_size_le (s := (s.copyNode n).1) ((size_add s _).trans_le hq)]
      rfl
  · rw [hnode]
    rfl
  · rw [Store.children, hnode]
    rfl

theorem Copying.append {done : List NodeId} (ht : Copying s t n m done) (h : s.IsForest)
    (hc : c ∈ s.children n) {c' : NodeId} (ht' : Copying t t' c c' (t.children c)) :
    Copying s (t'.append m c') n m (done ++ [c]) := by
  have hlt := h.lt_size_of_child hc
  have hkind : (t.node c).kind ≠ .fragment := by
    rw [ht.grown.old c hlt]
    exact h.kind_ne_of_mem hc
  have hold : t'.node m = t.node m := ht'.grown.old m ht.grown.bound
  have hroot : t'.parent? m = none := (congrArg Node.parent hold).trans ht.grown.root
  have hne : m ≠ c' := Nat.ne_of_lt (Nat.lt_of_lt_of_le ht.grown.bound ht'.grown.new)
  have hr : Rehung t' (t'.append m c') m (t'.children m ++ [c']) (some m) [c'] :=
    rehung_append ht'.grown.bound (Nat.lt_of_lt_of_le ht.grown.bound ht'.grown.size_le) hne
      (ht'.grown.kind ▸ hkind) ht'.grown.root
  have hread : ∀ {α : Type} (f : Node H → List α → α) (a : α) (k : Nat) (q : NodeId), q ≠ m →
      (t'.append m c').reading f a k q = t'.reading f a k q :=
    fun f a k q hq => reading_append ht'.grown.forest hr hroot hq k
  refine ⟨ht.grown.append ht'.grown hkind, fun q hq => ?_, ?_, fun f a k => ?_⟩
  · have hsilent : (t'.node q).hearing = ([], [], []) := by
      rcases Nat.lt_or_ge q t.nodes.size with hq' | hq'
      · rw [ht'.grown.old q hq', ht.silent q hq]
      · exact ht'.silent q hq'
    by_cases hqm : q = m
    · rw [hqm, hr.parent, ← hsilent, hqm]
      rfl
    by_cases hqc : q = c'
    · rw [hr.child q (mem_singleton.2 hqc), ← hsilent]
      rfl
    · rw [hr.other q hqm (by simpa using hqc), hsilent]
  · rw [hr.parent, ← ht.node, ← hold]
    rfl
  · have hkids : (t'.append m c').children m = t.children m ++ [c'] := by
      rw [Store.children, hr.parent, Store.children, hold, Store.children]
    rw [hkids, map_append, map_append, ← ht.children, map_singleton, hread f a k c' hne.symm,
      ht'.reading, ht.grown.reading h hlt]
    refine congrArg (· ++ _) (map_congr_left fun q hq => ?_)
    have hqm : q ≠ m := fun e => ht.grown.forest.not_mem_of_parent? ht.grown.root m (e ▸ hq)
    rw [hread f a k q hqm, ht'.grown.reading ht.grown.forest (ht.grown.forest.lt_size_of_child hq)]

theorem IsForest.copying_copyWithin (h : s.IsForest) (fuel : Nat) (n : NodeId)
    (hfits : s.fits (fuel + 1) n = true) :
    Copying s (copyWithin fuel s n).1 n (copyWithin fuel s n).2 (s.children n) := by
  induction fuel generalizing s n with
  | zero =>
    have hnone : s.children n = [] := by
      refine eq_nil_iff_forall_not_mem.2 fun c hc => ?_
      exact absurd (all_eq_true.1 hfits _ (mem_map_of_mem hc)) Bool.false_ne_true
    rw [hnone]
    exact h.copying_copyNode n
  | succ fuel ih =>
    have hfold : ∀ (rest done : List NodeId) {t : Store H}, (∀ c ∈ rest, c ∈ s.children n) →
        Copying s t n (s.copyNode n).2 done →
        Copying s (rest.foldl (fun t c => (copyWithin fuel t c).1.append (s.copyNode n).2
          (copyWithin fuel t c).2) t) n (s.copyNode n).2 (done ++ rest) := by
      intro rest
      induction rest with
      | nil =>
        intro done t _ ht
        rw [append_nil]
        exact ht
      | cons c rest ihrest =>
        intro done t hrest ht
        obtain ⟨hc, hrest⟩ := forall_mem_cons.1 hrest
        -- the child stands as it did, and so it is no deeper
        have hdeep : t.fits (fuel + 1) c = true := by
          rw [Store.fits, ht.grown.reading h (h.lt_size_of_child hc)]
          exact all_eq_true.1 hfits _ (mem_map_of_mem hc)
        rw [append_cons]
        exact ihrest _ hrest (ht.append h hc (ih ht.grown.forest c hdeep))
    exact hfold (s.children n) [] (fun _ hc => hc) (h.copying_copyNode n)

/-! ### What is done to new nodes -/

/-- One thing that is done to nodes from `b` on: one is made, one gets other contents or other
listeners, one is put below another or taken out, the listening in one is stopped, one is copied. -/
inductive Step (b : NodeId) (s : Store H) : Store H → Prop
  | make (d : Node H) : d.parent = none → d.children = [] → Step b s (s.add d).1
  | edit (n : NodeId) (f : Node H → Node H) (next : ListenerId) : b ≤ n →
      (∀ d, (f d).parent = d.parent ∧ (f d).children = d.children) →
      Step b s { s.modify n f with nextListener := next }
  | insert (p : NodeId) (mark : Option NodeId) (n : NodeId) : b ≤ p → b ≤ n →
      Step b s (s.insertAt p mark n)
  | detach (n : NodeId) : b ≤ n → Step b s (s.detach n)
  | remove (p n : NodeId) {s' : Store H} : b ≤ p → s.removeChild? p n = some s' → Step b s s'
  | dispose (n : NodeId) : b ≤ n → Step b s (s.dispose n)
  | copy (n : NodeId) (deep : Bool) : b ≤ n → Step b s (s.copy n deep).1

/-- Nodes before `b` are as they were, and no link leads there from nodes from `b` on. -/
structure Apart (b : NodeId) (s t : Store H) : Prop where
  size : b ≤ t.nodes.size
  old : ∀ q, q < b → t.node q = s.node q
  parent : ∀ q p, b ≤ q → t.parent? q = some p → b ≤ p
  children : ∀ q, b ≤ q → ∀ c ∈ t.children q, b ≤ c

namespace Apart

theorem modify (h : Apart b s t) (hn : b ≤ n) {f : Node H → Node H}
    (hparent : ∀ p, (f (t.node n)).parent = some p → b ≤ p)
    (hchildren : ∀ c ∈ (f (t.node n)).children, b ≤ c) : Apart b s (t.modify n f) := by
  have hnode : ∀ q, (t.modify n f).node q = t.node q ∨
      q = n ∧ (t.modify n f).node q = f (t.node n) := by
    intro q
    by_cases hq : q = n
    · subst hq
      rcases Nat.lt_or_ge q t.nodes.size with hlt | hle
      · exact .inr ⟨rfl, node_modify_self f hlt⟩
      · rw [node_eq_of_size_le (by simpa using hle), node_eq_of_size_le hle]
        exact .inl rfl
    · exact .inl (node_modify_ne f hq)
  refine ⟨by simpa using h.size, fun q hq => ?_, fun q p hq hp => ?_, fun q hq c hc => ?_⟩
  · rw [node_modify_ne f (Nat.ne_of_lt (Nat.lt_of_lt_of_le hq hn)), h.old q hq]
  · rcases hnode q with heq | ⟨rfl, heq⟩ <;> rw [parent?, heq] at hp
    · exact h.parent q p hq hp
    · exact hparent p hp
  · rcases hnode q with heq | ⟨rfl, heq⟩ <;> rw [Store.children, heq] at hc
    · exact h.children q hq c hc
    · exact hchildren c hc

theorem foldl {β : Type} {g : Store H → β → Store H} (l : List β)
    (hg : ∀ t, Apart b s t → ∀ x ∈ l, Apart b s (g t x)) (h : Apart b s t) :
    Apart b s (l.foldl g t) := by
  induction l generalizing t with
  | nil => exact h
  | cons x l ih =>
    exact ih (fun t ht y hy => hg t ht y (.tail _ hy)) (hg t h x (.head _))

section

variable (h : Apart b s t)

include h

theorem add {d : Node H} (hp : d.parent = none) (hc : d.children = []) :
    Apart b s (t.add d).1 := by
  have hnode : ∀ q, (t.add d).1.node q = t.node q ∨ (t.add d).1.node q = d := by
    intro q
    by_cases hq : q = t.nodes.size
    · exact .inr (hq ▸ node_add_self t d)
    · exact .inl (node_add_ne d hq)
  refine ⟨?_, fun q hq => ?_, fun q p hq hqp => ?_, fun q hq c hqc => ?_⟩
  · exact Nat.le_of_lt (Nat.lt_of_le_of_lt h.size (by simp [Store.add]))
  · rw [node_add_ne d (Nat.ne_of_lt (Nat.lt_of_lt_of_le hq h.size)), h.old q hq]
  · rcases hnode q with heq | heq <;> rw [parent?, heq] at hqp
    · exact h.parent q p hq hqp
    · cases hp.symm.trans hqp
  · rcases hnode q with heq | heq <;> rw [Store.children, heq] at hqc
    · exact h.children q hq c hqc
    · rw [hc] at hqc
      cases hqc

theorem unlink (hp : b ≤ p) (hn : b ≤ n) :
    Apart b s ((t.modify p fun d => { d with children := d.children.erase n }).modify n
      fun d => { d with parent := none }) := by
  have hfirst : Apart b s (t.modify p fun d => { d with children := d.children.erase n }) :=
    h.modify hp (fun q hq => h.parent p q hp hq)
      fun c hc => h.children p hp c (mem_of_mem_erase hc)
  exact hfirst.modify hn (fun _ hq => by cases hq) (hfirst.children n hn)

theorem detach (hn : b ≤ n) : Apart b s (t.detach n) := by
  rw [Store.detach]
  split
  · exact h
  · rename_i p hp
    exact h.unlink (h.parent n p hn hp) hn

theorem attach (hp : b ≤ p) (hn : b ≤ n) (mark : Option NodeId) :
    Apart b s (t.attach p mark n) := by
  have hfirst := (h.detach hn).modify hn (f := fun d => { d with parent := some p })
    (fun q hq => Option.some_inj.1 hq ▸ hp) ((h.detach hn).children n hn)
  refine hfirst.modify hp (fun q hq => hfirst.parent p q hp hq) fun c hc => ?_
  rcases mem_cons.1 ((putBefore_perm mark n _).mem_iff.1 hc) with rfl | hc
  · exact hn
  · exact hfirst.children p hp c hc

theorem insertAt (hp : b ≤ p) (hn : b ≤ n) (mark : Option NodeId) :
    Apart b s (t.insertAt p mark n) := by
  rw [Store.insertAt]
  split
  · have hcleared : Apart b s (t.modify n fun d => { d with children := [] }) :=
      h.modify hn (fun q hq => h.parent n q hn hq) fun c hc => by cases hc
    have hempty : Apart b s (t.empty n) := by
      refine hcleared.foldl _ fun u hu c hc => ?_
      have hle := h.children n hn c hc
      exact hu.modify hle (fun q hq => by cases hq) (hu.children c hle)
    exact hempty.foldl _ fun u hu c hc => hu.attach hp (h.children n hn c hc) mark
  · exact h.attach hp hn mark

theorem disposeWithin (fuel : Nat) (hn : b ≤ n) :
    Apart b s (Store.disposeWithin fuel t n) := by
  induction fuel generalizing t n with
  | zero => exact h
  | succ fuel ih =>
    have hself : Apart b s
        (t.modify n fun d => { d with listeners := [], handlers := [], direct := [] }) :=
      h.modify hn (fun q hq => h.parent n q hn hq) (h.children n hn)
    exact hself.foldl _ fun u hu c hc => ih hu (hself.children n hn c hc)

theorem copyWithin (fuel : Nat) (hn : b ≤ n) :
    Apart b s (Store.copyWithin fuel t n).1 ∧ b ≤ (Store.copyWithin fuel t n).2 := by
  induction fuel generalizing t n with
  | zero => exact ⟨h.add rfl rfl, h.size⟩
  | succ fuel ih =>
    refine ⟨foldl _ (fun u hu c hc => ?_) (h.add rfl rfl), h.size⟩
    obtain ⟨hcopy, hnew⟩ := ih hu (h.children n hn c hc)
    exact hcopy.insertAt h.size hnew none

theorem step (hstep : Step b t t') : Apart b s t' := by
  cases hstep with
  | make d hp hc => exact h.add hp hc
  | edit n f next hn hf =>
    have hedit : Apart b s (t.modify n f) := by
      refine h.modify hn (fun q hq => ?_) fun c hc => ?_
      · exact h.parent n q hn ((hf _).1.symm.trans hq)
      · rw [(hf _).2] at hc
        exact h.children n hn c hc
    exact ⟨hedit.size, hedit.old, hedit.parent, hedit.children⟩
  | insert p mark n hp hn => exact h.insertAt hp hn mark
  | detach n hn => exact h.detach hn
  | remove p n hp hs =>
    rw [Store.removeChild?] at hs
    split at hs
    · rename_i hmem
      rw [← Option.some_inj.1 hs]
      exact h.unlink hp (h.children p hp n (contains_iff_mem.1 hmem))
    · cases hs
  | dispose n hn => exact h.disposeWithin _ hn
  | copy n deep hn =>
    cases deep with
    | true => exact (h.copyWithin _ hn).1
    | false => exact h.add rfl rfl

end

end Apart

/-- A link from an old node or to one was there before. -/
theorem Grown.lt_size_iff (hg : Grown s s' m kind) (h : s.IsForest) (hp : s'.parent? c = some p) :
    c < s.nodes.size ↔ p < s.nodes.size := by
  constructor
  · intro hc
    rw [parent?, hg.old c hc] at hp
    exact lt_size_of_mem_children ((h.linked c p).2 hp)
  · intro hlt
    have hc := (hg.forest.linked c p).2 hp
    rw [children, hg.old p hlt] at hc
    exact h.lt_size_of_child hc

theorem Grown.apart (hg : Grown s s' m kind) (h : s.IsForest) : Apart s.nodes.size s s' := by
  refine ⟨hg.size_le, hg.old, fun q p hq hp => ?_, fun q hq c hc => ?_⟩
  · exact Nat.le_of_not_lt (mt (hg.lt_size_iff h hp).2 (Nat.not_lt_of_le hq))
  · have hp := (hg.forest.linked c q).1 hc
    exact Nat.le_of_not_lt (mt (hg.lt_size_iff h hp).1 (Nat.not_lt_of_le hq))

theorem Grown.new_of_within (hg : Grown s s' m kind) (h : s.IsForest) (hq : s'.Within q m) :
    s.nodes.size ≤ q := by
  induction hq using Relation.ReflTransGen.head_induction_on with
  | refl => exact hg.new
  | head hp _ ih => exact Nat.le_of_not_lt (mt (hg.lt_size_iff h hp).1 (Nat.not_lt_of_le ih))

/-- **Copies of trees.**  A copy of a node and of all below it is a tree of its own, made of new
nodes that nothing listens at.  It looks like the original at every depth, and reads the same.  All
nodes that were there before are as they were, and stay so whatever is done to new nodes later. -/
theorem copy_faithful (h : s.IsForest) (hcopy : s.copy n true = (s', m)) :
    s'.IsForest ∧ s'.parent? m = none ∧
    (∀ q, s'.Within q m → s.nodes.size ≤ q ∧ (s'.node q).hearing = ([], [], [])) ∧
    (∀ k, s'.sketch k m = s.sketch k n) ∧
    s'.html m = s.html n ∧ s'.textContent m = s.textContent n ∧
    (∀ q, q < s.nodes.size → s'.node q = s.node q) ∧
    ∀ s'', Relation.ReflTransGen (Step s.nodes.size) s' s'' →
      ∀ q, q < s.nodes.size → s''.node q = s.node q := by
  have hfits := h.fits (Nat.lt_succ_self _) n
  have hc : Copying s s' n m (s.children n) := by
    have hc := h.copying_copyWithin s.nodes.size n hfits
    rw [Store.copy, if_pos rfl] at hcopy
    rwa [hcopy] at hc
  have hsize : ∃ j, s'.nodes.size + 1 = s.nodes.size + 1 + j :=
    Nat.exists_eq_add_of_le (Nat.succ_le_succ hc.grown.size_le)
  obtain ⟨j, hj⟩ := hsize
  refine ⟨hc.grown.forest, hc.grown.root, fun q hq => ?_, fun k => hc.reading k, ?_, ?_,
    hc.grown.old, fun s'' hrun => ?_⟩
  · have hnew := hc.grown.new_of_within h hq
    exact ⟨hnew, hc.silent q hnew⟩
  · rw [html, html, htmlWithin_eq, htmlWithin_eq, hc.reading, hj, reading_add hfits]
  · rw [textContent, textContent, textWithin_eq, textWithin_eq, hc.reading, hj, reading_add hfits]
  · have hend : Apart s.nodes.size s s'' := by
      induction hrun with
      | refl => exact hc.grown.apart h
      | tail _ hstep ih => exact ih.step hstep
    exact hend.old

def listened : Store Unit := (({} : Store Unit).newDocument.1.addListener 1 "click" ()).1

theorem copy_faithful_document : ∃ s' m, listened.copy 0 true = (s', m) ∧
    s'.html m = "<body></body>" ∧ s'.textContent m = "" ∧
    (s'.node 1).listeners.length = 1 ∧ (s'.node 3).listeners.length = 0 := by
  have hforest : listened.IsForest :=
    isForest_empty.grown_newDocument.forest.congr (sameTrees_addListener _ _ _ _)
  obtain ⟨-, -, -, -, hhtml, htext, -, -⟩ := copy_faithful hforest (rfl : listened.copy 0 true = _)
  exact ⟨_, _, rfl, hhtml.trans (by decide), htext.trans (by decide), rfl, rfl⟩

end Store

end ReactiveMarkup.Dom
