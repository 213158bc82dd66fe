/-
Running the effect of a chain or of a repetition.

Such an effect takes away the nodes of its last run, which are neighbours before its
anchor, builds new ones into fragments, and places them before the anchor.  It makes
no difference whether it runs for the first time or again.
-/
import ReactiveMarkup.Proofs.Output.Building

namespace ReactiveMarkup.Output

open Dom (NodeId Kind Store)
open Template List State Statement Output.Frame

variable {V : Type} {o : List Nat} {frame frame' : Frame V} {s s' s'' : State V}
  {p a c : Nat} {pre old post kids kids' content content' : List NodeId} {F F' : Footprint}

/-! ### The place before an anchor -/

/-- Among the children of `p` the nodes `pre` stand before the anchor `a`. -/
structure Gap (s : State V) (p a : NodeId) (pre post : List NodeId) : Prop where
  valid : p < s.dom.nodes.size
  anchor : Hangs s a p .comment
  ne : a ≠ p
  kids : (s.dom.node p).children = pre ++ a :: post
  before : a ∉ pre

/-- The nodes `old` of the last run stand right before the anchor, and the cell `c` holds them. -/
structure Slot (s : State V) (p a c : Nat) (pre old post : List NodeId) : Prop
    extends Gap s p a (pre ++ old) post where
  kept : ∀ n ∈ old, n < s.dom.nodes.size ∧ (s.dom.node n).parent = some p ∧ n ∉ pre ∧ n ≠ p
  nodup : old.Nodup
  cell : s.cells[c]? = some old

/-- The children of `p` are now `kids` and the cell `c` holds `content`; besides, only the nodes
`old` may have changed. -/
structure Refilled (s s' : State V) (p c : Nat) (kids old content : List NodeId)
    (F : Footprint) : Prop extends Added s s' F where
  parent : s'.dom.node p = { s.dom.node p with children := kids }
  node : ∀ n < s.dom.nodes.size, n ≠ p → n ∉ old → s'.dom.node n = s.dom.node n
  content : s'.cells[c]? = some content
  cell : ∀ d < s.cells.length, d ≠ c → s'.cells[d]? = s.cells[d]?

theorem Refilled.trans (h : Refilled s s' p c kids old content F) {roots}
    (hF : Placed s' p o roots F) (h' : Refilled s' s'' p c kids' [] content' F') :
    Refilled s s'' p c kids' old content' (F ++ F') where
  toAdded := h.toAdded.append hF h'.toAdded
  parent := by rw [h'.parent, h.parent]
  node := by
    intro n hn hp hold
    rw [h'.node n (Nat.lt_of_lt_of_le hn h.size) hp (by simp), h.node n hn hp hold]
  content := h'.content
  cell := by
    intro d hd hne
    rw [h'.cell d (Nat.lt_of_lt_of_le hd h.cells) hne, h.cell d hd hne]

theorem Refilled.agree (h : Refilled s s' p c kids [] content F) {roots}
    (hF : Placed s q o roots F') (hp : p ∉ F'.nodes) (hc : c ∉ F'.cells) : Agree s s' q q F' := by
  refine .of_eq h.size ?_ (fun d hd => h.cell d (hF.cell d hd) fun e => hc (e ▸ hd)) fun e he =>
    h.effect e (hF.effect_lt he)
  intro n hn
  exact h.node n (hF.node n hn) (fun e => hp (e ▸ hn)) (by simp)

/-- New nodes stand right before the anchor. -/
theorem Gap.refilled {roots} (h : Gap s p a pre post)
    (h' : Refilled s s' p c (pre ++ roots ++ a :: post) [] content F) (hF : Placed s' p o roots F) :
    Gap s' p a (pre ++ roots) post := by
  have ha : s'.dom.node a = s.dom.node a := h'.node a h.anchor.valid h.ne (by simp)
  refine ⟨Nat.lt_of_lt_of_le h.valid h'.size, h.anchor.keep h'.size (by rw [ha]) (by rw [ha]), h.ne,
    ?_, ?_⟩
  · rw [h'.parent]
  · refine not_mem_append h.before fun hmem => absurd h.anchor.valid ?_
    exact Nat.not_lt.2 (h'.newNode a (hF.sublist.subset hmem))

/-! ### Noting what was read -/

theorem Gap.refill_nothing (h : Gap s p a pre post) (hcell : s.cells[c]? = some content) :
    Refilled s s p c (pre ++ a :: post) [] content .empty where
  toAdded := .same rfl rfl rfl
  parent := by rw [← h.kids]
  node _ _ _ _ := rfl
  content := hcell
  cell _ _ _ := rfl

section Noting

variable {G : List Local} {e k : Nat} {σ : Scope V} {label : String} {body : List Statement}
  {reads : List (Read V)}

theorem State.getElem?_setReads_ne (reads : List (Read V)) (h : f ≠ e) :
    (s.setReads e reads).effects[f]? = s.effects[f]? := by
  show (s.effects.modify e _)[f]? = _
  simp [Ne.symm h]

theorem State.getElem?_setReads_self (reads : List (Read V)) (h : s.effects[e]? = some r) :
    (s.setReads e reads).effects[e]? = some { r with reads } := by
  show (s.effects.modify e _)[e]? = _
  rw [getElem?_modify, h]
  simp

theorem agree_setReads (reads : List (Read V)) (he : e ∉ F.effects) :
    Agree s (s.setReads e reads) p p F :=
  .of_eq (Nat.le_refl _) (fun _ _ => rfl) (fun _ _ => rfl)
    fun _ hf => getElem?_setReads_ne reads fun h => he (h ▸ hf)

/-- After its effect has run, a chain or a repetition has new content. -/
theorem Control.refilled (h : Control G s label k body p o σ a c e old reads)
    (h' : Refilled s s' p c kids old content F) (ha : a ∉ old) (hne : a ≠ p)
    (reads' : List (Read V)) :
    Control G (s'.setReads e reads') label k body p o σ a c e content reads' := by
  have hnode : (s'.setReads e reads').dom.node a = s.dom.node a :=
    h'.node a h.hangs.valid hne ha
  obtain ⟨env, he, henv⟩ := h.effect
  have hlt : e < s.effects.length := (List.getElem?_eq_some_iff.1 he).1
  refine ⟨h.hangs.keep h'.size (by rw [hnode]) (by rw [hnode]), ?_, h'.content, ⟨env, ?_, henv⟩,
    h.clear, h.names, h.locals⟩
  · rw [hnode]
    exact h.label
  · exact getElem?_setReads_self reads' ((h'.effect e hlt).trans he)

end Noting

/-! ### Clearing and placing -/

section Placing

variable {m : Meaning V} {x y : Local} {roots : List NodeId}

def State.withFragment (s : State V) : State V :=
  s.withDom (s.dom.create s.document .fragment "" "").1

theorem State.size_withFragment (s : State V) :
    s.withFragment.dom.nodes.size = s.dom.nodes.size + 1 :=
  Store.size_add s.dom _

theorem State.node_withFragment_ne {n : NodeId} (h : n ≠ s.dom.nodes.size) :
    s.withFragment.dom.node n = s.dom.node n :=
  Store.node_add_ne _ h

theorem State.node_withFragment_self (s : State V) :
    s.withFragment.dom.node s.dom.nodes.size =
      { kind := .fragment, tag := Text.lowered "", data := "", owner := some s.document } :=
  Store.node_add_self s.dom _

section Fragment

variable {n : NodeId} (hbuilt : Built s.withFragment s' s.dom.nodes.size roots F)

include hbuilt

theorem Built.fragment_lt_of_mem (hn : n ∈ F.nodes) : s.dom.nodes.size < n := by
  have := hbuilt.newNode n hn
  rw [size_withFragment] at this
  exact Nat.lt_of_succ_le this

theorem Built.fragment_lt_size : s.dom.nodes.size < s'.dom.nodes.size := by
  have := hbuilt.size
  rw [size_withFragment] at this
  exact Nat.lt_of_succ_le this

theorem Built.node_of_lt_fragment (hn : n < s.dom.nodes.size) :
    s'.dom.node n = s.dom.node n := by
  have hne : n ≠ s.dom.nodes.size := Nat.ne_of_lt hn
  have hlt : n < s.withFragment.dom.nodes.size := by
    rw [size_withFragment]
    exact Nat.lt_succ_of_lt hn
  rw [hbuilt.node n hlt hne, node_withFragment_ne hne]

theorem Built.node_fragment : s'.dom.node s.dom.nodes.size =
    { s.withFragment.dom.node s.dom.nodes.size with children := roots } := by
  rw [hbuilt.parent, node_withFragment_self]
  rfl

theorem Gap.exists_insert (hgap : Gap s p a pre post) (hF : Placed s' s.dom.nodes.size o roots F) :
    ∃ dom, s'.dom.insertBefore? p s.dom.nodes.size a = some dom ∧
      dom.nodes.size = s'.dom.nodes.size ∧
      dom.node p = { s.dom.node p with children := pre ++ roots ++ a :: post } ∧
      (∀ n ∈ roots, dom.node n = { s'.dom.node n with parent := some p }) ∧
      (∀ n, n ≠ p → n ≠ s.dom.nodes.size → n ∉ roots → dom.node n = s'.dom.node n) := by
  have hroots : ∀ n ∈ roots, s.dom.nodes.size < n :=
    fun n hn => hbuilt.fragment_lt_of_mem (hF.sublist.subset hn)
  have hchildren : (s'.dom.node s.dom.nodes.size).children = roots := by rw [hbuilt.node_fragment]
  have hgrow := hbuilt.fragment_lt_size
  obtain ⟨dom, hinsert, hsize, hparent, hmoved, hother⟩ :=
    Store.rehung_insertBefore? hgrow
      (Nat.lt_trans hgap.valid hgrow)
      (by rw [hbuilt.node_fragment, node_withFragment_self]) (Nat.ne_of_lt hgap.valid)
      (by rw [hchildren]; exact fun n hn => hF.node n (hF.sublist.subset hn))
      (by rw [hchildren]; exact hbuilt.nodup.nodes.sublist hF.sublist)
      (by rw [hchildren]; exact fun hm => Nat.lt_irrefl _ (hroots _ hm))
      (by rw [hchildren]; exact fun hm => Nat.lt_asymm hgap.valid (hroots _ hm))
      (by rw [hbuilt.node_of_lt_fragment hgap.anchor.valid]; exact hgap.anchor.parent) hgap.before
      (by rw [hchildren]; exact fun hm => Nat.lt_asymm hgap.anchor.valid (hroots _ hm))
      ((congrArg Dom.Node.children (hbuilt.node_of_lt_fragment hgap.valid)).trans hgap.kids)
  rw [hchildren] at hparent hmoved hother
  rw [hbuilt.node_of_lt_fragment hgap.valid] at hparent
  exact ⟨dom, hinsert, hsize, hparent, hmoved, hother⟩

variable [Presentable V]

theorem run_place (hgap : Gap s p a pre post) (hc : c < s.cells.length)
    (hF : Placed s' s.dom.nodes.size o roots F)
    (hx : frame.env.get? x.name = some (.node s.dom.nodes.size))
    (hy : frame.env.get? y.name = some (.node a)) (content : List NodeId) :
    ∃ s'', (place x y).run m o frame (s'.setCell c content) = some (frame, s'', []) ∧
      Refilled s s'' p c (pre ++ roots ++ a :: post) [] content F ∧
      Agree s' s'' s.dom.nodes.size p F ∧ s.dom.nodes.size ∉ F.nodes := by
  have hnew : ∀ n ∈ F.nodes, s.dom.nodes.size < n := fun n hn => hbuilt.fragment_lt_of_mem hn
  obtain ⟨dom, hinsert, hsize, hparent, hmoved, hother⟩ := hgap.exists_insert hbuilt hF
  refine ⟨(s'.setCell c content).withDom dom, ?_, ?_, ?_, fun hm => Nat.lt_irrefl _ (hnew _ hm)⟩
  · rw [run, node?_eq hx, node?_eq hy]
    show ((s'.dom.node a).parent).bind _ = _
    rw [hbuilt.node_of_lt_fragment hgap.anchor.valid, hgap.anchor.parent]
    show (s'.dom.insertBefore? p _ a).bind _ = _
    rw [hinsert]
    rfl
  · refine ⟨⟨?_, ?_, hbuilt.effects, hbuilt.effect, ?_, hbuilt.newCell, hbuilt.newEffect,
      hbuilt.nodup, hbuilt.all⟩, hparent, ?_, ?_, ?_⟩
    · show s.dom.nodes.size ≤ dom.nodes.size
      rw [hsize]
      exact Nat.le_of_lt hbuilt.fragment_lt_size
    · show s.cells.length ≤ (s'.cells.set c content).length
      rw [length_set]
      exact hbuilt.cells
    · exact fun n hn => Nat.le_of_lt (hnew n hn)
    · intro n hn hp _
      have hroot : n ∉ roots := fun hm => Nat.lt_asymm hn (hnew n (hF.sublist.subset hm))
      show dom.node n = _
      rw [hother n hp (Nat.ne_of_lt hn) hroot, hbuilt.node_of_lt_fragment hn]
    · have hcell : c < s'.cells.length := Nat.lt_of_lt_of_le hc hbuilt.cells
      show (s'.cells.set c content)[c]? = _
      simp [hcell]
    · intro d hd hne
      show (s'.cells.set c content)[d]? = _
      rw [getElem?_set_ne (Ne.symm hne)]
      exact hbuilt.cell d hd
  · refine ⟨Nat.le_of_eq hsize.symm, ?_, ?_, fun e _ => rfl⟩
    · intro n hn
      show dom.node n = _
      by_cases hroot : n ∈ roots
      · rw [if_pos (hF.root n hroot), hmoved n hroot]
      · -- a node further down hangs below a new node, which is not the fragment
        obtain ⟨q, hq, hnq⟩ := hF.inner n hn hroot
        have hqf : (s'.dom.node n).parent ≠ some s.dom.nodes.size := by
          rw [hnq]
          exact fun e => Nat.ne_of_gt (hnew q hq) (Option.some.inj e)
        have hnp : n ≠ p := fun e => Nat.lt_asymm hgap.valid (e ▸ hnew n hn)
        rw [if_neg hqf, hother n hnp (Nat.ne_of_gt (hnew n hn)) hroot]
    · intro d hd
      have hne : c ≠ d := fun e => absurd hc (Nat.not_lt.2 (e ▸ hbuilt.newCell d hd))
      exact getElem?_set_ne hne

end Fragment

variable [Presentable V]

theorem run_clearNodes (h : Slot s p a c pre old post)
    (hc : frame.env.get? x.name = some (.nodes c)) :
    ∃ s', (clearNodes x y).run m o frame s = some (frame, s', []) ∧
      Refilled s s' p c (pre ++ a :: post) old [] .empty ∧ Gap s' p a pre post := by
  have hrehung : s.dom.Rehung (old.foldl Store.detach s.dom) p (pre ++ a :: post) none old :=
    Store.rehung_foldl_detach old h.valid (fun n hn => ⟨(h.kept n hn).1, (h.kept n hn).2.1⟩)
      h.nodup (fun hm => (h.kept p hm).2.2.2 rfl) (fun n hn => (h.kept n hn).2.2.1) h.kids
  have hclt : c < s.cells.length := (List.getElem?_eq_some_iff.1 h.cell).1
  have ha : (old.foldl Store.detach s.dom).node a = s.dom.node a :=
    hrehung.other a h.ne fun hm => h.before (mem_append_right _ hm)
  refine ⟨(s.withDom (old.foldl Store.detach s.dom)).setCell c [], ?_, ?_, ?_⟩
  · rw [run, cell?_eq hc]
    show (s.cells[c]?).bind _ = _
    rw [h.cell]
    rfl
  · refine ⟨?_, hrehung.parent, fun n _ hp hn => hrehung.other n hp hn, ?_, ?_⟩
    · exact Added.same hrehung.size (by simp [setCell, withDom]) rfl
    · simp [setCell, withDom, hclt]
    · intro d _ hd
      exact getElem?_set_ne (Ne.symm hd)
  · exact ⟨hrehung.size ▸ h.valid, h.anchor.keep (Nat.le_of_eq hrehung.size.symm)
      (congrArg Dom.Node.kind ha) (congrArg Dom.Node.parent ha), h.ne,
      congrArg Dom.Node.children hrehung.parent, fun hm => h.before (mem_append_left _ hm)⟩

theorem run_createFragment (hready : Ready G k frame σ) (hx : x ∈ G) (hk : k < x.number) :
    ∃ frame', (createFragment x).run m o frame s = some (frame', s.withFragment, []) ∧
      Grown G k x.number frame frame' ∧
      frame'.env.get? x.name = some (.node s.dom.nodes.size) := by
  obtain ⟨frame', hdeclare, hgrown, hself⟩ :=
    hready.declare (.node s.dom.nodes.size) hx hk rfl
  exact ⟨frame', create_eq hready.scope hdeclare, hgrown, hself⟩

end Placing

variable {G : List Local} {m : Meaning V} {k : Nat} {σ : Scope V} {env : Env V}
  {roots : List NodeId}

/-- The names of a chain or a repetition are bound to its anchor and to its cell. -/
structure Anchored (env : Env V) (k a c : Nat) : Prop where
  anchor : env.get? (anchorAt k).name = some (.node a)
  nodes : env.get? (nodesAt k).name = some (.nodes c)

theorem Anchored.grow {j : Nat} (h : Anchored frame.env k a c)
    (hg : Grown G (k + 3) j frame frame') :
    Anchored frame'.env k a c where
  anchor := by rw [hg.get? (show (anchorAt k).number ≤ k + 3 by simp [anchorAt]), h.anchor]
  nodes := by rw [hg.get? (show (nodesAt k).number ≤ k + 3 by simp [nodesAt]), h.nodes]

/-! ### Chains -/

variable [Presentable V]

/-- The part that was picked, if any, has been built, and nothing else. -/
def StandsPick (G : List Local) (m : Meaning V) (P : Nat → Prop) (X : Prop) (s : State V)
    (pick : Option Item) (p : NodeId) (o : List Nat) (σ : Scope V) (roots : List NodeId)
    (F : Footprint) : Prop :=
  match pick with
  | some b => Stands G m P X s b p o σ roots F
  | none => roots = [] ∧ F = .empty

theorem StandsPick.placed {pick} (h : StandsPick G m P X s pick p o σ roots F) :
    Placed s p o roots F := by
  cases pick with
  | some b => exact Stands.placed h
  | none =>
    obtain ⟨rfl, rfl⟩ := h
    exact .empty s p o

theorem StandsPick.transport {pick} (hX : X' → X ∧ m' = m)
    (h : StandsPick G m P X s pick p o σ roots F) (hs : Agree s s' p p' F)
    (hp : p' = p ∨ p ∉ F.nodes) (hkeep : Keeps m m' P P' s F.effects) :
    StandsPick G m' P' X' s' pick p' o σ roots F := by
  cases pick with
  | some b => exact Stands.transport hX h hs hp hkeep
  | none => exact h

theorem runs_branches (o : List Nat) (hready : Ready G k frame σ)
    (hp : frame.env.get? x.name = some (.node p)) (hvalid : p < s.dom.nodes.size)
    (hkids : ∀ n ∈ (s.dom.node p).children, n < s.dom.nodes.size) :
    ∀ (bs : Branches) (j : Nat), (∀ b ∈ bs.bodies, BuildsItem G m b) → x.number ≤ j →
    (∀ y ∈ (buildBranches x bs j).1.locals, y ∈ G) →
    ∃ s' roots F,
      (buildBranches x bs j).1.run m o frame.env s = some (s', branchReads m σ bs) ∧
      Built s s' p roots F ∧ Placed s' p o roots F ∧
      StandsPick G m (fun _ => True) True s' (bs.pick m σ) p o σ roots F
  | .done, j, _, _, _ => by
    exact ⟨s, [], .empty, rfl, .refl s p, .empty s p o, rfl, rfl⟩
  | .otherwise body, j, hbodies, hx, hG => by
    rw [buildBranches_otherwise] at ⊢
    obtain ⟨frame', s', roots, F, hrun, -, hbuilt, hplaced, hstands⟩ :=
      hbodies body (by simp [Branches.bodies]) o hx hG (hready.enter j) hp hvalid hkids
    refine ⟨s', roots, F, ?_, hbuilt, hplaced, hstands⟩
    rw [Alternatives.run, hrun]
    rfl
  | .elseIf condition body rest, j, hbodies, hx, hG => by
    rw [buildBranches_elseIf] at ⊢
    have hj := le_buildItem body x j
    obtain ⟨frame', s₁, roots₁, F₁, hrun, -, hbuilt₁, hplaced₁, hstands₁⟩ :=
      hbodies body (by simp [Branches.bodies]) o hx (fun y hy => hG y (mem_append_left _ hy))
        (hready.enter j) hp hvalid hkids
    obtain ⟨s₂, roots₂, F₂, hrest, hbuilt₂, hplaced₂, hstands₂⟩ :=
      runs_branches o hready hp hvalid hkids rest (buildItem x body j).2
        (fun b hb => hbodies b (by simp [Branches.bodies, hb])) (Nat.le_trans hx hj)
        (fun y hy => hG y (mem_append_right _ hy))
    rw [Runs] at hrun
    by_cases hholds : m.holds condition σ = true
    · refine ⟨s₁, roots₁, F₁, ?_, hbuilt₁, hplaced₁, ?_⟩
      · simp only [Alternatives.run, hready.scope.scope, hholds, hrun, branchReads]
        rfl
      · rw [Branches.pick, if_pos hholds]
        exact hstands₁
    · refine ⟨s₂, roots₂, F₂, ?_, hbuilt₂, hplaced₂, ?_⟩
      · simp only [Alternatives.run, hready.scope.scope, if_neg hholds, hrest, branchReads]
        rfl
      · rw [Branches.pick, if_neg hholds]
        exact hstands₂

variable {condition : String}

theorem run_conditional {body} {rest} {reads}
    (h : (Alternatives.elseIf condition body rest).run m o frame.env s = some (s', reads)) :
    (conditional condition body rest).run m o frame s = some (frame, s', reads) := by
  rw [Alternatives.run] at h
  rw [run]
  split at h
  · next hholds =>
    obtain ⟨⟨t, more⟩, ht, hrest⟩ := Option.bind_eq_some_iff.1 h
    cases hrest
    rw [if_pos hholds, ht]
    rfl
  · next hholds =>
    obtain ⟨⟨t, more⟩, ht, hrest⟩ := Option.bind_eq_some_iff.1 h
    cases hrest
    rw [if_neg hholds, ht]
    rfl

theorem run_keepNodes (hsees : Sees frame.env σ) (hx : frame.env.get? x.name = some (.nodes c))
    (hf : frame.env.get? f.name = some (.node n)) :
    (keepNodes x f).run m o frame s =
      some (frame, s.setCell c (s.dom.node n).children, []) := by
  rw [run, hsees.outer?_eq (by decide), cell?_eq hx, node?_eq hf]
  rfl

variable {rest : Branches}

theorem runs_chainBody {body} (o : List Nat)
    (hbodies : ∀ b ∈ (Branches.elseIf condition body rest).bodies, BuildsItem G m b)
    (hslot : Slot s p a c pre old post) (hready : Ready G (k + 3) (.enter env) σ)
    (henv : Anchored env k a c) (hG : ∀ y ∈ localsIn (chainBody k condition body rest), y ∈ G) :
    ∃ frame' s' roots F,
      Runs m o (chainBody k condition body rest) (.enter env) s frame' s'
        (branchReads m σ (.elseIf condition body rest)) ∧
      Refilled s s' p c (pre ++ roots ++ a :: post) old roots F ∧
      StandsPick G m (fun _ => True) True s' ((Branches.elseIf condition body rest).pick m σ) p o σ
        roots F := by
  let x : Local := ⟨.fragment, k + 4⟩
  have hlocals : localsIn (chainBody k condition body rest) =
      ⟨.node, k + 3⟩ :: x :: (buildBranches x (.elseIf condition body rest) (k + 4)).1.locals := by
    rw [buildBranches_elseIf]
    simp [chainBody, localsIn, locals, Alternatives.locals, x]
  rw [hlocals] at hG
  obtain ⟨s₁, hclear, hrefilled₁, hgap₁⟩ :=
    run_clearNodes hslot
      (show (enter env).env.get? _ = _ from henv.nodes)
  obtain ⟨frame₂, hfragment, hgrown, hself⟩ :=
    run_createFragment (s := s₁) hready (hG x (by simp)) (Nat.lt_succ_self _)
  have hempty : (s₁.withFragment.dom.node s₁.dom.nodes.size).children = [] := by
    rw [node_withFragment_self]
  obtain ⟨s₃, roots, F, hrun, hbuilt, hplaced, hstands⟩ :=
    runs_branches o (hready.grow hgrown (Nat.le_succ _)) hself
      (by rw [size_withFragment]; exact Nat.lt_succ_self _) (by simp [hempty])
      (.elseIf condition body rest) (k + 4) hbodies (Nat.le_refl _)
      (fun y hy => hG y (by simp [hy]))
  refine ⟨frame₂, ?_⟩
  have hkept : (s₃.dom.node s₁.dom.nodes.size).children = roots := by
    rw [hbuilt.parent, hempty, nil_append]
  have henv₂ : Anchored frame₂.env k a c := Anchored.grow henv hgrown
  have hclt : c < s₁.cells.length := (List.getElem?_eq_some_iff.1 hrefilled₁.content).1
  obtain ⟨s₄, hplace, hrefilled₄, hagree, hnot⟩ :=
    run_place hbuilt hgap₁ hclt hplaced hself henv₂.anchor roots
  have hkeep := run_keepNodes (m := m) (o := o) (s := s₃)
    (hready.grow hgrown (Nat.le_succ _)).scope henv₂.nodes hself
  rw [hkept] at hkeep
  have hcond := run_conditional hrun
  refine ⟨s₄, roots, F, ?_, ?_, ?_⟩
  · have := Runs.cons hclear (Runs.cons hfragment (Runs.cons hcond
      (Runs.cons hkeep (Runs.single hplace))))
    simp only [append_nil] at this
    exact this
  · exact hrefilled₁.trans (.empty s₁ p o) hrefilled₄
  · exact hstands.transport (fun hx => ⟨hx, rfl⟩) hagree (.inr hnot) (keeps_true m s₃ F.effects)

/-! ### Repetitions -/

theorem run_keepMoreNodes (hcell : s.cells[c]? = some content)
    (hx : frame.env.get? x.name = some (.nodes c)) (hf : frame.env.get? f.name = some (.node n)) :
    (keepMoreNodes x f).run m o frame s =
      some (frame, s.setCell c (content ++ (s.dom.node n).children), []) := by
  rw [run, cell?_eq hx, node?_eq hf]
  show (s.cells[c]?).bind _ = _
  rw [hcell]
  rfl

theorem runs_aliases {clause} {list index} {items} (hapart : Apart G clause)
    (hready : Ready G k frame σ) (hblock : frame.block = [])
    (hlist : frame.env.get? list.name = some (.list items))
    (hindex : frame.env.get? index.name = some (.index i)) (hG : index ∈ G)
    (hv : items[i]? = some v) :
    ∃ frame', Runs m o (.declareItem clause.item list index ::
        clause.index.toList.map fun name => .declareIndex name index) frame s frame' s [] ∧
      Ready G k frame' (clause.bind σ v i) ∧
      ∀ x ∈ G, frame'.env.get? x.name = frame.env.get? x.name := by
  obtain ⟨frame₁, hdeclare₁, hready₁, hget₁, hblock₁⟩ :=
    hready.alias v hapart.item (by simp [hblock]) (hapart.usable _ (.head _))
  have hitem : (declareItem clause.item list index).run m o frame s =
      some (frame₁, s, []) := by
    rw [run, list?_eq hlist, index?_eq hindex]
    show (items[i]?).bind _ = _
    rw [hv]
    show (frame.choose clause.item v).bind _ = _
    rw [hdeclare₁]
    rfl
  cases hname : clause.index with
  | none =>
    refine ⟨frame₁, .single hitem, ?_, hget₁⟩
    rwa [ForClause.bind, hname]
  | some name =>
    obtain ⟨frame₂, hdeclare₂, hready₂, hget₂, -⟩ :=
      hready₁.alias (Presentable.ofIndex i) (hapart.index name (by simp [hname]))
        (by simp [hblock₁, hblock, hapart.distinct name (by simp [hname])])
        (hapart.usable name (by simp [clauseNames, hname]))
    have hnumber : (declareIndex name index).run m o frame₁ s =
        some (frame₂, s, []) := by
      rw [run, index?_eq (by rw [hget₁ index hG, hindex])]
      show (frame₁.choose name (Presentable.ofIndex i)).bind _ = _
      rw [hdeclare₂]
      rfl
    refine ⟨frame₂, Runs.cons hitem (.single hnumber), ?_, ?_⟩
    · rwa [ForClause.bind, hname]
    · exact fun x hx => (hget₂ x hx).trans (hget₁ x hx)

section Each

variable {clause : ForClause} {body : Item} {items : List V}

theorem runs_eachStep (hbody : BuildsItem G m body) (hapart : Apart G clause)
    (hready : Ready G (k + 5) frame σ) (hblock : frame.block = [])
    (hlist : frame.env.get? (⟨.list, k + 4⟩ : Local).name = some (.list items))
    (hindex : frame.env.get? (⟨.index, k + 5⟩ : Local).name = some (.index i))
    (hv : items[i]? = some v) (henv : Anchored frame.env k a c) (hanchor : anchorAt k ∈ G)
    (hnodes : nodesAt k ∈ G) (hnumber : ⟨.index, k + 5⟩ ∈ G)
    (hG : ∀ y ∈ localsIn (eachStep k clause body), y ∈ G) (hgap : Gap s p a pre post)
    (hcell : s.cells[c]? = some content) :
    ∃ frame' s' roots F, Runs m o (eachStep k clause body) frame s frame' s' [] ∧
      Refilled s s' p c (pre ++ roots ++ a :: post) [] (content ++ roots) F ∧
      Stands G m (fun _ => True) True s' body p o (clause.bind σ v i) roots F := by
  let x : Local := ⟨.fragment, k + 6⟩
  have hlocals : localsIn (eachStep k clause body) =
      x :: localsIn (buildItem x body (k + 6)).1 := by
    rw [eachStep, localsIn_append]
    cases clause.index <;> simp [localsIn, locals, x]
  rw [hlocals] at hG
  obtain ⟨frame₁, hnames, hready₁, hget⟩ :=
    runs_aliases hapart hready hblock hlist hindex hnumber hv
  obtain ⟨frame₂, hfragment, hgrown₂, hself₂⟩ :=
    run_createFragment (s := s) hready₁ (hG x (by simp)) (Nat.lt_succ_self _)
  have hempty : (s.withFragment.dom.node s.dom.nodes.size).children = [] := by
    rw [node_withFragment_self]
  obtain ⟨frame₃, s₃, roots, F, hrun, hgrown₃, hbuilt, hplaced, hstands⟩ :=
    hbody o (Nat.le_refl (k + 6)) (fun y hy => hG y (.tail _ hy))
      (hready₁.grow hgrown₂ (Nat.le_succ _)) hself₂
      (by rw [size_withFragment]; exact Nat.lt_succ_self _) (by simp [hempty])
  have hkept : (s₃.dom.node s.dom.nodes.size).children = roots := by
    rw [hbuilt.parent, hempty, nil_append]
  -- names that were bound before the repetition are still bound
  have hget₃ : ∀ y : Local, y.number ≤ k + 5 → y ∈ G →
      frame₃.env.get? y.name = frame.env.get? y.name := by
    intro y hy hyG
    rw [hgrown₃.get? (Nat.le_trans hy (Nat.le_succ _)), hgrown₂.get? hy, hget y hyG]
  have hself₃ : frame₃.env.get? x.name = some (.node s.dom.nodes.size) := by
    rw [hgrown₃.get? (Nat.le_refl _), hself₂]
  have henv₃ : Anchored frame₃.env k a c :=
    ⟨(hget₃ _ (by simp [anchorAt]) hanchor).trans henv.anchor,
      (hget₃ _ (by simp [nodesAt]) hnodes).trans henv.nodes⟩
  have hclt : c < s.cells.length := (List.getElem?_eq_some_iff.1 hcell).1
  obtain ⟨s₄, hplace, hrefilled, hagree, hnot⟩ :=
    run_place hbuilt hgap hclt hplaced hself₃ henv₃.anchor (content ++ roots)
  have hkeep := run_keepMoreNodes (m := m) (o := o)
    (by rw [hbuilt.cell c hclt]; exact hcell) henv₃.nodes hself₃
  rw [hkept] at hkeep
  refine ⟨frame₃, s₄, roots, F, ?_, hrefilled, ?_⟩
  · have := hnames.append ((Runs.cons hfragment hrun).append
      (Runs.cons hkeep (Runs.single hplace)))
    rw [eachStep, append_assoc]
    exact this
  · exact hstands.transport (fun hx => ⟨hx, rfl⟩) hagree (.inr hnot) (keeps_true m s₃ F.effects)

/-- What belongs to one item after another stands, the first of which has the index `i`. -/
def StandsEach (G : List Local) (m : Meaning V) (clause : ForClause) (body : Item) (p : NodeId)
    (o : List Nat) (σ : Scope V) (s : State V) (i : Nat) (parts : List (Part V)) : Prop :=
  ∀ (j : Nat) (part : Part V), parts[j]? = some part →
    Stands G m (fun _ => True) True s body p o (clause.bind σ part.value (i + j)) part.roots
      part.footprint

theorem runs_turns {step} (hstep : ∀ {i : Nat} {v : V} {s : State V} {pre content : List NodeId},
      items[i]? = some v → Gap s p a pre post → s.cells[c]? = some content →
      ∃ s' roots F, step i s = some (s', []) ∧
        Refilled s s' p c (pre ++ roots ++ a :: post) [] (content ++ roots) F ∧
        Stands G m (fun _ => True) True s' body p o (clause.bind σ v i) roots F) (count : Nat) :
    ∀ {i : Nat} {s : State V} {pre content : List NodeId},
    i + count = items.length → Gap s p a pre post → s.cells[c]? = some content →
    ∃ s' parts, iterate step count i s = some (s', []) ∧
      parts.map Part.value = items.drop i ∧
      Refilled s s' p c (pre ++ partRoots parts ++ a :: post) [] (content ++ partRoots parts)
        (partPrints parts) ∧ StandsEach G m clause body p o σ s' i parts := by
  induction count with
  | zero =>
    intro i s pre content hi hgap hcell
    refine ⟨s, [], rfl, ?_, ?_, nofun⟩
    · rw [drop_of_length_le (by omega)]
      rfl
    · have := hgap.refill_nothing hcell
      simpa [partRoots, partPrints] using this
  | succ count ih =>
    intro i s pre content hi hgap hcell
    have hlt : i < items.length := by omega
    obtain ⟨s₁, roots, F, hrun, hrefilled, hstands⟩ :=
      hstep (getElem?_eq_getElem hlt) hgap hcell
    have hplaced := hstands.placed
    obtain ⟨s₂, parts, hrest, hvalues, hrefilled₂, hparts⟩ :=
      ih (i := i + 1) (by omega) (hgap.refilled hrefilled hplaced) hrefilled.content
    -- what belongs to the first item is left alone by the turns that follow
    have hp : p ∉ F.nodes := fun hm =>
      absurd hgap.valid (Nat.not_lt.2 (hrefilled.newNode p hm))
    have hc : c ∉ F.cells := fun hm =>
      absurd (List.getElem?_eq_some_iff.1 hcell).1 (Nat.not_lt.2 (hrefilled.newCell c hm))
    have hfirst : Stands G m (fun _ => True) True s₂ body p o (clause.bind σ items[i] i) roots F :=
      hstands.transport (fun hx => ⟨hx, rfl⟩) (hrefilled₂.agree hplaced hp hc) (.inl rfl)
        (keeps_true m s₁ F.effects)
    refine ⟨s₂, ⟨items[i], roots, F⟩ :: parts, ?_, ?_, ?_, ?_⟩
    · rw [iterate, hrun]
      show (iterate step count (i + 1) s₁).bind _ = _
      rw [hrest]
      rfl
    · rw [map_cons, hvalues, drop_eq_getElem_cons hlt]
    · have := hrefilled.trans hplaced hrefilled₂
      rw [append_assoc pre, append_assoc content] at this
      exact this
    · intro j part hj
      cases j with
      | zero =>
        obtain rfl : _ = part := by simpa using hj
        exact hfirst
      | succ j =>
        rw [show i + (j + 1) = i + 1 + j by omega]
        exact hparts j part (by simpa using hj)

theorem run_loop (o : List Nat) (hbody : BuildsItem G m body) (hapart : Apart G clause)
    (hgap : Gap s p a pre post) (hcell : s.cells[c]? = some content)
    (hready : Ready G (k + 4) frame σ)
    (hlist : frame.env.get? (⟨.list, k + 4⟩ : Local).name = some (.list (clause.values m σ)))
    (henv : Anchored frame.env k a c) (hanchor : anchorAt k ∈ G) (hnodes : nodesAt k ∈ G)
    (hindex : (⟨.index, k + 5⟩) ∈ G)
    (hG : ∀ y ∈ localsIn (eachStep k clause body), y ∈ G) :
    ∃ s' parts, (loop ⟨.list, k + 4⟩ ⟨.index, k + 5⟩ (eachStep k clause body)).run m o
        frame s = some (frame, s', []) ∧
      parts.map Part.value = clause.values m σ ∧
      Refilled s s' p c (pre ++ partRoots parts ++ a :: post) [] (content ++ partRoots parts)
        (partPrints parts) ∧ StandsEach G m clause body p o σ s' 0 parts := by
  -- the frame of one turn
  have hget : ∀ (i : Nat) (y : Local), y.number ≤ k + 4 →
      (enter (((⟨.index, k + 5⟩ : Local).name, .index i) :: frame.env)).env.get? y.name =
        frame.env.get? y.name := by
    intro i y hy
    show Table.get? ((_, _) :: frame.env) y.name = _
    rw [Table.get?, if_neg (Local.name_ne (by simp; omega))]
  let turn (i : Nat) (s : State V) : Option (State V × List (Read V)) :=
    (runAll m o (eachStep k clause body)
      (.enter (((⟨.index, k + 5⟩ : Local).name, .index i) :: frame.env)) s).map Prod.snd
  have hturn : ∀ {i : Nat} {v : V} {s : State V} {pre content : List NodeId},
      (clause.values m σ)[i]? = some v → Gap s p a pre post → s.cells[c]? = some content →
      ∃ s' roots F, turn i s = some (s', []) ∧
        Refilled s s' p c (pre ++ roots ++ a :: post) [] (content ++ roots) F ∧
        Stands G m (fun _ => True) True s' body p o (clause.bind σ v i) roots F := by
    intro i v s pre content hv hgap hcell
    obtain ⟨frame', s', roots, F, hrun, hrefilled, hstands⟩ :=
      runs_eachStep hbody hapart
        (hready.index hindex (Nat.lt_succ_self _) i) rfl
        ((hget i _ (Nat.le_refl _)).trans hlist) (by simp [enter, Table.get?]) hv
        ⟨(hget i _ (by simp [anchorAt])).trans henv.anchor,
          (hget i _ (by simp [nodesAt])).trans henv.nodes⟩ hanchor hnodes hindex hG hgap hcell
    refine ⟨s', roots, F, ?_, hrefilled, hstands⟩
    show (runAll m o (eachStep k clause body) _ s).map Prod.snd = _
    rw [hrun]
    rfl
  obtain ⟨s', parts, hloop, hvalues, hrefilled, hparts⟩ :=
    runs_turns hturn (clause.values m σ).length (Nat.zero_add _) hgap hcell
  refine ⟨s', parts, ?_, hvalues, hrefilled, hparts⟩
  rw [run, list?_eq hlist]
  show (iterate _ (clause.values m σ).length 0 s).bind _ = _
  rw [hloop]
  rfl

theorem runs_eachBody (o : List Nat) (hbody : BuildsItem G m body) (hapart : Apart G clause)
    (hslot : Slot s p a c pre old post) (hready : Ready G (k + 3) (.enter env) σ)
    (henv : Anchored env k a c) (hanchor : anchorAt k ∈ G) (hnodes : nodesAt k ∈ G)
    (hG : ∀ y ∈ localsIn (eachBody k clause body), y ∈ G) :
    ∃ frame' s' parts,
      Runs m o (eachBody k clause body) (.enter env) s frame' s' [.list clause.list σ] ∧
      parts.map Part.value = clause.values m σ ∧
      Refilled s s' p c (pre ++ partRoots parts ++ a :: post) old (partRoots parts)
        (partPrints parts) ∧ StandsEach G m clause body p o σ s' 0 parts := by
  -- the old nodes are taken away, the list is read, and the loop places new ones
  have hlocals : localsIn (eachBody k clause body) =
      ⟨.node, k + 3⟩ :: ⟨.list, k + 4⟩ :: ⟨.index, k + 5⟩ :: localsIn (eachStep k clause body) := by
    simp [eachBody, localsIn, locals]
  rw [hlocals] at hG
  obtain ⟨s₁, hclear, hrefilled₁, hgap₁⟩ :=
    run_clearNodes hslot
      (show (enter env).env.get? _ = _ from henv.nodes)
  obtain ⟨frame₂, hdeclare, hgrown, hself⟩ :=
    hready.declare (.list (clause.values m σ)) (hG ⟨.list, k + 4⟩ (by simp)) (Nat.lt_succ_self _)
      rfl
  have hlist : (declareList ⟨.list, k + 4⟩ clause.list).run m o (.enter env) s₁ =
      some (frame₂, s₁, [.list clause.list σ]) := by
    rw [run, hready.scope.scope]
    show ((enter env).declare _ (.list (clause.values m σ))).bind _ = _
    rw [hdeclare]
    rfl
  have henv₂ : Anchored frame₂.env k a c := Anchored.grow henv hgrown
  obtain ⟨s₃, parts, hloop, hvalues, hrefilled₃, hparts⟩ :=
    run_loop o hbody hapart hgap₁ hrefilled₁.content (hready.grow hgrown (Nat.le_succ _)) hself
      henv₂
      hanchor hnodes (hG _ (by simp)) fun y hy => hG y (by simp [hy])
  exact ⟨frame₂, s₃, parts, Runs.cons hclear (Runs.cons hlist (Runs.single hloop)), hvalues,
    hrefilled₁.trans (.empty s₁ p o) hrefilled₃, hparts⟩

end Each

/-! ### Effects that fill the place before an anchor -/

/-- What the effect of a chain or a repetition does, wherever and whenever it runs: in place of the
nodes of its last run it leaves nodes for which the whole stands. -/
def Refills (G : List Local) (m : Meaning V) (label : String) (k : Nat) (body : List Statement)
    (item : Item) : Prop :=
  ∀ (o : List Nat) (e : Nat) ⦃s : State V⦄ ⦃p a c : Nat⦄ ⦃pre old post : List NodeId⦄
    ⦃σ : Scope V⦄ ⦃env : Env V⦄, Slot s p a c pre old post → Ready G (k + 3) (.enter env) σ →
    Anchored env k a c → anchorAt k ∈ G → nodesAt k ∈ G → (∀ y ∈ localsIn body, y ∈ G) →
    ∃ frame' s' roots F reads, Runs m (e :: o) body (.enter env) s frame' s' reads ∧
      Refilled s s' p c (pre ++ roots ++ a :: post) old roots F ∧ Placed s' p (e :: o) roots F ∧
      ∀ {P : Nat → Prop} {X : Prop} {s'' : State V}, Agree s' s'' p p F →
        Control G s'' label k body p o σ a c e roots reads →
        Stands G m P X s'' item p o σ (roots ++ [a])
          ⟨F.nodes ++ [a], c :: F.cells, e :: F.effects⟩

theorem stands_chain {body}
    (hc : Control G s "tn-if" k (chainBody k condition body rest) p o σ a c e roots
      (branchReads m σ (.elseIf condition body rest)))
    (h : StandsPick G m P X s ((Branches.elseIf condition body rest).pick m σ) p (e :: o) σ roots
      F) :
    Stands G m P X s (.chain condition body rest) p o σ (roots ++ [a])
      ⟨F.nodes ++ [a], c :: F.cells, e :: F.effects⟩ := by
  cases hpick : (Branches.elseIf condition body rest).pick m σ with
  | some b =>
    rw [hpick] at h
    exact .branch hc (fun _ => ⟨hpick, rfl⟩) (Branches.mem_bodies_of_pick hpick) h
  | none =>
    rw [hpick] at h
    obtain ⟨rfl, rfl⟩ := h
    exact .gap hc fun _ => ⟨hpick, rfl⟩

theorem refills_chain {body}
    (hbodies : ∀ b ∈ (Branches.elseIf condition body rest).bodies, BuildsItem G m b) :
    Refills G m "tn-if" k (chainBody k condition body rest) (.chain condition body rest) := by
  intro o e s p a c pre old post σ env hslot hready henv _ _ hlocals
  obtain ⟨frame', s', roots, F, hrun, hrefilled, hpick⟩ :=
    runs_chainBody (e :: o) hbodies hslot hready henv hlocals
  refine ⟨frame', s', roots, F, _, hrun, hrefilled, hpick.placed, ?_⟩
  intro P X s'' hagree hcontrol
  exact stands_chain hcontrol
    (hpick.transport (fun _ => ⟨trivial, rfl⟩) hagree (.inl rfl) (keeps_true m s' F.effects))

theorem refills_each {clause} {body} (hapart : Apart G clause) (hbody : BuildsItem G m body) :
    Refills G m "tn-for" k (eachBody k clause body) (.each clause body) := by
  intro o e s p a c pre old post σ env hslot hready henv hanchor hnodes hlocals
  obtain ⟨frame', s', parts, hrun, hvalues, hrefilled, hparts⟩ :=
    runs_eachBody (e :: o) hbody hapart hslot hready henv hanchor hnodes hlocals
  have hplaced : Placed s' p (e :: o) (partRoots parts) (partPrints parts) := by
    refine .parts fun part hpart => ?_
    obtain ⟨i, hi⟩ := mem_iff_getElem?.1 hpart
    exact (hparts i part hi).placed
  refine ⟨frame', s', _, _, _, hrun, hrefilled, hplaced, ?_⟩
  intro P X s'' hagree hcontrol
  refine .each hcontrol (fun _ => ⟨hvalues, rfl⟩) fun i part hi => ?_
  obtain ⟨hn, hc, he⟩ := partPrints_subset (mem_of_getElem? hi)
  have hpart := hparts i part hi
  rw [Nat.zero_add] at hpart
  exact hpart.transport (fun _ => ⟨trivial, rfl⟩) (hagree.mono hn hc he) (.inl rfl)
    (keeps_true m s' _)

end ReactiveMarkup.Output
