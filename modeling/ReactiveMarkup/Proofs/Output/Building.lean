/-
Running the statements that build a part.

Statements that build a part below a node add children to that node, and otherwise
make new nodes, cells and effects and leave the old ones alone.
-/
import ReactiveMarkup.Proofs.Dom.Moves
import ReactiveMarkup.Proofs.Output.Standing

namespace ReactiveMarkup.Output

open Dom (NodeId Kind Store)
open Markup (Segment)
open Template List Statement State Output.Frame
open Text (lowered)

/-! ### The statements of a part -/

theorem buildItem_text (x : Local) (segments : List Segment) (k : Nat) :
    buildItem x (.text segments) k =
      ([.createText ⟨.text, k + 1⟩, .append x ⟨.text, k + 1⟩, buildData ⟨.text, k + 1⟩ segments],
        k + 1) := by
  rfl

variable {head : Head}

theorem buildItem_element (x : Local) (children : List Item) (k : Nat)
    (h : head.isComponent = false) :
    buildItem x (.element head children) k =
      (.createElement ⟨.element, k + 1⟩ head.tag :: .append x ⟨.element, k + 1⟩ ::
        headStatements ⟨.element, k + 1⟩ head (k + 1) ++
        (build ⟨.element, k + 1⟩ children (k + 1 + head.bindings.length)).1,
        (build ⟨.element, k + 1⟩ children (k + 1 + head.bindings.length)).2) := by
  rw [buildItem, h]
  rfl

theorem buildItem_each (x : Local) (clause : ForClause) (body : Item) (k : Nat) :
    buildItem x (.each clause body) k =
      ([.createComment (anchorAt k) "tn-for", .append x (anchorAt k), .declareNodes (nodesAt k),
        .effect (eachBody k clause body)], (buildItem ⟨.fragment, k + 6⟩ body (k + 6)).2) := by
  rfl

theorem buildItem_chain (x : Local) (condition : String) (body : Item) (rest : Branches)
    (k : Nat) :
    buildItem x (.chain condition body rest) k =
      ([.createComment (anchorAt k) "tn-if", .append x (anchorAt k), .declareNodes (nodesAt k),
        .effect (chainBody k condition body rest)],
        (buildBranches ⟨.fragment, k + 4⟩ (.elseIf condition body rest) (k + 4)).2) := by
  rfl

theorem build_cons (x : Local) (item : Item) (rest : List Item) (k : Nat) :
    build x (item :: rest) k =
      ((buildItem x item k).1 ++ (build x rest (buildItem x item k).2).1,
        (build x rest (buildItem x item k).2).2) := by
  rfl

theorem buildBranches_elseIf (x : Local) (condition : String) (body : Item) (rest : Branches)
    (k : Nat) :
    buildBranches x (.elseIf condition body rest) k =
      (.elseIf condition (buildItem x body k).1 (buildBranches x rest (buildItem x body k).2).1,
        (buildBranches x rest (buildItem x body k).2).2) := by
  rfl

theorem buildBranches_otherwise (x : Local) (body : Item) (k : Nat) :
    buildBranches x (.otherwise body) k =
      (.otherwise (buildItem x body k).1, (buildItem x body k).2) := by
  rfl

/-! ### Numbers of names -/

mutual

theorem le_buildItem : ∀ (item : Item) (x : Local) (k : Nat), k ≤ (buildItem x item k).2
  | .text segments, x, k => by
    rw [buildItem_text]
    exact Nat.le_succ k
  | .element head children, x, k => by
    cases hc : head.isComponent with
    | true =>
      have hitem : (buildItem x (.element head children) k).2 =
          (build ⟨.component, k + 1⟩ children (k + 1)).2 := by
        rw [buildItem, hc]
        rfl
      rw [hitem]
      exact Nat.le_trans (Nat.le_succ k) (le_build _ children _)
    | false =>
      rw [buildItem_element x children k hc]
      have := le_build ⟨.element, k + 1⟩ children (k + 1 + head.bindings.length)
      exact Nat.le_trans (by omega) this
  | .each clause body, x, k => by
    rw [buildItem_each]
    exact Nat.le_trans (by omega) (le_buildItem body ⟨.fragment, k + 6⟩ (k + 6))
  | .chain condition body rest, x, k => by
    rw [buildItem_chain, buildBranches_elseIf]
    have := le_buildItem body ⟨.fragment, k + 4⟩ (k + 4)
    exact Nat.le_trans (by omega) (le_buildBranches rest ⟨.fragment, k + 4⟩ _)

theorem le_build (x : Local) : ∀ (items : List Item) (k : Nat), k ≤ (build x items k).2
  | [], k => Nat.le_refl k
  | item :: rest, k => by
    rw [build_cons]
    exact Nat.le_trans (le_buildItem item x k) (le_build x rest _)

theorem le_buildBranches : ∀ (bs : Branches) (x : Local) (k : Nat), k ≤ (buildBranches x bs k).2
  | .done, x, k => by
    rw [buildBranches]
    exact Nat.le_refl k
  | .otherwise body, x, k => by
    rw [buildBranches_otherwise]
    exact le_buildItem body x k
  | .elseIf condition body rest, x, k => by
    rw [buildBranches_elseIf]
    exact Nat.le_trans (le_buildItem body x k) (le_buildBranches rest x _)

end

/-! ### Running in sequence -/

variable {V : Type}

variable {n : NodeId}

section Lookup

variable {frame : Frame V} {x : Local}

theorem Frame.node?_eq (h : frame.env.get? x.name = some (.node n)) : frame.node? x = some n := by
  rw [node?, h]

theorem Frame.cell?_eq (h : frame.env.get? x.name = some (.nodes c)) : frame.cell? x = some c := by
  rw [cell?, h]

theorem Frame.list?_eq {items} (h : frame.env.get? x.name = some (.list items)) :
    frame.list? x = some items := by
  rw [list?, h]

theorem Frame.index?_eq (h : frame.env.get? x.name = some (.index i)) :
    frame.index? x = some i := by
  rw [index?, h]

theorem Frame.value?_eq (h : frame.env.get? x.name = some (.value v)) :
    frame.value? x = some v := by
  rw [value?, h]

end Lookup

theorem modify_append_singleton {α : Type} (l : List α) (a : α) (f : α → α) :
    (l ++ [a]).modify l.length f = l ++ [f a] := by
  induction l with
  | nil => rfl
  | cons b rest ih => simp [ih]

variable [Presentable V] {m : Meaning V} {o : List Nat} {frame frame' frame'' : Frame V}
  {s s' s'' : State V} {reads reads' : List (Read V)}

/-- Statements run through, from one frame and state to others. -/
def Runs (m : Meaning V) (o : List Nat) (statements : List Statement) (frame : Frame V)
    (s : State V) (frame' : Frame V) (s' : State V) (reads : List (Read V)) : Prop :=
  runAll m o statements frame s = some (frame', s', reads)

theorem Runs.nil : Runs m o [] frame s frame s [] := rfl

variable {statement : Statement}

theorem Runs.cons {rest} (h : statement.run m o frame s = some (frame', s', reads))
    (h' : Runs m o rest frame' s' frame'' s'' reads') :
    Runs m o (statement :: rest) frame s frame'' s'' (reads ++ reads') := by
  rw [Runs] at ⊢
  rw [runAll, h]
  show (runAll m o rest frame' s').bind _ = _
  rw [h']
  rfl

theorem Runs.single (h : statement.run m o frame s = some (frame', s', reads)) :
    Runs m o [statement] frame s frame' s' reads := by
  have := Runs.cons h .nil
  rwa [append_nil] at this

theorem Runs.append (h : Runs m o l frame s frame' s' reads)
    (h' : Runs m o l' frame' s' frame'' s'' reads') :
    Runs m o (l ++ l') frame s frame'' s'' (reads ++ reads') := by
  induction l generalizing frame s reads with
  | nil =>
    cases h
    exact h'
  | cons statement rest ih =>
    obtain ⟨⟨frame₁, s₁, reads₁⟩, h₁, h⟩ := Option.bind_eq_some_iff.1 h
    obtain ⟨⟨frame₂, s₂, reads₂⟩, h₂, h⟩ := Option.bind_eq_some_iff.1 h
    cases h
    rw [append_assoc]
    exact Runs.cons h₁ (ih h₂)

theorem run_effect {body} (hsees : Sees frame.env σ)
    (h : Runs m (s.effects.length :: o) body (.enter frame.env) (s.addEffect o frame.env body)
      frame' s' reads) :
    (effect body).run m o frame s =
      some (frame, s'.setReads s.effects.length reads, []) := by
  rw [run, hsees.outer?_eq (by decide)]
  show (runAll m _ body _ _).bind _ = _
  rw [h]
  rfl

variable {dom : Store (Closure V)}

theorem run_effect_dom {body} (hsees : Sees frame.env σ)
    (h : Runs m (s.effects.length :: o) body (.enter frame.env) (s.addEffect o frame.env body)
      frame' ((s.addEffect o frame.env body).withDom dom) reads) :
    (effect body).run m o frame s =
      some (frame, ⟨dom, s.document, s.cells,
        s.effects ++ [⟨o, frame.env, body, reads, true⟩]⟩, []) := by
  rw [run_effect hsees h]
  simp only [setReads, addEffect, withDom, modify_append_singleton]

theorem run_bindData (x : Local) (data : List Segment) :
    (bindData x data).run m o frame s =
      (effect [.setData x data]).run m o frame s := by
  simp only [run, runAll]
  cases setText m x data (.enter frame.env) (s.addEffect o frame.env [.setData x data]) with
  | none => rfl
  | some result => simp

/-! ### What building changes -/

section Built

omit [Presentable V]

/-- New nodes, cells and effects have been added, among them those of `F` and no other effects.  The
old effects are as they were. -/
structure Added (s s' : State V) (F : Footprint) : Prop where
  size : s.dom.nodes.size ≤ s'.dom.nodes.size
  cells : s.cells.length ≤ s'.cells.length
  effects : s.effects.length ≤ s'.effects.length
  effect : ∀ e < s.effects.length, s'.effects[e]? = s.effects[e]?
  newNode : ∀ n ∈ F.nodes, s.dom.nodes.size ≤ n
  newCell : ∀ c ∈ F.cells, s.cells.length ≤ c
  newEffect : ∀ e ∈ F.effects, s.effects.length ≤ e
  nodup : F.Nodup
  all : ∀ e, s.effects.length ≤ e → e < s'.effects.length → e ∈ F.effects

variable {p q : NodeId} {roots roots' : List NodeId} {F F' : Footprint}

theorem Added.same (hsize : s'.dom.nodes.size = s.dom.nodes.size)
    (hcells : s'.cells.length = s.cells.length) (heffects : s'.effects = s.effects) :
    Added s s' .empty where
  size := Nat.le_of_eq hsize.symm
  cells := Nat.le_of_eq hcells.symm
  effects := Nat.le_of_eq (congrArg List.length heffects.symm)
  effect e _ := by rw [heffects]
  newNode := by simp [Footprint.empty]
  newCell := by simp [Footprint.empty]
  newEffect := by simp [Footprint.empty]
  nodup := ⟨by simp [Footprint.empty], by simp [Footprint.empty], by simp [Footprint.empty]⟩
  all e he hlt := absurd (heffects ▸ hlt) (Nat.not_lt.2 he)

/-- What is added later shares nothing with what was added before. -/
theorem Added.append (h : Added s s' F) (hF : Placed s' p o roots F) (h' : Added s' s'' F') :
    Added s s'' (F ++ F') where
  size := Nat.le_trans h.size h'.size
  cells := Nat.le_trans h.cells h'.cells
  effects := Nat.le_trans h.effects h'.effects
  effect e he := by rw [h'.effect e (Nat.lt_of_lt_of_le he h.effects), h.effect e he]
  newNode := forall_mem_append.2
    ⟨h.newNode, fun n hn => Nat.le_trans h.size (h'.newNode n hn)⟩
  newCell := forall_mem_append.2
    ⟨h.newCell, fun c hc => Nat.le_trans h.cells (h'.newCell c hc)⟩
  newEffect := forall_mem_append.2
    ⟨h.newEffect, fun e he => Nat.le_trans h.effects (h'.newEffect e he)⟩
  nodup := by
    refine ⟨nodup_append.2 ⟨h.nodup.nodes, h'.nodup.nodes, ?_⟩,
      nodup_append.2 ⟨h.nodup.cells, h'.nodup.cells, ?_⟩,
      nodup_append.2 ⟨h.nodup.effects, h'.nodup.effects, ?_⟩⟩
    · intro a ha b hb hab
      exact absurd (hF.node a ha) (Nat.not_lt.2 (hab ▸ h'.newNode b hb))
    · intro a ha b hb hab
      exact absurd (hF.cell a ha) (Nat.not_lt.2 (hab ▸ h'.newCell b hb))
    · intro a ha b hb hab
      exact absurd (hF.effect_lt ha) (Nat.not_lt.2 (hab ▸ h'.newEffect b hb))
  all := by
    intro e he hlt
    by_cases hmid : e < s'.effects.length
    · exact mem_append_left _ (h.all e he hmid)
    · exact mem_append_right _ (h'.all e (Nat.not_lt.1 hmid) hlt)

/-- Below `p` the children `roots` have been added, and the other old nodes and cells are as they
were. -/
structure Built (s s' : State V) (p : NodeId) (roots : List NodeId) (F : Footprint) : Prop
    extends Added s s' F where
  parent : s'.dom.node p = { s.dom.node p with children := (s.dom.node p).children ++ roots }
  node : ∀ n < s.dom.nodes.size, n ≠ p → s'.dom.node n = s.dom.node n
  cell : ∀ c < s.cells.length, s'.cells[c]? = s.cells[c]?

theorem Built.agree (h : Built s s' p roots F) (hF : Placed s q o roots' F') (hp : p ∉ F'.nodes) :
    Agree s s' q q F' := by
  refine .of_eq h.size ?_ (fun c hc => h.cell c (hF.cell c hc)) fun e he =>
    h.effect e (hF.effect_lt he)
  intro n hn
  exact h.node n (hF.node n hn) fun e => hp (e ▸ hn)

/-- Building twice, first below `p` and then below a node that was there or has been built. -/
theorem Built.chain (h : Built s s' p roots F) (hF : Placed s' p o roots F)
    (h' : Built s' s'' q roots' F') {kids}
    (hp : s''.dom.node p = { s.dom.node p with children := (s.dom.node p).children ++ kids })
    (hq : q = p ∨ s.dom.nodes.size ≤ q) : Built s s'' p kids (F ++ F') where
  toAdded := h.toAdded.append hF h'.toAdded
  parent := hp
  node := by
    intro n hn hne
    have hnq : n ≠ q := by
      rcases hq with rfl | hq
      · exact hne
      · exact fun e => absurd hn (Nat.not_lt.2 (e ▸ hq))
    rw [h'.node n (Nat.lt_of_lt_of_le hn h.size) hnq, h.node n hn hne]
  cell c hc := by rw [h'.cell c (Nat.lt_of_lt_of_le hc h.cells), h.cell c hc]

theorem Built.append (h : Built s s' p roots F) (hF : Placed s' p o roots F)
    (h' : Built s' s'' p roots' F') : Built s s'' p (roots ++ roots') (F ++ F') := by
  refine h.chain hF h' ?_ (.inl rfl)
  rw [h'.parent, h.parent]
  simp

theorem Built.nest (h : Built s s' p roots F) (hF : Placed s' p o roots F)
    (h' : Built s' s'' q roots' F') (hp : p < s.dom.nodes.size) (hq : q ∈ F.nodes) :
    Built s s'' p roots (F ++ F') := by
  have hnew := h.newNode q hq
  have hne : p ≠ q := fun e => absurd hp (Nat.not_lt.2 (e ▸ hnew))
  refine h.chain hF h' ?_ (.inr hnew)
  rw [h'.node p (Nat.lt_of_lt_of_le hp h.size) hne, h.parent]

theorem Built.refl (s : State V) (p : NodeId) : Built s s p [] .empty where
  toAdded := .same rfl rfl rfl
  parent := by simp
  node _ _ _ := rfl
  cell _ _ := rfl

end Built

/-- Statements that build something below a node: they run through from every frame and state in
which their names can be bound, and what they have built stands. -/
def Builds (G : List Local) (m : Meaning V) (build : Local → Fresh (List Statement))
    (stands : State V → NodeId → List Nat → Scope V → List NodeId → Footprint → Prop) : Prop :=
  ∀ (o : List Nat) ⦃x : Local⦄ ⦃k : Nat⦄ ⦃frame : Frame V⦄ ⦃s : State V⦄ ⦃σ : Scope V⦄ ⦃p : NodeId⦄,
    x.number ≤ k → (∀ y ∈ localsIn (build x k).1, y ∈ G) → Ready G k frame σ →
    frame.env.get? x.name = some (.node p) → p < s.dom.nodes.size →
    (∀ n ∈ (s.dom.node p).children, n < s.dom.nodes.size) →
    ∃ frame' s' roots F, Runs m o (build x k).1 frame s frame' s' [] ∧
      Grown G k (build x k).2 frame frame' ∧ Built s s' p roots F ∧ Placed s' p o roots F ∧
      stands s' p o σ roots F

abbrev BuildsItem (G : List Local) (m : Meaning V) (item : Item) : Prop :=
  Builds G m (fun x => buildItem x item) fun s => Stands G m (fun _ => True) True s item

abbrev BuildsItems (G : List Local) (m : Meaning V) (items : List Item) : Prop :=
  Builds G m (fun x => build x items) fun s => StandsAll G m (fun _ => True) True s items

omit [Presentable V] in
theorem keeps_true (m : Meaning V) {P : Nat → Prop} (s : State V) (es : List Nat) :
    Keeps m m (fun _ => True) P s es :=
  fun _ _ _ => ⟨trivial, fun _ _ read _ => read.same_refl m⟩

theorem builds_items {items} (h : ∀ item ∈ items, BuildsItem G m item) : BuildsItems G m items := by
  induction items with
  | nil =>
    intro o x k frame s σ p hx hG hready hp hvalid hkids
    exact ⟨frame, s, [], .empty, Runs.nil, Grown.refl .., Built.refl s p, Placed.empty s p o, .nil⟩
  | cons item rest ih =>
    intro o x k frame s σ p hx hG hready hp hvalid hkids
    simp only [build_cons] at hG ⊢
    rw [localsIn_append] at hG
    have hk := le_buildItem item x k
    have hk' := le_build x rest (buildItem x item k).2
    obtain ⟨frame₁, s₁, roots, F, hrun, hgrown, hbuilt, hplaced, hstands⟩ :=
      h item (by simp) o hx (fun y hy => hG y (mem_append_left _ hy)) hready hp hvalid hkids
    have hkids₁ : ∀ n ∈ (s₁.dom.node p).children, n < s₁.dom.nodes.size := by
      rw [hbuilt.parent]
      exact forall_mem_append.2 ⟨fun n hn => Nat.lt_of_lt_of_le (hkids n hn) hbuilt.size,
        fun n hn => hplaced.node n (hplaced.sublist.subset hn)⟩
    obtain ⟨frame₂, s₂, roots', F', hrun', hgrown', hbuilt', hplaced', hstands'⟩ :=
      ih (fun i hi => h i (.tail _ hi)) o (Nat.le_trans hx hk)
        (fun y hy => hG y (mem_append_right _ hy)) (hready.grow hgrown hk)
        (by rw [hgrown.get? hx, hp]) (Nat.lt_of_lt_of_le hvalid hbuilt.size) hkids₁
    have hpF : p ∉ F.nodes := fun hm => absurd hvalid (Nat.not_lt.2 (hbuilt.newNode p hm))
    have hagree := hbuilt'.agree hplaced hpF
    have hfirst : Stands G m (fun _ => True) True s₂ item p o σ roots F :=
      hstands.transport (fun hx => ⟨hx, rfl⟩) hagree (.inl rfl) (keeps_true m s₁ F.effects)
    refine ⟨frame₂, s₂, roots ++ roots', F ++ F', hrun.append hrun', ?_,
      hbuilt.append hplaced hbuilt', hfirst.placed.append hplaced', .cons hfirst hstands'⟩
    exact (hgrown.mono (Nat.le_refl _) hk').trans (hgrown'.mono hk (Nat.le_refl _))

/-! ### New children -/

variable {kind : Kind}

section Sprouting

omit [Presentable V]

theorem State.create_eq {tag data} (hsees : Sees frame.env σ)
    (h : frame.declare x.name (.node s.dom.nodes.size) = some frame') :
    s.create frame x kind tag data =
      some (frame', s.withDom (s.dom.create s.document kind tag data).1, []) := by
  have hsnd : (s.dom.create s.document kind tag data).2 = s.dom.nodes.size := rfl
  simp only [create, hsees.outer?_eq (show "document" ∈ outerNames by decide), hsnd, h]
  rfl

theorem built_leaf {rs} (hs : s.dom.Sprouted dom p d) (ht : dom.Touched s'.dom s.dom.nodes.size d')
    (hp : p < s.dom.nodes.size) (hcells : s'.cells = s.cells)
    (heffects : s'.effects = s.effects ++ rs) :
    Built s s' p [s.dom.nodes.size]
      ⟨[s.dom.nodes.size], [], List.range' s.effects.length rs.length⟩ where
  size := by
    rw [ht.size, hs.size]
    exact Nat.le_succ _
  cells := by simp [hcells]
  effects := by simp [heffects]
  parent := by rw [ht.other p (Nat.ne_of_lt hp), hs.parent]
  node := by
    intro n hn hne
    rw [ht.other n (Nat.ne_of_lt hn), hs.other n hne (Nat.ne_of_lt hn)]
  cell c _ := by rw [hcells]
  effect e he := by rw [heffects, getElem?_append_left he]
  newNode := by simp
  newCell := by simp
  newEffect e he := (mem_range'_1.1 he).1
  nodup := ⟨by simp, by simp, nodup_range'⟩
  all e he hlt := by
    rw [heffects, length_append] at hlt
    exact mem_range'_1.2 ⟨he, hlt⟩

end Sprouting

variable {G : List Local} {k : Nat} {σ : Scope V} {x y : Local} {p : NodeId}

theorem createText_run (x : Local) :
    (createText x).run m o frame s = s.create frame x .text "" "" := rfl

theorem runs_sprout {tag data} (hst : statement.run m o frame s = s.create frame y kind tag data)
    (hkind : kind ≠ .fragment) (hready : Ready G k frame σ) (hy : y ∈ G) (hky : k < y.number)
    (hx : x.number ≤ k) (hp : frame.env.get? x.name = some (.node p))
    (hvalid : p < s.dom.nodes.size) :
    ∃ frame' dom, Runs m o [statement, .append x y] frame s frame' (s.withDom dom) [] ∧
      Grown G k y.number frame frame' ∧
      frame'.env.get? y.name = some (.node s.dom.nodes.size) ∧
      s.dom.Sprouted dom p
        { kind, tag := lowered tag, data, owner := some s.document } := by
  obtain ⟨frame', hdeclare, hgrown, hself⟩ :=
    hready.declare (.node s.dom.nodes.size) hy hky rfl
  have hparent : frame'.node? x = some p := node?_eq (by rw [hgrown.get? hx, hp])
  have hchild : frame'.node? y = some s.dom.nodes.size := node?_eq hself
  refine ⟨frame', (s.dom.create s.document kind tag data).1.append p s.dom.nodes.size, ?_, hgrown,
    hself, Store.sprouted_append hvalid hkind rfl⟩
  refine Runs.cons (hst.trans (create_eq hready.scope hdeclare)) (.single ?_)
  rw [run, hparent, hchild]
  rfl

/-! ### Texts -/

theorem runs_setData {data} (hx : frame.env.get? x.name = some (.node n))
    (hscope : Sees frame.env σ) (hne : data.isEmpty = false) :
    Runs m o [.setData x data] frame s frame (s.withDom (s.dom.setData n (textOf m σ data)))
      (dataReads σ data) := by
  refine .single ?_
  rw [run, setText, node?_eq hx, hscope.outer?_eq (by decide)]
  simp [hne, hscope.scope]

theorem runs_buildData {segments} (hx : frame.env.get? x.name = some (.node n))
    (hscope : Sees frame.env σ) (hne : segments.isEmpty = false) (hn : n < s.dom.nodes.size) :
    ∃ s' rs, Runs m o [buildData x segments] frame s frame s' [] ∧
      s.dom.Touched s'.dom n { s.dom.node n with data := textOf m σ segments } ∧
      s'.cells = s.cells ∧ s'.effects = s.effects ++ rs ∧
      TextStands m (fun _ => True) s' segments o σ n
        (List.range' s.effects.length rs.length) := by
  have htouched := Store.touched_modify (fun d => { d with data := textOf m σ segments }) hn
  cases hstatic : isStatic segments with
  | true =>
    refine ⟨s.withDom (s.dom.setData n (textOf m σ segments)), [], ?_, htouched, rfl,
      (append_nil _).symm, .plain hstatic (congrArg Dom.Node.data htouched.self)⟩
    have hdata := runs_setData (m := m) (o := o) (s := s) hx hscope hne
    rw [dataReads_of_isStatic hstatic] at hdata
    rwa [buildData, hstatic]
  | false =>
    have hdata : Runs m (s.effects.length :: o) [.setData x segments] (.enter frame.env)
        (s.addEffect o frame.env [.setData x segments]) (.enter frame.env) _ _ :=
      runs_setData hx hscope hne
    refine ⟨⟨s.dom.setData n (textOf m σ segments), s.document, s.cells,
      s.effects ++ [⟨o, frame.env, [.setData x segments], dataReads σ segments, true⟩]⟩,
      [_], .single ?_, htouched, rfl, rfl, ?_⟩
    · rw [buildData, hstatic]
      exact (run_bindData x segments).trans (run_effect_dom hscope hdata)
    · exact .bound hstatic hne getElem?_concat_length hx hscope
        fun _ => ⟨rfl, congrArg Dom.Node.data htouched.self⟩

omit [Presentable V] in
theorem hangs_of_touched {d d' : Dom.Node (Closure V)} (hs : s.dom.Sprouted dom p d)
    (ht : dom.Touched s'.dom s.dom.nodes.size d') (hkind : d'.kind = kind)
    (hparent : d'.parent = some p) : Hangs s' s.dom.nodes.size p kind where
  valid := by
    rw [ht.size, hs.size]
    exact Nat.lt_succ_self _
  kind := by rw [ht.self, hkind]
  parent := by rw [ht.self, hparent]

theorem builds_text {segments} (hne : segments.isEmpty = false) :
    BuildsItem G m (.text segments) := by
  intro o x k frame s σ p hx hG hready hp hvalid hkids
  simp only [buildItem_text] at hG ⊢
  have hy : (⟨.text, k + 1⟩) ∈ G := hG _ (by simp [localsIn, locals])
  obtain ⟨frame', dom, hrun, hgrown, hself, hsprout⟩ :=
    runs_sprout (createText_run _) (by simp) hready hy
      (Nat.lt_succ_self k) hx hp hvalid
  have hsize : s.dom.nodes.size < dom.nodes.size := by
    rw [hsprout.size]
    exact Nat.lt_succ_self _
  obtain ⟨s', rs, hdata, htouched, hcells, heffects, ht⟩ :=
    runs_buildData (s := s.withDom dom) hself
      (hready.grow hgrown (Nat.le_succ k)).scope hne hsize
  have hn : Hangs s' s.dom.nodes.size p .text :=
    hangs_of_touched hsprout htouched (congrArg Dom.Node.kind hsprout.self)
      (congrArg Dom.Node.parent hsprout.self)
  exact ⟨frame', s', _, _, hrun.append hdata, hgrown,
    built_leaf hsprout htouched hvalid hcells heffects, ht.placed hn, .text hn ht⟩

/-! ### Elements -/

theorem touched_putValue (name : String) (v : V) (hn : n < dom.nodes.size) :
    dom.Touched (putValue dom n name v) n
      { dom.node n with
        attributes := applyValue (dom.node n).attributes name
          (if Presentable.isAbsent v then none else some (Presentable.text v)) } := by
  rw [putValue]
  split
  · exact Store.touched_modify _ hn
  · exact Store.touched_modify _ hn

theorem runs_touching {α β : Type} {f} (get : Dom.Node (Closure V) → β)
    (set : Dom.Node (Closure V) → β → Dom.Node (Closure V)) (g : β → α → β)
    (hget : ∀ d b, get (set d b) = b) (hset : ∀ d b b', set (set d b) b' = set d b')
    (hself : ∀ d, set d (get d) = d) (hn : n < s.dom.nodes.size) {l : List α}
    (h : ∀ (a : α) (s : State V), (f a).run m o frame s =
      some (frame, s.withDom (s.dom.modify n fun d => set d (g (get d) a)), [])) :
    ∃ dom, Runs m o (l.map f) frame s frame (s.withDom dom) [] ∧
      s.dom.Touched dom n (set (s.dom.node n) (l.foldl g (get (s.dom.node n)))) := by
  induction l generalizing s with
  | nil =>
    refine ⟨s.dom, .nil, ?_⟩
    rw [foldl_nil, hself]
    exact Store.touched_refl s.dom n
  | cons a rest ih =>
    have hstep := Store.touched_modify (fun d => set d (g (get d) a)) hn
    obtain ⟨dom, hrun, htouched⟩ :=
      ih (s := s.withDom (s.dom.modify n fun d => set d (g (get d) a))) (hstep.size ▸ hn)
    have hnode : (s.withDom (s.dom.modify n fun d => set d (g (get d) a))).dom.node n = _ :=
      hstep.self
    rw [hnode, hget, hset] at htouched
    exact ⟨dom, Runs.cons (h a s) hrun, hstep.trans htouched⟩

theorem runs_attributes (attributes : List Markup.Attribute)
    (hx : frame.env.get? x.name = some (.node n)) (hn : n < s.dom.nodes.size) :
    ∃ dom, Runs m o (attributes.map fun a => .setAttribute x a.name (a.value.getD "")) frame s
        frame (s.withDom dom) [] ∧
      s.dom.Touched dom n
        { s.dom.node n with
          attributes := attributes.foldl (fun t a => t.put (lowered a.name) (a.value.getD ""))
            (s.dom.node n).attributes } := by
  refine runs_touching Dom.Node.attributes (fun d attributes => { d with attributes }) _
    (fun _ _ => rfl) (fun _ _ _ => rfl) (fun _ => rfl) hn fun a s => ?_
  rw [run, node?_eq hx]
  rfl

theorem runs_handlers (events : List Binding) (hx : frame.env.get? x.name = some (.node n))
    (hscope : Sees frame.env σ) (hn : n < s.dom.nodes.size) :
    ∃ dom, Runs m o (events.map fun b => .setHandler x b) frame s frame (s.withDom dom) [] ∧
      s.dom.Touched dom n
        { s.dom.node n with
          handlers := events.foldl (fun t b => t.put (lowered b.name) ⟨handler b.expression, σ⟩)
            (s.dom.node n).handlers } := by
  refine runs_touching Dom.Node.handlers (fun d handlers => { d with handlers }) _
    (fun _ _ => rfl) (fun _ _ _ => rfl) (fun _ => rfl) hn fun b s => ?_
  rw [run, node?_eq hx, hscope.scope]
  rfl

variable {env : Env V}

theorem runs_bindingBody {value} (b : Binding) (hx : env.get? x.name = some (.node n))
    (hscope : Sees env σ) (hne : value.name ≠ x.name) :
    ∃ frame', Runs m o (bindingBody x value b) (.enter env) s frame'
      (s.withDom (putValue s.dom n b.name (m.value b.expression σ)))
      [.value b.expression σ] := by
  let frame' : Frame V :=
    ⟨(value.name, .value (m.value b.expression σ)) :: env, [value.name]⟩
  have hx' : frame'.env.get? x.name = some (.node n) := by
    rw [Table.get?, if_neg hne, hx]
  have hvalue : frame'.env.get? value.name = some (.value (m.value b.expression σ)) := by
    rw [Table.get?, if_pos rfl]
  have hfirst : (declareValue value b.expression).run m o (.enter env) s =
      some (frame', s, [.value b.expression σ]) := by
    rw [run]
    simp [declare, enter, hscope.scope, frame']
  have hsecond : (updateAttribute x b.name value).run m o frame' s =
      some (frame', s.withDom (putValue s.dom n b.name (m.value b.expression σ)), []) := by
    have hstring : frame'.outer? "String" = some () := by
      have hname : value.name ≠ "String" :=
        fun e => value.name_notMem_outerNames (e ▸ by decide)
      rw [outer?, Table.get?, if_neg hname, hscope.outer _ (by decide)]
      rfl
    rw [run, node?_eq hx', value?_eq hvalue]
    simp [hstring]
  exact ⟨frame', Runs.cons hfirst (.single hsecond)⟩

def bindingEffects (o : List Nat) (env : Env V) (σ : Scope V) (x : Local) :
    List Binding → Nat → List (Effect V)
  | [], _ => []
  | b :: rest, k =>
    ⟨o, env, bindingBody x ⟨.value, k + 1⟩ b, [.value b.expression σ], true⟩ ::
      bindingEffects o env σ x rest (k + 1)

omit [Presentable V] in
theorem length_bindingEffects (o : List Nat) (env : Env V) (σ : Scope V) (x : Local)
    (bindings : List Binding) (k : Nat) :
    (bindingEffects o env σ x bindings k).length = bindings.length := by
  induction bindings generalizing k with
  | nil => rfl
  | cons b rest ih => simp [bindingEffects, ih]

omit [Presentable V] in
theorem getElem?_bindingEffects {bindings : List Binding} {i : Nat} {b : Binding}
    (h : bindings[i]? = some b) :
    (bindingEffects o env σ x bindings k)[i]? =
      some ⟨o, env, bindingBody x ⟨.value, k + 1 + i⟩ b, [.value b.expression σ], true⟩ := by
  induction bindings generalizing i k with
  | nil => simp at h
  | cons first rest ih =>
    cases i with
    | zero =>
      obtain rfl : first = b := by simpa using h
      rfl
    | succ i =>
      rw [bindingEffects, getElem?_cons_succ, ih (by simpa using h)]
      rw [show k + 1 + 1 + i = k + 1 + (i + 1) by omega]

theorem runs_bindings (bindings : List Binding) (hx : frame.env.get? x.name = some (.node n))
    (hscope : Sees frame.env σ) (hk : x.number ≤ k) (hn : n < s.dom.nodes.size) :
    ∃ dom, Runs m o (bindingStatements x bindings k) frame s frame
        { s with
          dom
          effects := s.effects ++ bindingEffects o frame.env σ x bindings k } [] ∧
      s.dom.Touched dom n
        { s.dom.node n with
          attributes := bindings.foldl (fun t b => applyValue t b.name (boundValue m σ b))
            (s.dom.node n).attributes } := by
  induction bindings generalizing s k with
  | nil =>
    refine ⟨s.dom, ?_, Store.touched_refl s.dom n⟩
    rw [bindingEffects, append_nil]
    exact .nil
  | cons b rest ih =>
    have hne : (⟨.value, k + 1⟩ : Local).name ≠ x.name := Local.name_ne (by simp; omega)
    obtain ⟨frame', hbody⟩ := runs_bindingBody (o := s.effects.length :: o)
      b hx hscope hne
    have hfirst := run_effect_dom hscope hbody
    have hstep := touched_putValue b.name (m.value b.expression σ) hn
    obtain ⟨dom, hrun, htouched⟩ := ih (k := k + 1)
      (s := ⟨putValue s.dom n b.name (m.value b.expression σ), s.document, s.cells,
        s.effects ++ [⟨o, frame.env, bindingBody x ⟨.value, k + 1⟩ b,
          [.value b.expression σ], true⟩]⟩) (by omega) (hstep.size ▸ hn)
    refine ⟨dom, ?_, ?_⟩
    · have := Runs.cons hfirst hrun
      rw [append_assoc] at this
      exact this
    · have := hstep.trans htouched
      simp only [hstep.self] at this
      exact this

theorem runs_head (head : Head) (hx : frame.env.get? x.name = some (.node n))
    (hscope : Sees frame.env σ) (hk : x.number ≤ k) (hn : n < s.dom.nodes.size) :
    ∃ dom, Runs m o (headStatements x head k) frame s frame
        { s with
          dom
          effects := s.effects ++ bindingEffects o frame.env σ x head.bindings k } [] ∧
      s.dom.Touched dom n
        { s.dom.node n with
          attributes := head.bindings.foldl (fun t b => applyValue t b.name (boundValue m σ b))
            (head.attributes.foldl (fun t a => t.put (lowered a.name) (a.value.getD ""))
              (s.dom.node n).attributes)
          handlers := head.events.foldl
            (fun t b => t.put (lowered b.name) ⟨handler b.expression, σ⟩)
            (s.dom.node n).handlers } := by
  obtain ⟨dom₁, hrun₁, ht₁⟩ := runs_attributes head.attributes hx hn
  have hn₁ : n < (s.withDom dom₁).dom.nodes.size := by
    rw [withDom, ht₁.size]
    exact hn
  obtain ⟨dom₂, hrun₂, ht₂⟩ := runs_bindings head.bindings hx hscope hk hn₁
  have hn₂ : n < dom₂.nodes.size := by
    rw [ht₂.size]
    exact hn₁
  obtain ⟨dom₃, hrun₃, ht₃⟩ := runs_handlers
    (s := { s with
      dom := dom₂
      effects := s.effects ++ bindingEffects o frame.env σ x head.bindings k })
    head.events hx hscope hn₂
  refine ⟨dom₃, (hrun₁.append hrun₂).append hrun₃, ?_⟩
  have hself₁ : (s.withDom dom₁).dom.node n = _ := ht₁.self
  have hall := (ht₁.trans ht₂).trans ht₃
  simp only [ht₂.self, hself₁] at hall
  exact hall

theorem headStands_first (htag : (s'.dom.node n).tag = lowered head.tag)
    (hattributes : (s'.dom.node n).attributes = attributesOf m σ head)
    (hhandlers : (s'.dom.node n).handlers = handlersOf σ head)
    (heffects : s'.effects = s.effects ++ bindingEffects o env σ x head.bindings k)
    (hx : env.get? x.name = some (.node n)) (hscope : Sees env σ) (hk : x.number ≤ k) :
    HeadStands m (fun _ => True) True s' head o σ n
      (List.range' s.effects.length (bindingEffects o env σ x head.bindings k).length) where
  tag := htag
  handlers := hhandlers
  length := by rw [length_range', length_bindingEffects]
  effects := by
    intro i b e hb he
    obtain ⟨hi, rfl⟩ : i < head.bindings.length ∧ s.effects.length + i = e := by
      rw [length_bindingEffects] at he
      have hlt : i < head.bindings.length := (List.getElem?_eq_some_iff.1 hb).1
      rw [getElem?_range' hlt, Option.some_inj] at he
      exact ⟨hlt, by omega⟩
    refine ⟨x, ⟨.value, k + 1 + i⟩, env, [.value b.expression σ], ?_, hx, hscope, ?_, fun _ => rfl⟩
    · rw [heffects, getElem?_append_right (by omega), Nat.add_sub_cancel_left,
        getElem?_bindingEffects hb]
    · exact Local.name_ne (by simp; omega)
  plain := by
    intro name hname
    rw [hattributes, attributesOf, get?_applyValues_of_ne m σ hname]
  bound := by
    intro i b e hb he hlast _
    rw [hattributes, attributesOf, get?_applyValues_of_last m σ hb hlast]
  exact _ := hattributes

theorem createElement_run (x : Local) (tag : String) :
    (createElement x tag).run m o frame s = s.create frame x .element tag "" := rfl

theorem builds_element {children} (hc : head.isComponent = false)
    (hchildren : BuildsItems G m children) : BuildsItem G m (.element head children) := by
  intro o x k frame s σ p hx hG hready hp hvalid hkids
  simp only [buildItem_element x children k hc] at hG ⊢
  have hy : (⟨.element, k + 1⟩) ∈ G := hG _ (by simp [localsIn, locals])
  obtain ⟨frame', dom, hrun, hgrown, hself, hsprout⟩ :=
    runs_sprout (createElement_run _ head.tag) (by simp) hready hy
      (Nat.lt_succ_self k) hx hp hvalid
  have hready' : Ready G (k + 1) frame' σ := hready.grow hgrown (Nat.le_succ k)
  have hsize : s.dom.nodes.size < dom.nodes.size := by
    rw [hsprout.size]
    exact Nat.lt_succ_self _
  obtain ⟨dom₁, hrun₁, ht₁⟩ := runs_head (s := s.withDom dom) head hself
    hready'.scope (Nat.le_refl (k + 1)) hsize
  -- the state in which the element has been set up, but has no content yet
  let s₁ : State V :=
    { s.withDom dom with
      dom := dom₁
      effects := s.effects ++
        bindingEffects o frame'.env σ ⟨.element, k + 1⟩ head.bindings (k + 1) }
  let es := List.range' s.effects.length
    (bindingEffects o frame'.env σ ⟨.element, k + 1⟩ head.bindings (k + 1)).length
  have hnode : s₁.dom.node s.dom.nodes.size =
      { kind := .element, tag := lowered head.tag, owner := some s.document, parent := some p,
        attributes := attributesOf m σ head, handlers := handlersOf σ head } := by
    have := ht₁.self
    simp only [withDom, hsprout.self] at this
    exact this
  have hhead : HeadStands m (fun _ => True) True s₁ head o σ s.dom.nodes.size es :=
    headStands_first (congrArg Dom.Node.tag hnode) (congrArg Dom.Node.attributes hnode)
      (congrArg Dom.Node.handlers hnode) rfl hself hready'.scope (Nat.le_refl (k + 1))
  have hhangs : Hangs s₁ s.dom.nodes.size p .element :=
    hangs_of_touched hsprout ht₁ (congrArg Dom.Node.kind hsprout.self)
      (congrArg Dom.Node.parent hsprout.self)
  have hbuilt : Built s s₁ p [s.dom.nodes.size] ⟨[s.dom.nodes.size], [], es⟩ :=
    built_leaf hsprout ht₁ hvalid rfl rfl
  have hplaced : Placed s₁ p o [s.dom.nodes.size] ⟨[s.dom.nodes.size], [], es⟩ := by
    have := hhead.placed hhangs (.empty s₁ _ o)
    rwa [Footprint.empty, append_nil] at this
  have hnone : (s₁.dom.node s.dom.nodes.size).children = [] := congrArg Dom.Node.children hnode
  obtain ⟨frame₂, s₂, kids, F, hrun₂, hgrown₂, hbuilt₂, hplaced₂, hstands₂⟩ :=
    hchildren o (Nat.le_add_right (k + 1) _)
      (fun y hy => hG y (by simp only [localsIn_append, mem_append]; exact .inr hy))
      (hready'.mono (Nat.le_add_right (k + 1) head.bindings.length)) hself hhangs.valid
      (by simp [hnone])
  have hnode₂ : s₂.dom.node s.dom.nodes.size =
      { s₁.dom.node s.dom.nodes.size with children := kids } := by
    rw [hbuilt₂.parent, hnone, nil_append]
  have hhead₂ : HeadStands m (fun _ => True) True s₂ head o σ s.dom.nodes.size es := by
    refine hhead.transport (by rw [hnode₂]) (by rw [hnode₂]) (by rw [hnode₂]) ?_
      (keeps_true m s₁ es) fun hx => ⟨hx, rfl⟩
    exact fun e he => hbuilt₂.effect e (hplaced.effect_lt he)
  have hhangs₂ : Hangs s₂ s.dom.nodes.size p .element :=
    hhangs.keep hbuilt₂.size (by rw [hnode₂]) (by rw [hnode₂])
  have hk : k ≤ k + 1 + head.bindings.length := by omega
  have hk₂ := le_build ⟨.element, k + 1⟩ children (k + 1 + head.bindings.length)
  refine ⟨frame₂, s₂, _, _, (hrun.append hrun₁).append hrun₂, ?_,
    hbuilt.nest hplaced hbuilt₂ hvalid (by simp), hhead₂.placed hhangs₂ hplaced₂,
    .element hhangs₂ hhead₂ ?_⟩
  · exact (hgrown.mono (Nat.le_refl _) (Nat.le_trans (Nat.le_add_right _ _) hk₂)).trans
      (hgrown₂.mono hk (Nat.le_refl _))
  · rw [hnode₂]
    exact hstands₂

end ReactiveMarkup.Output
