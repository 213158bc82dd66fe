/-
A template that has been built.

What statements have built for a part of a template is a number of nodes, cells and
effects.  The nodes are as the part asks for, except that an effect may be waiting
to run again: what such an effect keeps up to date may be old.
-/
import Mathlib.Data.List.Flatten
import ReactiveMarkup.Proofs.Output.Names
import ReactiveMarkup.Proofs.Template.Grouping

namespace ReactiveMarkup.Output

open Dom (NodeId Kind)
open Markup (Segment)
open Template List
open Text (lowered)

variable {V : Type}

/-! ### Footprints -/

/-- Nodes, cells and effects. -/
structure Footprint where
  nodes : List NodeId
  cells : List Nat
  effects : List Nat

namespace Footprint

def empty : Footprint := ⟨[], [], []⟩

instance : Append Footprint :=
  ⟨fun F F' => ⟨F.nodes ++ F'.nodes, F.cells ++ F'.cells, F.effects ++ F'.effects⟩⟩

@[simp] theorem nodes_append (F F' : Footprint) : (F ++ F').nodes = F.nodes ++ F'.nodes := rfl

@[simp] theorem cells_append (F F' : Footprint) : (F ++ F').cells = F.cells ++ F'.cells := rfl

@[simp] theorem effects_append (F F' : Footprint) :
    (F ++ F').effects = F.effects ++ F'.effects := rfl

/-- Nothing is there twice. -/
structure Nodup (F : Footprint) : Prop where
  nodes : F.nodes.Nodup
  cells : F.cells.Nodup
  effects : F.effects.Nodup

end Footprint

/-- What a repetition has built for one item. -/
structure Part (V : Type) where
  value : V
  roots : List NodeId
  footprint : Footprint

def partRoots (parts : List (Part V)) : List NodeId := parts.flatMap Part.roots

def partPrints (parts : List (Part V)) : Footprint :=
  parts.foldr (fun part F => part.footprint ++ F) .empty

/-! ### What effects of chains and repetitions do -/

/-- The name of the anchor of a chain or a repetition that is built with numbers after `k`. -/
def anchorAt (k : Nat) : Local := ⟨.anchor, k + 1⟩

def nodesAt (k : Nat) : Local := ⟨.nodes, k + 2⟩

def chainBody (k : Nat) (condition : String) (body : Item) (rest : Branches) : List Statement :=
  let fragment : Local := ⟨.fragment, k + 4⟩
  let inner := buildItem fragment body (k + 4)
  [.clearNodes (nodesAt k) ⟨.node, k + 3⟩, .createFragment fragment,
    .conditional condition inner.1 (buildBranches fragment rest inner.2).1,
    .keepNodes (nodesAt k) fragment, .place fragment (anchorAt k)]

def eachStep (k : Nat) (clause : ForClause) (body : Item) : List Statement :=
  let fragment : Local := ⟨.fragment, k + 6⟩
  .declareItem clause.item ⟨.list, k + 4⟩ ⟨.index, k + 5⟩ ::
    (clause.index.toList.map fun name => .declareIndex name ⟨.index, k + 5⟩) ++
    .createFragment fragment :: (buildItem fragment body (k + 6)).1 ++
    [.keepMoreNodes (nodesAt k) fragment, .place fragment (anchorAt k)]

def eachBody (k : Nat) (clause : ForClause) (body : Item) : List Statement :=
  [.clearNodes (nodesAt k) ⟨.node, k + 3⟩, .declareList ⟨.list, k + 4⟩ clause.list,
    .loop ⟨.list, k + 4⟩ ⟨.index, k + 5⟩ (eachStep k clause body)]

/-- The conditions that are read up to the first one that holds. -/
def branchReads (m : Meaning V) (σ : Scope V) : Branches → List (Read V)
  | .done => []
  | .otherwise _ => []
  | .elseIf condition _ rest =>
    .condition condition σ :: if m.holds condition σ then [] else branchReads m σ rest

/-! ### Nodes that belong together -/

structure Hangs (s : State V) (n p : NodeId) (kind : Kind) : Prop where
  valid : n < s.dom.nodes.size
  kind : (s.dom.node n).kind = kind
  parent : (s.dom.node n).parent = some p

variable {n : NodeId}

theorem Hangs.keep {s s' : State V} {kind} (h : Hangs s n p kind)
    (hsize : s.dom.nodes.size ≤ s'.dom.nodes.size)
    (hkind : (s'.dom.node n).kind = (s.dom.node n).kind)
    (hparent : (s'.dom.node n).parent = (s.dom.node n).parent) : Hangs s' n p kind :=
  ⟨Nat.lt_of_lt_of_le h.valid hsize, hkind.trans h.kind, hparent.trans h.parent⟩

/-- Nodes, cells and effects that belong together below a node and inside effects. -/
structure Placed (s : State V) (p : NodeId) (o : List Nat) (roots : List NodeId) (F : Footprint) :
    Prop where
  sublist : roots.Sublist F.nodes
  node : ∀ n ∈ F.nodes, n < s.dom.nodes.size
  cell : ∀ c ∈ F.cells, c < s.cells.length
  effect : ∀ e ∈ F.effects, ∃ r, s.effects[e]? = some r ∧ r.active = true ∧
    ∃ l, r.owners = l ++ o ∧ ∀ g ∈ l, g ∈ F.effects
  root : ∀ n ∈ roots, (s.dom.node n).parent = some p
  inner : ∀ n ∈ F.nodes, n ∉ roots → ∃ q ∈ F.nodes, (s.dom.node n).parent = some q

variable {a c e : Nat} {body : List Statement} {reads : List (Read V)} {content : List NodeId}

namespace Placed

variable {s : State V} {p : NodeId} {o : List Nat} {roots roots' : List NodeId} {F F' : Footprint}

theorem effect_lt (h : Placed s p o roots F) (he : e ∈ F.effects) : e < s.effects.length := by
  obtain ⟨r, hr, -⟩ := h.effect e he
  exact (List.getElem?_eq_some_iff.1 hr).1

theorem empty (s : State V) (p : NodeId) (o : List Nat) : Placed s p o [] .empty where
  sublist := .refl _
  node := by simp [Footprint.empty]
  cell := by simp [Footprint.empty]
  effect := by simp [Footprint.empty]
  root := by simp
  inner := by simp [Footprint.empty]

theorem append (h : Placed s p o roots F) (h' : Placed s p o roots' F') :
    Placed s p o (roots ++ roots') (F ++ F') where
  sublist := h.sublist.append h'.sublist
  node := forall_mem_append.2 ⟨h.node, h'.node⟩
  cell := forall_mem_append.2 ⟨h.cell, h'.cell⟩
  effect := by
    intro e he
    rcases mem_append.1 he with he | he
    · obtain ⟨r, hr, ha, l, hl, hm⟩ := h.effect e he
      exact ⟨r, hr, ha, l, hl, fun g hg => mem_append_left _ (hm g hg)⟩
    · obtain ⟨r, hr, ha, l, hl, hm⟩ := h'.effect e he
      exact ⟨r, hr, ha, l, hl, fun g hg => mem_append_right _ (hm g hg)⟩
  root := forall_mem_append.2 ⟨h.root, h'.root⟩
  inner := by
    intro n hn hroot
    rw [mem_append, not_or] at hroot
    rcases mem_append.1 hn with hn | hn
    · obtain ⟨q, hq, hp⟩ := h.inner n hn hroot.1
      exact ⟨q, mem_append_left _ hq, hp⟩
    · obtain ⟨q, hq, hp⟩ := h'.inner n hn hroot.2
      exact ⟨q, mem_append_right _ hq, hp⟩

theorem parts {parts : List (Part V)}
    (h : ∀ part ∈ parts, Placed s p o part.roots part.footprint) :
    Placed s p o (partRoots parts) (partPrints parts) := by
  induction parts with
  | nil => exact .empty s p o
  | cons part rest ih =>
    exact (h part (by simp)).append (ih fun q hq => h q (.tail _ hq))

/-- What an effect has placed before an anchor, with the anchor. -/
theorem control {env} (h : Placed s p (e :: o) roots F) (ha : Hangs s a p .comment)
    (hc : s.cells[c]? = some content) (he : s.effects[e]? = some ⟨o, env, body, reads, true⟩) :
    Placed s p o (roots ++ [a]) ⟨F.nodes ++ [a], c :: F.cells, e :: F.effects⟩ where
  sublist := h.sublist.append (.refl _)
  node := forall_mem_append.2 ⟨h.node, forall_mem_singleton.2 ha.valid⟩
  cell := forall_mem_cons.2 ⟨(List.getElem?_eq_some_iff.1 hc).1, h.cell⟩
  effect := by
    intro f hf
    rcases mem_cons.1 hf with rfl | hf
    · exact ⟨_, he, rfl, [], rfl, by simp⟩
    · -- the owners of an inner effect end with the effect of the chain or repetition itself
      obtain ⟨r, hr, hact, l, hl, hm⟩ := h.effect f hf
      exact ⟨r, hr, hact, l ++ [e], by simp [hl],
        forall_mem_append.2 ⟨fun g hg => .tail _ (hm g hg), forall_mem_singleton.2 (.head _)⟩⟩
  root := forall_mem_append.2 ⟨h.root, forall_mem_singleton.2 ha.parent⟩
  inner := by
    intro n hn hroot
    rw [mem_append, not_or] at hroot
    rcases mem_append.1 hn with hn | hn
    · obtain ⟨q, hq, hp⟩ := h.inner n hn hroot.1
      exact ⟨q, mem_append_left _ hq, hp⟩
    · exact absurd hn hroot.2

end Placed

/-! ### Agreement of states -/

variable {σ : Scope V} {es : List Nat} {p' : NodeId} {segments : List Segment}

section Agreement

variable {m m' : Meaning V} {P P' : Nat → Prop} {s s' : State V}

/-- A footprint is the same in two states, except that nodes below `p` may hang below `p'`. -/
structure Agree (s s' : State V) (p p' : NodeId) (F : Footprint) : Prop where
  size : s.dom.nodes.size ≤ s'.dom.nodes.size
  node : ∀ n ∈ F.nodes, s'.dom.node n =
    if (s.dom.node n).parent = some p then { s.dom.node n with parent := some p' }
    else s.dom.node n
  cell : ∀ c ∈ F.cells, s'.cells[c]? = s.cells[c]?
  effect : ∀ e ∈ F.effects, s'.effects[e]? = s.effects[e]?

theorem Read.same_refl (m : Meaning V) (read : Read V) : read.Same m m := by
  cases read <;> rfl

/-- Effects that count as up to date with `m'` were so with `m`, and what they have read is the
same. -/
def Keeps (m m' : Meaning V) (P P' : Nat → Prop) (s : State V) (es : List Nat) : Prop :=
  ∀ e ∈ es, P' e → P e ∧ ∀ r, s.effects[e]? = some r → ∀ read ∈ r.reads, read.Same m m'

theorem Keeps.mono {es'} (h : Keeps m m' P P' s es) (hsub : es' ⊆ es) : Keeps m m' P P' s es' :=
  fun e he => h e (hsub he)

variable {p : NodeId} {F : Footprint}

theorem Agree.mono (h : Agree s s' p p' F) (hn : F'.nodes ⊆ F.nodes) (hc : F'.cells ⊆ F.cells)
    (he : F'.effects ⊆ F.effects) : Agree s s' p p' F' where
  size := h.size
  node n hm := h.node n (hn hm)
  cell c hm := h.cell c (hc hm)
  effect e hm := h.effect e (he hm)

theorem Agree.of_eq (hsize : s.dom.nodes.size ≤ s'.dom.nodes.size)
    (hnode : ∀ n ∈ F.nodes, s'.dom.node n = s.dom.node n)
    (hcell : ∀ c ∈ F.cells, s'.cells[c]? = s.cells[c]?)
    (heffect : ∀ e ∈ F.effects, s'.effects[e]? = s.effects[e]?) : Agree s s' p p F where
  size := hsize
  node := by
    intro n hn
    rw [hnode n hn]
    split
    · next hp => rw [← hp]
    · rfl
  cell := hcell
  effect := heffect

theorem Agree.refl (s : State V) (p : NodeId) (F : Footprint) : Agree s s p p F :=
  .of_eq (Nat.le_refl _) (fun _ _ => rfl) (fun _ _ => rfl) fun _ _ => rfl

theorem Agree.hung (h : Agree s s' p p' F) (hn : n ∈ F.nodes)
    (hp : (s.dom.node n).parent = some p) :
    s'.dom.node n = { s.dom.node n with parent := some p' } := by
  rw [h.node n hn, if_pos hp]

theorem Agree.hangs {kind} (h : Agree s s' p p' F) (hn : n ∈ F.nodes) (hh : Hangs s n p kind) :
    Hangs s' n p' kind where
  valid := Nat.lt_of_lt_of_le hh.valid h.size
  kind := by rw [h.hung hn hh.parent]; exact hh.kind
  parent := by rw [h.hung hn hh.parent]

/-- Nodes further down do not hang below `p`, so they are the same. -/
theorem Agree.inside {kids} (h : Agree s s' p p' F) (hp : p' = p ∨ p ∉ F.nodes) (hn : n ∈ F.nodes)
    (hF : Placed s n o kids F') (hnodes : F'.nodes ⊆ F.nodes) (hcells : F'.cells ⊆ F.cells)
    (heffects : F'.effects ⊆ F.effects) : Agree s s' n n F' := by
  refine .of_eq h.size ?_ (fun c hm => h.cell c (hcells hm)) fun e hm => h.effect e (heffects hm)
  intro q hq
  rw [h.node q (hnodes hq)]
  split
  · next hqp =>
    rcases hp with rfl | hp
    · rw [← hqp]
    · by_cases hkid : q ∈ kids
      · rw [hF.root q hkid] at hqp
        exact absurd (Option.some.inj hqp ▸ hn) hp
      · obtain ⟨r, hr, hqr⟩ := hF.inner q hq hkid
        rw [hqr] at hqp
        exact absurd (Option.some.inj hqp ▸ hnodes hr) hp
  · rfl

theorem dataReads_of_isStatic (h : isStatic segments = true) : dataReads σ segments = [] := by
  rw [dataReads, filterMap_eq_nil_iff]
  intro segment hs
  have := all_eq_true.1 h segment hs
  cases segment with
  | literal text => rfl
  | expression source => simp [Segment.isLiteral] at this

theorem pick_eq_of_same : ∀ {bs : Branches},
    (∀ read ∈ branchReads m σ bs, read.Same m m') →
    bs.pick m' σ = bs.pick m σ ∧ branchReads m' σ bs = branchReads m σ bs
  | .done, _ => ⟨rfl, rfl⟩
  | .otherwise _, _ => ⟨rfl, rfl⟩
  | .elseIf condition body rest, h => by
    have hc : m.holds condition σ = m'.holds condition σ :=
      h (.condition condition σ) (by simp [branchReads])
    simp only [Branches.pick, branchReads, ← hc]
    by_cases hholds : m.holds condition σ
    · simp [hholds]
    · have hrest : rest.pick m' σ = rest.pick m σ ∧ branchReads m' σ rest = branchReads m σ rest :=
        pick_eq_of_same fun read hr => h read (by simp [branchReads, hholds, hr])
      simp [hrest]

theorem partPrints_subset {part : Part V} {parts} (h : part ∈ parts) :
    part.footprint.nodes ⊆ (partPrints parts).nodes ∧
    part.footprint.cells ⊆ (partPrints parts).cells ∧
    part.footprint.effects ⊆ (partPrints parts).effects := by
  induction parts with
  | nil => simp at h
  | cons first rest ih =>
    show _ ⊆ (first.footprint ++ partPrints rest).nodes ∧
      _ ⊆ (first.footprint ++ partPrints rest).cells ∧
      _ ⊆ (first.footprint ++ partPrints rest).effects
    rcases mem_cons.1 h with rfl | h
    · simp
    · obtain ⟨hn, hc, he⟩ := ih h
      exact ⟨subset_append_of_subset_right _ hn, subset_append_of_subset_right _ hc,
        subset_append_of_subset_right _ he⟩

end Agreement

/-! ### Parts that have been built -/

variable {head : Head}

section Standing

variable [Presentable V]

/-! `G` are the local names of the module, `P` tells which effects are up to date with `m`, and `X`
says that the attributes are those of the first run, in their order. -/

variable (G : List Local) (m : Meaning V) (P : Nat → Prop) (X : Prop) (s : State V)

/-- A text has its data, and the effect that keeps it. -/
inductive TextStands (segments : List Segment) (o : List Nat) (σ : Scope V) (n : NodeId) :
    List Nat → Prop where
  | plain : isStatic segments = true → (s.dom.node n).data = textOf m σ segments →
    TextStands segments o σ n []
  | bound {e : Nat} {x : Local} {env : Env V} {reads : List (Read V)} :
    isStatic segments = false → segments.isEmpty = false →
    s.effects[e]? = some ⟨o, env, [.setData x segments], reads, true⟩ →
    env.get? x.name = some (.node n) → Sees env σ →
    (P e → reads = dataReads σ segments ∧ (s.dom.node n).data = textOf m σ segments) →
    TextStands segments o σ n [e]

structure BindingStands (o : List Nat) (σ : Scope V) (n : NodeId) (b : Binding) (e : Nat) :
    Prop where
  effect : ∃ x value env reads, s.effects[e]? = some ⟨o, env, bindingBody x value b, reads, true⟩ ∧
    env.get? x.name = some (.node n) ∧ Sees env σ ∧ value.name ≠ x.name ∧
    (P e → reads = [.value b.expression σ])

/-- An element has its attributes and handlers, and the effects that keep them.  Of several
bindings of one attribute the last one counts. -/
structure HeadStands (head : Head) (o : List Nat) (σ : Scope V) (n : NodeId) (es : List Nat) :
    Prop where
  tag : (s.dom.node n).tag = lowered head.tag
  handlers : (s.dom.node n).handlers = handlersOf σ head
  length : es.length = head.bindings.length
  effects : ∀ (i : Nat) (b : Binding) (e : Nat), head.bindings[i]? = some b → es[i]? = some e →
    BindingStands P s o σ n b e
  plain : ∀ name, (∀ b ∈ head.bindings, lowered b.name ≠ name) →
    (s.dom.node n).attributes.get? name = (plainAttributes head).get? name
  bound : ∀ (i : Nat) (b : Binding) (e : Nat), head.bindings[i]? = some b → es[i]? = some e →
    (∀ (j : Nat) (b' : Binding), i < j → head.bindings[j]? = some b' →
      lowered b'.name ≠ lowered b.name) →
    P e → (s.dom.node n).attributes.get? (lowered b.name) = boundValue m σ b
  exact : X → (s.dom.node n).attributes = attributesOf m σ head

/-- A chain or a repetition has its anchor `a`, its cell `c` and its effect `e`. -/
structure Control (label : String) (k : Nat) (body : List Statement) (p : NodeId) (o : List Nat)
    (σ : Scope V) (a c e : Nat) (content : List NodeId) (reads : List (Read V)) : Prop where
  hangs : Hangs s a p .comment
  label : (s.dom.node a).data = label
  cell : s.cells[c]? = some content
  effect : ∃ env, s.effects[e]? = some ⟨o, env, body, reads, true⟩ ∧ Sees env σ ∧
    env.get? (anchorAt k).name = some (.node a) ∧ env.get? (nodesAt k).name = some (.nodes c)
  clear : ∀ x ∈ G, σ x.name = none
  names : anchorAt k ∈ G ∧ nodesAt k ∈ G
  locals : ∀ x ∈ localsIn body, x ∈ G

mutual

/-- A part has been built below `p`, inside the effects `o` and in the scope `σ`: `roots` are its
nodes below `p`, and `F` is its footprint. -/
inductive Stands :
    Item → NodeId → List Nat → Scope V → List NodeId → Footprint → Prop where
  | text {segments : List Segment} {p : NodeId} {o : List Nat} {σ : Scope V} {n : NodeId}
      {es : List Nat} :
    Hangs s n p .text → TextStands m P s segments o σ n es →
    Stands (.text segments) p o σ [n] ⟨[n], [], es⟩
  | element {head : Head} {children : List Item} {p : NodeId} {o : List Nat} {σ : Scope V}
      {n : NodeId} {es : List Nat} {F : Footprint} :
    Hangs s n p .element → HeadStands m P X s head o σ n es →
    StandsAll children n o σ (s.dom.node n).children F →
    Stands (.element head children) p o σ [n] ⟨n :: F.nodes, F.cells, es ++ F.effects⟩
  | each {clause : ForClause} {body : Item} {p : NodeId} {o : List Nat} {σ : Scope V}
      {k a c e : Nat} {reads : List (Read V)} {parts : List (Part V)} :
    Control G s "tn-for" k (eachBody k clause body) p o σ a c e (partRoots parts) reads →
    (P e → parts.map Part.value = clause.values m σ ∧ reads = [.list clause.list σ]) →
    (∀ (i : Nat) (part : Part V), parts[i]? = some part →
      Stands body p (e :: o) (clause.bind σ part.value i) part.roots part.footprint) →
    Stands (.each clause body) p o σ (partRoots parts ++ [a])
      ⟨(partPrints parts).nodes ++ [a], c :: (partPrints parts).cells,
        e :: (partPrints parts).effects⟩
  | branch {condition : String} {body b : Item} {rest : Branches} {p : NodeId} {o : List Nat}
      {σ : Scope V} {k a c e : Nat} {reads : List (Read V)} {roots : List NodeId}
      {F : Footprint} :
    Control G s "tn-if" k (chainBody k condition body rest) p o σ a c e roots reads →
    (P e → (Branches.elseIf condition body rest).pick m σ = some b ∧
      reads = branchReads m σ (.elseIf condition body rest)) →
    b ∈ (Branches.elseIf condition body rest).bodies → Stands b p (e :: o) σ roots F →
    Stands (.chain condition body rest) p o σ (roots ++ [a])
      ⟨F.nodes ++ [a], c :: F.cells, e :: F.effects⟩
  | gap {condition : String} {body : Item} {rest : Branches} {p : NodeId} {o : List Nat}
      {σ : Scope V} {k a c e : Nat} {reads : List (Read V)} :
    Control G s "tn-if" k (chainBody k condition body rest) p o σ a c e [] reads →
    (P e → (Branches.elseIf condition body rest).pick m σ = none ∧
      reads = branchReads m σ (.elseIf condition body rest)) →
    Stands (.chain condition body rest) p o σ [a] ⟨[a], [c], [e]⟩

inductive StandsAll :
    List Item → NodeId → List Nat → Scope V → List NodeId → Footprint → Prop where
  | nil {p : NodeId} {o : List Nat} {σ : Scope V} : StandsAll [] p o σ [] .empty
  | cons {item : Item} {items : List Item} {p : NodeId} {o : List Nat} {σ : Scope V}
      {roots roots' : List NodeId} {F F' : Footprint} :
    Stands item p o σ roots F → StandsAll items p o σ roots' F' →
    StandsAll (item :: items) p o σ (roots ++ roots') (F ++ F')

end

/-! ### Where parts are -/

variable {G m P X s}

variable {o : List Nat} {p : NodeId}

theorem TextStands.placed (hn : Hangs s n p .text) (h : TextStands m P s segments o σ n es) :
    Placed s p o [n] ⟨[n], [], es⟩ where
  sublist := .refl _
  node := forall_mem_singleton.2 hn.valid
  cell := by simp
  effect := by
    cases h with
    | plain _ _ => simp
    | @bound e x env reads _ _ he _ _ _ =>
      exact forall_mem_singleton.2 ⟨_, he, rfl, [], rfl, by simp⟩
  root := forall_mem_singleton.2 hn.parent
  inner := by
    intro q hq hnot
    exact absurd hq hnot

theorem HeadStands.placed {kids} (hn : Hangs s n p .element) (h : HeadStands m P X s head o σ n es)
    (hF : Placed s n o kids F) :
    Placed s p o [n] ⟨n :: F.nodes, F.cells, es ++ F.effects⟩ where
  sublist := by simp
  node := forall_mem_cons.2 ⟨hn.valid, hF.node⟩
  cell := hF.cell
  effect := by
    intro e he
    rcases mem_append.1 he with he | he
    · obtain ⟨i, hi⟩ := mem_iff_getElem?.1 he
      have hlt : i < head.bindings.length := h.length ▸ (List.getElem?_eq_some_iff.1 hi).1
      obtain ⟨x, value, env, reads, hr, -⟩ :=
        (h.effects i _ e (getElem?_eq_getElem hlt) hi).effect
      exact ⟨_, hr, rfl, [], rfl, by simp⟩
    · obtain ⟨r, hr, hact, l, hl, hm⟩ := hF.effect e he
      exact ⟨r, hr, hact, l, hl, fun g hg => mem_append_right _ (hm g hg)⟩
  root := forall_mem_singleton.2 hn.parent
  inner := by
    intro q hq hnot
    rcases mem_cons.1 hq with rfl | hq
    · exact absurd (mem_singleton.2 rfl) hnot
    · by_cases hkid : q ∈ kids
      · exact ⟨n, by simp, hF.root q hkid⟩
      · obtain ⟨r, hr, hp⟩ := hF.inner q hq hkid
        exact ⟨r, .tail _ hr, hp⟩

mutual

theorem Stands.placed {item : Item} {p : NodeId} {o : List Nat} {σ : Scope V}
    {roots : List NodeId} {F : Footprint} :
    Stands G m P X s item p o σ roots F → Placed s p o roots F
  | .text hn ht => ht.placed hn
  | .element hn hh hc => hh.placed hn hc.placed
  | .each hc _ hparts => by
    obtain ⟨env, he, -⟩ := hc.effect
    refine (Placed.parts fun part hpart => ?_).control hc.hangs hc.cell he
    obtain ⟨i, hi⟩ := mem_iff_getElem?.1 hpart
    exact (hparts i part hi).placed
  | .branch hc _ _ hbody => by
    obtain ⟨env, he, -⟩ := hc.effect
    exact hbody.placed.control hc.hangs hc.cell he
  | .gap hc _ => by
    obtain ⟨env, he, -⟩ := hc.effect
    exact (Placed.empty s _ _).control hc.hangs hc.cell he

theorem StandsAll.placed {items : List Item} {p : NodeId} {o : List Nat} {σ : Scope V}
    {roots : List NodeId} {F : Footprint} :
    StandsAll G m P X s items p o σ roots F → Placed s p o roots F
  | .nil => .empty s _ _
  | .cons hitem hrest => hitem.placed.append hrest.placed

end

/-! ### Leaving parts alone -/

variable {m' : Meaning V} {P' : Nat → Prop} {X' : Prop} {s' : State V}

theorem textOf_eq_of_same (h : ∀ read ∈ dataReads σ segments, read.Same m m') :
    textOf m' σ segments = textOf m σ segments := by
  induction segments with
  | nil => rfl
  | cons segment rest ih =>
    have hrest : ∀ read ∈ dataReads σ rest, read.Same m m' := by
      intro read hr
      refine h read ?_
      cases segment with
      | literal text => exact hr
      | expression source => exact .tail _ hr
    have hfirst : segmentText m' σ segment = segmentText m σ segment := by
      cases segment with
      | literal text => rfl
      | expression source =>
        have : m.value source σ = m'.value source σ := h (.value source σ) (by simp [dataReads])
        rw [segmentText, segmentText, this]
    have hstep : ∀ m : Meaning V,
        textOf m σ (segment :: rest) = segmentText m σ segment ++ textOf m σ rest := fun _ => rfl
    rw [hstep, hstep, hfirst, ih hrest]

theorem TextStands.transport (h : TextStands m P s segments o σ n es)
    (hdata : (s'.dom.node n).data = (s.dom.node n).data)
    (heffect : ∀ e ∈ es, s'.effects[e]? = s.effects[e]?) (hkeep : Keeps m m' P P' s es) :
    TextStands m' P' s' segments o σ n es := by
  cases h with
  | plain hstatic htext =>
    have hsame : textOf m' σ segments = textOf m σ segments :=
      textOf_eq_of_same (by simp [dataReads_of_isStatic hstatic])
    exact .plain hstatic (by rw [hdata, htext, hsame])
  | @bound e x env reads hstatic hne he hx hscope hP =>
    refine .bound hstatic hne (by rw [heffect e (by simp), he]) hx hscope fun hp' => ?_
    obtain ⟨hp, hsame⟩ := hkeep e (by simp) hp'
    obtain ⟨hreads, htext⟩ := hP hp
    have hreads' := hsame _ he
    rw [hreads] at hreads'
    exact ⟨hreads, by rw [hdata, htext, textOf_eq_of_same hreads']⟩

theorem HeadStands.transport (h : HeadStands m P X s head o σ n es)
    (htag : (s'.dom.node n).tag = (s.dom.node n).tag)
    (hattributes : (s'.dom.node n).attributes = (s.dom.node n).attributes)
    (hhandlers : (s'.dom.node n).handlers = (s.dom.node n).handlers)
    (heffect : ∀ e ∈ es, s'.effects[e]? = s.effects[e]?) (hkeep : Keeps m m' P P' s es)
    (hX : X' → X ∧ m' = m) : HeadStands m' P' X' s' head o σ n es where
  tag := htag.trans h.tag
  handlers := hhandlers.trans h.handlers
  length := h.length
  effects := by
    intro i b e hb he
    obtain ⟨x, value, env, reads, hr, hx, hscope, hne, hP⟩ := (h.effects i b e hb he).effect
    have hmem := mem_of_getElem? he
    exact ⟨x, value, env, reads, by rw [heffect e hmem, hr], hx, hscope, hne,
      fun hp' => hP (hkeep e hmem hp').1⟩
  plain name hname := by rw [hattributes, h.plain name hname]
  bound := by
    intro i b e hb he hlast hp'
    have hmem := mem_of_getElem? he
    obtain ⟨hp, hsame⟩ := hkeep e hmem hp'
    obtain ⟨x, value, env, reads, hr, -, -, -, hP⟩ := (h.effects i b e hb he).effect
    have hvalue : m.value b.expression σ = m'.value b.expression σ :=
      hsame _ hr (.value b.expression σ) (by rw [hP hp]; simp)
    rw [hattributes, h.bound i b e hb he hlast hp, boundValue, boundValue, hvalue]
  exact hx := by
    obtain ⟨hx, rfl⟩ := hX hx
    rw [hattributes, h.exact hx]

omit [Presentable V] in
theorem Control.transport {label : String} {k : Nat} {F : Footprint}
    (h : Control G s label k body p o σ a c e content reads) (hs : Agree s s' p p' F)
    (ha : a ∈ F.nodes) (hc : c ∈ F.cells) (he : e ∈ F.effects) :
    Control G s' label k body p' o σ a c e content reads where
  hangs := hs.hangs ha h.hangs
  label := by
    rw [hs.hung ha h.hangs.parent]
    exact h.label
  cell := by rw [hs.cell c hc, h.cell]
  effect := by
    obtain ⟨env, hr, hrest⟩ := h.effect
    exact ⟨env, by rw [hs.effect e he, hr], hrest⟩
  clear := h.clear
  names := h.names
  locals := h.locals

omit [Presentable V] in
theorem Control.pick_eq {label : String} {k : Nat} {bs : Branches} {pick : Option Item}
    (h : Control G s label k body p o σ a c e content reads) (hkeep : Keeps m m' P P' s es)
    (he : e ∈ es) (hP : P e → bs.pick m σ = pick ∧ reads = branchReads m σ bs) (hP' : P' e) :
    bs.pick m' σ = pick ∧ reads = branchReads m' σ bs := by
  obtain ⟨hpe, hsame⟩ := hkeep e he hP'
  obtain ⟨hpick, hreads⟩ := hP hpe
  obtain ⟨env, hr, -⟩ := h.effect
  have hsame' := hsame _ hr
  rw [hreads] at hsame'
  obtain ⟨hpick', hreads'⟩ := pick_eq_of_same hsame'
  exact ⟨hpick'.trans hpick, hreads.trans hreads'.symm⟩

mutual

/-- A part that has been built stays so as long as its footprint is left alone and what its effects
have read is the same.  It may be hung below another node as a whole. -/
theorem Stands.transport (hX : X' → X ∧ m' = m) {item : Item} {p p' : NodeId} {o : List Nat}
    {σ : Scope V} {roots : List NodeId} {F : Footprint} :
    Stands G m P X s item p o σ roots F → Agree s s' p p' F → (p' = p ∨ p ∉ F.nodes) →
    Keeps m m' P P' s F.effects → Stands G m' P' X' s' item p' o σ roots F
  | .text hn ht, hs, _, hkeep => by
    refine .text (hs.hangs (by simp) hn) (ht.transport ?_ hs.effect hkeep)
    rw [hs.hung (by simp) hn.parent]
  | @Stands.element _ _ _ _ _ _ _ _ _ _ _ _ n es F hn hh hc, hs, hp, hkeep => by
    have hnode := hs.hung (by simp) hn.parent
    have hin := hs.inside hp (by simp) hc.placed (by simp) (by simp) (by simp)
    have hc' := hc.transport hX hin (.inl rfl) (hkeep.mono (by simp))
    have hkids : (s'.dom.node n).children = (s.dom.node n).children := by rw [hnode]
    rw [← hkids] at hc'
    refine .element (hs.hangs (by simp) hn) (hh.transport ?_ ?_ ?_ ?_ (hkeep.mono ?_) hX) hc'
    · rw [hnode]
    · rw [hnode]
    · rw [hnode]
    · exact fun e he => hs.effect e (by simp [he])
    · simp
  | @Stands.each _ _ _ _ _ _ _ clause _ _ _ σ _ _ _ _ _ _ hc hP hparts, hs, hp, hkeep => by
    refine .each (hc.transport hs (by simp) (by simp) (by simp)) (fun hp' => ?_) fun i part hi => ?_
    · obtain ⟨hpe, hsame⟩ := hkeep _ (by simp) hp'
      obtain ⟨hvalues, hreads⟩ := hP hpe
      obtain ⟨env, hr, -⟩ := hc.effect
      have hlist : m.items clause.list σ = m'.items clause.list σ :=
        hsame _ hr (.list clause.list σ) (by simp [hreads])
      exact ⟨by rw [hvalues, ForClause.values, ForClause.values, hlist], hreads⟩
    · obtain ⟨hsn, hsc, hse⟩ := partPrints_subset (mem_of_getElem? hi)
      refine (hparts i part hi).transport hX (hs.mono ?_ ?_ ?_) ?_ (hkeep.mono ?_)
      · exact subset_append_of_subset_left _ hsn
      · exact subset_cons_of_subset _ hsc
      · exact subset_cons_of_subset _ hse
      · exact hp.imp_right fun hp hm => hp (mem_append_left _ (hsn hm))
      · exact subset_cons_of_subset _ hse
  | .branch hc hP hb hbody, hs, hp, hkeep => by
    refine .branch (hc.transport hs (by simp) (by simp) (by simp))
      (hc.pick_eq hkeep (by simp) hP) hb
      (hbody.transport hX (hs.mono (by simp) (by simp) (by simp)) ?_ (hkeep.mono (by simp)))
    exact hp.imp_right fun hp hm => hp (mem_append_left _ hm)
  | .gap hc hP, hs, _, hkeep =>
    .gap (hc.transport hs (by simp) (by simp) (by simp)) (hc.pick_eq hkeep (by simp) hP)

theorem StandsAll.transport (hX : X' → X ∧ m' = m) {items : List Item} {p p' : NodeId}
    {o : List Nat} {σ : Scope V} {roots : List NodeId} {F : Footprint} :
    StandsAll G m P X s items p o σ roots F → Agree s s' p p' F → (p' = p ∨ p ∉ F.nodes) →
    Keeps m m' P P' s F.effects → StandsAll G m' P' X' s' items p' o σ roots F
  | .nil, _, _, _ => .nil
  | .cons hitem hrest, hs, hp, hkeep => by
    refine .cons
      (hitem.transport hX (hs.mono (by simp) (by simp) (by simp)) ?_ (hkeep.mono (by simp)))
      (hrest.transport hX (hs.mono (by simp) (by simp) (by simp)) ?_ (hkeep.mono (by simp)))
    · exact hp.imp_right fun hp hm => hp (mem_append_left _ hm)
    · exact hp.imp_right fun hp hm => hp (mem_append_right _ hm)

end

/-! ### What parts look like -/

theorem HeadStands.get?_attributes (h : HeadStands m P X s head o σ n es) (hP : ∀ e ∈ es, P e)
    (name : String) : (s.dom.node n).attributes.get? name = (attributesOf m σ head).get? name := by
  rw [attributesOf]
  by_cases hname : ∃ b ∈ head.bindings, lowered b.name = name
  · obtain ⟨i, b, hb, rfl, hlast⟩ := exists_last_binding hname
    have hlt : i < es.length := h.length ▸ (List.getElem?_eq_some_iff.1 hb).1
    have he := getElem?_eq_getElem hlt
    rw [h.bound i b _ hb he hlast (hP _ (getElem_mem hlt)),
      get?_applyValues_of_last m σ hb hlast]
  · have hno : ∀ b ∈ head.bindings, lowered b.name ≠ name := fun b hb e => hname ⟨b, hb, e⟩
    rw [h.plain name hno, get?_applyValues_of_ne m σ hno]

section Shows

variable {A : Type} {view : Table String → A}

omit [Presentable V] in
theorem showsAll_parts {parts : List (Part V)} (f : V → Nat → List (Tree A (Closure V))) (i : Nat)
    (h : ∀ (j : Nat) (part : Part V), parts[j]? = some part →
      ShowsAll view s.dom part.roots (f part.value (i + j))) :
    ShowsAll view s.dom (partRoots parts)
      (((parts.map Part.value).zipIdx i).flatMap fun (v, j) => f v j) := by
  induction parts generalizing i with
  | nil => trivial
  | cons part rest ih =>
    refine showsAll_append (h 0 part rfl) (ih (i + 1) fun j q hq => ?_)
    have := h (j + 1) q (by simpa using hq)
    rwa [show i + (j + 1) = i + 1 + j by omega] at this

mutual

/-- The nodes of a part look like the part, if no effect is waiting.  Unless the attributes are
those of the first run, they are only looked up by their names. -/
theorem Stands.shows
    (hview : X ∨ ∀ t t' : Table String, (∀ name, t.get? name = t'.get? name) → view t = view t')
    {item : Item} {p : NodeId} {o : List Nat} {σ : Scope V} {roots : List NodeId} {F : Footprint} :
    Stands G m P X s item p o σ roots F → (∀ e ∈ F.effects, P e) →
    ShowsAll view s.dom roots (renderItem view m σ item)
  | .text hn (.plain _ hdata), _ => ⟨⟨hn.kind, hdata⟩, trivial⟩
  | .text hn (.bound _ _ _ _ _ hdata), hP => ⟨⟨hn.kind, (hdata (hP _ (by simp))).2⟩, trivial⟩
  | .element hn hh hc, hP => by
    refine ⟨⟨hn.kind, hh.tag, ?_, hh.handlers, ?_⟩, trivial⟩
    · rcases hview with hx | hview
      · rw [hh.exact hx]
      · exact hview _ _ (hh.get?_attributes fun e he => hP e (by simp [he]))
    · exact hc.shows hview fun e he => hP e (by simp [he])
  | @Stands.each _ _ _ _ _ _ _ clause body _ _ σ _ _ _ e _ parts hc hvalues hparts, hP => by
    rw [renderItem, ← (hvalues (hP e (by simp))).1]
    refine showsAll_append
      (showsAll_parts (fun v i => renderItem view m (clause.bind σ v i) body) 0
        fun i part hi => ?_)
      ⟨⟨hc.hangs.kind, hc.label⟩, trivial⟩
    rw [Nat.zero_add]
    refine (hparts i part hi).shows hview fun f hf => hP f ?_
    exact mem_cons_of_mem _ ((partPrints_subset (mem_of_getElem? hi)).2.2 hf)
  | .branch hc hpick _ hbody, hP => by
    rw [renderItem_chain, (hpick (hP _ (by simp))).1]
    refine showsAll_append ?_ ⟨⟨hc.hangs.kind, hc.label⟩, trivial⟩
    exact hbody.shows hview fun f hf => hP f (by simp [hf])
  | .gap hc hpick, hP => by
    rw [renderItem_chain, (hpick (hP _ (by simp))).1]
    exact ⟨⟨hc.hangs.kind, hc.label⟩, trivial⟩

theorem StandsAll.shows
    (hview : X ∨ ∀ t t' : Table String, (∀ name, t.get? name = t'.get? name) → view t = view t')
    {items : List Item} {p : NodeId} {o : List Nat} {σ : Scope V} {roots : List NodeId}
    {F : Footprint} :
    StandsAll G m P X s items p o σ roots F → (∀ e ∈ F.effects, P e) →
    ShowsAll view s.dom roots (renderItems view m σ items)
  | .nil, _ => trivial
  | .cons hitem hrest, hP =>
    showsAll_append (hitem.shows hview fun e he => hP e (by simp [he]))
      (hrest.shows hview fun e he => hP e (by simp [he]))

end

end Shows

end Standing

end ReactiveMarkup.Output
