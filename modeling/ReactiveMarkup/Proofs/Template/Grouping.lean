/-
Grouping the conditions of a template does not change what it stands for.

A template that has been grouped can be rendered part by part: each chain has its
branches with it.  The trees are those of the template as it was written, where
the elements of a chain have to be looked for among their siblings.
-/
import ReactiveMarkup.Proofs.Results
import ReactiveMarkup.Proofs.Template.Rendering
import ReactiveMarkup.Template.Plan

namespace ReactiveMarkup.Template

open List

open Markup (Segment)

variable {V : Type}

/-! ### Branches -/

def Branches.bodies : Branches → List Item
  | .done => []
  | .otherwise body => [body]
  | .elseIf _ body rest => body :: rest.bodies

def Branches.pick (m : Meaning V) (σ : Scope V) : Branches → Option Item
  | .done => none
  | .otherwise body => some body
  | .elseIf condition body rest => if m.holds condition σ then some body else rest.pick m σ

theorem Branches.mem_bodies_of_pick {m : Meaning V} {body} :
    ∀ {bs : Branches}, bs.pick m σ = some body → body ∈ bs.bodies
  | .done, h => by simp [pick] at h
  | .otherwise other, h => by simp_all [pick, bodies]
  | .elseIf condition other rest, h => by
    rw [pick] at h
    split at h
    · simp_all [bodies]
    · exact .tail _ (mem_bodies_of_pick h)

/-- What holds of a part if it holds of the parts in it. -/
structure Hereditary (motive : Item → Prop) : Prop where
  text : ∀ segments, motive (.text segments)
  element : ∀ head children, (∀ item ∈ children, motive item) → motive (.element head children)
  each : ∀ clause body, motive body → motive (.each clause body)
  chain : ∀ condition body rest,
    (∀ b ∈ (Branches.elseIf condition body rest).bodies, motive b) →
    motive (.chain condition body rest)

namespace Hereditary

variable {motive : Item → Prop}

mutual

theorem item (h : Hereditary motive) : ∀ item, motive item
  | .text segments => h.text segments
  | .element head children => h.element head children (items h children)
  | .each clause body => h.each clause body (item h body)
  | .chain condition body rest => by
    refine h.chain condition body rest fun b hb => ?_
    rcases mem_cons.1 hb with hb | hb
    · rw [hb]
      exact item h body
    · exact branches h rest b hb

theorem items (h : Hereditary motive) : ∀ items : List Item, ∀ item ∈ items, motive item
  | [], _, hi => by simp at hi
  | first :: rest, i, hi => by
    rcases mem_cons.1 hi with hi | hi
    · rw [hi]
      exact item h first
    · exact items h rest i hi

theorem branches (h : Hereditary motive) : ∀ bs : Branches, ∀ b ∈ bs.bodies, motive b
  | .done, _, hb => by simp [Branches.bodies] at hb
  | .otherwise body, b, hb => by
    rw [Branches.bodies, mem_singleton] at hb
    rw [hb]
    exact item h body
  | .elseIf _ body rest, b, hb => by
    rcases mem_cons.1 hb with hb | hb
    · rw [hb]
      exact item h body
    · exact branches h rest b hb

end

end Hereditary

/-- Induction over parts, with the parts of an element and the branches of a chain at once. -/
@[elab_as_elim]
theorem Item.induction {motive : Item → Prop} (text : ∀ segments, motive (.text segments))
    (element : ∀ head children, (∀ item ∈ children, motive item) →
      motive (.element head children))
    (each : ∀ clause body, motive body → motive (.each clause body))
    (chain : ∀ condition body rest,
      (∀ b ∈ (Branches.elseIf condition body rest).bodies, motive b) →
      motive (.chain condition body rest)) (item : Item) : motive item :=
  Hereditary.item ⟨text, element, each, chain⟩ item

/-! ### Trees of parts -/

variable [Presentable V]

variable {head : Head} {children nodes : List Node} {α : Type}

section Items

variable {A : Type} (view : Table String → A) (m : Meaning V)

mutual

def renderItem (σ : Scope V) : Item → List (Tree A (Closure V))
  | .text segments => [.text (textOf m σ segments)]
  | .element head children => [renderHead view m σ head (renderItems σ children)]
  | .each clause body =>
    (clause.values m σ).zipIdx.flatMap (fun (item, i) => renderItem (clause.bind σ item i) body) ++
      [.comment "tn-for"]
  | .chain condition body rest =>
    (if m.holds condition σ then renderItem σ body else renderBranches σ rest) ++
      [.comment "tn-if"]

def renderItems (σ : Scope V) : List Item → List (Tree A (Closure V))
  | [] => []
  | item :: rest => renderItem σ item ++ renderItems σ rest

def renderBranches (σ : Scope V) : Branches → List (Tree A (Closure V))
  | .done => []
  | .otherwise body => renderItem σ body
  | .elseIf condition body rest =>
    if m.holds condition σ then renderItem σ body else renderBranches σ rest

end

theorem renderBranches_eq_pick (σ : Scope V) : ∀ bs : Branches,
    renderBranches view m σ bs = ((bs.pick m σ).map (renderItem view m σ)).getD []
  | .done => rfl
  | .otherwise body => rfl
  | .elseIf condition body rest => by
    rw [renderBranches, Branches.pick]
    split
    · rfl
    · exact renderBranches_eq_pick σ rest

theorem renderItem_chain (σ : Scope V) (condition : String) (body : Item) (rest : Branches) :
    renderItem view m σ (.chain condition body rest) =
      (((Branches.elseIf condition body rest).pick m σ).map (renderItem view m σ)).getD [] ++
        [.comment "tn-if"] := by
  rw [← renderBranches_eq_pick]
  rfl

variable {view m}

variable (view m)

/-- The branches of a chain that is open: for each whether it holds, and its trees. -/
def OpenChain.branches (chain : OpenChain) (σ : Scope V) :
    List (Bool × List (Tree A (Closure V))) :=
  (m.holds chain.condition σ, renderItem view m σ chain.body) ::
    chain.others.reverse.map fun b => (m.holds b.1 σ, renderItem view m σ b.2)

variable {view m}

end Items

/-! ### Siblings, one by one -/

/-- How siblings are grouped, given the chain that the first of them may continue. -/
inductive Groups : Option OpenChain → List Node → List Item → Prop where
  | nil (chain : Option OpenChain) : Groups chain [] (closeChain chain)
  | blank {chain : OpenChain} {segments : List Segment} {rest : List Node} {items : List Item} :
    isBlankRun segments = true → Groups (some (chain.skip segments)) rest items →
    Groups (some chain) (.text segments :: rest) items
  | text {chain : Option OpenChain} {segments : List Segment} {rest : List Node}
      {items : List Item} :
    (chain = none ∨ isBlankRun segments = false) → Groups none rest items →
    Groups chain (.text segments :: rest) (closeChain chain ++ .text segments :: items)
  | condition {chain : Option OpenChain} {head : Head} {children rest : List Node}
      {condition : String} {inner items : List Item} :
    head.directives.condition = some condition → Groups none children inner →
    Groups (some (.start condition (repeated head inner))) rest items →
    Groups chain (.element head children :: rest) (closeChain chain ++ items)
  | plain {chain : Option OpenChain} {head : Head} {children rest : List Node}
      {inner items : List Item} :
    head.directives.condition = none → head.directives.branchKind? = none →
    Groups none children inner → Groups none rest items →
    Groups chain (.element head children :: rest)
      (closeChain chain ++ repeated head inner :: items)
  | elseIf {chain : OpenChain} {head : Head} {children rest : List Node} {condition : String}
      {inner items : List Item} :
    head.directives.condition = none → head.directives.elseIf = some condition →
    Groups none children inner →
    Groups (some (chain.push condition (repeated head inner))) rest items →
    Groups (some chain) (.element head children :: rest) items
  | otherwise {chain : OpenChain} {head : Head} {children rest : List Node}
      {inner items : List Item} :
    head.directives.condition = none → head.directives.elseIf = none →
    head.directives.otherwise = true → Groups none children inner → Groups none rest items →
    Groups (some chain) (.element head children :: rest)
      (chain.closeWith (repeated head inner) :: items)

theorem groups_of_planFrom {file : String} (chain : Option OpenChain) (nodes : List Node) {items}
    (h : planFrom file chain nodes = .ok items) : Groups chain nodes items := by
  match nodes with
  | [] =>
    rw [planFrom] at h
    cases h
    exact .nil chain
  | .text segments :: rest =>
    rw [planFrom.eq_def] at h
    dsimp only at h
    split at h
    · next chain hblank => exact .blank hblank (groups_of_planFrom _ rest h)
    · next chain _ _ hnot =>
      obtain ⟨items', hrest, h⟩ := exists_of_bind_eq_ok h
      cases h
      refine .text ?_ (groups_of_planFrom _ rest hrest)
      cases chain with
      | none => exact .inl rfl
      | some chain => exact .inr (by simpa using hnot chain rfl)
  | .element head children :: rest =>
    rw [planFrom] at h
    split at h
    · next condition kind hc =>
      obtain ⟨inner, hinner, h⟩ := exists_of_bind_eq_ok h
      obtain ⟨items', hrest, h⟩ := exists_of_bind_eq_ok h
      cases h
      exact .condition hc (groups_of_planFrom _ children hinner) (groups_of_planFrom _ rest hrest)
    · next hc hk =>
      obtain ⟨inner, hinner, h⟩ := exists_of_bind_eq_ok h
      obtain ⟨items', hrest, h⟩ := exists_of_bind_eq_ok h
      cases h
      exact .plain hc hk (groups_of_planFrom _ children hinner) (groups_of_planFrom _ rest hrest)
    · next kind hc hk =>
      split at h
      · cases h
      · next chain =>
        obtain ⟨inner, hinner, h⟩ := exists_of_bind_eq_ok h
        have hchildren := groups_of_planFrom _ children hinner
        split at h
        · next condition he =>
          exact .elseIf hc he hchildren (groups_of_planFrom _ rest h)
        · next he =>
          obtain ⟨items', hrest, h⟩ := exists_of_bind_eq_ok h
          cases h
          refine .otherwise hc he ?_ hchildren (groups_of_planFrom _ rest hrest)
          have ho : head.directives.otherwise = true ∧ BranchKind.otherwise = kind := by
            simpa [Directives.branchKind?, he] using hk
          exact ho.1
termination_by sizeOf nodes
decreasing_by
  all_goals
    simp only [List.cons.sizeOf_spec, Node.element.sizeOf_spec]
    omega

variable {chain : Option OpenChain}

section Items

variable {A : Type} {view : Table String → A} {m : Meaning V}

end Items

/-! ### What holds everywhere in a template -/

mutual

def headsOf : Node → List Head
  | .text _ => []
  | .element head children => head :: headsIn children

def headsIn : List Node → List Head
  | [] => []
  | node :: rest => headsOf node ++ headsIn rest

end

mutual

def textsOf : Node → List (List Segment)
  | .text segments => [segments]
  | .element _ children => textsIn children

def textsIn : List Node → List (List Segment)
  | [] => []
  | node :: rest => textsOf node ++ textsIn rest

end

/-- What is asked of the parts of a template. -/
structure Rules where
  text : List Segment → Prop
  head : Head → Prop
  clause : ForClause → Prop
  /-- Asked of each branch of a chain. -/
  branch : Item → Prop

/-- Whether a part is an element that is just there. -/
def Item.isElement : Item → Bool
  | .element _ _ => true
  | _ => false

namespace Rules

variable (R : Rules)

mutual

def Item : Template.Item → Prop
  | .text segments => R.text segments
  | .element head children => R.head head ∧ Items children
  | .each clause body => R.clause clause ∧ body.isElement ∧ Item body
  | .chain _ body rest => R.branch body ∧ Item body ∧ Branches rest

def Items : List Template.Item → Prop
  | [] => True
  | item :: rest => Item item ∧ Items rest

def Branches : Template.Branches → Prop
  | .done => True
  | .otherwise body => R.branch body ∧ Item body
  | .elseIf _ body rest => R.branch body ∧ Item body ∧ Branches rest

end

/-- Whether the elements and texts of a template obey. -/
structure Nodes (nodes : List Node) : Prop where
  text : ∀ segments ∈ textsIn nodes, R.text segments
  head : ∀ head ∈ headsIn nodes, R.head head
  clause : ∀ head ∈ headsIn nodes, ∀ clause ∈ head.directives.each, R.clause clause
  branch : ∀ head ∈ headsIn nodes, head.directives.isConditional →
    ∀ children, R.branch (repeated head children)

variable {R}

variable {items : List Template.Item}

theorem item_of_mem {item} (h : R.Items items) (hmem : item ∈ items) : R.Item item := by
  induction items with
  | nil => simp at hmem
  | cons first rest ih =>
    rcases mem_cons.1 hmem with rfl | hmem
    · exact h.1
    · exact ih h.2 hmem

theorem branch_of_mem : ∀ {bs : Template.Branches},
    R.Branches bs → b ∈ bs.bodies → R.branch b ∧ R.Item b
  | .done, _, hmem => by simp [Template.Branches.bodies] at hmem
  | .otherwise body, h, hmem => by
    obtain rfl : b = body := by simpa [Template.Branches.bodies] using hmem
    exact h
  | .elseIf _ body rest, h, hmem => by
    rcases mem_cons.1 hmem with rfl | hmem
    · exact ⟨h.1, h.2.1⟩
    · exact branch_of_mem h.2.2 hmem

theorem branches_ofList {others} {last} (h : ∀ b ∈ others, R.branch b.2 ∧ R.Item b.2)
    (hlast : R.Branches last) : R.Branches (.ofList others last) := by
  induction others generalizing last with
  | nil => exact hlast
  | cons b rest ih =>
    have hb := h b (by simp)
    exact ih (fun b' hb' => h b' (.tail _ hb')) ⟨hb.1, hb.2, hlast⟩

structure Chain (R : Rules) (chain : OpenChain) : Prop where
  first : R.branch chain.body ∧ R.Item chain.body
  others : ∀ b ∈ chain.others, R.branch b.2 ∧ R.Item b.2
  blanks : ∀ segments ∈ chain.blanks, R.text segments

theorem Chain.close {chain} (h : R.Chain chain) : R.Items chain.close := by
  refine ⟨⟨h.first.1, h.first.2, branches_ofList h.others trivial⟩, ?_⟩
  have hblanks := h.blanks
  generalize chain.blanks = blanks at hblanks
  induction blanks with
  | nil => trivial
  | cons t rest ih => exact ⟨hblanks t (by simp), ih fun t' h' => hblanks t' (by simp [h'])⟩

theorem Nodes.mono (h : R.Nodes b) (ht : textsIn a ⊆ textsIn b) (hh : headsIn a ⊆ headsIn b) :
    R.Nodes a where
  text segments hs := h.text segments (ht hs)
  head head hm := h.head head (hh hm)
  clause head hm := h.clause head (hh hm)
  branch head hm := h.branch head (hh hm)

end Rules

end ReactiveMarkup.Template
