/-
Where a template fails: at the first element that continues no chain.

Conditions are grouped while siblings are read one after the other, with the chain that the
next of them may continue.  Whether an element continues a chain can also be told from its
siblings alone: the nearest one before it that is not a blank text has to be an element with
`tn-if` or `tn-else-if`.  A module is generated unless some element anywhere in the template
has no such sibling.

* `generate_fails_at_orphan`: generation fails at the first orphan.
-/
import ReactiveMarkup.Output.Module
import ReactiveMarkup.Proofs.Template.Grouping

namespace ReactiveMarkup.Template

open List

/-! ### Elements among their siblings -/

def Node.isBlank : Node → Bool
  | .text segments => isBlankRun segments
  | .element _ _ => false

def Node.isLink : Node → Bool
  | .text _ => false
  | .element head _ => head.directives.condition.isSome || head.directives.elseIf.isSome

/-- The nearest node before a place that is not a blank text. -/
def nearest? (before : List Node) : Option Node := (before.filter fun n => !n.isBlank).getLast?

/-- An element with its siblings before it. -/
structure Site where
  before : List Node
  head : Head

namespace Site

/-- Whether an element has `tn-else-if` or `tn-else` without `tn-if`, and there is nothing before it
that it continues. -/
def isOrphan (s : Site) : Bool :=
  s.head.directives.condition.isNone && s.head.directives.branchKind?.isSome &&
    !(nearest? s.before).any Node.isLink

/-- How an orphan would continue a chain. -/
def kind (s : Site) : BranchKind := if s.head.directives.elseIf.isSome then .elseIf else .otherwise

/-- The error about an orphan. -/
def fault (file : String) (s : Site) : Fault := orphan file s.kind s.head

theorem directive_kind (s : Site) :
    s.kind.directive = if s.head.directives.elseIf.isSome then "tn-else-if" else "tn-else" := by
  unfold kind
  split <;> rfl

end Site

mutual

/-- The elements in a node with siblings before it, in document order. -/
def sitesOf (before : List Node) : Node → List Site
  | .text _ => []
  | .element head children => ⟨before, head⟩ :: sitesIn [] children

/-- The elements in a sequence of nodes with siblings before it, in document order. -/
def sitesIn (before : List Node) : List Node → List Site
  | [] => []
  | node :: rest => sitesOf before node ++ sitesIn (before ++ [node]) rest

end

mutual

def listsOf : Node → List (List Node)
  | .text _ => []
  | .element _ children => children :: listsIn children

def listsIn : List Node → List (List Node)
  | [] => []
  | node :: rest => listsOf node ++ listsIn rest

end

def siblingLists (nodes : List Node) : List (List Node) := nodes :: listsIn nodes

def Site.In (s : Site) (siblings : List Node) : Prop :=
  ∃ children after, siblings = s.before ++ .element s.head children :: after

mutual

theorem mem_sitesOf {s : Site} (before : List Node) : ∀ node, s ∈ sitesOf before node ↔
    (∃ children, node = .element s.head children ∧ s.before = before) ∨
      ∃ siblings ∈ listsOf node, s.In siblings
  | .text _ => by simp [sitesOf, listsOf]
  | .element head children => by
    have hinner := mem_sitesIn (s := s) [] children
    simp only [nil_append] at hinner
    simp only [sitesOf, listsOf, mem_cons, hinner, exists_eq_or_imp]
    refine or_congr ⟨?_, ?_⟩ (or_congr ?_ Iff.rfl)
    · rintro rfl
      exact ⟨children, rfl, rfl⟩
    · rintro ⟨_, hnode, rfl⟩
      obtain ⟨rfl, -⟩ := Node.element.inj hnode
      rfl
    · constructor
      · rintro ⟨b, inner, after, rfl, hb⟩
        exact ⟨inner, after, by rw [hb]⟩
      · rintro ⟨inner, after, h⟩
        exact ⟨s.before, inner, after, h, rfl⟩

theorem mem_sitesIn {s : Site} (before : List Node) : ∀ nodes, s ∈ sitesIn before nodes ↔
    (∃ b children after, nodes = b ++ .element s.head children :: after ∧ s.before = before ++ b) ∨
      ∃ siblings ∈ listsIn nodes, s.In siblings
  | [] => by simp [sitesIn, listsIn]
  | node :: rest => by
    rw [sitesIn, mem_append, mem_sitesOf, mem_sitesIn, listsIn]
    simp only [mem_append, or_and_right, exists_or]
    rw [or_or_or_comm]
    refine or_congr ⟨?_, ?_⟩ Iff.rfl
    · rintro (⟨children, rfl, hb⟩ | ⟨b, children, after, rfl, hb⟩)
      · exact ⟨[], children, rest, rfl, by simp [hb]⟩
      · exact ⟨node :: b, children, after, rfl, by simp [hb]⟩
    · rintro ⟨b, children, after, hnodes, hb⟩
      cases b with
      | nil =>
        obtain ⟨rfl, -⟩ := List.cons.inj hnodes
        exact .inl ⟨children, rfl, by simpa using hb⟩
      | cons first b =>
        obtain ⟨rfl, rfl⟩ := List.cons.inj hnodes
        exact .inr ⟨b, children, after, rfl, by simp [hb]⟩

end

theorem mem_sitesIn_nil {nodes} :
    s ∈ sitesIn [] nodes ↔ ∃ siblings ∈ siblingLists nodes, s.In siblings := by
  rw [mem_sitesIn, siblingLists]
  simp only [mem_cons, exists_eq_or_imp]
  refine or_congr ⟨?_, ?_⟩ Iff.rfl
  · rintro ⟨b, children, after, rfl, hb⟩
    exact ⟨children, after, by rw [hb]; rfl⟩
  · rintro ⟨children, after, h⟩
    exact ⟨s.before, children, after, h, rfl⟩

theorem isSome_branchKind? (d : Directives) :
    d.branchKind?.isSome = (d.elseIf.isSome || d.otherwise) := by
  unfold Directives.branchKind?
  cases d.elseIf.isSome <;> cases d.otherwise <;> rfl

/-- There is nothing to continue before a place, before a text, or after an element that has no
condition of its own. -/
theorem any_isLink_eq_false_iff (o : Option Node) : o.any Node.isLink = false ↔
    o = none ∨ (∃ segments, o = some (.text segments)) ∨
      ∃ head children, o = some (.element head children) ∧
        head.directives.condition = none ∧ head.directives.elseIf = none := by
  match o with
  | none => simp
  | some (.text segments) => simp [Node.isLink]
  | some (.element head children) => simp [Node.isLink]

theorem Site.isOrphan_iff (s : Site) : s.isOrphan = true ↔
    s.head.directives.condition = none ∧
      (s.head.directives.elseIf.isSome ∨ s.head.directives.otherwise) ∧
      (nearest? s.before).any Node.isLink = false := by
  rw [isOrphan, isSome_branchKind?]
  simp [and_assoc]

/-! ### What grouping comes to -/

/-- Whether a result is that of a search for orphans: the fault of the first one, or a value if
there is none. -/
def Outcome {α : Type} (file : String) (r : Except Fault α) : Option Site → Prop
  | some s => r = .error (s.fault file)
  | none => ∃ a, r = .ok a

namespace Outcome

variable {α β : Type} {file : String} {r : Except Fault α} {f : α → Except Fault β}
  {o o' : Option Site}

theorem bind (h : Outcome file r o) (h' : ∀ a, Outcome file (f a) o') :
    Outcome file (r >>= f) (o.or o') := by
  cases o with
  | some s =>
    obtain rfl : r = .error (s.fault file) := h
    rfl
  | none =>
    obtain ⟨a, rfl⟩ : ∃ a, r = .ok a := h
    exact h' a

theorem error_iff (h : Outcome file r o) (fault : Fault) :
    r = .error fault ↔ ∃ s, o = some s ∧ fault = s.fault file := by
  cases o with
  | some s =>
    obtain rfl : r = .error (s.fault file) := h
    simp [eq_comm]
  | none =>
    obtain ⟨a, rfl⟩ : ∃ a, r = .ok a := h
    simp

theorem map (h : Outcome file r o) (g : α → β) : Outcome file (r >>= fun a => .ok (g a)) o := by
  have hall : Outcome file (r >>= fun a => .ok (g a)) (o.or none) := h.bind fun a => ⟨g a, rfl⟩
  rwa [Option.or_none] at hall

end Outcome

/-- The first orphan among siblings and in them, given the siblings before them. -/
def firstOrphan? (before nodes : List Node) : Option Site :=
  (sitesIn before nodes).find? Site.isOrphan

theorem firstOrphan?_element (before : List Node) (head : Head) (children rest : List Node) :
    firstOrphan? before (.element head children :: rest) =
      if Site.isOrphan ⟨before, head⟩ then some ⟨before, head⟩
      else (firstOrphan? [] children).or
        (firstOrphan? (before ++ [.element head children]) rest) := by
  rw [firstOrphan?, sitesIn, sitesOf, cons_append, find?_cons, find?_append]
  cases Site.isOrphan ⟨before, head⟩ <;> rfl

/-- Whether the chain that the next node may continue is open just if there is something to
continue. -/
def Fits (chain : Option OpenChain) (before : List Node) : Prop :=
  chain.isSome = (nearest? before).any Node.isLink

theorem nearest?_append_blank (before : List Node) (node : Node) (h : node.isBlank = true) :
    nearest? (before ++ [node]) = nearest? before := by
  simp [nearest?, h]

theorem nearest?_append (before : List Node) (node : Node) (h : node.isBlank = false) :
    nearest? (before ++ [node]) = some node := by
  simp [nearest?, h]

theorem fits_append_element (chain : Option OpenChain) (before : List Node) (head : Head)
    (children : List Node) : Fits chain (before ++ [.element head children]) ↔
      chain.isSome = (head.directives.condition.isSome || head.directives.elseIf.isSome) := by
  rw [Fits, nearest?_append before _ rfl, Option.any_some, Node.isLink]

theorem fits_none_nil : Fits none [] := rfl

theorem Site.kind_of_branchKind? {s : Site} (h : s.head.directives.branchKind? = some k) :
    s.kind = k := by
  unfold Directives.branchKind? at h
  unfold Site.kind
  split at h
  · rename_i he
    rw [if_pos he]
    exact Option.some_inj.1 h
  · rename_i he
    rw [if_neg he]
    split at h
    · exact Option.some_inj.1 h
    · cases h

theorem planFrom_outcome (file : String) (chain : Option OpenChain) (before nodes : List Node)
    (h : Fits chain before) :
    Outcome file (planFrom file chain nodes) (firstOrphan? before nodes) := by
  match nodes with
  | [] =>
    rw [planFrom]
    exact ⟨_, rfl⟩
  | .text segments :: rest =>
    rw [planFrom.eq_def]
    dsimp only
    split
    · next open_ hblank =>
      refine planFrom_outcome file _ _ rest ?_
      rw [Fits, nearest?_append_blank before (.text segments) hblank]
      exact h
    · next chain _ _ hnot =>
      refine (planFrom_outcome file none _ rest ?_).map _
      -- A text that is not blank ends any chain; a blank one is skipped where no chain is open.
      by_cases hblank : isBlankRun segments = true
      · cases chain with
        | none =>
          rw [Fits, nearest?_append_blank before (.text segments) hblank]
          exact h
        | some c => exact absurd hblank (hnot c rfl)
      · rw [Fits, nearest?_append before (.text segments) (by simpa [Node.isBlank] using hblank)]
        rfl
  | .element head children :: rest =>
    have hinner := planFrom_outcome file none [] children fits_none_nil
    have hrest chain hf :=
      planFrom_outcome file chain (before ++ [.element head children]) rest
        ((fits_append_element chain before head children).2 hf)
    rw [firstOrphan?_element, planFrom]
    split
    · next condition _ hc =>
      rw [if_neg (by simp [Site.isOrphan, hc])]
      exact hinner.bind fun inner => (hrest _ (by simp [hc])).map _
    · next hc hk =>
      have he : head.directives.elseIf = none := by
        have hnone := isSome_branchKind? head.directives
        rw [hk] at hnone
        simpa using (Bool.or_eq_false_iff.1 hnone.symm).1
      rw [if_neg (by simp [Site.isOrphan, hk])]
      exact hinner.bind fun inner => (hrest none (by simp [hc, he])).map _
    · next kind hc hk =>
      have horphan : Site.isOrphan ⟨before, head⟩ = !chain.isSome := by
        rw [h]
        simp [Site.isOrphan, hc, hk]
      split
      · rw [horphan]
        exact congrArg (fun k => Except.error (orphan file k head))
          (Site.kind_of_branchKind? hk).symm
      · next chain =>
        rw [if_neg (by simp [horphan])]
        refine hinner.bind fun inner => ?_
        split
        · next condition he => exact hrest _ (by simp [he])
        · next he => exact (hrest none (by simp [hc, he])).map _
termination_by sizeOf nodes
decreasing_by
  all_goals
    simp only [List.cons.sizeOf_spec, Node.element.sizeOf_spec]
    omega

end ReactiveMarkup.Template

namespace ReactiveMarkup.Output

open Template List

theorem generate_outcome (nodes : List Node) (sections : Component.Sections) (options : Options) :
    Outcome options.file (generate nodes sections options) (firstOrphan? [] nodes) :=
  (planFrom_outcome options.file none [] nodes fits_none_nil).map _

/-- When there is no module for a template.  Generation fails just if some list of siblings has an
element that would continue a chain, and the nearest sibling before it that is not a blank text
leaves no chain to continue.  It then tells the first such element in document order, by its
directive, its tag and its place. -/
theorem generate_fails_at_orphan (nodes : List Node) (sections : Component.Sections)
    (options : Options) :
    ((∃ fault, generate nodes sections options = .error fault) ↔
      ∃ siblings ∈ siblingLists nodes, ∃ before head children after,
        siblings = before ++ .element head children :: after ∧
        head.directives.condition = none ∧
        (head.directives.elseIf.isSome ∨ head.directives.otherwise) ∧
        (nearest? before = none ∨ (∃ segments, nearest? before = some (.text segments)) ∨
          ∃ other inner, nearest? before = some (.element other inner) ∧
            other.directives.condition = none ∧ other.directives.elseIf = none)) ∧
    ∀ fault, generate nodes sections options = .error fault ↔
      ∃ earlier s later, sitesIn [] nodes = earlier ++ s :: later ∧
        s.isOrphan ∧ (∀ x ∈ earlier, ¬ x.isOrphan) ∧ fault = s.fault options.file ∧
        fault.report = {
          code := "TN-DIR-003"
          message := "`" ++ (if s.head.directives.elseIf.isSome then "tn-else-if" else "tn-else") ++
            "` on <" ++ s.head.tag ++ "> has no preceding `tn-if`"
          file := options.file
          position := s.head.position
          hints := ["Place <" ++ s.head.tag ++ "> directly after an element with tn-if"] } := by
  have houtcome := generate_outcome nodes sections options
  constructor
  · simp only [houtcome.error_iff, ← any_isLink_eq_false_iff]
    constructor
    · rintro ⟨_, s, hs, rfl⟩
      obtain ⟨siblings, hmem, children, after, hin⟩ :=
        mem_sitesIn_nil.1 (mem_of_find?_eq_some hs)
      exact ⟨siblings, hmem, s.before, s.head, children, after, hin,
        s.isOrphan_iff.1 (find?_some hs)⟩
    · rintro ⟨siblings, hmem, before, head, children, after, hin, horphan⟩
      have hsite : ⟨before, head⟩ ∈ sitesIn [] nodes :=
        mem_sitesIn_nil.2 ⟨siblings, hmem, children, after, hin⟩
      have hsome : (firstOrphan? [] nodes).isSome :=
        find?_isSome.2 ⟨_, hsite, (Site.isOrphan_iff _).2 horphan⟩
      obtain ⟨s, hs⟩ := Option.isSome_iff_exists.1 hsome
      exact ⟨s.fault options.file, s, hs, rfl⟩
  · intro fault
    rw [houtcome.error_iff]
    constructor
    · rintro ⟨s, hs, rfl⟩
      obtain ⟨horphan, earlier, later, hsites, hearlier⟩ := find?_eq_some_iff_append.1 hs
      refine ⟨earlier, s, later, hsites, horphan, fun x hx => by simpa using hearlier x hx, rfl, ?_⟩
      rw [← Site.directive_kind]
      rfl
    · rintro ⟨earlier, s, later, hsites, horphan, hearlier, rfl, -⟩
      refine ⟨s, find?_eq_some_iff_append.2 ⟨horphan, earlier, later, hsites, ?_⟩, rfl⟩
      exact fun x hx => by simpa using hearlier x hx

end ReactiveMarkup.Output
