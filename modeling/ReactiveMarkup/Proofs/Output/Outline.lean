/-
The outline of a module is that of its template.

A module shows, in the order of its lines, where its chains and repetitions are marked, the
conditions at the heads of each chain, the elements that it makes, and the handlers that they
get.  All of this stands in the template in the same order.  Whether an element goes on with a
chain can be told from the siblings before it, so the outline of a template is read off its
nodes one by one.
-/
import ReactiveMarkup.Proofs.Output.FirstRun
import ReactiveMarkup.Proofs.Output.Scoping
import ReactiveMarkup.Proofs.Template.Orphans

namespace ReactiveMarkup.Template

open List
open Output (clauseNames)
open Text (quote)

/-- What a module shows of a template. -/
inductive Sign where
  | marker (label : String)
  /-- The conditions of the branches of a chain; a last branch without one has none. -/
  | choice (heads : List (Option String))
  /-- A branch after the first one, with its condition. -/
  | branch (head : Option String)
  | element (tag : String) (isComponent : Bool)
  | handler (event : Binding)
  | alias (name : String)

namespace Sign

def label? : Sign → Option String
  | .marker label => some label
  | _ => none

def heads? : Sign → Option (List (Option String))
  | .choice heads => some heads
  | _ => none

def element? : Sign → Option (String × Bool)
  | .element tag isComponent => some (tag, isComponent)
  | _ => none

def event? : Sign → Option Binding
  | .handler event => some event
  | _ => none

def alias? : Sign → Option String
  | .alias name => some name
  | _ => none

/-- What a line of the module shows of a sign: of a chain, its first condition. -/
def written? : Sign → Option Sign
  | .marker label => some (.marker (quote label))
  | .choice heads => some (.choice (heads.take 1))
  | .branch head => some (.branch head)
  | .element tag isComponent => some (.element (if isComponent then tag else quote tag) isComponent)
  | .handler _ | .alias _ => none

end Sign

/-! ### The outline of a template -/

/-- The conditions of the elements that go on with a chain. -/
def followers : List Node → List (Option String)
  | [] => []
  | .text segments :: rest => if isBlankRun segments then followers rest else []
  | .element head _ :: rest =>
    if head.continues then
      if head.directives.elseIf.isSome then head.directives.elseIf :: followers rest else [none]
    else []

def Head.signs (head : Head) : List Sign :=
  .element head.tag head.isComponent ::
    if head.isComponent then [] else head.events.map .handler

def eachSigns (clause : ForClause) : List Sign :=
  .marker "tn-for" :: (clauseNames clause).map .alias

def chainSigns (heads : List (Option String)) : List Sign := [.marker "tn-if", .choice heads]

/-- An element with its directives, given the conditions that follow. -/
def Head.outline (head : Head) (later : List (Option String)) : List Sign :=
  (if head.directives.condition.isSome then chainSigns (head.directives.condition :: later)
    else if head.continues then [.branch head.directives.elseIf] else []) ++
  head.directives.each.toList.flatMap eachSigns ++ head.signs

mutual

/-- The elements in a node, each with the conditions that follow among its siblings. -/
def linksOf (later : List (Option String)) : Node → List (Head × List (Option String))
  | .text _ => []
  | .element head children => (head, later) :: linksIn children

def linksIn : List Node → List (Head × List (Option String))
  | [] => []
  | node :: rest => linksOf (followers rest) node ++ linksIn rest

end

mutual

theorem heads_linksOf (later : List (Option String)) : ∀ node : Node,
    (linksOf later node).map Prod.fst = headsOf node
  | .text _ => rfl
  | .element head children => congrArg (head :: ·) (heads_linksIn children)

theorem heads_linksIn : ∀ nodes : List Node, (linksIn nodes).map Prod.fst = headsIn nodes
  | [] => rfl
  | node :: rest => by rw [linksIn, map_append, heads_linksOf, heads_linksIn, headsIn]

end

/-- The chains of a template in document order, each with the conditions of its branches. -/
def chainsIn (nodes : List Node) : List (List (Option String)) :=
  (linksIn nodes).flatMap fun link =>
    if link.1.directives.condition.isSome then [link.1.directives.condition :: link.2] else []

/-- The signs that a template asks for, in order. -/
def outlineIn (nodes : List Node) : List Sign :=
  (linksIn nodes).flatMap fun link => link.1.outline link.2

theorem outlineIn_element (head : Head) (children rest : List Node) :
    outlineIn (.element head children :: rest) =
      head.outline (followers rest) ++ outlineIn children ++ outlineIn rest := by
  simp [outlineIn, linksIn, linksOf]

theorem filterMap_outlineIn {β : Type} {f : Sign → Option β} {g}
    (h : ∀ head later, (Head.outline head later).filterMap f = g head) (nodes : List Node) :
    (outlineIn nodes).filterMap f = (headsIn nodes).flatMap g := by
  rw [outlineIn, filterMap_flatMap, ← heads_linksIn, flatMap_map]
  simp only [h]

/-! ### The outline of parts -/

def Branches.heads : Branches → List (Option String)
  | .done => []
  | .otherwise _ => [none]
  | .elseIf condition _ rest => some condition :: rest.heads

mutual

def Item.outline : Item → List Sign
  | .text _ => []
  | .element head children => head.signs ++ itemsOutline children
  | .each clause body => eachSigns clause ++ body.outline
  | .chain condition body rest =>
    chainSigns (some condition :: rest.heads) ++ body.outline ++ rest.outline

def itemsOutline : List Item → List Sign
  | [] => []
  | item :: rest => item.outline ++ itemsOutline rest

def Branches.outline : Branches → List Sign
  | .done => []
  | .otherwise body => .branch none :: body.outline
  | .elseIf condition body rest => .branch (some condition) :: body.outline ++ rest.outline

end

theorem itemsOutline_append (l l' : List Item) :
    itemsOutline (l ++ l') = itemsOutline l ++ itemsOutline l' := by
  induction l with
  | nil => rfl
  | cons item rest ih => rw [cons_append, itemsOutline, itemsOutline, ih, append_assoc]

theorem itemsOutline_texts (texts : List (List Markup.Segment)) :
    itemsOutline (texts.map Item.text) = [] := by
  induction texts with
  | nil => rfl
  | cons t rest ih => rw [map_cons, itemsOutline, ih, Item.outline, nil_append]

theorem heads_ofList (others : List (String × Item)) (last : Branches) :
    (Branches.ofList others last).heads = others.reverse.map (fun b => some b.1) ++ last.heads := by
  induction others generalizing last with
  | nil => rfl
  | cons b rest ih =>
    rw [Branches.ofList, foldl_cons, ← Branches.ofList, ih, Branches.heads]
    simp

theorem outline_ofList (others : List (String × Item)) (last : Branches) :
    (Branches.ofList others last).outline =
      others.reverse.flatMap (fun b => .branch (some b.1) :: b.2.outline) ++ last.outline := by
  induction others generalizing last with
  | nil => rfl
  | cons b rest ih =>
    rw [Branches.ofList, foldl_cons, ← Branches.ofList, ih, Branches.outline]
    simp

theorem outline_repeated (head : Head) (children : List Item) :
    (repeated head children).outline =
      head.directives.each.toList.flatMap eachSigns ++ head.signs ++ itemsOutline children := by
  rw [repeated]
  cases head.directives.each with
  | none => rfl
  | some clause => rw [Item.outline, Item.outline]; simp

/-- The outline of siblings after an open chain, with that of the chain. -/
def outlineAfter : Option OpenChain → List Node → List Sign
  | none, nodes => outlineIn nodes
  | some chain, nodes =>
    chainSigns (some chain.condition :: chain.others.reverse.map (fun b => some b.1) ++
        followers nodes) ++
      chain.body.outline ++
      chain.others.reverse.flatMap (fun b => .branch (some b.1) :: b.2.outline) ++ outlineIn nodes

theorem itemsOutline_closeChain (chain : Option OpenChain) {nodes} (h : followers nodes = []) :
    itemsOutline (closeChain chain) ++ outlineIn nodes = outlineAfter chain nodes := by
  cases chain with
  | none => rfl
  | some chain =>
    rw [closeChain, OpenChain.close, itemsOutline, itemsOutline_texts, Item.outline, heads_ofList,
      outline_ofList, outlineAfter, h]
    simp [Branches.heads, Branches.outline]

theorem Groups.outline_eq {chain} {nodes} {items} (h : Groups chain nodes items) :
    itemsOutline items = outlineAfter chain nodes := by
  induction h with
  | nil chain =>
    have hclose := itemsOutline_closeChain chain (show followers [] = [] from rfl)
    rwa [show outlineIn [] = [] from rfl, append_nil] at hclose
  | @blank chain segments rest items hblank _ ih =>
    rw [ih, outlineAfter, outlineAfter, followers, if_pos hblank]
    rfl
  | @text chain segments rest items hnot _ ih =>
    have hitems : itemsOutline (.text segments :: items) = outlineIn (.text segments :: rest) := by
      rw [itemsOutline, ih]
      rfl
    rw [itemsOutline_append, hitems]
    rcases hnot with rfl | hnot
    · rfl
    · exact itemsOutline_closeChain chain (by simp [followers, hnot])
  | @condition chain head children rest condition inner items hc _ _ ihInner ih =>
    have hitems : itemsOutline items = outlineIn (.element head children :: rest) := by
      rw [ih, outlineIn_element, Head.outline, hc]
      simp [OpenChain.start, outline_repeated, ihInner, outlineAfter]
    rw [itemsOutline_append, hitems]
    exact itemsOutline_closeChain chain (by simp [followers, Head.continues, hc])
  | @plain chain head children rest inner items hc hk _ _ ihInner ih =>
    have hitems : itemsOutline (repeated head inner :: items) =
        outlineIn (.element head children :: rest) := by
      rw [itemsOutline, ih, outline_repeated, ihInner, outlineIn_element, Head.outline, hc]
      simp [outlineAfter, Head.continues, hk]
    rw [itemsOutline_append, hitems]
    exact itemsOutline_closeChain chain (by simp [followers, Head.continues, hk])
  | @elseIf chain head children rest condition inner items hc he _ _ ihInner ih =>
    have hcont : head.continues = true := by
      simp [Head.continues, Directives.branchKind?, hc, he]
    rw [ih, outlineAfter, outlineAfter, followers, if_pos hcont, outlineIn_element, Head.outline,
      hc]
    simp [OpenChain.push, outline_repeated, ihInner, outlineAfter, he, hcont]
  | @otherwise chain head children rest inner items hc he ho _ _ ihInner ih =>
    have hcont : head.continues = true := by
      simp [Head.continues, Directives.branchKind?, hc, he, ho]
    rw [itemsOutline, ih, OpenChain.closeWith, Item.outline, heads_ofList, outline_ofList,
      outlineAfter, outlineAfter, followers, if_pos hcont, if_neg (by simp [he]), outlineIn_element,
      Head.outline, hc]
    simp [Branches.heads, Branches.outline, outline_repeated, ihInner, outlineAfter, he, hcont]

end ReactiveMarkup.Template

namespace ReactiveMarkup.Output

open Template List

/-! ### What statements show -/

def Alternatives.heads : Alternatives → List (Option String)
  | .done => []
  | .otherwise _ => [none]
  | .elseIf condition _ rest => some condition :: rest.heads

mutual

/-- What a statement shows of a template, with those in its blocks in the order of their lines. -/
def Statement.signs : Statement → List Sign
  | .createComment _ label => [.marker label]
  | .createElement _ tag => [.element tag false]
  | .createComponent _ head => [.element head.tag true]
  | .setHandler _ event => [.handler event]
  | .declareItem name _ _ | .declareIndex name _ => [.alias name]
  | .effect body | .loop _ _ body => signs body
  | .conditional condition body rest =>
    .choice (some condition :: rest.heads) :: signs body ++ rest.signs
  | _ => []

def signs : List Statement → List Sign
  | [] => []
  | s :: rest => s.signs ++ signs rest

def Alternatives.signs : Alternatives → List Sign
  | .done => []
  | .otherwise body => .branch none :: Output.signs body
  | .elseIf condition body rest => .branch (some condition) :: Output.signs body ++ rest.signs

end

theorem signs_append (l l' : List Statement) : signs (l ++ l') = signs l ++ signs l' := by
  induction l with
  | nil => rfl
  | cons s rest ih => rw [cons_append, signs, ih, signs, append_assoc]

theorem signs_map {α : Type} {f} {g} (h : ∀ a, (f a).signs = g a) (l : List α) :
    signs (l.map f) = l.flatMap g := by
  induction l with
  | nil => rfl
  | cons a rest ih => rw [map_cons, signs, h, ih, flatMap_cons]

theorem signs_head (x : Local) (head : Head) (k : Nat) :
    signs (headStatements x head k) = head.events.map .handler := by
  have hbindings : ∀ (bindings : List Binding) (k : Nat),
      signs (bindingStatements x bindings k) = [] := by
    intro bindings
    induction bindings with
    | nil => exact fun _ => rfl
    | cons b rest ih => exact fun k => ih (k + 1)
  rw [headStatements, signs_append, signs_append, hbindings,
    signs_map (g := fun _ => []) fun _ => rfl, signs_map (g := fun b => [.handler b]) fun _ => rfl]
  simp [map_eq_flatMap]

/-! ### What the statements of parts show -/

theorem signs_build_of {items}
    (h : ∀ item ∈ items, ∀ (x : Local) (k : Nat), signs (buildItem x item k).1 = item.outline)
    (x : Local) (k : Nat) : signs (build x items k).1 = itemsOutline items := by
  induction items generalizing k with
  | nil => rfl
  | cons item rest ih =>
    rw [build_cons, signs_append, h item (by simp), itemsOutline,
      ih fun i hi => h i (.tail _ hi)]

theorem heads_buildBranches (x : Local) : ∀ (bs : Branches) (k : Nat),
    (buildBranches x bs k).1.heads = bs.heads
  | .done, _ => rfl
  | .otherwise _, _ => rfl
  | .elseIf condition body rest, k => by
    rw [Branches.heads, ← heads_buildBranches x rest]
    rfl

theorem signs_branches_of (x : Local) : ∀ {bs : Branches},
    (∀ b ∈ bs.bodies, ∀ (x : Local) (k : Nat), signs (buildItem x b k).1 = b.outline) →
    ∀ k : Nat, (buildBranches x bs k).1.signs = bs.outline
  | .done, _, _ => rfl
  | .otherwise body, h, k => congrArg (_ :: ·) (h body (by simp [Branches.bodies]) x k)
  | .elseIf condition body rest, h, k => by
    rw [buildBranches_elseIf, Alternatives.signs, h body (by simp [Branches.bodies]),
      signs_branches_of x fun b hb => h b (by simp [Branches.bodies, hb])]
    rfl

theorem signs_control (x anchor nodes : Local) (label : String) (body : List Statement) :
    signs [.createComment anchor label, .append x anchor, .declareNodes nodes, .effect body] =
      .marker label :: signs body := by
  simp [signs, Statement.signs]

theorem signs_chainBody (k : Nat) (condition : String) (body : Item) (rest : Branches) :
    signs (chainBody k condition body rest) = .choice (some condition :: rest.heads) ::
      signs (buildItem ⟨.fragment, k + 4⟩ body (k + 4)).1 ++ (buildBranches ⟨.fragment, k + 4⟩ rest
        (buildItem ⟨.fragment, k + 4⟩ body (k + 4)).2).1.signs := by
  simp [signs, chainBody, Statement.signs, heads_buildBranches]

theorem signs_eachBody (k : Nat) (clause : ForClause) (body : Item) :
    signs (eachBody k clause body) = (clauseNames clause).map .alias ++
      signs (buildItem ⟨.fragment, k + 6⟩ body (k + 6)).1 := by
  have hnames := signs_map (f := fun name => .declareIndex name ⟨.index, k + 5⟩)
    (fun _ => rfl) clause.index.toList
  have hstep : signs (eachBody k clause body) = signs (eachStep k clause body) := by
    simp [signs, eachBody, Statement.signs]
  rw [hstep, eachStep, signs_append, signs_append, signs, hnames, clauseNames]
  simp [signs, Statement.signs, map_eq_flatMap]

theorem signs_buildItem (item : Item) :
    ∀ (x : Local) (k : Nat), signs (buildItem x item k).1 = item.outline := by
  induction item using Item.induction with
  | text segments =>
    intro x k
    rw [buildItem_text, buildData]
    split <;> rfl
  | element head children ih =>
    intro x k
    rw [Item.outline, Head.signs]
    cases hc : head.isComponent with
    | true =>
      rw [buildItem_component x children k hc, ← signs_build_of ih]
      rfl
    | false =>
      rw [buildItem_element x children k hc, cons_append, cons_append, signs, signs, signs_append,
        signs_head, signs_build_of ih]
      rfl
  | each clause body ih =>
    intro x k
    rw [buildItem_each, signs_control, signs_eachBody, ih]
    rfl
  | chain condition body rest ih =>
    intro x k
    rw [buildItem_chain, signs_control, signs_chainBody, ih body (by simp [Branches.bodies]),
      signs_branches_of _ fun b hb => ih b (by simp [Branches.bodies, hb])]
    rfl

theorem signs_buildRoot {file} {nodes} {items} (h : plan file nodes = .ok items) :
    signs (buildRoot items) = outlineIn nodes :=
  (signs_build_of (fun item _ => signs_buildItem item) .root 0).trans
    (groups_of_planFrom none nodes h).outline_eq

/-! ### What lines show -/

/-- What a line shows: that it makes a comment or an element, or begins a branch. -/
def Draft.sign? (d : Draft) : Option Sign :=
  match d.pieces with
  | [.wording "const ", .bound _, .wording " = document.createComment(", .given label,
      .wording ");"] => some (.marker label)
  | [.wording "const ", .bound _, .wording " = document.createElement(", .given tag,
      .wording ");"] => some (.element tag false)
  | [.wording "const ", .bound _, .wording " = ", .given tag, .wording "(", .given _,
      .wording ");"] => some (.element tag true)
  | [.wording "if (", .given condition, .wording ") \x7b"] => some (.choice [some condition])
  | [.wording "\x7d else if (", .given condition, .wording ") \x7b"] =>
    some (.branch (some condition))
  | [.wording "\x7d else \x7b"] => some (.branch none)
  | _ => none

mutual

theorem Statement.signs_drafts (s : Statement) :
    s.drafts.filterMap Draft.sign? = s.signs.filterMap Sign.written? := by
  cases s with
  | effect body | loop _ _ body =>
    rw [Statement.drafts, Statement.signs, cons_append, ← singleton_append, filterMap_append,
      filterMap_append, signs_blockDrafts body]
    exact append_nil _
  | conditional condition body others =>
    rw [Statement.drafts, Statement.signs, cons_append, ← singleton_append, filterMap_append,
      filterMap_append, signs_blockDrafts body, others.signs_drafts, ← filterMap_append]
    rfl
  | _ => rfl

theorem signs_blockDrafts : ∀ statements : List Statement,
    (blockDrafts statements).filterMap Draft.sign? = (signs statements).filterMap Sign.written?
  | [] => rfl
  | s :: others => by
    rw [blockDrafts, signs, filterMap_append, s.signs_drafts, signs_blockDrafts others,
      filterMap_append]

theorem Alternatives.signs_drafts : ∀ a : Alternatives,
    a.drafts.filterMap Draft.sign? = a.signs.filterMap Sign.written?
  | .done => rfl
  | .otherwise body => by
    rw [Alternatives.drafts, Alternatives.signs, cons_append, ← singleton_append,
      filterMap_append, filterMap_append, signs_blockDrafts body]
    exact congrArg (_ :: ·) (append_nil _)
  | .elseIf condition body others => by
    rw [Alternatives.drafts, Alternatives.signs, cons_append, ← singleton_append,
      filterMap_append, filterMap_append, signs_blockDrafts body, others.signs_drafts,
      ← filterMap_append]
    rfl

end

/-- The lines of a module after those of its script, up to the end of its function. -/
def moduleDrafts (items : List Item) : List Draft := functionDrafts (buildRoot items)

/-! ### Modules -/

section Signs

variable (head : Head) (later : List (Option String))

theorem labels_outline : (head.outline later).filterMap Sign.label? =
    (if head.directives.condition.isSome then ["tn-if"] else []) ++
      if head.directives.each.isSome then ["tn-for"] else [] := by
  rw [Head.outline, Head.signs]
  cases head.directives.condition <;> cases head.continues <;> cases head.directives.each <;>
    cases head.isComponent <;> simp [chainSigns, eachSigns, filterMap_cons, Sign.label?]

theorem elements_outline :
    (head.outline later).filterMap Sign.element? = [(head.tag, head.isComponent)] := by
  rw [Head.outline, Head.signs]
  cases head.directives.condition <;> cases head.continues <;> cases head.directives.each <;>
    cases head.isComponent <;> simp [chainSigns, eachSigns, filterMap_cons, Sign.element?,
      Function.comp_def]

theorem choices_outline : (head.outline later).filterMap Sign.heads? =
    if head.directives.condition.isSome then [head.directives.condition :: later] else [] := by
  rw [Head.outline, Head.signs]
  cases head.directives.condition <;> cases head.continues <;> cases head.directives.each <;>
    cases head.isComponent <;> simp [chainSigns, eachSigns, filterMap_cons, Sign.heads?]

end Signs

theorem count_labels {label}
    (h : ∀ head later, ((Head.outline head later).filterMap Sign.label?).count label =
      if p head then 1 else 0) (nodes : List Node) :
    ((outlineIn nodes).filterMap Sign.label?).count label = (headsIn nodes).countP p := by
  rw [outlineIn, filterMap_flatMap, ← heads_linksIn]
  induction linksIn nodes with
  | nil => rfl
  | cons link rest ih =>
    rw [flatMap_cons, count_append, ih, h, map_cons, countP_cons, Nat.add_comm]

/-- **The outline of a module.**  Each element with `tn-if` leaves one mark, and so does each with
`tn-for`.  The statements have one condition for each chain, whose heads are those of the
elements of the chain in their order.  Each element is made once, in document order.  All of this
stands in the lines of the module, in the order of the template. -/
theorem generate_outlines {nodes : List Node} {sections : Component.Sections} {options : Options}
    {compiled : Compiled} (h : generate nodes sections options = .ok compiled) :
    ∃ items, plan options.file nodes = .ok items ∧
      compiled.code = "\n".intercalate
        (prologue options (Script.prepare sections.script sections.language) ++
          write 1 (moduleDrafts items) ++ "\x7d" :: delegateLines (delegatedEvents nodes)) ++ "\n" ∧
      ((signs (buildRoot items)).filterMap Sign.label?).count "tn-if" =
        (headsIn nodes).countP (fun head => head.directives.condition.isSome) ∧
      ((signs (buildRoot items)).filterMap Sign.label?).count "tn-for" =
        (headsIn nodes).countP (fun head => head.directives.each.isSome) ∧
      (signs (buildRoot items)).filterMap Sign.heads? = chainsIn nodes ∧
      (signs (buildRoot items)).filterMap Sign.element? =
        (headsIn nodes).map (fun head => (head.tag, head.isComponent)) ∧
      (moduleDrafts items).filterMap Draft.sign? = (outlineIn nodes).filterMap Sign.written? := by
  obtain ⟨items, hplan, hcode⟩ := exists_plan_of_generate h
  refine ⟨items, hplan, hcode, ?_⟩
  rw [moduleDrafts, functionDrafts, filterMap_append, signs_blockDrafts, signs_buildRoot hplan]
  refine ⟨count_labels (fun head later => ?_) nodes, count_labels (fun head later => ?_) nodes,
    ?_, ?_, append_nil _⟩
  · rw [labels_outline]
    split <;> split <;> rfl
  · rw [labels_outline]
    split <;> split <;> rfl
  · rw [outlineIn, filterMap_flatMap, chainsIn]
    simp only [choices_outline]
  · rw [filterMap_outlineIn elements_outline, map_eq_flatMap]

/-- Three branches, with a blank text between two of them and a list inside a component. -/
def branching : List Node :=
  let head (tag : String) (isComponent : Bool) (event : String) (directives : Directives) : Head :=
    ⟨tag, isComponent, [], [], [⟨event, "go"⟩], directives, ⟨1, 1⟩⟩
  [.element (head "p" false "Input" { condition := some "n > 10" }) [],
    .text [.literal " "],
    .element (head "Card" true "close" { elseIf := some "n > 5" })
      [.element (head "li" false "click" { each := some ⟨"x", none, "xs"⟩ }) []],
    .element (head "p" false "CLICK" { otherwise := true }) []]

theorem generate_branching :
    ∃ compiled, generate branching ⟨"", "", "js", [], ⟨1, 1⟩⟩ {} = .ok compiled := by
  have hnone : firstOrphan? [] branching = none := by decide +kernel
  have houtcome := generate_outcome branching ⟨"", "", "js", [], ⟨1, 1⟩⟩ {}
  rwa [hnone] at houtcome

theorem generate_outlines_branching :
    (∃ compiled, generate branching ⟨"", "", "js", [], ⟨1, 1⟩⟩ {} = .ok compiled) ∧
    ∃ items, plan "<anonymous>" branching = .ok items ∧
      ((signs (buildRoot items)).filterMap Sign.label?).count "tn-if" = 1 ∧
      ((signs (buildRoot items)).filterMap Sign.label?).count "tn-for" = 1 ∧
      (signs (buildRoot items)).filterMap Sign.heads? = [[some "n > 10", some "n > 5", none]] ∧
      (signs (buildRoot items)).filterMap Sign.element? =
        [("p", false), ("Card", true), ("li", false), ("p", false)] ∧
      (moduleDrafts items).filterMap Draft.sign? = [.marker "\"tn-if\"", .choice [some "n > 10"],
        .element "\"p\"" false, .branch (some "n > 5"), .element "Card" true,
        .marker "\"tn-for\"", .element "\"li\"" false, .branch none, .element "\"p\"" false] := by
  obtain ⟨compiled, hgenerate⟩ := generate_branching
  obtain ⟨items, hplan, -, hif, hfor, hheads, helements, hlines⟩ := generate_outlines hgenerate
  exact ⟨⟨_, hgenerate⟩, items, hplan, hif, hfor, hheads, helements, hlines⟩

end ReactiveMarkup.Output
