/-
The local names of a module are kept apart.

Local names differ from each other and from imported names, and each use of one comes after
the line that binds it, in a block that is still open.  A name that a repetition has chosen is
the only one that can be bound a second time: nothing keeps a template from choosing a name
that looks like a local one.

* `Hygienic`, `generate_hygienic`: the names of a module;
* `chosen_name_bound_twice`: a local name that is bound twice.
-/
import ReactiveMarkup.Proofs.Output.Outline

namespace ReactiveMarkup.Output

open Template List

/-! ### Chosen names -/

mutual

theorem Statement.chosenIn_drafts (s : Statement) :
    chosenIn s.drafts = s.signs.filterMap Sign.alias? := by
  cases s with
  | effect body | loop _ _ body =>
    rw [Statement.drafts, Statement.signs, cons_append, ← singleton_append,
      chosenIn_append, chosenIn_append, chosenIn_blockDrafts body]
    exact append_nil _
  | conditional condition body others =>
    rw [Statement.drafts, Statement.signs, cons_append, ← singleton_append,
      chosenIn_append, chosenIn_append, chosenIn_blockDrafts body, others.chosenIn_drafts,
      cons_append, filterMap_cons_none rfl, filterMap_append]
    rfl
  | _ => rfl

theorem chosenIn_blockDrafts : ∀ statements : List Statement,
    chosenIn (blockDrafts statements) = (signs statements).filterMap Sign.alias?
  | [] => rfl
  | s :: others => by
    rw [blockDrafts, signs, chosenIn_append, s.chosenIn_drafts, chosenIn_blockDrafts others,
      filterMap_append]

theorem Alternatives.chosenIn_drafts : ∀ a : Alternatives,
    chosenIn a.drafts = a.signs.filterMap Sign.alias?
  | .done => rfl
  | .otherwise body => by
    rw [Alternatives.drafts, Alternatives.signs, cons_append, ← singleton_append,
      chosenIn_append, chosenIn_append, chosenIn_blockDrafts body]
    exact append_nil _
  | .elseIf condition body others => by
    rw [Alternatives.drafts, Alternatives.signs, cons_append, ← singleton_append,
      chosenIn_append, chosenIn_append, chosenIn_blockDrafts body, others.chosenIn_drafts,
      cons_append, filterMap_cons_none rfl, filterMap_append]
    rfl

end

theorem aliases_outline (head : Head) (later : List (Option String)) :
    (head.outline later).filterMap Sign.alias? =
      head.directives.each.toList.flatMap clauseNames := by
  rw [Head.outline, Head.signs]
  cases head.directives.condition <;> cases head.continues <;> cases head.directives.each <;>
    cases head.isComponent <;> simp [chainSigns, eachSigns, filterMap_cons, Sign.alias?,
      Function.comp_def]

/-! ### Modules -/

theorem boundIn_moduleDrafts (items : List Item) :
    boundIn (moduleDrafts items) = .root :: localsIn (build .root items 0).1 := by
  rw [moduleDrafts, functionDrafts, boundIn_append, boundIn_blockDrafts]
  exact append_nil _

theorem numbers_moduleDrafts (items : List Item) :
    (boundIn (moduleDrafts items)).map Local.number =
      List.range ((build .root items 0).2 + 1) := by
  have hcounted := (tidy_build items .root 0).counted.2
  rw [boundIn_moduleDrafts, map_cons, hcounted, range_eq_range']
  rfl

theorem walk_moduleDrafts (items : List Item) :
    ∃ block, walk [[]] (moduleDrafts items) = some [block] := by
  obtain ⟨more, hmore⟩ := (tidy_build items .root 0).names [.root] [] (by simp)
  have hbuilt : walk [[]] (blockDrafts (buildRoot items)) = some [more ++ [.root]] := by
    exact hmore
  refine ⟨more ++ [.root], ?_⟩
  rw [moduleDrafts, functionDrafts, walk_append, hbuilt]
  refine walk_of_stays (by simp) rfl ?_
  show ∀ x ∈ [Local.root], _
  simp

theorem chosen_of_moduleDrafts {file} {nodes} {items} (h : plan file nodes = .ok items) {name}
    (hname : name ∈ chosenIn (moduleDrafts items)) :
    ∃ head ∈ headsIn nodes, ∃ clause ∈ head.directives.each, name ∈ clauseNames clause := by
  rw [moduleDrafts, functionDrafts, chosenIn_append, chosenIn_blockDrafts, signs_buildRoot h,
    filterMap_outlineIn aliases_outline] at hname
  have hchosen := (mem_append.1 hname).resolve_right
    (by simp [chosenIn, piecesIn, Piece.chosen?])
  simpa using hchosen

/-- Lines whose local names are kept apart from each other and from imported names.  Each use of a
name comes after the line that binds it, in a block that is still open, and all blocks are
closed at the end but the first one.  A local name is bound once, unless it has been chosen. -/
structure Hygienic (drafts : List Draft) : Prop where
  distinct : ((boundIn drafts).map Local.name).Nodup
  unimported : ∀ x ∈ boundIn drafts, x.name ∉ [effectName, delegateName, mergeName]
  once : ∀ x ∈ boundIn drafts, (declaredIn drafts).count x.name = 1 ↔ x.name ∉ chosenIn drafts
  found : ∃ block, walk [[]] drafts = some [block]
  frank : ∀ d ∈ drafts, d.Frank

theorem hygienic_moduleDrafts (items : List Item) : Hygienic (moduleDrafts items) := by
  have hdistinct : ((boundIn (moduleDrafts items)).map Local.name).Nodup := by
    have hnumbers := nodup_range (n := (build .root items 0).2 + 1)
    rw [← numbers_moduleDrafts] at hnumbers
    exact (List.Nodup.of_map _ hnumbers).map fun _ _ => Local.name_injective
  refine ⟨hdistinct, fun x _ => x.name_notMem (by decide), ?_, walk_moduleDrafts items, ?_⟩
  · intro x hx
    have hbound := count_eq_one_of_mem hdistinct (mem_map_of_mem hx)
    rw [count_declaredIn, ← count_eq_zero]
    omega
  · exact fun d hd => Draft.frank_of_isFrank (Draft.isFrank_of_mem hd)

/-- **The local names of a module.**  Its lines after the script are those of `moduleDrafts`.
They bind the numbers that have been taken, each once and in order.  Names differ from each
other and from imported ones, are used where they are bound, and are bound once, unless a
repetition of the template has chosen the same name.  Lines for siblings end at the depth at
which they begin. -/
theorem generate_hygienic {nodes : List Node} {sections : Component.Sections} {options : Options}
    {compiled : Compiled} (h : generate nodes sections options = .ok compiled) :
    ∃ items, plan options.file nodes = .ok items ∧
      compiled.code = "\n".intercalate
        (prologue options (Script.prepare sections.script sections.language) ++
          write 1 (moduleDrafts items) ++ "\x7d" :: delegateLines (delegatedEvents nodes)) ++ "\n" ∧
      (boundIn (moduleDrafts items)).map Local.number = List.range ((build .root items 0).2 + 1) ∧
      Hygienic (moduleDrafts items) ∧
      (∀ name ∈ chosenIn (moduleDrafts items),
        ∃ head ∈ headsIn nodes, ∃ clause ∈ head.directives.each, name ∈ clauseNames clause) ∧
      ∀ (parent : Local) (siblings : List Item) (k depth : Nat),
        depthAfter (depth + 1) (blockDrafts (build parent siblings k).1) = depth + 1 := by
  obtain ⟨items, hplan, hcode⟩ := exists_plan_of_generate h
  exact ⟨items, hplan, hcode, numbers_moduleDrafts items, hygienic_moduleDrafts items,
    fun name hname => chosen_of_moduleDrafts hplan hname, depthAfter_build⟩

theorem names_listing (file : String) : ∃ items, plan file listing = .ok items ∧
    (build .root items 0).2 = 16 ∧
    chosenIn (moduleDrafts items) = ["x", "i"] ∧
    ∀ x ∈ boundIn (moduleDrafts items), x.name ∉ ["x", "i"] := by
  refine ⟨_, by simp [plan, planFrom, listing]; rfl, ?_, ?_, ?_⟩
  · decide +kernel
  · decide +kernel
  · decide +kernel

/-- All local names of the list are bound once: its template has chosen `x` and `i`. -/
theorem generate_hygienic_listing :
    (∃ compiled, generate listing ⟨"", "", "js", [], ⟨1, 1⟩⟩ {} = .ok compiled) ∧
    ∃ items, plan "<anonymous>" listing = .ok items ∧ Hygienic (moduleDrafts items) ∧
      (boundIn (moduleDrafts items)).map Local.number = List.range 17 ∧
      ∀ x ∈ boundIn (moduleDrafts items), (declaredIn (moduleDrafts items)).count x.name = 1 := by
  obtain ⟨items, hplan, hlast, hchosen, hapart⟩ := names_listing (Options.file {})
  obtain ⟨compiled, hgenerate⟩ := exists_generate_of_plan ⟨"", "", "js", [], ⟨1, 1⟩⟩ hplan
  obtain ⟨items', hplan', -, hnumbers, hhygienic, -⟩ := generate_hygienic hgenerate
  obtain rfl : items' = items := Except.ok.inj (hplan'.symm.trans hplan)
  rw [hlast] at hnumbers
  refine ⟨⟨_, hgenerate⟩, items', hplan', hhygienic, hnumbers, ?_⟩
  intro x hx
  rw [hhygienic.once x hx, hchosen]
  exact hapart x hx

/-- A list whose item is called like a local name. -/
def lookalike : List Node :=
  [.element ⟨"li", false, [], [], [], { each := some ⟨"_frag$6", none, "xs()"⟩ }, ⟨1, 1⟩⟩
    [.text [.expression "_frag$6"]]]

/-- A local name that is bound twice: the item and the fragment of a repetition are both bound as
`_frag$6`, in the same block. -/
theorem chosen_name_bound_twice :
    ∃ items, plan "<anonymous>" lookalike = .ok items ∧
      ⟨.fragment, 6⟩ ∈ boundIn (moduleDrafts items) ∧
      (declaredIn (moduleDrafts items)).count "_frag$6" = 2 ∧
      ["      const _frag$6 = _list$4[_i$5];",
        "      const _frag$6 = document.createDocumentFragment();"] <:+:
          write 1 (moduleDrafts items) := by
  refine ⟨_, by simp [plan, planFrom, lookalike, Directives.branchKind?]; rfl, ?_, ?_, ?_⟩
  · decide +kernel
  · decide +kernel
  · decide +kernel

end ReactiveMarkup.Output
