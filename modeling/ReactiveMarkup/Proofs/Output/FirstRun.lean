/-
The first run of a module.

Whatever its expressions mean, the statements of a module run through, and the
fragment that they return holds what the template stands for.

* `first_run_renders`: the first run of a module shows its template.
-/
import ReactiveMarkup.Output.Module
import ReactiveMarkup.Proofs.Output.Refilling

namespace ReactiveMarkup.Output

open Dom (NodeId Kind Store)
open Markup (Segment)
open Template List Statement State
open Text (lowered)

variable {V : Type} {G : List Local} {o : List Nat} {k : Nat} {frame frame' : Frame V} {σ : Scope V}
  {s s' s'' : State V} {p a c e : Nat} {pre old post content kids roots : List NodeId}
  {F : Footprint} {label : String} {body : List Statement} {reads reads' : List (Read V)}

variable [Presentable V] {m : Meaning V}

/-! ### Building chains and repetitions -/

def State.withCell (s : State V) (dom : Store (Closure V)) : State V :=
  { s with dom, cells := s.cells ++ [[]] }

theorem runs_anchor (o : List Nat) (label : String) (body : List Statement)
    (hready : Ready G k frame σ) (hanchor : anchorAt k ∈ G) (hnodes : nodesAt k ∈ G)
    (hlocals : ∀ y ∈ localsIn body, y ∈ G) (hx : x.number ≤ k)
    (hp : frame.env.get? x.name = some (.node p)) (hvalid : p < s.dom.nodes.size)
    (hkids : ∀ n ∈ (s.dom.node p).children, n < s.dom.nodes.size) :
    ∃ frame' dom, Runs m o [.createComment (anchorAt k) label, .append x (anchorAt k),
        .declareNodes (nodesAt k)] frame s frame' (s.withCell dom) [] ∧
      Grown G k (k + 2) frame frame' ∧
      s.dom.Sprouted dom p
        { kind := .comment, tag := lowered "", data := label, owner := some s.document } ∧
      Anchored frame'.env k s.dom.nodes.size s.cells.length ∧
      Control G ((s.withCell dom).addEffect o frame'.env body)
        label k body p o σ s.dom.nodes.size s.cells.length s.effects.length [] [] ∧
      Slot ((s.withCell dom).addEffect o frame'.env body)
        p s.dom.nodes.size s.cells.length (s.dom.node p).children [] [] := by
  obtain ⟨frame₁, dom, hrun, hgrown₁, hself₁, hsprout⟩ :=
    runs_sprout
      (show (createComment (anchorAt k) label).run m o frame s = _ from rfl) (by simp)
      hready hanchor (Nat.lt_succ_self k) hx hp hvalid
  obtain ⟨frame₂, hdeclare, hgrown₂, hself₂⟩ :=
    (hready.grow hgrown₁ (Nat.le_succ k)).declare (.nodes s.cells.length) hnodes
      (Nat.lt_succ_self (k + 1)) rfl
  have hgrown : Grown G k (k + 2) frame frame₂ :=
    (hgrown₁.mono (Nat.le_refl _) (by simp [anchorAt])).trans
      (hgrown₂.mono (Nat.le_succ k) (by simp [nodesAt]))
  have hself : frame₂.env.get? (anchorAt k).name = some (.node s.dom.nodes.size) := by
    rw [hgrown₂.get? (Nat.le_refl _), hself₁]
  have hcell : (s.cells ++ [[]])[s.cells.length]? = some ([]) := by simp
  let s₂ := (s.withCell dom).addEffect o frame₂.env body
  have hhangs : Hangs s₂ s.dom.nodes.size p .comment :=
    hangs_of_touched hsprout (Store.touched_refl dom _) (congrArg Dom.Node.kind hsprout.self)
      (congrArg Dom.Node.parent hsprout.self)
  refine ⟨frame₂, dom, ?_, hgrown, hsprout, ⟨hself, hself₂⟩, ?_, ?_⟩
  · refine hrun.append (.single ?_)
    show (frame₁.declare _ (.nodes s.cells.length)).bind _ = _
    rw [hdeclare]
    rfl
  · refine ⟨hhangs, congrArg Dom.Node.data hsprout.self, hcell, ⟨frame₂.env, ?_, ?_, hself, hself₂⟩,
      hready.clear, ⟨hanchor, hnodes⟩, hlocals⟩
    · exact getElem?_concat_length
    · exact (hready.grow hgrown (by omega)).scope
  · refine ⟨⟨?_, hhangs, Nat.ne_of_gt hvalid, ?_, ?_⟩, by simp, nodup_nil, hcell⟩
    · show p < dom.nodes.size
      rw [hsprout.size]
      exact Nat.lt_succ_of_lt hvalid
    · rw [append_nil]
      exact congrArg Dom.Node.children hsprout.parent
    · rw [append_nil]
      exact fun hm => Nat.lt_irrefl _ (hkids _ hm)

section Control

variable {dom : Store (Closure V)} {d : Dom.Node (Closure V)} {env : Env V}
  (hsprout : s.dom.Sprouted dom p d)
  (h : Refilled ((s.withCell dom).addEffect o env body) s' p s.cells.length
    ((s.dom.node p).children ++ roots ++ [s.dom.nodes.size]) [] roots F)

include hsprout h

omit [Presentable V] in
theorem added_control (reads : List (Read V)) :
    Added s (s'.setReads s.effects.length reads)
      ⟨F.nodes ++ [s.dom.nodes.size], s.cells.length :: F.cells,
        s.effects.length :: F.effects⟩ := by
  have hsize : s.dom.nodes.size < dom.nodes.size := hsprout.size ▸ Nat.lt_succ_self _
  have hcells : s.cells.length < (s.cells ++ [[]]).length := by simp
  have heffects : ((s.withCell dom).addEffect o env body).effects.length = s.effects.length + 1 :=
    length_append
  have hlt : s.effects.length < ((s.withCell dom).addEffect o env body).effects.length :=
    heffects ▸ Nat.lt_succ_self _
  -- Everything that the effect has added comes after the anchor, the cell and the effect itself.
  have hnode : ∀ n ∈ F.nodes, s.dom.nodes.size < n := fun n hn =>
    Nat.lt_of_lt_of_le hsize (h.newNode n hn)
  have hcell : ∀ d ∈ F.cells, s.cells.length < d := fun d hd =>
    Nat.lt_of_lt_of_le hcells (h.newCell d hd)
  have heffect : ∀ f ∈ F.effects, s.effects.length < f := fun f hf =>
    Nat.lt_of_lt_of_le hlt (h.newEffect f hf)
  refine ⟨Nat.le_trans (Nat.le_of_lt hsize) h.size, Nat.le_trans (Nat.le_of_lt hcells) h.cells,
    ?_, ?_, forall_mem_append.2 ⟨fun n hn => Nat.le_of_lt (hnode n hn), by simp⟩,
    forall_mem_cons.2 ⟨Nat.le_refl _, fun d hd => Nat.le_of_lt (hcell d hd)⟩,
    forall_mem_cons.2 ⟨Nat.le_refl _, fun f hf => Nat.le_of_lt (heffect f hf)⟩,
    ⟨?_, ?_, ?_⟩, ?_⟩
  · show _ ≤ (s'.effects.modify _ _).length
    rw [length_modify]
    exact Nat.le_trans (Nat.le_of_lt hlt) h.effects
  · intro f hf
    rw [getElem?_setReads_ne reads (Nat.ne_of_lt hf), h.effect f (Nat.lt_trans hf hlt)]
    exact getElem?_append_left hf
  · refine nodup_append.2 ⟨h.nodup.nodes, by simp, ?_⟩
    intro n hn q hq e
    rw [mem_singleton.1 hq] at e
    exact Nat.ne_of_gt (hnode n hn) e
  · exact nodup_cons.2 ⟨fun hm => Nat.lt_irrefl _ (hcell _ hm), h.nodup.cells⟩
  · exact nodup_cons.2 ⟨fun hm => Nat.lt_irrefl _ (heffect _ hm), h.nodup.effects⟩
  · intro f hf hlt
    rcases Nat.eq_or_lt_of_le hf with rfl | hf
    · exact .head _
    · refine .tail _ (h.all f (Nat.le_trans (Nat.le_of_eq heffects) hf) ?_)
      simpa [setReads] using hlt

omit [Presentable V] in
theorem built_control (reads : List (Read V)) :
    Built s (s'.setReads s.effects.length reads) p (roots ++ [s.dom.nodes.size])
      ⟨F.nodes ++ [s.dom.nodes.size], s.cells.length :: F.cells,
        s.effects.length :: F.effects⟩ := by
  refine ⟨added_control hsprout h reads, ?_, ?_, ?_⟩
  · show s'.dom.node p = _
    have hp : ((s.withCell dom).addEffect o env body).dom.node p = _ := hsprout.parent
    rw [h.parent, hp, append_assoc]
  · intro n hn hne
    show s'.dom.node n = _
    have hlt : n < dom.nodes.size := by
      rw [hsprout.size]
      exact Nat.lt_succ_of_lt hn
    rw [h.node n hlt hne (by simp)]
    exact hsprout.other n hne (Nat.ne_of_lt hn)
  · intro d hd
    show s'.cells[d]? = _
    have hlt : d < (s.cells ++ [[]]).length := by
      rw [length_append]
      exact Nat.lt_add_right _ hd
    rw [h.cell d hlt (Nat.ne_of_lt hd)]
    exact getElem?_append_left hd

end Control

theorem builds_control {item} {body : Nat → List Statement}
    (hitem : ∀ x k, (buildItem x item k).1 = [.createComment (anchorAt k) label,
      .append x (anchorAt k), .declareNodes (nodesAt k), .effect (body k)])
    (hnext : ∀ x k, k + 2 ≤ (buildItem x item k).2) (h : ∀ k, Refills G m label k (body k) item) :
    BuildsItem G m item := by
  intro o x k frame s σ p hx hG hready hp hvalid hkids
  simp only [hitem] at hG ⊢
  have hanchor : anchorAt k ∈ G := hG _ (by simp [localsIn, locals])
  have hnodes : nodesAt k ∈ G := hG _ (by simp [localsIn, locals])
  have hlocals : ∀ y ∈ localsIn (body k), y ∈ G :=
    fun y hy => hG y (by simp [localsIn, locals, hy])
  obtain ⟨frame', dom, hrun, hgrown, hsprout, henv, hcontrol, hslot⟩ :=
    runs_anchor o label (body k) hready hanchor hnodes hlocals hx hp hvalid hkids
  have hready' : Ready G (k + 3) (.enter frame'.env) σ :=
    (hready.grow hgrown (by omega)).enter (k + 3)
  obtain ⟨frame₃, s₃, roots, F, reads, hbody, hrefilled, hplaced, hstands⟩ :=
    h k o s.effects.length hslot hready' henv hanchor hnodes hlocals
  have hnew : s.effects.length ∉ F.effects := by
    intro hm
    have hlength : ((s.withCell dom).addEffect o frame'.env (body k)).effects.length =
        s.effects.length + 1 := length_append
    have := hrefilled.newEffect _ hm
    omega
  have hstands' := hstands (P := fun _ => True) (X := True) (agree_setReads reads hnew)
    (hcontrol.refilled hrefilled (by simp) (Nat.ne_of_gt hvalid) reads)
  exact ⟨frame', _, _, _, hrun.append (.single (run_effect hready'.scope hbody)),
    hgrown.mono (Nat.le_refl k) (hnext x k), built_control hsprout hrefilled reads,
    hstands'.placed, hstands'⟩

theorem builds_chain {condition} {body} {rest}
    (hbodies : ∀ b ∈ (Branches.elseIf condition body rest).bodies, BuildsItem G m b) :
    BuildsItem G m (.chain condition body rest) := by
  refine builds_control (fun x k => by rw [buildItem_chain]) ?_ fun k => refills_chain hbodies
  intro x k
  rw [buildItem_chain]
  exact Nat.le_trans (by omega) (le_buildBranches _ _ (k + 4))

theorem builds_each {clause} {body} (hapart : Apart G clause) (hbody : BuildsItem G m body) :
    BuildsItem G m (.each clause body) := by
  refine builds_control (fun x k => by rw [buildItem_each]) ?_ fun k => refills_each hapart hbody
  intro x k
  exact Nat.le_trans (by omega) (le_buildItem body _ (k + 6))

/-! ### Building whole templates -/

/-- What is asked of a template: texts have parts, there are no components, and the names of a
repetition stand apart. -/
def buildable (G : List Local) : Rules where
  text segments := segments ≠ []
  head head := head.isComponent = false
  clause := Apart G
  branch _ := True

theorem builds_item (item : Item) (h : (buildable G).Item item) : BuildsItem G m item := by
  induction item using Item.induction with
  | text segments => exact builds_text (isEmpty_eq_false_iff.2 h)
  | element head children ih =>
    exact builds_element h.1 (builds_items fun item hi => ih item hi (Rules.item_of_mem h.2 hi))
  | each clause body ih => exact builds_each h.1 (ih h.2.2)
  | chain condition body rest ih =>
    refine builds_chain fun b hb => ih b hb ?_
    have hbranches : (buildable G).Branches (.elseIf condition body rest) := h
    exact (Rules.branch_of_mem hbranches hb).2

def State.begin (dom : Store (Closure V)) (document : NodeId) : State V :=
  withFragment ⟨dom, document, [], []⟩

/-- The first run of the statements of a template: what it builds hangs below the fragment that it
returns. -/
theorem execute_build {items} (hitems : (buildable (localsIn (buildRoot items))).Items items)
    (m : Meaning V) (dom : Store (Closure V)) (document : NodeId) :
    ∃ s roots F, execute m (buildRoot items) dom document = some (s, dom.nodes.size) ∧
      Built (begin dom document) s dom.nodes.size roots F ∧
      StandsAll (localsIn (buildRoot items)) m (fun _ => True) True s items dom.nodes.size []
        .empty roots F := by
  let G := localsIn (buildRoot items)
  let frame : Frame V := ⟨[(Local.root.name, .node dom.nodes.size)], [Local.root.name]⟩
  have hroot : frame.env.get? Local.root.name = some (.node dom.nodes.size) := by
    simp [frame, Table.get?]
  have hready : Ready G 0 frame .empty := by
    refine ⟨⟨?_, fun name hname => if_neg fun e : Local.root.name = name => ?_⟩,
      fun _ _ => rfl, ?_⟩
    · -- the only name that is bound is bound to a node
      funext name
      by_cases h : Local.root.name = name
      · simp [scopeOf, frame, Table.get?, Scope.empty]
      · simp [scopeOf, frame, Table.get?, Scope.empty]
    · exact Local.root.name_notMem_outerNames (e ▸ hname)
    · intro x _ hx hmem
      exact Local.name_ne (Nat.ne_of_gt hx) (mem_singleton.1 hmem)
  have hfirst : (createFragment .root).run m [] (.enter []) ⟨dom, document, [], []⟩ =
      some (frame, begin dom document, []) :=
    create_eq (σ := .empty) ⟨rfl, fun _ _ => rfl⟩ (by simp [Frame.declare, Frame.enter, frame])
  have hsize : dom.nodes.size < (begin dom document).dom.nodes.size := by
    rw [begin, size_withFragment]
    exact Nat.lt_succ_self _
  have hempty : ((begin dom document).dom.node dom.nodes.size).children = [] := by
    rw [begin, node_withFragment_self ⟨dom, document, [], []⟩]
  obtain ⟨frame', s, roots, F, hrun, hgrown, hbuilt, -, hstands⟩ :=
    builds_items (fun item hi => builds_item item (Rules.item_of_mem hitems hi)) []
      (Nat.le_refl 0) (fun y hy => mem_append_right _ hy) hready hroot hsize (by simp [hempty])
  refine ⟨s, roots, F, ?_, hbuilt, hstands⟩
  have hall : Runs m [] (buildRoot items) (.enter []) ⟨dom, document, [], []⟩ frame' s [] :=
    Runs.cons hfirst hrun
  rw [execute, hall]
  show (frame'.node? .root).bind _ = _
  rw [Frame.node?_eq (by rw [hgrown.get? (Nat.le_refl 0), hroot])]
  rfl

/-! ### Modules -/

theorem exists_plan_of_generate {nodes} {sections} {options} {compiled}
    (h : generate nodes sections options = .ok compiled) :
    ∃ items, plan options.file nodes = .ok items ∧
      compiled.code = "\n".intercalate (moduleLines options
        (Script.prepare sections.script sections.language) (buildRoot items)
        (delegatedEvents nodes)) ++ "\n" := by
  obtain ⟨items, hplan, hrest⟩ := exists_of_bind_eq_ok h
  cases hrest
  exact ⟨items, hplan, rfl⟩

theorem exists_generate_of_plan {nodes} {options} {items} (sections : Component.Sections)
    (h : plan options.file nodes = .ok items) :
    ∃ compiled, generate nodes sections options = .ok compiled := by
  rw [generate, h]
  exact ⟨_, rfl⟩

/-- A list that is shown if there is something to show, with a bound attribute. -/
def listing : List Node :=
  let head (tag : String) (bindings : List Binding) (directives : Directives) : Head :=
    ⟨tag, false, [], bindings, [], directives, ⟨1, 1⟩⟩
  [.element (head "ul" [⟨"title", "t"⟩] {})
    [.element (head "li" [] { condition := some "ok", each := some ⟨"x", some "i", "xs"⟩ })
      [.text [.expression "i", .literal ": ", .expression "x"]],
    .element (head "li" [] { otherwise := true }) [.text [.literal "none"]]]]

/-- A list whose items are called like the document. -/
def documents : List Node :=
  [.element ⟨"li", false, [], [], [], { each := some ⟨"document", none, "xs"⟩ }, ⟨1, 1⟩⟩
    [.text [.expression "document"]]]

end ReactiveMarkup.Output
