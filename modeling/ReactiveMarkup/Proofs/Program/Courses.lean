/-
Nodes stand in trees all along.

A program may move nodes about in any way, put content in that is kept up to date,
and have code run again at any write.  As long as no node is put into itself or below
itself, nodes stand in trees at every step on the way.

Nodes are never taken out of the store, so a node that is there when it is named is there
when it is put in.  So the regime of trees asks of each code word and each result that its
nodes are there, and of each name and each place that is kept up to date.

* `Course.nodes_in_trees`: what that says of nodes, their parents and their children.
-/
import ReactiveMarkup.Proofs.Program.Conduct

namespace ReactiveMarkup.Program

open Dom (NodeId)
open Dom.Store (IsForest SameTrees Loops Grown)
open Reactive (Action Regime Session State Steps)

variable {w : World} {n p : NodeId}

/-! ### What is asked of the world -/

abbrev World.size (w : World) : Nat := w.store.nodes.size

/-- Whether nodes stand in trees, and what is held on to is there. -/
structure World.Intact (w : World) : Prop where
  forest : w.store.IsForest
  named : ∀ name n, w.nodes.get? name = some n → n < w.size
  placed : ∀ x ∈ w.insertions, x.parent < w.size

def Built.Among (size : Nat) (x : Built) : Prop := ∀ n, Built.node n ∈ x.leaves → n < size

def Result.Among (size : Nat) : Result → Prop
  | .content x => x.Among size
  | .nodes ns => ∀ n ∈ ns, n < size
  | _ => True

def Code.Among (size : Nat) : Code → Prop
  | .nodes _ x => x.Among size
  | _ => True

theorem Built.Among.mono {x : Built} (h : x.Among k) (hkl : k ≤ l) : x.Among l :=
  fun n hn => Nat.lt_of_lt_of_le (h n hn) hkl

/-- The regime of trees: no node is put into itself or below itself. -/
def trees : Regime setting where
  Good := World.Intact
  Allowed w w' := ¬ Loops w.store w'.store
  Before w w' := w.size ≤ w'.size
  CodeFits w code := code.Among w.size
  ResultFits w r := r.Among w.size
  refl _ := Nat.le_refl _
  trans := Nat.le_trans
  code_mono {_ _ code} h hc := by
    cases code with
    | nodes document x => exact Built.Among.mono hc h
    | _ => trivial
  result_mono {_ _ r} h hr := by
    cases r with
    | content x => exact Built.Among.mono hr h
    | nodes ns => exact fun n hn => Nat.lt_of_lt_of_le (hr n hn) h
    | _ => trivial

/-! ### What keeps it -/

section

variable (hw : w.Intact)

include hw

/-- The nodes are others, and stand in trees. -/
theorem World.Intact.restore {store} (hs : store.IsForest)
    (hl : w.size ≤ store.nodes.size) : { w with store }.Intact where
  forest := hs
  named name n h := Nat.lt_of_lt_of_le (hw.named name n h) hl
  placed x h := Nat.lt_of_lt_of_le (hw.placed x h) hl

theorem World.Intact.grown {store} (hg : Grown w.store store n k) :
    trees.Later w { w with store } :=
  ⟨hg.size_le, hw.restore hg.forest hg.size_le⟩

theorem World.Intact.sameTrees {store} (hs : SameTrees w.store store) :
    trees.Later w { w with store } :=
  have hl := Nat.le_of_eq hs.size.symm
  ⟨hl, hw.restore (hw.forest.congr hs) hl⟩

theorem World.Intact.bindNode (name : String) (hn : n < w.size) :
    { w with nodes := w.nodes.put name n }.Intact where
  forest := hw.forest
  named other m hm := by
    by_cases ho : name = other
    · subst ho
      rw [Table.get?_put_self] at hm
      exact Option.some_inj.1 hm ▸ hn
    · rw [Table.get?_put_ne _ _ ho] at hm
      exact hw.named other m hm
  placed := hw.placed

theorem World.Intact.unbind (name : String) (document : NodeId) :
    { w with nodes := w.nodes.erase name, document }.Intact where
  forest := hw.forest
  named other m hm := by
    rw [Table.get?_erase] at hm
    exact hw.named other m (Option.ite_none_left_eq_some.1 hm).2
  placed := hw.placed

/-- A node is inserted, and not at or below itself. -/
theorem World.Intact.insertAt (hp : p < w.size) (hn : n < w.size)
    (mark : Option NodeId) (hloop : ¬ Loops w.store (w.store.insertAt p mark n)) :
    trees.Later w { w with store := w.store.insertAt p mark n } := by
  have hsize : (w.store.insertAt p mark n).nodes.size = w.size :=
    Dom.Store.size_insertAt hw.forest hn p mark
  have hl := Nat.le_of_eq hsize.symm
  exact ⟨hl, hw.restore (hw.forest.insertAt hn hp mark hloop) hl⟩

theorem World.Intact.detach (n : NodeId) :
    trees.Later w { w with store := w.store.detach n } := by
  have hl := Nat.le_of_eq (w.store.size_detach n).symm
  exact ⟨hl, hw.restore (hw.forest.detach n) hl⟩

theorem World.Intact.fill (i : Nat) (nodes : List NodeId) :
    { w with insertions := w.insertions.modify i fun x => { x with nodes } }.Intact where
  forest := hw.forest
  named := hw.named
  placed x hx := by
    obtain ⟨j, hj⟩ := Array.getElem?_of_mem hx
    rw [Array.getElem?_modify] at hj
    split at hj
    · obtain ⟨y, hy, rfl⟩ := Option.map_eq_some_iff.1 hj
      exact hw.placed y (Array.mem_of_getElem? hy)
    · exact hw.placed x (Array.mem_of_getElem? hj)

def trees.terms : Terms where
  Node w n := n < w.size
  Document _ _ := True
  Event _ := True

theorem World.Intact.move (hm : Move trees.terms w w')
    (hloop : ¬ Loops w.store w'.store) : trees.Later w w' := by
  cases hm with
  | name name hn => exact ⟨Nat.le_refl _, hw.bindNode name hn⟩
  | unname name hd => exact ⟨Nat.le_refl _, hw.unbind name _⟩
  | create hd kind tag data => exact hw.grown (hw.forest.grown_create _ kind tag data)
  | document => exact hw.grown hw.forest.grown_newDocument
  | openDocument name =>
    have hg := hw.forest.grown_newDocument
    have hnamed := (hw.grown hg).good.bindNode name hg.bound
    exact ⟨hg.size_le, hnamed.forest, hnamed.named, hnamed.placed⟩
  | copy n deep => exact hw.grown (hw.forest.grown_copy n deep)
  | template name h =>
    obtain ⟨k, hg⟩ := hw.forest.grown_template h
    have hw' := (hw.grown hg).good
    exact ⟨hg.size_le, hw'.forest, hw'.named, hw'.placed⟩
  | insertAt hp hn mark => exact hw.insertAt hp hn mark hloop
  | removeChild h =>
    obtain rfl := hw.forest.removeChild? h
    exact hw.detach _
  | detach n => exact hw.detach n
  | content hq ht => exact hw.sameTrees ht
  | insertion hp hd =>
    refine ⟨Nat.le_refl _, hw.forest, hw.named, fun x hx => ?_⟩
    rcases Array.mem_push.1 hx with hx | rfl
    · exact hw.placed x hx
    · exact hp
  | fill i nodes => exact ⟨Nat.le_refl _, hw.fill i nodes⟩
  | dispose n => exact hw.sameTrees (w.store.sameTrees_dispose n)
  | discard ns =>
    obtain ⟨hforest, hsize⟩ := hw.forest.foldl_discard ns
    have hl := Nat.le_of_eq hsize.symm
    exact ⟨hl, hw.restore hforest hl⟩
  | setEvent n hd event env body => exact hw.sameTrees (w.store.sameTrees_setEvent n _ event _ _)
  | removeEvent n event => exact hw.sameTrees (w.store.sameTrees_removeEvent n event)
  | listen n event l env body =>
    have hs := w.store.sameTrees_addListener n event (.block env body)
    have hw' := (hw.sameTrees hs).good
    exact ⟨Nat.le_of_eq hs.size.symm, hw'.forest, hw'.named, hw'.placed⟩
  | unlisten n h => exact hw.sameTrees (w.store.sameTrees_removeListener n _)
  | handle n event env body => exact hw.sameTrees (w.store.sameTrees_setHandler n event _)
  | unhandle n event => exact hw.sameTrees (w.store.sameTrees_clearHandler n event)
  | delegate events =>
    exact hw.sameTrees (SameTrees.foldl (fun s event => s.sameTrees_delegate _ event _) events)
  | send | serve | stop | prevent | books => exact ⟨Nat.le_refl _, hw.forest, hw.named, hw.placed⟩

end

instance : Allows trees trees.terms where
  code {_ code} := by
    cases code with
    | nodes document x => exact ⟨fun h => ⟨trivial, h⟩, fun h => h.2⟩
    | _ => exact Iff.rfl
  result {_ r} := by cases r <;> exact Iff.rfl
  kept _ := trivial
  node_later hl hn := Nat.lt_of_lt_of_le hn hl.before
  document_later _ _ := trivial
  node_of_lt hn := hn
  document_of _ := trivial
  named hw h := hw.named _ _ h
  child hw h := hw.forest.lt_size_of_child h
  copied n deep hw := (hw.forest.grown_copy n deep).bound
  placed hw hx := ⟨hw.placed _ hx, trivial⟩
  main _ := trivial
  document _ := trivial
  owner _ _ := trivial
  event _ := trivial
  move hw hm ha := hw.move hm ha

/-! ### Programs -/

/-- The states that programs come through, if no node is put into itself or below itself.  A
program is a number of statements, each of which begins when the one before is over, also if that
one failed.  In between, the values of expressions may be asked for. -/
inductive Course : State setting → Prop
  | start (s : Stmt) : Course { host := World.start, control := .acting (body (.block {} [s])) }
  | step {st next : State setting} : Course st → st.step? language = some next →
      ¬ Loops st.host.store next.host.store → Course next
  | statement {st : State setting} (s : Stmt) : Course st → st.step? language = none →
      Course { st with
        host := { st.host with log := [] }
        control := .acting (body (.block {} [s])) }
  | watch {st : State setting} (e : Expr) : Course st → st.step? language = none →
      Course { st with control := .acting (body (.value {} [] e)) }

theorem intact_start : World.start.Intact := by
  have hg := (Dom.Store.isForest_empty (H := Handler)).grown_newDocument
  have hd : World.Intact { store := (({} : Dom.Store Handler).newDocument).1 } :=
    ⟨hg.forest, fun name n h => absurd h (by simp [Table.get?]), fun x hx => absurd hx (by simp)⟩
  have hn := hd.bindNode "document" hg.bound
  refine ⟨hg.forest, fun name n h => ?_, hd.placed⟩
  simp only [World.start] at h
  split at h
  · rename_i b hb
    have hlt := hg.forest.lt_size_of_child (List.mem_of_find?_eq_some hb)
    exact (hn.bindNode "body" hlt).named name n h
  · exact hn.named name n h

theorem Course.session {st} (h : Course st) : ∃ past, Session language past st := by
  induction h with
  | start s => exact ⟨[], .start _ _⟩
  | step _ hstep _ ih =>
    obtain ⟨past, hs⟩ := ih
    exact ⟨_, hs.step hstep⟩
  | statement s _ hend ih =>
    obtain ⟨past, hs⟩ := ih
    exact ⟨_, hs.again _ _ hend⟩
  | @watch st e _ hend ih =>
    obtain ⟨past, hs⟩ := ih
    exact ⟨_, hs.again st.host _ hend⟩

/-! ### From state to state -/

/-- How a program comes from one state to the next, if no node is put into itself or below
itself. -/
inductive Onward (st : State setting) : State setting → Prop
  | step {next : State setting} : st.step? language = some next →
      ¬ Loops st.host.store next.host.store → Onward st next
  | statement (s : Stmt) : st.step? language = none →
      Onward st { st with
        host := { st.host with log := [] }
        control := .acting (body (.block {} [s])) }
  | watch (e : Expr) : st.step? language = none →
      Onward st { st with control := .acting (body (.value {} [] e)) }

theorem Course.onward {st next} (h : Course st) (hn : Onward st next) : Course next := by
  cases hn with
  | step hstep hloops => exact h.step hstep hloops
  | statement s hend => exact h.statement s hend
  | watch e hend => exact h.watch e hend

section Sound

variable {R : Regime setting} {T : Terms} [allows : Allows R T] {st next : State setting}

include allows

theorem sound_start (hw : R.Good World.start) (s : Stmt) :
    R.Sound { host := World.start, control := .acting (body (.block {} [s])) } :=
  ⟨hw, obeys_of_allows.body _ (.block {} [s]) hw (Allows.code.2 trivial), by simp,
    ⟨fun c code hc => absurd hc (by simp [Reactive.Graph.code?, Reactive.Graph.computation?]),
      fun c code hc => absurd hc (by simp [Reactive.Graph.cleanups, Reactive.Graph.computation?]),
      fun code hc => absurd hc List.not_mem_nil⟩⟩

/-- All code that a program can go on with keeps to a regime that allows for all moves, as long as
what the program does is allowed. -/
theorem Course.sound_onward (h : Course st) (hs : R.Sound st) (hn : Onward st next)
    (ha : R.Allowed st.host next.host) : R.Sound next := by
  cases hn with
  | step hstep _ =>
    obtain ⟨past, hsession⟩ := h.session
    exact hs.step obeys_of_allows hsession.orderly hstep ha
  | statement s _ =>
    have hl := Allows.move hs.good (.books _ _ _ _ _ []) ha
    exact ⟨hl.good, obeys_of_allows.body _ (.block {} [s]) hl.good (Allows.code.2 trivial),
      fun f hf => (hs.frames f hf).mono hl, hs.graph.mono hl⟩
  | watch e _ =>
    exact ⟨hs.good, obeys_of_allows.body _ (.value {} [] e) hs.good (Allows.code.2 trivial),
      hs.frames, hs.graph⟩

end Sound

/-- All code that a state can go on with keeps nodes in trees. -/
theorem Course.sound {st} (h : Course st) : trees.Sound st := by
  induction h with
  | start s => exact sound_start intact_start s
  | step hst hstep hloop ih => exact hst.sound_onward ih (.step hstep hloop) hloop
  | statement s hst hend ih =>
    exact hst.sound_onward ih (.statement s hend) (Dom.Store.not_loops_self _)
  | watch e hst hend ih => exact hst.sound_onward ih (.watch e hend) (Dom.Store.not_loops_self _)

namespace Onward

variable {st : State setting}

theorem look {k : World → Act Result} (hc : st.control = .acting (.look k)) :
    Onward st (st.act (k st.host)) :=
  .step (by simp only [State.step?, hc]; rfl) (Dom.Store.not_loops_self _)

theorem survey {k : Reactive.View setting → Act Result} (hc : st.control = .acting (.survey k)) :
    Onward st (st.act (k (st.view language))) :=
  .step (by simp only [State.step?, hc]; rfl) (Dom.Store.not_loops_self _)

theorem change {f : World → World} {a : Act Result} (hc : st.control = .acting (.change f a))
    (hf : f st.host = w) (hl : ¬ Loops st.host.store w.store) :
    Onward st { st with host := w, control := .acting a } := by
  refine .step ?_ hl
  rw [← hf]
  simp only [State.step?, hc]
  rfl

theorem act (st : State setting) (f : World → World) (a : Act Result)
    (hl : ¬ Loops st.host.store (f st.host).store) :
    Onward (st.act (.change f a)) { st with host := f st.host, control := .acting a } :=
  change rfl rfl hl

end Onward

/-! ### Moves that are refused -/

/-- Whether a statement puts a node before a child or takes a child away. -/
def Stmt.NeedsChild : Stmt → Prop
  | .before .. | .removeChild .. => True
  | _ => False

/-- Whether nothing was refused, or nothing has come of it but that it was refused. -/
def Refusable (w w' : World) : Prop :=
  (∃ log, w'.log = log ++ w.log ∧ .problem .notAChild ∉ log) ∨
    w' = { w with log := .problem .notAChild :: w.log }

theorem settle?_ask (f : World → Act α) (w : World) : (ask >>= f).settle? w = (f w).settle? w := rfl

theorem settle?_nodeNamed (name : String) (w : World) :
    ∃ log, (nodeNamed name).settle? w = some (w.nodes.get? name, { w with log := log ++ w.log }) ∧
      .problem .notAChild ∉ log ∧ ∀ id, w.nodes.get? name = some id → log = [] := by
  cases h : w.nodes.get? name with
  | none =>
    refine ⟨[.unbound name], ?_, by simp, by simp⟩
    simp [nodeNamed, ask, log, tell, Action.settle?, Bind.bind, Action.bind, Pure.pure, h]
  | some id =>
    simp [nodeNamed, ask, Action.settle?, Bind.bind, Action.bind, Pure.pure, h]

theorem settle?_markNamed (mark : Option String) (w : World) :
    ∃ r log, (markNamed mark).settle? w = some (r, { w with log := log ++ w.log }) ∧
      .problem .notAChild ∉ log ∧ ∀ id, r = some id → log = [] := by
  cases mark with
  | none => exact ⟨none, [], rfl, by simp, by simp⟩
  | some name =>
    obtain ⟨log, h, hlog, hid⟩ := settle?_nodeNamed name w
    exact ⟨_, log, h, hlog, hid⟩

theorem refusable_removeChild (env : Env) (p n : String) (w : World) :
    ∃ w', (exec env (.removeChild p n)).settle? w = some ((), w') ∧ Refusable w w' := by
  obtain ⟨l, hp, hl, hpl⟩ := settle?_nodeNamed p w
  obtain ⟨m, hn, hm, hnm⟩ := settle?_nodeNamed n { w with log := l ++ w.log }
  have hlm : .problem .notAChild ∉ m ++ l := by simp [hl, hm]
  have hboth : (exec env (.removeChild p n)).settle? w = _ :=
    (Action.settle?_bind hp).trans (Action.settle?_bind hn)
  rw [hboth]
  split
  · rename_i a b ha hb
    obtain rfl := hpl a ha
    obtain rfl := hnm b hb
    rw [settle?_ask]
    split
    · exact ⟨_, rfl, .inl ⟨[], rfl, by simp⟩⟩
    · exact ⟨_, rfl, .inr rfl⟩
  · exact ⟨_, rfl, .inl ⟨m ++ l, by simp, hlm⟩⟩

theorem refusable_before (env : Env) (p n : String) (mark : Option String) (w : World) :
    ∃ w', (exec env (.before p n mark)).settle? w = some ((), w') ∧ Refusable w w' := by
  obtain ⟨l, hp, hl, hpl⟩ := settle?_nodeNamed p w
  obtain ⟨m, hn, hm, hnm⟩ := settle?_nodeNamed n { w with log := l ++ w.log }
  obtain ⟨r, k, hr, hk, hrk⟩ := settle?_markNamed mark { w with log := m ++ (l ++ w.log) }
  have hlog : .problem .notAChild ∉ k ++ m ++ l := by simp [hl, hm, hk]
  have hall : (exec env (.before p n mark)).settle? w = _ :=
    (Action.settle?_bind hp).trans ((Action.settle?_bind hn).trans (Action.settle?_bind hr))
  rw [hall]
  split
  · rename_i a b ha hb
    obtain rfl := hpl a ha
    obtain rfl := hnm b hb
    cases r with
    | none => exact ⟨_, rfl, .inl ⟨k, rfl, hk⟩⟩
    | some c =>
      obtain rfl := hrk c rfl
      rw [settle?_ask]
      split
      · exact ⟨_, rfl, .inl ⟨[], rfl, by simp⟩⟩
      · exact ⟨_, rfl, .inr rfl⟩
  · exact ⟨_, rfl, .inl ⟨k ++ m ++ l, by simp, hlog⟩⟩

theorem refusable_of_needsChild (env : Env) (hs : s.NeedsChild) (w : World) :
    ∃ w', (exec env s).settle? w = some ((), w') ∧ Refusable w w' := by
  cases s with
  | before p n mark => exact refusable_before env p n mark w
  | removeChild p n => exact refusable_removeChild env p n w
  | _ => exact hs.elim

theorem body_block_cons (env : Env) (s : Stmt) (rest : Block) :
    body (.block env (s :: rest)) = (exec env s).bind fun _ => body (.block env rest) :=
  Action.bind_assoc (exec env s) (fun _ => execAll env rest) fun _ => Action.pure Result.nothing

/-! ### Trees -/

theorem parentIn?_eq_some_iff {s : Dom.Store Handler} (h : s.IsForest) {held} :
    s.parentIn? held n = some p ↔ n ∈ s.children p ∧ s.isAlive held p = true := by
  rw [Dom.Store.parentIn?, Option.filter_eq_some_iff, h.linked]

/-- At every step of a program, every node is at most once in all lists of children together; a
node has a parent in use exactly if that parent lists it; fragments have no parent; and the way up
from a node comes to an end.  A move that is refused changes nothing. -/
theorem Course.nodes_in_trees {st : State setting} (h : Course st) :
    ((List.range st.host.size).flatMap st.host.store.children).Nodup ∧
      (∀ n p, st.host.store.parentIn? (rootsOf (st.view language)) n = some p ↔
        n ∈ st.host.store.children p ∧
          st.host.store.isAlive (rootsOf (st.view language)) p = true) ∧
      (∀ n, (st.host.store.node n).kind = .fragment → st.host.store.parent? n = none) ∧
      (∀ n, ∃ k, st.host.store.ancestor? k n = none) ∧
      ∀ env s k, s.NeedsChild → st.control = .acting ((exec env s).bind k) →
        ∃ during w, Steps language st during { st with host := w, control := .acting (k ()) } ∧
          Refusable st.host w := by
  have hf : st.host.store.IsForest := h.sound.good.forest
  refine ⟨hf.nodup_flatMap, fun n p => parentIn?_eq_some_iff hf, hf.rootless,
    hf.exists_ancestor?_eq_none, fun env s k hs hc => ?_⟩
  obtain ⟨w, hw, hr⟩ := refusable_of_needsChild env hs st.host
  obtain ⟨during, hsteps⟩ := Action.steps_of_settle? hc hw
  exact ⟨during, w, hsteps, hr⟩

/-! ### A run -/

/-- Whether no step of a run puts a node into itself or below itself. -/
def clearRun : Nat → State setting → Bool
  | 0, _ => true
  | n + 1, st =>
    match st.step? language with
    | none => true
    | some next => st.host.store.clears next.host.store && clearRun n next

theorem Course.run (n : Nat) {st} (h : Course st) (hc : clearRun n st = true) :
    Course (st.run language n) := by
  induction n generalizing st with
  | zero => exact h
  | succ n ih =>
    simp only [clearRun] at hc
    simp only [State.run]
    split
    · exact h
    · rename_i next hs
      rw [hs] at hc
      obtain ⟨hclear, hrest⟩ := Bool.and_eq_true_iff.1 hc
      exact ih (h.step hs (Dom.Store.not_loops_of_clears hclear)) hrest

/-- A program that is about to run some statements. -/
def opened (statements : Block) : State setting where
  host := World.start
  control := .acting (body (.block {} [.cond (.literal (.bool true)) statements []]))

/-- A program that has run some statements, and is about to run another one. -/
def stagedBy (statements : Block) (next : Stmt) : State setting :=
  let st := (opened statements).run language 300
  { st with
    host := { st.host with log := [] }
    control := .acting (body (.block {} [next])) }

theorem course_stagedBy {statements : Block} {next : Stmt}
    (h : clearRun 300 (opened statements) = true ∧
      (((opened statements).run language 300).step? language).isNone) :
    Course (stagedBy statements next) :=
  ((Course.start _).run 300 h.1).statement next (Option.isNone_iff_eq_none.1 h.2)

/-- Two items go into a list by way of a fragment, change places, and are taken out again one after
the other by content that is kept up to date; in between the list is copied. -/
def carousel : Block := [
  .signal "first" (.literal (.bool true)),
  .element "list" "ul",
  .element "a" "li",
  .element "b" "li",
  .fragment "both",
  .append "both" "a",
  .append "both" "b",
  .append "body" "list",
  .append "list" "both",
  .before "list" "b" (some "a"),
  .insert "body"
    (.accessor (.cond (.cell .get "first") (.node "a") (.list [.node "b", .node "a"])))
      (some "list"),
  .copy "copy" "list" true,
  .append "body" "copy",
  .set "first" (.literal (.bool false))]

/-- The state after that, about to take an item from the list, in which there is none. -/
def carouselEnd : State setting := stagedBy carousel (.removeChild "list" "a")

theorem Course.nodes_in_trees_carousel :
    Course carouselEnd ∧ carouselEnd.host.store.children 1 = [4, 3, 2, 6] ∧
      carouselEnd.host.store.children 2 = [] ∧ carouselEnd.host.store.children 6 = [7] ∧
      ((List.range carouselEnd.host.size).flatMap carouselEnd.host.store.children).Nodup ∧
      (∃ k, carouselEnd.host.store.ancestor? k 7 = none) ∧
      ∃ during w, Steps language carouselEnd during
          { carouselEnd with host := w, control := .acting (body (.block {} [])) } ∧
        Refusable carouselEnd.host w := by
  have h : Course carouselEnd := course_stagedBy (by decide +kernel)
  refine ⟨h, by decide +kernel, by decide +kernel, by decide +kernel, h.nodes_in_trees.1,
    h.nodes_in_trees.2.2.2.1 7, ?_⟩
  exact h.nodes_in_trees.2.2.2.2 {} (.removeChild "list" "a") _ trivial
    (congrArg Reactive.Control.acting (body_block_cons {} _ []))

end ReactiveMarkup.Program
