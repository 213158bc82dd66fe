/-
The node that an event is said to be at.

While an event is on its way, it says which node it is serving.  A callback sees the node
that it was added to, with one exception.  A document that listens for an event once for
all its nodes has the handlers of these called, and each of them sees its own node.  The
event then still says that it is at the node of the last handler, and so that is what the
listeners of the document see which come after.

Callbacks may do anything, so what has happened is written down as it comes: where the event
came to, and what was called for it with what it saw.
-/
import ReactiveMarkup.Proofs.Program.Placing
import ReactiveMarkup.Proofs.Program.Serving

namespace ReactiveMarkup.Program

open Dom (NodeId)
open Reactive (Action Frame State Steps)

variable {α β : Type} {e : EventId} {name : String} {st next last s : State setting}

/-! ### What is written down -/

/-- What may happen to an event on its way. -/
inductive Mark where
  /-- It comes to a node, with the listeners there. -/
  | came (n : NodeId) (listeners : List (Dom.Listener Handler))
  /-- A callback is called in a world, and sees the event at a node. -/
  | called (i : Invocation) (w : World) (seen : Option NodeId)

/-- What comes next: a step, or all that a callback does.  A callback may look at any time, until it
is over. -/
inductive Link (e : EventId) (st : State setting) : Option Mark → State setting → Prop
  | own {next : State setting} (hown : ∀ i k, ¬ Invocation.Due i e st k)
      (hcame : ∀ n held k, st.control ≠ .acting (.call (.bubble e n) held k))
      (hstep : st.step? language = some next) : Link e st none next
  | come {n : NodeId} {held : List Item} {k : Result → Act Result} {next : State setting}
      (hc : st.control = .acting (.call (.bubble e n) held k))
      (hstep : st.step? language = some next) :
      Link e st (some (.came n (st.host.store.listenersFor n (st.host.event e).name))) next
  | call {i : Invocation} {k : Result → Act Result} {mid back : State setting} (hdue : i.Due e st k)
      (hmid : Underway (i.enter st k) mid) (hback : Underway (i.enter st k) back)
      (hover : Over (i.enter st k).stack back) :
      Link e st (some (.called i st.host (mid.host.event e).current)) back

/-- What has happened to an event between two states, the second of which may be in a callback. -/
inductive Attends (e : EventId) : State setting → List Mark → State setting → Prop
  | refl (st : State setting) : Attends e st [] st
  | link {st next last : State setting} {mark : Option Mark} {marks : List Mark}
      (h : Link e st mark next) (h' : Attends e next marks last) :
      Attends e st (mark.toList ++ marks) last
  | during {st mid : State setting} {i : Invocation} {k : Result → Act Result} (hdue : i.Due e st k)
      (hmid : Underway (i.enter st k) mid) :
      Attends e st [.called i st.host (mid.host.event e).current] mid

theorem exists_attends_step (h : st.step? language = some next) :
    ∃ marks, Attends e st marks next := by
  by_cases hdue : ∃ i k, Invocation.Due i e st k
  · obtain ⟨i, k, hdue⟩ := hdue
    obtain rfl := Option.some_inj.1 (hdue.step?.symm.trans h)
    exact ⟨_, .during hdue .refl⟩
  · have hown : ∀ i k, ¬ Invocation.Due i e st k := fun i k hi => hdue ⟨i, k, hi⟩
    by_cases hcame : ∃ n held k, st.control = .acting (.call (.bubble e n) held k)
    · obtain ⟨n, held, k, hc⟩ := hcame
      exact ⟨_, .link (.come hc h) (.refl next)⟩
    · have hcame : ∀ n held k, st.control ≠ .acting (.call (.bubble e n) held k) :=
        fun n held k hc => hcame ⟨n, held, k, hc⟩
      exact ⟨_, .link (.own hown hcame h) (.refl next)⟩

theorem Attends.snoc {marks} (h : Attends e st marks s) (hstep : s.step? language = some next) :
    ∃ marks, Attends e st marks next := by
  induction h with
  | refl st => exact exists_attends_step hstep
  | link h _ ih =>
    obtain ⟨marks, hmarks⟩ := ih hstep
    exact ⟨_, .link h hmarks⟩
  | @during st mid i k hdue hmid =>
    by_cases hover : Over (i.enter st k).stack mid
    · obtain ⟨marks, hmarks⟩ := exists_attends_step hstep
      exact ⟨_, .link (.call hdue hmid hmid hover) hmarks⟩
    · exact ⟨_, .during hdue (hmid.step hover hstep)⟩

theorem exists_attends {during} (h : Steps language st during s) :
    ∃ marks, Attends e st marks s := by
  induction h with
  | refl => exact ⟨_, .refl st⟩
  | step _ hstep ih =>
    obtain ⟨marks, hmarks⟩ := ih
    exact hmarks.snoc hstep

/-- Only one callback can be about to be called. -/
theorem Invocation.Due.unique {i i' : Invocation} (h : i.Due e st k) (h' : i'.Due e st k') :
    i = i' ∧ k = k' := by
  obtain ⟨hcode, hheld, hk⟩ := Action.call.inj (Reactive.Control.acting.inj (h.1.symm.trans h'.1))
  obtain ⟨henv, hbody⟩ := Code.block.inj hcode
  have hnode := Item.node.inj (List.cons.inj hheld).1
  obtain ⟨n, env, body⟩ := i
  dsimp only at henv hbody hnode
  rw [henv, hbody, hnode]
  exact ⟨rfl, hk⟩

/-! ### What is to be seen -/

/-- The node that an event has come to, the listeners there, and the node that the event is said to
be at. -/
structure Standpoint where
  node : NodeId
  listeners : List (Dom.Listener Handler)
  seen : NodeId

/-- A callback at another node than the one that the event has come to is a handler, and then the
event is said to be at the node of the handler. -/
def Standpoint.serve (p : Standpoint) (n : NodeId) : Standpoint :=
  if n = p.node then p else { p with seen := n }

/-- What becomes of the standpoint of an event. -/
def Standpoint.after (p : Standpoint) : Mark → Standpoint
  | .came n listeners => ⟨n, listeners, n⟩
  | .called i _ _ => p.serve i.node

/-- The callback that is called at a node, unless handlers are looked up. -/
def Handler.invocation? (e : EventId) (n : NodeId) : Handler → Option Invocation
  | .block env body => some ⟨n, { env with event := some e }, body⟩
  | .walk _ => none

/-- Whether all is right with what has happened to an event.  A callback is either

* a listener of the node that the event has come to, and sees the event where it is said to be, or
* a handler of another node, which is called because the node that the event has come to is a
  document that looks handlers up, and sees its own node. -/
def Mark.Right (e : EventId) (name : String) (p : Standpoint) : Mark → Prop
  | .came _ listeners => ∀ l ∈ listeners, l.event = name
  | .called i w seen =>
    (i.node = p.node ∧ (∃ l ∈ p.listeners, l.handler.invocation? e p.node = some i) ∧
        seen = some p.seen) ∨
      (i.node ≠ p.node ∧
        ((w.store.node i.node).handlers.get? name).bind (·.invocation? e i.node) = some i ∧
        w.store.IsDocument p.node ∧ (∃ l ∈ p.listeners, walked? l = some name) ∧ seen = some i.node)

/-- Whether all is right with all that has happened to an event, one after the other. -/
def Rightly (e : EventId) (name : String) : Standpoint → List Mark → Prop
  | _, [] => True
  | p, mark :: marks => mark.Right e name p ∧ Rightly e name (p.after mark) marks

theorem rightly_append {marks marks'} :
    Rightly e name p (marks ++ marks') ↔
      Rightly e name p marks ∧ Rightly e name (marks.foldl Standpoint.after p) marks' := by
  induction marks generalizing p with
  | nil => exact (and_iff_right trivial).symm
  | cons mark marks ih => rw [List.cons_append, Rightly, Rightly, ih, and_assoc, List.foldl_cons]

/-! ### States that are watched -/

/-- What holds of all states that programs come through, also if nodes are put below themselves. -/
structure Steady (st : State setting) : Prop where
  sound : (registry 0).Sound st
  orderly : st.Orderly

theorem Course.steady (h : Course st) : Steady st := by
  obtain ⟨past, hs⟩ := h.session
  exact ⟨h.registered, hs.orderly⟩

theorem Steady.step (h : Steady st) (hstep : st.step? language = some next) : Steady next :=
  ⟨h.sound.step (registry_obeys 0) h.orderly hstep trivial, h.orderly.step hstep⟩

theorem Underway.steady {first} (h : Underway first st) (hs : Steady first) : Steady st := by
  induction h with
  | refl => exact hs
  | step _ _ hstep ih => exact ih.step hstep

theorem Link.steady {mark} (h : Link e st mark next) (hs : Steady st) : Steady next := by
  cases h with
  | own _ _ hstep | come _ hstep => exact hs.step hstep
  | call hdue _ hback _ => exact hback.steady (hs.step hdue.step?)

/-- Whether all is right with what happens next, for a number of links, up to a state that is asked
for.  The number is there because calls are nested, and it is not known how deep. -/
def Watched (e : EventId) (name : String) (P : Standpoint → State setting → Prop) :
    Nat → Standpoint → State setting → Prop
  | 0, _, _ => True
  | m + 1, p, st => Steady st → P p st ∨
      ((∀ mark next, Link e st mark next →
          (∀ x ∈ mark, x.Right e name p) ∧ Watched e name P m (mark.elim p p.after) next) ∧
        ∀ i k mid, Invocation.Due i e st k → Underway (i.enter st k) mid →
          (Mark.called i st.host (mid.host.event e).current).Right e name p)

namespace Watched

variable {P : Standpoint → State setting → Prop} {m : Nat} {p : Standpoint}

theorem pred (h : Watched e name P (m + 1) p st) : Watched e name P m p st := by
  induction m generalizing p st with
  | zero => trivial
  | succ m ih =>
    intro hs
    rcases h hs with hp | ⟨hlinks, hduring⟩
    · exact .inl hp
    · refine .inr ⟨fun mark next hl => ?_, hduring⟩
      obtain ⟨hright, hnext⟩ := hlinks mark next hl
      exact ⟨hright, ih hnext⟩

theorem own (hown : ∀ i k, ¬ Invocation.Due i e st k)
    (hcame : ∀ n held k, st.control ≠ .acting (.call (.bubble e n) held k))
    (hstep : st.step? language = some next) (h : Watched e name P m p next) :
    Watched e name P m p st := by
  cases m with
  | zero => trivial
  | succ m =>
    refine fun _ => .inr ⟨fun mark next' hl => ?_, fun i k _ hdue => absurd hdue (hown i k)⟩
    cases hl with
    | own _ _ hstep' =>
      obtain rfl := Option.some_inj.1 (hstep.symm.trans hstep')
      exact ⟨by simp, h.pred⟩
    | come hc _ => exact absurd hc (hcame _ _ _)
    | call hdue _ _ _ => exact absurd hdue (hown _ _)

end Watched

/-- What has happened is right up to a state that was asked for. -/
theorem Attends.rightly {marks} (h : Attends e st marks s) (hw : ∀ m, Watched e name P m p st)
    (hs : Steady st) :
    ∃ past later mid, marks = past ++ later ∧ Attends e st past mid ∧ Attends e mid later s ∧
      Rightly e name p past ∧ (mid = s ∧ later = [] ∨ P (past.foldl Standpoint.after p) mid) := by
  induction h generalizing p with
  | refl st => exact ⟨[], [], st, rfl, .refl st, .refl st, trivial, .inl ⟨rfl, rfl⟩⟩
  | @link st next last mark marks hl hrest ih =>
    by_cases hp : P p st
    · exact ⟨[], _, st, rfl, .refl st, .link hl hrest, trivial, .inr hp⟩
    · have hnext : ∀ m, (∀ x ∈ mark, x.Right e name p) ∧
          Watched e name P m (mark.elim p p.after) next :=
        fun m => ((hw (m + 1) hs).resolve_left hp).1 mark next hl
      obtain ⟨past, later, mid, rfl, hpast, hlater, hright, hend⟩ :=
        ih (fun m => (hnext m).2) (hl.steady hs)
      refine ⟨mark.toList ++ past, later, mid, by simp, .link hl hpast, hlater, ?_, ?_⟩
      · cases mark with
        | none => exact hright
        | some x => exact ⟨(hnext 0).1 x rfl, hright⟩
      · cases mark with
        | none => exact hend
        | some x => exact hend
  | @during st mid i k hdue hmid =>
    rcases hw 1 hs with hp | ⟨-, hduring⟩
    · exact ⟨[], _, st, rfl, .refl st, .during hdue hmid, trivial, .inr hp⟩
    · exact ⟨_, [], mid, by simp, .during hdue hmid, .refl mid,
        ⟨hduring i k mid hdue hmid, trivial⟩,
        .inl ⟨rfl, rfl⟩⟩

end ReactiveMarkup.Program
