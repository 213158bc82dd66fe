/-
Serving an event, call by call.

Callbacks are blocks of statements, which do whatever they like: they write sources, send
other events and have all kinds of code run.  What serves an event is told apart from that.
It takes its own steps, and each callback is one call, which lasts until the callback gives
its result.  So what has been called for an event is a list, in the order of the calls.
-/
import ReactiveMarkup.Proofs.Program.Edits

namespace ReactiveMarkup.Program

open List

open Dom (NodeId ListenerId)
open Dom.Store (Loops)
open Reactive (Frame State)

variable {α : Type} {e : EventId} {st next first last s : State setting}

/-! ### Callbacks -/

/-- A callback that is called: the node that it is called at, and what it runs. -/
structure Invocation where
  node : NodeId
  env : Env
  body : Block

namespace Invocation

/-- Whether a state is about to call a callback for an event, with what comes after it. -/
def Due (i : Invocation) (e : EventId) (st : State setting) (k : Result → Act Result) : Prop :=
  st.control = .acting (.call (.block i.env i.body) [.node i.node] k) ∧ i.env.event = some e

/-- The state where a callback begins.  The node is held until the callback is over. -/
def enter (i : Invocation) (st : State setting) (k : Result → Act Result) : State setting :=
  (st.push (.returning [.node i.node] k)).act (Program.body (.block i.env i.body))

theorem Due.step? {i : Invocation} (h : i.Due e st k) :
    st.step? language = some (i.enter st k) := by
  simp only [State.step?, h.1]
  rfl

end Invocation

/-- Whether code has come back to the frames that wait for it, with a result or a failure. -/
def Over (base : List (Frame setting)) (st : State setting) : Prop :=
  st.stack = base ∧ ((∃ r, st.control = .giving r) ∨ ∃ message, st.control = .failing message)

/-- The states that code comes through until it is over. -/
inductive Underway (first : State setting) : State setting → Prop
  | refl : Underway first first
  | step {st next : State setting} : Underway first st → ¬ Over first.stack st →
      st.step? language = some next → Underway first next

/-- Whether code that begins in a state gives its result in another one. -/
structure Returns (first last : State setting) (r : Result) : Prop where
  underway : Underway first last
  stack : last.stack = first.stack
  control : last.control = .giving r

/-- Code keeps to the regime as long as it is under way, if it does so at the start. -/
theorem Underway.soundAbove {first st : State setting} {N : Nat} (h : Underway first st)
    (ho : first.Orderly) (hs : (registry N).SoundAbove first.stack first) :
    st.Orderly ∧ (registry N).SoundAbove first.stack st ∧
    (registry N).Later first.host st.host := by
  induction h with
  | refl => exact ⟨ho, hs, .refl hs.good⟩
  | @step st next _ hover hstep ih =>
    obtain ⟨ho, hs, hl⟩ := ih
    have hlen : ∀ f rest, st.stack = f :: rest → ((∃ r, st.control = .giving r) ∨
        ∃ message, st.control = .failing message) → first.stack.length ≤ rest.length := by
      intro f rest hst hgiving
      obtain ⟨above, habove, -⟩ := hs.frames
      cases above with
      | nil => exact absurd ⟨habove, hgiving⟩ hover
      | cons g above =>
        obtain ⟨-, rfl⟩ := List.cons.inj (hst.symm.trans habove)
        simp
    obtain ⟨hnext, hl'⟩ := hs.step (registry_obeys N) ho hstep trivial hlen
    exact ⟨ho.step hstep, hnext, hl.trans hl'⟩

/-- Code that is kept for later serves no event. -/
theorem Code.Lasting.suits {code : Code} (h : code.Lasting) (N : Nat) : code.Suits N w := by
  cases code with
  | nodes document x => exact h.elim
  | bubble e n => exact h.elim
  | walk e name n => exact h.elim
  | _ => trivial

theorem soundAbove_enter (hreg : (registry 0).Sound st) {i : Invocation}
    (hN : N ≤ st.host.events.size) :
    (registry N).SoundAbove (i.enter st k).stack (i.enter st k) := by
  have hgood : (registry N).Good st.host := ⟨hreg.good.1, hN⟩
  have hkept : ∀ code, (registry 0).KeepFits st.host code → (registry N).KeepFits st.host code :=
    fun code hc => ⟨Code.Lasting.suits hc.2 N, hc.2⟩
  exact ⟨hgood, (registry_obeys N).body _ (.block i.env i.body) hgood trivial, ⟨[], rfl, by simp⟩,
    ⟨fun c code hc => hkept code (hreg.graph.code c code hc),
      fun c code hc => hkept code (hreg.graph.cleanups c code hc),
      fun code hc => hkept code (hreg.graph.tasks code hc)⟩⟩

/-- While a callback runs, an event that was there before it is still there, and keeps its name, its
target and the node that is being served. -/
theorem Underway.eventKept {i : Invocation} (h : Underway (i.enter st k) s)
    (hreg : (registry 0).Sound st) (ho : st.Orderly) (hdue : i.Due e st k)
    (he : e < st.host.events.size) :
    (registry (e + 1)).Later st.host s.host ∧ EventKept st.host s.host e := by
  have hsound := soundAbove_enter hreg (i := i) (k := k) he
  obtain ⟨-, -, hl⟩ := h.soundAbove (ho.step hdue.step?) hsound
  exact ⟨hl, eventKept_of_edits hl.before hsound.good (Nat.lt_succ_self e)⟩

/-- A callback leaves the name, the target and the current node of an event that was there before
it, and the event is still there. -/
theorem Returns.eventKept {i : Invocation} (h : Returns (i.enter st k) last r) (hc : Course st)
    (hdue : i.Due e st k) (he : e < st.host.events.size) :
    e < last.host.events.size ∧ EventKept st.host last.host e := by
  obtain ⟨past, hpast⟩ := hc.session
  obtain ⟨hl, hkept⟩ := h.underway.eventKept hc.registered hpast.orderly hdue he
  exact ⟨hl.good.2, hkept⟩

/-! ### Calls -/

/-- What has been called for an event between two states, and whether the event was stopped after
each call.  Nothing else that runs statements is called in between. -/
inductive Serves (e : EventId) : State setting → List (Invocation × Bool) → State setting → Prop
  | refl (st : State setting) : Serves e st [] st
  | step {st next last : State setting} {l : List (Invocation × Bool)}
      (hown : ∀ env body held k, st.control ≠ .acting (.call (.block env body) held k))
      (hstep : st.step? language = some next) (h : Serves e next l last) : Serves e st l last
  | call {st back last : State setting} {i : Invocation} {k : Result → Act Result} {r : Result}
      {l : List (Invocation × Bool)} (hdue : i.Due e st k) (hr : Returns (i.enter st k) back r)
      (h : Serves e ({ back with stack := st.stack }.act (k r)) l last) :
      Serves e st ((i, (back.host.event e).stopped) :: l) last

theorem Serves.trans {e : EventId} {first st last : State setting} {l l' : List (Invocation × Bool)}
    (h : Serves e first l st) (h' : Serves e st l' last) : Serves e first (l ++ l') last := by
  induction h with
  | refl st => exact h'
  | step hown hstep _ ih => exact .step hown hstep (ih h')
  | call hdue hr _ ih => exact .call hdue hr (ih h')

/-! ### Schedules -/

/-- A callback that is to be called for an event at a node: a listener, with its number, or a
handler. -/
structure Call where
  node : NodeId
  listener : Option ListenerId
  env : Env
  body : Block

def Call.invocation (e : EventId) (c : Call) : Invocation :=
  ⟨c.node, { c.env with event := some e }, c.body⟩

/-- What is to be called, one after the other, if it is known after how many calls the event is
stopped, and how many there have been before. -/
abbrev Schedule := (Nat → Bool) → Nat → List Call

namespace Schedule

def nothing : Schedule := fun _ _ => []

def single (c : Call) : Schedule := fun _ _ => [c]

def append (a b : Schedule) : Schedule := fun stops k =>
  a stops k ++ b stops (k + (a stops k).length)

/-- Nothing is called any more once the event is stopped. -/
def unlessStopped (a : Schedule) : Schedule := fun stops k => if stops k then [] else a stops k

end Schedule

/-- Whether the event was stopped when it is said to be, before and after each of some calls. -/
def Agrees (stops : Nat → Bool) : Nat → Bool → List (Invocation × Bool) → Prop
  | k, stopped, [] => stops k = stopped
  | k, stopped, x :: l => stops k = stopped ∧ Agrees stops (k + 1) x.2 l

/-- Whether the event is stopped after some calls. -/
def stoppedAfter : Bool → List (Invocation × Bool) → Bool
  | stopped, [] => stopped
  | _, x :: l => stoppedAfter x.2 l

section Agrees

variable {stops : Nat → Bool} {k : Nat} {b : Bool} {l l' : List (Invocation × Bool)}

theorem Agrees.start (h : Agrees stops k b l) : stops k = b := by
  cases l with
  | nil => exact h
  | cons x l => exact h.1

theorem Agrees.append (h : Agrees stops k b (l ++ l')) :
    Agrees stops k b l ∧ Agrees stops (k + l.length) (stoppedAfter b l) l' := by
  induction l generalizing k b with
  | nil => exact ⟨h.start, h⟩
  | cons x l ih =>
    obtain ⟨hl, hl'⟩ := ih h.2
    rw [Nat.add_right_comm] at hl'
    exact ⟨⟨h.1, hl⟩, hl'⟩

theorem stoppedAfter_append : stoppedAfter b (l ++ l') = stoppedAfter (stoppedAfter b l) l' := by
  induction l generalizing b with
  | nil => rfl
  | cons x l ih => exact ih

/-- Whether an event that is stopped stays so through some calls. -/
def Persists : Bool → List (Invocation × Bool) → Prop
  | _, [] => True
  | stopped, x :: l => (stopped = true → x.2 = true) ∧ Persists x.2 l

theorem persists_append : Persists b (l ++ l') ↔ Persists b l ∧ Persists (stoppedAfter b l) l' := by
  induction l generalizing b with
  | nil => exact (and_iff_right trivial).symm
  | cons x l ih =>
    rw [cons_append, Persists, Persists, ih, and_assoc]
    rfl

theorem Persists.stoppedAfter_eq (h : Persists b l) : stoppedAfter b l = (b || l.any Prod.snd) := by
  induction l generalizing b with
  | nil => simp [stoppedAfter]
  | cons x l ih =>
    rw [stoppedAfter, ih h.2]
    cases b with
    | false => rfl
    | true => rw [h.1 rfl, Bool.true_or, Bool.true_or]

/-- Whether any of the first of some calls has stopped the event. -/
def stopsOf (l : List (Invocation × Bool)) (k : Nat) : Bool := (l.take k).any Prod.snd

theorem Persists.agrees (h : Persists false l) : Agrees (stopsOf l) 0 false l := by
  have hdrop : ∀ (past rest : List (Invocation × Bool)), l = past ++ rest →
      Agrees (stopsOf l) past.length (stoppedAfter false past) rest := by
    intro past rest
    induction rest generalizing past with
    | nil =>
      intro hl
      have hpast := (persists_append.1 (hl ▸ h)).1
      simp [Agrees, stopsOf, hl, hpast.stoppedAfter_eq]
    | cons x rest ih =>
      intro hl
      have hpast := (persists_append.1 (hl ▸ h)).1
      have hnext := ih (past ++ [x]) (by simp [hl])
      rw [stoppedAfter_append, length_append] at hnext
      refine ⟨?_, hnext⟩
      simp [stopsOf, hl, hpast.stoppedAfter_eq]
  exact hdrop [] l rfl

end Agrees

def Follows (e : EventId) (plan : Schedule) (b : Bool) (l : List (Invocation × Bool)) : Prop :=
  ∀ stops k, Agrees stops k b l → (plan stops k).map (Call.invocation e) = l.map Prod.fst

/-- Whether calls were made as scheduled, and another one is the next on the schedule. -/
def FollowsTo (e : EventId) (plan : Schedule) (b : Bool) (l : List (Invocation × Bool))
    (i : Invocation) : Prop :=
  ∀ stops k, Agrees stops k b l → l.map Prod.fst ++ [i] <+: (plan stops k).map (Call.invocation e)

section Follows

variable {plan plan' : Schedule} {b : Bool} {l l' : List (Invocation × Bool)} {i : Invocation}

theorem Follows.scheduled (h : Follows e plan b l) (h' : Follows e plan' (stoppedAfter b l) l') :
    Follows e (plan.append plan') b (l ++ l') := by
  intro stops k ha
  obtain ⟨hl, hl'⟩ := ha.append
  have hplan := h stops k hl
  have hlen : (plan stops k).length = l.length := by simpa using congrArg List.length hplan
  rw [Schedule.append, map_append, map_append, hplan, hlen, h' stops _ hl']

theorem Follows.scheduledTo (h : Follows e plan b l)
    (h' : FollowsTo e plan' (stoppedAfter b l) l' i) :
    FollowsTo e (plan.append plan') b (l ++ l') i := by
  intro stops k ha
  obtain ⟨hl, hl'⟩ := ha.append
  have hplan := h stops k hl
  have hlen : (plan stops k).length = l.length := by simpa using congrArg List.length hplan
  rw [Schedule.append, map_append, map_append, hplan, hlen, append_assoc]
  exact (prefix_append_right_inj _).2 (h' stops _ hl')

theorem FollowsTo.scheduled (h : FollowsTo e plan b l i) :
    FollowsTo e (plan.append plan') b l i := by
  intro stops k ha
  rw [Schedule.append, map_append]
  exact (h stops k ha).trans (prefix_append _ _)

end Follows

/-! ### Code that serves an event -/

/-- Whether the nodes of a way are of the same kinds in two stores, and have the same listeners and
handlers for an event. -/
structure Alike (name : String) (path : List NodeId) (s s' : Dom.Store Handler) : Prop where
  kinds : ∀ n ∈ path, (s'.node n).kind = (s.node n).kind
  listeners : ∀ n ∈ path, s'.listenersFor n name = s.listenersFor n name
  handlers : ∀ n ∈ path, (s'.node n).handlers.get? name = (s.node n).handlers.get? name

theorem Alike.trans {name} {path} {s s' s''} (h : Alike name path s s')
    (h' : Alike name path s' s'') : Alike name path s s'' :=
  ⟨fun n hn => (h'.kinds n hn).trans (h.kinds n hn),
    fun n hn => (h'.listeners n hn).trans (h.listeners n hn),
    fun n hn => (h'.handlers n hn).trans (h.handlers n hn)⟩

/-- Whether a callback has changed nothing that matters to an event on its way: it has put no node
below itself, and no node of the way has got another parent, other listeners or another handler for
the event. -/
structure Undisturbed (name : String) (path : List NodeId) (first last : State setting) : Prop where
  course : Course last
  parents : ∀ n ∈ path, last.host.store.parentIn? (rootsOf (last.view language)) n =
    first.host.store.parentIn? (rootsOf (first.view language)) n
  alike : Alike name path first.host.store last.host.store

/-- Whether a state is about to call a callback that fails, never comes back, or changes something
that matters to the event on its way. -/
def Stays (e : EventId) (name : String) (path : List NodeId) (st : State setting) (i : Invocation) :
    Prop :=
  ∃ k, i.Due e st k ∧ Course st ∧
    ∀ last r, Returns (i.enter st k) last r → ¬ Undisturbed name path (i.enter st k) last

/-- A callback with nothing to do comes back at once. -/
theorem not_stays_of_nil {name : String} {path : List NodeId} {i : Invocation} (h : i.body = []) :
    ¬ Stays e name path st i := by
  rintro ⟨k, hdue, hcourse, hno⟩
  obtain ⟨n, env, _⟩ := i
  obtain rfl := h
  set first := Invocation.enter ⟨n, env, []⟩ st k
  have hbusy : ¬ Over first.stack first := by
    rintro ⟨-, ⟨r, h⟩ | ⟨m, h⟩⟩ <;> cases h
  have hback : first.step? language = some (first.give .nothing) := rfl
  have hsame := Dom.Store.not_loops_self st.host.store
  refine hno _ _ ⟨.step .refl hbusy hback, rfl, rfl⟩ ⟨?_, fun _ _ => rfl, ?_⟩
  · exact (hcourse.step hdue.step? hsame).step hback hsame
  · exact ⟨fun _ _ => rfl, fun _ _ => rfl, fun _ _ => rfl⟩

/-- An event on its way, with the nodes that it comes to, as they were when it was sent. -/
structure Scene where
  event : EventId
  name : String
  target : NodeId
  store : Dom.Store Handler
  path : List NodeId

def Scene.stopped (sc : Scene) (st : State setting) : Bool := (st.host.event sc.event).stopped

/-- Whether a state leads to some other state with calls as scheduled, unless it stays at one of
them. -/
def Leads (sc : Scene) (plan : Schedule) (P : State setting → Prop) (st : State setting) : Prop :=
  Course st → ∃ l s, Serves sc.event st l s ∧ Persists (sc.stopped st) l ∧
    ((P s ∧ Course s ∧ sc.stopped s = stoppedAfter (sc.stopped st) l ∧
        Follows sc.event plan (sc.stopped st) l) ∨
      ∃ i, Stays sc.event sc.name sc.path s i ∧ FollowsTo sc.event plan (sc.stopped st) l i)

namespace Leads

variable {sc : Scene} {plan plan' : Schedule} {P R : State setting → Prop}

theorem done (h : P st) : Leads sc .nothing P st := fun hc =>
  ⟨[], st, .refl st, trivial, .inl ⟨h, hc, rfl, fun _ _ _ => rfl⟩⟩

theorem mono (h : Leads sc plan P st) (hP : ∀ s, P s → R s) : Leads sc plan R st := by
  intro hc
  obtain ⟨l, s, hl, hpersists, ⟨hp, hend⟩ | hstay⟩ := h hc
  · exact ⟨l, s, hl, hpersists, .inl ⟨hP s hp, hend⟩⟩
  · exact ⟨l, s, hl, hpersists, .inr hstay⟩

theorem append (h : Leads sc plan P st) (h' : ∀ s, P s → Leads sc plan' R s) :
    Leads sc (plan.append plan') R st := by
  intro hc
  obtain ⟨l, s, hl, hpersists, ⟨hp, hcs, hstop, hfollows⟩ | ⟨i, hstay, hto⟩⟩ := h hc
  · obtain ⟨l', s', hl', hpersists', hend⟩ := h' s hp hcs
    rw [hstop] at hpersists'
    rw [hstop, ← stoppedAfter_append] at hend
    refine ⟨l ++ l', s', hl.trans hl', persists_append.2 ⟨hpersists, hpersists'⟩, ?_⟩
    rcases hend with ⟨hr, hcs', hstop', hfollows'⟩ | ⟨i, hstay, hto⟩
    · exact .inl ⟨hr, hcs', hstop', hfollows.scheduled hfollows'⟩
    · exact .inr ⟨i, hstay, hfollows.scheduledTo hto⟩
  · exact ⟨l, s, hl, hpersists, .inr ⟨i, hstay, hto.scheduled⟩⟩

/-- A step that calls no statements and touches neither the nodes nor whether the event is
stopped. -/
theorem step (hown : ∀ env body held k, st.control ≠ .acting (.call (.block env body) held k))
    (hstep : st.step? language = some next) (hs : next.host.store = st.host.store)
    (hstop : sc.stopped next = sc.stopped st) (h : Leads sc plan P next) : Leads sc plan P st := by
  intro hc
  have hloops : ¬ Loops st.host.store next.host.store := by
    rw [hs]
    exact Dom.Store.not_loops_self _
  obtain ⟨l, s, hl, hend⟩ := h (hc.step hstep hloops)
  rw [hstop] at hend
  exact ⟨l, s, .step hown hstep hl, hend⟩

/-- A callback is called, and comes back undisturbed unless the state stays there. -/
theorem call (hdue : (c.invocation sc.event).Due sc.event st k)
    (h : Course st → ∀ last r, Returns ((c.invocation sc.event).enter st k) last r →
      Undisturbed sc.name sc.path ((c.invocation sc.event).enter st k) last →
      (sc.stopped st = true → sc.stopped last = true) ∧
        P ({ last with stack := st.stack }.act (k r))) :
    Leads sc (.single c) P st := by
  intro hc
  by_cases hreturns : ∃ last r, Returns ((c.invocation sc.event).enter st k) last r ∧
      Undisturbed sc.name sc.path ((c.invocation sc.event).enter st k) last
  · obtain ⟨last, r, hr, hu⟩ := hreturns
    have hback : last.step? language = some ({ last with stack := st.stack }.act (k r)) := by
      have hstack : last.stack = .returning [.node c.node] k :: st.stack := hr.stack
      simp only [State.step?, hr.control, hstack]
      rfl
    obtain ⟨hstays, hp⟩ := h hc last r hr hu
    refine ⟨[(c.invocation sc.event, sc.stopped last)], _, .call hdue hr (.refl _),
      ⟨hstays, trivial⟩,
      .inl ?_⟩
    exact ⟨hp, hu.course.step hback (Dom.Store.not_loops_self _), rfl, fun _ _ _ => rfl⟩
  · refine ⟨[], st, .refl st, trivial, .inr ⟨c.invocation sc.event, ⟨k, hdue, hc, ?_⟩, ?_⟩⟩
    · exact fun last r hr hu => hreturns ⟨last, r, hr, hu⟩
    · exact fun _ _ _ => prefix_rfl

/-- Another schedule, which is the same as far as it is known whether the event is stopped. -/
theorem replan (h : Leads sc plan P st)
    (heq : ∀ stops k, stops k = sc.stopped st → plan' stops k = plan stops k) :
    Leads sc plan' P st := by
  intro hc
  obtain ⟨l, s, hl, hpersists, hend⟩ := h hc
  refine ⟨l, s, hl, hpersists, hend.imp ?_ ?_⟩
  · rintro ⟨hp, hcs, hstop, hfollows⟩
    refine ⟨hp, hcs, hstop, fun stops k ha => ?_⟩
    rw [heq stops k ha.start]
    exact hfollows stops k ha
  · rintro ⟨i, hstay, hto⟩
    refine ⟨i, hstay, fun stops k ha => ?_⟩
    rw [heq stops k ha.start]
    exact hto stops k ha

/-- After the calls there may be other steps. -/
theorem finish (h : Leads sc plan P st) (h' : ∀ s, P s → Leads sc .nothing R s) :
    Leads sc plan R st :=
  (h.append h').replan fun _ _ _ => (append_nil _).symm

/-- Once the event is stopped, nothing else is called. -/
theorem unlessStopped (hyes : sc.stopped st = true → Leads sc .nothing P st)
    (hno : sc.stopped st = false → Leads sc plan P st) : Leads sc plan.unlessStopped P st := by
  cases hb : sc.stopped st with
  | true => exact (hyes hb).replan fun stops k hk => by simp [Schedule.unlessStopped, hk, hb,
      Schedule.nothing]
  | false => exact (hno hb).replan fun stops k hk => by simp [Schedule.unlessStopped, hk, hb]

end Leads

end ReactiveMarkup.Program
