/-
Taking an event from node to node.

An event comes to its target and to the nodes above it.  At each of them the listeners are
called, and a listener that looks handlers up goes the same way once more, from the target
to the first document.  On the way the event holds nodes: its target and the node that is
being served.  What it holds does not change the way, since all of these are on the way
themselves and below the node that the event has come to.
-/
import ReactiveMarkup.Proofs.Dom.Ways
import ReactiveMarkup.Proofs.Program.Serving

namespace ReactiveMarkup.Program

open List

open Dom (NodeId Way)
open Dom.Store (IsForest)
open Reactive (Action Frame State)

variable {α β : Type} {e : EventId} {st next : State setting} {w : World} {a m n p : NodeId}
  {held : List Item} {k : Result → Act Result}

/-! ### What is to be called -/

/-- Calls are made one after the other until the event is stopped. -/
def inTurn : List Call → Schedule
  | [] => .nothing
  | c :: rest => (Schedule.single c).append (inTurn rest).unlessStopped

def handlerCall? (s : Dom.Store Handler) (name : String) (n : NodeId) : Option Call :=
  match (s.node n).handlers.get? name with
  | some (.block env body) => some ⟨n, none, env, body⟩
  | _ => none

/-- The handlers for an event on a way up to the first document. -/
def delegates (s : Dom.Store Handler) (name : String) (path : List NodeId) : List Call :=
  (path.takeWhile fun n => (s.node n).kind ≠ .document).filterMap (handlerCall? s name)

/-- A listener of a node is called.  One that looks handlers up calls these in turn. -/
def answered (delegated : List Call) (n : NodeId) (l : Dom.Listener Handler) : Schedule :=
  match l.handler with
  | .block env body => .single ⟨n, some l.id, env, body⟩
  | .walk _ => inTurn delegated

/-- All listeners of a node are called, also if one of them stops the event. -/
def heard (delegated : List Call) (n : NodeId) : List (Dom.Listener Handler) → Schedule
  | [] => .nothing
  | l :: rest => (answered delegated n l).append (heard delegated n rest)

/-- The listeners of one node after the other are called until the event is stopped. -/
def passed (s : Dom.Store Handler) (name : String) (delegated : List Call) : List NodeId → Schedule
  | [] => .nothing
  | n :: rest =>
    (heard delegated n (s.listenersFor n name)).append (passed s name delegated rest).unlessStopped

variable {s : Dom.Store Handler}

theorem delegates_of_document (name : String) (hn : s.IsDocument n) (rest : List NodeId) :
    delegates s name (n :: rest) = [] := by
  rw [delegates, takeWhile_cons_of_neg (by simpa [Dom.Store.IsDocument] using hn)]
  rfl

theorem delegates_cons (name : String) (hn : ¬ s.IsDocument n) (rest : List NodeId) :
    delegates s name (n :: rest) = (handlerCall? s name n).toList ++ delegates s name rest := by
  rw [delegates, takeWhile_cons_of_pos (by simpa [Dom.Store.IsDocument] using hn), filterMap_cons]
  cases handlerCall? s name n with
  | none => rfl
  | some c => rfl

/-! ### What is held -/

/-- The nodes that are held, whatever action comes next. -/
def rootsAt (st : State setting) : List NodeId := rootsOf ((st.act (.pure .nothing)).view language)

theorem mem_roots {living} :
    a ∈ w.roots held living ↔ a ∈ held.flatMap w.itemNodes ∨ a ∈ w.roots [] living := by
  simp only [World.roots, mem_append]
  tauto

theorem mem_rootsAt_push :
    a ∈ rootsAt (st.push (.returning held k)) ↔ a ∈ held.flatMap st.host.itemNodes ∨
    a ∈ rootsAt st := by
  have hpush : rootsAt (st.push (.returning held k)) = st.host.roots
    (held ++ st.stack.flatMap Frame.items) ((st.act (.pure .nothing)).view language).living := rfl
  rw [hpush]
  refine (mem_roots.trans ?_).trans (or_congr_right mem_roots.symm)
  rw [flatMap_append, mem_append, or_assoc]
  rfl

theorem mem_roots_event (w w' : World) {living} (hrest : w'.roots [] living = w.roots [] living)
    (h : ∀ j, j ≠ i → w'.event j = w.event j) (ha : a ∈ w'.roots held living) :
    a ∈ w.roots held living ∨ a ∈ w'.eventNodes i := by
  rcases mem_roots.1 ha with hitem | hrest'
  · obtain ⟨x, hx, hax⟩ := mem_flatMap.1 hitem
    cases x with
    | node m => exact .inl (mem_roots.2 (.inl (mem_flatMap.2 ⟨.node m, hx, hax⟩)))
    | event j =>
      by_cases hj : j = i
      · exact .inr (hj ▸ hax)
      · refine .inl (mem_roots.2 (.inl (mem_flatMap.2 ⟨.event j, hx, ?_⟩)))
        have hevent : a ∈ w'.eventNodes j := hax
        rw [World.eventNodes, h j hj] at hevent
        exact hevent
  · exact .inl (mem_roots.2 (.inr (hrest ▸ hrest')))

theorem mem_rootsAt_event (events : Array Dom.Event)
    (h : ∀ j, j ≠ i → ({ st.host with events }).event j = st.host.event j) :
    (a ∈ rootsAt { st with host := { st.host with events } } →
        a ∈ rootsAt st ∨ a ∈ ({ st.host with events }).eventNodes i) ∧
      (a ∈ rootsAt st → a ∈ rootsAt { st with host := { st.host with events } } ∨
        a ∈ st.host.eventNodes i) :=
  ⟨mem_roots_event st.host { st.host with events } rfl h,
    mem_roots_event { st.host with events } st.host rfl fun j hj => (h j hj).symm⟩

/-- Whether a call in progress holds a node. -/
def Holds (stack : List (Frame setting)) (n : NodeId) : Prop := ∃ f ∈ stack, Item.node n ∈ f.items

theorem mem_rootsAt_of_holds (h : Holds st.stack n) : n ∈ rootsAt st := by
  obtain ⟨f, hf, hn⟩ := h
  refine mem_roots.2 (.inl (mem_flatMap.2 ⟨.node n, mem_flatMap.2 ⟨f, hf, hn⟩, ?_⟩))
  exact mem_singleton.2 rfl

theorem rootsOf_view_eq (h : ∀ c, st.control ≠ .executing c) :
    rootsOf (st.view language) = rootsAt st := by
  obtain ⟨host, graph, control, stack⟩ := st
  cases control with
  | executing c => exact absurd rfl (h c)
  | _ => rfl

/-! ### Where an event has come to -/

variable {before : List NodeId}

namespace Scene

/-- Whether an event on its way has come to a node, after some others. -/
structure At (sc : Scene) (pre : List NodeId) (n : NodeId) (st : State setting) : Prop where
  forest : st.host.store.IsForest
  there : sc.event < st.host.events.size
  name : (st.host.event sc.event).name = sc.name
  target : (st.host.event sc.event).target = sc.target
  /-- The node that is being served is that node or below it. -/
  current : ∀ c, (st.host.event sc.event).current = some c → c ∈ pre ++ [n]
  on : ∃ post, sc.path = pre ++ n :: post
  /-- The node itself is held by what serves the event. -/
  way : Way (st.host.store.parentIn? (n :: rootsAt st)) sc.target sc.path
  alike : Alike sc.name sc.path sc.store st.host.store

variable {sc : Scene} {pre post : List NodeId}

namespace At

theorem push_iff (hheld : ∀ a ∈ held.flatMap st.host.itemNodes, a = n) :
    sc.At pre n (st.push (.returning held k)) ↔ sc.At pre n st := by
  have hmem : ∀ a, a ∈ n :: rootsAt (st.push (.returning held k)) ↔ a ∈ n :: rootsAt st := by
    intro a
    rw [mem_cons, mem_cons, mem_rootsAt_push]
    constructor
    · rintro (h | h | h)
      · exact .inl h
      · exact .inl (hheld a h)
      · exact .inr h
    · exact Or.imp_right .inr
  constructor <;> intro h
  · refine ⟨h.forest, h.there, h.name, h.target, h.current, h.on, ?_, h.alike⟩
    exact h.forest.way_hold h.way (fun a ha => .inl ((hmem a).2 ha))
      fun a ha => ⟨a, (hmem a).1 ha, .refl⟩
  · refine ⟨h.forest, h.there, h.name, h.target, h.current, h.on, ?_, h.alike⟩
    exact h.forest.way_hold h.way (fun a ha => .inl ((hmem a).1 ha))
      fun a ha => ⟨a, (hmem a).2 ha, .refl⟩

theorem pop (h : sc.At pre n next) {rest} (hs : next.stack = .returning held k :: rest)
    (hheld : ∀ a ∈ held.flatMap next.host.itemNodes, a = n) :
    sc.At pre n { next with stack := rest } := by
  obtain ⟨host, graph, control, stack⟩ := next
  obtain rfl : stack = .returning held k :: rest := hs
  have hpop : sc.At pre n (State.push ⟨host, graph, control, rest⟩ (.returning held k)) ↔ _ :=
    push_iff hheld
  exact hpop.1 h

variable (h : sc.At pre n st)

include h

theorem mem_path (hm : m ∈ pre ++ [n]) : m ∈ sc.path := by
  obtain ⟨post, hpost⟩ := h.on
  rw [hpost]
  rcases mem_append.1 hm with hm | hm
  · exact mem_append_left _ hm
  · exact mem_append_right _ (mem_singleton.1 hm ▸ .head _)

theorem within (hm : m ∈ pre ++ [n]) : st.host.store.Within m n := by
  obtain ⟨post, hpost⟩ := h.on
  have hway := h.way
  rw [hpost] at hway
  exact Dom.Store.within_of_mem_way hway hm

theorem target_mem : sc.target ∈ pre ++ [n] := by
  obtain ⟨post, hpost⟩ := h.on
  obtain ⟨rest, hrest⟩ := h.way.exists_cons
  rw [hpost] at hrest
  cases pre with
  | nil => exact mem_singleton.2 (List.cons.inj hrest).1.symm
  | cons b pre => exact mem_cons.2 (.inl (List.cons.inj hrest).1.symm)

theorem mem_of_mem_eventNodes (ha : a ∈ st.host.eventNodes sc.event) :
    a ∈ pre ++ [n] := by
  rcases mem_cons.1 ha with rfl | ha
  · rw [h.target]
    exact h.target_mem
  · exact h.current a (Option.mem_toList.1 ha)

/-- The event serves the node, or one that it has passed. -/
theorem serve (hm : m ∈ pre ++ [n]) :
    sc.At pre n { st with host := { st.host with
      events := st.host.events.modify sc.event fun event =>
        { event with current := some m } } } := by
  have hevent := event_modify_self st.host h.there fun event => { event with current := some m }
  have hother := fun j (hj : j ≠ sc.event) =>
    event_modify_ne st.host hj fun event => { event with current := some m }
  refine ⟨h.forest, by simpa using h.there, ?_, ?_, ?_, h.on, ?_, h.alike⟩
  · rw [hevent]
    exact h.name
  · rw [hevent]
    exact h.target
  · rw [hevent]
    intro c hc
    exact Option.some_inj.1 hc ▸ hm
  · refine h.forest.way_hold h.way (fun a ha => ?_) fun a ha => ?_
    · rcases mem_cons.1 ha with rfl | ha
      · exact .inl (.head _)
      · rcases (mem_rootsAt_event _ hother).1 ha with ha | ha
        · exact .inl (.tail _ ha)
        · rw [World.eventNodes, hevent] at ha
          rcases mem_cons.1 ha with rfl | ha
          · exact .inr (h.mem_path (h.target ▸ h.target_mem))
          · exact .inr (h.mem_path (mem_singleton.1 ha ▸ hm))
    · rcases mem_cons.1 ha with rfl | ha
      · exact ⟨a, .head _, .refl⟩
      · rcases (mem_rootsAt_event _ hother).2 ha with ha | ha
        · exact ⟨a, .tail _ ha, .refl⟩
        · -- What the event held before is below the node.
          exact ⟨n, .head _, h.within (h.mem_of_mem_eventNodes ha)⟩

/-- A callback at the node, or at one that the event has passed, has come back undisturbed. -/
theorem back {i : Invocation} {last} {action : Act Result}
    (hc : Course (st.act action)) (hdue : i.Due sc.event (st.act action) k)
    (hi : i.node ∈ pre ++ [n]) (hheld : i.node = n ∨ Holds st.stack n)
    (hr : Returns (i.enter (st.act action) k) last r)
    (hu : Undisturbed sc.name sc.path (i.enter (st.act action) k) last) :
    sc.At pre n { last with stack := st.stack } := by
  obtain ⟨hthere, hkept⟩ := hr.eventKept hc hdue h.there
  -- The callback begins with its own node held in addition.
  have hfirst : Way (st.host.store.parentIn? (rootsAt (st.push (.returning [.node i.node] k))))
      sc.target sc.path := by
    refine h.forest.way_hold h.way (fun a ha => ?_) fun a ha => ?_
    · rcases mem_rootsAt_push.1 ha with ha | ha
      · have hnode : a = i.node := by simpa [World.itemNodes] using ha
        exact .inr (hnode ▸ h.mem_path hi)
      · exact .inl (.tail _ ha)
    · refine ⟨a, mem_rootsAt_push.2 ?_, .refl⟩
      rcases mem_cons.1 ha with rfl | ha
      · rcases hheld with hnode | hheld
        · exact .inl (by simp [World.itemNodes, hnode])
        · exact .inr (mem_rootsAt_of_holds hheld)
      · exact .inr ha
  have hlast : Way (last.host.store.parentIn? (rootsOf (last.view language))) sc.target sc.path :=
    hfirst.congr hu.parents
  have hroots : rootsOf (last.view language) =
      rootsAt ({ last with stack := st.stack }.push (.returning [.node i.node] k)) := by
    rw [rootsOf_view_eq (by simp [hr.control])]
    have hstack : last.stack = .returning [.node i.node] k :: st.stack := hr.stack
    rw [State.push, ← hstack]
  rw [hroots] at hlast
  refine ⟨hu.course.sound.good.forest, hthere, hkept.name.trans h.name, hkept.target.trans h.target,
    fun c hcur => h.current c (hkept.current ▸ hcur), h.on, ?_, h.alike.trans hu.alike⟩
  obtain ⟨post, hpost⟩ := h.on
  refine hu.course.sound.good.forest.way_hold hlast (fun a ha => ?_) fun a ha => ?_
  · rcases mem_cons.1 ha with rfl | ha
    · exact .inr (h.mem_path (by simp))
    · exact .inl (mem_rootsAt_push.2 (.inr ha))
  · rcases mem_rootsAt_push.1 ha with ha | ha
    · have hnode : a = i.node := by simpa [World.itemNodes] using ha
      rw [hpost] at hlast
      exact ⟨n, .head _, hnode ▸ Dom.Store.within_of_mem_way hlast hi⟩
    · exact ⟨a, .tail _ ha, .refl⟩

theorem onward (hp : sc.path = pre ++ n :: p :: post) :
    sc.At (pre ++ [n]) p st := by
  have hway := h.way
  rw [hp] at hway
  have hsplit : pre ++ n :: p :: post = (pre ++ [n]) ++ p :: post := by simp
  have hup : st.host.store.Within n p :=
    Dom.Store.within_of_mem_way (hsplit ▸ hway) (by simp)
  refine ⟨h.forest, h.there, h.name, h.target, fun c hc => mem_append_left _ (h.current c hc),
    ⟨post, by simp [hp]⟩, ?_, h.alike⟩
  refine h.forest.way_hold h.way (fun a ha => ?_) fun a ha => ?_
  · rcases mem_cons.1 ha with rfl | ha
    · exact .inr (by simp [hp])
    · exact .inl (.tail _ ha)
  · rcases mem_cons.1 ha with rfl | ha
    · exact ⟨p, .head _, hup⟩
    · exact ⟨a, .tail _ ha, .refl⟩

/-- After a node of the way comes its parent, as long as the node that the event has come to is
held; and after that node itself in any case. -/
theorem parentIn?_eq (hp : sc.path = before ++ m :: post)
    (hm : m = n ∨ Holds st.stack n) : st.host.store.parentIn? (rootsAt st) m = post.head? := by
  have hway := h.way
  rw [hp] at hway
  rw [← hway.next_eq]
  refine Dom.Store.parentIn?_congr fun q hq => ?_
  rw [h.forest.isAlive_iff, h.forest.isAlive_iff]
  constructor
  · rintro ⟨a, ha, hw⟩
    exact ⟨a, .tail _ ha, hw⟩
  · rintro ⟨a, ha, hw⟩
    rcases mem_cons.1 ha with rfl | ha
    · rcases hm with rfl | hheld
      · exact absurd hw (h.forest.not_within_of_parent? hq)
      · exact ⟨a, mem_rootsAt_of_holds hheld, hw⟩
    · exact ⟨a, ha, hw⟩

end At

end Scene

/-! ### Actions -/

variable {sc : Scene} {plan plan' : Schedule} {Q : α → State setting → Prop}
  {R : β → State setting → Prop} {pre post : List NodeId}

/-- Whether an action makes calls as scheduled and comes to its end with what is asked of its
result, unless it stays at one of the calls. -/
def Runs (sc : Scene) (plan : Schedule) (Q : α → State setting → Prop) (a : Act α)
    (st : State setting) : Prop :=
  ∀ f : α → Act Result, Leads sc plan
    (fun s => ∃ x next, s = next.act (f x) ∧ next.stack = st.stack ∧ Q x next) (st.act (a.bind f))

theorem runs_pure (h : Q x st) : Runs sc .nothing Q (pure x) st :=
  fun _ => .done ⟨x, st, rfl, rfl, h⟩

theorem Runs.bind {a} (ha : Runs sc plan Q a st)
    (hg : ∀ x next, next.stack = st.stack → Q x next → Runs sc plan' R (g x) next) :
    Runs sc (plan.append plan') R (a >>= g) st := by
  intro f
  have hassoc : (a >>= g).bind f = a.bind fun x => (g x).bind f := Action.bind_assoc a g f
  rw [hassoc]
  refine (ha fun x => (g x).bind f).append fun s hs => ?_
  obtain ⟨x, next, rfl, hstack, hq⟩ := hs
  refine (hg x next hstack hq f).mono fun s hs => ?_
  obtain ⟨y, last, hlast, hstack', hr⟩ := hs
  exact ⟨y, last, hlast, hstack'.trans hstack, hr⟩

theorem Runs.mono {a} (h : Runs sc plan Q a st) (hQ : ∀ x next, Q x next → Q' x next) :
    Runs sc plan Q' a st := by
  refine fun f => (h f).mono fun s hs => ?_
  obtain ⟨x, next, hnext, hstack, hq⟩ := hs
  exact ⟨x, next, hnext, hstack, hQ x next hq⟩

/-- Before the calls there may be other steps, -/
theorem Runs.prepare {a} (ha : Runs sc .nothing Q a st)
    (hg : ∀ x next, Q x next → Runs sc plan R (g x) next) : Runs sc plan R (a >>= g) st :=
  ha.bind fun x next _ hq => hg x next hq

theorem Runs.finish {a} (ha : Runs sc plan Q a st)
    (hg : ∀ x next, Q x next → Runs sc .nothing R (g x) next) : Runs sc plan R (a >>= g) st :=
  fun f => (ha.bind (fun x next _ hq => hg x next hq) f).replan fun _ _ _ => (append_nil _).symm

theorem Runs.unlessStopped {a} (hyes : sc.stopped st = true → Runs sc .nothing Q a st)
    (hno : sc.stopped st = false → Runs sc plan Q a st) : Runs sc plan.unlessStopped Q a st :=
  fun f => .unlessStopped (fun hb => hyes hb f) fun hb => hno hb f

theorem Runs.of_step {a b} (hb : Runs sc plan Q b next)
    (hown : ∀ (f : α → Act Result) env body held k, a.bind f ≠ .call (.block env body) held k)
    (hstep : ∀ f, (st.act (a.bind f)).step? language = some (next.act (b.bind f)))
    (hs : next.host.store = st.host.store) (hstop : sc.stopped next = sc.stopped st)
    (hstack : next.stack = st.stack) : Runs sc plan Q a st := by
  intro f
  have hown : ∀ env body held k, (st.act (a.bind f)).control ≠
    .acting (.call (.block env body) held k) :=
    fun env body held k hcall => hown f env body held k (Reactive.Control.acting.inj hcall)
  refine Leads.step hown (hstep f) hs hstop ((hb f).mono fun s hs => ?_)
  obtain ⟨x, last, hlast, hsame, hq⟩ := hs
  exact ⟨x, last, hlast, hsame.trans hstack, hq⟩

theorem runs_ask (h : Runs sc plan Q (g st.host) st) : Runs sc plan Q (ask >>= g) st :=
  h.of_step (fun _ _ _ _ _ hcall => nomatch hcall) (fun _ => rfl) rfl rfl rfl

theorem runs_tell (hs : (f st.host).store = st.host.store)
    (hstop : ((f st.host).event sc.event).stopped = (st.host.event sc.event).stopped)
    (h : Runs sc plan Q (g ()) { st with host := f st.host }) : Runs sc plan Q (tell f >>= g) st :=
  h.of_step (fun _ _ _ _ _ hcall => nomatch hcall) (fun _ => rfl) hs hstop rfl

theorem runs_log (entry : Entry) : Runs sc .nothing (fun _ _ => True) (log entry) st := by
  have hdone : Runs sc .nothing (fun _ _ => True) (pure ())
      { st with host := { st.host with log := entry :: st.host.log } } := runs_pure trivial
  exact hdone.of_step (fun _ _ _ _ _ hcall => nomatch hcall) (fun _ => rfl) rfl rfl rfl

theorem runs_parentOf (h : Runs sc plan Q (g (st.host.store.parentIn? (rootsAt st) n)) st) :
    Runs sc plan Q (parentOf n >>= g) st :=
  h.of_step (fun _ _ _ _ _ hcall => nomatch hcall) (fun _ => rfl) rfl rfl rfl

theorem runs_unlessStopped {a b} (ha : Runs sc .nothing Q a st) (hb : Runs sc plan Q b st) :
    Runs sc plan.unlessStopped Q
      (ask >>= fun w => if (w.event sc.event).stopped then a else b) st := by
  refine runs_ask (.unlessStopped (fun hstop => ?_) fun hgo => ?_)
  · have hstop : (st.host.event sc.event).stopped = true := hstop
    rwa [if_pos hstop]
  · have hgo : (st.host.event sc.event).stopped = false := hgo
    rwa [if_neg (by simp [hgo])]

theorem runs_serve (h : sc.At pre n st) (hm : m ∈ pre ++ [n])
    (hg : ∀ next : State setting, next.stack = st.stack → sc.At pre n next →
      Runs sc plan Q (g ()) next) :
    Runs sc plan Q
      (changeEvent sc.event (fun event => { event with current := some m }) >>= g) st := by
  refine runs_tell rfl ?_ (hg _ rfl (h.serve hm))
  rw [event_modify_self st.host h.there]

theorem runs_perform {code} {a} {P : State setting → Prop} (hcode : ∀ env b, code ≠ .block env b)
    (hbody : body code = silently a)
    (h : ∀ k, Runs sc plan (fun _ next => ∀ rest, next.stack = .returning held k :: rest →
      P { next with stack := rest }) a (st.push (.returning held k))) :
    Runs sc plan (fun _ next => P next) (discard (perform code held)) st := by
  intro f
  -- The call begins, the code runs, and it gives its result to the call.
  have hown : ∀ env body held' k, (st.act ((discard (perform code held)).bind f)).control ≠
      .acting (.call (.block env body) held' k) := by
    intro env body held' k hcall
    have hcall : (Action.call code held fun _ => f ()) = .call (.block env body) held' k :=
      Reactive.Control.acting.inj hcall
    exact hcode env body (Action.call.inj hcall).1
  have hstart : (st.act ((discard (perform code held)).bind f)).step? language =
      some ((st.push (.returning held fun _ => f ())).act (a.bind fun _ => .pure .nothing)) := by
    have hbody' : a.bind (fun _ => .pure .nothing) = body code := hbody.symm
    rw [hbody']
    rfl
  refine Leads.step hown hstart rfl rfl ?_
  refine (h (fun _ => f ()) fun _ => .pure .nothing).finish fun s hs => ?_
  obtain ⟨x, next, rfl, hstack, hp⟩ := hs
  have hgive : (next.act (.pure .nothing)).step? language = some (next.give .nothing) := rfl
  have hback : (next.give .nothing).step? language =
      some ({ next with stack := st.stack }.act (f ())) := by
    obtain ⟨host, graph, control, stack⟩ := next
    obtain rfl : stack = .returning held (fun _ => f ()) :: st.stack := hstack
    rfl
  refine Leads.step (fun _ _ _ _ hcall => nomatch hcall) hgive rfl rfl ?_
  refine Leads.step (fun _ _ _ _ hcall => nomatch hcall) hback rfl rfl ?_
  exact .done ⟨(), { next with stack := st.stack }, rfl, rfl, hp st.stack hstack⟩

theorem runs_callback (h : sc.At pre n st) (hnode : c.node ∈ pre ++ [n])
    (hheld : c.node = n ∨ Holds st.stack n) :
    Runs sc (.single c) (fun _ next => sc.At pre n next)
      (handle sc.event c.node (.block c.env c.body)) st := by
  intro f
  have hdue : (c.invocation sc.event).Due sc.event
      (st.act ((handle sc.event c.node (.block c.env c.body)).bind f)) fun _ => f () := ⟨rfl, rfl⟩
  refine Leads.call hdue fun hc last r hr hu => ⟨(hr.eventKept hc hdue h.there).2.stopped, ?_⟩
  exact ⟨(), { last with stack := st.stack }, rfl, rfl, h.back hc hdue hnode hheld hr hu⟩

theorem runs_onward (h : sc.At pre n st) (hp : sc.path = before ++ m :: post)
    (hm : m = n ∨ Holds st.stack n) (hnone : post = [] → Runs sc plan Q (g none) st)
    (hsome : ∀ p rest, post = p :: rest → Runs sc plan Q (g (some p)) st) :
    Runs sc plan Q (parentOf m >>= g) st := by
  refine runs_parentOf ?_
  rw [h.parentIn?_eq hp hm]
  cases post with
  | nil => exact hnone rfl
  | cons p rest => exact hsome p rest rfl

/-! ### Event code -/

/-- A node of the way that comes before all documents has been passed when the event comes to a
document. -/
theorem mem_of_before_documents {path post'} (hn : path = pre ++ n :: post) (hd : s.IsDocument n)
    (hm : path = before ++ m :: post') (hbefore : ∀ x ∈ before, ¬ s.IsDocument x) :
    m ∈ pre ++ [n] := by
  rcases append_eq_append_iff.1 (hm.symm.trans hn) with ⟨l, rfl, hl⟩ | ⟨l, rfl, hl⟩
  · cases l with
    | nil => exact mem_append_right _ (mem_singleton.2 (List.cons.inj hl).1)
    | cons b l =>
      cases hl
      simp
  · cases l with
    | nil => exact mem_append_right _ (mem_singleton.2 (List.cons.inj hl).1.symm)
    | cons b l =>
      cases hl
      exact absurd hd (hbefore n (by simp))

theorem Holds.push {stack} (h : Holds stack n) (f : Frame setting) : Holds (f :: stack) n := by
  obtain ⟨g, hg, hn⟩ := h
  exact ⟨g, .tail _ hg, hn⟩

section

variable (hsc : ∀ n, Tidy sc.store.nextListener (sc.store.node n))

include hsc

theorem runs_walk_node
    (hp : sc.path = before ++ m :: post) (hm : m ∈ pre ++ [n]) (h : sc.At pre n st)
    (hheld : Holds st.stack n)
    (hwalk : ¬ sc.store.IsDocument m → ∀ p rest, post = p :: rest → ∀ {st : State setting},
      sc.At pre n st → Holds st.stack n →
      Runs sc (inTurn (delegates sc.store sc.name post)) (fun _ next => sc.At pre n next)
        (walk sc.event sc.name p) st) :
    Runs sc (inTurn (delegates sc.store sc.name (m :: post))) (fun _ next => sc.At pre n next)
      (walk sc.event sc.name m) st := by
  have hmem : m ∈ sc.path := h.mem_path hm
  refine runs_ask ?_
  dsimp only
  rw [h.alike.kinds m hmem, h.alike.handlers m hmem]
  split
  · rename_i hk
    rw [delegates_of_document sc.name hk]
    exact runs_pure h
  · rename_i hk
    rw [delegates_cons sc.name hk]
    have honward : ∀ {st : State setting}, sc.At pre n st → Holds st.stack n → ∀ p rest,
        post = p :: rest → Runs sc (inTurn (delegates sc.store sc.name post))
          (fun _ next => sc.At pre n next) (discard (perform (.walk sc.event sc.name p))) st := by
      intro st h hheld p rest hpost
      refine runs_perform (by simp) rfl fun k => ?_
      have hpush : sc.At pre n (st.push (.returning [] k)) := (Scene.At.push_iff (by simp)).2 h
      refine (hwalk hk p rest hpost hpush (hheld.push _)).mono fun _ next hat rest hrest => ?_
      exact hat.pop hrest (by simp)
    split
    · rename_i handler hhandler
      obtain ⟨env, body, rfl⟩ := (hsc m).blocks _ _ hhandler
      have hcall : handlerCall? sc.store sc.name m = some ⟨m, none, env, body⟩ := by
        simp [handlerCall?, hhandler]
      rw [hcall]
      refine runs_serve h hm fun st' hstack h => ?_
      have hheld : Holds st'.stack n := by rwa [hstack]
      refine Runs.bind (runs_callback h hm (.inr hheld))
        fun _ next hstack h => ?_
      have hheld : Holds next.stack n := by rwa [hstack]
      refine runs_unlessStopped (runs_pure h) ?_
      refine runs_onward h hp (.inr hheld) (fun hpost => ?_) (honward h hheld)
      subst hpost
      exact runs_pure h
    · rename_i hhandler
      have hcall : handlerCall? sc.store sc.name m = none := by
        simp [handlerCall?, hhandler]
      rw [hcall]
      refine runs_onward h hp (.inr hheld) (fun hpost => ?_) (honward h hheld)
      subst hpost
      exact runs_pure h

/-- Handlers are called in turn, from a node up to the first document, when the event has come to
a document. -/
theorem runs_walk
    (hd : sc.store.IsDocument n) (before : List NodeId) (hp : sc.path = before ++ m :: post)
    (hbefore : ∀ x ∈ before, ¬ sc.store.IsDocument x) (h : sc.At pre n st)
    (hheld : Holds st.stack n) :
    Runs sc (inTurn (delegates sc.store sc.name (m :: post))) (fun _ next => sc.At pre n next)
      (walk sc.event sc.name m) st := by
  obtain ⟨after, hafter⟩ := h.on
  induction post generalizing before m st with
  | nil =>
    have hm := mem_of_before_documents hafter hd hp hbefore
    exact runs_walk_node hsc hp hm h hheld (by simp)
  | cons q post ih =>
    have hm := mem_of_before_documents hafter hd hp hbefore
    refine runs_walk_node hsc hp hm h hheld fun hk p rest hpost st h hheld => ?_
    cases hpost
    refine ih (before ++ [m]) (by simp [hp]) ?_ h hheld
    exact forall_mem_append.2 ⟨hbefore, forall_mem_singleton.2 hk⟩

theorem runs_handle (hl : l ∈ sc.store.listenersFor n sc.name) (h : sc.At pre n st) :
    Runs sc (answered (delegates sc.store sc.name sc.path) n l) (fun _ next => sc.At pre n next)
      (handle sc.event n l.handler) st := by
  obtain ⟨id, event, handler⟩ := l
  obtain ⟨hmem, hevent⟩ := mem_filter.1 hl
  cases handler with
  | block env body => exact runs_callback h (by simp) (.inl rfl)
  | walk name =>
    obtain ⟨hsame, hd⟩ := (hsc n).walks _ hmem name rfl
    obtain rfl : name = sc.name := hsame.symm.trans (eq_of_beq hevent)
    obtain ⟨rest, hpath⟩ := h.way.exists_cons
    refine runs_ask ?_
    rw [h.target, hpath]
    refine runs_perform (by simp) rfl fun k => ?_
    have hpush : sc.At pre n (st.push (.returning [.node n] k)) :=
      (Scene.At.push_iff (by simp [World.itemNodes])).2 h
    have hheld : Holds (st.push (.returning [.node n] k)).stack n :=
      ⟨_, .head _, mem_singleton.2 rfl⟩
    have hwalk := runs_walk hsc hd [] hpath (by simp) hpush hheld
    exact hwalk.mono fun _ next hat rest hrest => hat.pop hrest (by simp [World.itemNodes])

theorem runs_handleAll {ls}
    (hls : ∀ l ∈ ls, l ∈ sc.store.listenersFor n sc.name) (h : sc.At pre n st) :
    Runs sc (heard (delegates sc.store sc.name sc.path) n ls) (fun _ next => sc.At pre n next)
      (handleAll sc.event n (ls.map (·.handler))) st := by
  induction ls generalizing st with
  | nil => exact runs_pure h
  | cons l ls ih =>
    obtain ⟨hl, hrest⟩ := forall_mem_cons.1 hls
    exact Runs.bind (runs_handle hsc hl h) fun _ next _ hat => ih hrest hat

theorem runs_bubble_node (hp : sc.path = pre ++ n :: post) (h : sc.At pre n st)
    (hbubble : ∀ p rest, post = p :: rest → ∀ {st : State setting}, sc.At (pre ++ [n]) p st →
      Runs sc (passed sc.store sc.name (delegates sc.store sc.name sc.path) post) (fun _ _ => True)
        (bubble sc.event p) st) :
    Runs sc (passed sc.store sc.name (delegates sc.store sc.name sc.path) (n :: post))
      (fun _ _ => True) (bubble sc.event n) st := by
  refine runs_serve h (by simp) fun st _ h => runs_ask ?_
  rw [h.name, h.alike.listeners n (h.mem_path (by simp))]
  refine Runs.bind (runs_handleAll hsc (fun _ hl => hl) h) fun _ next _ h => ?_
  refine runs_unlessStopped (runs_pure trivial) (runs_onward h hp (.inl rfl) ?_ ?_)
  · intro hpost
    subst hpost
    exact runs_pure trivial
  · intro p rest hpost
    refine runs_perform (by simp) rfl fun k => ?_
    have hpush : sc.At (pre ++ [n]) p (next.push (.returning [] k)) :=
      (Scene.At.push_iff (by simp)).2 (h.onward (hpost ▸ hp))
    exact (hbubble p rest hpost hpush).mono fun _ _ _ _ _ => trivial

theorem runs_bubble (hp : sc.path = pre ++ n :: post) (h : sc.At pre n st) :
    Runs sc (passed sc.store sc.name (delegates sc.store sc.name sc.path) (n :: post))
      (fun _ _ => True) (bubble sc.event n) st := by
  induction post generalizing pre n st with
  | nil => exact runs_bubble_node hsc hp h (by simp)
  | cons q post ih =>
    refine runs_bubble_node hsc hp h fun p rest hpost st h => ?_
    cases hpost
    exact ih (by simp [hp]) h

end

end ReactiveMarkup.Program
