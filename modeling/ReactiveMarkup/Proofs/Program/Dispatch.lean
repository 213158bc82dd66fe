/-
The order in which an event is handled.

An event that is sent to a node comes to the listeners of that node, in the order in which they
were added, and then to those of the nodes above it, until it is stopped.  At a document that
listens for the event once for all its nodes, the handlers of the nodes from the target up to
the first document are called in turn, also until the event is stopped.  What is called is known
from the nodes as they are when the event is sent, and from when it is stopped, as long as no
callback changes the way, the listeners or the handlers for the event.

No callback is called twice, unless one document is below another.  Then the handlers below the
lower one may be called on account of both, and those between the two are not called at all.

* `Course.calls_in_order`: what is called;
* `inner_document_hides`: handlers between two documents.
-/
import ReactiveMarkup.Proofs.Program.Passing
import ReactiveMarkup.Proofs.Program.Placing

namespace ReactiveMarkup.Program

open List

open Dom (NodeId Way)
open Reactive (Action State Steps)

variable {α β : Type} {st : State setting} {s : Dom.Store Handler} {name : String} {t n d : NodeId}
  {path : List NodeId} {c : Call}

/-- What is to be called for an event on a way up. -/
def dispatched (s : Dom.Store Handler) (name : String) (path : List NodeId) : Schedule :=
  passed s name (delegates s name path) path

/-! ### Nothing twice -/

/-- All that a listener may call. -/
def answers (delegated : List Call) (n : NodeId) (l : Dom.Listener Handler) : List Call :=
  match l.handler with
  | .block env body => [⟨n, some l.id, env, body⟩]
  | .walk _ => delegated

/-- All that the listeners of a node for an event may call. -/
def answersAt (s : Dom.Store Handler) (name : String) (delegated : List Call) (n : NodeId) :
    List Call :=
  (s.listenersFor n name).flatMap (answers delegated n)

/-- Whether a schedule calls some of a list, in that order, and all if the event is never
stopped. -/
def Schedule.Draws (stops : Nat → Bool) (a : Schedule) (l : List Call) : Prop :=
  ∀ k, (a stops k).Sublist l ∧ ((∀ j, stops j = false) → a stops k = l)

section Draws

variable {stops : Nat → Bool} {delegated : List Call} {a b : Schedule} {l l' : List Call}

theorem draws_single (c : Call) : (Schedule.single c).Draws stops [c] :=
  fun _ => ⟨.refl _, fun _ => rfl⟩

theorem Schedule.Draws.append (ha : a.Draws stops l) (hb : b.Draws stops l') :
    (a.append b).Draws stops (l ++ l') :=
  fun k => ⟨(ha k).1.append (hb _).1, fun hs => congrArg₂ (· ++ ·) ((ha k).2 hs) ((hb _).2 hs)⟩

theorem Schedule.Draws.unlessStopped (ha : a.Draws stops l) : a.unlessStopped.Draws stops l := by
  intro k
  unfold Schedule.unlessStopped
  split
  · rename_i hk
    exact ⟨nil_sublist l, fun hs => absurd hk (by simp [hs])⟩
  · exact ha k

theorem draws_inTurn (cs : List Call) : (inTurn cs).Draws stops cs := by
  induction cs with
  | nil => exact fun _ => ⟨.refl [], fun _ => rfl⟩
  | cons c cs ih => exact (draws_single c).append ih.unlessStopped

theorem draws_answered (l : Dom.Listener Handler) :
    (answered delegated n l).Draws stops (answers delegated n l) := by
  obtain ⟨id, event, handler⟩ := l
  cases handler with
  | block env body => exact draws_single _
  | walk event => exact draws_inTurn delegated

theorem draws_heard (ls : List (Dom.Listener Handler)) :
    (heard delegated n ls).Draws stops (ls.flatMap (answers delegated n)) := by
  induction ls with
  | nil => exact fun _ => ⟨.refl [], fun _ => rfl⟩
  | cons l ls ih =>
    exact (draws_answered l).append ih

theorem draws_passed (path : List NodeId) :
    (passed s name delegated path).Draws stops (path.flatMap (answersAt s name delegated)) := by
  induction path with
  | nil => exact fun _ => ⟨.refl [], fun _ => rfl⟩
  | cons n path ih =>
    exact (draws_heard _).append ih.unlessStopped

end Draws

theorem of_mem_delegates (hc : c ∈ delegates s name path) :
    c.listener = none ∧ c.node ∈ path.takeWhile fun n => (s.node n).kind ≠ .document := by
  obtain ⟨n, hn, hcall⟩ := mem_filterMap.1 hc
  unfold handlerCall? at hcall
  split at hcall
  · cases hcall
    exact ⟨rfl, hn⟩
  · cases hcall

theorem nodup_delegates (hpath : path.Nodup) : (delegates s name path).Nodup := by
  have hnode : ∀ n c, c ∈ handlerCall? s name n → c.node = n := by
    intro n c hc
    unfold handlerCall? at hc
    split at hc
    · exact Option.some_inj.1 hc ▸ rfl
    · cases hc
  refine (hpath.sublist (takeWhile_sublist _)).filterMap fun m n c hm hn => ?_
  exact (hnode m c hm).symm.trans (hnode n c hn)

theorem of_mem_answers {delegated} (hc : c ∈ answers delegated n l) :
    (c.node = n ∧ c.listener = some l.id) ∨ (c ∈ delegated ∧ ∃ event, walked? l = some event) := by
  obtain ⟨id, event, handler⟩ := l
  cases handler with
  | block env body =>
    obtain rfl := mem_singleton.1 hc
    exact .inl ⟨rfl, rfl⟩
  | walk event => exact .inr ⟨hc, event, rfl⟩

theorem of_mem_answersAt {next : Nat} (htidy : Tidy next (s.node n))
    (hc : c ∈ answersAt s name (delegates s name path) n) :
    (c.node = n ∧ c.listener ≠ none) ∨
      (c ∈ delegates s name path ∧ s.IsDocument n ∧ name ∈ (s.node n).delegated) := by
  obtain ⟨l, hl, hcl⟩ := mem_flatMap.1 hc
  obtain ⟨hmem, hevent⟩ := mem_filter.1 hl
  rcases of_mem_answers hcl with ⟨hnode, hid⟩ | ⟨hcl, event, hwalked⟩
  · exact .inl ⟨hnode, by simp [hid]⟩
  · obtain ⟨hsame, hd⟩ := htidy.walks l hmem event hwalked
    obtain rfl : event = name := hsame.symm.trans (eq_of_beq hevent)
    exact .inr ⟨hcl, hd, htidy.known event (mem_filterMap.2 ⟨l, hmem, hwalked⟩)⟩

theorem nodup_answersAt {next : Nat} (htidy : Tidy next (s.node n)) (hpath : path.Nodup) :
    (answersAt s name (delegates s name path) n).Nodup := by
  refine List.nodup_flatMap.2 ⟨fun l _ => ?_, ?_⟩
  · unfold answers
    split
    · exact nodup_singleton _
    · exact nodup_delegates hpath
  · have hids := pairwise_map.1 htidy.ids
    have honce := pairwise_filterMap.1 htidy.once
    refine ((hids.and honce).sublist filter_sublist).imp_of_mem fun {l m} hl hm hne c hc hc' => ?_
    obtain ⟨hlmem, hlevent⟩ := mem_filter.1 hl
    obtain ⟨hmmem, hmevent⟩ := mem_filter.1 hm
    rcases of_mem_answers hc with ⟨-, hid⟩ | ⟨hdelegated, event, hlw⟩ <;>
      rcases of_mem_answers hc' with ⟨-, hid'⟩ | ⟨hdelegated', event', hmw⟩
    · exact hne.1 (Option.some_inj.1 (hid.symm.trans hid'))
    · cases hid.symm.trans (of_mem_delegates hdelegated').1
    · cases hid'.symm.trans (of_mem_delegates hdelegated).1
    · -- Both look up handlers for the same event.
      have hsame : event = event' := calc
        event = l.event := (htidy.walks l hlmem event hlw).1.symm
        _ = name := eq_of_beq hlevent
        _ = m.event := (eq_of_beq hmevent).symm
        _ = event' := (htidy.walks m hmmem event' hmw).1
      exact hne.2 event hlw event' hmw hsame

theorem nodup_dispatched {next : Nat} (htidy : ∀ n, Tidy next (s.node n)) (hpath : path.Nodup)
    (hone : ∀ d ∈ path, ∀ d' ∈ path, s.IsDocument d → s.IsDocument d' → d = d')
    (stops : Nat → Bool) (k : Nat) : (dispatched s name path stops k).Nodup := by
  refine List.Nodup.sublist (draws_passed path k).1 (List.nodup_flatMap.2 ⟨?_, ?_⟩)
  · exact fun n _ => nodup_answersAt (htidy n) hpath
  · refine List.Pairwise.imp_of_mem ?_ hpath
    intro m n hm hn hne c hc hc'
    rcases of_mem_answersAt (htidy m) hc with ⟨hcm, hsome⟩ | ⟨hcm, hmd, -⟩ <;>
      rcases of_mem_answersAt (htidy n) hc' with ⟨hcn, hsome'⟩ | ⟨hcn, hnd, -⟩
    · exact hne (hcm.symm.trans hcn)
    · exact hsome (of_mem_delegates hcn).1
    · exact hsome' (of_mem_delegates hcm).1
    · exact hne (hone m hm n hn hmd hnd)

/-- A handler is called only if a document on the way listens for the event, and the node of the
handler comes before all documents on the way. -/
theorem exists_document_of_handler {next : Nat} (htidy : ∀ n, Tidy next (s.node n)) {stops}
    (hc : c ∈ dispatched s name path stops k) (hnone : c.listener = none) :
    c.node ∈ path.takeWhile (fun n => (s.node n).kind ≠ .document) ∧
      ∃ d ∈ path, s.IsDocument d ∧ name ∈ (s.node d).delegated := by
  obtain ⟨n, hn, hcn⟩ := mem_flatMap.1 ((draws_passed path k).1.subset hc)
  rcases of_mem_answersAt (htidy n) hcn with ⟨-, hsome⟩ | ⟨hmem, hd, hname⟩
  · exact absurd hnone hsome
  · exact ⟨(of_mem_delegates hmem).2, n, hn, hd, hname⟩

/-! ### Sending an event -/

theorem at_start (name : String) (hf : st.host.store.IsForest) (hfirst : st.host.main = 0)
    (hway : Way (st.host.store.parentIn? (rootsAt st)) t path) (k : Result → Act Result) :
    Scene.At ⟨st.host.events.size, name, t, st.host.store, path⟩ [] t
      (State.push { st with host := { st.host with
        events := st.host.events.push { name, target := t } } }
        (.returning [.event st.host.events.size] k)) := by
  have hself := event_push_self st.host { name, target := t }
  have hother := fun j (hj : j ≠ st.host.events.size) =>
    event_push_ne st.host { name, target := t } hj
  have hnodes : ∀ a, a ∈ World.eventNodes
      { st.host with events := st.host.events.push { name, target := t } } st.host.events.size ↔
        a = t := by
    rw [World.eventNodes, hself]
    simp
  obtain ⟨rest, hrest⟩ := hway.exists_cons
  refine ⟨hf, by simp [State.push], congrArg Dom.Event.name hself, congrArg Dom.Event.target hself,
    fun c hc => ?_, ⟨rest, hrest⟩, ?_, ⟨fun _ _ => rfl, fun _ _ => rfl, fun _ _ => rfl⟩⟩
  · have hnone := congrArg Dom.Event.current hself
    cases hc.symm.trans hnone
  · refine hf.way_hold hway (fun a ha => ?_) fun a ha => ?_
    · have htarget : a = t → a ∈ path := by
        rintro rfl
        simp [hrest]
      rcases mem_cons.1 ha with ha | ha
      · exact .inr (htarget ha)
      · rcases mem_rootsAt_push.1 ha with ha | ha
        · exact .inr (htarget ((hnodes a).1 (by simpa [World.itemNodes] using ha)))
        · exact ((mem_rootsAt_event _ hother).1 ha).imp_right fun ha => htarget ((hnodes a).1 ha)
    · refine ⟨a, .tail _ (mem_rootsAt_push.2 (.inr ?_)), .refl⟩
      rcases (mem_rootsAt_event (st.host.events.push { name, target := t }) hother).2 ha
        with ha | ha
      · exact ha
      · -- An event that is not there yet has the first node for its target.
        have hzero : a = st.host.main := by
          simpa [World.eventNodes, World.event, hfirst] using ha
        exact hzero ▸ .head _

theorem runs_dispatch (name : String) (hreg : st.host.Registered) (hf : st.host.store.IsForest)
    (hway : Way (st.host.store.parentIn? (rootsAt st)) t path) :
    Runs ⟨st.host.events.size, name, t, st.host.store, path⟩ (dispatched st.host.store name path)
      (fun _ _ => True) (dispatch t name) st := by
  refine runs_ask (runs_tell rfl ?_ ?_)
  · simp [World.event]
  · refine Runs.finish (Q := fun _ _ => True)
      (runs_perform (by simp) rfl fun k => ?_) fun _ next _ => ?_
    · have hat := at_start name hf hreg.first hway k
      obtain ⟨rest, rfl⟩ := hway.exists_cons
      exact (runs_bubble hreg.tidy (nil_append _).symm hat).mono fun _ _ _ _ _ => trivial
    · refine runs_tell rfl ?_ (runs_ask (runs_log _))
      rcases event_modify next.host st.host.events.size st.host.events.size
        fun event => { event with current := none } with hsame | ⟨-, -, hnew⟩
      · rw [hsame]
      · rw [hnew]

theorem runs_exec_dispatch (env : Env) (name : String) (hreg : st.host.Registered)
    (hf : st.host.store.IsForest) (ht : st.host.nodes.get? x = some t)
    (hway : Way (st.host.store.parentIn? (rootsAt st)) t path) :
    Runs ⟨st.host.events.size, name, t, st.host.store, path⟩ (dispatched st.host.store name path)
      (fun _ _ => True) (exec env (.dispatch x name)) st := by
  have hnamed : Runs ⟨st.host.events.size, name, t, st.host.store, path⟩ .nothing
      (fun r next => r = some t ∧ next = st) (nodeNamed x) st := by
    refine runs_ask ?_
    rw [ht]
    exact runs_pure ⟨rfl, rfl⟩
  refine hnamed.prepare fun r next hr => ?_
  obtain ⟨rfl, rfl⟩ := hr
  exact runs_dispatch name hreg hf hway

theorem Course.serves_dispatched (h : Course st) {env} {k : Unit → Act Result}
    (hc : st.control = .acting ((exec env (.dispatch x name)).bind k))
    (ht : st.host.nodes.get? x = some t) :
    ∃ path, Way (st.host.store.parentIn? (rootsOf (st.view language))) t path ∧
      ∃ l s, Serves st.host.events.size st l s ∧
        ((s.control = .acting (k ()) ∧ s.stack = st.stack ∧
            l.map Prod.fst = (dispatched st.host.store name path (stopsOf l) 0).map
              (Call.invocation st.host.events.size)) ∨
          ∃ i, Stays st.host.events.size name path s i ∧
            l.map Prod.fst ++ [i] <+: (dispatched st.host.store name path (stopsOf l) 0).map
              (Call.invocation st.host.events.size)) := by
  have hf := h.sound.good.forest
  have hroots : rootsOf (st.view language) = rootsAt st :=
    rootsOf_view_eq (by simp [hc])
  obtain ⟨path, hway⟩ := hf.exists_way (rootsOf (st.view language)) t
  refine ⟨path, hway, ?_⟩
  rw [hroots] at hway
  have hst : st.act ((exec env (.dispatch x name)).bind k) = st := by
    rw [State.act, ← hc]
  have hlead := runs_exec_dispatch env name h.registered.good.1 hf ht hway k
  rw [hst] at hlead
  have hstart : (st.host.event st.host.events.size).stopped = false := by simp [World.event]
  obtain ⟨l, s, hl, hpersists, hend⟩ := hlead h
  simp only [Scene.stopped, hstart] at hpersists hend
  rcases hend with ⟨⟨_, next, rfl, hstack, -⟩, -, -, hfollows⟩ | ⟨i, hstay, hto⟩
  · exact ⟨l, _, hl, .inl ⟨rfl, hstack, (hfollows _ 0 hpersists.agrees).symm⟩⟩
  · exact ⟨l, s, hl, .inr ⟨i, hstay, hto _ 0 hpersists.agrees⟩⟩

/-- When a program comes to send an event to the node `t`, then what is called for the event is
`dispatched`, in that order, for the way up from `t` and for when the event is stopped:

* the listeners of `t` for the event, in the order in which they were added, then those of the
  parent of `t`, and so on, up to the node at which the event has been stopped;
* for a listener that looks handlers up, those of the nodes from `t` up to the first document on the
  way, up to the one after which the event is stopped.

All this is called, and then the program goes on, unless a callback fails or never comes back, puts
a node below itself, or changes the way, or the listeners or handlers on it.  What has been called
then, up to that callback, is the beginning of what was to be called.

A handler is called only if a document on the way listens for the event.  If there is no more than
one document on the way, nothing is called twice. -/
theorem Course.calls_in_order (h : Course st) {env : Env} {x : String} {k : Unit → Act Result}
    (hc : st.control = .acting ((exec env (.dispatch x name)).bind k))
    (ht : st.host.nodes.get? x = some t) :
    ∃ path, Way (st.host.store.parentIn? (rootsOf (st.view language))) t path ∧
      (∃ l s, Serves st.host.events.size st l s ∧
        ((s.control = .acting (k ()) ∧ s.stack = st.stack ∧
            l.map Prod.fst = (dispatched st.host.store name path (stopsOf l) 0).map
              (Call.invocation st.host.events.size)) ∨
          ∃ i, Stays st.host.events.size name path s i ∧
            l.map Prod.fst ++ [i] <+: (dispatched st.host.store name path (stopsOf l) 0).map
              (Call.invocation st.host.events.size))) ∧
      ∀ stops,
        (∀ c ∈ dispatched st.host.store name path stops 0, c.listener = none →
          c.node ∈ path.takeWhile (fun n => (st.host.store.node n).kind ≠ .document) ∧
            ∃ d ∈ path, st.host.store.IsDocument d ∧ name ∈ (st.host.store.node d).delegated) ∧
        ((∀ d ∈ path, ∀ d' ∈ path,
            st.host.store.IsDocument d → st.host.store.IsDocument d' → d = d') →
          (dispatched st.host.store name path stops 0).Nodup) := by
  have htidy := h.registered.good.1.tidy
  obtain ⟨path, hway, hserves⟩ := h.serves_dispatched hc ht
  refine ⟨path, hway, hserves, fun stops => ⟨fun c hmem hnone => ?_, fun hone => ?_⟩⟩
  · exact exists_document_of_handler htidy hmem hnone
  · exact nodup_dispatched htidy (h.sound.good.forest.nodup_way hway) hone stops 0

/-- A link in a list.  Both have handlers for clicks, which the document listens for, and the link
listens for clicks itself. -/
def menu : Block := [
  .element "list" "ul", .append "body" "list",
  .element "link" "a", .append "list" "link",
  .listen "link" "click" "early" [], .listen "link" "click" "late" [],
  .handler "list" "click" [], .handler "link" "click" [],
  .delegate ["click"]]

theorem Course.calls_in_order_menu :
    let st := stagedBy menu (.dispatch "link" "click")
    let plan := dispatched st.host.store "click" [3, 2, 1, 0]
    Course st ∧ st.host.nodes.get? "link" = some 3 ∧
      (plan (fun _ => false) 0).map (fun c => (c.node, c.listener)) =
        [(3, some 0), (3, some 1), (3, none), (2, none)] ∧
      (plan (· == 3) 0).map (fun c => (c.node, c.listener)) =
        [(3, some 0), (3, some 1), (3, none)] ∧
      ∃ l s, Serves 0 st l s ∧ s.control = .acting (body (.block {} [])) ∧ s.stack = [] ∧
        l.map Prod.fst = (plan (stopsOf l) 0).map (Call.invocation 0) := by
  intro st plan
  have hcourse : Course st := course_stagedBy (by decide +kernel)
  have hnode : st.host.nodes.get? "link" = some 3 := by decide +kernel
  have hcontrol : st.control = .acting ((exec {} (.dispatch "link" "click")).bind
      fun _ => body (.block {} [])) := congrArg Reactive.Control.acting (body_block_cons {} _ [])
  have hup : Way (st.host.store.parentIn? (rootsOf (st.view language))) 3 [3, 2, 1, 0] :=
    .up (by decide +kernel) (.up (by decide +kernel) (.up (by decide +kernel)
      (.last (by decide +kernel))))
  have hnew : st.host.events.size = 0 := by decide +kernel
  have hstack : st.stack = [] := length_eq_zero_iff.1 (by decide +kernel)
  have hidle : ∀ c ∈ [3, 2, 1, 0].flatMap (answersAt st.host.store "click"
      (delegates st.host.store "click" [3, 2, 1, 0])), c.body.isEmpty := by decide +kernel
  refine ⟨hcourse, hnode, by decide +kernel, by decide +kernel, ?_⟩
  obtain ⟨path, hway, ⟨l, s, hl, hend⟩, -⟩ := hcourse.calls_in_order hcontrol hnode
  obtain rfl := hup.unique hway
  rw [hnew] at hl hend
  rw [hstack] at hend
  refine ⟨l, s, hl, hend.resolve_right ?_⟩
  rintro ⟨i, hstays, hto⟩
  obtain ⟨c, hc, rfl⟩ := mem_map.1 (hto.subset (mem_append_right _ (mem_singleton_self i)))
  have hbody := hidle c ((draws_passed _ 0).1.subset hc)
  exact not_stays_of_nil (List.isEmpty_iff.1 hbody) hstays

/-- A link in a document of its own, which is in a box of another document that listens for clicks.
The box and the link have handlers. -/
def enclave : Block := [
  .delegate ["click"],
  .element "box" "div", .append "body" "box",
  .newDocument "inner", .append "box" "inner",
  .element "link" "a", .append "inner" "link",
  .handler "box" "click" [.setAttribute "box" "seen" (.literal (.text "yes"))],
  .handler "link" "click" [.setAttribute "link" "seen" (.literal (.text "yes"))]]

/-- The document that listens for a click on the link is above the box, but the handler of the box
is not called. -/
theorem inner_document_hides :
    let st := stagedBy enclave (.dispatch "link" "click")
    Course st ∧ st.host.nodes.get? "link" = some 5 ∧ st.host.nodes.get? "box" = some 2 ∧
      Way (st.host.store.parentIn? (rootsOf (st.view language))) 5 [5, 3, 2, 1, 0] ∧
      (st.host.store.node 0).delegated = ["click"] ∧
      (st.host.store.node 2).handlers.has "click" = true ∧
      ∃ during last, Steps language st during last ∧ last.step? language = none ∧
        (last.host.store.node 5).attributes.get? "seen" = some "yes" ∧
        (last.host.store.node 2).attributes.get? "seen" = none := by
  refine ⟨course_stagedBy (by decide +kernel), by decide +kernel,
    by decide +kernel, ?_, by decide +kernel, by decide +kernel, ?_⟩
  · exact .up (by decide +kernel) (.up (by decide +kernel) (.up (by decide +kernel)
      (.up (by decide +kernel) (.last (by decide +kernel)))))
  · refine ⟨_, _, Reactive.steps_run (L := language) 200 _,
      ?_, by decide +kernel, by decide +kernel⟩
    exact Option.isNone_iff_eq_none.1 (by decide +kernel)

end ReactiveMarkup.Program
