/-
Documents that look handlers up for the events that they are known for.

A document that is told to listen for an event is known for it from then on, and looks up
the handlers of its nodes when the event comes.  No program can take the listener away
by itself, as its number is not given to anybody.  It goes only if the document itself is
disposed of.  The document is known for the event still, so it is not told to listen again.

* `Spared.known_events_heard`: the document is known for the events that it looks handlers up
  for, and handlers that are given to its elements are called;
* `silenced_document_deaf`: a document that has been disposed of.
-/
import ReactiveMarkup.Proofs.Program.Dispatch
import ReactiveMarkup.Proofs.Program.Spreading

namespace ReactiveMarkup.Program

open List Dom.Store

open Dom (NodeId ListenerId Way isDelegatedName)
open Dom.Store (Fades)
open Reactive (Action Regime State Steps)
open Relation (ReflTransGen)

variable {N : Nat} {fade : Prop} {w w' : World} {st next : State setting} {n d : NodeId}
  {event : String} {env : Env} {body : Block}

/-! ### Events that handlers are looked up for -/

def sought (x : Dom.Node Handler) : List String := x.listeners.filterMap walked?

theorem sought_congr (h : x'.hearing = x.hearing) : sought x' = sought x :=
  congrArg (List.filterMap walked?) (congrArg Prod.fst h)

/-- Whether a node is known for some more events, and looks handlers up for just these in
addition. -/
def Grows (x x' : Dom.Node Handler) : Prop :=
  ∃ new, sought x' = sought x ++ new ∧ x'.delegated = x.delegated ++ new

theorem Grows.of_eq (hs : sought x' = sought x) (hd : x'.delegated = x.delegated) : Grows x x' :=
  ⟨[], by rw [hs, append_nil], by rw [hd, append_nil]⟩

theorem Retune.grows {plain} {next next'} (h : Retune plain fade next x x' next') (hf : ¬ fade)
    (hp : ∀ id, plain id → ∀ l ∈ x.listeners, l.id = id → walked? l = none) : Grows x x' := by
  cases h with
  | listen e env body => exact .of_eq (by simp [sought, walked?]) rfl
  | @unlisten id hid =>
    refine .of_eq ?_ rfl
    rw [sought, filterMap_filter]
    refine filterMap_congr fun l hl => ?_
    by_cases hl' : l.id = id
    · simp [hp id hid l hl hl']
    · simp [hl']
  | hush h => exact absurd h hf
  | watch e hk hn => exact ⟨[e], by simp [sought, walked?], rfl⟩
  | _ => exact .of_eq rfl rfl

theorem Retune.delegated {plain} {next next'} (h : Retune plain fade next x x' next') :
    x.delegated ⊆ x'.delegated := by
  cases h with
  | watch => exact subset_append_left _ _
  | _ => exact List.Subset.refl _

theorem grows_of_edits (h : ReflTransGen (Edit N fade) w w') (hf : ¬ fade) (n : NodeId) :
    Grows (w.store.node n) (w'.store.node n) := by
  induction h with
  | refl => exact .of_eq rfl rfl
  | @tail u u' _ hstep ih =>
    obtain ⟨new, hs, hd⟩ := ih
    obtain ⟨more, hs', hd'⟩ : Grows (u.store.node n) (u'.store.node n) := by
      rcases hstep.node n with ⟨hheard, hdelegated⟩ | ⟨next, hr⟩
      · exact .of_eq (sought_congr hheard) hdelegated
      · exact hr.grows hf fun id hid => hid.2 n
    exact ⟨new ++ more, by rw [hs', hs, append_assoc], by rw [hd', hd, append_assoc]⟩

theorem delegated_of_edits (h : ReflTransGen (Edit N fade) w w') (n : NodeId) :
    (w.store.node n).delegated ⊆ (w'.store.node n).delegated := by
  induction h with
  | refl => exact List.Subset.refl _
  | @tail u u' _ hstep ih =>
    rcases hstep.node n with ⟨-, hdelegated⟩ | ⟨next, hr⟩
    · rw [hdelegated]
      exact ih
    · exact List.Subset.trans ih hr.delegated

/-! ### Documents that are not disposed of -/

/-- Whether a node that looks handlers up loses all its listeners and handlers. -/
def Silences (d : NodeId) (w w' : World) : Prop :=
  sought (w.store.node d) ≠ [] ∧ (w'.store.node d).hearing = ([], [], [])

theorem not_silences (h : sought (w.store.node d) ⊆ sought (w'.store.node d)) :
    ¬ Silences d w w' := by
  rintro ⟨hsome, hsilent⟩
  have hnone : sought (w'.store.node d) = [] :=
    congrArg (List.filterMap walked?) (congrArg Prod.fst hsilent)
  exact hsome (subset_nil.1 (hnone ▸ h))

theorem Move.sought_eq (hm : Move (registry.terms N) w w') (hw : (registry N).Good w)
    (hs : ¬ Silences d w w') (h : sought (w.store.node d) = (w.store.node d).delegated) :
    sought (w'.store.node d) = (w'.store.node d).delegated := by
  by_cases hf : Fades w.store w'.store
  · obtain ⟨hdelegated, hsame | hsilent⟩ := hf d
    · rw [sought_congr hsame, hdelegated, h]
    · have hnone : sought (w.store.node d) = [] := by
        by_contra hne
        exact hs ⟨hne, hsilent⟩
      rw [hdelegated, ← h, hnone]
      exact congrArg (List.filterMap walked?) (congrArg Prod.fst hsilent)
  · obtain ⟨new, hsought, hdelegated⟩ := grows_of_edits (edits_of_move hw hm) hf d
    rw [hsought, hdelegated, h]

/-- The regime of edits that do not silence a node, which looks handlers up for all events that it
is known for. -/
def watching (d : NodeId) : Regime setting :=
  { registry 0 with
    Good := fun w => (registry 0).Good w ∧ sought (w.store.node d) = (w.store.node d).delegated
    Allowed := fun w w' => ¬ Silences d w w' }

instance : Allows (watching d) (registry.terms 0) where
  code := Allows.code (R := registry 0)
  result := Allows.result (R := registry 0)
  kept h := h
  node_later _ _ := trivial
  document_later hl hd := isDocument_of_edits hl.before hd
  node_of_lt _ := trivial
  document_of hd := hd
  named _ _ := trivial
  child _ _ := trivial
  copied _ _ _ := trivial
  placed hw hx := ⟨trivial, hw.1.1.placed _ hx⟩
  main hw := hw.1.1.main
  document hw := hw.1.1.document
  owner hw hd := hw.1.1.owned.isDocument_of_documentIn? hd
  event hw := hw.1.2
  move hw hm hs :=
    have hl := later_of_edits (edits_of_move hw.1 hm) hw.1
    ⟨hl.before, hl.good, hm.sought_eq hw.1 hs hw.2⟩

/-- How a program comes from one state to the next without silencing a node. -/
def Sparing (d : NodeId) (st next : State setting) : Prop :=
  Onward st next ∧ ¬ Silences d st.host next.host

/-- The states that programs come through without silencing a node. -/
inductive Spared (d : NodeId) : State setting → Prop
  | start (s : Stmt) :
      Spared d { host := World.start, control := .acting (Program.body (.block {} [s])) }
  | onward {st next : State setting} : Spared d st → Sparing d st next → Spared d next

namespace Spared

theorem sound (h : Spared d st) : Course st ∧ (watching d).Sound st := by
  induction h with
  | start s =>
    obtain ⟨hsilent, hd⟩ := heard_start d
    have hnone : sought (World.start.store.node d) = [] :=
      congrArg (List.filterMap walked?) (congrArg Prod.fst hsilent)
    have hw : (watching d).Good World.start :=
      ⟨⟨registered_start, Nat.zero_le _⟩, hnone.trans hd.symm⟩
    exact ⟨.start s, sound_start hw s⟩
  | onward _ hn ih => exact ⟨ih.1.onward hn.1, ih.1.sound_onward ih.2 hn.1 hn.2⟩

theorem steps (h : Spared d st) (hs : ReflTransGen (Sparing d) st next) : Spared d next := by
  induction hs with
  | refl => exact h
  | tail _ hstep ih => exact ih.onward hstep

theorem of_course (h : Course st) (hd : (st.host.store.node d).delegated = []) : Spared d st := by
  have back : ∀ {a b : State setting}, Course a → Onward a b →
      ((a.host.store.node d).delegated = [] → Spared d a) →
      (b.host.store.node d).delegated = [] → Spared d b := by
    intro a b ha hn hspared hb
    have hnone : (a.host.store.node d).delegated = [] :=
      subset_nil.1 (hb ▸ delegated_of_edits (ha.edits_of_onward hn) d)
    refine (hspared hnone).onward ⟨hn, not_silences fun e he => ?_⟩
    exact absurd ((ha.registered.good.1.tidy d).known e he) (by simp [hnone])
  induction h with
  | start s => exact .start s
  | step hst hstep hloop ih => exact back hst (.step hstep hloop) ih hd
  | statement s hst hend ih => exact back hst (.statement s hend) ih hd
  | watch e hst hend ih => exact back hst (.watch e hend) ih hd

end Spared

/-! ### Handlers that are given -/

/-- Whether a node has what a call is about: a handler for an event, or a listener. -/
def Carries (s : Dom.Store Handler) (event : String) (c : Call) : Prop :=
  match c.listener with
  | none => (s.node c.node).handlers.get? event = some (.block c.env c.body)
  | some id => ⟨id, event, .block c.env c.body⟩ ∈ (s.node c.node).listeners

/-- What is called if the event is stopped would also be called otherwise. -/
theorem dispatched_subset (s : Dom.Store Handler) (event : String) (path : List NodeId)
    (stops : Nat → Bool) :
    dispatched s event path stops 0 ⊆ dispatched s event path (fun _ => false) 0 := by
  rw [dispatched, (draws_passed path 0).2 fun _ => rfl]
  exact (draws_passed path 0).1.subset

theorem mem_dispatched {path} {next} (htidy : ∀ n, Tidy next (s.node n))
    (hpath : ∃ rest, path = c.node :: rest) (hkind : ¬ s.IsDocument c.node) (hc : Carries s event c)
    (hd : c.listener = none → ∃ d ∈ path, event ∈ sought (s.node d)) {stops}
    (hs : ∀ j, stops j = false) : c ∈ dispatched s event path stops 0 := by
  obtain ⟨rest, rfl⟩ := hpath
  rw [dispatched, (draws_passed _ 0).2 hs]
  obtain ⟨n, listener, env, body⟩ := c
  cases listener with
  | some id =>
    exact mem_flatMap.2 ⟨n, .head _, mem_flatMap.2
      ⟨_, mem_filter.2 ⟨hc, beq_self_eq_true _⟩, mem_singleton_self _⟩⟩
  | none =>
    obtain ⟨d, hmem, hsought⟩ := hd rfl
    obtain ⟨⟨id, e, handler⟩, hl, hwalked⟩ := mem_filterMap.1 hsought
    refine mem_flatMap.2 ⟨d, hmem, mem_flatMap.2 ⟨_, mem_filter.2 ⟨hl, ?_⟩, ?_⟩⟩
    · exact beq_iff_eq.2 ((htidy d).walks _ hl event hwalked).1
    · cases handler with
      | block env body => cases hwalked
      | walk e =>
        have hcall : handlerCall? s event n = some ⟨n, none, env, body⟩ := by
          unfold handlerCall?
          rw [hc]
        rw [delegates_cons event hkind, hcall]
        exact mem_append_left _ (mem_singleton_self _)

theorem mem_delegated {s : Dom.Store Handler} (hd : d < s.nodes.size) (event : String)
    (walk : Handler) : event ∈ ((s.delegate d event walk).node d).delegated := by
  unfold Dom.Store.delegate
  split
  · rename_i hold
    simpa using hold
  · dsimp only [Dom.Store.addListener]
    rw [modify_modify]
    show event ∈ ((s.modify d _).node d).delegated
    rw [node_modify_self _ hd]
    simp

section Give

variable (h : Spared d st) (hd : Does n st (.give event env body) next)
  (hk : (st.host.store.node n).kind = .element)
  (hdoc : st.host.store.documentIn? (rootsOf (st.view language)) n = some d)

include h hd in
theorem Spared.give : Spared d next := by
  have hreg := h.sound.1.registered.good
  cases hd with
  | @give key event env body held k hc hkey =>
    rw [apply_give hkey] at hc
    have hsame : ¬ Silences d st.host st.host := not_silences (List.Subset.refl _)
    refine (h.onward ⟨.survey hc, hsame⟩).onward
      ⟨.act st _ (k (.ok ())) (sameTrees_setEvent _ n _ event _ _).not_loops, ?_⟩
    have hedits : ReflTransGen (Edit 0 False) st.host (st.host.given n
        (st.host.store.documentIn? (rootsOf (st.view language)) n) event env body) :=
      edits_setEvent hreg (fun m hm => hreg.1.owned.isDocument_of_documentIn? hm) n event env body
    obtain ⟨new, hsought, -⟩ := grows_of_edits hedits not_false d
    exact not_silences (hsought ▸ subset_append_left _ _)

include h hd hk hdoc in
/-- An element has what it has been given, and its document is known for the event if the element
has a handler. -/
theorem Spared.carries : ∃ c : Call, (c.node = n ∧ c.env = env ∧ c.body = body) ∧
    Carries next.host.store event c ∧
    (c.listener = none → event ∈ (next.host.store.node d).delegated) := by
  have htold : (st.host.store.node d).kind = .document :=
    h.sound.1.registered.good.1.owned.isDocument_of_documentIn? hdoc
  have hne : n ≠ d := by
    rintro rfl
    rw [hk] at htold
    cases htold
  have hn := lt_size_of_element hk
  cases hd with
  | @give key event env body held k hc hkey =>
    dsimp only [World.given]
    rw [hdoc]
    cases hname : isDelegatedName event with
    | true =>
      refine ⟨⟨n, none, env, body⟩, ⟨rfl, rfl, rfl⟩, ?_, fun _ => ?_⟩
      · show ((st.host.store.setEvent n (some d) event _ _).node n).handlers.get? event = _
        rw [node_setEvent_delegated hn (some d) (fun m hm => Option.some_inj.1 hm ▸ hne) _ _
          hname, Table.get?_put_self]
      · rw [Dom.Store.setEvent, hname]
        refine mem_delegated ?_ event _
        simpa [Dom.Store.setHandler] using Dom.Store.IsDocument.lt_size htold
    | false =>
      refine ⟨⟨n, some st.host.store.nextListener, env, body⟩, ⟨rfl, rfl, rfl⟩, ?_,
        fun h => absurd h (by simp)⟩
      show _ ∈ ((st.host.store.setEvent n (some d) event _ _).node n).listeners
      rw [node_setEvent hn (some d) _ _ hname]
      exact mem_append_right _ (mem_singleton_self _)

end Give

/-- As long as a program does not dispose of a document that looks handlers up,

* the document is known for an event just if it has one listener for it that looks handlers up;
* if a program gives an element something to do about an event, and the document is that of the
  element, the element has a handler or a listener for the event;
* and if the program comes to send such an event to the element, on a way up that leads to the
  document, while the element still has the handler or listener, then this is called, unless a
  callback before it has stopped the event, or the event stays at a callback.  Nothing is called
  but what is to be called for the event on that way. -/
theorem Spared.known_events_heard (h : Spared d st) :
    (∀ event, event ∈ (st.host.store.node d).delegated ↔
      (st.host.store.node d).listeners.countP (walked? · == some event) = 1) ∧
    ∀ n event env body next, Does n st (.give event env body) next →
      (st.host.store.node n).kind = .element →
      st.host.store.documentIn? (rootsOf (st.view language)) n = some d →
      Spared d next ∧ ∃ c : Call, (c.node = n ∧ c.env = env ∧ c.body = body) ∧
        Carries next.host.store event c ∧
        (c.listener = none → event ∈ (next.host.store.node d).delegated) ∧
        ∀ last x env' k, ReflTransGen (Sparing d) next last → Carries last.host.store event c →
          last.control = .acting ((exec env' (.dispatch x event)).bind k) →
          last.host.nodes.get? x = some n →
          ∃ path plan, Way (last.host.store.parentIn? (rootsOf (last.view language))) n path ∧
            plan = (dispatched last.host.store event path (fun _ => false) 0).map
              (Call.invocation last.host.events.size) ∧
            (d ∈ path → c.invocation last.host.events.size ∈ plan ∧
              ∃ l s, Serves last.host.events.size last l s ∧ (∀ y ∈ l, y.1 ∈ plan) ∧
                ((s.control = .acting (k ()) ∧ s.stack = last.stack ∧
                    (c.invocation last.host.events.size ∈ l.map Prod.fst ∨ ∃ y ∈ l, y.2 = true)) ∨
                  ∃ i ∈ plan, Stays last.host.events.size event path s i)) := by
  refine ⟨fun event => ?_, fun n event env body next hd hk hdoc => ⟨h.give hd, ?_⟩⟩
  · have hgood := h.sound.2.good
    have honce : (sought (st.host.store.node d)).Nodup := (hgood.1.1.tidy d).once
    rw [← hgood.2, ← count_filterMap]
    exact ⟨count_eq_one_of_mem honce, fun hone => count_pos_iff.1 (hone ▸ Nat.one_pos)⟩
  · obtain ⟨c, ⟨rfl, henv, hbody⟩, hcarries, hknown⟩ := h.carries hd hk hdoc
    refine ⟨c, ⟨rfl, henv, hbody⟩, hcarries, hknown, fun last x env' k hsteps hlast hc hx => ?_⟩
    obtain ⟨hcourse, hsound⟩ := ((h.give hd).steps hsteps).sound
    obtain ⟨-, hearlier⟩ := h.sound.1.edits_of_steps (hd.onward h.sound.1.sound.good.forest)
    have honward : ReflTransGen Onward next last := hsteps.lift id fun _ _ hs => hs.1
    obtain ⟨-, hlater⟩ := (hd.course h.sound.1).edits_of_steps honward
    obtain ⟨path, hway, l, s, hserves, hend⟩ := hcourse.serves_dispatched hc hx
    refine ⟨path, _, hway, rfl, fun hmem => ?_⟩
    -- The node is still an element, so it is not the document that listens for others.
    have hkind : ¬ last.host.store.IsDocument c.node := by
      have hsame := (kind_of_edits (hearlier.trans hlater) (lt_size_of_element hk)).2
      rw [Dom.Store.IsDocument, hsame, hk]
      simp
    have hcalled : ∀ {stops}, (∀ j, stops j = false) →
        c ∈ dispatched last.host.store event path stops 0 :=
      mem_dispatched hsound.good.1.1.tidy hway.exists_cons hkind hlast fun hnone =>
        ⟨d, hmem, hsound.good.2 ▸ delegated_of_edits hlater d (hknown hnone)⟩
    have hplan := map_subset (Call.invocation last.host.events.size)
      (dispatched_subset last.host.store event path (stopsOf l))
    refine ⟨mem_map_of_mem (hcalled fun _ => rfl), l, s, hserves, ?_⟩
    rcases hend with ⟨hcontrol, hstack, hcalls⟩ | ⟨i, hstays, hto⟩
    · refine ⟨fun y hy => hplan (hcalls ▸ mem_map_of_mem hy), .inl ⟨hcontrol, hstack, ?_⟩⟩
      by_cases hstop : ∃ y ∈ l, y.2 = true
      · exact .inr hstop
      · -- Nobody has stopped the event, so all there is to call has been called.
        refine .inl (hcalls ▸ mem_map_of_mem (hcalled fun j => ?_))
        exact any_eq_false.2 fun y hy => fun hy' => hstop ⟨y, mem_of_mem_take hy, hy'⟩
    · refine ⟨fun y hy => hplan (hto.subset (mem_append_left _ (mem_map_of_mem hy))), .inr ?_⟩
      exact ⟨i, hplan (hto.subset (mem_append_right _ (mem_singleton_self i))), hstays⟩

theorem Spared.known_events_heard_button : ∃ st next : State setting, Spared 0 st ∧
    Does 2 st (.give "click" {} []) next ∧
    (next.host.store.node 0).listeners.countP (walked? · == some "click") = 1 ∧
    ∃ l s, Serves 0 next l s ∧ s.control = .acting (Program.body (.block {} [])) ∧
      s.stack = next.stack ∧ (⟨2, { event := some 0 }, []⟩ : Invocation) ∈ l.map Prod.fst := by
  set first := stagedBy plainButton
    (.attempt [.spread "b" [("onClick", .handler [])], .dispatch "b" "click"])
  have hcourse : Course first := course_stagedBy (by decide +kernel)
  have hspared : Spared 0 first := .of_course hcourse (List.isEmpty_iff.1 (by decide +kernel))
  have hsame : ∀ {w : World}, ¬ Silences 0 w w := not_silences (List.Subset.refl _)
  set second := (first.step? language).getD first
  have hstep : Onward first second := .step rfl (not_loops_self _)
  have hcontrol : second.control = .acting ((exec {} (.spread "b" [("onClick", .handler [])])).bind
      fun _ => Program.body (.block {} [.dispatch "b" "click"])) :=
    congrArg Reactive.Control.acting (body_block_cons {} _ _)
  have hnamed := Onward.named hcontrol (by decide +kernel : second.host.nodes.get? "b" = some 2)
  set next : State setting := { second with
    host := second.host.given 2 (some 0) "click" {} []
    control := .acting (Program.body (.block {} [.dispatch "b" "click"])) }
  obtain ⟨st, hst, hk, hdoc, hgive⟩ : ∃ st, Spared 0 st ∧ (st.host.store.node 2).kind = .element ∧
      st.host.store.documentIn? (rootsOf (st.view language)) 2 = some 0 ∧
      Does 2 st (.give "click" {} []) next := by
    have hdoc : second.host.store.documentIn? (rootsAt second) 2 = some 0 := by decide +kernel
    refine ⟨_, (hspared.onward ⟨hstep, hsame⟩).onward ⟨hnamed, hsame⟩, by decide +kernel, hdoc, ?_⟩
    dsimp only [next]
    rw [← hdoc]
    have hgive : ∀ {st : State setting} {k a}, st.control =
        .acting ((apply 2 "onClick" (.handler {} []) [.node 2]).bind k) → k (.ok ()) = a →
        Does 2 st (.give "click" {} []) { st with
          host := st.host.given 2 (st.host.store.documentIn? (rootsOf (st.view language)) 2)
            "click" {} []
          control := .acting a } := fun hc ha => ha ▸ .give hc (by decide +kernel)
    exact hgive (congrArg Reactive.Control.acting
      ((Action.bind_assoc (applyAll 2 [("onClick", .handler {} [])]) _ _).trans
        (Action.bind_assoc (apply 2 "onClick" (.handler {} []) [.node 2]) _ _))) rfl
  obtain ⟨hspared', c, ⟨hnode, henv, hbody⟩, hcarries, -, hcall⟩ :=
    hst.known_events_heard.2 2 "click" {} [] next hgive hk hdoc
  obtain ⟨path, plan, hway, hplan, hserves⟩ := hcall next "b" {}
    (fun _ => Program.body (.block {} [])) .refl hcarries
    (congrArg Reactive.Control.acting (body_block_cons {} _ _)) (by decide +kernel)
  have hup : Way (next.host.store.parentIn? (rootsOf (next.view language))) 2 [2, 1, 0] :=
    .up (by decide +kernel) (.up (by decide +kernel) (.last (by decide +kernel)))
  obtain rfl := hup.unique hway
  have hnew : next.host.events.size = 0 := by decide +kernel
  obtain ⟨hmem, l, s, hl, hcalled, hend⟩ := hserves (by simp)
  have hinvoked : c.invocation 0 = ⟨2, { event := some 0 }, []⟩ := by
    rw [Call.invocation, hnode, henv, hbody]
  rw [hnew, hinvoked] at hmem hend
  rw [hnew] at hl
  -- Only the handler is to be called, so it is called even if the event is stopped.
  obtain ⟨i, rfl⟩ : ∃ i, plan = [i] := length_eq_one_iff.1 (hplan ▸ by decide +kernel)
  obtain rfl := mem_singleton.1 hmem
  refine ⟨st, next, hst, hgive, ?_, l, s, hl, ?_⟩
  · exact (hspared'.known_events_heard.1 "click").1 (by decide +kernel)
  · rcases hend with ⟨hcontrol, hstack, hin | ⟨y, hy, -⟩⟩ | ⟨i, hi, hstays⟩
    · exact ⟨hcontrol, hstack, hin⟩
    · exact ⟨hcontrol, hstack, mem_singleton.1 (hcalled y hy) ▸ mem_map_of_mem hy⟩
    · exact absurd hstays (not_stays_of_nil (mem_singleton.1 hi ▸ rfl))

/-- A button with a handler for clicks in a document that was known for clicks when it was disposed
of. -/
def deafened : Block := [
  .delegate ["click"], .dispose "document",
  .element "b" "button", .append "body" "b",
  .spread "b" [("onClick", .handler [.setAttribute "b" "hit" (.literal (.text "yes"))])]]

/-- The document is still known for clicks, but does not listen for them, and the handler of the
button is not called. -/
theorem silenced_document_deaf :
    let st := stagedBy deafened (.dispatch "b" "click")
    Course st ∧ st.host.nodes.get? "b" = some 2 ∧
      Way (st.host.store.parentIn? (rootsOf (st.view language))) 2 [2, 1, 0] ∧
      (st.host.store.node 0).delegated = ["click"] ∧
      (st.host.store.node 0).listeners.length = 0 ∧
      (st.host.store.node 2).handlers.has "click" = true ∧
      ∃ during last, Steps language st during last ∧ last.step? language = none ∧
        (last.host.store.node 2).attributes.get? "hit" = none := by
  refine ⟨course_stagedBy (by decide +kernel), by decide +kernel,
    .up (by decide +kernel) (.up (by decide +kernel) (.last (by decide +kernel))),
    by decide +kernel, by decide +kernel, by decide +kernel, ?_⟩
  refine ⟨_, _, Reactive.steps_run (L := language) 200 _, ?_, by decide +kernel⟩
  exact Option.isNone_iff_eq_none.1 (by decide +kernel)

end ReactiveMarkup.Program
