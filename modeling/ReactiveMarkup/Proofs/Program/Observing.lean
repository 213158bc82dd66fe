/-
What callbacks see of the event that they are called for.

An action that serves an event is followed through its own steps and through its callbacks.
It ends in a state in which the event is said to be where it is expected to be, or it
fails.  An event on its way up, and one that looks handlers up, go from node to node for as
long as there are parents, so both are followed for a given number of links.

* `Course.callbacks_see_node`: what callbacks see;
* `late_listener_misled`: a listener of the document that sees another node.
-/
import ReactiveMarkup.Proofs.Program.Attendance

namespace ReactiveMarkup.Program

open Dom (NodeId)
open Reactive (Action State Steps)

variable {α β : Type} {e : EventId} {name : String} {m : Nat} {p : Standpoint}
  {st next : State setting} {n : NodeId} {held : List Item}

/-! ### Actions -/

/-- Whether only what is right happens for a number of links while an action goes on, and it ends
with what is asked of its result, or fails. -/
def Tends (e : EventId) (name : String) (m : Nat) (Q : α → Standpoint → State setting → Prop)
    (a : Act α) (p : Standpoint) (st : State setting) : Prop :=
  ∀ (P : Standpoint → State setting → Prop) (f : α → Act Result),
    (∀ j x p' next, j ≤ m → next.stack = st.stack → Q x p' next →
      Watched e name P j p' (next.act (f x))) →
    (∀ j p' next message, j ≤ m → next.stack = st.stack → next.control = .failing message →
      Watched e name P j p' next) →
    Watched e name P m p (st.act (a.bind f))

section Rules

variable {Q : α → Standpoint → State setting → Prop} {R : β → Standpoint → State setting → Prop}

theorem tends_pure (h : Q x p st) : Tends e name m Q (pure x) p st :=
  fun _ _ hend _ => hend m x p st (Nat.le_refl m) rfl h

theorem Tends.bind (ha : Tends e name m Q a p st)
    (hg : ∀ j x p' next, j ≤ m → next.stack = st.stack → Q x p' next →
      Tends e name j R (g x) p' next) : Tends e name m R (a >>= g) p st := by
  intro P f hend hfail
  have hassoc : (a >>= g).bind f = a.bind fun x => (g x).bind f := Action.bind_assoc a g f
  rw [hassoc]
  refine ha P (fun x => (g x).bind f) (fun j x p' next hj hstack hq => ?_) hfail
  refine hg j x p' next hj hstack hq P f (fun i y p'' last hi hsame hr => ?_)
    fun i p'' last message hi hsame hc => ?_
  · exact hend i y p'' last (Nat.le_trans hi hj) (hsame.trans hstack) hr
  · exact hfail i p'' last message (Nat.le_trans hi hj) (hsame.trans hstack) hc

theorem Tends.mono (h : Tends e name m Q a p st) (hQ : ∀ x p' next, Q x p' next → Q' x p' next) :
    Tends e name m Q' a p st :=
  fun P f hend hfail => h P f (fun j x p' next hj hstack hq =>
    hend j x p' next hj hstack (hQ x p' next hq)) hfail

/-- A state that calls nothing goes on with a step of its own. -/
theorem Watched.quiet (hc : ∀ code held k, st.control ≠ .acting (.call code held k))
    (hstep : st.step? language = some next) (h : Watched e name P m p next) :
    Watched e name P m p st :=
  .own (fun _ _ hdue => hc _ _ _ hdue.1) (fun _ _ _ => hc _ _ _) hstep h

theorem Tends.of_step (hb : Tends e name m Q b p next)
    (hown : ∀ (f : α → Act Result) code held k, a.bind f ≠ .call code held k)
    (hstep : ∀ f, (st.act (a.bind f)).step? language = some (next.act (b.bind f)))
    (hstack : next.stack = st.stack) : Tends e name m Q a p st := by
  intro P f hend hfail
  refine Watched.quiet ?_ (hstep f) (hb P f ?_ ?_)
  · exact fun code held k hcall => hown f code held k (Reactive.Control.acting.inj hcall)
  · exact fun j x p' last hj hsame hq => hend j x p' last hj (hsame.trans hstack) hq
  · exact fun j p' last message hj hsame hc => hfail j p' last message hj (hsame.trans hstack) hc

theorem tends_ask (h : Tends e name m Q (g st.host) p st) : Tends e name m Q (ask >>= g) p st :=
  h.of_step (fun _ _ _ _ hcall => nomatch hcall) (fun _ => rfl) rfl

theorem tends_tell (h : Tends e name m Q (g ()) p { st with host := f st.host }) :
    Tends e name m Q (tell f >>= g) p st :=
  h.of_step (fun _ _ _ _ hcall => nomatch hcall) (fun _ => rfl) rfl

theorem tends_tell_last {Q} (h : Q () p { st with host := f st.host }) :
    Tends e name m Q (tell f) p st :=
  (tends_pure h).of_step (fun _ _ _ _ hcall => nomatch hcall) (fun _ => rfl) rfl

theorem tends_onward (hnone : Tends e name m Q (g none) p st)
    (hsome : ∀ q, Tends e name m Q (g (some q)) p st) :
    Tends e name m Q (parentOf n >>= g) p st := by
  have hall : ∀ r, Tends e name m Q (g r) p st := by
    intro r
    cases r with
    | none => exact hnone
    | some q => exact hsome q
  -- Which nodes are held on to does not depend on what the action goes on with.
  have hfound := hall (st.host.store.parentIn?
    (rootsOf ((st.act (.pure .nothing)).view language)) n)
  exact hfound.of_step (fun _ _ _ _ hcall => nomatch hcall) (fun _ => rfl) rfl

end Rules

/-! ### Calls -/

section Calls

variable {P Q : Standpoint → State setting → Prop}

theorem watched_over {k : Result → Act Result} (hover : Over (.returning held k :: st.stack) next)
    (hend : ∀ r, next.control = .giving r →
      Watched e name P m p ({ next with stack := st.stack }.act (k r)))
    (hfail : ∀ message, next.control = .failing message →
      Watched e name P m p { next with stack := st.stack }) : Watched e name P m p next := by
  obtain ⟨hs, ⟨r, hc⟩ | ⟨message, hc⟩⟩ := hover
  · refine .quiet (fun _ _ _ hcall => absurd (hc.symm.trans hcall) (by simp)) ?_ (hend r hc)
    simp only [State.step?, hc, hs]
    rfl
  · refine .quiet (fun _ _ _ hcall => absurd (hc.symm.trans hcall) (by simp)) ?_ (hfail message hc)
    simp only [State.step?, hc, hs]
    rfl

theorem watched_body (code : Code) {f : Unit → Act Result} (hbody : body code = silently a)
    (h : Tends e name m (fun _ p' next => ∀ rest, next.stack = .returning held (fun _ => f ()) ::
      rest →
      Q p' { next with stack := rest }) a p (st.push (.returning held fun _ => f ())))
    (hend : ∀ j p' next, j ≤ m → next.stack = st.stack → Q p' next →
      Watched e name P j p' (next.act (f ())))
    (hfail : ∀ j p' next message, j ≤ m → next.stack = st.stack → next.control = .failing message →
      Watched e name P j p' next) :
    Watched e name P m p ((st.push (.returning held fun _ => f ())).act (body code)) := by
  rw [hbody]
  refine h P (fun _ => .pure .nothing) (fun j _ p' next hj hstack hq => ?_)
    fun j p' next message hj hstack hc => ?_
  · have hgive : (next.act (.pure .nothing)).step? language = some (next.give .nothing) := rfl
    refine .quiet (fun _ _ _ hcall => nomatch hcall) hgive (watched_over ⟨hstack, .inl ⟨_, rfl⟩⟩ ?_
      fun _ h => absurd h (by simp [State.give]))
    exact fun _ _ => hend j p' { next with stack := st.stack } hj rfl (hq st.stack hstack)
  · exact watched_over ⟨hstack, .inr ⟨message, hc⟩⟩
      (fun _ hr => absurd (hc.symm.trans hr) (by simp))
      fun message => hfail j p' { next with stack := st.stack } message hj rfl

theorem tends_call {code} (hown : ∀ env b, code ≠ .block env b)
    (hsame : (∀ n, code ≠ .bubble e n) → q = p) (hcame : ∀ n, code = .bubble e n →
      q = ⟨n, st.host.store.listenersFor n name, n⟩ ∧ (st.host.event e).name = name)
    (hbody : body code = silently a) (h : ∀ j k, j < m → Tends e name j (fun _ p' next => ∀ rest,
      next.stack = .returning held k :: rest → Q p' { next with stack := rest }) a q
        (st.push (.returning held k))) :
    Tends e name m (fun _ => Q) (discard (perform code held)) p st := by
  intro P f hend hfail
  cases m with
  | zero => trivial
  | succ m =>
    have hnot : ∀ i k, ¬ Invocation.Due i e (st.act ((discard (perform code held)).bind f)) k :=
      fun i k hdue => hown i.env i.body (Action.call.inj (Reactive.Control.acting.inj hdue.1)).1
    have hinside := watched_body _ hbody (h m (fun _ => f ()) (Nat.lt_succ_self m))
      (fun j p' next hj => hend j () p' next (by omega)) fun j p' next message hj =>
        hfail j p' next message (by omega)
    refine fun _ => .inr ⟨fun mark next hl => ?_, fun i k _ hdue => absurd hdue (hnot i k)⟩
    cases hl with
    | own _ hcame' hstep =>
      cases hstep
      obtain rfl := hsame fun n hn => hcame' n held (fun _ => f ()) (hn ▸ rfl)
      exact ⟨by simp, hinside⟩
    | @come n held' k _ hc hstep =>
      cases hstep
      obtain ⟨rfl, rfl⟩ := hcame n (Action.call.inj (Reactive.Control.acting.inj hc)).1
      refine ⟨fun x hx => ?_, hinside⟩
      cases hx
      exact fun l hl => eq_of_beq (List.mem_filter.1 hl).2
    | call hdue _ _ _ => exact absurd hdue (hnot _ _)

theorem tends_arrive (hname : (st.host.event e).name = name)
    (h : ∀ j k, j < m → Tends e name j (fun _ p' next => ∀ rest,
      next.stack = .returning held k :: rest → Q p' { next with stack := rest }) (bubble e n)
        ⟨n, st.host.store.listenersFor n name, n⟩ (st.push (.returning held k))) :
    Tends e name m (fun _ => Q) (discard (perform (.bubble e n) held)) p st := by
  refine tends_call (fun _ _ => by simp) (fun hn => absurd rfl (hn n)) (fun n' hn => ?_) rfl h
  obtain ⟨-, rfl⟩ := Code.bubble.inj hn
  exact ⟨rfl, hname⟩

end Calls

/-! ### Serving an event -/

/-- Whether an event is said to be where it is expected to be. -/
structure Fits (e : EventId) (name : String) (p : Standpoint) (st : State setting) : Prop where
  there : e < st.host.events.size
  named : (st.host.event e).name = name
  seen : (st.host.event e).current = some p.seen
  registered : st.host.Registered
  documents : ∀ l ∈ p.listeners, ∀ event, walked? l = some event →
    event = name ∧ st.host.store.IsDocument p.node

theorem Fits.of_host (h : Fits e name p st) (hs : next.host = st.host) : Fits e name p next := by
  obtain ⟨there, named, seen, registered, documents⟩ := h
  constructor <;> rw [hs] <;> assumption

theorem Fits.serve (h : Fits e name p st) (n : NodeId) :
    Fits e name { p with seen := n } { st with host := { st.host with
      events := st.host.events.modify e fun event => { event with current := some n } } } := by
  have hself := event_modify_self st.host h.there fun event => { event with current := some n }
  have hedit : Edit 0 True st.host { st.host with
      events := st.host.events.modify e fun event => { event with current := some n } } :=
    .serve e (some n) (Nat.zero_le e)
  refine ⟨by simpa using h.there, ?_, ?_, hedit.registered h.registered, h.documents⟩
  · rw [hself]
    exact h.named
  · rw [hself]

/-- Callbacks leave the event where it is said to be. -/
theorem Fits.callback (h : Fits e name p st) {i : Invocation} (hs : Steady st) (hdue : i.Due e st k)
    (hu : Underway (i.enter st k) next) : Fits e name p next := by
  obtain ⟨hl, hkept⟩ := hu.eventKept hs.sound hs.orderly hdue h.there
  refine ⟨hl.good.2, hkept.name.trans h.named, hkept.current.trans h.seen, hl.good.1, ?_⟩
  intro l hmem event hw
  obtain ⟨hevent, hd⟩ := h.documents l hmem event hw
  exact ⟨hevent, isDocument_of_edits hl.before hd⟩

theorem tends_callback {env} {body} (h : Fits e name (p.serve n) st)
    (hright : (Mark.called ⟨n, { env with event := some e }, body⟩ st.host
      (some (p.serve n).seen)).Right e name p) :
    Tends e name m (fun _ p' next => p' = p.serve n ∧ Fits e name p' next)
      (handle e n (.block env body)) p st := by
  intro P f hend hfail
  set i : Invocation := ⟨n, { env with event := some e }, body⟩
  set here := st.act ((handle e n (.block env body)).bind f)
  have hdue : i.Due e here fun _ => f () := ⟨rfl, rfl⟩
  have hfits : Fits e name (p.serve n) here := h.of_host rfl
  have hsees : ∀ {mid : State setting}, Steady here → Underway (i.enter here fun _ => f ()) mid →
      (Mark.called i here.host (mid.host.event e).current).Right e name p := by
    intro mid hs hmid
    rw [(hfits.callback hs hdue hmid).seen]
    exact hright
  cases m with
  | zero => trivial
  | succ m =>
    refine fun hs => .inr ⟨fun mark next hl => ?_, fun i' k mid hdue' hmid => ?_⟩
    · cases hl with
      | own hown _ _ => exact absurd hdue (hown _ _)
      | come hc _ => exact absurd (Action.call.inj (Reactive.Control.acting.inj hc)).1 (by simp)
      | @call i' k mid back hdue' hmid hback hover =>
        obtain ⟨rfl, rfl⟩ := hdue.unique hdue'
        refine ⟨fun x hx => ?_, ?_⟩
        · cases hx
          exact hsees hs hmid
        · have hnext : Fits e name (p.serve n) { next with stack := st.stack } :=
            (hfits.callback hs hdue hback).of_host rfl
          refine watched_over hover (fun _ _ => ?_) fun message hmessage => ?_
          · exact hend m () (p.serve n) { next with stack := st.stack } (by omega) rfl ⟨rfl, hnext⟩
          · exact hfail m (p.serve n) { next with stack := st.stack } message (by omega) rfl
              hmessage
    · obtain ⟨rfl, rfl⟩ := hdue.unique hdue'
      exact hsees hs hmid

@[simp] theorem Standpoint.serve_node (p : Standpoint) (n : NodeId) :
    (p.serve n).node = p.node := by
  unfold serve
  split <;> rfl

@[simp] theorem Standpoint.serve_listeners (p : Standpoint) (n : NodeId) :
    (p.serve n).listeners = p.listeners := by
  unfold serve
  split <;> rfl

/-- Whether an event has not left a node, and is said to be where it is expected to be. -/
structure Remains (e : EventId) (name : String) (p p' : Standpoint) (st : State setting) :
    Prop where
  node : p'.node = p.node
  listeners : p'.listeners = p.listeners
  fits : Fits e name p' st

theorem tends_walk (hwalk : ∃ l ∈ p.listeners, walked? l = some name) (h : Fits e name p st) :
    Tends e name m (fun _ => Remains e name p) (walk e name n) p st := by
  -- Handlers are looked up at the parent in a call, for which fewer links are left.
  induction m using Nat.strong_induction_on generalizing n p st with
  | _ m ih =>
    have onward (q : NodeId) {j : Nat} {p' : Standpoint} {next : State setting} (hj : j ≤ m)
        (hr : Remains e name p p' next) : Tends e name j (fun _ => Remains e name p)
          (discard (perform (.walk e name q))) p' next := by
      refine tends_call (fun _ _ => by simp) (fun _ => rfl) (fun _ h => absurd h (by simp)) rfl
        fun i k hi => ?_
      have hthere : ∃ l ∈ p'.listeners, walked? l = some name := hr.listeners ▸ hwalk
      refine Tends.mono (Q := fun _ => Remains e name p') ?_ fun _ p'' last hr' rest _ => ?_
      · exact ih i (Nat.lt_of_lt_of_le hi hj) hthere (hr.fits.of_host rfl)
      · exact ⟨hr'.node.trans hr.node, hr'.listeners.trans hr.listeners, hr'.fits.of_host rfl⟩
    refine tends_ask ?_
    dsimp only
    split
    · exact tends_pure ⟨rfl, rfl, h⟩
    · rename_i hkind
      split
      · rename_i handler hget
        obtain ⟨env, body, rfl⟩ := (h.registered.tidy n).blocks name handler hget
        obtain ⟨l, hl, hwalked⟩ := hwalk
        have hdoc := (h.documents l hl name hwalked).2
        have hne : n ≠ p.node := fun hn => hkind (hn ▸ hdoc)
        have hserve : p.serve n = { p with seen := n } := if_neg hne
        refine tends_tell (Tends.bind (tends_callback (hserve ▸ h.serve n) ?_) ?_)
        · refine .inr ⟨hne, ?_, hdoc, ⟨l, hl, hwalked⟩, by rw [hserve]⟩
          rw [hget]
          rfl
        · rintro j _ p' next hj - ⟨rfl, hfits⟩
          have hr : Remains e name p (p.serve n) next := ⟨by simp, by simp, hfits⟩
          refine tends_ask ?_
          split
          · exact tends_pure hr
          · exact tends_onward (tends_pure hr) fun q => onward q hj hr
      · have hr : Remains e name p p st := ⟨rfl, rfl, h⟩
        exact tends_onward (tends_pure hr) fun q => onward q (Nat.le_refl m) hr

theorem tends_handle (hl : l ∈ p.listeners) (h : Fits e name p st) :
    Tends e name m (fun _ => Remains e name p) (handle e p.node l.handler) p st := by
  cases hh : l.handler with
  | block env body =>
    have hserve : p.serve p.node = p := if_pos rfl
    refine (tends_callback (by rwa [hserve]) ?_).mono ?_
    · exact .inl ⟨rfl, ⟨l, hl, by rw [hh]; rfl⟩, by rw [hserve]⟩
    · rintro _ p' next ⟨rfl, hfits⟩
      exact ⟨by simp, by simp, hfits⟩
  | walk event =>
    have hwalked : walked? l = some event := by rw [walked?, hh]
    obtain ⟨rfl, -⟩ := h.documents l hl event hwalked
    refine tends_ask (tends_call (fun _ _ => by simp) (fun _ => rfl) (fun _ h => absurd h (by simp))
      rfl fun i k hi => ?_)
    refine Tends.mono (Q := fun _ => Remains e event p) ?_ fun _ p' next hr rest _ => ?_
    · exact tends_walk ⟨l, hl, hwalked⟩ (h.of_host rfl)
    · exact ⟨hr.node, hr.listeners, hr.fits.of_host rfl⟩

theorem tends_handleAll {ls} (hls : ls ⊆ p.listeners) (h : Fits e name p st) :
    Tends e name m (fun _ => Remains e name p) (handleAll e p.node (ls.map (·.handler))) p st := by
  induction ls generalizing m p st with
  | nil => exact tends_pure ⟨rfl, rfl, h⟩
  | cons l rest ih =>
    obtain ⟨hl, hrest⟩ := List.cons_subset.1 hls
    refine Tends.bind (tends_handle hl h) fun j _ p' next _ _ hr => ?_
    rw [← hr.node]
    refine (ih (hr.listeners ▸ hrest) hr.fits).mono fun _ p'' last hr' => ?_
    exact ⟨hr'.node.trans hr.node, hr'.listeners.trans hr.listeners, hr'.fits⟩

theorem tends_bubble (hthere : e < st.host.events.size) (hname : (st.host.event e).name = name)
    (hreg : st.host.Registered) :
    Tends e name m (fun _ _ next => e < next.host.events.size) (bubble e n)
      ⟨n, st.host.store.listenersFor n name, n⟩ st := by
  induction m using Nat.strong_induction_on generalizing n st with
  | _ m ih =>
    set p : Standpoint := ⟨n, st.host.store.listenersFor n name, n⟩
    -- The event is put at the node first, whatever it said before.
    have hself := event_modify_self st.host hthere fun event => { event with current := some n }
    have hedit : Edit 0 True st.host { st.host with
        events := st.host.events.modify e fun event => { event with current := some n } } :=
      .serve e (some n) (Nat.zero_le e)
    have hfits : Fits e name p { st with host := { st.host with
        events := st.host.events.modify e fun event => { event with current := some n } } } := by
      refine ⟨by simpa using hthere, by rw [hself]; exact hname, by rw [hself],
        hedit.registered hreg, fun l hl event hw => ?_⟩
      obtain ⟨hmem, hevent⟩ := List.mem_filter.1 hl
      obtain ⟨rfl, hkind⟩ := (hreg.tidy n).walks l hmem event hw
      exact ⟨eq_of_beq hevent, hkind⟩
    refine tends_tell (tends_ask ?_)
    rw [hfits.named]
    refine Tends.bind (tends_handleAll (List.Subset.refl _) hfits) ?_
    intro j _ p' next hj _ hr
    refine tends_ask ?_
    split
    · exact tends_pure hr.fits.there
    · refine tends_onward (tends_pure hr.fits.there) fun q => ?_
      refine tends_arrive hr.fits.named fun i k hi => ?_
      refine Tends.mono (Q := fun _ _ next => e < next.host.events.size) ?_ fun _ _ _ hlt _ _ => hlt
      exact ih i (Nat.lt_of_lt_of_le hi hj) hr.fits.there hr.fits.named hr.fits.registered

theorem tends_dispatch (hreg : st.host.Registered) :
    Tends st.host.events.size name m
      (fun _ _ next => (next.host.event st.host.events.size).current = none)
      (dispatch n name) p st := by
  have hedit :
    Edit 0 True st.host { st.host with events := st.host.events.push { name, target := n } } :=
    .send name n
  have hname : (({ st.host with events := st.host.events.push { name, target := n } }).event
      st.host.events.size).name = name := by rw [event_push_self]
  refine tends_ask (tends_tell ?_)
  refine Tends.bind (Q := fun _ _ next => st.host.events.size < next.host.events.size)
    (tends_arrive hname fun i k hi => ?_) fun j _ p' next _ _ hthere =>
      tends_tell (tends_ask (tends_tell_last ?_))
  · refine Tends.mono (Q := fun _ _ next => st.host.events.size < next.host.events.size) ?_
      fun _ _ _ hlt _ _ => hlt
    exact tends_bubble (by simp [State.push]) hname (hedit.registered hreg)
  · exact congrArg Dom.Event.current
      (event_modify_self next.host hthere fun event => { event with current := none })

/-! ### What callbacks see -/

/-- Whether a callback sees the node of a handler in place of its own one: it listens at a document
that looks handlers up, and the handler has been called since the event came there. -/
def Misled (name : String) (past : List Mark) (i : Invocation) (seen : Option NodeId) : Prop :=
  ∃ ls between j w, .came i.node ls :: between <:+ past ∧
    (∀ x ∈ between, ∀ n l, x ≠ .came n l) ∧ .called j w (some j.node) ∈ between ∧
    j.node ≠ i.node ∧ seen = some j.node ∧ w.store.IsDocument i.node ∧
    ∃ l ∈ ls, walked? l = some name

/-- Where an event is said to be, after what has happened: at the node that it has come to, or at
the node of a handler that was called since. -/
theorem Rightly.standpoint {past} (h : Rightly e name ⟨t, [], t⟩ past) :
    ∃ p, p = past.foldl Standpoint.after ⟨t, [], t⟩ ∧ (p.listeners = [] ∧ p.seen = p.node ∨
      ∃ between, .came p.node p.listeners :: between <:+ past ∧
        (∀ x ∈ between, ∀ n l, x ≠ .came n l) ∧ (p.seen = p.node ∨
          ∃ j w, .called j w (some j.node) ∈ between ∧ j.node ≠ p.node ∧ p.seen = j.node ∧
            w.store.IsDocument p.node ∧ ∃ l ∈ p.listeners, walked? l = some name)) := by
  induction past using List.reverseRecOn with
  | nil => exact ⟨_, rfl, .inl ⟨rfl, rfl⟩⟩
  | append_singleton past x ih =>
    obtain ⟨hpast, hright, -⟩ := rightly_append.1 h
    obtain ⟨p, hp, hstand⟩ := ih hpast
    rw [← hp] at hright
    refine ⟨p.after x, by rw [List.foldl_append, ← hp]; rfl, ?_⟩
    have extend : ∀ {between}, .came p.node p.listeners :: between <:+ past →
        .came p.node p.listeners :: (between ++ [x]) <:+ past ++ [x] :=
      fun ⟨t, ht⟩ => ⟨t, by rw [← ht, List.append_assoc, List.cons_append]⟩
    cases x with
    | came n ls =>
      exact .inr ⟨[], List.suffix_append past [Mark.came n ls], by simp, .inl rfl⟩
    | called i w seen =>
      by_cases hi : i.node = p.node
      · -- A listener of the node leaves the event where it is.
        have hsame : p.after (.called i w seen) = p := if_pos hi
        rw [hsame]
        refine hstand.imp_right fun ⟨between, hsuffix, hcalls, hseen⟩ =>
          ⟨between ++ [.called i w seen], extend hsuffix, ?_, hseen.imp_right ?_⟩
        · simpa [or_imp, forall_and] using hcalls
        · exact fun ⟨j, w', hmem, hrest⟩ => ⟨j, w', List.mem_append_left _ hmem, hrest⟩
      · rcases hright with ⟨hnode, -⟩ | ⟨-, -, hdoc, hwalk, rfl⟩
        · exact absurd hnode hi
        · have hafter : p.after (.called i w (some i.node)) = { p with seen := i.node } := if_neg hi
          rw [hafter]
          rcases hstand with ⟨hnone, -⟩ | ⟨between, hsuffix, hcalls, -⟩
          · obtain ⟨l, hl, -⟩ := hwalk
            simp [hnone] at hl
          · refine .inr ⟨between ++ [.called i w (some i.node)], extend hsuffix, ?_,
              .inr ⟨i, w, ?_⟩⟩
            · simpa [or_imp, forall_and] using hcalls
            · exact ⟨by simp, hi, rfl, hdoc, hwalk⟩

/-- A callback sees its own node, or it is misled. -/
theorem Rightly.sees {before after} {seen}
    (h : Rightly e name ⟨t, [], t⟩ (before ++ .called i w seen :: after)) :
    seen = some i.node ∨ Misled name before i seen := by
  obtain ⟨hbefore, hright, -⟩ := rightly_append.1 h
  obtain ⟨p, hp, hstand⟩ := hbefore.standpoint
  rw [← hp] at hright
  rcases hright with ⟨hnode, -, hseen⟩ | ⟨-, -, -, -, hseen⟩
  · rw [hseen, Misled, hnode]
    rcases hstand with ⟨-, hsame⟩ | ⟨between, hsuffix, hcalls,
      hsame | ⟨j, w', hmem, hj, hat, hrest⟩⟩
    · exact .inl (congrArg some hsame)
    · exact .inl (congrArg some hsame)
    · exact .inr ⟨p.listeners, between, j, w', hsuffix, hcalls, hmem, hj, congrArg some hat, hrest⟩
  · exact .inl hseen

/-- When a program sends an event to the node `t`, all that happens to the event until it is over is
written down, and so is what a callback sees at any time until it is over itself:

* a handler that is looked up sees its own node;
* a listener sees the node that it was added to, unless that is a document that looks handlers up
  for the event, and a handler of another node has been called since the event came to the document:
  then it sees the node of the handler.

When the event has been sent, it is at no node. -/
theorem Course.callbacks_see_node (h : Course st) {env : Env} {x : String} {t : NodeId}
    {k : Unit → Act Result} (hc : st.control = .acting ((exec env (.dispatch x name)).bind k))
    (ht : st.host.nodes.get? x = some t) :
    (∀ during s, Steps language st during s → ∃ marks, Attends st.host.events.size st marks s) ∧
      ∀ marks s, Attends st.host.events.size st marks s → ∃ past later mid,
        marks = past ++ later ∧ Attends st.host.events.size st past mid ∧
          Attends st.host.events.size mid later s ∧
        (mid = s ∧ later = [] ∨ mid.stack = st.stack ∧
          ((∃ message, mid.control = .failing message) ∨
            mid.control = .acting (k ()) ∧ (mid.host.event st.host.events.size).current = none)) ∧
        Rightly st.host.events.size name ⟨t, [], t⟩ past ∧
        ∀ before after i w seen, past = before ++ .called i w seen :: after →
          seen = some i.node ∨ Misled name before i seen := by
  refine ⟨fun during s hsteps => exists_attends hsteps, fun marks s hmarks => ?_⟩
  set P : Standpoint → State setting → Prop := fun _ mid => mid.stack = st.stack ∧
    ((∃ message, mid.control = .failing message) ∨
      mid.control = .acting (k ()) ∧ (mid.host.event st.host.events.size).current = none)
  have hdone : ∀ {p next} j, P p next → Watched st.host.events.size name P j p next := by
    intro p next j hp
    cases j with
    | zero => trivial
    | succ j => exact fun _ => .inl hp
  have hwatched : ∀ m, Watched st.host.events.size name P m ⟨t, [], t⟩ st := by
    intro m
    have hst : st.act ((exec env (.dispatch x name)).bind k) = st := by rw [State.act, ← hc]
    have hnamed : Tends st.host.events.size name m (fun r _ next => r = some t ∧ next = st)
        (nodeNamed x) ⟨t, [], t⟩ st := by
      refine tends_ask ?_
      rw [ht]
      exact tends_pure ⟨rfl, rfl⟩
    have htends : Tends st.host.events.size name m
        (fun _ _ next => (next.host.event st.host.events.size).current = none)
        (exec env (.dispatch x name)) ⟨t, [], t⟩ st := by
      refine hnamed.bind fun j r p' next _ _ hr => ?_
      obtain ⟨rfl, rfl⟩ := hr
      exact tends_dispatch h.registered.good.1
    have hall := htends P k (fun j _ p' next _ hstack hnone => hdone j ⟨hstack, .inr ⟨rfl, hnone⟩⟩)
      fun j p' next message _ hstack hfail => hdone j ⟨hstack, .inl ⟨message, hfail⟩⟩
    rwa [hst] at hall
  obtain ⟨past, later, mid, rfl, hpast, hlater, hright, hend⟩ := hmarks.rightly hwatched h.steady
  refine ⟨past, later, mid, rfl, hpast, hlater, hend, hright, fun before after i w seen hsplit =>
    ?_⟩
  rw [hsplit] at hright
  exact hright.sees

/-- A button with a handler for clicks.  The document looks handlers up for clicks, and has another
listener before that and one after it. -/
def notice : Block := [
  .element "button" "button", .append "body" "button",
  .listen "document" "click" "early" [.setAttribute "button" "early" (.event .current)],
  .delegate ["click"],
  .listen "document" "click" "late" [.setAttribute "button" "late" (.event .current)],
  .handler "button" "click" [.setAttribute "button" "own" (.event .current)]]

theorem Course.callbacks_see_node_button :
    let st := stagedBy notice (.dispatch "button" "click")
    Course st ∧ st.host.nodes.get? "button" = some 2 ∧
      ∃ during last marks, Steps language st during last ∧ last.step? language = none ∧
        Attends 0 st marks last ∧
        ∃ past later mid, marks = past ++ later ∧
          (mid = last ∧ later = [] ∨ mid.stack = [] ∧ ((∃ message, mid.control = .failing message) ∨
            mid.control = .acting (body (.block {} [])) ∧ (mid.host.event 0).current = none)) ∧
          Rightly 0 "click" ⟨2, [], 2⟩ past ∧
          ∀ before after i w seen, past = before ++ .called i w seen :: after →
            seen = some i.node ∨ Misled "click" before i seen := by
  intro st
  have hcourse : Course st := course_stagedBy (by decide +kernel)
  have hnode : st.host.nodes.get? "button" = some 2 := by decide +kernel
  have hcontrol : st.control = .acting ((exec {} (.dispatch "button" "click")).bind
      fun _ => body (.block {} [])) := congrArg Reactive.Control.acting (body_block_cons {} _ [])
  have hnew : st.host.events.size = 0 := by decide +kernel
  have hstack : st.stack = [] := List.length_eq_zero_iff.1 (by decide +kernel)
  obtain ⟨hall, hsee⟩ := hcourse.callbacks_see_node hcontrol hnode
  rw [hnew] at hall hsee
  have hsteps := Reactive.steps_run (L := language) 200 st
  obtain ⟨marks, hmarks⟩ := hall _ _ hsteps
  obtain ⟨past, later, mid, hsplit, -, -, hend, hright⟩ := hsee marks _ hmarks
  refine ⟨hcourse, hnode, _, _, marks, hsteps, ?_, hmarks, past, later, mid, hsplit, ?_, hright⟩
  · exact Option.isNone_iff_eq_none.1 (by decide +kernel)
  · rwa [hstack] at hend

/-- The listener that was added to the document last does not see the document. -/
theorem late_listener_misled :
    let st := stagedBy notice (.dispatch "button" "click")
    Course st ∧ st.host.nodes.get? "document" = some 0 ∧
      (st.host.store.listenersFor 0 "click").map walked? = [none, some "click", none] ∧
      ∃ during last, Steps language st during last ∧
        last.step? language = none ∧ last.host.store.describe 0 = "#document" ∧
        (last.host.store.node 2).attributes.get? "early" = some "#document" ∧
        (last.host.store.node 2).attributes.get? "own" = some "<button>" ∧
        (last.host.store.node 2).attributes.get? "late" = some "<button>" := by
  refine ⟨course_stagedBy (by decide +kernel), by decide +kernel,
    by decide +kernel, _, _, Reactive.steps_run (L := language) 200 _, ?_, by decide +kernel,
    by decide +kernel, by decide +kernel, by decide +kernel⟩
  exact Option.isNone_iff_eq_none.1 (by decide +kernel)

end ReactiveMarkup.Program
