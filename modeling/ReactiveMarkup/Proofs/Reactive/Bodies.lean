/-
Code that only reads.

The code of a memo should do nothing but read, on its own account, and give a
result.  While such code runs nothing else does: the frames above the one that
stores the result all go on with code that only reads, and the memo's computation
is the one that is running.  So the memo owns no other computation and has nothing
to clean up, and until its first value is there nobody can have read it.
-/
import ReactiveMarkup.Proofs.Reactive.Order

namespace ReactiveMarkup.Reactive

open List Reactive.Graph State

variable {S : Setting}

/-- Code that does nothing to the graph but read sources on account of the computation that is
running.  It may work on the host, call other such code, and fail. -/
inductive ReadsOnly (L : Language S) : Action S S.Result → Prop
  | pure (r : S.Result) : ReadsOnly L (.pure r)
  | raise (message : String) : ReadsOnly L (.raise message)
  | look {k : S.Host → Action S S.Result} : (∀ host, ReadsOnly L (k host)) → ReadsOnly L (.look k)
  | change {f : S.Host → S.Host} {next : Action S S.Result} : ReadsOnly L next →
      ReadsOnly L (.change f next)
  | read {s : SourceId} {k : S.Value → Action S S.Result} : (∀ v, ReadsOnly L (k v)) →
      ReadsOnly L (.read s true k)
  | call {code : S.Code} {held : List S.Item} {k : S.Result → Action S S.Result} :
      ReadsOnly L (L.body code) → (∀ r, ReadsOnly L (k r)) → ReadsOnly L (.call code held k)

/-- Whether a frame goes on with code that only reads. -/
def Frame.Plain (L : Language S) : Frame S → Prop
  | .returning _ k => ∀ r, ReadsOnly L (k r)
  | _ => False

variable {L : Language S} {st next : State S} {c : ComputationId} {s : SourceId}
  {above rest : List (Frame S)} {p : Option ComputationId} {code : S.Code}

/-- The code of a memo is running: the frames above the one that stores its value, the computation
that ran before, and the frames below. -/
structure InBody (L : Language S) (st : State S) (c : ComputationId) (s : SourceId)
    (above : List (Frame S)) (p : Option ComputationId) (rest : List (Frame S)) : Prop where
  stack : st.stack = above ++ .storing s :: .restoring p :: rest
  once : .storing s ∉ rest
  plain : ∀ f ∈ above, f.Plain L
  current : st.graph.current = some c
  control : (∃ a, st.control = .acting a ∧ ReadsOnly L a) ∨ (∃ r, st.control = .giving r) ∨
    ∃ message, st.control = .failing message
  /-- Nobody has read a memo before its first value is there, unless the attempt fails. -/
  first : (∃ k lower, rest = .making s k :: lower) → (∀ message, st.control ≠ .failing message) →
    st.graph.value? s = none ∧ st.graph.subscribers s = []

namespace InBody

variable (hb : InBody L st c s above p rest)

include hb

theorem mem_stack : .storing s ∈ st.stack := by
  rw [hb.stack]
  exact mem_append_right _ (.head _)

theorem readsOnly {a} (ha : st.control = .acting a) : ReadsOnly L a := by
  obtain ⟨a', ha', hr⟩ | ⟨r, hr⟩ | ⟨m, hm⟩ := hb.control
  · obtain rfl := Control.acting.inj (ha.symm.trans ha')
    exact hr
  · cases ha.symm.trans hr
  · cases ha.symm.trans hm

theorem not_executing (hd : st.control = .executing d) : False := by
  obtain ⟨a, ha, -⟩ | ⟨r, hr⟩ | ⟨m, hm⟩ := hb.control
  · cases hd.symm.trans ha
  · cases hd.symm.trans hr
  · cases hd.symm.trans hm

theorem top {lower} (hs : st.stack = f :: lower) :
    (f = .storing s ∧ above = [] ∧ lower = .restoring p :: rest) ∨
      ∃ above', f.Plain L ∧ above = f :: above' ∧
        lower = above' ++ .storing s :: .restoring p :: rest := by
  have hstack := hb.stack
  cases above with
  | nil =>
    obtain ⟨rfl, rfl⟩ := List.cons.inj (hs.symm.trans hstack)
    exact .inl ⟨rfl, rfl, rfl⟩
  | cons f' above' =>
    obtain ⟨rfl, rfl⟩ := List.cons.inj (hs.symm.trans hstack)
    exact .inr ⟨above', hb.plain f (.head _), rfl, rfl⟩

/-- A memo whose code is running outside of batches is being made. -/
theorem making (ho : st.Orderly) (h0 : st.graph.depth = 0) :
    ∃ k lower, rest = .making s k :: lower := by
  have hseats : Seats st.stack := by
    have hp := ho.poised
    obtain ⟨a, ha, -⟩ | ⟨r, hr⟩ | ⟨m, hm⟩ := hb.control
    · rw [ha] at hp
      exact hp.seats_of_acting
    · rw [hr] at hp
      generalize hstack : st.stack = stack at hp
      cases hp with
      | giving hs => exact hs
      | clearing _ _ | entering _ _ =>
        rcases hb.top hstack with ⟨hf, -⟩ | ⟨_, hf, -⟩
        · cases hf
        · exact hf.elim
    · rw [hm] at hp
      exact hp.seats_of_failing
  have hopen : opened st.stack = 0 := ho.balanced.symm.trans h0
  rw [hb.stack] at hseats hopen
  obtain ⟨p', below, hbelow, hseat⟩ := hseats.seated
  cases hbelow
  rcases hseat with ⟨x, lower, rfl⟩ | hm
  · simp only [opened_append, opened, Frame.opens] at hopen
    omega
  · exact hm

theorem keep {above' : List (Frame S)}
    (hs : next.stack = above' ++ .storing s :: .restoring p :: rest) (hp : ∀ f ∈ above', f.Plain L)
    (hg : next.graph = st.graph)
    (hc : (∃ a, next.control = .acting a ∧ ReadsOnly L a) ∨ (∃ r, next.control = .giving r) ∨
      ∃ message, next.control = .failing message)
    (hf : ∀ message, st.control = .failing message → next.control = .failing message) :
    InBody L next c s above' p rest where
  stack := hs
  once := hb.once
  plain := hp
  current := hg ▸ hb.current
  control := hc
  first hm hn := hg ▸ hb.first hm fun message h => hn message (hf message h)

theorem keep_read {t : SourceId} {v : S.Value} {n : Nat} {a : Action S S.Result}
    (hv : st.graph.value? t = some v) (ha : ReadsOnly L a)
    (hf : ∀ message, st.control ≠ .failing message) :
    InBody L ((st.withGraph (st.graph.subscribe c t n)).act a) c s above p rest where
  stack := hb.stack
  once := hb.once
  plain := hb.plain
  current := current_subscribe.trans hb.current
  control := .inl ⟨a, rfl, ha⟩
  first hm _ := by
    obtain ⟨hnone, hsub⟩ := hb.first hm hf
    have hts : t ≠ s := by
      rintro rfl
      cases hnone.symm.trans hv
    refine ⟨?_, (subscribers_subscribe.trans (if_neg fun h => hts h.1)).trans hsub⟩
    exact (value?_of_map (source?_subscribe_map fun _ _ => rfl)).trans hnone

end InBody

/-! ### Memos whose code only reads -/

/-- The code of a memo is over, and the computation that ran before is about to be back.  After a
first run outside of batches a drain comes before that, which finds nothing to do. -/
def Leaving (st : State S) : Prop :=
  (∃ p rest, st.stack = .restoring p :: rest ∧
      ((∃ r, st.control = .giving r) ∨ ∃ message, st.control = .failing message)) ∨
    ∃ y p rest r, st.stack = .draining y :: .restoring p :: rest ∧ st.graph.pending = [] ∧
      st.control = .giving r

/-- What holds of a memo whose code only reads. -/
structure Confined (L : Language S) (st : State S) (c : ComputationId) (s : SourceId) : Prop where
  body : .storing s ∈ st.stack → ∃ above p rest, InBody L st c s above p rest
  current : st.graph.current = some c →
    (∃ above p rest, InBody L st c s above p rest) ∨ Leaving st
  back : .restoring (some c) ∉ st.stack
  clean : st.graph.cleanups c = []

namespace Confined

variable (hc : Confined L st c s)

include hc

theorem not_mem_of_starting {d : ComputationId} (hs : st.stack = .starting d :: rest) :
    .storing s ∉ st.stack := by
  intro h
  obtain ⟨above, p, lower, hb⟩ := hc.body h
  rcases hb.top hs with ⟨hf, -⟩ | ⟨_, hf, -⟩
  · cases hf
  · exact hf

/-- While a memo is running, the code at hand only reads. -/
theorem readsOnly (hcur : st.graph.current = some c) {a : Action S S.Result}
    (ha : st.control = .acting a) : ReadsOnly L a := by
  rcases hc.current hcur with
    ⟨above, p, rest, hb⟩ | ⟨_, _, _, ⟨r, hr⟩ | ⟨m, hm⟩⟩ | ⟨_, _, _, r, _, _, hr⟩
  · exact hb.readsOnly ha
  · cases ha.symm.trans hr
  · cases ha.symm.trans hm
  · cases ha.symm.trans hr

theorem inBody_begin (ho : st.Orderly) (ht : st.graph.target? c = some s)
    (hr : ReadsOnly L (L.body code)) {r : S.Result} (hctl : st.control = .giving r)
    (hs : st.stack = .starting c :: rest) :
    InBody L
      { st with
        graph := { st.graph with current := some c }, control := .acting (L.body code)
        stack := .storing s :: .restoring st.graph.current :: rest }
      c s [] st.graph.current rest where
  stack := rfl
  once h := hc.not_mem_of_starting hs (hs ▸ .tail _ h)
  plain f hf := absurd hf not_mem_nil
  current := rfl
  control := .inl ⟨_, rfl, hr⟩
  first hm _ := by
    have hp := ho.poised
    rw [hctl, hs] at hp
    -- A computation that was taken stands on a drain, and nobody awaits its first value.
    cases hp with
    | giving hseats =>
      obtain ⟨x, below, rfl⟩ := hseats.1
      obtain ⟨k, lower, hm⟩ := hm
      cases hm
    | entering _ hfirst => exact hfirst.unread s ht

end Confined

section Steps

variable [BEq S.Value]

/-- What the code of a memo does in a step, or what is done with its result. -/
inductive BodyStep (L : Language S) (c : ComputationId) (s : SourceId) (st next : State S)
    (above : List (Frame S)) (p : Option ComputationId) (rest : List (Frame S)) : Prop
  | ends (r : S.Result) : st.control = .acting (.pure r) → next = st.give r →
      BodyStep L c s st next above p rest
  | raises (message : String) : st.control = .acting (.raise message) →
      next = { st with control := .failing message } → BodyStep L c s st next above p rest
  | looks (k : S.Host → Action S S.Result) : st.control = .acting (.look k) →
      next = st.act (k st.host) → BodyStep L c s st next above p rest
  | changes (f : S.Host → S.Host) (a : Action S S.Result) : st.control = .acting (.change f a) →
      next = { st with host := f st.host, control := .acting a } →
      BodyStep L c s st next above p rest
  | reads (t : SourceId) (k : S.Value → Action S S.Result) (v : S.Value) :
      st.control = .acting (.read t true k) → st.graph.value? t = some v →
      next = (st.withGraph (st.graph.subscribe c t (st.sourceHeight L t))).act (k v) →
      BodyStep L c s st next above p rest
  | misses (t : SourceId) (k : S.Value → Action S S.Result) (message : String) :
      st.control = .acting (.read t true k) → st.graph.value? t = none →
      next = { st.withGraph (st.graph.subscribe c t (st.sourceHeight L t)) with
        control := .failing message } → BodyStep L c s st next above p rest
  | calls (code : S.Code) (held : List S.Item) (k : S.Result → Action S S.Result) :
      st.control = .acting (.call code held k) →
      next = (st.push (.returning held k)).act (L.body code) → BodyStep L c s st next above p rest
  | returns (r : S.Result) (held : List S.Item) (k : S.Result → Action S S.Result)
      (above' : List (Frame S)) : st.control = .giving r → above = .returning held k :: above' →
      next = act { st with stack := above' ++ .storing s :: .restoring p :: rest } (k r) →
      BodyStep L c s st next above p rest
  | stores (r : S.Result) : st.control = .giving r → above = [] →
      next = { st with stack := .restoring p :: rest }.stepFrame L r (.storing s) →
      BodyStep L c s st next above p rest
  | unwinds (message : String) (f : Frame S) (above' : List (Frame S)) :
      st.control = .failing message → above = f :: above' →
      next = { st with stack := above' ++ .storing s :: .restoring p :: rest } →
      BodyStep L c s st next above p rest
  | drops (message : String) : st.control = .failing message → above = [] →
      next = { st with stack := .restoring p :: rest } → BodyStep L c s st next above p rest

theorem InBody.step_cases (hb : InBody L st c s above p rest) (h : st.step? L = some next) :
    BodyStep L c s st next above p rest := by
  refine State.step_cases h ?_ ?_ ?_ ?_ ?_
  · intro a ha
    cases hb.readsOnly ha with
    | pure r => exact .ends r ha rfl
    | raise message => exact .raises message ha rfl
    | look _ => exact .looks _ ha rfl
    | change _ => exact .changes _ _ ha rfl
    | call _ _ => exact .calls _ _ _ ha rfl
    | @read t k _ =>
      have hval : (st.graph.subscribe c t (st.sourceHeight L t)).value? t = st.graph.value? t :=
        value?_of_map (source?_subscribe_map fun _ _ => rfl)
      cases hv : st.graph.value? t with
      | none =>
        refine .misses t k "memo read before its first computation finished" ha hv ?_
        simp only [stepAction, hb.current, modifyGraph, hval, hv]
        rfl
      | some v =>
        refine .reads t k v ha hv ?_
        simp only [stepAction, hb.current, modifyGraph, hval, hv]
        rfl
  · exact fun d hd _ => (hb.not_executing hd).elim
  · exact fun d hd _ => (hb.not_executing hd).elim
  · intro r f lower hr hs
    obtain ⟨rfl, habove, rfl⟩ | ⟨above', hf, habove, rfl⟩ := hb.top hs
    · exact .stores r hr habove rfl
    · cases f with
      | returning held k => exact .returns r held k above' hr habove rfl
      | _ => exact hf.elim
  · intro message f lower hm hs
    obtain ⟨rfl, habove, rfl⟩ | ⟨above', hf, habove, rfl⟩ := hb.top hs
    · exact .drops message hm habove rfl
    · cases f with
      | returning held k => exact .unwinds message _ above' hm habove rfl
      | _ => exact hf.elim

/-- The code of a memo goes on running until its result is stored or a failure ends it. -/
theorem InBody.step (hb : InBody L st c s above p rest) (h : st.step? L = some next) :
    (∃ above', InBody L next c s above' p rest) ∨ (above = [] ∧
      ((∃ r, st.control = .giving r ∧
          next = { st with stack := .restoring p :: rest }.stepFrame L r (.storing s)) ∨
        ∃ message, st.control = .failing message ∧
          next = { st with stack := .restoring p :: rest })) := by
  cases hb.step_cases h with
  | ends r ha hn =>
    subst hn
    exact .inl ⟨above, hb.keep hb.stack hb.plain rfl (.inr (.inl ⟨r, rfl⟩)) (by simp [ha])⟩
  | raises message ha hn =>
    subst hn
    exact .inl ⟨above, hb.keep hb.stack hb.plain rfl (.inr (.inr ⟨message, rfl⟩))
      (by simp [ha])⟩
  | looks k ha hn =>
    subst hn
    cases hb.readsOnly ha with
    | look hk =>
      exact .inl ⟨above, hb.keep hb.stack hb.plain rfl (.inl ⟨_, rfl, hk st.host⟩)
        (by simp [ha])⟩
  | changes f a ha hn =>
    subst hn
    cases hb.readsOnly ha with
    | change hk =>
      exact .inl ⟨above, hb.keep hb.stack hb.plain rfl (.inl ⟨_, rfl, hk⟩)
        (by simp [ha])⟩
  | reads t k v ha hv hn =>
    subst hn
    cases hb.readsOnly ha with
    | read hk => exact .inl ⟨above, hb.keep_read hv (hk v) (by simp [ha])⟩
  | misses t k message ha hv hn =>
    subst hn
    refine .inl ⟨above, hb.stack, hb.once, hb.plain, current_subscribe.trans hb.current,
      .inr (.inr ⟨message, rfl⟩), fun _ hf => absurd rfl (hf message)⟩
  | calls code held k ha hn =>
    subst hn
    cases hb.readsOnly ha with
    | call hbody hk =>
      refine .inl ⟨.returning held k :: above, hb.keep ?_ ?_ rfl (.inl ⟨_, rfl, hbody⟩)
        (by simp [ha])⟩
      · exact congrArg (List.cons _) hb.stack
      · exact forall_mem_cons.2 ⟨hk, hb.plain⟩
  | returns r held k above' hr ha hn =>
    subst hn ha
    have hk : ∀ r, ReadsOnly L (k r) := hb.plain _ (.head _)
    exact .inl ⟨above', hb.keep rfl (fun f hf => hb.plain f (.tail _ hf)) rfl
      (.inl ⟨_, rfl, hk r⟩) (by simp [hr])⟩
  | unwinds message f above' hm ha hn =>
    subst hn ha
    exact .inl ⟨above', hb.keep rfl (fun f hf => hb.plain f (.tail _ hf)) rfl
      (.inr (.inr ⟨message, hm⟩)) fun m hm => hm⟩
  | stores r hr ha hn => exact .inr ⟨ha, .inl ⟨r, hr, hn⟩⟩
  | drops message hm ha hn => exact .inr ⟨ha, .inr ⟨message, hm, hn⟩⟩

theorem State.step_begin (h : st.step? L = some next) (hr : st.control = .giving r)
    (hs : st.stack = .starting c :: rest) (ht : st.graph.target? c = some s)
    (hcode : st.graph.code? c = some code) :
    next = if st.isLiveSource L s then
        { st with
          graph := { st.graph with current := some c }, control := .acting (L.body code)
          stack := .storing s :: .restoring st.graph.current :: rest }
      else
        { st with
          graph := { st.graph with current := some c }, control := .giving L.nothing
          stack := .restoring st.graph.current :: rest } := by
  obtain ⟨d, hd, hcode'⟩ := Option.map_eq_some_iff.1 hcode
  have ht' : d.target = some s := by
    rw [target?, hd] at ht
    exact ht
  have hlive : ∀ control : Control S, ∀ g : Graph S.Value S.Code,
      isLiveSource L ⟨st.host, g, control, .restoring st.graph.current :: rest⟩ s =
        st.isLiveSource L s := fun _ _ => by
    simp only [isLiveSource, liveSources, hs]
    rfl
  have hcomp : ({ st.graph with current := some c } : Graph S.Value S.Code).computation? c =
    some d :=
    hd
  rw [next_giving h hr hs]
  simp only [stepFrame, push, modifyGraph, act, give, hcomp, ht',
    hlive, hcode']

theorem InBody.leaving_store (hb : InBody L st c s [] p rest) (ho : st.Orderly)
    (hr : st.control = .giving r) :
    .storing s ∉ ({ st with stack := .restoring p :: rest }.stepFrame L r (.storing s)).stack ∧
      Leaving ({ st with stack := .restoring p :: rest }.stepFrame L r (.storing s)) := by
  have hnot : .storing s ∉ .restoring p :: rest := fun h =>
    hb.once ((mem_cons.1 h).resolve_left (by simp))
  simp only [stepFrame]
  split
  · exact ⟨hnot, .inl ⟨p, rest, rfl, .inl ⟨_, rfl⟩⟩⟩
  · split
    · -- Outside of batches this is the first run, so nobody has read the memo yet.
      rename_i h0
      have hsub : st.graph.subscribers s = [] :=
        (hb.first (hb.making ho h0) (by simp [hr])).2
      refine ⟨fun h => hnot ((mem_cons.1 h).resolve_left (by simp)), .inr ?_⟩
      refine ⟨some s, p, rest, L.nothing, rfl, ?_, rfl⟩
      show (st.graph.subscribers s).foldl (fun l c => insertLast c l) st.graph.pending = []
      rw [hsub, ho.quiet h0]
      rfl
    · exact ⟨hnot, .inl ⟨p, rest, rfl, .inl ⟨_, rfl⟩⟩⟩

namespace Confined

variable (hc : Confined L st c s) (h : st.step? L = some next)

include hc h

theorem back_step : .restoring (some c) ∉ next.stack := by
  intro hmem
  rcases mem_stack_of_step h hmem with hmem | ⟨hcur, ⟨code, k, ha⟩ | ⟨r, d, rest, hctl, hs⟩⟩
  · exact hc.back hmem
  · cases hc.readsOnly hcur.symm ha
  · -- While the memo is running, no other computation is about to start.
    rcases hc.current hcur.symm with ⟨above, p, lower, hb⟩ | ⟨_, _, hs', _⟩ | ⟨_, _, _, _, hs', _⟩
    · exact absurd hb.mem_stack (hc.not_mem_of_starting hs)
    · cases hs.symm.trans hs'
    · cases hs.symm.trans hs'

variable (ho : st.Orderly)

include ho

theorem clean_step : next.graph.cleanups c = [] := by
  obtain ⟨_, _, _, hg⟩ := graph_of_step h
  refine eq_nil_iff_forall_not_mem.2 fun y hy => ?_
  rw [hg] at hy
  rcases ((st.event L).mem_cleanups_apply ho.current).1 hy with
    ⟨hy, -⟩ | ⟨-, code, he, -⟩ | ⟨hcur, -, code, he | he⟩
  · rw [hc.clean] at hy
    cases hy
  -- In the other cases the memo is running, with code that does not only read.
  · obtain ⟨hcur, k, ha⟩ := occasion_of_event he
    cases hc.readsOnly hcur ha
  · obtain ⟨k, ha⟩ := occasion_of_event he
    cases hc.readsOnly hcur ha
  · obtain ⟨k, ha⟩ := occasion_of_event he
    cases hc.readsOnly hcur ha

variable (ht : st.graph.target? c = some s) (hcode : st.graph.code? c = some code)
  (hr : ReadsOnly L (L.body code))

include ht hcode hr

/-- A run of the memo's computation starts: its code runs, or is left out. -/
theorem begin (hctl : st.control = .giving r) (hs : st.stack = .starting c :: rest) :
    (∃ above p rest, InBody L next c s above p rest) ∨
    (.storing s ∉ next.stack ∧ Leaving next) := by
  rw [step_begin h hctl hs ht hcode]
  split
  · exact .inl ⟨[], _, rest, hc.inBody_begin ho ht hr hctl hs⟩
  · refine .inr ⟨fun hmem => ?_, .inl ⟨_, rest, rfl, .inl ⟨_, rfl⟩⟩⟩
    refine hc.not_mem_of_starting hs (hs ▸ .tail _ ?_)
    exact (mem_cons.1 hmem).resolve_left (by simp)

theorem body_step (hmem : .storing s ∈ next.stack) :
    ∃ above p rest, InBody L next c s above p rest := by
  by_cases hold : .storing s ∈ st.stack
  · obtain ⟨above, p, rest, hb⟩ := hc.body hold
    rcases hb.step h with ⟨above', hb'⟩ | ⟨rfl, ⟨r, hctl, hn⟩ | ⟨m, hm, hn⟩⟩
    · exact ⟨above', p, rest, hb'⟩
    · exact absurd (hn ▸ hmem) (hb.leaving_store ho hctl).1
    · subst hn
      exact absurd ((mem_cons.1 hmem).resolve_left (by simp)) hb.once
  · rcases mem_stack_of_step h hmem with hmem | ⟨r, d, rest, hctl, hs, hd, -⟩
    · exact absurd hmem hold
    · -- The frame is new, and only the memo's own computation puts it there.
      obtain rfl : d = c := Option.some_inj.1
        (((ho.consistent.made s d).1 hd).symm.trans ((ho.consistent.made s c).1 ht))
      rcases hc.begin h ho ht hcode hr hctl hs with hb | ⟨hnot, -⟩
      · exact hb
      · exact absurd hmem hnot

theorem current_step (hcur : next.graph.current = some c) :
    (∃ above p rest, InBody L next c s above p rest) ∨ Leaving next := by
  rcases current_of_step h hcur with hold | hold | ⟨r, rest, hctl, hs⟩
  · rcases hc.current hold with ⟨above, p, rest, hb⟩ | hleave | hleave
    · rcases hb.step h with ⟨above', hb'⟩ | ⟨rfl, ⟨r, hctl, hn⟩ | ⟨m, hm, hn⟩⟩
      · exact .inl ⟨above', p, rest, hb'⟩
      · exact .inr (hn ▸ (hb.leaving_store ho hctl).2)
      · exact .inr (hn ▸ .inl ⟨p, rest, rfl, .inr ⟨m, hm⟩⟩)
    · -- What ran before is back after this step, and that was not the memo.
      obtain ⟨p, rest, hs, ⟨r, hctl⟩ | ⟨m, hm⟩⟩ := hleave
      · rw [next_giving h hctl hs] at hcur
        obtain rfl : p = some c := hcur
        exact absurd (hs ▸ .head _) hc.back
      · rw [next_failing h hm hs] at hcur
        obtain rfl : p = some c := hcur
        exact absurd (hs ▸ .head _) hc.back
    · obtain ⟨y, p, rest, r, hs, hp, hctl⟩ := hleave
      have hnone : st.graph.takeNext? = none := by
        rw [takeNext?, next?_eq_none.2 hp]
        rfl
      rw [next_giving h hctl hs]
      simp only [stepFrame, hnone]
      exact .inr (.inl ⟨p, rest, rfl, .inl ⟨_, rfl⟩⟩)
  · exact absurd hold hc.back
  · rcases hc.begin h ho ht hcode hr hctl hs with hb | ⟨-, hleave⟩
    · exact .inl hb
    · exact .inr hleave

/-- Steps keep what holds of a memo whose code only reads. -/
theorem step : Confined L next c s where
  body := hc.body_step h ho ht hcode hr
  current := hc.current_step h ho ht hcode hr
  back := hc.back_step h
  clean := hc.clean_step h ho

end Confined

theorem confined_new (ho : st.Orderly) (h : st.step? L = some next) (he : st.event L = .memo code) :
    Confined L next st.graph.computations.size st.graph.sources.size := by
  obtain ⟨k, ha⟩ := occasion_of_event he
  have hnew : st.graph.current ≠ some st.graph.computations.size := fun hcur =>
    Nat.lt_irrefl _ (ho.current _ hcur)
  rw [next_acting h ha]
  -- No frame knows of the memo, since frames are about sources and computations that were there.
  refine ⟨fun hmem => ?_, fun hcur => ?_, fun hmem => ?_, ?_⟩
  · have hmem : .storing st.graph.sources.size ∈ st.stack :=
      (mem_cons.1 hmem).resolve_left (by simp)
    obtain ⟨d, hd⟩ := ho.stored _ hmem
    rw [ho.consistent.made, maker?, source?_size] at hd
    cases hd
  · exact absurd ((current_addMemo st.graph code).symm.trans hcur) hnew
  · have hmem : .restoring (some st.graph.computations.size) ∈ st.stack :=
      (mem_cons.1 hmem).resolve_left (by simp)
    exact absurd (ho.frames _ hmem _ (.head _)) (Nat.lt_irrefl _)
  · have hfirst := (firstRun_addMemo hnew code k st.stack).cleanups
    rwa [addMemo_computation] at hfirst

/-- What holds of a memo whose code only reads holds in every state that a program comes to. -/
theorem Session.confined {past} (h : Session L past st) (ht : st.graph.target? c = some s)
    (hcode : st.graph.code? c = some code) (hr : ReadsOnly L (L.body code)) :
    Confined L st c s := by
  induction h with
  | start host a => exact absurd ht (by simp [target?, computation?])
  | @step past st next h hstep ih =>
    rcases target?_of_step hstep h.orderly ht with ht' | ⟨code', he, rfl, rfl⟩
    · have hlt := lt_size_of_target? ht'
      have hcode' : st.graph.code? c = some code := (code_target_step hstep hlt).1 ▸ hcode
      exact (ih ht' hcode').step hstep h.orderly ht' hcode' hr
    · exact confined_new h.orderly hstep he
  | @again past st host a h hend ih =>
    have hc := ih ht hcode
    have hs : st.stack = [] := Session.stack_eq_nil hend
    refine ⟨fun hmem => absurd (hs ▸ hmem) not_mem_nil, fun hcur => ?_, hc.back, hc.clean⟩
    rcases hc.current hcur with ⟨_, _, _, hb⟩ | ⟨_, _, hs', _⟩ | ⟨_, _, _, _, hs', _⟩
    · exact absurd (hs ▸ hb.mem_stack) not_mem_nil
    · cases hs.symm.trans hs'
    · cases hs.symm.trans hs'

/-! ### All memos -/

/-- Whether the bodies of all memos only read. -/
def State.MemosRead (L : Language S) (st : State S) : Prop :=
  ∀ c s code, st.graph.target? c = some s → st.graph.code? c = some code → ReadsOnly L (L.body code)

theorem State.MemosRead.of_step (hread : next.MemosRead L) (h : st.step? L = some next) :
    st.MemosRead L := by
  intro c s code ht hcode
  obtain ⟨hcode', ht'⟩ := code_target_step h (lt_size_of_target? ht)
  exact hread c s code (ht'.trans ht) (hcode'.trans hcode)

omit [BEq S.Value] in
theorem State.MemosRead.exists_code (hread : st.MemosRead L) (ht : st.graph.target? c = some s) :
    ∃ code, st.graph.code? c = some code ∧ ReadsOnly L (L.body code) := by
  cases hd : st.graph.computation? c with
  | none => simp [target?, hd] at ht
  | some d =>
    have hcode : st.graph.code? c = some d.code := congrArg (Option.map _) hd
    exact ⟨d.code, hcode, hread c s d.code ht hcode⟩

end Steps

end ReactiveMarkup.Reactive
