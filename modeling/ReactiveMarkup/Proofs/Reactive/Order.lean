/-
What holds of every state.

* `Orderly`: the graph is consistent, the frames stand as they should, nothing waits unless a
  batch is open, and no computation that is about to run is disposed;
* `Orderly.step`: steps keep all this, and `Session.orderly`: so it holds of every state that a
  program comes to.
-/
import ReactiveMarkup.Proofs.Reactive.Frames

namespace ReactiveMarkup.Reactive

open List State Reactive.Graph Reactive.Frame

variable {S : Setting}

structure State.Orderly (st : State S) : Prop where
  consistent : st.graph.Consistent
  running : ∀ c, st.control = .executing c → c < st.graph.computations.size
  current : ∀ c, st.graph.current = some c → c < st.graph.computations.size
  frames : ∀ f ∈ st.stack, ∀ c ∈ f.computations, c < st.graph.computations.size
  waiting : ∀ c ∈ st.graph.pending, c < st.graph.computations.size
  distinct : st.graph.pending.Nodup
  balanced : st.graph.depth = opened st.stack
  quiet : st.graph.depth = 0 → st.graph.pending = []
  poised : Poised st.graph st.control st.stack
  undisposed : ∀ c, .starting c ∈ st.stack → st.graph.isDisposed c = false
  stored : ∀ s, .storing s ∈ st.stack → ∃ c, st.graph.target? c = some s

variable {c : ComputationId} {s : SourceId}

namespace State

variable [BEq S.Value] {L : Language S} {st next : State S}

omit [BEq S.Value] in
theorem Orderly.lt_size_of_isLive (ho : st.Orderly) (h : st.isLive L c = true) :
    c < st.graph.computations.size := by
  simp only [isLive, liveComputations, engaged, contains_iff_mem, mem_append,
    mem_flatMap, Option.mem_toList] at h
  rcases h with (h | (h | h) | ⟨f, hf, h⟩) | ⟨s, -, h⟩
  · exact ho.waiting c h
  · cases hc : st.control with
    | executing d =>
      rw [hc] at h
      obtain rfl := mem_singleton.1 h
      exact ho.running c hc
    | _ => simp [hc] at h
  · exact ho.current c h
  · exact ho.frames f hf c h
  · exact ho.consistent.lt_size_of_mem_subscribers h

section

variable (h : st.step? L = some next)

include h

theorem size_le_of_step :
    st.graph.computations.size ≤ next.graph.computations.size := by
  obtain ⟨_, _, _, hg⟩ := graph_of_step h
  rw [hg]
  exact (st.event L).size_le_apply

theorem pending_of_step :
    next.graph.pending = ((st.event L).apply st.graph).pending := by
  obtain ⟨_, _, _, hg⟩ := graph_of_step h
  rw [hg]
  rfl

theorem value?_of_step (s : SourceId) :
    next.graph.value? s = ((st.event L).apply st.graph).value? s := by
  obtain ⟨_, _, _, hg⟩ := graph_of_step h
  rw [hg]
  rfl

theorem code_target_step (hc : c < st.graph.computations.size) :
    next.graph.code? c = st.graph.code? c ∧ next.graph.target? c = st.graph.target? c := by
  obtain ⟨_, _, _, hg⟩ := graph_of_step h
  rw [hg]
  exact (st.event L).code_target_apply hc

theorem target?_step (hc : st.graph.target? c = some s) :
    next.graph.target? c = some s :=
  (code_target_step h (lt_size_of_target? hc)).2.trans hc

theorem target?_of_step (ho : st.Orderly) (hc : next.graph.target? c = some s) :
    st.graph.target? c = some s ∨
      ∃ code, st.event L = .memo code ∧ c = st.graph.computations.size ∧
      s = st.graph.sources.size := by
  obtain ⟨_, _, _, hg⟩ := graph_of_step h
  rw [hg] at hc
  exact ((st.event L).target?_apply ho.current).1 hc

theorem isDisposed_of_step (ho : st.Orderly) :
    next.graph.isDisposed c = true ↔
      st.graph.isDisposed c = true ∨
      (st.event L = .dispose c ∧ c < st.graph.computations.size) := by
  obtain ⟨_, _, _, hg⟩ := graph_of_step h
  rw [hg]
  exact (st.event L).isDisposed_apply ho.current

end

theorem Orderly.track_lt (ho : st.Orderly) (he : st.event L = .track c s n) :
    c < st.graph.computations.size :=
  ho.current c (occasion_of_event he).1

theorem Orderly.mem_sourcesOf_step (ho : st.Orderly) (h : st.step? L = some next) :
    s ∈ next.graph.sourcesOf c ↔
      (s ∈ st.graph.sourcesOf c ∧ st.event L ≠ .start c ∧ st.event L ≠ .dispose c) ∨
        ∃ n, st.event L = .track c s n ∧ st.graph.Notes c s := by
  obtain ⟨_, _, _, hg⟩ := graph_of_step h
  rw [hg]
  exact (st.event L).mem_sourcesOf_apply ho.current fun _ _ _ he => ho.track_lt he

theorem Orderly.consistent_step (ho : st.Orderly) (h : st.step? L = some next) :
    next.graph.Consistent := by
  obtain ⟨_, _, _, hg⟩ := graph_of_step h
  rw [hg]
  exact ((st.event L).consistent_apply ho.current (fun _ _ _ he => ho.track_lt he)
    ho.consistent).congr rfl rfl

theorem Orderly.size_of_new (h : st.step? L = some next) {code}
    (he : st.event L = .memo code ∨ st.event L = .effect code) :
    next.graph.computations.size = st.graph.computations.size + 1 := by
  obtain ⟨_, _, _, hg⟩ := graph_of_step h
  rw [hg]
  rcases he with he | he
  · rw [he]
    exact size_addMemo st.graph code
  · rw [he]
    exact size_addComputation

section

variable (ho : st.Orderly) (h : st.step? L = some next)

include ho h

theorem Orderly.waiting_step :
    ∀ c ∈ next.graph.pending, c < st.graph.computations.size := by
  intro c hc
  rw [pending_of_step h, Event.pending_apply] at hc
  split at hc
  · rcases mem_foldl_insertLast.1 hc with hc | hc
    · exact ho.waiting c hc
    · exact ho.consistent.lt_size_of_mem_subscribers hc
  · exact ho.waiting c (mem_of_mem_erase hc)
  · cases hc
  · exact ho.waiting c hc

theorem Orderly.distinct_step :
    next.graph.pending.Nodup := by
  rw [pending_of_step h, Event.pending_apply]
  split
  · exact nodup_foldl_insertLast ho.distinct
  · exact ho.distinct.erase _
  · exact nodup_nil
  · exact ho.distinct

theorem Orderly.frames_step (hf : f ∈ next.stack)
    (hc : c ∈ f.computations) : c < st.graph.computations.size := by
  rcases mem_stack_of_step h hf with hf | hf
  · exact ho.frames f hf c hc
  · cases f with
    | starting d =>
      obtain rfl := mem_singleton.1 hc
      exact ho.running c hf.1
    | cleaning d l =>
      obtain rfl := mem_singleton.1 hc
      rcases hf with hf | ⟨r, a, l', rest, -, hf, rfl | hlive⟩
      · exact ho.running c hf
      · exact ho.frames (.cleaning c l') (hf ▸ .head _) c (.head _)
      · exact ho.lt_size_of_isLive hlive
    | restoring p =>
      cases p with
      | none => cases hc
      | some d =>
        obtain rfl := mem_singleton.1 hc
        exact ho.current c hf.1.symm
    | _ => cases hc

theorem Orderly.running_step
    (hc : next.control = .executing c) : c < next.graph.computations.size := by
  rcases executing_of_step h hc with he | ⟨⟨code, he⟩, rfl⟩
  · have hmem := mem_pending_of_next? (occasion_of_event he).1
    exact Nat.lt_of_lt_of_le (ho.waiting c hmem) (size_le_of_step h)
  · rw [size_of_new h he]
    exact Nat.lt_succ_self _

theorem Orderly.current_step
    (hc : next.graph.current = some c) : c < st.graph.computations.size := by
  rcases current_of_step h hc with hc | hc | ⟨r, rest, -, hs⟩
  · exact ho.current c hc
  · exact ho.frames _ hc c (.head _)
  · exact ho.frames (.starting c) (hs ▸ .head _) c (.head _)

end

theorem step_take (h : st.step? L = some next) (he : st.event L = .take c) :
    next = { st with graph := { st.graph with pending := st.graph.pending.erase c },
                     control := .executing c } := by
  obtain ⟨hn, r, s, rest, hr, hs⟩ := occasion_of_event he
  rw [next_giving h hr hs]
  simp only [stepFrame, takeNext?, hn, Option.map_some, withGraph, push, hs]

theorem mem_pending_step (h : st.step? L = some next) (ha : st.event L ≠ .abandon)
    (hc : c ∈ st.graph.pending) : c ∈ next.graph.pending ∨ next.control = .executing c := by
  by_cases ht : st.event L = .take c
  · rw [step_take h ht]
    exact .inr rfl
  · left
    rw [pending_of_step h, Event.pending_apply]
    split
    · exact mem_foldl_insertLast.2 (.inl hc)
    · rename_i d he
      refine (mem_erase_of_ne ?_).2 hc
      rintro rfl
      exact ht he
    · rename_i he
      exact absurd he ha
    · exact hc

theorem Orderly.value?_assign (ho : st.Orderly) (h : st.step? L = some next)
    (he : st.event L = .assign s v) : next.graph.value? s = some v := by
  -- A signal is there to be written, and a memo has had its source since it was made.
  have hsource : (st.graph.source? s).isSome := by
    obtain ⟨-, ⟨hsignal, -⟩ | ⟨r, rest, -, hs, -⟩⟩ := occasion_of_event he
    · rw [isSignal, Option.any_eq_true] at hsignal
      obtain ⟨d, hd, -⟩ := hsignal
      rw [hd]
      rfl
    · obtain ⟨c, hc⟩ := ho.stored s (hs ▸ .head _)
      exact isSome_source?_of_maker? ((ho.consistent.made s c).1 hc)
  rw [value?_of_step h, Event.value?_apply, he]
  exact if_pos ⟨rfl, hsource⟩

theorem value?_isSome_step (h : st.step? L = some next) (hs : (st.graph.value? s).isSome) :
    (next.graph.value? s).isSome := by
  rw [value?_of_step h, Event.value?_apply]
  split
  · split
    · rfl
    · exact hs
  · split
    · rfl
    · exact hs
  · exact hs

theorem mem_pending_assign (h : st.step? L = some next) (he : st.event L = .assign s v)
    (hc : c ∈ st.graph.subscribers s) : c ∈ next.graph.pending := by
  rw [pending_of_step h, he]
  exact mem_foldl_insertLast.2 (.inr hc)

section

variable (ho : st.Orderly) (h : st.step? L = some next)

include ho h

/-- A step that closes the last batch finds nothing waiting, unless it starts to drain or gives
up on what waits. -/
theorem Orderly.pending_eq_nil
    (h0 : next.graph.depth = 0) (ht : ∀ c, st.event L ≠ .take c) (ha : st.event L ≠ .abandon) :
    st.graph.pending = [] := by
  have hnext : opened next.stack = 0 := (balanced_step h ho.poised ho.balanced).symm.trans h0
  by_cases hd : st.graph.depth = 0
  · exact ho.quiet hd
  · have hst : opened st.stack ≠ 0 := ho.balanced ▸ hd
    -- The step takes a frame away, and this frame stood for the last batch.
    cases restacks_step h with
    | keeps new hs _ _ =>
      rw [hs.stack, opened_append] at hnext
      omega
    | gives r f rest new hr hs hn =>
      rw [hn.stack, opened_append] at hnext
      rw [hs, opened] at hst
      cases f with
      | batching k =>
        -- A drain follows, and counts as a batch.
        rw [next_giving h hr hs] at h0
        simp only [stepFrame] at h0
        split at h0
        · cases h0
        · rename_i hne
          exact absurd h0 hne
      | draining s =>
        rw [event_giving hr hs, frameEvent] at ht
        rw [← next?_eq_none]
        cases hc : st.graph.next? with
        | none => rfl
        | some c => exact absurd (by rw [hc]) (ht c)
      | _ =>
        simp only [opens] at hst
        omega
    | fails message f rest hm hs hn =>
      rw [hn.stack, nil_append] at hnext
      rw [hs, opened] at hst
      have hdepth : st.graph.depth = f.opens + opened rest := by rw [ho.balanced, hs, opened]
      rw [event_failing hm hs] at ha
      cases f with
      | batching k =>
        simp only [opens] at hdepth
        exact absurd (if_pos (by omega)) ha
      | draining s => exact absurd rfl ha
      | _ =>
        simp only [opens] at hst
        omega

theorem Orderly.quiet_step (h0 : next.graph.depth = 0) : next.graph.pending = [] := by
  rw [pending_of_step h, Event.pending_apply]
  split
  · rename_i s v he
    exact absurd h0 (depth_assign_ne_zero h he)
  · rename_i c he
    obtain ⟨-, r, s, rest, -, hs⟩ := occasion_of_event he
    have hb := balanced_step h ho.poised ho.balanced
    rw [h0, step_take h he] at hb
    simp only [hs, opened, opens] at hb
    omega
  · rfl
  · rename_i hna hnt hnb
    exact ho.pending_eq_nil h h0 hnt hnb

theorem Orderly.undisposed_step
    (hc : .starting c ∈ next.stack) : next.graph.isDisposed c = false := by
  rw [Bool.eq_false_iff, Ne, isDisposed_of_step h ho]
  rintro (hd | ⟨he, -⟩)
  · rcases mem_stack_of_step h hc with hc | hc
    · exact absurd hd (by rw [ho.undisposed c hc]; exact Bool.false_ne_true)
    · exact absurd hd (by rw [hc.2]; exact Bool.false_ne_true)
  · obtain ⟨-, r, d, l, rest, hr, hs⟩ := occasion_of_event he
    rcases mem_stack_of_step h hc with hc | hc
    · -- Who disposes of `c` is younger than all that are about to run.
      have hp := ho.poised
      rw [hr, hs] at hp
      cases hp with
      | giving hseats =>
        have hc : .starting c ∈ rest := by
          rw [hs] at hc
          exact (mem_cons.1 hc).resolve_left (by simp)
        exact Nat.lt_irrefl c (hseats.1 c (.head _) c hc)
    · cases hr.symm.trans hc.1

theorem Orderly.stored_step
    (hs : .storing s ∈ next.stack) : ∃ c, next.graph.target? c = some s := by
  rcases mem_stack_of_step h hs with hs | ⟨r, c, rest, -, -, ht, -⟩
  · obtain ⟨c, ht⟩ := ho.stored s hs
    exact ⟨c, target?_step h ht⟩
  · exact ⟨c, target?_step h ht⟩

theorem Orderly.step : next.Orderly where
  consistent := ho.consistent_step h
  running _ hc := ho.running_step h hc
  current _ hc := Nat.lt_of_lt_of_le (ho.current_step h hc) (size_le_of_step h)
  frames _ hf _ hc := Nat.lt_of_lt_of_le (ho.frames_step h hf hc) (size_le_of_step h)
  waiting c hc := Nat.lt_of_lt_of_le (ho.waiting_step h c hc) (size_le_of_step h)
  distinct := ho.distinct_step h
  balanced := balanced_step h ho.poised ho.balanced
  quiet := ho.quiet_step h
  poised := poised_step h ho.poised ho.consistent ho.balanced fun hc =>
    Nat.lt_irrefl _ (ho.current _ hc)
  undisposed _ hc := ho.undisposed_step h hc
  stored _ hs := ho.stored_step h hs

end

end State

/-! ### Sessions -/

/-- The states that a program has come through, the latest first, and the one that it is in.  A
program is a number of pieces of code at top level.  Each begins when the one before is over, also
if that one failed. -/
inductive Session [BEq S.Value] (L : Language S) : List (State S) → State S → Prop
  | start (host : S.Host) (a : Action S S.Result) : Session L [] { host, control := .acting a }
  | step {past : List (State S)} {st next : State S} : Session L past st →
      st.step? L = some next → Session L (st :: past) next
  | again {past : List (State S)} {st : State S} (host : S.Host) (a : Action S S.Result) :
      Session L past st → st.step? L = none →
        Session L (st :: past) { st with host, control := .acting a }

namespace Session

variable [BEq S.Value] {L : Language S} {past : List (State S)} {st : State S}

theorem stack_eq_nil (h : st.step? L = none) : st.stack = [] := by
  unfold step? at h
  split at h
  · cases h
  · split at h <;> cases h
  · split at h
    · assumption
    · cases h
  · split at h
    · assumption
    · cases h

theorem event_of_end (h : st.step? L = none) : st.event L = .idle := by
  have hs := stack_eq_nil h
  cases hc : st.control with
  | acting a =>
    simp only [step?, hc] at h
    cases h
  | executing c =>
    simp only [step?, hc] at h
    split at h <;> exact absurd h (by simp)
  | giving _ | failing _ => simp only [event, hc, hs]

theorem orderly (h : Session L past st) : st.Orderly := by
  induction h with
  | start host a =>
    exact ⟨consistent_empty, by simp, by simp, by simp, by simp, by simp, rfl, fun _ => rfl,
      .acting trivial, by simp, by simp⟩
  | step _ hstep ih => exact ih.step hstep
  | @again past st host a _ hend ih =>
    have hs : st.stack = [] := stack_eq_nil hend
    exact { ih with
      running := by simp
      poised := .acting (hs ▸ trivial) }

end Session

/-! ### Steps -/

/-- The states that steps go through from a state on, the latest first, and the one that they lead
to. -/
inductive Steps [BEq S.Value] (L : Language S) (start : State S) : List (State S) → State S → Prop
  | refl : Steps L start [] start
  | step {during : List (State S)} {st next : State S} : Steps L start during st →
      st.step? L = some next → Steps L start (st :: during) next

section Steps

variable [BEq S.Value] {L : Language S} {past during : List (State S)} {start st next : State S}

theorem Session.steps (h : Session L past start) (hs : Steps L start during st) :
    Session L (during ++ past) st := by
  induction hs with
  | refl => exact h
  | step _ hstep ih => exact ih.step hstep

theorem Steps.head (h : start.step? L = some next) (hs : Steps L next during st) :
    Steps L start (during ++ [start]) st := by
  induction hs with
  | refl => exact .step .refl h
  | step _ hstep ih => exact ih.step hstep

theorem Steps.value?_isSome (hs : Steps L start during st) (hv : (start.graph.value? s).isSome) :
    (st.graph.value? s).isSome := by
  induction hs with
  | refl => exact hv
  | step _ hstep ih => exact value?_isSome_step hstep ih

variable (L) in
/-- The states that a run of so many steps goes through, the latest first. -/
def trail : Nat → State S → List (State S)
  | 0, _ => []
  | n + 1, st =>
    match st.step? L with
    | none => []
    | some next => trail n next ++ [st]

theorem steps_run (n : Nat) (st : State S) : Steps L st (trail L n st) (st.run L n) := by
  induction n generalizing st with
  | zero => exact .refl
  | succ n ih =>
    simp only [trail, run]
    cases h : st.step? L with
    | none => exact .refl
    | some next => exact (ih next).head h

end Steps

/-- Whether the code of a computation is just about to start. -/
def State.begins (st : State S) (c : ComputationId) : Bool :=
  match st.control, st.stack with
  | .giving _, .starting d :: _ => d == c
  | _, _ => false

theorem State.begins_iff {st : State S} :
    st.begins c = true ↔ ∃ r rest, st.control = .giving r ∧ st.stack = .starting c :: rest := by
  unfold begins
  split
  · rename_i r d rest hr hs
    rw [hr, hs, beq_iff_eq]
    constructor
    · rintro rfl
      exact ⟨r, rest, rfl, rfl⟩
    · rintro ⟨-, rest', -, hs'⟩
      exact starting.inj (List.cons.inj hs').1
  · rename_i hne
    constructor
    · intro h
      cases h
    · rintro ⟨r, rest, hr, hs⟩
      exact absurd hs (hne r c rest hr)

end ReactiveMarkup.Reactive
