/-
What a drain works on.

A drain takes computations one after the other and runs each to its end before it
takes the next.  So its frame stays where it is, and what stands on it tells what
the drain is at: nothing, a memo, or an effect.  A memo whose code only reads makes
nothing else run.
-/
import ReactiveMarkup.Proofs.Reactive.Bodies

namespace ReactiveMarkup.Reactive

open List State Reactive.Frame

variable {S : Setting}

/-- The states of a drain, the latest first, and the one that it is in.  The drain lasts while there
are more frames on the stack than under it. -/
inductive Drain [BEq S.Value] (L : Language S) (x : Option SourceId) (base : List (Frame S))
    (start : State S) : List (State S) → State S → Prop
  | begin {r : S.Result} : start.control = .giving r → start.stack = .draining x :: base →
      Drain L x base start [] start
  | step {during : List (State S)} {st next : State S} : Drain L x base start during st →
      st.step? L = some next → base.length < next.stack.length →
      Drain L x base start (st :: during) next

variable [BEq S.Value] {L : Language S} {x : Option SourceId} {base : List (Frame S)}
  {start st next : State S} {during past : List (State S)} {c d : ComputationId} {s : SourceId}
  {code : S.Code}

namespace Drain

theorem steps (hd : Drain L x base start during st) : Steps L start during st := by
  induction hd with
  | begin _ _ => exact .refl
  | step _ hstep _ ih => exact ih.step hstep

theorem giving (hd : Drain L x base start during st) : ∃ r, start.control = .giving r := by
  induction hd with
  | begin hr _ => exact ⟨_, hr⟩
  | step _ _ _ ih => exact ih

theorem session (hd : Drain L x base start during st) (h : Session L past start) :
    Session L (during ++ past) st :=
  h.steps hd.steps

theorem of_run (hr : start.control = .giving r) (hs : start.stack = .draining x :: base) (n : Nat)
    (hwithin : ∀ t ∈ start.run L n :: trail L n start, base.length < t.stack.length) :
    Drain L x base start (trail L n start) (start.run L n) := by
  have hsteps : Steps L start (trail L n start) (start.run L n) := steps_run n start
  generalize trail L n start = during at hsteps hwithin
  generalize start.run L n = st at hsteps hwithin
  induction hsteps with
  | refl => exact .begin hr hs
  | step _ hstep ih =>
    refine .step (ih fun t ht => hwithin t (.tail _ ht)) hstep ?_
    exact hwithin _ (.head _)

end Drain

variable {above rest : List (Frame S)}

theorem State.over_step (h : st.step? L = some next) (hs : st.stack = f :: above ++ rest) :
    ∃ new, (∀ g ∈ new, st.Pushes L g) ∧
      (next.stack = new ++ f :: above ++ rest ∨ next.stack = new ++ above ++ rest) := by
  cases restacks_step h with
  | keeps new hn _ _ =>
    refine ⟨new, hn.pushes, .inl ?_⟩
    rw [hn.stack, hs, append_assoc]
  | gives _ _ lower _ _ hst hn | fails _ _ lower _ hst hn =>
    have hlower : lower = above ++ rest := (List.cons.inj (hst.symm.trans hs)).2
    refine ⟨_, hn.pushes, .inr ?_⟩
    rw [hn.stack, hlower, append_assoc]

theorem State.under_step (h : st.step? L = some next) (hs : st.stack = above ++ f :: rest) :
    (∃ above', next.stack = above' ++ f :: rest) ∨
      (above = [] ∧
        ((∃ r, st.control = .giving r ∧ next = { st with stack := rest }.stepFrame L r f) ∨
          ∃ m, st.control = .failing m ∧ next = { st with stack := rest }.unwind m f)) := by
  cases above with
  | cons g above =>
    obtain ⟨new, -, hn | hn⟩ := over_step h hs
    · exact .inl ⟨new ++ g :: above, hn⟩
    · exact .inl ⟨new ++ above, hn⟩
  | nil =>
    have hs : st.stack = f :: rest := hs
    cases restacks_step h with
    | keeps new hn _ _ => exact .inl ⟨new, by rw [hn.stack, hs]⟩
    | gives r _ _ _ hr _ _ =>
      exact .inr ⟨rfl, .inl ⟨r, hr, next_giving h hr hs⟩⟩
    | fails m _ _ hm _ _ =>
      exact .inr ⟨rfl, .inr ⟨m, hm, next_failing h hm hs⟩⟩

theorem State.above_step (h : st.step? L = some next) (hs : st.stack = above ++ .draining x :: base)
    (hlen : base.length < next.stack.length) :
    ∃ above', next.stack = above' ++ .draining x :: base := by
  rcases under_step h hs with hn | ⟨-, ⟨r, hr, rfl⟩ | ⟨m, hm, rfl⟩⟩
  · exact hn
  · simp only [stepFrame] at hlen ⊢
    split at hlen
    · exact ⟨[], rfl⟩
    · exact absurd hlen (Nat.lt_irrefl _)
  · exact absurd hlen (Nat.lt_irrefl _)

theorem Drain.stack (hd : Drain L x base start during st) :
    ∃ above, st.stack = above ++ .draining x :: base := by
  induction hd with
  | begin _ hs => exact ⟨[], hs⟩
  | step _ hstep hlen ih =>
    obtain ⟨above, hs⟩ := ih
    exact above_step hstep hs hlen

omit [BEq S.Value] in
theorem Seats.drain_unique (above : List (Frame S)) {above' lower : List (Frame S)}
    {y : Option SourceId} (h : Seats (above ++ .draining x :: base))
    (hs : above ++ .draining x :: base = above' ++ .draining y :: lower) :
    above' = above ∧ y = x ∧ lower = base := by
  -- No batch is open under a drain, and a second drain would count as one.
  have hbase : opened base = 0 := h.seated
  have hlower : opened lower = 0 := (hs ▸ h).seated
  rcases append_eq_append_iff.1 hs with ⟨mid, rfl, hmid⟩ | ⟨mid, rfl, hmid⟩
  · cases mid with
    | nil =>
      obtain ⟨hy, rfl⟩ := List.cons.inj hmid
      exact ⟨append_nil _, (draining.inj hy).symm, rfl⟩
    | cons f mid =>
      have hin : base = mid ++ .draining y :: lower := (List.cons.inj hmid).2
      rw [hin, opened_append] at hbase
      simp only [opened, opens] at hbase
      omega
  · cases mid with
    | nil =>
      obtain ⟨hy, rfl⟩ := List.cons.inj hmid
      exact ⟨(append_nil _).symm, draining.inj hy, rfl⟩
    | cons f mid =>
      have hin : lower = mid ++ .draining x :: base := (List.cons.inj hmid).2
      rw [hin, opened_append] at hlower
      simp only [opened, opens] at hlower
      omega

/-! ### A drain at work -/

/-- A drain is at nothing: it is about to take the next computation, or is over. -/
def Idle (x : Option SourceId) (base : List (Frame S)) (st : State S) : Prop :=
  st.stack = .draining x :: base ∧
    ((∃ r, st.control = .giving r) ∨ ∃ message, st.control = .failing message)

/-- A drain is at a memo whose code only reads. -/
inductive MemoWork (L : Language S) (x : Option SourceId) (base : List (Frame S)) (st : State S)
    (c : ComputationId) (s : SourceId) : Prop
  | called : st.control = .executing c → st.stack = .draining x :: base → MemoWork L x base st c s
  | clearing (r : S.Result) : st.control = .giving r →
      st.stack = .cleaning c [] :: .starting c :: .draining x :: base → MemoWork L x base st c s
  | entering (r : S.Result) : st.control = .giving r →
      st.stack = .starting c :: .draining x :: base → MemoWork L x base st c s
  | body (above : List (Frame S)) (p : Option ComputationId) :
      InBody L st c s above p (.draining x :: base) → MemoWork L x base st c s
  | leaving (p : Option ComputationId) : st.stack = .restoring p :: .draining x :: base →
      ((∃ r, st.control = .giving r) ∨ ∃ message, st.control = .failing message) →
      MemoWork L x base st c s

/-- A drain is at an effect.  No memo that the drain itself has taken is running. -/
inductive EffectWork (x : Option SourceId) (base : List (Frame S)) (st : State S)
    (c : ComputationId) : Prop
  | called : st.control = .executing c → st.stack = .draining x :: base → EffectWork x base st c
  | entering (above : List (Frame S)) : st.stack = above ++ .starting c :: .draining x :: base →
      EffectWork x base st c
  | inside (above : List (Frame S)) (p : Option ComputationId) :
      st.stack = above ++ .restoring p :: .draining x :: base →
      (∀ s, above.getLast? ≠ some (.storing s)) → EffectWork x base st c

theorem State.step_executing (h : st.step? L = some next) (hc : st.control = .executing c) :
    (st.graph.isDisposed c = true ∧ next = st.give L.nothing) ∨
      (st.graph.isDisposed c = false ∧ next.control = .giving L.nothing ∧
        next.stack = .cleaning c (st.graph.cleanups c) :: .starting c :: st.stack) := by
  by_cases hd : st.graph.isDisposed c = true
  · exact .inl ⟨hd, by simpa [step?, hc, hd] using h.symm⟩
  · have hd : st.graph.isDisposed c = false := Bool.eq_false_iff.2 hd
    rw [next_starting h hc hd]
    exact .inr ⟨hd, rfl, rfl⟩

variable {p : Option ComputationId}

theorem InBody.event_cases (hb : InBody L st c s above p rest) :
    st.event L = .idle ∨ (∃ t n, st.event L = .track c t n) ∨
      ∃ w, above = [] ∧ st.event L = .assign s w := by
  rcases hb.control with ⟨a, ha, honly⟩ | ⟨r, hr⟩ | ⟨message, hm⟩
  · rw [event_acting ha]
    cases honly with
    | read _ =>
      simp only [actionEvent, hb.current]
      exact .inr (.inl ⟨_, _, rfl⟩)
    | _ => exact .inl rfl
  · cases above with
    | nil =>
      rw [event_giving hr hb.stack, frameEvent]
      split
      · exact .inl rfl
      · exact .inr (.inr ⟨_, rfl, rfl⟩)
    | cons f above =>
      have hplain := hb.plain f (.head _)
      rw [event_giving hr hb.stack]
      cases f with
      | returning held k => exact .inl rfl
      | _ => exact hplain.elim
  · cases above with
    | nil => exact .inl (event_failing hm hb.stack)
    | cons f above =>
      have hplain := hb.plain f (.head _)
      rw [event_failing hm hb.stack]
      cases f with
      | returning held k => exact .inl rfl
      | _ => exact hplain.elim

/-- What happens next when a drain is at a memo. -/
inductive MemoStep (L : Language S) (x : Option SourceId) (base : List (Frame S))
    (st next : State S) (c : ComputationId) (s : SourceId) : Prop
  | ends : st.event L = .idle → Idle x base next → MemoStep L x base st next c s
  | starts : st.event L = .start c → st.stack = .draining x :: base → MemoWork L x base next c s →
      MemoStep L x base st next c s
  | goes : (st.event L = .idle ∨ ∃ t n, st.event L = .track c t n) →
      (∀ d, st.control ≠ .executing d) → (∀ p, st.stack ≠ .restoring p :: .draining x :: base) →
        MemoWork L x base next c s →
      MemoStep L x base st next c s
  | stores (w : S.Value) (p : Option ComputationId) : st.event L = .assign s w →
      st.stack = .storing s :: .restoring p :: .draining x :: base →
      next.stack = .restoring p :: .draining x :: base → MemoWork L x base next c s →
      MemoStep L x base st next c s

theorem MemoWork.step_body (hb : InBody L st c s above p (.draining x :: base)) (ho : st.Orderly)
    (h : st.step? L = some next) : MemoStep L x base st next c s := by
  have hnot : ∀ p', st.stack ≠ .restoring p' :: .draining x :: base := by
    intro p' hs
    rcases hb.top hs with ⟨hf, -⟩ | ⟨_, hf, -⟩
    · cases hf
    · exact hf.elim
  -- No other drain starts when the value is stored.
  have leaves : ∀ {r : S.Result}, above = [] → st.control = .giving r →
      next.stack = .restoring p :: .draining x :: base ∧ ∃ r', next.control = .giving r' := by
    intro r habove hctl
    have hs : st.stack = .storing s :: .restoring p :: .draining x :: base := by
      rw [hb.stack, habove, nil_append]
    have hdepth : st.graph.depth ≠ 0 := by
      have hopen := ho.balanced
      rw [hs] at hopen
      simp only [opened, opens] at hopen
      omega
    rw [next_giving h hctl hs]
    simp only [stepFrame]
    split
    · exact ⟨rfl, _, rfl⟩
    · split
      · rename_i h0
        exact absurd h0 hdepth
      · exact ⟨rfl, _, rfl⟩
  have goes : (st.event L = .idle ∨ ∃ t n, st.event L = .track c t n) →
      MemoStep L x base st next c s := by
    intro he
    refine .goes he (fun _ => hb.not_executing) hnot ?_
    rcases hb.step h with ⟨above', hb'⟩ | ⟨habove, ⟨r, hctl, -⟩ | ⟨m, hm, rfl⟩⟩
    · exact .body above' p hb'
    · obtain ⟨hs, r', hr'⟩ := leaves habove hctl
      exact .leaving p hs (.inl ⟨r', hr'⟩)
    · exact .leaving p rfl (.inr ⟨m, hm⟩)
  rcases hb.event_cases with he | he | ⟨w, habove, he⟩
  · exact goes (.inl he)
  · exact goes (.inr he)
  · obtain ⟨-, ⟨-, k, ha⟩ | ⟨r, _, hr, -⟩⟩ := occasion_of_event he
    · cases hb.readsOnly ha
    · obtain ⟨hs, r', hr'⟩ := leaves habove hr
      refine .stores w p he ?_ hs (.leaving p hs (.inl ⟨r', hr'⟩))
      rw [hb.stack, habove, nil_append]

theorem MemoWork.step_cases (hm : MemoWork L x base st c s) (hc : Confined L st c s)
    (ho : st.Orderly) (ht : st.graph.target? c = some s) (hcode : st.graph.code? c = some code)
    (hr : ReadsOnly L (L.body code)) (h : st.step? L = some next) :
    MemoStep L x base st next c s := by
  cases hm with
  | called hctl hs =>
    rcases step_executing h hctl with ⟨hd, rfl⟩ | ⟨hd, hctl', hs'⟩
    · refine .ends ?_ ⟨hs, .inl ⟨_, rfl⟩⟩
      rw [event_executing hctl, if_pos hd]
    · rw [hc.clean, hs] at hs'
      refine .starts ?_ hs (.clearing _ hctl' hs')
      rw [event_executing hctl, if_neg (by simp [hd])]
  | clearing r hctl hs =>
    refine .goes (.inl (event_giving hctl hs)) (by simp [hctl]) (by simp [hs]) ?_
    rw [next_giving h hctl hs]
    exact .entering _ rfl rfl
  | entering r hctl hs =>
    refine .goes (.inl (event_giving hctl hs)) (by simp [hctl]) (by simp [hs]) ?_
    rw [step_begin h hctl hs ht hcode]
    split
    · exact .body [] _ (hc.inBody_begin ho ht hr hctl hs)
    · exact .leaving _ rfl (.inl ⟨_, rfl⟩)
  | body above p hb => exact step_body hb ho h
  | leaving p hs hctl =>
    rcases hctl with ⟨r, hr⟩ | ⟨m, hm⟩
    · rw [next_giving h hr hs]
      exact .ends (event_giving hr hs) ⟨rfl, .inl ⟨_, rfl⟩⟩
    · rw [next_failing h hm hs]
      exact .ends (event_failing hm hs) ⟨rfl, .inr ⟨m, hm⟩⟩

theorem EffectWork.step_entering (ht : st.graph.target? c = none)
    (hs : st.stack = above ++ .starting c :: .draining x :: base) (h : st.step? L = some next) :
    EffectWork x base next c ∨ Idle x base next := by
  rcases under_step h hs with ⟨above', hn⟩ | ⟨-, ⟨r, hr, rfl⟩ | ⟨m, hm, rfl⟩⟩
  · exact .inl (.entering above' hn)
  · -- An effect has no value to store.
    refine .inl (.inside [] st.graph.current ?_ (by simp))
    simp only [stepFrame]
    split
    · rfl
    · rename_i d hd
      have ht' : d.target = none := by
        rw [← ht]
        exact (congrArg (Option.bind · fun e : Computation S.Code => e.target) hd).symm
      rw [ht']
      rfl
  · exact .inr ⟨rfl, .inr ⟨m, hm⟩⟩

theorem EffectWork.step_inside (ho : st.Orderly)
    (hs : st.stack = above ++ .restoring p :: .draining x :: base)
    (hlast : ∀ s, above.getLast? ≠ some (.storing s)) (h : st.step? L = some next) :
    EffectWork x base next c ∨ Idle x base next := by
  -- A frame that stores a value comes only where a computation was about to start.
  have fresh : ∀ {new : List (Frame S)} {s : SourceId}, (∀ g ∈ new, st.Pushes L g) →
      new.getLast? = some (.storing s) → ∃ r d rest, st.control = .giving r ∧
        st.stack = .starting d :: rest := by
    intro new s hp hl
    obtain ⟨r, d, rest, hr, hst, -⟩ := hp _ (mem_of_getLast? hl)
    exact ⟨r, d, rest, hr, hst⟩
  cases above with
  | nil =>
    cases restacks_step h with
    | keeps new hn hgive _ =>
      refine .inl (.inside new p (by rw [hn.stack, hs]; rfl) fun s hl => ?_)
      obtain ⟨r, -, -, hr, -⟩ := fresh hn.pushes hl
      exact hgive r hr
    | fails m _ _ hm _ _ =>
      rw [next_failing h hm hs]
      exact .inr ⟨rfl, .inr ⟨m, hm⟩⟩
    | gives r _ _ _ hr _ _ =>
      rw [next_giving h hr hs]
      exact .inr ⟨rfl, .inl ⟨r, rfl⟩⟩
  | cons f above =>
    obtain ⟨new, hp, hn | hn⟩ := over_step h hs
    · refine .inl (.inside (new ++ f :: above) p hn fun s hl => hlast s ?_)
      simpa using hl
    · refine .inl (.inside (new ++ above) p hn fun s hl => ?_)
      cases above with
      | cons g above =>
        refine hlast s ?_
        simpa using hl
      | nil =>
        -- What was about to start stood on a drain or on the frame of its maker, not here.
        rw [append_nil] at hl
        obtain ⟨r, d, rest, hr, hst⟩ := fresh hp hl
        have hstack : starting d :: rest = f :: .restoring p :: .draining x :: base :=
          hst.symm.trans hs
        cases hstack
        have hpoised := ho.poised
        rw [hr, hst] at hpoised
        cases hpoised with
        | giving hseats =>
          obtain ⟨_, _, hbelow⟩ := hseats.1
          cases hbelow
        | entering _ hfirst =>
          rcases hfirst.maker with ⟨_, _, _, hbelow, -⟩ | ⟨_, _, hbelow, -⟩ <;> cases hbelow

theorem EffectWork.step (he : EffectWork x base st c) (ho : st.Orderly)
    (ht : st.graph.target? c = none) (h : st.step? L = some next) :
    EffectWork x base next c ∨ Idle x base next := by
  cases he with
  | called hctl hs =>
    rcases step_executing h hctl with ⟨-, rfl⟩ | ⟨-, -, hs'⟩
    · exact .inr ⟨hs, .inl ⟨_, rfl⟩⟩
    · rw [hs] at hs'
      exact .inl (.entering [.cleaning c _] hs')
  | entering above hs => exact step_entering ht hs h
  | inside above p hs hlast => exact step_inside ho hs hlast h

theorem State.Orderly.above_of_take (ho : st.Orderly) (above : List (Frame S))
    (hs : st.stack = above ++ .draining x :: base) (he : st.event L = .take d) :
    above = [] ∧ ∃ r, st.control = .giving r := by
  obtain ⟨-, r, y, lower, hr, hst⟩ := occasion_of_event he
  have hp := ho.poised
  rw [hr, hst] at hp
  have hseats : Seats (.draining y :: lower) := hp.seats_of_giving trivial
  have hunique := Seats.drain_unique [] hseats (hst.symm.trans hs)
  exact ⟨hunique.1, r, hr⟩

/-- A drain takes nothing while there is something on its frame. -/
theorem State.Orderly.not_take (ho : st.Orderly) (above : List (Frame S))
    (hs : st.stack = above ++ f :: .draining x :: base) : st.event L ≠ .take d := by
  intro he
  have hs : st.stack = (above ++ [f]) ++ .draining x :: base := by
    rw [hs, append_assoc]
    rfl
  exact absurd (ho.above_of_take _ hs he).1 (by simp)

theorem MemoWork.not_take (hm : MemoWork L x base st c s) (ho : st.Orderly) :
    st.event L ≠ .take d := by
  intro he
  cases hm with
  | called hctl hs =>
    obtain ⟨-, r, hr⟩ := ho.above_of_take [] hs he
    cases hctl.symm.trans hr
  | clearing _ _ hs => exact ho.not_take [.cleaning c []] hs he
  | entering _ _ hs | leaving _ hs => exact ho.not_take [] hs he
  | body above p hb =>
    have hs : st.stack = (above ++ [.storing s]) ++ .restoring p :: .draining x :: base := by
      rw [hb.stack, append_assoc]
      rfl
    exact ho.not_take _ hs he

theorem EffectWork.not_take (hw : EffectWork x base st c) (ho : st.Orderly) :
    st.event L ≠ .take d := by
  intro he
  cases hw with
  | called hctl hs =>
    obtain ⟨-, r, hr⟩ := ho.above_of_take [] hs he
    cases hctl.symm.trans hr
  | entering above hs | inside above _ hs => exact ho.not_take above hs he

/-- What a drain is at, and for which computation. -/
inductive Work (L : Language S) (x : Option SourceId) (base : List (Frame S)) (st : State S) :
    Option ComputationId → Prop
  | idle : Idle x base st → Work L x base st none
  | memo {c : ComputationId} {s : SourceId} : st.graph.target? c = some s →
      MemoWork L x base st c s → Work L x base st (some c)
  | effect {c : ComputationId} : c < st.graph.computations.size → st.graph.target? c = none →
      EffectWork x base st c → Work L x base st (some c)

/-- A drain that is at nothing takes the next computation, if it goes on. -/
theorem Idle.take (hidle : Idle x base st) (h : st.step? L = some next)
    (hlen : base.length < next.stack.length) : ∃ c, st.event L = .take c := by
  obtain ⟨hs, ⟨r, hr⟩ | ⟨m, hm⟩⟩ := hidle
  · cases hn : st.graph.next? with
    | none =>
      rw [next_giving h hr hs] at hlen
      simp only [stepFrame, Graph.takeNext?, hn] at hlen
      exact absurd hlen (Nat.lt_irrefl _)
    | some c => exact ⟨c, by rw [event_giving hr hs, frameEvent, hn]⟩
  · rw [next_failing h hm hs] at hlen
    exact absurd hlen (Nat.lt_irrefl _)

/-- A drain takes the next computation, or goes on with the one that it is at. -/
theorem Work.step {job} (hw : Work L x base st job) (hsess : Session L past st)
    (hread : st.MemosRead L) (h : st.step? L = some next) (hlen : base.length < next.stack.length) :
    (∃ c, job = none ∧ st.event L = .take c ∧ Work L x base next (some c)) ∨
      ((∀ c, st.event L ≠ .take c) ∧ (Work L x base next job ∨ Work L x base next none)) := by
  have ho : st.Orderly := hsess.orderly
  cases hw with
  | idle hidle =>
    obtain ⟨c, he⟩ := hidle.take h hlen
    refine .inl ⟨c, rfl, he, ?_⟩
    have hlt : c < st.graph.computations.size :=
      ho.waiting c (Graph.mem_pending_of_next? (occasion_of_event he).1)
    rw [step_take h he]
    cases ht : st.graph.target? c with
    | none => exact .effect hlt ht (.called rfl hidle.1)
    | some s => exact .memo ht (.called rfl hidle.1)
  | @memo c s ht hm =>
    obtain ⟨code, hcode, hr⟩ := hread.exists_code ht
    refine .inr ⟨fun d => hm.not_take ho, ?_⟩
    have ht' := target?_step h ht
    cases hm.step_cases (hsess.confined ht hcode hr) ho ht hcode hr h with
    | ends _ hidle => exact .inr (.idle hidle)
    | starts _ _ hm' | goes _ _ _ hm' | stores _ _ _ _ _ hm' => exact .inl (.memo ht' hm')
  | @effect c hlt ht he =>
    refine .inr ⟨fun d => he.not_take ho, ?_⟩
    rcases he.step ho ht h with he' | hidle
    · have hlt' := Nat.lt_of_lt_of_le hlt (size_le_of_step h)
      exact .inl (.effect hlt' ((code_target_step h hlt).2.trans ht) he')
    · exact .inr (.idle hidle)

theorem State.Orderly.not_abandon (ho : st.Orderly) (hs : st.stack = above ++ .draining x :: base)
    (h : st.step? L = some next) (hlen : base.length < next.stack.length) :
    st.event L ≠ .abandon := by
  intro he
  obtain ⟨m, hm⟩ := occasion_of_event he
  cases above with
  | nil =>
    rw [next_failing h hm hs] at hlen
    exact absurd hlen (Nat.lt_irrefl _)
  | cons f above =>
    have hs : st.stack = f :: (above ++ .draining x :: base) := hs
    rw [event_failing hm hs] at he
    -- With the drain on the stack, the batch that the failure leaves is not the last.
    have hseats := (hm ▸ ho.poised).seats_of_failing
    have hopen := ho.balanced
    rw [hs, opened, opened_append, opened] at hopen
    cases f with
    | batching k =>
      simp only [failureEvent, opens] at he hopen
      split at he
      · omega
      · cases he
    | draining y =>
      have hdrain : opened (above ++ .draining x :: base) = 0 := (hs ▸ hseats).1
      rw [opened_append] at hdrain
      simp only [opened, opens] at hdrain
      omega
    | _ => exact absurd he (by simp [failureEvent])

/-- When nothing is written while a drain is at no memo, a source that gets a value had none, and
nobody had read it: it is that of a memo that has just been made. -/
theorem Work.assign_new {job} (hw : Work L x base st job)
    (hjob : ∀ c, job = some c → st.graph.target? c = none) (hsess : Session L past st)
    (hread : st.MemosRead L) (hwrite : ∀ s v k, st.control ≠ .acting (.write s v k))
    (he : st.event L = .assign s v) : st.graph.value? s = none ∧ st.graph.subscribers s = [] := by
  have ho : st.Orderly := hsess.orderly
  obtain ⟨-, ⟨-, k, ha⟩ | ⟨r, lower, hr, hs, -⟩⟩ := occasion_of_event he
  · exact absurd ha (hwrite s v k)
  · -- The value is that of a memo, whose run stands on a drain or is its first.
    obtain ⟨d, hd⟩ := ho.stored s (hs ▸ .head _)
    obtain ⟨code, hcode, honly⟩ := hread.exists_code hd
    obtain ⟨above, p, rest, hb⟩ := (hsess.confined hd hcode honly).body (hs ▸ .head _)
    have hlower : lower = .restoring p :: rest := by
      rcases hb.top hs with ⟨-, -, hlower⟩ | ⟨_, hf, -⟩
      · exact hlower
      · exact hf.elim
    subst hlower
    have hp := ho.poised
    rw [hr, hs] at hp
    have hseats : Seats (.storing s :: .restoring p :: rest) := hp.seats_of_giving trivial
    obtain ⟨p', below, hbelow, hseat⟩ := hseats.1
    cases hbelow
    rcases hseat with ⟨y, lower, rfl⟩ | hmaking
    · -- The drain would be at this memo.
      exfalso
      have unique : ∀ above', st.stack = above' ++ .draining x :: base →
          above' = [.storing s, .restoring p] := fun above' hs' =>
        (Seats.drain_unique [.storing s, .restoring p] hseats (hs.symm.trans hs')).1
      cases hw with
      | idle hidle => cases unique [] hidle.1
      | memo ht _ => cases ht.symm.trans (hjob _ rfl)
      | effect _ _ hw =>
        cases hw with
        | called hctl _ => cases hr.symm.trans hctl
        | @entering above' hs' =>
          have hu := unique (above' ++ [.starting _]) (by rw [hs', append_assoc]; rfl)
          have hlast := congrArg List.getLast? hu
          simp at hlast
        | @inside above' q hs' hlast =>
          have hu := unique (above' ++ [.restoring q]) (by rw [hs', append_assoc]; rfl)
          have hu : above' ++ [.restoring q] = [.storing s] ++ [.restoring p] := hu
          have habove := (append_inj' hu rfl).1
          rw [habove] at hlast
          exact hlast s rfl
    · exact hb.first hmaking (by simp [hr])

end ReactiveMarkup.Reactive
