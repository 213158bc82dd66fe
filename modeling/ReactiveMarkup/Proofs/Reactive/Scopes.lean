/-
What is set up for a while is set back.

A run of a computation, untracked code and a batch change the state of the scheduler for
as long as they last.  Each has a frame on the stack that undoes the change, and it does
so when a result comes to the frame and also when a failure does.  So at every point the
frames tell which computation will be running again when they are gone, and how many
batches are open.

* `Session.scheduler_restored`: what holds at every point and after every piece of code.
-/
import ReactiveMarkup.Proofs.Reactive.Order
import ReactiveMarkup.Program.Run

namespace ReactiveMarkup.Reactive

open List State Reactive.Frame
open Program (body language setting)

variable {S : Setting}

/-! ### The running computation -/

theorem Session.reverted_stack [BEq S.Value] {L : Language S} {past} {st} (h : Session L past st) :
    reverted st.stack st.graph.current = none := by
  induction h with
  | start host a => rfl
  | @step past st next _ hstep ih =>
    obtain ⟨old, new, base, hs, hn, -⟩ := shifts_step hstep
    rw [hs, reverted_append] at ih
    rw [hn.stack, reverted_append, hn.reverts, ih]
  | again host a _ _ ih => exact ih

/-! ### Code that lasts for a while -/

/-- Whether a run of a computation, untracked code or a batch is about to begin. -/
def State.Opens (st : State S) : Prop :=
  (∃ c, st.control = .executing c) ∨ (∃ code k, st.control = .acting (.untrack code k)) ∨
    ∃ code k, st.control = .acting (.batch code k)

/-- The states that come after the beginning of something and before its end, the beginning
included: since then there have been more frames on the stack. -/
inductive Inside [BEq S.Value] (L : Language S) (start : State S) : State S → Prop
  | refl : Inside L start start
  | step {st next : State S} : Inside L start st → st.step? L = some next →
      start.stack.length < next.stack.length → Inside L start next

/-- Whether a run, untracked code or a batch that began in a state is just over: its frames are
gone, after a result or after a failure. -/
def Over [BEq S.Value] (L : Language S) (start st : State S) : Prop :=
  start.Opens ∧ ∃ last, Inside L start last ∧ last.step? L = some st ∧
    st.stack.length ≤ start.stack.length

section Over

variable [BEq S.Value] {L : Language S} {start st next : State S}

omit [BEq S.Value] in
theorem State.Opens.busy (h : st.Opens) :
    ¬ ((∃ r, st.control = .giving r) ∨ ∃ message, st.control = .failing message) := by
  rcases h with ⟨c, h⟩ | ⟨code, k, h⟩ | ⟨code, k, h⟩ <;> simp [h]

/-- What stood on the stack at the beginning stays there through one more step, and the frames
above it bring back what was running. -/
theorem Inside.stack_step (h : Inside L start st) (ho : start.Opens)
    (hstep : st.step? L = some next) :
    ∃ above, next.stack = above ++ start.stack ∧
      reverted above next.graph.current = start.graph.current := by
  induction h generalizing next with
  | refl =>
    cases restacks_step hstep with
    | keeps new hn _ _ => exact ⟨new, hn.stack, hn.reverts⟩
    | gives r _ _ _ hr _ _ => exact absurd (.inl ⟨r, hr⟩) ho.busy
    | fails m _ _ hm _ _ => exact absurd (.inr ⟨m, hm⟩) ho.busy
  | @step st' st _ hstep' hlen ih =>
    obtain ⟨above, hs, hcur⟩ := ih hstep'
    cases above with
    | nil =>
      rw [hs] at hlen
      exact absurd hlen (Nat.lt_irrefl _)
    | cons g above =>
      obtain ⟨old, new, base, hold, hn, rfl | ⟨f, rfl⟩⟩ := shifts_step hstep
      · obtain rfl : base = g :: above ++ start.stack := hold.symm.trans hs
        refine ⟨new ++ g :: above, by rw [hn.stack, append_assoc], ?_⟩
        rw [reverted_append, hn.reverts]
        exact hcur
      · obtain ⟨rfl, rfl⟩ : f = g ∧ base = above ++ start.stack :=
          List.cons.inj (hold.symm.trans hs)
        refine ⟨new ++ above, by rw [hn.stack, append_assoc], ?_⟩
        rw [← singleton_append, reverted_append] at hcur
        rw [reverted_append, hn.reverts, hcur]

theorem Inside.of_run {first} (h : start.step? L = some first) (n : Nat)
    (hlong : ∀ t ∈ first.run L n :: trail L n first, start.stack.length < t.stack.length) :
    Inside L start (first.run L n) := by
  have hsteps : Steps L first (trail L n first) (first.run L n) := steps_run n first
  generalize trail L n first = during at hsteps hlong
  generalize first.run L n = st at hsteps hlong
  induction hsteps with
  | refl => exact .step .refl h (hlong _ (.head _))
  | step _ hstep ih =>
    exact .step (ih fun t ht => hlong t (.tail _ ht)) hstep
      (hlong _ (.head _))

theorem Over.current_eq (h : Over L start st) : st.graph.current = start.graph.current := by
  obtain ⟨ho, last, hlast, hstep, hlen⟩ := h
  obtain ⟨above, hs, hcur⟩ := hlast.stack_step ho hstep
  rw [hs, length_append] at hlen
  obtain rfl : above = [] := length_eq_zero_iff.1 (by omega)
  exact hcur

end Over

/-! ### Open batches -/

/-- Whether the next step leaves a batch, with a result or with a failure. -/
def State.leavesBatch (st : State S) : Bool :=
  match st.control, st.stack with
  | .giving _, .batching _ :: _ | .failing _, .batching _ :: _ => true
  | _, _ => false

def Frame.isDrain : Frame S → Bool
  | .draining _ => true
  | _ => false

theorem opened_eq (stack : List (Frame S)) :
    opened stack = stack.countP isBatch + stack.countP isDrain := by
  induction stack with
  | nil => rfl
  | cons f rest ih =>
    rw [opened, countP_cons, countP_cons]
    cases f <;> simp only [opens, isBatch, isDrain] <;> simp <;> omega

theorem Seats.countP_isDrain_le {stack : List (Frame S)} (h : Seats stack) :
    stack.countP isDrain ≤ 1 := by
  induction stack with
  | nil => exact Nat.zero_le _
  | cons f rest ih =>
    cases f with
    | draining s =>
      -- No batch is open under a drain, and another drain would count as one.
      have hrest : opened rest = 0 := h.1
      rw [opened_eq] at hrest
      rw [countP_cons, isDrain, if_pos rfl]
      omega
    | _ => exact ih h.2

theorem Poised.countP_isDrain_le {g : Graph S.Value S.Code} {control} {stack}
    (h : Poised g control stack) : stack.countP isDrain ≤ 1 := by
  cases h with
  | clearing hs _ | entering hs _ | taken hs => exact hs.countP_isDrain_le
  | _ => exact Seats.countP_isDrain_le ‹_›

section Batches

variable [BEq S.Value] {L : Language S} {past : List (State S)} {st next : State S}

theorem State.countP_isBatch_step (h : st.step? L = some next) :
    next.stack.countP isBatch + (if st.leavesBatch then 1 else 0) =
      st.stack.countP isBatch + if st.entersBatch then 1 else 0 := by
  -- A frame that gets a result or a failure stood for a batch if that is what is left.
  have pop : ∀ {f rest}, st.stack = f :: rest →
      (∃ r, st.control = .giving r) ∨ (∃ m, st.control = .failing m) →
      st.stack.countP isBatch = rest.countP isBatch + if st.leavesBatch then 1 else 0 := by
    intro f rest hs hc
    rw [hs, countP_cons]
    rcases hc with ⟨r, hr⟩ | ⟨m, hm⟩
    · cases f <;> simp [leavesBatch, hr, hs, isBatch]
    · cases f <;> simp [leavesBatch, hm, hs, isBatch]
  cases restacks_step h with
  | keeps new hn hg hf =>
    have hl : st.leavesBatch = false := by
      unfold leavesBatch
      split
      · exact absurd ‹_› (hg _)
      · exact absurd ‹_› (hf _)
      · rfl
    rw [hn.stack, countP_append, hn.batches, hl, if_neg Bool.false_ne_true]
    omega
  | gives r f rest new hr hs hn =>
    rw [hn.stack, countP_append, hn.batches, pop hs (.inl ⟨r, hr⟩)]
    omega
  | fails m f rest hm hs hn =>
    rw [hn.stack, countP_append, hn.batches, pop hs (.inr ⟨m, hm⟩)]
    omega

theorem Session.countP_entersBatch (h : Session L past st) :
    past.countP (·.entersBatch) = past.countP (·.leavesBatch) + st.stack.countP isBatch := by
  induction h with
  | start host a => rfl
  | @step past st next _ hstep ih =>
    rw [countP_cons, countP_cons]
    have := countP_isBatch_step hstep
    omega
  | @again past st host a h hend ih =>
    have hs : st.stack = [] := Session.stack_eq_nil hend
    have hleft : st.leavesBatch = false := by
      unfold leavesBatch
      split <;> simp_all
    have hentered : st.entersBatch = false := by
      unfold entersBatch
      split
      · rename_i hc
        simp [step?, hc] at hend
      · rfl
    rw [countP_cons, countP_cons, hleft, hentered]
    exact ih

end Batches

/-- The scheduler is left as it was found, also by code that fails.  When a piece of code at top
level is over, no computation is running, no batch is open and nothing waits.  At every point as
many batches are counted as have been entered and not been left, and one more while a drain is in
progress; there is one drain at most.  And when a run of a computation, untracked code or a batch is
over, the same computation is running as when it began. -/
theorem Session.scheduler_restored [BEq S.Value] {L : Language S} {past : List (State S)}
    {st : State S} (h : Session L past st) :
    (st.step? L = none →
        st.graph.current = none ∧ st.graph.depth = 0 ∧ st.graph.pending = []) ∧
      st.graph.depth + past.countP (·.leavesBatch) =
        past.countP (·.entersBatch) + (if st.stack.any Frame.isDrain then 1 else 0) ∧
      st.stack.countP Frame.isDrain ≤ 1 ∧
      ∀ start, Over L start st → st.graph.current = start.graph.current := by
  have ho : st.Orderly := h.orderly
  have hdrains : st.stack.countP Frame.isDrain ≤ 1 := ho.poised.countP_isDrain_le
  refine ⟨fun hend => ?_, ?_, hdrains, fun start hover => hover.current_eq⟩
  · have hs : st.stack = [] := stack_eq_nil hend
    have hcur := h.reverted_stack
    have hdepth : st.graph.depth = 0 := by rw [ho.balanced, hs]; rfl
    rw [hs] at hcur
    exact ⟨hcur, hdepth, ho.quiet hdepth⟩
  · have hdrain : st.stack.countP Frame.isDrain = if st.stack.any Frame.isDrain then 1 else 0 := by
      split
      · rename_i hany
        have := countP_pos_iff.2 (any_eq_true.1 hany)
        omega
      · rename_i hany
        exact countP_eq_zero.2 fun f hf hd => hany (any_eq_true.2 ⟨f, hf, hd⟩)
    rw [h.countP_entersBatch, ho.balanced, opened_eq, hdrain]
    omega

theorem session_run [BEq S.Value] {L} (host : S.Host) (a : Action S S.Result) (n : Nat) :
    Session L (trail L n { host, control := .acting a })
      (run L n { host, control := .acting a }) := by
  have h := (Session.start (L := L) host a).steps (steps_run n _)
  rwa [append_nil] at h

theorem State.step?_eq_run [BEq S.Value] {L} {st : State S} (h : (st.step? L).isSome = true) :
    st.step? L = some (st.run L 1) := by
  obtain ⟨next, hn⟩ := Option.isSome_iff_exists.1 h
  simp [run, hn]

/-- An effect opens a batch and fails in it as soon as a signal holds a certain text.  A batch gives
the signal that text, so the effect fails in the drain at its end. -/
def relapse : State setting where
  host := Program.World.start
  control := .acting <| body <| .block {} [
    .signal "a" (.literal (.text "0")),
    .effect [.cond (.equal (.cell .get "a") (.literal (.text "1"))) [.batch [.raise "boom"]] []],
    .batch [.set "a" (.literal (.text "1"))]]

/-- The failure ends the inner batch, with the effect still running, then the run of the effect, and
at last the program. -/
theorem Session.scheduler_restored_relapse :
    Session language (trail language 33 relapse) (relapse.run language 33) ∧
      ((relapse.run language 33).control matches .failing "boom") ∧
      (relapse.run language 33).graph.current = none ∧
      (relapse.run language 33).graph.depth = 0 ∧
      (relapse.run language 33).graph.pending = [] ∧
      (relapse.run language 26).graph.depth = 1 ∧
      (relapse.run language 27).graph.depth = 2 ∧
      (relapse.run language 29).graph.current = some 0 := by
  have hrun (n : Nat) : Session language (trail language n relapse)
      (relapse.run language n) := session_run _ _ n
  have hend := (hrun 33).scheduler_restored.1 (Option.isNone_iff_eq_none.1 (by decide +kernel))
  have hover : Over language (relapse.run language 26)
      (relapse.run language 29) := by
    refine ⟨.inr (.inr ⟨_, _, rfl⟩), relapse.run language 28, ?_, ?_, by decide +kernel⟩
    · have hfirst : (relapse.run language 26).step? language =
          some (relapse.run language 27) := State.step?_eq_run (by decide +kernel)
      exact Inside.of_run hfirst 1 (by decide +kernel)
    · exact State.step?_eq_run (by decide +kernel)
  have hcur := (hrun 29).scheduler_restored.2.2.2 _ hover
  exact ⟨hrun 33, by decide +kernel, hend.1, hend.2.1, hend.2.2, by decide +kernel,
    by decide +kernel, hcur.trans (by decide +kernel)⟩

end ReactiveMarkup.Reactive
