/-
How frames stand on one another.

The stack tells which batches are open, whether a drain is in progress, and which
computations are about to run or are running.  A drain is never started while a
batch is open, so it has no batch under it and there is one drain at most.  A
computation is run by a drain, or at once by the code that makes it; in the second
case nothing else happens before its code runs.
-/
import ReactiveMarkup.Proofs.Reactive.Events

namespace ReactiveMarkup.Reactive

open List Reactive.Graph Reactive.Frame

variable {S : Setting}

/-- How many open batches a frame stands for; a drain counts as one. -/
def Frame.opens : Frame S → Nat
  | .batching _ | .draining _ => 1
  | _ => 0

def opened : List (Frame S) → Nat
  | [] => 0
  | f :: rest => f.opens + opened rest

theorem State.opened_append (new stack : List (Frame S)) :
    opened (new ++ stack) = opened new + opened stack := by
  induction new with
  | nil => exact (Nat.zero_add _).symm
  | cons f rest ih =>
    rw [cons_append, opened, opened]
    omega

/-- What stands under a frame.  A computation that is about to run from a drain, or one whose
value is awaited, has the frames of its run directly under it.  Who cleans up disposes of none
that is about to run. -/
def Frame.Seated : Frame S → List (Frame S) → Prop
  | .draining _, rest => opened rest = 0
  | .starting _, rest => ∃ s below, rest = .draining s :: below
  | .storing s, rest =>
    ∃ p below, rest = .restoring p :: below ∧
      ((∃ x lower, below = .draining x :: lower) ∨ ∃ k lower, below = .making s k :: lower)
  | .cleaning _ l, rest => ∀ d, .dispose d ∈ l → ∀ c, .starting c ∈ rest → c < d
  | _, _ => True

def Seats : List (Frame S) → Prop
  | [] => True
  | f :: rest => f.Seated rest ∧ Seats rest

theorem Seats.not_mem_starting {stack : List (Frame S)} (h : Seats stack) (h0 : opened stack = 0)
    (c : ComputationId) : .starting c ∉ stack := by
  induction stack with
  | nil => exact not_mem_nil
  | cons f rest ih =>
    intro hc
    have hrest : opened rest = 0 := by
      simp only [opened] at h0
      omega
    rcases mem_cons.1 hc with rfl | hc
    · obtain ⟨s, below, rfl⟩ := h.1
      simp only [opened, opens] at hrest
      omega
    · exact ih h.2 hrest hc

variable {f : Frame S}

theorem Seats.seated {above rest} (h : Seats (above ++ f :: rest)) : f.Seated rest := by
  induction above with
  | nil => exact h.1
  | cons _ _ ih => exact ih h.2

/-- A computation that has never run yet is about to, for the code that makes it. -/
structure FirstRun (g : Graph S.Value S.Code) (c : ComputationId) (stack : List (Frame S)) :
    Prop where
  cleanups : g.cleanups c = []
  sources : g.sourcesOf c = []
  undisposed : g.isDisposed c = false
  unread : ∀ s, g.target? c = some s → g.value? s = none ∧ g.subscribers s = []
  maker : (∃ s k rest, stack = .making s k :: rest ∧ g.target? c = some s) ∨
    ∃ next rest, stack = .resuming next :: rest ∧ g.target? c = none

/-- What stands on top of the stack, by what the machine is about to do. -/
inductive Poised (g : Graph S.Value S.Code) : Control S → List (Frame S) → Prop
  | acting {a stack} : Seats stack → Poised g (.acting a) stack
  | failing {message stack} : Seats stack → Poised g (.failing message) stack
  | giving {r stack} : Seats stack → Poised g (.giving r) stack
  /-- A drain has taken a computation. -/
  | taken {c s rest} : Seats (.draining s :: rest) → Poised g (.executing c) (.draining s :: rest)
  /-- Code has made a computation. -/
  | made {c stack} : Seats stack → FirstRun g c stack → Poised g (.executing c) stack
  | clearing {c r stack} : Seats stack → FirstRun g c stack →
      Poised g (.giving r) (.cleaning c [] :: .starting c :: stack)
  | entering {c r stack} : Seats stack → FirstRun g c stack →
      Poised g (.giving r) (.starting c :: stack)

abbrev State.IsPoised (st : State S) : Prop := Poised st.graph st.control st.stack

variable {c : ComputationId} {r : S.Result}

namespace Poised

variable {g : Graph S.Value S.Code} {stack rest : List (Frame S)}

theorem seats_of_acting (h : Poised g (.acting a) stack) : Seats stack := by
  cases h
  assumption

theorem seats_of_failing {message} (h : Poised g (.failing message) stack) : Seats stack := by
  cases h
  assumption

/-- A frame that does not see to a computation that is about to run. -/
def Neutral : Frame S → Prop
  | .starting _ | .cleaning _ _ => False
  | _ => True

theorem seats_of_giving (h : Poised g (.giving r) (f :: rest)) (hf : Neutral f) :
    f.Seated rest ∧ Seats rest := by
  cases h with
  | giving hs => exact hs
  | clearing _ _ | entering _ _ => exact hf.elim

theorem seats_of_executing (h : Poised g (.executing c) stack) : Seats stack := by
  cases h <;> assumption

theorem firstRun_of_executing (h : Poised g (.executing c) stack) (h0 : opened stack = 0) :
    FirstRun g c stack := by
  cases h with
  | taken _ =>
    simp only [opened, opens] at h0
    omega
  | made _ hfirst => exact hfirst

theorem firstRun_of_starting {control} (h : Poised g control stack) (h0 : opened stack = 0)
    (hc : .starting c ∈ stack) : ∃ below, FirstRun g c below ∧ ∀ f ∈ below, f ∈ stack := by
  cases h with
  | acting hs | failing hs | giving hs | taken hs | made hs =>
    exact absurd hc (Seats.not_mem_starting hs h0 c)
  | @clearing d r below hs hfirst =>
    have hbelow : opened below = 0 := by
      simp only [opened] at h0
      omega
    have hc : .starting c ∈ .starting d :: below := (mem_cons.1 hc).resolve_left (by simp)
    rcases mem_cons.1 hc with hc | hc
    · obtain rfl := starting.inj hc
      exact ⟨below, hfirst, fun f hf => .tail _ (.tail _ hf)⟩
    · exact absurd hc (hs.not_mem_starting hbelow c)
  | @entering d r below hs hfirst =>
    have hbelow : opened below = 0 := by
      simp only [opened] at h0
      omega
    rcases mem_cons.1 hc with hc | hc
    · obtain rfl := starting.inj hc
      exact ⟨below, hfirst, fun f hf => .tail _ hf⟩
    · exact absurd hc (hs.not_mem_starting hbelow c)

end Poised

section New

variable {g : Graph S.Value S.Code}

theorem firstRun_addEffect (h : g.current ≠ some g.computations.size) (code : S.Code)
    (next : Action S S.Result) (stack : List (Frame S)) :
    FirstRun (g.addEffect code).1 (g.addEffect code).2 (.resuming next :: stack) := by
  have hc : (g.addEffect code).2 = g.computations.size := addComputation_snd
  have hx := computation?_addComputation_new (x := { code }) h
  rw [hc]
  have ht : (g.addEffect code).1.target? g.computations.size = none := by
    simp [target?, addEffect, hx]
  refine ⟨?_, ?_, ?_, by simp [ht], .inr ⟨next, stack, rfl, ht⟩⟩
  · simp [cleanups, addEffect, hx]
  · simp [sourcesOf, addEffect, hx]
  · simp [isDisposed, addEffect, hx]

theorem firstRun_addMemo (h : g.current ≠ some g.computations.size) (code : S.Code)
    (k : SourceId → Action S S.Result) (stack : List (Frame S)) :
    FirstRun (g.addMemo code).1 (g.addMemo code).2.2 (.making (g.addMemo code).2.1 k :: stack) := by
  have hx : (g.addMemo code).1.computation? g.computations.size =
      some { code, target := some g.sources.size } :=
    computation?_addComputation_new h
  have ht : (g.addMemo code).1.target? g.computations.size = some g.sources.size := by
    rw [target?, hx]
    rfl
  have hs : (g.addMemo code).1.source? g.sources.size =
      some { value := none, maker := some g.computations.size } :=
    (source?_addMemo g code).trans (if_pos rfl)
  rw [addMemo_computation]
  refine ⟨?_, ?_, ?_, fun s hs' => ?_, .inl ⟨g.sources.size, k, stack, rfl, ht⟩⟩
  · rw [cleanups, hx]
    rfl
  · rw [sourcesOf, hx]
    rfl
  · rw [isDisposed, hx]
    rfl
  · obtain rfl := Option.some_inj.1 (ht.symm.trans hs')
    rw [value?, subscribers, hs]
    exact ⟨rfl, rfl⟩

theorem firstRun_release {stack} (h : FirstRun g c stack) :
    FirstRun (g.release c) c stack where
  cleanups := cleanups_release.trans (if_pos rfl)
  sources := sourcesOf_release.trans (if_pos rfl)
  undisposed :=
    (isDisposed_of_map (computation?_release_map fun _ => rfl)).trans h.undisposed
  unread s hs := by
    rw [target?_of_map (computation?_release_map fun _ => rfl)] at hs
    rw [value?_of_map (source?_release_map fun _ _ => rfl)]
    exact ⟨(h.unread s hs).1, subscribers_release_eq_nil (h.unread s hs).2⟩
  maker := by
    rw [target?_of_map (computation?_release_map fun _ => rfl)]
    exact h.maker

end New

namespace State

variable [BEq S.Value] {L : Language S} {st next : State S}

variable (L st) in
theorem stepAction_read (s : SourceId) (tracked : Bool) (k : S.Value → Action S S.Result) :
    ∃ g control, st.stepAction L (.read s tracked k) = { st with graph := g, control } ∧
      g.schedule = st.graph.schedule ∧
      ((∃ v, control = .acting (k v)) ∨ ∃ message, control = .failing message) := by
  simp only [stepAction]
  split <;> split
  · exact ⟨_, _, rfl, schedule_subscribe, .inl ⟨_, rfl⟩⟩
  · exact ⟨_, _, rfl, rfl, .inl ⟨_, rfl⟩⟩
  · exact ⟨_, _, rfl, schedule_subscribe, .inr ⟨_, rfl⟩⟩
  · exact ⟨_, _, rfl, rfl, .inr ⟨_, rfl⟩⟩

theorem poised_stepAction (hs : Seats st.stack) (hb : st.graph.depth = opened st.stack)
    (hnew : st.graph.current ≠ some st.graph.computations.size) : (st.stepAction L a).IsPoised := by
  cases a with
  | pure r => exact .giving hs
  | raise message => exact .failing hs
  | memo code k => exact .made ⟨trivial, hs⟩ (firstRun_addMemo hnew code k st.stack)
  | effect code next => exact .made ⟨trivial, hs⟩ (firstRun_addEffect hnew code next st.stack)
  | read s tracked k =>
    obtain ⟨g, control, hn, -, ⟨v, rfl⟩ | ⟨message, rfl⟩⟩ := stepAction_read L st s tracked k
    · exact hn ▸ .acting hs
    · exact hn ▸ .failing hs
  | write s v next =>
    simp only [stepAction]
    split
    · exact .acting hs
    · split
      · rename_i h0
        refine .giving ⟨?_, trivial, hs⟩
        have h0 : st.graph.depth = 0 := h0
        show opened (.resuming next :: st.stack) = 0
        simp only [opened, opens]
        omega
      · exact .acting hs
  | batch _ _ | call _ _ _ | attempt _ _ => exact .acting ⟨trivial, hs⟩
  | untrack code k => exact .acting ⟨trivial, trivial, hs⟩
  | cleanup code k =>
    simp only [stepAction]
    split <;> exact .acting hs
  | flush k => exact .giving ⟨trivial, hs⟩
  | _ => exact .acting hs

variable {rest : List (Frame S)}

theorem poised_starting (hp : Poised st.graph (.giving r) (.starting c :: rest)) :
    ({ st with stack := rest }.stepFrame L r (.starting c)).IsPoised := by
  -- Under a run is the drain that has taken the computation, or the frame of what made it.
  have hrest : Seats rest ∧ ∀ s, st.graph.target? c = some s →
      (∃ x lower, rest = .draining x :: lower) ∨ ∃ k lower, rest = .making s k :: lower := by
    cases hp with
    | giving hs => exact ⟨hs.2, fun s _ => .inl hs.1⟩
    | entering hs hc =>
      refine ⟨hs, fun s ht => ?_⟩
      rcases hc.maker with ⟨s', k, below, rfl, ht'⟩ | ⟨next, below, rfl, ht'⟩
      · obtain rfl := Option.some_inj.1 (ht.symm.trans ht')
        exact .inr ⟨k, below, rfl⟩
      · cases ht.symm.trans ht'
  simp only [stepFrame]
  split
  · exact .giving ⟨trivial, hrest.1⟩
  · rename_i d hd
    have ht : st.graph.target? c = d.target := congrArg (Option.bind · _) hd
    split
    · exact .acting ⟨trivial, hrest.1⟩
    · rename_i s hs
      split
      · exact .acting ⟨⟨_, rest, rfl, hrest.2 s (ht.trans hs)⟩, trivial, hrest.1⟩
      · exact .giving ⟨trivial, hrest.1⟩

theorem poised_cleaning (hr : st.control = .giving r) (hs : st.stack = .cleaning c l :: rest)
    (hp : Poised st.graph (.giving r) (.cleaning c l :: rest)) (hg : st.graph.Consistent) :
    ({ st with stack := rest }.stepFrame L r (.cleaning c l)).IsPoised := by
  cases hp with
  | clearing hrest hc => exact .entering hrest hc
  | giving hseats =>
    obtain ⟨hseat, hrest⟩ := hseats
    rcases l with - | ⟨code | d, l⟩
    · exact .giving hrest
    · exact .acting ⟨fun e he => hseat e (.tail _ he), hrest⟩
    · have hseat' : Frame.Seated (.cleaning c l) rest := fun e he =>
        hseat e (.tail _ he)
      rw [stepFrame_dispose hr hs]
      split
      · -- The child is younger than all that are about to run, and so are its own children.
        refine .giving ⟨fun e he c' hc' => ?_, hseat', hrest⟩
        have hd : c' < d := by
          rcases mem_cons.1 hc' with hc' | hc'
          · cases hc'
          · exact hseat d (.head _) c' hc'
        have he : .dispose e ∈ st.graph.cleanups d :=
          cleanups_of_map (computation?_markDisposed_map fun _ => rfl) ▸ he
        exact Nat.lt_trans hd (hg.younger d e he)
      · exact .giving ⟨hseat', hrest⟩

theorem poised_stepFrame (hr : st.control = .giving r) (hs : st.stack = f :: rest)
    (hp : Poised st.graph (.giving r) (f :: rest)) (hg : st.graph.Consistent)
    (hb : st.graph.depth = opened st.stack) :
    ({ st with stack := rest }.stepFrame L r f).IsPoised := by
  rw [hs, opened] at hb
  cases f with
  | returning _ _ | catching _ | resuming _ | making _ _ =>
    exact .acting (hp.seats_of_giving trivial).2
  | restoring previous => exact .giving (hp.seats_of_giving trivial).2
  | batching k =>
    have hrest := (hp.seats_of_giving trivial).2
    simp only [stepFrame]
    split
    · -- The batch was the outermost, so no batch is open under the drain that starts now.
      rename_i h0
      have h0 : st.graph.depth - 1 = 0 := h0
      refine .giving ⟨?_, trivial, hrest⟩
      show opened (.resuming (k r) :: rest) = 0
      simp only [opened, opens] at hb ⊢
      omega
    · exact .acting hrest
  | storing s =>
    have hrest := (hp.seats_of_giving trivial).2
    simp only [stepFrame]
    split
    · exact .giving hrest
    · split
      · rename_i h0
        have h0 : st.graph.depth = 0 := h0
        refine .giving ⟨?_, hrest⟩
        show opened rest = 0
        omega
      · exact .giving hrest
  | cleaning c l => exact poised_cleaning hr hs hp hg
  | starting c => exact poised_starting hp
  | draining s =>
    have hrest := hp.seats_of_giving trivial
    simp only [stepFrame]
    split
    · exact .taken hrest
    · exact .giving hrest.2
  | flushing n k =>
    have hrest := (hp.seats_of_giving trivial).2
    simp only [stepFrame]
    split
    · exact .acting hrest
    · exact .acting ⟨trivial, hrest⟩

omit [BEq S.Value] in
theorem poised_unwind {message : String} (hm : st.control = .failing message) (hs : Seats rest) :
    ({ st with stack := rest }.unwind message f).IsPoised := by
  cases f with
  | catching k => exact .acting hs
  | _ =>
    simp only [hm]
    exact .failing hs

omit [BEq S.Value] in
theorem poised_start (hp : Poised st.graph (.executing c) st.stack) (hg : st.graph.Consistent) :
    Poised (st.graph.release c) (.giving L.nothing)
      (.cleaning c (st.graph.cleanups c) :: .starting c :: st.stack) := by
  generalize hstack : st.stack = stack at hp
  cases hp with
  | taken hs =>
    -- Nothing else is about to run: a drain has no batch under it, and so no other run.
    refine .giving ⟨fun d hd c' hc' => ?_, ⟨_, _, rfl⟩, hs⟩
    rcases mem_cons.1 hc' with hc' | hc'
    · obtain rfl := starting.inj hc'
      exact hg.younger c' d hd
    · rcases mem_cons.1 hc' with hc' | hc'
      · cases hc'
      · exact absurd hc' (hs.2.not_mem_starting hs.1 c')
  | made hs hc =>
    rw [hc.cleanups]
    exact .clearing hs (firstRun_release hc)

theorem poised_step (h : st.step? L = some next) (hp : Poised st.graph st.control st.stack)
    (hg : st.graph.Consistent) (hb : st.graph.depth = opened st.stack)
    (hnew : st.graph.current ≠ some st.graph.computations.size) : next.IsPoised := by
  refine step_cases h ?_ ?_ ?_ ?_ ?_
  · intro a ha
    exact poised_stepAction (ha ▸ hp).seats_of_acting hb hnew
  · intro c hc hd
    exact .giving (hc ▸ hp).seats_of_executing
  · intro c hc hd
    exact poised_start (hc ▸ hp) hg
  · intro r f rest hr hs
    rw [hr, hs] at hp
    exact poised_stepFrame hr hs hp hg hb
  · intro message f rest hm hs
    rw [hm] at hp
    exact poised_unwind hm (hs ▸ hp.seats_of_failing).2

theorem depth_assign_ne_zero (h : st.step? L = some next) (he : st.event L = .assign s v) :
    next.graph.depth ≠ 0 := by
  obtain ⟨hv, ⟨hsig, k, ha⟩ | ⟨r, rest, hr, hs, rfl⟩⟩ := occasion_of_event he
  · rw [next_acting h ha]
    simp only [stepAction, hsig, hv, Bool.not_true, Bool.or_self, Bool.false_eq_true, if_false]
    split
    · exact Nat.one_ne_zero
    · rename_i h0
      exact h0
  · rw [next_giving h hr hs]
    simp only [stepFrame, hv, Bool.false_eq_true, if_false]
    split
    · exact Nat.one_ne_zero
    · rename_i h0
      exact h0

end State

end ReactiveMarkup.Reactive
