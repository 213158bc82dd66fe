/-
Which frames come and go.

A step takes at most one frame off the stack, the one on top, and it takes it off
only to give it a result or a failure.  So a frame further down stays where it is,
and for each kind of frame it can be said when it comes onto the stack.
-/
import ReactiveMarkup.Proofs.Reactive.Stacks

namespace ReactiveMarkup.Reactive

open List Reactive.Graph

variable {S : Setting}

/-- The computation that is running again when some frames are off the stack, if `current` is
running now. -/
def reverted : List (Frame S) → Option ComputationId → Option ComputationId
  | [], current => current
  | .restoring previous :: rest, _ => reverted rest previous
  | _ :: rest, current => reverted rest current

theorem reverted_append (above base : List (Frame S)) (current : Option ComputationId) :
    reverted (above ++ base) current = reverted base (reverted above current) := by
  induction above generalizing current with
  | nil => rfl
  | cons f above ih => cases f <;> exact ih _

def Frame.isBatch : Frame S → Bool
  | .batching _ => true
  | _ => false

/-- Whether the next step opens a batch. -/
def State.entersBatch (st : State S) : Bool :=
  match st.control with
  | .acting (.batch _ _) => true
  | _ => false

namespace State

variable [BEq S.Value] {L : Language S} {st next : State S} {old new base : List (Frame S)}

variable (L) in
/-- When a step puts a frame onto the stack. -/
def Pushes (st : State S) : Frame S → Prop
  | .starting c => st.control = .executing c ∧ st.graph.isDisposed c = false
  | .storing s =>
    ∃ r c rest, st.control = .giving r ∧ st.stack = .starting c :: rest ∧
      st.graph.target? c = some s ∧ st.isLiveSource L s = true
  | .cleaning c _ =>
    st.control = .executing c ∨
      ∃ r a l rest, st.control = .giving r ∧ st.stack = .cleaning a l :: rest ∧
        (c = a ∨ st.isLive L c = true)
  | .restoring p =>
    p = st.graph.current ∧ ((∃ code k, st.control = .acting (.untrack code k)) ∨
      ∃ r c rest, st.control = .giving r ∧ st.stack = .starting c :: rest)
  | .making s _ => ∃ code k, st.control = .acting (.memo code k) ∧ s = st.graph.sources.size
  | _ => True

/-- What a step goes on with.  A computation that is to run has just been taken or made. -/
inductive Goes (L : Language S) (st : State S) : Control S → Prop
  | acting (a : Action S S.Result) : Goes L st (.acting a)
  | giving (r : S.Result) : Goes L st (.giving r)
  | failing (message : String) : Goes L st (.failing message)
  | executing (c : ComputationId) : st.event L = .take c ∨
      ((∃ code, st.event L = .memo code ∨ st.event L = .effect code) ∧
        c = st.graph.computations.size) → Goes L st (.executing c)

/-- What a step does that takes the frames `old` off others, which stay, and puts `new` there. -/
structure Shifts (L : Language S) (st next : State S) (old new base : List (Frame S)) : Prop where
  stack : next.stack = new ++ base
  pushes : ∀ f ∈ new, st.Pushes L f
  /-- New frames bring back what was running before, and an old frame has had its effect. -/
  reverts : reverted new next.graph.current = reverted old st.graph.current
  current : ∀ c, next.graph.current = some c → st.graph.current = some c ∨
    .restoring (some c) ∈ old ∨
    ∃ r rest, st.control = .giving r ∧ st.stack = .starting c :: rest
  depth : st.graph.depth = opened (old ++ base) → (∀ s, old = [.draining s] → opened base = 0) →
    next.graph.depth = opened (new ++ base)
  batches : new.countP Frame.isBatch = if st.entersBatch then 1 else 0
  tasks : ∀ code ∈ next.graph.tasks, code ∈ st.graph.tasks ∨ ∃ a,
    st.control = .acting (.later code a)
  control : Goes L st next.control

/-- A step that changes neither what is running nor how many batches are open. -/
theorem Shifts.calm (hs : next.stack = new ++ base) (hp : ∀ f ∈ new, st.Pushes L f)
    (hg : next.graph.schedule = st.graph.schedule)
    (hx : Goes L st next.control) (he : st.entersBatch = false)
    (hr : reverted new st.graph.current = reverted old st.graph.current)
    (ho : opened new = opened old) (hn : new.countP Frame.isBatch = 0) :
    Shifts L st next old new base where
  stack := hs
  pushes := hp
  reverts := current_of_schedule hg ▸ hr
  current c h := .inl ((current_of_schedule hg).symm.trans h)
  depth hb _ := by rw [depth_of_schedule hg, hb, opened_append, opened_append, ho]
  batches := by rw [hn, he]; rfl
  tasks code h := .inl (tasks_of_schedule hg ▸ h)
  control := hx

omit [BEq S.Value] in
theorem opened_left {n : Nat} {k : S.Result → Action S S.Result}
    (h : n = opened ([.batching k] ++ base)) : n - 1 = opened base := by
  rw [h]
  exact Nat.add_sub_cancel_left ..

theorem shifts_stepAction (ha : st.control = .acting a) :
    ∃ new, Shifts L st (st.stepAction L a) [] new st.stack := by
  have he : st.entersBatch = entersBatch { st with control := .acting a } := by rw [← ha]
  have nil : ∀ f ∈ [], st.Pushes L f := forall_mem_nil _
  have one : ∀ {f : Frame S}, st.Pushes L f → ∀ f' ∈ [f], st.Pushes L f' := forall_mem_singleton.2
  cases a with
  | pure r => exact ⟨[], .calm rfl nil rfl (.giving r) he rfl rfl rfl⟩
  | raise message => exact ⟨[], .calm rfl nil rfl (.failing message) he rfl rfl rfl⟩
  | memo code k =>
    refine ⟨[.making _ k], .calm rfl (one ⟨code, k, ha, rfl⟩) (schedule_addMemo _ code)
      (.executing _ (.inr ⟨⟨code, .inl (event_acting ha)⟩, ?_⟩)) he rfl rfl rfl⟩
    exact addMemo_computation st.graph code
  | effect code a =>
    exact ⟨[.resuming a], .calm rfl (one trivial) schedule_addComputation
      (.executing _ (.inr ⟨⟨code, .inr (event_acting ha)⟩, addComputation_snd⟩)) he rfl rfl rfl⟩
  | read s tracked k =>
    obtain ⟨g, control, hn, hg, ⟨v, rfl⟩ | ⟨message, rfl⟩⟩ := stepAction_read L st s tracked k
    · exact ⟨[], hn ▸ .calm rfl nil hg (.acting _) he rfl rfl rfl⟩
    · exact ⟨[], hn ▸ .calm rfl nil hg (.failing _) he rfl rfl rfl⟩
  | write s v a =>
    simp only [stepAction]
    split
    · exact ⟨[], .calm rfl nil rfl (.acting a) he rfl rfl rfl⟩
    · split
      · rename_i h0
        have h0 : st.graph.depth = 0 := h0
        refine ⟨[.draining (some s), .resuming a], rfl, by simp [Pushes], rfl, fun c h => .inl h,
          fun hb _ => ?_, by rw [he]; rfl, fun code h => .inl h, .giving _⟩
        have hb : st.graph.depth = opened st.stack := hb
        show 1 = 1 + (0 + opened st.stack)
        omega
      · exact ⟨[], .calm rfl nil rfl (.acting a) he rfl rfl rfl⟩
  | batch code k =>
    refine ⟨[.batching k], rfl, one trivial, rfl, fun c h => .inl h,
      fun hb _ => ?_, by rw [he]; rfl,
      fun code h => .inl h, .acting _⟩
    exact (congrArg (· + 1) hb).trans (Nat.add_comm _ 1)
  | untrack code k =>
    refine ⟨[.restoring st.graph.current, .returning [] k], rfl, ?_, rfl,
      fun c h => absurd h.symm (Option.some_ne_none c), fun hb _ => ?_, by rw [he]; rfl,
      fun code h => .inl h, .acting _⟩
    · exact forall_mem_cons.2 ⟨⟨rfl, .inl ⟨code, k, ha⟩⟩, one trivial⟩
    · exact hb.trans ((Nat.zero_add _).trans (Nat.zero_add _)).symm
  | call code held k =>
    exact ⟨[.returning held k], .calm rfl (one trivial) rfl (.acting _) he rfl rfl rfl⟩
  | attempt code k => exact ⟨[.catching k], .calm rfl (one trivial) rfl (.acting _) he rfl rfl rfl⟩
  | flush k => exact ⟨[.flushing 0 k], .calm rfl (one trivial) rfl (.giving _) he rfl rfl rfl⟩
  | cleanup code k =>
    simp only [stepAction]
    split <;> exact ⟨[], .calm rfl nil rfl (.acting _) he rfl rfl rfl⟩
  | later code a =>
    refine ⟨[], rfl, nil, rfl, fun c h => .inl h, fun hb _ => hb, by rw [he]; rfl, fun word h => ?_,
      .acting a⟩
    refine (mem_append.1 h).imp_right fun h => ⟨a, ?_⟩
    rw [mem_singleton.1 h, ha]
  | _ => exact ⟨[], .calm rfl nil rfl (.acting _) he rfl rfl rfl⟩

theorem shifts_stepFrame (hr : st.control = .giving r) (hs : st.stack = f :: base) :
    ∃ new, Shifts L st ({ st with stack := base }.stepFrame L r f) [f] new base := by
  have he : st.entersBatch = false := by simp only [entersBatch, hr]
  have nil : ∀ f ∈ [], st.Pushes L f := forall_mem_nil _
  have one : ∀ {f : Frame S}, st.Pushes L f → ∀ f' ∈ [f], st.Pushes L f' := forall_mem_singleton.2
  cases f with
  | batching k =>
    simp only [stepFrame]
    split
    · rename_i h0
      refine ⟨[.draining none, .resuming (k r)], rfl, by simp [Pushes], rfl, fun c h => .inl h,
        fun h _ => ?_, he ▸ rfl, fun code h => .inl h, .giving _⟩
      -- The batch was the outermost, so no batch is open under the drain that starts now.
      show 1 = 1 + (0 + opened base)
      rw [← opened_left h, show st.graph.depth - 1 = 0 from h0]
    · exact ⟨[], rfl, nil, rfl, fun c h => .inl h, fun h _ => opened_left h, he ▸ rfl,
        fun code h => .inl h, .acting _⟩
  | restoring p =>
    refine ⟨[], rfl, nil, rfl, fun c h => .inr (.inl ?_), fun hb _ => hb.trans (Nat.zero_add _),
      he ▸ rfl, fun code h => .inl h, .giving r⟩
    obtain rfl : p = some c := h
    exact mem_singleton_self _
  | storing s =>
    simp only [stepFrame]
    split
    · exact ⟨[], .calm rfl nil rfl (.giving _) he rfl rfl rfl⟩
    · split
      · rename_i h0
        refine ⟨[.draining (some s)], rfl, one trivial, rfl, fun c h => .inl h, fun hb _ => ?_,
          he ▸ rfl,
          fun code h => .inl h, .giving _⟩
        exact congrArg (1 + ·) (h0.symm.trans (hb.trans (Nat.zero_add _)))
      · exact ⟨[], .calm rfl nil rfl (.giving _) he rfl rfl rfl⟩
  | cleaning c l =>
    have hc : ∀ l', st.Pushes L (.cleaning c l') := fun l' => .inr ⟨r, c, l, base, hr, hs, .inl rfl⟩
    rcases l with - | ⟨code | d, l⟩
    · exact ⟨[], .calm rfl nil rfl (.giving _) he rfl rfl rfl⟩
    · exact ⟨[.cleaning c l], .calm rfl (one (hc l)) rfl (.acting _) he rfl rfl rfl⟩
    · rw [stepFrame_dispose hr hs]
      split
      · rename_i hd
        refine ⟨[.cleaning d _, .cleaning c l], .calm rfl (forall_mem_cons.2 ⟨?_, one (hc l)⟩)
          schedule_release (.giving _) he rfl rfl rfl⟩
        exact .inr ⟨r, c, _, base, hr, hs, .inr (Bool.and_eq_true_iff.1 hd).1⟩
      · exact ⟨[.cleaning c l], .calm rfl (one (hc l)) rfl (.giving _) he rfl rfl rfl⟩
  | starting c =>
    have hp : st.Pushes L (.restoring st.graph.current) := ⟨rfl, .inr ⟨r, c, base, hr, hs⟩⟩
    have run : ∀ (next : State S) (new : List (Frame S)), next.stack = new ++ base →
        (∀ f ∈ new, st.Pushes L f) → reverted new (some c) = st.graph.current → opened new = 0 →
        new.countP Frame.isBatch = 0 → next.graph = { st.graph with current := some c } →
        Goes L st next.control → ∃ new, Shifts L st next [.starting c] new base := by
      intro next new hn hp hrev ho hb hg hx
      refine ⟨new, hn, hp, by rw [hg]; exact hrev, fun d h => ?_,
        fun hd _ => ?_, by rw [hb, he]; rfl,
        fun code h => .inl ?_, hx⟩
      · rw [hg] at h
        exact .inr (.inr ⟨r, base, hr, Option.some_inj.1 h ▸ hs⟩)
      · rw [hg, opened_append, ho]
        exact hd
      · rw [hg] at h
        exact h
    simp only [stepFrame]
    split
    · exact run _ [.restoring _] rfl (one hp) rfl rfl rfl rfl (.giving _)
    · rename_i d hd
      have ht : st.graph.target? c = d.target := congrArg (Option.bind · _) hd
      split
      · exact run _ [.restoring _] rfl (one hp) rfl rfl rfl rfl (.acting _)
      · rename_i s hd'
        split
        · -- The frame that was taken off held on to no source.
          rename_i hlive
          refine run _ [.storing s, .restoring _] rfl (forall_mem_cons.2 ⟨?_, one hp⟩) rfl rfl rfl
            rfl (.acting _)
          refine ⟨r, c, base, hr, hs, ht.trans hd', ?_⟩
          simp only [isLiveSource, liveSources, hs] at hlive ⊢
          exact hlive
        · exact run _ [.restoring _] rfl (one hp) rfl rfl rfl rfl (.giving _)
  | draining s =>
    simp only [stepFrame, Graph.takeNext?]
    cases hn : st.graph.next? with
    | some d =>
      refine ⟨[.draining s], .calm rfl (one trivial) rfl (.executing d (.inl ?_)) he rfl rfl rfl⟩
      rw [event_giving hr hs, frameEvent, hn]
    | none =>
      exact ⟨[], rfl, nil, rfl, fun c h => .inl h, fun _ hd => (hd s rfl).symm, he ▸ rfl,
        fun code h => .inl h, .giving _⟩
  | flushing n k =>
    simp only [stepFrame]
    split
    · exact ⟨[], .calm rfl nil rfl (.acting _) he rfl rfl rfl⟩
    · rename_i code tasks ht
      refine ⟨[.flushing _ k], rfl, one trivial, rfl, fun c h => .inl h, fun hb _ => hb, he ▸ rfl,
        fun word h => .inl ?_, .acting _⟩
      exact ht ▸ mem_cons_of_mem code h
  | _ => exact ⟨[], .calm rfl nil rfl (.acting _) he rfl rfl rfl⟩

theorem shifts_unwind {message} (hm : st.control = .failing message) :
    Shifts L st ({ st with stack := base }.unwind message f) [f] [] base := by
  have he : st.entersBatch = false := by simp only [entersBatch, hm]
  have nil : ∀ f ∈ [], st.Pushes L f := forall_mem_nil _
  have hx : Goes L st st.control := by rw [hm]; exact .failing message
  cases f with
  | catching k => exact .calm rfl nil rfl (.acting _) he rfl rfl rfl
  | batching k =>
    simp only [unwind, modifyGraph]
    split <;> exact ⟨rfl, nil, rfl, fun c h => .inl h, fun h _ => opened_left h, he ▸ rfl,
      fun code h => .inl h, hx⟩
  | restoring p =>
    refine ⟨rfl, nil, rfl, fun c h => .inr (.inl ?_), fun hb _ => hb.trans (Nat.zero_add _),
      he ▸ rfl,
      fun code h => .inl h, hx⟩
    obtain rfl : p = some c := h
    exact mem_singleton_self _
  | draining s =>
    exact ⟨rfl, nil, rfl, fun c h => .inl h, fun _ hd => (hd s rfl).symm, he ▸ rfl,
      fun code h => .inl h, hx⟩
  | _ => exact .calm rfl nil rfl hx he rfl rfl rfl

/-- A step takes at most the frame on top away, and puts others in its place. -/
inductive Restacks (L : Language S) (st next : State S) : Prop
  | keeps (new : List (Frame S)) : Shifts L st next [] new st.stack →
      (∀ r, st.control ≠ .giving r) → (∀ message, st.control ≠ .failing message) →
        Restacks L st next
  | gives (r : S.Result) (f : Frame S) (rest new : List (Frame S)) : st.control = .giving r →
      st.stack = f :: rest → Shifts L st next [f] new rest → Restacks L st next
  | fails (message : String) (f : Frame S) (rest : List (Frame S)) : st.control = .failing message →
      st.stack = f :: rest → Shifts L st next [f] [] rest → Restacks L st next

section

variable (h : st.step? L = some next)

include h

theorem restacks_step : Restacks L st next := by
  refine step_cases h ?_ ?_ ?_ ?_ ?_
  · intro a ha
    obtain ⟨new, hs⟩ := shifts_stepAction ha
    exact .keeps new hs (by simp [ha]) (by simp [ha])
  · intro c hc _
    refine .keeps [] (.calm rfl (forall_mem_nil _) rfl (.giving _) ?_ rfl rfl rfl)
      (by simp [hc]) (by simp [hc])
    simp only [entersBatch, hc]
  · intro c hc hd
    refine .keeps [.cleaning c _, .starting c]
      (.calm rfl ?_ schedule_release (.giving _) ?_ rfl rfl rfl)
      (by simp [hc]) (by simp [hc])
    · exact forall_mem_cons.2 ⟨.inl hc, forall_mem_singleton.2 ⟨hc, hd⟩⟩
    · simp only [entersBatch, hc]
  · intro r f rest hr hs
    obtain ⟨new, hn⟩ := shifts_stepFrame hr hs
    exact .gives r f rest new hr hs hn
  · intro message f rest hm hs
    exact .fails message f rest hm hs (shifts_unwind hm)

theorem shifts_step :
    ∃ old new base, st.stack = old ++ base ∧ Shifts L st next old new base ∧
      (old = [] ∨ ∃ f, old = [f]) := by
  cases restacks_step h with
  | keeps new hs _ _ => exact ⟨[], new, st.stack, rfl, hs, .inl rfl⟩
  | gives r f rest new _ hst hs => exact ⟨[f], new, rest, hst, hs, .inr ⟨f, rfl⟩⟩
  | fails m f rest _ hst hs => exact ⟨[f], [], rest, hst, hs, .inr ⟨f, rfl⟩⟩

theorem mem_stack_of_step (hf : f ∈ next.stack) :
    f ∈ st.stack ∨ st.Pushes L f := by
  obtain ⟨old, new, base, hst, hs, -⟩ := shifts_step h
  rw [hs.stack, mem_append] at hf
  exact hf.symm.imp (fun hf => hst ▸ mem_append_right old hf) (hs.pushes f)

theorem mem_stack_step (hf : f ∈ st.stack) :
    f ∈ next.stack ∨ ((∃ rest, st.stack = f :: rest) ∧
      ((∃ r, st.control = .giving r) ∨ ∃ message, st.control = .failing message)) := by
  cases restacks_step h with
  | keeps new hs _ _ => exact .inl (hs.stack ▸ mem_append_right new hf)
  | gives r f' rest new hr hst hs =>
    rw [hst] at hf ⊢
    rcases mem_cons.1 hf with rfl | hf
    · exact .inr ⟨⟨rest, rfl⟩, .inl ⟨r, hr⟩⟩
    · exact .inl (hs.stack ▸ mem_append_right new hf)
  | fails message f' rest hm hst hs =>
    rw [hst] at hf ⊢
    rcases mem_cons.1 hf with rfl | hf
    · exact .inr ⟨⟨rest, rfl⟩, .inr ⟨message, hm⟩⟩
    · exact .inl (hs.stack ▸ hf)

theorem executing_of_step (hc : next.control = .executing c) :
    st.event L = .take c ∨
      ((∃ code, st.event L = .memo code ∨ st.event L = .effect code) ∧
        c = st.graph.computations.size) := by
  obtain ⟨old, new, base, -, hs, -⟩ := shifts_step h
  have hgoes := hs.control
  rw [hc] at hgoes
  cases hgoes
  assumption

theorem current_of_step (hc : next.graph.current = some c) :
    st.graph.current = some c ∨ .restoring (some c) ∈ st.stack ∨
      ∃ r rest, st.control = .giving r ∧ st.stack = .starting c :: rest := by
  obtain ⟨old, new, base, hst, hs, -⟩ := shifts_step h
  exact (hs.current c hc).imp_right fun hc => hc.imp_left fun hc => hst ▸ mem_append_left base hc

theorem balanced_step (hp : Poised st.graph st.control st.stack)
    (hb : st.graph.depth = opened st.stack) : next.graph.depth = opened next.stack := by
  cases restacks_step h with
  | keeps new hs _ _ => exact hs.stack ▸ hs.depth hb fun s h => absurd h (by simp)
  | gives r f rest new hr hst hs =>
    rw [hr, hst] at hp
    refine hs.stack ▸ hs.depth (hb.trans (congrArg opened hst)) fun s hf => ?_
    obtain rfl : f = .draining s := singleton_inj.1 hf
    exact (hp.seats_of_giving trivial).1
  | fails m f rest hm hst hs =>
    rw [hm, hst] at hp
    refine hs.stack ▸ hs.depth (hb.trans (congrArg opened hst)) fun s hf => ?_
    obtain rfl : f = .draining s := singleton_inj.1 hf
    exact hp.seats_of_failing.1

end

end State

end ReactiveMarkup.Reactive
