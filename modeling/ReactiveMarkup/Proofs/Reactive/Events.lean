/-
What a step does to the graph.

A step of the machine does at most one thing to dependencies, values and the
queue of the scheduler.  That thing is its event, and it can be told from the
state before the step.  All else that a step changes in the graph is which
computation is running, how many batches are open, and which tasks wait.
-/
import ReactiveMarkup.Proofs.Reactive.Dependencies
import ReactiveMarkup.Reactive.Machine

namespace ReactiveMarkup.Reactive

open Option

/-- What a step does to dependencies, values and the queue. -/
inductive Event (V C : Type) where
  | idle
  /-- A computation has read a source of some height. -/
  | track (c : ComputationId) (s : SourceId) (height : Nat)
  /-- A source gets a new value, and its subscribers wait to run. -/
  | assign (s : SourceId) (v : V)
  | start (c : ComputationId)
  | dispose (c : ComputationId)
  | take (c : ComputationId)
  | signal (v : V)
  | memo (code : C)
  | effect (code : C)
  /-- A computation gets something to clean up. -/
  | register (c : ComputationId) (code : C)
  /-- Nothing waits to run any more. -/
  | abandon

def Event.apply {V C : Type} (g : Graph V C) : Event V C → Graph V C
  | .idle => g
  | .track c s height => g.subscribe c s height
  | .assign s v => (g.setValue s v).enqueue (g.subscribers s)
  | .start c => g.release c
  | .dispose c => (g.markDisposed c).release c
  | .take c => { g with pending := g.pending.erase c }
  | .signal v => (g.addSignal v).1
  | .memo code => (g.addMemo code).1
  | .effect code => (g.addEffect code).1
  | .register c code => g.addCleanup c (.run code)
  | .abandon => { g with pending := [] }

/-- A graph with another computation running, other batches open and other tasks. -/
def Graph.reschedule {V C : Type} (g : Graph V C) (depth : Nat) (current : Option ComputationId)
    (tasks : List C) : Graph V C :=
  { g with depth, current, tasks }

namespace Event

open Reactive.Graph

variable {V C : Type} {g : Graph V C} {c : ComputationId} {s : SourceId} {x : Computation C}
  {y : Cleanup C} (e : Event V C)

/-! ### Values and the queue after an event -/

theorem value?_apply :
    (e.apply g).value? s =
      match e with
      | .assign t v => if t = s ∧ (g.source? s).isSome then some v else g.value? s
      | .signal v => if s = g.sources.size then some v else g.value? s
      | _ => g.value? s := by
  cases e with
  | track d t h => exact value?_of_map (source?_subscribe_map fun _ _ => rfl)
  | assign t v =>
    show (g.setValue t v).value? s = _
    rw [value?, source?_setValue]
    by_cases hts : t = s
    · cases hs : g.source? s <;> simp [hts, hs, value?]
    · simp [hts, value?]
  | start d | dispose d => exact value?_of_map (source?_release_map fun _ _ => rfl)
  | signal v =>
    show (g.addSignal v).1.value? s = _
    rw [value?, source?_addSignal]
    by_cases hs : s = g.sources.size <;> simp [hs, value?]
  | memo code =>
    show (g.addMemo code).1.value? s = g.value? s
    rw [value?, source?_addMemo]
    by_cases hs : s = g.sources.size
    · rw [if_pos hs, hs, value?, source?_size]
      rfl
    · rw [if_neg hs, value?]
  | effect code =>
    show (g.addEffect code).1.value? s = g.value? s
    rw [value?, source?, addEffect, sources_addComputation]
    rfl
  | _ => rfl

theorem value?_apply_of_ne (hv : g.value? s = some v) (he : ∀ w, e ≠ .assign s w) :
    (e.apply g).value? s = some v := by
  have hs : s ≠ g.sources.size := fun hs => by
    rw [hs, value?, source?_size] at hv
    cases hv
  rw [value?_apply]
  split
  · rename_i t w
    rw [if_neg (fun h => he w (by rw [h.1]))]
    exact hv
  · rw [if_neg hs]
    exact hv
  · exact hv

theorem pending_apply :
    (e.apply g).pending =
      match e with
      | .assign s _ => (g.subscribers s).foldl (fun l c => insertLast c l) g.pending
      | .take c => g.pending.erase c
      | .abandon => []
      | _ => g.pending := by
  cases e with
  | track c s h => exact pending_subscribe
  | start c | dispose c => exact pending_release
  | memo code => exact pending_addMemo g code
  | effect code => exact pending_addComputation
  | _ => rfl

/-! ### Computations after an event -/

variable (g) in
def made? : Event V C → Option (Computation C)
  | .memo code => some { code, target := some g.sources.size }
  | .effect code => some { code }
  | _ => none

variable (g c) in
/-- What an event makes of a computation that is there. -/
def revise (x : Computation C) : Event V C → Computation C
  | .track d s h =>
    if d = c ∧ g.Notes d s then
      { x with sources := insertLast s x.sources, height := max x.height (h + 1) }
    else x
  | .start d => if d = c then { x with sources := [], cleanups := [], height := 0 } else x
  | .dispose d =>
    if d = c then { x with sources := [], cleanups := [], height := 0, disposed := true } else x
  | .memo _ | .effect _ =>
    if g.current = some c then { x with cleanups := x.cleanups ++ [.dispose g.computations.size] }
    else x
  | .register d code => if d = c then { x with cleanups := x.cleanups ++ [.run code] } else x
  | _ => x

/-- The computation that is reset, to run again or since it is disposed. -/
def renewed? : Event V C → Option ComputationId
  | .start c | .dispose c => some c
  | _ => none

variable (g c) in
/-- What a computation gets to clean up. -/
def duty : Event V C → List (Cleanup C)
  | .memo _ | .effect _ => if g.current = some c then [.dispose g.computations.size] else []
  | .register d code => if d = c ∧ c < g.computations.size then [.run code] else []
  | _ => []

theorem computation?_apply_of_old (hc : c ≠ g.computations.size ∨ e.made? g = none) :
    (e.apply g).computation? c = (g.computation? c).map fun x => e.revise g c x := by
  cases e with
  | track d s h => exact computation?_subscribe
  | start d => exact computation?_release
  | dispose d =>
    refine computation?_release.trans ?_
    rw [markDisposed, computation?_modifyComputation, map_map]
    simp only [revise]
    split_ifs <;> rfl
  | memo code | effect code => exact computation?_addComputation (hc.resolve_right nofun)
  | register d code => exact computation?_modifyComputation g d c _
  | _ => exact map_id'.symm

theorem size_le_apply : g.computations.size ≤ (e.apply g).computations.size := by
  by_contra h
  have hnone := computation?_size (g := e.apply g)
  rw [e.computation?_apply_of_old (.inl fun heq => h (Nat.le_of_eq heq.symm)),
    map_eq_none_iff, computation?, Array.getElem?_eq_none_iff] at hnone
  exact h hnone

theorem code_target_revise :
    (e.revise g c x).code = x.code ∧ (e.revise g c x).target = x.target := by
  cases e <;> simp only [revise, and_self] <;> split_ifs <;> exact ⟨rfl, rfl⟩

theorem mem_sources_revise : s ∈ (e.revise g c x).sources ↔
    (s ∈ x.sources ∧ e ≠ .start c ∧ e ≠ .dispose c) ∨ ∃ n, e = .track c s n ∧ g.Notes c s := by
  cases e with
  | track d t n =>
    simp only [revise, track.injEq]
    split_ifs with h
    · simp only [mem_insertLast]
      grind
    · grind
  | _ => simp only [revise]; grind

theorem cleanups_revise (hc : c < g.computations.size) : (e.revise g c x).cleanups =
    if e.renewed? = some c then [] else x.cleanups ++ e.duty g c := by
  cases e <;> simp only [revise, renewed?, duty] <;> grind

variable (hcur : ∀ o, g.current = some o → o < g.computations.size)

include hcur

theorem apply_cases (c : ComputationId) :
    (∃ x, c < g.computations.size ∧ g.computation? c = some x ∧
      (e.apply g).computation? c = some (e.revise g c x)) ∨
    (g.computations.size ≤ c ∧ g.computation? c = none ∧
      (e.apply g).computation? c = if c = g.computations.size then e.made? g else none) := by
  by_cases hc : c < g.computations.size
  · have hx : g.computation? c = some g.computations[c] := Array.getElem?_eq_getElem hc
    refine .inl ⟨_, hc, hx, ?_⟩
    rw [e.computation?_apply_of_old (.inl (Nat.ne_of_lt hc)), hx]
    rfl
  · have hnone : g.computation? c = none := Array.getElem?_eq_none (Nat.le_of_not_lt hc)
    refine .inr ⟨Nat.le_of_not_lt hc, hnone, ?_⟩
    split_ifs with heq
    · -- Only an event that makes a computation puts one there.
      have hnew : g.current ≠ some g.computations.size :=
        fun h => absurd (hcur _ h) (Nat.lt_irrefl _)
      subst heq
      cases e with
      | memo code | effect code => exact computation?_addComputation_new hnew
      | _ =>
        rw [computation?_apply_of_old _ (.inr rfl), hnone]
        rfl
    · rw [e.computation?_apply_of_old (.inl heq), hnone]
      rfl

theorem isDisposed_apply :
    (e.apply g).isDisposed c = true ↔
      g.isDisposed c = true ∨ (e = .dispose c ∧ c < g.computations.size) := by
  rcases e.apply_cases hcur c with ⟨x, hc, hx, hx'⟩ | ⟨hc, hx, hx'⟩
  · simp only [isDisposed, hx']
    cases e <;> simp only [revise] <;> grind
  · simp only [isDisposed, hx, hx']
    cases e <;> split_ifs <;> simp [made?, Nat.not_lt.2 hc]

theorem mem_sourcesOf_apply (ht : ∀ c s h, e = .track c s h → c < g.computations.size) :
    s ∈ (e.apply g).sourcesOf c ↔
      (s ∈ g.sourcesOf c ∧ e ≠ .start c ∧ e ≠ .dispose c) ∨
        ∃ n, e = .track c s n ∧ g.Notes c s := by
  rcases e.apply_cases hcur c with ⟨x, hc, hx, hx'⟩ | ⟨hc, hx, hx'⟩
  · simp only [sourcesOf, hx, hx']
    exact e.mem_sources_revise
  · have htrack : ¬ ∃ n, e = .track c s n ∧ g.Notes c s := by
      rintro ⟨n, he, -⟩
      exact absurd (ht c s n he) (Nat.not_lt.2 hc)
    simp only [sourcesOf, hx, hx', htrack]
    cases e <;> split_ifs <;> simp [made?]

theorem cleanups_apply : (e.apply g).cleanups c =
    if e.renewed? = some c then [] else g.cleanups c ++ e.duty g c := by
  rcases e.apply_cases hcur c with ⟨x, hc, hx, hx'⟩ | ⟨hc, hx, hx'⟩
  · simp only [cleanups, hx, hx']
    exact e.cleanups_revise hc
  · have hother : g.current ≠ some c := fun h => absurd (hcur c h) (Nat.not_lt.2 hc)
    simp only [cleanups, hx']
    cases e <;> split_ifs <;> simp_all [made?, duty]

theorem mem_cleanups_apply : y ∈ (e.apply g).cleanups c ↔
    (y ∈ g.cleanups c ∧ e ≠ .start c ∧ e ≠ .dispose c) ∨
      (c < g.computations.size ∧ ∃ code, e = .register c code ∧ y = .run code) ∨
      (g.current = some c ∧ y = .dispose g.computations.size ∧
        ∃ code, e = .memo code ∨ e = .effect code) := by
  rw [e.cleanups_apply hcur]
  cases e <;> simp only [renewed?, duty] <;> grind

omit hcur in
theorem code_target_apply (hc : c < g.computations.size) :
    (e.apply g).code? c = g.code? c ∧ (e.apply g).target? c = g.target? c := by
  have hx : g.computation? c = some g.computations[c] := Array.getElem?_eq_getElem hc
  simp only [code?, target?, e.computation?_apply_of_old (.inl (Nat.ne_of_lt hc)), hx,
    map_some, bind_some, e.code_target_revise, and_self]

theorem target?_apply : (e.apply g).target? c = some s ↔ g.target? c = some s ∨
    ∃ code, e = .memo code ∧ c = g.computations.size ∧ s = g.sources.size := by
  rcases e.apply_cases hcur c with ⟨x, hc, hx, hx'⟩ | ⟨hc, hx, hx'⟩
  · simp [(e.code_target_apply hc).2, Nat.ne_of_lt hc]
  · simp only [target?, hx, hx']
    cases e <;> split_ifs with h <;> simp [made?, h, eq_comm]

theorem code?_of_apply {code} (h : (e.apply g).code? c = some code) :
    g.code? c = some code ∨ e = .memo code ∨ e = .effect code := by
  rcases e.apply_cases hcur c with ⟨x, hc, hx, hx'⟩ | ⟨hc, hx, hx'⟩
  · exact .inl ((e.code_target_apply hc).1.symm.trans h)
  · simp only [code?, hx'] at h
    cases e <;> split_ifs at h <;> simp_all [made?]

omit hcur in
theorem maker?_apply : (e.apply g).maker? s = some c ↔ g.maker? s = some c ∨
    ∃ code, e = .memo code ∧ c = g.computations.size ∧ s = g.sources.size := by
  have hold (h : (e.apply g).maker? s = g.maker? s) (hm : ∀ code, e ≠ .memo code) :
      (e.apply g).maker? s = some c ↔ g.maker? s = some c ∨
        ∃ code, e = .memo code ∧ c = g.computations.size ∧ s = g.sources.size := by
    rw [h, or_iff_left]
    rintro ⟨code, he, -⟩
    exact hm code he
  cases e with
  | track d t h => exact hold (maker?_of_map (source?_subscribe_map fun _ _ => rfl)) (by simp)
  | assign t v =>
    refine hold (maker?_of_map ((congrArg _ source?_setValue).trans ?_)) (by simp)
    split <;> simp [Function.comp_def]
  | start d | dispose d =>
    exact hold (maker?_of_map (source?_release_map fun _ _ => rfl)) (by simp)
  | signal v =>
    simp only [apply, maker?, source?_addSignal]
    split_ifs with hs <;> simp [hs, source?_size]
  | memo code =>
    simp only [apply, maker?, source?_addMemo]
    split_ifs with hs <;> simp [hs, source?_size, eq_comm]
  | effect code =>
    refine hold ?_ (by simp)
    rw [apply, addEffect, maker?, source?, sources_addComputation]
    rfl
  | _ => exact hold rfl (by simp)

/-! ### Consistency -/

omit hcur in
theorem subscribers_apply (hg : g.Consistent) : ((e.apply g).subscribers s).Nodup ∧
    (c ∈ (e.apply g).subscribers s ↔
      (c ∈ g.subscribers s ∧ e ≠ .start c ∧ e ≠ .dispose c) ∨
        ∃ n, e = .track c s n ∧ g.Notes c s) := by
  have hold (h : (e.apply g).subscribers s = g.subscribers s)
      (he : e ≠ .start c ∧ e ≠ .dispose c ∧ ∀ n, e ≠ .track c s n) :
      ((e.apply g).subscribers s).Nodup ∧ (c ∈ (e.apply g).subscribers s ↔
        (c ∈ g.subscribers s ∧ e ≠ .start c ∧ e ≠ .dispose c) ∨
          ∃ n, e = .track c s n ∧ g.Notes c s) := by
    obtain ⟨hs, hd, ht⟩ := he
    refine ⟨h ▸ hg.nodup s, ?_⟩
    simp [h, hs, hd, ht]
  cases e with
  | track d t h =>
    refine ⟨nodup_subscribers_subscribe hg.nodup, mem_subscribers_subscribe.trans ?_⟩
    simp only [track.injEq]
    grind
  | start d =>
    refine ⟨nodup_subscribers_release hg.nodup, (mem_subscribers_release hg.nodup).trans ?_⟩
    rw [← hg.linked]
    grind
  | dispose d =>
    have hn : ∀ t, ((g.markDisposed d).subscribers t).Nodup := hg.nodup
    refine ⟨nodup_subscribers_release hn, (mem_subscribers_release hn).trans ?_⟩
    rw [sourcesOf_of_map (computation?_markDisposed_map fun _ => rfl), ← hg.linked]
    show c ∈ g.subscribers s ∧ _ ↔ _
    grind
  | assign t v =>
    refine hold (subscribers_of_map ((congrArg _ source?_setValue).trans ?_)) (by simp)
    split <;> simp [Function.comp_def]
  | signal v => exact hold (subscribers_of_new rfl (fun _ => source?_addSignal) s) (by simp)
  | memo code =>
    exact hold (subscribers_of_new rfl (fun _ => source?_addMemo g code) s) (by simp)
  | effect code =>
    refine hold ?_ (by simp)
    rw [apply, addEffect, subscribers, source?, sources_addComputation]
    rfl
  | _ => exact hold rfl (by simp)

theorem consistent_apply (ht : ∀ c s h, e = .track c s h → c < g.computations.size)
    (hg : g.Consistent) : (e.apply g).Consistent where
  linked s c := by rw [(e.subscribers_apply hg).2, e.mem_sourcesOf_apply hcur ht, hg.linked]
  nodup s := (e.subscribers_apply (c := 0) hg).1
  released c hd := by
    refine List.eq_nil_iff_forall_not_mem.2 fun s hs => ?_
    rw [e.mem_sourcesOf_apply hcur ht] at hs
    rcases (e.isDisposed_apply hcur).1 hd with hd | ⟨rfl, -⟩
    · -- A read by a disposed computation is not noted.
      rcases hs with ⟨hs, -⟩ | ⟨n, -, hn⟩
      · exact List.not_mem_nil (hg.released c hd ▸ hs)
      · exact absurd hd (by rw [hn.1]; exact Bool.false_ne_true)
    · simp at hs
  younger c d hd := by
    rcases (e.mem_cleanups_apply hcur).1 hd with ⟨hd, -⟩ | ⟨-, code, -, he⟩ | ⟨hc, he, -⟩
    · exact hg.younger c d hd
    · cases he
    · cases he
      exact hcur c hc
  made s c := by rw [e.target?_apply hcur, e.maker?_apply, hg.made]

end Event

namespace State

variable {S : Setting} [BEq S.Value] (L : Language S)

/-- What the next step does, if it is one of an action. -/
def actionEvent (st : State S) : Action S S.Result → Event S.Value S.Code
  | .signal v _ => .signal v
  | .memo code _ => .memo code
  | .effect code _ => .effect code
  | .read s true _ =>
    match st.graph.current with
    | some c => .track c s (st.sourceHeight L s)
    | none => .idle
  | .write s v _ =>
    if !st.graph.isSignal s || st.graph.value? s == some v then .idle else .assign s v
  | .cleanup code _ =>
    match st.graph.current with
    | some c => .register c code
    | none => .idle
  | _ => .idle

/-- What the next step does, if it gives a result to a frame. -/
def frameEvent (st : State S) (r : S.Result) : Frame S → Event S.Value S.Code
  | .storing s =>
    if st.graph.value? s == some (L.value r) then .idle else .assign s (L.value r)
  | .cleaning _ (.dispose d :: _) =>
    if st.isLive L d && !st.graph.isDisposed d then .dispose d else .idle
  | .draining _ =>
    match st.graph.next? with
    | some c => .take c
    | none => .idle
  | _ => .idle

/-- What the next step does, if it passes a failure through a frame. -/
def failureEvent (st : State S) : Frame S → Event S.Value S.Code
  | .batching _ => if st.graph.depth - 1 = 0 then .abandon else .idle
  | .draining _ => .abandon
  | _ => .idle

/-- What the next step does to dependencies, values and the queue. -/
def event (st : State S) : Event S.Value S.Code :=
  match st.control with
  | .acting a => st.actionEvent L a
  | .executing c => if st.graph.isDisposed c then .idle else .start c
  | .giving r =>
    match st.stack with
    | f :: _ => st.frameEvent L r f
    | [] => .idle
  | .failing _ =>
    match st.stack with
    | f :: _ => st.failureEvent f
    | [] => .idle

variable {L} {st next : State S}

/-! ### Kinds of steps -/

/-- Each step is one of an action, of a computation that is to run, of a frame that gets a result,
or of a frame that a failure passes through. -/
@[elab_as_elim]
theorem step_cases {motive : State S → Prop} (h : st.step? L = some next)
    (acting : ∀ a, st.control = .acting a → motive (st.stepAction L a))
    (skip : ∀ c, st.control = .executing c → st.graph.isDisposed c = true →
      motive (st.give L.nothing))
    (start : ∀ c, st.control = .executing c → st.graph.isDisposed c = false →
      motive (((st.push (.starting c)).reset c).give L.nothing))
    (giving : ∀ r f rest, st.control = .giving r → st.stack = f :: rest →
      motive ({ st with stack := rest }.stepFrame L r f))
    (failing : ∀ message f rest, st.control = .failing message → st.stack = f :: rest →
      motive ({ st with stack := rest }.unwind message f)) : motive next := by
  unfold step? at h
  split at h
  case h_1 a ha => exact some_inj.1 h ▸ acting a ha
  case h_2 c hc =>
    by_cases hd : st.graph.isDisposed c
    · rw [if_pos hd] at h
      exact some_inj.1 h ▸ skip c hc hd
    · rw [if_neg hd] at h
      exact some_inj.1 h ▸ start c hc (Bool.eq_false_iff.2 hd)
  case h_3 r hr =>
    cases hs : st.stack with
    | nil => simp [hs] at h
    | cons f rest =>
      rw [hs] at h
      exact some_inj.1 h ▸ giving r f rest hr hs
  case h_4 message hm =>
    cases hs : st.stack with
    | nil => simp [hs] at h
    | cons f rest =>
      rw [hs] at h
      exact some_inj.1 h ▸ failing message f rest hm hs

theorem event_acting (h : st.control = .acting a) : st.event L = st.actionEvent L a := by
  simp only [event, h]

theorem event_executing (h : st.control = .executing c) :
    st.event L = if st.graph.isDisposed c then .idle else .start c := by
  simp only [event, h]

variable {rest : List (Frame S)} {r : S.Result} {f : Frame S} {message : String}

theorem event_giving (h : st.control = .giving r) (hs : st.stack = f :: rest) :
    st.event L = st.frameEvent L r f := by
  simp only [event, h, hs]

theorem event_failing (h : st.control = .failing message) (hs : st.stack = f :: rest) :
    st.event L = st.failureEvent f := by
  simp only [event, h, hs]

section Next

variable (h : st.step? L = some next)

include h

theorem next_acting {a} (ha : st.control = .acting a) : next = st.stepAction L a := by
  simpa [step?, ha] using h.symm

theorem next_starting {c} (hc : st.control = .executing c) (hd : st.graph.isDisposed c = false) :
    next = ((st.push (.starting c)).reset c).give L.nothing := by
  simpa [step?, hc, hd] using h.symm

theorem next_giving (hr : st.control = .giving r) (hs : st.stack = f :: rest) :
    next = { st with stack := rest }.stepFrame L r f := by
  simpa [step?, hr, hs] using h.symm

theorem next_failing (hm : st.control = .failing message) (hs : st.stack = f :: rest) :
    next = { st with stack := rest }.unwind message f := by
  simpa [step?, hm, hs] using h.symm

end Next

/-! ### What stands behind an event -/

variable (L) in
/-- When a step does what an event says. -/
def Occasion (st : State S) : Event S.Value S.Code → Prop
  | .idle => True
  | .track c s h =>
    st.graph.current = some c ∧ h = st.sourceHeight L s ∧ ∃ k, st.control = .acting (.read s true k)
  | .assign s v =>
    (st.graph.value? s == some v) = false ∧
      ((st.graph.isSignal s = true ∧ ∃ next, st.control = .acting (.write s v next)) ∨
        ∃ r rest, st.control = .giving r ∧ st.stack = .storing s :: rest ∧ v = L.value r)
  | .start c => st.control = .executing c ∧ st.graph.isDisposed c = false
  | .dispose d =>
    st.graph.isDisposed d = false ∧
      ∃ r c l rest, st.control = .giving r ∧ st.stack = .cleaning c (.dispose d :: l) :: rest
  | .take c =>
    st.graph.next? = some c ∧ ∃ r s rest, st.control = .giving r ∧ st.stack = .draining s :: rest
  | .signal v => ∃ k, st.control = .acting (.signal v k)
  | .memo code => ∃ k, st.control = .acting (.memo code k)
  | .effect code => ∃ next, st.control = .acting (.effect code next)
  | .register c code => st.graph.current = some c ∧ ∃ k, st.control = .acting (.cleanup code k)
  | .abandon => ∃ message, st.control = .failing message

theorem occasion_actionEvent (h : st.control = .acting a) : st.Occasion L (st.actionEvent L a) := by
  cases a <;> simp only [actionEvent] <;> (repeat' split) <;> simp_all [Occasion]

theorem occasion_frameEvent (h : st.control = .giving r) (hs : st.stack = f :: rest) :
    st.Occasion L (st.frameEvent L r f) := by
  unfold frameEvent
  repeat' split
  all_goals simp_all [Occasion]

omit [BEq S.Value] in
theorem failureEvent_eq (f : Frame S) :
    st.failureEvent f = .idle ∨ st.failureEvent f = .abandon := by
  cases f <;> simp only [failureEvent] <;> grind

theorem occasion_event : st.Occasion L (st.event L) := by
  unfold event
  split
  case h_1 a ha => exact occasion_actionEvent ha
  case h_2 c hc =>
    split
    · trivial
    · rename_i hd
      exact ⟨hc, Bool.eq_false_iff.2 hd⟩
  case h_3 r hr =>
    split
    case h_1 f rest hs => exact occasion_frameEvent hr hs
    case h_2 => trivial
  case h_4 message hm =>
    split
    case h_1 f rest hs =>
      rcases failureEvent_eq f with he | he
      · rw [he]; trivial
      · rw [he]; exact ⟨message, hm⟩
    case h_2 => trivial

theorem occasion_of_event (h : st.event L = e) : st.Occasion L e :=
  h ▸ occasion_event

/-! ### The graph after a step -/

/-- Whether a graph differs from another at most in what is running, in batches and in tasks. -/
def Resembles (g g' : Graph S.Value S.Code) : Prop :=
  g = g'.reschedule g.depth g.current g.tasks

theorem resembles_stepAction (a : Action S S.Result) :
    Resembles (st.stepAction L a).graph ((st.actionEvent L a).apply st.graph) := by
  cases a with
  | read s tracked k =>
    simp only [stepAction, actionEvent]
    cases tracked with
    | false => split <;> rfl
    | true =>
      cases st.graph.current with
      | none => split <;> rfl
      | some c => split <;> rfl
  | write s v next =>
    simp only [stepAction, actionEvent]
    split
    · rfl
    · split <;> rfl
  | cleanup code k =>
    simp only [stepAction, actionEvent]
    cases st.graph.current <;> rfl
  | _ => rfl

/-- When a child is to be disposed, the frame that is put back holds on to what the frame before
held on to, so the same computations are in use. -/
theorem stepFrame_dispose (hr : st.control = .giving r)
    (hs : st.stack = .cleaning c (.dispose d :: l) :: rest) :
    { st with stack := rest }.stepFrame L r (.cleaning c (.dispose d :: l)) =
      if st.isLive L d && !st.graph.isDisposed d then
        ((({ st with stack := rest }.push (.cleaning c l)).give L.nothing).modifyGraph
          fun g => g.markDisposed d).reset d
      else ({ st with stack := rest }.push (.cleaning c l)).give L.nothing := by
  obtain ⟨host, g, control, stack⟩ := st
  obtain rfl : control = .giving r := hr
  obtain rfl : stack = .cleaning c (.dispose d :: l) :: rest := hs
  rfl

theorem resembles_stepFrame (hr : st.control = .giving r) (hs : st.stack = f :: rest) :
    Resembles ({ st with stack := rest }.stepFrame L r f).graph
      ((st.frameEvent L r f).apply st.graph) := by
  cases f with
  | cleaning c l =>
    rcases l with - | ⟨- | d, l⟩
    · rfl
    · rfl
    · rw [stepFrame_dispose hr hs, frameEvent]
      split <;> rfl
  | draining s =>
    simp only [stepFrame, frameEvent, Graph.takeNext?]
    cases st.graph.next? <;> rfl
  | _ =>
    simp only [stepFrame, frameEvent]
    repeat' split
    all_goals rfl

omit [BEq S.Value] in
theorem resembles_unwind (message : String) (f : Frame S) (rest : List (Frame S)) :
    Resembles ({ st with stack := rest }.unwind message f).graph
      ((st.failureEvent f).apply st.graph) := by
  cases f with
  | batching k =>
    simp only [unwind, failureEvent, modifyGraph]
    split <;> rfl
  | _ => rfl

theorem graph_of_step (h : st.step? L = some next) :
    ∃ depth current tasks,
      next.graph = ((st.event L).apply st.graph).reschedule depth current tasks := by
  suffices hn : Resembles next.graph ((st.event L).apply st.graph) from ⟨_, _, _, hn⟩
  refine step_cases h ?_ ?_ ?_ ?_ ?_
  · intro a ha
    rw [event_acting ha]
    exact resembles_stepAction a
  · intro c hc hd
    rw [event_executing hc, if_pos hd]
    rfl
  · intro c hc hd
    rw [event_executing hc, if_neg (Bool.eq_false_iff.1 hd)]
    rfl
  · intro r f rest hr hs
    rw [event_giving hr hs]
    exact resembles_stepFrame hr hs
  · intro message f rest hm hs
    rw [event_failing hm hs]
    exact resembles_unwind message f rest

end State

end ReactiveMarkup.Reactive
