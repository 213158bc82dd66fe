/-
Batches that make no difference.

In a batch that is already open, to open another one changes nothing: its end is not the
end of the outermost one, so nothing is run at it.  And a write outside all batches is
run as a batch that holds nothing else.  The one difference is that it holds on to its
source while the computations that wait are run.

* `Session.batch_transparent`: all this, of the states of a session.
-/
import ReactiveMarkup.Proofs.Reactive.Contexts
import ReactiveMarkup.Proofs.Reactive.Hosts

namespace ReactiveMarkup.Reactive

open Context State
open Program (body language setting)

variable {S : Setting} [BEq S.Value] {L : Language S}

/-- Code that runs over some frames, with `k` to be done after it. -/
def Context.direct (k : S.Result → Action S S.Result) (base : List (Frame S)) : Context S :=
  ⟨k, base, 0⟩

/-- Code that runs in a batch over some frames, with `k` to be done after the batch. -/
def Context.batched (k : S.Result → Action S S.Result) (base : List (Frame S)) : Context S :=
  ⟨.pure, .batching k :: base, 1⟩

/-- Computations that are run over some frames, on account of a write or of a batch. -/
def Context.drained (s : Option SourceId) (base : List (Frame S)) : Context S :=
  ⟨.pure, .draining s :: base, 0⟩

section Agrees

omit [BEq S.Value]

variable {host : S.Host} {k k' : S.Result → Action S S.Result} {base : List (Frame S)}

theorem Context.agrees_direct : (direct k base).Agrees L host (direct k' base) :=
  ⟨rfl, rfl, [], rfl, by simp⟩

theorem Context.agrees_batched : (batched k base).Agrees L host (direct k' base) :=
  ⟨rfl, rfl, [], rfl, by simp⟩

theorem Context.agrees_drained (h : s ∈ L.named host) :
    (drained (some s) base).Agrees L host (drained none base) :=
  ⟨rfl, rfl, [s], rfl, fun _ hs => List.mem_singleton.1 hs ▸ h⟩

theorem Context.stack_eq_nil {κ : Context S} {core : State S}
    (h : (κ.embed core).stack.length = κ.base.length) : core.stack = [] := by
  have hframes : (κ.embed core).stack.length = core.stack.length + κ.base.length :=
    κ.length_frames core.stack
  exact List.length_eq_zero_iff.1 (by omega)

theorem control_of_direct {core : State S} {a : Action S S.Result} (hs : core.stack = [])
    (h : ((direct .pure base).embed core).control = .acting a) :
    core.control = .acting a := by
  rw [embed, hs] at h
  cases hc : core.control with
  | acting a' =>
    rw [hc] at h
    exact (congrArg Control.acting a'.bind_pure.symm).trans h
  | _ =>
    rw [hc] at h
    cases h

end Agrees

/-! ### A part of a run in two contexts -/

/-- Whether two runs with the same part above what lies below take a step together, so that the part
has a property after it, or cannot be told apart. -/
def Together (L : Language S) (κ κ' : Context S) (P : State S → Prop) (core : State S) : Prop :=
  (∃ core', (κ.embed core).step? L = some (κ.embed core') ∧
    (κ'.embed core).step? L = some (κ'.embed core') ∧ P core') ∨
  Indistinct L (κ.embed core) (κ'.embed core)

/-- A part of a run with a batch open below it cannot be told apart in two contexts, as long as
these look the same and if it goes on the same way where it comes to an end. -/
theorem indistinct_embed (hready : ∀ {core}, P core → opened core.stack < core.graph.depth ∧
      (∀ f ∈ core.stack, f.isDrain = false) ∧ κ.Agrees L core.host κ')
    (hkeep : ∀ {core core'}, P core → core.Follows core' →
      (κ'.embed core).step? L = some (κ'.embed core') → P core')
    (hpure : ∀ {host g r}, P ⟨host, g, .acting (.pure r), []⟩ →
      Together L κ κ' P ⟨host, g, .acting (.pure r), []⟩)
    (hgives : ∀ {host g r}, P ⟨host, g, .giving r, []⟩ → Together L κ κ' P ⟨host, g, .giving r, []⟩)
    (hfails : ∀ {host g m}, P ⟨host, g, .failing m, []⟩ →
      Together L κ κ' P ⟨host, g, .failing m, []⟩) {core} (h : P core) :
    Indistinct L (κ.embed core) (κ'.embed core) := by
  let R (x y : State S) : Prop := ∃ core : State S, P core ∧ x = κ.embed core ∧ y = κ'.embed core
  have hstart : R (κ.embed core) (κ'.embed core) := ⟨core, h, rfl, rfl⟩
  have htogether : ∀ {core}, Together L κ κ' P core →
      (∃ x y, (κ.embed core).step? L = some x ∧ (κ'.embed core).step? L = some y ∧ R x y) ∨
        Indistinct L (κ.embed core) (κ'.embed core) := by
    rintro core (⟨core', hstep, hstep', hnext⟩ | hdone)
    · exact .inl ⟨_, _, hstep, hstep', core', hnext, rfl, rfl⟩
    · exact .inr hdone
  refine Indistinct.of_lockstep ?_ ?_ hstart
  · rintro x y ⟨core, -, rfl, rfl⟩
    exact alike_embed κ κ' core
  · rintro x y ⟨core, hcore, rfl, rfl⟩
    apply htogether
    obtain ⟨hdepth, hundrained, hagrees⟩ := hready hcore
    by_cases hmoves : core.Moves
    · obtain ⟨core', hfollows, hstep⟩ := exists_step_embed L hdepth hundrained hmoves
        ((κ'.embed core).outlook L)
      exact .inl ⟨core', hstep κ hagrees.outlook_embed, hstep κ' rfl,
        hkeep hcore hfollows (hstep κ' rfl)⟩
    · -- The part has come to its end: what lies below has to say what is next.
      rw [State.Moves, Classical.not_imp, not_or] at hmoves
      obtain ⟨hs, hexec, hacts⟩ := hmoves
      obtain ⟨host, g, control, stack⟩ := core
      obtain rfl : stack = [] := hs
      cases control with
      | acting a =>
        cases a with
        | pure r => exact hpure hcore
        | _ => exact absurd ⟨_, rfl, fun _ h => by cases h⟩ hacts
      | executing c => exact absurd ⟨c, rfl⟩ hexec
      | giving r => exact hgives hcore
      | failing m => exact hfails hcore

/-- Code with batches open below it cannot be told apart in two contexts that look the same, if that
holds once the code has given a result or has failed. -/
theorem indistinct_code {κ κ' : Context S} (hd : 0 < d) (hagrees : ∀ host, κ.Agrees L host κ')
    (hpure : ∀ host g r, g.depth = d → Indistinct L (κ.embed ⟨host, g, .acting (.pure r), []⟩)
      (κ'.embed ⟨host, g, .acting (.pure r), []⟩))
    (hfails : ∀ host g m, g.depth = d → Indistinct L (κ.embed ⟨host, g, .failing m, []⟩)
      (κ'.embed ⟨host, g, .failing m, []⟩)) (host : S.Host) (g : Graph S.Value S.Code)
    (a : Action S S.Result) (hg : g.depth = d) :
    Indistinct L (κ.embed ⟨host, g, .acting a, []⟩) (κ'.embed ⟨host, g, .acting a, []⟩) := by
  let P (core : State S) : Prop := core.graph.depth = d + opened core.stack ∧
    (∀ f ∈ core.stack, f.isDrain = false) ∧ core.Rooted
  have hstart : P ⟨host, g, .acting a, []⟩ := ⟨hg, by simp, rfl, fun _ => rfl⟩
  refine indistinct_embed ?_ ?_ ?_ ?_ ?_ hstart
  · rintro core ⟨hdepth, hundrained, -⟩
    exact ⟨by omega, hundrained, hagrees core.host⟩
  · rintro core core' ⟨hdepth, hundrained, hrooted⟩ hfollows -
    have := hfollows.depth
    exact ⟨by omega, hfollows.undrained hundrained, hfollows.rooted hrooted⟩
  · rintro host g r ⟨hdepth, -, -⟩
    exact .inr (hpure host g r hdepth)
  · rintro host g r ⟨-, -, hrooted⟩
    cases hrooted.isOpen rfl
  · rintro host g m ⟨hdepth, -, -⟩
    exact .inr (hfails host g m hdepth)

/-! ### Batches in batches -/

section Batch

variable {st : State S}

theorem step_batch (st : State S) (code : S.Code) (k : S.Result → Action S S.Result) :
    (st.act (.batch code k)).step? L =
      some ((batched k st.stack).embed ⟨st.host, st.graph, .acting (L.body code), []⟩) := by
  have hbody : (L.body code).bind .pure = L.body code := Action.bind_pure _
  show some _ = some (mk _ _ (.acting ((L.body code).bind .pure)) _)
  rw [hbody]
  rfl

theorem Indistinct.of_batch {code} (h : Indistinct L ((batched k st.stack).embed
      ⟨st.host, st.graph, .acting (L.body code), []⟩) b) :
    Indistinct L (st.act (.batch code k)) b :=
  .of_step (step_batch st code k) ⟨rfl, rfl⟩ h

theorem indistinct_batch (h : 0 < st.graph.depth) (code : S.Code)
    (k : S.Result → Action S S.Result) :
    Indistinct L (st.act (.batch code k)) (st.act ((L.body code).bind k)) := by
  refine .of_batch ?_
  refine indistinct_code h (fun _ => agrees_batched) ?_ ?_ _ _ _ rfl
  · intro host g r hg
    -- The outer batch is still open when the inner one ends.
    have hstill : g.depth + 1 - 1 ≠ 0 := by omega
    have hend : ((batched k st.stack).embed ⟨host, g, .giving r, []⟩).step? L =
        some ((direct k st.stack).embed ⟨host, g, .acting (.pure r), []⟩) :=
      congrArg some (if_neg hstill)
    have hgive : ((batched k st.stack).embed ⟨host, g, .acting (.pure r), []⟩).step? L =
        some ((batched k st.stack).embed ⟨host, g, .giving r, []⟩) := rfl
    exact .of_step hgive ⟨rfl, rfl⟩ (.of_step hend ⟨rfl, rfl⟩ (.refl _))
  · intro host g m hg
    have hstill : g.depth + 1 - 1 ≠ 0 := by omega
    have hend : ((batched k st.stack).embed ⟨host, g, .failing m, []⟩).step? L =
        some ((direct k st.stack).embed ⟨host, g, .failing m, []⟩) :=
      congrArg some (congrArg (fun g => mk _ g _ _) (if_neg hstill))
    exact .of_step hend ⟨rfl, rfl⟩ (.refl _)

theorem indistinct_inline {outer inlined} (inner : S.Code) (first : Action S S.Result)
    (after : S.Result → S.Result → Action S S.Result)
    (houter : L.body outer = first.bind fun r => .batch inner (after r))
    (hinlined : L.body inlined = first.bind fun r => (L.body inner).bind (after r))
    (k : S.Result → Action S S.Result) :
    Indistinct L (st.act (.batch outer k)) (st.act (.batch inlined k)) := by
  refine .of_batch (Indistinct.symm (.of_batch (Indistinct.symm ?_)))
  rw [houter, hinlined]
  -- What comes first is the same, over the frame of the outer batch.
  let g : Graph S.Value S.Code := { st.graph with depth := st.graph.depth + 1 }
  have hfirst : Indistinct L
      (embed ⟨fun r => .batch inner (after r), .batching k :: st.stack, 0⟩
        ⟨st.host, g, .acting first, []⟩)
      (embed ⟨fun r => (L.body inner).bind (after r), .batching k :: st.stack, 0⟩
        ⟨st.host, g, .acting first, []⟩) := by
    refine indistinct_code (Nat.succ_pos _) (fun _ => agrees_direct) ?_ ?_ _ _ _ rfl
    · intro host g r hg
      have hopen : 0 < g.depth := hg ▸ Nat.succ_pos _
      show Indistinct L (act ⟨host, g, .giving r, .batching k :: st.stack⟩ _) _
      exact indistinct_batch hopen inner (after r)
    · intro host g m _
      exact .refl _
  simp only [embed, Control.graft, Context.after, batched, Action.bind_pure]
  exact hfirst

end Batch

/-! ### Batches that write once -/

/-- Code that writes once, to a certain source, and is over then.  Before, it may look around, read
and change the host state. -/
inductive WritesOnce (L : Language S) (s : SourceId) : State S → Prop
  | write {st : State S} {v : S.Value} {r : S.Result} :
      st.control = .acting (.write s v (.pure r)) → WritesOnce L s st
  | step {st next : State S} {a : Action S S.Result} : st.control = .acting a → a.isPlain = true →
      st.step? L = some next → WritesOnce L s next → WritesOnce L s st

section Write

variable {start : State S} {s : SourceId} {base : List (Frame S)} {host : S.Host}

variable {g : Graph S.Value S.Code} {r : S.Result}

theorem step_drained_next (o : Option SourceId) (h : g.next? = some c) :
    ((drained o base).embed ⟨host, g, .giving r, []⟩).step? L =
      some ((drained o base).embed
        ⟨host, { g with pending := g.pending.erase c }, .executing c, []⟩) := by
  have htake : (g.raise 0).takeNext? = some (c, { g with pending := g.pending.erase c }) :=
    congrArg (Option.map _) h
  simp only [drained, embed, step?, stepFrame, htake]
  rfl

theorem step_drained_end
    (o : Option SourceId) (h : g.next? = none) :
    ((drained o base).embed ⟨host, g, .giving r, []⟩).step? L =
      some ⟨host, { g with depth := 0 }, .giving L.nothing, base⟩ := by
  have htake : (g.raise 0).takeNext? = none := congrArg (Option.map _) h
  simp only [drained, embed, step?, stepFrame, htake]
  rfl

variable {k : S.Result → Action S S.Result}

theorem step_outermost (r : S.Result)
    (hg : g.depth = 0) : ((batched k base).embed ⟨host, g, .giving r, []⟩).step? L =
      some ((drained none (.resuming (k r) :: base)).embed
        ⟨host, { g with depth := 1 }, .giving L.nothing, []⟩) := by
  have hclosed : g.depth + 1 - 1 = 0 := by omega
  exact congrArg some (if_pos hclosed)

theorem stepAction_plain (st : State S) (h : a.isPlain = true) :
    (st.stepAction L a).stack = st.stack ∧ (st.stepAction L a).graph.depth = st.graph.depth ∧
      (st.stepAction L a).graph.pending = st.graph.pending := by
  cases a with
  | look _ | survey _ | change _ _ | signal _ _ | later _ _ => exact ⟨rfl, rfl, rfl⟩
  | read s tracked k =>
    simp only [stepAction]
    split <;> split <;> first
      | exact ⟨rfl, rfl, rfl⟩
      | exact ⟨rfl, Graph.depth_subscribe, Graph.pending_subscribe⟩
  | cleanup code k =>
    simp only [stepAction]
    split <;> exact ⟨rfl, rfl, rfl⟩
  | _ => cases h

theorem Inside.of_forall_run {P : State S → Prop} (h : Inside L start t)
    (hend : (start.run L N).step? L = none) (hrun : ∀ n ≤ N, P (start.run L n)) : P t := by
  have hmet : ∃ n, t = start.run L n := by
    induction h with
    | refl => exact ⟨0, rfl⟩
    | step _ hstep _ ih =>
      obtain ⟨n, rfl⟩ := ih
      exact ⟨n + 1, (run_succ_of_step hstep).symm⟩
  obtain ⟨n, rfl⟩ := hmet
  rcases Nat.le_total n N with hle | hle
  · exact hrun n hle
  · rw [← Nat.add_sub_cancel' hle, run_add, run_of_end hend]
    exact hrun N (Nat.le_refl N)

variable (hlen : start.stack.length ≤ base.length)
  (hnamed : ∀ t, Inside L start t → s ∈ L.named t.host)

include hlen hnamed

/-- While the computations that wait are run, it makes no difference that a write holds on to its
source, if the host does so too. -/
theorem indistinct_drained {core} (hinside : Inside L start ((drained none base).embed core))
    (hdepth : core.graph.depth = 1 + opened core.stack)
    (hundrained : ∀ f ∈ core.stack, f.isDrain = false) :
    Indistinct L ((drained (some s) base).embed core)
      ((drained none base).embed core) := by
  let P (core : State S) : Prop := core.graph.depth = 1 + opened core.stack ∧
    (∀ f ∈ core.stack, f.isDrain = false) ∧ Inside L start ((drained none base).embed core)
  have hstart : P core := ⟨hdepth, hundrained, hinside⟩
  -- The draining frame stays on the stack, so all this is inside of what began at `start`.
  have hlonger : ∀ {core core' : State S}, P core →
      ((drained none base).embed core).step? L =
        some ((drained none base).embed core') →
      Inside L start ((drained none base).embed core') := by
    intro core core' hcore hstep
    refine hcore.2.2.step hstep ?_
    show start.stack.length < ((drained none base).frames core'.stack).length
    rw [length_frames]
    show start.stack.length < core'.stack.length + (base.length + 1)
    omega
  refine indistinct_embed ?_ ?_ ?_ ?_ ?_ hstart
  · rintro core ⟨hdepth, hundrained, hinside⟩
    exact ⟨by omega, hundrained, agrees_drained (hnamed (embed _ core) hinside)⟩
  · intro core core' hcore hfollows hstep
    have := hfollows.depth
    exact ⟨by omega, hfollows.undrained hcore.2.1, hlonger hcore hstep⟩
  · intro host g r hcore
    have hstep o :
        ((drained o base).embed ⟨host, g, .acting (.pure r), []⟩).step? L =
          some ((drained o base).embed ⟨host, g, .giving r, []⟩) := rfl
    exact .inl ⟨_, hstep _, hstep _, hcore.1, hcore.2.1, hlonger hcore (hstep none)⟩
  · intro host g r hcore
    cases hnext : g.next? with
    | some c =>
      exact .inl ⟨_, step_drained_next _ hnext, step_drained_next _ hnext, hcore.1, hcore.2.1,
        hlonger hcore (step_drained_next none hnext)⟩
    | none =>
      exact .inr (.of_steps (step_drained_end _ hnext) (step_drained_end _ hnext)
        (alike_embed _ _ _) (.refl _) (.refl _))
  · intro host g m _
    have hstep o :
        ((drained o base).embed ⟨host, g, .failing m, []⟩).step? L =
          some ⟨host, { g with depth := 0, pending := [] }, .failing m, base⟩ := rfl
    exact .inr (.of_steps (hstep _) (hstep _) (alike_embed _ _ _) (.refl _) (.refl _))

theorem indistinct_write (hdepth : g.depth = 0) (hpending : g.pending = [])
    (hinside : Inside L start
      ((batched k base).embed ⟨host, g, .acting (.write s v (.pure r)), []⟩)) :
    Indistinct L ((batched k base).embed ⟨host, g, .acting (.write s v (.pure r)), []⟩)
      ((direct k base).embed ⟨host, g, .acting (.write s v (.pure r)), []⟩) := by
  have hgive g :
      ((batched k base).embed ⟨host, g, .acting (.pure r), []⟩).step? L =
        some ((batched k base).embed ⟨host, g, .giving r, []⟩) := rfl
  by_cases hsame : (!g.isSignal s || g.value? s == some v) = true
  · -- Nothing is written, so nothing waits when the batch ends.
    have hbatched :
        ((batched k base).embed ⟨host, g, .acting (.write s v (.pure r)), []⟩).step? L =
          some ((batched k base).embed ⟨host, g, .acting (.pure r), []⟩) :=
      congrArg some (if_pos hsame)
    have hdirect :
        ((direct k base).embed ⟨host, g, .acting (.write s v (.pure r)), []⟩).step? L =
          some ⟨host, g, .acting (k r), base⟩ := congrArg some (if_pos hsame)
    have hdrain : ((drained none (.resuming (k r) :: base)).embed
        ⟨host, { g with depth := 1 }, .giving L.nothing, []⟩).step? L =
          some ⟨host, { g with depth := 0 }, .giving L.nothing, .resuming (k r) :: base⟩ := by
      rw [hpending]
      rfl
    have hresume : (⟨host, { g with depth := 0 }, .giving L.nothing, .resuming (k r) :: base⟩ :
        State S).step? L = some ⟨host, { g with depth := 0 }, .acting (k r), base⟩ := rfl
    have hg : ({ g with depth := 0 }) = g := by rw [← hdepth]
    refine .of_steps hbatched hdirect (alike_embed _ _ _) ⟨rfl, rfl⟩ ?_
    refine .of_step (hgive g) ⟨rfl, rfl⟩ (.of_step (step_outermost r hdepth) ⟨rfl, rfl⟩ ?_)
    refine .of_step hdrain ⟨rfl, rfl⟩ (.of_step hresume ⟨rfl, rfl⟩ ?_)
    rw [hg]
    exact .refl _
  · -- The subscribers wait.  They are run at the end of the batch, or at once.
    let written : Graph S.Value S.Code := (g.setValue s v).enqueue (g.subscribers s)
    have hbatched :
        ((batched k base).embed ⟨host, g, .acting (.write s v (.pure r)), []⟩).step? L =
          some ((batched k base).embed ⟨host, written, .acting (.pure r), []⟩) := by
      have hopen : g.depth + 1 ≠ 0 := by omega
      exact congrArg some ((if_neg hsame).trans (if_neg hopen))
    have hdirect :
        ((direct k base).embed ⟨host, g, .acting (.write s v (.pure r)), []⟩).step? L =
          some ((drained (some s) (.resuming (k r) :: base)).embed
            ⟨host, { written with depth := 1 }, .giving L.nothing, []⟩) :=
      congrArg some ((if_neg hsame).trans (if_pos hdepth))
    have hend : ((batched k base).embed ⟨host, written, .giving r, []⟩).step? L =
        some ((drained none (.resuming (k r) :: base)).embed
          ⟨host, { written with depth := 1 }, .giving L.nothing, []⟩) := step_outermost r hdepth
    refine .of_steps hbatched hdirect (alike_embed _ _ _) ⟨rfl, rfl⟩ ?_
    refine .of_step (hgive written) ⟨rfl, rfl⟩ (.of_step hend ⟨rfl, rfl⟩ (Indistinct.symm ?_))
    refine indistinct_drained (Nat.le_succ_of_le hlen) hnamed ?_ rfl (by simp)
    have hlonger : start.stack.length < (Frame.batching k :: base).length := Nat.lt_succ_of_le hlen
    exact ((hinside.step hbatched hlonger).step (hgive written) hlonger).step hend
      (Nat.lt_succ_of_lt hlonger)

theorem indistinct_writesOnce {t core} (h : WritesOnce L s t)
    (ht : t = (direct .pure base).embed core) (hs : core.stack = []) (hdepth : core.graph.depth = 0)
    (hpending : core.graph.pending = []) (hinside : Inside L start ((batched k base).embed core)) :
    Indistinct L ((batched k base).embed core) ((direct k base).embed core) := by
  induction h generalizing core with
  | @write t v r hc =>
    subst ht
    have hc := control_of_direct hs hc
    obtain ⟨host, g, control, stack⟩ := core
    obtain rfl : stack = [] := hs
    obtain rfl : control = .acting (.write s v (.pure r)) := hc
    exact indistinct_write hlen hnamed hdepth hpending hinside
  | @step t next a hc hplain hstep hnext ih =>
    subst ht
    have hacts : core.control = .acting a := control_of_direct hs hc
    have hmove : ∀ r, a ≠ .pure r := fun r hr => by rw [hr] at hplain; cases hplain
    obtain ⟨core', -, hstepAction⟩ := exists_stepAction L (.inr hplain) (.inr hmove)
      (((direct .pure base).embed core).outlook L)
    have hstep' : ∀ κ : Context S, κ.Agrees L core.host (.direct .pure base) →
        (κ.embed core).step? L = some (κ.embed core') := by
      intro κ hagrees
      rw [← hstepAction κ hagrees.outlook_embed, step?]
      simp only [embed, hacts, Control.graft]
    obtain rfl : next = (direct .pure base).embed core' :=
      Option.some_inj.mp (hstep.symm.trans (hstep' _ agrees_direct))
    -- The step of plain code puts no frame on the stack, and opens no batch.
    have hdone : ((direct .pure base).embed core).stepAction L a =
        (direct .pure base).embed core' := by
      rw [step?, hc] at hstep
      exact Option.some_inj.mp hstep
    obtain ⟨hstack, hdepth', hpending'⟩ := stepAction_plain
      ((direct .pure base).embed core) hplain
    rw [hdone] at hstack hdepth' hpending'
    have hs' : core'.stack = [] := by
      refine stack_eq_nil (κ := .direct .pure base) ?_
      rw [hstack, embed, hs]
      rfl
    have hlonger : start.stack.length < ((batched k base).embed core').stack.length := by
      rw [embed, hs']
      exact Nat.lt_succ_of_le hlen
    exact .of_steps (hstep' _ agrees_batched) (hstep' _ agrees_direct)
      (alike_embed _ _ _) (alike_embed _ _ _)
      (ih rfl hs' (hdepth'.trans hdepth) (hpending'.trans hpending)
        (hinside.step (hstep' _ agrees_batched) hlonger))

end Write

/-! ### Batches in programs -/

section Program

open Program (Env Block execAll body)

theorem body_append (env : Env) (A B : Block) : body (.block env (A ++ B)) =
    (body (.block env A)).bind fun _ => body (.block env B) := by
  have hall : execAll env (A ++ B) = (execAll env A).bind fun _ => execAll env B := by
    induction A with
    | nil => rfl
    | cons s rest ih =>
      show (Program.exec env s).bind (fun _ => execAll env (rest ++ B)) =
        ((Program.exec env s).bind fun _ => execAll env rest).bind fun _ => execAll env B
      rw [ih, Action.bind_assoc]
  show (execAll env (A ++ B)).bind _ = ((execAll env A).bind _).bind _
  rw [hall, Action.bind_assoc, Action.bind_assoc]
  rfl

theorem body_batch (env : Env) (A B C : Block) : body (.block env (A ++ .batch B :: C)) =
    (body (.block env A)).bind fun _ => .batch (.block env B) fun _ => body (.block env C) := by
  rw [body_append]
  rfl

theorem body_inlined (env : Env) (A B C : Block) : body (.block env (A ++ (B ++ C))) =
    (body (.block env A)).bind fun _ =>
      (body (.block env B)).bind fun _ => body (.block env C) := by
  rw [body_append, body_append]

theorem writesOnce_set {st : State setting} {env}
    (hc : st.host.cells.get? c = some ⟨.signal, s⟩) :
    WritesOnce language s (st.act (body (.block env [.set c (.literal v)]))) := by
  refine .step rfl rfl rfl (.write (v := .scalar v) (r := .nothing) ?_)
  simp only [body, Program.silently, execAll, Program.exec, Program.eval, Program.withWritable,
    Program.ask, bind, pure, Action.bind, stepAction, act, hc]

end Program

/-! ### Batches in a session -/

/-- A batch makes no difference where another one is open, be it around the code or around the run
of a computation in which the code is.  So a batch that comes somewhere in another one can be
replaced by what is in it.  Code that writes once is run as in a batch, if the host goes on to hold
on to the source until all that the batch does is done. -/
theorem Session.batch_transparent {past : List (State S)} {st : State S} (h : Session L past st) :
    (0 < st.graph.depth → ∀ (code : S.Code) (k : S.Result → Action S S.Result),
      Indistinct L (st.act (.batch code k)) (st.act ((L.body code).bind k))) ∧
    (∀ (outer inlined inner : S.Code) (first : Action S S.Result)
      (after : S.Result → S.Result → Action S S.Result) (k : S.Result → Action S S.Result),
      (L.body outer = first.bind fun r => .batch inner (after r)) →
      (L.body inlined = first.bind fun r => (L.body inner).bind (after r)) →
      Indistinct L (st.act (.batch outer k)) (st.act (.batch inlined k))) ∧
    (∀ (code : S.Code) (s : SourceId) (k : S.Result → Action S S.Result),
      WritesOnce L s (st.act (L.body code)) →
      (∀ t, Inside L (st.act (.batch code k)) t → s ∈ L.named t.host) →
      Indistinct L (st.act (.batch code k)) (st.act ((L.body code).bind k))) := by
  refine ⟨fun hopen code k => indistinct_batch hopen code k, ?_, ?_⟩
  · intro outer inlined inner first after k houter hinlined
    exact indistinct_inline inner first after houter hinlined k
  · intro code s k hwrites hnamed
    rcases Nat.eq_zero_or_pos st.graph.depth with hdepth | hopen
    · refine .of_batch (indistinct_writesOnce (Nat.le_refl _) hnamed hwrites ?_ rfl hdepth
        (h.orderly.quiet hdepth) ?_)
      · exact congrArg (fun a => State.mk _ _ (.acting a) _) (L.body code).bind_pure.symm
      · exact Inside.refl.step (step_batch st code k) (Nat.lt_succ_self _)
    · exact indistinct_batch hopen code k

def tally : State setting where
  host := Program.World.start
  control := .acting <| body <| .block {} [
    .signal "a" (.literal (.text "0")),
    .effect [.log [.cell .get "a"]],
    .batch [.set "a" (.literal (.text "1"))]]

/-- The outermost batch of the program, and what another one would do while the effect runs in the
drain at its end. -/
theorem Session.batch_transparent_tally :
    (tally.run language 21).graph.depth = 1 ∧
      Indistinct language
        ((tally.run language 21).act
          (.batch (.block {} [.set "a" (.literal (.text "2"))]) .pure))
        ((tally.run language 21).act
          ((body (.block {} [.set "a" (.literal (.text "2"))])).bind .pure)) ∧
      Indistinct language
        ((tally.run language 12).act (.batch (.block {}
          [.set "a" (.literal (.text "1")), .batch [.set "a" (.literal (.text "2"))]]) .pure))
        ((tally.run language 12).act (.batch (.block {}
          [.set "a" (.literal (.text "1")), .set "a" (.literal (.text "2"))]) .pure)) ∧
      Indistinct language
        ((tally.run language 12).act
          (.batch (.block {} [.set "a" (.literal (.text "1"))]) .pure))
        ((tally.run language 12).act
          ((body (.block {} [.set "a" (.literal (.text "1"))])).bind .pure)) := by
  have hrun (n : Nat) : Session language (trail language n tally)
      (tally.run language n) := session_run _ _ n
  refine ⟨by decide +kernel, (hrun 21).batch_transparent.1 (by decide +kernel) _ _, ?_, ?_⟩
  · exact (hrun 12).batch_transparent.2.1 _ _ _ _ _ _ (body_batch {} [_] [_] [])
      (body_inlined {} [_] [_] [])
  · have hcell : (tally.run language 12).host.cells.get? "a" = some ⟨.signal, 0⟩ := rfl
    refine (hrun 12).batch_transparent.2.2 _ 0 _ (writesOnce_set hcell) ?_
    intro t ht
    have hnamed := ht.of_forall_run (P := fun t => 0 ∈ language.named t.host) (N := 17)
      (Option.isNone_iff_eq_none.1 (by decide +kernel))
    exact hnamed (by decide +kernel)

/-- An effect drops the signal that it has been run for, and writes to another one.  On account of
that an effect is disposed that nothing but the dropped signal holds on to. -/
def farewell : State setting where
  host := Program.World.start
  control := .acting <| body <| .block {} [
    .signal "s" (.literal (.text "0")),
    .signal "t" (.literal (.text "0")),
    .effect [.eval (.cell .get "t"),
      .effect [.eval (.cell .get "s"), .cleanup [.log [.literal (.text "bye")]]]],
    .effect [.cond (.equal (.cell .get "s") (.literal (.text "1")))
      [.drop "s", .set "t" (.literal (.text "1"))] []]]

/-- A batch that writes once is not the same as a write, where the source is dropped meanwhile: the
write holds on to it, and so the effect that is disposed is cleaned up. -/
theorem lone_write_differs :
    ¬ Indistinct language
      ((farewell.run language 36).act
        (.batch (.block {} [.set "s" (.literal (.text "1"))]) .pure))
      ((farewell.run language 36).act
        ((body (.block {} [.set "s" (.literal (.text "1"))])).bind .pure)) := by
  intro h
  have hends := h.run_eq (m := 52) (n := 53) (Option.isNone_iff_eq_none.1 (by decide +kernel))
    (Option.isNone_iff_eq_none.1 (by decide +kernel))
  have hlogs := congrArg (fun st => st.host.log.length) hends
  revert hlogs
  decide +kernel

end ReactiveMarkup.Reactive
