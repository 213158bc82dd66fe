/-
What code keeps of the host state.

Code changes the host state one operation at a time, and in between it may run
other code: that of a call, of a computation that is made, of all computations that
a write sets off.  What is asked of the host state can therefore be lost at any
operation.  It is enough to look at each code word by itself, if all that code is
run on fits the host state, and goes on fitting later host states.
-/
import ReactiveMarkup.Proofs.Reactive.Order

namespace ReactiveMarkup.Reactive

variable {S : Setting} {α β : Type}

/-- What is asked of host states, code words and results. -/
structure Regime (S : Setting) where
  Good : S.Host → Prop
  /-- Which changes of the host state have to be reckoned with. -/
  Allowed : S.Host → S.Host → Prop
  /-- Whether a host state may come before another one. -/
  Before : S.Host → S.Host → Prop
  /-- Which code words may run. -/
  CodeFits : S.Host → S.Code → Prop
  /-- Which results may be given. -/
  ResultFits : S.Host → S.Result → Prop
  /-- Which code words may be kept for later. -/
  Kept : S.Code → Prop := fun _ => True
  refl : ∀ w, Before w w
  trans : ∀ {u v w}, Before u v → Before v w → Before u w
  code_mono : ∀ {w w' code}, Before w w' → CodeFits w code → CodeFits w' code
  result_mono : ∀ {w w' r}, Before w w' → ResultFits w r → ResultFits w' r

namespace Regime

variable (R : Regime S) {w w' w'' : S.Host}

/-- Whether a good host state may come after another one. -/
structure Later (w w' : S.Host) : Prop where
  before : R.Before w w'
  good : R.Good w'

variable {R}

theorem Later.refl (h : R.Good w) : R.Later w w := ⟨R.refl w, h⟩

theorem Later.trans (h : R.Later w w') (h' : R.Later w' w'') : R.Later w w'' :=
  ⟨R.trans h.before h'.before, h'.good⟩

/-! ### Actions -/

variable (R) in
/-- Whether code may be kept, and run later. -/
def KeepFits (w : S.Host) (code : S.Code) : Prop := R.CodeFits w code ∧ R.Kept code

theorem KeepFits.mono {code} (h : R.KeepFits w code) (hb : R.Before w w') : R.KeepFits w' code :=
  ⟨R.code_mono hb h.1, h.2⟩

variable (R) in
/-- Whether an action keeps to a regime and ends with what is asked of its result.  Other code may
run where the action makes, writes, runs or waits for something, so the host state may be any later
one after that. -/
def Upholds (Q : S.Host → α → Prop) : Action S α → S.Host → Prop
  | .pure a, w => Q w a
  | .raise _, _ => True
  | .look k, w => Upholds Q (k w) w
  | .survey k, w => ∀ v : View S, v.host = w → Upholds Q (k v) w
  | .change f next, w => R.Allowed w (f w) → R.Later w (f w) ∧ Upholds Q next (f w)
  | .signal _ k, w => ∀ s, Upholds Q (k s) w
  | .memo code k, w => R.KeepFits w code ∧ ∀ w' s, R.Later w w' → Upholds Q (k s) w'
  | .effect code next, w => R.KeepFits w code ∧ ∀ w', R.Later w w' → Upholds Q next w'
  | .read _ _ k, w => ∀ v, Upholds Q (k v) w
  | .write _ _ next, w => ∀ w', R.Later w w' → Upholds Q next w'
  | .batch code k, w | .untrack code k, w | .call code _ k, w =>
    R.CodeFits w code ∧ ∀ w' r, R.Later w w' → R.ResultFits w' r → Upholds Q (k r) w'
  | .attempt code k, w =>
    R.CodeFits w code ∧ (∀ w' r, R.Later w w' → R.ResultFits w' r → Upholds Q (k (.ok r)) w') ∧
      ∀ w' message, R.Later w w' → Upholds Q (k (.error message)) w'
  | .cleanup code k, w => R.KeepFits w code ∧ ∀ b, Upholds Q (k b) w
  | .later code next, w => R.KeepFits w code ∧ Upholds Q next w
  | .flush k, w => ∀ w' n, R.Later w w' → Upholds Q (k n) w'

theorem upholds_bind {P : S.Host → α → Prop} {Q : S.Host → β → Prop} (hw : R.Good w)
    (ha : R.Upholds P a w) (hf : ∀ w' x, R.Later w w' → P w' x → R.Upholds Q (f x) w') :
    R.Upholds Q (a.bind f) w := by
  -- What comes after an operation starts from a later host state, and what is later than that is
  -- later than the host state at the start.
  induction a generalizing w with
  | pure x => exact hf w x (.refl hw) ha
  | raise message => trivial
  | look k ih => exact ih w hw ha hf
  | survey k ih => exact fun v hv => ih v hw (ha v hv) hf
  | change g next ih =>
    intro hg
    obtain ⟨hl, hn⟩ := ha hg
    exact ⟨hl, ih hl.good hn fun w' x hl' => hf w' x (hl.trans hl')⟩
  | signal v k ih => exact fun s => ih s hw (ha s) hf
  | memo code k ih =>
    exact ⟨ha.1, fun u s hu => ih s hu.good (ha.2 u s hu) fun w' x hl => hf w' x (hu.trans hl)⟩
  | effect code next ih =>
    exact ⟨ha.1, fun u hu => ih hu.good (ha.2 u hu) fun w' x hl => hf w' x (hu.trans hl)⟩
  | read s tracked k ih => exact fun v => ih v hw (ha v) hf
  | write s v next ih =>
    exact fun u hu => ih hu.good (ha u hu) fun w' x hl => hf w' x (hu.trans hl)
  | batch code k ih | untrack code k ih | call code held k ih =>
    exact ⟨ha.1, fun u r hu hr =>
      ih r hu.good (ha.2 u r hu hr) fun w' x hl => hf w' x (hu.trans hl)⟩
  | attempt code k ih =>
    exact ⟨ha.1,
      fun u r hu hr => ih _ hu.good (ha.2.1 u r hu hr) fun w' x hl => hf w' x (hu.trans hl),
      fun u m hu => ih _ hu.good (ha.2.2 u m hu) fun w' x hl => hf w' x (hu.trans hl)⟩
  | cleanup code k ih => exact ⟨ha.1, fun b => ih b hw (ha.2 b) hf⟩
  | later code next ih => exact ⟨ha.1, ih hw ha.2 hf⟩
  | flush k ih =>
    exact fun u n hu => ih n hu.good (ha u n hu) fun w' x hl => hf w' x (hu.trans hl)

/-! ### States -/

variable (R) in
def FrameFits (w : S.Host) : Frame S → Prop
  | .returning _ k | .batching k =>
    ∀ w' r, R.Later w w' → R.ResultFits w' r → R.Upholds R.ResultFits (k r) w'
  | .catching k =>
    (∀ w' r, R.Later w w' → R.ResultFits w' r → R.Upholds R.ResultFits (k (.ok r)) w') ∧
      ∀ w' message, R.Later w w' → R.Upholds R.ResultFits (k (.error message)) w'
  | .resuming next => ∀ w', R.Later w w' → R.Upholds R.ResultFits next w'
  | .making _ k => ∀ w' s, R.Later w w' → R.Upholds R.ResultFits (k s) w'
  | .flushing _ k => ∀ w' n, R.Later w w' → R.Upholds R.ResultFits (k n) w'
  | .cleaning _ l => ∀ code, .run code ∈ l → R.KeepFits w code
  | _ => True

variable (R) in
def ControlFits (w : S.Host) : Control S → Prop
  | .acting a => R.Upholds R.ResultFits a w
  | .giving r => R.ResultFits w r
  | _ => True

variable (R) in
structure GraphFits (w : S.Host) (g : Graph S.Value S.Code) : Prop where
  code : ∀ c code, g.code? c = some code → R.KeepFits w code
  cleanups : ∀ c code, .run code ∈ g.cleanups c → R.KeepFits w code
  tasks : ∀ code ∈ g.tasks, R.KeepFits w code

variable (R) in
/-- Whether all code that a state can go on with keeps to a regime. -/
structure Sound (st : State S) : Prop where
  good : R.Good st.host
  control : R.ControlFits st.host st.control
  frames : ∀ f ∈ st.stack, R.FrameFits st.host f
  graph : R.GraphFits st.host st.graph

variable (R) in
/-- Whether all frames above some keep to a regime. -/
def FramesFit (base : List (Frame S)) (w : S.Host) (stack : List (Frame S)) : Prop :=
  ∃ above, stack = above ++ base ∧ ∀ f ∈ above, R.FrameFits w f

variable (R) in
/-- Whether all code that a state goes on with, before it comes to some frames, keeps to a
regime. -/
structure SoundAbove (base : List (Frame S)) (st : State S) : Prop where
  good : R.Good st.host
  control : R.ControlFits st.host st.control
  frames : R.FramesFit base st.host st.stack
  graph : R.GraphFits st.host st.graph

theorem FrameFits.mono (h : R.FrameFits w f) (hl : R.Later w w') : R.FrameFits w' f := by
  cases f with
  | returning held k | batching k => exact fun u r hu => h u r (hl.trans hu)
  | catching k => exact ⟨fun u r hu => h.1 u r (hl.trans hu), fun u m hu => h.2 u m (hl.trans hu)⟩
  | resuming next => exact fun u hu => h u (hl.trans hu)
  | making s k => exact fun u s hu => h u s (hl.trans hu)
  | flushing n k => exact fun u n hu => h u n (hl.trans hu)
  | cleaning c l => exact fun code hc => (h code hc).mono hl.before
  | _ => trivial

theorem FramesFit.mono {base stack} (h : R.FramesFit base w stack) (hl : R.Later w w') :
    R.FramesFit base w' stack := by
  obtain ⟨above, hs, hf⟩ := h
  exact ⟨above, hs, fun f hmem => (hf f hmem).mono hl⟩

theorem FramesFit.push {base stack} (hf : R.FrameFits w f) (h : R.FramesFit base w stack) :
    R.FramesFit base w (f :: stack) := by
  obtain ⟨above, rfl, ha⟩ := h
  exact ⟨f :: above, rfl, List.forall_mem_cons.2 ⟨hf, ha⟩⟩

theorem FramesFit.pop {base rest} (h : R.FramesFit base w (f :: rest))
    (hlen : base.length ≤ rest.length) : R.FrameFits w f ∧ R.FramesFit base w rest := by
  obtain ⟨above, hs, ha⟩ := h
  cases above with
  | nil =>
    obtain rfl := hs
    exact absurd hlen (Nat.not_succ_le_self _)
  | cons g above =>
    cases hs
    exact ⟨ha f (.head _), above, rfl, fun g hg => ha g (.tail _ hg)⟩

theorem GraphFits.mono (h : R.GraphFits w g) (hl : R.Later w w') :
    R.GraphFits w' g where
  code c code hc := (h.code c code hc).mono hl.before
  cleanups c code hc := (h.cleanups c code hc).mono hl.before
  tasks code hc := (h.tasks code hc).mono hl.before

end Regime

/-! ### Code that comes into the graph -/

namespace State

variable [BEq S.Value] {L : Language S} {st next : State S}

theorem mem_tasks_of_step (h : st.step? L = some next) {code} (hc : code ∈ next.graph.tasks) :
    code ∈ st.graph.tasks ∨ ∃ k, st.control = .acting (.later code k) := by
  obtain ⟨old, new, base, -, hs, -⟩ := shifts_step h
  exact hs.tasks code hc

end State

/-! ### Steps -/

namespace Regime

variable {R : Regime S} [BEq S.Value] {L : Language S} {base : List (Frame S)} {st next : State S}

omit [BEq S.Value] in
theorem SoundAbove.upholds {a : Action S S.Result} (hs : R.SoundAbove base st)
    (ha : st.control = .acting a) :
    R.Upholds R.ResultFits a st.host := by
  have hc := hs.control
  rwa [ha] at hc

theorem SoundAbove.graph_step (hs : R.SoundAbove base st) (ho : st.Orderly)
    (h : st.step? L = some next) :
    R.GraphFits st.host next.graph := by
  obtain ⟨_, _, _, hg⟩ := State.graph_of_step h
  refine ⟨fun c code hc => ?_, fun c code hc => ?_, fun code hc => ?_⟩
  · rw [hg] at hc
    rcases (st.event L).code?_of_apply ho.current hc with hold | he | he
    · exact hs.graph.code c code hold
    · obtain ⟨k, ha⟩ := State.occasion_of_event he
      exact (hs.upholds ha).1
    · obtain ⟨k, ha⟩ := State.occasion_of_event he
      exact (hs.upholds ha).1
  · rw [hg] at hc
    rcases ((st.event L).mem_cleanups_apply ho.current).1 hc with
      ⟨hold, -⟩ | ⟨-, word, he, hw⟩ | hnew
    · exact hs.graph.cleanups c code hold
    · obtain ⟨-, k, ha⟩ := State.occasion_of_event he
      exact Cleanup.run.inj hw ▸ (hs.upholds ha).1
    · cases hnew.2.1
  · rcases State.mem_tasks_of_step h hc with hold | ⟨k, ha⟩
    · exact hs.graph.tasks code hold
    · exact (hs.upholds ha).1

variable (R L) in
/-- Whether all code words keep to a regime. -/
structure Obeys : Prop where
  body : ∀ w code, R.Good w → R.CodeFits w code → R.Upholds R.ResultFits (L.body code) w
  nothing : ∀ w, R.ResultFits w L.nothing

variable (R) in
/-- Whether what the machine is about to do, and all that it goes on with then, keeps to a
regime. -/
structure Proceeds (base : List (Frame S)) (st : State S) : Prop where
  control : R.ControlFits st.host st.control
  frames : R.FramesFit base st.host st.stack

theorem SoundAbove.stepAction (hL : R.Obeys L) (hs : R.SoundAbove base st)
    (ha : st.control = .acting a) (hal : R.Allowed st.host (st.stepAction L a).host) :
    R.Later st.host (st.stepAction L a).host ∧ R.Proceeds base (st.stepAction L a) := by
  have hu := hs.upholds ha
  have hnow : R.Later st.host st.host := .refl hs.good
  have push : ∀ f, R.FrameFits st.host f → R.FramesFit base st.host (f :: st.stack) :=
    fun f hf => hs.frames.push hf
  cases a with
  | pure _ | look _ => exact ⟨hnow, hu, hs.frames⟩
  | raise message => exact ⟨hnow, trivial, hs.frames⟩
  | survey k => exact ⟨hnow, hu _ rfl, hs.frames⟩
  | change f next =>
    obtain ⟨hl, hn⟩ := hu hal
    exact ⟨hl, hn, hs.frames.mono hl⟩
  | signal v k => exact ⟨hnow, hu _, hs.frames⟩
  | memo _ _ | effect _ _ => exact ⟨hnow, trivial, push _ hu.2⟩
  | read s tracked k =>
    simp only [State.stepAction]
    split <;> split
    · exact ⟨hnow, hu _, hs.frames⟩
    · exact ⟨hnow, hu _, hs.frames⟩
    · exact ⟨hnow, trivial, hs.frames⟩
    · exact ⟨hnow, trivial, hs.frames⟩
  | write s v next =>
    simp only [State.stepAction]
    split
    · exact ⟨hnow, hu _ hnow, hs.frames⟩
    · split
      · exact ⟨hnow, hL.nothing _, (push (.resuming next) hu).push trivial⟩
      · exact ⟨hnow, hu _ hnow, hs.frames⟩
  | untrack code k =>
    exact ⟨hnow, hL.body _ code hs.good hu.1,
      (push (.returning [] k) hu.2).push trivial⟩
  | batch code k | call code held k | attempt code k =>
    exact ⟨hnow, hL.body _ code hs.good hu.1, push _ hu.2⟩
  | cleanup code k =>
    simp only [State.stepAction]
    split
    · exact ⟨hnow, hu.2 _, hs.frames⟩
    · exact ⟨hnow, hu.2 _, hs.frames⟩
  | later code next => exact ⟨hnow, hu.2, hs.frames⟩
  | flush k => exact ⟨hnow, hL.nothing _, push _ hu⟩

theorem SoundAbove.stepFrame {rest} (hL : R.Obeys L) (hs : R.SoundAbove base st)
    (hr : st.control = .giving r) (hst : st.stack = f :: rest) (hlen : base.length ≤ rest.length) :
    ({ st with stack := rest }.stepFrame L r f).host = st.host ∧
      R.Proceeds base ({ st with stack := rest }.stepFrame L r f) := by
  have hnow : R.Later st.host st.host := .refl hs.good
  have hfit : R.ResultFits st.host r := by
    have hc := hs.control
    rwa [hr] at hc
  obtain ⟨hf, hrest⟩ := FramesFit.pop (hst ▸ hs.frames) hlen
  have push : ∀ f, R.FrameFits st.host f → R.FramesFit base st.host (f :: rest) :=
    fun f hf => hrest.push hf
  cases f with
  | returning held k => exact ⟨rfl, hf _ _ hnow hfit, hrest⟩
  | catching k => exact ⟨rfl, hf.1 _ _ hnow hfit, hrest⟩
  | resuming next => exact ⟨rfl, hf _ hnow, hrest⟩
  | batching k =>
    simp only [State.stepFrame]
    split
    · refine ⟨rfl, hL.nothing _, (push (.resuming (k r)) ?_).push trivial⟩
      exact fun w hw => hf w r hw (R.result_mono hw.before hfit)
    · exact ⟨rfl, hf _ _ hnow hfit, hrest⟩
  | restoring previous => exact ⟨rfl, hfit, hrest⟩
  | storing s =>
    simp only [State.stepFrame]
    split
    · exact ⟨rfl, hL.nothing _, hrest⟩
    · split
      · exact ⟨rfl, hL.nothing _, push (.draining (some s)) trivial⟩
      · exact ⟨rfl, hL.nothing _, hrest⟩
  | making s k => exact ⟨rfl, hf _ s hnow, hrest⟩
  | cleaning c l =>
    rcases l with - | ⟨code | d, l⟩
    · exact ⟨rfl, hL.nothing _, hrest⟩
    · obtain ⟨hcode, hl⟩ : R.KeepFits st.host code ∧ ∀ word, .run word ∈ l →
        R.KeepFits st.host word :=
        ⟨hf code (.head _), fun word hw => hf word (.tail _ hw)⟩
      exact ⟨rfl, hL.body _ code hs.good hcode.1, push (.cleaning c l) hl⟩
    · have hl : ∀ word, .run word ∈ l → R.KeepFits st.host word :=
        fun word hw => hf word (.tail _ hw)
      simp only [State.stepFrame]
      split
      · refine ⟨rfl, hL.nothing _, (push (.cleaning c l) hl).push fun word hw => ?_⟩
        exact hs.graph.cleanups d word ((Graph.cleanups_of_map
          (Graph.computation?_markDisposed_map fun _ => rfl)) ▸ hw)
      · exact ⟨rfl, hL.nothing _, push (.cleaning c l) hl⟩
  | starting c =>
    have hbody : ∀ d, st.graph.computation? c = some d →
        R.Upholds R.ResultFits (L.body d.code) st.host := fun d hd =>
      hL.body _ d.code hs.good
        (hs.graph.code c d.code (congrArg (Option.map Computation.code) hd)).1
    simp only [State.stepFrame]
    split
    · exact ⟨rfl, hL.nothing _, push (.restoring _) trivial⟩
    · rename_i d hd
      split
      · exact ⟨rfl, hbody d hd, push (.restoring _) trivial⟩
      · split
        · exact ⟨rfl, hbody d hd, (push (.restoring _) trivial).push trivial⟩
        · exact ⟨rfl, hL.nothing _, push (.restoring _) trivial⟩
  | draining s =>
    simp only [State.stepFrame]
    split
    · exact ⟨rfl, trivial, push (.draining s) trivial⟩
    · exact ⟨rfl, hL.nothing _, hrest⟩
  | flushing n k =>
    simp only [State.stepFrame]
    split
    · exact ⟨rfl, hf _ n hnow, hrest⟩
    · rename_i code tasks ht
      have hcode := hs.graph.tasks code (ht ▸ .head _)
      exact ⟨rfl, hL.body _ code hs.good hcode.1, push (.flushing (n + 1) k) hf⟩

omit [BEq S.Value] in
theorem SoundAbove.unwind {message : String} {f : Frame S} {rest : List (Frame S)}
    (hs : R.SoundAbove base st) (hst : st.stack = f :: rest) (hlen : base.length ≤ rest.length) :
    ({ st with stack := rest }.unwind message f).host = st.host ∧
      R.Proceeds base ({ st with stack := rest }.unwind message f) := by
  obtain ⟨hf, hrest⟩ := FramesFit.pop (hst ▸ hs.frames) hlen
  have hc : R.ControlFits st.host st.control := hs.control
  cases f with
  | catching k => exact ⟨rfl, hf.2 _ message (.refl hs.good), hrest⟩
  | _ => exact ⟨rfl, hc, hrest⟩

/-- If all code words keep to a regime, a step keeps all code that a state goes on with to it, as
long as it does not come to the frames below. -/
theorem SoundAbove.step (hL : R.Obeys L) (hs : R.SoundAbove base st) (ho : st.Orderly)
    (h : st.step? L = some next) (hal : R.Allowed st.host next.host)
    (hlen : ∀ f rest, st.stack = f :: rest → ((∃ r, st.control = .giving r) ∨
      ∃ message, st.control = .failing message) → base.length ≤ rest.length) :
    R.SoundAbove base next ∧ R.Later st.host next.host := by
  have hg := hs.graph_step ho h
  have later : ∀ next : State S, R.GraphFits st.host next.graph → R.Later st.host next.host →
      R.Proceeds base next → R.SoundAbove base next ∧ R.Later st.host next.host :=
    fun _ hg hl hp => ⟨⟨hl.good, hp.control, hp.frames, hg.mono hl⟩, hl⟩
  have same : ∀ next : State S, R.GraphFits st.host next.graph → next.host = st.host →
      R.Proceeds base next → R.SoundAbove base next ∧ R.Later st.host next.host :=
    fun next hg he hp => later next hg (by rw [he]; exact .refl hs.good) hp
  revert hal hg
  refine State.step_cases h ?_ ?_ ?_ ?_ ?_
  · intro a ha hal hg
    obtain ⟨hl, hp⟩ := hs.stepAction hL ha hal
    exact later _ hg hl hp
  · intro c _ _ _ hg
    exact same _ hg rfl ⟨hL.nothing _, hs.frames⟩
  · intro c _ _ _ hg
    refine same _ hg rfl ⟨hL.nothing _, FramesFit.push (fun word hw => ?_) (hs.frames.push trivial)⟩
    exact hs.graph.cleanups c word hw
  · intro r f rest hr hst _ hg
    obtain ⟨he, hp⟩ := hs.stepFrame hL hr hst (hlen f rest hst (.inl ⟨r, hr⟩))
    exact same _ hg he hp
  · intro message f rest hm hst _ hg
    obtain ⟨he, hp⟩ := hs.unwind hst (hlen f rest hst (.inr ⟨message, hm⟩))
    exact same _ hg he hp

omit [BEq S.Value] in
theorem sound_iff : R.Sound st ↔ R.SoundAbove [] st :=
  ⟨fun h => ⟨h.good, h.control, ⟨st.stack, (List.append_nil _).symm, h.frames⟩, h.graph⟩,
    fun h => ⟨h.good, h.control, by
      obtain ⟨above, hs, hf⟩ := h.frames
      rwa [hs, List.append_nil], h.graph⟩⟩

/-- If all code words keep to a regime, a step keeps all code that a state can go on with to it. -/
theorem Sound.step (hL : R.Obeys L) (hs : R.Sound st) (ho : st.Orderly)
    (h : st.step? L = some next) (hal : R.Allowed st.host next.host) : R.Sound next :=
  sound_iff.2 ((sound_iff.1 hs).step hL ho h hal fun _ _ _ _ => Nat.zero_le _).1

end Regime

/-! ### Actions that work on the host state alone -/

theorem Action.bind_assoc (a : Action S α) (f : α → Action S β) (g : β → Action S γ) :
    (a.bind f).bind g = a.bind fun x => (f x).bind g := by
  induction a with
  | pure _ => rfl
  | raise _ => rfl
  | _ => simp only [Action.bind, *]

/-- What an action gives, and the host state that it leaves, if all that it does is to look at the
host state and to change it. -/
def Action.settle? : Action S α → S.Host → Option (α × S.Host)
  | .pure a, w => some (a, w)
  | .look k, w => settle? (k w) w
  | .change f next, w => settle? next (f w)
  | _, _ => none

theorem Action.settle?_bind {a : Action S α} {f : α → Action S β} (h : a.settle? w = some (x, w')) :
    (a.bind f).settle? w = (f x).settle? w' := by
  induction a generalizing w with
  | pure y =>
    obtain ⟨rfl, rfl⟩ := Prod.mk.inj (Option.some_inj.1 h)
    rfl
  | look k ih => exact ih w h
  | change g next ih => exact ih h
  | _ => exact absurd h (by simp [settle?])

theorem Action.steps_of_settle? [BEq S.Value] {L} {st} {a : Action S α} {k} {w} {x}
    (hc : st.control = .acting (a.bind k)) (h : a.settle? st.host = some (x, w)) :
    ∃ during, Steps L st during { st with host := w, control := .acting (k x) } := by
  induction a generalizing st with
  | pure y =>
    obtain ⟨rfl, rfl⟩ := Prod.mk.inj (Option.some_inj.1 h)
    refine ⟨[], ?_⟩
    have hst : { st with control := .acting (k y) } = st := by
      rw [show .acting (k y) = st.control from hc.symm]
    rw [hst]
    exact .refl
  | look g ih =>
    have hstep : st.step? L = some (st.act ((g st.host).bind k)) := by
      simp only [State.step?, hc]
      rfl
    obtain ⟨during, hs⟩ := @ih st.host (st.act ((g st.host).bind k)) rfl h
    exact ⟨_, hs.head hstep⟩
  | change f next ih =>
    have hstep : st.step? L =
        some { st with host := f st.host, control := .acting (next.bind k) } := by
      simp only [State.step?, hc]
      rfl
    obtain ⟨during, hs⟩ := @ih { st with host := f st.host, control := .acting (next.bind k) } rfl h
    exact ⟨_, hs.head hstep⟩
  | _ => exact absurd h (by simp [settle?])

end ReactiveMarkup.Reactive
