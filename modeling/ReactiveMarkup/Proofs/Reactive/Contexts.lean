/-
A part of a run, and what lies below it.

While some code runs, the frames that were on the stack when it began stay there, and
are only asked what they hold on to.  So the same code goes the same way over other frames,
as long as these hold on to the same things: with more batches open below it, with other
things to be done after it, and with its last result given to a frame or bound to the code
that follows.
-/
import ReactiveMarkup.Proofs.Reactive.Likeness
import ReactiveMarkup.Proofs.Reactive.Scopes

namespace ReactiveMarkup.Reactive

open List State

variable {S : Setting}

theorem Action.bind_pure (a : Action S α) : a.bind .pure = a := by
  induction a with
  | pure _ => rfl
  | raise _ => rfl
  | _ => simp only [Action.bind, *]

/-! ### More open batches -/

namespace Graph

variable {V C : Type} (g : Graph V C) (n : Nat)

def raise : Graph V C := { g with depth := g.depth + n }

theorem raise_subscribe (c : ComputationId) (s : SourceId) (height : Nat) :
    (g.raise n).subscribe c s height = (g.subscribe c s height).raise n := by
  have hdisposed : (g.raise n).isDisposed c = g.isDisposed c := rfl
  have hsource : (g.raise n).source? s = g.source? s := rfl
  rw [subscribe, subscribe, hdisposed, hsource]
  split
  · rfl
  · rfl

theorem raise_release (c : ComputationId) : (g.raise n).release c = (g.release c).raise n := by
  -- The subscriptions are given up one by one, whatever batches are open.
  have hfold : ∀ (l : List SourceId) (g : Graph V C),
      l.foldl (unsubscribe c) (g.raise n) = (l.foldl (unsubscribe c) g).raise n := by
    intro l
    induction l with
    | nil => exact fun _ => rfl
    | cons s rest ih => exact fun g => ih (unsubscribe c g s)
  rw [release]
  rw [hfold]
  rfl

theorem raise_open : { g.raise n with depth := (g.raise n).depth + 1 } =
    ({ g with depth := g.depth + 1 } : Graph V C).raise n := by
  simp only [raise, Nat.add_right_comm]

theorem raise_close (h : 0 < g.depth) : { g.raise n with depth := (g.raise n).depth - 1 } =
    ({ g with depth := g.depth - 1 } : Graph V C).raise n := by
  simp only [raise, Nat.sub_add_comm h]

theorem raise_addComputation (d : Computation C) :
    (g.raise n).addComputation d = ((g.addComputation d).1.raise n, (g.addComputation d).2) := by
  cases h : g.current with
  | none => simp only [addComputation, raise, h]
  | some owner => simp only [addComputation, raise, h, addCleanup, modifyComputation]

theorem raise_addMemo (code : C) :
    (g.raise n).addMemo code = ((g.addMemo code).1.raise n, (g.addMemo code).2) := by
  have hadd := raise_addComputation
    { g with sources := g.sources.push { value := none, maker := some g.computations.size } } n
    { code, target := some g.sources.size }
  exact congrArg (fun p => (p.1, g.sources.size, p.2)) hadd

end Graph

/-! ### Contexts -/

def Frame.graft (next : S.Result → Action S S.Result) : Frame S → Frame S
  | .returning held k => .returning held fun r => (k r).bind next
  | .catching k => .catching fun r => (k r).bind next
  | .resuming a => .resuming (a.bind next)
  | .batching k => .batching fun r => (k r).bind next
  | .making s k => .making s fun t => (k t).bind next
  | .flushing n k => .flushing n fun m => (k m).bind next
  | .restoring previous => .restoring previous
  | .storing s => .storing s
  | .cleaning c rest => .cleaning c rest
  | .starting c => .starting c
  | .draining s => .draining s

def Control.graft (next : S.Result → Action S S.Result) : Control S → Control S
  | .acting a => .acting (a.bind next)
  | .executing c => .executing c
  | .giving r => .giving r
  | .failing message => .failing message

/-- What lies below a part of a run: what is to be done with its result, the frames on the stack,
and how many batches are open besides those of the part. -/
structure Context (S : Setting) where
  next : S.Result → Action S S.Result
  base : List (Frame S)
  lift : Nat

variable {rest : List (Frame S)} {f : Frame S}

namespace Context

variable (κ κ' : Context S)

/-- What is to be done after code over some frames.  With frames, it is their turn. -/
def after : List (Frame S) → S.Result → Action S S.Result
  | [] => κ.next
  | _ :: _ => .pure

def frames : List (Frame S) → List (Frame S)
  | [] => κ.base
  | f :: rest => f.graft (κ.after rest) :: frames rest

/-- A part of a run, put on top of what lies below. -/
def embed (core : State S) : State S where
  host := core.host
  graph := core.graph.raise κ.lift
  control := core.control.graft (κ.after core.stack)
  stack := κ.frames core.stack

theorem flatMap_frames {α : Type} (view : Frame S → List α)
    (hgraft : ∀ next f, view (Frame.graft next f) = view f) (stack : List (Frame S)) :
    (κ.frames stack).flatMap view = stack.flatMap view ++ κ.base.flatMap view := by
  induction stack with
  | nil => rfl
  | cons f rest ih =>
    rw [frames, flatMap_cons, ih, hgraft, flatMap_cons, append_assoc]

theorem length_frames (stack : List (Frame S)) :
    (κ.frames stack).length = stack.length + κ.base.length := by
  induction stack with
  | nil => exact (Nat.zero_add _).symm
  | cons f rest ih =>
    rw [frames, length_cons, length_cons]
    omega

theorem eq_embed {core st} (h : core.stack = f :: rest)
    (hst : st = ⟨core.host, core.graph.raise κ.lift, core.control,
      f.graft (κ.after rest) :: κ.frames rest⟩) : st = κ.embed core := by
  rw [hst, embed, h]
  congr 1
  cases core.control with
  | acting a => exact congrArg Control.acting a.bind_pure.symm
  | _ => rfl

theorem alike_embed (core : State S) : (κ.embed core).Alike (κ'.embed core) := ⟨rfl, rfl⟩

end Context

section

variable (next : S.Result → Action S S.Result) (f : Frame S)

theorem Frame.sources_graft : (f.graft next).sources = f.sources := by
  cases f <;> rfl

theorem Frame.computations_graft : (f.graft next).computations = f.computations := by
  cases f <;> rfl

theorem Frame.items_graft : (f.graft next).items = f.items := by
  cases f <;> rfl

end

/-! ### What is seen from above -/

/-- What a step can ask of the whole stack. -/
structure Outlook (S : Setting) where
  view : View S
  height : SourceId → Nat
  isLive : ComputationId → Bool
  isLiveSource : SourceId → Bool

def State.outlook (L : Language S) (st : State S) : Outlook S :=
  ⟨st.view L, st.sourceHeight L, st.isLive L, st.isLiveSource L⟩

/-- Two contexts whose frames hold on to the same things, but for sources that the host holds on
to as well. -/
structure Context.Agrees (L : Language S) (host : S.Host) (κ κ' : Context S) : Prop where
  computations : κ.base.flatMap Frame.computations = κ'.base.flatMap Frame.computations
  items : κ.base.flatMap Frame.items = κ'.base.flatMap Frame.items
  sources : ∃ extra, κ.base.flatMap Frame.sources = extra ++ κ'.base.flatMap Frame.sources ∧
    ∀ s ∈ extra, s ∈ L.named host

theorem eraseDups_append_of_subset {l extra rest : List ComputationId} (h : extra ⊆ l) :
    (l ++ (extra ++ rest)).eraseDups = (l ++ rest).eraseDups := by
  rw [eraseDups_append, eraseDups_append]
  rw [List.removeAll, List.removeAll, filter_append]
  have hextra : extra.filter (fun x => !l.elem x) = [] := by
    rw [filter_eq_nil_iff]
    intro c hc
    simp [h hc]
  rw [hextra, nil_append]

section Outlook

variable {L : Language S} {κ κ' : Context S} {core : State S}

theorem Context.liveSources_embed : (κ.embed core).liveSources L =
    L.named core.host ++ core.stack.flatMap Frame.sources ++ κ.base.flatMap Frame.sources := by
  rw [liveSources, append_assoc]
  congr 1
  exact κ.flatMap_frames _ Frame.sources_graft core.stack

theorem Context.engaged_embed : (κ.embed core).engaged =
    core.engaged ++ κ.base.flatMap Frame.computations := by
  have hframes := κ.flatMap_frames _ Frame.computations_graft core.stack
  cases h : core.control <;> simp [engaged, embed, Control.graft, h, Graph.raise, hframes]

theorem Context.liveComputations_embed : (κ.embed core).liveComputations L =
    core.graph.pending ++ (core.engaged ++ κ.base.flatMap Frame.computations) ++
      (L.named core.host ++ core.stack.flatMap Frame.sources).flatMap core.graph.subscribers ++
      (κ.base.flatMap Frame.sources).flatMap core.graph.subscribers := by
  rw [liveComputations, engaged_embed, liveSources_embed, flatMap_append,
    append_assoc _ _ (List.flatMap _ _)]
  rfl

section

variable (h : κ.Agrees L core.host κ')

include h

theorem Context.Agrees.eraseDups_eq : ((κ.embed core).liveComputations L).eraseDups =
      ((κ'.embed core).liveComputations L).eraseDups := by
  obtain ⟨extra, hextra, hnamed⟩ := h.sources
  have hsplit : (extra ++ κ'.base.flatMap Frame.sources).flatMap core.graph.subscribers =
      extra.flatMap core.graph.subscribers ++
        (κ'.base.flatMap Frame.sources).flatMap core.graph.subscribers := flatMap_append
  rw [liveComputations_embed, liveComputations_embed, h.computations, hextra, hsplit]
  -- What subscribes to the extra sources is in use on account of the host.
  refine eraseDups_append_of_subset ?_
  intro c hc
  obtain ⟨s, hs, hc⟩ := mem_flatMap.1 hc
  refine mem_append_right _ (mem_flatMap.2 ⟨s, ?_, hc⟩)
  exact mem_append_left _ (hnamed s hs)

theorem Context.Agrees.isLive_eq : (κ.embed core).isLive L = (κ'.embed core).isLive L := by
  funext c
  rw [Bool.eq_iff_iff, isLive, isLive, contains_iff_mem, contains_iff_mem,
    ← mem_eraseDups, h.eraseDups_eq, mem_eraseDups]

theorem Context.Agrees.isLiveSource_eq :
    (κ.embed core).isLiveSource L = (κ'.embed core).isLiveSource L := by
  obtain ⟨extra, hextra, hnamed⟩ := h.sources
  funext s
  rw [Bool.eq_iff_iff, isLiveSource, isLiveSource, contains_iff_mem,
    contains_iff_mem, liveSources_embed, liveSources_embed, hextra]
  simp only [mem_append]
  tauto

theorem Context.Agrees.outlook_embed : (κ.embed core).outlook L = (κ'.embed core).outlook L := by
  have hview : (κ.embed core).view L = (κ'.embed core).view L := by
    rw [view, h.eraseDups_eq]
    congr 1
    show (κ.frames core.stack).flatMap Frame.items = (κ'.frames core.stack).flatMap Frame.items
    rw [κ.flatMap_frames _ Frame.items_graft, κ'.flatMap_frames _ Frame.items_graft, h.items]
  have hheight : (κ.embed core).sourceHeight L = (κ'.embed core).sourceHeight L := by
    funext s
    rw [sourceHeight, h.isLive_eq]
    rfl
  rw [outlook, outlook, hview, hheight, h.isLive_eq, h.isLiveSource_eq]

end

end Outlook

/-! ### Frames of a part of a run -/

def Frame.resumes : Frame S → Bool
  | .returning _ _ | .catching _ | .resuming _ | .batching _ | .making _ _ | .flushing _ _ => true
  | .restoring _ | .storing _ | .cleaning _ _ | .starting _ | .draining _ => false

/-- Whether the lowest of some frames goes on with code. -/
def bottomed : List (Frame S) → Bool
  | [] => true
  | [f] => f.resumes
  | _ :: f :: rest => bottomed (f :: rest)

theorem bottomed_append (new : List (Frame S)) (h : rest ≠ []) :
    bottomed (new ++ rest) = bottomed rest := by
  induction new with
  | nil => rfl
  | cons f new ih =>
    cases hnew : new ++ rest with
    | nil => exact absurd (append_eq_nil_iff.1 hnew).2 h
    | cons g others =>
      rw [cons_append, hnew, bottomed, ← hnew, ih]

/-- Whether code is running or has failed. -/
def Control.isOpen : Control S → Bool
  | .acting _ | .failing _ => true
  | .executing _ | .giving _ => false

/-- A part of a run that began with code: its lowest frame goes on with code, and without frames
there is code. -/
structure State.Rooted (core : State S) : Prop where
  bottomed : bottomed core.stack = true
  isOpen : core.stack = [] → core.control.isOpen = true

/-- What a step of a part of a run keeps. -/
structure State.Follows (core core' : State S) : Prop where
  depth : core'.graph.depth + opened core.stack = core.graph.depth + opened core'.stack
  undrained : (∀ f ∈ core.stack, f.isDrain = false) → ∀ f ∈ core'.stack, f.isDrain = false
  rooted : core.Rooted → core'.Rooted

theorem State.Follows.of_stack {core core' : State S} (old new : List (Frame S))
    (hs : core.stack = old ++ rest) (hs' : core'.stack = new ++ rest)
    (hdepth : core'.graph.depth + opened old = core.graph.depth + opened new)
    (hnew : ∀ f ∈ new, f.isDrain = false) (hroot : rest = [] → core.Rooted →
      Reactive.bottomed new = true ∧ (new = [] → core'.control.isOpen = true)) :
    core.Follows core' := by
  refine ⟨?_, ?_, ?_⟩
  · rw [hs, hs', opened_append, opened_append]
    omega
  · intro hold f hf
    rw [hs', mem_append] at hf
    rcases hf with hf | hf
    · exact hnew f hf
    · exact hold f (by rw [hs]; exact mem_append_right _ hf)
  · intro hrooted
    -- The lowest frame stays, unless nothing is left under the old ones.
    by_cases hrest : rest = []
    · obtain ⟨hbottom, hopen⟩ := hroot hrest hrooted
      rw [hrest, append_nil] at hs'
      exact ⟨hs' ▸ hbottom, fun h => hopen (hs' ▸ h)⟩
    · have hold := hrooted.bottomed
      rw [hs, bottomed_append old hrest] at hold
      refine ⟨by rw [hs', bottomed_append new hrest, hold], fun h => ?_⟩
      rw [hs', append_eq_nil_iff] at h
      exact absurd h.2 hrest

section Follows

variable {core core' : State S}

theorem State.Follows.code (hs : core'.stack = core.stack)
    (hdepth : core'.graph.depth = core.graph.depth) (hopen : core'.control.isOpen = true) :
    core.Follows core' := by
  refine of_stack [] [] rfl hs (by rw [hdepth]) (by simp) ?_
  exact fun _ _ => ⟨rfl, fun _ => hopen⟩

/-- Code puts a frame on top that goes on with code. -/
theorem State.Follows.push (hs : core'.stack = f :: core.stack)
    (hdepth : core'.graph.depth = core.graph.depth + f.opens) (hf : f.resumes = true) :
    core.Follows core' := by
  refine of_stack [] [f] rfl hs ?_ ?_ ?_
  · rw [hdepth]
    rfl
  · intro g hg
    rw [mem_singleton.1 hg]
    cases f with
    | draining s => cases hf
    | _ => rfl
  · exact fun _ _ => ⟨hf, fun h => by cases h⟩

theorem State.Follows.resume (hs : core'.stack = core.stack)
    (hdepth : core'.graph.depth + f.opens = core.graph.depth)
    (hopen : core'.control.isOpen = true) : (core.push f).Follows core' := by
  refine of_stack [f] [] rfl hs hdepth (by simp) ?_
  exact fun _ _ => ⟨rfl, fun _ => hopen⟩

/-- A frame that does not go on with code gives way to others.  It is not the lowest one. -/
theorem State.Follows.replace (new : List (Frame S)) (hf : f.resumes = false)
    (hs : core'.stack = new ++ core.stack)
    (hdepth : core'.graph.depth + f.opens = core.graph.depth + opened new)
    (hnew : ∀ g ∈ new, g.isDrain = false) : (core.push f).Follows core' := by
  refine of_stack [f] new rfl hs hdepth hnew ?_
  intro hrest hrooted
  have hbottom : Reactive.bottomed (f :: core.stack) = true := hrooted.bottomed
  rw [hrest, Reactive.bottomed, hf] at hbottom
  cases hbottom

end Follows

/-! ### Steps in a context -/

section Steps

variable [BEq S.Value] {core : State S}

theorem exists_noted (L : Language S) (core : State S) (s : SourceId) (tracked : Bool)
    (o : Outlook S) :
    ∃ noted : State S, noted.stack = core.stack ∧ noted.graph.depth = core.graph.depth ∧
      ∀ κ : Context S, (κ.embed core).outlook L = o → ∀ k,
        (κ.embed core).stepAction L (.read s tracked k) =
          (κ.embed noted).stepAction L (.read s false k) := by
  cases tracked with
  | false => exact ⟨core, rfl, rfl, fun _ _ _ => rfl⟩
  | true =>
    cases hc : core.graph.current with
    | none =>
      refine ⟨core, rfl, rfl, fun κ _ k => ?_⟩
      have hcur : (κ.embed core).graph.current = none := hc
      simp only [stepAction, hcur]
    | some c =>
      refine ⟨core.modifyGraph (·.subscribe c s (o.height s)), rfl, Graph.depth_subscribe,
        fun κ ho k => ?_⟩
      have hcur : (κ.embed core).graph.current = some c := hc
      have hheight : (κ.embed core).sourceHeight L s = o.height s := by rw [← ho]; rfl
      have hnoted : (κ.embed core).modifyGraph (·.subscribe c s (o.height s)) =
          κ.embed (core.modifyGraph (·.subscribe c s (o.height s))) :=
        congrArg (fun g => mk _ g _ _) (Graph.raise_subscribe _ _ _ _ _)
      simp only [stepAction, hcur, hheight, hnoted]

/-- Whether what code does first takes a step, runs no other code and gives no source a value. -/
def Action.isPlain : Action S S.Result → Bool
  | .look _ | .survey _ | .change _ _ | .signal _ _ | .read _ _ _ => true
  | .cleanup _ _ | .later _ _ => true
  | _ => false

theorem exists_stepAction (L : Language S) {a : Action S S.Result}
    (hdepth : 0 < core.graph.depth ∨ a.isPlain = true)
    (hmove : core.stack ≠ [] ∨ ∀ r, a ≠ .pure r) (o : Outlook S) :
    ∃ core', core.Follows core' ∧ ∀ κ : Context S, (κ.embed core).outlook L = o →
      (κ.embed core).stepAction L (a.bind (κ.after core.stack)) = κ.embed core' := by
  cases a with
  | pure r =>
    have hs : core.stack ≠ [] := hmove.resolve_right fun h => h r rfl
    refine ⟨core.give r, .of_stack [] [] rfl rfl rfl (by simp) ?_, fun κ _ => ?_⟩
    · exact fun h _ => absurd h hs
    · obtain ⟨f, rest, hcons⟩ := exists_cons_of_ne_nil hs
      refine κ.eq_embed hcons ?_
      rw [Context.embed, hcons]
      rfl
  | raise message =>
    exact ⟨{ core with control := .failing message }, .code rfl rfl rfl, fun κ _ => rfl⟩
  | look k => exact ⟨core.act (k core.host), .code rfl rfl rfl, fun κ _ => rfl⟩
  | survey k =>
    refine ⟨core.act (k o.view), .code rfl rfl rfl, fun κ ho => ?_⟩
    rw [← ho]
    rfl
  | change f next =>
    exact ⟨{ core with host := f core.host, control := .acting next }, .code rfl rfl rfl,
      fun κ _ => rfl⟩
  | signal v k =>
    exact ⟨(core.withGraph (core.graph.addSignal v).1).act (k (core.graph.addSignal v).2),
      .code rfl rfl rfl, fun κ _ => rfl⟩
  | memo code k =>
    refine ⟨{ (core.withGraph (core.graph.addMemo code).1).push
        (.making (core.graph.addMemo code).2.1 k) with
      control := .executing (core.graph.addMemo code).2.2 },
      .push rfl (Graph.depth_addMemo core.graph code) rfl, fun κ _ => ?_⟩
    simp only [stepAction, Context.embed, Graph.raise_addMemo]
    rfl
  | effect code next =>
    refine ⟨{ (core.withGraph (core.graph.addEffect code).1).push (.resuming next) with
      control := .executing (core.graph.addEffect code).2 },
      .push rfl Graph.depth_addComputation rfl, fun κ _ => ?_⟩
    simp only [stepAction, Graph.addEffect, Context.embed,
      Graph.raise_addComputation]
    rfl
  | read s tracked k =>
    obtain ⟨noted, hs, hdepth', hnoted⟩ := exists_noted L core s tracked o
    cases hv : noted.graph.value? s with
    | some v =>
      refine ⟨noted.act (k v), .code hs hdepth' rfl, fun κ ho => ?_⟩
      have hv' : (κ.embed noted).graph.value? s = some v := hv
      rw [Action.bind, hnoted κ ho, ← hs]
      simp only [stepAction, hv']
      rfl
    | none =>
      refine ⟨{ noted with control := .failing "memo read before its first computation finished" },
        .code hs hdepth' rfl, fun κ ho => ?_⟩
      have hv' : (κ.embed noted).graph.value? s = none := hv
      rw [Action.bind, hnoted κ ho]
      simp only [stepAction, hv']
      rfl
  | write s v next =>
    by_cases hsame : (!core.graph.isSignal s || core.graph.value? s == some v) = true
    · refine ⟨core.act next, .code rfl rfl rfl, fun κ _ => ?_⟩
      exact if_pos hsame
    · refine ⟨(core.assign s v).act next, .code rfl rfl rfl, fun κ _ => ?_⟩
      -- A batch is open, so the subscribers are left to wait.
      have hopen : ((κ.embed core).assign s v).graph.depth ≠ 0 := by
        show core.graph.depth + κ.lift ≠ 0
        have := hdepth.resolve_right fun h => by cases h
        omega
      exact (if_neg hsame).trans (if_neg hopen)
  | batch code k =>
    refine ⟨((core.modifyGraph fun g => { g with depth := g.depth + 1 }).push (.batching k)).act
      (L.body code), .push rfl rfl rfl, fun κ _ => ?_⟩
    exact κ.eq_embed rfl
      (congrArg (fun g => mk _ g _ _) (core.graph.raise_open κ.lift))
  | untrack code k =>
    refine ⟨(((core.push (.returning [] k)).push (.restoring core.graph.current)).modifyGraph
      fun g => { g with current := none }).act (L.body code), ?_, fun κ _ => ?_⟩
    · exact .of_stack [] [.restoring core.graph.current, .returning [] k] rfl rfl rfl
        (by simp [Frame.isDrain]) fun _ _ => ⟨rfl, by simp⟩
    · exact κ.eq_embed rfl rfl
  | call code held k =>
    refine ⟨(core.push (.returning held k)).act (L.body code), .push rfl rfl rfl, fun κ _ => ?_⟩
    exact κ.eq_embed rfl rfl
  | attempt code k =>
    refine ⟨(core.push (.catching k)).act (L.body code), .push rfl rfl rfl, fun κ _ => ?_⟩
    exact κ.eq_embed rfl rfl
  | cleanup code k =>
    cases hc : core.graph.current with
    | none =>
      refine ⟨core.act (k false), .code rfl rfl rfl, fun κ _ => ?_⟩
      have hcur : (κ.embed core).graph.current = none := hc
      simp only [stepAction, hcur]
      rfl
    | some c =>
      refine ⟨(core.modifyGraph fun g => g.addCleanup c (.run code)).act (k true),
        .code rfl rfl rfl, fun κ _ => ?_⟩
      have hcur : (κ.embed core).graph.current = some c := hc
      simp only [stepAction, hcur]
      rfl
  | later code next =>
    exact ⟨(core.modifyGraph fun g => { g with tasks := g.tasks ++ [code] }).act next,
      .code rfl rfl rfl, fun κ _ => rfl⟩
  | flush k =>
    refine ⟨(core.push (.flushing 0 k)).give L.nothing, .push rfl rfl rfl, fun κ _ => ?_⟩
    exact κ.eq_embed rfl rfl

/-- A computation is running, over a frame that sets back what was running before. -/
def State.entered (st : State S) (c : ComputationId) : State S :=
  (st.push (.restoring st.graph.current)).modifyGraph fun g => { g with current := some c }

section Starting

variable {L : Language S} {st : State S} {c : ComputationId} {d : Computation S.Code} {r : S.Result}

theorem State.stepFrame_missing (h : st.graph.computation? c = none) :
    st.stepFrame L r (.starting c) = (st.entered c).give L.nothing := by
  have h' : ({ st.graph with current := some c } : Graph S.Value S.Code).computation? c = none := h
  simp only [stepFrame, entered, push, modifyGraph, h']

theorem State.stepFrame_effect (h : st.graph.computation? c = some d) (ht : d.target = none) :
    st.stepFrame L r (.starting c) = (st.entered c).act (L.body d.code) := by
  have h' : ({ st.graph with current := some c } : Graph S.Value S.Code).computation? c =
    some d := h
  simp only [stepFrame, entered, push, modifyGraph, h', ht]

theorem State.stepFrame_memo (h : st.graph.computation? c = some d) (ht : d.target = some s) :
    st.stepFrame L r (.starting c) =
      if (st.entered c).isLiveSource L s then
        ((st.entered c).push (.storing s)).act (L.body d.code)
      else (st.entered c).give L.nothing := by
  have h' : ({ st.graph with current := some c }).computation? c =
    some d := h
  simp only [stepFrame, push, modifyGraph, h', ht]
  rfl

end Starting

theorem exists_stepFrame (L : Language S) (hr : core.control = .giving r)
    (hdepth : f.opens + opened core.stack < core.graph.depth) (hf : f.isDrain = false)
    (o : Outlook S) :
    ∃ core', (core.push f).Follows core' ∧ ∀ κ : Context S, (κ.embed (core.push f)).outlook L = o →
      { κ.embed (core.push f) with stack := κ.frames core.stack }.stepFrame L r
        (f.graft (κ.after core.stack)) = κ.embed core' := by
  have hopen : 0 < core.graph.depth := Nat.zero_lt_of_lt hdepth
  cases f with
  | returning held k => exact ⟨core.act (k r), .resume rfl rfl rfl, fun κ _ => rfl⟩
  | catching k => exact ⟨core.act (k (.ok r)), .resume rfl rfl rfl, fun κ _ => rfl⟩
  | resuming next => exact ⟨core.act next, .resume rfl rfl rfl, fun κ _ => rfl⟩
  | batching k =>
    have hdepth' : 1 + opened core.stack < core.graph.depth := hdepth
    refine ⟨(core.modifyGraph fun g => { g with depth := g.depth - 1 }).act (k r),
      .resume rfl ?_ rfl, fun κ _ => ?_⟩
    · show core.graph.depth - 1 + 1 = core.graph.depth
      omega
    · -- This is not the outermost batch.
      have hstill : core.graph.depth + κ.lift - 1 ≠ 0 := by omega
      refine (if_neg hstill).trans ?_
      exact congrArg (fun g => mk _ g _ _) (core.graph.raise_close κ.lift hopen)
  | restoring previous =>
    exact ⟨(core.modifyGraph fun g => { g with current := previous }).give r,
      .replace [] rfl rfl rfl (by simp), fun κ _ => rfl⟩
  | storing s =>
    by_cases hsame : (core.graph.value? s == some (L.value r)) = true
    · exact ⟨core.give L.nothing, .replace [] rfl rfl rfl (by simp), fun κ _ => if_pos hsame⟩
    · refine ⟨(core.assign s (L.value r)).give L.nothing, .replace [] rfl rfl rfl (by simp),
        fun κ _ => ?_⟩
      have hstill : core.graph.depth + κ.lift ≠ 0 := by omega
      exact (if_neg hsame).trans (if_neg hstill)
  | making s k => exact ⟨core.act (k s), .resume rfl rfl rfl, fun κ _ => rfl⟩
  | cleaning c l =>
    rcases l with - | ⟨code | d, l⟩
    · exact ⟨core.give L.nothing, .replace [] rfl rfl rfl (by simp), fun κ _ => rfl⟩
    · refine ⟨(core.push (.cleaning c l)).act (L.body code),
        .replace [.cleaning c l] rfl rfl rfl (by simp [Frame.isDrain]), fun κ _ => ?_⟩
      exact κ.eq_embed rfl rfl
    · have hgiving : ∀ κ : Context S,
          (κ.embed (core.push (.cleaning c (.dispose d :: l)))).control = .giving r := by
        intro κ
        simp only [Context.embed, push, hr, Control.graft]
      -- Whether the child is in use depends on the frames below, so the outlook has to tell.
      by_cases hd : (o.isLive d && !core.graph.isDisposed d) = true
      · refine ⟨((((core.push (.cleaning c l)).give L.nothing).modifyGraph
            fun g => g.markDisposed d).reset d),
          .replace [.cleaning d _, .cleaning c l] rfl rfl ?_ (by simp [Frame.isDrain]),
          fun κ ho => ?_⟩
        · exact Graph.depth_release
        · rw [← ho] at hd
          refine (stepFrame_dispose (hgiving κ) rfl).trans ((if_pos hd).trans ?_)
          exact κ.eq_embed rfl (congrArg (fun g => mk _ g _ _)
            ((core.graph.markDisposed d).raise_release κ.lift d))
      · refine ⟨(core.push (.cleaning c l)).give L.nothing,
          .replace [.cleaning c l] rfl rfl rfl (by simp [Frame.isDrain]), fun κ ho => ?_⟩
        rw [← ho] at hd
        refine (stepFrame_dispose (hgiving κ) rfl).trans ((if_neg hd).trans ?_)
        exact κ.eq_embed rfl rfl
  | starting c =>
    have hlive : ∀ (κ : Context S) (s : SourceId),
        (κ.embed (core.push (.starting c))).outlook L = o →
        (({ κ.embed (core.push (.starting c)) with stack := κ.frames core.stack } :
          State S).entered c).isLiveSource L s = o.isLiveSource s := by
      intro κ s ho
      rw [← ho]
      rfl
    have hnothing : (core.push (.starting c)).Follows ((core.entered c).give L.nothing) :=
      .replace [.restoring core.graph.current] rfl rfl rfl (by simp [Frame.isDrain])
    cases hd : core.graph.computation? c with
    | none =>
      refine ⟨_, hnothing, fun κ _ => (stepFrame_missing ?_).trans (κ.eq_embed rfl rfl)⟩
      exact hd
    | some d =>
      cases ht : d.target with
      | none =>
        refine ⟨(core.entered c).act (L.body d.code), .replace [.restoring core.graph.current]
          rfl rfl rfl (by simp [Frame.isDrain]), fun κ _ => ?_⟩
        refine (stepFrame_effect ?_ ht).trans (κ.eq_embed rfl rfl)
        exact hd
      | some s =>
        by_cases hs' : o.isLiveSource s = true
        · refine ⟨((core.entered c).push (.storing s)).act (L.body d.code),
            .replace [.storing s, .restoring core.graph.current] rfl rfl rfl
              (by simp [Frame.isDrain]), fun κ ho => (stepFrame_memo ?_ ht).trans ?_⟩
          · exact hd
          · rw [hlive κ s ho, if_pos hs']
            exact κ.eq_embed rfl rfl
        · refine ⟨_, hnothing, fun κ ho => (stepFrame_memo ?_ ht).trans ?_⟩
          · exact hd
          · rw [hlive κ s ho, if_neg hs']
            exact κ.eq_embed rfl rfl
  | draining s => cases hf
  | flushing n k =>
    cases htasks : core.graph.tasks with
    | nil =>
      refine ⟨core.act (k n), .resume rfl rfl rfl, fun κ _ => ?_⟩
      have htasks' : (κ.embed (core.push (.flushing n k))).graph.tasks = [] := htasks
      simp only [Frame.graft, stepFrame, htasks']
      rfl
    | cons code tasks =>
      refine ⟨((core.modifyGraph fun g => { g with tasks := tasks }).push
          (.flushing (n + 1) k)).act (L.body code),
        .of_stack [.flushing n k] [.flushing (n + 1) k] rfl rfl rfl (by simp [Frame.isDrain])
          fun _ _ => ⟨rfl, by simp⟩, fun κ _ => ?_⟩
      have htasks' : (κ.embed (core.push (.flushing n k))).graph.tasks = code :: tasks := htasks
      simp only [Frame.graft, stepFrame, htasks']
      exact κ.eq_embed rfl rfl

omit [BEq S.Value] in
theorem exists_unwind {message : String} {f : Frame S} (hm : core.control = .failing message)
    (hdepth : f.opens + opened core.stack < core.graph.depth) (hf : f.isDrain = false) :
    ∃ core', (core.push f).Follows core' ∧ ∀ κ : Context S,
      { κ.embed (core.push f) with stack := κ.frames core.stack }.unwind message
        (f.graft (κ.after core.stack)) = κ.embed core' := by
  -- A frame that has no part in the failure is just taken off.
  have hskip : ∀ κ : Context S,
      { κ.embed (core.push f) with stack := κ.frames core.stack } = κ.embed core := by
    intro κ
    simp only [Context.embed, push, hm, Control.graft]
  have hopen : 0 < core.graph.depth := Nat.zero_lt_of_lt hdepth
  have hfailing : core.control.isOpen = true := by rw [hm]; rfl
  cases f with
  | catching k =>
    exact ⟨core.act (k (.error message)), .resume rfl rfl rfl, fun κ => rfl⟩
  | batching k =>
    have hdepth' : 1 + opened core.stack < core.graph.depth := hdepth
    refine ⟨core.modifyGraph fun g => { g with depth := g.depth - 1 }, .resume rfl ?_ hfailing,
      fun κ => ?_⟩
    · show core.graph.depth - 1 + 1 = core.graph.depth
      omega
    · have hstill : core.graph.depth + κ.lift - 1 ≠ 0 := by omega
      rw [hskip κ]
      refine (congrArg (fun g => mk _ g _ _) (if_neg hstill)).trans ?_
      exact congrArg (fun g => mk _ g _ _) (core.graph.raise_close κ.lift hopen)
  | restoring previous =>
    refine ⟨core.modifyGraph fun g => { g with current := previous }, .resume rfl rfl hfailing,
      fun κ => ?_⟩
    rw [hskip κ]
    rfl
  | draining s => cases hf
  | _ => exact ⟨core, .resume rfl rfl hfailing, hskip⟩

/-- Whether a part of a run goes on by itself: it has frames, or a computation is to run, or there
is code that does more than to give a result. -/
def State.Moves (core : State S) : Prop :=
  core.stack = [] → (∃ c, core.control = .executing c) ∨
    ∃ a, core.control = .acting a ∧ ∀ r, a ≠ .pure r

/-- A step of a part of a run is the same in all contexts that look the same from above, if a batch
is open below it. -/
theorem exists_step_embed (L : Language S) (hdepth : opened core.stack < core.graph.depth)
    (hundrained : ∀ f ∈ core.stack, f.isDrain = false) (hmoves : core.Moves) (o : Outlook S) :
    ∃ core', core.Follows core' ∧ ∀ κ : Context S, (κ.embed core).outlook L = o →
      (κ.embed core).step? L = some (κ.embed core') := by
  -- Without frames there would be something to be done.
  have hframe (hidle : (∀ c, core.control ≠ .executing c) ∧ ∀ a, core.control ≠ .acting a) :
      ∃ popped f, core = push popped f := by
    obtain ⟨host, graph, control, stack⟩ := core
    cases stack with
    | nil =>
      rcases hmoves rfl with ⟨c, h⟩ | ⟨a, h, -⟩
      · exact absurd h (hidle.1 c)
      · exact absurd h (hidle.2 a)
    | cons f rest => exact ⟨⟨host, graph, control, rest⟩, f, rfl⟩
  cases hc : core.control with
  | acting a =>
    have hmove : core.stack ≠ [] ∨ ∀ r, a ≠ .pure r := by
      by_cases hs : core.stack = []
      · rcases hmoves hs with ⟨c, h⟩ | ⟨a', h, ha'⟩
        · cases hc.symm.trans h
        · cases hc.symm.trans h
          exact .inr ha'
      · exact .inl hs
    obtain ⟨core', hfollows, hstep⟩ := exists_stepAction L (.inl (Nat.zero_lt_of_lt hdepth)) hmove o
    refine ⟨core', hfollows, fun κ ho => ?_⟩
    rw [← hstep κ ho, step?]
    simp only [Context.embed, hc, Control.graft]
  | executing c =>
    -- A part of a run that began with code has frames when it calls a computation.
    have hbusy : core.stack = [] → ¬ core.Rooted := by
      intro hs hrooted
      have := hrooted.isOpen hs
      rw [hc] at this
      cases this
    have hcontrol : ∀ κ : Context S, (κ.embed core).control = .executing c := by
      intro κ
      rw [Context.embed, hc]
      rfl
    by_cases hd : core.graph.isDisposed c = true
    · refine ⟨core.give L.nothing, .of_stack [] [] rfl rfl rfl (by simp) ?_, fun κ _ => ?_⟩
      · exact fun hs hrooted => absurd hrooted (hbusy hs)
      · simp only [step?, hcontrol κ]
        exact if_pos hd
    · refine ⟨((core.push (.starting c)).reset c).give L.nothing,
        .of_stack [] [.cleaning c _, .starting c] rfl rfl ?_ (by simp [Frame.isDrain]) ?_,
        fun κ _ => ?_⟩
      · exact Graph.depth_release
      · exact fun hs hrooted => absurd hrooted (hbusy hs)
      · simp only [step?, hcontrol κ]
        refine (if_neg hd).trans (congrArg some ?_)
        exact κ.eq_embed rfl (congrArg (fun g => mk _ g _ _)
          (core.graph.raise_release κ.lift c))
  | giving r =>
    obtain ⟨core, f, rfl⟩ := hframe ⟨by simp [hc], by simp [hc]⟩
    have hr : core.control = .giving r := hc
    obtain ⟨core', hfollows, hstep⟩ := exists_stepFrame L hr hdepth
      (hundrained f mem_cons_self) o
    refine ⟨core', hfollows, fun κ ho => ?_⟩
    rw [← hstep κ ho]
    simp only [Context.embed, hc, Control.graft]
    rfl
  | failing message =>
    obtain ⟨core, f, rfl⟩ := hframe ⟨by simp [hc], by simp [hc]⟩
    have hm : core.control = .failing message := hc
    obtain ⟨core', hfollows, hstep⟩ := exists_unwind hm hdepth (hundrained f mem_cons_self)
    refine ⟨core', hfollows, fun κ _ => ?_⟩
    rw [← hstep κ]
    simp only [Context.embed, hc, Control.graft]
    rfl

end Steps

end ReactiveMarkup.Reactive
