/-
Who disposes of whom.

A computation that is made while another is running belongs to that one: the owner notes it among
what it has to clean up.  When the owner runs again, or is disposed itself, it works through this
list.  In the meantime its children are noted nowhere else, so they are disposed when the list is
done, and what they own with them.

* `Session.disposed_with_owner`: no computation survives the next run or the end of its owner.
-/
import Mathlib.Logic.Relation
import ReactiveMarkup.Proofs.Reactive.Effects
import ReactiveMarkup.Proofs.Reactive.Scopes

namespace ReactiveMarkup.Reactive

open List State Reactive.Graph
open Program (body language setting)

variable {S : Setting} [BEq S.Value] {L : Language S} {past : List (State S)} {st next : State S}
  {o c d : ComputationId} {l : List (Cleanup S.Code)} {rest : List (Frame S)}

variable {below stack : List (Frame S)} {f : Frame S}

namespace State

theorem dispose_mem_cleanups_step (h : st.step? L = some next) (ho : st.Orderly) :
    .dispose d ∈ next.graph.cleanups c ↔
      (.dispose d ∈ st.graph.cleanups c ∧ st.event L ≠ .start c ∧ st.event L ≠ .dispose c) ∨
        (st.graph.current = some c ∧ d = st.graph.computations.size ∧
          ∃ code, st.event L = .memo code ∨ st.event L = .effect code) := by
  obtain ⟨_, _, _, hg⟩ := graph_of_step h
  rw [hg]
  refine ((st.event L).mem_cleanups_apply ho.current).trans ?_
  simp

/-! ### Frames that clean up -/

/-- How a frame that cleans up comes to stand on others. -/
inductive Cleans (L : Language S) (st : State S) :
    ComputationId → List (Cleanup S.Code) → List (Frame S) → Prop
  /-- It has stood there before. -/
  | stays {c : ComputationId} {l : List (Cleanup S.Code)} {rest : List (Frame S)} :
      .cleaning c l :: rest <:+ st.stack →
      (∀ r, st.control = .giving r → st.stack ≠ .cleaning c l :: rest) → Cleans L st c l rest
  | starts {c : ComputationId} : st.control = .executing c → st.graph.isDisposed c = false →
      Cleans L st c (st.graph.cleanups c) (.starting c :: st.stack)
  /-- Something on the list is seen to. -/
  | goes {r : S.Result} {c : ComputationId} {x : Cleanup S.Code} {l : List (Cleanup S.Code)}
      {rest : List (Frame S)} : st.control = .giving r → st.stack = .cleaning c (x :: l) :: rest →
      Cleans L st c l rest
  /-- A computation is disposed. -/
  | disposes {r : S.Result} {o d : ComputationId} {l : List (Cleanup S.Code)}
      {rest : List (Frame S)} : st.control = .giving r →
      st.stack = .cleaning o (.dispose d :: l) :: rest → st.event L = .dispose d →
      Cleans L st d (st.graph.cleanups d) (.cleaning o l :: rest)

omit [BEq S.Value] in
theorem suffix_of_append {new : List (Frame S)} (hnew : ∀ c l, .cleaning c l ∉ new)
    (h : .cleaning c l :: rest <:+ new ++ stack) : .cleaning c l :: rest <:+ stack := by
  induction new with
  | nil => exact h
  | cons f new ih =>
    rcases suffix_cons_iff.1 h with h | h
    · exact absurd ((List.cons.inj h).1 ▸ .head _) (hnew c l)
    · exact ih (fun c l hmem => hnew c l (.tail _ hmem)) h

omit [BEq S.Value] in
theorem suffix_cleaning {a : ComputationId} {todo : List (Cleanup S.Code)}
    (h : .cleaning c l :: rest <:+ .cleaning a todo :: below) :
    (c = a ∧ l = todo ∧ rest = below) ∨ .cleaning c l :: rest <:+ below := by
  rcases suffix_cons_iff.1 h with h | h
  · obtain ⟨hf, hrest⟩ := List.cons.inj h
    obtain ⟨hc, hl⟩ := Frame.cleaning.inj hf
    exact .inl ⟨hc, hl, hrest⟩
  · exact .inr h

theorem Cleans.of_tail (hs : st.stack = f :: below) (h : .cleaning c l :: rest <:+ below) :
    Cleans L st c l rest := by
  refine .stays (hs ▸ h.trans (suffix_cons f below)) fun r _ heq => ?_
  have hle := h.length_le
  have hlen := congrArg List.length (hs.symm.trans heq)
  simp only [length_cons] at hle hlen
  omega

theorem cleans_cleaning {todo} (hr : st.control = .giving r)
    (hs : st.stack = .cleaning a todo :: below) (hf : .cleaning c l :: rest <:+
      ({ st with stack := below }.stepFrame L r (.cleaning a todo)).stack) :
    Cleans L st c l rest := by
  have hgoes : ∀ x todo', todo = x :: todo' → .cleaning c l :: rest <:+ .cleaning a todo' :: below →
      Cleans L st c l rest := by
    rintro x todo' rfl hf
    rcases suffix_cleaning hf with ⟨rfl, rfl, rfl⟩ | hf
    · exact .goes hr hs
    · exact .of_tail hs hf
  rcases todo with - | ⟨code | e, todo⟩
  · exact .of_tail hs hf
  · exact hgoes _ _ rfl hf
  · rw [stepFrame_dispose hr hs] at hf
    split at hf
    · rename_i hlive
      have he : st.event L = .dispose e := by
        rw [event_giving hr hs]
        exact if_pos hlive
      have hsame : (st.graph.markDisposed e).cleanups e = st.graph.cleanups e :=
        cleanups_of_map (computation?_markDisposed_map fun _ => rfl)
      rcases suffix_cleaning hf with ⟨rfl, rfl, rfl⟩ | hf
      · show Cleans L st c ((st.graph.markDisposed c).cleanups c) (.cleaning a todo :: below)
        rw [hsame]
        exact .disposes hr hs he
      · exact hgoes _ _ rfl hf
    · exact hgoes _ _ rfl hf

theorem cleans_of_step (h : st.step? L = some next) (hf : .cleaning c l :: rest <:+ next.stack) :
    Cleans L st c l rest := by
  revert hf
  refine step_cases h ?_ ?_ ?_ ?_ ?_
  · intro a ha hf
    obtain ⟨new, hn⟩ := shifts_stepAction ha
    rw [hn.stack] at hf
    refine .stays (suffix_of_append (fun c l hmem => ?_) hf) (by simp [ha])
    rcases hn.pushes _ hmem with hc | ⟨r, _, _, _, hr, -⟩
    · cases ha.symm.trans hc
    · cases ha.symm.trans hr
  · intro a ha _ hf
    exact .stays hf (by simp [ha])
  · intro a ha hd hf
    rcases suffix_cleaning hf with ⟨rfl, rfl, rfl⟩ | hf
    · exact .starts ha hd
    · have hf : .cleaning c l :: rest <:+ [.starting a] ++ st.stack := hf
      exact .stays (suffix_of_append (by simp) hf) (by simp [ha])
  · intro r f below hr hs hf
    by_cases hclean : ∃ a todo, f = .cleaning a todo
    · obtain ⟨a, todo, rfl⟩ := hclean
      exact cleans_cleaning hr hs hf
    · obtain ⟨new, hn⟩ := shifts_stepFrame hr hs
      rw [hn.stack] at hf
      refine .of_tail hs (suffix_of_append (fun c l hmem => ?_) hf)
      rcases hn.pushes _ hmem with hc | ⟨_, a, todo, _, -, hst, -⟩
      · cases hr.symm.trans hc
      · exact hclean ⟨a, todo, (List.cons.inj (hs.symm.trans hst)).1⟩
  · intro m f below hm hs hf
    have hstack : ({ st with stack := below }.unwind m f).stack = below := by cases f <;> rfl
    exact .of_tail hs (hstack ▸ hf)

/-! ### Who has made what -/

variable (L) in
/-- Whether a step makes a computation while another is running. -/
def Makes (t : State S) (o c : ComputationId) : Prop :=
  (∃ code, t.event L = .memo code ∨ t.event L = .effect code) ∧ t.graph.current = some o ∧
    c = t.graph.computations.size

variable (L) in
/-- Whether a step begins a run of a computation, or disposes of it. -/
def Renews (t : State S) (o : ComputationId) : Prop :=
  t.event L = .start o ∨ t.event L = .dispose o

end State

variable {t : State S}

namespace Session

theorem size_le (h : Session L past st) (ht : t ∈ past) :
    t.graph.computations.size ≤ st.graph.computations.size := by
  induction h with
  | start host a => cases ht
  | step _ hstep ih =>
    rcases mem_cons.1 ht with rfl | ht
    · exact size_le_of_step hstep
    · exact Nat.le_trans (ih ht) (size_le_of_step hstep)
  | again host a _ _ ih =>
    rcases mem_cons.1 ht with rfl | ht
    · exact Nat.le_refl _
    · exact ih ht

theorem lt_size_of_makes (h : Session L past st) (ht : t ∈ past) (hm : t.Makes L o c) :
    c < st.graph.computations.size := by
  obtain ⟨⟨code, he⟩, -, rfl⟩ := hm
  induction h with
  | start host a => cases ht
  | step _ hstep ih =>
    rcases mem_cons.1 ht with rfl | ht
    · rw [State.Orderly.size_of_new hstep he]
      exact Nat.lt_succ_self _
    · exact Nat.lt_of_lt_of_le (ih ht) (size_le_of_step hstep)
  | again host a _ hend ih =>
    rcases mem_cons.1 ht with rfl | ht
    · rw [event_of_end hend] at he
      simp at he
    · exact ih ht

theorem makes_unique (h : Session L past st) (ht : t ∈ past) (ht' : t' ∈ past) (hm : t.Makes L o c)
    (hm' : t'.Makes L d c) : o = d := by
  have hlast : ∀ {past : List (State S)} {st t : State S} {o o' : ComputationId},
    Session L past st →
      st.Makes L o c → t ∈ past → t.Makes L o' c → False := fun h hm ht hm' =>
    absurd (h.lt_size_of_makes ht hm') (Nat.not_lt.2 (Nat.le_of_eq hm.2.2.symm))
  induction h with
  | start host a => cases ht
  | step h _ ih | again _ _ h _ ih =>
    rcases mem_cons.1 ht with rfl | hmem
    · rcases mem_cons.1 ht' with rfl | hmem'
      · exact Option.some_inj.1 (hm.2.1.symm.trans hm'.2.1)
      · exact (hlast h hm hmem' hm').elim
    · rcases mem_cons.1 ht' with rfl | hmem'
      · exact (hlast h hm' hmem hm).elim
      · exact ih hmem hmem'

end Session

/-! ### What cleaning up stands on -/

/-- What holds of all that has to be cleaned up. -/
structure Duties (L : Language S) (past : List (State S)) (st : State S) : Prop where
  /-- A computation notes those that it has made. -/
  noted : ∀ o c, .dispose c ∈ st.graph.cleanups o → ∃ t ∈ past, t.Makes L o c
  listed : ∀ o l, .cleaning o l ∈ st.stack → ∀ c, .dispose c ∈ l → ∃ t ∈ past, t.Makes L o c
  /-- Cleaning up is done for a run that comes next, or for an owner. -/
  seated : ∀ c l rest, .cleaning c l :: rest <:+ st.stack →
    (∃ below, rest = .starting c :: below) ∨
      ∃ o l' below, rest = .cleaning o l' :: below ∧ ∃ t ∈ past, t.Makes L o c
  /-- A drain is in progress, unless there is nothing to clean up. -/
  drained : ∀ c l rest, .cleaning c l :: rest <:+ st.stack →
    opened rest ≠ 0 ∨ (l = [] ∧ st.stack = .cleaning c l :: rest ∧ ∃ r, st.control = .giving r)

omit [BEq S.Value] in
theorem exists_suffix_of_mem (h : f ∈ stack) : ∃ rest, f :: rest <:+ stack := by
  obtain ⟨above, rest, rfl⟩ := append_of_mem h
  exact ⟨rest, suffix_append above _⟩

omit [BEq S.Value] in
theorem mem_of_suffix {rest : List (Frame S)} (h : f :: rest <:+ stack) :
    f ∈ stack := h.subset (.head _)

namespace Duties

variable (hd : Duties L past st) (ho : st.Orderly) (h : st.step? L = some next)

include hd ho h

theorem noted_step (hc : .dispose c ∈ next.graph.cleanups o) : ∃ t ∈ st :: past, t.Makes L o c := by
  rcases (dispose_mem_cleanups_step h ho).1 hc with ⟨hc, -, -⟩ | ⟨hcur, rfl, hnew⟩
  · obtain ⟨t, ht, hm⟩ := hd.noted o c hc
    exact ⟨t, .tail _ ht, hm⟩
  · exact ⟨st, .head _, hnew, hcur, rfl⟩

omit ho in
theorem listed_step (hl : .cleaning o l ∈ next.stack) (hc : .dispose c ∈ l) :
    ∃ t ∈ st :: past, t.Makes L o c := by
  have hst : ∃ t ∈ past, t.Makes L o c := by
    obtain ⟨rest, hsuf⟩ := exists_suffix_of_mem hl
    cases cleans_of_step h hsuf with
    | stays hsuf' _ => exact hd.listed o l (mem_of_suffix hsuf') c hc
    | starts _ _ | disposes _ _ _ => exact hd.noted o c hc
    | goes _ hs => exact hd.listed o _ (hs ▸ mem_cons_self) c (.tail _ hc)
  obtain ⟨t, ht, hm⟩ := hst
  exact ⟨t, .tail _ ht, hm⟩

omit ho in
theorem seated_step (hsuf : .cleaning c l :: rest <:+ next.stack) :
    (∃ below, rest = .starting c :: below) ∨
      ∃ o l' below, rest = .cleaning o l' :: below ∧ ∃ t ∈ st :: past, t.Makes L o c := by
  have hst : (∃ below, rest = .starting c :: below) ∨
      ∃ o l' below, rest = .cleaning o l' :: below ∧ ∃ t ∈ past, t.Makes L o c := by
    cases cleans_of_step h hsuf with
    | stays hsuf' _ => exact hd.seated c l rest hsuf'
    | starts _ _ => exact .inl ⟨_, rfl⟩
    | @goes _ _ x _ _ _ hs => exact hd.seated c (x :: l) rest (hs ▸ suffix_rfl)
    | disposes _ hs _ =>
      exact .inr ⟨_, _, _, rfl, hd.listed _ _ (hs ▸ mem_cons_self) c mem_cons_self⟩
  refine hst.imp id ?_
  rintro ⟨o, l', below, hrest, t, ht, hm⟩
  exact ⟨o, l', below, hrest, t, .tail _ ht, hm⟩

theorem drained_step (hsuf : .cleaning c l :: rest <:+ next.stack) :
    opened rest ≠ 0 ∨
    (l = [] ∧ next.stack = .cleaning c l :: rest ∧ ∃ r, next.control = .giving r) := by
  -- While something is left on a list, the frame does not stand for a first run.
  have hleft : ∀ {a x todo below}, st.stack = .cleaning a (x :: todo) :: below →
    opened below ≠ 0 := by
    intro a x todo below hs
    rcases hd.drained a (x :: todo) below (hs ▸ suffix_rfl) with hne | ⟨hnil, -⟩
    · exact hne
    · exact absurd hnil (cons_ne_nil _ _)
  cases cleans_of_step h hsuf with
  | stays hsuf' hne =>
    rcases hd.drained c l rest hsuf' with hopen | ⟨-, hs, r, hr⟩
    · exact .inl hopen
    · exact absurd hs (hne r hr)
  | starts hc hnd =>
    have hp := ho.poised
    rw [hc] at hp
    generalize hstack : st.stack = stack at hp
    cases hp with
    | taken _ =>
      simp [opened, Frame.opens]
    | made _ hfirst =>
      right
      have hnext := next_starting h hc hnd
      refine ⟨hfirst.cleanups, ?_, L.nothing, ?_⟩
      · rw [hnext, ← hstack]
        rfl
      · rw [hnext]
        rfl
  | goes _ hs => exact .inl (hleft hs)
  | disposes _ hs _ =>
    have hopen := hleft hs
    simp only [opened, Frame.opens]
    omega

end Duties

namespace Session

theorem duties (h : Session L past st) : Duties L past st := by
  induction h with
  | start host a =>
    exact ⟨by simp [cleanups, computation?], by simp, by simp, by simp⟩
  | step h hstep ih =>
    exact ⟨fun _ _ => ih.noted_step h.orderly hstep, fun _ _ hl _ => ih.listed_step hstep hl,
      fun _ _ _ => ih.seated_step hstep, fun _ _ _ => ih.drained_step h.orderly hstep⟩
  | @again past st host a h hend ih =>
    have hs : st.stack = [] := stack_eq_nil hend
    refine ⟨fun o c hc => ?_, ?_, ?_, ?_⟩
    · obtain ⟨t, ht, hm⟩ := ih.noted o c hc
      exact ⟨t, .tail _ ht, hm⟩
    · simp [hs]
    · simp [hs]
    · simp [hs]

theorem not_cleaning_over_drain (h : Session L past st) {above}
    (hs : st.stack = above ++ .draining x :: below) (habove : ∀ c l, .cleaning c l ∉ above)
    (hbelow : opened below = 0) (c : ComputationId) (l : List (Cleanup S.Code)) :
    .cleaning c l ∉ st.stack := by
  intro hmem
  obtain ⟨rest, hsuf⟩ := exists_suffix_of_mem hmem
  have hsuf' : .cleaning c l :: rest <:+ [.draining x] ++ below := by
    rw [hs] at hsuf
    exact suffix_of_append habove hsuf
  obtain ⟨front, rfl⟩ := suffix_of_append (by simp) hsuf'
  rcases h.duties.drained c l rest hsuf with hopen | ⟨-, hstack, -⟩
  · rw [opened_append, opened] at hbelow
    omega
  · have hlen := congrArg List.length (hs.symm.trans hstack)
    simp at hlen
    omega

theorem not_cleaning_of_starts (h : Session L past st) (he : st.starts? = some e)
    (c : ComputationId) (l : List (Cleanup S.Code)) : .cleaning c l ∉ st.stack := by
  obtain ⟨r, x, below, hr, hs⟩ := starts?_eq_some.1 he
  have hs : st.stack = [.starting e] ++ .draining x :: below := hs
  refine h.not_cleaning_over_drain hs (by simp) ?_ c l
  have hp := h.orderly.poised
  rw [hr, hs] at hp
  cases hp with
  | giving hseats => exact hseats.2.1
  | entering hseats _ => exact hseats.1

end Session

/-! ### Children -/

/-- Where a computation is noted, from when it is made for an owner until it is disposed: with the
owner, as long as that one has neither run again nor been disposed, and then in a frame. -/
def Entrusted (L : Language S) (past : List (State S)) (st : State S) (o c : ComputationId) :
    Prop :=
  st.graph.isDisposed c = true ∨
    (st.graph.isDisposed o = false ∧ .dispose c ∈ st.graph.cleanups o ∧
      ∀ t ∈ past, t.Renews L o → t.graph.computations.size ≤ c) ∨
    ∃ l, .cleaning o l ∈ st.stack ∧ .dispose c ∈ l

/-- Whether a computation has been in use ever since it was made, unless it is disposed. -/
def InUse (L : Language S) (past : List (State S)) (c : ComputationId) : Prop :=
  ∀ t ∈ past, c < t.graph.computations.size → t.graph.isDisposed c = false → t.isLive L c = true

namespace State

/-- What is left on the list stays in a frame, and what a computation that is disposed of has noted
gets a frame of its own. -/
theorem step_cleaning (h : st.step? L = some next) (hr : st.control = .giving r)
    (hs : st.stack = .cleaning o (x :: l) :: rest) :
    .cleaning o l ∈ next.stack ∧
      ∀ d, st.event L = .dispose d → .cleaning d (st.graph.cleanups d) ∈ next.stack := by
  rw [next_giving h hr hs, event_giving hr hs]
  cases x with
  | run code => exact ⟨mem_cons_self, by simp [frameEvent]⟩
  | dispose e =>
    rw [stepFrame_dispose hr hs, frameEvent]
    by_cases hlive : (st.isLive L e && !st.graph.isDisposed e) = true
    · rw [if_pos hlive, if_pos hlive]
      refine ⟨mem_cons_of_mem _ (.head _), fun d hd => ?_⟩
      obtain rfl := Event.dispose.inj hd
      have hsame : (st.graph.markDisposed e).cleanups e = st.graph.cleanups e :=
        cleanups_of_map (computation?_markDisposed_map fun _ => rfl)
      rw [← hsame]
      exact .head _
    · rw [if_neg hlive, if_neg hlive]
      exact ⟨mem_cons_self, fun d hd => absurd hd (by simp)⟩

theorem cleaning_of_renews (h : st.step? L = some next) (hr : st.Renews L o) :
    .cleaning o (st.graph.cleanups o) ∈ next.stack := by
  rcases hr with he | he
  · obtain ⟨hc, hnd⟩ := occasion_of_event he
    rcases step_executing h hc with ⟨hd, -⟩ | ⟨-, -, hs⟩
    · cases hnd.symm.trans hd
    · rw [hs]
      exact .head _
  · obtain ⟨-, r, d, l, rest, hr, hs⟩ := occasion_of_event he
    exact (step_cleaning h hr hs).2 o he

end State

namespace Entrusted

variable (hstep : st.step? L = some next) (hord : st.Orderly)

include hstep hord

theorem made (h : Session L past st) (hm : st.Makes L o c) (ho : st.graph.isDisposed o = false) :
    Entrusted L (st :: past) next o c := by
  obtain ⟨⟨code, he⟩, hcur, rfl⟩ := hm
  refine .inr (.inl ⟨?_, ?_, fun t ht _ => ?_⟩)
  · rw [Bool.eq_false_iff, Ne, isDisposed_of_step hstep hord, ho]
    rcases he with he | he <;> simp [he]
  · exact (dispose_mem_cleanups_step hstep hord).2 (.inr ⟨hcur, rfl, code, he⟩)
  · rcases mem_cons.1 ht with rfl | ht
    · exact Nat.le_refl _
    · exact h.size_le ht

theorem step (hc : c < st.graph.computations.size) (hnf : ∀ m, st.control ≠ .failing m)
    (huse : st.graph.isDisposed c = false → st.isLive L c = true) (h : Entrusted L past st o c) :
    Entrusted L (st :: past) next o c := by
  by_cases hd : st.graph.isDisposed c = true
  · exact .inl ((isDisposed_of_step hstep hord).2 (.inl hd))
  have hlive : st.isLive L c = true := huse (Bool.eq_false_iff.2 hd)
  rcases h with hd' | ⟨ho, hnoted, hold⟩ | ⟨l, hl, hmem⟩
  · exact absurd hd' hd
  · by_cases hr : st.Renews L o
    · exact .inr (.inr ⟨_, cleaning_of_renews hstep hr, hnoted⟩)
    · have hns : st.event L ≠ .start o ∧ st.event L ≠ .dispose o := not_or.1 hr
      refine .inr (.inl ⟨?_, ?_, fun t ht hrt => ?_⟩)
      · rw [Bool.eq_false_iff, Ne, isDisposed_of_step hstep hord, ho]
        simp [hns.2]
      · exact (dispose_mem_cleanups_step hstep hord).2 (.inl ⟨hnoted, hns⟩)
      · rcases mem_cons.1 ht with rfl | ht
        · exact absurd hrt hr
        · exact hold t ht hrt
  · rcases mem_stack_step hstep hl with hl | ⟨⟨rest, hs⟩, ⟨r, hr⟩ | ⟨m, hm⟩⟩
    · exact .inr (.inr ⟨l, hl, hmem⟩)
    · -- The frame is on top: the computation is disposed now, or it is still on the list.
      rcases l with - | ⟨x, l⟩
      · cases hmem
      · rcases mem_cons.1 hmem with rfl | hmem
        · have he : st.event L = .dispose c := by
            rw [event_giving hr hs, frameEvent, hlive, Bool.eq_false_iff.2 hd]
            rfl
          exact .inl ((isDisposed_of_step hstep hord).2 (.inr ⟨he, hc⟩))
        · exact .inr (.inr ⟨l, (step_cleaning hstep hr hs).1, hmem⟩)
    · exact absurd hm (hnf m)

end Entrusted

/-- A computation that is in use is noted until it is disposed, unless something fails. -/
theorem Session.entrusted (h : Session L past st) (hnf : ∀ t ∈ past, ∀ m, t.control ≠ .failing m)
    (ht : t ∈ past) (hm : t.Makes L o c) (ho : t.graph.isDisposed o = false)
    (huse : InUse L past c) :
    Entrusted L past st o c := by
  induction h with
  | start host a => cases ht
  | @step past st next h hstep ih =>
    rcases mem_cons.1 ht with rfl | ht
    · exact .made hstep h.orderly h hm ho
    · have hprev : Entrusted L past st o c :=
        ih (fun t ht => hnf t (.tail _ ht)) ht
          fun t ht => huse t (.tail _ ht)
      have hc : c < st.graph.computations.size := h.lt_size_of_makes ht hm
      exact hprev.step hstep h.orderly hc (hnf st (.head _))
        (huse st (.head _) hc)
  | @again past st host a h hend ih =>
    have hidle : st.event L = .idle := event_of_end hend
    rcases mem_cons.1 ht with rfl | ht
    · obtain ⟨⟨code, he⟩, -⟩ := hm
      exact absurd he (by simp [hidle])
    · rcases ih (fun t ht => hnf t (.tail _ ht)) ht
        (fun t ht => huse t (.tail _ ht)) with hd | ⟨hod, hnoted, hold⟩ | hl
      · exact .inl hd
      · refine .inr (.inl ⟨hod, hnoted, fun t ht hrt => ?_⟩)
        rcases mem_cons.1 ht with rfl | ht
        · exact absurd hrt (by simp [State.Renews, hidle])
        · exact hold t ht hrt
      · exact .inr (.inr hl)

/-! ### Descendants -/

/-- Whether a computation was made while another was running that was not disposed, and has been in
use since. -/
def Owns (L : Language S) (past : List (State S)) (o c : ComputationId) : Prop :=
  ∃ t ∈ past, t.Makes L o c ∧ t.graph.isDisposed o = false ∧ InUse L past c

/-- Whether a computation is disposed and all is cleaned up for it. -/
def State.Settled (st : State S) (c : ComputationId) : Prop :=
  st.graph.isDisposed c = true ∧ ∀ l, .cleaning c l ∉ st.stack

section Descendants

variable (h : Session L past st) (hnf : ∀ t ∈ past, ∀ m, t.control ≠ .failing m)

include h in
theorem Session.settled_of_isDisposed (hown : Owns L past o c) (hd : st.graph.isDisposed c = true)
    (hl : ∀ l, .cleaning o l ∉ st.stack) : st.Settled c := by
  refine ⟨hd, fun l hmem => ?_⟩
  obtain ⟨rest, hsuf⟩ := exists_suffix_of_mem hmem
  rcases h.duties.seated c l rest hsuf with ⟨below, rfl⟩ | ⟨o', l', below, rfl, t', ht', hm'⟩
  · have hstart : .starting c ∈ st.stack :=
      hsuf.subset (.tail _ (.head _))
    exact absurd (hd.symm.trans (h.orderly.undisposed c hstart)) Bool.true_eq_false.mp
  · obtain ⟨t, ht, hm, -⟩ := hown
    obtain rfl := h.makes_unique ht ht' hm hm'
    exact hl l' (hsuf.subset (.tail _ (.head _)))

include h hnf

theorem Session.settled_child (ho : st.Settled o) (hown : Owns L past o c) : st.Settled c := by
  obtain ⟨t, ht, hm, hod, huse⟩ := id hown
  refine h.settled_of_isDisposed hown ?_ ho.2
  rcases h.entrusted hnf ht hm hod huse with hd | ⟨hod', -⟩ | ⟨l, hl, -⟩
  · exact hd
  · cases hod'.symm.trans ho.1
  · exact absurd hl (ho.2 l)

theorem Session.settled_descendant (ho : st.Settled o)
    (hdesc : Relation.ReflTransGen (Owns L past) o c) : st.Settled c := by
  induction hdesc with
  | refl => exact ho
  | tail _ hown ih => exact h.settled_child hnf ih hown

/-- When a drain starts code, a computation is settled if its owner has run again or been disposed
since it was made. -/
theorem Session.settled_of_starts (he : st.starts? = some e) (hown : Owns L past o c)
    (ht : t ∈ past) (hr : t.Renews L o) (hc : c < t.graph.computations.size) : st.Settled c := by
  obtain ⟨t', ht', hm, hod, huse⟩ := hown
  refine ⟨?_, h.not_cleaning_of_starts he c⟩
  rcases h.entrusted hnf ht' hm hod huse with hd | ⟨-, -, hold⟩ | ⟨l, hl, -⟩
  · exact hd
  · exact absurd (hold t ht hr) (Nat.not_le.2 hc)
  · exact absurd hl (h.not_cleaning_of_starts he o l)

end Descendants

/-- If nothing fails, no computation outlives its owner's run.  Let a computation be made while
another, its owner, is running and not disposed, and let it be in use since; and so for those that
it owns itself.  Then all of them are disposed when the owner is and is done with cleaning up.  And
if the owner runs again, or is disposed, after the first of them was made, all are disposed
when the code of the owner starts, and no drain ever starts their own code. -/
theorem Session.disposed_with_owner (h : Session L past st)
    (hnf : ∀ t ∈ past, ∀ m, t.control ≠ .failing m) {o c e : ComputationId}
    (hown : Owns L past o c) (hdesc : Relation.ReflTransGen (Owns L past) c e) :
    (st.graph.isDisposed o = true → (∀ l, .cleaning o l ∉ st.stack) →
        st.graph.isDisposed e = true) ∧
      ∀ t ∈ past, t.Renews L o → c < t.graph.computations.size →
        (st.starts? = some o → st.graph.isDisposed e = true) ∧ st.starts? ≠ some e := by
  refine ⟨fun hd hl => ?_, fun t ht hr hc => ⟨fun hs => ?_, fun hs => ?_⟩⟩
  · have hsettled : st.Settled c := h.settled_child hnf ⟨hd, hl⟩ hown
    exact (h.settled_descendant hnf hsettled hdesc).1
  · have hsettled : st.Settled c := h.settled_of_starts hnf hs hown ht hr hc
    exact (h.settled_descendant hnf hsettled hdesc).1
  · have hsettled : st.Settled c := h.settled_of_starts hnf hs hown ht hr hc
    have hd : st.graph.isDisposed e = true := (h.settled_descendant hnf hsettled hdesc).1
    obtain ⟨r, x, below, -, hstack⟩ := State.starts?_eq_some.1 hs
    have hnd := h.orderly.undisposed e (hstack ▸ mem_cons_self)
    exact absurd (hnd.symm.trans hd) Bool.false_ne_true

theorem run_mem_trail (hk : k < n) (hnext : ((st.run L k).step? L).isSome = true) :
    st.run L k ∈ trail L n st := by
  induction k generalizing st n with
  | zero =>
    obtain ⟨n, rfl⟩ := Nat.exists_eq_succ_of_ne_zero (Nat.ne_of_gt hk)
    obtain ⟨next, hstep⟩ := Option.isSome_iff_exists.1 hnext
    have hstep : st.step? L = some next := hstep
    simp [trail, hstep, run]
  | succ k ih =>
    obtain ⟨n, rfl⟩ := Nat.exists_eq_succ_of_ne_zero (Nat.ne_of_gt (Nat.zero_lt_of_lt hk))
    cases hstep : st.step? L with
    | none => simp [run, hstep] at hnext
    | some next =>
      simp only [run, hstep, trail] at hnext ⊢
      exact mem_append_left _ (ih (Nat.lt_of_succ_lt_succ hk) hnext)

def Control.fails : Control S → Bool
  | .failing _ => true
  | _ => false

/-! ### Programs -/

def owner (inner after : Program.Block) : State setting where
  host := Program.World.start
  control := .acting <| body <| .block {} <|
    [.signal "a" (.literal (.text "0")), .signal "b" (.literal (.text "0")),
      .effect (.eval (.cell .get "a") :: inner)] ++ after

def readSecond : Program.Stmt := .eval (.cell .get "b")

def setAll (names : List String) : Program.Block := names.map (.set · (.literal (.text "1")))

def threeDeep : State setting :=
  owner [.effect [readSecond, .effect [readSecond]]] (setAll ["a", "b"])

/-- When the code of the outermost effect starts again, the innermost one is disposed. -/
theorem Session.disposed_with_owner_threeDeep :
    let st := threeDeep.run language 40
    Session language (trail language 40 threeDeep) st ∧ st.starts? = some 0 ∧
      st.graph.isDisposed 2 = true := by
  intro st
  have hsession : Session language (trail language 40 threeDeep) st := session_run _ _ 40
  have hinner : Owns language (trail language 40 threeDeep) 0 1 :=
    ⟨threeDeep.run language 10, run_mem_trail (by decide) (by decide +kernel),
      ⟨⟨_, .inr rfl⟩, by decide +kernel, by decide +kernel⟩, by decide +kernel,
      by unfold InUse; decide +kernel⟩
  have hinnermost : Owns language (trail language 40 threeDeep) 1 2 :=
    ⟨threeDeep.run language 16, run_mem_trail (by decide) (by decide +kernel),
      ⟨⟨_, .inr rfl⟩, by decide +kernel, by decide +kernel⟩, by decide +kernel,
      by unfold InUse; decide +kernel⟩
  have hstarts : st.starts? = some 0 := by decide +kernel
  have hnf : ∀ t ∈ trail language 40 threeDeep, ∀ m, t.control ≠ .failing m := by
    have hcheck : ∀ t ∈ trail language 40 threeDeep, t.control.fails = false := by
      decide +kernel
    intro t ht m hm
    simpa [hm, Control.fails] using hcheck t ht
  have hdisposed := ((hsession.disposed_with_owner hnf hinner (.single hinnermost)).2
    (threeDeep.run language 34) (run_mem_trail (by decide) (by decide +kernel))
    (.inl rfl) (by decide +kernel)).1 hstarts
  exact ⟨hsession, hstarts, hdisposed⟩

/-- An effect that is made in untracked code has no owner. -/
def untracked : State setting :=
  owner [.untrack [.effect [readSecond]]] (setAll ["a", "b"])

/-- An effect writes what its owner has read, and so is disposed in the midst of its own run; then
it makes another effect. -/
def disposedMidway : State setting :=
  owner [.effect [readSecond, .cond (.equal (.cell .peek "a") (.literal (.text "0")))
    (setAll ["a"] ++ [.effect [readSecond]]) []]] (setAll ["b"])

/-- An effect that reads nothing is not in use any more after its run, and so it is not disposed;
but it has made another. -/
def ownerGone : State setting :=
  owner [.effect [.effect [readSecond]]] (setAll ["a", "b"])

/-- Where an effect is made in untracked code, or for an owner that is disposed already, or for one
that goes out of use, it is started again after the effect that made it, or that made its owner,
has run again. -/
theorem effects_outlive_owner :
    begun (trail language 72 untracked) = [0, 1, 2] ∧
      begun (trail language 90 disposedMidway) = [0, 2, 3] ∧
      begun (trail language 79 ownerGone) = [0, 2, 4] := by
  decide +kernel

end ReactiveMarkup.Reactive
