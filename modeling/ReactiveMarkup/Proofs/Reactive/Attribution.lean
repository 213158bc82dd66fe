/-
What the reads of a run are put down to.

A read is put down to whichever computation is marked as running.  While a computation
runs, other code may run as well: bodies of other computations, untracked code, and what
has to be cleaned up for others.  Frames on the stack tell them apart.  Bodies and
untracked code stand over a frame that sets the mark back, so their reads are not put
down to the computation below.  What is cleaned up has no such frame.  Its reads are put
down to a computation that has been running since before.

What reads have been put down to a computation is listed by the sources as well, as
long as it is not disposed.

* `Session.subscriptions_in_step`: who is subscribed to what, in every state;
* `Session.sources_of_run`: what a computation depends on after a run.
-/
import ReactiveMarkup.Proofs.Reactive.Ownership

namespace ReactiveMarkup.Reactive

open List State
open Program (body language setting)

variable {S : Setting}

section Subscriptions

variable [BEq S.Value] {L : Language S} {past : List (State S)} {st : State S}

theorem Session.isDisposed_of_earlier (h : Session L past st) {earlier} (he : earlier ∈ st :: past)
    (hc : earlier.graph.isDisposed c = true) : st.graph.isDisposed c = true := by
  induction h with
  | start host a =>
    obtain rfl := mem_singleton.1 he
    exact hc
  | step h hstep ih =>
    rcases mem_cons.1 he with rfl | he
    · exact hc
    · exact (isDisposed_of_step hstep h.orderly).2 (.inl (ih he))
  | again host a _ _ ih =>
    rcases mem_cons.1 he with rfl | he
    · exact hc
    · exact ih he

/-- In every state, sources and computations agree on who depends on what; a computation that has
been disposed depends on nothing, is subscribed to nothing and does not start; and nothing waits
unless a batch is open. -/
theorem Session.subscriptions_in_step (h : Session L past st) :
    (∀ s c, c ∈ st.graph.subscribers s ↔ s ∈ st.graph.sourcesOf c) ∧
      (∀ earlier ∈ st :: past, ∀ c, earlier.graph.isDisposed c = true →
        st.graph.sourcesOf c = [] ∧ (∀ s, c ∉ st.graph.subscribers s) ∧ st.begins c = false) ∧
      (st.graph.pending ≠ [] → 0 < st.graph.depth) := by
  have ho : st.Orderly := h.orderly
  refine ⟨ho.consistent.linked, ?_, ?_⟩
  · intro earlier he c hc
    have hd : st.graph.isDisposed c = true := h.isDisposed_of_earlier he hc
    refine ⟨ho.consistent.released c hd, ho.consistent.not_mem_subscribers hd, ?_⟩
    rw [Bool.eq_false_iff, Ne, State.begins_iff]
    rintro ⟨r, rest, -, hs⟩
    have hlive : st.graph.isDisposed c = false := ho.undisposed c (hs ▸ List.mem_cons_self)
    exact absurd (hlive.symm.trans hd) Bool.false_ne_true
  · intro hp
    exact Nat.pos_of_ne_zero fun h0 => hp (ho.quiet h0)

/-- An effect makes another, and runs again because of a write: the other is disposed. -/
def Sheet.nested : Action Sheet.setting Nat :=
  signals [1, 2] (effects [.watch 0 (.sum [1])] (.write 0 5 (.write 1 3 (.pure 0))))

/-- In the midst of the drain that the write starts, with the inner effect just disposed. -/
theorem Session.subscriptions_in_step_nested :
    let st := (Sheet.opening Sheet.nested).run Sheet.language 26
    Session Sheet.language (trail Sheet.language 26 (Sheet.opening Sheet.nested)) st ∧
      st.graph.depth = 1 ∧ st.graph.isDisposed 1 = true ∧ st.graph.sourcesOf 1 = [] ∧
      (∀ s, 1 ∉ st.graph.subscribers s) ∧ st.begins 1 = false := by
  intro st
  have h := Sheet.session_run Sheet.nested 26
  have hd : st.graph.isDisposed 1 = true := by decide
  obtain ⟨hs, hn, hb⟩ := h.subscriptions_in_step.2.1 _ List.mem_cons_self 1 hd
  exact ⟨h, by decide, hd, hs, hn, hb⟩

end Subscriptions

/-! ### Whose code is at hand -/

def Frame.restores : Frame S → Bool
  | .restoring _ => true
  | _ => false

def Frame.cleans : Frame S → Bool
  | .cleaning _ _ => true
  | _ => false

variable {t : State S} {s : SourceId}

namespace State

def tracked? (t : State S) : Option SourceId :=
  match t.control with
  | .acting (.read s true _) => some s
  | _ => none

def called? (t : State S) : Option ComputationId :=
  match t.control with
  | .executing c => some c
  | _ => none

/-- Whether a state is about to read a source so that the read counts. -/
def Reads (t : State S) (s : SourceId) : Prop :=
  t.tracked? = some s ∧ (t.graph.source? s).isSome

/-- In a run that was called in `start`, the body is at hand: over the frame of the run there is
neither that of another scope nor one that cleans up. -/
def AtBody (t start : State S) : Prop :=
  ∃ above, t.stack = above ++ .restoring start.graph.current :: start.stack ∧
    ∀ f ∈ above, f.restores = false ∧ f.cleans = false

/-- While the body of a run goes on, something is cleaned up for others. -/
def AtCleanup (t start : State S) : Prop :=
  ∃ above, t.stack = above ++ .restoring start.graph.current :: start.stack ∧
    (∀ f ∈ above, f.restores = false) ∧ ∃ f ∈ above, f.cleans = true

/-- Before the body of a run of `c`, what earlier runs have left is cleaned up. -/
def AtReset (t : State S) (c : ComputationId) (start : State S) : Prop :=
  ∃ above, t.stack = above ++ .starting c :: start.stack ∧ ∀ f ∈ above, f.restores = false

theorem called?_eq_some : t.called? = some c ↔ t.control = .executing c := by
  cases h : t.control <;> simp [called?, h]

theorem tracked?_eq_some : t.tracked? = some s ↔ ∃ k, t.control = .acting (.read s true k) := by
  constructor
  · intro h
    unfold tracked? at h
    split at h
    · next s' k hc =>
      obtain rfl : s' = s := Option.some_inj.1 h
      exact ⟨k, hc⟩
    · cases h
  · rintro ⟨k, hc⟩
    rw [tracked?, hc]

end State

/-! ### The mark and the frames -/

/-- Some frames over a place where `q` is marked as running.  The mark is at `c` in that place only:
each frame that sets it back has found another mark or has left `c` behind. -/
def Tracks (c : ComputationId) (q : Option ComputationId) :
    List (Frame S) → Option ComputationId → Prop
  | [], current => current = q
  | .restoring previous :: rest, current => current ≠ some c ∧ Tracks c q rest previous
  | _ :: rest, current => Tracks c q rest current

variable {f : Frame S}

section Tracks

variable {c : ComputationId} {q current : Option ComputationId} {above new : List (Frame S)}

theorem Tracks.append (h : Tracks c q above current) (hnew : ∀ f ∈ new, f.restores = false) :
    Tracks c q (new ++ above) current := by
  induction new with
  | nil => exact h
  | cons f new ih =>
    have hrest := ih fun g hg => hnew g (mem_cons_of_mem f hg)
    have hf := hnew f (.head _)
    cases f with
    | restoring p => cases hf
    | _ => exact hrest

theorem Tracks.tail (h : Tracks c q (f :: above) current) :
    Tracks c q above (reverted [f] current) := by
  cases f with
  | restoring p => exact h.2
  | _ => exact h

theorem Tracks.current_eq_some (h : Tracks c q above current) :
    current = some c ↔ q = some c ∧ ∀ f ∈ above, f.restores = false := by
  induction above with
  | nil =>
    obtain rfl : current = q := h
    simp
  | cons f above ih =>
    have hother : ∀ (f : Frame S), f.restores = false →
        ((∀ g ∈ f :: above, g.restores = false) ↔ ∀ g ∈ above, g.restores = false) := by
      intro f hf
      simp [hf]
    cases f with
    | restoring p =>
      -- Such a frame is there because the mark has gone elsewhere.
      simp [h.1, Frame.restores]
    | _ =>
      rw [hother _ rfl]
      exact ih h

theorem reverted_of_plain (h : ∀ f ∈ new, f.restores = false) :
    reverted new current = current := by
  induction new with
  | nil => rfl
  | cons f new ih =>
    have hf := h f (.head _)
    cases f with
    | restoring p => cases hf
    | _ => exact ih fun g hg => h g (.tail _ hg)

end Tracks

section Reverted

variable [BEq S.Value] {L : Language S} {st next : State S} {rest : List (Frame S)}

theorem step_begins (h : st.step? L = some next) (hr : st.control = .giving r)
    (hst : st.stack = .starting d :: rest) :
    next.graph.current = some d ∧ ∃ new, next.stack = new ++ .restoring st.graph.current :: rest ∧
      ∀ f ∈ new, ∃ s, f = .storing s := by
  rw [next_giving h hr hst]
  simp only [stepFrame]
  split
  · exact ⟨rfl, [], rfl, by simp⟩
  · split
    · exact ⟨rfl, [], rfl, by simp⟩
    · split
      · exact ⟨rfl, [.storing _], rfl, by simp⟩
      · exact ⟨rfl, [], rfl, by simp⟩

end Reverted

/-- How a step leaves the mark and the frames, if it does not start the body of `c`. -/
inductive Retracks [BEq S.Value] (L : Language S) (c : ComputationId) (st next : State S) : Prop
  | keeps (new : List (Frame S)) : State.Shifts L st next [] new st.stack →
      (∀ q above, Tracks c q above st.graph.current →
        Tracks c q (new ++ above) next.graph.current) → Retracks L c st next
  | gives (r : S.Result) (f : Frame S) (rest new : List (Frame S)) : st.control = .giving r →
      st.stack = f :: rest → State.Shifts L st next [f] new rest →
      (∀ q above, Tracks c q (f :: above) st.graph.current →
        Tracks c q (new ++ above) next.graph.current) → Retracks L c st next
  | fails (message : String) (f : Frame S) (rest : List (Frame S)) :
      st.control = .failing message → st.stack = f :: rest → State.Shifts L st next [f] [] rest →
      (∀ q above, Tracks c q (f :: above) st.graph.current →
        Tracks c q above next.graph.current) → Retracks L c st next

theorem retracks_step [BEq S.Value] {L : Language S} {c} {st next} (h : st.step? L = some next)
    (hc : st.begins c = false) : Retracks L c st next := by
  cases restacks_step h with
  | keeps new hs hg hf =>
    refine .keeps new hs ?_
    intro q above htracks
    have hback : reverted new next.graph.current = st.graph.current := hs.reverts
    by_cases hu : ∃ code k, st.control = .acting (.untrack code k)
    · -- Nothing is marked while untracked code runs.
      obtain ⟨code, k, hu⟩ := hu
      have hnext := next_acting h hu
      obtain rfl : new = [.restoring st.graph.current, .returning [] k] := by
        refine (append_left_inj st.stack).1 (hs.stack.symm.trans ?_)
        rw [hnext]
        rfl
      have hnone : next.graph.current = none := by rw [hnext]; rfl
      rw [hnone]
      exact ⟨by simp, htracks⟩
    · -- All else that code does leaves the mark where it is.
      have hplain : ∀ f ∈ new, f.restores = false := by
        intro f hmem
        have hpushes := hs.pushes f hmem
        cases f with
        | restoring p =>
          rcases hpushes.2 with hu' | ⟨r, d, rest, hr, -⟩
          · exact absurd hu' hu
          · exact absurd hr (hg r)
        | _ => rfl
      rw [reverted_of_plain hplain] at hback
      rw [hback]
      exact htracks.append hplain
  | gives r f rest new hr hst hs =>
    refine .gives r f rest new hr hst hs ?_
    intro q above htracks
    have hback := hs.reverts
    by_cases hd : ∃ d, f = .starting d
    · -- The body of another computation starts.
      obtain ⟨d, rfl⟩ := hd
      obtain ⟨hcur, new', hs', hnew'⟩ := step_begins h hr hst
      obtain rfl : new = new' ++ [.restoring st.graph.current] := by
        refine (append_left_inj rest).1 (hs.stack.symm.trans ?_)
        rw [hs', append_assoc, singleton_append]
      have hne : some d ≠ some c := by
        intro hdc
        obtain rfl : d = c := Option.some_inj.1 hdc
        cases hc.symm.trans (begins_iff.2 ⟨r, rest, hr, hst⟩)
      have hbelow : Tracks c q (.restoring st.graph.current :: above) (some d) := ⟨hne, htracks⟩
      rw [hcur, append_assoc]
      refine hbelow.append ?_
      intro f hf
      obtain ⟨s, rfl⟩ := hnew' f hf
      rfl
    · have hplain : ∀ f ∈ new, f.restores = false := by
        intro g hmem
        have hpushes := hs.pushes g hmem
        cases g with
        | restoring p =>
          rcases hpushes.2 with ⟨code, k, hu⟩ | ⟨r', d, rest', -, hst'⟩
          · cases hr.symm.trans hu
          · exact absurd ⟨d, (List.cons.inj (hst.symm.trans hst')).1⟩ hd
        | _ => rfl
      rw [reverted_of_plain hplain] at hback
      rw [hback]
      exact htracks.tail.append hplain
  | fails message f rest hm hst hs =>
    refine .fails message f rest hm hst hs ?_
    intro q above htracks
    have hback : next.graph.current = reverted [f] st.graph.current := hs.reverts
    rw [hback]
    exact htracks.tail

/-! ### Runs -/

/-- A run of a computation that is over, be it with a result or with a failure, and the states that
it has gone through, the latest first. -/
structure Run [BEq S.Value] (L : Language S) (c : ComputationId) (start : State S)
    (during : List (State S)) (st : State S) : Prop where
  called : start.called? = some c
  steps : ∃ first, start.step? L = some first ∧ Steps L first during st
  longer : ∀ t ∈ during, start.stack.length < t.stack.length
  ended : st.stack.length ≤ start.stack.length
  undisposed : st.graph.isDisposed c = false

/-- What the states of a run look like: before the body, and while it goes on. -/
inductive Stage (c : ComputationId) (start t : State S) : Prop
  | resets (above : List (Frame S)) : t.stack = above ++ .starting c :: start.stack →
      Tracks c start.graph.current above t.graph.current → .starting c ∉ above → Stage c start t
  | runs (above : List (Frame S)) :
      t.stack = above ++ .restoring start.graph.current :: start.stack →
      Tracks c (some c) above t.graph.current → .starting c ∉ above → Stage c start t

variable {first : State S}

section Run

variable [BEq S.Value] {L : Language S} {past during : List (State S)} {c : ComputationId}
  {start st next : State S}

variable {above : List (Frame S)}

theorem stage_step_above (h : st.step? L = some next) (hc : st.called? ≠ some c)
    (hb : st.begins c = false) (hs : st.stack = above ++ f :: start.stack)
    (htracks : Tracks c q above st.graph.current) (hnot : .starting c ∉ above) :
    (∃ above', next.stack = above' ++ f :: start.stack ∧ Tracks c q above' next.graph.current ∧
      .starting c ∉ above') ∨
    above = [] ∧ ((∃ r, st.control = .giving r) ∨ next.stack = start.stack) := by
  -- The frame that starts the body of `c` comes with a call of `c`.
  have hnew : ∀ new : List (Frame S), (∀ f ∈ new, st.Pushes L f) → .starting c ∉ new := by
    intro new hnew hmem
    exact hc (called?_eq_some.2 (hnew _ hmem).1)
  cases retracks_step h hb with
  | keeps new hn hkeeps =>
    refine .inl ⟨new ++ above, ?_, hkeeps q above htracks, ?_⟩
    · rw [hn.stack, hs, append_assoc]
    · exact not_mem_append (hnew new hn.pushes) hnot
  | gives r g rest new hr hst hn hgives =>
    cases above with
    | nil => exact .inr ⟨rfl, .inl ⟨r, hr⟩⟩
    | cons g' above =>
      obtain ⟨rfl, rfl⟩ := List.cons.inj (hs.symm.trans hst)
      refine .inl ⟨new ++ above, ?_, hgives q above htracks, ?_⟩
      · rw [hn.stack, append_assoc]
        rfl
      · exact not_mem_append (hnew new hn.pushes) fun h => hnot (.tail _ h)
  | fails message g rest hm hst hn hfails =>
    cases above with
    | nil =>
      obtain ⟨rfl, rfl⟩ := List.cons.inj (hs.symm.trans hst)
      exact .inr ⟨rfl, .inr hn.stack⟩
    | cons g' above =>
      obtain ⟨rfl, rfl⟩ := List.cons.inj (hs.symm.trans hst)
      exact .inl ⟨above, hn.stack, hfails q above htracks, fun h => hnot (.tail _ h)⟩

omit [BEq S.Value] in
theorem not_begins {rest : List (Frame S)} (hs : st.stack = above ++ f :: rest)
    (hnot : .starting c ∉ above) (hb : st.begins c = true) : above = [] ∧ f = .starting c := by
  obtain ⟨r, rest', -, hst⟩ := begins_iff.1 hb
  cases above with
  | nil => exact ⟨rfl, (List.cons.inj (hs.symm.trans hst)).1⟩
  | cons g above =>
    obtain rfl : g = .starting c := (List.cons.inj (hs.symm.trans hst)).1
    exact absurd (.head _) hnot

/-- A step of a run, as long as the run goes on and its computation is not called again. -/
theorem Stage.step (hp : Stage c start st) (h : st.step? L = some next)
    (hc : st.called? ≠ some c) (hlen : start.stack.length < next.stack.length) :
    Stage c start next := by
  have hends : next.stack ≠ start.stack := fun hn => by rw [hn] at hlen; omega
  cases hp with
  | resets above hs htracks hnot =>
    cases hb : st.begins c with
    | true =>
      -- All is cleaned up, and the mark is where it was at the call.
      obtain ⟨rfl, -⟩ := not_begins hs hnot hb
      obtain ⟨r, -, hr, -⟩ := begins_iff.1 hb
      obtain ⟨hcur, new, hn, hnew⟩ := step_begins h hr hs
      have hmark : st.graph.current = start.graph.current := htracks
      have hplain : ∀ f ∈ new, f.restores = false := by
        intro f hf
        obtain ⟨s, rfl⟩ := hnew f hf
        rfl
      refine .runs new (hmark ▸ hn) ?_ ?_
      · have hbody : Tracks c (some c) ([] : List (Frame S)) (some c) := rfl
        rw [hcur, ← append_nil new]
        exact hbody.append hplain
      · intro hmem
        obtain ⟨s, hs⟩ := hnew _ hmem
        cases hs
    | false =>
      rcases stage_step_above h hc hb hs htracks hnot with
        ⟨above', hn, ht, hnot'⟩ | ⟨rfl, ⟨r, hr⟩ | hn⟩
      · exact .resets above' hn ht hnot'
      · cases hb.symm.trans (begins_iff.2 ⟨r, _, hr, hs⟩)
      · exact absurd hn hends
  | runs above hs htracks hnot =>
    have hb : st.begins c = false := by
      rw [Bool.eq_false_iff]
      intro hb
      cases (not_begins hs hnot hb).2
    rcases stage_step_above h hc hb hs htracks hnot with
      ⟨above', hn, ht, hnot'⟩ | ⟨rfl, ⟨r, hr⟩ | hn⟩
    · exact .runs above' hn ht hnot'
    · -- The result of the body is the result of the run.
      exact absurd (by rw [next_giving h hr hs]; rfl) hends
    · exact absurd hn hends

omit [BEq S.Value] in
theorem above_unique {g : Frame S} {above' base : List (Frame S)}
    (h : above ++ f :: base = above' ++ g :: base) : above = above' ∧ f = g := by
  have hlen := congrArg List.length h
  simp only [length_append, length_cons] at hlen
  obtain ⟨habove, hrest⟩ := append_inj h (by omega)
  exact ⟨habove, (List.cons.inj hrest).1⟩

omit [BEq S.Value] in
theorem Stage.current_eq_some {t : State S} (hp : Stage c start t) : t.graph.current = some c ↔
    t.AtBody start ∨ t.AtCleanup start ∨ (start.graph.current = some c ∧ t.AtReset c start) := by
  cases hp with
  | resets above hs htracks hnot =>
    rw [htracks.current_eq_some]
    constructor
    · rintro ⟨hmark, hplain⟩
      exact .inr (.inr ⟨hmark, above, hs, hplain⟩)
    · rintro (⟨above', hs', -⟩ | ⟨above', hs', -⟩ | ⟨hmark, above', hs', hplain⟩)
      · cases (above_unique (hs.symm.trans hs')).2
      · cases (above_unique (hs.symm.trans hs')).2
      · rw [(above_unique (hs.symm.trans hs')).1]
        exact ⟨hmark, hplain⟩
  | runs above hs htracks hnot =>
    rw [htracks.current_eq_some]
    constructor
    · rintro ⟨-, hplain⟩
      by_cases hcleans : ∃ f ∈ above, f.cleans = true
      · exact .inr (.inl ⟨above, hs, hplain, hcleans⟩)
      · refine .inl ⟨above, hs, fun f hf => ⟨hplain f hf, ?_⟩⟩
        rw [Bool.eq_false_iff]
        exact fun h => hcleans ⟨f, hf, h⟩
    · rintro (⟨above', hs', hplain⟩ | ⟨above', hs', hplain, -⟩ | ⟨-, above', hs', -⟩)
      · rw [(above_unique (hs.symm.trans hs')).1]
        exact ⟨rfl, fun f hf => (hplain f hf).1⟩
      · rw [(above_unique (hs.symm.trans hs')).1]
        exact ⟨rfl, hplain⟩
      · cases (above_unique (hs.symm.trans hs')).2

theorem opened_eq_zero_of_cleans {base} (hd : Duties L past t) (hseats : Seats t.stack)
    (hf : f.restores = true) (hs : above ++ f :: base <:+ t.stack)
    (hcleans : ∃ g ∈ above, g.cleans = true) : opened base = 0 := by
  induction above with
  | nil =>
    obtain ⟨g, hg, -⟩ := hcleans
    cases hg
  | cons g above ih =>
    by_cases hlower : ∃ g ∈ above, g.cleans = true
    · exact ih ((suffix_cons g _).trans hs) hlower
    · -- The lowest frame that cleans up stands on one that starts a body, and that on a drain.
      obtain ⟨d, l, rfl⟩ : ∃ d l, g = .cleaning d l := by
        obtain ⟨g', hg', hcleans'⟩ := hcleans
        rcases mem_cons.1 hg' with rfl | hg'
        · cases g' with
          | cleaning d l => exact ⟨d, l, rfl⟩
          | _ => cases hcleans'
        · exact absurd ⟨g', hg', hcleans'⟩ hlower
      obtain ⟨pre, hpre⟩ := hs
      rcases hd.seated d l (above ++ f :: base) ⟨pre, hpre⟩ with ⟨below, hb⟩ | ⟨o, l', below, hb, -⟩
      · rcases above with - | ⟨g, above⟩
        · cases hb
          cases hf
        · cases hb
          have hstarting : Seats ((pre ++ [.cleaning d l]) ++
              .starting d :: (above ++ f :: base)) := by
            rw [append_assoc]
            exact hpre ▸ hseats
          obtain ⟨s, below, hb⟩ := hstarting.seated
          rcases above with - | ⟨g, above⟩
          · cases hb
            cases hf
          · cases hb
            have hdraining : Seats ((pre ++ [.cleaning d l, .starting d]) ++
                .draining s :: (above ++ f :: base)) := by
              rw [append_assoc]
              exact hpre ▸ hseats
            have hclosed : opened (above ++ f :: base) = 0 := hdraining.seated
            rw [opened_append, opened] at hclosed
            omega
      · rcases above with - | ⟨g, above⟩
        · cases hb
          cases hf
        · cases hb
          exact absurd ⟨_, .head _, rfl⟩ hlower

theorem Stage.of_steps (hfirst : Stage c start first) (hs : Steps L first during st)
    (honce : ∀ t ∈ during, t.called? ≠ some c)
    (hlong : ∀ t ∈ during, start.stack.length < t.stack.length) :
    (∀ t ∈ during, Stage c start t) ∧
      (start.stack.length < st.stack.length → Stage c start st) := by
  induction hs with
  | refl => exact ⟨by simp, fun _ => hfirst⟩
  | @step during st next _ hstep ih =>
    obtain ⟨hall, hlast⟩ := ih (fun t ht => honce t (.tail _ ht))
      fun t ht => hlong t (.tail _ ht)
    have hst := hlast (hlong st (.head _))
    exact ⟨forall_mem_cons.2 ⟨hst, hall⟩, hst.step hstep (honce st (.head _))⟩

theorem exists_track_iff :
    (∃ n, t.event L = .track c s n) ↔ t.tracked? = some s ∧ t.graph.current = some c := by
  rw [tracked?_eq_some]
  constructor
  · rintro ⟨n, he⟩
    obtain ⟨hcur, -, hk⟩ := occasion_of_event he
    exact ⟨hk, hcur⟩
  · rintro ⟨⟨k, hk⟩, hcur⟩
    refine ⟨t.sourceHeight L s, ?_⟩
    rw [event_acting hk]
    simp only [actionEvent, hcur]

theorem Session.mem_sourcesOf_steps (h : Session L past first) (hs : Steps L first during st)
    (hsize : c < first.graph.computations.size) (hnone : first.graph.sourcesOf c = [])
    (hd : st.graph.isDisposed c = false) (honce : ∀ t ∈ during, t.called? ≠ some c) :
    c < st.graph.computations.size ∧
      ∀ s, s ∈ st.graph.sourcesOf c ↔ ∃ t ∈ during, t.Reads s ∧ t.graph.current = some c := by
  induction hs with
  | refl => exact ⟨hsize, by simp [hnone]⟩
  | @step during st next hs hstep ih =>
    have ho : st.Orderly := (h.steps hs).orderly
    rw [Bool.eq_false_iff, Ne, isDisposed_of_step hstep ho, not_or] at hd
    have hst : st.graph.isDisposed c = false := Bool.eq_false_iff.2 hd.1
    obtain ⟨hlt, hsources⟩ := ih hst fun t ht => honce t (.tail _ ht)
    refine ⟨Nat.lt_of_lt_of_le hlt (size_le_of_step hstep), fun s => ?_⟩
    -- The step neither starts a run of `c` nor disposes of it.
    have hstart : st.event L ≠ .start c := by
      intro he
      exact honce st (.head _) (called?_eq_some.2 (occasion_of_event he).1)
    have hdispose : st.event L ≠ .dispose c := fun he => hd.2 ⟨he, hlt⟩
    have hread : (∃ n, st.event L = .track c s n ∧ st.graph.Notes c s) ↔
        st.Reads s ∧ st.graph.current = some c := by
      rw [exists_and_right, exists_track_iff, Graph.Notes, State.Reads]
      tauto
    rw [ho.mem_sourcesOf_step hstep, hread, hsources s]
    simp only [mem_cons, exists_eq_or_imp]
    constructor
    · rintro (⟨hold, -⟩ | hnew)
      · exact .inr hold
      · exact .inl hnew
    · rintro (hnew | hold)
      · exact .inr hnew
      · exact .inl ⟨hold, hstart, hdispose⟩

theorem step_called (hcalled : start.called? = some c) (hd : start.graph.isDisposed c = false)
    (h : start.step? L = some first) : Stage c start first ∧ first.graph.sourcesOf c = [] := by
  rw [next_starting h (called?_eq_some.1 hcalled) hd]
  refine ⟨.resets [.cleaning c _] rfl ?_ (by simp), Graph.sourcesOf_release.trans (if_pos rfl)⟩
  exact Graph.current_release

theorem Session.of_mem_steps (h : Session L past first) (hs : Steps L first during st)
    (ht : t ∈ during) : ∃ past', Session L past' t := by
  induction hs with
  | refl => cases ht
  | step hs _ ih =>
    rcases mem_cons.1 ht with rfl | ht
    · exact ⟨_, h.steps hs⟩
    · exact ih ht

theorem Run.of_run (h : start.called? = some c ∧ (start.step? L).isSome = true ∧
      (∀ t ∈ trail L n (start.run L 1), start.stack.length < t.stack.length) ∧
      ((start.run L 1).run L n).stack.length ≤ start.stack.length ∧
      ((start.run L 1).run L n).graph.isDisposed c = false) :
    Run L c start (trail L n (start.run L 1)) ((start.run L 1).run L n) := by
  obtain ⟨hcalled, hsteps, hlong, hended, hd⟩ := h
  exact ⟨hcalled, ⟨_, step?_eq_run hsteps, steps_run n _⟩, hlong, hended, hd⟩

omit [BEq S.Value] in
theorem not_atBody_of_cleans (h : ∀ t ∈ during, t.tracked? = some s →
    (t.stack.take (t.stack.length - (start.stack.length + 1))).any Frame.cleans = true) :
    ¬ ∃ t ∈ during, t.Reads s ∧ t.AtBody start := by
  rintro ⟨t, ht, ⟨hreads, -⟩, above, hs, hplain⟩
  have habove : t.stack.take (t.stack.length - (start.stack.length + 1)) = above := by
    have hlen : t.stack.length - (start.stack.length + 1) = above.length := by
      rw [hs, length_append, length_cons]
      omega
    rw [hlen, hs, take_left]
  have hcleans := h t ht hreads
  rw [habove, any_eq_true] at hcleans
  obtain ⟨f, hf, hcleans⟩ := hcleans
  cases (hplain f hf).2.symm.trans hcleans

/-- **What a computation depends on after a run.**  It depends on the sources that its body has
read, and on those that have been read by what was cleaned up for others while the body was running,
which happens outside of all batches only, or by what was cleaned up before the body, if the
computation was running already.  In a run from a batch or a drain that does not interrupt another
run of the computation, its sources are those that its body has read. -/
theorem Session.sources_of_run (h : Session L past start) (hrun : Run L c start during st)
    (honce : ∀ t ∈ during, t.called? ≠ some c) :
    (∀ s, s ∈ st.graph.sourcesOf c ↔ ∃ t ∈ during, t.Reads s ∧
      (t.AtBody start ∨ (start.graph.depth = 0 ∧ t.AtCleanup start) ∨
        (start.graph.current = some c ∧ t.AtReset c start))) ∧
    (0 < start.graph.depth → start.graph.current ≠ some c →
      ∀ s, s ∈ st.graph.sourcesOf c ↔ ∃ t ∈ during, t.Reads s ∧ t.AtBody start) := by
  obtain ⟨first, hfirst, hsteps⟩ := hrun.steps
  have hsession : Session L (start :: past) first := h.step hfirst
  have hd : start.graph.isDisposed c = false := by
    rw [Bool.eq_false_iff]
    intro hd
    have hearlier : start ∈ st :: (during ++ start :: past) := by simp
    have hlater := (hsession.steps hsteps).isDisposed_of_earlier hearlier hd
    cases hrun.undisposed.symm.trans hlater
  obtain ⟨hstage, hnone⟩ := step_called hrun.called hd hfirst
  have hstages : ∀ t ∈ during, Stage c start t := (hstage.of_steps hsteps honce hrun.longer).1
  have hsize : c < first.graph.computations.size :=
    Nat.lt_of_lt_of_le (h.orderly.running c (State.called?_eq_some.mp hrun.called))
      (size_le_of_step hfirst)
  have hsources := (hsession.mem_sourcesOf_steps hsteps hsize hnone hrun.undisposed honce).2
  -- Code that cleans up while the body is running is run by a drain that the body has started.
  have hclosed : ∀ t ∈ during, ∀ s, t.Reads s → t.AtCleanup start → start.graph.depth = 0 := by
    rintro t ht s ⟨hreads, -⟩ ⟨above, hs, -, hcleans⟩
    obtain ⟨past', ht'⟩ := hsession.of_mem_steps hsteps ht
    obtain ⟨k, hk⟩ := State.tracked?_eq_some.mp hreads
    have hseats : Seats t.stack := (hk ▸ ht'.orderly.poised).seats_of_acting
    have hsuffix : above ++ .restoring start.graph.current :: start.stack <:+ t.stack :=
      ⟨[], hs.symm⟩
    rw [h.orderly.balanced]
    exact opened_eq_zero_of_cleans ht'.duties hseats rfl hsuffix hcleans
  have hexact : ∀ s, s ∈ st.graph.sourcesOf c ↔ ∃ t ∈ during, t.Reads s ∧
      (t.AtBody start ∨ (start.graph.depth = 0 ∧ t.AtCleanup start) ∨
        (start.graph.current = some c ∧ t.AtReset c start)) := by
    intro s
    rw [hsources s]
    constructor
    · rintro ⟨t, ht, hreads, hcur⟩
      refine ⟨t, ht, hreads, ?_⟩
      rcases (hstages t ht).current_eq_some.mp hcur with hbody | hcleanup | hreset
      · exact .inl hbody
      · exact .inr (.inl ⟨hclosed t ht s hreads hcleanup, hcleanup⟩)
      · exact .inr (.inr hreset)
    · rintro ⟨t, ht, hreads, hbody | ⟨-, hcleanup⟩ | hreset⟩
      · exact ⟨t, ht, hreads, (hstages t ht).current_eq_some.mpr (.inl hbody)⟩
      · exact ⟨t, ht, hreads, (hstages t ht).current_eq_some.mpr (.inr (.inl hcleanup))⟩
      · exact ⟨t, ht, hreads, (hstages t ht).current_eq_some.mpr (.inr (.inr hreset))⟩
  refine ⟨hexact, ?_⟩
  intro hopen hmark s
  rw [hexact s]
  constructor
  · rintro ⟨t, ht, hreads, hbody | ⟨hzero, -⟩ | ⟨hmark', -⟩⟩
    · exact ⟨t, ht, hreads, hbody⟩
    · omega
    · exact absurd hmark' hmark
  · rintro ⟨t, ht, hreads, hbody⟩
    exact ⟨t, ht, hreads, .inl hbody⟩

end Run

/-- In a batch an effect is made that writes to a signal, and so has another one run again that has
something to clean up. -/
def ledger : State setting where
  host := Program.World.start
  control := .acting <| body <| .block {} [
    .signal "a" (.literal (.text "0")),
    .signal "z" (.literal (.text "0")),
    .effect [.eval (.cell .get "a"), .cleanup [.eval (.cell .get "z")]],
    .batch [.effect [.untrack [.eval (.cell .get "z")], .set "a" (.literal (.text "1")),
      .eval (.cell .get "a")]]]

/-- The first run of the second effect: it depends on what its body has read in tracked code. -/
theorem Session.sources_of_run_ledger :
    let first := ledger.run language 16
    let next := first.run language 1
    let last := next.run language 14
    Session language (trail language 16 ledger) first ∧
      Run language 1 first (trail language 14 next) last ∧ last.graph.sourcesOf 1 = [0] ∧
      ∀ s, s ∈ last.graph.sourcesOf 1 ↔
        ∃ t ∈ trail language 14 next, t.Reads s ∧ t.AtBody first := by
  intro first next last
  have hsession : Session language (trail language 16 ledger) first := session_run _ _ 16
  have hrun : Run language 1 first (trail language 14 next) last :=
    .of_run (by decide +kernel)
  have hsources := (hsession.sources_of_run hrun (by decide +kernel)).2 (by decide +kernel)
    (by decide +kernel)
  exact ⟨hsession, hrun, by decide +kernel, hsources⟩

/-- As before, but without the batch: the other effect is run again by the write. -/
def stray : State setting where
  host := Program.World.start
  control := .acting <| body <| .block {} [
    .signal "a" (.literal (.text "0")),
    .signal "z" (.literal (.text "0")),
    .effect [.eval (.cell .get "a"), .cleanup [.eval (.cell .get "z")]],
    .effect [.set "a" (.literal (.text "1"))]]

/-- An effect that writes, in its first run, to the signal that it has read, and so runs again. -/
def recurrent : State setting where
  host := Program.World.start
  control := .acting <| body <| .block {} [
    .signal "a" (.literal (.text "0")),
    .signal "z" (.literal (.text "0")),
    .effect [.eval (.cell .get "a"), .cleanup [.eval (.cell .get "z")],
      .cond (.equal (.cell .peek "a") (.literal (.text "0"))) [.set "a" (.literal (.text "1"))] []]]

/-- A computation may come to depend on what its body has not read: on what has been read by what
was cleaned up for another one while it was running, or for itself before it ran again. -/
theorem cleanup_reads_charged :
    (let first := stray.run language 15
      let next := first.run language 1
      let last := next.run language 21
      Run language 1 first (trail language 21 next) last ∧
        (∀ t ∈ trail language 21 next, t.called? ≠ some 1) ∧ 1 ∈ last.graph.sourcesOf 1 ∧
        ¬ ∃ t ∈ trail language 21 next, t.Reads 1 ∧ t.AtBody first) ∧
    let first := recurrent.run language 17
    let next := first.run language 1
    let last := next.run language 16
    Run language 0 first (trail language 16 next) last ∧
      (∀ t ∈ trail language 16 next, t.called? ≠ some 0) ∧ 1 ∈ last.graph.sourcesOf 0 ∧
      ¬ ∃ t ∈ trail language 16 next, t.Reads 1 ∧ t.AtBody first := by
  refine ⟨⟨?_, by decide +kernel, by decide +kernel, not_atBody_of_cleans (by decide +kernel)⟩,
    ?_, by decide +kernel, by decide +kernel, not_atBody_of_cleans (by decide +kernel)⟩
  · exact .of_run (by decide +kernel)
  · exact .of_run (by decide +kernel)

end ReactiveMarkup.Reactive
