/-
Effects run once, in order, on settled values.

A drain serves the computations that are not disposed when their turns come.  The
code of each is started before the next has its turn, unless what the computation
has to clean up fails, and then the drain fails with it.

* `Session.effects_settled`: effects run once, in order, on settled values.
-/
import ReactiveMarkup.Proofs.Reactive.Sheet
import ReactiveMarkup.Proofs.Reactive.Turns

namespace ReactiveMarkup.Reactive

open List State

variable {S : Setting} [BEq S.Value] {L : Language S} {x : Option SourceId} {base : List (Frame S)}
  {start st next : State S} {during past : List (State S)} {c d : ComputationId} {s : SourceId}
  {v : S.Value}

/-! ### Turns that lead to runs -/

omit [BEq S.Value] in
theorem State.starts?_eq_some : st.starts? = some d ↔
    ∃ r y lower, st.control = .giving r ∧ st.stack = .starting d :: .draining y :: lower := by
  unfold starts?
  split
  · rename_i r c y lower hr hs
    rw [Option.some_inj, hr, hs]
    constructor
    · rintro rfl
      exact ⟨r, y, lower, rfl, rfl⟩
    · rintro ⟨_, _, _, -, hs'⟩
      exact Frame.starting.inj (List.cons.inj hs').1
  · rename_i hne
    constructor
    · intro h
      cases h
    · rintro ⟨r, y, lower, hr, hs⟩
      exact absurd hs (hne r d y lower hr)

omit [BEq S.Value] in
theorem State.Orderly.above_of_starts (ho : st.Orderly) (above : List (Frame S))
    (hs : st.stack = above ++ .draining x :: base) (h : st.starts? = some d) :
    above = [.starting d] := by
  obtain ⟨r, y, lower, hr, hst⟩ := starts?_eq_some.1 h
  have hp := ho.poised
  rw [hr, hst] at hp
  cases hp with
  | giving hseats => exact (Seats.drain_unique [.starting d] hseats (hst.symm.trans hs)).1
  | entering _ hfirst =>
    -- A first run stands on the frame of what made the computation, not on a drain.
    rcases hfirst.maker with ⟨_, _, _, hbelow, -⟩ | ⟨_, _, hbelow, -⟩ <;> cases hbelow

omit [BEq S.Value] in
theorem State.Orderly.top_of_starts {above} (ho : st.Orderly)
    (hs : st.stack = above ++ f :: .draining x :: base) (h : st.starts? = some d) :
    above = [] ∧ f = .starting d := by
  have hs : st.stack = (above ++ [f]) ++ .draining x :: base := by
    rw [hs, append_assoc]
    rfl
  simpa [append_eq_singleton_iff] using ho.above_of_starts _ hs h

theorem served_cons (he : ∀ c, st.event L ≠ .take c) :
    served L (st :: during) = served L during := by
  cases hc : st.event L with
  | take c => exact absurd hc (he c)
  | _ => simp only [served, hc]

omit [BEq S.Value] in
theorem begun_cons (h : st.starts? = none) : begun (st :: during) = begun during := by
  simp only [begun, h, Option.toList_none, append_nil]

/-- How far a drain has come with the computations that it serves.  The code of all has started, or
that of all but the last. -/
inductive Ledger (L : Language S) (x : Option SourceId) (base : List (Frame S))
    (during : List (State S)) (st : State S) : Prop
  | idle : served L during = begun during → Idle x base st → Ledger L x base during st
  | skipping (c : ComputationId) : served L during = begun during → st.control = .executing c →
      st.graph.isDisposed c = true → st.stack = .draining x :: base → Ledger L x base during st
  | inside (above : List (Frame S)) (p : Option ComputationId) : served L during = begun during →
      st.stack = above ++ .restoring p :: .draining x :: base → Ledger L x base during st
  | called (c : ComputationId) : served L during = begun during ++ [c] → st.control = .executing c →
      st.graph.isDisposed c = false → st.stack = .draining x :: base → Ledger L x base during st
  | entering (c : ComputationId) (above : List (Frame S)) : served L during = begun during ++ [c] →
      st.stack = above ++ .starting c :: .draining x :: base → Ledger L x base during st
  | failed (c : ComputationId) (message : String) : served L during = begun during ++ [c] →
      st.control = .failing message → st.stack = .draining x :: base → Ledger L x base during st

theorem State.stack_begin (st : State S) (c : ComputationId) (r : S.Result)
    (rest : List (Frame S)) :
    ∃ above, ({ st with stack := rest }.stepFrame L r (.starting c)).stack =
      above ++ .restoring st.graph.current :: rest := by
  simp only [stepFrame]
  split
  · exact ⟨[], rfl⟩
  · split
    · exact ⟨[], rfl⟩
    · split
      · exact ⟨[.storing _], rfl⟩
      · exact ⟨[], rfl⟩

theorem Ledger.step_entering {above} (ho : st.Orderly) (heq : served L during = begun during ++ [c])
    (hs : st.stack = above ++ .starting c :: .draining x :: base) (h : st.step? L = some next) :
    Ledger L x base (st :: during) next := by
  have hserved : served L (st :: during) = begun during ++ [c] := by
    rw [served_cons fun d => ho.not_take above hs, heq]
  -- The code of the computation starts when the frame gets a result.
  cases hst : st.starts? with
  | none =>
    rw [← begun_cons hst] at hserved
    rcases under_step h hs with ⟨above', hn⟩ | ⟨rfl, ⟨r, hr, -⟩ | ⟨message, hm, rfl⟩⟩
    · exact .entering c above' hserved hn
    · have hstarts := starts?_eq_some.2 ⟨r, x, base, hr, hs⟩
      cases hst.symm.trans hstarts
    · exact .failed c message hserved hm rfl
  | some d =>
    obtain ⟨rfl, hc⟩ := ho.top_of_starts hs hst
    obtain rfl := Frame.starting.inj hc
    obtain ⟨r, _, _, hr, -⟩ := starts?_eq_some.1 hst
    have hbegun : begun (st :: during) = begun during ++ [c] := by
      simp only [begun, hst, Option.toList_some]
    obtain ⟨above', habove'⟩ := stack_begin st c r (.draining x :: base)
    exact .inside above' _ (hserved.trans hbegun.symm) (next_giving h hr hs ▸ habove')

theorem Ledger.step_inside {above} (ho : st.Orderly) (heq : served L during = begun during)
    (hs : st.stack = above ++ .restoring p :: .draining x :: base) (h : st.step? L = some next) :
    Ledger L x base (st :: during) next := by
  have hstarts : st.starts? = none := by
    cases hst : st.starts? with
    | none => rfl
    | some d => exact absurd (ho.top_of_starts hs hst).2 (by simp)
  have heq' : served L (st :: during) = begun (st :: during) := by
    rw [served_cons fun d => ho.not_take above hs, begun_cons hstarts, heq]
  rcases under_step h hs with ⟨above', hn⟩ | ⟨-, ⟨r, hr, rfl⟩ | ⟨message, hm, rfl⟩⟩
  · exact .inside above' p heq' hn
  · exact .idle heq' ⟨rfl, .inl ⟨r, rfl⟩⟩
  · exact .idle heq' ⟨rfl, .inr ⟨message, hm⟩⟩

theorem Ledger.step (hl : Ledger L x base during st) (ho : st.Orderly) (h : st.step? L = some next)
    (hlen : base.length < next.stack.length) : Ledger L x base (st :: during) next := by
  -- Nothing starts while there is nothing on the frame of the drain.
  have bare : st.stack = .draining x :: base → begun (st :: during) = begun during := by
    intro hs
    refine begun_cons ?_
    cases hst : st.starts? with
    | none => rfl
    | some d => cases ho.above_of_starts [] hs hst
  have called : ∀ {c : ComputationId}, st.control = .executing c →
      served L (st :: during) = served L during := by
    intro c hc
    refine served_cons fun d he => ?_
    obtain ⟨-, r, _, _, hr, -⟩ := occasion_of_event he
    cases hc.symm.trans hr
  cases hl with
  | idle heq hidle =>
    obtain ⟨c, he⟩ := hidle.take h hlen
    have hs : next.stack = .draining x :: base := by rw [step_take h he]; exact hidle.1
    have hc : next.control = .executing c := by rw [step_take h he]
    have hg : next.graph.isDisposed c = st.graph.isDisposed c := by rw [step_take h he]; rfl
    by_cases hd : st.graph.isDisposed c = true
    · refine .skipping c ?_ hc (hg.trans hd) hs
      simp only [served, he, hd, if_true, bare hidle.1, heq]
    · refine .called c ?_ hc (hg.trans (Bool.eq_false_iff.2 hd)) hs
      simp only [served, he, hd, bare hidle.1, heq]
      rfl
  | skipping c heq hc hd hs =>
    rw [← bare hs, ← called hc] at heq
    rcases step_executing h hc with ⟨-, rfl⟩ | ⟨hd', -⟩
    · exact .idle heq ⟨hs, .inl ⟨_, rfl⟩⟩
    · cases hd.symm.trans hd'
  | inside above p heq hs => exact step_inside ho heq hs h
  | called c heq hc hd hs =>
    rw [← bare hs, ← called hc] at heq
    rcases step_executing h hc with ⟨hd', -⟩ | ⟨-, -, hs'⟩
    · cases hd.symm.trans hd'
    · rw [hs] at hs'
      exact .entering c [.cleaning c _] heq hs'
  | entering c above heq hs => exact step_entering ho heq hs h
  | failed c message heq hm hs =>
    obtain ⟨d, he⟩ := Idle.take ⟨hs, .inr ⟨message, hm⟩⟩ h hlen
    obtain ⟨-, r, _, _, hr, -⟩ := occasion_of_event he
    cases hm.symm.trans hr

theorem Drain.ledger (hd : Drain L x base start during st) (hsess : Session L past start) :
    Ledger L x base during st := by
  induction hd with
  | begin hr hs => exact .idle rfl ⟨hs, .inl ⟨_, hr⟩⟩
  | step hd hstep hlen ih => exact ih.step (hd.session hsess).orderly hstep hlen

theorem Ledger.begun_sublist (hl : Ledger L x base during st) :
    (begun during).Sublist (served L during) := by
  cases hl with
  | idle heq | skipping _ heq | inside _ _ heq => exact heq ▸ List.Sublist.refl _
  | called _ heq | entering _ _ heq | failed _ _ heq => exact heq ▸ sublist_append_left _ _

theorem Ledger.begun_eq (hl : Ledger L x base during st) (hr : st.control = .giving r)
    (hs : st.stack = .draining x :: base) : begun during = served L during := by
  -- More frames stand on that of the drain than none.
  have more : ∀ (above : List (Frame S)) (f : Frame S),
      st.stack ≠ above ++ f :: .draining x :: base := by
    intro above f hs'
    have hlen := congrArg List.length (hs.symm.trans hs')
    simp only [length_append, length_cons] at hlen
    omega
  cases hl with
  | idle heq _ => exact heq.symm
  | skipping _ _ hc | called _ _ hc | failed _ _ _ hc => cases hr.symm.trans hc
  | inside above _ _ hs' | entering _ above _ hs' => exact absurd hs' (more above _)

/-! ### Effects run once, in order, on settled values -/

theorem queued_append (during before : List (State S)) :
    ∃ more, queued L (during ++ before) = queued L before ++ more := by
  induction during with
  | nil => exact ⟨[], (append_nil _).symm⟩
  | cons t during ih =>
    obtain ⟨more, hmore⟩ := ih
    rw [cons_append]
    simp only [queued]
    split
    · rw [hmore]
      obtain ⟨more', hmore'⟩ :=
        foldl_insertLast_eq_append (t.graph.subscribers _) (queued L before ++ more)
      exact ⟨more ++ more', hmore'.trans (append_assoc _ _ _)⟩
    · exact ⟨more, hmore⟩

theorem queued_write (ho : st.Orderly) (h : st.step? L = some next)
    (hw : st.control = .acting (.write s v k)) (hr : next.control = .giving r) :
    queued L [st] = st.graph.subscribers s := by
  simp only [queued, event_acting hw, actionEvent]
  split
  · rename_i t w he
    split at he
    · cases he
    · obtain ⟨rfl, -⟩ := Event.assign.inj he
      rw [foldl_insertLast_of_nodup (by simpa using ho.consistent.nodup s), nil_append]
  · rename_i hne
    -- A write that changes nothing starts no drain.
    exfalso
    split at hne
    · rename_i hsame
      rw [next_acting h hw, stepAction, if_pos hsame] at hr
      exact absurd hr (by simp [act])
    · exact hne s v rfl

/-- A drain ends when nothing waits. -/
theorem pending_of_drained (h : st.step? L = some next) (hr : st.control = .giving r)
    (hs : st.stack = .draining x :: base) (hbase : next.stack = base) : st.graph.pending = [] := by
  rw [next_giving h hr hs] at hbase
  cases hn : st.graph.next? with
  | none => exact Graph.next?_eq_none.1 hn
  | some c =>
    -- The drain would go on with `c`, under its own frame.
    have hlen := congrArg List.length hbase
    simp [stepFrame, Graph.takeNext?, hn, push, withGraph] at hlen

/-- The effects among some computations. -/
def Graph.effects {V C : Type} (g : Graph V C) (l : List ComputationId) : List ComputationId :=
  l.filter (!g.isMemo ·)

/-- In the first drain after a state with no batch open, in which memos only read and nothing is
written: the drain starts each effect once at most, in the order in which they had their turns, and
these are the first of those that were queued, in order; once an effect has had its turn, no memo
waits, and every value is still there at the end; when the drain comes to the next computation or to
its end, it has started all that were not disposed when their turns came; at its end nothing waits,
and so all effects that were queued have had their turns; and if a single write has started the
drain, the effects subscribed to the signal are queued first, in order. -/
theorem Session.effects_settled {quiet : State S} {before : List (State S)}
    (hsess : Session L past quiet) (hquiet : quiet.graph.depth = 0)
    (hbefore : Steps L quiet before start)
    (hfirst : ∀ t ∈ before, t.event L ≠ .abandon ∧ ∀ c, t.event L ≠ .take c)
    (hd : Drain L x base start during st) (hread : st.MemosRead L)
    (hwrite : ∀ t ∈ during, ∀ s v k, t.control ≠ .acting (.write s v k)) :
    (st.graph.effects (begun during)).Nodup ∧ (begun during).Sublist (turns L during) ∧
      st.graph.effects (turns L during) ++ st.graph.effects st.graph.pending =
        st.graph.effects (queued L (during ++ before)) ∧
      (∀ t earlier, t :: earlier <:+ st :: during → st.graph.effects (turns L earlier) ≠ [] →
        (∀ c ∈ t.graph.pending, st.graph.isMemo c = false) ∧
          ∀ s v, t.graph.value? s = some v → st.graph.value? s = some v) ∧
      (∀ r, st.control = .giving r → st.stack = .draining x :: base →
        begun during = served L during ∧
          ∀ next, st.step? L = some next → next.stack = base → st.graph.pending = [] ∧
            st.graph.effects (turns L during) = st.graph.effects (queued L (during ++ before))) ∧
      ∀ s v k, before = [quiet] → quiet.control = .acting (.write s v k) →
        ∃ more, st.graph.effects (queued L (during ++ before)) =
          st.graph.effects (quiet.graph.subscribers s) ++ more := by
  have hstart : Session L (before ++ past) start := hsess.steps hbefore
  have hq := hbefore.pending_eq_queued (hsess.orderly.quiet hquiet) hfirst
  have ht : Tame L st.graph.isMemo during st := ⟨fun _ _ => rfl, hread, hwrite⟩
  have hqueue := hd.turns_append_pending hstart ht hq
  have hsub : (begun during).Sublist (turns L during) :=
    (hd.ledger hstart).begun_sublist.trans served_sublist_turns
  refine ⟨?_, hsub, hqueue, ?_, ?_, ?_⟩
  · -- Nothing is queued twice, and what has started is part of what was queued.
    have hnodup : (st.graph.effects (queued L (during ++ before))).Nodup := nodup_queued.filter _
    refine List.Nodup.sublist ((hsub.filter _).trans ?_) hnodup
    rw [Graph.effects, ← hqueue]
    exact sublist_append_left _ _
  · intro t earlier hsuffix hne
    obtain ⟨c, hc⟩ := exists_mem_of_ne_nil _ hne
    obtain ⟨hc, heff⟩ := mem_filter.1 hc
    exact hd.settled hstart ht hsuffix ⟨c, hc, by simpa using heff⟩
  · intro r hr hs
    refine ⟨(hd.ledger hstart).begun_eq hr hs, fun next hstep hbase => ?_⟩
    have hnone := pending_of_drained hstep hr hs hbase
    rw [hnone] at hqueue
    exact ⟨hnone, (append_nil _).symm.trans hqueue⟩
  · rintro s v k rfl hw
    obtain ⟨r, hr⟩ := hd.giving
    cases hbefore with
    | step hrefl hstep =>
      cases hrefl
      -- The write queues the subscribers before the drain queues anything.
      obtain ⟨more, hmore⟩ := queued_append during [quiet]
      rw [hmore, queued_write hsess.orderly hstep hw hr]
      exact ⟨_, filter_append _ _⟩

open Sheet

/-- A memo, and effects that read a signal, the memo or both.  One of them makes another, which is
disposed before its turn. -/
def Sheet.mixed : Action setting Nat :=
  signals [1, 2] (memos [.sum [0, 1]]
    (effects [.watch 0 (.sum [0]), .sum [2], .sum [0, 2]] (.write 0 5 (.pure 0))))

def Sheet.mixedQuiet : State setting := (opening mixed).run language 49

/-- The drain that the write starts, when it is over.  The effects of the signal had their turns
before the one that reads only the memo. -/
theorem Session.effects_settled_mixed :
    let start := mixedQuiet.run language 1
    let during := trail language 43 start
    let g := (start.run language 43).graph
    turns language during = [0, 1, 2, 4, 3] ∧ begun during = [0, 1, 4, 3] ∧
      (g.effects (begun during)).Nodup ∧
      ∃ more, g.effects (turns language during) =
        g.effects (mixedQuiet.graph.subscribers 0) ++ more := by
  intro start during g
  obtain ⟨v, k, hw⟩ :=
    exists_of_atWrite (show atWrite mixedQuiet 0 = true by decide +kernel)
  have hstep : mixedQuiet.step? language = some start := by
    simp [start, State.run, State.step?, hw]
  have hfirst : ∀ t ∈ [mixedQuiet],
      t.event language ≠ .abandon ∧ ∀ c, t.event language ≠ .take c := by
    intro t ht
    obtain rfl := mem_singleton.1 ht
    refine ⟨fun he => ?_, fun c he => ?_⟩
    · obtain ⟨m, hm⟩ := occasion_of_event he
      cases hw.symm.trans hm
    · obtain ⟨-, r, _, _, hr, -⟩ := occasion_of_event he
      cases hw.symm.trans hr
  obtain ⟨x, base, hd⟩ :=
    drain_of_drains (show drains start 1 43 = true by decide +kernel)
  have hsess : Session language (trail language 49 (opening mixed))
      mixedQuiet := session_run mixed 49
  obtain ⟨hnodup, -, hqueue, -, -, hfront⟩ := Session.effects_settled hsess (by decide +kernel)
    (Steps.step .refl hstep) hfirst hd (memosRead (by decide +kernel))
    (not_write_of_writeless (by decide +kernel))
  have hpending : g.effects g.pending = [] := by decide +kernel
  rw [hpending, append_nil] at hqueue
  obtain ⟨more, hmore⟩ := hfront 0 v k rfl hw
  exact ⟨by decide +kernel, by decide +kernel, hnodup, more, hqueue.trans hmore⟩

end ReactiveMarkup.Reactive
