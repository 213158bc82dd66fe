/-
Lower memos first.

A drain takes the lowest memo that waits.  Suppose that of two memos that have
their turns, one of which comes to depend on the other, the other was lower when
the drain began.  Then heights only rise from turn to turn, so that a memo which
has had its turn does not come to wait again, and what a memo reads is never given
another value later in the drain.

The heights of memos are those of their last runs, and a memo may come to depend on
one that is higher.  Then it may run too early, and has to run again.

* `Session.memos_settled`: memos run once, on settled values;
* `Session.memos_unsettled`: what happens if heights do not fit, or effects write.
-/
import ReactiveMarkup.Proofs.Reactive.Sheet
import ReactiveMarkup.Proofs.Reactive.Turns

namespace ReactiveMarkup.Reactive

open List State Reactive.Graph

/-! ### What happens while memos have their turns -/

/-- What may happen to a graph while a memo has its turn. -/
def Event.Tends {V C : Type} (c : ComputationId) : Event V C → Prop
  | .idle | .assign _ _ | .take _ => True
  | .start d | .track d _ _ => d = c
  | _ => False

/-- What a memo does to a graph, apart from getting a value. -/
def Event.Quiet {V C : Type} (c : ComputationId) : Event V C → Prop
  | .idle => True
  | .start d | .track d _ _ => d = c
  | _ => False

namespace Event

open Reactive.Graph

variable {V C : Type} {g : Graph V C} {e : Event V C} {c d : ComputationId} {s : SourceId} {v : V}

theorem Tends.size_apply (he : e.Tends c) :
    (e.apply g).computations.size = g.computations.size := by
  cases e with
  | track d s n => exact size_computations_subscribe
  | start d => exact size_computations_release
  | idle | assign _ _ | take _ => rfl
  | _ => exact he.elim

theorem Tends.computation?_apply (he : e.Tends c) (hd : d ≠ c) :
    (e.apply g).computation? d = g.computation? d := by
  cases e with
  | track d' s n =>
    obtain rfl : d' = c := he
    exact computation?_subscribe_ne hd
  | start d' =>
    obtain rfl : d' = c := he
    exact computation?_release_ne hd
  | idle | assign _ _ | take _ => rfl
  | _ => exact he.elim

theorem Tends.ne_dispose (he : e.Tends c) : e ≠ .dispose d := by
  rintro rfl
  exact he

theorem Tends.ne_new (he : e.Tends c) (code : C) : ¬ (e = .memo code ∨ e = .effect code) := by
  rintro (rfl | rfl)
  · exact he
  · exact he

theorem Quiet.tends (he : e.Quiet c) : e.Tends c := by
  cases e with
  | idle => trivial
  | start _ | track _ _ _ => exact he
  | _ => exact he.elim

theorem Quiet.ne_take (he : e.Quiet c) : e ≠ .take d := by
  rintro rfl
  exact he

theorem Quiet.ne_assign (he : e.Quiet c) : e ≠ .assign s v := by
  rintro rfl
  exact he

theorem Quiet.pending_apply (he : e.Quiet c) : (e.apply g).pending = g.pending := by
  rw [Event.pending_apply]
  cases e with
  | idle | start d | track d s n => rfl
  | _ => exact he.elim

theorem Quiet.value?_apply (he : e.Quiet c) : (e.apply g).value? s = g.value? s := by
  rw [Event.value?_apply]
  cases e with
  | idle | start d | track d s n => rfl
  | _ => exact he.elim

end Event

section Tending

variable {S : Setting} [BEq S.Value] {L : Language S} {st next : State S} {c d : ComputationId}
  {s : SourceId}

section

variable (h : st.step? L = some next)

include h

theorem State.size_tend (he : (st.event L).Tends c) :
    next.graph.computations.size = st.graph.computations.size := by
  obtain ⟨_, _, _, hg⟩ := graph_of_step h
  rw [hg]
  exact he.size_apply

theorem State.computation?_tend (he : (st.event L).Tends c)
    (hd : d ≠ c) : next.graph.computation? d = st.graph.computation? d := by
  obtain ⟨_, _, _, hg⟩ := graph_of_step h
  rw [hg]
  exact he.computation?_apply hd

theorem State.height_tend (he : (st.event L).Tends c) (hd : d ≠ c) :
    next.graph.height d = st.graph.height d := by
  rw [height, computation?_tend h he hd, height]

theorem State.isDisposed_tend (ho : st.Orderly)
    (he : (st.event L).Tends c) : next.graph.isDisposed d = st.graph.isDisposed d := by
  rw [Bool.eq_iff_iff, isDisposed_of_step h ho]
  exact ⟨fun hd => hd.resolve_right fun hdis => he.ne_dispose hdis.1, .inl⟩

theorem State.not_executing_tend (he : (st.event L).Tends c)
    (ht : st.event L ≠ .take d) : next.control ≠ .executing d := by
  intro hd
  rcases executing_of_step h hd with htake | ⟨⟨code, hnew⟩, -⟩
  · exact ht htake
  · exact he.ne_new code hnew

end

end Tending

variable {S : Setting} [BEq S.Value] {L : Language S} {x : Option SourceId} {base : List (Frame S)}
  {start st next : State S} {during past : List (State S)} {c d : ComputationId} {s : SourceId}
  {w : S.Value} {m : ComputationId → Bool} {T : List ComputationId}
    {job job' : Option ComputationId}

/-! ### Heights rise from turn to turn -/

/-- The turns that memos have had so far, by the heights when the drain began.  Of the memos that
wait, those in `T` are the ones that will have their turns. -/
structure Ranked (L : Language S) (m : ComputationId → Bool) (T : List ComputationId)
    (start : State S) (during : List (State S)) (st : State S) (job : Option ComputationId) :
    Prop where
  nodup : (turns L during).Nodup
  later : ∀ c ∈ st.graph.pending, m c = true → c ∈ T →
    c ∉ turns L during ∧ ∀ d ∈ turns L during, start.graph.height d ≤ start.graph.height c
  top : ∀ c, job = some c →
    c ∈ turns L during ∧ ∀ d ∈ turns L during, start.graph.height d ≤ start.graph.height c
  heights : ∀ c < st.graph.computations.size, c ∉ turns L during →
    st.graph.height c = start.graph.height c

/-- The lowest memo that waits has its turn. -/
theorem Ranked.take (hr : Ranked L m T start during st none) (ho : st.Orderly)
    (hkinds : ∀ c < st.graph.computations.size, st.graph.isMemo c = m c)
    (h : st.step? L = some next)
    (he : st.event L = .take c) (hc : m c = true) (hT : c ∈ T) :
    Ranked L m T start (st :: during) next (some c) := by
  have hn : st.graph.next? = some c := (occasion_of_event he).1
  have hcp : c ∈ st.graph.pending := mem_pending_of_next? hn
  obtain ⟨hnew, hle⟩ := hr.later c hcp hc hT
  have hpending : next.graph.pending = st.graph.pending.erase c := by rw [step_take h he]
  have hcomps : next.graph.computations = st.graph.computations := by rw [step_take h he]
  refine ⟨?_, ?_, ?_, ?_⟩ <;> rw [turns_cons_take he]
  · rw [nodup_append]
    refine ⟨hr.nodup, by simp, fun d hd e hemem => ?_⟩
    obtain rfl := mem_singleton.1 hemem
    rintro rfl
    exact hnew hd
  · intro d hd hmd hdT
    rw [hpending, ho.distinct.mem_erase_iff] at hd
    obtain ⟨hne, hdp⟩ := hd
    obtain ⟨hdnew, hdle⟩ := hr.later d hdp hmd hdT
    -- Both heights are still those of the beginning.
    have hlow : start.graph.height c ≤ start.graph.height d := by
      rw [← hr.heights c (ho.waiting c hcp) hnew, ← hr.heights d (ho.waiting d hdp) hdnew]
      rcases next?_eq_some hn with ⟨-, -, hmin⟩ | ⟨hall, -⟩
      · exact hmin d hdp ((hkinds d (ho.waiting d hdp)).trans hmd)
      · have hfalse := hall d hdp
        rw [hkinds d (ho.waiting d hdp), hmd] at hfalse
        cases hfalse
    exact ⟨not_mem_append hdnew (mt mem_singleton.1 hne),
      forall_mem_append.2 ⟨hdle, forall_mem_singleton.2 hlow⟩⟩
  · rintro d hd
    cases hd
    refine ⟨mem_append_right _ (.head _), forall_mem_append.2 ⟨hle, ?_⟩⟩
    exact forall_mem_singleton.2 (Nat.le_refl _)
  · intro d hd hmem
    have hheight : next.graph.height d = st.graph.height d := by
      rw [height, computation?, hcomps]
      rfl
    rw [hheight]
    exact hr.heights d (hcomps ▸ hd) fun hdmem => hmem (mem_append_left _ hdmem)

/-- What happens while a memo has its turn, apart from memos and effects that come to wait. -/
theorem Ranked.tend (hr : Ranked L m T start during st (some c)) (h : st.step? L = some next)
    (he : (st.event L).Tends c) (ht : ∀ d, st.event L ≠ .take d)
    (hjob : ∀ d, job' = some d → d = c)
    (hlater : ∀ d ∈ next.graph.pending, d ∉ st.graph.pending → m d = true → d ∈ T →
      start.graph.height c < start.graph.height d) :
    Ranked L m T start (st :: during) next job' := by
  obtain ⟨hcmem, htop⟩ := hr.top c rfl
  refine ⟨?_, ?_, ?_, ?_⟩ <;> rw [turns_cons ht]
  · exact hr.nodup
  · intro d hd hmd hdT
    by_cases hold : d ∈ st.graph.pending
    · exact hr.later d hold hmd hdT
    · -- It is higher than the memo at work, and that is the highest of those that had their turns.
      have hlt := hlater d hd hold hmd hdT
      refine ⟨fun hmem => ?_, fun d' hd' => ?_⟩
      · have hle := htop d hmem
        omega
      · have hle := htop d' hd'
        omega
  · intro d hd
    obtain rfl := hjob d hd
    exact ⟨hcmem, htop⟩
  · intro d hd hmem
    have hdc : d ≠ c := by
      rintro rfl
      exact hmem hcmem
    rw [height_tend h he hdc]
    exact hr.heights d (size_tend h he ▸ hd) hmem

/-! ### What was read stays -/

/-- Values in a drain, while memos have their turns.  A source has another value than in the
beginning only if its memo has been run, and what has been read or stored is still there. -/
structure Steady (L : Language S) (x : Option SourceId) (base : List (Frame S)) (start : State S)
    (during : List (State S)) (st : State S) (job : Option ComputationId) : Prop where
  alive : ∀ c, job = some c → st.control ≠ .executing c → st.graph.isDisposed c = false
  values : ∀ s, st.graph.value? s ≠ start.graph.value? s →
    ∃ d ∈ turns L during, st.graph.target? d = some s ∧
      (job = some d → ∃ p, st.stack = .restoring p :: .draining x :: base)
  reads : ∀ t ∈ during, ∀ s b k v, t.control = .acting (.read s b k) → t.graph.value? s = some v →
    st.graph.value? s = some v ∧
      ∃ d ∈ turns L during, s ∈ st.graph.sourcesOf d ∧ st.control ≠ .executing d
  stores : ∀ t ∈ during, ∀ s v, t.event L = .assign s v →
    st.graph.value? s = some v ∧ start.graph.value? s ≠ some v

theorem Steady.take (hs : Steady L x base start during st none) (h : st.step? L = some next)
    (he : st.event L = .take c) (hnew : c ∉ turns L during) :
    Steady L x base start (st :: during) next (some c) := by
  obtain ⟨-, r, _, _, hr, -⟩ := occasion_of_event he
  have hvalue : ∀ s, next.graph.value? s = st.graph.value? s := fun s => by
    rw [step_take h he]
    rfl
  have hcomp : ∀ d, next.graph.computation? d = st.graph.computation? d := fun d => by
    rw [step_take h he]
    rfl
  have hctl : next.control = .executing c := by rw [step_take h he]
  refine ⟨?_, ?_, ?_, ?_⟩
  · intro d hd hne
    cases hd
    exact absurd hctl hne
  · intro s hne
    rw [hvalue] at hne
    obtain ⟨d, hd, ht, -⟩ := hs.values s hne
    refine ⟨d, mem_turns_cons hd, ?_, fun hdc => ?_⟩
    · rw [target?, hcomp]
      exact ht
    · cases hdc
      exact absurd hd hnew
  · intro t ht s b k v ha hv
    rcases mem_cons.1 ht with rfl | ht
    · cases hr.symm.trans ha
    · obtain ⟨hval, d, hd, hmem, -⟩ := hs.reads t ht s b k v ha hv
      refine ⟨(hvalue s).trans hval, d, mem_turns_cons hd, ?_, ?_⟩
      · rw [sourcesOf, hcomp]
        exact hmem
      · rw [hctl]
        intro hdc
        obtain rfl := Control.executing.inj hdc
        exact hnew hd
  · intro t ht s v hassign
    rcases mem_cons.1 ht with rfl | ht
    · cases he.symm.trans hassign
    · obtain ⟨hval, hne⟩ := hs.stores t ht s v hassign
      exact ⟨(hvalue s).trans hval, hne⟩

theorem MemoWork.event_read (hm : MemoWork L x base st c s)
    (ha : st.control = .acting (.read t b k)) : ∃ n, st.event L = .track c t n := by
  cases hm with
  | called hctl _ | clearing _ hctl _ | entering _ hctl _ => cases ha.symm.trans hctl
  | leaving p _ hctl =>
    rcases hctl with ⟨r, hr⟩ | ⟨message, hm⟩
    · cases ha.symm.trans hr
    · cases ha.symm.trans hm
  | body above p hb =>
    cases hb.readsOnly ha with
    | read _ =>
      refine ⟨st.sourceHeight L t, ?_⟩
      simp only [event_acting ha, actionEvent, hb.current]

/-- A memo reads, or works on without touching the graph. -/
theorem Steady.quiet (hs : Steady L x base start during st (some c)) (ho : st.Orderly)
    (hm : MemoWork L x base st c s) (hc : c ∈ turns L during) (h : st.step? L = some next)
    (he : (st.event L).Quiet c)
    (hjob : ∀ d, job' = some d → d = c ∧ (∀ p, st.stack ≠ .restoring p :: .draining x :: base) ∧
      (st.event L = .start c ∨ st.control ≠ .executing c)) :
    Steady L x base start (st :: during) next job' := by
  have hvalue : ∀ t, next.graph.value? t = st.graph.value? t := fun t =>
    (value?_of_step h t).trans he.value?_apply
  refine ⟨?_, ?_, ?_, ?_⟩
  · intro d hd _
    obtain ⟨rfl, -, hstart | hctl⟩ := hjob d hd
    · rw [isDisposed_tend h ho he.tends]
      exact (occasion_of_event hstart).2
    · rw [isDisposed_tend h ho he.tends]
      exact hs.alive d rfl hctl
  · intro t hne
    rw [hvalue] at hne
    obtain ⟨d, hd, ht, hleaving⟩ := hs.values t hne
    refine ⟨d, mem_turns_cons hd, target?_step h ht, fun hdjob => ?_⟩
    -- The memo at work has not stored its value yet.
    obtain ⟨rfl, hnot, -⟩ := hjob d hdjob
    obtain ⟨p, hp⟩ := hleaving rfl
    exact absurd hp (hnot p)
  · intro t ht y b k v ha hv
    rcases mem_cons.1 ht with rfl | ht
    · -- The memo at work has just read, and depends on what it read.
      obtain ⟨n, htrack⟩ := hm.event_read ha
      refine ⟨(hvalue y).trans hv, c, mem_turns_cons hc, ?_,
        not_executing_tend h he.tends he.ne_take⟩
      have halive := hs.alive c rfl (by simp [ha])
      exact (ho.mem_sourcesOf_step h).2 (.inr ⟨n, htrack, halive, isSome_source?_of_value? hv⟩)
    · obtain ⟨hval, d, hd, hmem, hexec⟩ := hs.reads t ht y b k v ha hv
      refine ⟨(hvalue y).trans hval, d, mem_turns_cons hd, ?_,
        not_executing_tend h he.tends he.ne_take⟩
      refine (ho.mem_sourcesOf_step h).2 (.inl ⟨hmem, fun hstart => ?_, he.tends.ne_dispose⟩)
      exact hexec (occasion_of_event hstart).1
  · intro t ht y v hassign
    rcases mem_cons.1 ht with rfl | ht
    · exact absurd hassign he.ne_assign
    · obtain ⟨hval, hne⟩ := hs.stores t ht y v hassign
      exact ⟨(hvalue y).trans hval, hne⟩

/-- A memo gets its value.  Nobody in the drain has read the one before, since none of those that
had their turns is higher. -/
theorem Steady.store [LawfulBEq S.Value] {p} (hs : Steady L x base start during st (some c))
    (hr : Ranked L m T start during st (some c)) (ho : st.Orderly)
    (ht : st.graph.target? c = some s) (h : st.step? L = some next) (he : st.event L = .assign s w)
    (hstack : st.stack = .storing s :: .restoring p :: .draining x :: base)
    (hnext : next.stack = .restoring p :: .draining x :: base)
    (hlow : ∀ d ∈ turns L during, s ∈ st.graph.sourcesOf d →
      start.graph.height c < start.graph.height d) :
    Steady L x base start (st :: during) next (some c) := by
  obtain ⟨hcmem, htop⟩ := hr.top c rfl
  have hwrite := occasion_of_event he
  have htend : (st.event L).Tends c := by
    rw [he]
    trivial
  have hmade : st.graph.maker? s = some c := (ho.consistent.made s c).1 ht
  have hother : ∀ t, t ≠ s → next.graph.value? t = st.graph.value? t := by
    intro t hts
    rw [value?_of_step h, Event.value?_apply, he]
    exact if_neg fun hst => hts hst.1.symm
  have hvalue : next.graph.value? s = some w := ho.value?_assign h he
  -- The memo has not been given a value in this drain before.
  have hsame : st.graph.value? s = start.graph.value? s := by
    by_contra hne
    obtain ⟨d, -, hd, hleaving⟩ := hs.values s hne
    have hmade' : st.graph.maker? s = some d := (ho.consistent.made s d).1 hd
    obtain rfl := Option.some_inj.1 (hmade.symm.trans hmade')
    obtain ⟨p', hp'⟩ := hleaving rfl
    cases hstack.symm.trans hp'
  have hchange : st.graph.value? s ≠ some w := by
    intro heq
    have hfalse := hwrite.1
    rw [heq, beq_self_eq_true] at hfalse
    cases hfalse
  have hnoexec : ∀ d, next.control ≠ .executing d := fun d =>
    not_executing_tend h htend (by simp [he])
  obtain ⟨r, hgiving⟩ : ∃ r, st.control = .giving r := by
    rcases hwrite.2 with ⟨hsignal, -⟩ | ⟨r, -, hgiving, -⟩
    · cases hmade.symm.trans (maker?_of_isSignal hsignal)
    · exact ⟨r, hgiving⟩
  refine ⟨?_, ?_, ?_, ?_⟩
  · intro d hd _
    rw [isDisposed_tend h ho htend]
    exact hs.alive d hd (by simp [hgiving])
  · intro t hne
    by_cases hts : t = s
    · subst hts
      exact ⟨c, mem_turns_cons hcmem, target?_step h ht,
        fun _ => ⟨p, hnext⟩⟩
    · rw [hother t hts] at hne
      obtain ⟨d, hd, hd', -⟩ := hs.values t hne
      exact ⟨d, mem_turns_cons hd, target?_step h hd',
        fun _ => ⟨p, hnext⟩⟩
  · intro t ht' y b k v ha hv
    rcases mem_cons.1 ht' with rfl | ht'
    · cases hgiving.symm.trans ha
    · obtain ⟨hval, d, hd, hmem, -⟩ := hs.reads t ht' y b k v ha hv
      -- Who has read the memo depends on it, and so is higher, but had its turn before.
      have hys : y ≠ s := by
        rintro rfl
        have hlt := hlow d hd hmem
        have hle := htop d hd
        omega
      refine ⟨(hother y hys).trans hval, d, mem_turns_cons hd, ?_, hnoexec d⟩
      exact (ho.mem_sourcesOf_step h).2 (.inl ⟨hmem, by simp [he], by simp [he]⟩)
  · intro t ht' y v hassign
    rcases mem_cons.1 ht' with rfl | ht'
    · obtain ⟨rfl, rfl⟩ := Event.assign.inj (he.symm.trans hassign)
      exact ⟨hvalue, hsame ▸ hchange⟩
    · obtain ⟨hval, hne⟩ := hs.stores t ht' y v hassign
      have hys : y ≠ s := by
        rintro rfl
        exact hne (hsame ▸ hval)
      exact ⟨(hother y hys).trans hval, hne⟩

/-! ### The turns of memos -/

/-- Of two computations in `T` one of which depends on the other, a memo, the other was lower when
the drain began. -/
def Layered (m : ComputationId → Bool) (T : List ComputationId) (start st : State S) : Prop :=
  ∀ c ∈ T, ∀ d ∈ T, m c = true → ∀ s ∈ st.graph.sourcesOf c, st.graph.target? d = some s →
    start.graph.height d < start.graph.height c

instance {T : List ComputationId} {start st : State S} : Decidable (Layered m T start st) :=
  inferInstanceAs (Decidable (∀ c ∈ T, ∀ d ∈ T, m c = true → ∀ s ∈ st.graph.sourcesOf c,
    st.graph.target? d = some s → start.graph.height d < start.graph.height c))

theorem Ranked.begin : Ranked L m T start [] start none where
  nodup := nodup_nil
  later _ _ _ _ := ⟨not_mem_nil, fun _ hd => absurd hd not_mem_nil⟩
  top _ hc := absurd hc (by simp)
  heights _ _ _ := rfl

theorem Steady.begin : Steady L x base start [] start none where
  alive _ hc := absurd hc (by simp)
  values _ hne := absurd rfl hne
  reads _ ht := absurd ht not_mem_nil
  stores _ ht := absurd ht not_mem_nil

theorem MemoStep.rising [LawfulBEq S.Value] (hstep : MemoStep L x base st next c s)
    (hm : MemoWork L x base st c s) (ht : st.graph.target? c = some s) (ho : st.Orderly)
    (hrank : Ranked L m T start during st (some c))
    (hsteady : Steady L x base start during st (some c)) (h : st.step? L = some next)
    (hlow : Layered m T start st)
    (hT : ∀ d ∈ turns L during, d ∈ T) (hmemos : ∀ d ∈ turns L during, m d = true) :
    ∃ job, Work L x base next job ∧ Ranked L m T start (st :: during) next job ∧
      Steady L x base start (st :: during) next job := by
  have ht' : next.graph.target? c = some s := target?_step h ht
  have hcmem : c ∈ turns L during := (hrank.top c rfl).1
  -- Nobody comes to wait unless a value is stored.
  have quiet : (st.event L).Quiet c → ∀ {job : Option ComputationId}, (∀ d, job = some d → d = c) →
      Ranked L m T start (st :: during) next job := by
    intro he job hjob
    refine hrank.tend h he.tends (fun d => he.ne_take) hjob fun d hd hnew => absurd ?_ hnew
    rw [pending_of_step h, he.pending_apply] at hd
    exact hd
  cases hstep with
  | ends he hidle =>
    have he : (st.event L).Quiet c := by rw [he]; trivial
    exact ⟨none, .idle hidle, quiet he (by simp), hsteady.quiet ho hm hcmem h he (by simp)⟩
  | starts hstart hs hm' =>
    have he : (st.event L).Quiet c := by rw [hstart]; rfl
    refine ⟨some c, .memo ht' hm', quiet he (by simp), ?_⟩
    refine hsteady.quiet ho hm hcmem h he fun d hd => ?_
    exact ⟨(Option.some_inj.1 hd).symm, by simp [hs], .inl hstart⟩
  | goes he hexec hnot hm' =>
    have he : (st.event L).Quiet c := by
      rcases he with he | ⟨t, n, he⟩ <;> rw [he]
      · trivial
      · rfl
    refine ⟨some c, .memo ht' hm', quiet he (by simp), ?_⟩
    refine hsteady.quiet ho hm hcmem h he fun d hd => ?_
    exact ⟨(Option.some_inj.1 hd).symm, hnot, .inr (hexec c)⟩
  | stores w p he hs hs' hm' =>
    refine ⟨some c, .memo ht' hm', ?_, ?_⟩
    · refine hrank.tend h (by rw [he]; trivial) (by simp [he]) (by simp) fun d hd hnew hmd hdT => ?_
      rw [pending_of_step h, he] at hd
      have hsub : d ∈ st.graph.subscribers s := (mem_foldl_insertLast.1 hd).resolve_left hnew
      exact hlow d hdT c (hT c hcmem) hmd s ((ho.consistent.linked s d).1 hsub) ht
    · refine hsteady.store hrank ho ht h he hs hs' fun d hd hmem => ?_
      exact hlow d (hT d hd) c (hT c hcmem) (hmemos d hd) s hmem ht

/-- What holds while memos have their turns. -/
theorem Drain.rising [LawfulBEq S.Value] (hd : Drain L x base start during st)
    (hsess : Session L past start) (htame : Tame L m during st)
    (hlow : ∀ u ∈ during, Layered m T start u) (hT : ∀ c ∈ turns L during, c ∈ T)
    (hmemos : ∀ c ∈ turns L during, m c = true) :
    ∃ job, Work L x base st job ∧ Ranked L m T start during st job ∧
      Steady L x base start during st job := by
  induction hd with
  | begin hr hs => exact ⟨none, .idle ⟨hs, .inl ⟨_, hr⟩⟩, .begin, .begin⟩
  | @step during st next hd hstep hlen ih =>
    have ht : Tame L m during st := htame.of_step hstep
    have hst := hd.session hsess
    have ho : st.Orderly := hst.orderly
    obtain ⟨job, hw, hrank, hsteady⟩ := ih ht (fun u hu => hlow u (.tail _ hu))
      (fun c hc => hT c (mem_turns_cons hc)) fun c hc => hmemos c (mem_turns_cons hc)
    cases hw with
    | idle hidle =>
      obtain ⟨c, he⟩ := hidle.take hstep hlen
      have hcmem : c ∈ turns L (st :: during) := by
        rw [turns_cons_take he]
        exact mem_append_right _ (.head _)
      have hcp := mem_pending_of_next? (occasion_of_event he).1
      have hmc := hmemos c hcmem
      have hcT := hT c hcmem
      refine ⟨some c, ?_, hrank.take ho ht.kinds hstep he hmc hcT,
        hsteady.take hstep he (hrank.later c hcp hmc hcT).1⟩
      obtain ⟨s, hs⟩ := isMemo_iff.1 ((ht.kinds c (ho.waiting c hcp)).trans hmc)
      refine .memo (target?_step hstep hs) (.called ?_ ?_)
      · rw [step_take hstep he]
      · rw [step_take hstep he]
        exact hidle.1
    | @memo c s hs hm =>
      obtain ⟨code, hcode, honly⟩ := ht.memos.exists_code hs
      have hnext := hm.step_cases (hst.confined hs hcode honly) ho hs hcode honly hstep
      exact hnext.rising hm hs ho hrank hsteady hstep (hlow st (.head _))
        (fun c hc => hT c (mem_turns_cons hc)) fun c hc => hmemos c (mem_turns_cons hc)
    | @effect c hlt hnone _ =>
      have hmemo := (ht.kinds c hlt).trans (hmemos c (mem_turns_cons (hrank.top c rfl).1))
      obtain ⟨s, hs⟩ := isMemo_iff.1 hmemo
      cases hnone.symm.trans hs

/-! ### Memos run once, on settled values -/

/-- Each memo has had one turn, what has been read is still there, and so is what has been stored,
which was not there in the beginning. -/
structure Smooth (L : Language S) (m : ComputationId → Bool) (start : State S)
    (during : List (State S)) (st : State S) : Prop where
  once : ((turns L during).filter m).Nodup
  reads : ∀ t ∈ during, ∀ s b k v, t.control = .acting (.read s b k) → t.graph.value? s = some v →
    st.graph.value? s = some v
  stores : ∀ t ∈ during, ∀ s v, t.event L = .assign s v →
    st.graph.value? s = some v ∧ start.graph.value? s ≠ some v

/-- No memo has its turn, and only sources without a value get one. -/
theorem Smooth.step (hs : Smooth L m start during st)
    (hturn : ∀ c, st.event L = .take c → m c = false)
    (hkeep : ∀ s v, st.graph.value? s = some v → next.graph.value? s = some v)
    (hnew : ∀ s v, st.event L = .assign s v →
      next.graph.value? s = some v ∧ start.graph.value? s ≠ some v) :
    Smooth L m start (st :: during) next := by
  refine ⟨?_, ?_, ?_⟩
  · by_cases htake : ∃ c, st.event L = .take c
    · obtain ⟨c, he⟩ := htake
      rw [turns_cons_take he, filter_append, filter_cons_of_neg (by simp [hturn c he]),
        filter_nil, append_nil]
      exact hs.once
    · rw [turns_cons (not_exists.1 htake)]
      exact hs.once
  · intro t ht s b k v ha hv
    rcases mem_cons.1 ht with rfl | ht
    · exact hkeep s v hv
    · exact hkeep s v (hs.reads t ht s b k v ha hv)
  · intro t ht s v he
    rcases mem_cons.1 ht with rfl | ht
    · exact hnew s v he
    · obtain ⟨hv, hne⟩ := hs.stores t ht s v he
      exact ⟨hkeep s v hv, hne⟩

theorem Smooth.step_take (hs : Smooth L m start during st) (h : st.step? L = some next)
    (he : st.event L = .take c) (hc : m c = false) : Smooth L m start (st :: during) next := by
  refine hs.step (fun d hd => ?_) (fun s v hv => ?_) fun s v hassign => ?_
  · obtain rfl := Event.take.inj (he.symm.trans hd)
    exact hc
  · rw [State.step_take h he]
    exact hv
  · cases he.symm.trans hassign

theorem Smooth.step_effects (hs : Smooth L m start during st) (hd : Drain L x base start during st)
    (hsess : Session L past start) (ht : Tame L m during st)
    (hwrite : ∀ s v k, st.control ≠ .acting (.write s v k)) (h : st.step? L = some next)
    (hw : Work L x base st job) (hjob : ∀ c, job = some c → m c = false)
    (hpend : ∀ c ∈ st.graph.pending, m c = false) : Smooth L m start (st :: during) next := by
  have hst := hd.session hsess
  have hjob' := ht.target?_eq_none hw hjob
  refine hs.step (fun c he => ?_) (fun s v hv => ?_) fun s v he =>
    ⟨hst.orderly.value?_assign h he, ?_⟩
  · exact hpend c (mem_pending_of_next? (occasion_of_event he).1)
  · exact hw.value?_step hjob' hst ht.memos hwrite h hv
  · -- A source that had a value in the beginning would still have one.
    intro hv
    have hsome := hd.steps.value?_isSome (by rw [hv]; rfl)
    rw [(hw.assign_new hjob' hst ht.memos hwrite he).1] at hsome
    cases hsome

theorem Drain.smooth [LawfulBEq S.Value] (hd : Drain L x base start during st)
    (hsess : Session L past start) (htame : Tame L m during st)
    (hlow : ∀ u ∈ during, Layered m T start u) (hT : ∀ c ∈ turns L during, c ∈ T) :
    Smooth L m start during st := by
  induction hd with
  | begin hr hs => exact ⟨by simp [turns], by simp, by simp⟩
  | @step during st next hd hstep hlen ih =>
    have ht : Tame L m during st := htame.of_step hstep
    have hsmooth := ih ht (fun u hu => hlow u (.tail _ hu))
      fun c hc => hT c (mem_turns_cons hc)
    have hd' : Drain L x base start (st :: during) next := hd.step hstep hlen
    cases hd'.phase hsess htame with
    | memos _ _ _ hmemos =>
      obtain ⟨_, -, hrank, hsteady⟩ := hd'.rising hsess htame hlow hT hmemos
      exact ⟨hrank.nodup.filter _, fun t ht s b k v ha hv => (hsteady.reads t ht s b k v ha hv).1,
        hsteady.stores⟩
    | effects _ _ _ _ hturns =>
      cases hd.phase hsess ht with
      | effects job hw hjob hpend _ =>
        exact hsmooth.step_effects hd hsess ht (htame.writes st (.head _)) hstep hw hjob
          hpend
      | memos job hw hjob hmemos =>
        -- Only a turn of its own brings an effect among those that had theirs.
        obtain ⟨d, hd', hmd⟩ := hturns
        have hnew : d ∉ turns L during := fun hmem =>
          absurd ((hmemos d hmem).symm.trans hmd) (by simp)
        by_cases htake : ∃ c, st.event L = .take c
        · obtain ⟨c, he⟩ := htake
          rw [turns_cons_take he] at hd'
          have hdc : d = c := by simpa using (mem_append.1 hd').resolve_left hnew
          exact hsmooth.step_take hstep he (hdc ▸ hmd)
        · rw [turns_cons (not_exists.1 htake)] at hd'
          exact absurd hd' hnew

/-- In a drain in which memos only read and nothing is written, and in which a memo that depends on
another was higher than that one when the drain began, if both have their turns: what code reads is
not changed any more, each memo has one turn at most, and a memo makes others wait only if its value
is another than before the drain. -/
theorem Session.memos_settled [LawfulBEq S.Value] (hsess : Session L past start)
    (hd : Drain L x base start during st) (hread : st.MemosRead L)
    (hwrite : ∀ t ∈ during, ∀ s v k, t.control ≠ .acting (.write s v k))
    (hlow : ∀ u ∈ during, Layered st.graph.isMemo (turns L during) start u) :
    (∀ t ∈ during, ∀ s b k v, t.control = .acting (.read s b k) → t.graph.value? s = some v →
        st.graph.value? s = some v) ∧
      ((turns L during).filter st.graph.isMemo).Nodup ∧
      ∀ t ∈ during, ∀ s v, t.event L = .assign s v → start.graph.value? s ≠ st.graph.value? s := by
  have ht : Tame L st.graph.isMemo during st := ⟨fun _ _ => rfl, hread, hwrite⟩
  have hsmooth := hd.smooth hsess ht hlow fun _ hc => hc
  refine ⟨hsmooth.reads, hsmooth.once, fun t ht s v he heq => ?_⟩
  obtain ⟨hv, hne⟩ := hsmooth.stores t ht s v he
  exact hne (heq.trans hv)

open Sheet

/-- Memos that depend on a signal and on each other, and an effect. -/
def Sheet.diamond : Action setting Nat :=
  signals [1] (memos [.sum [0], .sum [0, 1], .sum [1, 2]]
    (effects [.sum [3]] (.write 0 5 (.pure 0))))

theorem Session.memos_settled_diamond :
    let start := (opening diamond).run language 46
    let during := trail language 33 start
    let st := start.run language 33
    turns language during = [0, 1, 2, 3] ∧
      ((turns language during).filter st.graph.isMemo).Nodup ∧
      ∀ t ∈ during, ∀ s b k v, t.control = .acting (.read s b k) → t.graph.value? s = some v →
        st.graph.value? s = some v := by
  intro start during st
  obtain ⟨x, base, hd⟩ :=
    drain_of_drains (show drains start 1 33 = true by decide +kernel)
  obtain ⟨hreads, honce, -⟩ := Session.memos_settled (session_run diamond 46) hd
    (memosRead (by decide +kernel)) (not_write_of_writeless (by decide +kernel))
    (by decide +kernel)
  exact ⟨by decide +kernel, honce, hreads⟩

/-- The last memo depends on the first signal, and on the second memo if the signal holds one. -/
def Sheet.switched : Action setting Nat :=
  signals [0, 0] (memos [.sum [0], .sum [2], .choose 0 3 1] (.write 0 1 (.pure 0)))

/-- A memo of two signals, and an effect that gives the second the value of the first. -/
def Sheet.copying : Action setting Nat :=
  signals [1, 0] (memos [.sum [0, 1]] (effects [.copy 0 1] (.write 0 5 (.pure 0))))

/-- A drain that a write starts while no batch is open, with memos that only read.  The program, how
many steps come before the drain, and how many steps the drain has taken. -/
def Sheet.Settles (a : Action setting Nat) (n k : Nat) : Prop :=
  let quiet := (opening a).run language n
  let start := quiet.run language 1
  Session language (trail language n (opening a)) quiet ∧ quiet.graph.depth = 0 ∧
    atWrite quiet 0 = true ∧ (start.run language k).MemosRead language ∧
    ∃ x base, Drain language x base start (trail language k start) (start.run language k)

theorem Sheet.settles (hquiet : ((opening a).run language n).graph.depth = 0)
    (hwrite : atWrite ((opening a).run language n) 0 = true)
    (hread : ((((opening a).run language n).run language 1).run language k).graph.computations.all
      (fun d => d.target.isNone || d.code.reads) = true)
    (hdrain : drains (((opening a).run language n).run language 1) 1 k = true) : Settles a n k :=
  ⟨session_run a n, hquiet, hwrite, memosRead hread, drain_of_drains hdrain⟩

/-- A memo may have two turns in a drain.  So it is without any write in the drain, if a memo comes
to depend on a higher one: it reads a value that is then changed.  And so it is, with all heights in
order, if an effect writes. -/
theorem Session.memos_unsettled :
    (let start := ((opening switched).run language 38).run language 1
      let during := trail language 34 start
      Settles switched 38 34 ∧ writeless during = true ∧
        turns language during = [0, 2, 1, 2] ∧
        (∃ t ∈ during, (∃ b k, t.control = .acting (.read 3 b k)) ∧ t.graph.value? 3 = some 0) ∧
        (start.run language 34).graph.value? 3 = some 1) ∧
      (let start := ((opening copying).run language 36).run language 1
        let during := trail language 26 start
        Settles copying 36 26 ∧
          (∀ u ∈ during, Layered (start.run language 26).graph.isMemo
            (turns language during) start u) ∧
          turns language during = [0, 1, 0]) := by
  refine ⟨⟨settles ?_ ?_ ?_ ?_, ?_, ?_, exists_of_reading ?_, ?_⟩,
    settles ?_ ?_ ?_ ?_, ?_, ?_⟩ <;> decide +kernel

end ReactiveMarkup.Reactive
