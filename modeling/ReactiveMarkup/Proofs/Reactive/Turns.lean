/-
Whose turn comes when.

While nothing is written, a drain has two phases.  In the first it is at memos,
and these make other memos and effects wait.  In the second it is at effects, and
nothing comes to wait any more, since no source that has a value gets another.  So
effects have their turns in the order in which they were queued, and what there is
when the first of them has its turn is what there is when the drain is over.
-/
import ReactiveMarkup.Proofs.Reactive.Drains

namespace ReactiveMarkup.Reactive

open List State Reactive.Graph

section InsertLast

variable {α : Type} [BEq α] [LawfulBEq α] {p : α → Bool} {a : α} {l l' new : List α}

theorem filter_insertLast :
    (insertLast a l).filter p = if p a then insertLast a (l.filter p) else l.filter p := by
  grind [insertLast]

theorem filter_foldl_insertLast (h : l.filter p = l'.filter p) :
    (new.foldl (fun l a => insertLast a l) l).filter p =
      (new.foldl (fun l a => insertLast a l) l').filter p := by
  induction new generalizing l l' with
  | nil => exact h
  | cons a new ih =>
    refine ih ?_
    rw [filter_insertLast, filter_insertLast, h]

omit [LawfulBEq α] in
theorem foldl_insertLast_eq_append (new l : List α) : ∃ more,
    new.foldl (fun l a => insertLast a l) l = l ++ more := by
  induction new generalizing l with
  | nil => exact ⟨[], (append_nil l).symm⟩
  | cons a new ih =>
    obtain ⟨more, hmore⟩ := ih (insertLast a l)
    rw [foldl_cons, hmore]
    unfold insertLast
    split
    · exact ⟨more, rfl⟩
    · exact ⟨[a] ++ more, append_assoc _ _ _⟩

theorem foldl_insertLast_of_nodup (h : (l ++ new).Nodup) :
    new.foldl (fun l a => insertLast a l) l = l ++ new := by
  induction new generalizing l with
  | nil => exact (append_nil l).symm
  | cons a new ih =>
    -- Each element is added at the end, since it is not there yet.
    have hsplit : l ++ a :: new = (l ++ [a]) ++ new := by rw [append_assoc]; rfl
    have ha : insertLast a l = l ++ [a] := by
      unfold insertLast
      rw [if_neg]
      intro hmem
      rw [nodup_append] at h
      exact h.2.2 a (contains_iff_mem.1 hmem) a (.head _) rfl
    rw [foldl_cons, ha, ih (hsplit ▸ h), hsplit]

theorem filter_erase_of_neg (ha : p a = false) : (l.erase a).filter p = l.filter p := by
  induction l with
  | nil => rfl
  | cons b l ih =>
    by_cases hb : b = a
    · subst hb
      rw [erase_cons_head, filter_cons_of_neg (by simp [ha])]
    · rw [erase_cons_tail (by simpa using hb), filter_cons, filter_cons, ih]

end InsertLast

variable {S : Setting} [BEq S.Value] (L : Language S)

/-! ### What happens in a drain -/

/-- The computations that had a turn, in order. -/
def turns : List (State S) → List ComputationId
  | [] => []
  | t :: earlier =>
    match t.event L with
    | .take c => turns earlier ++ [c]
    | _ => turns earlier

/-- The computations that were not disposed when their turn came, in order. -/
def served : List (State S) → List ComputationId
  | [] => []
  | t :: earlier =>
    match t.event L with
    | .take c => if t.graph.isDisposed c then served earlier else served earlier ++ [c]
    | _ => served earlier

omit [BEq S.Value] in
/-- The computation whose code a drain is about to start. -/
def State.starts? (t : State S) : Option ComputationId :=
  match t.control, t.stack with
  | .giving _, .starting c :: .draining _ :: _ => some c
  | _, _ => none

/-- The computations whose code was started by a drain, in order. -/
def begun : List (State S) → List ComputationId
  | [] => []
  | t :: earlier => begun earlier ++ t.starts?.toList

/-- The computations that were made to wait, in the order in which they came to. -/
def queued : List (State S) → List ComputationId
  | [] => []
  | t :: earlier =>
    match t.event L with
    | .assign s _ => (t.graph.subscribers s).foldl (fun l c => insertLast c l) (queued earlier)
    | _ => queued earlier

variable {L} {x : Option SourceId} {base : List (Frame S)} {start st next : State S}
  {during past : List (State S)} {c d : ComputationId} {s : SourceId} {v : S.Value}

theorem turns_cons_take (he : st.event L = .take c) :
    turns L (st :: during) = turns L during ++ [c] := by
  simp only [turns, he]

theorem turns_cons (he : ∀ c, st.event L ≠ .take c) : turns L (st :: during) = turns L during := by
  cases hc : st.event L with
  | take c => exact absurd hc (he c)
  | _ => simp only [turns, hc]

theorem served_sublist_turns : (served L during).Sublist (turns L during) := by
  induction during with
  | nil => exact .slnil
  | cons t earlier ih =>
    simp only [served, turns]
    split
    · split
      · exact ih.trans (sublist_append_left _ _)
      · exact ih.append (List.Sublist.refl _)
    · exact ih

theorem mem_turns_cons (hc : c ∈ turns L during) : c ∈ turns L (st :: during) := by
  simp only [turns]
  split
  · exact mem_append_left _ hc
  · exact hc

theorem turns_subset {earlier} (h : earlier <:+ during) (hc : c ∈ turns L earlier) :
    c ∈ turns L during := by
  induction during with
  | nil =>
    rw [suffix_nil.1 h] at hc
    exact hc
  | cons t during ih =>
    rcases suffix_cons_iff.1 h with rfl | h
    · exact hc
    · exact mem_turns_cons (ih h)

theorem nodup_queued : (queued L during).Nodup := by
  induction during with
  | nil => exact nodup_nil
  | cons t earlier ih =>
    simp only [queued]
    split
    · exact nodup_foldl_insertLast ih
    · exact ih

theorem Steps.pending_eq_queued (hs : Steps L start during st) (hp : start.graph.pending = [])
    (hno : ∀ t ∈ during, t.event L ≠ .abandon ∧ ∀ c, t.event L ≠ .take c) :
    st.graph.pending = queued L during := by
  induction hs with
  | refl => exact hp
  | @step during st next _ hstep ih =>
    have hst := ih fun t ht => hno t (mem_cons_of_mem _ ht)
    obtain ⟨ha, ht⟩ := hno st mem_cons_self
    rw [pending_of_step hstep, Event.pending_apply]
    simp only [queued]
    split
    · rename_i he
      simp only [he, hst]
    · rename_i he
      exact absurd he (ht _)
    · rename_i he
      exact absurd he ha
    · rename_i hassign _ _
      split
      · rename_i he
        exact absurd he (hassign _ _)
      · exact hst

/-! ### The two phases -/

/-- What is asked of a drain: memos only read, and nothing is written.  Which computations are
memos is told by `m`. -/
structure Tame (L : Language S) (m : ComputationId → Bool) (during : List (State S))
    (st : State S) :
    Prop where
  kinds : ∀ c < st.graph.computations.size, st.graph.isMemo c = m c
  memos : st.MemosRead L
  writes : ∀ t ∈ during, ∀ s v k, t.control ≠ .acting (.write s v k)

variable {m : ComputationId → Bool}

theorem State.isMemo_step (h : st.step? L = some next) (hc : c < st.graph.computations.size) :
    next.graph.isMemo c = st.graph.isMemo c := by
  rw [Bool.eq_iff_iff, isMemo_iff, isMemo_iff, (code_target_step h hc).2]

theorem Tame.of_step (h : st.step? L = some next) (ht : Tame L m (st :: during) next) :
    Tame L m during st where
  kinds c hc := by
    rw [← isMemo_step h hc]
    exact ht.kinds c (Nat.lt_of_lt_of_le hc (size_le_of_step h))
  memos := ht.memos.of_step h
  writes t hmem := ht.writes t (.tail _ hmem)

/-- A drain is at memos, or all memos have had their turns and it is at effects. -/
inductive Phase (L : Language S) (m : ComputationId → Bool) (x : Option SourceId)
    (base : List (Frame S)) (during : List (State S)) (st : State S) : Prop
  | memos (job : Option ComputationId) : Work L x base st job → (∀ c, job = some c → m c = true) →
      (∀ c ∈ turns L during, m c = true) → Phase L m x base during st
  | effects (job : Option ComputationId) : Work L x base st job →
      (∀ c, job = some c → m c = false) → (∀ c ∈ st.graph.pending, m c = false) →
      (∃ c ∈ turns L during, m c = false) → Phase L m x base during st

omit [BEq S.Value] in
theorem Tame.target?_eq_none {job : Option ComputationId} (ht : Tame L m during st)
    (hw : Work L x base st job) (hjob : ∀ c, job = some c → m c = false) (c : ComputationId)
    (hc : job = some c) : st.graph.target? c = none := by
  subst hc
  cases hw with
  | @memo _ s hs _ =>
    have hmemo : st.graph.isMemo c = true := isMemo_iff.2 ⟨s, hs⟩
    rw [ht.kinds c (lt_size_of_target? hs), hjob c rfl] at hmemo
    cases hmemo
  | effect _ hnone _ => exact hnone

section

variable {job : Option ComputationId} (hw : Work L x base st job)
  (hjob : ∀ c, job = some c → st.graph.target? c = none) (hsess : Session L past st)
  (hread : st.MemosRead L) (hwrite : ∀ s v k, st.control ≠ .acting (.write s v k))
  (h : st.step? L = some next)

include hw hjob hsess hread hwrite h

theorem Work.value?_step (hv : st.graph.value? s = some v) : next.graph.value? s = some v := by
  rw [State.value?_of_step h]
  refine Event.value?_apply_of_ne _ hv fun w he => ?_
  rw [(hw.assign_new hjob hsess hread hwrite he).1] at hv
  cases hv

theorem Work.pending_step (ha : st.event L ≠ .abandon) (ht : ∀ c, st.event L ≠ .take c) :
    next.graph.pending = st.graph.pending := by
  rw [pending_of_step h, Event.pending_apply]
  split
  · rename_i s v he
    rw [(hw.assign_new hjob hsess hread hwrite he).2]
    rfl
  · rename_i c he
    exact absurd he (ht c)
  · rename_i he
    exact absurd he ha
  · rfl

end

theorem Phase.take_effect (hpend : ∀ d ∈ st.graph.pending, m d = false) (h : st.step? L = some next)
    (he : st.event L = .take c) (hw : Work L x base next (some c)) :
    Phase L m x base (st :: during) next := by
  have hc : m c = false := hpend c (mem_pending_of_next? (occasion_of_event he).1)
  refine .effects (some c) hw (fun d hd => Option.some_inj.1 hd ▸ hc) (fun d hd => ?_) ⟨c, ?_, hc⟩
  · rw [pending_of_step h, he] at hd
    exact hpend d (mem_of_mem_erase hd)
  · rw [turns_cons_take he]
    exact mem_append_right _ (.head _)

theorem Phase.step (hp : Phase L m x base during st) (hd : Drain L x base start during st)
    (hsess : Session L past st) (htame : Tame L m (st :: during) next) (h : st.step? L = some next)
    (hlen : base.length < next.stack.length) : Phase L m x base (st :: during) next := by
  have ho : st.Orderly := hsess.orderly
  have ht : Tame L m during st := htame.of_step h
  have hwrite := htame.writes st (.head _)
  cases hp with
  | memos job hw hjob hturns =>
    rcases hw.step hsess ht.memos h hlen with ⟨c, rfl, he, hw'⟩ | ⟨hno, hw'⟩
    · have hn : st.graph.next? = some c := (occasion_of_event he).1
      have hmem : ∀ d ∈ st.graph.pending, st.graph.isMemo d = m d := fun d hd =>
        ht.kinds d (ho.waiting d hd)
      rcases next?_eq_some hn with ⟨hc, hcp, -⟩ | ⟨hall, -⟩
      · rw [hmem c hcp] at hc
        refine .memos (some c) hw' (fun d hd => Option.some_inj.1 hd ▸ hc) fun d hd => ?_
        rw [turns_cons_take he, mem_append, mem_singleton] at hd
        rcases hd with hd | rfl
        · exact hturns d hd
        · exact hc
      · exact .take_effect (fun d hd => hmem d hd ▸ hall d hd) h he hw'
    · rw [← turns_cons hno] at hturns
      rcases hw' with hw' | hw'
      · exact .memos job hw' hjob hturns
      · exact .memos none hw' (fun c hc => absurd hc (by simp)) hturns
  | effects job hw hjob hpend hturns =>
    have hjob' := ht.target?_eq_none hw hjob
    rcases hw.step hsess ht.memos h hlen with ⟨c, rfl, he, hw'⟩ | ⟨hno, hw'⟩
    · exact .take_effect hpend h he hw'
    · obtain ⟨above, hs⟩ := hd.stack
      have ha := ho.not_abandon hs h hlen
      rw [← hw.pending_step hjob' hsess ht.memos hwrite h ha hno] at hpend
      rw [← turns_cons hno] at hturns
      rcases hw' with hw' | hw'
      · exact .effects job hw' hjob hpend hturns
      · exact .effects none hw' (fun c hc => absurd hc (by simp)) hpend hturns

/-- Every drain in which memos only read and nothing is written is in one of the two phases. -/
theorem Drain.phase (hd : Drain L x base start during st) (hsess : Session L past start)
    (ht : Tame L m during st) : Phase L m x base during st := by
  induction hd with
  | begin hr hs =>
    exact .memos none (.idle ⟨hs, .inl ⟨_, hr⟩⟩) (fun c hc => absurd hc (by simp)) (by simp [turns])
  | step hd hstep hlen ih =>
    exact (ih (ht.of_step hstep)).step hd (hd.session hsess) ht hstep hlen

/-! ### The queue of effects -/

theorem Drain.turns_append_pending (hd : Drain L x base start during st)
    (hsess : Session L past start) (ht : Tame L m during st) {before}
    (hq : start.graph.pending = queued L before) :
    (turns L during).filter (!m ·) ++ st.graph.pending.filter (!m ·) =
      (queued L (during ++ before)).filter (!m ·) := by
  induction hd with
  | begin hr hs => rw [hq]; rfl
  | @step during st next hd hstep hlen ih =>
    have htst : Tame L m during st := ht.of_step hstep
    have hst := hd.session hsess
    have heq := ih htst
    have hwrite := ht.writes st (.head _)
    obtain ⟨above, hs⟩ := hd.stack
    have ha := hst.orderly.not_abandon hs hstep hlen
    rw [pending_of_step hstep, Event.pending_apply, cons_append]
    cases he : st.event L with
    | take c =>
      rw [turns_cons_take he, filter_append, append_assoc]
      simp only [queued, he]
      rw [← heq]
      -- A memo is none of the effects, and an effect that is taken is the first of all that wait.
      rcases next?_eq_some (occasion_of_event he).1 with
        ⟨hc, hcp, -⟩ | ⟨hall, rest, hrest⟩
      · rw [htst.kinds c (hst.orderly.waiting c hcp)] at hc
        rw [filter_erase_of_neg (by simp [hc]), filter_cons_of_neg (by simp [hc])]
        rfl
      · have hc : m c = false := by
          have hcp : c ∈ st.graph.pending := hrest ▸ .head _
          rw [← htst.kinds c (hst.orderly.waiting c hcp), hall c hcp]
        rw [hrest, erase_cons_head, filter_cons_of_pos (by simp [hc]),
          filter_cons_of_pos (by simp [hc])]
        rfl
    | assign s v =>
      rw [turns_cons fun c => by rw [he]; simp]
      simp only [queued, he]
      cases hd.phase hsess htst with
      | memos job hw hjob hturns =>
        -- No effect has had its turn, so one that comes to wait again keeps its place.
        have hnil : (turns L during).filter (!m ·) = [] :=
          filter_eq_nil_iff.2 fun c hc => by simp [hturns c hc]
        rw [hnil] at heq ⊢
        exact filter_foldl_insertLast heq
      | effects job hw hjob _ _ =>
        have hjob' := htst.target?_eq_none hw hjob
        rw [(hw.assign_new hjob' hst htst.memos hwrite he).2]
        exact heq
    | abandon => exact absurd he ha
    | _ => simpa only [turns, queued, he] using heq

/-! ### Values that stay -/

theorem Phase.of_turn (hp : Phase L m x base during st) (heff : ∃ c ∈ turns L during, m c = false) :
    ∃ job, Work L x base st job ∧ (∀ c, job = some c → m c = false) ∧
      ∀ c ∈ st.graph.pending, m c = false := by
  cases hp with
  | memos _ _ _ hturns =>
    obtain ⟨c, hc, hmc⟩ := heff
    cases (hturns c hc).symm.trans hmc
  | effects job hw hjob hpend _ => exact ⟨job, hw, hjob, hpend⟩

/-- Once an effect has had its turn, no memo waits and values stay. -/
theorem Drain.settled (hd : Drain L x base start during st) (hsess : Session L past start)
    (ht : Tame L m during st) {earlier} (hsuffix : t :: earlier <:+ st :: during)
    (heff : ∃ c ∈ turns L earlier, m c = false) :
    (∀ c ∈ t.graph.pending, m c = false) ∧
      ∀ s v, t.graph.value? s = some v → st.graph.value? s = some v := by
  induction hd with
  | begin hr hs =>
    obtain ⟨c, hc, -⟩ := heff
    rcases suffix_cons_iff.1 hsuffix with heq | hnil
    · cases heq
      cases hc
    · cases suffix_nil.1 hnil
  | @step during st next hd hstep hlen ih =>
    have htst : Tame L m during st := ht.of_step hstep
    rcases suffix_cons_iff.1 hsuffix with heq | hsuffix
    · cases heq
      obtain ⟨_, -, -, hpend⟩ := ((hd.step hstep hlen).phase hsess ht).of_turn heff
      exact ⟨hpend, fun _ _ hv => hv⟩
    · obtain ⟨hpend, hvalues⟩ := ih htst hsuffix
      -- The effect that had its turn before `t` had it before `st` too.
      have hsuffix' : earlier <:+ during := by
        rcases suffix_cons_iff.1 hsuffix with heq | hsuffix
        · cases heq
          exact suffix_refl _
        · exact (suffix_cons t earlier).trans hsuffix
      obtain ⟨c, hc, hmc⟩ := heff
      obtain ⟨job, hw, hjob, -⟩ := (hd.phase hsess htst).of_turn ⟨c, turns_subset hsuffix' hc, hmc⟩
      refine ⟨hpend, fun s v hv => ?_⟩
      exact hw.value?_step (htst.target?_eq_none hw hjob) (hd.session hsess) htst.memos
        (ht.writes st (.head _)) hstep (hvalues s v hv)

end ReactiveMarkup.Reactive
