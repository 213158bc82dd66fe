/-
What memos hold.

The readings of a computation are the sources that were read on its account since its last
run began, each with the value that it had then.  A source that takes on another value makes
its subscribers wait, so a reading can be out of date only for a computation that waits, or
that has been taken and is just about to run.

Code that only reads can be evaluated on given values of sources, without a
machine.  When the machine has run the code of a memo, the memo holds the result
of that evaluation on the values that it saw.  As long as none of these change the
memo holds the right value, and when one does the memo waits for another run.

* `Session.nothing_lost`: where no batch is open, no update has been lost.
-/
import ReactiveMarkup.Proofs.Reactive.Sheet

namespace ReactiveMarkup.Reactive

open List State Reactive.Graph

variable {S : Setting} {L : Language S}

/-! ### What computations have seen -/

section Readings

variable [BEq S.Value]

variable (L) in
/-- The sources that a computation has read since its last run began, with the values that it saw,
the latest first. -/
def readings : List (State S) → ComputationId → List (SourceId × S.Value)
  | [], _ => []
  | st :: past, c =>
    match st.event L with
    | .start d => if d = c then [] else readings past c
    | .track d s _ =>
      if d = c then ((st.graph.value? s).map (s, ·)).toList ++ readings past c else readings past c
    | _ => readings past c

variable {past : List (State S)} {st next : State S} {c : ComputationId} {s : SourceId}
  {v : S.Value}

theorem mem_readings_cons (h : (s, v) ∈ readings L (st :: past) c) :
    ((s, v) ∈ readings L past c ∧ st.event L ≠ .start c) ∨
      (st.graph.value? s = some v ∧ ∃ n, st.event L = .track c s n) := by
  simp only [readings] at h
  split at h
  · rename_i d he
    split at h
    · cases h
    · rename_i hd
      exact .inl ⟨h, fun h' => hd (Event.start.inj (he.symm.trans h'))⟩
  · rename_i d t n he
    have hne : st.event L ≠ .start c := by simp [he]
    split at h
    · rename_i hd
      subst hd
      rcases mem_append.1 h with h | h
      · rw [Option.mem_toList, Option.map_eq_some_iff] at h
        obtain ⟨w, hw, hsw⟩ := h
        obtain ⟨rfl, rfl⟩ := Prod.mk.inj hsw
        exact .inr ⟨hw, n, he⟩
      · exact .inl ⟨h, hne⟩
    · exact .inl ⟨h, hne⟩
  · rename_i hstart _
    exact .inl ⟨h, hstart c⟩

/-- Each reading is noted as a dependency, and is up to date unless its computation waits or is
just about to run. -/
structure Fresh (L : Language S) (past : List (State S)) (st : State S) : Prop where
  noted : ∀ c s v, (s, v) ∈ readings L past c → st.graph.isDisposed c = false →
    s ∈ st.graph.sourcesOf c
  upToDate : ∀ c s v, (s, v) ∈ readings L past c → st.graph.isDisposed c = false →
    st.graph.value? s = some v ∨ c ∈ st.graph.pending ∨ st.control = .executing c

theorem State.Orderly.not_disposed (ho : st.Orderly) (h : st.step? L = some next)
    (hd : next.graph.isDisposed c = false) : st.graph.isDisposed c = false := by
  rw [Bool.eq_false_iff] at hd ⊢
  exact fun hc => hd ((isDisposed_of_step h ho).2 (.inl hc))

theorem State.event_ne_abandon (hcalm : ∀ m, st.control ≠ .failing m) : st.event L ≠ .abandon := by
  intro he
  obtain ⟨m, hm⟩ := occasion_of_event he
  exact hcalm m hm

namespace Fresh

variable (hf : Fresh L past st) (ho : st.Orderly) (h : st.step? L = some next)
  (hr : (s, v) ∈ readings L (st :: past) c) (hd : next.graph.isDisposed c = false)

include hf ho h hr hd

theorem noted_step : s ∈ next.graph.sourcesOf c := by
  have hd' : ¬ (st.graph.isDisposed c = true ∨
      (st.event L = .dispose c ∧ c < st.graph.computations.size)) := by
    rw [← isDisposed_of_step h ho, hd]
    exact Bool.false_ne_true
  rw [not_or, Bool.not_eq_true] at hd'
  rw [ho.mem_sourcesOf_step h]
  rcases mem_readings_cons hr with ⟨hr, hs⟩ | ⟨hv, n, he⟩
  · have hmem := hf.noted c s v hr hd'.1
    exact .inl ⟨hmem, hs, fun he => hd'.2 ⟨he, lt_size_of_mem_sourcesOf hmem⟩⟩
  · exact .inr ⟨n, he, hd'.1, isSome_source?_of_value? hv⟩

theorem upToDate_step (hcalm : st.event L ≠ .abandon) :
    next.graph.value? s = some v ∨ c ∈ next.graph.pending ∨ next.control = .executing c := by
  have hd' := ho.not_disposed h hd
  have hval : next.graph.value? s = ((st.event L).apply st.graph).value? s := value?_of_step h s
  rcases mem_readings_cons hr with ⟨hr, hs⟩ | ⟨hv, n, he⟩
  · rcases hf.upToDate c s v hr hd' with hv | hc | hc
    · -- A write to the source makes the computation wait.
      by_cases ha : ∃ w, st.event L = .assign s w
      · obtain ⟨w, he⟩ := ha
        have hsub : c ∈ st.graph.subscribers s :=
          (ho.consistent.linked s c).2 (hf.noted c s v hr hd')
        exact .inr (.inl (mem_pending_assign h he hsub))
      · rw [hval]
        exact .inl (Event.value?_apply_of_ne _ hv (not_exists.1 ha))
    · exact .inr (mem_pending_step h hcalm hc)
    · exact absurd (by rw [event_executing hc, hd']; rfl) hs
  · rw [hval, he]
    exact .inl (Event.value?_apply_of_ne _ hv (by simp))

end Fresh

/-- Readings are up to date in every state that a program comes to without failing, unless their
computation waits or is just about to run. -/
theorem Session.fresh (h : Session L past st)
    (hcalm : ∀ t ∈ st :: past, ∀ message, t.control ≠ .failing message) : Fresh L past st := by
  induction h with
  | start host a => exact ⟨by simp [readings], by simp [readings]⟩
  | @step past st next h hstep ih =>
    have hih := ih fun t ht => hcalm t (mem_cons_of_mem _ ht)
    have hne := event_ne_abandon (L := L) (hcalm st (by simp))
    exact ⟨fun c s v hr hd => hih.noted_step h.orderly hstep hr hd,
      fun c s v hr hd => hih.upToDate_step h.orderly hstep hr hd hne⟩
  | @again past st host a h hend ih =>
    have hih := ih fun t ht => hcalm t (mem_cons_of_mem _ ht)
    have hidle : st.event L = .idle := Session.event_of_end hend
    have hr : ∀ c, readings L (st :: past) c = readings L past c := fun c => by
      simp only [readings, hidle]
    refine ⟨fun c s v hm hd => hih.noted c s v (hr c ▸ hm) hd, fun c s v hm hd => ?_⟩
    rcases hih.upToDate c s v (hr c ▸ hm) hd with hv | hc | hc
    · exact .inl hv
    · exact .inr (.inl hc)
    · exact absurd hend (by simp only [step?, hc]; split <;> simp)

theorem Session.reading_holds (h : Session L past st)
    (hcalm : ∀ t ∈ st :: past, ∀ message, t.control ≠ .failing message) (h0 : st.graph.depth = 0)
    (hd : st.graph.isDisposed c = false) (hr : (s, v) ∈ readings L past c) :
    st.graph.value? s = some v := by
  have ho : st.Orderly := h.orderly
  have hf : Fresh L past st := h.fresh hcalm
  rcases hf.upToDate c s v hr hd with hv | hc | hc
  · exact hv
  · rw [ho.quiet h0] at hc
    cases hc
  · -- Nothing is taken outside of drains, so this is a first run, and nothing was read.
    have hmem : s ∈ st.graph.sourcesOf c := hf.noted c s v hr hd
    have hfirst : FirstRun st.graph c st.stack :=
      (hc ▸ ho.poised).firstRun_of_executing (ho.balanced.symm.trans h0)
    rw [hfirst.sources] at hmem
    cases hmem

end Readings

/-! ### Evaluation -/

/-- What code that only reads gives on given values of sources, and what it makes of the host. -/
inductive Evaluates (L : Language S) (values : SourceId → Option S.Value) :
    S.Host → Action S S.Result → S.Host → S.Result → Prop
  | pure (host : S.Host) (r : S.Result) : Evaluates L values host (.pure r) host r
  | look {host host' : S.Host} {k : S.Host → Action S S.Result} {r : S.Result} :
      Evaluates L values host (k host) host' r → Evaluates L values host (.look k) host' r
  | change {host host' : S.Host} {f : S.Host → S.Host} {next : Action S S.Result} {r : S.Result} :
      Evaluates L values (f host) next host' r → Evaluates L values host (.change f next) host' r
  | read {host host' : S.Host} {s : SourceId} {v : S.Value} {k : S.Value → Action S S.Result}
      {r : S.Result} : values s = some v → Evaluates L values host (k v) host' r →
      Evaluates L values host (.read s true k) host' r
  | call {host between host' : S.Host} {code : S.Code} {held : List S.Item}
      {k : S.Result → Action S S.Result} {r r' : S.Result} :
      Evaluates L values host (L.body code) between r → Evaluates L values between (k r) host' r' →
      Evaluates L values host (.call code held k) host' r'

variable {values values' : SourceId → Option S.Value} {host host' : S.Host} {a : Action S S.Result}
  {r : S.Result}

theorem Evaluates.unique (h : Evaluates L values host a host' r) {host''}
    (h' : Evaluates L values host a host'' r') : host'' = host' ∧ r' = r := by
  induction h generalizing host'' r' with
  | pure host r =>
    cases h'
    exact ⟨rfl, rfl⟩
  | look _ ih =>
    cases h' with
    | look h' => exact ih h'
  | change _ ih =>
    cases h' with
    | change h' => exact ih h'
  | read hv _ ih =>
    cases h' with
    | read hv' h' =>
      obtain rfl := Option.some_inj.1 (hv.symm.trans hv')
      exact ih h'
  | call _ _ ihb ihk =>
    cases h' with
    | call hb hk =>
      obtain ⟨rfl, rfl⟩ := ihb hb
      exact ihk hk

/-- Whether values of sources are among others. -/
def Among (values values' : SourceId → Option S.Value) : Prop :=
  ∀ s v, values s = some v → values' s = some v

theorem Evaluates.mono (hle : Among values values') (h : Evaluates L values host a host' r) :
    Evaluates L values' host a host' r := by
  induction h with
  | pure host r => exact .pure host r
  | look _ ih => exact .look ih
  | change _ ih => exact .change ih
  | read hv _ ih => exact .read (hle _ _ hv) ih
  | call _ _ ihb ihk => exact .call ihb ihk

/-- What becomes of a result that is given to frames that go on with code that only reads. -/
inductive Passes (L : Language S) (values : SourceId → Option S.Value) :
    S.Host → List (Frame S) → S.Result → S.Host → S.Result → Prop
  | nil (host : S.Host) (r : S.Result) : Passes L values host [] r host r
  | cons {host between host' : S.Host} {held : List S.Item} {k : S.Result → Action S S.Result}
      {above : List (Frame S)} {r r' r'' : S.Result} : Evaluates L values host (k r) between r' →
      Passes L values between above r' host' r'' →
      Passes L values host (.returning held k :: above) r host' r''

/-- What the code at hand, with the frames above some other, gives on given values. -/
def Yields (L : Language S) (values : SourceId → Option S.Value) (st : State S)
    (above : List (Frame S)) (host : S.Host) (r : S.Result) : Prop :=
  match st.control with
  | .acting a => ∃ between r', Evaluates L values st.host a between r' ∧
      Passes L values between above r' host r
  | .giving r' => Passes L values st.host above r' host r
  | _ => False

/-- The values of the sources that a computation depends on. -/
def Graph.seen {V C : Type} (g : Graph V C) (c : ComputationId) (s : SourceId) : Option V :=
  if s ∈ g.sourcesOf c then g.value? s else none

theorem Graph.seen_eq_some {g : Graph V C} {v} :
    g.seen c s = some v ↔ s ∈ g.sourcesOf c ∧ g.value? s = some v := by
  unfold seen
  by_cases hs : s ∈ g.sourcesOf c
  · rw [if_pos hs]
    exact ⟨fun hv => ⟨hs, hv⟩, fun h => h.2⟩
  · rw [if_neg hs]
    exact ⟨fun hv => absurd hv (by simp), fun h => absurd h.1 hs⟩

variable {st next : State S} {c : ComputationId} {s : SourceId} {code : S.Code}
  {above above' rest : List (Frame S)} {p : Option ComputationId}

/-- Whatever the rest of the memo's code gives, on values that have to agree only with what has
been read, all of it gives from the host that it began with. -/
def Residue (L : Language S) (st : State S) (c : ComputationId) (code : S.Code)
    (above : List (Frame S)) (began : S.Host) : Prop :=
  ∀ values, Among (st.graph.seen c) values → ∀ host r, Yields L values st above host r →
    Evaluates L values began (L.body code) host r

variable [BEq S.Value]

/-- Each step of the memo's code is one of its evaluation. -/
theorem Residue.step {began} (hres : Residue L st c code above began)
    (hb : InBody L st c s above p rest) (hb' : InBody L next c s above' p rest) (ho : st.Orderly)
    (hd : st.graph.isDisposed c = false) (h : st.step? L = some next) :
    Residue L next c code above' began := by
  have same : ∀ {l : List (Frame S)}, next.stack = l ++ .storing s :: .restoring p :: rest →
      above' = l := fun hl => append_cancel_right (hb'.stack.symm.trans hl)
  intro values hle host r hy
  unfold Residue Yields at hres
  cases hb.step_cases h with
  | ends r' ha hn =>
    subst hn
    obtain rfl := same hb.stack
    refine hres values hle host r ?_
    rw [ha]
    exact ⟨st.host, r', .pure _ _, hy⟩
  | raises _ _ hn | misses _ _ _ _ _ hn =>
    subst hn
    exact hy.elim
  | looks k ha hn =>
    subst hn
    obtain rfl := same hb.stack
    obtain ⟨between, r', he, hp⟩ := hy
    refine hres values hle host r ?_
    rw [ha]
    exact ⟨between, r', .look he, hp⟩
  | changes f a ha hn =>
    subst hn
    obtain rfl := same hb.stack
    obtain ⟨between, r', he, hp⟩ := hy
    refine hres values hle host r ?_
    rw [ha]
    exact ⟨between, r', .change he, hp⟩
  | reads t k v ha hv hn =>
    subst hn
    obtain rfl := same hb.stack
    obtain ⟨between, r', he, hp⟩ := hy
    have hlt := ho.current c hb.current
    have hval : ∀ u, (st.graph.subscribe c t (st.sourceHeight L t)).value? u = st.graph.value? u :=
      fun u => value?_of_map (source?_subscribe_map fun _ _ => rfl)
    have hnotes : st.graph.Notes c t := ⟨hd, isSome_source?_of_value? hv⟩
    -- The value that was read is one of those that the evaluation has to agree with from now on.
    have hread : values t = some v := by
      refine hle t v (seen_eq_some.2 ⟨?_, (hval t).trans hv⟩)
      exact (mem_sourcesOf_subscribe hlt).2 (.inr ⟨rfl, rfl, hnotes⟩)
    have hold : Among (st.graph.seen c) values := by
      intro u w hw
      obtain ⟨hmem, hw⟩ := seen_eq_some.1 hw
      refine hle u w (seen_eq_some.2 ⟨?_, (hval u).trans hw⟩)
      exact (mem_sourcesOf_subscribe hlt).2 (.inl hmem)
    refine hres values hold host r ?_
    rw [ha]
    exact ⟨between, r', .read hread he, hp⟩
  | calls code' held k ha hn =>
    subst hn
    obtain rfl : above' = .returning held k :: above := same (congrArg (List.cons _) hb.stack)
    obtain ⟨between, r', he, hp⟩ := hy
    refine hres values hle host r ?_
    rw [ha]
    cases hp with
    | cons hk hp => exact ⟨_, _, .call he hk, hp⟩
  | returns r' held k above'' hr ha hn =>
    subst hn ha
    obtain rfl := same rfl
    obtain ⟨between, r'', he, hp⟩ := hy
    refine hres values hle host r ?_
    rw [hr]
    exact .cons he hp
  | stores r' hr ha hn =>
    -- After this step the code is not running any more.
    subst ha
    exact absurd hb'.mem_stack (hn ▸ (hb.leaving_store ho hr).1)
  | unwinds _ _ _ hm _ hn | drops _ hm _ hn =>
    subst hn
    rw [hm] at hy
    exact hy.elim

/-! ### Runs that are due -/

/-- A memo holds the right value, or a run of it is due or in progress, or its code was left out
because its source was not in use. -/
inductive Tended (L : Language S) (past : List (State S)) (st : State S) (c : ComputationId)
    (s : SourceId) (code : S.Code) : Prop
  | waits : c ∈ st.graph.pending → Tended L past st c s code
  | called : st.control = .executing c → Tended L past st c s code
  | starts : .starting c ∈ st.stack → Tended L past st c s code
  | runs : .storing s ∈ st.stack → Tended L past st c s code
  | skipped (t : State S) : t ∈ past → t.begins c = true → t.isLiveSource L s = false →
      Tended L past st c s code
  | holds (t : State S) (host : S.Host) (r : S.Result) : past.find? (·.begins c) = some t →
      Evaluates L (st.graph.seen c) t.host (L.body code) host r →
      st.graph.value? s = some (L.value r) → Tended L past st c s code

/-- A memo is tended, and while its code runs what is left of it is right. -/
structure Tracked (L : Language S) (past : List (State S)) (st : State S) (c : ComputationId)
    (s : SourceId) (code : S.Code) : Prop where
  running : .storing s ∈ st.stack → ∃ above p rest t, InBody L st c s above p rest ∧
    past.find? (·.begins c) = some t ∧ Residue L st c code above t.host
  tended : Tended L past st c s code

variable {past : List (State S)}

omit [BEq S.Value] in
theorem find_begins (hs : ∀ rest, st.stack ≠ .starting c :: rest) :
    (st :: past).find? (·.begins c) = past.find? (·.begins c) := by
  refine find?_cons_of_neg ?_
  rw [begins_iff]
  rintro ⟨r, rest, -, h⟩
  exact hs rest h

theorem starting_of_executing (h : st.step? L = some next) (hc : st.control = .executing c)
    (hd : st.graph.isDisposed c = false) : .starting c ∈ next.stack := by
  rw [next_starting h hc hd]
  exact .tail _ (.head _)

section Step

variable (ho : st.Orderly) (h : st.step? L = some next)

include ho h

theorem among_seen_step (hd : next.graph.isDisposed c = false) (hc : st.control ≠ .executing c) :
    c ∈ next.graph.pending ∨ Among (st.graph.seen c) (next.graph.seen c) := by
  by_cases hw : ∃ t v, st.event L = .assign t v ∧ t ∈ st.graph.sourcesOf c
  · obtain ⟨t, v, he, ht⟩ := hw
    exact .inl (mem_pending_assign h he ((ho.consistent.linked t c).2 ht))
  · right
    intro t v hv
    obtain ⟨ht, hv⟩ := seen_eq_some.1 hv
    refine seen_eq_some.2 ⟨?_, ?_⟩
    · rw [ho.mem_sourcesOf_step h]
      refine .inl ⟨ht, fun he => hc (occasion_of_event he).1, fun he => ?_⟩
      have hdis := (isDisposed_of_step h ho).2 (.inr ⟨he, lt_size_of_mem_sourcesOf ht⟩)
      cases hd.symm.trans hdis
    · rw [value?_of_step h]
      exact Event.value?_apply_of_ne _ hv fun w he => hw ⟨t, w, he, ht⟩

variable (hc : Confined L st c s)

include hc

theorem Tracked.running_step (htr : Tracked L past st c s code) (ht : st.graph.target? c = some s)
    (hcode : st.graph.code? c = some code) (hr : ReadsOnly L (L.body code))
    (hd : st.graph.isDisposed c = false) (hmem : .storing s ∈ next.stack) :
    ∃ above p rest t, InBody L next c s above p rest ∧
      (st :: past).find? (·.begins c) = some t ∧ Residue L next c code above t.host := by
  by_cases hold : .storing s ∈ st.stack
  · obtain ⟨above, p, rest, t, hb, hfind, hres⟩ := htr.running hold
    rcases hb.step h with ⟨above', hb'⟩ | ⟨rfl, ⟨r, hctl, hn⟩ | ⟨m, hm, hn⟩⟩
    · refine ⟨above', p, rest, t, hb', ?_, hres.step hb hb' ho hd h⟩
      rw [find_begins fun lower hs => hc.not_mem_of_starting hs hold]
      exact hfind
    · exact absurd (hn ▸ hmem) (hb.leaving_store ho hctl).1
    · subst hn
      exact absurd ((mem_cons.1 hmem).resolve_left (by simp)) hb.once
  · rcases mem_stack_of_step h hmem with hmem | ⟨r, d, rest, hctl, hs, hdt, hlive⟩
    · exact absurd hmem hold
    · obtain rfl : d = c := Option.some_inj.1
        (((ho.consistent.made s d).1 hdt).symm.trans ((ho.consistent.made s c).1 ht))
      -- Nothing of the code has run yet, so what is left of it is all of it.
      rw [step_begin h hctl hs ht hcode, if_pos hlive]
      refine ⟨[], _, rest, st, hc.inBody_begin ho ht hr hctl hs, ?_, ?_⟩
      · exact find?_cons_of_pos (begins_iff.2 ⟨r, rest, hctl, hs⟩)
      · rintro values - host r' ⟨between, r'', he, hp⟩
        cases hp
        exact he

theorem Tracked.tended_store [LawfulBEq S.Value] {t} (hb : InBody L st c s [] p rest)
    (hfind : past.find? (·.begins c) = some t) (hres : Residue L st c code [] t.host)
    (hd : next.graph.isDisposed c = false) (hr : st.control = .giving r) :
    Tended L (st :: past) next c s code := by
  -- The code is over, so the values that it saw give its result.
  have heval : Evaluates L (st.graph.seen c) t.host (L.body code) st.host r := by
    refine hres _ (fun _ _ hv => hv) st.host r ?_
    rw [Yields, hr]
    exact .nil _ _
  rcases among_seen_step ho h hd (by simp [hr]) with hwait | hle
  · exact .waits hwait
  · refine .holds t st.host r ?_ (heval.mono hle) ?_
    · rw [find_begins fun lower hs => hc.not_mem_of_starting hs hb.mem_stack]
      exact hfind
    · have he : st.event L =
          if st.graph.value? s == some (L.value r) then .idle else .assign s (L.value r) :=
        event_giving hr hb.stack
      by_cases heq : (st.graph.value? s == some (L.value r)) = true
      · rw [value?_of_step h, he, if_pos heq]
        exact eq_of_beq heq
      · exact ho.value?_assign h (he.trans (if_neg heq))

theorem Tracked.tended_step [LawfulBEq S.Value] (htr : Tracked L past st c s code)
    (ht : st.graph.target? c = some s) (hcode : st.graph.code? c = some code)
    (hd : next.graph.isDisposed c = false) (hcalm : ∀ message, st.control ≠ .failing message) :
    Tended L (st :: past) next c s code := by
  by_cases hexec : st.control = .executing c
  · exact .starts (starting_of_executing h hexec (ho.not_disposed h hd))
  by_cases hstart : .starting c ∈ st.stack
  · rcases mem_stack_step h hstart with hstart | ⟨⟨rest, hs⟩, ⟨r, hr⟩ | ⟨m, hm⟩⟩
    · exact .starts hstart
    · rw [step_begin h hr hs ht hcode]
      split
      · exact .runs (.head _)
      · rename_i hlive
        exact .skipped st (.head _) (begins_iff.2 ⟨r, rest, hr, hs⟩)
          (Bool.eq_false_iff.2 hlive)
    · exact absurd hm (hcalm m)
  by_cases hrun : .storing s ∈ st.stack
  · obtain ⟨above, p, rest, t, hb, hfind, hres⟩ := htr.running hrun
    rcases hb.step h with ⟨above', hb'⟩ | ⟨rfl, ⟨r, hr, -⟩ | ⟨m, hm, -⟩⟩
    · exact .runs hb'.mem_stack
    · exact tended_store ho h hc hb hfind hres hd hr
    · exact absurd hm (hcalm m)
  cases htr.tended with
  | waits hwait =>
    rcases mem_pending_step h (event_ne_abandon hcalm) hwait with hwait | hexec
    · exact .waits hwait
    · exact .called hexec
  | called hexec' => exact absurd hexec' hexec
  | starts hstart' => exact absurd hstart' hstart
  | runs hrun' => exact absurd hrun' hrun
  | skipped t hmem hbeg hlive => exact .skipped t (.tail _ hmem) hbeg hlive
  | holds t host r hfind heval hv =>
    rcases among_seen_step ho h hd hexec with hwait | hle
    · exact .waits hwait
    · refine .holds t host r ?_ (heval.mono hle) ?_
      · rw [find_begins fun lower hs => hstart (hs ▸ .head _)]
        exact hfind
      · -- Only its own run, which is not in progress, gives the memo a value.
        rw [value?_of_step h]
        refine Event.value?_apply_of_ne _ hv fun w he => ?_
        obtain ⟨-, ⟨hsig, -⟩ | ⟨r', rest, -, hs, -⟩⟩ := occasion_of_event he
        · rw [ho.consistent.made, maker?_of_isSignal hsig] at ht
          cases ht
        · exact hrun (hs ▸ .head _)

end Step

/-- Every memo whose code only reads is tended, in every state that a program comes to without
failing. -/
theorem Session.tracked [LawfulBEq S.Value] (h : Session L past st)
    (hcalm : ∀ t ∈ st :: past, ∀ message, t.control ≠ .failing message)
    (ht : st.graph.target? c = some s) (hcode : st.graph.code? c = some code)
    (hr : ReadsOnly L (L.body code)) (hd : st.graph.isDisposed c = false) :
    Tracked L past st c s code := by
  induction h with
  | start host a => exact absurd ht (by simp [target?, computation?])
  | @step past st next h hstep ih =>
    have ho : st.Orderly := h.orderly
    rcases target?_of_step hstep ho ht with ht' | ⟨code', he, rfl, rfl⟩
    · have hlt := lt_size_of_target? ht'
      have hcode' : st.graph.code? c = some code := (code_target_step hstep hlt).1 ▸ hcode
      have hd' := ho.not_disposed hstep hd
      have hih := ih (fun t hmem => hcalm t (.tail _ hmem)) ht' hcode' hd'
      have hc : Confined L st c s := h.confined ht' hcode' hr
      exact ⟨hih.running_step ho hstep hc ht' hcode' hr hd',
        hih.tended_step ho hstep hc ht' hcode' hd (hcalm st (by simp))⟩
    · obtain ⟨k, ha⟩ := occasion_of_event he
      have hexec : next.control = .executing st.graph.computations.size := by
        rw [next_acting hstep ha]
        exact congrArg Control.executing (addMemo_computation st.graph code')
      refine ⟨fun hmem => ?_, .called hexec⟩
      obtain ⟨_, _, _, hb⟩ := (confined_new ho hstep he).body hmem
      exact (hb.not_executing hexec).elim
  | @again past st host a h hend ih =>
    have hih := ih (fun t hmem => hcalm t (.tail _ hmem)) ht hcode hd
    have hs : st.stack = [] := Session.stack_eq_nil hend
    refine ⟨fun hmem => absurd (hs ▸ hmem) not_mem_nil, ?_⟩
    cases hih.tended with
    | waits hwait => exact .waits hwait
    | called hexec => exact absurd hend (by simp only [step?, hexec]; split <;> simp)
    | starts hstart => exact absurd (hs ▸ hstart) not_mem_nil
    | runs hrun => exact absurd (hs ▸ hrun) not_mem_nil
    | skipped t hmem hbeg hlive => exact .skipped t (.tail _ hmem) hbeg hlive
    | holds t host' r hfind heval hv =>
      refine .holds t host' r ?_ heval hv
      rw [find_begins (by simp [hs])]
      exact hfind

omit [BEq S.Value] in
/-- Where no batch is open, nothing is due for a memo that has been made, so it holds the right
value, unless its code was left out. -/
theorem Tended.holds_of_closed (htend : Tended L past st c s code) (hc : Confined L st c s)
    (ho : st.Orderly) (h0 : st.graph.depth = 0) (ht : st.graph.target? c = some s)
    (hmade : ∀ k, .making s k ∉ st.stack)
    (hheld : ∀ t ∈ past, t.begins c = true → t.isLiveSource L s = true) :
    ∃ t host r, past.find? (·.begins c) = some t ∧
      Evaluates L (st.graph.seen c) t.host (L.body code) host r ∧
      st.graph.value? s = some (L.value r) := by
  have hopen : opened st.stack = 0 := ho.balanced.symm.trans h0
  have notFirst : ∀ below, FirstRun st.graph c below → (∀ f ∈ below, f ∈ st.stack) → False := by
    intro below hfirst hsub
    rcases hfirst.maker with ⟨s', k, rest, rfl, ht'⟩ | ⟨_, _, _, ht'⟩
    · obtain rfl := Option.some_inj.1 (ht.symm.trans ht')
      exact hmade k (hsub _ (.head _))
    · cases ht.symm.trans ht'
  cases htend with
  | waits hwait =>
    rw [ho.quiet h0] at hwait
    cases hwait
  | called hexec =>
    exact (notFirst _ ((hexec ▸ ho.poised).firstRun_of_executing hopen) fun _ hf => hf).elim
  | starts hstart =>
    obtain ⟨below, hfirst, hsub⟩ := ho.poised.firstRun_of_starting hopen hstart
    exact (notFirst below hfirst hsub).elim
  | runs hrun =>
    obtain ⟨above, p, rest, hb⟩ := hc.body hrun
    obtain ⟨k, lower, rfl⟩ := hb.making ho h0
    refine absurd ?_ (hmade k)
    rw [hb.stack]
    simp
  | skipped t hmem hbeg hlive =>
    cases (hheld t hmem hbeg).symm.trans hlive
  | holds t host r hfind heval hv => exact ⟨t, host, r, hfind, heval, hv⟩

/-- No update is lost.  Where a program that has not failed has no batch open and no drain in
progress, whatever an undisposed computation has read in its last run is as it was read.  If values
are equal only when they are the same, a memo whose code only reads, which has been made and whose
source is in use, then holds what its code gives on the present values of the sources that it
depends on, from the host that its last run found.  A source that was once out of use does not come
back into use. -/
theorem Session.nothing_lost (h : Session L past st)
    (hcalm : ∀ t ∈ st :: past, ∀ message, t.control ≠ .failing message)
    (h0 : st.graph.depth = 0) (hd : st.graph.isDisposed c = false) :
    (∀ s v, (s, v) ∈ readings L past c → st.graph.value? s = some v) ∧
      (LawfulBEq S.Value → ∀ s code, st.graph.target? c = some s →
        st.graph.code? c = some code → ReadsOnly L (L.body code) → (∀ k, .making s k ∉ st.stack) →
        st.isLiveSource L s = true →
        (∀ t ∈ past, t.isLiveSource L s = false → t.begins c = true → st.isLiveSource L s = false) →
        ∃ t, past.find? (·.begins c) = some t ∧
          (∃ host r, Evaluates L (st.graph.seen c) t.host (L.body code) host r) ∧
          ∀ host r, Evaluates L (st.graph.seen c) t.host (L.body code) host r →
            st.graph.value? s = some (L.value r)) := by
  refine ⟨fun s v hr => h.reading_holds hcalm h0 hd hr, ?_⟩
  intro hlawful s code ht hcode hr hmade hlive hgone
  have hheld : ∀ t ∈ past, t.begins c = true → t.isLiveSource L s = true := by
    intro t hmem hbeg
    by_contra hnot
    have hout := hgone t hmem (Bool.eq_false_iff.2 hnot) hbeg
    exact absurd (hlive.symm.trans hout) Bool.false_ne_true.symm
  have htend : Tended L past st c s code := (h.tracked hcalm ht hcode hr hd).tended
  obtain ⟨t, host, r, hfind, heval, hv⟩ :=
    htend.holds_of_closed (h.confined ht hcode hr) h.orderly h0 ht hmade hheld
  refine ⟨t, hfind, ⟨host, r, heval⟩, fun host' r' heval' => ?_⟩
  obtain ⟨-, rfl⟩ := heval.unique heval'
  exact hv

open Sheet

/-- One memo chooses between two signals, another adds up, and an effect writes what the first
holds to a signal that the second reads.  A batch makes the first memo change its choice. -/
def Sheet.switching : Action setting Nat :=
  signals [1, 5, 7, 0] <| memos [.choose 0 1 2, .sum [1, 4, 3]] <| effects [.copy 4 3] <|
    .batch (.fill [(0, 0), (1, 6)]) fun _ => .pure 0

/-- After the batch the second memo has seen the new choice and what the effect wrote. -/
theorem Session.nothing_lost_switching :
    let past := trail language 99 (opening switching)
    let st := (opening switching).run language 99
    Session language past st ∧ (4, 7) ∈ readings language past 1 ∧ st.graph.value? 4 = some 7 ∧
      ∃ t host r, past.find? (·.begins 1) = some t ∧
        Evaluates language (st.graph.seen 1) t.host (language.body (.sum [1, 4, 3])) host r ∧
        st.graph.value? 5 = some r := by
  intro past st
  have h := session_run switching 99
  have hcalm : ∀ t ∈ st :: past, ∀ m, t.control ≠ .failing m :=
    not_failing_of_calm (by decide +kernel)
  have hr : (4, 7) ∈ readings language past 1 := by decide +kernel
  obtain ⟨hread, hmemo⟩ := h.nothing_lost (c := 1) hcalm (by decide +kernel) (by decide +kernel)
  have hstack : st.stack = [] := List.isEmpty_iff.1 (by decide +kernel)
  obtain ⟨t, hfind, ⟨host, r, heval⟩, hv⟩ := hmemo inferInstance 5 (.sum [1, 4, 3])
    (by decide +kernel) (by decide +kernel) (readsOnly_sum _)
    (fun k hk => by rw [hstack] at hk; exact absurd hk not_mem_nil) (by decide +kernel)
    (by decide +kernel)
  exact ⟨h, hr, hread 4 7 hr, t, host, r, hfind, heval, hv host r heval⟩

end ReactiveMarkup.Reactive
