/-
How dependencies come and go.

What can be seen of a graph is what its sources and computations hold.  Each
operation is described here by what it does to that; later proofs use these
descriptions and do not open the operations again.
-/
import Mathlib.Tactic.Common
import ReactiveMarkup.Reactive.Graph

namespace ReactiveMarkup.Reactive

open List

section InsertLast

variable {α : Type} [BEq α] [LawfulBEq α] {a b : α} {l : List α}

@[simp] theorem mem_insertLast : b ∈ insertLast a l ↔ b ∈ l ∨ b = a := by
  grind [insertLast]

theorem nodup_insertLast (h : l.Nodup) : (insertLast a l).Nodup := by
  grind [insertLast]

theorem mem_foldl_insertLast {new : List α} :
    b ∈ new.foldl (fun l c => insertLast c l) l ↔ b ∈ l ∨ b ∈ new := by
  induction new generalizing l with
  | nil => simp
  | cons c rest ih => rw [foldl_cons, ih, mem_insertLast, mem_cons, or_assoc]

theorem nodup_foldl_insertLast {new : List α} (h : l.Nodup) :
    (new.foldl (fun l c => insertLast c l) l).Nodup := by
  induction new generalizing l with
  | nil => exact h
  | cons c rest ih => exact ih (nodup_insertLast h)

end InsertLast

variable {β : Type}

theorem map_getElem?_modify {α : Type} {f : α → β} {k} (hf : ∀ x, f (k x) = f x) (a : Array α)
    (i j : Nat) : ((a.modify i k)[j]?).map f = (a[j]?).map f := by
  rw [Array.getElem?_modify]
  split_ifs
  · rw [Option.map_map]
    exact congrArg (fun k => (a[j]?).map k) (funext hf)
  · rfl

namespace Graph

variable {V C : Type} (g : Graph V C)

/-- The source that a memo writes. -/
def target? (c : ComputationId) : Option SourceId := (g.computation? c).bind (·.target)

def maker? (s : SourceId) : Option ComputationId := (g.source? s).bind (·.maker)

def code? (c : ComputationId) : Option C := (g.computation? c).map (·.code)

/-- What is running, how many batches are open and which tasks wait. -/
def schedule : Option ComputationId × Nat × List C := (g.current, g.depth, g.tasks)

theorem source?_modifySource (s t : SourceId) (f : Source V → Source V) :
    (g.modifySource s f).source? t = if s = t then (g.source? t).map f else g.source? t :=
  Array.getElem?_modify

theorem computation?_modifyComputation (c d : ComputationId) (f : Computation C → Computation C) :
    (g.modifyComputation c f).computation? d =
      (g.computation? d).map fun x => if c = d then f x else x := by
  refine Array.getElem?_modify.trans ?_
  split_ifs
  · rfl
  · exact Option.map_id'.symm

variable {g} {g' : Graph V C}

section Fields

variable {c : ComputationId} {s : SourceId}

theorem current_of_schedule (h : g'.schedule = g.schedule) : g'.current = g.current :=
  congrArg Prod.fst h

theorem depth_of_schedule (h : g'.schedule = g.schedule) : g'.depth = g.depth :=
  congrArg (fun x => x.2.1) h

theorem tasks_of_schedule (h : g'.schedule = g.schedule) : g'.tasks = g.tasks :=
  congrArg (fun x => x.2.2) h

theorem value?_of_map (h : (g'.source? s).map (·.value) = (g.source? s).map (·.value)) :
    g'.value? s = g.value? s := by
  unfold value?
  cases hs : g.source? s <;> cases hs' : g'.source? s <;> simp_all

theorem maker?_of_map (h : (g'.source? s).map (·.maker) = (g.source? s).map (·.maker)) :
    g'.maker? s = g.maker? s := by
  unfold maker?
  cases hs : g.source? s <;> cases hs' : g'.source? s <;> simp_all

theorem isDisposed_of_map
    (h : (g'.computation? c).map (·.disposed) = (g.computation? c).map (·.disposed)) :
    g'.isDisposed c = g.isDisposed c := by
  unfold isDisposed
  cases hc : g.computation? c <;> cases hc' : g'.computation? c <;> simp_all

theorem target?_of_map
    (h : (g'.computation? c).map (·.target) = (g.computation? c).map (·.target)) :
    g'.target? c = g.target? c := by
  unfold target?
  cases hc : g.computation? c <;> cases hc' : g'.computation? c <;> simp_all

theorem cleanups_of_map
    (h : (g'.computation? c).map (·.cleanups) = (g.computation? c).map (·.cleanups)) :
    g'.cleanups c = g.cleanups c := by
  unfold cleanups
  rw [h]

theorem sourcesOf_of_map
    (h : (g'.computation? c).map (·.sources) = (g.computation? c).map (·.sources)) :
    g'.sourcesOf c = g.sourcesOf c := by
  unfold sourcesOf
  rw [h]

theorem subscribers_of_map
    (h : (g'.source? s).map (·.subscribers) = (g.source? s).map (·.subscribers)) :
    g'.subscribers s = g.subscribers s := by
  unfold subscribers
  rw [h]

end Fields

theorem lt_size_of_mem_sourcesOf (h : s ∈ g.sourcesOf c) : c < g.computations.size := by
  by_contra hc
  rw [sourcesOf, computation?, Array.getElem?_eq_none (Nat.le_of_not_lt hc)] at h
  cases h

theorem lt_size_of_target? (h : g.target? c = some s) : c < g.computations.size := by
  by_contra hc
  rw [target?, computation?, Array.getElem?_eq_none (Nat.le_of_not_lt hc)] at h
  cases h

theorem isMemo_iff : g.isMemo c = true ↔ ∃ s, g.target? c = some s := by
  unfold isMemo target?
  cases g.computation? c with
  | none => simp
  | some d => simp [Option.isSome_iff_exists]

theorem isSome_source?_of_maker? (h : g.maker? s = some c) : (g.source? s).isSome := by
  cases hs : g.source? s with
  | none => simp [maker?, hs] at h
  | some d => rfl

theorem isSome_source?_of_value? (h : g.value? s = some v) : (g.source? s).isSome := by
  cases hs : g.source? s with
  | none => simp [value?, hs] at h
  | some d => rfl

theorem maker?_of_isSignal (h : g.isSignal s = true) : g.maker? s = none := by
  unfold isSignal at h
  unfold maker?
  cases hs : g.source? s with
  | none => rfl
  | some d =>
    rw [hs] at h
    exact Option.not_isSome_iff_eq_none.1 (by simpa using h)

/-! ### A read -/

section Subscribe

variable {c d : ComputationId} {s t : SourceId} {h : Nat}

/-- Whether a read of a source by a computation is noted. -/
def Notes (g : Graph V C) (c : ComputationId) (s : SourceId) : Prop :=
  g.isDisposed c = false ∧ (g.source? s).isSome

instance (g : Graph V C) (c : ComputationId) (s : SourceId) : Decidable (g.Notes c s) :=
  inferInstanceAs (Decidable (_ ∧ _))

theorem subscribe_of_not_notes (hn : ¬ g.Notes c s) : g.subscribe c s h = g := by
  unfold subscribe
  rw [if_pos]
  by_contra hc
  simp only [Bool.or_eq_true, not_or, Bool.not_eq_true, Bool.not_eq_false'] at hc
  exact hn hc

theorem subscribe_of_notes (hn : g.Notes c s) :
    g.subscribe c s h =
      (g.modifySource s fun d =>
        { d with subscribers := insertLast c d.subscribers }).modifyComputation
        c fun d =>
          { d with sources := insertLast s d.sources, height := max d.height (h + 1) } := by
  unfold subscribe
  rw [if_neg]
  simp only [Bool.or_eq_true, not_or, Bool.not_eq_true, Bool.not_eq_false']
  exact hn

@[simp] theorem size_computations_subscribe :
    (g.subscribe c s h).computations.size = g.computations.size := by
  by_cases hn : g.Notes c s
  · rw [subscribe_of_notes hn]
    exact Array.size_modify
  · rw [subscribe_of_not_notes hn]

theorem schedule_subscribe : (g.subscribe c s h).schedule = g.schedule := by
  unfold subscribe
  split <;> rfl

theorem depth_subscribe : (g.subscribe c s h).depth = g.depth :=
  depth_of_schedule schedule_subscribe

theorem current_subscribe : (g.subscribe c s h).current = g.current :=
  current_of_schedule schedule_subscribe

theorem pending_subscribe : (g.subscribe c s h).pending = g.pending := by
  unfold subscribe
  split <;> rfl

theorem source?_subscribe_map {f : Source V → β} (hf : ∀ d l, f { d with subscribers := l } = f d) :
    ((g.subscribe c s h).source? t).map f = (g.source? t).map f := by
  by_cases hn : g.Notes c s
  · rw [subscribe_of_notes hn]
    exact map_getElem?_modify (fun d => hf d _) g.sources s t
  · rw [subscribe_of_not_notes hn]

theorem computation?_subscribe :
    (g.subscribe c s h).computation? d = (g.computation? d).map fun x =>
    if c = d ∧ g.Notes c s then
      { x with sources := insertLast s x.sources, height := max x.height (h + 1) }
    else x := by
  by_cases hn : g.Notes c s
  · rw [subscribe_of_notes hn, computation?_modifyComputation]
    simp only [hn, and_true]
    rfl
  · rw [subscribe_of_not_notes hn]
    simp [hn]

theorem computation?_subscribe_ne (hd : d ≠ c) :
    (g.subscribe c s h).computation? d = g.computation? d := by
  simp [computation?_subscribe, Ne.symm hd]

theorem subscribers_subscribe : (g.subscribe c s h).subscribers t =
    if s = t ∧ g.Notes c s then insertLast c (g.subscribers t) else g.subscribers t := by
  by_cases hn : g.Notes c s
  · have hs : (g.subscribe c s h).source? t = _ :=
      (congrArg (·.source? t) (subscribe_of_notes hn)).trans (source?_modifySource g s t _)
    obtain ⟨x, hx⟩ := Option.isSome_iff_exists.1 hn.2
    by_cases hst : s = t
    · subst hst
      simp [subscribers, hs, hx, hn]
    · simp [subscribers, hs, hst]
  · rw [subscribe_of_not_notes hn]
    simp [hn]

theorem nodup_subscribers_subscribe (hg : ∀ t, (g.subscribers t).Nodup) :
    ((g.subscribe c s h).subscribers t).Nodup := by
  rw [subscribers_subscribe]
  split_ifs
  · exact nodup_insertLast (hg t)
  · exact hg t

theorem mem_subscribers_subscribe :
    d ∈ (g.subscribe c s h).subscribers t ↔
      d ∈ g.subscribers t ∨ (d = c ∧ t = s ∧ g.Notes c s) := by
  rw [subscribers_subscribe]
  split_ifs with hst
  · obtain ⟨rfl, hn⟩ := hst
    simp [hn]
  · simp [eq_comm, hst]

theorem mem_sourcesOf_subscribe (hc : c < g.computations.size) :
    t ∈ (g.subscribe c s h).sourcesOf d ↔
      t ∈ g.sourcesOf d ∨ (d = c ∧ t = s ∧ g.Notes c s) := by
  rw [sourcesOf, computation?_subscribe, sourcesOf]
  by_cases hd : c = d ∧ g.Notes c s
  · obtain ⟨rfl, hn⟩ := hd
    have hx : g.computation? c = some g.computations[c] := Array.getElem?_eq_getElem hc
    simp [hx, hn]
  · simp only [if_neg hd, Option.map_id']
    exact ⟨.inl, fun h => h.resolve_right fun h => hd ⟨h.1.symm, h.2.2⟩⟩

end Subscribe

/-! ### A reset -/

section Release

variable {c d : ComputationId} {s t : SourceId} {l : List SourceId}

theorem foldl_unsubscribe_eq :
    l.foldl (unsubscribe c) g = { g with sources := (l.foldl (unsubscribe c) g).sources } := by
  induction l generalizing g with
  | nil => rfl
  | cons s rest ih => exact ih

theorem computations_foldl_unsubscribe :
    (l.foldl (unsubscribe c) g).computations = g.computations := by
  rw [foldl_unsubscribe_eq]

theorem schedule_release : (g.release c).schedule = g.schedule := by
  rw [release, foldl_unsubscribe_eq]
  rfl

theorem depth_release : (g.release c).depth = g.depth := depth_of_schedule schedule_release

theorem current_release : (g.release c).current = g.current := current_of_schedule schedule_release

theorem pending_release : (g.release c).pending = g.pending := by
  rw [release, foldl_unsubscribe_eq]
  rfl

theorem source?_foldl_unsubscribe_map {f : Source V → β}
    (hf : ∀ d l, f { d with subscribers := l } = f d) :
    ((l.foldl (unsubscribe c) g).source? t).map f = (g.source? t).map f := by
  induction l generalizing g with
  | nil => rfl
  | cons s rest ih =>
    rw [foldl_cons, ih]
    exact map_getElem?_modify (fun d => hf d _) g.sources s t

theorem subscribers_unsubscribe :
    (unsubscribe c g s).subscribers t =
      if s = t then (g.subscribers t).erase c else g.subscribers t := by
  rw [subscribers, unsubscribe, source?_modifySource]
  split_ifs
  · rw [subscribers]
    cases g.source? t <;> rfl
  · rfl

theorem nodup_subscribers_foldl_unsubscribe (hg : ∀ t, (g.subscribers t).Nodup) :
    ((l.foldl (unsubscribe c) g).subscribers t).Nodup := by
  induction l generalizing g with
  | nil => exact hg t
  | cons s rest ih =>
    refine ih fun u => ?_
    rw [subscribers_unsubscribe]
    split_ifs
    · exact (hg u).erase c
    · exact hg u

theorem mem_subscribers_foldl_unsubscribe (hg : ∀ t, (g.subscribers t).Nodup) :
    d ∈ (l.foldl (unsubscribe c) g).subscribers t ↔
      d ∈ g.subscribers t ∧ ¬ (d = c ∧ t ∈ l) := by
  induction l generalizing g with
  | nil => simp
  | cons s rest ih =>
    -- A list without duplicates loses a computation for good when it is erased once.
    have hnodup : ∀ u, ((unsubscribe c g s).subscribers u).Nodup := fun u =>
      nodup_subscribers_foldl_unsubscribe (l := [s]) hg
    rw [foldl_cons, ih hnodup, subscribers_unsubscribe]
    by_cases hst : s = t
    · subst hst
      rw [if_pos rfl, (hg s).mem_erase_iff]
      tauto
    · rw [if_neg hst]
      simp [Ne.symm hst]

@[simp] theorem size_computations_release :
    (g.release c).computations.size = g.computations.size :=
  Array.size_modify.trans (congrArg Array.size computations_foldl_unsubscribe)

theorem source?_release_map {f : Source V → β} (hf : ∀ d l, f { d with subscribers := l } = f d) :
    ((g.release c).source? t).map f = (g.source? t).map f :=
  source?_foldl_unsubscribe_map hf

theorem mem_subscribers_release (hg : ∀ t, (g.subscribers t).Nodup) :
    d ∈ (g.release c).subscribers t ↔ d ∈ g.subscribers t ∧ ¬ (d = c ∧ t ∈ g.sourcesOf c) :=
  mem_subscribers_foldl_unsubscribe hg

theorem nodup_subscribers_release (hg : ∀ t, (g.subscribers t).Nodup) :
    ((g.release c).subscribers t).Nodup :=
  nodup_subscribers_foldl_unsubscribe hg

theorem subscribers_release_eq_nil (ht : g.subscribers t = []) :
    (g.release c).subscribers t = [] := by
  show ((g.sourcesOf c).foldl (unsubscribe c) g).subscribers t = []
  generalize g.sourcesOf c = l
  induction l generalizing g with
  | nil => exact ht
  | cons s rest ih =>
    refine ih ?_
    rw [subscribers_unsubscribe, ht]
    exact ite_self _

theorem computation?_release : (g.release c).computation? d = (g.computation? d).map fun x =>
    if c = d then { x with sources := [], cleanups := [], height := 0 } else x := by
  rw [release, computation?_modifyComputation, computation?, computations_foldl_unsubscribe]
  rfl

theorem computation?_release_ne (hd : d ≠ c) : (g.release c).computation? d = g.computation? d := by
  simp [computation?_release, Ne.symm hd]

theorem computation?_release_map {f : Computation C → β}
    (hf : ∀ x, f { x with sources := [], cleanups := [], height := 0 } = f x) :
    ((g.release c).computation? d).map f = (g.computation? d).map f := by
  refine (map_getElem?_modify hf _ c d).trans ?_
  rw [computations_foldl_unsubscribe]
  rfl

theorem sourcesOf_release : (g.release c).sourcesOf d = if c = d then [] else g.sourcesOf d := by
  rw [sourcesOf, computation?_release]
  cases hd : g.computation? d <;> split_ifs <;> simp [sourcesOf, hd]

theorem cleanups_release : (g.release c).cleanups d = if c = d then [] else g.cleanups d := by
  rw [cleanups, computation?_release]
  cases hd : g.computation? d <;> split_ifs <;> simp [cleanups, hd]

end Release

/-! ### Values and new parts -/

section Parts

variable {c d : ComputationId} {s t : SourceId} {v : V} {x : Computation C}

theorem source?_setValue :
    (g.setValue s v).source? t =
      if s = t then (g.source? t).map fun d => { d with value := some v } else g.source? t :=
  source?_modifySource g s t _

theorem source?_addSignal :
    (g.addSignal v).1.source? t =
      if t = g.sources.size then some { value := some v } else g.source? t :=
  Array.getElem?_push

theorem addComputation_eq : (g.addComputation x).1 =
    { g with computations := (g.addComputation x).1.computations } := by
  cases h : g.current with
  | none => simp only [addComputation, h]
  | some o => simp only [addComputation, h]; rfl

theorem sources_addComputation : (g.addComputation x).1.sources = g.sources := by
  rw [addComputation_eq]

theorem schedule_addComputation : (g.addComputation x).1.schedule = g.schedule := by
  rw [addComputation_eq]
  rfl

theorem depth_addComputation : (g.addComputation x).1.depth = g.depth :=
  depth_of_schedule schedule_addComputation

theorem pending_addComputation : (g.addComputation x).1.pending = g.pending := by
  rw [addComputation_eq]

theorem addComputation_snd : (g.addComputation x).2 = g.computations.size := by
  cases h : g.current <;> simp only [addComputation, h]

theorem size_addComputation :
    (g.addComputation x).1.computations.size = g.computations.size + 1 := by
  cases h : g.current <;> simp [addComputation, h, addCleanup, modifyComputation]

theorem computation?_addComputation_new (h : g.current ≠ some g.computations.size) :
    (g.addComputation x).1.computation? g.computations.size = some x := by
  cases hc : g.current with
  | none =>
    simp only [addComputation, hc]
    exact Array.getElem?_push_size
  | some o =>
    simp only [addComputation, hc]
    refine (computation?_modifyComputation _ o _ _).trans ?_
    simp only [if_neg fun ho => h (hc.trans (congrArg some ho)), Option.map_id']
    exact Array.getElem?_push_size

theorem computation?_addComputation (hd : d ≠ g.computations.size) :
    (g.addComputation x).1.computation? d = (g.computation? d).map fun y =>
      if g.current = some d then
        { y with cleanups := y.cleanups ++ [.dispose g.computations.size] }
      else y := by
  have hpush : (g.computations.push x)[d]? = g.computation? d :=
    Array.getElem?_push.trans (if_neg hd)
  cases hc : g.current with
  | none =>
    simp only [addComputation, hc]
    exact hpush.trans Option.map_id'.symm
  | some o =>
    simp only [addComputation, hc, Option.some_inj]
    refine (computation?_modifyComputation _ o d _).trans ?_
    exact congrArg _ hpush

theorem computation?_size : g.computation? g.computations.size = none :=
  Array.getElem?_eq_none (Nat.le_refl _)

theorem source?_size : g.source? g.sources.size = none :=
  Array.getElem?_eq_none (Nat.le_refl _)

theorem subscribers_of_new (hy : y.subscribers = [])
    (h : ∀ t, g'.source? t = if t = g.sources.size then some y else g.source? t) (t : SourceId) :
    g'.subscribers t = g.subscribers t := by
  rw [subscribers, h]
  split_ifs with ht
  · rw [ht, subscribers, source?_size]
    exact hy
  · rfl

section Memo

variable (g) (code : C)

/-- The graph with the source of a new memo, but not yet its computation. -/
def addMemoSource : Graph V C :=
  { g with sources := g.sources.push { value := none, maker := some g.computations.size } }

theorem addMemo_fst :
    (g.addMemo code).1 =
      (g.addMemoSource.addComputation { code, target := some g.sources.size }).1 := rfl

theorem addMemo_computation : (g.addMemo code).2.2 = g.computations.size :=
  addComputation_snd

theorem source?_addMemo :
    (g.addMemo code).1.source? t =
      if t = g.sources.size then some { value := none, maker := some g.computations.size }
      else g.source? t := by
  rw [addMemo_fst, source?, sources_addComputation]
  exact Array.getElem?_push

theorem schedule_addMemo : (g.addMemo code).1.schedule = g.schedule :=
  schedule_addComputation

theorem depth_addMemo : (g.addMemo code).1.depth = g.depth :=
  depth_of_schedule (schedule_addMemo g code)

theorem current_addMemo : (g.addMemo code).1.current = g.current :=
  current_of_schedule (schedule_addMemo g code)

theorem pending_addMemo : (g.addMemo code).1.pending = g.pending := by
  rw [addMemo_fst, pending_addComputation]
  rfl

theorem size_addMemo : (g.addMemo code).1.computations.size = g.computations.size + 1 := by
  rw [addMemo_fst, size_addComputation]
  rfl

end Memo

theorem computation?_markDisposed_map {f : Computation C → β}
    (hf : ∀ x, f { x with disposed := true } = f x) :
    ((g.markDisposed c).computation? d).map f = (g.computation? d).map f :=
  map_getElem?_modify hf g.computations c d

end Parts

/-! ### What runs next -/

section Next

variable {c : ComputationId} {l : List ComputationId}

theorem lowest?_eq_none : g.lowest? l = none ↔ l = [] := by
  cases l with
  | nil => simp [lowest?]
  | cons c rest =>
    simp only [lowest?]
    cases g.lowest? rest with
    | none => simp
    | some d => by_cases h : g.height d < g.height c <;> simp [h]

theorem lowest?_eq_some (h : g.lowest? l = some c) :
    c ∈ l ∧ ∀ d ∈ l, g.height c ≤ g.height d := by
  induction l generalizing c with
  | nil => simp [lowest?] at h
  | cons b rest ih =>
    simp only [lowest?] at h
    cases hr : g.lowest? rest with
    | none =>
      rw [hr] at h
      cases h
      rw [lowest?_eq_none] at hr
      simp [hr]
    | some d =>
      rw [hr] at h
      obtain ⟨hmem, hle⟩ := ih hr
      simp only at h
      split_ifs at h with hlt <;> cases h
      · exact ⟨mem_cons_of_mem _ hmem, forall_mem_cons.2 ⟨Nat.le_of_lt hlt, hle⟩⟩
      · exact ⟨mem_cons_self, forall_mem_cons.2 ⟨Nat.le_refl _, fun e he =>
          Nat.le_trans (Nat.le_of_not_lt hlt) (hle e he)⟩⟩

theorem next?_eq_none : g.next? = none ↔ g.pending = [] := by
  unfold next?
  cases h : g.lowest? (g.pending.filter g.isMemo) with
  | none => exact head?_eq_none_iff
  | some c =>
    refine ⟨fun hn => absurd hn (by simp), fun hp => ?_⟩
    rw [hp] at h
    exact absurd h (by simp [lowest?])

theorem next?_eq_some (h : g.next? = some c) :
    (g.isMemo c = true ∧ c ∈ g.pending ∧
      ∀ d ∈ g.pending, g.isMemo d = true → g.height c ≤ g.height d) ∨
    ((∀ d ∈ g.pending, g.isMemo d = false) ∧ ∃ rest, g.pending = c :: rest) := by
  unfold next? at h
  cases hl : g.lowest? (g.pending.filter g.isMemo) with
  | none =>
    rw [hl] at h
    rw [lowest?_eq_none, filter_eq_nil_iff] at hl
    obtain ⟨rest, hrest⟩ := head?_eq_some_iff.1 h
    exact .inr ⟨fun d hd => Bool.eq_false_iff.2 (hl d hd), rest, hrest⟩
  | some d =>
    rw [hl] at h
    cases h
    obtain ⟨hmem, hle⟩ := lowest?_eq_some hl
    rw [mem_filter] at hmem
    exact .inl ⟨hmem.2, hmem.1, fun e he hm => hle e (mem_filter.2 ⟨he, hm⟩)⟩

theorem mem_pending_of_next? (h : g.next? = some c) : c ∈ g.pending := by
  rcases next?_eq_some h with ⟨-, hc, -⟩ | ⟨-, rest, hrest⟩
  · exact hc
  · rw [hrest]
    exact .head _

end Next

/-! ### Links kept from both sides -/

/-- Dependencies are noted at both their ends, and what else holds of a graph at all times. -/
structure Consistent (g : Graph V C) : Prop where
  /-- A source lists the computations that list it. -/
  linked : ∀ s c, c ∈ g.subscribers s ↔ s ∈ g.sourcesOf c
  /-- A source lists a computation once. -/
  nodup : ∀ s, (g.subscribers s).Nodup
  /-- A disposed computation depends on nothing. -/
  released : ∀ c, g.isDisposed c = true → g.sourcesOf c = []
  /-- A computation disposes of none that is older than itself. -/
  younger : ∀ c d, .dispose d ∈ g.cleanups c → c < d
  /-- A memo's source and its computation know of each other. -/
  made : ∀ s c, g.target? c = some s ↔ g.maker? s = some c

theorem consistent_empty : Consistent ({} : Graph V C) where
  linked s c := by simp [subscribers, sourcesOf, source?, computation?]
  nodup s := by simp [subscribers, source?]
  released c h := by simp [isDisposed, computation?] at h
  younger c d h := by simp [cleanups, computation?] at h
  made s c := by simp [target?, maker?, source?, computation?]

namespace Consistent

variable {c : ComputationId} {s : SourceId}

theorem not_mem_subscribers (hg : g.Consistent) (hc : g.isDisposed c = true) (s : SourceId) :
    c ∉ g.subscribers s := by
  rw [hg.linked, hg.released c hc]
  exact not_mem_nil

theorem lt_size_of_mem_subscribers (hg : g.Consistent) (h : c ∈ g.subscribers s) :
    c < g.computations.size :=
  lt_size_of_mem_sourcesOf ((hg.linked s c).1 h)

/-- What is consistent about a graph is so because of its sources and computations. -/
theorem congr (hg : g.Consistent) (hs : g'.sources = g.sources)
    (hc : g'.computations = g.computations) : g'.Consistent := by
  obtain ⟨sources, computations, current, depth, pending, tasks⟩ := g
  obtain ⟨sources', computations', current', depth', pending', tasks'⟩ := g'
  obtain rfl : sources' = sources := hs
  obtain rfl : computations' = computations := hc
  exact ⟨hg.linked, hg.nodup, hg.released, hg.younger, hg.made⟩

end Consistent

end Graph

end ReactiveMarkup.Reactive
