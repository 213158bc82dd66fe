/-
A small language to try the machine on.

Sources hold numbers.  Code words add sources up, choose between two of them by a
third, or give numbers to sources.  The host state lists the sources that are in
use by name, and nothing else.
-/
import ReactiveMarkup.Proofs.Reactive.Drains

namespace ReactiveMarkup.Reactive.Sheet

inductive Word where
  | sum (xs : List SourceId)
  /-- The second source if the first holds one, and else the third. -/
  | choose (t y n : SourceId)
  | copy (x y : SourceId)
  | fill (l : List (SourceId × Nat))
  /-- Reads a source, and makes an effect. -/
  | watch (x : SourceId) (w : Word)
  deriving DecidableEq

/-- Numbers and words, with a list of the sources in use. -/
abbrev setting : Setting where
  Value := Nat
  Result := Nat
  Code := Word
  Host := List SourceId
  Item := Unit

def addUp : Nat → List SourceId → Action setting Nat
  | n, [] => .pure n
  | n, x :: xs => .read x true fun v => addUp (n + v) xs

/-- Gives numbers to sources in turn, and then a result. -/
def fillIn : List (SourceId × Nat) → Action setting Nat → Action setting Nat
  | [], next => next
  | (s, v) :: rest, next => .write s v (fillIn rest next)

def language : Language setting where
  body
    | .sum xs => addUp 0 xs
    | .choose t y n => .read t true fun v => .read (if v = 1 then y else n) true .pure
    | .copy x y => .read x true fun v => .write y v (.pure 0)
    | .fill l => fillIn l (.pure 0)
    | .watch x w => .read x true fun _ => .effect w (.pure 0)
  nothing := 0
  value n := n
  named host := host

theorem readsOnly_addUp (n : Nat) (xs : List SourceId) : ReadsOnly language (addUp n xs) := by
  induction xs generalizing n with
  | nil => exact .pure (S := setting) n
  | cons x xs ih => exact .read fun v => ih (n + v)

theorem readsOnly_sum (xs : List SourceId) : ReadsOnly language (language.body (.sum xs)) :=
  readsOnly_addUp 0 xs

theorem readsOnly_choose (t y n : SourceId) : ReadsOnly language (language.body (.choose t y n)) :=
  .read fun _ => .read fun v => .pure (S := setting) v

/-- Whether a word stands for code that only reads. -/
def Word.reads : Word → Bool
  | .sum _ | .choose _ _ _ => true
  | _ => false

theorem memosRead {st : State setting}
    (h : (st.graph.computations.all fun d => d.target.isNone || d.code.reads) = true) :
    st.MemosRead language := by
  intro c s code ht hcode
  cases hd : st.graph.computation? c with
  | none => simp [Graph.target?, hd] at ht
  | some d =>
    obtain rfl : d.code = code := by simpa [Graph.code?, hd] using hcode
    have htarget : d.target = some s := by simpa [Graph.target?, hd] using ht
    obtain ⟨hc, hget⟩ := Array.getElem?_eq_some_iff.1 hd
    have hreads := Array.all_eq_true.1 h c hc
    rw [hget, htarget] at hreads
    cases hw : d.code with
    | sum xs => exact readsOnly_sum xs
    | choose t y n => exact readsOnly_choose t y n
    | _ => simp [hw, Word.reads] at hreads

def signals : List Nat → Action setting Nat → Action setting Nat
  | [], next => next
  | v :: rest, next => .signal v fun s => .change (· ++ [s]) (signals rest next)

def memos : List Word → Action setting Nat → Action setting Nat
  | [], next => next
  | w :: rest, next => .memo w fun s => .change (· ++ [s]) (memos rest next)

def effects : List Word → Action setting Nat → Action setting Nat
  | [], next => next
  | w :: rest, next => .effect w (effects rest next)

/-- The state that a program begins in, with nothing in use. -/
def opening (a : Action setting Nat) : State setting := { host := [], control := .acting a }

theorem session_run (a : Action setting Nat) (n : Nat) :
    Session language (trail language n (opening a)) ((opening a).run language n) := by
  have h := (Session.start (L := language) [] a).steps (steps_run n (opening a))
  rwa [List.append_nil] at h

def calm (states : List (State setting)) : Bool :=
  states.all fun t => match t.control with
    | .failing _ => false
    | _ => true

theorem not_failing_of_calm {states} (h : calm states = true) :
    ∀ t ∈ states, ∀ message, t.control ≠ .failing message := by
  intro t ht message hm
  have hcalm := List.all_eq_true.1 h t ht
  rw [hm] at hcalm
  cases hcalm

def writeless (states : List (State setting)) : Bool :=
  states.all fun t => match t.control with
    | .acting (.write _ _ _) => false
    | _ => true

theorem not_write_of_writeless {states} (h : writeless states = true) :
    ∀ t ∈ states, ∀ s v k, t.control ≠ .acting (.write s v k) := by
  intro t ht s v k hw
  have hless := List.all_eq_true.1 h t ht
  rw [hw] at hless
  cases hless

def atWrite (st : State setting) (s : SourceId) : Bool :=
  match st.control with
  | .acting (.write t _ _) => t == s
  | _ => false

theorem exists_of_atWrite {st} (h : atWrite st s = true) :
    ∃ v k, st.control = .acting (.write s v k) := by
  unfold atWrite at h
  split at h
  · rename_i t v k hw
    obtain rfl : t = s := by simpa using h
    exact ⟨v, k, hw⟩
  · cases h

/-- Whether one of a list of states reads a source that holds a number. -/
def reading (states : List (State setting)) (s : SourceId) (v : Nat) : Bool :=
  states.any fun t => t.graph.value? s == some v && match t.control with
    | .acting (.read r _ _) => r == s
    | _ => false

theorem exists_of_reading {states} (h : reading states s v = true) :
    ∃ t ∈ states, (∃ b k, t.control = .acting (.read s b k)) ∧ t.graph.value? s = some v := by
  obtain ⟨t, ht, hread⟩ := List.any_eq_true.1 h
  rw [Bool.and_eq_true, beq_iff_eq] at hread
  obtain ⟨hv, hread⟩ := hread
  split at hread
  · rename_i r b k ha
    obtain rfl : r = s := by simpa using hread
    exact ⟨t, ht, ⟨b, k, ha⟩, hv⟩
  · cases hread

/-- Whether a state is at the beginning of a drain with so many frames under it, and goes on within
it for so many steps. -/
def drains (start : State setting) (below n : Nat) : Bool :=
  (match start.control, start.stack with
    | .giving _, .draining _ :: base => base.length == below
    | _, _ => false) &&
  (start.run language n :: trail language n start).all fun t => below < t.stack.length

theorem drain_of_drains {start} {below n} (h : drains start below n = true) :
    ∃ x base, Drain language x base start (trail language n start) (start.run language n) := by
  simp only [drains, Bool.and_eq_true, List.all_eq_true, decide_eq_true_eq] at h
  obtain ⟨hbegin, hwithin⟩ := h
  split at hbegin
  · rename_i r x base hr hs
    obtain rfl : base.length = below := by simpa using hbegin
    exact ⟨x, base, .of_run hr hs n hwithin⟩
  · cases hbegin

end ReactiveMarkup.Reactive.Sheet
