/-
Sources, computations, and who depends on whom.

A source holds a value and lists the computations that have read it.  A
computation runs a piece of code again when a source that it read changes, and
lists the sources that it read in its last run.  A memo is a source whose value
comes from a computation.

Besides these the graph has the state of the scheduler: the computation that is
running, how many batches are open, which computations wait to run, and the tasks
that wait for a flush.
-/

namespace ReactiveMarkup.Reactive

abbrev SourceId := Nat

abbrev ComputationId := Nat

/-- What has to be done before a computation runs again. -/
inductive Cleanup (C : Type) where
  | run (code : C)
  | dispose (child : ComputationId)

/-- Something that can be read. -/
structure Source (V : Type) where
  /-- The value; a memo has none until its first run is over. -/
  value : Option V
  /-- The computations that have read it, the earliest first. -/
  subscribers : List ComputationId := []
  /-- Of a memo, the computation that its value comes from. -/
  maker : Option ComputationId := none

/-- A piece of code that runs again when a source that it read changes. -/
structure Computation (C : Type) where
  code : C
  /-- Of a memo, the source that the result goes to. -/
  target : Option SourceId := none
  /-- The sources that were read in the last run. -/
  sources : List SourceId := []
  /-- What has to be done before the next run, in order. -/
  cleanups : List (Cleanup C) := []
  disposed : Bool := false
  /-- One more than the height of the highest source that was read, or zero. -/
  height : Nat := 0

/-- All sources and computations, and the state of the scheduler. -/
structure Graph (V C : Type) where
  sources : Array (Source V) := #[]
  computations : Array (Computation C) := #[]
  /-- The computation that reads are put down to. -/
  current : Option ComputationId := none
  /-- How many batches are open; a drain counts as one. -/
  depth : Nat := 0
  /-- The computations that wait to run, the earliest first. -/
  pending : List ComputationId := []
  /-- The tasks that wait for a flush, the earliest first. -/
  tasks : List C := []

/-- The list with an element added at its end, unless it is in it. -/
def insertLast {α : Type} [BEq α] (a : α) (l : List α) : List α :=
  if l.contains a then l else l ++ [a]

namespace Graph

variable {V C : Type}

def source? (g : Graph V C) (s : SourceId) : Option (Source V) := g.sources[s]?

def computation? (g : Graph V C) (c : ComputationId) : Option (Computation C) := g.computations[c]?

def modifySource (g : Graph V C) (s : SourceId) (f : Source V → Source V) : Graph V C :=
  { g with sources := g.sources.modify s f }

def modifyComputation (g : Graph V C) (c : ComputationId) (f : Computation C → Computation C) :
    Graph V C :=
  { g with computations := g.computations.modify c f }

def value? (g : Graph V C) (s : SourceId) : Option V := (g.source? s).bind (·.value)

/-- The computations that have read a source. -/
def subscribers (g : Graph V C) (s : SourceId) : List ComputationId :=
  ((g.source? s).map (·.subscribers)).getD []

def sourcesOf (g : Graph V C) (c : ComputationId) : List SourceId :=
  ((g.computation? c).map (·.sources)).getD []

def isDisposed (g : Graph V C) (c : ComputationId) : Bool := (g.computation? c).any (·.disposed)

def height (g : Graph V C) (c : ComputationId) : Nat := ((g.computation? c).map (·.height)).getD 0

def isMemo (g : Graph V C) (c : ComputationId) : Bool :=
  (g.computation? c).any fun d => d.target.isSome

/-- Whether a source can be given a value: it is there, and its value does not come from a
computation. -/
def isSignal (g : Graph V C) (s : SourceId) : Bool := (g.source? s).any fun d => !d.maker.isSome

def setValue (g : Graph V C) (s : SourceId) (v : V) : Graph V C :=
  g.modifySource s fun d => { d with value := some v }

/-! ### Dependencies -/

/-- A computation has read a source of the given height.  A disposed computation depends on
nothing, and on a source that is not there nothing depends. -/
def subscribe (g : Graph V C) (c : ComputationId) (s : SourceId) (height : Nat) : Graph V C :=
  if g.isDisposed c || !(g.source? s).isSome then g
  else
    (g.modifySource s fun d =>
      { d with subscribers := insertLast c d.subscribers }).modifyComputation
      c fun d => { d with sources := insertLast s d.sources, height := max d.height (height + 1) }

def unsubscribe (c : ComputationId) (g : Graph V C) (s : SourceId) : Graph V C :=
  g.modifySource s fun d => { d with subscribers := d.subscribers.erase c }

/-- A computation depends on nothing any more, and has nothing left to clean up. -/
def release (g : Graph V C) (c : ComputationId) : Graph V C :=
  ((g.sourcesOf c).foldl (unsubscribe c) g).modifyComputation
      c fun d => { d with sources := [], cleanups := [], height := 0 }

def cleanups (g : Graph V C) (c : ComputationId) : List (Cleanup C) :=
  ((g.computation? c).map (·.cleanups)).getD []

def addCleanup (g : Graph V C) (c : ComputationId) (x : Cleanup C) : Graph V C :=
  g.modifyComputation c fun d => { d with cleanups := d.cleanups ++ [x] }

def markDisposed (g : Graph V C) (c : ComputationId) : Graph V C :=
  g.modifyComputation c fun d => { d with disposed := true }

/-! ### New parts -/

def addSignal (g : Graph V C) (v : V) : Graph V C × SourceId :=
  ({ g with sources := g.sources.push { value := some v } }, g.sources.size)

/-- A new computation, which is disposed when the one that is running is cleaned up. -/
def addComputation (g : Graph V C) (d : Computation C) : Graph V C × ComputationId :=
  let c := g.computations.size
  let g := { g with computations := g.computations.push d }
  match g.current with
  | some owner => (g.addCleanup owner (.dispose c), c)
  | none => (g, c)

def addEffect (g : Graph V C) (code : C) : Graph V C × ComputationId := g.addComputation { code }

def addMemo (g : Graph V C) (code : C) : Graph V C × SourceId × ComputationId :=
  let s := g.sources.size
  let source : Source V := { value := none, maker := some g.computations.size }
  let (g, c) :=
    { g with sources := g.sources.push source }.addComputation { code, target := some s }
  (g, s, c)

/-! ### The scheduler -/

/-- Lets computations wait to run.  One that waits already keeps its place. -/
def enqueue (g : Graph V C) (cs : List ComputationId) : Graph V C :=
  { g with pending := cs.foldl (fun l c => insertLast c l) g.pending }

def lowest? (g : Graph V C) : List ComputationId → Option ComputationId
  | [] => none
  | c :: rest =>
    match g.lowest? rest with
    | none => some c
    | some d => if g.height d < g.height c then some d else some c

/-- The computation that runs next: the lowest memo that waits, or, if no memo waits, the effect
that has waited longest. -/
def next? (g : Graph V C) : Option ComputationId :=
  match g.lowest? (g.pending.filter g.isMemo) with
  | some c => some c
  | none => g.pending.head?

def takeNext? (g : Graph V C) : Option (ComputationId × Graph V C) :=
  g.next?.map fun c => (c, { g with pending := g.pending.erase c })

end Graph

end ReactiveMarkup.Reactive
