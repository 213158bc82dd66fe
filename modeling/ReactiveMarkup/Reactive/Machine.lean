/-
Running code.

The machine does one small step at a time.  What is still to be done when the
code at hand is over is kept on a stack of frames.  Frames also undo what was set
up for a while: the running computation, the number of open batches.  They do so
too when code fails and the failure passes through them.

What nothing holds on to is gone: a source is in use while the host or an
operation in progress holds it, and a computation is in use while it waits, runs,
or is subscribed to a source in use.  Nothing happens when something goes out of
use, so it is enough to ask when it matters: a memo that is gone is not computed
any more, and a computation that is gone is not disposed.
-/
import ReactiveMarkup.Reactive.Action

namespace ReactiveMarkup.Reactive

/-- What is to be done with the result of the code at hand. -/
inductive Frame (S : Setting) where
  /-- Goes on after a call that holds on to items. -/
  | returning (held : List S.Item) (k : S.Result → Action S S.Result)
  /-- Goes on after code that may fail. -/
  | catching (k : Except String S.Result → Action S S.Result)
  /-- Goes on with an action of its own. -/
  | resuming (next : Action S S.Result)
  | batching (k : S.Result → Action S S.Result)
  /-- Sets the running computation back. -/
  | restoring (previous : Option ComputationId)
  /-- Gives a memo its value. -/
  | storing (s : SourceId)
  /-- Goes on after the first run of a memo. -/
  | making (s : SourceId) (k : SourceId → Action S S.Result)
  /-- Does the rest of the cleaning up for a computation. -/
  | cleaning (c : ComputationId) (rest : List (Cleanup S.Code))
  | starting (c : ComputationId)
  /-- Runs the computations that wait, on account of a write to a source or a batch. -/
  | draining (s : Option SourceId)
  /-- Runs the tasks that wait, after so many. -/
  | flushing (n : Nat) (k : Nat → Action S S.Result)

inductive Control (S : Setting) where
  | acting (a : Action S S.Result)
  | executing (c : ComputationId)
  | giving (r : S.Result)
  | failing (message : String)

structure State (S : Setting) where
  host : S.Host
  graph : Graph S.Value S.Code := {}
  control : Control S
  stack : List (Frame S) := []

/-! ### What is in use -/

def Frame.sources {S : Setting} : Frame S → List SourceId
  | .storing s | .making s _ | .draining (some s) => [s]
  | _ => []

def Frame.computations {S : Setting} : Frame S → List ComputationId
  | .cleaning c _ | .starting c | .restoring (some c) => [c]
  | _ => []

def Frame.items {S : Setting} : Frame S → List S.Item
  | .returning held _ => held
  | _ => []

namespace State

variable {S : Setting}

def liveSources (L : Language S) (st : State S) : List SourceId :=
  L.named st.host ++ st.stack.flatMap Frame.sources

def isLiveSource (L : Language S) (st : State S) (s : SourceId) : Bool :=
  (st.liveSources L).contains s

/-- The computations that an operation in progress holds on to. -/
def engaged (st : State S) : List ComputationId :=
  (match st.control with | .executing c => [c] | _ => []) ++ st.graph.current.toList ++
    st.stack.flatMap Frame.computations

def liveComputations (L : Language S) (st : State S) : List ComputationId :=
  st.graph.pending ++ st.engaged ++ (st.liveSources L).flatMap st.graph.subscribers

def isLive (L : Language S) (st : State S) (c : ComputationId) : Bool :=
  (st.liveComputations L).contains c

/-- The height of a source: that of the computation of a memo, if it is in use, or zero. -/
def sourceHeight (L : Language S) (st : State S) (s : SourceId) : Nat :=
  match (st.graph.source? s).bind (·.maker) with
  | some c => if st.isLive L c then st.graph.height c else 0
  | none => 0

/-- What code can see of the machine.  How many batches are open is hidden from it. -/
def view (L : Language S) (st : State S) : View S where
  host := st.host
  graph := { st.graph with depth := 0 }
  held := st.stack.flatMap Frame.items
  living := (st.liveComputations L).eraseDups.filterMap fun c =>
    (st.graph.computation? c).map (·.code)

/-! ### Parts of steps -/

def act (st : State S) (a : Action S S.Result) : State S := { st with control := .acting a }

def give (st : State S) (r : S.Result) : State S := { st with control := .giving r }

def push (st : State S) (f : Frame S) : State S := { st with stack := f :: st.stack }

def withGraph (st : State S) (g : Graph S.Value S.Code) : State S := { st with graph := g }

def modifyGraph (st : State S) (f : Graph S.Value S.Code → Graph S.Value S.Code) : State S :=
  { st with graph := f st.graph }

/-- Starts to run the computations that wait. -/
def drain (L : Language S) (st : State S) (s : Option SourceId) : State S :=
  ((st.modifyGraph fun g => { g with depth := 1 }).push (.draining s)).give L.nothing

/-- Gives a source a new value: its subscribers wait to run. -/
def assign (st : State S) (s : SourceId) (v : S.Value) : State S :=
  st.modifyGraph fun g => (g.setValue s v).enqueue (g.subscribers s)

/-- A computation depends on nothing any more; what has to be cleaned up comes next. -/
def reset (st : State S) (c : ComputationId) : State S :=
  (st.modifyGraph fun g => g.release c).push (.cleaning c (st.graph.cleanups c))

/-! ### Steps -/

def stepAction [BEq S.Value] (L : Language S) (st : State S) : Action S S.Result → State S
  | .pure r => st.give r
  | .raise message => { st with control := .failing message }
  | .look k => st.act (k st.host)
  | .survey k => st.act (k (st.view L))
  | .change f next => { st with host := f st.host, control := .acting next }
  | .signal v k =>
    let (g, s) := st.graph.addSignal v
    (st.withGraph g).act (k s)
  | .memo code k =>
    let (g, s, c) := st.graph.addMemo code
    { (st.withGraph g).push (.making s k) with control := .executing c }
  | .effect code next =>
    let (g, c) := st.graph.addEffect code
    { (st.withGraph g).push (.resuming next) with control := .executing c }
  | .read s tracked k =>
    let st := match tracked, st.graph.current with
      | true, some c => st.modifyGraph fun g => g.subscribe c s (st.sourceHeight L s)
      | _, _ => st
    match st.graph.value? s with
    | some v => st.act (k v)
    | none => { st with control := .failing "memo read before its first computation finished" }
  | .write s v next =>
    if !st.graph.isSignal s || st.graph.value? s == some v then st.act next
    else
      let st := st.assign s v
      if st.graph.depth = 0 then (st.push (.resuming next)).drain L (some s) else st.act next
  | .batch code k =>
    ((st.modifyGraph fun g => { g with depth := g.depth + 1 }).push (.batching k)).act (L.body code)
  | .untrack code k =>
    let st := (st.push (.returning [] k)).push (.restoring st.graph.current)
    (st.modifyGraph fun g => { g with current := none }).act (L.body code)
  | .call code held k => (st.push (.returning held k)).act (L.body code)
  | .attempt code k => (st.push (.catching k)).act (L.body code)
  | .cleanup code k =>
    match st.graph.current with
    | some c => (st.modifyGraph fun g => g.addCleanup c (.run code)).act (k true)
    | none => st.act (k false)
  | .later code next => (st.modifyGraph fun g => { g with tasks := g.tasks ++ [code] }).act next
  | .flush k => (st.push (.flushing 0 k)).give L.nothing

/-- The frame on top gets a result. -/
def stepFrame [BEq S.Value] (L : Language S) (st : State S) (r : S.Result) : Frame S → State S
  | .returning _ k => st.act (k r)
  | .catching k => st.act (k (.ok r))
  | .resuming next => st.act next
  | .batching k =>
    let st := st.modifyGraph fun g => { g with depth := g.depth - 1 }
    if st.graph.depth = 0 then (st.push (.resuming (k r))).drain L none else st.act (k r)
  | .restoring previous => (st.modifyGraph fun g => { g with current := previous }).give r
  | .storing s =>
    let v := L.value r
    if st.graph.value? s == some v then st.give L.nothing
    else
      let st := st.assign s v
      if st.graph.depth = 0 then st.drain L (some s) else st.give L.nothing
  | .making s k => st.act (k s)
  | .cleaning _ [] => st.give L.nothing
  | .cleaning c (.run code :: rest) => (st.push (.cleaning c rest)).act (L.body code)
  | .cleaning c (.dispose child :: rest) =>
    let st := (st.push (.cleaning c rest)).give L.nothing
    if st.isLive L child && !st.graph.isDisposed child then
      (st.modifyGraph fun g => g.markDisposed child).reset child
    else st
  | .starting c =>
    let st := st.push (.restoring st.graph.current)
    let st := st.modifyGraph fun g => { g with current := some c }
    match st.graph.computation? c with
    | none => st.give L.nothing
    | some d =>
      match d.target with
      | none => st.act (L.body d.code)
      | some s =>
        if st.isLiveSource L s then (st.push (.storing s)).act (L.body d.code)
        else st.give L.nothing
  | .draining s =>
    match st.graph.takeNext? with
    | some (c, g) => { (st.withGraph g).push (.draining s) with control := .executing c }
    | none => (st.modifyGraph fun g => { g with depth := 0 }).give L.nothing
  | .flushing n k =>
    match st.graph.tasks with
    | [] => st.act (k n)
    | code :: rest =>
      ((st.modifyGraph fun g => { g with tasks := rest }).push (.flushing (n + 1) k)).act
        (L.body code)

def unwind (st : State S) (message : String) : Frame S → State S
  | .catching k => st.act (k (.error message))
  | .batching _ =>
    st.modifyGraph fun g =>
      let g := { g with depth := g.depth - 1 }
      if g.depth = 0 then { g with pending := [] } else g
  | .restoring previous => st.modifyGraph fun g => { g with current := previous }
  | .draining _ => st.modifyGraph fun g => { g with depth := 0, pending := [] }
  | _ => st

def step? [BEq S.Value] (L : Language S) (st : State S) : Option (State S) :=
  match st.control with
  | .acting a => some (st.stepAction L a)
  | .executing c =>
    if st.graph.isDisposed c then some (st.give L.nothing)
    else some (((st.push (.starting c)).reset c).give L.nothing)
  | .giving r =>
    match st.stack with
    | [] => none
    | f :: rest => some ({ st with stack := rest }.stepFrame L r f)
  | .failing message =>
    match st.stack with
    | [] => none
    | f :: rest => some ({ st with stack := rest }.unwind message f)

/-- As many steps as it takes until all is done, up to a bound. -/
def run [BEq S.Value] (L : Language S) : Nat → State S → State S
  | 0, st => st
  | n + 1, st =>
    match st.step? L with
    | none => st
    | some next => next.run L n

end State

end ReactiveMarkup.Reactive
