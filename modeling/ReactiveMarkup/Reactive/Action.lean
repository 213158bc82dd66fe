/-
What code can do.

Code that runs in computations, in batches and at top level is a tree of actions:
each node is one operation, with what comes after it.  Code that runs later, or
runs under a guard, is named by a code word, so that it can be kept in the graph;
what a code word does is told by a language.

Code works on a host state of its own, besides the graph.
-/
import ReactiveMarkup.Reactive.Graph

namespace ReactiveMarkup.Reactive

structure Setting where
  Value : Type
  Result : Type
  Code : Type
  /-- The state that code works on besides the graph. -/
  Host : Type
  /-- What a call can hold on to while it lasts. -/
  Item : Type

/-- What code can see of the machine. -/
structure View (S : Setting) where
  host : S.Host
  graph : Graph S.Value S.Code
  held : List S.Item
  /-- The code of all computations that are in use. -/
  living : List S.Code

/-- An operation with what comes after it, giving an `α` in the end. -/
inductive Action (S : Setting) (α : Type) : Type where
  | pure (a : α)
  | raise (message : String)
  | look (k : S.Host → Action S α)
  | survey (k : View S → Action S α)
  | change (f : S.Host → S.Host) (next : Action S α)
  | signal (v : S.Value) (k : SourceId → Action S α)
  /-- Makes a source whose value comes from code, which runs at once. -/
  | memo (code : S.Code) (k : SourceId → Action S α)
  /-- Makes a computation that runs at once, and again when what it read changes. -/
  | effect (code : S.Code) (next : Action S α)
  /-- Reads a source; a tracked read is put down to the computation that is running. -/
  | read (s : SourceId) (tracked : Bool) (k : S.Value → Action S α)
  /-- Gives a signal a value.  If that is new, all that has read the signal runs again. -/
  | write (s : SourceId) (v : S.Value) (next : Action S α)
  /-- Runs code; what is to run again because of it waits until the outermost batch is over. -/
  | batch (code : S.Code) (k : S.Result → Action S α)
  /-- Runs code whose reads are put down to nothing. -/
  | untrack (code : S.Code) (k : S.Result → Action S α)
  /-- Runs code, and holds on to items meanwhile. -/
  | call (code : S.Code) (held : List S.Item) (k : S.Result → Action S α)
  /-- Runs code that may fail. -/
  | attempt (code : S.Code) (k : Except String S.Result → Action S α)
  /-- Has code run before the computation that is running runs again.  Answers whether one is. -/
  | cleanup (code : S.Code) (k : Bool → Action S α)
  /-- Has code run at the next flush. -/
  | later (code : S.Code) (next : Action S α)
  /-- Runs all that waits for a flush.  Answers how many there were. -/
  | flush (k : Nat → Action S α)

namespace Action

variable {S : Setting} {α β : Type}

def bind : Action S α → (α → Action S β) → Action S β
  | pure a, f => f a
  | raise message, _ => raise message
  | look k, f => look fun h => bind (k h) f
  | survey k, f => survey fun v => bind (k v) f
  | change g next, f => change g (bind next f)
  | signal v k, f => signal v fun s => bind (k s) f
  | memo code k, f => memo code fun s => bind (k s) f
  | effect code next, f => effect code (bind next f)
  | read s tracked k, f => read s tracked fun v => bind (k v) f
  | write s v next, f => write s v (bind next f)
  | batch code k, f => batch code fun r => bind (k r) f
  | untrack code k, f => untrack code fun r => bind (k r) f
  | call code held k, f => call code held fun r => bind (k r) f
  | attempt code k, f => attempt code fun r => bind (k r) f
  | cleanup code k, f => cleanup code fun b => bind (k b) f
  | later code next, f => later code (bind next f)
  | flush k, f => flush fun n => bind (k n) f

instance : Monad (Action S) where
  pure := pure
  bind := bind

end Action

structure Language (S : Setting) where
  body : S.Code → Action S S.Result
  /-- The result of code that gives nothing. -/
  nothing : S.Result
  /-- The value that a result of a memo stands for. -/
  value : S.Result → S.Value
  /-- The sources that the host state holds on to. -/
  named : S.Host → List SourceId

end ReactiveMarkup.Reactive
