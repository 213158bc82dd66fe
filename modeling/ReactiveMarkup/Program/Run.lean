/-
Running programs.

Each statement is a step. One that fails leaves what it did up to then, and the
next step goes on from there.
-/
import ReactiveMarkup.Program.Execution

namespace ReactiveMarkup.Program

open Reactive (State)

structure CellFact where
  name : String
  value : Option Value
  /-- How many have read it; unknown of a pair. -/
  subscribers : Option Nat

structure Outcome where
  log : List Entry
  failure : Option String
  cells : List CellFact
  watched : List Value

/-- How many small steps a step may take. -/
def bound : Nat := Nat.pow 10 15

def runAct (st : State setting) (a : Act Result) : State setting :=
  ({ st with control := .acting a, stack := [] }).run language bound

def given (st : State setting) : Except String Result :=
  match st.control with
  | .giving r => .ok r
  | .failing message => .error message
  | _ => .ok .nothing

def cellFacts (st : State setting) : List CellFact :=
  (st.host.cells.mergeSort fun a b => a.1 ≤ b.1).map fun (name, cell) =>
    { name
      value := st.graph.value? cell.source
      subscribers :=
        if cell.kind = .pair then none else some (st.graph.subscribers cell.source).length }

def watch : State setting → List Expr → State setting × List Value
  | st, [] => (st, [])
  | st, e :: rest =>
    let st := runAct st (body (.value {} [] e))
    let v := match given st with
      | .ok r => r.toValue
      | .error _ => .null
    let (st, values) := watch st rest
    (st, v :: values)

def runFrom (watched : List Expr) : State setting → Block → List Outcome
  | _, [] => []
  | st, s :: rest =>
    let st := runAct { st with host := { st.host with log := [] } } (body (.block {} [s]))
    let failure := match given st with
      | .ok _ => none
      | .error message => some message
    let log := st.host.log.reverse
    let cells := cellFacts st
    let (st, values) := watch st watched
    { log, failure, cells, watched := values } :: runFrom watched st rest

def run (program : Block) (watched : List Expr) : List Outcome :=
  runFrom watched { host := World.start, control := .giving .nothing } program

end ReactiveMarkup.Program
