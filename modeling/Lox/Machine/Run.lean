import Lox.Compile.Basic
import Lox.Machine.Step

/-! Running scripts on a machine. A run begins by loading a function as the outermost call; it ends
when that call returns, or with an error, which leaves the stack as it is for the host to look at. A
run that has used up its budget is paused and can be continued. -/

namespace Lox

/-- How far a run has come. -/
inductive Progress where
  /-- The run is over. -/
  | done (result : Except RuntimeError Unit)
  /-- The budget is used up, and the run can go on. -/
  | paused
  /-- The machine would leave the bounds of its data. -/
  | fault (cause : Fault)

namespace Machine

/-- Ends a run with an error at the place where the machine stands. -/
def haltWith (m : Machine) (kind : ErrorKind) : RuntimeError × Machine :=
  let error := m.runtimeError kind
  (error, { m with
    status := .haltedRuntimeError
    journal := m.journal.record (.runtimeFailed kind.message error.line) })

/-- Ends a run whose script has returned. What was printed must still reach its destination. -/
def haltOk (m : Machine) : Except RuntimeError Unit × Machine :=
  if m.output.flushFails then
    let (error, m) := m.haltWith (.output Output.flushReason)
    (.error error, m)
  else
    (.ok (), { m with
      status := .haltedOk
      journal := m.journal.record (.haltedOk m.stack.size) })

/-- Puts a function in the place of the outermost call. -/
def load (script : Handle) : Execution Unit := do
  Execution.push (.object script)
  Execution.callFunction script 0

/-- Starts a run of a function. -/
def start (m : Machine) (script : Handle) : Progress × Machine :=
  match (load script).run { m with frames := [], lastValue := .nil } with
  | .ok _ m => (.paused, { m with
      status := .running
      journal := m.journal.record (.scriptStarted m.heap.live) })
  | .error (.error kind) m =>
    let (error, m) := m.haltWith kind
    (.done (.error error), m)
  | .error (.fault cause) m => (.fault cause, m)

/-- Goes on with a run, for at most so many instructions. -/
def resume (m : Machine) (budget : Nat) : Progress × Machine :=
  match (Execution.steps budget).run m with
  | .ok _ m =>
    let (result, m) := m.haltOk
    (.done result, m)
  | .error (.error kind) m =>
    let (error, m) := m.haltWith kind
    (.done (.error error), m)
  | .error (.fault .exhausted) m => (.paused, m)
  | .error (.fault cause) m => (.fault cause, m)

/-- Runs a function, for at most so many instructions. -/
def runFunction (m : Machine) (script : Handle) (budget : Nat) : Progress × Machine :=
  match m.start script with
  | (.paused, m) => m.resume budget
  | stopped => stopped

/-- Compiles a source into the machine's heap. -/
def compile (m : Machine) (source : String) : Except Fault (Except CompileError Handle × Machine) :=
  let heap := m.heap
  let journal := m.journal
  let m := { m with heap := .empty, journal := .silent }
  match Lox.compile source heap m.printCode journal with
  | .error fault => .error fault
  | .ok c =>
    let status := match c.result with
      | .ok _ => .idle
      | .error _ => .haltedCompileError
    .ok (c.result, { m with heap := c.heap, journal := c.journal, status })

end Machine

end Lox
