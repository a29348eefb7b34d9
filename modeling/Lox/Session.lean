import Lox.Machine.Run
import Lox.Report
import Lox.Text.Utf8

/-! Running sources from start to end: on a machine that is kept, as in an interactive session, or on
one of their own. A script's value is shown unless it is nil, and after a runtime error the stack is
cleared so that the machine can be used again. -/

namespace Lox

/-- How a source is run. -/
structure RunOptions where
  /-- Whether the listing is printed before the run. -/
  dumpBytecode : Bool := false
  /-- Whether what is printed is returned instead of shown. -/
  captureOutput : Bool := false
  /-- Whether compiled functions are listed in the journal. -/
  printCode : Bool := false
  limits : Limits := {}
  deriving DecidableEq, Repr, Inhabited

/-- The options in the form in which they are logged. -/
def RunOptions.text (o : RunOptions) : String :=
  "RunConfig \x7b dump_bytecode: " ++ toString o.dumpBytecode
    ++ ", capture_output: " ++ toString o.captureOutput
    ++ ", compiler: CompilerConfig \x7b print_code: " ++ toString o.printCode
    ++ " \x7d, limits: LimitConfig \x7b stack_max: " ++ toString o.limits.stackMax
    ++ ", frames_max: " ++ toString o.limits.framesMax ++ " \x7d \x7d"

/-- What the host provides: its clock, and how many instructions a run may take. -/
structure Host where
  clock : Clock
  budget : Nat

namespace Machine

/-- Settles a finished run: the text of the value if it is not nil, or the error with the stack
cleared. -/
def settle (m : Machine) : Except RuntimeError Unit → Except LoxError (Option String) × Machine
  | .ok _ =>
    let value := if m.lastValue.isNil then none else some (m.display m.lastValue)
    (.ok value, m)
  | .error e => (.error (.runtime e), m.resetStack)

/-- A run that may not pause, with its result. -/
def complete : Progress × Machine → Except Fault (Except RuntimeError Unit × Machine)
  | (.done result, m) => .ok (result, m)
  | (.paused, _) => .error .exhausted
  | (.fault cause, _) => .error cause

/-- Compiles and runs a source, and leaves the stack as the run left it. -/
def interpret (m : Machine) (source : String) (budget : Nat) :
    Except Fault (Except LoxError Unit × Machine) := do
  let (compiled, m) ← m.compile source
  match compiled with
  | .error e => return (.error (.compile e), m)
  | .ok script =>
    let (result, m) ← complete (m.runFunction script budget)
    return (result.mapError .runtime, m)

/-- Compiles a source, and with `dump` also prints its listing. -/
def prepare (m : Machine) (source : String) (dump : Bool) :
    Except Fault (Except LoxError Handle × String × Machine) := do
  let (compiled, m) ← m.compile source
  match compiled with
  | .error e => return (.error (.compile e), "", m)
  | .ok script => return (.ok script, if dump then m.heap.listing script else "", m)

/-- Compiles and runs a source, and returns its value. -/
def interpretIn (m : Machine) (source : String) (budget : Nat) :
    Except Fault (Except LoxError (Option String) × Machine) := do
  let (result, m) ← m.interpret source budget
  match result with
  | .ok _ => return m.settle (.ok ())
  | .error (.runtime e) => return m.settle (.error e)
  | .error e => return (.error e, m)

end Machine

/-- What a run on a machine of its own comes to. -/
structure RunReport where
  /-- The text of the value, or why there is none. -/
  result : Except LoxError (Option String)
  /-- The listing, if one was asked for. -/
  listing : String
  /-- What the program printed. -/
  printed : String
  journal : Journal

/-- What the caller of a run gets back as its output: nothing unless the output is captured, and nothing
if the run failed. -/
def RunReport.captured (r : RunReport) (options : RunOptions) : String :=
  if options.captureOutput then r.listing ++ r.printed else ""

/-- What a run shows: nothing if its output is captured. -/
def RunReport.shown (r : RunReport) (options : RunOptions) : String :=
  if options.captureOutput then "" else r.listing ++ r.printed

/-- Compiles and runs a source on a new machine, which is freed at the end. -/
def run (source : String) (options : RunOptions) (host : Host) (journal : Journal) :
    Except Fault RunReport := do
  let journal := journal.record .executionStarted
  let m := Machine.create options.limits options.printCode host.clock journal
  let (compiled, listing, m) ← m.prepare source options.dumpBytecode
  let (result, m) ← match compiled with
    | .error e => pure (.error e, m)
    | .ok script => do
      let (result, m) ← Machine.complete (m.runFunction script host.budget)
      pure (m.settle result)
  let m := match result with
    | .ok _ => m.record .executionCompleted
    | .error _ => m
  let (bytes, output) := m.output.drain
  let (_, m) := { m with output }.free
  return { result, listing, printed := Text.ofUtf8Lossy bytes, journal := m.journal }

/-- A compiled source by itself. -/
structure CompiledSource where
  heap : Heap
  script : Handle

/-- Compiles a source into a heap of its own. -/
def compileSource (source : String) (printCode : Bool) (journal : Journal) :
    Except Fault (Except LoxError CompiledSource × Journal) := do
  let c ← compile source .empty printCode journal
  match c.result with
  | .error e => return (.error (.compile e), c.journal)
  | .ok script =>
    let codeBytes := match c.heap.function? script with
      | some f => f.chunk.size
      | none => 0
    return (.ok { heap := c.heap, script }, c.journal.record (.compiled c.heap.live codeBytes))

/-- The listing of a compiled source. -/
def CompiledSource.listing (c : CompiledSource) : String := c.heap.listing c.script

end Lox
