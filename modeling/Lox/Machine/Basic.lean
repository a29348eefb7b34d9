import Lox.Fault
import Lox.Log.Journal
import Lox.Machine.Clock
import Lox.Machine.Error
import Lox.Machine.Output
import Lox.Storage.Heap

/-! The state of the stack machine. A machine outlives the scripts it runs: its globals and its heap
are shared by all of them, which is what an interactive session lives on. -/

namespace Lox

/-- How much a running program may use. -/
structure Limits where
  /-- The greatest number of values on the stack. -/
  stackMax : Nat := 16384
  /-- The greatest number of active calls. -/
  framesMax : Nat := 64
  deriving DecidableEq, Repr, Inhabited

/-- An active call. -/
structure Frame where
  /-- The function that is executed. -/
  function : Handle
  /-- The offset of the next instruction byte. -/
  ip : Nat
  /-- The place on the stack of the frame's slot zero. -/
  base : Nat
  deriving DecidableEq, Repr, Inhabited

/-- What a machine did last. -/
inductive Status where
  | idle
  | loaded
  | running
  | haltedOk
  | haltedCompileError
  | haltedRuntimeError
  deriving DecidableEq, Repr, Inhabited

/-- The name of a status. -/
def Status.name : Status → String
  | .idle => "Idle"
  | .loaded => "Loaded"
  | .running => "Running"
  | .haltedOk => "HaltedOk"
  | .haltedCompileError => "HaltedCompileError"
  | .haltedRuntimeError => "HaltedRuntimeError"

/-- A stack machine. -/
structure Machine where
  /-- The values in use, the latest last. -/
  stack : Array Value := #[]
  /-- The active calls, the innermost first. -/
  frames : List Frame := []
  /-- The global variables. -/
  globals : Table := .empty
  heap : Heap := .empty
  limits : Limits := {}
  /-- Whether compiled functions are listed in the journal. -/
  printCode : Bool := false
  output : Output := {}
  /-- The host's clock. It is read for each call of a function of the host. -/
  clock : Clock := 0
  status : Status := .idle
  /-- What the last script returned. -/
  lastValue : Value := .nil
  journal : Journal := .silent

namespace Machine

/-- Logs an event. -/
def record (m : Machine) (event : Event) : Machine := { m with journal := m.journal.record event }

/-- The string object with the given characters, made if there is none. -/
def intern (m : Machine) (chars : String) : Handle × Machine :=
  let live := m.heap.live
  let (heap, handle) := m.heap.intern chars
  let m := { m with heap }
  (handle, if live < m.heap.live then m.record (.allocated handle) else m)

/-- A new object. -/
def allocate (m : Machine) (object : Object) : Handle × Machine :=
  let (heap, handle) := m.heap.allocate object
  (handle, { m with heap, journal := m.journal.record (.allocated handle) })

/-- Makes a function of the host a global variable. -/
def defineNative (m : Machine) (native : NativeObject) : Machine :=
  let (name, m) := m.intern native.name
  let (handle, m) := m.allocate (.native native)
  match m.heap.key? name with
  | some key => { m with globals := (m.globals.set key (.object handle)).1 }
  | none => m

/-- The host function that reads the clock. -/
def clockNative : NativeObject :=
  { name := "clock", arity := 0, body := fun reading _ => .number reading }

/-- A machine that has run nothing yet. It knows the host function `clock`. -/
def create (limits : Limits) (printCode : Bool) (clock : Clock) (journal : Journal) : Machine :=
  defineNative { limits, printCode, clock, journal } clockNative

/-- The value of a global variable. -/
def global? (m : Machine) (name : String) : Option Value := do
  let handle ← m.heap.interned? name
  let key ← m.heap.key? handle
  m.globals.get? key

/-- The text of a value. -/
def display (m : Machine) (value : Value) : String := m.heap.display value

/-- Drops all values and all active calls. -/
def resetStack (m : Machine) : Machine := { m with stack := #[], frames := [] }

/-- Frees everything, and says how many objects there were. Nothing that refers to an object stays
behind. -/
def free (m : Machine) : Nat × Machine :=
  let m := m.resetStack
  let (heap, count) := m.heap.free
  (count, { m with
    heap
    globals := m.globals.clear
    status := .idle
    lastValue := .nil
    journal := (m.journal.record (.objectsFreed count)).record (.machineFreed count) })

/-- What an active call was doing: the line of the byte before its next instruction, and its name. -/
def traceEntry (m : Machine) (frame : Frame) : TraceEntry :=
  match m.heap.function? frame.function with
  | none => { line := 0, function := none }
  | some f =>
    { line := (f.chunk.lineAt? (frame.ip - 1)).getD 0, function := m.heap.functionName? f }

/-- An error at the place where the machine stands. -/
def runtimeError (m : Machine) (kind : ErrorKind) : RuntimeError :=
  let trace := m.frames.map m.traceEntry
  { kind, line := (trace.head?.map (·.line)).getD 0, trace }

end Machine

/-- Why an instruction did not succeed. -/
inductive Stop where
  /-- The program is in error. -/
  | error (kind : ErrorKind)
  /-- The machine would leave the bounds of its data. -/
  | fault (cause : Fault)
  deriving DecidableEq, Repr

/-- A piece of execution: it changes the machine, and it may stop. -/
abbrev Execution := EStateM Stop Machine

/-- Stops with an error of the program. -/
def Execution.fail {α : Type} (kind : ErrorKind) : Execution α := throw (.error kind)

end Lox
