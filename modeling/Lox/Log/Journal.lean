import Lox.Compile.Diagnostic
import Lox.Log.Filter
import Lox.Storage.Object
import Lox.Token.Basic

/-! The journal of a run: the events that its filter admits, in the order in which they happened. A
journal without a filter keeps nothing. Nothing that is computed depends on a journal. -/

namespace Lox

/-- Something worth logging. -/
inductive Event where
  /-- The compiler was handed a token. -/
  | token (token : Token)
  /-- The compiler entered a function, at a nesting depth. -/
  | functionBegun (depth : Nat)
  /-- The compiler left a function. -/
  | functionEnded (name : String) (arity : Nat)
  | diagnosed (diagnostic : Diagnostic)
  | compileFailed (count : Nat)
  /-- A finished function was listed. -/
  | listed (listing : String)
  | compiled (objects codeBytes : Nat)
  | allocated (handle : Handle)
  | objectsFreed (count : Nat)
  | scriptStarted (objects : Nat)
  | called (depth base : Nat)
  | returned (depth : Nat)
  | haltedOk (stack : Nat)
  | runtimeFailed (message : String) (line : Nat)
  | machineFreed (count : Nat)
  | executionStarted
  | executionCompleted
  /-- The command line knows how it is to run sources. -/
  | configured (options : String)
  /-- The command line has read a script. -/
  | scriptRead (path : String)
  deriving Repr

namespace Event

/-- How important an event is. -/
def level : Event → LogLevel
  | .token _ | .functionBegun _ | .functionEnded _ _ => .trace
  | .allocated _ | .objectsFreed _ | .called _ _ | .returned _ => .trace
  | .executionStarted | .executionCompleted | .scriptRead _ => .info
  | _ => .debug

/-- The target under which an event is logged. -/
def target : Event → String
  | .token _ => Phase.scanner.target
  | .functionBegun _ | .functionEnded _ _ | .diagnosed _ | .compileFailed _ => Phase.compiler.target
  | .listed _ | .compiled _ _ => Phase.compiler.target
  | .configured _ | .scriptRead _ => cliTarget
  | _ => Phase.vm.target

/-- What an event says. -/
def message : Event → String
  | .token _ => ""
  | .functionBegun _ => "begin function"
  | .functionEnded _ _ => "end function"
  | .diagnosed diagnostic => diagnostic.text
  | .compileFailed _ => "compilation failed"
  | .listed listing => "\n" ++ listing
  | .compiled _ _ => "compilation completed"
  | .allocated _ => "allocate object"
  | .objectsFreed _ => "free objects"
  | .scriptStarted _ => "run script"
  | .called _ _ => "call"
  | .returned _ => "return"
  | .haltedOk _ => "halted ok"
  | .runtimeFailed _ _ => "runtime error"
  | .machineFreed _ => "vm freed"
  | .executionStarted => "Starting execution"
  | .executionCompleted => "Execution completed"
  | .configured _ => "configuration loaded"
  | .scriptRead _ => "running script"

/-- The named details of an event. -/
def fields : Event → List (String × String)
  | .token t => [("kind", t.kind.name), ("lexeme", t.lexeme), ("line", toString t.line)]
  | .functionBegun depth => [("kind", "Function"), ("depth", toString depth)]
  | .functionEnded name arity => [("kind", "Function"), ("name", name), ("arity", toString arity)]
  | .compileFailed count => [("errors", toString count)]
  | .compiled objects codeBytes =>
    [("objects", toString objects), ("code_bytes", toString codeBytes)]
  | .allocated handle => [("handle", toString handle.index)]
  | .objectsFreed count => [("freed", toString count)]
  | .scriptStarted objects => [("objects", toString objects)]
  | .called depth base => [("depth", toString depth), ("slot_base", toString base)]
  | .returned depth => [("depth", toString depth)]
  | .haltedOk stack => [("stack", toString stack)]
  | .runtimeFailed message line => [("kind", message), ("line", toString line)]
  | .machineFreed count => [("freed", toString count)]
  | .configured options => [("config", options)]
  | .scriptRead path => [("script", path)]
  | _ => []

end Event

/-- The events kept so far. -/
structure Journal where
  /-- Which events are kept; `none` keeps nothing. -/
  filter : Option Filter := none
  /-- The events kept, oldest first. -/
  events : Array Event := #[]
  deriving Repr, Inhabited

namespace Journal

/-- The journal that keeps nothing. -/
def silent : Journal := {}

/-- The empty journal with a filter. -/
def filtered (filter : Filter) : Journal := { filter := some filter }

/-- Adds an event, if the filter admits it. -/
def record (j : Journal) (event : Event) : Journal :=
  match j.filter with
  | none => j
  | some filter =>
    if filter.admits event.target event.level then { j with events := j.events.push event }
    else j

end Journal

end Lox
