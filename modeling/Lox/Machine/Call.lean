import Lox.Machine.Stack

/-! Calls. The callee lies on the stack below its arguments; a call of a compiled function opens a
frame whose slot zero is the callee, and a return replaces callee, arguments and all that was put on
top of them by the result. A function of the host returns at once. -/

namespace Lox.Execution

/-- Whether an instruction goes on to the next one. -/
inductive Flow where
  | next
  /-- The script is over. -/
  | halt
  deriving DecidableEq, Repr

/-- Opens a call of a compiled function whose arguments are on the stack. -/
def callFunction (handle : Handle) (count : Nat) : Execution Unit := do
  let m ← get
  match m.heap.function? handle with
  | none => fail .notCallable
  | some f =>
    if count ≠ f.arity then fail (.arityMismatch f.arity count)
    else if m.limits.framesMax ≤ m.frames.length then fail .stackOverflow
    else if m.stack.size < count + 1 then fail .stackUnderflow
    else
      let base := m.stack.size - (count + 1)
      modify fun m =>
        let m := { m with frames := { function := handle, ip := 0, base } :: m.frames }
        m.record (.called m.frames.length base)

/-- What the clock says now. The next time it says something else. -/
def readClock : Execution Float := modifyGet fun m => (m.clock.now, { m with clock := m.clock.next })

/-- Calls a function of the host: its result takes the place of callee and arguments. -/
def callNative (native : NativeObject) (count : Nat) : Execution Unit := do
  if count ≠ native.arity then fail (.arityMismatch native.arity count)
  else
    let arguments ← top count
    let result := native.body (← readClock) arguments
    let size := (← get).stack.size
    if size < count + 1 then throw (.fault .underflow)
    else
      truncate (size - count - 1)
      push result

/-- Calls a value. -/
def callValue (callee : Value) (count : Nat) : Execution Unit := do
  match callee with
  | .object handle =>
    match (← get).heap.get? handle with
    | some (.function _) => callFunction handle count
    | some (.native native) => callNative native count
    | _ => fail .notCallable
  | _ => fail .notCallable

/-- Returns the value on the top from the innermost call. The script's own return ends the run. -/
def returnFrom : Execution Flow := do
  let result ← pop
  match (← get).frames with
  | [] => fail (.invalidBytecode .returnWithoutFrame)
  | frame :: frames =>
    modify fun m => { m with frames }
    truncate frame.base
    if frames.isEmpty then
      modify fun m => { m with lastValue := result }
      return .halt
    else
      push result
      modify fun m => m.record (.returned m.frames.length)
      return .next

end Lox.Execution
