import Lox.Machine.Basic

/-! Stack operations. Growing past the limit is an overflow; reaching below the bottom is an
underflow. Slots are counted from the base of the innermost call. -/

namespace Lox.Execution

/-- Pushes a value, if the limit allows one more. -/
def push (value : Value) : Execution Unit := do
  let m ← get
  if m.limits.stackMax ≤ m.stack.size then fail .stackOverflow
  else modify fun m => { m with stack := m.stack.push value }

/-- Takes the value on the top. -/
def pop : Execution Value := do
  match (← get).stack.back? with
  | none => fail .stackUnderflow
  | some value =>
    modify fun m => { m with stack := m.stack.pop }
    return value

/-- Takes the two values on the top; the upper one is the second of the pair. -/
def popTwo : Execution (Value × Value) := do
  let upper ← pop
  let lower ← pop
  return (lower, upper)

/-- The value at a distance from the top. -/
def peek (distance : Nat) : Execution Value := do
  let m ← get
  if m.stack.size < distance + 1 then fail .stackUnderflow
  else
    match m.stack[m.stack.size - (distance + 1)]? with
    | some value => return value
    | none => throw (.fault .outOfRange)

/-- The value at a distance from the top that the host chose. The size of a stack that reaches so far
must fit a word. -/
def peekAt (distance : Nat) : Execution Value :=
  match nextWord distance with
  | .ok _ => peek distance
  | .error cause => throw (.fault cause)

/-- The topmost values, so many of them, the lowest first. -/
def top (count : Nat) : Execution (List Value) := do
  let m ← get
  if m.stack.size < count then fail .stackUnderflow
  else return (m.stack.extract (m.stack.size - count) m.stack.size).toList

/-- Keeps the lowest values, so many of them. -/
def truncate (size : Nat) : Execution Unit :=
  modify fun m => { m with stack := m.stack.shrink size }

/-- The place on the stack of a slot of the innermost call. -/
def slotIndex (slot : Nat) : Execution Nat := do
  let m ← get
  match m.frames with
  | [] => fail (.invalidBytecode .noFrame)
  | frame :: _ =>
    if frame.base + slot < m.stack.size then return frame.base + slot
    else fail .stackUnderflow

/-- The value in a slot of the innermost call. -/
def getSlot (slot : Nat) : Execution Value := do
  let index ← slotIndex slot
  match (← get).stack[index]? with
  | some value => return value
  | none => throw (.fault .outOfRange)

/-- Stores a value in a slot of the innermost call. -/
def setSlot (slot : Nat) (value : Value) : Execution Unit := do
  let index ← slotIndex slot
  modify fun m => { m with stack := m.stack.setIfInBounds index value }

end Lox.Execution
