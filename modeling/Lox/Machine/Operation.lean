import Lox.Machine.Stack

/-! Operators. Operands are looked at before they are taken, so an operand of the wrong kind leaves
the stack as it was. -/

namespace Lox.Execution

/-- The two numbers on the top, the lower one first. -/
def numberOperands : Execution (Float × Float) := do
  let a ← peek 1
  let b ← peek 0
  match a, b with
  | .number a, .number b => return (a, b)
  | _, _ => fail .operandsMustBeNumbers

/-- Replaces two numbers by a value computed from them. -/
def numeric (f : Float → Float → Value) : Execution Unit := do
  let (a, b) ← numberOperands
  let _ ← popTwo
  push (f a b)

/-- The sum, difference, product or quotient of two numbers. -/
def arithmetic (f : Float → Float → Float) : Execution Unit := numeric fun a b => .number (f a b)

/-- The comparison of two numbers. -/
def compare (f : Float → Float → Bool) : Execution Unit := numeric fun a b => .bool (f a b)

/-- Replaces two strings by the string that joins them. -/
def concatenate (a b : Handle) : Execution Unit := do
  let heap := (← get).heap
  match heap.string? a, heap.string? b with
  | some left, some right =>
    let _ ← popTwo
    let handle ← modifyGet (·.intern (left.chars ++ right.chars))
    push (.object handle)
  | _, _ => fail .operandsMustBeNumbersOrStrings

/-- Adds two numbers or joins two strings. -/
def add : Execution Unit := do
  let a ← peek 1
  let b ← peek 0
  match a, b with
  | .number a, .number b =>
    let _ ← popTwo
    push (.number (a + b))
  | .object a, .object b => concatenate a b
  | _, _ => fail .operandsMustBeNumbersOrStrings

/-- Changes the sign of a number. -/
def negate : Execution Unit := do
  match ← peek 0 with
  | .number x =>
    let _ ← pop
    push (.number (-x))
  | _ => fail .operandMustBeNumber

/-- Replaces two values by the answer whether they are equal, or whether they differ. -/
def compareEqual (wanted : Bool) : Execution Unit := do
  let (a, b) ← popTwo
  push (.bool (a.equal b == wanted))

/-- Replaces a value by the answer whether it counts as false. -/
def negateTruth : Execution Unit := do
  let value ← pop
  push (.bool value.isFalsey)

/-- Prints the value on the top as a line. The value is taken even if the output fails. -/
def print : Execution Unit := do
  let value ← pop
  let line := (← get).display value ++ "\n"
  let complete ← modifyGet fun m =>
    let (output, complete) := m.output.write line
    (complete, { m with output })
  if !complete then fail (.output Output.closedReason)

end Lox.Execution
