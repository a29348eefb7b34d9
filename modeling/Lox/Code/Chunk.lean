import Lox.Code.Opcode
import Lox.Fault
import Lox.Storage.Buffer
import Lox.Value

/-! Chunks: the code of one function, the source line of each of its bytes, and its constants.
Jumps are relative to the end of the instruction. A forward jump is written with a placeholder and
patched once its target is known; a backward jump is written when its target already lies behind.
Either distance must fit a signed 16-bit operand. -/

namespace Lox

/-- The greatest distance that a jump can cover. -/
def maxJump : Nat := 32767

/-- The low byte of a two-byte operand. -/
def lowByte (n : Nat) : UInt8 := n.toUInt8

/-- The high byte of a two-byte operand. -/
def highByte (n : Nat) : UInt8 := (n / 256).toUInt8

/-- The operand that two bytes hold. -/
def wordOf (low high : UInt8) : Nat := low.toNat + 256 * high.toNat

/-- A two-byte operand read as a signed number in two's complement. -/
def signedOf (word : Nat) : Int := if word ≤ maxJump then word else (word : Int) - 65536

/-- The code of one function. -/
structure Chunk where
  /-- The instruction bytes. -/
  code : Buffer UInt8 := .empty
  /-- The source line of each instruction byte. -/
  lines : Buffer Nat := .empty
  /-- The constants that instructions refer to by index. -/
  constants : Buffer Value := .empty
  deriving Inhabited

/-- Why a jump could not be written. -/
inductive JumpError where
  /-- The code between a forward jump and its target is too long. -/
  | jumpTooLarge
  /-- The body of a loop is too long. -/
  | loopTooLarge
  /-- The offset refers to no place of this chunk. -/
  | fault (cause : Fault)
  deriving DecidableEq, Repr

/-- The text of a jump error. -/
def JumpError.message : JumpError → String
  | .jumpTooLarge => "Too much code to jump over."
  | .loopTooLarge => "Loop body too large."
  | .fault _ => ""

namespace Chunk

/-- The chunk without code. -/
def empty : Chunk := {}

/-- The number of instruction bytes, which is also the offset of the next one. -/
def size (c : Chunk) : Nat := c.code.size

/-- The byte at an offset. -/
def byteAt? (c : Chunk) (offset : Nat) : Option UInt8 := c.code.get? offset

/-- The source line of the byte at an offset. -/
def lineAt? (c : Chunk) (offset : Nat) : Option Nat := c.lines.get? offset

/-- The constant with an index. -/
def constant? (c : Chunk) (index : Nat) : Option Value := c.constants.get? index

/-- The two-byte operand at an offset. -/
def wordAt? (c : Chunk) (offset : Nat) : Option Nat := do
  let low ← c.byteAt? offset
  let high ← c.byteAt? (offset + 1)
  return wordOf low high

/-- The two-byte operand at an offset, read as a signed number. -/
def signedAt? (c : Chunk) (offset : Nat) : Option Int := (c.wordAt? offset).map signedOf

/-- Appends a byte of a source line. -/
def write (c : Chunk) (byte : UInt8) (line : Nat) : Chunk :=
  { c with code := c.code.push byte, lines := c.lines.push line }

/-- Appends an instruction without operand. -/
def writeOp (c : Chunk) (op : Opcode) (line : Nat) : Chunk := c.write op.toByte line

/-- Appends an instruction with a one-byte operand. -/
def writeOpByte (c : Chunk) (op : Opcode) (operand : UInt8) (line : Nat) : Chunk :=
  (c.writeOp op line).write operand line

/-- Appends an instruction with a two-byte operand. -/
def writeOpWord (c : Chunk) (op : Opcode) (operand : Nat) (line : Nat) : Chunk :=
  ((c.writeOp op line).write (lowByte operand) line).write (highByte operand) line

/-- The operand of a jump whose target is not yet known. -/
def placeholder : Nat := 65535

/-- Appends a jump with a placeholder, and returns the offset of the placeholder. -/
def writeJump (c : Chunk) (op : Opcode) (line : Nat) : Chunk × Nat :=
  let operand := c.size + 1
  (c.writeOpWord op placeholder line, operand)

/-- The distance from the end of the jump whose operand is at `offset` to the current end. -/
def forwardDistance (c : Chunk) (offset : Nat) : Except JumpError Nat :=
  if c.size < offset + 2 then .error (.fault .underflow)
  else
    let distance := c.size - (offset + 2)
    if maxJump < distance then .error .jumpTooLarge else .ok distance

/-- Overwrites the two-byte operand at an offset. -/
def setWord (c : Chunk) (offset operand : Nat) : Chunk :=
  { c with code := (c.code.set offset (lowByte operand)).set (offset + 1) (highByte operand) }

/-- Makes the jump whose operand is at `offset` land on the current end. -/
def patchJump (c : Chunk) (offset : Nat) : Except JumpError Chunk := do
  let distance ← c.forwardDistance offset
  return c.setWord offset distance

/-- The distance back to `start` from the end of a jump written now, whose own three bytes count. -/
def backwardDistance (c : Chunk) (start : Nat) : Except JumpError Nat :=
  if c.size + 3 < start then .error (.fault .underflow)
  else
    let distance := c.size + 3 - start
    if maxJump < distance then .error .loopTooLarge else .ok distance

/-- Appends a jump that goes back by `distance`, in two's complement. -/
def writeBack (c : Chunk) (distance : Nat) (line : Nat) : Chunk :=
  c.writeOpWord .loop ((65536 - distance) % 65536) line

/-- Appends a jump back to `start`. -/
def writeLoop (c : Chunk) (start : Nat) (line : Nat) : Except JumpError Chunk := do
  let distance ← c.backwardDistance start
  return c.writeBack distance line

/-- Appends a constant and returns its index. -/
def addConstant (c : Chunk) (value : Value) : Chunk × Nat :=
  let index := c.constants.size
  ({ c with constants := c.constants.push value }, index)

@[simp] theorem size_write (c : Chunk) (byte : UInt8) (line : Nat) :
    (c.write byte line).size = c.size + 1 := by
  simp [write, size]

@[simp] theorem size_writeOp (c : Chunk) (op : Opcode) (line : Nat) :
    (c.writeOp op line).size = c.size + 1 := by
  simp [writeOp]

@[simp] theorem size_writeOpByte (c : Chunk) (op : Opcode) (operand : UInt8) (line : Nat) :
    (c.writeOpByte op operand line).size = c.size + 2 := by
  simp [writeOpByte]

@[simp] theorem size_writeOpWord (c : Chunk) (op : Opcode) (operand line : Nat) :
    (c.writeOpWord op operand line).size = c.size + 3 := by
  simp [writeOpWord]

end Chunk

end Lox
