import Lox.Machine.Call
import Lox.Machine.Operation

/-! One instruction at a time. The bytes of an instruction are read one by one, so an instruction
that is cut off has moved the instruction pointer past the bytes it has. -/

namespace Lox.Execution

/-- Reads the next byte of the innermost call. -/
def readByte : Execution UInt8 := do
  let m ← get
  match m.frames with
  | [] => fail (.invalidBytecode .noFrame)
  | frame :: _ =>
    match (m.heap.function? frame.function).bind (·.chunk.byteAt? frame.ip) with
    | none => fail (.invalidBytecode .pointerOutOfBounds)
    | some byte =>
      modify fun m =>
        match m.frames with
        | [] => m
        | frame :: frames => { m with frames := { frame with ip := frame.ip + 1 } :: frames }
      return byte

/-- Reads a two-byte operand. -/
def readWord : Execution Nat := do
  let low ← readByte
  let high ← readByte
  return wordOf low high

/-- Reads a two-byte operand as a signed number. -/
def readSigned : Execution Int := return signedOf (← readWord)

/-- A constant of the innermost call. -/
def constant (index : Nat) : Execution Value := do
  let m ← get
  match (m.frames.head?.bind fun frame => m.heap.function? frame.function).bind
      (·.chunk.constant? index) with
  | some value => return value
  | none => fail (.invalidBytecode .constantOutOfRange)

/-- Reads the index of a constant that names a variable, and returns the key of the name. -/
def readName : Execution Key := do
  let index ← readByte
  let value ← constant index.toNat
  match value.handle?.bind (← get).heap.key? with
  | some key => return key
  | none => fail (.invalidBytecode .nameNotString)

/-- Stops because a variable has no value. -/
def failUndefined {α : Type} (key : Key) : Execution α := do
  let name := ((← get).heap.string? key.handle).map (·.chars)
  fail (.undefinedVariable (name.getD ""))

/-- Moves the instruction pointer of the innermost call. -/
def jump (distance : Int) : Execution Unit := do
  match (← get).frames with
  | [] => fail (.invalidBytecode .noFrame)
  | frame :: frames =>
    let target := (frame.ip : Int) + distance
    if target < 0 then fail (.invalidBytecode .jumpOutOfRange)
    else modify fun m => { m with frames := { frame with ip := target.toNat } :: frames }

/-- Pushes the value of a global variable. -/
def getGlobal : Execution Unit := do
  let key ← readName
  match (← get).globals.get? key with
  | some value => push value
  | none => failUndefined key

/-- Gives a global variable, new or not, the value on the top, and takes that value. -/
def defineGlobal : Execution Unit := do
  let key ← readName
  let value ← peek 0
  modify fun m => { m with globals := (m.globals.set key value).1 }
  let _ ← pop

/-- Gives a global variable that exists the value on the top. Assigning to a new one would define it,
so that is undone. -/
def setGlobal : Execution Unit := do
  let key ← readName
  let value ← peek 0
  let isNew ← modifyGet fun m =>
    let (globals, isNew) := m.globals.set key value
    (isNew, { m with globals })
  if isNew then
    modify fun m => { m with globals := (m.globals.erase key).1 }
    failUndefined key

/-- Carries out an instruction whose opcode has been read. -/
def execute : Opcode → Execution Flow
  | .constant => do
    let index ← readByte
    push (← constant index.toNat)
    return .next
  | .constantWide => do
    let index ← readWord
    push (← constant index)
    return .next
  | .pushNil => do
    push .nil
    return .next
  | .pushTrue => do
    push (.bool true)
    return .next
  | .pushFalse => do
    push (.bool false)
    return .next
  | .pop => do
    let _ ← pop
    return .next
  | .getLocal => do
    let slot ← readByte
    push (← getSlot slot.toNat)
    return .next
  | .setLocal => do
    let slot ← readByte
    setSlot slot.toNat (← peek 0)
    return .next
  | .getGlobal => do
    getGlobal
    return .next
  | .defineGlobal => do
    defineGlobal
    return .next
  | .setGlobal => do
    setGlobal
    return .next
  | .add => do
    add
    return .next
  | .subtract => do
    arithmetic (· - ·)
    return .next
  | .multiply => do
    arithmetic (· * ·)
    return .next
  | .divide => do
    arithmetic (· / ·)
    return .next
  | .negate => do
    negate
    return .next
  | .equal => do
    compareEqual true
    return .next
  | .notEqual => do
    compareEqual false
    return .next
  | .greater => do
    compare fun a b => b < a
    return .next
  | .greaterEqual => do
    compare fun a b => b ≤ a
    return .next
  | .less => do
    compare fun a b => a < b
    return .next
  | .lessEqual => do
    compare fun a b => a ≤ b
    return .next
  | .not => do
    negateTruth
    return .next
  | .jump | .loop => do
    jump (← readSigned)
    return .next
  | .jumpIfFalse => do
    let distance ← readSigned
    if (← peek 0).isFalsey then jump distance
    return .next
  | .call => do
    let count ← readByte
    callValue (← peek count.toNat) count.toNat
    return .next
  | .ret => returnFrom
  | .print => do
    print
    return .next

/-- Carries out the next instruction. -/
def step : Execution Flow := do
  let byte ← readByte
  match Opcode.ofByte? byte with
  | some op => execute op
  | none => fail (.unknownOpcode byte.toNat)

/-- Carries out instructions until the script is over, at most so many. -/
def steps : Nat → Execution Unit
  | 0 => throw (.fault .exhausted)
  | budget + 1 => do
    match ← step with
    | .halt => return
    | .next => steps budget

end Lox.Execution
