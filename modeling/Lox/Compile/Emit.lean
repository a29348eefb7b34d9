import Lox.Compile.State

/-! The compiler's small steps: taking tokens, opening and closing scopes, and writing code. Every
instruction carries the line of the token taken last. -/

namespace Lox.Compiler

/-- Takes the current token. -/
def advance : Compiler Unit := modify CompileState.advance

/-- Complains about the token taken last. -/
def complain (complaint : Complaint) : Compiler Unit := modify (CompileState.complain complaint)

/-- Complains about the token looked at. -/
def complainHere (complaint : Complaint) : Compiler Unit :=
  modify (CompileState.complainHere complaint)

/-- Whether the current token is of a kind. -/
def sees (kind : TokenKind) : Compiler Bool := return (← get).sees kind

/-- Takes the current token if it is of a kind, and says whether it was. -/
def accept (kind : TokenKind) : Compiler Bool := do
  if ← sees kind then
    advance
    return true
  else return false

/-- Takes the current token if it is of a kind, and complains about it otherwise. -/
def expect (kind : TokenKind) (what : Expectation) : Compiler Unit := do
  if ← sees kind then advance else complainHere (.expected what)

/-- The characters of the token taken last. -/
def previousLexeme : Compiler String := return (← get).previous.lexeme

/-- The offset of the next instruction. -/
def offset : Compiler Nat := return (← get).body.chunk.size

/-- Writes an instruction without operand. -/
def emit (op : Opcode) : Compiler Unit :=
  modify fun s => let line := s.previous.line; s.mapChunk (·.writeOp op line)

/-- Writes an instruction with a one-byte operand. -/
def emitByte (op : Opcode) (operand : Nat) : Compiler Unit :=
  modify fun s => let line := s.previous.line; s.mapChunk (·.writeOpByte op operand.toUInt8 line)

/-- Writes an instruction with a two-byte operand. -/
def emitWord (op : Opcode) (operand : Nat) : Compiler Unit :=
  modify fun s => let line := s.previous.line; s.mapChunk (·.writeOpWord op operand line)

/-- Writes an instruction several times. -/
def emitRepeated (op : Opcode) : Nat → Compiler Unit
  | 0 => return
  | count + 1 => do
    emit op
    emitRepeated op count

/-- Writes the end of a function that has not returned a value. -/
def emitReturn : Compiler Unit := do
  emit .pushNil
  emit .ret

/-- Adds a constant to the innermost function, and returns its index. -/
def addConstant (value : Value) : Compiler Nat := do
  let index := (← get).body.chunk.constants.size
  modify (CompileState.mapChunk fun c => (c.addConstant value).1)
  return index

/-- Writes the instruction that pushes a constant: the short form as long as the index fits one byte,
and the long form while it fits two. -/
def emitConstant (value : Value) : Compiler Unit := do
  let index ← addConstant value
  if index < 256 then emitByte .constant index
  else if index < 65536 then emitWord .constantWide index
  else complain .tooManyConstants

/-- Looks for an object among constants, so many of them from an index on. -/
def findConstant (constants : Array Value) (handle : Handle) : Nat → Nat → Option Nat
  | 0, _ => none
  | count + 1, index =>
    match constants[index]? with
    | some (.object other) =>
      if other = handle then some index else findConstant constants handle count (index + 1)
    | _ => findConstant constants handle count (index + 1)

/-- The index of the first constant that is the given object, if one byte holds it. -/
def nameIndex? (c : Chunk) (handle : Handle) : Option Nat :=
  (findConstant c.constants.items handle c.constants.size 0).filter (· < 256)

/-- The index of a variable's name among the constants. A name that is there already is used again;
global variables are named by one byte. -/
def nameConstant (name : String) : Compiler Nat := do
  let handle ← modifyGet (CompileState.intern name)
  match nameIndex? (← get).body.chunk handle with
  | some index => return index
  | none =>
    let index ← addConstant (.object handle)
    if index < 256 then return index
    else
      complain .tooManyConstants
      return 0

/-- Writes a forward jump, and returns the offset of its operand. -/
def emitJump (op : Opcode) : Compiler Nat := do
  let operand := (← get).body.chunk.size + 1
  modify fun s => let line := s.previous.line; s.mapChunk fun c => (c.writeJump op line).1
  return operand

/-- Turns the failure to write a jump into a complaint. -/
def reportJump : JumpError → Compiler Unit
  | .fault cause => throw cause
  | cause => complain (.badJump cause)

/-- Makes a forward jump land on the next instruction. -/
def patchJump (operand : Nat) : Compiler Unit := do
  match (← get).body.chunk.forwardDistance operand with
  | .ok distance => modify (CompileState.mapChunk (·.setWord operand distance))
  | .error cause => reportJump cause

/-- Writes a jump back to `start`. -/
def emitLoop (start : Nat) : Compiler Unit := do
  match (← get).body.chunk.backwardDistance start with
  | .ok distance =>
    modify fun s => let line := s.previous.line; s.mapChunk (·.writeBack distance line)
  | .error cause => reportJump cause

/-- Enters a scope. -/
def enterScope : Compiler Unit := modify (CompileState.mapScope Scope.enter)

/-- Leaves a scope, and removes its variables from the stack. -/
def leaveScope : Compiler Unit := do
  match (← get).body.scope.leave? with
  | none => throw .underflow
  | some (scope, count) =>
    modify (CompileState.mapScope fun _ => scope)
    emitRepeated .pop count

/-- Marks the variable declared last as initialized. -/
def markInitialized : Compiler Unit := modify (CompileState.mapScope Scope.markInitialized)

/-- Declares the token taken last as a variable, if variables are local here. -/
def declareVariable : Compiler Unit := do
  let s ← get
  if s.body.scope.isLocal then
    match s.body.scope.declare s.previous.lexeme with
    | .ok scope => modify (CompileState.mapScope fun _ => scope)
    | .error cause => complain (.badScope cause)

/-- Takes the name of a new variable and declares it. The result is the index of the name for a
global variable, and zero for a local one. -/
def declareName (what : Expectation) : Compiler Nat := do
  expect .identifier what
  declareVariable
  if (← get).body.scope.isLocal then return 0
  else nameConstant (← previousLexeme)

/-- Lets a declared variable take the value on the top of the stack. A local variable already lies
there. -/
def defineVariable (nameIndex : Nat) : Compiler Unit := do
  if (← get).body.scope.isLocal then markInitialized
  else emitByte .defineGlobal nameIndex

/-- Turns to the body of a new function. -/
def beginFunction (name : Handle) : Compiler Unit := modify (CompileState.openFunction name)

/-- Finishes the innermost function, turns back to the one around it, and returns the function. -/
def endFunction : Compiler Handle := do
  emitReturn
  modifyGet CompileState.closeFunction

end Lox.Compiler
