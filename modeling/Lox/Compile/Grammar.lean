import Lox.Compile.Emit
import Lox.Compile.Precedence

/-! The grammar, read in one pass that writes code as it goes. Expressions are read by binding
strength, statements by their first word. Every rule takes a budget and hands a smaller one to the
rules it uses; a budget in proportion to the number of tokens never runs out, because between two
tokens only a bounded number of rules is entered. -/

namespace Lox.Compiler

/-- What a rule without budget does. -/
def giveUp {α : Type} : Compiler α := throw .exhausted

/-- Pushes the number that the token taken last denotes. -/
def numberLiteral : Compiler Unit := do
  match Number.ofLiteral? (← previousLexeme).toList with
  | some x => emitConstant (.number x)
  | none => complain .invalidNumber

/-- The characters between the first and the last one; `none` if there are fewer than two. -/
def unquote? (lexeme : String) : Option String :=
  match lexeme.toList with
  | _ :: rest@(_ :: _) => some (String.ofList rest.dropLast)
  | _ => none

/-- Pushes the string that the token taken last denotes, which is its lexeme without the quotes. -/
def stringLiteral : Compiler Unit := do
  match unquote? (← previousLexeme) with
  | some chars =>
    let handle ← modifyGet (CompileState.intern chars)
    emitConstant (.object handle)
  | none => throw .outOfRange

/-- Where a variable lives, with the instructions that read and write it. -/
structure Access where
  read : Opcode
  write : Opcode
  /-- The slot of a local variable, or the index of a global variable's name. -/
  operand : Nat

/-- Finds out where a variable lives; `none` after a complaint. -/
def accessOf (name : String) : Compiler (Option Access) := do
  match (← get).body.scope.resolve name with
  | .ok (some slot) => return some ⟨.getLocal, .setLocal, slot⟩
  | .ok none => return some ⟨.getGlobal, .setGlobal, ← nameConstant name⟩
  | .error cause =>
    complain (.badScope cause)
    return none

/-- Takes one argument more into account; one byte counts them. -/
def countArgument (count : Nat) : Compiler Nat := do
  if count = 255 then
    complain .tooManyArguments
    return count
  else return count + 1

mutual

/-- Reads an expression whose operators bind at least as tightly as `strength`. Only a loose enough
expression may be assigned to. -/
def expressionOf (strength : Precedence) : Nat → Compiler Unit
  | 0 => giveUp
  | budget + 1 => do
    advance
    match opening? (← get).previous.kind with
    | none => complain .expectExpression
    | some opening =>
      let canAssign := decide (strength ≤ .assignment)
      openWith opening canAssign budget
      joinAll strength budget
      if canAssign then
        if ← accept .equal then complain .invalidAssignmentTarget

/-- Reads the operators and right operands that follow an operand, as long as they bind at least as
tightly as `strength`. -/
def joinAll (strength : Precedence) : Nat → Compiler Unit
  | 0 => giveUp
  | budget + 1 => do
    match joining? (← get).current.kind with
    | some (joining, binding) =>
      if strength ≤ binding then
        advance
        joinWith joining binding budget
        joinAll strength budget
    | none => return

/-- Reads the rest of an expression that starts with the token taken last. -/
def openWith (opening : Opening) (canAssign : Bool) : Nat → Compiler Unit
  | 0 => giveUp
  | budget + 1 => do
    match opening with
    | .grouping =>
      expressionOf .assignment budget
      expect .rightParen .parenAfterExpression
    | .unary op =>
      expressionOf .unary budget
      emit op
    | .number => numberLiteral
    | .string => stringLiteral
    | .literal op => emit op
    | .variable =>
      match ← accessOf (← previousLexeme) with
      | none => return
      | some access =>
        let assigns ← if canAssign then accept .equal else pure false
        if assigns then
          expressionOf .assignment budget
          emitByte access.write access.operand
        else emitByte access.read access.operand

/-- Reads what follows an operator after its left operand. A skipped right operand is jumped over,
and the left operand stays as the value. -/
def joinWith (joining : Joining) (binding : Precedence) : Nat → Compiler Unit
  | 0 => giveUp
  | budget + 1 => do
    match joining with
    | .binary op =>
      expressionOf binding.next budget
      emit op
    | .and =>
      let finish ← emitJump .jumpIfFalse
      emit .pop
      expressionOf .and budget
      patchJump finish
    | .or =>
      let right ← emitJump .jumpIfFalse
      let finish ← emitJump .jump
      patchJump right
      emit .pop
      expressionOf .or budget
      patchJump finish
    | .call =>
      let count ← if ← sees .rightParen then pure 0 else arguments 0 budget
      expect .rightParen .parenAfterArguments
      emitByte .call count

/-- Reads arguments separated by commas, after `count` of them, and returns their number. -/
def arguments (count : Nat) : Nat → Compiler Nat
  | 0 => giveUp
  | budget + 1 => do
    expressionOf .assignment budget
    let count ← countArgument count
    if ← accept .comma then arguments count budget else return count

end

/-- Reads any expression. -/
def expression (budget : Nat) : Compiler Unit := expressionOf .assignment budget

/-- Reads an expression and a semicolon, and drops the value. -/
def expressionStatement (budget : Nat) : Compiler Unit := do
  expression budget
  expect .semicolon .semicolonAfterExpression
  emit .pop

/-- Reads what follows `print`. -/
def printStatement (budget : Nat) : Compiler Unit := do
  expression budget
  expect .semicolon .semicolonAfterValue
  emit .print

/-- Reads what follows `return`. At the top level it ends the script with a value. -/
def returnStatement (budget : Nat) : Compiler Unit := do
  if ← accept .semicolon then emitReturn
  else
    expression budget
    expect .semicolon .semicolonAfterReturn
    emit .ret

/-- Reads what follows `var`. -/
def varDeclaration (budget : Nat) : Compiler Unit := do
  let nameIndex ← declareName .variableName
  if ← accept .equal then expression budget else emit .pushNil
  expect .semicolon .semicolonAfterVariable
  defineVariable nameIndex

/-- Reads the first clause of a `for` loop. -/
def forInitializer (budget : Nat) : Compiler Unit := do
  if ← accept .varWord then varDeclaration budget
  else if !(← accept .semicolon) then expressionStatement budget

/-- Reads the condition of a `for` loop, and returns the jump that leaves the loop, if there is a
condition. -/
def forCondition (budget : Nat) : Compiler (Option Nat) := do
  if ← accept .semicolon then return none
  else
    expression budget
    expect .semicolon .semicolonAfterCondition
    let exit ← emitJump .jumpIfFalse
    emit .pop
    return some exit

/-- Reads the increment of a `for` loop that starts at `start`, and returns where the body jumps back
to. The increment stands before the body and runs after it: the code jumps over it at first, and
comes back to it from the end of the body. -/
def forIncrement (start : Nat) (budget : Nat) : Compiler Nat := do
  if ← accept .rightParen then return start
  else
    let body ← emitJump .jump
    let increment ← offset
    expression budget
    emit .pop
    expect .rightParen .parenAfterClauses
    emitLoop start
    patchJump body
    return increment

/-- Ends a `for` loop: its exit jump, if it has one, lands here and drops the condition. -/
def forExit : Option Nat → Compiler Unit
  | none => return
  | some exit => do
    patchJump exit
    emit .pop

/-- Takes one parameter more into account; one byte counts them. -/
def countParameter : Compiler Unit := do
  if (← get).body.arity = 255 then complainHere .tooManyParameters
  else modify fun s => { s with body := { s.body with arity := s.body.arity + 1 } }

/-- Reads parameters separated by commas. -/
def parameters : Nat → Compiler Unit
  | 0 => giveUp
  | budget + 1 => do
    countParameter
    let nameIndex ← declareName .parameterName
    defineVariable nameIndex
    if ← accept .comma then parameters budget

/-- Whether a token starts a statement, so that a panicking compiler may go on from there. -/
def startsStatement : TokenKind → Bool
  | .classWord | .funWord | .varWord | .forWord => true
  | .ifWord | .whileWord | .printWord | .returnWord => true
  | _ => false

/-- Drops tokens up to the end of a statement or the start of one. -/
def skipStatement : Nat → Compiler Unit
  | 0 => giveUp
  | budget + 1 => do
    let s ← get
    if s.current.kind = .eof || s.previous.kind = .semicolon || startsStatement s.current.kind then
      return
    else
      advance
      skipStatement budget

/-- Ends a panic at the next statement. -/
def synchronize (budget : Nat) : Compiler Unit := do
  if (← get).panicking then
    modify fun s => { s with panicking := false }
    skipStatement budget

mutual

/-- Reads a declaration or a statement, and gets over a panic at its end. -/
def declaration : Nat → Compiler Unit
  | 0 => giveUp
  | budget + 1 => do
    if ← accept .funWord then funDeclaration budget
    else if ← accept .varWord then varDeclaration budget
    else if ← accept .classWord then complain .classesUnsupported
    else statement budget
    synchronize budget

/-- Reads what follows `fun`. The function may refer to itself, so its variable counts as initialized
before the body. -/
def funDeclaration : Nat → Compiler Unit
  | 0 => giveUp
  | budget + 1 => do
    let nameIndex ← declareName .functionName
    markInitialized
    functionBody budget
    defineVariable nameIndex

/-- Reads the parameters and the body of the function named by the token taken last, and pushes the
function. The scope of the body ends with the function, so nothing is removed from the stack. -/
def functionBody : Nat → Compiler Unit
  | 0 => giveUp
  | budget + 1 => do
    let name ← modifyGet (CompileState.intern (← previousLexeme))
    beginFunction name
    enterScope
    expect .leftParen .parenAfterFunctionName
    if !(← sees .rightParen) then parameters budget
    expect .rightParen .parenAfterParameters
    expect .leftBrace .braceBeforeBody
    block budget
    let function ← endFunction
    emitConstant (.object function)

/-- Reads a statement. -/
def statement : Nat → Compiler Unit
  | 0 => giveUp
  | budget + 1 => do
    if ← accept .printWord then printStatement budget
    else if ← accept .forWord then forStatement budget
    else if ← accept .ifWord then ifStatement budget
    else if ← accept .returnWord then returnStatement budget
    else if ← accept .whileWord then whileStatement budget
    else if ← accept .leftBrace then
      enterScope
      block budget
      leaveScope
    else expressionStatement budget

/-- Reads declarations up to a closing brace, and the brace. -/
def block : Nat → Compiler Unit
  | 0 => giveUp
  | budget + 1 => do
    let s ← get
    if s.sees .rightBrace || s.sees .eof then expect .rightBrace .braceAfterBlock
    else
      declaration budget
      block budget

/-- Reads what follows `if`. Both ways drop the condition. -/
def ifStatement : Nat → Compiler Unit
  | 0 => giveUp
  | budget + 1 => do
    expect .leftParen .parenAfterIf
    expression budget
    expect .rightParen .parenAfterCondition
    let otherwise ← emitJump .jumpIfFalse
    emit .pop
    statement budget
    let finish ← emitJump .jump
    patchJump otherwise
    emit .pop
    if ← accept .elseWord then statement budget
    patchJump finish

/-- Reads what follows `while`. -/
def whileStatement : Nat → Compiler Unit
  | 0 => giveUp
  | budget + 1 => do
    let start ← offset
    expect .leftParen .parenAfterWhile
    expression budget
    expect .rightParen .parenAfterCondition
    let exit ← emitJump .jumpIfFalse
    emit .pop
    statement budget
    emitLoop start
    patchJump exit
    emit .pop

/-- Reads what follows `for`. The variable of the first clause lives as long as the loop. -/
def forStatement : Nat → Compiler Unit
  | 0 => giveUp
  | budget + 1 => do
    enterScope
    expect .leftParen .parenAfterFor
    forInitializer budget
    let start ← offset
    let exit ← forCondition budget
    let start ← forIncrement start budget
    statement budget
    emitLoop start
    forExit exit
    leaveScope

end

/-- Reads declarations up to the end of the source. -/
def program : Nat → Compiler Unit
  | 0 => giveUp
  | budget + 1 => do
    if ← accept .eof then return
    else
      declaration budget
      program budget

end Lox.Compiler
