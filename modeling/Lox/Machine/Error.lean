/-! Errors of a running program. The kind says what went wrong; a runtime error adds the line and the
functions that were active, the innermost first. -/

namespace Lox

/-- What makes code that no compiler would write unfit to run. -/
inductive Flaw where
  | noFrame
  | pointerOutOfBounds
  | constantOutOfRange
  | nameNotString
  | jumpOutOfRange
  | returnWithoutFrame
  /-- A flaw in the host's own words. -/
  | other (text : String)
  deriving DecidableEq, Repr

/-- The text of a flaw. -/
def Flaw.text : Flaw → String
  | .noFrame => "no active call frame"
  | .pointerOutOfBounds => "instruction pointer out of bounds"
  | .constantOutOfRange => "constant index out of range"
  | .nameNotString => "variable name is not a string"
  | .jumpOutOfRange => "jump target out of range"
  | .returnWithoutFrame => "return without a call frame"
  | .other text => text

/-- What went wrong in a running program. -/
inductive ErrorKind where
  | operandMustBeNumber
  | operandsMustBeNumbers
  | operandsMustBeNumbersOrStrings
  | undefinedVariable (name : String)
  | notCallable
  | arityMismatch (expected got : Nat)
  | stackOverflow
  | stackUnderflow
  | unknownOpcode (byte : Nat)
  | invalidBytecode (flaw : Flaw)
  | output (reason : String)
  deriving DecidableEq, Repr

namespace ErrorKind

/-- The text of an error. -/
def message : ErrorKind → String
  | .operandMustBeNumber => "Operand must be a number."
  | .operandsMustBeNumbers => "Operands must be numbers."
  | .operandsMustBeNumbersOrStrings => "Operands must be two numbers or two strings."
  | .undefinedVariable name => "Undefined variable '" ++ name ++ "'."
  | .notCallable => "Can only call functions and classes."
  | .arityMismatch expected got =>
    "Expected " ++ toString expected ++ " arguments but got " ++ toString got ++ "."
  | .stackOverflow => "Stack overflow."
  | .stackUnderflow => "Stack underflow."
  | .unknownOpcode byte => "Unknown opcode " ++ toString byte ++ "."
  | .invalidBytecode flaw => "Invalid bytecode: " ++ flaw.text ++ "."
  | .output reason => "Failed to write output: " ++ reason ++ "."

/-- The name of an error, for tools. -/
def name : ErrorKind → String
  | .operandMustBeNumber => "OperandMustBeNumber"
  | .operandsMustBeNumbers => "OperandsMustBeNumbers"
  | .operandsMustBeNumbersOrStrings => "OperandsMustBeNumbersOrStrings"
  | .undefinedVariable _ => "UndefinedVariable"
  | .notCallable => "NotCallable"
  | .arityMismatch _ _ => "ArityMismatch"
  | .stackOverflow => "StackOverflow"
  | .stackUnderflow => "StackUnderflow"
  | .unknownOpcode _ => "UnknownOpcode"
  | .invalidBytecode _ => "InvalidBytecode"
  | .output _ => "Output"

end ErrorKind

/-- An active function and the line it was executing. -/
structure TraceEntry where
  line : Nat
  /-- The name of the function; the script has none. -/
  function : Option String
  deriving DecidableEq, Repr

/-- A trace entry as one line of text. -/
def TraceEntry.text (e : TraceEntry) : String :=
  let place := match e.function with
    | some name => name ++ "()"
    | none => "script"
  "[line " ++ toString e.line ++ "] in " ++ place

/-- An error with the place where it happened. -/
structure RuntimeError where
  kind : ErrorKind
  /-- The line of the failing instruction, and zero if no function was active. -/
  line : Nat
  /-- The active functions, the innermost first. -/
  trace : List TraceEntry
  deriving DecidableEq, Repr

/-- A runtime error as text: the message, then one line for each active function. -/
def RuntimeError.text (e : RuntimeError) : String :=
  e.kind.message ++ "\n" ++ "\n".intercalate (e.trace.map TraceEntry.text)

end Lox
