import Lox.Code.Chunk

/-! What the compiler says about a source that it refuses. A complaint is a cause; a diagnostic is
the wording of a complaint at a place of the source. -/

namespace Lox

/-- What is wrong with the declaration or the use of a local variable. -/
inductive ScopeError where
  | tooManyLocals
  | alreadyDeclared
  | readInOwnInitializer
  deriving DecidableEq, Repr

/-- The text of a scope error. -/
def ScopeError.message : ScopeError → String
  | .tooManyLocals => "Too many local variables in function."
  | .alreadyDeclared => "Already a variable with this name in this scope."
  | .readInOwnInitializer => "Can't read local variable in its own initializer."

/-- A token that the grammar demands. -/
inductive Expectation where
  | functionName
  | parenAfterFunctionName
  | parameterName
  | parenAfterParameters
  | braceBeforeBody
  | variableName
  | semicolonAfterVariable
  | braceAfterBlock
  | semicolonAfterValue
  | semicolonAfterExpression
  | semicolonAfterReturn
  | parenAfterIf
  | parenAfterCondition
  | parenAfterWhile
  | parenAfterFor
  | semicolonAfterCondition
  | parenAfterClauses
  | parenAfterExpression
  | parenAfterArguments
  deriving DecidableEq, Repr

/-- The text of an expectation that is not met. -/
def Expectation.message : Expectation → String
  | .functionName => "Expect function name."
  | .parenAfterFunctionName => "Expect '(' after function name."
  | .parameterName => "Expect parameter name."
  | .parenAfterParameters => "Expect ')' after parameters."
  | .braceBeforeBody => "Expect '\x7b' before function body."
  | .variableName => "Expect variable name."
  | .semicolonAfterVariable => "Expect ';' after variable declaration."
  | .braceAfterBlock => "Expect '\x7d' after block."
  | .semicolonAfterValue => "Expect ';' after value."
  | .semicolonAfterExpression => "Expect ';' after expression."
  | .semicolonAfterReturn => "Expect ';' after return value."
  | .parenAfterIf => "Expect '(' after 'if'."
  | .parenAfterCondition => "Expect ')' after condition."
  | .parenAfterWhile => "Expect '(' after 'while'."
  | .parenAfterFor => "Expect '(' after 'for'."
  | .semicolonAfterCondition => "Expect ';' after loop condition."
  | .parenAfterClauses => "Expect ')' after for clauses."
  | .parenAfterExpression => "Expect ')' after expression."
  | .parenAfterArguments => "Expect ')' after arguments."

/-- Why a source is refused. -/
inductive Complaint where
  /-- A stretch of the source is no token. -/
  | badToken (message : String)
  /-- A token that the grammar demands is missing. -/
  | expected (what : Expectation)
  | expectExpression
  | invalidAssignmentTarget
  | invalidNumber
  | classesUnsupported
  | tooManyArguments
  | tooManyParameters
  | tooManyConstants
  | badScope (cause : ScopeError)
  | badJump (cause : JumpError)
  deriving DecidableEq, Repr

/-- The text of a complaint. -/
def Complaint.message : Complaint → String
  | .badToken message => message
  | .expected what => what.message
  | .expectExpression => "Expect expression."
  | .invalidAssignmentTarget => "Invalid assignment target."
  | .invalidNumber => "Invalid number literal."
  | .classesUnsupported => "Classes are not supported."
  | .tooManyArguments => "Can't have more than 255 arguments."
  | .tooManyParameters => "Can't have more than 255 parameters."
  | .tooManyConstants => "Too many constants in one chunk."
  | .badScope cause => cause.message
  | .badJump cause => cause.message

/-- Where in its line a diagnostic points. -/
inductive Place where
  /-- At a word of the source. -/
  | lexeme (text : String)
  /-- At the end of the source. -/
  | finish
  /-- Nowhere: the text there is no word. -/
  | unnamed
  deriving DecidableEq, Repr

/-- How a place reads after the word "Error". -/
def Place.text : Place → String
  | .lexeme text => " at '" ++ text ++ "'"
  | .finish => " at end"
  | .unnamed => ""

/-- One finding of the compiler. -/
structure Diagnostic where
  line : Nat
  place : Place
  message : String
  deriving DecidableEq, Repr

/-- A diagnostic as one line of text. -/
def Diagnostic.text (d : Diagnostic) : String :=
  "[line " ++ toString d.line ++ "] Error" ++ d.place.text ++ ": " ++ d.message

/-- The findings about a source that was refused, in the order in which they were made. -/
structure CompileError where
  diagnostics : List Diagnostic
  deriving DecidableEq, Repr

namespace CompileError

/-- All findings, one per line. -/
def text (e : CompileError) : String := "\n".intercalate (e.diagnostics.map Diagnostic.text)

/-- The line of the first finding. -/
def line? (e : CompileError) : Option Nat := e.diagnostics.head?.map (·.line)

end CompileError

end Lox
