import Lox.Code.Listing
import Lox.Compile.Scope
import Lox.Log.Journal

/-! The state of a compilation: two tokens of the source and what follows them, the function whose
body is being compiled with those around it, and the findings so far. After a finding the compiler
panics: it keeps quiet until it has found the start of a new statement. -/

namespace Lox

/-- A function whose body is being compiled. -/
structure Body where
  /-- The name, as a string object; the script has none. -/
  name : Option Handle := none
  /-- The number of parameters so far. -/
  arity : Nat := 0
  chunk : Chunk := .empty
  scope : Scope := .start
  deriving Inhabited

/-- The state of a compilation. -/
structure CompileState where
  /-- The token looked at. -/
  current : Token := .start
  /-- The token taken last. -/
  previous : Token := .start
  /-- The tokens after the current one. The last of them is the end token, which is never used up. -/
  rest : List Token
  /-- The findings, the latest first. -/
  findings : List Diagnostic := []
  /-- Whether findings are suppressed. -/
  panicking : Bool := false
  /-- The innermost function. -/
  body : Body := {}
  /-- The functions around it, the innermost first. -/
  enclosing : List Body := []
  heap : Heap
  /-- Whether finished functions are listed in the journal. -/
  printCode : Bool := false
  journal : Journal := .silent

namespace CompileState

/-- Logs an event. -/
def record (s : CompileState) (event : Event) : CompileState :=
  { s with journal := s.journal.record event }

/-- The place that a diagnostic at a token shows. -/
def placeOf (token : Token) : Place :=
  match token.kind with
  | .eof => .finish
  | .error => .unnamed
  | _ => .lexeme token.lexeme

/-- Notes a complaint about a token, unless the compiler is panicking, and panics. -/
def complainAt (token : Token) (complaint : Complaint) (s : CompileState) : CompileState :=
  if s.panicking then s
  else
    let finding := { line := token.line, place := placeOf token, message := complaint.message }
    { s with
      panicking := true
      findings := finding :: s.findings
      journal := s.journal.record (.diagnosed finding) }

/-- Notes a complaint about the token taken last. -/
def complain (complaint : Complaint) (s : CompileState) : CompileState :=
  s.complainAt s.previous complaint

/-- Notes a complaint about the token looked at. -/
def complainHere (complaint : Complaint) (s : CompileState) : CompileState :=
  s.complainAt s.current complaint

/-- Makes the next token the current one, and complains about each stretch of the source that is no
token on the way. -/
def pull : List Token → CompileState → CompileState
  | [], s => { s with current := .start, rest := [] }
  | [last], s => { s with current := last, rest := [last] }
  | token :: next :: rest, s =>
    let s := s.record (.token token)
    if token.kind = .error then
      pull (next :: rest) (s.complainAt token (.badToken token.lexeme))
    else { s with current := token, rest := next :: rest }

/-- Takes the current token. -/
def advance (s : CompileState) : CompileState := pull s.rest { s with previous := s.current }

/-- Whether the current token is of a kind. -/
def sees (s : CompileState) (kind : TokenKind) : Bool := s.current.kind == kind

/-- Changes the code of the innermost function. -/
def mapChunk (f : Chunk → Chunk) (s : CompileState) : CompileState :=
  { s with body := { s.body with chunk := f s.body.chunk } }

/-- Changes the scope of the innermost function. -/
def mapScope (f : Scope → Scope) (s : CompileState) : CompileState :=
  { s with body := { s.body with scope := f s.body.scope } }

/-- The string object with the given characters, made if there is none. -/
def intern (chars : String) (s : CompileState) : Handle × CompileState :=
  let live := s.heap.live
  let (heap, handle) := s.heap.intern chars
  let s := { s with heap }
  (handle, if live < s.heap.live then s.record (.allocated handle) else s)

/-- A new function object. -/
def allocateFunction (f : FunctionObject) (s : CompileState) : Handle × CompileState :=
  let (heap, handle) := s.heap.allocate (.function f)
  (handle, { s with heap, journal := s.journal.record (.allocated handle) })

/-- Lists finished code in the journal, if that is wanted. -/
def listCode (chunk : Chunk) (title : String) (s : CompileState) : CompileState :=
  if s.printCode then s.record (.listed (chunk.listing s.heap title)) else s

/-- Turns to the body of a new function. -/
def openFunction (name : Handle) (s : CompileState) : CompileState :=
  let s := s.record (.functionBegun (s.enclosing.length + 1))
  { s with body := { name := some name }, enclosing := s.body :: s.enclosing }

/-- Turns back from a function whose code is complete to the one around it, and makes it an object. -/
def closeFunction (s : CompileState) : Handle × CompileState :=
  let finished : FunctionObject :=
    { arity := s.body.arity, chunk := s.body.chunk, name := s.body.name }
  let title := s.heap.functionText finished
  let s := s.record (.functionEnded title finished.arity)
  let s :=
    match s.enclosing with
    | [] => { s with body := {} }
    | outer :: enclosing => { s with body := outer, enclosing }
  let s := if s.findings.isEmpty then s.listCode finished.chunk title else s
  s.allocateFunction finished

end CompileState

/-- A step of the compiler: it changes the state, and faults if it would leave the bounds of the data
it works on. -/
abbrev Compiler := EStateM Fault CompileState

end Lox
