import Lox.Compile.Grammar
import Lox.Token.Lexer

/-! Compiling a source. The result is the script as a function object, or the findings about a source
that is refused. Either way the heap keeps the strings and functions that were made on the way. -/

namespace Lox

/-- What compiling a source comes to. -/
structure Compilation where
  /-- The script, or what is wrong with the source. -/
  result : Except CompileError Handle
  heap : Heap
  journal : Journal

/-- A budget for a source with so many tokens. -/
def compileBudget (tokens : Nat) : Nat := 16 * (tokens + 4)

/-- Ends a compilation: the script ends like any function, and it becomes an object unless something
was found. -/
def CompileState.finish (s : CompileState) : Compilation :=
  if s.findings.isEmpty then
    let script : FunctionObject :=
      { arity := s.body.arity, chunk := s.body.chunk, name := s.body.name }
    let s := s.listCode script.chunk "<script>"
    let (handle, s) := s.allocateFunction script
    { result := .ok handle, heap := s.heap, journal := s.journal }
  else
    let s := s.record (.compileFailed s.findings.length)
    { result := .error ⟨s.findings.reverse⟩, heap := s.heap, journal := s.journal }

/-- Reads a whole source. -/
def Compiler.script (budget : Nat) : Compiler Compilation := do
  advance
  program budget
  emitReturn
  return (← get).finish

/-- Compiles a source into a heap. With `printCode` every finished function is listed in the
journal. -/
def compile (source : String) (heap : Heap) (printCode : Bool) (journal : Journal) :
    Except Fault Compilation :=
  let tokens := tokenize source
  match (Compiler.script (compileBudget tokens.length)).run { rest := tokens, heap, printCode, journal } with
  | .ok compilation _ => .ok compilation
  | .error fault _ => .error fault

end Lox
