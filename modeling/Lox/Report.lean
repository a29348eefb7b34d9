import Lox.Compile.Diagnostic
import Lox.Machine.Error
import Lox.Text.Column
import Lox.Text.Json
import Lox.Text.Lines

/-! How failures are reported: as text with the lines of the source around the failing one, or as one
line of JSON for tools. -/

namespace Lox

/-- Why a source gave no result. -/
inductive LoxError where
  | compile (e : CompileError)
  | runtime (e : RuntimeError)
  deriving Repr

/-- A failure in the form that tools consume. -/
structure Report where
  phase : String
  line : Option Nat
  errorKind : String
  message : String
  /-- Further diagnostics, or the active functions. -/
  details : List String
  deriving DecidableEq, Repr

namespace Report

/-- A report as one line of text. -/
def text (r : Report) : String :=
  let place := match r.line with
    | some line => "[line " ++ toString line ++ "] "
    | none => ""
  place ++ r.phase ++ " error: " ++ r.message

/-- A report as compact JSON. -/
def json (r : Report) : String :=
  let line := match r.line with
    | some line => toString line
    | none => "null"
  "\x7b\"phase\":" ++ Text.jsonString r.phase
    ++ ",\"line\":" ++ line
    ++ ",\"error_kind\":" ++ Text.jsonString r.errorKind
    ++ ",\"message\":" ++ Text.jsonString r.message
    ++ ",\"details\":" ++ Text.jsonStrings r.details ++ "\x7d"

end Report

namespace LoxError

/-- The line of a failure, if it has one. -/
def line? : LoxError → Option Nat
  | .compile e => e.line?
  | .runtime e => some e.line

/-- The text of a failure. -/
def text : LoxError → String
  | .compile e => e.text
  | .runtime e => e.text

/-- The report of a failure. The first diagnostic is the message and the others are details; a runtime
error has the active functions as details. -/
def report : LoxError → Report
  | .compile e =>
    let messages := e.diagnostics.map Diagnostic.text
    { phase := "compile"
      line := e.line?
      errorKind := "CompileError"
      message := messages.head?.getD ""
      details := messages.tail }
  | .runtime e =>
    { phase := "runtime"
      line := some e.line
      errorKind := e.kind.name
      message := e.kind.message
      details := e.trace.map TraceEntry.text }

end LoxError

/-- The number of lines that are shown before and after a failing one. -/
def excerptMargin : Nat := 2

/-- One line of an excerpt: a mark at the failing line, the number, and the line itself. -/
def excerptLine (failing width : Nat) (number : Nat) (text : String) : String :=
  let mark := if number = failing then "> " else "  "
  mark ++ Text.alignRight width ' ' (toString number) ++ " | " ++ text ++ "\n"

/-- The lines of a source around a failing one, with the numbers in a column; `none` if there is no
such line. -/
def excerpt? (source : String) (failing : Nat) : Option String :=
  let lines := Text.lines source
  if failing = 0 ∨ lines.length < failing then none
  else
    let first := max (failing - excerptMargin) 1
    let last := min (failing + excerptMargin) lines.length
    let width := (toString last).length
    let shown := (lines.drop (first - 1)).take (last + 1 - first)
    some (String.join ((shown.zipIdx first).map fun (text, number) =>
      excerptLine failing width number text))

/-- How failures are written. -/
inductive ErrorFormat where
  | text
  | json
  deriving DecidableEq, Repr, Inhabited

/-- A failure as it is shown to the user, with the source that it is about. -/
def LoxError.render (e : LoxError) (source : String) : ErrorFormat → String
  | .json => e.report.json ++ "\n"
  | .text => e.text ++ "\n" ++ ((e.line?.bind (excerpt? source)).getD "")

end Lox
