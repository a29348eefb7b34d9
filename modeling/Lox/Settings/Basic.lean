import Lox.Log.Filter
import Lox.Machine.Basic
import Lox.Session
import Lox.Settings.Json

/-! The configuration file. It has three groups of settings: the compiler's, the limits and the
logging levels. A group is an object with named fields, or an array of its fields in order; what is
missing takes its default, and names that mean nothing are passed over. Anything else makes the whole
file invalid. -/

namespace Lox

/-- What a configuration file says. -/
structure Settings where
  /-- Whether compiled functions are listed in the journal. -/
  printCode : Bool := false
  limits : Limits := {}
  logging : Logging := {}
  deriving DecidableEq, Repr, Inhabited

namespace Settings

/-- Finds a field by name among members: `none` if a name cannot be read or if the field stands there
twice, and otherwise its value if it has one. -/
def member? (name : String) (found : Option Json) : List (List TextUnit × Json) → Option (Option Json)
  | [] => some found
  | (units, value) :: rest =>
    match Json.textOf? [] units with
    | none => none
    | some other =>
      if other = name then
        match found with
        | none => member? name (some value) rest
        | some _ => none
      else member? name found rest

/-- The values of the fields of a group, in the order of their names; `none` if this is no such
group. -/
def fields? (names : List String) : Json → Option (List (Option Json))
  | .object members => names.mapM fun name => member? name none members
  | .array items =>
    if items.length ≤ names.length then
      some (items.map some ++ List.replicate (names.length - items.length) none)
    else none
  | _ => none

/-- Reads a field that may be missing. -/
def orDefault {α : Type} (read? : Json → Option α) (default : α) : Option Json → Option α
  | none => some default
  | some value => read? value

/-- Reads a truth value. -/
def bool? : Json → Option Bool
  | .bool b => some b
  | _ => none

/-- Reads a size: a plain natural number that fits 64 bits. -/
def size? : Json → Option Nat
  | .number literal =>
    if literal.all Json.isDigit then
      let n := Number.digitsValue 0 literal
      if n < wordLimit then some n else none
    else none
  | _ => none

/-- Reads the name of a level. -/
def levelName? (units : List TextUnit) : Option LogLevel :=
  (Json.textOf? [] units).bind LogLevel.ofName?

/-- Reads a level: its name, or an object with the name and nothing. -/
def level? : Json → Option LogLevel
  | .string units => levelName? units
  | .object [(units, .null)] => levelName? units
  | _ => none

/-- Reads a level that may be null. -/
def optionalLevel? : Json → Option (Option LogLevel)
  | .null => some none
  | value => (level? value).map some

/-- Reads the compiler's settings. -/
def compiler? (value : Json) : Option Bool := do
  match ← fields? ["print_code"] value with
  | [printCode] => orDefault bool? false printCode
  | _ => none

/-- Reads the limits. -/
def limits? (value : Json) : Option Limits := do
  let standard : Limits := {}
  match ← fields? ["stack_max", "frames_max"] value with
  | [stackMax, framesMax] =>
    return { stackMax := ← orDefault size? standard.stackMax stackMax
             framesMax := ← orDefault size? standard.framesMax framesMax }
  | _ => none

/-- Reads the logging levels. -/
def logging? (value : Json) : Option Logging := do
  match ← fields? ["level", "scanner", "compiler", "vm"] value with
  | [level, scanner, compiler, vm] =>
    return { level := ← orDefault level? .warn level
             scanner := ← orDefault optionalLevel? none scanner
             compiler := ← orDefault optionalLevel? none compiler
             vm := ← orDefault optionalLevel? none vm }
  | _ => none

/-- Reads the settings. -/
def ofJson? (value : Json) : Option Settings := do
  match ← fields? ["compiler", "limits", "logging"] value with
  | [compiler, limits, logging] =>
    return { printCode := ← orDefault compiler? false compiler
             limits := ← orDefault limits? {} limits
             logging := ← orDefault logging? {} logging }
  | _ => none

/-- Reads the text of a configuration file. -/
def parse? (text : String) : Option Settings := (Json.parse? text).bind ofJson?

/-- How a source is run under these settings. -/
def runOptions (s : Settings) : RunOptions := { printCode := s.printCode, limits := s.limits }

end Settings

/-- Options that are installed once for a whole process. -/
structure Installed where
  options : Option RunOptions := none
  deriving DecidableEq, Repr, Inhabited

namespace Installed

/-- Whether options are installed. -/
def isInitialized (i : Installed) : Bool := i.options.isSome

/-- Installs options, unless some are installed already; the result says whether they were. -/
def install (i : Installed) (options : RunOptions) : Bool × Installed :=
  match i.options with
  | none => (true, { options := some options })
  | some _ => (false, i)

/-- The options in force. Where none are installed the standard ones are. -/
def current (i : Installed) : RunOptions × Installed :=
  match i.options with
  | some options => (options, i)
  | none => ({}, { options := some {} })

end Installed

end Lox
