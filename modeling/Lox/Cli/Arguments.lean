import Lox.Log.Line
import Lox.Report

/-! The command line. Arguments are read from left to right; the first one that is wrong, or that asks
for help or the version, decides. Options may stand before and after the script, a value may follow
its option or be joined to it by an equals sign, and after `--` everything is a script name. -/

namespace Lox

/-- The format with a given name. -/
def LogFormat.ofName? : String → Option LogFormat
  | "pretty" => some .pretty
  | "compact" => some .compact
  | "json" => some .json
  | _ => none

/-- The format with a given name. -/
def ErrorFormat.ofName? : String → Option ErrorFormat
  | "text" => some .text
  | "json" => some .json
  | _ => none

/-- An option that takes a value. -/
inductive ValueOption where
  | config
  | logLevel
  | logFormat
  | logFile
  | errorFormat
  deriving DecidableEq, Repr

/-- The option with a given name. -/
def ValueOption.ofName? : String → Option ValueOption
  | "config" => some .config
  | "log-level" => some .logLevel
  | "log-format" => some .logFormat
  | "log-file" => some .logFile
  | "error-format" => some .errorFormat
  | _ => none

/-- What the command line says. What was not said is `none`. -/
structure Arguments where
  script : Option String := none
  config : Option String := none
  logLevel : Option String := none
  logFormat : Option LogFormat := none
  logFile : Option String := none
  dumpBytecode : Bool := false
  errorFormat : Option ErrorFormat := none
  deriving DecidableEq, Repr

/-- Why a command line leads to no run. -/
inductive ArgumentStop where
  | help
  | version
  /-- The command line is wrong. -/
  | usage
  deriving DecidableEq, Repr

namespace Arguments

/-- Sets something that may be set only once. -/
def once {α : Type} (old : Option α) (new : Option α) : Except ArgumentStop (Option α) :=
  match old, new with
  | none, some value => .ok (some value)
  | _, _ => .error .usage

/-- A file name, which is not empty. -/
def fileName? (text : String) : Option String := if text.isEmpty then none else some text

/-- Gives an option its value. -/
def assign (a : Arguments) (option : ValueOption) (value : String) : Except ArgumentStop Arguments := do
  match option with
  | .config => return { a with config := ← once a.config (fileName? value) }
  | .logLevel => return { a with logLevel := ← once a.logLevel (some value) }
  | .logFormat => return { a with logFormat := ← once a.logFormat (LogFormat.ofName? value) }
  | .logFile => return { a with logFile := ← once a.logFile (fileName? value) }
  | .errorFormat => return { a with errorFormat := ← once a.errorFormat (ErrorFormat.ofName? value) }

/-- Takes the name of the script. -/
def setScript (a : Arguments) (value : String) : Except ArgumentStop Arguments := do
  return { a with script := ← once a.script (fileName? value) }

/-- A long option, cut at its first equals sign. -/
def splitOption (option : List Char) : String × Option String :=
  match option.span (· != '=') with
  | (name, '=' :: value) => (String.ofList name, some (String.ofList value))
  | (name, _) => (String.ofList name, none)

/-- What a one-letter option asks for. In a cluster of letters the first one decides, because none of
them leads to a run. -/
def letter : Char → ArgumentStop
  | 'h' => .help
  | 'V' => .version
  | _ => .usage

/-- Whether an argument looks like an option, so that it is no value of the option before it. -/
def looksLikeOption (argument : String) : Bool :=
  match argument.toList with
  | '-' :: _ :: _ => true
  | _ => false

/-- Reads the arguments after `--`. -/
def readScripts (a : Arguments) : List String → Except ArgumentStop Arguments
  | [] => .ok a
  | argument :: rest => do readScripts (← a.setScript argument) rest

/-- Reads the arguments. -/
def read (a : Arguments) : List String → Except ArgumentStop Arguments
  | [] => .ok a
  | argument :: rest =>
    match argument.toList with
    | ['-', '-'] => a.readScripts rest
    | '-' :: '-' :: option =>
      let (name, value) := splitOption option
      match ValueOption.ofName? name, value, rest with
      | some option, some value, rest => do read (← a.assign option value) rest
      | some option, none, value :: rest =>
        if looksLikeOption value then .error .usage else do read (← a.assign option value) rest
      | some _, none, [] => .error .usage
      | none, some _, _ => .error .usage
      | none, none, rest =>
        if name = "help" then .error .help
        else if name = "version" then .error .version
        else if name = "dump-bytecode" ∧ !a.dumpBytecode then
          read { a with dumpBytecode := true } rest
        else .error .usage
    | '-' :: c :: _ => .error (letter c)
    | _ => do read (← a.setScript argument) rest

/-- The arguments of a command line. -/
def parse (arguments : List String) : Except ArgumentStop Arguments := read {} arguments

end Arguments

end Lox
