import Lox.Cli.Arguments
import Lox.Cli.Terminal
import Lox.Log.Line
import Lox.Settings.Basic

/-! The command: it runs a script file, or reads sources from its input line by line on one machine.
Everything goes through a terminal, so the command is the same on real files and on plain data. -/

namespace Lox

/-- How the command ends. -/
inductive ExitCode where
  | success
  /-- The command line or the configuration is wrong. -/
  | usage
  /-- The script does not compile. -/
  | dataError
  /-- The script failed. -/
  | software
  /-- A file or the input cannot be read. -/
  | ioError
  deriving DecidableEq, Repr

/-- The number of an exit code. -/
def ExitCode.toNat : ExitCode → Nat
  | .success => 0
  | .usage => 64
  | .dataError => 65
  | .software => 70
  | .ioError => 74

/-- The exit code of a script that failed. -/
def LoxError.exitCode : LoxError → ExitCode
  | .compile _ => .dataError
  | .runtime _ => .software

/-- How the command was asked to work. -/
structure Shell where
  options : RunOptions
  filter : Filter
  logFormat : LogFormat
  logFile : Option String
  errorFormat : ErrorFormat

namespace Shell

variable {m : Type → Type} [Monad m]

/-- The number of instructions between two looks at the terminal. -/
def batch : Nat := 1000000

/-- Writes log lines. -/
def log (shell : Shell) (t : Terminal m) : List Event → m Unit
  | [] => return
  | e :: rest => do
    t.writeErr (e.line shell.logFormat)
    match shell.logFile with
    | some path => t.appendLog path (e.fileLine (← t.readMicros))
    | none => pure ()
    log shell t rest

/-- Hands what the machine has printed and logged to the terminal. -/
def relay (shell : Shell) (t : Terminal m) (machine : Machine) : m Machine := do
  let (bytes, output) := machine.output.drain
  t.writeOut bytes
  shell.log t machine.journal.events.toList
  return { machine with output, journal := { machine.journal with events := #[] } }

/-- Goes on with a run, batch by batch. The clock is looked at before each batch. -/
def drive (shell : Shell) (t : Terminal m) : Nat → Machine → m (Progress × Machine)
  | 0, machine => return (.paused, machine)
  | batches + 1, machine => do
    let clock := .constant (← t.readClock)
    let (progress, machine) := { machine with clock }.resume batch
    let machine ← shell.relay t machine
    match progress with
    | .paused => drive shell t batches machine
    | _ => return (progress, machine)

/-- Compiles a source and runs it on a machine. -/
def perform (shell : Shell) (t : Terminal m) (batches : Nat) (machine : Machine) (source : String) :
    m (Except Fault (Except LoxError (Option String) × Machine)) := do
  match machine.prepare source shell.options.dumpBytecode with
  | .error cause => return .error cause
  | .ok (.error e, _, machine) =>
    let machine ← shell.relay t machine
    return .ok (.error e, machine)
  | .ok (.ok script, listing, machine) =>
    t.print listing
    let progress ← match machine.start script with
      | (.paused, machine) => shell.drive t batches machine
      | stopped => pure stopped
    match Machine.complete progress with
    | .error cause => return .error cause
    | .ok (result, machine) =>
      let (result, machine) := machine.settle result
      return .ok (result, ← shell.relay t machine)

/-- The journal of a command that has logged nothing yet. -/
def journal (shell : Shell) : Journal := .filtered shell.filter

/-- A new machine. -/
def machine (shell : Shell) (journal : Journal) (clock : Clock) : Machine :=
  Machine.create shell.options.limits shell.options.printCode clock journal

/-- What is said about a fault. -/
def faultText : String := "Error: internal fault\n"

/-- Runs a script. -/
def runScript (shell : Shell) (t : Terminal m) (batches : Nat) (path : String) : m ExitCode := do
  match ← t.readText path with
  | .error e =>
    t.writeErr ("Error: Cannot read script '" ++ path ++ "': " ++ e.text ++ "\n")
    return .ioError
  | .ok source =>
    let journal := (shell.journal.record (.scriptRead path)).record .executionStarted
    let machine := shell.machine journal (.constant (← t.readClock))
    match ← shell.perform t batches machine source with
    | .error _ =>
      t.writeErr faultText
      return .software
    | .ok (result, machine) =>
      let machine := match result with
        | .ok _ => machine.record .executionCompleted
        | .error _ => machine
      let _ ← shell.relay t machine.free.2
      match result with
      | .ok _ => return .success
      | .error e =>
        t.writeErr (e.render source shell.errorFormat)
        return e.exitCode

/-- Reads sources line by line and runs each one, at most so many. The input ends with an empty
line of output. -/
def converse (shell : Shell) (t : Terminal m) (batches : Nat) : Nat → Machine → m ExitCode
  | 0, _ => return .success
  | lines + 1, machine => do
    t.print "> "
    let bytes ← t.readLine
    if bytes.isEmpty then
      t.print "\n"
      return .success
    else
      match Text.ofUtf8? bytes with
      | none =>
        t.writeErr ("Error: " ++ FileError.invalidUtf8.text ++ "\n")
        return .ioError
      | some source =>
        match ← shell.perform t batches machine source with
        | .error _ =>
          t.writeErr faultText
          return .software
        | .ok (result, machine) =>
          match result with
          | .ok (some value) => t.print (value ++ "\n")
          | .ok none => pure ()
          | .error e => t.writeErr (e.render source shell.errorFormat)
          converse shell t batches lines machine

end Shell

/-- The version of the program. -/
def versionText : String := "lox 0.1.0\n"

/-- How the program is used. -/
def usageText : String := "\n".intercalate
  ["Usage: lox [OPTIONS] [SCRIPT]",
   "",
   "Options:",
   "      --config <FILE>",
   "      --log-level <LEVEL>",
   "      --log-format <pretty|compact|json>",
   "      --log-file <FILE>",
   "      --dump-bytecode",
   "      --error-format <text|json>",
   "  -h, --help",
   "  -V, --version",
   ""]

namespace Arguments

variable {m : Type → Type} [Monad m]

/-- Reads the settings that the arguments name; on failure the text says why. -/
def loadSettings (a : Arguments) (t : Terminal m) : m (Except String Settings) := do
  match a.config with
  | none => return .ok {}
  | some path =>
    match ← t.readText path with
    | .error e => return .error ("Cannot read config '" ++ path ++ "': " ++ e.text)
    | .ok text =>
      match Settings.parse? text with
      | some settings => return .ok settings
      | none => return .error ("Invalid config '" ++ path ++ "'")

/-- The level that the arguments name; on failure the text says why. -/
def chosenLevel (a : Arguments) : Except String (Option LogLevel) :=
  match a.logLevel with
  | none => .ok none
  | some name =>
    match LogLevel.parse? name with
    | some level => .ok (some level)
    | none => .error ("unknown log level '" ++ name ++ "'")

/-- Makes sure that the log file can be written. -/
def openLogFile (a : Arguments) (t : Terminal m) : m (Except FileError Unit) :=
  match a.logFile with
  | none => return .ok ()
  | some path => t.openLog path

/-- The shell for these arguments and settings. -/
def shell (a : Arguments) (settings : Settings) (level : Option LogLevel) : Shell :=
  { options := { settings.runOptions with dumpBytecode := a.dumpBytecode }
    filter := (settings.logging.withLevel level).filter
    logFormat := a.logFormat.getD .compact
    logFile := a.logFile
    errorFormat := a.errorFormat.getD .text }

/-- Carries out a command line. The configuration is checked before the log level, that before the log
file, and the script comes last, after the first log line: a script that is its own log file has that
line in it. -/
def carryOut (a : Arguments) (t : Terminal m) (patience : Nat) : m ExitCode := do
  match ← a.loadSettings t with
  | .error reason =>
    t.writeErr ("Error: " ++ reason ++ "\n")
    return .usage
  | .ok settings =>
    match a.chosenLevel with
    | .error reason =>
      t.writeErr ("Error: " ++ reason ++ "\n")
      return .usage
    | .ok level =>
      match ← a.openLogFile t with
      | .error e =>
        t.writeErr ("Error: cannot initialize logging: " ++ e.text ++ "\n")
        return .ioError
      | .ok _ =>
        let shell := a.shell settings level
        shell.log t (shell.journal.record (.configured shell.options.text)).events.toList
        match a.script with
        | some path => shell.runScript t patience path
        | none => shell.converse t patience patience (shell.machine shell.journal (.constant (← t.readClock)))

end Arguments

/-- The whole command: `patience` bounds the batches of a run and the lines of a conversation. -/
def command {m : Type → Type} [Monad m] (t : Terminal m) (patience : Nat) (arguments : List String) :
    m ExitCode := do
  match Arguments.parse arguments with
  | .ok a => a.carryOut t patience
  | .error .help =>
    t.print usageText
    return .success
  | .error .version =>
    t.print versionText
    return .success
  | .error .usage =>
    t.writeErr usageText
    return .usage

end Lox
