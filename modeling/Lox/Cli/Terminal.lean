import Lox.Text.Utf8

/-! What the command line talks to: files, an input that is read line by line, two outputs and a
clock. The command is written against these actions, so the same program runs on the real ones and
on plain data. -/

namespace Lox

/-- Why a file cannot be used. -/
inductive FileError where
  | notFound
  | notDirectory
  | isDirectory
  | nameTooLong
  | invalidUtf8
  /-- Any other reason, in the system's words. -/
  | other (text : String)
  deriving DecidableEq, Repr

/-- The text of a file error. -/
def FileError.text : FileError → String
  | .notFound => "No such file or directory (os error 2)"
  | .notDirectory => "Not a directory (os error 20)"
  | .isDirectory => "Is a directory (os error 21)"
  | .nameTooLong => "File name too long (os error 36)"
  | .invalidUtf8 => "stream did not contain valid UTF-8"
  | .other text => text

/-- The surroundings of a command, as actions. -/
structure Terminal (m : Type → Type) where
  /-- The bytes of a file. -/
  readFile : String → m (Except FileError ByteArray)
  /-- Makes sure that a file can be appended to, and creates it if need be. -/
  openLog : String → m (Except FileError Unit)
  /-- Appends to a file. -/
  appendLog : String → String → m Unit
  /-- The next line of the input with its line end; no bytes at the end. -/
  readLine : m ByteArray
  writeOut : ByteArray → m Unit
  writeErr : String → m Unit
  /-- The seconds since the start of 1970. -/
  readClock : m Float

namespace Terminal

variable {m : Type → Type} [Monad m]

/-- The text of a file. -/
def readText (t : Terminal m) (path : String) : m (Except FileError String) := do
  match ← t.readFile path with
  | .error e => return .error e
  | .ok bytes =>
    match Text.ofUtf8? bytes with
    | some text => return .ok text
    | none => return .error .invalidUtf8

/-- Writes a text. -/
def print (t : Terminal m) (text : String) : m Unit := t.writeOut text.toUTF8

/-- The microseconds since the start of 1970. -/
def readMicros (t : Terminal m) : m Nat := return ((← t.readClock) * 1000000).toUInt64.toNat

end Terminal

end Lox
