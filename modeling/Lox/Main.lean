import Lox.Cli.Shell

/-! The command on the real terminal. -/

namespace Lox

/-- A reason that has a number in the system, in its words. The number may come with a minus sign. -/
def FileError.ofCode (code : UInt32) (details : String) : FileError :=
  match min code.toNat (-code).toNat with
  | 2 => .notFound
  | 20 => .notDirectory
  | 21 => .isDirectory
  | 36 => .nameTooLong
  | n => .other (details ++ " (os error " ++ toString n ++ ")")

/-- The reason why the system refused a file. -/
def FileError.ofSystem : IO.Error → FileError
  | .noFileOrDirectory _ code details | .inappropriateType _ code details => .ofCode code details
  | .permissionDenied _ code details | .invalidArgument _ code details => .ofCode code details
  | e => .other (toString e)

/-- Does something with a file, and catches the system's refusal. -/
def attempt {α : Type} (action : IO α) : IO (Except FileError α) := do
  match ← action.toBaseIO with
  | .ok value => return .ok value
  | .error e => return .error (FileError.ofSystem e)

/-- Reads bytes up to and including a newline, after those read already. -/
partial def readLineFrom (input : IO.FS.Stream) (line : ByteArray) : IO ByteArray := do
  let next ← input.read 1
  let line := line ++ next
  if next.isEmpty || next.data.contains 10 then return line else readLineFrom input line

/-- The seconds from the start of 1970 to the start of the system, and zero if the system does not say. -/
def bootSeconds : IO Nat := do
  match ← (IO.FS.readFile "/proc/stat").toBaseIO with
  | .error _ => return 0
  | .ok text =>
    return ((Text.lines text).findSome? fun line =>
      match line.splitOn " " with
      | ["btime", seconds] => seconds.toNat?
      | _ => none).getD 0

/-- The terminal of the process. -/
def realTerminal : Terminal IO where
  readFile path := attempt (IO.FS.readBinFile path)
  openLog path := attempt do
    let _ ← IO.FS.Handle.mk path .append
  appendLog path text := do
    let _ ← attempt do
      let handle ← IO.FS.Handle.mk path .append
      handle.putStr text
  readLine := do readLineFrom (← IO.getStdin) .empty
  writeOut bytes := do
    let out ← IO.getStdout
    out.write bytes
    out.flush
  writeErr text := do
    let err ← IO.getStderr
    err.putStr text
    err.flush
  readClock := do
    let sinceBoot ← IO.monoNanosNow
    return (← bootSeconds).toFloat + sinceBoot.toFloat / 1000000000

end Lox

/-- Runs the command and ends with its exit code. -/
def main (arguments : List String) : IO UInt32 := do
  let code ← Lox.command Lox.realTerminal (Nat.pow 2 60) arguments
  return code.toNat.toUInt32
