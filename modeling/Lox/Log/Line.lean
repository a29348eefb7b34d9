import Lox.Log.Journal
import Lox.Text.Json
import Lox.Text.Stamp

/-! Events as lines of text. On the terminal the user chooses among three formats; a log file has a
format of its own, in which each line starts with the moment of the event. -/

namespace Lox

/-- How log lines are written on the terminal. -/
inductive LogFormat where
  | pretty
  | compact
  | json
  deriving DecidableEq, Repr, Inhabited

namespace Event

/-- What an event says and its details, in a row. -/
def words (e : Event) : List String :=
  (if e.message.isEmpty then [] else [e.message])
    ++ e.fields.map fun (name, value) => name ++ "=" ++ value

/-- An event as a line on the terminal. -/
def line (e : Event) : LogFormat → String
  | .json =>
    let fields := (("message", e.message) :: e.fields).map fun (name, value) =>
      Text.jsonString name ++ ":" ++ Text.jsonString value
    "\x7b\"level\":" ++ Text.jsonString e.level.name
      ++ ",\"target\":" ++ Text.jsonString e.target
      ++ ",\"fields\":\x7b" ++ ",".intercalate fields ++ "\x7d\x7d\n"
  | .compact => Text.alignRight 5 ' ' e.level.name.toUpper ++ " " ++ " ".intercalate e.words ++ "\n"
  | .pretty =>
    "  " ++ e.level.name.toUpper ++ " " ++ e.target ++ ": " ++ e.message
      ++ String.join (e.fields.map fun (name, value) => ", " ++ name ++ ": " ++ value) ++ "\n\n"

/-- An event as a line of a log file. -/
def fileLine (e : Event) (micros : Nat) : String :=
  Text.stamp micros ++ " " ++ Text.alignRight 5 ' ' e.level.name.toUpper ++ " " ++ e.target ++ ": "
    ++ " ".intercalate e.words ++ "\n"

end Event

end Lox
