/-! Log levels, from the most talkative to the silent one. The same type says how much is wanted and
how important an event is; an event is never `off`. -/

namespace Lox

/-- How much is logged. -/
inductive LogLevel where
  | trace
  | debug
  | info
  | warn
  | error
  /-- Nothing is logged. -/
  | off
  deriving DecidableEq, Repr, Inhabited

namespace LogLevel

/-- The place in the order: a greater rank logs less. -/
def rank : LogLevel → Nat
  | .trace => 0
  | .debug => 1
  | .info => 2
  | .warn => 3
  | .error => 4
  | .off => 5

/-- The name of a level. -/
def name : LogLevel → String
  | .trace => "trace"
  | .debug => "debug"
  | .info => "info"
  | .warn => "warn"
  | .error => "error"
  | .off => "off"

/-- The level with a lowercase name; "silent" is another name of the last one. -/
def ofName? (name : String) : Option LogLevel :=
  match name with
  | "trace" => some .trace
  | "debug" => some .debug
  | "info" => some .info
  | "warn" => some .warn
  | "error" => some .error
  | "off" => some .off
  | "silent" => some .off
  | _ => none

/-- The level with a name in any mixture of upper and lower case. Only the Latin letters have case
here. -/
def parse? (text : String) : Option LogLevel := ofName? (text.map Char.toLower)

/-- Whether a limit lets an event of some importance through. -/
def admits (limit event : LogLevel) : Bool := limit.rank ≤ event.rank

end LogLevel

end Lox
