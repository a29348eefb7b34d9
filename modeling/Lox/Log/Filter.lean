import Lox.Log.Level

/-! Which events are logged. The parts of the program log under a target of their own; a rule gives
the level for all targets that start with its name, the rule with the longest name wins, and where no
rule applies the general level holds. -/

namespace Lox

/-- A part of the program with a log level of its own. -/
inductive Phase where
  | scanner
  | compiler
  | vm
  deriving DecidableEq, Repr, Inhabited

namespace Phase

/-- All phases, in the order of the pipeline. -/
def all : List Phase := [.scanner, .compiler, .vm]

/-- The name of a phase. -/
def name : Phase → String
  | .scanner => "scanner"
  | .compiler => "compiler"
  | .vm => "vm"

/-- The target under which a phase logs. -/
def target (phase : Phase) : String := "lox::" ++ phase.name

end Phase

/-- The target under which the command line logs. -/
def cliTarget : String := "lox::cli"

/-- The level for all targets that start with a name. -/
structure FilterRule where
  target : String
  level : LogLevel
  deriving DecidableEq, Repr

/-- Rules over a general level. -/
structure Filter where
  rules : List FilterRule
  /-- The level where no rule applies. -/
  general : LogLevel
  deriving DecidableEq, Repr

namespace Filter

/-- Of two rules, the one with the longer name. -/
def longer (best : Option FilterRule) (rule : FilterRule) : Option FilterRule :=
  match best with
  | some other => if other.target.length < rule.target.length then some rule else best
  | none => some rule

/-- The level that holds for a target. -/
def levelOf (f : Filter) (target : String) : LogLevel :=
  match (f.rules.filter fun rule => rule.target.toList.isPrefixOf target.toList).foldl longer none with
  | some rule => rule.level
  | none => f.general

/-- Whether an event of a target and an importance is logged. -/
def admits (f : Filter) (target : String) (event : LogLevel) : Bool :=
  (f.levelOf target).admits event

end Filter

/-- How much each phase logs: a general level and levels for single phases. -/
structure Logging where
  level : LogLevel := .warn
  scanner : Option LogLevel := none
  compiler : Option LogLevel := none
  vm : Option LogLevel := none
  deriving DecidableEq, Repr, Inhabited

namespace Logging

/-- The level that is set for a phase alone. -/
def specific (l : Logging) : Phase → Option LogLevel
  | .scanner => l.scanner
  | .compiler => l.compiler
  | .vm => l.vm

/-- The level that holds for a phase. -/
def levelFor (l : Logging) (phase : Phase) : LogLevel := (l.specific phase).getD l.level

/-- Replaces the general level, if one is given. -/
def withLevel (l : Logging) (level : Option LogLevel) : Logging :=
  { l with level := level.getD l.level }

/-- The filter that these settings describe: a rule for each phase, one for the command line, and the
general level for all else. -/
def filter (l : Logging) : Filter :=
  { rules := Phase.all.map (fun phase => ⟨phase.target, l.levelFor phase⟩) ++ [⟨cliTarget, l.level⟩]
    general := l.level }

end Logging

end Lox
