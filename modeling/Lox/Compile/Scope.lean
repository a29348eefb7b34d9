import Lox.Compile.Diagnostic

/-! Local variables of the function being compiled. They live on the machine's stack in the order of
their declaration, so a variable's slot is its place in that order; slot zero holds the callee
itself. Scopes nest, a scope that ends takes its variables along, and the innermost declaration of a
name hides the others. A variable exists from its declaration on and may be read once its initializer
is done. -/

namespace Lox

/-- A declared local variable. -/
structure Local where
  name : String
  /-- The nesting depth of the scope that declared it. -/
  depth : Nat
  /-- Whether its initializer is done. -/
  initialized : Bool
  deriving DecidableEq, Repr

/-- The number of slots that one byte can address. -/
def maxLocals : Nat := 256

/-- The variables in scope. -/
structure Scope where
  /-- The variables, the latest first. -/
  locals : List Local
  /-- The nesting depth; zero is the top level, where variables are global. -/
  depth : Nat
  deriving DecidableEq, Repr

namespace Scope

/-- The variable without a name that stands for the callee. -/
def callee : Local := { name := "", depth := 0, initialized := true }

/-- The scope of a function whose body has not begun. -/
def start : Scope := { locals := [callee], depth := 0 }

instance : Inhabited Scope := ⟨start⟩

/-- Whether variables declared now are local. -/
def isLocal (s : Scope) : Bool := 0 < s.depth

/-- Enters a scope. -/
def enter (s : Scope) : Scope := { s with depth := s.depth + 1 }

/-- Whether a variable survives in a scope of a given depth. -/
def outlives (depth : Nat) (l : Local) : Bool := l.depth ≤ depth

/-- Leaves the innermost scope, and says how many variables end with it; `none` if no scope is open. -/
def leave? (s : Scope) : Option (Scope × Nat) :=
  match s.depth with
  | 0 => none
  | depth + 1 =>
    let kept := s.locals.dropWhile (!outlives depth ·)
    some ({ locals := kept, depth }, s.locals.length - kept.length)

/-- Whether the innermost scope declares a name: the variables of that scope come first. -/
def declares (s : Scope) (name : String) : Bool :=
  (s.locals.takeWhile fun l => s.depth ≤ l.depth).any fun l => l.name == name

/-- Declares a variable in the innermost scope, not yet initialized. -/
def declare (s : Scope) (name : String) : Except ScopeError Scope :=
  if maxLocals ≤ s.locals.length then .error .tooManyLocals
  else if s.declares name then .error .alreadyDeclared
  else .ok { s with locals := { name, depth := s.depth, initialized := false } :: s.locals }

/-- Marks the latest variable as initialized. At the top level there is none to mark. -/
def markInitialized (s : Scope) : Scope :=
  match s.depth, s.locals with
  | 0, _ | _, [] => s
  | _, latest :: others => { s with locals := { latest with initialized := true } :: others }

/-- Looks a name up among variables, the latest first; the slot of a variable is the number of
variables declared before it. -/
def resolveIn (name : String) : List Local → Except ScopeError (Option Nat)
  | [] => .ok none
  | l :: earlier =>
    if l.name = name then
      if l.initialized then .ok (some earlier.length) else .error .readInOwnInitializer
    else resolveIn name earlier

/-- The slot of the variable that a name denotes; `none` if the name is global. -/
def resolve (s : Scope) (name : String) : Except ScopeError (Option Nat) := resolveIn name s.locals

end Scope

end Lox
