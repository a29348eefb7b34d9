import Lox.Machine.Clock
import Lox.Machine.Error
import Lox.Number.Text
import Lox.Proofs.Syntax

/-! A reference semantics, which executes trees as they stand. Texts are texts, a function is its tree, and
there is no code, no stack and no heap. A function sees its own variables, the innermost declaration first,
and the global variables, and nothing of the functions around it. Calls and rounds of loops use up fuel;
a program ends if some amount of fuel is enough. -/

namespace Lox

/-- What a value is, seen from the language. Functions are told apart by their labels. -/
inductive Datum where
  | nil
  | bool (truth : Bool)
  | number (x : Float)
  | text (chars : String)
  | function (label : Handle) (routine : Routine)
  | native (label : Handle)

/-- A function of the host. What it comes to may depend on what the clock says when it is called. -/
structure HostFunction where
  arity : Nat
  result : (reading : Float) → List Datum → Datum

namespace Datum

/-- Only nil and false count as false. -/
def isFalsey : Datum → Bool
  | .nil => true
  | .bool truth => !truth
  | _ => false

/-- Values of different kinds differ; texts are equal if their characters are. -/
def equal : Datum → Datum → Bool
  | .nil, .nil => true
  | .bool a, .bool b => a == b
  | .number x, .number y => x == y
  | .text a, .text b => a == b
  | .function a _, .function b _ => a == b
  | .native a, .native b => a == b
  | _, _ => false

/-- The text of a value, as it is printed. -/
def display : Datum → String
  | .nil => "nil"
  | .bool truth => if truth then "true" else "false"
  | .number x => Number.toText x
  | .text chars => chars
  | .function _ ⟨some name, _, _⟩ => "<fn " ++ name ++ ">"
  | .function _ ⟨none, _, _⟩ => "<script>"
  | .native _ => "<native fn>"

/-- A value computed from two numbers. -/
def ofNumbers (f : Float → Float → Datum) : Datum → Datum → Except ErrorKind Datum
  | .number a, .number b => .ok (f a b)
  | _, _ => .error .operandsMustBeNumbers

/-- The sum of two numbers, or two texts joined. -/
def add : Datum → Datum → Except ErrorKind Datum
  | .number a, .number b => .ok (.number (a + b))
  | .text a, .text b => .ok (.text (a ++ b))
  | _, _ => .error .operandsMustBeNumbersOrStrings

/-- A number with its sign changed. -/
def negate : Datum → Except ErrorKind Datum
  | .number x => .ok (.number (-x))
  | _ => .error .operandMustBeNumber

end Datum

/-- What an operator makes of its operand. -/
def UnaryOp.apply : UnaryOp → Datum → Except ErrorKind Datum
  | .negate, v => v.negate
  | .not, v => .ok (.bool v.isFalsey)

/-- What an operator makes of its operands. -/
def BinaryOp.apply : BinaryOp → Datum → Datum → Except ErrorKind Datum
  | .add, a, b => a.add b
  | .subtract, a, b => a.ofNumbers (fun x y => .number (x - y)) b
  | .multiply, a, b => a.ofNumbers (fun x y => .number (x * y)) b
  | .divide, a, b => a.ofNumbers (fun x y => .number (x / y)) b
  | .equal, a, b => .ok (.bool (a.equal b))
  | .notEqual, a, b => .ok (.bool (!a.equal b))
  | .greater, a, b => a.ofNumbers (fun x y => .bool (x > y)) b
  | .greaterEqual, a, b => a.ofNumbers (fun x y => .bool (x ≥ y)) b
  | .less, a, b => a.ofNumbers (fun x y => .bool (x < y)) b
  | .lessEqual, a, b => a.ofNumbers (fun x y => .bool (x ≤ y)) b

/-! ### Variables -/

/-- What all functions share: the global variables, what has been printed, and the clock. -/
structure World where
  globals : String → Option Datum
  printed : String
  clock : Clock

/-- What a function sees: its variables in scope, the latest first, and the world. -/
structure Env where
  locals : List (String × Datum)
  world : World

/-- Why a program does not go on. -/
inductive Halt where
  | failed (kind : ErrorKind)
  /-- The fuel is used up. -/
  | exhausted

/-- A computation of the function that is executed. -/
abbrev Eval := EStateM Halt Env

/-- What calling a value with arguments does. -/
abbrev Call := Datum → List Datum → EStateM Halt World Datum

/-- Gives a global variable, new or not, a value. -/
def World.define (w : World) (name : String) (value : Datum) : World :=
  { w with globals := fun other => if other = name then some value else w.globals other }

/-- Gives the innermost variable of a name a value. -/
def updateLocal (name : String) (value : Datum) : List (String × Datum) → List (String × Datum)
  | [] => []
  | (other, old) :: rest =>
    if other = name then (other, value) :: rest else (other, old) :: updateLocal name value rest

namespace Eval

/-- Ends in an error. -/
def fail {α : Type} (kind : ErrorKind) : Eval α := throw (.failed kind)

/-- The value, or the error. -/
def ofExcept {α : Type} : Except ErrorKind α → Eval α
  | .ok a => return a
  | .error kind => fail kind

/-- The value of a variable: of the innermost one of that name, or of the global one. -/
def read (name : String) : Eval Datum := do
  let env ← get
  match env.locals.lookup name, env.world.globals name with
  | some value, _ => return value
  | none, some value => return value
  | none, none => fail (.undefinedVariable name)

/-- Assigns to a variable. Global variables must be there. -/
def assign (name : String) (value : Datum) : Eval Unit := do
  let env ← get
  match env.locals.lookup name, env.world.globals name with
  | some _, _ => modify fun env => { env with locals := updateLocal name value env.locals }
  | none, some _ => modify fun env => { env with world := env.world.define name value }
  | none, none => fail (.undefinedVariable name)

/-- Declares a variable: a global one at the top level, and else a local one. -/
def declare (top : Bool) (name : String) (value : Datum) : Eval Unit :=
  modify fun env =>
    if top then { env with world := env.world.define name value }
    else { env with locals := (name, value) :: env.locals }

/-- Prints a value as a line. -/
def print (value : Datum) : Eval Unit :=
  modify fun env =>
    { env with world := { env.world with printed := env.world.printed ++ (value.display ++ "\n") } }

/-- Does what only concerns the world. -/
def inWorld {α : Type} (x : EStateM Halt World α) : Eval α := fun env =>
  match x.run env.world with
  | .ok a world => .ok a { env with world }
  | .error halt world => .error halt { env with world }

/-- Ends the scope of the variables declared since there were so many. -/
def leave (count : Nat) : Eval Unit :=
  modify fun env => { env with locals := env.locals.drop (env.locals.length - count) }

end Eval

/-! ### Expressions -/

mutual

/-- The value of an expression. -/
def Expr.eval (call : Call) : Expr → Eval Datum
  | .nil => return .nil
  | .truth value => return .bool value
  | .number x => return .number x
  | .text chars => return .text chars
  | .variable name => .read name
  | .assign name e => do
    let value ← e.eval call
    .assign name value
    return value
  | .unary op e => do
    let value ← e.eval call
    .ofExcept (op.apply value)
  | .binary op l r => do
    let left ← l.eval call
    let right ← r.eval call
    .ofExcept (op.apply left right)
  | .and l r => do
    let left ← l.eval call
    if left.isFalsey then return left else r.eval call
  | .or l r => do
    let left ← l.eval call
    if left.isFalsey then r.eval call else return left
  | .call f args => do
    let callee ← f.eval call
    let values ← args.eval call
    .inWorld (call callee values)

/-- The values of arguments, from left to right. -/
def Args.eval (call : Call) : Args → Eval (List Datum)
  | .nil => return []
  | .cons e rest => do
    let value ← e.eval call
    let values ← rest.eval call
    return value :: values

end

/-! ### Statements -/

/-- How a statement ends. -/
inductive Completion where
  | normal
  /-- The function returns a value. -/
  | returned (value : Datum)

/-- A loop, for at most so many rounds. -/
def Eval.loop (test : Eval Bool) (body : Eval Completion) (increment : Eval Unit) : Nat → Eval Completion
  | 0 => throw .exhausted
  | rounds + 1 => do
    if ← test then
      match ← body with
      | .returned value => return .returned value
      | .normal =>
        increment
        loop test body increment rounds
    else return .normal

/-- Whether a loop goes on; without a condition it does. -/
def testOf (call : Call) : Option Expr → Eval Bool
  | none => return true
  | some c => do
    let value ← c.eval call
    return !value.isFalsey

/-- The increment of a loop, whose value is dropped. -/
def incrementOf (call : Call) : Option Expr → Eval Unit
  | none => return
  | some e => do
    let _ ← e.eval call

mutual

/-- Executes a statement. -/
def Stmt.exec (call : Call) (rounds : Nat) (top : Bool) : Stmt → Eval Completion
  | .expression e => do
    let _ ← e.eval call
    return .normal
  | .print e => do
    let value ← e.eval call
    .print value
    return .normal
  | .ret e => do
    let value ← e.eval call
    return .returned value
  | .cond c yes no => do
    let value ← c.eval call
    if value.isFalsey then no.exec call rounds top else yes.exec call rounds top
  | .loop c i body => .loop (testOf call c) (body.exec call rounds top) (incrementOf call i) rounds
  | .block body => do
    let env ← get
    let completion ← body.exec call rounds false
    .leave env.locals.length
    return completion
  | .var name e => do
    let value ← e.eval call
    .declare top name value
    return .normal
  | .function label name params body => do
    .declare top name (.function label ⟨some name, params, body⟩)
    return .normal

/-- Executes a sequence; a return ends it. -/
def Block.exec (call : Call) (rounds : Nat) (top : Bool) : Block → Eval Completion
  | .nil => return .normal
  | .cons first rest => do
    match ← first.exec call rounds top with
    | .returned value => return .returned value
    | .normal => rest.exec call rounds top

end

/-! ### Calls and programs -/

/-- Executes a routine with its arguments. A function whose end is reached returns nil. -/
def Routine.run (call : Call) (rounds : Nat) (r : Routine) (args : List Datum) : EStateM Halt World Datum :=
  fun world =>
    match (r.body.exec call rounds r.name.isNone).run ⟨(r.params.zip args).reverse, world⟩ with
    | .ok .normal env => .ok .nil env.world
    | .ok (.returned value) env => .ok value env.world
    | .error halt env => .error halt env.world

/-- Calls a function of the host, which reads the clock. -/
def HostFunction.call (h : HostFunction) (args : List Datum) : EStateM Halt World Datum :=
  modifyGet fun w => (h.result w.clock.now args, { w with clock := w.clock.next })

/-- Calls a value, with so much fuel for what it does. -/
def invoke (host : Handle → Option HostFunction) : Nat → Call
  | 0, _, _ => throw .exhausted
  | fuel + 1, .function _ r, args =>
    if args.length ≠ r.params.length then throw (.failed (.arityMismatch r.params.length args.length))
    else r.run (invoke host fuel) fuel args
  | _ + 1, .native label, args =>
    match host label with
    | none => throw (.failed .notCallable)
    | some h =>
      if args.length ≠ h.arity then throw (.failed (.arityMismatch h.arity args.length))
      else h.call args
  | _ + 1, _, _ => throw (.failed .notCallable)

/-- Executes a program, with so much fuel. -/
def Block.run (host : Handle → Option HostFunction) (fuel : Nat) (p : Block) : EStateM Halt World Datum :=
  Routine.run (invoke host fuel) fuel ⟨none, [], p⟩ []

/-- The program ends with a value and leaves the world as given. -/
def Block.Returns (host : Handle → Option HostFunction) (p : Block) (w : World) (value : Datum) (w' : World) : Prop :=
  ∃ fuel, (p.run host fuel).run w = .ok value w'

/-- The program ends in an error and leaves the world as given. -/
def Block.Fails (host : Handle → Option HostFunction) (p : Block) (w : World) (kind : ErrorKind) (w' : World) : Prop :=
  ∃ fuel, (p.run host fuel).run w = .error (.failed kind) w'

/-- No amount of fuel is enough for the program. -/
def Block.Diverges (host : Handle → Option HostFunction) (p : Block) (w : World) : Prop :=
  ∀ fuel, ∃ w', (p.run host fuel).run w = .error .exhausted w'

end Lox
