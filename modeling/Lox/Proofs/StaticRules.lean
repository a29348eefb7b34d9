import Lox.Proofs.Syntax

/-! What a program has to keep to beyond the grammar. A scope declares a name once, a variable is not used in
its own initializer, and a function has a limited number of variables, parameters and arguments. The other
limits are those of the code: how many constants it loads, where the names of global variables lie among the
constants, and how far its jumps reach. So the rules keep account of the code that a tree comes to, by its
length and its constants alone. -/

namespace Lox

/-- How far the code of a function has come: its length, and its constants, strings by their characters. -/
structure Draft where
  size : Nat := 0
  pool : List (Option String) := []

namespace Draft

/-- So many bytes more. -/
def write (n : Nat) (d : Draft) : Draft := { d with size := d.size + n }

/-- A constant more, and the instruction that loads it: the index takes one byte or two. -/
def load (entry : Option String) (d : Draft) : Draft where
  size := d.size + if d.pool.length < 256 then 2 else 3
  pool := d.pool ++ [entry]

/-- The index of a name: that of the first constant with its characters, or that of the next constant. -/
def nameIndex (name : String) (d : Draft) : Nat := d.pool.idxOf (some name)

/-- A name is among the constants. -/
def mention (name : String) (d : Draft) : Draft :=
  if some name ∈ d.pool then d else { d with pool := d.pool ++ [some name] }

/-- A variable is used: if it is not local, its name is among the constants. -/
def access (scope : List String) (name : String) (d : Draft) : Draft :=
  if name ∈ scope then d else d.mention name

/-- A variable is declared: at the top level its name is among the constants. -/
def declare (top : Bool) (name : String) (d : Draft) : Draft := if top then d.mention name else d

/-- A declared variable has its value: at the top level an instruction defines it. -/
def define (top : Bool) (d : Draft) : Draft := if top then d.write 2 else d

end Draft

/-! ### The length of the code -/

mutual

/-- The code of an expression. -/
def Expr.draft (scope : List String) : Expr → Draft → Draft
  | .nil, d | .truth _, d => d.write 1
  | .number _, d => d.load none
  | .text chars, d => d.load (some chars)
  | .variable name, d => (d.access scope name).write 2
  | .assign name value, d => (value.draft scope (d.access scope name)).write 2
  | .unary _ operand, d => (operand.draft scope d).write 1
  | .binary _ left right, d => (right.draft scope (left.draft scope d)).write 1
  | .and left right, d => right.draft scope ((left.draft scope d).write 4)
  | .or left right, d => right.draft scope ((left.draft scope d).write 7)
  | .call callee arguments, d => (arguments.draft scope (callee.draft scope d)).write 2

/-- The code of an argument list. -/
def Args.draft (scope : List String) : Args → Draft → Draft
  | .nil, d => d
  | .cons first rest, d => rest.draft scope (first.draft scope d)

end

/-- The test at the head of a loop: the condition, a jump out of the loop, and a pop. -/
def testDraft (scope : List String) : Option Expr → Draft → Draft
  | none, d => d
  | some c, d => (c.draft scope d).write 4

/-- The increment of a loop: a jump over it, the increment, a pop, and a jump back to the test. -/
def incrementDraft (scope : List String) : Option Expr → Draft → Draft
  | none, d => d
  | some e, d => (e.draft scope (d.write 3)).write 4

/-- Where the body of a loop goes back to: the increment, or else the start of the loop. -/
def backOf (start : Nat) : Option Expr → Draft → Nat
  | none, _ => start
  | some _, d => d.size + 3

/-- The end of a loop: the value of the condition is dropped. -/
def exitDraft : Option Expr → Draft → Draft
  | none, d => d
  | some _, d => d.write 1

/-- The local variables that a statement leaves behind; at the top level variables are global. -/
def Stmt.declares (top : Bool) : Stmt → List String
  | .var name _ | .function _ name _ _ => if top then [] else [name]
  | _ => []

/-- The local variables that a sequence leaves behind, the latest first. -/
def Block.declares (top : Bool) : Block → List String
  | .nil => []
  | .cons first rest => rest.declares top ++ first.declares top

mutual

/-- The code of a statement. -/
def Stmt.draft (top : Bool) (scope : List String) : Stmt → Draft → Draft
  | .expression value, d | .print value, d | .ret value, d => (value.draft scope d).write 1
  | .cond condition yes no, d =>
    no.draft top scope ((yes.draft top scope ((condition.draft scope d).write 4)).write 4)
  | .loop condition increment body, d =>
    exitDraft condition
      ((body.draft top scope (incrementDraft scope increment (testDraft scope condition d))).write 3)
  | .block body, d => (body.draft false scope d).write (body.declares false).length
  | .var name value, d => (value.draft scope (d.declare top name)).define top
  | .function _ name _ _, d => ((d.declare top name).load none).define top

/-- The code of a sequence. -/
def Block.draft (top : Bool) (scope : List String) : Block → Draft → Draft
  | .nil, d => d
  | .cons first rest, d => rest.draft top (first.declares top ++ scope) (first.draft top scope d)

end

/-! Code only grows. -/

namespace Draft

theorem size_le_load (entry : Option String) (d : Draft) : d.size ≤ (d.load entry).size := Nat.le_add_right ..

@[simp] theorem size_mention (name : String) (d : Draft) : (d.mention name).size = d.size := by
  unfold mention
  split <;> rfl

@[simp] theorem size_access (scope : List String) (name : String) (d : Draft) :
    (d.access scope name).size = d.size := by
  unfold access
  split
  · rfl
  · exact d.size_mention name

@[simp] theorem size_declare (top : Bool) (name : String) (d : Draft) : (d.declare top name).size = d.size := by
  unfold declare
  split
  · exact d.size_mention name
  · rfl

theorem size_le_define (top : Bool) (d : Draft) : d.size ≤ (d.define top).size := by
  unfold define
  split
  · exact Nat.le_add_right ..
  · exact Nat.le_refl _

end Draft

mutual

theorem Expr.size_le_draft (scope : List String) : ∀ (e : Expr) (d : Draft), d.size ≤ (e.draft scope d).size
  | .nil, d | .truth _, d => by
      simp only [Expr.draft, Draft.write]
      omega
  | .number _, d | .text _, d => by
      simp only [Expr.draft]
      exact d.size_le_load _
  | .variable name, d => by simp [Expr.draft, Draft.write]
  | .assign name value, d => by
      have := value.size_le_draft scope (d.access scope name)
      simp only [Expr.draft, Draft.write, Draft.size_access] at *
      omega
  | .unary _ operand, d => by
      have := operand.size_le_draft scope d
      simp only [Expr.draft, Draft.write]
      omega
  | .binary _ left right, d => by
      have := left.size_le_draft scope d
      have := right.size_le_draft scope (left.draft scope d)
      simp only [Expr.draft, Draft.write]
      omega
  | .and left right, d => by
      have := left.size_le_draft scope d
      have := right.size_le_draft scope ((left.draft scope d).write 4)
      simp only [Expr.draft, Draft.write] at *
      omega
  | .or left right, d => by
      have := left.size_le_draft scope d
      have := right.size_le_draft scope ((left.draft scope d).write 7)
      simp only [Expr.draft, Draft.write] at *
      omega
  | .call callee arguments, d => by
      have := callee.size_le_draft scope d
      have := arguments.size_le_draft scope (callee.draft scope d)
      simp only [Expr.draft, Draft.write]
      omega

theorem Args.size_le_draft (scope : List String) : ∀ (args : Args) (d : Draft), d.size ≤ (args.draft scope d).size
  | .nil, d => by simp only [Args.draft]; exact Nat.le_refl _
  | .cons first rest, d => by
      have := first.size_le_draft scope d
      have := rest.size_le_draft scope (first.draft scope d)
      simp only [Args.draft]
      omega

end

theorem size_le_testDraft (scope : List String) (c : Option Expr) (d : Draft) :
    d.size ≤ (testDraft scope c d).size := by
  cases c with
  | none => exact Nat.le_refl _
  | some c =>
      have := c.size_le_draft scope d
      simp only [testDraft, Draft.write]
      omega

theorem size_le_incrementDraft (scope : List String) (i : Option Expr) (d : Draft) :
    d.size ≤ (incrementDraft scope i d).size := by
  cases i with
  | none => exact Nat.le_refl _
  | some e =>
      have := e.size_le_draft scope (d.write 3)
      simp only [incrementDraft, Draft.write] at *
      omega

/-- The body goes back to code that is there. -/
theorem backOf_le_size {start : Nat} {d : Draft} (h : start ≤ d.size) (scope : List String) (i : Option Expr) :
    backOf start i d ≤ (incrementDraft scope i d).size := by
  cases i with
  | none => exact h
  | some e =>
      have := e.size_le_draft scope (d.write 3)
      simp only [backOf, incrementDraft, Draft.write] at *
      omega

theorem size_le_exitDraft (c : Option Expr) (d : Draft) : d.size ≤ (exitDraft c d).size := by
  cases c with
  | none => exact Nat.le_refl _
  | some c => exact Nat.le_add_right ..

mutual

theorem Stmt.size_le_draft : ∀ (top : Bool) (scope : List String) (st : Stmt) (d : Draft),
    d.size ≤ (st.draft top scope d).size
  | top, scope, .expression value, d | top, scope, .print value, d | top, scope, .ret value, d => by
      have := value.size_le_draft scope d
      simp only [Stmt.draft, Draft.write]
      omega
  | top, scope, .cond condition yes no, d => by
      have := condition.size_le_draft scope d
      have := yes.size_le_draft top scope ((condition.draft scope d).write 4)
      have := no.size_le_draft top scope ((yes.draft top scope ((condition.draft scope d).write 4)).write 4)
      simp only [Stmt.draft, Draft.write] at *
      omega
  | top, scope, .loop condition increment body, d => by
      have := size_le_testDraft scope condition d
      have := size_le_incrementDraft scope increment (testDraft scope condition d)
      have := body.size_le_draft top scope (incrementDraft scope increment (testDraft scope condition d))
      have := size_le_exitDraft condition
        ((body.draft top scope (incrementDraft scope increment (testDraft scope condition d))).write 3)
      simp only [Stmt.draft]
      simp only [Draft.write] at *
      omega
  | top, scope, .block body, d => by
      have := body.size_le_draft false scope d
      simp only [Stmt.draft, Draft.write]
      omega
  | top, scope, .var name value, d => by
      have := value.size_le_draft scope (d.declare top name)
      have := (value.draft scope (d.declare top name)).size_le_define top
      simp only [Stmt.draft, Draft.size_declare] at *
      omega
  | top, scope, .function _ name _ _, d => by
      have := (d.declare top name).size_le_load none
      have := ((d.declare top name).load none).size_le_define top
      simp only [Stmt.draft, Draft.size_declare] at *
      omega

theorem Block.size_le_draft : ∀ (top : Bool) (scope : List String) (b : Block) (d : Draft),
    d.size ≤ (b.draft top scope d).size
  | _, _, .nil, d => by simp only [Block.draft]; exact Nat.le_refl _
  | top, scope, .cons first rest, d => by
      have := first.size_le_draft top scope d
      have := rest.size_le_draft top (first.declares top ++ scope) (first.draft top scope d)
      simp only [Block.draft]
      omega

end

/-! ### The rules -/

/-- A jump from `a` to `b`, or back, covers a distance that its operand can hold. -/
def Near (a b : Nat) : Prop := b ≤ a + 32767

/-- A variable may be used here: it is not the one being initialized, and if it is not local, one byte
holds the index of its name. -/
def Draft.Usable (scope : List String) (pending : Option String) (name : String) (d : Draft) : Prop :=
  pending ≠ some name ∧ (name ∈ scope ∨ d.nameIndex name < 256)

/-- A constant may be loaded here: two bytes hold its index. -/
def Draft.Loadable (d : Draft) : Prop := d.pool.length < 65536

mutual

/-- An expression keeps the rules. The variable `pending` is being initialized. -/
def Expr.Legal (scope : List String) (pending : Option String) : Expr → Draft → Prop
  | .nil, _ | .truth _, _ => True
  | .number _, d | .text _, d => d.Loadable
  | .variable name, d => d.Usable scope pending name
  | .assign name value, d => d.Usable scope pending name ∧ value.Legal scope pending (d.access scope name)
  | .unary _ operand, d => operand.Legal scope pending d
  | .binary _ left right, d => left.Legal scope pending d ∧ right.Legal scope pending (left.draft scope d)
  | .and left right, d =>
    left.Legal scope pending d ∧ right.Legal scope pending ((left.draft scope d).write 4) ∧
      Near ((left.draft scope d).size + 3) (right.draft scope ((left.draft scope d).write 4)).size
  | .or left right, d =>
    left.Legal scope pending d ∧ right.Legal scope pending ((left.draft scope d).write 7) ∧
      Near ((left.draft scope d).size + 6) (right.draft scope ((left.draft scope d).write 7)).size
  | .call callee arguments, d =>
    callee.Legal scope pending d ∧ arguments.Legal scope pending (callee.draft scope d) ∧ arguments.length ≤ 255

/-- All arguments keep the rules. -/
def Args.Legal (scope : List String) (pending : Option String) : Args → Draft → Prop
  | .nil, _ => True
  | .cons first rest, d => first.Legal scope pending d ∧ rest.Legal scope pending (first.draft scope d)

end

/-- The test of a loop that is left at `exit` keeps the rules. -/
def TestLegal (scope : List String) (exit : Nat) : Option Expr → Draft → Prop
  | none, _ => True
  | some c, d => c.Legal scope none d ∧ Near ((c.draft scope d).size + 3) exit

/-- The increment of a loop that starts at `start` keeps the rules. -/
def IncrementLegal (scope : List String) (start : Nat) : Option Expr → Draft → Prop
  | none, _ => True
  | some e, d => e.Legal scope none (d.write 3) ∧ Near start (incrementDraft scope (some e) d).size ∧
      Near (d.size + 3) (incrementDraft scope (some e) d).size

/-- A variable may be declared here: at the top level, one byte holds the index of its name; elsewhere, the
innermost scope does not have the name yet, and the function has room for one variable more. -/
def Draft.Declarable (top : Bool) (inner outer : List String) (name : String) (d : Draft) : Prop :=
  if top then d.nameIndex name < 256 else name ∉ inner ∧ (inner ++ outer).length < 255

mutual

/-- A statement keeps the rules. The innermost scope has declared `inner`, and those around it `outer`. -/
def Stmt.Legal (top : Bool) (inner outer : List String) : Stmt → Draft → Prop
  | .expression value, d | .print value, d | .ret value, d => value.Legal (inner ++ outer) none d
  | .cond condition yes no, d =>
    let tested := condition.draft (inner ++ outer) d
    let taken := yes.draft top (inner ++ outer) (tested.write 4)
    condition.Legal (inner ++ outer) none d ∧ yes.Legal top inner outer (tested.write 4) ∧
      Near (tested.size + 3) (taken.size + 3) ∧ no.Legal top inner outer (taken.write 4) ∧
      Near (taken.size + 3) (no.draft top (inner ++ outer) (taken.write 4)).size
  | .loop condition increment body, d =>
    let tested := testDraft (inner ++ outer) condition d
    let stepped := incrementDraft (inner ++ outer) increment tested
    let ended := (body.draft top (inner ++ outer) stepped).write 3
    TestLegal (inner ++ outer) ended.size condition d ∧
      IncrementLegal (inner ++ outer) d.size increment tested ∧ body.Legal top inner outer stepped ∧
      Near (backOf d.size increment tested) ended.size
  | .block body, d => body.Legal false [] (inner ++ outer) d
  | .var name value, d =>
    d.Declarable top inner outer name ∧
      value.Legal (inner ++ outer) (if top then none else some name) (d.declare top name)
  | .function _ name params body, d =>
    d.Declarable top inner outer name ∧ params.Nodup ∧ params.length ≤ 255 ∧
      body.Legal false params.reverse [] {} ∧ (d.declare top name).Loadable

/-- All declarations and statements of a sequence keep the rules. -/
def Block.Legal (top : Bool) (inner outer : List String) : Block → Draft → Prop
  | .nil, _ => True
  | .cons first rest, d =>
    first.Legal top inner outer d ∧
      rest.Legal top (first.declares top ++ inner) outer (first.draft top (inner ++ outer) d)

end

end Lox
