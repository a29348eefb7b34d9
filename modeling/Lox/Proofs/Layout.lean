import Lox.Proofs.Syntax
import Lox.Storage.Heap

/-! How the code of a tree is laid out. A spot is one instruction at its offset, together with what lies
on the stack when control arrives there: the callee, the local variables in scope, and the values that
the code around it still needs. The layout relations say which spots the code of a tree consists of; they
speak of offsets and names and not of bytes. A spot holds in a chunk if the bytes there encode it. -/

namespace Lox

/-- What a constant instruction pushes. -/
inductive Literal where
  | number (x : Float)
  | text (chars : String)
  | function (label : Handle)

/-- A decoded instruction. Jumps carry the offset they go to, and variables their names. -/
inductive Instr where
  /-- An instruction without operand. -/
  | plain (op : Opcode)
  /-- Push a constant, with a one-byte or a two-byte index. -/
  | constant (literal : Literal) (wide : Bool)
  | getLocal (name : String) (slot : Nat)
  | setLocal (name : String) (slot : Nat)
  | getGlobal (name : String)
  | setGlobal (name : String)
  | defineGlobal (name : String)
  | jump (target : Nat)
  | jumpIfFalse (target : Nat)
  | loop (target : Nat)
  | call (count : Nat)

namespace Instr

/-- The opcode. -/
def opcode : Instr → Opcode
  | .plain op => op
  | .constant _ false => .constant
  | .constant _ true => .constantWide
  | .getLocal _ _ => .getLocal
  | .setLocal _ _ => .setLocal
  | .getGlobal _ => .getGlobal
  | .setGlobal _ => .setGlobal
  | .defineGlobal _ => .defineGlobal
  | .jump _ => .jump
  | .jumpIfFalse _ => .jumpIfFalse
  | .loop _ => .loop
  | .call _ => .call

/-- The number of bytes. -/
def size : Instr → Nat
  | .plain _ => 1
  | .constant _ false | .getLocal _ _ | .setLocal _ _ | .getGlobal _ | .setGlobal _ | .defineGlobal _
  | .call _ => 2
  | .constant _ true | .jump _ | .jumpIfFalse _ | .loop _ => 3

theorem size_pos (i : Instr) : 0 < i.size := by
  unfold size
  split <;> omega

end Instr

/-- An instruction at its place in the code of a function. -/
structure Spot where
  offset : Nat
  instr : Instr
  /-- The local variables in scope, the latest first. -/
  scope : List String
  /-- The number of values above the variables. -/
  pending : Nat

namespace Spot

/-- The offset after the instruction. -/
def next (s : Spot) : Nat := s.offset + s.instr.size

/-- The number of values from the callee to the top of the stack. -/
def height (s : Spot) : Nat := 1 + s.scope.length + s.pending

end Spot

/-- The slot of the variable that a name denotes: slot zero is the callee, and the variables follow in
the order of their declaration. -/
def slotOf (name : String) : List String → Option Nat
  | [] => none
  | latest :: earlier => if latest = name then some (earlier.length + 1) else slotOf name earlier

theorem slotOf_bounds {name : String} {scope : List String} {slot : Nat}
    (h : slotOf name scope = some slot) : 1 ≤ slot ∧ slot ≤ scope.length := by
  induction scope with
  | nil => cases h
  | cons latest earlier ih =>
      rw [slotOf] at h
      split at h
      · cases h
        simp
      · have := ih h
        simp only [List.length_cons]
        omega

/-- The instruction of a unary operator. -/
def UnaryOp.opcode : UnaryOp → Opcode
  | .negate => .negate
  | .not => .not

/-- The instruction of a binary operator. -/
def BinaryOp.opcode : BinaryOp → Opcode
  | .add => .add
  | .subtract => .subtract
  | .multiply => .multiply
  | .divide => .divide
  | .equal => .equal
  | .notEqual => .notEqual
  | .greater => .greater
  | .greaterEqual => .greaterEqual
  | .less => .less
  | .lessEqual => .lessEqual

/-! ### Expressions -/

mutual

/-- The code of an expression from `a` to `b`, with `t` values below its own value. -/
inductive Expr.Laid (scope : List String) : (t a : Nat) → Expr → List Spot → (b : Nat) → Prop where
  | nil {t a : Nat} : Expr.Laid scope t a .nil [⟨a, .plain .pushNil, scope, t⟩] (a + 1)
  | yes {t a : Nat} : Expr.Laid scope t a (.truth true) [⟨a, .plain .pushTrue, scope, t⟩] (a + 1)
  | no {t a : Nat} : Expr.Laid scope t a (.truth false) [⟨a, .plain .pushFalse, scope, t⟩] (a + 1)
  | number {t a : Nat} {x : Float} {wide : Bool} :
      Expr.Laid scope t a (.number x) [⟨a, .constant (.number x) wide, scope, t⟩]
        (a + (Instr.constant (.number x) wide).size)
  | text {t a : Nat} {chars : String} {wide : Bool} :
      Expr.Laid scope t a (.text chars) [⟨a, .constant (.text chars) wide, scope, t⟩]
        (a + (Instr.constant (.text chars) wide).size)
  | getLocal {t a slot : Nat} {name : String} (h : slotOf name scope = some slot) :
      Expr.Laid scope t a (.variable name) [⟨a, .getLocal name slot, scope, t⟩] (a + 2)
  | getGlobal {t a : Nat} {name : String} (h : slotOf name scope = none) :
      Expr.Laid scope t a (.variable name) [⟨a, .getGlobal name, scope, t⟩] (a + 2)
  | setLocal {t a m slot : Nat} {name : String} {e : Expr} {sp : List Spot}
      (h : slotOf name scope = some slot) (he : Expr.Laid scope t a e sp m) :
      Expr.Laid scope t a (.assign name e) (sp ++ [⟨m, .setLocal name slot, scope, t + 1⟩]) (m + 2)
  | setGlobal {t a m : Nat} {name : String} {e : Expr} {sp : List Spot} (h : slotOf name scope = none)
      (he : Expr.Laid scope t a e sp m) :
      Expr.Laid scope t a (.assign name e) (sp ++ [⟨m, .setGlobal name, scope, t + 1⟩]) (m + 2)
  | unary {t a m : Nat} {op : UnaryOp} {e : Expr} {sp : List Spot} (he : Expr.Laid scope t a e sp m) :
      Expr.Laid scope t a (.unary op e) (sp ++ [⟨m, .plain op.opcode, scope, t + 1⟩]) (m + 1)
  | binary {t a m n : Nat} {op : BinaryOp} {l r : Expr} {sl sr : List Spot}
      (hl : Expr.Laid scope t a l sl m) (hr : Expr.Laid scope (t + 1) m r sr n) :
      Expr.Laid scope t a (.binary op l r) (sl ++ (sr ++ [⟨n, .plain op.opcode, scope, t + 2⟩])) (n + 1)
  | and {t a m b : Nat} {l r : Expr} {sl sr : List Spot} (hl : Expr.Laid scope t a l sl m)
      (hr : Expr.Laid scope t (m + 4) r sr b) :
      Expr.Laid scope t a (.and l r)
        (sl ++ ⟨m, .jumpIfFalse b, scope, t + 1⟩ :: ⟨m + 3, .plain .pop, scope, t + 1⟩ :: sr) b
  | or {t a m b : Nat} {l r : Expr} {sl sr : List Spot} (hl : Expr.Laid scope t a l sl m)
      (hr : Expr.Laid scope t (m + 7) r sr b) :
      Expr.Laid scope t a (.or l r)
        (sl ++ ⟨m, .jumpIfFalse (m + 6), scope, t + 1⟩ :: ⟨m + 3, .jump b, scope, t + 1⟩ ::
          ⟨m + 6, .plain .pop, scope, t + 1⟩ :: sr) b
  | call {t a m n : Nat} {f : Expr} {args : Args} {sf sa : List Spot}
      (hf : Expr.Laid scope t a f sf m) (ha : Args.Laid scope (t + 1) m args sa n) :
      Expr.Laid scope t a (.call f args)
        (sf ++ (sa ++ [⟨n, .call args.length, scope, t + 1 + args.length⟩])) (n + 2)

/-- The code of an argument list from `a` to `b`, with `t` values below the arguments. -/
inductive Args.Laid (scope : List String) :
    (t a : Nat) → Args → List Spot → (b : Nat) → Prop where
  | nil {t a : Nat} : Args.Laid scope t a .nil [] a
  | cons {t a m b : Nat} {e : Expr} {args : Args} {sp sr : List Spot} (he : Expr.Laid scope t a e sp m)
      (hr : Args.Laid scope (t + 1) m args sr b) :
      Args.Laid scope t a (.cons e args) (sp ++ sr) b

end

/-! ### Statements -/

/-- The test at the head of a loop from `a` to `b`, which leaves the loop at `exit`. -/
inductive TestLaid (scope : List String) : (a : Nat) → Option Expr → (exit : Nat) → List Spot → (b : Nat) → Prop
    where
  | none {a exit : Nat} : TestLaid scope a none exit [] a
  | some {a m exit : Nat} {c : Expr} {sp : List Spot} (hc : Expr.Laid scope 0 a c sp m) :
      TestLaid scope a (some c) exit
        (sp ++ [⟨m, .jumpIfFalse exit, scope, 1⟩, ⟨m + 3, .plain .pop, scope, 1⟩]) (m + 4)

/-- The increment of a loop from `a` to `b`. The code jumps over it to the body, and the body comes back
to `back`. -/
inductive IncrementLaid (scope : List String) :
    (start a : Nat) → Option Expr → (back : Nat) → List Spot → (b : Nat) → Prop where
  | none {start a : Nat} : IncrementLaid scope start a none start [] a
  | some {start a m : Nat} {e : Expr} {sp : List Spot} (he : Expr.Laid scope 0 (a + 3) e sp m) :
      IncrementLaid scope start a (some e) (a + 3)
        (⟨a, .jump (m + 4), scope, 0⟩ ::
          (sp ++ [⟨m, .plain .pop, scope, 1⟩, ⟨m + 1, .loop start, scope, 0⟩])) (m + 4)

/-- The end of a loop from `a` to `b`: the test's value is dropped where the loop is left. -/
inductive ExitLaid (scope : List String) : (a : Nat) → Option Expr → List Spot → (b : Nat) → Prop where
  | none {a : Nat} : ExitLaid scope a none [] a
  | some {a : Nat} {c : Expr} : ExitLaid scope a (some c) [⟨a, .plain .pop, scope, 1⟩] (a + 1)

/-- The instructions that drop variables at the end of their scope. -/
def pops (outer : List String) : List String → Nat → List Spot
  | [], _ => []
  | x :: xs, a => ⟨a, .plain .pop, x :: xs ++ outer, 0⟩ :: pops outer xs (a + 1)

mutual

/-- The code of a statement from `a` to `b`, and the variables in scope after it. With `top` variables are
global. -/
inductive Stmt.Laid : (top : Bool) → (scope : List String) → (a : Nat) → Stmt → List Spot → (b : Nat) →
    (after : List String) → Prop where
  | expression {top : Bool} {scope : List String} {a m : Nat} {e : Expr} {sp : List Spot}
      (he : Expr.Laid scope 0 a e sp m) :
      Stmt.Laid top scope a (.expression e) (sp ++ [⟨m, .plain .pop, scope, 1⟩]) (m + 1) scope
  | print {top : Bool} {scope : List String} {a m : Nat} {e : Expr} {sp : List Spot}
      (he : Expr.Laid scope 0 a e sp m) :
      Stmt.Laid top scope a (.print e) (sp ++ [⟨m, .plain .print, scope, 1⟩]) (m + 1) scope
  | ret {top : Bool} {scope : List String} {a m : Nat} {e : Expr} {sp : List Spot}
      (he : Expr.Laid scope 0 a e sp m) :
      Stmt.Laid top scope a (.ret e) (sp ++ [⟨m, .plain .ret, scope, 1⟩]) (m + 1) scope
  | cond {top : Bool} {scope : List String} {a m n b : Nat} {c : Expr} {yes no : Stmt}
      {sc sy sn : List Spot} (hc : Expr.Laid scope 0 a c sc m)
      (hy : Stmt.Laid top scope (m + 4) yes sy n scope) (hn : Stmt.Laid top scope (n + 4) no sn b scope) :
      Stmt.Laid top scope a (.cond c yes no)
        (sc ++ ⟨m, .jumpIfFalse (n + 3), scope, 1⟩ :: ⟨m + 3, .plain .pop, scope, 1⟩ ::
          (sy ++ ⟨n, .jump b, scope, 0⟩ :: ⟨n + 3, .plain .pop, scope, 1⟩ :: sn)) b scope
  | loop {top : Bool} {scope : List String} {a m k n b back : Nat} {c i : Option Expr} {body : Stmt}
      {sc si sb se : List Spot} (hc : TestLaid scope a c (n + 3) sc m)
      (hi : IncrementLaid scope a m i back si k) (hb : Stmt.Laid top scope k body sb n scope)
      (he : ExitLaid scope (n + 3) c se b) :
      Stmt.Laid top scope a (.loop c i body) (sc ++ (si ++ (sb ++ ⟨n, .loop back, scope, 0⟩ :: se))) b scope
  | block {top : Bool} {scope inner : List String} {a m : Nat} {body : Block} {sp : List Spot}
      (hb : Block.Laid false scope a body sp m (inner ++ scope)) :
      Stmt.Laid top scope a (.block body) (sp ++ pops scope inner m) (m + inner.length) scope
  | varLocal {scope : List String} {a b : Nat} {name : String} {e : Expr} {sp : List Spot}
      (he : Expr.Laid scope 0 a e sp b) : Stmt.Laid false scope a (.var name e) sp b (name :: scope)
  | varGlobal {scope : List String} {a m : Nat} {name : String} {e : Expr} {sp : List Spot}
      (he : Expr.Laid scope 0 a e sp m) :
      Stmt.Laid true scope a (.var name e) (sp ++ [⟨m, .defineGlobal name, scope, 1⟩]) (m + 2) scope
  | functionLocal {scope : List String} {a : Nat} {label : Handle} {name : String} {params : List String}
      {body : Block} {wide : Bool} :
      Stmt.Laid false scope a (.function label name params body)
        [⟨a, .constant (.function label) wide, scope, 0⟩]
        (a + (Instr.constant (.function label) wide).size) (name :: scope)
  | functionGlobal {scope : List String} {a : Nat} {label : Handle} {name : String} {params : List String}
      {body : Block} {wide : Bool} :
      Stmt.Laid true scope a (.function label name params body)
        [⟨a, .constant (.function label) wide, scope, 0⟩,
          ⟨a + (Instr.constant (.function label) wide).size, .defineGlobal name, scope, 1⟩]
        (a + (Instr.constant (.function label) wide).size + 2) scope

/-- The code of a sequence from `a` to `b`, and the variables in scope after it. -/
inductive Block.Laid : (top : Bool) → (scope : List String) → (a : Nat) → Block → List Spot → (b : Nat) →
    (after : List String) → Prop where
  | nil {top : Bool} {scope : List String} {a : Nat} : Block.Laid top scope a .nil [] a scope
  | cons {top : Bool} {scope mid after : List String} {a m b : Nat} {s : Stmt} {rest : Block}
      {sp sr : List Spot} (hs : Stmt.Laid top scope a s sp m mid)
      (hr : Block.Laid top mid m rest sr b after) :
      Block.Laid top scope a (.cons s rest) (sp ++ sr) b after

end

/-- The code of a whole routine. The end of the body returns nil. -/
inductive Routine.Laid : Routine → List Spot → Prop where
  | mk {r : Routine} {sp : List Spot} {m : Nat} {after : List String}
      (hb : Block.Laid r.name.isNone r.params.reverse 0 r.body sp m after) :
      Routine.Laid r (sp ++ [⟨m, .plain .pushNil, after, 0⟩, ⟨m + 1, .plain .ret, after, 1⟩])

/-! ### Code without gaps -/

/-- The spots follow one another from `a` to `b`. -/
def Contiguous : (a : Nat) → List Spot → (b : Nat) → Prop
  | a, [], b => a = b
  | a, s :: rest, b => s.offset = a ∧ Contiguous s.next rest b

namespace Contiguous

theorem append {a m b : Nat} {sp sq : List Spot} (h : Contiguous a sp m) (h' : Contiguous m sq b) :
    Contiguous a (sp ++ sq) b := by
  induction sp generalizing a with
  | nil =>
      obtain rfl : a = m := h
      exact h'
  | cons s rest ih => exact ⟨h.1, ih h.2⟩

theorem range {a b : Nat} {sp : List Spot} (h : Contiguous a sp b) :
    a ≤ b ∧ ∀ s ∈ sp, a ≤ s.offset ∧ s.next ≤ b := by
  induction sp generalizing a with
  | nil => exact ⟨Nat.le_of_eq h, nofun⟩
  | cons s rest ih =>
      obtain ⟨rfl, hrest⟩ := h
      obtain ⟨hle, hin⟩ := ih hrest
      have hlt : s.offset < s.next := Nat.lt_add_of_pos_right s.instr.size_pos
      refine ⟨by omega, fun t ht => ?_⟩
      rcases List.mem_cons.mp ht with rfl | ht
      · omega
      · have := hin t ht
        omega

theorem eq_of_offset {a b : Nat} {sp : List Spot} (h : Contiguous a sp b) {s t : Spot} (hs : s ∈ sp)
    (ht : t ∈ sp) (heq : s.offset = t.offset) : s = t := by
  induction sp generalizing a with
  | nil => cases hs
  | cons u rest ih =>
      obtain ⟨rfl, hrest⟩ := h
      have hlt : u.offset < u.next := Nat.lt_add_of_pos_right u.instr.size_pos
      have hin := hrest.range.2
      rcases List.mem_cons.mp hs with hs' | hs' <;> rcases List.mem_cons.mp ht with ht' | ht'
      · rw [hs', ht']
      · have := hin t ht'
        rw [hs'] at heq
        omega
      · have := hin s hs'
        rw [ht'] at heq
        omega
      · exact ih hrest hs' ht'

end Contiguous

mutual

theorem Expr.Laid.contiguous {scope : List String} {t a b : Nat} {e : Expr} {sp : List Spot} :
    Expr.Laid scope t a e sp b → Contiguous a sp b
  | .nil | .yes | .no | .number | .text | .getLocal _ | .getGlobal _ => ⟨rfl, rfl⟩
  | .setLocal _ he | .setGlobal _ he | .unary he => he.contiguous.append ⟨rfl, rfl⟩
  | .binary hl hr => hl.contiguous.append (hr.contiguous.append ⟨rfl, rfl⟩)
  | .and hl hr => hl.contiguous.append ⟨rfl, rfl, hr.contiguous⟩
  | .or hl hr => hl.contiguous.append ⟨rfl, rfl, rfl, hr.contiguous⟩
  | .call hf ha => hf.contiguous.append (ha.contiguous.append ⟨rfl, rfl⟩)

theorem Args.Laid.contiguous {scope : List String} {t a b : Nat} {args : Args} {sp : List Spot} :
    Args.Laid scope t a args sp b → Contiguous a sp b
  | .nil => rfl
  | .cons he hr => he.contiguous.append hr.contiguous

end

theorem TestLaid.contiguous {scope : List String} {a exit b : Nat} {c : Option Expr} {sp : List Spot}
    (h : TestLaid scope a c exit sp b) : Contiguous a sp b := by
  cases h with
  | none => rfl
  | some hc => exact hc.contiguous.append ⟨rfl, rfl, rfl⟩

theorem IncrementLaid.contiguous {scope : List String} {start a back b : Nat} {i : Option Expr}
    {sp : List Spot} (h : IncrementLaid scope start a i back sp b) : Contiguous a sp b := by
  cases h with
  | none => rfl
  | some he => exact ⟨rfl, he.contiguous.append ⟨rfl, rfl, rfl⟩⟩

theorem IncrementLaid.back_le {scope : List String} {start a back b : Nat} {n : Option Expr} {si : List Spot}
    (h : IncrementLaid scope start a n back si b) (hs : start ≤ a) : back ≤ b := by
  cases h with
  | none => exact hs
  | some he =>
      have := he.contiguous.range.1
      omega

theorem ExitLaid.contiguous {scope : List String} {a b : Nat} {c : Option Expr} {sp : List Spot}
    (h : ExitLaid scope a c sp b) : Contiguous a sp b := by
  cases h with
  | none => rfl
  | some => exact ⟨rfl, rfl⟩

theorem contiguous_pops (outer inner : List String) (a : Nat) :
    Contiguous a (pops outer inner a) (a + inner.length) := by
  induction inner generalizing a with
  | nil => rfl
  | cons x xs ih =>
      refine ⟨rfl, ?_⟩
      have := ih (a + 1)
      rwa [Nat.add_assoc, Nat.add_comm 1] at this

mutual

theorem Stmt.Laid.contiguous {top : Bool} {scope after : List String} {a b : Nat} {s : Stmt}
    {sp : List Spot} : Stmt.Laid top scope a s sp b after → Contiguous a sp b
  | .expression he | .print he | .ret he | .varGlobal he => he.contiguous.append ⟨rfl, rfl⟩
  | .cond hc hy hn => hc.contiguous.append ⟨rfl, rfl, hy.contiguous.append ⟨rfl, rfl, hn.contiguous⟩⟩
  | .loop hc hi hb he =>
      hc.contiguous.append (hi.contiguous.append (hb.contiguous.append ⟨rfl, he.contiguous⟩))
  | .block hb => hb.contiguous.append (contiguous_pops ..)
  | .varLocal he => he.contiguous
  | .functionLocal => ⟨rfl, rfl⟩
  | .functionGlobal => ⟨rfl, rfl, rfl⟩

theorem Block.Laid.contiguous {top : Bool} {scope after : List String} {a b : Nat} {body : Block}
    {sp : List Spot} : Block.Laid top scope a body sp b after → Contiguous a sp b
  | .nil => rfl
  | .cons hs hr => hs.contiguous.append hr.contiguous

end

/-! ### Code in a chunk -/

/-- A value is what a literal stands for. -/
def Literal.Denotes (heap : Heap) (v : Value) : Literal → Prop
  | .number x => v = .number x
  | .text chars => ∃ handle s, v = .object handle ∧ heap.string? handle = some s ∧ s.chars = chars
  | .function label => v = .object label

/-- The value stands among the constants, for the first time at an index. -/
structure Chunk.FirstAt (c : Chunk) (i : Nat) (v : Value) : Prop where
  here : c.constant? i = some v
  first : ∀ j, j < i → c.constant? j ≠ some v

/-- The bytes from an offset on are the operand of an instruction. A global variable is named by the first constant
that is its name. -/
def Instr.OperandHolds (heap : Heap) (c : Chunk) (a : Nat) : Instr → Prop
  | .plain op => op.operandSize = 0
  | .constant literal false =>
      ∃ i v, c.byteAt? a = some i ∧ c.constant? i.toNat = some v ∧ literal.Denotes heap v
  | .constant literal true => ∃ i v, c.wordAt? a = some i ∧ c.constant? i = some v ∧ literal.Denotes heap v
  | .getLocal _ slot | .setLocal _ slot => ∃ i, c.byteAt? a = some i ∧ i.toNat = slot
  | .getGlobal name | .setGlobal name | .defineGlobal name =>
      ∃ i v, c.byteAt? a = some i ∧ c.FirstAt i.toNat v ∧ (Literal.text name).Denotes heap v
  | .jump target | .jumpIfFalse target | .loop target =>
      ∃ w, c.wordAt? a = some w ∧ ((a + 2 : Nat) : Int) + signedOf w = target
  | .call count => ∃ i, c.byteAt? a = some i ∧ i.toNat = count

/-- The bytes at a spot encode its instruction. -/
def Spot.Holds (heap : Heap) (c : Chunk) (s : Spot) : Prop :=
  c.byteAt? s.offset = some s.instr.opcode.toByte ∧ s.instr.OperandHolds heap c (s.offset + 1)

/-- A string object, if there is one, has the characters of a name, if there is one. -/
def NameHolds (heap : Heap) : Option Handle → Option String → Prop
  | none, none => True
  | some handle, some name => ∃ s, heap.string? handle = some s ∧ s.chars = name
  | _, _ => False

/-- A function object is the code of a routine, and no more. -/
structure Coded (heap : Heap) (handle : Handle) (r : Routine) (f : FunctionObject) (sp : List Spot) : Prop where
  object : heap.function? handle = some f
  arity : f.arity = r.params.length
  name : NameHolds heap f.name r.name
  laid : r.Laid sp
  whole : Contiguous 0 sp f.chunk.size
  holds : ∀ s ∈ sp, s.Holds heap f.chunk

end Lox
