import Lox.Proofs.Compile.Accepted
import Lox.Proofs.Compile.Pools
import Lox.Proofs.Flow

/-! Well-formed chunks. Read from its start, a compiled chunk is a sequence of known instructions that ends where the
code ends; operands refer to constants that are there, and jumps lead to instructions. The notions here speak of bytes
and not of trees, so that they can be evaluated on any chunk. -/

namespace Lox

/-! ### Reading code -/

/-- The instruction refers to a global variable by its name. -/
def Opcode.namesGlobal : Opcode → Bool
  | .getGlobal | .setGlobal | .defineGlobal => true
  | _ => false

namespace Chunk

/-- The instructions from an offset to the end, at most so many, each with its offset. There are none if a byte is no
opcode or if the last instruction is cut off. -/
def decodeFrom (c : Chunk) : Nat → Nat → Option (List (Nat × Opcode))
  | 0, offset => if offset = c.size then some [] else none
  | count + 1, offset =>
    if offset = c.size then some []
    else do
      let op ← (c.byteAt? offset).bind Opcode.ofByte?
      let rest ← c.decodeFrom count (offset + 1 + op.operandSize)
      return (offset, op) :: rest

/-- The instructions of a chunk. Each has at least one byte, so there are no more than bytes. -/
def instructions? (c : Chunk) : Option (List (Nat × Opcode)) := c.decodeFrom c.size 0

/-- The name of the global variable that the instruction at an offset refers to. -/
def nameAt? (c : Chunk) (heap : Heap) (offset : Nat) : Option String := do
  let index ← c.byteAt? (offset + 1)
  let value ← c.constant? index.toNat
  let handle ← value.handle?
  let string ← heap.string? handle
  return string.chars

/-- The code of a chunk as a whole: what it is read as, how it ends, and where its operands lead. -/
structure WellFormed (c : Chunk) (heap : Heap) (code : List (Nat × Opcode)) : Prop where
  decoded : c.instructions? = some code
  ends : ∃ n, c.size = n + 2 ∧ c.byteAt? n = some Opcode.pushNil.toByte ∧ c.byteAt? (n + 1) = some Opcode.ret.toByte
  constants : ∀ a, (a, .constant) ∈ code → ∃ i v, c.byteAt? (a + 1) = some i ∧ c.constant? i.toNat = some v
  wides : ∀ a, (a, .constantWide) ∈ code → ∃ i v, c.wordAt? (a + 1) = some i ∧ c.constant? i = some v
  names : ∀ a op, (a, op) ∈ code → op.namesGlobal → ∃ name, c.nameAt? heap a = some name
  oneIndex : ∀ a op b op', (a, op) ∈ code → op.namesGlobal → (b, op') ∈ code → op'.namesGlobal →
    c.nameAt? heap a = c.nameAt? heap b → c.byteAt? (a + 1) = c.byteAt? (b + 1)
  forward : ∀ a op, (a, op) ∈ code → op = .jump ∨ op = .jumpIfFalse →
    ∃ d : Nat, c.signedAt? (a + 1) = some (d : Int) ∧ ∃ op', (a + 3 + d, op') ∈ code
  backward : ∀ a, (a, .loop) ∈ code →
    ∃ d : Nat, 0 < d ∧ d ≤ a + 3 ∧ c.signedAt? (a + 1) = some (-d : Int) ∧ ∃ op', (a + 3 - d, op') ∈ code

end Chunk

/-! ### Spots as bytes -/

/-- The offset and the opcode of a spot. -/
def Spot.entry (s : Spot) : Nat × Opcode := (s.offset, s.instr.opcode)

theorem Spot.Holds.size_eq {heap : Heap} {c : Chunk} {s : Spot} (h : s.Holds heap c) :
    s.instr.size = 1 + s.instr.opcode.operandSize := by
  obtain ⟨offset, instr, scope, pending⟩ := s
  cases instr with
  | plain op =>
      have hnone : op.operandSize = 0 := h.2
      simp [Instr.size, Instr.opcode, hnone]
  | constant literal wide => cases wide <;> rfl
  | _ => rfl

theorem Contiguous.length_le {a b : Nat} {sp : List Spot} (h : Contiguous a sp b) : a + sp.length ≤ b := by
  induction sp generalizing a with
  | nil => exact Nat.le_of_eq h
  | cons s rest ih =>
      obtain ⟨rfl, hrest⟩ := h
      have hlen := ih hrest
      have hpos := s.instr.size_pos
      rw [List.length_cons]
      unfold Spot.next at hlen
      omega

theorem Contiguous.end_eq {a b b' : Nat} {sp : List Spot} (h : Contiguous a sp b) (h' : Contiguous a sp b') :
    b = b' := by
  induction sp generalizing a with
  | nil => exact h.symm.trans h'
  | cons s rest ih => exact ih h.2 h'.2

/-- Spots that follow one another to the end of a chunk are what the chunk is read as. -/
theorem Contiguous.decodeFrom {heap : Heap} {c : Chunk} {a count : Nat} {sp : List Spot} (h : Contiguous a sp c.size)
    (hholds : ∀ s ∈ sp, s.Holds heap c) (hcount : sp.length ≤ count) :
    c.decodeFrom count a = some (sp.map Spot.entry) := by
  induction sp generalizing a count with
  | nil =>
      obtain rfl : a = c.size := h
      cases count <;> simp [Chunk.decodeFrom]
  | cons s rest ih =>
      obtain ⟨rfl, hrest⟩ := h
      rw [List.forall_mem_cons] at hholds
      obtain ⟨hs, hholds⟩ := hholds
      have hlt := Chunk.lt_size_of_byteAt? hs.1
      have hnext : s.next = s.offset + 1 + s.instr.opcode.operandSize := by
        rw [Spot.next, hs.size_eq, Nat.add_assoc]
      rw [hnext] at hrest
      cases count with
      | zero => simp at hcount
      | succ count =>
          have hmore := ih hrest hholds (Nat.le_of_succ_le_succ hcount)
          simp [Chunk.decodeFrom, Nat.ne_of_lt hlt, hs.1, hmore, Spot.entry]

/-! ### The directions of jumps -/

/-- A jump goes forward over itself, and a loop goes back. -/
def Spot.Directed (s : Spot) : Prop :=
  match s.instr with
  | .jump target | .jumpIfFalse target => s.next ≤ target
  | .loop target => target ≤ s.offset
  | _ => True

mutual

theorem Expr.Laid.directed {scope : List String} {t a b : Nat} {e : Expr} {sp : List Spot} :
    Expr.Laid scope t a e sp b → ∀ p ∈ sp, p.Directed
  | .nil | .yes | .no | .number | .text | .getLocal _ | .getGlobal _ => List.forall_mem_singleton.mpr trivial
  | .setLocal _ he | .setGlobal _ he | .unary he =>
      List.forall_mem_append.mpr ⟨he.directed, List.forall_mem_singleton.mpr trivial⟩
  | .binary hl hr => by
      simp only [List.forall_mem_append, List.forall_mem_singleton]
      exact ⟨hl.directed, hr.directed, trivial⟩
  | .and hl hr => by
      have hle := hr.contiguous.range.1
      simp only [List.forall_mem_append, List.forall_mem_cons]
      exact ⟨hl.directed, Nat.le_of_succ_le hle, trivial, hr.directed⟩
  | .or hl hr => by
      have hle := hr.contiguous.range.1
      simp only [List.forall_mem_append, List.forall_mem_cons]
      exact ⟨hl.directed, Nat.le_add_right _ 3, Nat.le_of_succ_le hle, trivial, hr.directed⟩
  | .call hf ha => by
      simp only [List.forall_mem_append, List.forall_mem_singleton]
      exact ⟨hf.directed, ha.directed, trivial⟩

theorem Args.Laid.directed {scope : List String} {t a b : Nat} {args : Args} {sp : List Spot} :
    Args.Laid scope t a args sp b → ∀ p ∈ sp, p.Directed
  | .nil => nofun
  | .cons he hr => List.forall_mem_append.mpr ⟨he.directed, hr.directed⟩

end

theorem TestLaid.directed {scope : List String} {a exit b : Nat} {c : Option Expr} {sp : List Spot}
    (h : TestLaid scope a c exit sp b) (hexit : b ≤ exit) : ∀ p ∈ sp, p.Directed := by
  cases h with
  | none => exact nofun
  | some hc =>
      simp only [List.forall_mem_append, List.forall_mem_cons, List.not_mem_nil, false_implies, implies_true, and_true]
      exact ⟨hc.directed, Nat.le_of_succ_le hexit, trivial⟩

theorem IncrementLaid.directed {scope : List String} {start a back b : Nat} {i : Option Expr} {sp : List Spot}
    (h : IncrementLaid scope start a i back sp b) (hs : start ≤ a) : ∀ p ∈ sp, p.Directed := by
  cases h with
  | none => exact nofun
  | @some m _ _ he =>
      have hle := he.contiguous.range.1
      simp only [List.forall_mem_cons, List.forall_mem_append, List.not_mem_nil, false_implies, implies_true, and_true]
      refine ⟨?_, he.directed, trivial, ?_⟩
      · show a + 3 ≤ m + 4
        omega
      · show start ≤ m + 1
        omega

theorem ExitLaid.directed {scope : List String} {a b : Nat} {c : Option Expr} {sp : List Spot}
    (h : ExitLaid scope a c sp b) : ∀ p ∈ sp, p.Directed := by
  cases h with
  | none => exact nofun
  | some => exact List.forall_mem_singleton.mpr trivial

theorem directed_pops (outer inner : List String) (a : Nat) : ∀ p ∈ pops outer inner a, p.Directed := by
  induction inner generalizing a with
  | nil => exact nofun
  | cons x xs ih => exact List.forall_mem_cons.mpr ⟨trivial, ih (a + 1)⟩

mutual

theorem Stmt.Laid.directed {top : Bool} {scope after : List String} {a b : Nat} {s : Stmt} {sp : List Spot} :
    Stmt.Laid top scope a s sp b after → ∀ p ∈ sp, p.Directed
  | .expression he | .print he | .ret he | .varGlobal he =>
      List.forall_mem_append.mpr ⟨he.directed, List.forall_mem_singleton.mpr trivial⟩
  | @Stmt.Laid.cond _ _ _ m n _ _ _ _ _ _ _ hc hy hn => by
      have hyes := hy.contiguous.range.1
      have hno := hn.contiguous.range.1
      simp only [List.forall_mem_append, List.forall_mem_cons]
      refine ⟨hc.directed, ?_, trivial, hy.directed, Nat.le_of_succ_le hno, trivial, hn.directed⟩
      show m + 3 ≤ n + 3
      omega
  | @Stmt.Laid.loop _ _ _ m k n _ _ _ _ _ _ _ _ _ hc hi hb he => by
      have htest := hc.contiguous.range.1
      have hincrement := hi.contiguous.range.1
      have hbody := hb.contiguous.range.1
      simp only [List.forall_mem_append, List.forall_mem_cons]
      refine ⟨hc.directed (by omega), hi.directed htest, hb.directed, ?_, he.directed⟩
      exact Nat.le_trans (hi.back_le htest) hbody
  | .block hb => List.forall_mem_append.mpr ⟨hb.directed, directed_pops _ _ _⟩
  | .varLocal he => he.directed
  | .functionLocal => List.forall_mem_singleton.mpr trivial
  | .functionGlobal => List.forall_mem_cons.mpr ⟨trivial, List.forall_mem_singleton.mpr trivial⟩

theorem Block.Laid.directed {top : Bool} {scope after : List String} {a b : Nat} {body : Block} {sp : List Spot} :
    Block.Laid top scope a body sp b after → ∀ p ∈ sp, p.Directed
  | .nil => nofun
  | .cons hs hr => List.forall_mem_append.mpr ⟨hs.directed, hr.directed⟩

end

theorem Routine.Laid.directed {r : Routine} {sp : List Spot} (h : r.Laid sp) : ∀ p ∈ sp, p.Directed := by
  cases h with
  | mk hb =>
      simp only [List.forall_mem_append, List.forall_mem_cons, List.not_mem_nil, false_implies, implies_true, and_true]
      exact ⟨hb.directed, trivial, trivial⟩

/-! ### Compiled functions -/

namespace Coded

variable {heap : Heap} {k : Handle} {r : Routine} {f : FunctionObject} {sp : List Spot}

/-- A spot lies at each offset that the code is read at. -/
theorem spot {a : Nat} {op : Opcode} (hc : Coded heap k r f sp) (h : (a, op) ∈ sp.map Spot.entry) :
    ∃ s ∈ sp, s.offset = a ∧ s.instr.opcode = op ∧ s.instr.OperandHolds heap f.chunk (a + 1) := by
  obtain ⟨s, hs, heq⟩ := List.mem_map.mp h
  obtain ⟨rfl, rfl⟩ := Prod.mk.inj heq
  exact ⟨s, hs, rfl, rfl, (hc.holds s hs).2⟩

theorem decoded (hc : Coded heap k r f sp) : f.chunk.instructions? = some (sp.map Spot.entry) :=
  hc.whole.decodeFrom hc.holds (by have := hc.whole.length_le; omega)

theorem ends (hc : Coded heap k r f sp) : ∃ n, f.chunk.size = n + 2 ∧
    f.chunk.byteAt? n = some Opcode.pushNil.toByte ∧ f.chunk.byteAt? (n + 1) = some Opcode.ret.toByte := by
  obtain ⟨-, -, -, hlaid, hwhole, hholds⟩ := hc
  cases hlaid with
  | @mk _ m after hb =>
      rw [List.forall_mem_append, List.forall_mem_cons, List.forall_mem_singleton] at hholds
      obtain ⟨-, hnil, hret⟩ := hholds
      exact ⟨m, hwhole.end_eq (hb.contiguous.append ⟨rfl, rfl, rfl⟩), hnil.1, hret.1⟩

theorem constants {a : Nat} (hc : Coded heap k r f sp) (h : (a, .constant) ∈ sp.map Spot.entry) :
    ∃ i v, f.chunk.byteAt? (a + 1) = some i ∧ f.chunk.constant? i.toNat = some v := by
  obtain ⟨⟨_, instr, scope, t⟩, -, rfl, hop, hholds⟩ := hc.spot h
  cases instr with
  | plain op =>
      obtain rfl : op = .constant := hop
      cases hholds
  | constant literal wide =>
      cases wide with
      | false =>
          obtain ⟨i, v, hi, hv, -⟩ := hholds
          exact ⟨i, v, hi, hv⟩
      | true => cases hop
  | _ => cases hop

theorem wides {a : Nat} (hc : Coded heap k r f sp) (h : (a, .constantWide) ∈ sp.map Spot.entry) :
    ∃ i v, f.chunk.wordAt? (a + 1) = some i ∧ f.chunk.constant? i = some v := by
  obtain ⟨⟨_, instr, scope, t⟩, -, rfl, hop, hholds⟩ := hc.spot h
  cases instr with
  | plain op =>
      obtain rfl : op = .constantWide := hop
      cases hholds
  | constant literal wide =>
      cases wide with
      | false => cases hop
      | true =>
          obtain ⟨i, v, hi, hv, -⟩ := hholds
          exact ⟨i, v, hi, hv⟩
  | _ => cases hop

/-- A global variable is named by the first constant that is the string of its name. -/
theorem named {a : Nat} {op : Opcode} (hc : Coded heap k r f sp) (h : (a, op) ∈ sp.map Spot.entry)
    (hop : op.namesGlobal) : ∃ i handle str, f.chunk.byteAt? (a + 1) = some i ∧
      f.chunk.FirstAt i.toNat (.object handle) ∧ heap.string? handle = some str ∧
      f.chunk.nameAt? heap a = some str.chars := by
  obtain ⟨⟨_, instr, scope, t⟩, -, -, rfl, hholds⟩ := hc.spot h
  have hname : ∃ name i v, f.chunk.byteAt? (a + 1) = some i ∧ f.chunk.FirstAt i.toNat v ∧
      (Literal.text name).Denotes heap v := by
    cases instr with
    | getGlobal name | setGlobal name | defineGlobal name => exact ⟨name, hholds⟩
    | plain op =>
        cases op with
        | getGlobal | setGlobal | defineGlobal => cases hholds
        | _ => cases hop
    | constant literal wide => cases wide <;> cases hop
    | _ => cases hop
  obtain ⟨name, i, v, hi, hfirst, handle, str, rfl, hstr, -⟩ := hname
  refine ⟨i, handle, str, hi, hfirst, hstr, ?_⟩
  simp [Chunk.nameAt?, hi, hfirst.here, Value.handle?, hstr]

/-- Constants that are strings with the same characters are the same constant. -/
theorem oneIndex {a b : Nat} {op op' : Opcode} (hc : Coded heap k r f sp) (hi : heap.Interned)
    (h : (a, op) ∈ sp.map Spot.entry) (hop : op.namesGlobal) (h' : (b, op') ∈ sp.map Spot.entry)
    (hop' : op'.namesGlobal) (hname : f.chunk.nameAt? heap a = f.chunk.nameAt? heap b) :
    f.chunk.byteAt? (a + 1) = f.chunk.byteAt? (b + 1) := by
  obtain ⟨i, handle, str, hbyte, hfirst, hstr, hread⟩ := hc.named h hop
  obtain ⟨j, handle', str', hbyte', hfirst', hstr', hread'⟩ := hc.named h' hop'
  rw [hread, hread', Option.some.injEq] at hname
  obtain rfl := hi.unique hstr hstr' hname
  have hij : i.toNat = j.toNat := by
    rcases Nat.lt_trichotomy i.toNat j.toNat with hlt | heq | hlt
    · exact absurd hfirst.here (hfirst'.first _ hlt)
    · exact heq
    · exact absurd hfirst'.here (hfirst.first _ hlt)
  rw [hbyte, hbyte', UInt8.toNat_inj.mp hij]

/-- Wherever a jump leads there is an instruction. -/
theorem lands {s : Spot} (hc : Coded heap k r f sp) (hs : s ∈ sp) {target : Nat}
    (ht : s.instr = .jump target ∨ s.instr = .jumpIfFalse target ∨ s.instr = .loop target) :
    ∃ op, (target, op) ∈ sp.map Spot.entry := by
  have hflows : s.Flows sp fun _ => True := (hc.laid.flows fun _ _ => trivial).2 s hs
  have hlands : ∃ n, Lands sp target n := by
    cases hflows with
    | jump h | loop h | jumpIfFalse h =>
        rcases ht with ht | ht | ht <;> cases ht
        exact ⟨_, h⟩
    | _ => simp at ht
  obtain ⟨n, q, hq, rfl, -⟩ := hlands
  exact ⟨q.instr.opcode, List.mem_map.mpr ⟨q, hq, rfl⟩⟩

/-- The operand of a jump is the distance from its end to its target. -/
theorem signedAt?_of_target {c : Chunk} {a target : Nat}
    (h : ∃ w, c.wordAt? (a + 1) = some w ∧ ((a + 1 + 2 : Nat) : Int) + signedOf w = target) :
    c.signedAt? (a + 1) = some ((target : Int) - (a + 3 : Nat)) := by
  obtain ⟨w, hw, ht⟩ := h
  rw [Chunk.signedAt?, hw, Option.map_some, Option.some.injEq]
  omega

theorem forward {a : Nat} {op : Opcode} (hc : Coded heap k r f sp) (h : (a, op) ∈ sp.map Spot.entry)
    (hop : op = .jump ∨ op = .jumpIfFalse) :
    ∃ d : Nat, f.chunk.signedAt? (a + 1) = some (d : Int) ∧ ∃ op', (a + 3 + d, op') ∈ sp.map Spot.entry := by
  obtain ⟨s, hs, rfl, rfl, hholds⟩ := hc.spot h
  have hdirected := hc.laid.directed s hs
  have htarget : ∃ target, (s.instr = .jump target ∨ s.instr = .jumpIfFalse target) ∧ s.offset + 3 ≤ target ∧
      f.chunk.signedAt? (s.offset + 1) = some ((target : Int) - (s.offset + 3 : Nat)) := by
    obtain ⟨a, instr, scope, t⟩ := s
    cases instr with
    | jump target => exact ⟨target, .inl rfl, hdirected, signedAt?_of_target hholds⟩
    | jumpIfFalse target => exact ⟨target, .inr rfl, hdirected, signedAt?_of_target hholds⟩
    | plain op => rcases hop with rfl | rfl <;> cases hholds
    | constant literal wide => cases wide <;> rcases hop with hop | hop <;> cases hop
    | _ => rcases hop with hop | hop <;> cases hop
  obtain ⟨target, hinstr, hle, hsigned⟩ := htarget
  refine ⟨target - (s.offset + 3), ?_, ?_⟩
  · rw [hsigned, Nat.cast_sub hle]
  · rw [Nat.add_sub_cancel' hle]
    exact hc.lands hs (by tauto)

theorem backward {a : Nat} (hc : Coded heap k r f sp) (h : (a, .loop) ∈ sp.map Spot.entry) :
    ∃ d : Nat, 0 < d ∧ d ≤ a + 3 ∧ f.chunk.signedAt? (a + 1) = some (-d : Int) ∧
      ∃ op', (a + 3 - d, op') ∈ sp.map Spot.entry := by
  obtain ⟨s, hs, rfl, hop, hholds⟩ := hc.spot h
  have hdirected := hc.laid.directed s hs
  have htarget : ∃ target, s.instr = .loop target ∧ target ≤ s.offset ∧
      f.chunk.signedAt? (s.offset + 1) = some ((target : Int) - (s.offset + 3 : Nat)) := by
    obtain ⟨a, instr, scope, t⟩ := s
    cases instr with
    | loop target => exact ⟨target, rfl, hdirected, signedAt?_of_target hholds⟩
    | plain op =>
        obtain rfl : op = .loop := hop
        cases hholds
    | constant literal wide => cases wide <;> cases hop
    | _ => cases hop
  obtain ⟨target, hinstr, hle, hsigned⟩ := htarget
  refine ⟨s.offset + 3 - target, by omega, by omega, ?_, ?_⟩
  · rw [hsigned, Option.some.injEq]
    omega
  · rw [show s.offset + 3 - (s.offset + 3 - target) = target by omega]
    exact hc.lands hs (.inr (.inr hinstr))

theorem wellFormed (hc : Coded heap k r f sp) (hi : heap.Interned) :
    f.chunk.WellFormed heap (sp.map Spot.entry) where
  decoded := hc.decoded
  ends := hc.ends
  constants _ := hc.constants
  wides _ := hc.wides
  names a op h hop := by
    obtain ⟨-, -, str, -, -, -, hname⟩ := hc.named h hop
    exact ⟨str.chars, hname⟩
  oneIndex _ _ _ _ h hop h' hop' := hc.oneIndex hi h hop h' hop'
  forward _ _ := hc.forward
  backward _ := hc.backward

end Coded

/-! ### What can be reached from a script -/

/-- The object can be reached from another one through the constants of functions. -/
inductive Heap.Reaches (heap : Heap) (start : Handle) : Handle → Prop where
  | refl : Reaches heap start start
  | constant {k l : Handle} {f : FunctionObject} {i : Nat} (h : Reaches heap start k) (hf : heap.function? k = some f)
      (hi : f.chunk.constant? i = some (.object l)) : Reaches heap start l

/-- **Compiled chunks are well formed.** Let a source be accepted, on any heap that can come about. The script is a
function, and its chunk, like that of every function which can be reached from it through constants, is in order: read
from its start by opcodes and numbers of operand bytes it consists of known instructions, the last two of which return
nil, and ends where the code ends; constants and names of global variables are there, a name always under the same
index; and each jump goes forward, each loop back, to the start of an instruction. -/
theorem compile_wellFormed {source : String} {heap : Heap} {printCode : Bool} {journal : Journal} {c : Compilation}
    {script : Handle} (hr : heap.Reached) (h : compile source heap printCode journal = .ok c)
    (hok : c.result = .ok script) :
    (∃ f, c.heap.function? script = some f) ∧
      ∀ k f, c.heap.Reaches script k → c.heap.function? k = some f → ∃ code, f.chunk.WellFormed c.heap code := by
  have hi := hr.interned
  obtain ⟨p, -, hmakes⟩ := compile_accepted h hok hi
  have hscript : (script, ⟨none, [], p⟩) ∈ p.functions ++ [(script, (⟨none, [], p⟩ : Routine))] :=
    List.mem_append_right _ (List.mem_singleton_self _)
  have hpooled := compile_pooled h hi
  -- what can be reached and is no string has been made by this compilation
  have hnew : ∀ k, c.heap.Reaches script k → (∃ s, c.heap.string? k = some s) ∨ heap.cells.size ≤ k.index := by
    intro k hk
    induction hk with
    | refl => exact .inr (hmakes.fresh _ _ hscript).1
    | @constant k l f i _ hf hl ih =>
        rcases ih with ⟨s, hs⟩ | hk
        · rw [Heap.string?_eq_some_iff, Heap.function?_eq_some_iff.mp hf] at hs
          cases hs
        · exact hpooled k f hk hf i l hl
  refine ⟨?_, fun k f hk hf => ?_⟩
  · obtain ⟨f, code, hc⟩ := hmakes.coded _ _ hscript
    exact ⟨f, hc.object⟩
  · rcases hnew k hk with ⟨s, hs⟩ | hk
    · rw [Heap.string?_eq_some_iff, Heap.function?_eq_some_iff.mp hf] at hs
      cases hs
    · obtain ⟨r, hr⟩ := hmakes.made k f hk hf
      obtain ⟨f', code, hc⟩ := hmakes.coded k r hr
      obtain rfl : f' = f := Option.some.inj (hc.object.symm.trans hf)
      exact ⟨_, hc.wellFormed (hmakes.grows.interned hi)⟩

/-- The chunk of a function with a loop, which is reached through a constant of the script. -/
theorem wellFormed_of_nested_loop : ∃ c script k f code,
    compile "fun f(a) \x7b while (a) a = g; return a; \x7d f(true);" .empty false .silent = .ok c ∧
    c.result = .ok script ∧ c.heap.Reaches script k ∧ k ≠ script ∧ c.heap.function? k = some f ∧
    f.chunk.WellFormed c.heap code ∧ ∃ a, (a, .loop) ∈ code := by
  have hrun : ((compile "fun f(a) \x7b while (a) a = g; return a; \x7d f(true);" .empty false .silent).toOption.any
      fun c => c.result.toOption.any fun script => (c.heap.function? script).any fun main =>
      (main.chunk.constant? 1).any fun v => v.handle?.any fun k => (c.heap.function? k).any fun f =>
      k != script && (f.chunk.instructions?.getD []).any fun entry => entry.2 == .loop) = true := by decide +kernel
  simp only [Option.any_eq_true, toOption_eq_some] at hrun
  obtain ⟨c, hc, script, hok, main, hmain, v, hv, k, hk, f, hf, hrun⟩ := hrun
  obtain rfl : v = .object k := by
    cases v with
    | object handle => exact congrArg _ (Option.some.inj hk)
    | nil | bool | number => cases hk
  rw [Bool.and_eq_true, List.any_eq_true] at hrun
  obtain ⟨hne, ⟨a, op⟩, hmem, hloop⟩ := hrun
  have hreaches : c.heap.Reaches script k := .constant .refl hmain hv
  obtain ⟨code, hcode⟩ := (compile_wellFormed (.new _) hc hok).2 k f hreaches hf
  rw [hcode.decoded, Option.getD_some] at hmem
  obtain rfl : op = .loop := by simpa using hloop
  exact ⟨c, script, k, f, code, hc, hok, hreaches, by simpa using hne, hf, hcode, a, hmem⟩

end Lox
