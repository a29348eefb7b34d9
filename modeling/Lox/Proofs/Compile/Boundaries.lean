import Lox.Proofs.Compile.Written

/-! Where instructions start, and on which lines they stand. Code is read from its start by opcodes and numbers of
operand bytes. While it is written, the end of the code is always a place where the next instruction may start; a jump
that is given its target is only changed behind its opcode, so no start is ever lost or added before the end. -/

namespace Lox

namespace Chunk

/-! ### Starts of instructions -/

/-- The opcode that the byte at an offset stands for, if any. -/
def opcodeAt? (c : Chunk) (offset : Nat) : Option Opcode := (c.byteAt? offset).bind Opcode.ofByte?

/-- The offset is the start of the code or the end of an instruction that starts at such an offset. -/
inductive Boundary (c : Chunk) : Nat → Prop where
  | start : Boundary c 0
  | next {a : Nat} {op : Opcode} (h : Boundary c a) (hop : c.opcodeAt? a = some op) :
      Boundary c (a + 1 + op.operandSize)

variable {c c' : Chunk} {a b n : Nat} {op : Opcode}

theorem lt_size_of_opcodeAt? (h : c.opcodeAt? a = some op) : a < c.size := by
  obtain ⟨byte, hbyte, -⟩ := Option.bind_eq_some_iff.mp h
  exact lt_size_of_byteAt? hbyte

/-- Instructions do not overlap: each ends where a later one starts, or before. -/
theorem Boundary.ends (hb : c.Boundary b) (ha : c.Boundary a) (hab : a < b) :
    ∃ op, c.opcodeAt? a = some op ∧ a + 1 + op.operandSize ≤ b := by
  induction b using Nat.strong_induction_on generalizing a with
  | _ b ih =>
      cases hb with
      | start => omega
      | @next d op hd hop =>
          rcases Nat.lt_trichotomy a d with hlt | rfl | hlt
          · obtain ⟨op', hop', hle⟩ := ih d (by omega) hd ha hlt
            exact ⟨op', hop', by omega⟩
          · exact ⟨op, hop, Nat.le_refl _⟩
          · -- the instruction before the last offset would end behind another start
            obtain ⟨op', hop', hle⟩ := ih a hab ha hd hlt
            obtain rfl : op = op' := Option.some.inj (hop.symm.trans hop')
            omega

/-- Starts are the same in code that has the same opcodes at them. -/
theorem Boundary.congr (h : c.Boundary b)
    (hsame : ∀ a op, c.Boundary a → a < b → c.opcodeAt? a = some op → c'.opcodeAt? a = some op) : c'.Boundary b := by
  induction h with
  | start => exact .start
  | @next a op ha hop ih =>
      refine .next (ih fun d op' hd hlt => hsame d op' hd (by omega)) ?_
      exact hsame a op ha (by omega) hop

/-! ### Open jumps -/

/-- The offset is that of the two-byte operand of an instruction. -/
def Hole (c : Chunk) (n : Nat) : Prop :=
  ∃ a op, c.Boundary a ∧ c.opcodeAt? a = some op ∧ op.operandSize = 2 ∧ n = a + 1

/-- A two-byte operand holds no start of an instruction. -/
theorem Hole.apart (h : c.Hole n) (hb : c.Boundary b) : b ≠ n ∧ b ≠ n + 1 := by
  obtain ⟨a, op, ha, hop, hsize, rfl⟩ := h
  rcases Nat.lt_or_ge a b with hlt | hle
  · obtain ⟨op', hop', hend⟩ := hb.ends ha hlt
    obtain rfl : op = op' := Option.some.inj (hop.symm.trans hop')
    omega
  · omega

theorem opcodeAt?_setWord (h : c.Hole n) (hb : c.Boundary b) (operand : Nat) :
    (c.setWord n operand).opcodeAt? b = c.opcodeAt? b := by
  unfold opcodeAt?
  rw [byteAt?_setWord c n operand b (h.apart hb).1 (h.apart hb).2]

/-- An operand that is overwritten changes no start. -/
theorem boundary_setWord (h : c.Hole n) (operand : Nat) : (c.setWord n operand).Boundary b ↔ c.Boundary b := by
  constructor
  · intro hb
    induction hb with
    | start => exact .start
    | next hd hop ih => exact .next ih (by rwa [opcodeAt?_setWord h ih] at hop)
  · exact fun hb => hb.congr fun a op ha _ hop => by rwa [opcodeAt?_setWord h ha]

theorem Hole.setWord {m : Nat} (h : c.Hole n) (hm : c.Hole m) (operand : Nat) : (c.setWord n operand).Hole m := by
  obtain ⟨a, op, ha, hop, hrest⟩ := hm
  exact ⟨a, op, (boundary_setWord h operand).mpr ha, by rwa [opcodeAt?_setWord h ha], hrest⟩

/-! ### Writing an instruction -/

/-- Appends bytes of a source line. -/
def append (c : Chunk) (line : Nat) : List UInt8 → Chunk
  | [] => c
  | byte :: bytes => (c.write byte line).append line bytes

@[simp] theorem append_nil (c : Chunk) (line : Nat) : c.append line [] = c := rfl

theorem append_cons (c : Chunk) (line : Nat) (byte : UInt8) (bytes : List UInt8) :
    c.append line (byte :: bytes) = (c.write byte line).append line bytes := rfl

@[simp] theorem size_append (c : Chunk) (line : Nat) (bytes : List UInt8) :
    (c.append line bytes).size = c.size + bytes.length := by
  induction bytes generalizing c with
  | nil => rfl
  | cons byte bytes ih =>
      rw [append_cons, ih, size_write, List.length_cons]
      omega

theorem grows_append (c : Chunk) (line : Nat) (bytes : List UInt8) : c.Grows (c.append line bytes) := by
  induction bytes generalizing c with
  | nil => exact .refl c
  | cons byte bytes ih => exact (grows_write c byte line).trans (ih _)

theorem Grows.opcodeAt? (h : c.Grows c') (hop : c.opcodeAt? a = some op) : c'.opcodeAt? a = some op := by
  unfold Chunk.opcodeAt?
  rw [h.bytes a (lt_size_of_opcodeAt? hop)]
  exact hop

theorem Grows.boundary (h : c.Grows c') (hb : c.Boundary b) : c'.Boundary b :=
  hb.congr fun _ _ _ _ hop => h.opcodeAt? hop

theorem Grows.hole (h : c.Grows c') (hn : c.Hole n) : c'.Hole n := by
  obtain ⟨a, op, ha, hop, hrest⟩ := hn
  exact ⟨a, op, h.boundary ha, h.opcodeAt? hop, hrest⟩

theorem opcodeAt?_append_self (c : Chunk) (line : Nat) (op : Opcode) (operands : List UInt8) :
    (c.append line (op.toByte :: operands)).opcodeAt? c.size = some op := by
  refine (grows_append (c.write op.toByte line) line operands).opcodeAt? ?_
  unfold opcodeAt?
  rw [byteAt?_write, if_pos rfl, Option.bind_some, Opcode.ofByte?_toByte]

/-- A jump that has just been written is open. -/
theorem hole_append (hwhole : c.Boundary c.size) (line : Nat) {operands : List UInt8} (hsize : op.operandSize = 2) :
    (c.append line (op.toByte :: operands)).Hole (c.size + 1) :=
  ⟨c.size, op, (grows_append c line _).boundary hwhole, opcodeAt?_append_self c line op operands, hsize, rfl⟩

/-- Behind the starts there were, there is only the end of what has been written. -/
theorem boundary_append (hwhole : c.Boundary c.size) (line : Nat) {operands : List UInt8}
    (hsize : operands.length = op.operandSize) (hb : (c.append line (op.toByte :: operands)).Boundary b) :
    c.Boundary b ∧ b ≤ c.size ∨ b = (c.append line (op.toByte :: operands)).size := by
  have hgrows := grows_append c line (op.toByte :: operands)
  have hlength : (c.append line (op.toByte :: operands)).size = c.size + 1 + op.operandSize := by
    rw [size_append, List.length_cons, hsize]
    omega
  induction hb with
  | start => exact .inl ⟨.start, Nat.zero_le _⟩
  | @next a op' ha hop ih =>
      rcases ih with ⟨hold, hle⟩ | rfl
      · rcases Nat.lt_or_eq_of_le hle with hlt | rfl
        · obtain ⟨op'', hop'', hend⟩ := hwhole.ends hold hlt
          obtain rfl : op' = op'' := Option.some.inj (hop.symm.trans (hgrows.opcodeAt? hop''))
          exact .inl ⟨.next hold hop'', hend⟩
        · obtain rfl : op' = op := Option.some.inj (hop.symm.trans (opcodeAt?_append_self c line op operands))
          exact .inr hlength.symm
      · exact absurd (lt_size_of_opcodeAt? hop) (Nat.lt_irrefl _)

theorem boundary_append_size (hwhole : c.Boundary c.size) (line : Nat) {operands : List UInt8}
    (hsize : operands.length = op.operandSize) :
    (c.append line (op.toByte :: operands)).Boundary (c.append line (op.toByte :: operands)).size := by
  have hnext := Boundary.next ((grows_append c line (op.toByte :: operands)).boundary hwhole)
    (opcodeAt?_append_self c line op operands)
  rwa [← hsize, Nat.add_assoc, Nat.add_comm 1, ← List.length_cons (a := op.toByte), ← size_append c line] at hnext

/-! ### Lines -/

/-- The lines of code: each byte has one, they do not go back, the bytes of an instruction have the same, and each of
them is among `lines`. -/
structure Lined (c : Chunk) (lines : Nat → Prop) : Prop where
  size : c.lines.size = c.size
  whole : c.Boundary c.size
  ordered : ∀ i j l l', i ≤ j → c.lineAt? i = some l → c.lineAt? j = some l' → l ≤ l'
  uniform : ∀ a op i, c.Boundary a → c.opcodeAt? a = some op → i ≤ op.operandSize → c.lineAt? (a + i) = c.lineAt? a
  among : ∀ i l, c.lineAt? i = some l → lines l

variable {lines : Nat → Prop}

theorem lined_empty : Chunk.empty.Lined lines where
  size := rfl
  whole := .start
  ordered := nofun
  uniform _ _ _ _ hop := absurd (lt_size_of_opcodeAt? hop) (Nat.not_lt_zero _)
  among := nofun

theorem lineAt?_append (c : Chunk) (hsize : c.lines.size = c.size) (line : Nat) (bytes : List UInt8) (i : Nat) :
    (c.append line bytes).lineAt? i =
      if i < c.size then c.lineAt? i else if i < c.size + bytes.length then some line else none := by
  induction bytes generalizing c with
  | nil =>
      split
      · rfl
      · have hle : c.lines.items.size ≤ i := by
          have hitems : c.lines.items.size = c.size := hsize
          omega
        rw [if_neg (by simpa using by omega)]
        exact Array.getElem?_eq_none hle
  | cons byte bytes ih =>
      have hwrite : (c.write byte line).lines.size = (c.write byte line).size := by
        rw [size_write, ← hsize]
        exact Buffer.size_push c.lines line
      rw [append_cons, ih _ hwrite, size_write, List.length_cons]
      have hline : (c.write byte line).lineAt? i = if i = c.size then some line else c.lineAt? i := by
        rw [← hsize]
        exact Array.getElem?_push
      rw [hline]
      grind

theorem lines_append (c : Chunk) (line : Nat) (bytes : List UInt8) :
    (c.append line bytes).lines.size = c.lines.size + bytes.length := by
  induction bytes generalizing c with
  | nil => rfl
  | cons byte bytes ih =>
      rw [append_cons, ih, List.length_cons]
      have hwrite : (c.write byte line).lines.size = c.lines.size + 1 := Buffer.size_push c.lines line
      omega

/-- An instruction is appended whose line does not lie before those there are. -/
theorem Lined.append (h : c.Lined lines) {line : Nat} {operands : List UInt8} (hsize : operands.length = op.operandSize)
    (hline : lines line) (hlast : ∀ i l, c.lineAt? i = some l → l ≤ line) :
    (c.append line (op.toByte :: operands)).Lined lines := by
  have hat := lineAt?_append c h.size line (op.toByte :: operands)
  refine ⟨?_, boundary_append_size h.whole line hsize, ?_, ?_, ?_⟩
  · rw [lines_append, size_append, h.size]
  · intro i j l l' hij hi hj
    rw [hat] at hi hj
    have hold := h.ordered i j l l' hij
    have hle := hlast i l
    grind
  · intro a op' i ha hop hi
    rcases boundary_append h.whole line hsize ha with ⟨hold, hle⟩ | rfl
    · rcases Nat.lt_or_eq_of_le hle with hlt | rfl
      · obtain ⟨op'', hop'', hend⟩ := h.whole.ends hold hlt
        obtain rfl : op' = op'' := Option.some.inj (hop.symm.trans ((grows_append c line _).opcodeAt? hop''))
        rw [hat, hat, if_pos (by omega), if_pos hlt]
        exact h.uniform a op' i hold hop'' hi
      · obtain rfl : op' = op := Option.some.inj (hop.symm.trans (opcodeAt?_append_self c line op operands))
        rw [hat, hat, List.length_cons, hsize]
        simp only [Nat.lt_irrefl, if_false]
        rw [if_neg (by omega), if_pos (by omega), if_pos (by omega)]
    · exact absurd (lt_size_of_opcodeAt? hop) (Nat.lt_irrefl _)
  · intro i l hi
    rw [hat] at hi
    have hold := h.among i l
    grind

/-- The operand of a jump is overwritten. -/
theorem Lined.setWord (h : c.Lined lines) (hn : c.Hole n) (operand : Nat) : (c.setWord n operand).Lined lines where
  size := by rw [size_setWord]; exact h.size
  whole := by rw [size_setWord]; exact (boundary_setWord hn operand).mpr h.whole
  ordered := h.ordered
  uniform a op i ha hop := by
    have ha := (boundary_setWord hn operand).mp ha
    exact h.uniform a op i ha (by rwa [opcodeAt?_setWord hn ha] at hop)
  among := h.among

end Chunk

end Lox
