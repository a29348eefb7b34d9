import Lox.Proofs.Layout
import Lox.Proofs.Reached

/-! Code that has been written stays. Writing appends to a chunk, so a spot that holds goes on holding
while the chunk and the heap grow; the only bytes that are ever overwritten are the operand of a forward
jump, whose spot holds from then on. -/

namespace Lox

namespace Chunk

theorem byteAt?_write (c : Chunk) (byte : UInt8) (line i : Nat) :
    (c.write byte line).byteAt? i = if i = c.size then some byte else c.byteAt? i := by
  simp only [byteAt?, write, Buffer.get?, Buffer.items_push, Array.getElem?_push]
  rfl

theorem lt_size_of_byteAt? {c : Chunk} {i : Nat} {b : UInt8} (h : c.byteAt? i = some b) : i < c.size :=
  (Array.getElem?_eq_some_iff.mp h).1

/-- A chunk that came from another one by appending code and adding constants. -/
structure Grows (c c' : Chunk) : Prop where
  size_le : c.size ≤ c'.size
  bytes : ∀ i, i < c.size → c'.byteAt? i = c.byteAt? i
  constants : ∀ i v, c.constant? i = some v → c'.constant? i = some v

namespace Grows

theorem refl (c : Chunk) : Grows c c := ⟨Nat.le_refl _, fun _ _ => rfl, fun _ _ h => h⟩

theorem trans {c₁ c₂ c₃ : Chunk} (h : Grows c₁ c₂) (h' : Grows c₂ c₃) : Grows c₁ c₃ := by
  refine ⟨Nat.le_trans h.size_le h'.size_le, fun i hi => ?_, fun i v hv => h'.constants i v (h.constants i v hv)⟩
  rw [h'.bytes i (Nat.lt_of_lt_of_le hi h.size_le), h.bytes i hi]

theorem byteAt? {c c' : Chunk} (h : Grows c c') {i : Nat} {b : UInt8} (hb : c.byteAt? i = some b) :
    c'.byteAt? i = some b := by
  rw [h.bytes i (lt_size_of_byteAt? hb), hb]

end Grows

/-- Constants that are added later do not come first. -/
theorem FirstAt.grow {c c' : Chunk} {i : Nat} {v : Value} (h : c.FirstAt i v) (hg : c.Grows c') : c'.FirstAt i v := by
  refine ⟨hg.constants i v h.here, fun j hj heq => ?_⟩
  have hlt : i < c.constants.items.size := (Array.getElem?_eq_some_iff.mp h.here).1
  obtain ⟨w, hw⟩ : ∃ w, c.constant? j = some w := ⟨_, Array.getElem?_eq_getElem (Nat.lt_trans hj hlt)⟩
  rw [hg.constants j w hw] at heq
  exact h.first j hj (heq ▸ hw)

theorem grows_write (c : Chunk) (byte : UInt8) (line : Nat) : Grows c (c.write byte line) := by
  refine ⟨by simp, fun i hi => ?_, fun i v hv => hv⟩
  rw [byteAt?_write, if_neg (Nat.ne_of_lt hi)]

theorem grows_writeOp (c : Chunk) (op : Opcode) (line : Nat) : Grows c (c.writeOp op line) :=
  grows_write c _ line

theorem grows_writeOpByte (c : Chunk) (op : Opcode) (operand : UInt8) (line : Nat) :
    Grows c (c.writeOpByte op operand line) := (grows_writeOp c op line).trans (grows_write _ _ _)

theorem grows_writeOpWord (c : Chunk) (op : Opcode) (operand line : Nat) :
    Grows c (c.writeOpWord op operand line) :=
  ((grows_writeOp c op line).trans (grows_write _ _ _)).trans (grows_write _ _ _)

theorem grows_addConstant (c : Chunk) (v : Value) : Grows c (c.addConstant v).1 := by
  refine ⟨Nat.le_refl _, fun _ _ => rfl, fun i w hw => ?_⟩
  have hlt : i < c.constants.items.size := (Array.getElem?_eq_some_iff.mp hw).1
  simp only [constant?, addConstant, Buffer.get?, Buffer.items_push, Array.getElem?_push] at hw ⊢
  rw [if_neg (Nat.ne_of_lt hlt)]
  exact hw

theorem constant?_addConstant (c : Chunk) (v : Value) :
    (c.addConstant v).1.constant? c.constants.size = some v := by
  simp [constant?, addConstant, Buffer.get?, Buffer.items_push, Buffer.size]

/-! ### What was written -/

theorem opcode_writeOp (c : Chunk) (op : Opcode) (line : Nat) :
    (c.writeOp op line).byteAt? c.size = some op.toByte := by
  rw [writeOp, byteAt?_write, if_pos rfl]

theorem opcode_writeOpByte (c : Chunk) (op : Opcode) (operand : UInt8) (line : Nat) :
    (c.writeOpByte op operand line).byteAt? c.size = some op.toByte :=
  (grows_write _ _ _).byteAt? (opcode_writeOp c op line)

theorem operand_writeOpByte (c : Chunk) (op : Opcode) (operand : UInt8) (line : Nat) :
    (c.writeOpByte op operand line).byteAt? (c.size + 1) = some operand := by
  rw [writeOpByte, byteAt?_write, size_writeOp, if_pos rfl]

theorem opcode_writeOpWord (c : Chunk) (op : Opcode) (operand line : Nat) :
    (c.writeOpWord op operand line).byteAt? c.size = some op.toByte :=
  (grows_write _ _ _).byteAt? ((grows_write _ _ _).byteAt? (opcode_writeOp c op line))

theorem wordOf_bytes {n : Nat} (h : n < 65536) : wordOf (lowByte n) (highByte n) = n := by
  simp only [wordOf, lowByte, highByte, Nat.toUInt8, UInt8.toNat_ofNat']
  omega

theorem wordAt?_eq_some {c : Chunk} {i : Nat} {low high : UInt8} (hl : c.byteAt? i = some low)
    (hh : c.byteAt? (i + 1) = some high) : c.wordAt? i = some (wordOf low high) := by
  simp [wordAt?, hl, hh]

theorem operand_writeOpWord (c : Chunk) (op : Opcode) {operand : Nat} (h : operand < 65536) (line : Nat) :
    (c.writeOpWord op operand line).wordAt? (c.size + 1) = some operand := by
  have hl : (c.writeOpWord op operand line).byteAt? (c.size + 1) = some (lowByte operand) := by
    refine (grows_write _ _ _).byteAt? ?_
    rw [byteAt?_write, size_writeOp, if_pos rfl]
  have hh : (c.writeOpWord op operand line).byteAt? (c.size + 1 + 1) = some (highByte operand) := by
    rw [writeOpWord, byteAt?_write, size_write, size_writeOp, if_pos rfl]
  rw [wordAt?_eq_some hl hh, wordOf_bytes h]

/-! ### Overwriting an operand -/

theorem size_setWord (c : Chunk) (offset operand : Nat) : (c.setWord offset operand).size = c.size := by
  simp [setWord, size]

theorem byteAt?_setWord (c : Chunk) (offset operand i : Nat) (h : i ≠ offset) (h' : i ≠ offset + 1) :
    (c.setWord offset operand).byteAt? i = c.byteAt? i := by
  simp only [byteAt?, setWord, Buffer.get?, Buffer.set]
  rw [Array.getElem?_setIfInBounds_ne (Ne.symm h'), Array.getElem?_setIfInBounds_ne (Ne.symm h)]

theorem wordAt?_setWord (c : Chunk) {offset operand : Nat} (h : offset + 2 ≤ c.size) (ho : operand < 65536) :
    (c.setWord offset operand).wordAt? offset = some operand := by
  have hsize : c.code.items.size = c.size := rfl
  have hl : (c.setWord offset operand).byteAt? offset = some (lowByte operand) := by
    simp only [byteAt?, setWord, Buffer.get?, Buffer.set]
    rw [Array.getElem?_setIfInBounds_ne (by omega), Array.getElem?_setIfInBounds_self_of_lt (by omega)]
  have hh : (c.setWord offset operand).byteAt? (offset + 1) = some (highByte operand) := by
    simp only [byteAt?, setWord, Buffer.get?, Buffer.set]
    rw [Array.getElem?_setIfInBounds_self_of_lt (by rw [Array.size_setIfInBounds]; omega)]
  rw [wordAt?_eq_some hl hh, wordOf_bytes ho]

end Chunk

theorem Literal.Denotes.mono {heap heap' : Heap} (hh : heap.Extends heap') {v : Value} {l : Literal}
    (h : l.Denotes heap v) : l.Denotes heap' v := by
  cases l with
  | number x => exact h
  | function label => exact h
  | text chars =>
      obtain ⟨handle, s, hv, hs, hchars⟩ := h
      exact ⟨handle, s, hv, hh.string? hs, hchars⟩

/-! ### Spots -/

namespace Spot

variable {heap heap' : Heap} {c c' : Chunk} {s : Spot}

/-- A spot holds wherever its bytes are the same. -/
theorem Holds.of_bytes (h : s.Holds heap c)
    (hb : ∀ i, s.offset ≤ i → i < s.next → c'.byteAt? i = c.byteAt? i)
    (hc : ∀ i v, c.constant? i = some v → c'.constant? i = some v) (hc' : ∀ i v, c.FirstAt i v → c'.FirstAt i v)
    (hh : heap.Extends heap') : s.Holds heap' c' := by
  obtain ⟨offset, instr, scope, pending⟩ := s
  obtain ⟨hop, hrest⟩ := h
  simp only [Spot.next] at hb hop hrest
  have hbyte : 1 < instr.size → ∀ {b : UInt8}, c.byteAt? (offset + 1) = some b →
      c'.byteAt? (offset + 1) = some b := by
    intro hs b hi
    rw [hb _ (by omega) (by omega), hi]
  have hword : 2 < instr.size → ∀ {w : Nat}, c.wordAt? (offset + 1) = some w →
      c'.wordAt? (offset + 1) = some w := by
    intro hs w hw
    unfold Chunk.wordAt? at hw ⊢
    rw [hb _ (by omega) (by omega), hb _ (by omega) (by omega)]
    exact hw
  refine ⟨?_, ?_⟩
  · simp only
    rw [hb _ (Nat.le_refl _) (by have := instr.size_pos; omega)]
    exact hop
  · cases instr with
    | plain op => exact hrest
    | constant literal wide =>
        cases wide with
        | false =>
            obtain ⟨i, v, hi, hv, hd⟩ := hrest
            exact ⟨i, v, hbyte (Nat.lt_succ_self _) hi, hc _ _ hv, hd.mono hh⟩
        | true =>
            obtain ⟨i, v, hi, hv, hd⟩ := hrest
            exact ⟨i, v, hword (Nat.lt_succ_self _) hi, hc _ _ hv, hd.mono hh⟩
    | getLocal name slot | setLocal name slot | call count =>
        obtain ⟨i, hi, hs⟩ := hrest
        exact ⟨i, hbyte (Nat.lt_succ_self _) hi, hs⟩
    | getGlobal name | setGlobal name | defineGlobal name =>
        obtain ⟨i, v, hi, hv, hd⟩ := hrest
        exact ⟨i, v, hbyte (Nat.lt_succ_self _) hi, hc' _ _ hv, hd.mono hh⟩
    | jump target | jumpIfFalse target | loop target =>
        obtain ⟨w, hw, ht⟩ := hrest
        exact ⟨w, hword (Nat.lt_succ_self _) hw, ht⟩

/-- The bytes of a spot that holds lie inside the chunk. -/
theorem Holds.next_le (h : s.Holds heap c) : s.next ≤ c.size := by
  obtain ⟨offset, instr, scope, pending⟩ := s
  obtain ⟨hop, hrest⟩ := h
  have hlt := Chunk.lt_size_of_byteAt? hop
  have hbyte : ∀ {b : UInt8}, c.byteAt? (offset + 1) = some b → offset + 2 ≤ c.size :=
    fun hb => Chunk.lt_size_of_byteAt? hb
  have hword : ∀ {w : Nat}, c.wordAt? (offset + 1) = some w → offset + 3 ≤ c.size := by
    intro w hw
    unfold Chunk.wordAt? at hw
    obtain ⟨low, hl, hw⟩ := Option.bind_eq_some_iff.mp hw
    obtain ⟨high, hh, hw⟩ := Option.bind_eq_some_iff.mp hw
    exact Chunk.lt_size_of_byteAt? hh
  unfold Spot.next
  cases instr with
  | plain op => exact hlt
  | constant literal wide =>
      cases wide with
      | false =>
          obtain ⟨i, v, hi, -⟩ := hrest
          exact hbyte hi
      | true =>
          obtain ⟨i, v, hi, -⟩ := hrest
          exact hword hi
  | getLocal name slot | setLocal name slot | call count =>
      obtain ⟨i, hi, -⟩ := hrest
      exact hbyte hi
  | getGlobal name | setGlobal name | defineGlobal name =>
      obtain ⟨i, v, hi, -⟩ := hrest
      exact hbyte hi
  | jump target | jumpIfFalse target | loop target =>
      obtain ⟨w, hw, -⟩ := hrest
      exact hword hw

/-- A spot goes on holding while chunk and heap grow. -/
theorem Holds.grow (h : s.Holds heap c) (hg : c.Grows c') (hh : heap.Extends heap') : s.Holds heap' c' :=
  h.of_bytes (fun i _ hi => hg.bytes i (Nat.lt_of_lt_of_le hi h.next_le)) hg.constants
    (fun _ _ hv => hv.grow hg) hh

/-- A spot goes on holding when an operand beside it is overwritten. -/
theorem Holds.setWord (h : s.Holds heap c) {offset operand : Nat} (ha : s.next ≤ offset ∨ offset + 2 ≤ s.offset) :
    s.Holds heap (c.setWord offset operand) :=
  h.of_bytes (fun i _ _ => Chunk.byteAt?_setWord _ _ _ _ (by omega) (by omega)) (fun _ _ hv => hv)
    (fun _ _ hv => ⟨hv.here, hv.first⟩) (.refl _)

end Spot

theorem NameHolds.mono {heap heap' : Heap} {handle : Option Handle} {name : Option String}
    (h : NameHolds heap handle name) (hh : heap.Extends heap') : NameHolds heap' handle name := by
  cases handle with
  | none =>
      cases name with
      | none => trivial
      | some name => exact h
  | some handle =>
      cases name with
      | none => exact h
      | some name =>
          obtain ⟨s, hs, hchars⟩ := h
          exact ⟨s, hh.string? hs, hchars⟩

theorem Coded.grow {heap heap' : Heap} {h : Handle} {r : Routine} {f : FunctionObject} {code : List Spot}
    (hc : Coded heap h r f code) (hh : heap.Extends heap') : Coded heap' h r f code where
  object := hh.function? hc.object
  arity := hc.arity
  name := hc.name.mono hh
  laid := hc.laid
  whole := hc.whole
  holds s hs := (hc.holds s hs).grow (.refl _) hh

theorem signedOf_of_le {n : Nat} (h : n ≤ maxJump) : signedOf n = n := by
  rw [signedOf, if_pos h]

theorem signedOf_back {n : Nat} (h : n ≤ maxJump) (h0 : 0 < n) : signedOf ((65536 - n) % 65536) = -(n : Int) := by
  unfold maxJump at h
  unfold signedOf maxJump
  rw [if_neg (by omega)]
  omega

end Lox
