import Mathlib.Order.Bounds.Basic
import Lox.Proofs.Compile.Pools

/-! The room that chunks reserve. A buffer that only ever grew by single items reserves nothing while it is empty, and
after that the least power of two, from eight on, that holds its items. The writers of a chunk grow its buffers in no
other way, and a compilation fills its chunks by the writers alone, so the room of a compiled function is a matter of
how much it holds. -/

namespace Lox

namespace Buffer

variable {α : Type}

/-- The reserved room is what growing item by item reserves for so many items. -/
def Snug (b : Buffer α) : Prop :=
  (b.size = 0 → b.capacity = 0) ∧
    (b.size ≠ 0 → IsLeast {room | (∃ k, room = minCapacity * 2 ^ k) ∧ b.size ≤ room} b.capacity)

theorem snug_empty : (empty : Buffer α).Snug := ⟨fun _ => rfl, fun h => absurd rfl h⟩

theorem Snug.set {b : Buffer α} (h : b.Snug) (i : Nat) (a : α) : (b.set i a).Snug := by
  unfold Snug
  rw [size_set]
  exact h

theorem Snug.push {b : Buffer α} (h : b.Snug) (a : α) : (b.push a).Snug := by
  refine ⟨fun h0 => absurd (b.size_push a) (by omega), fun _ => ?_⟩
  rw [size_push]
  obtain ⟨hempty, hleast⟩ := h
  have hsize : b.items.size = b.size := rfl
  by_cases h0 : b.size = 0
  · have hcapacity : (b.push a).capacity = minCapacity := by
      simp [Buffer.push, hsize, h0, hempty h0, nextCapacity, minCapacity]
    rw [hcapacity, h0]
    refine ⟨⟨⟨0, rfl⟩, by decide⟩, ?_⟩
    rintro room ⟨⟨k, rfl⟩, -⟩
    exact Nat.le_mul_of_pos_right _ (Nat.two_pow_pos k)
  · obtain ⟨⟨⟨k, hk⟩, hfits⟩, hlower⟩ := hleast h0
    by_cases hfull : b.size = b.capacity
    · -- a full buffer doubles, and no lesser power holds one item more
      have hmin : ¬ b.capacity < minCapacity := by
        rw [hk, Nat.not_lt]
        exact Nat.le_mul_of_pos_right _ (Nat.two_pow_pos k)
      have hcapacity : (b.push a).capacity = minCapacity * 2 ^ (k + 1) := by
        rw [Nat.pow_succ, ← Nat.mul_assoc, ← hk]
        simp only [Buffer.push, hsize, hfull, if_true, nextCapacity, if_neg hmin, Nat.mul_comm]
      rw [hcapacity]
      refine ⟨⟨⟨k + 1, rfl⟩, ?_⟩, ?_⟩
      · rw [Nat.pow_succ, ← Nat.mul_assoc, ← hk]
        omega
      · rintro room ⟨⟨j, rfl⟩, hroom⟩
        have hlt : minCapacity * 2 ^ k < minCapacity * 2 ^ j := by omega
        have hkj : k < j := (Nat.pow_lt_pow_iff_right (by decide)).mp (Nat.lt_of_mul_lt_mul_left hlt)
        exact Nat.mul_le_mul_left _ (Nat.pow_le_pow_right (by decide) hkj)
    · have hcapacity : (b.push a).capacity = b.capacity := by simp only [Buffer.push, hsize, if_neg hfull]
      rw [hcapacity]
      refine ⟨⟨⟨k, hk⟩, by omega⟩, ?_⟩
      rintro room ⟨hpower, hroom⟩
      exact hlower ⟨hpower, by omega⟩

end Buffer

namespace Chunk

/-- The chunks that are filled by the writers: a byte or a constant is appended, or an operand is overwritten. -/
inductive Filled : Chunk → Prop where
  | empty : Filled .empty
  | write {c : Chunk} (h : Filled c) (byte : UInt8) (line : Nat) : Filled (c.write byte line)
  | constant {c : Chunk} (h : Filled c) (value : Value) : Filled (c.addConstant value).1
  | patch {c : Chunk} (h : Filled c) (offset operand : Nat) : Filled (c.setWord offset operand)

namespace Filled

variable {c c' : Chunk}

theorem snug (h : c.Filled) : c.code.Snug ∧ c.lines.Snug ∧ c.constants.Snug := by
  induction h with
  | empty => exact ⟨Buffer.snug_empty, Buffer.snug_empty, Buffer.snug_empty⟩
  | write _ byte line ih => exact ⟨ih.1.push byte, ih.2.1.push line, ih.2.2⟩
  | constant _ value ih => exact ⟨ih.1, ih.2.1, ih.2.2.push value⟩
  | patch _ offset operand ih => exact ⟨(ih.1.set _ _).set _ _, ih.2⟩

theorem edit {line : Nat} (h : c.Filled) (he : c.Edit line c') : c'.Filled := by
  cases he with
  | op op => exact h.write _ _
  | opByte op operand => exact (h.write _ _).write _ _
  | opWord op operand => exact ((h.write _ _).write _ _).write _ _
  | patch offset operand => exact h.patch offset operand

end Filled

end Chunk

namespace CompileState

/-- The code of all functions of a compilation, finished or not, is filled by the writers. -/
structure Fills (old : Heap) (s : CompileState) : Prop where
  body : s.body.chunk.Filled
  enclosing : ∀ b ∈ s.enclosing, b.chunk.Filled
  made : ∀ k f, s.heap.function? k = some f → old.function? k = some f ∨ f.chunk.Filled

namespace Fills

variable {old : Heap} {s t : CompileState}

theorem congr (h : s.Fills old) (hheap : t.heap = s.heap) (hbody : t.body.chunk = s.body.chunk)
    (henclosing : t.enclosing = s.enclosing) : t.Fills old :=
  ⟨hbody ▸ h.body, henclosing ▸ h.enclosing, hheap ▸ h.made⟩

theorem withConstant (h : s.Fills old) (v : Value) : (s.withConstant v).Fills old :=
  ⟨h.body.constant v, h.enclosing, h.made⟩

theorem intern (h : s.Fills old) (chars : String) : (s.intern chars).2.Fills old := by
  obtain ⟨hbody, -, -, -, henclosing, -⟩ := s.intern_frame chars
  obtain ⟨hheap, -⟩ := s.heap_intern chars
  refine ⟨hbody ▸ h.body, henclosing ▸ h.enclosing, fun k f hf => ?_⟩
  rw [hheap] at hf
  exact h.made k f (Heap.function?_of_intern hf)

/-- The innermost function becomes an object as it is. -/
theorem made_allocate (h : s.Fills old) (k : Handle) (f : FunctionObject) (hf : (s.heap.allocate (.function
      { arity := s.body.arity, chunk := s.body.chunk, name := s.body.name })).1.function? k = some f) :
    old.function? k = some f ∨ f.chunk.Filled := by
  rw [Heap.function?_eq_some_iff, Heap.get?_allocate] at hf
  split at hf
  · cases hf
    exact .inr h.body
  · exact h.made k f (Heap.function?_eq_some_iff.mpr hf)

theorem close (h : s.Fills old) : s.closeFunction.2.Fills old := by
  obtain ⟨hbody, henclosing⟩ := s.closeFunction_frame
  refine ⟨?_, fun b hb => h.enclosing b (henclosing b hb), fun k f hf => ?_⟩
  · rcases hbody with hempty | hmem
    · rw [hempty]
      exact .empty
    · exact h.enclosing _ hmem
  · rw [s.heap_closeFunction] at hf
    exact h.made_allocate k f hf

theorem move (h : s.Fills old) (m : s.Move t) : t.Fills old := by
  cases m with
  | advance =>
      obtain ⟨hbody, henclosing, hheap, -⟩ := s.advance_frame
      exact h.congr hheap (by rw [hbody]) henclosing
  | complain token complaint =>
      obtain ⟨hbody, henclosing, -⟩ := s.complainAt_frame token complaint
      refine h.congr ?_ (by rw [hbody]) henclosing
      unfold complainAt
      split <;> rfl
  | calm | scope | parameter => exact h.congr rfl rfl rfl
  | code c he => exact ⟨h.body.edit he, h.enclosing, h.made⟩
  | number x => exact h.withConstant _
  | text chars => exact h.intern chars
  | literal chars => exact (h.intern chars).withConstant _
  | opened name => exact ⟨.empty, List.forall_mem_cons.mpr ⟨h.body, h.enclosing⟩, h.made⟩
  | closed => exact h.close.withConstant _

end Fills

end CompileState

/-- A compilation makes no function but by the writers, whether the source is accepted or not. -/
theorem compile_filled {source : String} {heap : Heap} {printCode : Bool} {journal : Journal} {c : Compilation}
    (hc : compile source heap printCode journal = .ok c) (k : Handle) (f : FunctionObject)
    (hf : c.heap.function? k = some f) : heap.function? k = some f ∨ f.chunk.Filled := by
  obtain ⟨s, hrun, rfl⟩ := compile_eq_ok hc
  have hstart : CompileState.Fills heap { rest := tokenize source, heap, printCode, journal } :=
    ⟨.empty, nofun, fun _ _ => .inl⟩
  have hs := (Compiler.byMoves_read _ _ _ _ hrun).keeps (P := CompileState.Fills heap) (fun m h => h.move m) hstart
  unfold CompileState.finish at hf
  split at hf
  · simp only [CompileState.allocateFunction, CompileState.heap_listCode] at hf
    exact hs.made_allocate k f hf
  · exact hs.made k f hf

end Lox
