import Lox.Proofs.Compile.Statements

/-! The constants of compiled functions. A function refers to numbers, to strings, and to functions that the same
compilation made before; so nothing that the host or an earlier source has put on the heap can be reached from a new
script, apart from strings. This holds whether the source is accepted or not. -/

namespace Lox

namespace Chunk

/-- The objects among the constants are strings, or newer than the first `n` objects. -/
def Pooled (c : Chunk) (heap : Heap) (n : Nat) : Prop :=
  ∀ i k, c.constant? i = some (.object k) → (∃ s, heap.string? k = some s) ∨ n ≤ k.index

variable {c c' : Chunk} {heap heap' : Heap} {n : Nat}

theorem pooled_empty : Pooled {} heap n := by
  intro i k h
  simp [constant?, Buffer.get?, Buffer.empty] at h

theorem Pooled.mono (h : c.Pooled heap n) (hh : heap.Extends heap') : c.Pooled heap' n := by
  intro i k hk
  rcases h i k hk with ⟨s, hs⟩ | hnew
  · exact .inl ⟨s, hh.string? hs⟩
  · exact .inr hnew

theorem Pooled.addConstant (h : c.Pooled heap n) {v : Value}
    (hv : ∀ k, v = .object k → (∃ s, heap.string? k = some s) ∨ n ≤ k.index) : (c.addConstant v).1.Pooled heap n := by
  intro i k hk
  simp only [constant?, Chunk.addConstant, Buffer.get?, Buffer.items_push, Array.getElem?_push] at hk
  split at hk
  · exact hv k (Option.some.inj hk)
  · exact h i k hk

/-- An edit of the code leaves the constants alone. -/
theorem Edit.constants {line : Nat} (h : c.Edit line c') : c'.constants = c.constants := by
  cases h <;> rfl

end Chunk

namespace CompileState

/-- All functions of a compilation, finished or not, have constants of their own. -/
structure Pooled (n : Nat) (s : CompileState) : Prop where
  interned : s.heap.Interned
  size_le : n ≤ s.heap.cells.size
  body : s.body.chunk.Pooled s.heap n
  enclosing : ∀ b ∈ s.enclosing, b.chunk.Pooled s.heap n
  made : ∀ k f, n ≤ k.index → s.heap.function? k = some f → f.chunk.Pooled s.heap n

theorem closeFunction_frame (s : CompileState) :
    (s.closeFunction.2.body.chunk = {} ∨ s.closeFunction.2.body ∈ s.enclosing) ∧
      ∀ b ∈ s.closeFunction.2.enclosing, b ∈ s.enclosing := by
  have hlist : ∀ (s : CompileState) c title, (s.listCode c title).body = s.body ∧
      (s.listCode c title).enclosing = s.enclosing := by
    intro s c title
    obtain ⟨journal, hj⟩ := listCode_eq c title s
    rw [hj]
    exact ⟨rfl, rfl⟩
  unfold closeFunction allocateFunction record
  cases s.enclosing with
  | nil =>
      simp only
      split <;> simp only [hlist] <;> exact ⟨.inl rfl, fun _ => id⟩
  | cons outer others =>
      simp only
      split <;> simp only [hlist] <;>
        exact ⟨.inr List.mem_cons_self, fun b hb => List.mem_cons_of_mem _ hb⟩

namespace Pooled

variable {n : Nat} {s t : CompileState}

/-- Nothing that matters changes. -/
theorem congr (h : s.Pooled n) (hheap : t.heap = s.heap) (hbody : t.body.chunk.constants = s.body.chunk.constants)
    (henc : t.enclosing = s.enclosing) : t.Pooled n := by
  refine ⟨hheap ▸ h.interned, hheap ▸ h.size_le, fun i k hk => ?_, henc ▸ hheap ▸ h.enclosing, hheap ▸ h.made⟩
  rw [Chunk.constant?, hbody] at hk
  rw [hheap]
  exact h.body i k hk

theorem withConstant (h : s.Pooled n) {v : Value}
    (hv : ∀ k, v = .object k → (∃ str, s.heap.string? k = some str) ∨ n ≤ k.index) : (s.withConstant v).Pooled n :=
  ⟨h.interned, h.size_le, h.body.addConstant hv, h.enclosing, h.made⟩

/-- Interning makes no function. -/
theorem intern (h : s.Pooled n) (chars : String) : (s.intern chars).2.Pooled n := by
  obtain ⟨hbody, -, -, -, henc, -⟩ := s.intern_frame chars
  obtain ⟨hheap, -⟩ := s.heap_intern chars
  have hgrows := s.heap.grows_intern chars
  refine ⟨?_, ?_, ?_, ?_, ?_⟩
  · rw [hheap]
    exact hgrows.interned h.interned
  · rw [hheap]
    exact Nat.le_trans h.size_le hgrows.size_le
  · rw [hheap, hbody]
    exact h.body.mono hgrows.keeps
  · rw [hheap, henc]
    exact fun b hb => (h.enclosing b hb).mono hgrows.keeps
  · rw [hheap]
    exact fun k f hk hf => (h.made k f hk (Heap.function?_of_intern hf)).mono hgrows.keeps

/-- The functions that there are when the innermost one has become an object. -/
theorem made_allocate (h : s.Pooled n) {heap : Heap} (hheap : heap = (s.heap.allocate (.function
      { arity := s.body.arity, chunk := s.body.chunk, name := s.body.name })).1) :
    ∀ k f, n ≤ k.index → heap.function? k = some f → f.chunk.Pooled heap n := by
  intro k f hk hf
  subst hheap
  have hkeeps := (s.heap.grows_allocate (o := .function
    { arity := s.body.arity, chunk := s.body.chunk, name := s.body.name }) fun _ => nofun).keeps
  rw [Heap.function?_eq_some_iff, Heap.get?_allocate] at hf
  split at hf
  · cases hf
    exact h.body.mono hkeeps
  · exact (h.made k f hk (Heap.function?_eq_some_iff.mpr hf)).mono hkeeps

theorem close (h : s.Pooled n) : s.closeFunction.2.Pooled n := by
  have hheap := s.heap_closeFunction
  have hgrows := s.heap.grows_allocate (o := .function
    { arity := s.body.arity, chunk := s.body.chunk, name := s.body.name }) fun _ => nofun
  rw [← hheap] at hgrows
  obtain ⟨hbody, henc⟩ := s.closeFunction_frame
  refine ⟨hgrows.interned h.interned, Nat.le_trans h.size_le hgrows.size_le, ?_, ?_, h.made_allocate hheap⟩
  · rcases hbody with hempty | hmem
    · rw [hempty]
      exact Chunk.pooled_empty
    · exact (h.enclosing _ hmem).mono hgrows.keeps
  · exact fun b hb => (h.enclosing b (henc b hb)).mono hgrows.keeps

theorem move (h : s.Pooled n) (m : s.Move t) : t.Pooled n := by
  cases m with
  | advance =>
      obtain ⟨hbody, henc, hheap, -⟩ := s.advance_frame
      exact h.congr hheap (by rw [hbody]) henc
  | complain token complaint =>
      obtain ⟨hbody, henc, -⟩ := s.complainAt_frame token complaint
      refine h.congr ?_ (by rw [hbody]) henc
      unfold complainAt
      split <;> rfl
  | calm | scope | parameter => exact h.congr rfl rfl rfl
  | code c he => exact h.congr rfl he.constants rfl
  | number x => exact h.withConstant nofun
  | text chars => exact h.intern chars
  | literal chars =>
      obtain ⟨hheap, hhandle⟩ := s.heap_intern chars
      refine (h.intern chars).withConstant fun k hk => .inl ?_
      cases hk
      rw [hheap, hhandle]
      exact ⟨_, (h.interned.intern chars).2.2⟩
  | opened name =>
      refine ⟨h.interned, h.size_le, Chunk.pooled_empty, fun b hb => ?_, h.made⟩
      rcases List.mem_cons.mp hb with rfl | hb
      · exact h.body
      · exact h.enclosing b hb
  | closed =>
      refine h.close.withConstant fun k hk => .inr ?_
      obtain ⟨body, enclosing, journal, heq, -⟩ := s.closeFunction_eq
      rw [heq] at hk
      cases hk
      exact h.size_le

theorem moves (h : s.Pooled n) (hm : Moves s t) : t.Pooled n := hm.keeps (fun m hs => hs.move m) h

end Pooled

end CompileState

/-- **Constants.** The functions that a compilation makes have no objects among their constants but strings and
functions that it made. -/
theorem compile_pooled {source : String} {heap : Heap} {printCode : Bool} {journal : Journal} {c : Compilation}
    (h : compile source heap printCode journal = .ok c) (hi : heap.Interned) :
    ∀ k f, heap.cells.size ≤ k.index → c.heap.function? k = some f → f.chunk.Pooled c.heap heap.cells.size := by
  obtain ⟨s, hrun, rfl⟩ := compile_eq_ok h
  have hstart : CompileState.Pooled heap.cells.size { rest := tokenize source, heap, printCode, journal } := by
    refine ⟨hi, Nat.le_refl _, Chunk.pooled_empty, nofun, fun k f hk hf => ?_⟩
    exact absurd (Heap.lt_size_of_get? (Heap.function?_eq_some_iff.mp hf)) (Nat.not_lt.mpr hk)
  have hs := hstart.moves (Compiler.byMoves_read _ _ _ _ hrun)
  unfold CompileState.finish
  split
  · refine hs.made_allocate ?_
    simp only [CompileState.allocateFunction, CompileState.heap_listCode]
  · exact hs.made

end Lox
