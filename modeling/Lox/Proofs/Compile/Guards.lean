import Lox.Proofs.Compile.Statements

/-! The moves of the compiler with their guards. A guard says what must hold for a move to make sense at all: an
operand fits its bytes, a jump that gets its target was written into the same code and has none yet, a scope that is
left was entered, a counter has room, and behind a function that is complete another one waits. The jumps that still
wait for their targets are listed function by function, so that no guard can be met by the code of another function. -/

namespace Lox

/-- The operands of the jumps that have no target yet: those of the innermost function, the latest first, and those
of the functions around it. -/
structure Pending where
  inner : List Nat := []
  outer : List (List Nat) := []

namespace Pending

/-- A jump is written. -/
def push (operand : Nat) (p : Pending) : Pending := { p with inner := operand :: p.inner }

/-- A jump is written, or none is needed. -/
def await (operand : Option Nat) (p : Pending) : Pending := operand.elim p (push · p)

/-- A jump gets its target, or is given up. -/
def drop (operand : Nat) (p : Pending) : Pending := { p with inner := p.inner.erase operand }

variable {p : Pending} {o o' : Nat}

@[simp] theorem drop_push : (p.push o).drop o = p := by simp [push, drop]

theorem drop_push_push (h : o < o') : ((p.push o).push o').drop o = p.push o' := by
  have hne : (o' == o) = false := beq_false_of_ne (Nat.ne_of_gt h)
  simp [push, drop, hne]

end Pending

/-- The counters of a function fit one byte. -/
structure Body.Bounded (b : Body) : Prop where
  arity : b.arity ≤ 255
  locals : b.scope.locals.length ≤ 256

namespace CompileState

/-- A move whose guard is met, and what it does to the jumps without target. -/
inductive Guarded (s : CompileState) (p : Pending) : CompileState → Pending → Prop where
  | advance : Guarded s p s.advance p
  | complain (token : Token) (c : Complaint) (h : c ≠ .invalidNumber) : Guarded s p (s.complainAt token c) p
  | calm : Guarded s p { s with panicking := false } p
  | op (op : Opcode) : Guarded s p (s.mapChunk (·.writeOp op s.previous.line)) p
  | opByte (op : Opcode) {operand : Nat} (h : operand < 256) :
      Guarded s p (s.mapChunk (·.writeOpByte op operand.toUInt8 s.previous.line)) p
  | opWord (op : Opcode) {operand : Nat} (h : operand < 65536) :
      Guarded s p (s.mapChunk (·.writeOpWord op operand s.previous.line)) p
  | jump (op : Opcode) : Guarded s p (s.mapChunk fun c => (c.writeJump op s.previous.line).1)
      (p.push (s.body.chunk.size + 1))
  | patch {operand : Nat} (h : operand ∈ p.inner) (hend : operand + 2 ≤ s.body.chunk.size)
      (hfit : s.body.chunk.size - (operand + 2) ≤ maxJump) :
      Guarded s p (s.mapChunk (·.setWord operand (s.body.chunk.size - (operand + 2)))) (p.drop operand)
  | giveUp {operand : Nat} (h : operand ∈ p.inner) (hend : operand + 2 ≤ s.body.chunk.size)
      (hfar : maxJump < s.body.chunk.size - (operand + 2)) :
      Guarded s p (s.complain (.badJump .jumpTooLarge)) (p.drop operand)
  | back {start : Nat} (h : start ≤ s.body.chunk.size) (hfit : s.body.chunk.size + 3 - start ≤ maxJump) :
      Guarded s p (s.mapChunk (·.writeBack (s.body.chunk.size + 3 - start) s.previous.line)) p
  | enter : Guarded s p (s.mapScope Scope.enter) p
  | leave {scope : Scope} {count : Nat} (h : s.body.scope.leave? = some (scope, count)) :
      Guarded s p (s.mapScope fun _ => scope) p
  | mark : Guarded s p (s.mapScope Scope.markInitialized) p
  | declare {scope : Scope} (h : s.body.scope.declare s.previous.lexeme = .ok scope) :
      Guarded s p (s.mapScope fun _ => scope) p
  | parameter (h : s.body.arity < 255) :
      Guarded s p { s with body := { s.body with arity := s.body.arity + 1 } } p
  | constant (value : Value) : Guarded s p (s.withConstant value) p
  | text (chars : String) : Guarded s p (s.intern chars).2 p
  | opened (name : Handle) : Guarded s p (s.openFunction name) ⟨[], p.inner :: p.outer⟩
  | closed {body : Body} {others : List Body} {jumps : List Nat} {rest : List (List Nat)}
      (hs : s.enclosing = body :: others) (hp : p = ⟨[], jumps :: rest⟩) :
      Guarded s p s.closeFunction.2 ⟨jumps, rest⟩

/-- Any number of moves whose guards are met. -/
inductive GuardedMoves : CompileState → Pending → CompileState → Pending → Prop where
  | refl (s : CompileState) (p : Pending) : GuardedMoves s p s p
  | step {s t u : CompileState} {p q r : Pending} (h : GuardedMoves s p t q) (m : t.Guarded q u r) :
      GuardedMoves s p u r

/-- The jumps without target of a function are different jumps, each with the placeholder for its operand. -/
structure Awaits (c : Chunk) (jumps : List Nat) : Prop where
  held : ∀ o ∈ jumps, o + 2 ≤ c.size ∧ c.wordAt? o = some Chunk.placeholder
  apart : jumps.Pairwise fun later earlier => earlier + 3 ≤ later

/-- The counters of all functions have room, and the jumps without target stand in the code of their functions. -/
structure Guard (s : CompileState) (p : Pending) : Prop where
  bounded : ∀ b ∈ s.body :: s.enclosing, b.Bounded
  inner : Awaits s.body.chunk p.inner
  outer : List.Forall₂ (fun b jumps => Awaits b.chunk jumps) s.enclosing p.outer

namespace Awaits

variable {c c' : Chunk} {jumps : List Nat}

theorem nil (c : Chunk) : Awaits c [] := ⟨fun _ h => absurd h List.not_mem_nil, .nil⟩

theorem wordAt?_congr {i : Nat} (h : c'.byteAt? i = c.byteAt? i) (h' : c'.byteAt? (i + 1) = c.byteAt? (i + 1)) :
    c'.wordAt? i = c.wordAt? i := by
  unfold Chunk.wordAt?
  rw [h, h']

/-- Code that is added changes no operand. -/
theorem grow (h : Awaits c jumps) (hg : c.Grows c') : Awaits c' jumps := by
  refine ⟨fun o ho => ?_, h.apart⟩
  obtain ⟨hend, hword⟩ := h.held o ho
  refine ⟨Nat.le_trans hend hg.size_le, ?_⟩
  rw [wordAt?_congr (hg.bytes o (by omega)) (hg.bytes (o + 1) (by omega)), hword]

theorem push (h : Awaits c jumps) (op : Opcode) (line : Nat) :
    Awaits (c.writeJump op line).1 ((c.size + 1) :: jumps) := by
  have hg : c.Grows (c.writeJump op line).1 := Chunk.grows_writeOpWord ..
  have hword : (c.writeJump op line).1.wordAt? (c.size + 1) = some Chunk.placeholder :=
    Chunk.operand_writeOpWord c op (by decide) line
  refine ⟨fun o ho => ?_, .cons (fun o ho => ?_) h.apart⟩
  · rcases List.mem_cons.mp ho with rfl | ho
    · exact ⟨by simp [Chunk.writeJump], hword⟩
    · exact (h.grow hg).held o ho
  · have := (h.held o ho).1
    omega

/-- A jump that gets its target leaves the others alone. -/
theorem patch (h : Awaits c jumps) {o operand : Nat} (ho : o ∈ jumps) :
    Awaits (c.setWord o operand) (jumps.erase o) := by
  have hnodup : jumps.Nodup := h.apart.imp fun hle heq => by omega
  refine ⟨fun o' ho' => ?_, h.apart.sublist List.erase_sublist⟩
  obtain ⟨hne, hmem⟩ := hnodup.mem_erase_iff.mp ho'
  obtain ⟨hend, hword⟩ := h.held o' hmem
  have hgap : o' + 3 ≤ o ∨ o + 3 ≤ o' := by
    have hsymm : Std.Symm fun a b : Nat => a = b ∨ a + 3 ≤ b ∨ b + 3 ≤ a := ⟨fun _ _ h => by omega⟩
    have hall : jumps.Pairwise fun a b => a = b ∨ a + 3 ≤ b ∨ b + 3 ≤ a := h.apart.imp fun hle => .inr (.inr hle)
    have := hall.forall_of_forall (fun _ _ => .inl rfl) hmem ho
    omega
  refine ⟨by rw [Chunk.size_setWord]; exact hend, ?_⟩
  rw [wordAt?_congr (Chunk.byteAt?_setWord _ _ _ _ (by omega) (by omega))
    (Chunk.byteAt?_setWord _ _ _ _ (by omega) (by omega)), hword]

theorem erase (h : Awaits c jumps) (o : Nat) : Awaits c (jumps.erase o) :=
  ⟨fun _ ho => h.held _ (List.mem_of_mem_erase ho), h.apart.sublist List.erase_sublist⟩

end Awaits

namespace Guard

variable {s t : CompileState} {p : Pending}

/-- What is outside of the functions does not matter. -/
theorem congr (h : s.Guard p) (hb : t.body = s.body) (he : t.enclosing = s.enclosing) : t.Guard p :=
  ⟨by rw [hb, he]; exact h.bounded, by rw [hb]; exact h.inner, by rw [he]; exact h.outer⟩

/-- The innermost function changes. -/
theorem inside (h : s.Guard p) {b : Body} {jumps : List Nat} (hb : b.Bounded) (hw : Awaits b.chunk jumps) :
    { s with body := b }.Guard { p with inner := jumps } :=
  ⟨List.forall_mem_cons.mpr ⟨hb, (List.forall_mem_cons.mp h.bounded).2⟩, hw, h.outer⟩

/-- The code of the innermost function changes. -/
theorem code (h : s.Guard p) {c : Chunk} {jumps : List Nat} (hw : Awaits c jumps) :
    (s.mapChunk fun _ => c).Guard { p with inner := jumps } :=
  have hb := (List.forall_mem_cons.mp h.bounded).1
  h.inside ⟨hb.arity, hb.locals⟩ hw

/-- The scope of the innermost function changes. -/
theorem scope (h : s.Guard p) {scope : Scope} (hl : scope.locals.length ≤ 256) :
    (s.mapScope fun _ => scope).Guard p :=
  h.inside ⟨(List.forall_mem_cons.mp h.bounded).1.arity, hl⟩ h.inner

end Guard

theorem length_leave? {scope inner : Scope} {count : Nat} (h : inner.leave? = some (scope, count)) :
    scope.locals.length ≤ inner.locals.length := by
  unfold Scope.leave? at h
  split at h
  · cases h
  · cases h
    exact (List.dropWhile_suffix _).length_le

theorem length_markInitialized (scope : Scope) : scope.markInitialized.locals.length = scope.locals.length := by
  unfold Scope.markInitialized
  split <;> simp [*]

theorem length_declare {scope inner : Scope} {name : String} (h : inner.declare name = .ok scope) :
    scope.locals.length ≤ 256 := by
  unfold Scope.declare at h
  split at h
  · cases h
  · next hroom =>
      split at h
      · cases h
      · cases h
        simp only [maxLocals] at hroom
        simp only [List.length_cons]
        omega

/-- A move whose guard is met leaves all guards in order. -/
theorem Guarded.guard {s t : CompileState} {p q : Pending} (m : s.Guarded p t q) (h : s.Guard p) : t.Guard q := by
  have hbody := (List.forall_mem_cons.mp h.bounded).1
  cases m with
  | advance =>
      obtain ⟨hb, he, -⟩ := s.advance_frame
      exact h.congr hb he
  | complain token c =>
      obtain ⟨hb, he, -⟩ := complainAt_frame token c s
      exact h.congr hb he
  | calm => exact h.congr rfl rfl
  | op => exact h.code (h.inner.grow (Chunk.grows_writeOp ..))
  | opByte => exact h.code (h.inner.grow (Chunk.grows_writeOpByte ..))
  | opWord => exact h.code (h.inner.grow (Chunk.grows_writeOpWord ..))
  | jump op => exact h.code (h.inner.push op _)
  | patch ho => exact h.code (h.inner.patch ho)
  | giveUp =>
      obtain ⟨hb, he, -⟩ := complainAt_frame s.previous (.badJump .jumpTooLarge) s
      exact (h.code (h.inner.erase _)).congr hb he
  | back => exact h.code (h.inner.grow (Chunk.grows_writeOpWord ..))
  | enter => exact h.scope hbody.locals
  | leave hl => exact h.scope (Nat.le_trans (length_leave? hl) hbody.locals)
  | mark => exact h.scope (by rw [length_markInitialized]; exact hbody.locals)
  | declare hd => exact h.scope (length_declare hd)
  | parameter ha => exact h.inside ⟨ha, hbody.locals⟩ h.inner
  | constant v => exact h.code (h.inner.grow (Chunk.grows_addConstant _ v))
  | text chars =>
      obtain ⟨hb, -, -, -, he, -⟩ := s.intern_frame chars
      exact h.congr hb he
  | opened name =>
      refine ⟨List.forall_mem_cons.mpr ⟨⟨Nat.zero_le _, (show 1 ≤ 256 by decide)⟩, h.bounded⟩, .nil _,
        .cons h.inner h.outer⟩
  | closed hs hp =>
      obtain ⟨body, enclosing, journal, heq, houter⟩ := s.closeFunction_eq
      obtain ⟨rfl, rfl⟩ := houter _ _ hs
      have hbounded := (List.forall_mem_cons.mp h.bounded).2
      have hwaits := h.outer
      rw [hs] at hbounded hwaits
      rw [hp] at hwaits
      cases hwaits with
      | cons hinner houter =>
          rw [heq]
          exact ⟨hbounded, hinner, houter⟩

theorem GuardedMoves.guard {s t : CompileState} {p q : Pending} (h : GuardedMoves s p t q) (hs : s.Guard p) :
    t.Guard q := by
  induction h with
  | refl => exact hs
  | step _ m ih => exact m.guard (ih hs)

end CompileState

end Lox
