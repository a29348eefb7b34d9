import Lox.Proofs.Compile.Clean
import Lox.Proofs.Compile.Written
import Lox.Proofs.Machine.Instructions

/-! Jumps at their limits. A forward jump counts its distance from the end of its operand and a loop from the end of
itself; either is written as two bytes in two's complement, if it fits, and is read back by a machine whose pointer is
already past the operand. Writing more, or patching other jumps, leads a jump nowhere else. -/

namespace Lox

/-! ### Writes beside a jump -/

namespace Chunk

/-- A write to a chunk that overwrites none of the bytes from `lo` up to `hi`: only patching overwrites anything. -/
inductive Writes (lo hi : Nat) : Chunk → Chunk → Prop where
  | byte (c : Chunk) (byte : UInt8) (line : Nat) : Writes lo hi c (c.write byte line)
  | constant (c : Chunk) (value : Value) : Writes lo hi c (c.addConstant value).1
  | jump (c : Chunk) (op : Opcode) (line : Nat) : Writes lo hi c (c.writeJump op line).1
  | loop {c c' : Chunk} {start line : Nat} (h : c.writeLoop start line = .ok c') : Writes lo hi c c'
  | patch {c c' : Chunk} {operand : Nat} (h : c.patchJump operand = .ok c')
      (hbeside : operand + 2 ≤ lo ∨ hi ≤ operand) : Writes lo hi c c'

/-- Any number of such writes. -/
def Written (lo hi : Nat) : Chunk → Chunk → Prop := Relation.ReflTransGen (Writes lo hi)

variable {c c' : Chunk} {lo hi : Nat}

theorem patchJump_eq {operand : Nat} (hroom : operand + 2 ≤ c.size) : c.patchJump operand =
    if c.size - (operand + 2) ≤ maxJump then .ok (c.setWord operand (c.size - (operand + 2))) else
      .error .jumpTooLarge := by
  unfold patchJump forwardDistance
  rw [if_neg (Nat.not_lt.mpr hroom)]
  by_cases h : maxJump < c.size - (operand + 2)
  · rw [if_neg (Nat.not_le.mpr h)]
    simp only [if_pos h]
    rfl
  · rw [if_pos (Nat.not_lt.mp h)]
    simp only [if_neg h]
    rfl

theorem writeLoop_eq {start : Nat} (hstart : start ≤ c.size) (line : Nat) : c.writeLoop start line =
    if c.size + 3 - start ≤ maxJump then .ok (c.writeBack (c.size + 3 - start) line) else .error .loopTooLarge := by
  unfold writeLoop backwardDistance
  rw [if_neg (by omega)]
  by_cases h : maxJump < c.size + 3 - start
  · rw [if_neg (Nat.not_le.mpr h)]
    simp only [if_pos h]
    rfl
  · rw [if_pos (Nat.not_lt.mp h)]
    simp only [if_neg h]
    rfl

theorem exists_setWord_of_patchJump {operand : Nat} (h : c.patchJump operand = .ok c') :
    ∃ distance, c' = c.setWord operand distance := by
  unfold patchJump at h
  cases hd : c.forwardDistance operand with
  | error e =>
      rw [hd] at h
      cases h
  | ok distance =>
      rw [hd] at h
      cases h
      exact ⟨distance, rfl⟩

theorem exists_writeBack_of_writeLoop {start line : Nat} (h : c.writeLoop start line = .ok c') :
    ∃ distance, c' = c.writeBack distance line := by
  unfold writeLoop at h
  cases hd : c.backwardDistance start with
  | error e =>
      rw [hd] at h
      cases h
  | ok distance =>
      rw [hd] at h
      cases h
      exact ⟨distance, rfl⟩

theorem Writes.keeps (h : Writes lo hi c c') (hhi : hi ≤ c.size) :
    c.size ≤ c'.size ∧ ∀ i, lo ≤ i → i < hi → c'.byteAt? i = c.byteAt? i := by
  have hgrows : c.Grows c' → c.size ≤ c'.size ∧ ∀ i, lo ≤ i → i < hi → c'.byteAt? i = c.byteAt? i :=
    fun hg => ⟨hg.size_le, fun i _ hi => hg.bytes i (Nat.lt_of_lt_of_le hi hhi)⟩
  cases h with
  | byte byte line => exact hgrows (grows_write ..)
  | constant value => exact hgrows (grows_addConstant ..)
  | jump op line => exact hgrows (grows_writeOpWord ..)
  | loop h =>
      obtain ⟨distance, rfl⟩ := exists_writeBack_of_writeLoop h
      exact hgrows (grows_writeOpWord ..)
  | patch h hbeside =>
      obtain ⟨distance, rfl⟩ := exists_setWord_of_patchJump h
      exact ⟨Nat.le_of_eq (size_setWord ..).symm, fun i hlo hhi => byteAt?_setWord _ _ _ _ (by omega) (by omega)⟩

theorem Written.keeps (h : Written lo hi c c') (hhi : hi ≤ c.size) :
    c.size ≤ c'.size ∧ ∀ i, lo ≤ i → i < hi → c'.byteAt? i = c.byteAt? i := by
  induction h with
  | refl => exact ⟨Nat.le_refl _, fun _ _ _ => rfl⟩
  | tail _ hlast ih =>
      obtain ⟨hsize, hbytes⟩ := ih
      obtain ⟨hsize', hbytes'⟩ := hlast.keeps (Nat.le_trans hhi hsize)
      exact ⟨Nat.le_trans hsize hsize', fun i hlo hi => (hbytes' i hlo hi).trans (hbytes i hlo hi)⟩

end Chunk

/-! ### Where a jump lands -/

/-- The instruction that a jump opcode makes of a target. -/
inductive Opcode.Jumps : Opcode → (Nat → Instr) → Prop where
  | jump : Jumps .jump .jump
  | jumpIfFalse : Jumps .jumpIfFalse .jumpIfFalse
  | loop : Jumps .loop .loop

/-- The next step of the machine is a jump in its innermost call: the call goes on at the target. If the jump is
conditional that is so where the latest value counts as false, and where it counts as true the call goes on behind the
jump. Nothing else changes. -/
structure Machine.Lands (m : Machine) (op : Opcode) (frame : Frame) (outer : List Frame) (target : Nat) : Prop where
  taken : op ≠ .jumpIfFalse ∨ (∃ v, m.stack.back? = some v ∧ v.isFalsey = true) →
    Execution.step.run m = .ok .next { m with frames := { frame with ip := target } :: outer }
  passed : op = .jumpIfFalse → ∀ v, m.stack.back? = some v → v.isFalsey = false →
    Execution.step.run m = .ok .next { m with frames := { frame with ip := frame.ip + 3 } :: outer }

namespace Chunk

/-- Any machine that executes the code with its pointer at `a` jumps to the target. -/
def LandsOn (c : Chunk) (op : Opcode) (a target : Nat) : Prop :=
  ∀ (m : Machine) (frame : Frame) (outer : List Frame) (f : FunctionObject), m.frames = frame :: outer →
    m.heap.function? frame.function = some f → f.chunk = c → frame.ip = a → m.Lands op frame outer target

variable {c c' : Chunk} {op : Opcode} {make : Nat → Instr} {a target : Nat}

/-- Two bytes after a jump's opcode that encode the way from behind them to the target make the jump land there. -/
theorem landsOn_of_holds (hmake : op.Jumps make) {heap : Heap}
    (h : (⟨a, make target, [], 0⟩ : Spot).Holds heap c) : c.LandsOn op a target := by
  intro m ⟨handle, ip, base⟩ outer f hframes hf hc hip
  obtain rfl : ip = a := hip
  subst hc
  have hself : m.config (⟨handle, ip, base⟩ :: outer) m.stack.toList.reverse = m := by
    rw [← hframes]
    exact m.config_self
  have hlatest : ∀ v, m.stack.back? = some v → ∃ vs, m.stack.toList.reverse = v :: vs := by
    intro v hv
    rw [← Array.getLast?_toList, ← List.head?_reverse] at hv
    exact List.head?_eq_some_iff.mp hv
  -- the configuration after a step differs from the machine only in the innermost pointer
  have hmoved : ∀ ip', m.config (⟨handle, ip', base⟩ :: outer) m.stack.toList.reverse =
      { m with frames := ⟨handle, ip', base⟩ :: outer } := by simp [Machine.config]
  have hconditional : op = .jumpIfFalse → ∀ v, m.stack.back? = some v → Execution.step.run m =
      .ok .next { m with frames := ⟨handle, if v.isFalsey then target else ip + 3, base⟩ :: outer } := by
    rintro rfl v hv
    obtain ⟨vs, hvs⟩ := hlatest v hv
    cases hmake
    have hstep : Execution.step.run (m.config (⟨handle, ip, base⟩ :: outer) (v :: vs)) = .ok .next
        (m.config (⟨handle, if v.isFalsey then target else ip + 3, base⟩ :: outer) (v :: vs)) :=
      Execution.step_jumpIfFalse ⟨f, hf, h⟩
    rw [← hvs, hself, hmoved] at hstep
    exact hstep
  refine ⟨fun htaken => ?_, fun hop v hv htruthy => ?_⟩
  · by_cases hop : op = .jumpIfFalse
    · obtain ⟨v, hv, hfalsey⟩ := htaken.resolve_left (not_not.mpr hop)
      rw [hconditional hop v hv, if_pos hfalsey]
    · have hhas : m.Has handle ⟨ip, .jump target, [], 0⟩ ∨ m.Has handle ⟨ip, .loop target, [], 0⟩ := by
        cases hmake with
        | jump => exact .inl ⟨f, hf, h⟩
        | loop => exact .inr ⟨f, hf, h⟩
        | jumpIfFalse => exact absurd rfl hop
      have hstep : Execution.step.run (m.config (⟨handle, ip, base⟩ :: outer) m.stack.toList.reverse) = .ok .next
          (m.config (⟨handle, target, base⟩ :: outer) m.stack.toList.reverse) := Execution.step_jump hhas
      rw [hself, hmoved] at hstep
      exact hstep
  · rw [hconditional hop v hv, if_neg (by simp [htruthy])]

/-- A jump lands where its three bytes lead it, whatever is written beside them. -/
theorem landsOn_of_written (hmake : op.Jumps make) (h : Written a (a + 3) c c') {w : Nat}
    (hop : c.byteAt? a = some op.toByte) (hw : c.wordAt? (a + 1) = some w)
    (htarget : ((a + 3 : Nat) : Int) + signedOf w = target) : c'.LandsOn op a target := by
  have hspot : (⟨a, make target, [], 0⟩ : Spot).Holds .empty c := by
    cases hmake <;> exact ⟨hop, w, hw, htarget⟩
  have hsize : (make target).size = 3 := by cases hmake <;> rfl
  have hroom : a + 3 ≤ c.size := by
    have := hspot.next_le
    rwa [Spot.next, hsize] at this
  obtain ⟨-, hbytes⟩ := h.keeps hroom
  have hop' : c'.byteAt? a = some op.toByte := (hbytes a (by omega) (by omega)).trans hop
  have hw' : c'.wordAt? (a + 1) = some w := by
    unfold wordAt? at hw ⊢
    rwa [hbytes _ (by omega) (by omega), hbytes _ (by omega) (by omega)]
  have hspot' : (⟨a, make target, [], 0⟩ : Spot).Holds .empty c' := by
    cases hmake <;> exact ⟨hop', w, hw', htarget⟩
  exact landsOn_of_holds hmake hspot'

end Chunk

/-! ### The compiler's writes -/

namespace Compiler

variable {s : CompileState}

theorem run_reportJump {cause : JumpError} (h : cause = .jumpTooLarge ∨ cause = .loopTooLarge) :
    ∃ s', (reportJump cause).run s = .ok () s' ∧ s'.body = s.body := by
  have hbody : ∀ complaint, (s.complain complaint).body = s.body := fun complaint =>
    (s.complainAt_frame s.previous complaint).1
  rcases h with rfl | rfl
  · exact ⟨_, rfl, hbody _⟩
  · exact ⟨_, rfl, hbody _⟩

theorem run_patchJump (operand : Nat) : (patchJump operand).run s =
    match s.body.chunk.patchJump operand with
    | .ok c => .ok () (s.mapChunk fun _ => c)
    | .error cause => (reportJump cause).run s := by
  unfold patchJump Chunk.patchJump
  rw [EStateM.run_bind, EStateM.run_get]
  simp only
  cases s.body.chunk.forwardDistance operand <;> rfl

theorem run_emitLoop (start : Nat) : (emitLoop start).run s =
    match s.body.chunk.writeLoop start s.previous.line with
    | .ok c => .ok () (s.mapChunk fun _ => c)
    | .error cause => (reportJump cause).run s := by
  unfold emitLoop Chunk.writeLoop
  rw [EStateM.run_bind, EStateM.run_get]
  simp only
  cases s.body.chunk.backwardDistance start <;> rfl

end Compiler

/-! ### The round trip -/

/-- The outcome of writing a jump to a chunk, for the compiler whose innermost function has that chunk: the compiler
goes on with the chunk that was written, or, where the jump does not fit, with the chunk it had. -/
def Compiler.Updates (x : Compiler Unit) (c : Chunk) (outcome : CompileState → Except JumpError Chunk) : Prop :=
  ∀ s : CompileState, s.body.chunk = c → ∃ s', x.run s = .ok () s' ∧
    (∀ c', outcome s = .ok c' → s' = s.mapChunk fun _ => c') ∧ ∀ cause, outcome s = .error cause → s'.body.chunk = c

theorem Compiler.updates_of_run {x : Compiler Unit} {c : Chunk} {outcome : CompileState → Except JumpError Chunk}
    (hrun : ∀ s, s.body.chunk = c → x.run s = match outcome s with
      | .ok c' => .ok () (s.mapChunk fun _ => c')
      | .error cause => (reportJump cause).run s)
    (hfits : ∀ s cause, outcome s = .error cause → cause = .jumpTooLarge ∨ cause = .loopTooLarge) :
    x.Updates c outcome := by
  intro s hs
  have hx := hrun s hs
  cases hout : outcome s with
  | ok c' =>
      rw [hout] at hx
      exact ⟨_, hx, fun d hd => by cases hd; rfl, nofun⟩
  | error cause =>
      rw [hout] at hx
      obtain ⟨s', hreport, hbody⟩ := run_reportJump (s := s) (hfits s cause hout)
      exact ⟨s', hx.trans hreport, nofun, fun _ _ => by rw [hbody, hs]⟩

namespace Chunk

/-- What comes of patching, in the chunk `c`, the jump whose operand is at `operand`, with its opcode before it. -/
structure Patched (c : Chunk) (op : Opcode) (operand : Nat) : Prop where
  room : operand + 2 ≤ c.size
  succeeds : (∃ c', c.patchJump operand = .ok c') ↔ c.size - (operand + 2) ≤ 32767
  fails : 32767 < c.size - (operand + 2) → c.patchJump operand = .error .jumpTooLarge
  /-- Only the two bytes of the operand change. -/
  changes : ∀ c', c.patchJump operand = .ok c' → c'.size = c.size ∧ c'.lines = c.lines ∧ c'.constants = c.constants ∧
    ∀ i, i ≠ operand → i ≠ operand + 1 → c'.byteAt? i = c.byteAt? i
  lands : ∀ a, operand = a + 1 → ∀ c', c.patchJump operand = .ok c' → ∀ later, Written a (a + 3) c' later →
    later.LandsOn op a c.size
  updates : (Compiler.patchJump operand).Updates c fun _ => c.patchJump operand

/-- What comes of writing a jump back to `start` to the chunk `c`. -/
structure Looped (c : Chunk) (start line : Nat) : Prop where
  succeeds : (∃ c', c.writeLoop start line = .ok c') ↔ c.size + 3 - start ≤ 32767
  fails : 32767 < c.size + 3 - start → c.writeLoop start line = .error .loopTooLarge
  /-- Three bytes of one line are appended. -/
  appends : ∀ c', c.writeLoop start line = .ok c' → c'.constants = c.constants ∧
    (∃ op low high, c'.code.items = c.code.items ++ #[op, low, high]) ∧
    c'.lines.items = c.lines.items ++ #[line, line, line]
  lands : ∀ c', c.writeLoop start line = .ok c' → ∀ later, Written c.size (c.size + 3) c' later →
    later.LandsOn .loop c.size start
  updates : (Compiler.emitLoop start).Updates c fun s => c.writeLoop start s.previous.line

variable {c c₂ : Chunk} {op : Opcode} {make : Nat → Instr}

theorem patched_of_written (hmake : op.Jumps make) (line : Nat)
    (h : Written c.size (c.size + 1) (c.writeJump op line).1 c₂) : c₂.Patched op (c.size + 1) := by
  have hsize : (c.writeJump op line).1.size = c.size + 3 := size_writeOpWord ..
  obtain ⟨hgrows, hbytes⟩ := h.keeps (by omega)
  have hop : c₂.byteAt? c.size = some op.toByte :=
    (hbytes _ (Nat.le_refl _) (Nat.lt_succ_self _)).trans (opcode_writeOpWord ..)
  have hroom : c.size + 1 + 2 ≤ c₂.size := by omega
  have heq := patchJump_eq hroom
  have hmax : maxJump = 32767 := rfl
  refine ⟨hroom, ?_, fun hlarge => ?_, fun c' hc' => ?_, fun a ha c' hc' later hlater => ?_,
    Compiler.updates_of_run (fun s hs => hs ▸ Compiler.run_patchJump _) fun s cause hcause => ?_⟩
  · rw [heq]
    split <;> simp_all
  · rw [heq, if_neg (by omega)]
  · obtain ⟨distance, rfl⟩ := exists_setWord_of_patchJump hc'
    exact ⟨size_setWord .., rfl, rfl, fun i hi hi' => byteAt?_setWord _ _ _ _ hi hi'⟩
  · obtain rfl : c.size = a := Nat.succ.inj ha
    rw [heq] at hc'
    split at hc'
    · next hle =>
        cases hc'
        refine landsOn_of_written hmake hlater ?_ (wordAt?_setWord c₂ hroom (by omega)) ?_
        · rwa [byteAt?_setWord _ _ _ _ (by omega) (by omega)]
        · rw [signedOf_of_le hle]
          omega
    · cases hc'
  · rw [heq] at hcause
    split at hcause <;> cases hcause
    exact .inl rfl

theorem looped_of_le {start : Nat} (hstart : start ≤ c.size) (line : Nat) : c.Looped start line := by
  have heq := fun line => writeLoop_eq hstart line
  have hmax : maxJump = 32767 := rfl
  refine ⟨?_, fun hlarge => ?_, fun c' hc' => ?_, fun c' hc' later hlater => ?_,
    Compiler.updates_of_run (fun s hs => hs ▸ Compiler.run_emitLoop _) fun s cause hcause => ?_⟩
  · rw [heq]
    split <;> simp_all
  · rw [heq, if_neg (by omega)]
  · obtain ⟨distance, rfl⟩ := exists_writeBack_of_writeLoop hc'
    have hthree : ∀ {α : Type} (items : Array α) (x y z : α), ((items.push x).push y).push z = items ++ #[x, y, z] :=
      fun items x y z => Array.ext' (by simp)
    exact ⟨rfl, ⟨_, _, _, hthree ..⟩, hthree ..⟩
  · rw [heq] at hc'
    split at hc'
    · next hle =>
        cases hc'
        refine landsOn_of_written .loop hlater (opcode_writeOpWord ..)
          (operand_writeOpWord c .loop (Nat.mod_lt _ (by decide)) line) ?_
        rw [signedOf_back hle (by omega)]
        omega
    · cases hc'
  · rw [heq] at hcause
    split at hcause <;> cases hcause
    exact .inr rfl

/-- **Jumps.** Writing a jump returns the place of its operand. Whatever is written after the jump, it can be patched
just if the code from its operand to the end of the chunk has at most 32767 bytes; then only the operand changes, and
from then on the jump lands where the chunk ended when it was patched, whatever is appended and whatever else is
patched. A loop back to a place in the chunk, or to its end, can be written just if the code from there to the end of
the loop itself has at most 32767 bytes; then three bytes of one line are appended, and the loop lands on that place.
What cannot be patched or written leaves the chunk as it was. -/
theorem jump_round_trip (c : Chunk) (line : Nat) :
    (∀ op ∈ [Opcode.jump, .jumpIfFalse, .loop], (c.writeJump op line).2 = c.size + 1 ∧
      ∀ later, Written c.size (c.size + 1) (c.writeJump op line).1 later → later.Patched op (c.writeJump op line).2) ∧
    ∀ start ≤ c.size, c.Looped start line := by
  refine ⟨fun op hop => ⟨rfl, fun later hlater => ?_⟩, fun start hstart => looped_of_le hstart line⟩
  obtain ⟨make, hmake⟩ : ∃ make, op.Jumps make := by
    simp only [List.mem_cons, List.not_mem_nil, or_false] at hop
    rcases hop with rfl | rfl | rfl
    · exact ⟨_, .jump⟩
    · exact ⟨_, .jumpIfFalse⟩
    · exact ⟨_, .loop⟩
  exact patched_of_written hmake line hlater

/-- A jump over two bytes, and a loop back to the start of the three bytes before it. -/
example :
    let (c, operand) := empty.writeJump .jumpIfFalse 1
    let patched := ((c.writeOp .pop 1).writeOp .pushNil 1).patchJump operand
    (patched.toOption.bind (·.signedAt? 1), ((c.writeLoop 0 1).toOption.bind (·.signedAt? 4))) =
      (some 2, some (-6)) := by
  decide

end Chunk

end Lox
