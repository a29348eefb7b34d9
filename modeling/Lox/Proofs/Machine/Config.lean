import Lox.Proofs.Layout
import Lox.Proofs.Machine.Globals

/-! Execution on a machine whose active calls and values are spelled out. A configuration lists the values
with the latest first; on it each stack operation, and each read of an operand, is an equation. -/

namespace Lox

namespace Machine

/-- The machine with other active calls and other values, the latest first. -/
def config (m : Machine) (frames : List Frame) (values : List Value) : Machine :=
  { m with frames, stack := values.reverse.toArray }

/-- The machine when its clock has been read once more. -/
def ticked (m : Machine) : Machine := { m with clock := m.clock.next }

theorem config_self (m : Machine) : m.config m.frames m.stack.toList.reverse = m := by simp [config]

@[simp] theorem heap_config (m : Machine) (fs : List Frame) (vs : List Value) : (m.config fs vs).heap = m.heap := rfl

@[simp] theorem frames_config (m : Machine) (fs : List Frame) (vs : List Value) : (m.config fs vs).frames = fs := rfl

@[simp] theorem limits_config (m : Machine) (fs : List Frame) (vs : List Value) :
    (m.config fs vs).limits = m.limits := rfl

@[simp] theorem size_config (m : Machine) (fs : List Frame) (vs : List Value) :
    (m.config fs vs).stack.size = vs.length := by simp [config]

end Machine

namespace Execution

open Machine

variable {m : Machine} {fs : List Frame} {vs rest above : List Value} {v : Value}

theorem run_bind_of_ok {α β : Type} {x : Execution α} {f : α → Execution β} {m m' : Machine} {a : α}
    (h : x.run m = .ok a m') : (x >>= f).run m = (f a).run m' := by rw [EStateM.run_bind, h]

theorem run_bind_of_error {α β : Type} {x : Execution α} {f : α → Execution β} {m m' : Machine} {e : Stop}
    (h : x.run m = .error e m') : (x >>= f).run m = .error e m' := by rw [EStateM.run_bind, h]

/-! ### The stack -/

theorem run_push : (push v).run (m.config fs vs) =
    if m.limits.stackMax ≤ vs.length then .error (.error .stackOverflow) (m.config fs vs)
    else .ok () (m.config fs (v :: vs)) := by
  have heq : (push v).run (m.config fs vs) =
    (if m.limits.stackMax ≤ (m.config fs vs).stack.size then fail .stackOverflow
      else modify fun m => { m with stack := m.stack.push v }).run (m.config fs vs) := rfl
  rw [heq, size_config]
  split
  · rfl
  · simp [config, EStateM.run_modify]

theorem run_pop : pop.run (m.config fs (v :: vs)) = .ok v (m.config fs vs) := by
  have hback : (m.config fs (v :: vs)).stack.back? = some v := by simp [config]
  unfold pop
  rw [run_bind_of_ok (EStateM.run_get _), hback]
  show EStateM.Result.ok v { m.config fs (v :: vs) with stack := (m.config fs (v :: vs)).stack.pop } = _
  simp [config]

theorem run_popTwo {w : Value} : popTwo.run (m.config fs (w :: v :: vs)) = .ok (v, w) (m.config fs vs) := by
  unfold popTwo
  rw [run_bind_of_ok run_pop, run_bind_of_ok run_pop]
  rfl

theorem run_peek {d : Nat} (h : vs[d]? = some v) : (peek d).run (m.config fs vs) = .ok v (m.config fs vs) := by
  have hd : d < vs.length := (List.getElem?_eq_some_iff.mp h).1
  have hget : (m.config fs vs).stack[(m.config fs vs).stack.size - (d + 1)]? = some v := by
    rw [size_config]
    simp only [config, List.getElem?_toArray]
    rw [List.getElem?_reverse (by omega), ← h]
    congr 1
    omega
  unfold peek
  rw [run_bind_of_ok (EStateM.run_get _), hget, size_config, if_neg (by omega)]
  rfl

theorem run_top {args : List Value} :
    (top args.length).run (m.config fs (args ++ rest)) = .ok args.reverse (m.config fs (args ++ rest)) := by
  have heq : (top args.length).run (m.config fs (args ++ rest)) =
    (if (m.config fs (args ++ rest)).stack.size < args.length then fail .stackUnderflow
      else return ((m.config fs (args ++ rest)).stack.extract
        ((m.config fs (args ++ rest)).stack.size - args.length) (m.config fs (args ++ rest)).stack.size).toList :
      Execution (List Value)).run (m.config fs (args ++ rest)) := rfl
  rw [heq, size_config, List.length_append, if_neg (by omega)]
  simp [config]

theorem run_truncate : (truncate rest.length).run (m.config fs (above ++ rest)) = .ok () (m.config fs rest) := by
  simp [truncate, config, EStateM.run_modify]

theorem run_slotIndex {frame : Frame} {slot : Nat} (h : frame.base + slot = rest.length) :
    (slotIndex slot).run (m.config (frame :: fs) (above ++ v :: rest)) =
      .ok rest.length (m.config (frame :: fs) (above ++ v :: rest)) := by
  have heq : (slotIndex slot).run (m.config (frame :: fs) (above ++ v :: rest)) =
    (if frame.base + slot < (m.config (frame :: fs) (above ++ v :: rest)).stack.size then return frame.base + slot
      else fail .stackUnderflow : Execution Nat).run (m.config (frame :: fs) (above ++ v :: rest)) := rfl
  rw [heq, size_config, if_pos (by simp; omega), h]
  rfl

theorem run_getSlot {frame : Frame} {slot : Nat} (h : frame.base + slot = rest.length) :
    (getSlot slot).run (m.config (frame :: fs) (above ++ v :: rest)) =
      .ok v (m.config (frame :: fs) (above ++ v :: rest)) := by
  have hget : (m.config (frame :: fs) (above ++ v :: rest)).stack[rest.length]? = some v := by
    simp [config]
  unfold getSlot
  rw [run_bind_of_ok (run_slotIndex h)]
  simp only [EStateM.run_bind, EStateM.run_get, hget]
  rfl

theorem run_setSlot {frame : Frame} {slot : Nat} {w : Value} (h : frame.base + slot = rest.length) :
    (setSlot slot w).run (m.config (frame :: fs) (above ++ v :: rest)) =
      .ok () (m.config (frame :: fs) (above ++ w :: rest)) := by
  unfold setSlot
  rw [run_bind_of_ok (run_slotIndex h)]
  simp [EStateM.run_modify, config]

/-! ### Reading code -/

section Code

variable {handle : Handle} {f : FunctionObject} {a base : Nat}

theorem run_readByte (hf : m.heap.function? handle = some f) {byte : UInt8} (hb : f.chunk.byteAt? a = some byte) :
    readByte.run (m.config (⟨handle, a, base⟩ :: fs) vs) = .ok byte (m.config (⟨handle, a + 1, base⟩ :: fs) vs) := by
  have hbyte : (m.heap.function? handle).bind (·.chunk.byteAt? a) = some byte := by rw [hf, Option.bind_some, hb]
  unfold readByte
  rw [run_bind_of_ok (EStateM.run_get _)]
  simp only [config, hbyte]
  rfl

theorem run_readWord (hf : m.heap.function? handle = some f) {w : Nat} (hw : f.chunk.wordAt? a = some w) :
    readWord.run (m.config (⟨handle, a, base⟩ :: fs) vs) = .ok w (m.config (⟨handle, a + 2, base⟩ :: fs) vs) := by
  obtain ⟨low, high, hl, hh, rfl⟩ : ∃ low high, f.chunk.byteAt? a = some low ∧
      f.chunk.byteAt? (a + 1) = some high ∧ wordOf low high = w := by
    unfold Chunk.wordAt? at hw
    obtain ⟨low, hl, hw⟩ := Option.bind_eq_some_iff.mp hw
    obtain ⟨high, hh, hw⟩ := Option.bind_eq_some_iff.mp hw
    exact ⟨low, high, hl, hh, Option.some.inj hw⟩
  unfold readWord
  rw [run_bind_of_ok (run_readByte hf hl), run_bind_of_ok (run_readByte hf hh)]
  rfl

theorem run_readSigned (hf : m.heap.function? handle = some f) {w : Nat} (hw : f.chunk.wordAt? a = some w) :
    readSigned.run (m.config (⟨handle, a, base⟩ :: fs) vs) =
      .ok (signedOf w) (m.config (⟨handle, a + 2, base⟩ :: fs) vs) :=
  run_bind_of_ok (run_readWord hf hw)

theorem run_constant (hf : m.heap.function? handle = some f) {i : Nat} (hi : f.chunk.constant? i = some v) :
    (constant i).run (m.config (⟨handle, a, base⟩ :: fs) vs) =
      .ok v (m.config (⟨handle, a, base⟩ :: fs) vs) := by
  have hvalue : (m.heap.function? handle).bind (·.chunk.constant? i) = some v := by rw [hf, Option.bind_some, hi]
  unfold constant
  rw [run_bind_of_ok (EStateM.run_get _)]
  simp only [config, List.head?_cons, Option.bind_some, hvalue]
  rfl

theorem run_jump {d : Int} {target : Nat} (h : (a : Int) + d = target) :
    (jump d).run (m.config (⟨handle, a, base⟩ :: fs) vs) =
      .ok () (m.config (⟨handle, target, base⟩ :: fs) vs) := by
  have heq : (jump d).run (m.config (⟨handle, a, base⟩ :: fs) vs) =
    (if (a : Int) + d < 0 then fail (.invalidBytecode .jumpOutOfRange)
      else modify fun m => { m with frames := ⟨handle, ((a : Int) + d).toNat, base⟩ :: fs } :
      Execution Unit).run (m.config (⟨handle, a, base⟩ :: fs) vs) := rfl
  rw [heq, h, if_neg (by omega)]
  rfl

/-- The instruction whose opcode stands at the pointer is carried out. -/
theorem run_step (hf : m.heap.function? handle = some f) {op : Opcode}
    (hb : f.chunk.byteAt? a = some op.toByte) :
    step.run (m.config (⟨handle, a, base⟩ :: fs) vs) =
      (execute op).run (m.config (⟨handle, a + 1, base⟩ :: fs) vs) := by
  unfold step
  rw [run_bind_of_ok (run_readByte hf hb), Opcode.ofByte?_toByte]

end Code

end Execution

end Lox
