import Lox.Machine.Run
import Lox.Proofs.Storage.Interning

/-! What an instruction can do to the shared parts of a machine, whatever code it belongs to: it may
intern a string, and it may give a global variable a value or take its value away, always under the key
of a live string. Everything else it changes belongs to the run. So the heap stays interned and the
globals stay a valid table of keys of live strings. -/

namespace Lox

namespace Machine

/-- One change of a machine: of parts that are neither heap nor globals, of the heap by a string, or
of the globals under the key of a live string. -/
inductive Move (m : Machine) : Machine → Prop where
  | own (m' : Machine) (hheap : m'.heap = m.heap) (hglobals : m'.globals = m.globals) : Move m m'
  | text (chars : String) : Move m { m with heap := (m.heap.intern chars).1 }
  | define (key : Key) (value : Value) (h : m.heap.key? key.handle = some key) :
      Move m { m with globals := (m.globals.set key value).1 }
  | drop (key : Key) (h : m.heap.key? key.handle = some key) :
      Move m { m with globals := (m.globals.erase key).1 }

/-- Any number of changes. -/
inductive Moves : Machine → Machine → Prop where
  | refl (m : Machine) : Moves m m
  | step {m m' m'' : Machine} (h : Moves m m') (hm : m'.Move m'') : Moves m m''

namespace Moves

theorem single {m m' : Machine} (h : m.Move m') : Moves m m' := .step (.refl m) h

theorem own {m : Machine} (m' : Machine) (hheap : m'.heap = m.heap) (hglobals : m'.globals = m.globals) :
    Moves m m' := .single (.own m' hheap hglobals)

theorem trans {m m' m'' : Machine} (h : Moves m m') (h' : Moves m' m'') : Moves m m'' := by
  induction h' with
  | refl => exact h
  | step _ hm ih => exact .step ih hm

theorem keeps {P : Machine → Prop} (hstep : ∀ {m m' : Machine}, m.Move m' → P m → P m')
    {m m' : Machine} (h : Moves m m') (hm : P m) : P m' := by
  induction h with
  | refl => exact hm
  | step _ h ih => exact hstep h ih

end Moves

theorem globals_intern (m : Machine) (chars : String) : (m.intern chars).2.globals = m.globals := by
  unfold intern
  simp only
  split <;> rfl

theorem intern_turn (m : Machine) (chars : String) : ∃ journal,
    m.intern chars = ((m.heap.intern chars).2, { m with heap := (m.heap.intern chars).1, journal }) := by
  by_cases hlive : m.heap.live < (m.heap.intern chars).1.live
  · exact ⟨m.journal.record (.allocated (m.heap.intern chars).2), by simp [intern, hlive, record]⟩
  · exact ⟨m.journal, by simp [intern, hlive]⟩

theorem moves_intern (m : Machine) (chars : String) : Moves m (m.intern chars).2 := by
  refine .trans (.single (.text chars)) ?_
  unfold intern
  simp only
  split
  · exact .own _ rfl rfl
  · exact .own _ rfl rfl

end Machine

namespace Execution

open Machine

variable {α β : Type}

/-- The machine after an execution, whether it stopped or not. -/
def after (x : Execution α) (m : Machine) : Machine :=
  match x.run m with
  | .ok _ m' => m'
  | .error _ m' => m'

/-- The execution changes a machine by moves only. -/
def ByMoves (x : Execution α) : Prop := ∀ m, Moves m (after x m)

theorem after_bind (x : Execution α) (f : α → Execution β) (m : Machine) :
    after (x >>= f) m = match x.run m with
      | .ok a m' => after (f a) m'
      | .error _ m' => m' := by
  unfold after
  rw [EStateM.run_bind]
  cases x.run m <;> rfl

namespace ByMoves

/-- The second part may rely on what the first part has established. -/
theorem bind_of {x : Execution α} {f : α → Execution β} (hx : ByMoves x) {P : α → Machine → Prop}
    (hpost : ∀ m a m', x.run m = .ok a m' → P a m') (hf : ∀ a m, P a m → Moves m (after (f a) m)) :
    ByMoves (x >>= f) := by
  intro m
  have hm := hx m
  rw [after_bind]
  unfold after at hm
  split
  · next a m' h =>
      rw [h] at hm
      exact hm.trans (hf a m' (hpost m a m' h))
  · next e m' h =>
      rw [h] at hm
      exact hm

theorem bind {x : Execution α} {f : α → Execution β} (hx : ByMoves x) (hf : ∀ a, ByMoves (f a)) :
    ByMoves (x >>= f) :=
  hx.bind_of (fun _ _ _ _ => trivial) fun a m _ => hf a m

theorem pure (a : α) : ByMoves (pure a : Execution α) := fun m => .refl m

theorem get : ByMoves (get : Execution Machine) := fun m => .refl m

theorem throw (e : Stop) : ByMoves (throw e : Execution α) := fun m => .refl m

theorem fail (e : ErrorKind) : ByMoves (fail e : Execution α) := fun m => .refl m

theorem modify {f : Machine → Machine} (hf : ∀ m, Moves m (f m)) :
    ByMoves (modify f : Execution PUnit) := fun m => hf m

theorem modifyGet {f : Machine → α × Machine} (hf : ∀ m, Moves m (f m).2) :
    ByMoves (modifyGet f : Execution α) := fun m => hf m

theorem ite {p : Prop} [Decidable p] {x y : Execution α} (hx : ByMoves x) (hy : ByMoves y) :
    ByMoves (if p then x else y) := by
  split
  · exact hx
  · exact hy

end ByMoves

/-! ### Stack, calls and operators -/

theorem byMoves_push (v : Value) : ByMoves (push v) :=
  .bind .get fun _ => .ite (.fail _) (.modify fun _ => .own _ rfl rfl)

theorem byMoves_pop : ByMoves pop := by
  refine .bind .get fun _ => ?_
  split
  · exact .fail _
  · exact .bind (.modify fun _ => .own _ rfl rfl) fun _ => .pure _

theorem byMoves_popTwo : ByMoves popTwo := .bind byMoves_pop fun _ => .bind byMoves_pop fun _ => .pure _

theorem byMoves_peek (n : Nat) : ByMoves (peek n) := by
  refine .bind .get fun _ => .ite (.fail _) ?_
  split
  · exact .pure _
  · exact .throw _

theorem byMoves_top (n : Nat) : ByMoves (top n) := .bind .get fun _ => .ite (.fail _) (.pure _)

theorem byMoves_truncate (n : Nat) : ByMoves (truncate n) := .modify fun _ => .own _ rfl rfl

theorem byMoves_slotIndex (n : Nat) : ByMoves (slotIndex n) := by
  refine .bind .get fun _ => ?_
  split
  · exact .fail _
  · exact .ite (.pure _) (.fail _)

theorem byMoves_getSlot (n : Nat) : ByMoves (getSlot n) := by
  refine .bind (byMoves_slotIndex n) fun _ => .bind .get fun _ => ?_
  split
  · exact .pure _
  · exact .throw _

theorem byMoves_setSlot (n : Nat) (v : Value) : ByMoves (setSlot n v) :=
  .bind (byMoves_slotIndex n) fun _ => .modify fun _ => .own _ rfl rfl

theorem byMoves_callFunction (f : Handle) (n : Nat) : ByMoves (callFunction f n) := by
  refine .bind .get fun _ => ?_
  split
  · exact .fail _
  · exact .ite (.fail _) (.ite (.fail _) (.ite (.fail _) (.modify fun _ => .own _ rfl rfl)))

theorem byMoves_readClock : ByMoves readClock := .modifyGet fun _ => .own _ rfl rfl

theorem byMoves_callNative (native : NativeObject) (n : Nat) : ByMoves (callNative native n) :=
  .ite (.fail _) (.bind (byMoves_top n) fun _ => .bind byMoves_readClock fun _ => .bind .get fun _ =>
    .ite (.throw _) (.bind (byMoves_truncate _) fun _ => byMoves_push _))

theorem byMoves_callValue (v : Value) (n : Nat) : ByMoves (callValue v n) := by
  unfold callValue
  split
  · refine .bind .get fun _ => ?_
    split
    · exact byMoves_callFunction _ n
    · exact byMoves_callNative _ n
    · exact .fail _
  · exact .fail _

theorem byMoves_returnFrom : ByMoves returnFrom := by
  refine .bind byMoves_pop fun _ => .bind .get fun _ => ?_
  split
  · exact .fail _
  · refine .bind (.modify fun _ => .own _ rfl rfl) fun _ => .bind (byMoves_truncate _) fun _ => ?_
    exact .ite (.bind (.modify fun _ => .own _ rfl rfl) fun _ => .pure _)
      (.bind (byMoves_push _) fun _ => .bind (.modify fun _ => .own _ rfl rfl) fun _ => .pure _)

theorem byMoves_numberOperands : ByMoves numberOperands := by
  refine .bind (byMoves_peek 1) fun _ => .bind (byMoves_peek 0) fun _ => ?_
  split
  · exact .pure _
  · exact .fail _

theorem byMoves_numeric (f : Float → Float → Value) : ByMoves (numeric f) :=
  .bind byMoves_numberOperands fun _ => .bind byMoves_popTwo fun _ => byMoves_push _

theorem byMoves_concatenate (a b : Handle) : ByMoves (concatenate a b) := by
  refine .bind .get fun _ => ?_
  dsimp only
  split
  · exact .bind byMoves_popTwo fun _ => .bind (.modifyGet fun m => moves_intern m _) fun _ =>
      byMoves_push _
  · exact .fail _

theorem byMoves_add : ByMoves add := by
  refine .bind (byMoves_peek 1) fun _ => .bind (byMoves_peek 0) fun _ => ?_
  split
  · exact .bind byMoves_popTwo fun _ => byMoves_push _
  · exact byMoves_concatenate _ _
  · exact .fail _

theorem byMoves_negate : ByMoves negate := by
  refine .bind (byMoves_peek 0) fun _ => ?_
  split
  · exact .bind byMoves_pop fun _ => byMoves_push _
  · exact .fail _

theorem byMoves_compareEqual (b : Bool) : ByMoves (compareEqual b) :=
  .bind byMoves_popTwo fun _ => byMoves_push _

theorem byMoves_negateTruth : ByMoves negateTruth := .bind byMoves_pop fun _ => byMoves_push _

theorem byMoves_print : ByMoves print :=
  .bind byMoves_pop fun _ => .bind .get fun _ => .bind (.modifyGet fun _ => .own _ rfl rfl) fun _ =>
    .ite (.fail _) (.pure _)

/-! ### Instructions -/

theorem byMoves_readByte : ByMoves readByte := by
  refine .bind .get fun _ => ?_
  split
  · exact .fail _
  · split
    · exact .fail _
    · refine .bind (.modify fun m => .own _ ?_ ?_) fun _ => .pure _ <;> split <;> rfl

theorem byMoves_readWord : ByMoves readWord :=
  .bind byMoves_readByte fun _ => .bind byMoves_readByte fun _ => .pure _

theorem byMoves_readSigned : ByMoves readSigned := .bind byMoves_readWord fun _ => .pure _

theorem byMoves_constant (n : Nat) : ByMoves (constant n) := by
  refine .bind .get fun _ => ?_
  split
  · exact .pure _
  · exact .fail _

theorem byMoves_readName : ByMoves readName := by
  refine .bind byMoves_readByte fun _ => .bind (byMoves_constant _) fun _ => .bind .get fun _ => ?_
  split
  · exact .pure _
  · exact .fail _

theorem byMoves_failUndefined (key : Key) : ByMoves (failUndefined key : Execution α) :=
  .bind .get fun _ => .fail _

theorem byMoves_jump (d : Int) : ByMoves (jump d) := by
  refine .bind .get fun _ => ?_
  split
  · exact .fail _
  · exact .ite (.fail _) (.modify fun _ => .own _ rfl rfl)

theorem byMoves_getGlobal : ByMoves getGlobal := by
  refine .bind byMoves_readName fun _ => .bind .get fun _ => ?_
  split
  · exact byMoves_push _
  · exact byMoves_failUndefined _

theorem run_bind_eq_ok {x : Execution α} {f : α → Execution β} {m m'' : Machine} {b : β} :
    (x >>= f).run m = .ok b m'' ↔ ∃ a m', x.run m = .ok a m' ∧ (f a).run m' = .ok b m'' := by
  rw [EStateM.run_bind]
  cases h : x.run m with
  | ok a m' =>
      constructor
      · exact fun h' => ⟨a, m', rfl, h'⟩
      · rintro ⟨a', t, heq, h'⟩
        cases heq
        exact h'
  | error e m' => simp

/-- A name that was read is the key of a live string. -/
theorem key?_of_readName {m m' : Machine} {key : Key} (h : readName.run m = .ok key m') :
    m'.heap.key? key.handle = some key := by
  unfold readName at h
  obtain ⟨index, m₁, -, h⟩ := run_bind_eq_ok.mp h
  obtain ⟨value, m₂, -, h⟩ := run_bind_eq_ok.mp h
  obtain ⟨m₃, m₄, hget, h⟩ := run_bind_eq_ok.mp h
  cases hget
  split at h
  · next key hkey =>
      cases h
      obtain ⟨handle, -, hk⟩ := Option.bind_eq_some_iff.mp hkey
      rw [Heap.key?_handle hk]
      exact hk
  · cases h

theorem run_peek_state {m m' : Machine} {n : Nat} {v : Value} (h : (peek n).run m = .ok v m') :
    m' = m := by
  unfold peek at h
  obtain ⟨m₁, m₂, hget, h⟩ := run_bind_eq_ok.mp h
  cases hget
  split at h
  · cases h
  · split at h <;> cases h
    rfl

/-- Looking at the top of the stack does nothing, so it is up to what follows. -/
theorem moves_after_peek {f : Value → Execution α} {m : Machine} (hf : ∀ v, Moves m (after (f v) m)) (n : Nat) :
    Moves m (after (peek n >>= f) m) := by
  have hpeek := byMoves_peek n m
  rw [after_bind]
  rw [after] at hpeek
  split
  · next v m' h =>
      obtain rfl := run_peek_state h
      exact hf v
  · next e m' h =>
      rw [h] at hpeek
      exact hpeek

theorem byMoves_defineGlobal : ByMoves defineGlobal := by
  refine byMoves_readName.bind_of (fun _ _ _ => key?_of_readName) fun key m hkey => ?_
  refine moves_after_peek (fun v => .trans (.single (.define key v hkey)) ?_) 0
  exact ByMoves.bind byMoves_pop (fun _ => .pure _) _

theorem byMoves_setGlobal : ByMoves setGlobal := by
  refine byMoves_readName.bind_of (fun _ _ _ => key?_of_readName) fun key m hkey => ?_
  refine moves_after_peek (fun v => .trans (.single (.define key v hkey)) ?_) 0
  have hrest : ∀ isNew : Bool, Moves { m with globals := (m.globals.set key v).1 }
      (after (if isNew = true then do
        modify fun m => { m with globals := (m.globals.erase key).1 }
        failUndefined key
      else pure PUnit.unit) { m with globals := (m.globals.set key v).1 }) := by
    intro isNew
    split
    · refine .trans (.single (.drop key hkey)) ?_
      exact (byMoves_failUndefined key : ByMoves (failUndefined key : Execution PUnit)) _
    · exact .refl _
  exact hrest _

theorem byMoves_execute (op : Opcode) : ByMoves (execute op) := by
  have hdone : ∀ {x : Execution Unit}, ByMoves x → ByMoves (do x; return Flow.next) :=
    fun hx => .bind hx fun _ => .pure _
  cases op with
  | constant =>
      exact .bind byMoves_readByte fun _ => .bind (byMoves_constant _) fun _ => hdone (byMoves_push _)
  | constantWide =>
      exact .bind byMoves_readWord fun _ => .bind (byMoves_constant _) fun _ => hdone (byMoves_push _)
  | pushNil | pushTrue | pushFalse => exact hdone (byMoves_push _)
  | pop => exact .bind byMoves_pop fun _ => .pure _
  | getLocal =>
      exact .bind byMoves_readByte fun _ => .bind (byMoves_getSlot _) fun _ => hdone (byMoves_push _)
  | setLocal =>
      exact .bind byMoves_readByte fun _ => .bind (byMoves_peek _) fun _ => hdone (byMoves_setSlot _ _)
  | getGlobal => exact hdone byMoves_getGlobal
  | defineGlobal => exact hdone byMoves_defineGlobal
  | setGlobal => exact hdone byMoves_setGlobal
  | add => exact hdone byMoves_add
  | subtract | multiply | divide | greater | greaterEqual | less | lessEqual => exact hdone (byMoves_numeric _)
  | negate => exact hdone byMoves_negate
  | equal | notEqual => exact hdone (byMoves_compareEqual _)
  | not => exact hdone byMoves_negateTruth
  | jump | loop => exact .bind byMoves_readSigned fun _ => hdone (byMoves_jump _)
  | jumpIfFalse =>
      exact .bind byMoves_readSigned fun _ => .bind (byMoves_peek _) fun _ =>
        .ite (hdone (byMoves_jump _)) (.pure _)
  | call =>
      exact .bind byMoves_readByte fun _ => .bind (byMoves_peek _) fun _ => hdone (byMoves_callValue _ _)
  | ret => exact byMoves_returnFrom
  | print => exact hdone byMoves_print

/-- An instruction changes a machine by moves only. -/
theorem byMoves_step : ByMoves step := by
  refine .bind byMoves_readByte fun _ => ?_
  split
  · exact byMoves_execute _
  · exact .fail _

end Execution

end Lox
