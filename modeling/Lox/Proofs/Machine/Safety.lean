import Lox.Proofs.Reached
import Lox.Session

/-! Safety on any code. The functions that a host makes may hold any bytes and any constants, and a run may pop
below its own values, jump anywhere and be cut off anywhere. Each step of each run still returns: it goes on, it is
over, or it is a runtime error. It never reads or writes outside of the stack, it keeps the limits of the machine,
and each probe of a table that it makes ends at a slot of the table. -/

namespace Lox

/-! ### Probes -/

namespace Table

/-- A probe for any key ends at one of the slots. -/
def Searchable (slots : Array Slot) : Prop := ∀ key, ∃ i < slots.size, find? slots key = some i

/-- All probes of a table end: those of a lookup, those of a store, and those for the entries that are moved one
after the other when a store needs more room. -/
structure Probed (t : Table) : Prop where
  lookup : t.used ≠ 0 → Searchable t.slots
  store : Searchable t.reserve.slots
  move : ∀ moved rest, t.slots.toList = moved ++ rest → 3 * t.capacity < 4 * (t.used + 1) →
    Searchable (moved.foldl rehash (Array.replicate (nextCapacity t.capacity) .empty, 0)).1

theorem HasEmpty.searchable {slots : Array Slot} (h : HasEmpty slots) : Searchable slots := by
  intro key
  have hpos := h.size_pos
  have hhome := home_lt hpos key.hash
  obtain ⟨i, hi⟩ := h
  obtain ⟨d, hd, hplace⟩ := exists_place (Array.getElem?_eq_some_iff.mp hi).1 (home slots key.hash)
  have hsome : (find? slots key).isSome := probe_isSome hhome hd (hplace ▸ hi)
  obtain ⟨r, hr⟩ := Option.isSome_iff_exists.mp hsome
  exact ⟨r, probe_lt hhome hr, hr⟩

theorem Fresh.searchable {slots : Array Slot} {count : Nat} (h : Fresh slots count) (hroom : count < slots.size) :
    Searchable slots := by
  apply HasEmpty.searchable
  apply hasEmpty_of_countP_lt
  rw [← h.used]
  exact hroom

theorem Valid.probed {t : Table} (h : Valid t) : Probed t where
  lookup h0 := (h.hasEmpty (h.capacity_pos h0)).searchable
  store := by
    obtain ⟨hvalid, hload, -⟩ := h.reserve_valid
    exact (hvalid.hasEmpty (by omega)).searchable
  move moved rest hsplit hgrow := by
    have hlive : moved.countP isEntry ≤ t.live := by
      rw [h.live_eq, ← Array.countP_toList, hsplit, List.countP_append]
      exact Nat.le_add_right _ _
    have hroom : t.live < nextCapacity t.capacity := by
      have hload := h.load
      have hused := h.live_le_used
      unfold nextCapacity minCapacity
      split <;> omega
    have hdistinct : Distinct moved := by
      have hall := h.sound.distinct
      rw [hsplit] at hall
      exact (List.pairwise_append.mp hall).1
    obtain ⟨slots, hfold, hsize, hfresh, -⟩ := (fresh_replicate (nextCapacity t.capacity)).foldl_rehash hdistinct
      (fun k v _ _ hk => by
        obtain ⟨i, hi⟩ := hk
        rw [Array.getElem?_replicate] at hi
        split at hi <;> cases hi)
      (by rw [Array.size_replicate]; omega)
    rw [hfold]
    refine hfresh.searchable ?_
    rw [hsize, Array.size_replicate]
    omega

end Table

/-- A machine has the limits that it was made with, and is within them. -/
structure Machine.Within (limits : Limits) (m : Machine) : Prop where
  limits_eq : m.limits = limits
  stack : m.stack.size ≤ limits.stackMax
  frames : m.frames.length ≤ limits.framesMax

theorem Machine.Within.congr {limits : Limits} {m m' : Machine} (h : m.Within limits) (hl : m'.limits = m.limits)
    (hs : m'.stack.size ≤ m.stack.size) (hf : m'.frames.length ≤ m.frames.length) : m'.Within limits :=
  ⟨hl.trans h.limits_eq, hs.trans h.stack, hf.trans h.frames⟩

/-! ### Executions -/

namespace Execution

open Machine

variable {α β : Type} {limits : Limits} {m : Machine}

/-- The execution does not fault, and ends within the limits. -/
def Safe (limits : Limits) (x : Execution α) (m : Machine) : Prop :=
  match x.run m with
  | .ok _ m' => m'.Within limits
  | .error (.error _) m' => m'.Within limits
  | .error (.fault _) _ => False

namespace Safe

theorem bind {x : Execution α} {f : α → Execution β} (hx : Safe limits x m)
    (hf : ∀ a m', x.run m = .ok a m' → m'.Within limits → Safe limits (f a) m') : Safe limits (x >>= f) m := by
  unfold Safe at hx ⊢
  rw [EStateM.run_bind]
  split at hx
  · next a m' h =>
      rw [h]
      exact hf a m' h hx
  · next kind m' h =>
      rw [h]
      exact hx
  · exact hx.elim

theorem pure (hm : m.Within limits) (a : α) : Safe limits (pure a : Execution α) m := hm

theorem fail (hm : m.Within limits) (kind : ErrorKind) : Safe limits (fail kind : Execution α) m := hm

theorem get {f : Machine → Execution α} (h : Safe limits (f m) m) : Safe limits (get >>= f) m := h

theorem modify {f : Machine → Machine} (h : (f m).Within limits) : Safe limits (modify f : Execution PUnit) m := h

theorem modifyGet {f : Machine → α × Machine} (h : (f m).2.Within limits) :
    Safe limits (modifyGet f : Execution α) m := h

/-- The rest of an instruction after its effect. -/
theorem next {x : Execution Unit} (h : Safe limits x m) : Safe limits (do x; return Flow.next) m :=
  h.bind fun _ _ _ hm' => .pure hm' _

end Safe

theorem safe_push (hm : m.Within limits) (v : Value) : Safe limits (push v) m := by
  apply Safe.get
  split
  · exact .fail hm _
  · next hroom =>
      refine .modify ⟨hm.limits_eq, ?_, hm.frames⟩
      rw [hm.limits_eq] at hroom
      rw [Array.size_push]
      omega

theorem safe_pop (hm : m.Within limits) : Safe limits pop m := by
  apply Safe.get
  split
  · exact .fail hm _
  · refine .bind (.modify (hm.congr rfl ?_ (Nat.le_refl _))) fun _ _ _ hm' => .pure hm' _
    simp

theorem safe_popTwo (hm : m.Within limits) : Safe limits popTwo m :=
  (safe_pop hm).bind fun _ _ _ hm₁ => (safe_pop hm₁).bind fun _ _ _ hm₂ => .pure hm₂ _

theorem safe_peek (hm : m.Within limits) (n : Nat) : Safe limits (peek n) m := by
  apply Safe.get
  split
  · exact .fail hm _
  · split
    · exact .pure hm _
    · next hsize hnone =>
        rw [Array.getElem?_eq_none_iff] at hnone
        omega

theorem size_of_peek {m' : Machine} {n : Nat} {v : Value} (h : (peek n).run m = .ok v m') : n + 1 ≤ m'.stack.size := by
  obtain rfl := run_peek_state h
  unfold peek at h
  obtain ⟨m₁, m₂, hget, h⟩ := run_bind_eq_ok.mp h
  cases hget
  split at h
  · cases h
  · omega

theorem safe_truncate (hm : m.Within limits) (n : Nat) : Safe limits (truncate n) m := by
  refine .modify (hm.congr rfl ?_ (Nat.le_refl _))
  simp

theorem safe_slotIndex (hm : m.Within limits) (slot : Nat) : Safe limits (slotIndex slot) m := by
  apply Safe.get
  split
  · exact .fail hm _
  · split
    · exact .pure hm _
    · exact .fail hm _

theorem lt_of_slotIndex {m' : Machine} {slot i : Nat} (h : (slotIndex slot).run m = .ok i m') :
    m' = m ∧ i < m.stack.size := by
  unfold slotIndex at h
  obtain ⟨m₁, m₂, hget, h⟩ := run_bind_eq_ok.mp h
  cases hget
  split at h
  · cases h
  · split at h
    · next hlt =>
        cases h
        exact ⟨rfl, hlt⟩
    · cases h

theorem safe_getSlot (hm : m.Within limits) (slot : Nat) : Safe limits (getSlot slot) m := by
  refine (safe_slotIndex hm slot).bind fun i m' h _ => ?_
  obtain ⟨rfl, hlt⟩ := lt_of_slotIndex h
  apply Safe.get
  split
  · exact .pure hm _
  · next hnone =>
      rw [Array.getElem?_eq_none_iff] at hnone
      omega

theorem safe_setSlot (hm : m.Within limits) (slot : Nat) (v : Value) : Safe limits (setSlot slot v) m := by
  refine (safe_slotIndex hm slot).bind fun i m' h hm' => .modify (hm'.congr rfl ?_ (Nat.le_refl _))
  simp

theorem safe_callFunction (hm : m.Within limits) (handle : Handle) (count : Nat) :
    Safe limits (callFunction handle count) m := by
  apply Safe.get
  split
  · exact .fail hm _
  · split
    · exact .fail hm _
    · split
      · exact .fail hm _
      · next hroom =>
          split
          · exact .fail hm _
          · refine .modify ⟨hm.limits_eq, hm.stack, ?_⟩
            rw [hm.limits_eq] at hroom
            simp only [record, List.length_cons]
            omega

theorem safe_readClock (hm : m.Within limits) : Safe limits readClock m :=
  .modifyGet (hm.congr rfl (Nat.le_refl _) (Nat.le_refl _))

/-- The callee lies below the arguments, so there is something to replace by the result. -/
theorem safe_callNative (hm : m.Within limits) (native : NativeObject) {count : Nat}
    (hcount : count + 1 ≤ m.stack.size) : Safe limits (callNative native count) m := by
  unfold callNative
  split
  · exact .fail hm _
  · have htop : Safe limits (top count) m := by
      apply Safe.get
      split
      · exact .fail hm _
      · exact .pure hm _
    refine htop.bind fun args m' h _ => ?_
    obtain rfl : m = m' := by
      unfold top at h
      obtain ⟨m₁, m₂, hget, h⟩ := run_bind_eq_ok.mp h
      cases hget
      split at h <;> cases h
      rfl
    refine (safe_readClock hm).bind ?_
    rintro reading _ ⟨⟩ hm₁
    apply Safe.get
    rw [if_neg (show ¬ m.stack.size < count + 1 by omega)]
    exact (safe_truncate hm₁ _).bind fun _ _ _ hm₂ => safe_push hm₂ _

theorem safe_callValue (hm : m.Within limits) (callee : Value) {count : Nat} (hcount : count + 1 ≤ m.stack.size) :
    Safe limits (callValue callee count) m := by
  unfold callValue
  split
  · apply Safe.get
    split
    · exact safe_callFunction hm _ _
    · exact safe_callNative hm _ hcount
    · exact .fail hm _
  · exact .fail hm _

theorem safe_returnFrom (hm : m.Within limits) : Safe limits returnFrom m := by
  refine (safe_pop hm).bind fun result m₁ _ hm₁ => .get ?_
  split
  · exact .fail hm₁ _
  · next frame frames hframes =>
      have hlen : frames.length ≤ m₁.frames.length := by
        rw [hframes]
        exact Nat.le_succ _
      refine .bind (.modify (hm₁.congr rfl (Nat.le_refl _) hlen)) fun _ m₂ _ hm₂ => ?_
      refine (safe_truncate hm₂ _).bind fun _ m₃ _ hm₃ => ?_
      split
      · exact .bind (.modify (hm₃.congr rfl (Nat.le_refl _) (Nat.le_refl _))) fun _ _ _ hm₄ => .pure hm₄ _
      · refine (safe_push hm₃ _).bind fun _ m₄ _ hm₄ => ?_
        exact .bind (.modify (hm₄.congr rfl (Nat.le_refl _) (Nat.le_refl _))) fun _ _ _ hm₅ => .pure hm₅ _

/-! ### Operators -/

theorem within_intern (hm : m.Within limits) (chars : String) : (m.intern chars).2.Within limits := by
  unfold intern
  simp only
  split <;> exact hm.congr rfl (Nat.le_refl _) (Nat.le_refl _)

theorem safe_numeric (hm : m.Within limits) (f : Float → Float → Value) : Safe limits (numeric f) m := by
  have hoperands : Safe limits numberOperands m := by
    refine (safe_peek hm 1).bind fun _ _ _ hm₁ => (safe_peek hm₁ 0).bind fun _ _ _ hm₂ => ?_
    split
    · exact .pure hm₂ _
    · exact .fail hm₂ _
  exact hoperands.bind fun _ _ _ hm₁ => (safe_popTwo hm₁).bind fun _ _ _ hm₂ => safe_push hm₂ _

theorem safe_concatenate (hm : m.Within limits) (a b : Handle) : Safe limits (concatenate a b) m := by
  apply Safe.get
  dsimp only
  split
  · exact (safe_popTwo hm).bind fun _ _ _ hm₁ => .bind (.modifyGet (within_intern hm₁ _)) fun _ _ _ hm₂ =>
      safe_push hm₂ _
  · exact .fail hm _

theorem safe_add (hm : m.Within limits) : Safe limits add m := by
  refine (safe_peek hm 1).bind fun _ _ _ hm₁ => (safe_peek hm₁ 0).bind fun _ _ _ hm₂ => ?_
  split
  · exact (safe_popTwo hm₂).bind fun _ _ _ hm₃ => safe_push hm₃ _
  · exact safe_concatenate hm₂ _ _
  · exact .fail hm₂ _

theorem safe_negate (hm : m.Within limits) : Safe limits negate m := by
  refine (safe_peek hm 0).bind fun _ _ _ hm₁ => ?_
  split
  · exact (safe_pop hm₁).bind fun _ _ _ hm₂ => safe_push hm₂ _
  · exact .fail hm₁ _

theorem safe_compareEqual (hm : m.Within limits) (wanted : Bool) : Safe limits (compareEqual wanted) m :=
  (safe_popTwo hm).bind fun _ _ _ hm₁ => safe_push hm₁ _

theorem safe_print (hm : m.Within limits) : Safe limits print m := by
  refine (safe_pop hm).bind fun _ m₁ _ hm₁ => .get ?_
  refine .bind (.modifyGet (hm₁.congr rfl (Nat.le_refl _) (Nat.le_refl _))) fun _ _ _ hm₂ => ?_
  split
  · exact .fail hm₂ _
  · exact .pure hm₂ _

/-! ### Instructions -/

theorem safe_readByte (hm : m.Within limits) : Safe limits readByte m := by
  apply Safe.get
  split
  · exact .fail hm _
  · next frame frames hframes =>
      split
      · exact .fail hm _
      · refine .bind (.modify ?_) fun _ _ _ hm₁ => .pure hm₁ _
        rw [hframes]
        refine hm.congr rfl (Nat.le_refl _) ?_
        rw [hframes]
        exact Nat.le_refl _

theorem safe_readWord (hm : m.Within limits) : Safe limits readWord m :=
  (safe_readByte hm).bind fun _ _ _ hm₁ => (safe_readByte hm₁).bind fun _ _ _ hm₂ => .pure hm₂ _

theorem safe_readSigned (hm : m.Within limits) : Safe limits readSigned m :=
  (safe_readWord hm).bind fun _ _ _ hm₁ => .pure hm₁ _

theorem safe_constant (hm : m.Within limits) (index : Nat) : Safe limits (constant index) m := by
  apply Safe.get
  split
  · exact .pure hm _
  · exact .fail hm _

theorem safe_readName (hm : m.Within limits) : Safe limits readName m := by
  refine (safe_readByte hm).bind fun _ _ _ hm₁ => (safe_constant hm₁ _).bind fun _ _ _ hm₂ => .get ?_
  split
  · exact .pure hm₂ _
  · exact .fail hm₂ _

theorem safe_failUndefined (hm : m.Within limits) (key : Key) : Safe limits (failUndefined key : Execution α) m :=
  .get (.fail hm _)

theorem safe_jump (hm : m.Within limits) (distance : Int) : Safe limits (jump distance) m := by
  apply Safe.get
  split
  · exact .fail hm _
  · next frame frames hframes =>
      dsimp only
      split
      · exact .fail hm _
      · refine .modify (hm.congr rfl (Nat.le_refl _) ?_)
        rw [hframes]
        exact Nat.le_refl _

theorem safe_getGlobal (hm : m.Within limits) : Safe limits getGlobal m := by
  refine (safe_readName hm).bind fun key m₁ _ hm₁ => .get ?_
  split
  · exact safe_push hm₁ _
  · exact safe_failUndefined hm₁ _

theorem safe_defineGlobal (hm : m.Within limits) : Safe limits defineGlobal m := by
  refine (safe_readName hm).bind fun key _ _ hm₁ => (safe_peek hm₁ 0).bind fun value m₂ _ hm₂ => ?_
  refine .bind (.modify (hm₂.congr rfl (Nat.le_refl _) (Nat.le_refl _))) fun _ _ _ hm₃ => ?_
  exact (safe_pop hm₃).bind fun _ _ _ hm₄ => .pure hm₄ _

theorem safe_setGlobal (hm : m.Within limits) : Safe limits setGlobal m := by
  refine (safe_readName hm).bind fun key _ _ hm₁ => (safe_peek hm₁ 0).bind fun value m₂ _ hm₂ => ?_
  refine .bind (.modifyGet (hm₂.congr rfl (Nat.le_refl _) (Nat.le_refl _))) fun isNew _ _ hm₃ => ?_
  split
  · refine .bind (.modify (hm₃.congr rfl (Nat.le_refl _) (Nat.le_refl _))) fun _ _ _ hm₄ => ?_
    exact safe_failUndefined hm₄ _
  · exact .pure hm₃ _

/-- Whatever the operand bytes are, and whatever lies on the stack. -/
theorem safe_execute (hm : m.Within limits) (op : Opcode) : Safe limits (execute op) m := by
  cases op with
  | constant =>
      exact (safe_readByte hm).bind fun _ _ _ hm₁ => (safe_constant hm₁ _).bind fun _ _ _ hm₂ => (safe_push hm₂ _).next
  | constantWide =>
      exact (safe_readWord hm).bind fun _ _ _ hm₁ => (safe_constant hm₁ _).bind fun _ _ _ hm₂ => (safe_push hm₂ _).next
  | pushNil | pushTrue | pushFalse => exact (safe_push hm _).next
  | pop => exact (safe_pop hm).bind fun _ _ _ hm₁ => .pure hm₁ _
  | getLocal =>
      exact (safe_readByte hm).bind fun _ _ _ hm₁ => (safe_getSlot hm₁ _).bind fun _ _ _ hm₂ => (safe_push hm₂ _).next
  | setLocal =>
      exact (safe_readByte hm).bind fun _ _ _ hm₁ => (safe_peek hm₁ _).bind fun _ _ _ hm₂ => (safe_setSlot hm₂ _ _).next
  | getGlobal => exact (safe_getGlobal hm).next
  | defineGlobal => exact (safe_defineGlobal hm).next
  | setGlobal => exact (safe_setGlobal hm).next
  | add => exact (safe_add hm).next
  | subtract | multiply | divide | greater | greaterEqual | less | lessEqual => exact (safe_numeric hm _).next
  | negate => exact (safe_negate hm).next
  | equal | notEqual => exact (safe_compareEqual hm _).next
  | not => exact ((safe_pop hm).bind fun _ _ _ hm₁ => safe_push hm₁ _ : Safe limits negateTruth m).next
  | jump | loop => exact (safe_readSigned hm).bind fun _ _ _ hm₁ => (safe_jump hm₁ _).next
  | jumpIfFalse =>
      refine (safe_readSigned hm).bind fun _ _ _ hm₁ => (safe_peek hm₁ 0).bind fun _ _ _ hm₂ => ?_
      split
      · exact (safe_jump hm₂ _).next
      · exact .pure hm₂ _
  | call =>
      refine (safe_readByte hm).bind fun count _ _ hm₁ => (safe_peek hm₁ count.toNat).bind fun _ m₂ hpeek hm₂ => ?_
      exact (safe_callValue hm₂ _ (size_of_peek hpeek)).next
  | ret => exact safe_returnFrom hm
  | print => exact (safe_print hm).next

theorem safe_step (hm : m.Within limits) : Safe limits step m := by
  refine (safe_readByte hm).bind fun byte _ _ hm₁ => ?_
  split
  · exact safe_execute hm₁ _
  · exact .fail hm₁ _

theorem Safe.after {x : Execution α} (h : Safe limits x m) : (after x m).Within limits := by
  unfold Safe at h
  unfold Execution.after
  split at h
  · next hrun => rwa [hrun]
  · next hrun => rwa [hrun]
  · exact h.elim

theorem Safe.run {x : Execution α} (h : Safe limits x m) :
    ∃ m', m'.Within limits ∧ ((∃ a, x.run m = .ok a m') ∨ ∃ kind, x.run m = .error (.error kind) m') := by
  unfold Safe at h
  split at h
  · next a m' hrun => exact ⟨m', h, .inl ⟨a, hrun⟩⟩
  · next kind m' hrun => exact ⟨m', h, .inr ⟨kind, hrun⟩⟩
  · exact h.elim

end Execution

/-! ### What a host can do -/

namespace Machine

open Execution

/-- The machines that a host can have between any two of its operations, and between any two steps of the runs that
it starts. The functions that it puts on the heap may be anything. -/
inductive Operated (limits : Limits) : Machine → Prop where
  | create (printCode : Bool) (clock : Clock) (journal : Journal) :
      Operated limits (create limits printCode clock journal)
  | native {m : Machine} (h : Operated limits m) (n : NativeObject) : Operated limits (m.defineNative n)
  | text {m : Machine} (h : Operated limits m) (chars : String) : Operated limits (m.intern chars).2
  | function {m : Machine} (h : Operated limits m) (f : FunctionObject) : Operated limits (m.allocate (.function f)).2
  | compile {m m' : Machine} (h : Operated limits m) {source : String} {result : Except CompileError Handle}
      (hc : m.compile source = .ok (result, m')) : Operated limits m'
  | push {m : Machine} (h : Operated limits m) (v : Value) : Operated limits (after (push v) m)
  | pop {m : Machine} (h : Operated limits m) : Operated limits (after pop m)
  | start {m : Machine} (h : Operated limits m) (script : Handle) : Operated limits (m.start script).2
  | step {m : Machine} (h : Operated limits m) : Operated limits (after step m)
  | run {m : Machine} (h : Operated limits m) (script : Handle) (budget : Nat) :
      Operated limits (m.runFunction script budget).2
  | interpret {m m' : Machine} (h : Operated limits m) {source : String} {budget : Nat} {result : Except LoxError Unit}
      (hi : m.interpret source budget = .ok (result, m')) : Operated limits m'
  | resetStack {m : Machine} (h : Operated limits m) : Operated limits m.resetStack
  | free {m : Machine} (h : Operated limits m) : Operated limits m.free.2
  | host {m : Machine} (h : Operated limits m) (output : Output) (clock : Clock) :
      Operated limits { m with output, clock }

/-! ### Runs -/

theorem safe_load {limits : Limits} {m : Machine} (hm : m.Within limits) (script : Handle) :
    Safe limits (load script) m :=
  (safe_push hm _).bind fun _ _ _ hm₁ => safe_callFunction hm₁ _ _

theorem within_haltWith {limits : Limits} {m : Machine} (hm : m.Within limits) (kind : ErrorKind) :
    (m.haltWith kind).2.Within limits := hm.congr rfl (Nat.le_refl _) (Nat.le_refl _)

theorem within_haltOk {limits : Limits} {m : Machine} (hm : m.Within limits) : m.haltOk.2.Within limits := by
  unfold haltOk
  split
  · exact within_haltWith hm _
  · exact hm.congr rfl (Nat.le_refl _) (Nat.le_refl _)

/-- A run is over or paused, and within the limits. -/
def Proceeds (limits : Limits) (p : Progress × Machine) : Prop :=
  p.2.Within limits ∧ (p.1 = .paused ∨ ∃ result, p.1 = .done result)

theorem proceeds_start {limits : Limits} {m : Machine} (hm : m.Within limits) (script : Handle) :
    Proceeds limits (m.start script) := by
  have hbegin : Within limits { m with frames := [], lastValue := .nil } :=
    hm.congr rfl (Nat.le_refl _) (Nat.zero_le _)
  have hload := safe_load hbegin script
  unfold Safe at hload
  unfold start
  split at hload
  · next m' hrun =>
      rw [hrun]
      exact ⟨hload.congr rfl (Nat.le_refl _) (Nat.le_refl _), .inl rfl⟩
  · next kind m' hrun =>
      rw [hrun]
      exact ⟨within_haltWith hload kind, .inr ⟨_, rfl⟩⟩
  · exact hload.elim

/-- What one step keeps, all steps keep. -/
theorem proceeds_resume {limits : Limits} {m : Machine} (hm : m.Within limits) (budget : Nat) :
    Proceeds limits (m.resume budget) := by
  induction budget generalizing m with
  | zero => exact ⟨hm, .inl rfl⟩
  | succ budget ih =>
      have hstep := safe_step hm
      unfold Safe at hstep
      unfold resume
      rw [steps, EStateM.run_bind]
      split at hstep
      · next flow m' hrun =>
          rw [hrun]
          cases flow with
          | next => exact ih hstep
          | halt => exact ⟨within_haltOk hstep, .inr ⟨_, rfl⟩⟩
      · next kind m' hrun =>
          rw [hrun]
          exact ⟨within_haltWith hstep kind, .inr ⟨_, rfl⟩⟩
      · exact hstep.elim

theorem proceeds_runFunction {limits : Limits} {m : Machine} (hm : m.Within limits) (script : Handle) (budget : Nat) :
    Proceeds limits (m.runFunction script budget) := by
  have hstart := proceeds_start hm script
  unfold runFunction
  split
  · next m' heq =>
      rw [heq] at hstart
      exact proceeds_resume hstart.1 budget
  · exact hstart

theorem interpret_eq_ok {m m' : Machine} {source : String} {budget : Nat} {result : Except LoxError Unit}
    (h : m.interpret source budget = .ok (result, m')) :
    (∃ e, m.compile source = .ok (.error e, m') ∧ result = .error (.compile e)) ∨
      ∃ script m₁ r, m.compile source = .ok (.ok script, m₁) ∧ m₁.runFunction script budget = (.done r, m') ∧
        result = r.mapError .runtime := by
  unfold interpret at h
  cases hc : m.compile source with
  | error fault =>
      rw [hc] at h
      cases h
  | ok compiled =>
      obtain ⟨answer, m₁⟩ := compiled
      rw [hc] at h
      cases answer with
      | error e =>
          cases h
          exact .inl ⟨e, rfl, rfl⟩
      | ok script =>
          rcases hrun : m₁.runFunction script budget with ⟨progress, m₂⟩
          have h : (complete (m₁.runFunction script budget) >>= _) = .ok (result, m') := h
          rw [hrun] at h
          cases progress with
          | done r =>
              cases h
              exact .inr ⟨script, m₁, r, rfl, hrun, rfl⟩
          | paused => cases h
          | fault cause => cases h

theorem within_compile {limits : Limits} {m m' : Machine} (hm : m.Within limits) {source : String}
    {result : Except CompileError Handle} (hc : m.compile source = .ok (result, m')) : m'.Within limits := by
  obtain ⟨c, -, -, status, rfl⟩ := compile_eq_ok hc
  exact hm.congr rfl (Nat.le_refl _) (Nat.le_refl _)

theorem within_defineNative {limits : Limits} {m : Machine} (hm : m.Within limits) (n : NativeObject) :
    (m.defineNative n).Within limits := by
  have hmade : ((m.intern n.name).2.allocate (.native n)).2.Within limits :=
    (within_intern hm n.name).congr rfl (Nat.le_refl _) (Nat.le_refl _)
  unfold defineNative
  dsimp only
  split
  · exact hmade.congr rfl (Nat.le_refl _) (Nat.le_refl _)
  · exact hmade

theorem Operated.within {limits : Limits} {m : Machine} (h : m.Operated limits) : m.Within limits := by
  induction h with
  | create printCode clock journal =>
      have hnew : Within limits { limits, printCode, clock, journal } := ⟨rfl, Nat.zero_le _, Nat.zero_le _⟩
      exact within_defineNative hnew _
  | native _ n ih => exact within_defineNative ih n
  | text _ chars ih => exact within_intern ih chars
  | function _ f ih => exact ih.congr rfl (Nat.le_refl _) (Nat.le_refl _)
  | compile _ hc ih => exact within_compile ih hc
  | push _ v ih => exact (safe_push ih v).after
  | pop _ ih => exact (safe_pop ih).after
  | start _ script ih => exact (proceeds_start ih script).1
  | step _ ih => exact (safe_step ih).after
  | run _ script budget ih => exact (proceeds_runFunction ih script budget).1
  | @interpret _ _ _ _ budget _ hi ih =>
      obtain ⟨e, hc, -⟩ | ⟨script, m₁, r, hc, hrun, -⟩ := interpret_eq_ok hi
      · exact within_compile ih hc
      · have hproceeds := (proceeds_runFunction (within_compile ih hc) script budget).1
        rw [hrun] at hproceeds
        exact hproceeds
  | resetStack _ ih => exact ih.congr rfl (Nat.zero_le _) (Nat.zero_le _)
  | free _ ih => exact ih.congr rfl (Nat.zero_le _) (Nat.zero_le _)
  | host _ output clock ih => exact ih.congr rfl (Nat.le_refl _) (Nat.le_refl _)

/-! ### The shared parts -/

theorem byMoves_steps (budget : Nat) : ByMoves (steps budget) := by
  induction budget with
  | zero => exact .throw _
  | succ budget ih =>
      refine .bind byMoves_step fun flow => ?_
      cases flow with
      | next => exact ih
      | halt => exact .pure _

theorem moves_haltOk (m : Machine) : Moves m m.haltOk.2 := by
  unfold haltOk
  split <;> exact .own _ rfl rfl

theorem moves_start (m : Machine) (script : Handle) : Moves m (m.start script).2 := by
  have hload : ByMoves (load script) := .bind (byMoves_push _) fun _ => byMoves_callFunction _ _
  have hmoves := hload { m with frames := [], lastValue := .nil }
  unfold Execution.after at hmoves
  refine .trans (.own { m with frames := [], lastValue := .nil } rfl rfl) ?_
  unfold start
  split
  · next m' hrun =>
      rw [hrun] at hmoves
      exact hmoves.trans (.own _ rfl rfl)
  · next kind m' hrun =>
      rw [hrun] at hmoves
      exact hmoves.trans (.own _ rfl rfl)
  · next cause m' hrun =>
      rw [hrun] at hmoves
      exact hmoves

theorem moves_resume (m : Machine) (budget : Nat) : Moves m (m.resume budget).2 := by
  have hmoves := byMoves_steps budget m
  unfold Execution.after at hmoves
  unfold resume
  split
  · next m' hrun =>
      rw [hrun] at hmoves
      exact hmoves.trans (moves_haltOk m')
  · next kind m' hrun =>
      rw [hrun] at hmoves
      exact hmoves.trans (.own _ rfl rfl)
  · next m' hrun =>
      rw [hrun] at hmoves
      exact hmoves
  · next cause m' hrun =>
      rw [hrun] at hmoves
      exact hmoves

theorem moves_runFunction (m : Machine) (script : Handle) (budget : Nat) : Moves m (m.runFunction script budget).2 := by
  have hstart := moves_start m script
  unfold runFunction
  split
  · next m' heq =>
      rw [heq] at hstart
      exact hstart.trans (moves_resume m' budget)
  · exact hstart

theorem sound_compile {m m' : Machine} (hm : m.Sound) {source : String} {result : Except CompileError Handle}
    (hc : m.compile source = .ok (result, m')) : m'.Sound := by
  obtain ⟨hgrows, hsame, -⟩ := compile_frame hc
  exact hm.grow hgrows hsame

theorem Operated.sound {limits : Limits} {m : Machine} (h : m.Operated limits) : m.Sound := by
  induction h with
  | create printCode clock journal => exact (sound_new ..).defineNative _
  | native _ n ih => exact ih.defineNative n
  | text _ chars ih => exact ih.moves (moves_intern _ chars)
  | function _ f ih => exact ih.grow (Heap.grows_allocate _ fun _ => nofun) rfl
  | compile _ hc ih => exact sound_compile ih hc
  | push _ v ih => exact ih.moves (byMoves_push v _)
  | pop _ ih => exact ih.moves (byMoves_pop _)
  | start _ script ih => exact ih.moves (moves_start _ script)
  | step _ ih => exact ih.moves (byMoves_step _)
  | run _ script budget ih => exact ih.moves (moves_runFunction _ script budget)
  | @interpret _ _ _ _ budget _ hi ih =>
      obtain ⟨e, hc, -⟩ | ⟨script, m₁, r, hc, hrun, -⟩ := interpret_eq_ok hi
      · exact sound_compile ih hc
      · have hmoves := moves_runFunction m₁ script budget
        rw [hrun] at hmoves
        exact (sound_compile ih hc).moves hmoves
  | resetStack _ ih => exact ih.grow (.refl _) rfl
  | free _ _ => exact sound_free _
  | host _ output clock ih => exact ih.grow (.refl _) rfl

/-- **Safety.** Whatever a host has done with a machine, whatever code it has put there, and wherever a run stands:
the machine is within its limits; its next step goes on, is the last one or is a runtime error, and ends within the
limits; a slot that the step accesses lies on the stack; each probe of the tables ends at one of their slots; and a
run of any function is over or paused. -/
theorem Operated.safe {limits : Limits} {m : Machine} (h : m.Operated limits) :
    m.Within limits ∧
      (∃ m', m'.Within limits ∧
        ((∃ flow, Execution.step.run m = .ok flow m') ∨ ∃ kind, Execution.step.run m = .error (.error kind) m')) ∧
      (∀ slot i m', (slotIndex slot).run m = .ok i m' → i < m.stack.size) ∧
      m.globals.Probed ∧ m.heap.strings.Probed ∧
      ∀ script budget, (m.runFunction script budget).2.Within limits ∧
        ((m.runFunction script budget).1 = .paused ∨ ∃ result, (m.runFunction script budget).1 = .done result) :=
  ⟨h.within, (safe_step h.within).run, fun _ _ _ hslot => (lt_of_slotIndex hslot).2, h.sound.globals.probed,
    h.sound.heap.table.probed, proceeds_runFunction h.within⟩

/-- Code that drops its own function and then one value more. -/
def droppingTooMuch : FunctionObject :=
  { arity := 0, chunk := (Chunk.empty.writeOp .pop 1).writeOp .pop 1, name := none }

/-- A machine with room for one value and one call that has dropped the function it executes. -/
def afterDropping : Machine :=
  after step (((create ⟨1, 1⟩ false 0 .silent).allocate (.function droppingTooMuch)).2.start ⟨2⟩).2

/-- Code that drops too much ends with an error, and the machine is still within its limits. -/
theorem safe_after_dropping : afterDropping.Operated ⟨1, 1⟩ ∧
    ∃ m', m'.Within ⟨1, 1⟩ ∧ Execution.step.run afterDropping = .error (.error .stackUnderflow) m' := by
  have hop : afterDropping.Operated ⟨1, 1⟩ := .step (.start (.function (.create ..) _) _)
  have hstep : (match Execution.step.run afterDropping with
      | .error (.error .stackUnderflow) _ => true
      | _ => false) = true := by decide +kernel
  obtain ⟨-, ⟨m', hwithin, ⟨flow, hok⟩ | ⟨kind, herror⟩⟩, -⟩ := Operated.safe hop
  · rw [hok] at hstep
    cases hstep
  · rw [herror] at hstep
    split at hstep
    · next heq =>
        cases heq
        exact ⟨hop, m', hwithin, herror⟩
    · cases hstep

end Machine

end Lox
