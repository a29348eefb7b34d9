import Lox.Proofs.Machine.Failures

/-! Machines under other bounds. A machine looks at its limits only to see whether it is full, and at its output only to
write to it. So under limits that are tighter it does the same as without them, step by step, until one of its steps
overflows; and whatever becomes of the output, it does the same as long as the output takes what is printed. -/

namespace Lox

/-- Limits, and what becomes of an output. -/
structure Bounds where
  limits : Limits
  output : Output → Output

namespace Machine

/-- The machine under other bounds. -/
def under (b : Bounds) (m : Machine) : Machine := { m with limits := b.limits, output := b.output m.output }

end Machine

namespace Bounds

/-- The limits leave no more room than a machine has. -/
structure Tighten (b : Bounds) (m : Machine) : Prop where
  stackMax : b.limits.stackMax ≤ m.limits.stackMax
  framesMax : b.limits.framesMax ≤ m.limits.framesMax

theorem Tighten.of_eq {b : Bounds} {m : Machine} (h : b.limits = m.limits) : b.Tighten m :=
  ⟨h ▸ Nat.le_refl _, h ▸ Nat.le_refl _⟩

theorem Tighten.congr {b : Bounds} {m m' : Machine} (h : b.Tighten m) (hl : m'.limits = m.limits) : b.Tighten m' :=
  ⟨hl ▸ h.stackMax, hl ▸ h.framesMax⟩

/-- The output takes each text just as it would without the bounds. -/
def Transparent (b : Bounds) : Prop :=
  ∀ o text, (b.output o).write text = (b.output (o.write text).1, (o.write text).2)

/-- Flushing fails under the bounds just when it fails without them. -/
def Flushes (b : Bounds) : Prop := ∀ o, (b.output o).flushFails = o.flushFails

end Bounds

open Machine

/-- What an execution comes to without bounds and under bounds: the same, except that it may overflow under limits that
are really other ones. -/
inductive Echoes {α : Type} (b : Bounds) (m : Machine) :
    EStateM.Result Stop Machine α → EStateM.Result Stop Machine α → Prop where
  | ok (a : α) (n : Machine) (hl : n.limits = m.limits) : Echoes b m (.ok a n) (.ok a (n.under b))
  | error (stop : Stop) (n : Machine) (hl : n.limits = m.limits) : Echoes b m (.error stop n) (.error stop (n.under b))
  | overflow (r : EStateM.Result Stop Machine α) (n : Machine) (hne : b.limits ≠ m.limits) :
      Echoes b m r (.error (.error .stackOverflow) n)

theorem Echoes.congr {α : Type} {b : Bounds} {m m' : Machine} {r r' : EStateM.Result Stop Machine α}
    (h : Echoes b m r r') (hl : m.limits = m'.limits) : Echoes b m' r r' := by
  cases h with
  | ok a n hn => exact .ok a n (hn.trans hl)
  | error stop n hn => exact .error stop n (hn.trans hl)
  | overflow r n hne => exact .overflow r n (hl ▸ hne)

/-- What an execution comes to, with its machine under bounds. -/
def Bounds.result {α : Type} (b : Bounds) : EStateM.Result Stop Machine α → EStateM.Result Stop Machine α
  | .ok a n => .ok a (n.under b)
  | .error stop n => .error stop (n.under b)

/-- Where the limits are the same there is no overflow of its own. -/
theorem Echoes.eq_result {α : Type} {b : Bounds} {m : Machine} {r r' : EStateM.Result Stop Machine α}
    (h : Echoes b m r r') (hl : b.limits = m.limits) : r' = b.result r := by
  cases h with
  | ok a n _ => rfl
  | error stop n _ => rfl
  | overflow r n hne => exact absurd hl hne

namespace Execution

variable {α β : Type} {b : Bounds} {m : Machine}

theorem echoes_of_eq_result {x : Execution α} (h : x.run (m.under b) = b.result (x.run m))
    (hl : (after x m).limits = m.limits) : Echoes b m (x.run m) (x.run (m.under b)) := by
  rw [h]
  unfold after at hl
  cases hrun : x.run m with
  | ok a n =>
      rw [hrun] at hl
      exact .ok a n hl
  | error stop n =>
      rw [hrun] at hl
      exact .error stop n hl

/-- Under tighter bounds the execution comes to the same or overflows. -/
def Bounded (b : Bounds) (x : Execution α) : Prop :=
  ∀ m : Machine, b.Tighten m → Echoes b m (x.run m) (x.run (m.under b))

namespace Bounded

/-- The first part at one machine, and the second part wherever the first part has led. -/
theorem bind_at {x : Execution α} {f : α → Execution β} (ht : b.Tighten m)
    (hx : Echoes b m (x.run m) (x.run (m.under b)))
    (hf : ∀ a n, x.run m = .ok a n → b.Tighten n → Echoes b n ((f a).run n) ((f a).run (n.under b))) :
    Echoes b m ((x >>= f).run m) ((x >>= f).run (m.under b)) := by
  rw [EStateM.run_bind, EStateM.run_bind]
  generalize hr : x.run m = r at hx
  generalize x.run (m.under b) = r' at hx
  cases hx with
  | ok a n hl => exact (hf a n hr (ht.congr hl)).congr hl
  | error stop n hl => exact .error stop n hl
  | overflow r n hne => exact .overflow _ n hne

theorem bind {x : Execution α} {f : α → Execution β} (hx : Bounded b x) (hf : ∀ a, Bounded b (f a)) :
    Bounded b (x >>= f) :=
  fun m ht => bind_at ht (hx m ht) fun a n _ => hf a n

theorem pure (a : α) : Bounded b (pure a : Execution α) := fun m _ => .ok a m rfl

theorem throw (stop : Stop) : Bounded b (throw stop : Execution α) := fun m _ => .error stop m rfl

theorem fail (kind : ErrorKind) : Bounded b (fail kind : Execution α) := fun m _ => .error _ m rfl

/-- What follows does not look at the bounds. -/
theorem get {f : Machine → Execution α} (hblind : ∀ m : Machine, f (m.under b) = f m) (hf : ∀ m, Bounded b (f m)) :
    Bounded b (get >>= f) := by
  intro m ht
  have hrun : ∀ n : Machine, (MonadState.get >>= f).run n = (f n).run n := fun _ => rfl
  rw [hrun, hrun, hblind]
  exact hf m m ht

theorem modifyGet {g : Machine → α × Machine} (hg : ∀ m : Machine, g (m.under b) = ((g m).1, (g m).2.under b))
    (hl : ∀ m, (g m).2.limits = m.limits) : Bounded b (modifyGet g : Execution α) := by
  intro m _
  have hrun : ∀ n : Machine, (MonadState.modifyGet g : Execution α).run n = .ok (g n).1 (g n).2 := fun _ => rfl
  rw [hrun, hrun, hg]
  exact .ok _ _ (hl m)

theorem modify {g : Machine → Machine} (hg : ∀ m : Machine, g (m.under b) = (g m).under b)
    (hl : ∀ m, (g m).limits = m.limits) : Bounded b (modify g : Execution PUnit) :=
  modifyGet (fun m => Prod.ext rfl (hg m)) hl

theorem ite {p : Prop} [Decidable p] {x y : Execution α} (hx : Bounded b x) (hy : Bounded b y) :
    Bounded b (if p then x else y) := by
  split
  · exact hx
  · exact hy

theorem next {x : Execution Unit} (hx : Bounded b x) : Bounded b (do x; return Flow.next) := hx.bind fun _ => .pure _

end Bounded

/-! ### Stack and calls -/

theorem bounded_push (v : Value) : Bounded b (push v) := by
  intro m ht
  have hrun : ∀ n : Machine, (push v).run n = if n.limits.stackMax ≤ n.stack.size then .error (.error .stackOverflow) n
      else .ok () { n with stack := n.stack.push v } := by
    intro n
    unfold push
    rw [run_bind_of_ok (EStateM.run_get _)]
    split <;> rfl
  rw [hrun, hrun]
  by_cases hfull : m.limits.stackMax ≤ m.stack.size
  · have hover : (m.under b).limits.stackMax ≤ (m.under b).stack.size := ht.stackMax.trans hfull
    rw [if_pos hfull, if_pos hover]
    exact .error _ m rfl
  · rw [if_neg hfull]
    split
    · next hover => exact .overflow _ _ fun heq => hfull (heq ▸ hover)
    · exact .ok () { m with stack := m.stack.push v } rfl

theorem bounded_pop : Bounded b pop := by
  refine .get (fun _ => rfl) fun m => ?_
  split
  · exact .fail _
  · exact .bind (.modify (fun _ => rfl) fun _ => rfl) fun _ => .pure _

theorem bounded_popTwo : Bounded b popTwo := bounded_pop.bind fun _ => bounded_pop.bind fun _ => .pure _

theorem bounded_peek (distance : Nat) : Bounded b (peek distance) := by
  refine .get (fun _ => rfl) fun m => .ite (.fail _) ?_
  split
  · exact .pure _
  · exact .throw _

theorem bounded_top (count : Nat) : Bounded b (top count) := .get (fun _ => rfl) fun _ => .ite (.fail _) (.pure _)

theorem bounded_truncate (size : Nat) : Bounded b (truncate size) := .modify (fun _ => rfl) fun _ => rfl

theorem bounded_slotIndex (slot : Nat) : Bounded b (slotIndex slot) := by
  refine .get (fun _ => rfl) fun m => ?_
  split
  · exact .fail _
  · exact .ite (.pure _) (.fail _)

theorem bounded_getSlot (slot : Nat) : Bounded b (getSlot slot) := by
  refine (bounded_slotIndex slot).bind fun index => .get (fun _ => rfl) fun m => ?_
  split
  · exact .pure _
  · exact .throw _

theorem bounded_setSlot (slot : Nat) (v : Value) : Bounded b (setSlot slot v) :=
  (bounded_slotIndex slot).bind fun _ => .modify (fun _ => rfl) fun _ => rfl

/-- Whether a call overflows is asked after its arity has been checked, and before anything is changed. -/
theorem bounded_callFunction (handle : Handle) (count : Nat) : Bounded b (callFunction handle count) := by
  intro m ht
  unfold callFunction
  rw [run_bind_of_ok (EStateM.run_get m), run_bind_of_ok (EStateM.run_get (m.under b))]
  have hheap : (m.under b).heap.function? handle = m.heap.function? handle := rfl
  rw [hheap]
  cases m.heap.function? handle with
  | none => exact .error _ m rfl
  | some f =>
      dsimp only
      by_cases harity : count ≠ f.arity
      · rw [if_pos harity, if_pos harity]
        exact .error _ m rfl
      · rw [if_neg harity, if_neg harity]
        by_cases hfull : m.limits.framesMax ≤ m.frames.length
        · have hover : (m.under b).limits.framesMax ≤ (m.under b).frames.length := ht.framesMax.trans hfull
          rw [if_pos hfull, if_pos hover]
          exact .error _ m rfl
        · rw [if_neg hfull]
          by_cases hover : (m.under b).limits.framesMax ≤ (m.under b).frames.length
          · rw [if_pos hover]
            exact .overflow _ _ fun heq => hfull (heq ▸ hover)
          · rw [if_neg hover]
            by_cases hlow : m.stack.size < count + 1
            · have hlow' : (m.under b).stack.size < count + 1 := hlow
              rw [if_pos hlow, if_pos hlow']
              exact .error _ m rfl
            · have hlow' : ¬ (m.under b).stack.size < count + 1 := hlow
              rw [if_neg hlow, if_neg hlow']
              let base := m.stack.size - (count + 1)
              let n := { m with frames := ⟨handle, 0, base⟩ :: m.frames }.record (.called (m.frames.length + 1) base)
              show Echoes b m (.ok () n) (.ok () (n.under b))
              exact .ok () n rfl

theorem bounded_readClock : Bounded b readClock := .modifyGet (fun _ => rfl) fun _ => rfl

theorem bounded_callNative (native : NativeObject) (count : Nat) : Bounded b (callNative native count) :=
  .ite (.fail _) ((bounded_top count).bind fun _ => bounded_readClock.bind fun _ => .get (fun _ => rfl) fun _ =>
    .ite (.throw _) ((bounded_truncate _).bind fun _ => bounded_push _))

theorem bounded_callValue (callee : Value) (count : Nat) : Bounded b (callValue callee count) := by
  unfold callValue
  split
  · refine .get (fun _ => rfl) fun m => ?_
    split
    · exact bounded_callFunction _ _
    · exact bounded_callNative _ _
    · exact .fail _
  · exact .fail _

theorem bounded_returnFrom : Bounded b returnFrom := by
  refine bounded_pop.bind fun result => .get (fun _ => rfl) fun m => ?_
  split
  · exact .fail _
  · refine .bind (.modify (fun _ => rfl) fun _ => rfl) fun _ => (bounded_truncate _).bind fun _ => .ite ?_ ?_
    · exact .bind (.modify (fun _ => rfl) fun _ => rfl) fun _ => .pure _
    · exact (bounded_push _).bind fun _ => .bind (.modify (fun _ => rfl) fun _ => rfl) fun _ => .pure _

/-! ### Operators -/

theorem bounded_numberOperands : Bounded b numberOperands := by
  refine (bounded_peek 1).bind fun x => (bounded_peek 0).bind fun y => ?_
  split
  · exact .pure _
  · exact .fail _

theorem bounded_numeric (f : Float → Float → Value) : Bounded b (numeric f) :=
  bounded_numberOperands.bind fun _ => bounded_popTwo.bind fun _ => bounded_push _

theorem bounded_intern (chars : String) : Bounded b (modifyGet (·.intern chars)) := by
  have hintern : ∀ m : Machine, m.intern chars = ((m.heap.intern chars).2, { m with
      heap := (m.heap.intern chars).1
      journal := if m.heap.live < (m.heap.intern chars).1.live then
        m.journal.record (.allocated (m.heap.intern chars).2) else m.journal }) := by
    intro m
    by_cases hnew : m.heap.live < (m.heap.intern chars).1.live <;> simp [intern, hnew, record]
  refine .modifyGet (fun m => ?_) fun m => ?_
  · rw [hintern, hintern]
    rfl
  · rw [hintern]

theorem bounded_concatenate (x y : Handle) : Bounded b (concatenate x y) := by
  refine .get (fun _ => rfl) fun m => ?_
  dsimp only
  split
  · exact bounded_popTwo.bind fun _ => (bounded_intern _).bind fun _ => bounded_push _
  · exact .fail _

theorem bounded_add : Bounded b add := by
  refine (bounded_peek 1).bind fun x => (bounded_peek 0).bind fun y => ?_
  split
  · exact bounded_popTwo.bind fun _ => bounded_push _
  · exact bounded_concatenate _ _
  · exact .fail _

theorem bounded_negate : Bounded b negate := by
  refine (bounded_peek 0).bind fun x => ?_
  split
  · exact bounded_pop.bind fun _ => bounded_push _
  · exact .fail _

theorem bounded_compareEqual (wanted : Bool) : Bounded b (compareEqual wanted) :=
  bounded_popTwo.bind fun _ => bounded_push _

theorem bounded_negateTruth : Bounded b negateTruth := bounded_pop.bind fun _ => bounded_push _

/-- The output is asked whether it took the whole line. -/
theorem bounded_print (hb : b.Transparent) : Bounded b print := by
  refine bounded_pop.bind fun value => .get (fun _ => rfl) fun m => .bind (.modifyGet (fun n => ?_) fun _ => rfl)
    fun complete => .ite (.fail _) (.pure _)
  have hwrite : (n.under b).output.write (m.display value ++ "\n") = _ := hb n.output _
  simp only [hwrite]
  rfl

/-! ### Instructions -/

theorem bounded_readByte : Bounded b readByte := by
  refine .get (fun _ => rfl) fun m => ?_
  split
  · exact .fail _
  · split
    · exact .fail _
    · refine .bind (.modify (fun m => ?_) fun m => ?_) fun _ => .pure _
      · obtain ⟨stack, frames⟩ := m
        cases frames <;> rfl
      · split <;> rfl

theorem bounded_readWord : Bounded b readWord := bounded_readByte.bind fun _ => bounded_readByte.bind fun _ => .pure _

theorem bounded_readSigned : Bounded b readSigned := bounded_readWord.bind fun _ => .pure _

theorem bounded_constant (index : Nat) : Bounded b (constant index) := by
  refine .get (fun _ => rfl) fun m => ?_
  split
  · exact .pure _
  · exact .fail _

theorem bounded_readName : Bounded b readName := by
  refine bounded_readByte.bind fun index => (bounded_constant _).bind fun value => .get (fun _ => rfl) fun m => ?_
  split
  · exact .pure _
  · exact .fail _

theorem bounded_failUndefined (key : Key) : Bounded b (failUndefined key : Execution α) :=
  .get (fun _ => rfl) fun _ => .fail _

theorem bounded_jump (distance : Int) : Bounded b (jump distance) := by
  refine .get (fun _ => rfl) fun m => ?_
  split
  · exact .fail _
  · exact .ite (.fail _) (.modify (fun _ => rfl) fun _ => rfl)

theorem bounded_getGlobal : Bounded b getGlobal := by
  refine bounded_readName.bind fun key => .get (fun _ => rfl) fun m => ?_
  split
  · exact bounded_push _
  · exact bounded_failUndefined _

theorem bounded_defineGlobal : Bounded b defineGlobal :=
  bounded_readName.bind fun _ => (bounded_peek 0).bind fun _ => .bind (.modify (fun _ => rfl) fun _ => rfl) fun _ =>
    bounded_pop.bind fun _ => .pure _

theorem bounded_setGlobal : Bounded b setGlobal := by
  refine bounded_readName.bind fun key => (bounded_peek 0).bind fun value => .bind (fun m _ => .ok _ _ rfl)
    fun isNew => ?_
  exact .ite (.bind (.modify (fun _ => rfl) fun _ => rfl) fun _ => bounded_failUndefined _) (.pure _)

/-- Only printing asks anything of the output. -/
theorem bounded_execute {op : Opcode} (hb : op = .print → b.Transparent) : Bounded b (execute op) := by
  cases op with
  | constant => exact bounded_readByte.bind fun _ => (bounded_constant _).bind fun _ => .next (bounded_push _)
  | constantWide => exact bounded_readWord.bind fun _ => (bounded_constant _).bind fun _ => .next (bounded_push _)
  | pushNil | pushTrue | pushFalse => exact .next (bounded_push _)
  | pop => exact bounded_pop.bind fun _ => .pure _
  | getLocal => exact bounded_readByte.bind fun _ => (bounded_getSlot _).bind fun _ => .next (bounded_push _)
  | setLocal => exact bounded_readByte.bind fun _ => (bounded_peek 0).bind fun _ => .next (bounded_setSlot _ _)
  | getGlobal => exact .next bounded_getGlobal
  | defineGlobal => exact .next bounded_defineGlobal
  | setGlobal => exact .next bounded_setGlobal
  | add => exact .next bounded_add
  | subtract | multiply | divide | greater | greaterEqual | less | lessEqual => exact .next (bounded_numeric _)
  | negate => exact .next bounded_negate
  | equal | notEqual => exact .next (bounded_compareEqual _)
  | not => exact .next bounded_negateTruth
  | jump | loop => exact bounded_readSigned.bind fun _ => .next (bounded_jump _)
  | jumpIfFalse =>
      exact bounded_readSigned.bind fun _ => (bounded_peek 0).bind fun _ => .ite (.next (bounded_jump _)) (.pure _)
  | call => exact bounded_readByte.bind fun _ => (bounded_peek _).bind fun _ => .next (bounded_callValue _ _)
  | ret => exact bounded_returnFrom
  | print => exact .next (bounded_print (hb rfl))

/-- One step of a machine, as long as that is not to print, or the output is left to take what it would take. -/
theorem echoes_step (ht : b.Tighten m) (hb : m.opcode? = some .print → b.Transparent) :
    Echoes b m (step.run m) (step.run (m.under b)) := by
  refine Bounded.bind_at ht (bounded_readByte m ht) fun byte n hread hn => ?_
  cases hop : Opcode.ofByte? byte with
  | none => exact .error _ n rfl
  | some op => exact bounded_execute (fun hprint => hb ((opcode?_of_readByte hread).1.trans (hprint ▸ hop))) n hn

theorem bounded_step (hb : b.Transparent) : Bounded b step := fun _ ht => echoes_step ht fun _ => hb

/-- What holds of a step holds of a run. -/
theorem bounded_steps (hb : b.Transparent) (budget : Nat) : Bounded b (steps budget) := by
  induction budget with
  | zero => exact .throw _
  | succ budget ih =>
      refine (bounded_step hb).bind fun flow => ?_
      cases flow with
      | halt => exact .pure _
      | next => exact ih

theorem bounded_load (script : Handle) : Bounded b (load script) :=
  (bounded_push _).bind fun _ => bounded_callFunction _ _

end Execution

/-! ### Runs -/

/-- What a run comes to without bounds and under bounds. -/
inductive RunEchoes (b : Bounds) (m : Machine) : Progress × Machine → Progress × Machine → Prop where
  | same (progress : Progress) (n : Machine) (hl : n.limits = m.limits) :
      RunEchoes b m (progress, n) (progress, n.under b)
  | overflow (r : Progress × Machine) (e : RuntimeError) (n : Machine) (hne : b.limits ≠ m.limits)
      (hkind : e.kind = .stackOverflow) : RunEchoes b m r (.done (.error e), n)

theorem RunEchoes.congr {b : Bounds} {m m' : Machine} {r r' : Progress × Machine} (h : RunEchoes b m r r')
    (hl : m.limits = m'.limits) : RunEchoes b m' r r' := by
  cases h with
  | same progress n hn => exact .same progress n (hn.trans hl)
  | overflow r e n hne hkind => exact .overflow r e n (hl ▸ hne) hkind

theorem RunEchoes.eq_under {b : Bounds} {m : Machine} {r r' : Progress × Machine} (h : RunEchoes b m r r')
    (hl : b.limits = m.limits) : r' = (r.1, r.2.under b) := by
  cases h with
  | same progress n _ => rfl
  | overflow r e n hne _ => exact absurd hl hne

namespace Machine

variable {b : Bounds} {m : Machine}

open Execution

theorem runEchoes_start (ht : b.Tighten m) (script : Handle) :
    RunEchoes b m (m.start script) ((m.under b).start script) := by
  have hload := bounded_load script { m with frames := [], lastValue := .nil } (ht.congr rfl)
  unfold start
  change Echoes b _ _ ((load script).run { m.under b with frames := [], lastValue := .nil }) at hload
  generalize (load script).run { m with frames := [], lastValue := .nil } = r at hload
  generalize (load script).run { m.under b with frames := [], lastValue := .nil } = r' at hload
  cases hload with
  | ok a n hl => exact .same _ _ hl
  | error stop n hl =>
      cases stop with
      | error kind => exact .same _ _ hl
      | fault cause => exact .same _ _ hl
  | overflow r n hne => exact .overflow _ _ _ hne rfl

/-- A run comes to what its steps come to. -/
theorem runEchoes_resume {budget : Nat} (hflush : b.Flushes)
    (hsteps : Echoes b m ((steps budget).run m) ((steps budget).run (m.under b))) :
    RunEchoes b m (m.resume budget) ((m.under b).resume budget) := by
  unfold resume
  generalize (steps budget).run m = r at hsteps
  generalize (steps budget).run (m.under b) = r' at hsteps
  cases hsteps with
  | ok a n hl =>
      have hhalt : (n.under b).haltOk = (n.haltOk.1, n.haltOk.2.under b) ∧ n.haltOk.2.limits = n.limits := by
        have heq : (n.under b).output.flushFails = n.output.flushFails := hflush n.output
        unfold haltOk
        rw [heq]
        split <;> exact ⟨rfl, rfl⟩
      dsimp only
      rw [hhalt.1]
      exact .same _ _ (hhalt.2.trans hl)
  | error stop n hl =>
      cases stop with
      | error kind => exact .same _ _ hl
      | fault cause => cases cause <;> exact .same _ _ hl
  | overflow r n hne => exact .overflow _ _ _ hne rfl

/-- Under tighter limits, and with an output that takes what it would take without them, a run comes to the same or
overflows. -/
theorem runEchoes_runFunction (ht : b.Tighten m) (hb : b.Transparent) (hflush : b.Flushes) (script : Handle)
    (budget : Nat) : RunEchoes b m (m.runFunction script budget) ((m.under b).runFunction script budget) := by
  have hstart := runEchoes_start ht script
  unfold runFunction
  generalize m.start script = r at hstart
  generalize (m.under b).start script = r' at hstart
  cases hstart with
  | same progress n hl =>
      cases progress with
      | paused => exact (runEchoes_resume hflush (bounded_steps hb budget n (ht.congr hl))).congr hl
      | done result => exact .same _ n hl
      | fault cause => exact .same _ n hl
  | overflow r e n hne hkind => exact .overflow _ e n hne hkind

/-- A run would come to the same under the limits that it has, so it has them still at the end. -/
theorem limits_runFunction (m : Machine) (script : Handle) (budget : Nat) :
    (m.runFunction script budget).2.limits = m.limits := by
  have hself : m.runFunction script budget =
      ((m.runFunction script budget).1, (m.runFunction script budget).2.under ⟨m.limits, id⟩) :=
    (runEchoes_runFunction (b := ⟨m.limits, id⟩) (.of_eq rfl) (fun _ _ => rfl)
      (fun _ => rfl) script budget).eq_under rfl
  rw [hself]
  rfl

/-! ### More room -/

/-- **More room changes nothing.** Whatever code a function has, a run of it that is over and has not overflowed comes
to the same on a machine with higher limits: the same result, the same error with the same trace, and the same machine
but for its limits. -/
theorem runFunction_of_higher_limits {m n : Machine} {limits : Limits} {script : Handle} {budget : Nat}
    {result : Except RuntimeError Unit} (hstack : m.limits.stackMax ≤ limits.stackMax)
    (hframes : m.limits.framesMax ≤ limits.framesMax) (hrun : m.runFunction script budget = (.done result, n))
    (hfits : ∀ e, result = .error e → e.kind ≠ .stackOverflow) :
    { m with limits }.runFunction script budget = (.done result, { n with limits }) := by
  have hechoes := runEchoes_runFunction (b := ⟨m.limits, id⟩) (m := { m with limits }) ⟨hstack, hframes⟩
    (fun _ _ => rfl) (fun _ => rfl) script budget
  have hback : ({ m with limits } : Machine).under ⟨m.limits, id⟩ = m := rfl
  rw [hback, hrun] at hechoes
  generalize ({ m with limits } : Machine).runFunction script budget = r at hechoes ⊢
  cases hechoes with
  | same progress n hl =>
      obtain rfl : n.limits = limits := hl
      rfl
  | overflow r e n hne hkind => exact absurd hkind (hfits e rfl)

/-- A function that puts one value above itself, and returns it. -/
def returningNil : FunctionObject :=
  { arity := 0, chunk := (Chunk.empty.writeOp .pushNil 1).writeOp .ret 1, name := none }

/-- A machine with a function that needs room for two values and one call. -/
def beforeReturning (limits : Limits) : Machine :=
  ((create limits false 0 .silent).allocate (.function returningNil)).2

/-- Where there is just room enough the function returns, and so it does where there is more room. -/
theorem more_room_for_returning : ∃ n, (beforeReturning ⟨2, 1⟩).runFunction ⟨2⟩ 2 = (.done (.ok ()), n) ∧
    (beforeReturning ⟨2, 1⟩).limits.stackMax ≤ 3 ∧ (beforeReturning ⟨2, 1⟩).limits.framesMax ≤ 1 ∧
    { beforeReturning ⟨2, 1⟩ with limits := ⟨3, 1⟩ }.runFunction ⟨2⟩ 2 =
    (.done (.ok ()), { n with limits := ⟨3, 1⟩ }) := by
  have hdone : (match ((beforeReturning ⟨2, 1⟩).runFunction ⟨2⟩ 2).1 with
      | .done (.ok ()) => true
      | _ => false) = true := by decide +kernel
  generalize hrun : (beforeReturning ⟨2, 1⟩).runFunction ⟨2⟩ 2 = r at hdone
  obtain ⟨progress, n⟩ := r
  split at hdone
  · next heq =>
      obtain rfl : progress = _ := heq
      exact ⟨n, rfl, by decide, by decide, runFunction_of_higher_limits (by decide) (by decide) hrun nofun⟩
  · cases hdone

end Machine

end Lox
