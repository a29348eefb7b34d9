import Lox.Proofs.Twins.Steps

/-! What an instruction does to the active calls. An instruction that has been read with its operand works on values;
only a jump moves the pointer of the innermost call, only a call makes another one, and only a return ends it. -/

namespace Lox

namespace Execution

variable {α β γ : Type} {g : Machine → γ}

/-! ### What is left alone -/

/-- What is read off a machine has nothing to do with values and objects, nor with the clock and with what was printed
and recorded. -/
structure Aside (g : Machine → γ) : Prop where
  stack : ∀ m stack, g { m with stack } = g m
  heap : ∀ m heap, g { m with heap } = g m
  globals : ∀ m globals, g { m with globals } = g m
  clock : ∀ m clock, g { m with clock } = g m
  output : ∀ m output, g { m with output } = g m
  journal : ∀ m journal, g { m with journal } = g m

theorem aside_frames : Aside Machine.frames :=
  ⟨fun _ _ => rfl, fun _ _ => rfl, fun _ _ => rfl, fun _ _ => rfl, fun _ _ => rfl, fun _ _ => rfl⟩

/-- The execution leaves alone what is read off the machine. -/
def Preserves (g : Machine → γ) (x : Execution α) : Prop := ∀ m, g (after x m) = g m

namespace Preserves

theorem bind {x : Execution α} {f : α → Execution β} (hx : Preserves g x) (hf : ∀ a, Preserves g (f a)) :
    Preserves g (x >>= f) := by
  intro m
  have hm := hx m
  rw [after_bind]
  unfold after at hm
  split
  · next a n h =>
      rw [h] at hm
      exact (hf a n).trans hm
  · next stop n h =>
      rw [h] at hm
      exact hm

theorem pure (a : α) : Preserves g (pure a : Execution α) := fun _ => rfl

theorem throw (stop : Stop) : Preserves g (throw stop : Execution α) := fun _ => rfl

theorem fail (kind : ErrorKind) : Preserves g (fail kind : Execution α) := fun _ => rfl

theorem get {f : Machine → Execution α} (hf : ∀ m, Preserves g (f m)) : Preserves g (get >>= f) := fun m => hf m m

theorem modify {f : Machine → Machine} (hf : ∀ m, g (f m) = g m) : Preserves g (modify f : Execution PUnit) := hf

theorem modifyGet {f : Machine → α × Machine} (hf : ∀ m, g (f m).2 = g m) :
    Preserves g (modifyGet f : Execution α) := hf

theorem ite {p : Prop} [Decidable p] {x y : Execution α} (hx : Preserves g x) (hy : Preserves g y) :
    Preserves g (if p then x else y) := by
  split
  · exact hx
  · exact hy

theorem next {x : Execution Unit} (hx : Preserves g x) : Preserves g (do x; return Flow.next) :=
  hx.bind fun _ => .pure _

theorem ok {x : Execution α} (hx : Preserves g x) {m n : Machine} {a : α} (hrun : x.run m = .ok a n) : g n = g m := by
  have hm := hx m
  rw [after, hrun] at hm
  exact hm

end Preserves

section Values

variable (hg : Aside g)

include hg

theorem preserves_push (v : Value) : Preserves g (push v) :=
  .get fun _ => .ite (.fail _) (.modify fun m => hg.stack m _)

theorem preserves_pop : Preserves g pop := by
  refine .get fun m => ?_
  split
  · exact .fail _
  · exact .bind (.modify fun m => hg.stack m _) fun _ => .pure _

theorem preserves_popTwo : Preserves g popTwo :=
  (preserves_pop hg).bind fun _ => (preserves_pop hg).bind fun _ => .pure _

omit hg in
theorem preserves_peek (distance : Nat) : Preserves g (peek distance) := by
  refine .get fun m => .ite (.fail _) ?_
  split
  · exact .pure _
  · exact .throw _

omit hg in
theorem preserves_slotIndex (slot : Nat) : Preserves g (slotIndex slot) := by
  refine .get fun m => ?_
  split
  · exact .fail _
  · exact .ite (.pure _) (.fail _)

omit hg in
theorem preserves_getSlot (slot : Nat) : Preserves g (getSlot slot) := by
  refine (preserves_slotIndex slot).bind fun index => .get fun m => ?_
  split
  · exact .pure _
  · exact .throw _

theorem preserves_setSlot (slot : Nat) (v : Value) : Preserves g (setSlot slot v) :=
  (preserves_slotIndex slot).bind fun _ => .modify fun m => hg.stack m _

omit hg in
theorem preserves_numberOperands : Preserves g numberOperands := by
  refine (preserves_peek 1).bind fun x => (preserves_peek 0).bind fun y => ?_
  split
  · exact .pure _
  · exact .fail _

theorem preserves_numeric (f : Float → Float → Value) : Preserves g (numeric f) :=
  preserves_numberOperands.bind fun _ => (preserves_popTwo hg).bind fun _ => preserves_push hg _

theorem preserves_intern (chars : String) : Preserves g (modifyGet (·.intern chars)) := by
  refine .modifyGet fun m => ?_
  obtain ⟨journal, hintern⟩ := m.intern_turn chars
  rw [hintern]
  exact (hg.journal { m with heap := (m.heap.intern chars).1 } journal).trans (hg.heap m _)

theorem preserves_concatenate (x y : Handle) : Preserves g (concatenate x y) := by
  refine .get fun m => ?_
  dsimp only
  split
  · exact (preserves_popTwo hg).bind fun _ => (preserves_intern hg _).bind fun _ => preserves_push hg _
  · exact .fail _

theorem preserves_add : Preserves g add := by
  refine (preserves_peek 1).bind fun x => (preserves_peek 0).bind fun y => ?_
  split
  · exact (preserves_popTwo hg).bind fun _ => preserves_push hg _
  · exact preserves_concatenate hg _ _
  · exact .fail _

theorem preserves_negate : Preserves g negate := by
  refine (preserves_peek 0).bind fun x => ?_
  split
  · exact (preserves_pop hg).bind fun _ => preserves_push hg _
  · exact .fail _

theorem preserves_compareEqual (wanted : Bool) : Preserves g (compareEqual wanted) :=
  (preserves_popTwo hg).bind fun _ => preserves_push hg _

theorem preserves_negateTruth : Preserves g negateTruth := (preserves_pop hg).bind fun _ => preserves_push hg _

theorem preserves_print : Preserves g print :=
  (preserves_pop hg).bind fun _ => .get fun _ => .bind (.modifyGet fun m => hg.output m _) fun _ =>
    .ite (.fail _) (.pure _)

omit hg in
theorem preserves_failUndefined (key : Key) : Preserves g (failUndefined key : Execution α) := .get fun _ => .fail _

theorem preserves_pushGlobal (key : Key) : Preserves g (pushGlobal key) := by
  refine .get fun m => ?_
  split
  · exact preserves_push hg _
  · exact preserves_failUndefined _

theorem preserves_storeGlobal (key : Key) : Preserves g (storeGlobal key) :=
  (preserves_peek 0).bind fun _ => .bind (.modify fun m => hg.globals m _) fun _ =>
    (preserves_pop hg).bind fun _ => .pure _

theorem preserves_assignGlobal (key : Key) (v : Value) : Preserves g (assignGlobal key v) :=
  .bind (.modifyGet fun m => hg.globals m _) fun _ =>
    .ite (.bind (.modify fun m => hg.globals m _) fun _ => preserves_failUndefined _) (.pure _)

theorem preserves_readClock : Preserves g readClock := .modifyGet fun m => hg.clock m _

theorem preserves_callNative (native : NativeObject) (count : Nat) : Preserves g (callNative native count) := by
  refine .ite (.fail _) (.bind (.get fun _ => .ite (.fail _) (.pure _)) fun _ => (preserves_readClock hg).bind fun _ =>
    .get fun _ => .ite (.throw _) ?_)
  exact .bind (.modify fun m => hg.stack m _) fun _ => preserves_push hg _

end Values

/-! ### Calls -/

/-- The instruction works on values alone. -/
inductive Fetched.Straight : Fetched → Prop where
  | plain {op : Opcode} (hsize : op.operandSize = 0) (hop : op ≠ .ret) : Straight (.plain op)
  | value (v : Value) : Straight (.value v)
  | getLocal (slot : Nat) : Straight (.getLocal slot)
  | setLocal (slot : Nat) : Straight (.setLocal slot)
  | getGlobal (key : Key) : Straight (.getGlobal key)
  | setGlobal (key : Key) : Straight (.setGlobal key)
  | defineGlobal (key : Key) : Straight (.defineGlobal key)

/-- All other instructions are about calls or jump. -/
theorem Fetched.straight_or {i : Fetched} (hi : ∀ op, i = .plain op → op.operandSize = 0) :
    i.Straight ∨ i = .plain .ret ∨ (∃ distance, i = .jump distance) ∨ (∃ distance, i = .jumpIfFalse distance) ∨
    ∃ count, i = .call count := by
  cases i with
  | plain op =>
      by_cases hop : op = .ret
      · exact .inr (.inl (by rw [hop]))
      · exact .inl (.plain (hi op rfl) hop)
  | value v => exact .inl (.value v)
  | getLocal slot => exact .inl (.getLocal slot)
  | setLocal slot => exact .inl (.setLocal slot)
  | getGlobal key => exact .inl (.getGlobal key)
  | setGlobal key => exact .inl (.setGlobal key)
  | defineGlobal key => exact .inl (.defineGlobal key)
  | jump distance => exact .inr (.inr (.inl ⟨distance, rfl⟩))
  | jumpIfFalse distance => exact .inr (.inr (.inr (.inl ⟨distance, rfl⟩)))
  | call count => exact .inr (.inr (.inr (.inr ⟨count, rfl⟩)))

/-- What an instruction makes of the active calls. -/
inductive Fetched.Turns : Fetched → List Frame → List Frame → Prop where
  | straight {i : Fetched} (hi : i.Straight) (fs : List Frame) : Turns i fs fs
  | jump {distance : Int} {target : Nat} (frame : Frame) (fs : List Frame) (h : (frame.ip : Int) + distance = target) :
      Turns (.jump distance) (frame :: fs) ({ frame with ip := target } :: fs)
  | jumpIfFalse {distance : Int} {target : Nat} (frame : Frame) (fs : List Frame)
      (h : (frame.ip : Int) + distance = target) :
      Turns (.jumpIfFalse distance) (frame :: fs) ({ frame with ip := target } :: fs)
  | pass (distance : Int) (fs : List Frame) : Turns (.jumpIfFalse distance) fs fs
  | call (count : Nat) (callee : Frame) (fs : List Frame) : Turns (.call count) fs (callee :: fs)
  | callNative (count : Nat) (fs : List Frame) : Turns (.call count) fs fs
  | ret (frame : Frame) (fs : List Frame) : Turns (.plain .ret) (frame :: fs) fs

/-- The instruction leaves the rest alone, and the run goes on. -/
theorem exists_straight (hg : Aside g) {i : Fetched} (hi : i.Straight) : ∃ x : Execution Unit,
    perform i = (do x; return Flow.next) ∧ Preserves g x := by
  cases hi with
  | @plain op hsize hop =>
      cases op with
      | ret => exact absurd rfl hop
      | pushNil | pushTrue | pushFalse => exact ⟨_, rfl, preserves_push hg _⟩
      | pop =>
          refine ⟨pop >>= fun _ => pure (), ?_, (preserves_pop hg).bind fun _ => .pure _⟩
          rw [bind_assoc]
          rfl
      | add => exact ⟨_, rfl, preserves_add hg⟩
      | subtract | multiply | divide | greater | greaterEqual | less | lessEqual =>
          exact ⟨_, rfl, preserves_numeric hg _⟩
      | equal | notEqual => exact ⟨_, rfl, preserves_compareEqual hg _⟩
      | negate => exact ⟨_, rfl, preserves_negate hg⟩
      | not => exact ⟨_, rfl, preserves_negateTruth hg⟩
      | print => exact ⟨_, rfl, preserves_print hg⟩
      | constant | constantWide | getLocal | setLocal | getGlobal | setGlobal | defineGlobal | jump | jumpIfFalse | loop
        | call => cases hsize
  | value v => exact ⟨_, rfl, preserves_push hg v⟩
  | getLocal slot =>
      exact ⟨getSlot slot >>= push, (bind_assoc ..).symm, (preserves_getSlot slot).bind fun _ => preserves_push hg _⟩
  | setLocal slot =>
      exact ⟨peek 0 >>= setSlot slot, (bind_assoc ..).symm, (preserves_peek 0).bind fun _ => preserves_setSlot hg _ _⟩
  | getGlobal key => exact ⟨_, rfl, preserves_pushGlobal hg key⟩
  | setGlobal key =>
      exact ⟨peek 0 >>= assignGlobal key, (bind_assoc ..).symm,
        (preserves_peek 0).bind fun _ => preserves_assignGlobal hg _ _⟩
  | defineGlobal key => exact ⟨_, rfl, preserves_storeGlobal hg key⟩

variable {m n : Machine}

theorem frames_jump {distance : Int} (h : (jump distance).run m = .ok () n) : ∃ frame fs target,
    m.frames = frame :: fs ∧ (frame.ip : Int) + distance = (target : Nat) ∧
    n.frames = { frame with ip := target } :: fs := by
  unfold jump at h
  rw [run_bind_of_ok (EStateM.run_get m)] at h
  split at h
  · cases h
  · next frame fs hframes =>
      dsimp only at h
      split at h
      · cases h
      · next hpos =>
          cases h
          exact ⟨frame, fs, ((frame.ip : Int) + distance).toNat, hframes, (Int.toNat_of_nonneg (by omega)).symm, rfl⟩

theorem frames_callValue {callee : Value} {count : Nat} (h : (callValue callee count).run m = .ok () n) :
    n.frames = m.frames ∨ ∃ frame, n.frames = frame :: m.frames := by
  unfold callValue at h
  split at h
  · rw [run_bind_of_ok (EStateM.run_get m)] at h
    split at h
    · unfold callFunction at h
      rw [run_bind_of_ok (EStateM.run_get m)] at h
      split at h
      · cases h
      · split at h
        · cases h
        · split at h
          · cases h
          · split at h
            · cases h
            · cases h
              exact .inr ⟨_, rfl⟩
    · exact .inl ((preserves_callNative aside_frames _ _).ok h)
    · cases h
  · cases h

/-- A return ends the innermost call, and the run if there is no other. -/
theorem frames_returnFrom {flow : Flow} (h : returnFrom.run m = .ok flow n) :
    (∃ frame, m.frames = frame :: n.frames) ∧ (flow = .halt → n.frames = []) := by
  unfold returnFrom at h
  obtain ⟨v, m₁, hpop, h⟩ := run_bind_eq_ok.mp h
  rw [run_bind_of_ok (EStateM.run_get m₁)] at h
  rw [← (preserves_pop aside_frames).ok hpop]
  split at h
  · cases h
  · next frame fs hframes =>
      cases hfs : fs.isEmpty with
      | true =>
          rw [hfs] at h
          cases h
          exact ⟨⟨frame, hframes⟩, fun _ => List.isEmpty_iff.mp hfs⟩
      | false =>
          rw [hfs] at h
          obtain ⟨_, m₂, htake, hrest⟩ := run_bind_eq_ok.mp h
          cases htake
          obtain ⟨_, m₃, htruncate, hrest⟩ := run_bind_eq_ok.mp hrest
          cases htruncate
          rw [if_neg Bool.false_ne_true] at hrest
          obtain ⟨_, m₄, hpush, hrest⟩ := run_bind_eq_ok.mp hrest
          cases hrest
          exact ⟨⟨frame, hframes.trans (congrArg _ ((preserves_push aside_frames v).ok hpush).symm)⟩, nofun⟩

theorem flow_of_next {x : Execution Unit} {flow : Flow}
    (h : (do x; return Flow.next : Execution Flow).run m = .ok flow n) :
    flow = .next ∧ x.run m = .ok () n := by
  obtain ⟨_, m₁, hx, h⟩ := run_bind_eq_ok.mp h
  cases h
  exact ⟨rfl, hx⟩

/-- **What an instruction makes of the active calls.** The run is over only if there is none left. -/
theorem turns_perform {i : Fetched} {flow : Flow} (hi : ∀ op, i = .plain op → op.operandSize = 0)
    (h : (perform i).run m = .ok flow n) : i.Turns m.frames n.frames ∧ (flow = .halt → n.frames = []) := by
  rcases Fetched.straight_or hi with hstraight | rfl | ⟨distance, rfl⟩ | ⟨distance, rfl⟩ | ⟨count, rfl⟩
  · obtain ⟨x, heq, hx⟩ := exists_straight aside_frames hstraight
    rw [heq] at h
    obtain ⟨rfl, hrun⟩ := flow_of_next h
    rw [hx.ok hrun]
    exact ⟨.straight hstraight _, nofun⟩
  · obtain ⟨⟨frame, hframes⟩, hhalt⟩ := frames_returnFrom h
    rw [hframes]
    exact ⟨.ret frame _, hhalt⟩
  · obtain ⟨rfl, hrun⟩ := flow_of_next h
    obtain ⟨frame, fs, target, hframes, htarget, hn⟩ := frames_jump hrun
    rw [hframes, hn]
    exact ⟨.jump frame fs htarget, nofun⟩
  · obtain ⟨v, m₁, hpeek, hrest⟩ := run_bind_eq_ok.mp h
    obtain rfl := run_peek_state hpeek
    split at hrest
    · obtain ⟨rfl, hrun⟩ := flow_of_next hrest
      obtain ⟨frame, fs, target, hframes, htarget, hn⟩ := frames_jump hrun
      rw [hframes, hn]
      exact ⟨.jumpIfFalse frame fs htarget, nofun⟩
    · cases hrest
      exact ⟨.pass distance _, nofun⟩
  · obtain ⟨v, m₁, hpeek, hrest⟩ := run_bind_eq_ok.mp h
    obtain rfl := run_peek_state hpeek
    obtain ⟨rfl, hrun⟩ := flow_of_next hrest
    rcases frames_callValue hrun with hn | ⟨frame, hn⟩
    · rw [hn]
      exact ⟨.callNative count _, nofun⟩
    · rw [hn]
      exact ⟨.call count frame _, nofun⟩

theorem sized_of_operand {op : Opcode} {i : Fetched} (h : (operand op).run m = .ok i n) :
    ∀ op', i = .plain op' → op'.operandSize = 0 := by
  cases op with
  | constant | constantWide =>
      obtain ⟨_, _, -, hrest⟩ := run_bind_eq_ok.mp h
      obtain ⟨_, _, -, hrest⟩ := run_bind_eq_ok.mp hrest
      cases hrest
      exact nofun
  | getLocal | setLocal | getGlobal | setGlobal | defineGlobal | jump | jumpIfFalse | loop | call =>
      obtain ⟨_, _, -, hrest⟩ := run_bind_eq_ok.mp h
      cases hrest
      exact nofun
  | pushNil | pushTrue | pushFalse | pop | add | subtract | multiply | divide | negate | equal | notEqual | greater
    | greaterEqual | less | lessEqual | not | ret | print =>
      cases h
      rintro _ ⟨⟩
      rfl

theorem sized_of_fetch {i : Fetched} (h : fetch.run m = .ok i n) : ∀ op, i = .plain op → op.operandSize = 0 := by
  obtain ⟨byte, m₁, -, hrest⟩ := run_bind_eq_ok.mp h
  split at hrest
  · exact sized_of_operand hrest
  · cases hrest

theorem frames_of_halt (h : step.run m = .ok .halt n) : n.frames = [] := by
  rw [step_eq] at h
  obtain ⟨i, m₁, hfetch, hperform⟩ := run_bind_eq_ok.mp h
  exact (turns_perform (sized_of_fetch hfetch) hperform).2 rfl

/-- When a run is over no call is active. -/
theorem frames_of_steps {budget : Nat} (h : (steps budget).run m = .ok () n) : n.frames = [] := by
  induction budget generalizing m with
  | zero => cases h
  | succ budget ih =>
      obtain ⟨flow, m₁, hstep, hrest⟩ := run_bind_eq_ok.mp h
      cases flow with
      | halt =>
          cases hrest
          exact frames_of_halt hstep
      | next => exact ih hrest

end Execution

end Lox
