import Lox.Proofs.Discipline.Runs
import Lox.Proofs.Machine.Bounds
import Lox.Proofs.Machine.Frames

/-! Output that fails. The output of a machine that takes only so many bytes is at each step that of a machine without
such a limit, cut off there; the steps are the same up to the Print instruction that would write the first byte too
much, and that one fails. Flushing is tried only when the script has returned. -/

namespace Lox

/-! ### Outputs -/

namespace Output

variable {o o' o'' : Output} {bound : Nat}

/-- More has been written. -/
def Grows (o o' : Output) : Prop := ∃ bytes : ByteArray, o' = { o with written := o.written ++ bytes }

theorem Grows.refl (o : Output) : o.Grows o := ⟨.empty, by rw [ByteArray.append_empty]⟩

theorem Grows.trans (h : o.Grows o') (h' : o'.Grows o'') : o.Grows o'' := by
  obtain ⟨bytes, rfl⟩ := h
  obtain ⟨bytes', rfl⟩ := h'
  exact ⟨bytes ++ bytes', by rw [ByteArray.append_assoc]⟩

theorem Grows.size_le (h : o.Grows o') : o.written.size ≤ o'.written.size := by
  obtain ⟨bytes, rfl⟩ := h
  rw [ByteArray.size_append]
  exact Nat.le_add_right _ _

theorem Grows.room_eq (h : o.Grows o') : o'.room = o.room := by
  obtain ⟨bytes, rfl⟩ := h
  rfl

/-- What has become of the output if it takes only so many bytes. -/
def cut (bound : Nat) (o : Output) : Output :=
  { o with written := o.written.extract 0 bound, room := some (bound - o.written.size) }

theorem write_of_room (hroom : o.room = none) (text : String) :
    o.write text = ({ o with written := o.written ++ text.toUTF8 }, true) := by
  unfold write
  rw [hroom]

theorem Grows.write (hroom : o.room = none) (text : String) : o.Grows (o.write text).1 :=
  ⟨text.toUTF8, by rw [write_of_room hroom]⟩

theorem extract_of_size_le {bytes : ByteArray} {n : Nat} (h : bytes.size ≤ n) : bytes.extract 0 n = bytes := by
  refine ByteArray.ext ?_
  rw [ByteArray.data_extract]
  exact Array.extract_eq_self_of_le h

/-- The output takes as much of a text as there is room for, and says whether that is all of it. -/
theorem write_cut (hroom : o.room = none) (hfits : o.written.size ≤ bound) (text : String) :
    (o.cut bound).write text = ((o.write text).1.cut bound, decide ((o.write text).1.written.size ≤ bound)) := by
  have hcut : (o.written ++ text.toUTF8).extract 0 bound = o.written ++ text.toUTF8.extract 0
    (bound - o.written.size) := by
    rw [ByteArray.extract_append, Nat.zero_sub, extract_of_size_le hfits]
  have hsize : (o.written ++ text.toUTF8).size = o.written.size + text.toUTF8.size := ByteArray.size_append
  rw [write_of_room hroom]
  simp only [write, cut, extract_of_size_le hfits, hcut, hsize]
  by_cases hle : text.toUTF8.size ≤ bound - o.written.size
  · have hroom' : bound - (o.written.size + text.toUTF8.size) = bound - o.written.size - text.toUTF8.size := by omega
    rw [if_pos hle, extract_of_size_le hle, hroom', decide_eq_true (by omega)]
  · have hroom' : bound - (o.written.size + text.toUTF8.size) = 0 := by omega
    rw [if_neg hle, hroom', decide_eq_false (by omega)]

/-- An output without limit that has room for so many bytes more takes these and no others. -/
theorem cut_size_add (o : Output) (room : Nat) : o.cut (o.written.size + room) = { o with room := some room } := by
  rw [cut, extract_of_size_le (Nat.le_add_right _ _), Nat.add_sub_cancel_left]

end Output

/-- The limit of an output, as bounds of machines with certain limits. -/
def Bounds.cutting (limits : Limits) (bound : Nat) : Bounds := ⟨limits, Output.cut bound⟩

/-- A flush that fails, as bounds of machines with certain limits. -/
def Bounds.flushing (limits : Limits) : Bounds := ⟨limits, fun o => { o with flushFails := true }⟩

/-! ### Steps -/

namespace Machine

variable {m n : Machine} {limits : Limits} {bound : Nat}

open Execution

/-- The output of the machine has no limit, and no more than so many bytes have been written to it. -/
structure Fits (limits : Limits) (bound : Nat) (m : Machine) : Prop where
  limits_eq : m.limits = limits
  room : m.output.room = none
  size : m.output.written.size ≤ bound

/-- The next instruction of the machine prints the first byte too much. -/
structure Overprints (bound : Nat) (m m' : Machine) : Prop where
  print : m.opcode? = some .print
  step : step.run m = .ok .next m'
  before : m.output.written.size ≤ bound
  behind : bound < m'.output.written.size

/-- The error is located at the instruction that the machine is about to carry out. -/
def Locates (m : Machine) (e : RuntimeError) : Prop :=
  ∃ frame outer f, m.frames = frame :: outer ∧ m.heap.function? frame.function = some f ∧
    e.line = (f.chunk.lineAt? frame.ip).getD 0 ∧ e.trace = ⟨e.line, m.heap.functionName? f⟩ :: outer.map m.traceEntry

theorem exists_of_opcode? {op : Opcode} (h : m.opcode? = some op) : ∃ frame outer f byte, m.frames = frame :: outer ∧
    m.heap.function? frame.function = some f ∧ f.chunk.byteAt? frame.ip = some byte ∧
    Opcode.ofByte? byte = some op := by
  obtain ⟨frame, hframe, h⟩ := Option.bind_eq_some_iff.mp h
  obtain ⟨f, hf, h⟩ := Option.bind_eq_some_iff.mp h
  obtain ⟨byte, hbyte, hop⟩ := Option.bind_eq_some_iff.mp h
  obtain ⟨outer, houter⟩ := List.head?_eq_some_iff.mp hframe
  exact ⟨frame, outer, f, byte, houter, hf, hbyte, hop⟩

/-- What a Print instruction comes to. -/
theorem run_print_step {frame : Frame} {outer : List Frame} {f : FunctionObject} {byte : UInt8}
    (hframes : m.frames = frame :: outer) (hf : m.heap.function? frame.function = some f)
    (hbyte : f.chunk.byteAt? frame.ip = some byte) (hop : Opcode.ofByte? byte = some .print) :
    step.run m = match m.stack.back? with
      | none => .error (.error .stackUnderflow) { m with frames := { frame with ip := frame.ip + 1 } :: outer }
      | some v =>
        let written := m.output.write (m.display v ++ "\n")
        let m' := { m with
          frames := { frame with ip := frame.ip + 1 } :: outer
          stack := m.stack.pop
          output := written.1 }
        if written.2 then .ok .next m' else .error (.error (.output Output.closedReason)) m' := by
  have hread : readByte.run m = .ok byte { m with frames := { frame with ip := frame.ip + 1 } :: outer } := by
    unfold readByte
    rw [run_bind_of_ok (EStateM.run_get m), hframes]
    simp only [hf, Option.bind_some, hbyte]
    rw [run_bind_of_ok (EStateM.run_modify _ _)]
    simp only [hframes]
    rfl
  generalize hadvanced : { m with frames := { frame with ip := frame.ip + 1 } :: outer } = advanced at hread ⊢
  have hback : advanced.stack.back? = m.stack.back? := hadvanced ▸ rfl
  unfold step
  rw [run_bind_of_ok hread, hop]
  simp only [execute, print, pop, bind_assoc]
  rw [run_bind_of_ok (EStateM.run_get advanced), hback]
  cases m.stack.back? with
  | none => rfl
  | some v =>
      subst hadvanced
      let written := m.output.write (m.display v ++ "\n")
      let m' : Machine := { m with
        frames := { frame with ip := frame.ip + 1 } :: outer
        stack := m.stack.pop
        output := written.1 }
      show ((if !written.2 then fail (.output Output.closedReason) else pure ()) >>= fun _ => pure Flow.next :
        Execution Flow).run m' = if written.2 then .ok .next m' else .error (.error (.output Output.closedReason)) m'
      cases written.2 <;> rfl

/-- Printing to an output without limit goes on, and under bounds it depends on what the output makes of the text. -/
theorem print_cases (hop : m.opcode? = some .print) (hroom : m.output.room = none) :
    (∃ n, step.run m = .error (.error .stackUnderflow) n ∧ n.limits = m.limits ∧ n.output = m.output ∧
      ∀ b, step.run (m.under b) = .error (.error .stackUnderflow) (n.under b)) ∨
    ∃ q text, step.run m = .ok .next q ∧ q.limits = m.limits ∧ q.output = (m.output.write text).1 ∧
      ∀ b, step.run (m.under b) =
        if ((b.output m.output).write text).2 then
          .ok .next { q.under b with output := ((b.output m.output).write text).1 }
        else
          .error (.error (.output Output.closedReason))
            { q.under b with output := ((b.output m.output).write text).1 } := by
  obtain ⟨frame, outer, f, byte, hframes, hf, hbyte, hprint⟩ := exists_of_opcode? hop
  have hrun := run_print_step hframes hf hbyte hprint
  have hunder := fun b => run_print_step (m := m.under b) hframes hf hbyte hprint
  have hsame : ∀ b, (m.under b).stack.back? = m.stack.back? := fun _ => rfl
  cases hback : m.stack.back? with
  | none =>
      rw [hback] at hrun
      refine .inl ⟨_, hrun, rfl, rfl, fun b => ?_⟩
      rw [hunder b, hsame, hback]
      rfl
  | some v =>
      have hcomplete : (m.output.write (m.display v ++ "\n")).2 = true := by rw [Output.write_of_room hroom]
      simp only [hback, if_pos hcomplete] at hrun
      refine .inr ⟨_, m.display v ++ "\n", hrun, rfl, rfl, fun b => ?_⟩
      rw [hunder b, hsame, hback]
      rfl

/-- An instruction that does not print would do the same on any output, so it leaves the one there is alone. -/
theorem after_step_of_ne (hop : m.opcode? ≠ some .print) :
    (after step m).limits = m.limits ∧ (after step m).output = m.output := by
  let b : Bounds := ⟨m.limits, fun _ => m.output⟩
  have hblind : step.run (m.under b) = b.result (step.run m) :=
    (echoes_step (.of_eq rfl) fun hprint => absurd hprint hop).eq_result rfl
  have hself : m.under b = m := rfl
  rw [hself] at hblind
  have hafter : after step m = (after step m).under b := by
    unfold after
    cases hrun : step.run m with
    | ok flow n =>
        rw [hrun] at hblind
        injection hblind
    | error stop n =>
        rw [hrun] at hblind
        injection hblind
  rw [hafter]
  exact ⟨rfl, rfl⟩

/-- A step writes to an output without limit, if anything, and leaves the limits alone. -/
theorem grows_output_step (hroom : m.output.room = none) :
    (after step m).limits = m.limits ∧ m.output.Grows (after step m).output := by
  by_cases hop : m.opcode? = some .print
  · unfold after
    rcases print_cases hop hroom with ⟨n, hrun, hlimits, houtput, -⟩ | ⟨q, text, hrun, hlimits, houtput, -⟩
    · rw [hrun]
      exact ⟨hlimits, houtput ▸ .refl _⟩
    · rw [hrun]
      exact ⟨hlimits, houtput ▸ .write hroom text⟩
  · obtain ⟨hlimits, houtput⟩ := after_step_of_ne hop
    exact ⟨hlimits, houtput ▸ .refl _⟩

/-- **One step.** It is the same on the output that takes only so many bytes, or it prints the first one too much. -/
theorem Fits.step (hm : m.Fits limits bound) :
    (step.run (m.under (.cutting limits bound)) = (Bounds.cutting limits bound).result (step.run m) ∧
      (after step m).Fits limits bound) ∨
    ∃ q, m.Overprints bound q ∧ step.run (m.under (.cutting limits bound)) =
      .error (.error (.output Output.closedReason)) (q.under (.cutting limits bound)) := by
  obtain ⟨hlimits, hgrows⟩ := grows_output_step hm.room
  have hfits : (after Execution.step m).output.written.size ≤ bound → (after Execution.step m).Fits limits bound :=
    fun hsize => ⟨hlimits.trans hm.limits_eq, hgrows.room_eq.trans hm.room, hsize⟩
  by_cases hop : m.opcode? = some .print
  · rcases print_cases hop hm.room with ⟨n, hrun, -, houtput, hunder⟩ | ⟨q, text, hrun, -, houtput, hunder⟩
    · refine .inl ⟨by rw [hrun, hunder]; rfl, hfits ?_⟩
      rw [after, hrun]
      exact houtput ▸ hm.size
    · have hcut : ((Bounds.cutting limits bound).output m.output).write text =
          (q.output.cut bound, decide (q.output.written.size ≤ bound)) :=
          houtput ▸ Output.write_cut hm.room hm.size text
      have hnarrow := hunder (.cutting limits bound)
      simp only [hcut, decide_eq_true_eq] at hnarrow
      by_cases hsize : q.output.written.size ≤ bound
      · rw [if_pos hsize] at hnarrow
        refine .inl ⟨by rw [hrun, hnarrow]; rfl, hfits ?_⟩
        rw [after, hrun]
        exact hsize
      · rw [if_neg hsize] at hnarrow
        exact .inr ⟨q, ⟨hop, hrun, hm.size, Nat.lt_of_not_le hsize⟩, hnarrow⟩
  · refine .inl ⟨(echoes_step (.of_eq hm.limits_eq.symm) fun hprint => absurd hprint hop).eq_result hm.limits_eq.symm,
      hfits ?_⟩
    rw [(after_step_of_ne hop).2]
    exact hm.size

/-! ### Runs -/

theorem after_steps_of_next {budget : Nat} (h : step.run m = .ok .next n) :
    after (steps (budget + 1)) m = after (steps budget) n := by
  rw [steps, after_bind, h]

theorem grows_output_steps {budget : Nat} (hroom : m.output.room = none) :
    (after (steps budget) m).limits = m.limits ∧ m.output.Grows (after (steps budget) m).output := by
  induction budget generalizing m with
  | zero => exact ⟨rfl, .refl _⟩
  | succ budget ih =>
      obtain ⟨hlimits, hgrows⟩ := grows_output_step hroom
      rw [steps, after_bind]
      unfold after at hlimits hgrows
      cases hrun : step.run m with
      | error stop n =>
          rw [hrun] at hlimits hgrows
          exact ⟨hlimits, hgrows⟩
      | ok flow n =>
          rw [hrun] at hlimits hgrows
          cases flow with
          | halt => exact ⟨hlimits, hgrows⟩
          | next =>
              obtain ⟨hlimits', hgrows'⟩ := ih (hgrows.room_eq.trans hroom)
              exact ⟨hlimits'.trans hlimits, hgrows.trans hgrows'⟩

/-- **A run of steps.** It is the same on the output that takes only so many bytes, or it has come to where the first
one too much is printed. -/
theorem Fits.steps (hm : m.Fits limits bound) (budget : Nat) :
    ((steps budget).run (m.under (.cutting limits bound)) = (Bounds.cutting limits bound).result
    ((steps budget).run m) ∧
      (after (steps budget) m).Fits limits bound) ∨
    ∃ k p q, m.Goes k p ∧ p.Overprints bound q ∧ q.output.Grows (after (Execution.steps budget) m).output ∧
      (Execution.steps budget).run (m.under (.cutting limits bound)) =
        .error (.error (.output Output.closedReason)) (q.under (.cutting limits bound)) := by
  induction budget generalizing m with
  | zero => exact .inl ⟨rfl, hm⟩
  | succ budget ih =>
      rcases hm.step with ⟨hsame, hfits⟩ | ⟨q, hover, hnarrow⟩
      · cases hrun : Execution.step.run m with
        | error stop n =>
            rw [after, hrun] at hfits
            rw [hrun] at hsame
            refine .inl ⟨?_, ?_⟩
            · rw [Execution.steps, run_bind_of_error hsame, run_bind_of_error hrun]
              rfl
            · rwa [Execution.steps, after_bind, hrun]
        | ok flow n =>
            rw [after, hrun] at hfits
            rw [hrun] at hsame
            cases flow with
            | halt =>
                refine .inl ⟨?_, ?_⟩
                · rw [Execution.steps, run_bind_of_ok hsame, run_bind_of_ok hrun]
                  rfl
                · rw [Execution.steps, after_bind, hrun]
                  exact hfits
            | next =>
                rw [after_steps_of_next hrun, Execution.steps, run_bind_of_ok hsame, run_bind_of_ok hrun]
                rcases ih hfits with hrest | ⟨k, p, q, hg, hover, hgrows, hnarrow⟩
                · exact .inl hrest
                · exact .inr ⟨k + 1, p, q, .step hrun hg, hover, hgrows, hnarrow⟩
      · have hgrows := (grows_output_step hm.room).2
        rw [after, hover.step] at hgrows
        refine .inr ⟨0, m, q, .refl m, hover, ?_, ?_⟩
        · rw [after_steps_of_next hover.step]
          exact (grows_output_steps (hgrows.room_eq.trans hm.room)).2
        · rw [Execution.steps, run_bind_of_error hnarrow]

/-- Starting a run prints nothing. -/
theorem output_start (m : Machine) (script : Handle) :
    (m.start script).2.limits = m.limits ∧ (m.start script).2.output = m.output := by
  have hblind := (runEchoes_start (b := ⟨m.limits, fun _ => m.output⟩) (m := m) (.of_eq rfl) script).eq_under rfl
  have hself : m.under ⟨m.limits, fun _ => m.output⟩ = m := rfl
  rw [hself] at hblind
  rw [hblind]
  exact ⟨rfl, rfl⟩

theorem output_resume (m : Machine) (budget : Nat) : (m.resume budget).2.output = (after (steps budget) m).output := by
  have hhalt : ∀ n : Machine, n.haltOk.2.output = n.output := by
    intro n
    unfold haltOk
    split <;> rfl
  unfold resume after
  split
  · next n hrun =>
      rw [hrun]
      exact hhalt n
  · next n hrun =>
      rw [hrun]
      rfl
  · next n hrun => rw [hrun]
  · next n _ hrun => rw [hrun]

theorem grows_output_runFunction (hroom : m.output.room = none) (script : Handle) (budget : Nat) :
    m.output.Grows (m.runFunction script budget).2.output := by
  obtain ⟨-, houtput⟩ := output_start m script
  unfold runFunction
  split
  · next n hstart =>
      rw [hstart] at houtput
      rw [output_resume, ← houtput]
      exact (grows_output_steps (houtput ▸ hroom)).2
  · rw [houtput]
    exact .refl _

/-- **A whole run.** It ends in the same way on the output that takes only so many bytes, or it has come to where the
first one too much is printed. -/
theorem Fits.runFunction (hm : m.Fits limits bound) (script : Handle) (budget : Nat) :
    ((m.under (.cutting limits bound)).runFunction script budget =
        ((m.runFunction script budget).1, (m.runFunction script budget).2.under (.cutting limits bound)) ∧
      (m.runFunction script budget).2.output.written.size ≤ bound) ∨
    ∃ p q, m.Visits script p ∧ p.Overprints bound q ∧ q.output.Grows (m.runFunction script budget).2.output ∧
      (m.under (.cutting limits bound)).runFunction script budget =
        (.done (.error (q.runtimeError (.output Output.closedReason))),
          ((q.under (.cutting limits bound)).haltWith (.output Output.closedReason)).2) := by
  have hstart := (runEchoes_start (b := .cutting limits bound) (.of_eq hm.limits_eq.symm) script).eq_under
    hm.limits_eq.symm
  obtain ⟨hlimits, houtput⟩ := output_start m script
  unfold Machine.runFunction
  rw [hstart]
  generalize hr : m.start script = r at hlimits houtput
  obtain ⟨progress, n⟩ := r
  have hn : n.Fits limits bound := ⟨hlimits.trans hm.limits_eq, houtput ▸ hm.room, houtput ▸ hm.size⟩
  cases progress with
  | done result => exact .inl ⟨rfl, hn.size⟩
  | fault cause => exact .inl ⟨rfl, hn.size⟩
  | paused =>
      dsimp only
      rcases hn.steps budget with ⟨hsame, hfits⟩ | ⟨k, p, q, hg, hover, hgrows, hnarrow⟩
      · have hechoes := echoes_of_eq_result hsame (hfits.limits_eq.trans hn.limits_eq.symm)
        refine .inl ⟨(runEchoes_resume (fun _ => rfl) hechoes).eq_under hn.limits_eq.symm, ?_⟩
        rw [output_resume]
        exact hfits.size
      · refine .inr ⟨p, q, ⟨n, k, hr, hg⟩, hover, ?_, ?_⟩
        · rw [output_resume]
          exact hgrows
        · rw [resume, hnarrow]
          rfl

/-- Printing takes a value and moves on. -/
theorem Overprints.printed {p q : Machine} (h : p.Overprints bound q) (kind : ErrorKind) :
    p.Locates (q.runtimeError kind) ∧ q.globals = p.globals := by
  obtain ⟨frame, outer, f, byte, hframes, hf, hbyte, hprint⟩ := exists_of_opcode? h.print
  have hstep := h.step
  rw [run_print_step hframes hf hbyte hprint] at hstep
  split at hstep
  · cases hstep
  · dsimp only at hstep
    split at hstep
    · cases hstep
      have hentry : p.traceEntry { frame with ip := frame.ip + 1 } =
          ⟨(f.chunk.lineAt? frame.ip).getD 0, p.heap.functionName? f⟩ := by
        simp only [traceEntry, hf, Nat.add_sub_cancel]
      refine ⟨⟨frame, outer, f, hframes, hf, congrArg TraceEntry.line hentry, ?_⟩, rfl⟩
      refine congrArg (· :: outer.map p.traceEntry) (?_ : p.traceEntry _ = ⟨(p.traceEntry _).line, _⟩)
      rw [hentry]
    · cases hstep

/-! ### What a run comes to -/

/-- The bytes that are taken are the first ones, and the run ends early if there are more. -/
theorem limited_output {script : Handle} {budget : Nat} {result : Except RuntimeError Unit}
    (hroom : m.output.room = none) (hrun : m.runFunction script budget = (.done result, n)) :
    ∃ printed : ByteArray, n.output.written = m.output.written ++ printed ∧ ∀ room, ∃ result' n',
      { m with output := { m.output with room := some room } }.runFunction script budget = (.done result', n') ∧
      n'.output.written = m.output.written ++ printed.extract 0 (min room printed.size) ∧
      (printed.size ≤ room → result' = result ∧
        n' = { n with output := { n.output with room := some (room - printed.size) } }) ∧
      (room < printed.size → ∃ e p q, result' = .error e ∧ e.kind = .output Output.closedReason ∧
        n'.status = .haltedRuntimeError ∧ m.Visits script p ∧ p.Overprints (m.output.written.size + room) q ∧
        p.Locates e ∧ n'.globals = p.globals) := by
  obtain ⟨printed, hprinted⟩ := grows_output_runFunction hroom script budget
  have hlimits := limits_runFunction m script budget
  rw [hrun] at hprinted hlimits
  have hwritten : n.output.written = m.output.written ++ printed := congrArg Output.written hprinted
  have hsize : n.output.written.size = m.output.written.size + printed.size := by rw [hwritten, ByteArray.size_append]
  refine ⟨printed, hwritten, fun room => ?_⟩
  generalize hbound : m.output.written.size + room = bound
  have hm : m.Fits m.limits bound := ⟨rfl, hroom, by omega⟩
  have hnarrow : { m with output := { m.output with room := some room } } = m.under (.cutting m.limits bound) := by
    rw [← Output.cut_size_add, hbound]
    rfl
  rw [hnarrow]
  rcases hm.runFunction script budget with ⟨hsame, hfits⟩ | ⟨p, q, hvisits, hover, hgrows, hcut⟩
  · rw [hrun] at hsame hfits
    have hfits : n.output.written.size ≤ bound := hfits
    have hle : printed.size ≤ room := by omega
    have hall : n.output.written.extract 0 bound = n.output.written := Output.extract_of_size_le hfits
    refine ⟨result, _, hsame, ?_, fun _ => ⟨rfl, ?_⟩, fun hlt => by omega⟩
    · rw [Nat.min_eq_right hle, ByteArray.extract_zero_size, ← hwritten]
      exact hall
    · have hleft : bound - n.output.written.size = room - printed.size := by omega
      have hlimits : n.limits = m.limits := hlimits
      simp only [under, Bounds.cutting, Output.cut, hall, hleft, ← hlimits]
  · rw [hrun] at hgrows
    obtain ⟨rest, hrest⟩ := hgrows
    have hlt : room < printed.size := by
      have hle : q.output.written.size ≤ n.output.written.size := Output.Grows.size_le ⟨rest, hrest⟩
      have := hover.behind
      omega
    obtain ⟨hlocates, hglobals⟩ := hover.printed (.output Output.closedReason)
    refine ⟨_, _, hcut, ?_, fun hle => by omega, fun _ => ⟨_, p, q, rfl, rfl, rfl, hvisits, hover, hlocates, hglobals⟩⟩
    have hrest : n.output.written = q.output.written ++ rest := congrArg Output.written hrest
    have hbehind : bound - q.output.written.size = 0 := Nat.sub_eq_zero_of_le (Nat.le_of_lt hover.behind)
    calc q.output.written.extract 0 bound
      _ = n.output.written.extract 0 bound := by
          rw [hrest, ByteArray.extract_append, Nat.zero_sub, hbehind, ByteArray.extract_same, ByteArray.append_empty]
      _ = m.output.written ++ printed.extract 0 (bound - m.output.written.size) := by
          rw [hwritten, ByteArray.extract_append, Nat.zero_sub, Output.extract_of_size_le (by omega)]
      _ = m.output.written ++ printed.extract 0 (min room printed.size) := by
          rw [Nat.min_eq_left (Nat.le_of_lt hlt), ← hbound, Nat.add_sub_cancel_left]

theorem transparent_flushing (limits : Limits) : (Bounds.flushing limits).Transparent := by
  intro o text
  unfold Bounds.flushing Output.write
  dsimp only
  cases o.room with
  | none => rfl
  | some room =>
      dsimp only
      split <;> rfl

/-- The run would have returned: now it ends with an error that has no location, and all else is as it was. -/
structure Unflushed (n : Machine) (r : Progress × Machine) : Prop where
  error : r.1 = .done (.error { kind := .output Output.flushReason, line := 0, trace := [] })
  status : r.2.status = .haltedRuntimeError
  stack : r.2.stack = n.stack
  globals : r.2.globals = n.globals
  heap : r.2.heap = n.heap
  written : r.2.output.written = n.output.written

/-- Flushing fails when the script has returned, or is not tried. -/
theorem resume_flushing {budget : Nat} {result : Except RuntimeError Unit}
    (hrun : m.resume budget = (.done result, n)) :
    (∀ e, result = .error e → (m.under (.flushing m.limits)).resume budget =
      (.done (.error e), n.under (.flushing m.limits))) ∧
    (result = .ok () → Unflushed n ((m.under (.flushing m.limits)).resume budget)) := by
  have hsteps := (bounded_steps (transparent_flushing m.limits) budget m (.of_eq rfl)).eq_result rfl
  unfold resume at hrun ⊢
  rw [hsteps]
  cases hm : (steps budget).run m with
  | error stop l =>
      rw [hm] at hrun
      cases stop with
      | error kind =>
          cases hrun
          refine ⟨fun e he => ?_, nofun⟩
          cases he
          rfl
      | fault cause => cases cause <;> cases hrun
  | ok _ l =>
      rw [hm] at hrun
      have hframes : l.frames = [] := frames_of_steps hm
      have hhalt : (l.under (.flushing m.limits)).haltOk =
          (.error (l.runtimeError (.output Output.flushReason)),
            ((l.under (.flushing m.limits)).haltWith (.output Output.flushReason)).2) := by
        have hfails : (l.under (.flushing m.limits)).output.flushFails = true := rfl
        unfold haltOk
        rw [if_pos hfails]
        rfl
      simp only [Bounds.result, hhalt]
      simp only [haltOk] at hrun
      split at hrun
      · cases hrun
        refine ⟨fun e he => ?_, nofun⟩
        cases he
        rfl
      · cases hrun
        have herror : l.runtimeError (.output Output.flushReason) =
            { kind := .output Output.flushReason, line := 0, trace := [] } := by
          simp only [runtimeError, hframes, List.map_nil, List.head?_nil, Option.map_none, Option.getD_none]
        exact ⟨nofun, fun _ => ⟨by rw [herror], rfl, rfl, rfl, rfl, rfl⟩⟩

theorem runFunction_flushing {script : Handle} {budget : Nat} {result : Except RuntimeError Unit}
    (hrun : m.runFunction script budget = (.done result, n)) :
    (∀ e, result = .error e → (m.under (.flushing m.limits)).runFunction script budget =
      (.done (.error e), n.under (.flushing m.limits))) ∧
    (result = .ok () → Unflushed n ((m.under (.flushing m.limits)).runFunction script budget)) := by
  have hstart := (runEchoes_start (b := .flushing m.limits) (m := m) (.of_eq rfl) script).eq_under rfl
  have hlimits := (output_start m script).1
  unfold runFunction at hrun ⊢
  rw [hstart]
  generalize hr : m.start script = r at hrun hlimits
  obtain ⟨progress, m₁⟩ := r
  cases progress with
  | fault cause => cases hrun
  | done result' =>
      cases hrun
      refine ⟨fun e he => by rw [he], ?_⟩
      rintro rfl
      unfold start at hr
      split at hr <;> cases hr
  | paused =>
      have hlimits : m₁.limits = m.limits := hlimits
      rw [← hlimits]
      exact resume_flushing hrun

/-- **An output that fails cuts the run short, and does no more.** Let a run on an output without limit be over. On an
output that takes only so many bytes more and then none, it is over too, and just as many of the printed bytes have
been taken as there was room for. If there was room for all of them, the result and the machine are the same. If not,
the run ends at the Print instruction that printed the first byte too much: with an error located there, and with the
global variables as they were there. And whatever the output takes, if flushing it fails, then the run ends in the
same way with an error as without, but ends with an error that has no location where it would have returned. -/
theorem failing_output {script : Handle} {budget : Nat} {result : Except RuntimeError Unit}
    (hrun : m.runFunction script budget = (.done result, n)) :
    (m.output.room = none → ∃ printed : ByteArray, n.output.written = m.output.written ++ printed ∧
      ∀ room, ∃ result' n', { m with output := { m.output with room := some room } }.runFunction script budget =
      (.done result', n') ∧
      n'.output.written = m.output.written ++ printed.extract 0 (min room printed.size) ∧
      (printed.size ≤ room → result' = result ∧
        n' = { n with output := { n.output with room := some (room - printed.size) } }) ∧
      (room < printed.size → ∃ e p q, result' = .error e ∧ e.kind = .output Output.closedReason ∧
        n'.status = .haltedRuntimeError ∧ m.Visits script p ∧ p.Overprints (m.output.written.size + room) q ∧
        p.Locates e ∧ n'.globals = p.globals)) ∧
    (∀ e, result = .error e → { m with output := { m.output with flushFails := true } }.runFunction script budget =
      (.done (.error e), { n with output := { n.output with flushFails := true } })) ∧
    (result = .ok () →
      Unflushed n ({ m with output := { m.output with flushFails := true } }.runFunction script budget)) := by
  obtain ⟨herror, hok⟩ := runFunction_flushing hrun
  have hlimits : n.limits = m.limits := by
    have h := limits_runFunction m script budget
    rwa [hrun] at h
  refine ⟨fun hroom => limited_output hroom hrun, fun e he => ?_, hok⟩
  have hn : { n with output := { n.output with flushFails := true } } = n.under (.flushing m.limits) := by
    rw [← hlimits]
    rfl
  rw [hn]
  exact herror e he

/-- A function that prints two lines. -/
def printingTwice : FunctionObject where
  arity := 0
  chunk := (((((Chunk.empty.writeOp .pushNil 1).writeOp .print 1).writeOp .pushFalse 2).writeOp .print 2).writeOp
    .pushNil 2).writeOp .ret 2
  name := none

/-- A machine with a function that prints two lines. -/
def beforePrinting : Machine := ((create {} false 0 .silent).allocate (.function printingTwice)).2

/-- An output that takes six bytes fails two bytes into the second line, and says so at its Print instruction. -/
theorem failing_output_inside_line : ∃ n e p q n', beforePrinting.runFunction ⟨2⟩ 6 = (.done (.ok ()), n) ∧
    n.output.written = "nil\nfalse\n".toUTF8 ∧
    { beforePrinting with output := { room := some 6 } }.runFunction ⟨2⟩ 6 = (.done (.error e), n') ∧
    e.kind = .output Output.closedReason ∧ n'.output.written = "nil\nfa".toUTF8 ∧
    beforePrinting.Visits ⟨2⟩ p ∧ p.Overprints 6 q ∧ p.Locates e := by
  have hdone : (match beforePrinting.runFunction ⟨2⟩ 6 with
      | (.done (.ok ()), n) => decide (n.output.written = "nil\nfalse\n".toUTF8)
      | _ => false) = true := by decide +kernel
  split at hdone
  · next n hrun =>
      have hwritten : n.output.written = "nil\nfalse\n".toUTF8 := of_decide_eq_true hdone
      obtain ⟨printed, hprinted, hroom⟩ := (failing_output hrun).1 rfl
      have hempty : beforePrinting.output.written = .empty := rfl
      rw [hempty, ByteArray.empty_append, hwritten] at hprinted
      subst hprinted
      obtain ⟨_, n', hshort, htaken, -, hcut⟩ := hroom 6
      obtain ⟨e, p, q, rfl, hkind, -, hvisits, hover, hlocates, -⟩ := hcut (by decide +kernel)
      refine ⟨n, e, p, q, n', hrun, hwritten, hshort, hkind, ?_, hvisits, hover, hlocates⟩
      rw [htaken, hempty]
      decide +kernel
  · cases hdone

end Machine

end Lox
