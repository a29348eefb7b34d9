import Lox.Proofs.Compile.Lines
import Lox.Proofs.Discipline.Effects
import Lox.Proofs.Discipline.Frames

/-! Where a runtime error says that it happened. An error shows for each active call the line of the byte before its
next one. That this is the line of the instruction that the call executes has three reasons: all bytes of an
instruction have one line; a waiting call has read its Call instruction and no more; and an instruction that fails has
read all of its bytes, and has neither opened nor closed a call. -/

namespace Lox

open Machine

namespace Stage

open Execution

variable {S : Stage} {script k : Handle} {below own rest : List Value} {heap : Heap} {m m' : Machine} {fs : List Frame}
  {p : Spot}

/-! ### The calls around a call -/

/-- The calls that wait for a call, the innermost first, and the values below it. Each waits behind the instruction that
made the call; the outermost one is that of the script, and the functions of the others have names. -/
inductive Waits (S : Stage) (script : Handle) (below : List Value) (heap : Heap) :
    Handle → List Frame → List Value → Prop where
  | script : Waits S script below heap script [] below
  | call {k caller : Handle} {fs : List Frame} {own rest : List Value} {q : Spot} {count : Nat} (hk : heap.Declares k)
      (hq : q ∈ S.code caller) (hcall : q.instr = .call count) (hown : ∀ v ∈ own, v.Declared heap)
      (hrest : Waits S script below heap caller fs rest) :
      Waits S script below heap k (⟨caller, q.next, rest.length⟩ :: fs) (own ++ .object caller :: rest)

namespace Waits

theorem mono {heap' : Heap} (h : S.Waits script below heap k fs rest) (hh : heap.Extends heap') :
    S.Waits script below heap' k fs rest := by
  induction h with
  | script => exact .script
  | call hk hq hcall hown _ ih => exact .call (hk.mono hh) hq hcall (fun v hv => (hown v hv).mono hh) ih

theorem pending (h : S.Waits script below heap k fs rest) :
    ∀ caller ∈ fs, ∃ q ∈ S.code caller.function, ∃ count, q.instr = .call count ∧ caller.ip = q.next := by
  induction h with
  | script => exact nofun
  | call _ hq hcall _ _ ih => exact List.forall_mem_cons.mpr ⟨⟨_, hq, _, hcall, rfl⟩, ih⟩

theorem outermost (h : S.Waits script below heap k fs rest) (first : Frame) (hfirst : first.function = k) :
    ∃ inner last, first :: fs = inner ++ [last] ∧ last.function = script ∧
    ∀ frame ∈ inner, heap.Declares frame.function := by
  induction h generalizing first with
  | script => exact ⟨[], first, rfl, hfirst, nofun⟩
  | @call k caller fs own rest q count hk _ _ _ _ ih =>
      obtain ⟨inner, last, hframes, hlast, hinner⟩ := ih ⟨caller, q.next, rest.length⟩ rfl
      refine ⟨first :: inner, last, by rw [hframes]; rfl, hlast, List.forall_mem_cons.mpr ⟨?_, hinner⟩⟩
      rw [hfirst]
      exact hk

end Waits

theorem Stands.routine {n : Nat} {vs : List Value} (h : S.Stands below heap n fs vs) :
    ∀ frame ∈ fs, ∃ r, S.lib.routine frame.function = some r := by
  induction h with
  | bottom => exact nofun
  | call hk _ _ _ ih => exact List.forall_mem_cons.mpr ⟨⟨_, hk⟩, ih⟩

/-! ### Runs -/

/-- A machine in the middle of a run of a script, which has given no script away. -/
structure Traced (S : Stage) (script : Handle) (below : List Value) (m : Machine) : Prop where
  running : S.Running below m
  calls : ∀ {k fs own rest p}, S.Poised below m k fs own rest p →
    (∀ v ∈ own, v.Declared m.heap) ∧ S.Waits script below m.heap k fs rest
  globals : m.DeclaredGlobals
  within : m.Within m.limits

/-- The values of the innermost call are those above its function. -/
theorem Traced.of_calls {ip : Nat} (hr : S.Running below m) (hframes : m.frames = ⟨k, ip, rest.length⟩ :: fs)
    (hvalues : m.stack.toList.reverse = own ++ .object k :: rest) (hown : ∀ v ∈ own, v.Declared m.heap)
    (hwaits : S.Waits script below m.heap k fs rest) (hglobals : m.DeclaredGlobals) (hwithin : m.Within m.limits) :
    S.Traced script below m := by
  refine ⟨hr, fun {k' fs' own' rest' p} hp => ?_, hglobals, hwithin⟩
  obtain ⟨hframe, rfl⟩ := List.cons.inj (hframes.symm.trans hp.frames)
  obtain ⟨rfl, -, hlen⟩ := Frame.mk.inj hframe
  obtain ⟨rfl, hrest⟩ := List.append_inj' (hvalues.symm.trans hp.values) (by simp [hlen])
  obtain ⟨-, rfl⟩ := List.cons.inj hrest
  exact ⟨hown, hwaits⟩

namespace Traced

theorem effect (h : S.Traced script below m) (hS : S.Discreet) (hp : S.Poised below m k fs own rest p) :
    Effect p k fs rest (step.run m) := by
  have hsize := hp.size
  have hpos : 0 < p.height := by
    unfold Spot.height
    omega
  have hroom : rest.length < m.limits.stackMax := by
    have := h.within.stack
    omega
  have he := hp.active.effect hp.mem hp.height hp.known hS (h.calls hp).1 h.globals hroom
  rw [← hp.frames, ← hp.values, config_self] at he
  exact he

/-- What one step keeps. -/
theorem next (h : S.Traced script below m) (hS : S.Discreet) (hs : step.run m = .ok .next m') :
    S.Traced script below m' := by
  obtain ⟨k, fs, own, rest, p, hp⟩ := h.running.poised
  obtain ⟨-, hwaits⟩ := h.calls hp
  have hrunning := (hp.next hs).1
  have hafter : after step m = m' := by rw [Execution.after, hs]
  have hkeeps : m.heap.Extends m'.heap := hafter ▸ (grows_step m).keeps
  have hwithin : m'.Within m'.limits := by
    have hstep := (safe_step h.within).after
    rw [hafter] at hstep
    rw [hstep.limits_eq]
    exact hstep
  have he := h.effect hS hp
  rw [hs] at he
  cases he with
  | inside hown hglobals =>
      exact .of_calls hrunning rfl (values_config _ _ _) hown (hwaits.mono hkeeps) hglobals hwithin
  | enter hcall hlabel hargs hown hglobals =>
      exact .of_calls hrunning rfl (values_config _ _ _) hargs
        (.call hlabel hp.mem hcall hown (hwaits.mono hkeeps)) hglobals hwithin
  | @leave m₁ v hv hglobals =>
      cases hwaits with
      | script => exact absurd rfl hrunning.active
      | @call _ caller fs own rest q count _ _ _ hown hrest =>
          have hall : ∀ w ∈ v :: own, w.Declared m₁.heap :=
            List.forall_mem_cons.mpr ⟨hv, fun w hw => (hown w hw).mono hkeeps⟩
          exact .of_calls hrunning rfl (values_config _ _ _) hall (hrest.mono hkeeps) hglobals hwithin

/-- What one step keeps, a run keeps. -/
theorem goes {n : Nat} (h : S.Traced script below m) (hS : S.Discreet) (hg : m.Goes n m') :
    S.Traced script below m' := by
  induction hg with
  | refl => exact h
  | step hs _ ih => exact ih (h.next hS hs)

/-- A step that fails has read its instruction, and leaves the calls as they are. -/
theorem failed {stop : Stop} (h : S.Traced script below m) (hS : S.Discreet) (hp : S.Poised below m k fs own rest p)
    (hs : step.run m = .error stop m') : m'.frames = ⟨k, p.next, rest.length⟩ :: fs := by
  have he := h.effect hS hp
  rw [hs] at he
  cases he
  rfl

/-- Whatever a step comes to, no global variable holds a script. -/
theorem declared_after (h : S.Traced script below m) (hS : S.Discreet) : (after step m).DeclaredGlobals := by
  obtain ⟨k, fs, own, rest, p, hp⟩ := h.running.poised
  have he := h.effect hS hp
  unfold Execution.after
  generalize step.run m = result at he
  cases he with
  | inside _ hglobals | enter _ _ _ _ hglobals | leave _ hglobals | halt hglobals | error hglobals => exact hglobals

end Traced

/-- A run begins with the script as its only call. -/
theorem Running.traced_start {r : Routine} (hr : S.Running m.stack.toList.reverse m') (hm : S.Holds m)
    (hscript : S.lib.routine script = some r) (hparams : r.params = []) (hstart : m.start script = (.paused, m'))
    (hglobals : m.DeclaredGlobals) : S.Traced script m.stack.toList.reverse m' := by
  obtain ⟨f, hc⟩ := S.coded script r hscript
  have hc := hc.grow hm.keeps
  have harity : f.arity = 0 := by rw [hc.arity, hparams]; rfl
  have hsize : m.stack.size = m.stack.toList.reverse.length := by simp
  rcases start_cases hc.object harity with ⟨-, e, status, journal, vs, heq, -⟩ | ⟨hroom, status, journal, heq⟩
  · rw [hstart] at heq
    cases heq
  · rw [hstart] at heq
    cases heq
    have hown : ∀ v ∈ ([] : List Value), v.Declared m.heap := nofun
    refine .of_calls hr (by rw [← hsize]; rfl) (values_config _ _ _) hown .script hglobals ⟨rfl, ?_, hroom.2⟩
    rw [size_config, List.length_cons, ← hsize]
    exact hroom.1

end Stage

/-! ### Lines of routines -/

/-- The code of each routine has the lines of a source. -/
def Located (heap : Heap) (routine : Handle → Option Routine) : Prop :=
  ∀ k r, routine k = some r → ∃ f source, heap.function? k = some f ∧ f.chunk.Attributed (tokenize source)

section Located

variable {heap heap' : Heap} {routine : Handle → Option Routine} {made : Handle → Prop} {m m' : Machine}

theorem Located.grow (h : Located heap routine) (hg : heap.Grows heap') : Located heap' routine := by
  intro k r hr
  obtain ⟨f, source, hf, hlines⟩ := h k r hr
  exact ⟨f, source, hg.keeps.function? hf, hlines⟩

theorem Located.accept {p : Block} {source : String} {script : Handle} (h : Located m.heap routine)
    (hmakes : m.heap.Makes m'.heap (p.routines script)) (hc : m.compile source = .ok (.ok script, m')) :
    Located m'.heap (addRoutines (p.routines script) routine) := by
  intro k r hr
  rcases addRoutines_cases hmakes hr with hr | hr
  · obtain ⟨f, code, hcoded⟩ := hmakes.coded k r hr
    obtain ⟨c, hrun, hres, status, rfl⟩ := Machine.compile_eq_ok hc
    exact ⟨f, source, hcoded.object, compile_attributed hrun hres.symm (hmakes.fresh k r hr).1 hcoded.object⟩
  · exact h.grow hmakes.grows k r hr

theorem made_of_accept {p : Block} {script : Handle} (hmakes : m.heap.Makes m'.heap (p.routines script))
    (hmade : ∀ k r, routine k = some r → made k) (k : Handle) (r : Routine)
    (hr : addRoutines (p.routines script) routine k = some r) :
    made k ∨ m.heap.cells.size ≤ k.index ∧ k.index < m'.heap.cells.size :=
  (addRoutines_cases hmakes hr).elim (fun hr => .inr (hmakes.fresh k r hr)) fun hr => .inl (hmade k r hr)

/-- Whatever a machine has lived through, the code of all functions that accepted sources made has lines. -/
theorem Machine.Lived.located (h : m.Lived made) : ∃ routine, Collects m.heap made routine ∧ Located m.heap routine ∧
    ∀ k r, routine k = some r → made k := by
  refine h.heap_induction (motive := fun made heap => ∃ routine, Collects heap made routine ∧ Located heap routine ∧
      ∀ k r, routine k = some r → made k) (fun heap => ⟨_, .empty heap, nofun, nofun⟩)
    (fun ⟨routine, hr, hl, hmade⟩ hg => ⟨routine, hr.grow hg, hl.grow hg, hmade⟩)
      fun ⟨routine, hr, hl, hmade⟩ hi hc => ?_
  obtain ⟨p, -, hmakes, hsourced⟩ := compile_accepted hi hc
  exact ⟨_, hr.accept hmakes (fun _ _ => Block.routines_closed) hsourced, hl.accept hmakes hc,
    made_of_accept hmakes hmade⟩

end Located

/-! ### What an error says -/

/-- The active calls, the innermost first, each with the offset of the instruction that it executes. The innermost
call is about to carry out its instruction; a waiting one has read the two bytes of its Call instruction. -/
def Machine.executing (m : Machine) : List (Frame × Nat) :=
  match m.frames with
  | [] => []
  | frame :: outer => (frame, frame.ip) :: outer.map fun caller => (caller, caller.ip - 2)

/-- What an error says about the calls that were active when an instruction raised it: there is an entry for each,
with the line of the instruction that the call executes, which is a Call for all but the innermost one; the line of
the error is that of the first entry. The last entry is that of the script and has no name, and each of the others has
the name that a source declares its function with. -/
structure Machine.Accounts (m : Machine) (script : Handle) (e : RuntimeError) : Prop where
  lines : List.Forall₂ (fun call entry => ∃ f op, m.heap.function? call.1.function = some f ∧
    f.chunk.InstructionAt call.2 op ∧ f.chunk.lineAt? call.2 = some entry.line) m.executing e.trace
  pending : ∀ caller ∈ m.frames.tail, ∃ f, m.heap.function? caller.function = some f ∧ 2 ≤ caller.ip ∧
    f.chunk.InstructionAt (caller.ip - 2) .call
  line : e.trace.head?.map (·.line) = some e.line
  names : ∃ inner outermost names, m.frames = inner ++ [outermost] ∧ outermost.function = script ∧
    e.trace.map (·.function) = names.map some ++ [none] ∧
    List.Forall₂ (fun frame name => ∃ r, FromSource m.heap frame.function r ∧ r.name = some name) inner names

namespace Stage

open Execution

variable {S : Stage} {script k : Handle} {below own rest : List Value} {m m' : Machine} {fs : List Frame} {p q : Spot}
  {r : Routine}

/-- Behind the instruction at a spot a call shows the line of the instruction, and the name of its routine. -/
theorem exists_entry (hl : Located S.heap S.lib.routine) (hk : S.lib.routine k = some r) (hq : q ∈ S.code k) :
    ∃ f l, f.chunk.InstructionAt q.offset q.instr.opcode ∧ f.chunk.lineAt? q.offset = some l ∧
      ∀ m, S.Holds m → m.heap.function? k = some f ∧ ∀ base, m.traceEntry ⟨k, q.next, base⟩ = ⟨l, r.name⟩ := by
  obtain ⟨f, hc⟩ := S.coded k r hk
  obtain ⟨f', source, hf', hlines⟩ := hl k r hk
  obtain rfl : f = f' := Option.some.inj (hc.object.symm.trans hf')
  have hat : f.chunk.InstructionAt q.offset q.instr.opcode := ⟨_, hc.decoded, List.mem_map.mpr ⟨q, hq, rfl⟩⟩
  obtain ⟨l, hline⟩ := hlines.lineAt? hat
  have hnext : q.next = q.offset + 1 + q.instr.opcode.operandSize := by
    rw [Spot.next, (hc.holds q hq).size_eq, Nat.add_assoc]
  refine ⟨f, l, hat, hline _ (Nat.le_refl _) (Nat.le_add_right _ _), fun m hm => ?_⟩
  have hc := hc.grow hm.keeps
  have hlast : f.chunk.lineAt? (q.next - 1) = some l := hline _ (by omega) (by omega)
  refine ⟨hc.object, fun base => ?_⟩
  simp only [traceEntry, hc.object, hlast, hc.functionName?_eq, Option.getD_some]

/-- The name that a call shows is that of its routine. -/
theorem Holds.function_traceEntry {frame : Frame} (hm : S.Holds m) (hk : S.lib.routine frame.function = some r) :
    (m.traceEntry frame).function = r.name := by
  obtain ⟨f, hc⟩ := S.coded frame.function r hk
  have hc := hc.grow hm.keeps
  simp only [traceEntry, hc.object, hc.functionName?_eq]

/-- The names that the active calls show: all have one but the outermost call, which is that of the script. -/
theorem Traced.names (h : S.Traced script below m) (hp : S.Poised below m k fs own rest p) (hm' : S.Holds m')
    (hsourced : ∀ k r, S.lib.routine k = some r → FromSource S.heap k r)
    (hscript : ∀ r, S.lib.routine script = some r → r.name = none) :
    ∃ inner outermost names, m.frames = inner ++ [outermost] ∧ outermost.function = script ∧
      m.frames.map (fun frame => (m'.traceEntry frame).function) = names.map some ++ [none] ∧
      List.Forall₂ (fun frame name => ∃ r, FromSource m.heap frame.function r ∧ r.name = some name) inner names := by
  have hm := hp.active.holds
  obtain ⟨inner, last, hframes, hlast, hinner⟩ := (h.calls hp).2.outermost ⟨k, p.offset, rest.length⟩ rfl
  rw [← hp.frames] at hframes
  have hroutine : ∀ frame ∈ inner ++ [last], ∃ r, S.lib.routine frame.function = some r := by
    rw [← hframes, hp.frames]
    exact List.forall_mem_cons.mpr ⟨hp.active.routine, hp.active.waits.routine⟩
  have hnamed : ∀ frame ∈ inner, ∃ r name, S.lib.routine frame.function = some r ∧ r.name = some name ∧
      (m'.traceEntry frame).function = some name := by
    intro frame hmem
    obtain ⟨r, hr⟩ := hroutine frame (List.mem_append_left _ hmem)
    obtain ⟨f, hc⟩ := S.coded _ r hr
    obtain ⟨name, hname⟩ := (hc.grow hm.keeps).name_of_declares (hinner frame hmem)
    exact ⟨r, name, hr, hname, (hm'.function_traceEntry hr).trans hname⟩
  refine ⟨inner, last, inner.map fun frame => (m'.traceEntry frame).function.getD "", hframes, hlast, ?_, ?_⟩
  · obtain ⟨r, hr⟩ := hroutine last (by simp)
    have hnone : (m'.traceEntry last).function = none := by
      rw [hm'.function_traceEntry hr]
      exact hscript r (hlast ▸ hr)
    rw [hframes, List.map_append, List.map_singleton, hnone, List.map_map]
    congr 1
    refine List.map_congr_left fun frame hmem => ?_
    obtain ⟨r, name, -, -, hname⟩ := hnamed frame hmem
    rw [Function.comp_apply, hname, Option.getD_some]
  · rw [List.forall₂_map_right_iff, List.forall₂_same]
    intro frame hmem
    obtain ⟨r, name, hr, hname, hentry⟩ := hnamed frame hmem
    exact ⟨r, (hsourced _ r hr).grow hm.keeps, by rw [hentry, hname, Option.getD_some]⟩

/-- **An error says where it happened.** -/
theorem Traced.accounts {kind : ErrorKind} (h : S.Traced script below m) (hS : S.Discreet)
    (hl : Located S.heap S.lib.routine) (hsourced : ∀ k r, S.lib.routine k = some r → FromSource S.heap k r)
    (hscript : ∀ r, S.lib.routine script = some r → r.name = none) (hs : step.run m = .error (.error kind) m') :
    m.Accounts script (m'.runtimeError kind) := by
  obtain ⟨k, fs, own, rest, p, hp⟩ := h.running.poised
  have hwaits := (h.calls hp).2
  have hm := hp.active.holds
  have hm' := (hp.error hs).1
  have htrace : (m'.runtimeError kind).trace = m'.traceEntry ⟨k, p.next, rest.length⟩ :: fs.map m'.traceEntry := by
    show m'.frames.map m'.traceEntry = _
    rw [h.failed hS hp hs]
    rfl
  have hexecuting : m.executing = (⟨k, p.offset, rest.length⟩, p.offset) :: fs.map fun caller =>
    (caller, caller.ip - 2) := by
    rw [executing, hp.frames]
  have hcaller : ∀ caller ∈ fs, ∃ f l name, m.heap.function? caller.function = some f ∧ 2 ≤ caller.ip ∧
      f.chunk.InstructionAt (caller.ip - 2) .call ∧ f.chunk.lineAt? (caller.ip - 2) = some l ∧
      m'.traceEntry caller = ⟨l, name⟩ := by
    intro caller hmem
    obtain ⟨q, hq, count, hcall, hip⟩ := hwaits.pending caller hmem
    obtain ⟨r, hr⟩ := hp.active.waits.routine caller hmem
    obtain ⟨f, l, hat, hline, hentry⟩ := exists_entry hl hr hq
    have hnext : q.next = q.offset + 2 := by rw [Spot.next, hcall]; rfl
    rw [hcall] at hat
    obtain ⟨function, ip, base⟩ := caller
    obtain rfl : ip = q.next := hip
    have hoffset : q.next - 2 = q.offset := by omega
    have hle : 2 ≤ q.next := by omega
    exact ⟨f, l, r.name, (hentry m hm).1, hle, hoffset ▸ hat, hoffset ▸ hline, (hentry m' hm').2 base⟩
  obtain ⟨r, hr⟩ := hp.active.routine
  obtain ⟨f, l, hat, hline, hentry⟩ := exists_entry hl hr hp.mem
  have hfirst := (hentry m' hm').2 rest.length
  refine ⟨?_, fun caller hmem => ?_, ?_, ?_⟩
  · rw [hexecuting, htrace, hfirst]
    refine .cons ⟨f, _, (hentry m hm).1, hat, hline⟩ ?_
    rw [List.forall₂_map_left_iff, List.forall₂_map_right_iff, List.forall₂_same]
    intro caller hmem
    obtain ⟨f, l, name, hf, -, hat, hline, hentry⟩ := hcaller caller hmem
    exact ⟨f, _, hf, hat, by rw [hentry]; exact hline⟩
  · rw [hp.frames] at hmem
    obtain ⟨f, l, name, hf, hle, hat, -⟩ := hcaller caller hmem
    exact ⟨f, hf, hle, hat⟩
  · show _ = some (((m'.runtimeError kind).trace.head?.map (·.line)).getD 0)
    rw [htrace]
    rfl
  · have hnames : (m'.runtimeError kind).trace.map (·.function) = m.frames.map fun frame =>
      (m'.traceEntry frame).function := by
      rw [htrace, hp.frames, List.map_cons, List.map_cons, List.map_map, hfirst, hm'.function_traceEntry hr]
      rfl
    rw [hnames]
    exact h.names hp hm' hsourced hscript

/-- A run that ends with an error has come to an instruction that raised it, or no call is active any more. -/
theorem Running.raised {budget : Nat} {e : RuntimeError} (h : S.Running below m)
    (hr : m.resume budget = (.done (.error e), m')) :
    e.trace = [] ∨ ∃ n m₁ m₂, m.Goes n m₁ ∧ step.run m₁ = .error (.error e.kind) m₂ ∧
      e = m₂.runtimeError e.kind := by
  induction budget generalizing m with
  | zero => cases hr
  | succ budget ih =>
      obtain ⟨_, _, _, _, _, hp⟩ := h.poised
      cases hs : step.run m with
      | ok flow m₁ =>
          cases flow with
          | next =>
              rw [resume_succ hs] at hr
              exact (ih (hp.next hs).1 hr).imp_right fun ⟨n, m₂, m₃, hg, hraised⟩ =>
                ⟨n + 1, m₂, m₃, .step hs hg, hraised⟩
          | halt =>
              obtain ⟨-, -, -, hframes, -⟩ := hp.halt hs
              have hend := (Halts.ends ⟨0, m, .refl m, hs⟩ |>.2 hr).1
              unfold haltOk at hend
              split at hend
              · cases hend
                exact .inl (congrArg (List.map m₁.traceEntry) hframes)
              · cases hend
      | error stop m₁ =>
          obtain ⟨-, ⟨kind, rfl, -⟩, -⟩ := hp.error hs
          obtain ⟨he, -⟩ := Stops.ends ⟨0, m, .refl m, hs⟩ |>.2 hr
          cases he
          exact .inr ⟨0, m, m₁, .refl m, hs, rfl⟩

end Stage

/-- A script for which there is no room never becomes active. -/
theorem Machine.trace_of_start {m m' : Machine} {script : Handle} {f : FunctionObject} {e : RuntimeError}
    (hf : m.heap.function? script = some f) (ha : f.arity = 0) (hstart : m.start script = (.done (.error e), m')) :
    e.trace = [] := by
  have hframes : m'.frames = [] := by
    rcases start_eq hf ha with ⟨e', status, journal, vs, heq, -⟩ | ⟨status, journal, heq⟩ <;>
      rw [hstart] at heq <;> cases heq
    rfl
  unfold start at hstart
  split at hstart
  · cases hstart
  · next kind m₁ _ =>
      cases hstart
      exact congrArg (List.map m₁.traceEntry) hframes
  · cases hstart

/-- Two things that are known about a value are known together. -/
theorem Value.Known.and {heap : Heap} {made made' : Handle → Prop} {v : Value} (h : v.Known heap made)
    (h' : v.Known heap made') : v.Known heap fun k => made k ∧ made' k := by
  cases v with
  | object k =>
      obtain ⟨o, ho, hf⟩ := h
      obtain ⟨o', ho', hf'⟩ := h'
      obtain rfl : o = o' := Option.some.inj (ho.symm.trans ho')
      exact ⟨o, ho, fun f heq => ⟨hf f heq, hf' f heq⟩⟩
  | nil | bool | number => trivial

/-- The stage of a run of a script: what holds of the code of its functions, and of each machine that the run visits. -/
structure Stage.Accounted (S : Stage) (script : Handle) (below : List Value) (made : Handle → Prop)
    (m : Machine) : Prop where
  discreet : S.Discreet
  located : Located S.heap S.lib.routine
  sourced : ∀ k r, S.lib.routine k = some r → FromSource S.heap k r
  made : ∀ k r, S.lib.routine k = some r → made k
  unnamed : ∃ p, S.lib.routine script = some ⟨none, [], p⟩
  holds : S.Holds m
  visited : ∀ m', m.Visits script m' → S.Traced script below m'

theorem Machine.Lived.accounted {made : Handle → Prop} {m m₁ : Machine} {source : String} {script : Handle}
    (hm : m.Lived made) (hglobals : m.KnownGlobals fun k => made k ∧ m.heap.Declares k)
    (hhost : m.KnownHost fun k => made k ∧ m.heap.Declares k) (hc : m.compile source = .ok (.ok script, m₁)) :
    ∃ (S : Stage) (below : List Value), S.Accounted script below
      (fun k => made k ∨ m.heap.cells.size ≤ k.index ∧ k.index < m₁.heap.cells.size) m₁ := by
  obtain ⟨routine₀, hcollects, hlocated, hmade⟩ := hm.located
  have htidy₀ : m.Tidy routine₀ := by
    refine hcollects.tidy hm.reached.sound (fun name v hv => (hglobals name v hv).weaken fun _ _ _ h => h.1) ?_
    exact fun k n hn reading args => (hhost k n hn reading args).imp_right fun hk => hk.weaken fun _ _ _ h => h.1
  obtain ⟨p, -, hmakes, htidy⟩ := htidy₀.accept_makes hc
  have hscript : addRoutines (p.routines script) routine₀ script = some ⟨none, [], p⟩ :=
    addRoutines_new hmakes (List.mem_append_right _ (List.mem_singleton_self _))
  obtain ⟨S, hroutine, hheap, hholds, hvisits, -⟩ := htidy.runs hscript
  obtain ⟨c, hrun, -, status, heq⟩ := Machine.compile_eq_ok hc
  have hsame : m.heap.SameHost m₁.heap := by
    rw [heq]
    exact (changes_compile hrun).sameHost
  have hdeclared : m₁.DeclaredGlobals := by
    have hbefore : m.DeclaredGlobals := fun name v hv => (hglobals name v hv).weaken fun _ _ _ h => h.2
    exact hbefore.grow hm.reached.sound hmakes.grows (by rw [heq])
  have hS : S.Discreet := by
    intro k n hn reading args
    rw [hheap] at hn ⊢
    refine (hhost k n (hsame k n hn) reading args).imp_right fun hk => ?_
    have hbefore : (n.body reading args).Declared m.heap := hk.weaken fun _ _ _ h => h.2
    exact hbefore.mono hmakes.grows.keeps
  rw [← hroutine] at hscript
  refine ⟨S, m₁.stack.toList.reverse, hS, ?_, ?_, ?_, ⟨p, hscript⟩, hholds, ?_⟩
  · rw [hheap, hroutine]
    exact hlocated.accept hmakes hc
  · rw [hheap, hroutine]
    exact htidy.collects.sourced
  · rw [hroutine]
    exact made_of_accept hmakes hmade
  · rintro m' ⟨m₂, n, hstart, hgoes⟩
    have hbegin := hvisits m₂ ⟨m₂, 0, hstart, .refl m₂⟩
    exact (hbegin.traced_start hholds hscript rfl hstart hdeclared).goes hS hgoes

namespace Stage.Accounted

open Execution

variable {S : Stage} {script : Handle} {below : List Value} {made : Handle → Prop} {m m' m'' : Machine}

theorem error {kind : ErrorKind} (h : S.Accounted script below made m) (hv : m.Visits script m')
    (hs : step.run m' = .error (.error kind) m'') : m'.Accounts script (m''.runtimeError kind) := by
  obtain ⟨p, hscript⟩ := h.unnamed
  refine (h.visited m' hv).accounts h.discreet h.located h.sourced (fun r hr => ?_) hs
  rw [hscript] at hr
  cases hr
  rfl

/-- What the globals hold after a step has been made by accepted sources and by the host, and is no script. -/
theorem globals (h : S.Accounted script below made m) (hv : m.Visits script m') :
    (after step m').KnownGlobals fun k => made k ∧ (after step m').heap.Declares k := by
  have ht := h.visited m' hv
  have hholds : S.Holds (after step m') := by
    obtain ⟨_, _, _, _, _, hp⟩ := ht.running.poised
    unfold Execution.after
    cases hs : step.run m' with
    | ok flow m'' =>
        cases flow with
        | next => exact (hp.next hs).1.holds
        | halt => exact (hp.halt hs).1
    | error stop m'' => exact (hp.error hs).1
  intro name v hv
  refine ((hholds.globals name v hv).known.weaken fun k _ _ hk => ?_).and (ht.declared_after h.discreet name v hv)
  obtain ⟨r, hr⟩ := hk
  exact h.made k r hr

theorem ends {budget : Nat} {e : RuntimeError} (h : S.Accounted script below made m)
    (hr : m.runFunction script budget = (.done (.error e), m')) : e.trace = [] ∨ ∃ m₁ m₂, m.Visits script m₁ ∧
      step.run m₁ = .error (.error e.kind) m₂ ∧ e = m₂.runtimeError e.kind := by
  unfold runFunction at hr
  split at hr
  · next m₁ hstart =>
      have hbegin := h.visited m₁ ⟨m₁, 0, hstart, .refl m₁⟩
      refine (hbegin.running.raised hr).imp_right fun ⟨n, m₂, m₃, hg, hraised⟩ =>
        ⟨m₂, m₃, ⟨m₁, n, hstart, hg⟩, hraised⟩
  · obtain ⟨p, hscript⟩ := h.unnamed
    obtain ⟨f, hc⟩ := S.coded script _ hscript
    have hc := hc.grow h.holds.keeps
    exact .inl (trace_of_start hc.object hc.arity hr)

end Stage.Accounted

/-- **Lines of code and of errors.** Let a source be accepted, on any heap. Each function that it makes, the script
among them, has a line for each byte of its code; the lines do not go back; and all bytes of an instruction have the
line of one of the tokens. Let the source be accepted on a machine whose global variables hold only what the host has
made and what accepted sources have declared. Whenever an instruction of a run of the script raises an error, whatever
the clock has said before, the error has an entry for each active call, the innermost first, with the line of the
instruction that the call executes, for a waiting call its Call; the last entry is that of the script, and the others
have the names of their functions; and the line of the error is that of the first entry. An error that no instruction
raises has no entries. The global variables stay as described, whatever becomes of the run. -/
theorem line_attribution :
    (∀ {source : String} {heap : Heap} {printCode : Bool} {journal : Journal} {c : Compilation} {script : Handle},
      compile source heap printCode journal = .ok c → c.result = .ok script →
      (heap.cells.size ≤ script.index ∧ ∃ f, c.heap.function? script = some f) ∧
      ∀ k f, heap.cells.size ≤ k.index → c.heap.function? k = some f → f.chunk.Attributed (tokenize source)) ∧
    ∀ {made : Handle → Prop} {m m₁ : Machine} {source : String} {script : Handle}, m.Lived made →
      m.KnownGlobals (fun k => made k ∧ m.heap.Declares k) → m.KnownHost (fun k => made k ∧ m.heap.Declares k) →
      m.compile source = .ok (.ok script, m₁) →
      (∀ m' m'' kind, m₁.Visits script m' → Execution.step.run m' = .error (.error kind) m'' →
        m'.Accounts script (m''.runtimeError kind)) ∧
      (∀ budget e m', m₁.runFunction script budget = (.done (.error e), m') → e.trace = [] ∨
        ∃ m₂ m₃, m₁.Visits script m₂ ∧ Execution.step.run m₂ = .error (.error e.kind) m₃ ∧
        e = m₃.runtimeError e.kind) ∧
      ∀ m', m₁.Visits script m' → (Execution.after Execution.step m').KnownGlobals fun k =>
        (made k ∨ m.heap.cells.size ≤ k.index ∧ k.index < m₁.heap.cells.size) ∧
          (Execution.after Execution.step m').heap.Declares k := by
  refine ⟨fun hc hok => ⟨compile_script hc hok, fun k f hk hf => compile_attributed hc hok hk hf⟩, ?_⟩
  intro made m m₁ source script hm hglobals hhost hc
  obtain ⟨S, below, h⟩ := hm.accounted hglobals hhost hc
  exact ⟨fun m' m'' kind hv hs => h.error hv hs, fun budget e m' hr => h.ends hr, fun m' hv => h.globals hv⟩

/-- A function with an error on its second line, called on the fourth. -/
theorem line_attribution_inside_call : ∃ script m₁ m' m'' f,
    (create {} false 0 .silent).compile "fun f(a) \x7b\n  return -a;\n\x7d\nf(true);" = .ok (.ok script, m₁) ∧
    m₁.heap.function? script = some f ∧ f.chunk.Attributed (tokenize "fun f(a) \x7b\n  return -a;\n\x7d\nf(true);") ∧
    m₁.Visits script m' ∧ Execution.step.run m' = .error (.error .operandMustBeNumber) m'' ∧
    m'.Accounts script (m''.runtimeError .operandMustBeNumber) ∧
    (m''.runtimeError .operandMustBeNumber).trace = [⟨2, some "f"⟩, ⟨4, none⟩] := by
  have hrun : (((create {} false 0 .silent).compile "fun f(a) \x7b\n  return -a;\n\x7d\nf(true);").toOption.any
      fun compiled => compiled.1.toOption.any fun script => (paused? (compiled.2.start script)).any fun m₂ =>
      (paused? (m₂.resume 6)).any fun m' =>
      match Execution.step.run m' with
      | .error (.error .operandMustBeNumber) m'' =>
        (m''.runtimeError .operandMustBeNumber).trace == [⟨2, some "f"⟩, ⟨4, none⟩]
      | _ => false) = true := by decide +kernel
  simp only [Option.any_eq_true, toOption_eq_some, paused?_eq_some] at hrun
  obtain ⟨⟨_, m₁⟩, hc, script, rfl, m₂, hstart, m', hresume, hrun⟩ := hrun
  split at hrun
  · next m'' hs =>
      have hwithin : m₂.Within {} := by
        have hop : m₁.Operated {} := .compile (.create ..) hc
        have := (proceeds_start hop.within script).1
        rwa [hstart] at this
      have hvisits : m₁.Visits script m' := ⟨m₂, 6, hstart, goes_of_paused hwithin hresume⟩
      have hglobals : (create {} false 0 .silent).KnownGlobals fun k =>
          False ∧ (create {} false 0 .silent).heap.Declares k :=
        fun name v hv => (knownGlobals_create _ _ _ _ name v hv).weaken fun _ _ _ h => h.elim
      have hhost : (create {} false 0 .silent).KnownHost fun k =>
          False ∧ (create {} false 0 .silent).heap.Declares k :=
        fun k n hn reading args => (knownHost_create _ _ _ _ k n hn reading args).imp_right fun hk =>
          hk.weaken fun _ _ _ h => h.elim
      obtain ⟨haccounts, -, -⟩ := line_attribution.2 (.create ..) hglobals hhost hc
      obtain ⟨c, hcompile, hres, status, hm₁⟩ := Machine.compile_eq_ok hc
      obtain ⟨⟨hindex, f, hf⟩, hattributed⟩ := line_attribution.1 hcompile hres.symm
      exact ⟨script, m₁, m', m'', f, hc, by rw [hm₁]; exact hf, hattributed script f hindex hf, hvisits, hs,
        haccounts m' m'' _ hvisits hs, beq_iff_eq.mp hrun⟩
  · cases hrun

end Lox
