import Lox.Proofs.Machine.Failures
import Lox.Proofs.Machine.Frames
import Lox.Proofs.Twins.Tracks

/-! How a script ends whose run comes to the end of its code. It returns nil and leaves everything but its own part of
the stack as it is, so that another script can go on from there. The last value of a machine is only set by such a
return. -/

namespace Lox

namespace Execution

open Machine

variable {α β : Type}

/-! ### The last value -/

/-- The execution leaves the last value alone. -/
def KeepsLast (x : Execution α) : Prop := ∀ m, (after x m).lastValue = m.lastValue

theorem aside_lastValue : Aside Machine.lastValue :=
  ⟨fun _ _ => rfl, fun _ _ => rfl, fun _ _ => rfl, fun _ _ => rfl, fun _ _ => rfl, fun _ _ => rfl⟩

theorem Looks.keepsLast {x : Execution α} (h : Looks x) : KeepsLast x := by
  intro m
  obtain ⟨fs, -, heq⟩ := h m
  rw [heq]

theorem keepsLast_operand (op : Opcode) : KeepsLast (operand op) := by
  cases op with
  | constant =>
      exact Preserves.bind looks_readByte.keepsLast fun _ => .bind (looks_constant _).keepsLast fun _ => .pure _
  | constantWide =>
      exact Preserves.bind looks_readWord.keepsLast fun _ => .bind (looks_constant _).keepsLast fun _ => .pure _
  | getLocal | setLocal | call => exact Preserves.bind looks_readByte.keepsLast fun _ => .pure _
  | getGlobal | setGlobal | defineGlobal => exact Preserves.bind looks_readName.keepsLast fun _ => .pure _
  | jump | jumpIfFalse | loop => exact Preserves.bind looks_readSigned.keepsLast fun _ => .pure _
  | pushNil | pushTrue | pushFalse | pop | add | subtract | multiply | divide | negate | equal | notEqual | greater
    | greaterEqual | less | lessEqual | not | ret | print => exact Preserves.pure _

theorem keepsLast_fetch : KeepsLast fetch := by
  refine Preserves.bind looks_readByte.keepsLast fun byte => ?_
  split
  · exact keepsLast_operand _
  · exact .fail _

theorem keepsLast_callFunction (handle : Handle) (count : Nat) : KeepsLast (callFunction handle count) := by
  refine Preserves.get fun m => ?_
  split
  · exact .fail _
  · exact .ite (.fail _) (.ite (.fail _) (.ite (.fail _) (.modify fun _ => rfl)))

theorem keepsLast_callValue (callee : Value) (count : Nat) : KeepsLast (callValue callee count) := by
  unfold callValue
  split
  · refine Preserves.get fun m => ?_
    split
    · exact keepsLast_callFunction _ _
    · exact preserves_callNative aside_lastValue _ _
    · exact .fail _
  · exact Preserves.fail _

/-- A return that does not end the script leaves the last value alone. -/
theorem lastValue_returnFrom {m m' : Machine} (h : returnFrom.run m = .ok .next m') : m'.lastValue = m.lastValue := by
  unfold returnFrom at h
  cases hpop : pop.run m with
  | error stop n =>
      rw [run_bind_of_error hpop] at h
      cases h
  | ok v n =>
      rw [run_bind_of_ok hpop, run_bind_of_ok (EStateM.run_get _)] at h
      refine Eq.trans ?_ ((preserves_pop aside_lastValue).ok hpop)
      split at h
      · cases h
      · next frame outer _ =>
          cases houter : outer.isEmpty with
          | true =>
              rw [houter] at h
              cases h
          | false =>
              rw [houter] at h
              refine Preserves.ok (g := Machine.lastValue) (x := do
                modify fun m => { m with frames := outer }
                truncate frame.base
                push v
                modify fun m => m.record (.returned m.frames.length)
                return Flow.next) ?_ h
              exact .bind (.modify fun _ => rfl) fun _ => .bind (.modify fun _ => rfl) fun _ =>
                (preserves_push aside_lastValue v).bind fun _ => .bind (.modify fun _ => rfl) fun _ => .pure _

theorem lastValue_perform {m m' : Machine} {i : Fetched} (hi : ∀ op, i = .plain op → op.operandSize = 0)
    (h : (perform i).run m = .ok .next m') : m'.lastValue = m.lastValue := by
  rcases Fetched.straight_or hi with hstraight | rfl | ⟨distance, rfl⟩ | ⟨distance, rfl⟩ | ⟨count, rfl⟩
  · obtain ⟨x, heq, hx⟩ := exists_straight aside_lastValue hstraight
    rw [heq] at h
    exact hx.ok (flow_of_next h).2
  · exact lastValue_returnFrom h
  · exact Preserves.ok (Looks.keepsLast (looks_jump distance)) (flow_of_next h).2
  · refine Preserves.ok (g := Machine.lastValue) (Preserves.bind (looks_peek 0).keepsLast fun v => ?_) h
    exact .ite (Preserves.next (looks_jump distance).keepsLast) (.pure _)
  · refine Preserves.ok (g := Machine.lastValue) (Preserves.bind (looks_peek count).keepsLast fun v => ?_) h
    exact Preserves.next (keepsLast_callValue v count)

theorem lastValue_step {m m' : Machine} (h : step.run m = .ok .next m') : m'.lastValue = m.lastValue := by
  rw [step_eq] at h
  obtain ⟨i, m₁, hfetch, hperform⟩ := run_bind_eq_ok.mp h
  exact (lastValue_perform (sized_of_fetch hfetch) hperform).trans (Preserves.ok keepsLast_fetch hfetch)

end Execution

theorem Machine.Goes.lastValue {k : Nat} {m m' : Machine} (h : m.Goes k m') : m'.lastValue = m.lastValue := by
  induction h with
  | refl => rfl
  | step hs _ ih => exact ih.trans (Execution.lastValue_step hs)

/-! ### The end of a script -/

/-- The end of the code of a script: nil is returned. -/
def leaving (m : Nat) : List Spot := [⟨m, .plain .pushNil, [], 0⟩, ⟨m + 1, .plain .ret, [], 1⟩]

/-- No variable of a program is local at the end. -/
theorem Block.Laid.after_top {scope after : List String} {a b : Nat} {p : Block} {sp : List Spot}
    (h : Block.Laid true scope a p sp b after) : after = scope := by
  match h with
  | .nil => rfl
  | .cons hs hr => exact hr.after_top.trans hs.after_top

/-- The code of a script is that of its program and its end. -/
theorem Routine.Laid.script {p : Block} {code : List Spot} (h : Routine.Laid ⟨none, [], p⟩ code) :
    ∃ sp m, code = sp ++ leaving m ∧ Block.Laid true [] 0 p sp m [] := by
  cases h with
  | @mk _ m after hb =>
      obtain rfl : after = [] := Block.Laid.after_top hb
      exact ⟨_, m, rfl, hb⟩

/-- What a stage has for the script of a program. -/
theorem Stage.script_code (S : Stage) {script : Handle} {p : Block} (h : S.lib.routine script = some ⟨none, [], p⟩) :
    ∃ f sp stop, Coded S.heap script ⟨none, [], p⟩ f (S.code script) ∧ S.code script = sp ++ leaving stop ∧
      Block.Laid true [] 0 p sp stop [] ∧ f.chunk.size = stop + 2 := by
  obtain ⟨f, hf⟩ := S.coded script _ h
  obtain ⟨sp, stop, hcode, hlaid⟩ := hf.laid.script
  refine ⟨f, sp, stop, hf, hcode, hlaid, ?_⟩
  have hwhole := hf.whole
  rw [hcode] at hwhole
  exact hwhole.unique (hlaid.contiguous.append ⟨rfl, rfl, rfl⟩)

namespace Machine

open Execution

variable {m : Machine} {script : Handle} {a : Nat} {below : List Value}

/-- The end of a script takes two instructions and leaves nil, unless the stack is full. -/
theorem run_leaving (hframes : m.frames = [⟨script, a, below.length⟩])
    (hvalues : m.stack.toList.reverse = .object script :: below) (hall : ∀ p ∈ leaving a, m.Has script p) :
    (∃ l, step.run m = .error (.error .stackOverflow) l) ∨
      ∃ l, step.run m = .ok .next l ∧ l.frames = [⟨script, a + 1, below.length⟩] ∧
        step.run l = .ok .halt (Machine.config { m with lastValue := .nil } [] below) := by
  have hnil : step.run (m.config [⟨script, a, below.length⟩] (.object script :: below)) =
      m.pushed [⟨script, a + 1, below.length⟩] (.object script :: below) .nil :=
    step_nil (hall _ List.mem_cons_self)
  obtain ⟨journal, hreturn⟩ := step_return (hall _ (List.mem_cons_of_mem _ List.mem_cons_self)) [] .nil
    [.object script] below
  rw [← hvalues, ← hframes, config_self] at hnil
  unfold pushed at hnil
  split at hnil
  · exact .inl ⟨_, hnil⟩
  · refine .inr ⟨_, hnil, rfl, ?_⟩
    rw [hvalues]
    exact hreturn

/-- A script that comes to its end and ends well leaves the machine as it was there, but for its part of the stack. -/
theorem Goes.leaves {j budget : Nat} {n e : Machine} (hg : n.Goes j e)
    (hframes : e.frames = [⟨script, a, below.length⟩]) (hvalues : e.stack.toList.reverse = .object script :: below)
    (hall : ∀ p ∈ leaving a, e.Has script p)
    (hrun : n.resume budget = (.done (.ok ()), m)) :
    ∃ status journal, m = Machine.config { e with lastValue := .nil, status, journal } [] below := by
  rcases run_leaving hframes hvalues hall with ⟨l, herror⟩ | ⟨l, hnext, -, hhalt⟩
  · have hstops : n.Stops .stackOverflow l := ⟨j, e, hg, herror⟩
    obtain ⟨hresult, -⟩ := hstops.ends.2 hrun
    cases hresult
  · have hhalts : n.Halts (Machine.config { e with lastValue := .nil } [] below) :=
      ⟨j + 1, l, hg.trans (.single hnext), hhalt⟩
    obtain ⟨hresult, rfl⟩ := hhalts.ends.2 hrun
    unfold haltOk at hresult ⊢
    split at hresult
    · cases hresult
    · next hflush =>
        rw [if_neg hflush]
        exact ⟨_, _, rfl⟩

end Machine

namespace Track

variable {K : Track} {below : List Value} {m m' : Machine}

/-- The piece of the left script is all of its code but for the end, and the script is only called from outside. -/
structure Leaves (K : Track) (below : List Value) : Prop where
  hidden : K.hidden = below.length + 1
  code : K.left.code K.script = K.code ++ leaving K.stop
  routine : ∃ r, K.left.lib.routine K.script = some r
  outside : ∀ k', ¬ K.twins K.script k'

namespace Leaves

variable (hK : K.Leaves below)

include hK

/-- At the end of its piece the script is the only call, and has no values of its own. -/
theorem at_stop (hm : K.pairing.Machines m m') (hr : K.left.Running below m) (hstop : K.AtStop m) :
    m.frames = [⟨K.script, K.stop, below.length⟩] ∧ m.stack.toList.reverse = .object K.script :: below ∧
      ∀ p ∈ leaving K.stop, m.Has K.script p := by
  obtain ⟨f, fs, hfs, hscript, hip⟩ := hstop
  obtain ⟨k, fs', own, rest, p, hp⟩ := hr.poised
  cases hfs.symm.trans hp.frames
  obtain rfl : k = K.script := hscript
  obtain ⟨r, hroutine⟩ := hK.routine
  obtain ⟨g, hcoded⟩ := K.left.coded _ r hroutine
  obtain ⟨rfl, rfl⟩ := alone hm hr hp hK.hidden ⟨g, hcoded.object⟩ hK.outside
  have hleaving : ∀ q ∈ leaving K.stop, q ∈ K.left.code K.script :=
    fun q hq => hK.code ▸ List.mem_append_right _ hq
  have hoffset : p.offset = K.stop := hip
  obtain rfl := hcoded.whole.eq_of_offset hp.mem (hleaving _ List.mem_cons_self) hoffset
  obtain rfl : own = [] := by
    have hheight : 1 = 1 + own.length := hp.height
    exact List.eq_nil_of_length_eq_zero (by omega)
  exact ⟨hp.frames, hp.values, fun q hq => hr.holds.has hroutine (hleaving q hq)⟩

/-- A script that gets to the end of its piece has gone side by side with the other one. -/
theorem reaches {j : Nat} {n : Machine} {base : Nat} (hfits : K.Fits) (hm : K.pairing.Machines m m')
    (hr : K.left.Running below m) (hkeeps : K.right.heap.Extends m'.heap) (hg : m.Goes j n)
    (hn : n.frames = [⟨K.script, K.stop, base⟩]) : ∃ n', m'.Goes j n' ∧ K.pairing.Machines n n' := by
  have hlevel : ∀ l l', K.pairing.Machines l l' → K.left.Running below l → ¬ K.AtStop l →
      K.pairing.Levelled K.left K.right l l' := fun _ _ => hfits.levelled
  refine (Pairing.goes_along hlevel hm hr hkeeps hg).resolve_right ?_
  rintro ⟨i, l, l', hl, hrl, hstop, hgoes⟩
  -- from the end of the piece it takes one instruction to a place behind it, and then the script is over
  obtain ⟨hframes, hvalues, hall⟩ := hK.at_stop hl hrl hstop
  cases hgoes with
  | step hs hrest =>
      rcases Machine.run_leaving hframes hvalues hall with ⟨_, herror⟩ | ⟨l₁, hnext, hframes₁, hhalt⟩
      · rw [hs] at herror
        cases herror
      · rw [hs] at hnext
        cases hnext
        cases hrest with
        | refl =>
            have hip := congrArg (fun fs => fs.map Frame.ip) (hn.symm.trans hframes₁)
            simp at hip
        | step hs' _ =>
            rw [hs'] at hhalt
            cases hhalt

end Leaves

end Track

end Lox
