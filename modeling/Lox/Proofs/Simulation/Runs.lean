import Lox.Proofs.Simulation.Meets

/-! Whole runs. A run with a budget is over if the machine halts or stops before the budget is used up, and else it
is paused; so what a run comes to does not depend on the budget once the budget is large enough. A run begins with
the script as the only active call, above whatever values were there. -/

namespace Lox

namespace Machine

variable {k budget : Nat} {m m₁ m' : Machine}

open Execution

/-! ### Budgets -/

theorem Goes.steps (hg : m.Goes k m₁) (hk : k ≤ budget) :
    (steps budget).run m = (steps (budget - k)).run m₁ := by
  induction hg generalizing budget with
  | refl => rfl
  | @step k m m' m'' hs _ ih =>
      obtain ⟨b, rfl⟩ : ∃ b, budget = b + 1 := ⟨budget - 1, by omega⟩
      have hone : (Execution.steps (b + 1)).run m = (Execution.steps b).run m' := by
        rw [Execution.steps, run_bind_of_ok hs]
      rw [hone, ih (by omega), show b + 1 - (k + 1) = b - k by omega]

/-- A machine that goes on for longer than the budget is paused. -/
theorem Goes.paused (hg : m.Goes k m₁) (hk : budget ≤ k) : ∃ m', m.resume budget = (.paused, m') := by
  induction hg generalizing budget with
  | refl m =>
      obtain rfl : budget = 0 := by omega
      exact ⟨m, rfl⟩
  | @step k m m' m'' hs _ ih =>
      cases budget with
      | zero => exact ⟨m, rfl⟩
      | succ b =>
          obtain ⟨m₁, hres⟩ := @ih b (by omega)
          refine ⟨m₁, ?_⟩
          unfold resume at hres ⊢
          rw [Execution.steps, run_bind_of_ok hs]
          exact hres

/-- A machine that comes to where the next step is the last one is done with every budget that gets it over that
step, and with no other. -/
theorem Goes.ends {r : Except RuntimeError Unit} (hg : m.Goes k m₁) (hlast : ∀ b, m₁.resume (b + 1) = (.done r, m')) :
    (∃ budget, m.resume budget = (.done r, m')) ∧
      ∀ {budget r' m''}, m.resume budget = (.done r', m'') → r' = r ∧ m'' = m' := by
  have hres : ∀ {budget}, k < budget → m.resume budget = (.done r, m') := by
    intro budget hk
    obtain ⟨b, hb⟩ : ∃ b, budget - k = b + 1 := ⟨budget - k - 1, by omega⟩
    have hlast := hlast b
    unfold Machine.resume at hlast ⊢
    rw [hg.steps (by omega), hb, hlast]
  refine ⟨⟨k + 1, hres (by omega)⟩, fun {budget r' m''} hdone => ?_⟩
  by_cases hk : k < budget
  · rw [hres hk] at hdone
    cases hdone
    exact ⟨rfl, rfl⟩
  · obtain ⟨m₂, hpaused⟩ := hg.paused (Nat.le_of_not_lt hk)
    rw [hpaused] at hdone
    cases hdone

/-- The machine goes on until the script is over. -/
def Halts (m m' : Machine) : Prop := ∃ k m₁, m.Goes k m₁ ∧ step.run m₁ = .ok .halt m'

/-- The machine is not done before the script is over, and afterwards the budget does not matter. -/
theorem Halts.ends (h : m.Halts m') :
    (∃ budget, m.resume budget = (.done m'.haltOk.1, m'.haltOk.2)) ∧
      ∀ {budget r m''}, m.resume budget = (.done r, m'') → r = m'.haltOk.1 ∧ m'' = m'.haltOk.2 := by
  obtain ⟨k, m₁, hg, hs⟩ := h
  refine hg.ends fun b => ?_
  unfold Machine.resume
  rw [steps, run_bind_of_ok hs]
  rfl

theorem Stops.ends {kind : ErrorKind} (h : m.Stops kind m') :
    (∃ budget, m.resume budget = (.done (.error (m'.haltWith kind).1), (m'.haltWith kind).2)) ∧
      ∀ {budget r m''}, m.resume budget = (.done r, m'') →
        r = .error (m'.haltWith kind).1 ∧ m'' = (m'.haltWith kind).2 := by
  obtain ⟨k, m₁, hg, hs⟩ := h
  refine hg.ends fun b => ?_
  unfold Machine.resume
  rw [steps, run_bind_of_error hs]

theorem resume_succ (h : step.run m = .ok .next m₁) : m.resume (budget + 1) = m₁.resume budget := by
  unfold resume
  rw [steps, run_bind_of_ok h]

/-- Two budgets that are large enough come to the same. -/
theorem resume_unique {budget' : Nat} {r r' : Except RuntimeError Unit} {m'' : Machine}
    (h : m.resume budget = (.done r, m')) (h' : m.resume budget' = (.done r', m'')) : r = r' ∧ m' = m'' := by
  induction budget generalizing m budget' with
  | zero => cases h
  | succ b ih =>
      cases budget' with
      | zero => cases h'
      | succ b' =>
          cases hs : step.run m with
          | ok flow m₁ =>
              cases flow with
              | next =>
                  rw [resume_succ hs] at h h'
                  exact ih h h'
              | halt =>
                  have hh : m.Halts m₁ := ⟨0, m, .refl m, hs⟩
                  obtain ⟨rfl, rfl⟩ := hh.ends.2 h
                  obtain ⟨rfl, rfl⟩ := hh.ends.2 h'
                  exact ⟨rfl, rfl⟩
          | error stop m₁ =>
              have hsame : m.resume (b + 1) = m.resume (b' + 1) := by
                unfold resume
                rw [steps, run_bind_of_error hs, steps, run_bind_of_error hs]
              rw [hsame, h'] at h
              cases h
              exact ⟨rfl, rfl⟩

/-! ### The beginning of a run -/

/-- There is room for a script on the stack and among the calls. -/
def CanStart (m : Machine) : Prop := m.stack.size < m.limits.stackMax ∧ 0 < m.limits.framesMax

/-- A script without parameters starts as the only active call if there is room for it, and else overflows the stack. -/
theorem start_cases {script : Handle} {f : FunctionObject} (hf : m.heap.function? script = some f) (ha : f.arity = 0) :
    (¬ m.CanStart ∧ ∃ e status journal vs, m.start script = (.done (.error e),
        Machine.config { m with status, journal, lastValue := .nil } [] vs) ∧ e.kind = .stackOverflow ∧
        m.stack.toList.reverse <:+ vs) ∨
      m.CanStart ∧ ∃ status journal, m.start script = (.paused,
        Machine.config { m with status, journal, lastValue := .nil } [⟨script, 0, m.stack.size⟩]
          (.object script :: m.stack.toList.reverse)) := by
  have hbegin : ({ m with frames := [], lastValue := .nil } : Machine) =
      Machine.config { m with lastValue := .nil } [] m.stack.toList.reverse := by simp [Machine.config]
  have hsize : m.stack.toList.reverse.length = m.stack.size := by simp
  unfold start
  rw [hbegin]
  by_cases hmax : m.limits.stackMax ≤ m.stack.toList.reverse.length
  · have hload : (load script).run (Machine.config { m with lastValue := .nil } [] m.stack.toList.reverse) =
        .error (.error .stackOverflow) (Machine.config { m with lastValue := .nil } [] m.stack.toList.reverse) :=
      run_bind_of_error (by rw [run_push, if_pos hmax])
    rw [hload]
    exact .inl ⟨fun h => absurd h.1 (by omega), _, _, _, _, rfl, rfl, List.suffix_refl _⟩
  · have hpush : (push (.object script)).run (Machine.config { m with lastValue := .nil } [] m.stack.toList.reverse) =
        .ok () (Machine.config { m with lastValue := .nil } [] (.object script :: m.stack.toList.reverse)) := by
      rw [run_push, if_neg hmax]
    have hf' : ({ m with lastValue := .nil } : Machine).heap.function? script = some f := hf
    obtain ⟨journal, hcall⟩ := run_callFunction hf' [] [] m.stack.toList.reverse
    simp only [List.nil_append, List.length_nil, ha, ne_eq, not_true_eq_false, if_false] at hcall
    split at hcall
    · next hcalls =>
        have hload : (load script).run (Machine.config { m with lastValue := .nil } [] m.stack.toList.reverse) = _ :=
          (run_bind_of_ok hpush).trans hcall
        rw [hload]
        exact .inl ⟨fun h => absurd h.2 (Nat.not_lt.mpr hcalls), _, _, _, _, rfl, rfl, List.suffix_cons _ _⟩
    · next hcalls =>
        have hload : (load script).run (Machine.config { m with lastValue := .nil } [] m.stack.toList.reverse) = _ :=
          (run_bind_of_ok hpush).trans hcall
        rw [hload]
        refine .inr ⟨⟨by omega, Nat.lt_of_not_le hcalls⟩, .running, journal.record (.scriptStarted m.heap.live), ?_⟩
        rw [hsize]
        rfl

theorem start_eq {script : Handle} {f : FunctionObject} (hf : m.heap.function? script = some f) (ha : f.arity = 0) :
    (∃ e status journal vs, m.start script = (.done (.error e),
        Machine.config { m with status, journal, lastValue := .nil } [] vs) ∧ e.kind = .stackOverflow ∧
        m.stack.toList.reverse <:+ vs) ∨
      ∃ status journal, m.start script = (.paused, Machine.config { m with status, journal, lastValue := .nil }
        [⟨script, 0, m.stack.size⟩] (.object script :: m.stack.toList.reverse)) :=
  (start_cases hf ha).imp And.right And.right

/-- A script starts where another one did. -/
theorem CanStart.start {script : Handle} {f : FunctionObject} (h : m.CanStart) (hf : m.heap.function? script = some f)
    (ha : f.arity = 0) : ∃ status journal, m.start script = (.paused, Machine.config
      { m with status, journal, lastValue := .nil } [⟨script, 0, m.stack.size⟩]
      (.object script :: m.stack.toList.reverse)) :=
  ((start_cases hf ha).resolve_left fun hno => hno.1 h).2

/-- Running a script overflows the stack at once, or goes on from where the script is the only active call. -/
theorem runFunction_eq {script : Handle} {f : FunctionObject} (hf : m.heap.function? script = some f)
    (ha : f.arity = 0) :
    (∃ e m', e.kind = .stackOverflow ∧ ∀ budget, m.runFunction script budget = (.done (.error e), m')) ∨
      ∃ status journal m₁, m₁ = Machine.config { m with status, journal, lastValue := .nil }
        [⟨script, 0, m.stack.size⟩] (.object script :: m.stack.toList.reverse) ∧
        ∀ budget, m.runFunction script budget = m₁.resume budget := by
  rcases start_eq hf ha with ⟨e, status, journal, vs, hstart, hkind, -⟩ | ⟨status, journal, hstart⟩
  · refine .inl ⟨e, (m.start script).2, hkind, fun budget => ?_⟩
    unfold runFunction
    rw [hstart]
  · refine .inr ⟨status, journal, _, rfl, fun budget => ?_⟩
    unfold runFunction
    rw [hstart]

theorem runFunction_unique {script : Handle} {budget' : Nat} {r r' : Except RuntimeError Unit} {m'' : Machine}
    (h : m.runFunction script budget = (.done r, m')) (h' : m.runFunction script budget' = (.done r', m'')) :
    r = r' ∧ m' = m'' := by
  unfold runFunction at h h'
  rcases hstart : m.start script with ⟨progress, m₁⟩
  rw [hstart] at h h'
  cases progress with
  | paused => exact resume_unique h h'
  | done result =>
      cases h
      cases h'
      exact ⟨rfl, rfl⟩
  | fault cause => cases h

end Machine

end Lox
