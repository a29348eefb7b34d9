import Lox.Proofs.Simulation.Statements

/-! Calls on the machine. A routine is executed from the first byte of its code, with its arguments as its
variables; whether it ends by a return or by reaching its end, its value takes the place of callee and arguments.
The induction is on the fuel: a call uses up one unit of it and at least one instruction. -/

namespace Lox

open Machine Activation Library

variable {S : Setting} {n : Nat} {call : Call} {w : World} {m : Machine}

/-- What a function returns when its body has ended. -/
def Completion.value : Completion → Datum
  | .normal => .nil
  | .returned d => d

/-- Outside of a routine only the world is seen. -/
theorem Machine.Meets.routine {r : Routine} {ds : List Datum} {Q : Datum → World → Machine → Prop}
    (h : Meets S n Env.world (fun completion env m' => Q completion.value env.world m')
      ((r.body.exec call n r.name.isNone).run ⟨(r.params.zip ds).reverse, w⟩) m) :
    Meets S n id Q ((r.run call n ds).run w) m := by
  refine h.imp_right fun h => ?_
  cases hr : (r.body.exec call n r.name.isNone).run ⟨(r.params.zip ds).reverse, w⟩ with
  | ok completion env =>
      have heq : (r.run call n ds).run w = .ok completion.value env.world := by
        show r.run call n ds w = _
        unfold Routine.run
        rw [hr]
        cases completion <;> rfl
      rw [hr] at h
      rw [heq]
      exact h
  | error halt env =>
      have heq : (r.run call n ds).run w = .error halt env.world := by
        show r.run call n ds w = _
        unfold Routine.run
        rw [hr]
      rw [hr] at h
      rw [heq]
      cases halt <;> exact h

/-- The code of a routine executes it, up to the instruction that returns. -/
theorem Routine.Laid.meets {A : Activation S} {r : Routine} {code : List Spot} {args : List Value} {ds : List Datum}
    (hl : r.Laid code) (hin : code ⊆ A.code) (hcalls : Calls S n call)
    (hf : ∀ entry ∈ r.body.functions, S.lib.routine entry.1 = some entry.2) (hm : Mirrors S w m)
    (hargs : args.map (S.lib.view m.heap) = ds.reverse.map some) (hlen : ds.length = r.params.length) :
    Meets S n id A.Leaves ((r.run call n ds).run w)
      (m.config (A.frame 0 :: A.outer) (args ++ A.callee :: A.below)) := by
  cases hl with
  | mk hb =>
      rw [List.append_subset, List.cons_subset, List.cons_subset] at hin
      obtain ⟨hbody, hnil, hret, -⟩ := hin
      have hnames : ((r.params.zip ds).reverse).map (·.1) = r.params.reverse := by
        rw [List.map_reverse, List.map_fst_zip (Nat.le_of_eq hlen.symm)]
      have hlocals : args.map (S.lib.view m.heap) = (r.params.zip ds).reverse.map fun l => some l.2 := by
        have hvalues : ((r.params.zip ds).map (·.2)).map some = ds.map some := by
          rw [List.map_snd_zip (Nat.le_of_eq hlen)]
        rw [hargs, List.map_reverse, List.map_reverse, ← hvalues, List.map_map]
        rfl
      have hs : A.Stands r.params.reverse 0 ⟨(r.params.zip ds).reverse, w⟩ [] _ := .bare hm hnames hlocals
      refine Meets.routine ((hb.executes hcalls hbody hf hs).andThen fun completion env' m' hs' => ?_)
      cases completion with
      | returned d => exact .here hs'
      | normal =>
          refine meets_push hs' (fun hm => ⟨.nil, rfl, Execution.step_nil (has hnil hm)⟩) fun m'' hs'' => ?_
          exact ⟨_, _, env', rfl, hret, hs''⟩

/-- A return takes the call away, with the callee and the variables, and ends the script or leaves the value to
the caller. -/
theorem Activation.Leaves.step {A : Activation S} {d : Datum} (h : A.Leaves d w m) :
    ∃ (m₀ : Machine) (v : Value) (journal : Journal), Mirrors S w m₀ ∧ S.lib.view m₀.heap v = some d ∧
      Execution.step.run m =
        if A.outer = [] then .ok .halt (Machine.config { m₀ with lastValue := v } [] A.below)
        else if m₀.limits.stackMax ≤ A.below.length then .error (.error .stackOverflow) (m₀.config A.outer A.below)
        else .ok .next (Machine.config { m₀ with journal } A.outer (v :: A.below)) := by
  obtain ⟨scope, a, env, rfl, hp, hs⟩ := h
  cases hs with
  | @mk m₀ ts ls hm hnames hlocals htemps =>
      obtain ⟨v, ts, rfl, hv, hts⟩ := List.map_eq_cons_iff.mp htemps
      obtain rfl : ts = [] := List.map_eq_nil_iff.mp hts
      have hstack : [v] ++ (ls ++ A.callee :: A.below) = v :: ((ls ++ [A.callee]) ++ A.below) := by simp
      obtain ⟨journal, hstep⟩ := Execution.step_return (has hp hm) A.outer v (ls ++ [A.callee]) A.below
      rw [hstack]
      exact ⟨m₀, v, journal, hm, hv, hstep⟩

/-- A return leaves the value in the place of callee and arguments. -/
theorem Activation.Leaves.returns {A : Activation S} {d : Datum} (h : A.Leaves d w m) (houter : A.outer ≠ []) :
    Meets S n id (Replaces S A.outer A.below) (.ok d w) m := by
  obtain ⟨m₀, v, journal, hm, hv, hstep⟩ := h.step
  rw [if_neg houter] at hstep
  split at hstep
  · exact .escape hstep (.inl rfl)
  · exact .step hstep (.here ⟨_, v, rfl, hm.congr rfl rfl rfl rfl, hv⟩)

/-! ### The kinds of callees -/

section Kinds

variable {m₀ : Machine} {fs : List Frame} {args rest : List Value} {ds : List Datum} {handle : Handle}

theorem meets_native (hS : S.Computes) (hm : Mirrors S w m)
    (hargs : args.map (S.lib.view m.heap) = ds.reverse.map some)
    {g : HostFunction} (hg : S.lib.host handle = some g)
    (hstep : Execution.step.run m₀ = (do Execution.callValue (.object handle) args.length; return .next :
      Execution Execution.Flow).run (m.config fs (args ++ .object handle :: rest))) :
    Meets S (n + 1) id (Replaces S fs rest) ((invoke S.lib.host (n + 1) (.native handle) ds).run w) m₀ := by
  have hlen : args.length = ds.length := by simpa using congrArg List.length hargs
  obtain ⟨native, hnative, harity⟩ := S.fits.hosts handle g hg
  have hinvoke : (invoke S.lib.host (n + 1) (.native handle) ds).run w =
      if ds.length ≠ g.arity then .error (.failed (.arityMismatch g.arity ds.length)) w
      else .ok (g.result w.clock.now ds) { w with clock := w.clock.next } := by
    rw [invoke, hg]
    show (if ds.length ≠ g.arity then throw (.failed (.arityMismatch g.arity ds.length))
      else g.call ds : EStateM Halt World Datum).run w = _
    split <;> rfl
  rw [Execution.run_callNative (hm.keeps.native? hnative), harity, hlen, hm.clock] at hstep
  rw [hinvoke]
  split
  · next hne =>
      rw [if_pos hne] at hstep
      exact .fail hstep (hm.config _ _)
  · next heq =>
      rw [if_neg heq] at hstep
      have hargs' : args.reverse.map (S.lib.view m.heap) = ds.map some := by
        rw [List.map_reverse, hargs, List.map_reverse, List.reverse_reverse]
      have hresult := hS handle g native hg hnative m.heap _ ds hm.sound.heap hm.keeps hargs' w.clock.now
      exact .push hstep ⟨m.ticked, _, rfl, hm.ticked, hresult⟩

/-- A call opens a frame, executes the routine, and returns. -/
theorem meets_function (hcalls : Calls S n (invoke S.lib.host n)) (hm : Mirrors S w m) (hfs : fs ≠ [])
    (hargs : args.map (S.lib.view m.heap) = ds.reverse.map some) {r : Routine} (hr : S.lib.routine handle = some r)
    (hstep : Execution.step.run m₀ = (do Execution.callValue (.object handle) args.length; return .next :
      Execution Execution.Flow).run (m.config fs (args ++ .object handle :: rest))) :
    Meets S (n + 1) id (Replaces S fs rest) ((invoke S.lib.host (n + 1) (.function handle r) ds).run w) m₀ := by
  have hlen : args.length = ds.length := by simpa using congrArg List.length hargs
  obtain ⟨f, code, hc⟩ := S.fits.routines handle r hr
  have hinvoke : (invoke S.lib.host (n + 1) (.function handle r) ds).run w =
      if ds.length ≠ r.params.length then .error (.failed (.arityMismatch r.params.length ds.length)) w
      else (r.run (invoke S.lib.host n) n ds).run w := by
    rw [invoke]
    split <;> rfl
  have hf := hm.keeps.function? hc.object
  obtain ⟨journal, hcall⟩ := Execution.run_callFunction hf fs args rest
  rw [EStateM.run_bind, Execution.run_callValue_function hf, hcall, hlen, hc.arity] at hstep
  rw [hinvoke]
  split
  · next hne =>
      rw [if_pos hne] at hstep
      exact .fail hstep (hm.config _ _)
  · next heq =>
      rw [if_neg heq] at hstep
      by_cases hframes : m.limits.framesMax ≤ fs.length
      · rw [if_pos hframes] at hstep
        exact .escape hstep (.inl rfl)
      · rw [if_neg hframes] at hstep
        let A : Activation S := ⟨handle, code, .object handle, rest, fs, f, hc.object, hc.holds⟩
        have hm' : Mirrors S w { m with journal } := hm.congr rfl rfl rfl rfl
        have hrun := Routine.Laid.meets (A := A) hc.laid (List.Subset.refl code) hcalls
          (S.fits.closed handle r hr) hm' hargs (not_not.mp heq)
        exact .after (.single hstep) (hrun.andThen fun d w m hl => hl.returns hfs)

end Kinds

/-- **Calls.** With any amount of fuel, the machine meets what the reference says about a call. -/
theorem calls_invoke (hS : S.Computes) (n : Nat) : Calls S n (invoke S.lib.host n) := by
  induction n with
  | zero => exact fun _ _ _ _ _ _ _ _ _ _ _ _ _ _ => .exhausted
  | succ n ih =>
      intro w m m₀ fs args rest v d ds hm hfs hv hargs hstep
      cases shows_of_view hv with
      | nil | bool | number => exact .fail (hstep.trans (Execution.run_callOther (by nofun))) (hm.config _ _)
      | @text handle s ho =>
          have hother : ∀ label, Value.object handle = .object label →
              m.heap.function? label = none ∧ m.heap.native? label = none := by
            rintro label ⟨⟩
            simp [Heap.function?, Heap.native?, ho]
          exact .fail (hstep.trans (Execution.run_callOther hother)) (hm.config _ _)
      | native ho hg => exact meets_native hS hm hargs hg hstep
      | function ho hr => exact meets_function ih hm hfs hargs hr hstep

end Lox
