import Lox.Proofs.Simulation.Meets

/-! An active call beside the reference. While a function is executed, the values of its frame are the callee,
the variables in scope in the order of their declaration, and the values that the code around still needs; each
of them stands for what the reference has there. Where a name has a slot, the slot holds the innermost variable
of that name. -/

namespace Lox

/-! ### Slots and variables -/

section Slots

variable {name : String} {locals : List (String × Datum)}

/-- A name that has a slot denotes the variable in that slot. -/
theorem slotOf_split {slot : Nat} (h : slotOf name (locals.map (·.1)) = some slot) :
    ∃ front d back, locals = front ++ (name, d) :: back ∧ back.length + 1 = slot ∧
      locals.lookup name = some d ∧ ∀ d', updateLocal name d' locals = front ++ (name, d') :: back := by
  induction locals with
  | nil => cases h
  | cons latest earlier ih =>
      obtain ⟨other, old⟩ := latest
      rw [List.map_cons, slotOf] at h
      split at h
      · next heq =>
          obtain rfl : other = name := heq
          refine ⟨[], old, earlier, rfl, by simpa using h, by rw [List.lookup_cons, beq_self_eq_true], fun d' => ?_⟩
          rw [updateLocal, if_pos rfl]
          rfl
      · next hne =>
          replace hne : ¬ other = name := hne
          obtain ⟨front, d, back, rfl, hslot, hlook, hupd⟩ := ih h
          refine ⟨(other, old) :: front, d, back, rfl, hslot, ?_, fun d' => ?_⟩
          · rw [List.lookup_cons, beq_false_of_ne (Ne.symm hne)]
            exact hlook
          · rw [updateLocal, if_neg hne, hupd d']
            rfl

theorem lookup_eq_none (h : slotOf name (locals.map (·.1)) = none) : locals.lookup name = none := by
  induction locals with
  | nil => rfl
  | cons latest earlier ih =>
      obtain ⟨other, old⟩ := latest
      rw [List.map_cons, slotOf] at h
      split at h
      · cases h
      · next hne =>
          replace hne : ¬ other = name := hne
          rw [List.lookup_cons, beq_false_of_ne (Ne.symm hne)]
          exact ih h

end Slots

/-- A call that is executed: its function with its code, and what lies below and around it. -/
structure Activation (S : Setting) where
  handle : Handle
  code : List Spot
  /-- The value in slot zero. -/
  callee : Value
  /-- The values below the callee, the latest first. -/
  below : List Value
  outer : List Frame
  holds : ∃ f, S.heap.function? handle = some f ∧ ∀ p ∈ code, p.Holds S.heap f.chunk

namespace Activation

open Machine

variable {S : Setting} (A : Activation S)

/-- The frame, with the instruction pointer at an offset. -/
def frame (a : Nat) : Frame := ⟨A.handle, a, A.below.length⟩

/-- The machine stands at an offset of the code, with the variables of an environment and with values above
them, the latest first. -/
inductive Stands (scope : List String) (a : Nat) (env : Env) (temps : List Datum) : Machine → Prop where
  | mk {m : Machine} {ts ls : List Value} (hm : Mirrors S env.world m) (hnames : env.locals.map (·.1) = scope)
      (hlocals : ls.map (S.lib.view m.heap) = env.locals.map fun l => some l.2)
      (htemps : ts.map (S.lib.view m.heap) = temps.map some) :
      Stands scope a env temps (m.config (A.frame a :: A.outer) (ts ++ (ls ++ A.callee :: A.below)))

/-- The machine is about to return a value. -/
def Leaves (d : Datum) (w : World) (m : Machine) : Prop :=
  ∃ scope a env, env.world = w ∧ ⟨a, .plain .ret, scope, 1⟩ ∈ A.code ∧ A.Stands scope a env [d] m

variable {A} {scope : List String} {a b : Nat} {env : Env} {temps : List Datum} {m : Machine} {d : Datum}

/-- The code of the call is there as long as the objects of the beginning are. -/
theorem has {p : Spot} {w : World} (hp : p ∈ A.code) (hm : Mirrors S w m) : m.Has A.handle p := by
  obtain ⟨f, hf, hcode⟩ := A.holds
  exact ⟨f, hm.keeps.function? hf, (hcode p hp).grow (.refl _) hm.keeps⟩

namespace Stands

theorem names (h : A.Stands scope a env temps m) : env.locals.map (·.1) = scope := by
  cases h with
  | mk hm hnames hlocals htemps => exact hnames

theorem bare {ls : List Value} (hm : Mirrors S env.world m) (hnames : env.locals.map (·.1) = scope)
    (hlocals : ls.map (S.lib.view m.heap) = env.locals.map fun l => some l.2) :
    A.Stands scope a env [] (m.config (A.frame a :: A.outer) (ls ++ A.callee :: A.below)) := by
  have htemps : ([] : List Value).map (S.lib.view m.heap) = ([] : List Datum).map some := rfl
  exact .mk hm hnames hlocals htemps

theorem pop (h : A.Stands scope a env (d :: temps) m) (hp : ⟨a, .plain .pop, scope, b⟩ ∈ A.code) :
    ∃ m', Execution.step.run m = .ok .next m' ∧ A.Stands scope (a + 1) env temps m' := by
  cases h with
  | mk hm hnames hlocals htemps =>
      obtain ⟨v, ts, rfl, hv, hts⟩ := List.map_eq_cons_iff.mp htemps
      exact ⟨_, Execution.step_pop (has hp hm), .mk hm hnames hlocals hts⟩

/-- A jump leads to where the reference goes on. -/
theorem jump {target t : Nat} (h : A.Stands scope a env temps m)
    (hp : ⟨a, .jump target, scope, t⟩ ∈ A.code ∨ ⟨a, .loop target, scope, t⟩ ∈ A.code) :
    ∃ m', Execution.step.run m = .ok .next m' ∧ A.Stands scope target env temps m' := by
  cases h with
  | mk hm hnames hlocals htemps =>
      exact ⟨_, Execution.step_jump (hp.imp (has · hm) (has · hm)), .mk hm hnames hlocals htemps⟩

theorem jumpIfFalse {target t : Nat} (h : A.Stands scope a env (d :: temps) m)
    (hp : ⟨a, .jumpIfFalse target, scope, t⟩ ∈ A.code) :
    ∃ m', Execution.step.run m = .ok .next m' ∧
      A.Stands scope (if d.isFalsey then target else a + 3) env (d :: temps) m' := by
  cases h with
  | mk hm hnames hlocals htemps =>
      obtain ⟨v, ts, rfl, hv, hts⟩ := List.map_eq_cons_iff.mp htemps
      refine ⟨_, Execution.step_jumpIfFalse (has hp hm), ?_⟩
      rw [Library.isFalsey_view hv]
      exact .mk hm hnames hlocals htemps

/-- A value becomes a variable where it lies. -/
theorem declare (h : A.Stands scope a env [d] m) (name : String) :
    A.Stands (name :: scope) a { env with locals := (name, d) :: env.locals } [] m := by
  cases h with
  | mk hm hnames hlocals htemps =>
      obtain ⟨v, ts, rfl, hv, hts⟩ := List.map_eq_cons_iff.mp htemps
      obtain rfl : ts = [] := List.map_eq_nil_iff.mp hts
      rw [List.singleton_append, ← List.cons_append]
      refine bare hm ?_ ?_
      · rw [List.map_cons, hnames]
      · rw [List.map_cons, List.map_cons, hv, hlocals]

/-- Dropping the values of variables ends their scope. -/
theorem drop {x : String} {xs outer : List String} {t : Nat} (h : A.Stands (x :: xs ++ outer) a env [] m)
    (hp : ⟨a, .plain .pop, x :: xs ++ outer, t⟩ ∈ A.code) :
    ∃ m', Execution.step.run m = .ok .next m' ∧
      A.Stands (xs ++ outer) (a + 1) { env with locals := env.locals.tail } [] m' := by
  obtain ⟨locals, w⟩ := env
  cases h with
  | mk hm hnames hlocals htemps =>
      obtain rfl := List.map_eq_nil_iff.mp htemps
      obtain ⟨l, rest, rfl, rfl, hrest⟩ := List.map_eq_cons_iff.mp hnames
      obtain ⟨v, ls, rfl, hv, hls⟩ := List.map_eq_cons_iff.mp hlocals
      exact ⟨_, Execution.step_pop (has hp hm), bare hm hrest hls⟩

end Stands

end Activation

end Lox
