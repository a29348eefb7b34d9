import Lox.Proofs.Simulation.Expressions

/-! Statements on the machine. From where the code of a statement begins, the machine goes to where it ends, with
nothing above the variables, or to the return of the function. A loop takes at least one instruction in each round,
so a loop that outlasts the fuel outlasts as many instructions. -/

namespace Lox

open Machine Activation Library

variable {S : Setting} {A : Activation S} {n : Nat} {call : Call} {scope after : List String} {a b c t : Nat}

/-- Where the machine stands when a statement has ended. -/
def Activation.Completes (A : Activation S) (after : List String) (b : Nat) : Completion → Env → Machine → Prop
  | .normal, env, m => A.Stands after b env [] m
  | .returned d, env, m => A.Leaves d env.world m

/-- The code from one offset to another executes a statement. -/
def Executes (A : Activation S) (n : Nat) (scope : List String) (a : Nat) (x : Eval Completion) (b : Nat)
    (after : List String) : Prop :=
  ∀ ⦃env : Env⦄ ⦃m : Machine⦄, A.Stands scope a env [] m → Meets S n Env.world (A.Completes after b) (x.run env) m

/-! ### Simple statements -/

theorem executes_expression {x : Eval Datum} (hx : Evaluates A n scope a x b)
    (hp : ⟨b, .plain .pop, scope, t⟩ ∈ A.code) :
    Executes A n scope a (do let _ ← x; return .normal) (b + 1) scope := by
  intro env m hs
  refine (hx hs).bind fun d env' m' hs' => ?_
  obtain ⟨m'', hstep, hs''⟩ := hs'.pop hp
  exact .step hstep (.here hs'')

theorem executes_print {x : Eval Datum} (hx : Evaluates A n scope a x b)
    (hp : ⟨b, .plain .print, scope, t⟩ ∈ A.code) :
    Executes A n scope a (do let value ← x; .print value; return .normal) (b + 1) scope := by
  intro env m hs
  refine (hx hs).bind fun d env' m' hs' => ?_
  cases hs' with
  | @mk m ts ls hm hnames hlocals htemps =>
      obtain ⟨v, ts, rfl, hv, hts⟩ := List.map_eq_cons_iff.mp htemps
      have hstep : Execution.step.run (m.config (A.frame b :: A.outer) (v :: ts ++ (ls ++ A.callee :: A.below))) = _ :=
        Execution.step_print hm.fits (has hp hm) hv
      split at hstep
      · next hwritten =>
          have hs : A.Stands scope (b + 1)
              { env' with world := { env'.world with printed := env'.world.printed ++ (d.display ++ "\n") } } []
              (Machine.config { m with output := (m.output.write (d.display ++ "\n")).1 } (A.frame (b + 1) :: A.outer)
                (ts ++ (ls ++ A.callee :: A.below))) := .mk (hm.print hwritten) hnames hlocals hts
          exact .step hstep (.here hs)
      · exact .escape hstep (.inr ⟨_, rfl⟩)

theorem executes_ret {x : Eval Datum} (hx : Evaluates A n scope a x b) (hp : ⟨b, .plain .ret, scope, 1⟩ ∈ A.code) :
    Executes A n scope a (do let value ← x; return .returned value) c after := by
  intro env m hs
  exact (hx hs).bind fun d env' m' hs' => .here ⟨scope, b, env', rfl, hp, hs'⟩

/-! ### Declarations -/

theorem executes_varLocal {x : Eval Datum} (hx : Evaluates A n scope a x b) (name : String) :
    Executes A n scope a (do let value ← x; .declare false name value; return .normal) b (name :: scope) := by
  intro env m hs
  exact (hx hs).bind fun d env' m' hs' => .here (hs'.declare name)

theorem executes_varGlobal {x : Eval Datum} {name : String} (hx : Evaluates A n scope a x b)
    (hp : ⟨b, .defineGlobal name, scope, t⟩ ∈ A.code) :
    Executes A n scope a (do let value ← x; .declare true name value; return .normal) (b + 2) scope := by
  intro env m hs
  refine (hx hs).bind fun d env' m' hs' => ?_
  cases hs' with
  | @mk m ts ls hm hnames hlocals htemps =>
      obtain ⟨v, ts, rfl, hv, hts⟩ := List.map_eq_cons_iff.mp htemps
      obtain ⟨globals, hdef, hstep⟩ := Execution.step_defineGlobal hm.sound (has hp hm) v
      have hs : A.Stands scope (b + 2) { env' with world := env'.world.define name d } []
          (Machine.config { m with globals } (A.frame (b + 2) :: A.outer) (ts ++ (ls ++ A.callee :: A.below))) :=
        .mk (hm.define hdef hv) hnames hlocals hts
      exact .step (hstep _ _ _) (.here hs)

theorem evaluates_function {label : Handle} {r : Routine} {wide : Bool} (hr : S.lib.routine label = some r)
    (hp : ⟨a, .constant (.function label) wide, scope, t⟩ ∈ A.code) :
    Evaluates A n scope a (return .function label r) (a + (Instr.constant (.function label) wide).size) := by
  refine evaluates_literal hp fun hm hd => ?_
  obtain rfl : _ = Value.object label := hd
  exact view_function hm.fits hr

/-! ### Branches and blocks -/

theorem executes_cond {x : Eval Datum} {y z : Eval Completion} {e t' t'' t''' : Nat} (hx : Evaluates A n scope a x b)
    (hj : ⟨b, .jumpIfFalse (c + 3), scope, t⟩ ∈ A.code) (hp : ⟨b + 3, .plain .pop, scope, t'⟩ ∈ A.code)
    (hy : Executes A n scope (b + 4) y c scope) (hk : ⟨c, .jump e, scope, t''⟩ ∈ A.code)
    (hq : ⟨c + 3, .plain .pop, scope, t'''⟩ ∈ A.code) (hz : Executes A n scope (c + 4) z e scope) :
    Executes A n scope a (do let value ← x; if value.isFalsey then z else y) e scope := by
  intro env m hs
  refine (hx hs).bind fun d env₁ m₁ hs₁ => ?_
  obtain ⟨m₂, hstep, hs₂⟩ := hs₁.jumpIfFalse hj
  refine .step hstep ?_
  cases hd : d.isFalsey with
  | true =>
      rw [hd] at hs₂
      obtain ⟨m₃, hstep', hs₃⟩ := hs₂.pop hq
      exact .step hstep' (hz hs₃)
  | false =>
      rw [hd] at hs₂
      obtain ⟨m₃, hstep', hs₃⟩ := hs₂.pop hp
      -- the end of the first branch jumps over the second one
      refine .step hstep' ((hy hs₃).andThen fun completion env₂ m₄ hs₄ => ?_)
      cases completion with
      | normal =>
          obtain ⟨m₅, hstep'', hs₅⟩ := hs₄.jump (.inl hk)
          exact .step hstep'' (.here hs₅)
      | returned d => exact .here hs₄

theorem goes_pops {outer inner : List String} {env : Env} {m : Machine} (hs : A.Stands (inner ++ outer) a env [] m)
    (hp : pops outer inner a ⊆ A.code) :
    ∃ k m', m.Goes k m' ∧
      A.Stands outer (a + inner.length) { env with locals := env.locals.drop inner.length } [] m' := by
  induction inner generalizing a env m with
  | nil => exact ⟨0, m, .refl m, hs⟩
  | cons x xs ih =>
      rw [pops, List.cons_subset] at hp
      obtain ⟨m₁, hstep, hs₁⟩ := hs.drop hp.1
      obtain ⟨k, m₂, hg, hs₂⟩ := ih hs₁ hp.2
      refine ⟨k + 1, m₂, .step hstep hg, ?_⟩
      rw [List.drop_tail, Nat.add_assoc, Nat.add_comm 1] at hs₂
      exact hs₂

theorem executes_block {x : Eval Completion} {inner : List String} (hx : Executes A n scope a x b (inner ++ scope))
    (hp : pops scope inner b ⊆ A.code) :
    Executes A n scope a (do
      let env ← get
      let completion ← x
      .leave env.locals.length
      return completion) (b + inner.length) scope := by
  intro env m hs
  show Meets S n Env.world _ ((do
    let completion ← x
    .leave env.locals.length
    return completion : Eval Completion).run env) m
  refine (hx hs).bind fun completion env₁ m₁ hs₁ => ?_
  cases completion with
  | returned d => exact .here hs₁
  | normal =>
      obtain ⟨k, m₂, hg, hs₂⟩ := goes_pops hs₁ hp
      have hlen : env₁.locals.length - env.locals.length = inner.length := by
        have h₁ := congrArg List.length hs₁.names
        have h₀ := congrArg List.length hs.names
        simp only [List.length_map, List.length_append] at h₀ h₁
        omega
      have hleave : (do .leave env.locals.length; return .normal : Eval Completion).run env₁ =
          .ok .normal { env₁ with locals := env₁.locals.drop inner.length } := by
        rw [← hlen]
        rfl
      rw [hleave]
      exact .goes hg (.here hs₂)

/-! ### Loops -/

/-- The test of a loop leads into the body, or past the loop, where its value is dropped. -/
theorem TestLaid.meets (hcalls : Calls S n call) {exit : Nat} {e : Option Expr} {sc se : List Spot}
    (ht : TestLaid scope a e exit sc b) (he : ExitLaid scope exit e se c) (hin : sc ⊆ A.code) (hin' : se ⊆ A.code)
    {env : Env} {m : Machine} (hs : A.Stands scope a env [] m) :
    Meets S n Env.world (fun goesOn env' m' => A.Stands scope (if goesOn then b else c) env' [] m')
      ((testOf call e).run env) m := by
  cases ht with
  | none => exact .here hs
  | some hc =>
      rw [List.append_subset, List.cons_subset, List.cons_subset] at hin
      obtain ⟨hcond, hjump, hpop, -⟩ := hin
      cases he with
      | some =>
          rw [List.cons_subset] at hin'
          refine (hc.evaluates hcalls hcond hs).bind fun d env₁ m₁ hs₁ => ?_
          obtain ⟨m₂, hstep, hs₂⟩ := hs₁.jumpIfFalse hjump
          refine .step hstep ?_
          cases hd : d.isFalsey with
          | true =>
              rw [hd] at hs₂
              obtain ⟨m₃, hstep', hs₃⟩ := hs₂.pop hin'.1
              exact .step hstep' (.here hs₃)
          | false =>
              rw [hd] at hs₂
              obtain ⟨m₃, hstep', hs₃⟩ := hs₂.pop hpop
              exact .step hstep' (.here hs₃)

/-- The code before the body passes by the increment. -/
theorem IncrementLaid.enters {start back : Nat} {e : Option Expr} {si : List Spot}
    (hi : IncrementLaid scope start a e back si b) (hin : si ⊆ A.code) {env : Env} {m : Machine}
    (hs : A.Stands scope a env [] m) : ∃ k m', m.Goes k m' ∧ A.Stands scope b env [] m' := by
  cases hi with
  | none => exact ⟨0, m, .refl m, hs⟩
  | some he =>
      rw [List.cons_subset] at hin
      obtain ⟨m', hstep, hs'⟩ := hs.jump (.inl hin.1)
      exact ⟨1, m', .single hstep, hs'⟩

/-- After the body the increment is executed, and the loop begins anew. -/
theorem IncrementLaid.meets (hcalls : Calls S n call) {start back : Nat} {e : Option Expr} {si : List Spot}
    (hi : IncrementLaid scope start a e back si b) (hin : si ⊆ A.code) {env : Env} {m : Machine}
    (hs : A.Stands scope back env [] m) :
    Meets S n Env.world (fun _ env' m' => A.Stands scope start env' [] m') ((incrementOf call e).run env) m := by
  cases hi with
  | none => exact .here hs
  | some he =>
      rw [List.cons_subset, List.append_subset, List.cons_subset, List.cons_subset] at hin
      obtain ⟨-, hinc, hpop, hloop, -⟩ := hin
      refine (he.evaluates hcalls hinc hs).bind fun d env₁ m₁ hs₁ => ?_
      obtain ⟨m₂, hstep, hs₂⟩ := hs₁.pop hpop
      obtain ⟨m₃, hstep', hs₃⟩ := hs₂.jump (.inr hloop)
      exact .step hstep (.step hstep' (.here hs₃))

theorem executes_loop (hcalls : Calls S n call) {m k e back : Nat} {test inc : Option Expr} {sc si se : List Spot}
    {x : Eval Completion} (ht : TestLaid scope a test (e + 3) sc m) (hi : IncrementLaid scope a m inc back si k)
    (hx : Executes A n scope k x e scope) (he : ExitLaid scope (e + 3) test se b) (hsc : sc ⊆ A.code)
    (hsi : si ⊆ A.code) (hloop : ⟨e, .loop back, scope, t⟩ ∈ A.code) (hse : se ⊆ A.code) :
    Executes A n scope a (.loop (testOf call test) x (incrementOf call inc) n) b scope := by
  -- with fewer rounds than there is fuel, the rounds are what the instructions are counted against
  have hrounds : ∀ {rounds : Nat} {env : Env} {m : Machine}, rounds ≤ n → A.Stands scope a env [] m →
      Meets S rounds Env.world (A.Completes scope b)
        ((Eval.loop (testOf call test) x (incrementOf call inc) rounds).run env) m := by
    intro rounds
    induction rounds with
    | zero => exact fun _ _ => .exhausted
    | succ rounds ih =>
        intro env m hle hs
        unfold Eval.loop
        refine .bind ((ht.meets hcalls he hsc hse hs).mono hle fun _ _ _ hq => hq) fun goesOn env₁ m₁ hs₁ => ?_
        cases goesOn with
        | false => exact .here hs₁
        | true =>
            obtain ⟨l, m₂, hg, hs₂⟩ := hi.enters hsi hs₁
            refine .goes hg (.bind ((hx hs₂).mono hle fun _ _ _ hq => hq) fun completion env₂ m₃ hs₃ => ?_)
            cases completion with
            | returned d => exact .here hs₃
            | normal =>
                obtain ⟨m₄, hstep, hs₄⟩ := hs₃.jump (.inr hloop)
                refine .after (.single hstep) (.bind ((hi.meets hcalls hsi hs₄).mono ?_ fun _ _ _ hq => hq) ?_)
                · exact Nat.le_of_succ_le hle
                · exact fun _ env₃ m₅ hs₅ => ih (Nat.le_of_succ_le hle) hs₅
  exact fun _ _ hs => hrounds (Nat.le_refl n) hs

/-! ### All statements -/

theorem executes_cons {x y : Eval Completion} {mid : List String} (hx : Executes A n scope a x b mid)
    (hy : Executes A n mid b y c after) :
    Executes A n scope a (do
      match ← x with
      | .returned value => return .returned value
      | .normal => y) c after := by
  intro env m hs
  refine (hx hs).bind fun completion env₁ m₁ hs₁ => ?_
  cases completion with
  | returned d => exact .here hs₁
  | normal => exact hy hs₁

mutual

/-- The code of a statement executes it. -/
theorem Stmt.Laid.executes (hcalls : Calls S n call) {top : Bool} {scope after : List String} {a b : Nat} {s : Stmt}
    {sp : List Spot} : Stmt.Laid top scope a s sp b after → sp ⊆ A.code →
    (∀ entry ∈ s.functions, S.lib.routine entry.1 = some entry.2) →
    Executes A n scope a (s.exec call n top) b after
  | .expression he, hin, _ => by
      rw [List.append_subset, List.cons_subset] at hin
      exact executes_expression (he.evaluates hcalls hin.1) hin.2.1
  | .print he, hin, _ => by
      rw [List.append_subset, List.cons_subset] at hin
      exact executes_print (he.evaluates hcalls hin.1) hin.2.1
  | .ret he, hin, _ => by
      rw [List.append_subset, List.cons_subset] at hin
      exact executes_ret (he.evaluates hcalls hin.1) hin.2.1
  | .cond hc hy hn, hin, hf => by
      rw [List.append_subset, List.cons_subset, List.cons_subset, List.append_subset, List.cons_subset,
        List.cons_subset] at hin
      obtain ⟨hcond, hjump, hpop, hyes, hover, hpop', hno⟩ := hin
      rw [Stmt.functions, List.forall_mem_append] at hf
      exact executes_cond (hc.evaluates hcalls hcond) hjump hpop (hy.executes hcalls hyes hf.1) hover hpop'
        (hn.executes hcalls hno hf.2)
  | .loop ht hi hb he, hin, hf => by
      rw [List.append_subset, List.append_subset, List.append_subset, List.cons_subset] at hin
      obtain ⟨htest, hinc, hbody, hback, hexit⟩ := hin
      exact executes_loop hcalls ht hi (hb.executes hcalls hbody hf) he htest hinc hback hexit
  | .block hb, hin, hf => by
      rw [List.append_subset] at hin
      exact executes_block (hb.executes hcalls hin.1 hf) hin.2
  | .varLocal he, hin, _ => executes_varLocal (he.evaluates hcalls hin) _
  | .varGlobal he, hin, _ => by
      rw [List.append_subset, List.cons_subset] at hin
      exact executes_varGlobal (he.evaluates hcalls hin.1) hin.2.1
  | .functionLocal, hin, hf => by
      rw [List.cons_subset] at hin
      rw [Stmt.functions, List.forall_mem_append, List.forall_mem_singleton] at hf
      exact executes_varLocal (evaluates_function hf.2 hin.1) _
  | .functionGlobal, hin, hf => by
      rw [List.cons_subset, List.cons_subset] at hin
      rw [Stmt.functions, List.forall_mem_append, List.forall_mem_singleton] at hf
      exact executes_varGlobal (evaluates_function hf.2 hin.1) hin.2.1

/-- The code of a sequence executes it. -/
theorem Block.Laid.executes (hcalls : Calls S n call) {top : Bool} {scope after : List String} {a b : Nat}
    {body : Block} {sp : List Spot} : Block.Laid top scope a body sp b after → sp ⊆ A.code →
    (∀ entry ∈ body.functions, S.lib.routine entry.1 = some entry.2) →
    Executes A n scope a (body.exec call n top) b after
  | .nil, _, _ => fun _ _ hs => .here hs
  | .cons hs hr, hin, hf => by
      rw [List.append_subset] at hin
      rw [Block.functions, List.forall_mem_append] at hf
      exact executes_cons (hs.executes hcalls hin.1 hf.1) (hr.executes hcalls hin.2 hf.2)

end

end Lox
