import Lox.Proofs.Simulation.Activation

/-! Expressions on the machine. From where the code of an expression begins, the machine goes to where it ends,
with the value on top of what was there before, or fails as the reference does. There is one lemma for each form
of an expression; what a call does is a parameter. -/

namespace Lox

open Machine Activation Library

variable {S : Setting} {A : Activation S} {n : Nat} {call : Call} {scope : List String} {a b : Nat}

/-- A value has taken the place of callee and arguments. -/
def Replaces (S : Setting) (fs : List Frame) (rest : List Value) (d : Datum) (w : World) (m : Machine) : Prop :=
  ∃ m₁ v, m = m₁.config fs (v :: rest) ∧ Mirrors S w m₁ ∧ S.lib.view m₁.heap v = some d

/-- Whatever is called, the machine meets what the reference says about the call. The values below the callee
stay where they are. -/
def Calls (S : Setting) (n : Nat) (call : Call) : Prop :=
  ∀ ⦃w : World⦄ ⦃m m₀ : Machine⦄ ⦃fs : List Frame⦄ ⦃args rest : List Value⦄ ⦃v : Value⦄
    ⦃d : Datum⦄ ⦃ds : List Datum⦄,
    Mirrors S w m → fs ≠ [] → S.lib.view m.heap v = some d → args.map (S.lib.view m.heap) = ds.reverse.map some →
    Execution.step.run m₀ = (do Execution.callValue v args.length; return .next : Execution Execution.Flow).run
      (m.config fs (args ++ v :: rest)) →
    Meets S n id (Replaces S fs rest) ((call d ds).run w) m₀

/-- The code from one offset to another computes a value. -/
def Evaluates (A : Activation S) (n : Nat) (scope : List String) (a : Nat) (x : Eval Datum) (b : Nat) : Prop :=
  ∀ ⦃env : Env⦄ ⦃temps : List Datum⦄ ⦃m : Machine⦄, A.Stands scope a env temps m →
    Meets S n Env.world (fun d env' m' => A.Stands scope b env' (d :: temps) m') (x.run env) m

/-- The code from one offset to another computes so many values. -/
def EvaluatesAll (A : Activation S) (n : Nat) (scope : List String) (a : Nat) (x : Eval (List Datum)) (count b : Nat) :
    Prop :=
  ∀ ⦃env : Env⦄ ⦃temps : List Datum⦄ ⦃m : Machine⦄, A.Stands scope a env temps m →
    Meets S n Env.world (fun ds env' m' => ds.length = count ∧ A.Stands scope b env' (ds.reverse ++ temps) m')
    (x.run env) m

/-! ### Values and variables -/

/-- An instruction that pushes a value that is known beforehand. -/
theorem meets_push {α σ : Type} {Q : α → σ → Machine → Prop} {world : σ → World} {x : α} {s : σ} {env : Env}
    {temps : List Datum} {m : Machine} {d : Datum} (hs : A.Stands scope a env temps m)
    (h : ∀ {w : World} {m : Machine} {vs : List Value}, Mirrors S w m → ∃ v, S.lib.view m.heap v = some d ∧
      Execution.step.run (m.config (A.frame a :: A.outer) vs) = m.pushed (A.frame b :: A.outer) vs v)
    (hq : ∀ m', A.Stands scope b env (d :: temps) m' → Q x s m') : Meets S n world Q (.ok x s) m := by
  cases hs with
  | mk hm hnames hlocals htemps =>
      obtain ⟨v, hv, hstep⟩ := h hm
      refine .push hstep (hq _ ?_)
      rw [← List.cons_append]
      exact .mk hm hnames hlocals (by rw [List.map_cons, List.map_cons, hv, htemps])

theorem evaluates_pure {d : Datum}
    (h : ∀ {w : World} {m : Machine} {vs : List Value}, Mirrors S w m → ∃ v, S.lib.view m.heap v = some d ∧
      Execution.step.run (m.config (A.frame a :: A.outer) vs) = m.pushed (A.frame b :: A.outer) vs v) :
    Evaluates A n scope a (return d) b := fun _ _ _ hs => meets_push hs h fun _ hs' => hs'

theorem evaluates_literal {literal : Literal} {wide : Bool} {t : Nat} {d : Datum}
    (hp : ⟨a, .constant literal wide, scope, t⟩ ∈ A.code)
    (hd : ∀ {w : World} {m : Machine} {v : Value}, Mirrors S w m → literal.Denotes m.heap v →
      S.lib.view m.heap v = some d) :
    Evaluates A n scope a (return d) (a + (Instr.constant literal wide).size) := by
  refine evaluates_pure fun hm => ?_
  obtain ⟨v, hv, hstep⟩ := Execution.step_constant (has hp hm)
  exact ⟨v, hd hm hv, hstep⟩

/-- The values of a frame around the slot of a variable. -/
theorem split_locals {f : Value → Option Datum} {ls : List Value} {front back : List (String × Datum)} {name : String}
    {d : Datum} (h : ls.map f = (front ++ (name, d) :: back).map fun l => some l.2) :
    ∃ lf v lb, ls = lf ++ v :: lb ∧ (lf.map f = front.map fun l => some l.2) ∧ f v = some d ∧
      (lb.map f = back.map fun l => some l.2) := by
  rw [List.map_append] at h
  obtain ⟨lf, rest, rfl, hlf, hrest⟩ := List.map_eq_append_iff.mp h
  obtain ⟨v, lb, rfl, hv, hlb⟩ := List.map_eq_cons_iff.mp hrest
  exact ⟨lf, v, lb, rfl, hlf, hv, hlb⟩

theorem length_back {f : Value → Option Datum} {lb : List Value} {back : List (String × Datum)}
    (h : lb.map f = back.map fun l => some l.2) : lb.length = back.length := by
  simpa using congrArg List.length h

theorem evaluates_getLocal {name : String} {slot t : Nat} (hslot : slotOf name scope = some slot)
    (hp : ⟨a, .getLocal name slot, scope, t⟩ ∈ A.code) : Evaluates A n scope a (.read name) (a + 2) := by
  intro env temps m hs
  cases hs with
  | @mk m ts ls hm hnames hlocals htemps =>
      obtain ⟨front, d, back, heq, hlen, hlook, -⟩ := slotOf_split (hnames ▸ hslot)
      have hread : (Eval.read name).run env = .ok d env := by
        unfold Eval.read
        rw [EStateM.run_bind, EStateM.run_get]
        simp only [hlook]
        rfl
      rw [hread]
      obtain ⟨lf, v, lb, rfl, -, hv, hlb⟩ := split_locals (heq ▸ hlocals)
      have hstack : ts ++ ((lf ++ v :: lb) ++ A.callee :: A.below) =
          (ts ++ lf) ++ v :: (lb ++ A.callee :: A.below) := by simp
      have hbase : A.below.length + slot = (lb ++ A.callee :: A.below).length := by
        rw [List.length_append, List.length_cons, length_back hlb]
        omega
      have hstep : Execution.step.run
            (m.config (A.frame a :: A.outer) ((ts ++ lf) ++ v :: (lb ++ A.callee :: A.below))) =
          m.pushed (A.frame (a + 2) :: A.outer) ((ts ++ lf) ++ v :: (lb ++ A.callee :: A.below)) v :=
        Execution.step_getLocal (has hp hm) hbase
      rw [← hstack] at hstep
      refine .push hstep ?_
      rw [← List.cons_append]
      exact .mk hm hnames hlocals (by rw [List.map_cons, List.map_cons, hv, htemps])

theorem evaluates_getGlobal {name : String} {t : Nat} (hslot : slotOf name scope = none)
    (hp : ⟨a, .getGlobal name, scope, t⟩ ∈ A.code) : Evaluates A n scope a (.read name) (a + 2) := by
  intro env temps m hs
  cases hs with
  | @mk m ts ls hm hnames hlocals htemps =>
      have hlook := lookup_eq_none (hnames ▸ hslot)
      have hread : (Eval.read name).run env = (env.world.globals name).elim
          (.error (.failed (.undefinedVariable name)) env) fun d => .ok d env := by
        unfold Eval.read
        rw [EStateM.run_bind, EStateM.run_get]
        simp only [hlook]
        cases env.world.globals name <;> rfl
      have hstep : Execution.step.run (m.config (A.frame a :: A.outer) (ts ++ (ls ++ A.callee :: A.below))) = _ :=
        Execution.step_getGlobal hm.sound (has hp hm)
      rw [hread]
      cases hg : m.global? name with
      | some v =>
          obtain ⟨d, hd, hv⟩ := hm.view_global hg
          rw [hg] at hstep
          rw [hd]
          refine .push hstep ?_
          rw [← List.cons_append]
          exact .mk hm hnames hlocals (by rw [List.map_cons, List.map_cons, hv, htemps])
      | none =>
          rw [hg] at hstep
          rw [(hm.global?_eq_none_iff name).mp hg]
          exact .fail hstep (hm.config _ _)

theorem evaluates_setLocal {name : String} {slot t : Nat} {x : Eval Datum} (hx : Evaluates A n scope a x b)
    (hslot : slotOf name scope = some slot) (hp : ⟨b, .setLocal name slot, scope, t⟩ ∈ A.code) :
    Evaluates A n scope a (do let value ← x; .assign name value; return value) (b + 2) := by
  intro env temps m hs
  refine (hx hs).bind fun d env' m' hs' => ?_
  obtain ⟨locals, w⟩ := env'
  cases hs' with
  | @mk m ts ls hm hnames hlocals htemps =>
      obtain ⟨front, old, back, rfl, hlen, hlook, hupd⟩ := slotOf_split (hnames ▸ hslot)
      have hassign : (do Eval.assign name d; return d : Eval Datum).run ⟨front ++ (name, old) :: back, w⟩ =
          .ok d ⟨front ++ (name, d) :: back, w⟩ := by
        rw [← hupd d]
        unfold Eval.assign
        rw [EStateM.run_bind, EStateM.run_bind, EStateM.run_get]
        simp only [hlook]
        rfl
      rw [hassign]
      obtain ⟨x, ts, rfl, hx, hts⟩ := List.map_eq_cons_iff.mp htemps
      obtain ⟨lf, v, lb, rfl, hlf, hv, hlb⟩ := split_locals hlocals
      have hstack : ∀ u, x :: ts ++ ((lf ++ u :: lb) ++ A.callee :: A.below) =
          x :: ((ts ++ lf) ++ u :: (lb ++ A.callee :: A.below)) := by simp
      have hbase : A.below.length + slot = (lb ++ A.callee :: A.below).length := by
        rw [List.length_append, List.length_cons, length_back hlb]
        omega
      have hstep : Execution.step.run (m.config (A.frame b :: A.outer)
          (x :: ((ts ++ lf) ++ v :: (lb ++ A.callee :: A.below)))) =
          .ok .next (m.config (A.frame (b + 2) :: A.outer) (x :: ((ts ++ lf) ++ x :: (lb ++ A.callee :: A.below)))) :=
        Execution.step_setLocal (has hp hm) hbase
      rw [← hstack, ← hstack] at hstep
      refine .step hstep (.here (.mk hm ?_ ?_ htemps))
      · rw [← hnames, List.map_append, List.map_append, List.map_cons, List.map_cons]
      · rw [List.map_append, List.map_append, List.map_cons, List.map_cons, hlf, hx, hlb]

theorem evaluates_setGlobal {name : String} {t : Nat} {x : Eval Datum} (hx : Evaluates A n scope a x b)
    (hslot : slotOf name scope = none) (hp : ⟨b, .setGlobal name, scope, t⟩ ∈ A.code) :
    Evaluates A n scope a (do let value ← x; .assign name value; return value) (b + 2) := by
  intro env temps m hs
  refine (hx hs).bind fun d env' m' hs' => ?_
  obtain ⟨locals, w⟩ := env'
  cases hs' with
  | @mk m ts ls hm hnames hlocals htemps =>
      have hassign : (do Eval.assign name d; return d : Eval Datum).run ⟨locals, w⟩ = (w.globals name).elim
          (.error (.failed (.undefinedVariable name)) ⟨locals, w⟩) fun _ => .ok d ⟨locals, w.define name d⟩ := by
        unfold Eval.assign
        rw [EStateM.run_bind, EStateM.run_bind, EStateM.run_get]
        simp only [lookup_eq_none (hnames ▸ hslot)]
        cases w.globals name <;> rfl
      rw [hassign]
      obtain ⟨v, ts, rfl, hv, hts⟩ := List.map_eq_cons_iff.mp htemps
      cases hg : m.global? name with
      | some old =>
          obtain ⟨globals, hdef, hstep⟩ := Execution.step_setGlobal hm.sound (has hp hm) hg v
          obtain ⟨e, he, -⟩ := hm.view_global hg
          rw [he]
          have hs : A.Stands scope (b + 2) ⟨locals, w.define name d⟩ (d :: temps) (Machine.config { m with globals }
              (A.frame (b + 2) :: A.outer) (v :: ts ++ (ls ++ A.callee :: A.below))) :=
            .mk (hm.define hdef hv) hnames hlocals htemps
          exact .step (hstep _ _ _) (.here hs)
      | none =>
          obtain ⟨globals, hsound, hsame, hstep⟩ := Execution.step_setGlobal_new hm.sound (has hp hm) hg v
          rw [(hm.global?_eq_none_iff name).mp hg]
          refine .fail (hstep _ _ _) (Mirrors.config ⟨hsound, hm.keeps, fun other => ?_, hm.printed, hm.clock⟩ _ _)
          rw [hsame other]
          exact hm.globals other

/-! ### Operators -/

theorem evaluates_unary {op : UnaryOp} {t : Nat} {x : Eval Datum} (hx : Evaluates A n scope a x b)
    (hp : ⟨b, .plain op.opcode, scope, t⟩ ∈ A.code) :
    Evaluates A n scope a (do let value ← x; .ofExcept (op.apply value)) (b + 1) := by
  intro env temps m hs
  refine (hx hs).bind fun d env' m' hs' => ?_
  cases hs' with
  | @mk m ts ls hm hnames hlocals htemps =>
      obtain ⟨v, ts, rfl, hv, hts⟩ := List.map_eq_cons_iff.mp htemps
      have hop := Execution.step_unary (has hp hm) hv A.below.length A.outer (ts ++ (ls ++ A.callee :: A.below))
      cases hr : op.apply d with
      | ok e =>
          rw [hr] at hop
          obtain ⟨u, hu, hstep⟩ := hop
          refine .push hstep ?_
          rw [← List.cons_append]
          exact .mk hm hnames hlocals (by rw [List.map_cons, List.map_cons, hu, hts])
      | error kind =>
          rw [hr] at hop
          exact .fail hop (hm.config _ _)

theorem evaluates_binary {op : BinaryOp} {c t : Nat} {x y : Eval Datum} (hx : Evaluates A n scope a x b)
    (hy : Evaluates A n scope b y c) (hp : ⟨c, .plain op.opcode, scope, t⟩ ∈ A.code) :
    Evaluates A n scope a (do let left ← x; let right ← y; .ofExcept (op.apply left right)) (c + 1) := by
  intro env temps m hs
  refine (hx hs).bind fun dx env₁ m₁ hs₁ => (hy hs₁).bind fun dy env₂ m₂ hs₂ => ?_
  cases hs₂ with
  | @mk m ts ls hm hnames hlocals htemps =>
      obtain ⟨v, ts, rfl, hv, hts⟩ := List.map_eq_cons_iff.mp htemps
      obtain ⟨u, ts, rfl, hu, hts⟩ := List.map_eq_cons_iff.mp hts
      have hop := Execution.step_binary hm.sound.heap (has hp hm) hu hv A.below.length A.outer
        (ts ++ (ls ++ A.callee :: A.below))
      cases hr : op.apply dx dy with
      | ok e =>
          rw [hr] at hop
          obtain ⟨heap, journal, z, hg, hz, hstep⟩ := hop
          refine .push hstep ?_
          rw [← List.cons_append]
          refine .mk (hm.grow hg) hnames (map_local_mono hg.keeps hlocals) ?_
          rw [List.map_cons, List.map_cons, hz]
          exact congrArg _ (map_view_mono hg.keeps hts)
      | error kind =>
          rw [hr] at hop
          exact .fail hop (hm.config _ _)

/-- The left operand decides, or its value is dropped and the right operand decides. -/
theorem evaluates_and {t t' : Nat} {x y : Eval Datum} {c : Nat} (hx : Evaluates A n scope a x b)
    (hj : ⟨b, .jumpIfFalse c, scope, t⟩ ∈ A.code) (hp : ⟨b + 3, .plain .pop, scope, t'⟩ ∈ A.code)
    (hy : Evaluates A n scope (b + 4) y c) :
    Evaluates A n scope a (do let left ← x; if left.isFalsey then return left else y) c := by
  intro env temps m hs
  refine (hx hs).bind fun d env₁ m₁ hs₁ => ?_
  obtain ⟨m₂, hstep, hs₂⟩ := hs₁.jumpIfFalse hj
  refine .step hstep ?_
  cases hd : d.isFalsey with
  | true =>
      rw [hd] at hs₂
      exact .here hs₂
  | false =>
      rw [hd] at hs₂
      obtain ⟨m₃, hstep', hs₃⟩ := hs₂.pop hp
      exact .step hstep' (hy hs₃)

theorem evaluates_or {t t' t'' : Nat} {x y : Eval Datum} {c : Nat} (hx : Evaluates A n scope a x b)
    (hj : ⟨b, .jumpIfFalse (b + 6), scope, t⟩ ∈ A.code) (hk : ⟨b + 3, .jump c, scope, t'⟩ ∈ A.code)
    (hp : ⟨b + 6, .plain .pop, scope, t''⟩ ∈ A.code) (hy : Evaluates A n scope (b + 7) y c) :
    Evaluates A n scope a (do let left ← x; if left.isFalsey then y else return left) c := by
  intro env temps m hs
  refine (hx hs).bind fun d env₁ m₁ hs₁ => ?_
  obtain ⟨m₂, hstep, hs₂⟩ := hs₁.jumpIfFalse hj
  refine .step hstep ?_
  cases hd : d.isFalsey with
  | true =>
      rw [hd] at hs₂
      obtain ⟨m₃, hstep', hs₃⟩ := hs₂.pop hp
      exact .step hstep' (hy hs₃)
  | false =>
      rw [hd] at hs₂
      obtain ⟨m₃, hstep', hs₃⟩ := hs₂.jump (.inl hk)
      exact .step hstep' (.here hs₃)

/-! ### Calls -/

theorem evaluatesAll_cons {x : Eval Datum} {y : Eval (List Datum)} {count c : Nat} (hx : Evaluates A n scope a x b)
    (hy : EvaluatesAll A n scope b y count c) :
    EvaluatesAll A n scope a (do let value ← x; let values ← y; return value :: values) (count + 1) c := by
  intro env temps m hs
  refine (hx hs).bind fun d env₁ m₁ hs₁ => (hy hs₁).bind fun ds env₂ m₂ hs₂ => ?_
  obtain ⟨hlen, hs₂⟩ := hs₂
  refine .here ⟨by rw [List.length_cons, hlen], ?_⟩
  rw [List.reverse_cons, List.append_assoc]
  exact hs₂

theorem evaluates_call {x : Eval Datum} {y : Eval (List Datum)} {count c t : Nat} (hcalls : Calls S n call)
    (hx : Evaluates A n scope a x b) (hy : EvaluatesAll A n scope b y count c)
    (hp : ⟨c, .call count, scope, t⟩ ∈ A.code) :
    Evaluates A n scope a (do let callee ← x; let values ← y; .inWorld (call callee values)) (c + 2) := by
  intro env temps m hs
  refine (hx hs).bind fun d env₁ m₁ hs₁ => (hy hs₁).bind fun ds env₂ m₂ hs₂ => ?_
  obtain ⟨rfl, hs₂⟩ := hs₂
  cases hs₂ with
  | @mk m ts ls hm hnames hlocals htemps =>
      rw [List.map_append] at htemps
      obtain ⟨args, ts, rfl, hargs, hts⟩ := List.map_eq_append_iff.mp htemps
      obtain ⟨v, ts, rfl, hv, hts⟩ := List.map_eq_cons_iff.mp hts
      have hlen : ds.length = args.length := by simpa using congrArg List.length hargs.symm
      rw [hlen] at hp
      have hstack : (args ++ v :: ts) ++ (ls ++ A.callee :: A.below) =
          args ++ v :: (ts ++ (ls ++ A.callee :: A.below)) := by simp
      have hstep : Execution.step.run
          (m.config (A.frame c :: A.outer) (args ++ v :: (ts ++ (ls ++ A.callee :: A.below)))) = _ :=
          Execution.step_call (has hp hm)
      rw [hstack]
      refine (hcalls hm (List.cons_ne_nil _ _) hv hargs hstep).keeping.inWorld.mono (Nat.le_refl n) ?_
      rintro e ⟨locals, w⟩ m' ⟨hlocals', ⟨m₁, u, rfl, hm₁, hu⟩, hkeeps⟩
      obtain rfl : locals = env₂.locals := hlocals'
      rw [← List.cons_append]
      refine .mk hm₁ hnames (map_local_mono hkeeps hlocals) ?_
      rw [List.map_cons, List.map_cons, hu]
      exact congrArg _ (map_view_mono hkeeps hts)

mutual

/-- The code of an expression computes its value. -/
theorem Expr.Laid.evaluates (hcalls : Calls S n call) {t a b : Nat} {e : Expr} {sp : List Spot} :
    Expr.Laid scope t a e sp b → sp ⊆ A.code → Evaluates A n scope a (e.eval call) b
  | .nil, hin => by
      rw [List.cons_subset] at hin
      exact evaluates_pure fun hm => ⟨.nil, rfl, Execution.step_nil (has hin.1 hm)⟩
  | .yes, hin => by
      rw [List.cons_subset] at hin
      exact evaluates_pure fun hm => ⟨.bool true, rfl, Execution.step_true (has hin.1 hm)⟩
  | .no, hin => by
      rw [List.cons_subset] at hin
      exact evaluates_pure fun hm => ⟨.bool false, rfl, Execution.step_false (has hin.1 hm)⟩
  | .number, hin => by
      rw [List.cons_subset] at hin
      refine evaluates_literal hin.1 fun _ hd => ?_
      obtain rfl : _ = Value.number _ := hd
      rfl
  | .text, hin => by
      rw [List.cons_subset] at hin
      refine evaluates_literal hin.1 fun _ hd => ?_
      obtain ⟨handle, s, rfl, hs, rfl⟩ := hd
      exact view_text hs
  | .getLocal h, hin => by
      rw [List.cons_subset] at hin
      exact evaluates_getLocal h hin.1
  | .getGlobal h, hin => by
      rw [List.cons_subset] at hin
      exact evaluates_getGlobal h hin.1
  | .setLocal h he, hin => by
      rw [List.append_subset, List.cons_subset] at hin
      exact evaluates_setLocal (he.evaluates hcalls hin.1) h hin.2.1
  | .setGlobal h he, hin => by
      rw [List.append_subset, List.cons_subset] at hin
      exact evaluates_setGlobal (he.evaluates hcalls hin.1) h hin.2.1
  | .unary he, hin => by
      rw [List.append_subset, List.cons_subset] at hin
      exact evaluates_unary (he.evaluates hcalls hin.1) hin.2.1
  | .binary hl hr, hin => by
      rw [List.append_subset, List.append_subset, List.cons_subset] at hin
      obtain ⟨hleft, hright, hop, -⟩ := hin
      exact evaluates_binary (hl.evaluates hcalls hleft) (hr.evaluates hcalls hright) hop
  | .and hl hr, hin => by
      rw [List.append_subset, List.cons_subset, List.cons_subset] at hin
      obtain ⟨hleft, hjump, hpop, hright⟩ := hin
      exact evaluates_and (hl.evaluates hcalls hleft) hjump hpop (hr.evaluates hcalls hright)
  | .or hl hr, hin => by
      rw [List.append_subset, List.cons_subset, List.cons_subset, List.cons_subset] at hin
      obtain ⟨hleft, hjump, hover, hpop, hright⟩ := hin
      exact evaluates_or (hl.evaluates hcalls hleft) hjump hover hpop (hr.evaluates hcalls hright)
  | .call hf ha, hin => by
      rw [List.append_subset, List.append_subset, List.cons_subset] at hin
      obtain ⟨hcallee, hargs, hcall, -⟩ := hin
      exact evaluates_call hcalls (hf.evaluates hcalls hcallee) (ha.evaluates hcalls hargs) hcall

/-- The code of an argument list computes the arguments. -/
theorem Args.Laid.evaluates (hcalls : Calls S n call) {t a b : Nat} {args : Args} {sp : List Spot} :
    Args.Laid scope t a args sp b → sp ⊆ A.code → EvaluatesAll A n scope a (args.eval call) args.length b
  | .nil, _ => fun _ _ _ hs => .here ⟨rfl, hs⟩
  | .cons he hr, hin => by
      rw [List.append_subset] at hin
      exact evaluatesAll_cons (he.evaluates hcalls hin.1) (hr.evaluates hcalls hin.2)

end

end Lox
