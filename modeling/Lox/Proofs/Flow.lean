import Lox.Proofs.Layout

/-! Where the code of a tree leads. A layout says for each instruction how many values lie on the stack when
control arrives; here it is shown that it does arrive like that. Every instruction finds the values that it takes,
and wherever it leads, to the next instruction or to the target of a jump, the layout has an instruction that
expects as many values as are there then. Nothing is executed here; this is a property of the layout alone. -/

namespace Lox

/-- The code has an instruction at an offset, which expects so many values of its frame. -/
def Lands (code : List Spot) (offset height : Nat) : Prop :=
  ∃ q ∈ code, q.offset = offset ∧ q.height = height

/-- An instruction finds what it takes and leads to where the rest is expected. The functions that it refers to are
known. -/
inductive Spot.Flows (code : List Spot) (known : Handle → Prop) : Spot → Prop where
  | value {a t : Nat} {scope : List String} {op : Opcode} (hop : op = .pushNil ∨ op = .pushTrue ∨ op = .pushFalse)
      (h : Lands code (a + 1) (1 + scope.length + t + 1)) : Flows code known ⟨a, .plain op, scope, t⟩
  | constant {a t : Nat} {scope : List String} {literal : Literal} {wide : Bool}
      (hl : ∀ label, literal = .function label → known label)
      (h : Lands code (a + (Instr.constant literal wide).size) (1 + scope.length + t + 1)) :
      Flows code known ⟨a, .constant literal wide, scope, t⟩
  | getLocal {a t slot : Nat} {scope : List String} {name : String} (hs : slotOf name scope = some slot)
      (h : Lands code (a + 2) (1 + scope.length + t + 1)) : Flows code known ⟨a, .getLocal name slot, scope, t⟩
  | setLocal {a t slot : Nat} {scope : List String} {name : String} (hs : slotOf name scope = some slot)
      (h : Lands code (a + 2) (1 + scope.length + (t + 1))) : Flows code known ⟨a, .setLocal name slot, scope, t + 1⟩
  | getGlobal {a t : Nat} {scope : List String} {name : String} (h : Lands code (a + 2) (1 + scope.length + t + 1)) :
      Flows code known ⟨a, .getGlobal name, scope, t⟩
  | setGlobal {a t : Nat} {scope : List String} {name : String} (h : Lands code (a + 2) (1 + scope.length + (t + 1))) :
      Flows code known ⟨a, .setGlobal name, scope, t + 1⟩
  | defineGlobal {a t : Nat} {scope : List String} {name : String} (h : Lands code (a + 2) (1 + scope.length + t)) :
      Flows code known ⟨a, .defineGlobal name, scope, t + 1⟩
  | pop {a t height : Nat} {scope : List String} (hh : 1 + scope.length + t = height + 1) (hpos : 0 < height)
      (h : Lands code (a + 1) height) : Flows code known ⟨a, .plain .pop, scope, t⟩
  | print {a t : Nat} {scope : List String} (h : Lands code (a + 1) (1 + scope.length + t)) :
      Flows code known ⟨a, .plain .print, scope, t + 1⟩
  | unary {a t : Nat} {scope : List String} {op : UnaryOp} (h : Lands code (a + 1) (1 + scope.length + (t + 1))) :
      Flows code known ⟨a, .plain op.opcode, scope, t + 1⟩
  | binary {a t : Nat} {scope : List String} {op : BinaryOp} (h : Lands code (a + 1) (1 + scope.length + (t + 1))) :
      Flows code known ⟨a, .plain op.opcode, scope, t + 2⟩
  | jump {a t target : Nat} {scope : List String} (h : Lands code target (1 + scope.length + t)) :
      Flows code known ⟨a, .jump target, scope, t⟩
  | loop {a t target : Nat} {scope : List String} (h : Lands code target (1 + scope.length + t)) :
      Flows code known ⟨a, .loop target, scope, t⟩
  | jumpIfFalse {a t target : Nat} {scope : List String} (h : Lands code target (1 + scope.length + (t + 1)))
      (h' : Lands code (a + 3) (1 + scope.length + (t + 1))) :
      Flows code known ⟨a, .jumpIfFalse target, scope, t + 1⟩
  | call {a t count : Nat} {scope : List String} (h : Lands code (a + 2) (1 + scope.length + (t + 1))) :
      Flows code known ⟨a, .call count, scope, t + 1 + count⟩
  | ret {a t : Nat} {scope : List String} : Flows code known ⟨a, .plain .ret, scope, t + 1⟩

variable {code : List Spot} {known : Handle → Prop}

theorem lands_of_mem {p : Spot} (hp : p ∈ code) : Lands code p.offset p.height := ⟨p, hp, rfl, rfl⟩

/-- A value above the variables is dropped. -/
theorem flows_pop {a t : Nat} {scope : List String} (h : Lands code (a + 1) (1 + scope.length + t)) :
    Spot.Flows code known ⟨a, .plain .pop, scope, t + 1⟩ := by
  have hpos : 0 < 1 + scope.length + t := by omega
  exact .pop rfl hpos h

/-! ### Expressions -/

mutual

/-- An expression leaves one value where it ends. -/
theorem Expr.Laid.flows {scope : List String} {t a b : Nat} {e : Expr} {sp : List Spot} :
    Expr.Laid scope t a e sp b → sp ⊆ code → Lands code b (1 + scope.length + t + 1) →
      Lands code a (1 + scope.length + t) ∧ ∀ p ∈ sp, p.Flows code known
  | .nil, hin, hb => by
      rw [List.cons_subset] at hin
      exact ⟨lands_of_mem hin.1, List.forall_mem_singleton.mpr (.value (.inl rfl) hb)⟩
  | .yes, hin, hb => by
      rw [List.cons_subset] at hin
      exact ⟨lands_of_mem hin.1, List.forall_mem_singleton.mpr (.value (.inr (.inl rfl)) hb)⟩
  | .no, hin, hb => by
      rw [List.cons_subset] at hin
      exact ⟨lands_of_mem hin.1, List.forall_mem_singleton.mpr (.value (.inr (.inr rfl)) hb)⟩
  | .number, hin, hb => by
      rw [List.cons_subset] at hin
      exact ⟨lands_of_mem hin.1, List.forall_mem_singleton.mpr (.constant nofun hb)⟩
  | .text, hin, hb => by
      rw [List.cons_subset] at hin
      exact ⟨lands_of_mem hin.1, List.forall_mem_singleton.mpr (.constant nofun hb)⟩
  | .getLocal h, hin, hb => by
      rw [List.cons_subset] at hin
      exact ⟨lands_of_mem hin.1, List.forall_mem_singleton.mpr (.getLocal h hb)⟩
  | .getGlobal _, hin, hb => by
      rw [List.cons_subset] at hin
      exact ⟨lands_of_mem hin.1, List.forall_mem_singleton.mpr (.getGlobal hb)⟩
  | .setLocal h he, hin, hb => by
      rw [List.append_subset, List.cons_subset] at hin
      obtain ⟨ha, hall⟩ := he.flows hin.1 (lands_of_mem hin.2.1)
      exact ⟨ha, List.forall_mem_append.mpr ⟨hall, List.forall_mem_singleton.mpr (.setLocal h hb)⟩⟩
  | .setGlobal h he, hin, hb => by
      rw [List.append_subset, List.cons_subset] at hin
      obtain ⟨ha, hall⟩ := he.flows hin.1 (lands_of_mem hin.2.1)
      exact ⟨ha, List.forall_mem_append.mpr ⟨hall, List.forall_mem_singleton.mpr (.setGlobal hb)⟩⟩
  | .unary he, hin, hb => by
      rw [List.append_subset, List.cons_subset] at hin
      obtain ⟨ha, hall⟩ := he.flows hin.1 (lands_of_mem hin.2.1)
      exact ⟨ha, List.forall_mem_append.mpr ⟨hall, List.forall_mem_singleton.mpr (.unary hb)⟩⟩
  | .binary hl hr, hin, hb => by
      rw [List.append_subset, List.append_subset, List.cons_subset] at hin
      obtain ⟨hleft, hright, hop, -⟩ := hin
      obtain ⟨hm, hallr⟩ := hr.flows hright (lands_of_mem hop)
      obtain ⟨ha, halll⟩ := hl.flows hleft hm
      simp only [List.forall_mem_append, List.forall_mem_singleton]
      exact ⟨ha, halll, hallr, .binary hb⟩
  | .and hl hr, hin, hb => by
      rw [List.append_subset, List.cons_subset, List.cons_subset] at hin
      obtain ⟨hleft, hjump, hpop, hright⟩ := hin
      obtain ⟨hm, hallr⟩ := hr.flows hright hb
      obtain ⟨ha, halll⟩ := hl.flows hleft (lands_of_mem hjump)
      simp only [List.forall_mem_append, List.forall_mem_cons]
      exact ⟨ha, halll, .jumpIfFalse hb (lands_of_mem hpop), flows_pop hm, hallr⟩
  | .or hl hr, hin, hb => by
      rw [List.append_subset, List.cons_subset, List.cons_subset, List.cons_subset] at hin
      obtain ⟨hleft, hjump, hover, hpop, hright⟩ := hin
      obtain ⟨hm, hallr⟩ := hr.flows hright hb
      obtain ⟨ha, halll⟩ := hl.flows hleft (lands_of_mem hjump)
      simp only [List.forall_mem_append, List.forall_mem_cons]
      exact ⟨ha, halll, .jumpIfFalse (lands_of_mem hpop) (lands_of_mem hover), .jump hb, flows_pop hm, hallr⟩
  | .call hf hargs, hin, hb => by
      rw [List.append_subset, List.append_subset, List.cons_subset] at hin
      obtain ⟨hcallee, harguments, hcall, -⟩ := hin
      obtain ⟨hm, hallr⟩ := hargs.flows harguments (lands_of_mem hcall)
      obtain ⟨ha, halll⟩ := hf.flows hcallee hm
      simp only [List.forall_mem_append, List.forall_mem_singleton]
      exact ⟨ha, halll, hallr, .call hb⟩

/-- Arguments leave as many values as they are. -/
theorem Args.Laid.flows {scope : List String} {t a b : Nat} {args : Args} {sp : List Spot} :
    Args.Laid scope t a args sp b → sp ⊆ code → Lands code b (1 + scope.length + (t + args.length)) →
      Lands code a (1 + scope.length + t) ∧ ∀ p ∈ sp, p.Flows code known
  | .nil, _, hb => ⟨hb, nofun⟩
  | .cons he hr, hin, hb => by
      rw [List.append_subset] at hin
      rw [Args.length, Nat.add_comm _ 1, ← Nat.add_assoc t] at hb
      obtain ⟨hm, hallr⟩ := hr.flows hin.2 hb
      obtain ⟨ha, halll⟩ := he.flows hin.1 hm
      exact ⟨ha, List.forall_mem_append.mpr ⟨halll, hallr⟩⟩

end

/-! ### Statements -/

theorem pops_flow {outer inner : List String} {a : Nat} (hin : pops outer inner a ⊆ code)
    (hb : Lands code (a + inner.length) (1 + outer.length)) :
    Lands code a (1 + (inner ++ outer).length) ∧ ∀ p ∈ pops outer inner a, p.Flows code known := by
  induction inner generalizing a with
  | nil => exact ⟨hb, nofun⟩
  | cons x xs ih =>
      rw [pops, List.cons_subset] at hin
      rw [List.length_cons, Nat.add_comm _ 1, ← Nat.add_assoc] at hb
      obtain ⟨hnext, hall⟩ := ih hin.2 hb
      refine ⟨lands_of_mem hin.1, List.forall_mem_cons.mpr ⟨.pop ?_ ?_ hnext, hall⟩⟩
      · simp only [List.cons_append, List.length_cons]
        omega
      · omega

/-- A loop leads back to its beginning, and its test past its end. -/
theorem loop_flows {scope : List String} {a m k n b back : Nat} {test inc : Option Expr} {sc si sb se : List Spot}
    (ht : TestLaid scope a test (n + 3) sc m) (hi : IncrementLaid scope a m inc back si k)
    (he : ExitLaid scope (n + 3) test se b) (hsc : sc ⊆ code) (hsi : si ⊆ code) (hse : se ⊆ code)
    (hk : Lands code k (1 + scope.length)) (hall : ∀ p ∈ sb, p.Flows code known)
    (hb : Lands code b (1 + scope.length)) :
    Lands code a (1 + scope.length) ∧
      ∀ p ∈ sc ++ (si ++ (sb ++ ⟨n, .loop back, scope, 0⟩ :: se)), p.Flows code known := by
  -- the increment is passed by, and comes back to the beginning if that is there
  have hinc : Lands code m (1 + scope.length) ∧ (Lands code a (1 + scope.length) →
      Lands code back (1 + scope.length) ∧ ∀ p ∈ si, p.Flows code known) := by
    cases hi with
    | none => exact ⟨hk, fun ha => ⟨ha, nofun⟩⟩
    | some hexpr =>
        rw [List.cons_subset, List.append_subset, List.cons_subset, List.cons_subset] at hsi
        obtain ⟨hjump, hspots, hpop, hloop, -⟩ := hsi
        refine ⟨lands_of_mem hjump, fun ha => ?_⟩
        obtain ⟨hback, hallexpr⟩ := hexpr.flows hspots (lands_of_mem hpop)
        simp only [List.forall_mem_append, List.forall_mem_cons]
        exact ⟨hback, .jump hk, hallexpr, flows_pop (lands_of_mem hloop), .loop ha, nofun⟩
  have htest : Lands code a (1 + scope.length) ∧ (∀ p ∈ sc, p.Flows code known) ∧ ∀ p ∈ se, p.Flows code known := by
    cases ht with
    | none =>
        cases he with
        | none => exact ⟨hinc.1, nofun, nofun⟩
    | some hexpr =>
        rw [List.append_subset, List.cons_subset, List.cons_subset] at hsc
        obtain ⟨hspots, hjump, hpop, -⟩ := hsc
        cases he with
        | some =>
            rw [List.cons_subset] at hse
            obtain ⟨ha, hallexpr⟩ := hexpr.flows hspots (lands_of_mem hjump)
            simp only [List.forall_mem_append, List.forall_mem_cons]
            exact ⟨ha, ⟨hallexpr, .jumpIfFalse (lands_of_mem hse.1) (lands_of_mem hpop), flows_pop hinc.1, nofun⟩,
              flows_pop hb, nofun⟩
  obtain ⟨ha, hallc, halle⟩ := htest
  obtain ⟨hback, halli⟩ := hinc.2 ha
  simp only [List.forall_mem_append, List.forall_mem_cons]
  exact ⟨ha, hallc, halli, hall, .loop hback, halle⟩

mutual

/-- A statement leaves the variables where it ends. -/
theorem Stmt.Laid.flows {top : Bool} {scope after : List String} {a b : Nat} {s : Stmt} {sp : List Spot} :
    Stmt.Laid top scope a s sp b after → sp ⊆ code → (∀ entry ∈ s.functions, known entry.1) →
      Lands code b (1 + after.length) → Lands code a (1 + scope.length) ∧ ∀ p ∈ sp, p.Flows code known
  | .expression he, hin, _, hb => by
      rw [List.append_subset, List.cons_subset] at hin
      obtain ⟨ha, hall⟩ := he.flows hin.1 (lands_of_mem hin.2.1)
      exact ⟨ha, List.forall_mem_append.mpr ⟨hall, List.forall_mem_singleton.mpr (flows_pop hb)⟩⟩
  | .print he, hin, _, hb => by
      rw [List.append_subset, List.cons_subset] at hin
      obtain ⟨ha, hall⟩ := he.flows hin.1 (lands_of_mem hin.2.1)
      exact ⟨ha, List.forall_mem_append.mpr ⟨hall, List.forall_mem_singleton.mpr (.print hb)⟩⟩
  | .ret he, hin, _, _ => by
      rw [List.append_subset, List.cons_subset] at hin
      obtain ⟨ha, hall⟩ := he.flows hin.1 (lands_of_mem hin.2.1)
      exact ⟨ha, List.forall_mem_append.mpr ⟨hall, List.forall_mem_singleton.mpr .ret⟩⟩
  | .cond hc hy hn, hin, hf, hb => by
      rw [List.append_subset, List.cons_subset, List.cons_subset, List.append_subset, List.cons_subset,
        List.cons_subset] at hin
      obtain ⟨hcond, hjump, hpop, hyes, hover, hpop', hno⟩ := hin
      rw [Stmt.functions, List.forall_mem_append] at hf
      obtain ⟨hlandn, halln⟩ := hn.flows hno hf.2 hb
      obtain ⟨hlandy, hally⟩ := hy.flows hyes hf.1 (lands_of_mem hover)
      obtain ⟨ha, hallc⟩ := hc.flows hcond (lands_of_mem hjump)
      simp only [List.forall_mem_append, List.forall_mem_cons]
      exact ⟨ha, hallc, .jumpIfFalse (lands_of_mem hpop') (lands_of_mem hpop), flows_pop hlandy, hally, .jump hb,
        flows_pop hlandn, halln⟩
  | .loop ht hi hbody he, hin, hf, hb => by
      rw [List.append_subset, List.append_subset, List.append_subset, List.cons_subset] at hin
      obtain ⟨htest, hinc, hspots, hback, hexit⟩ := hin
      obtain ⟨hk, hall⟩ := hbody.flows hspots hf (lands_of_mem hback)
      exact loop_flows ht hi he htest hinc hexit hk hall hb
  | .block hbody, hin, hf, hb => by
      rw [List.append_subset] at hin
      obtain ⟨hend, hallp⟩ := pops_flow hin.2 hb
      obtain ⟨ha, hall⟩ := hbody.flows hin.1 hf hend
      exact ⟨ha, List.forall_mem_append.mpr ⟨hall, hallp⟩⟩
  | .varLocal he, hin, _, hb => by
      rw [List.length_cons, ← Nat.add_assoc] at hb
      exact he.flows hin hb
  | .varGlobal he, hin, _, hb => by
      rw [List.append_subset, List.cons_subset] at hin
      obtain ⟨ha, hall⟩ := he.flows hin.1 (lands_of_mem hin.2.1)
      exact ⟨ha, List.forall_mem_append.mpr ⟨hall, List.forall_mem_singleton.mpr (.defineGlobal hb)⟩⟩
  | .functionLocal, hin, hf, hb => by
      rw [List.cons_subset] at hin
      rw [Stmt.functions, List.forall_mem_append, List.forall_mem_singleton] at hf
      rw [List.length_cons, ← Nat.add_assoc] at hb
      refine ⟨lands_of_mem hin.1, List.forall_mem_singleton.mpr (.constant ?_ hb)⟩
      rintro label ⟨⟩
      exact hf.2
  | .functionGlobal, hin, hf, hb => by
      rw [List.cons_subset, List.cons_subset] at hin
      rw [Stmt.functions, List.forall_mem_append, List.forall_mem_singleton] at hf
      simp only [List.forall_mem_cons]
      refine ⟨lands_of_mem hin.1, .constant ?_ (lands_of_mem hin.2.1), .defineGlobal hb, nofun⟩
      rintro label ⟨⟩
      exact hf.2

theorem Block.Laid.flows {top : Bool} {scope after : List String} {a b : Nat} {body : Block} {sp : List Spot} :
    Block.Laid top scope a body sp b after → sp ⊆ code → (∀ entry ∈ body.functions, known entry.1) →
      Lands code b (1 + after.length) → Lands code a (1 + scope.length) ∧ ∀ p ∈ sp, p.Flows code known
  | .nil, _, _, hb => ⟨hb, nofun⟩
  | .cons hs hr, hin, hf, hb => by
      rw [List.append_subset] at hin
      rw [Block.functions, List.forall_mem_append] at hf
      obtain ⟨hm, hallr⟩ := hr.flows hin.2 hf.2 hb
      obtain ⟨ha, halls⟩ := hs.flows hin.1 hf.1 hm
      exact ⟨ha, List.forall_mem_append.mpr ⟨halls, hallr⟩⟩

end

/-- **The flow of a routine.** The code of a routine begins with the callee and the arguments on the stack, and
every instruction leads to one that expects the values that are there. -/
theorem Routine.Laid.flows {r : Routine} (h : r.Laid code) (hf : ∀ entry ∈ r.body.functions, known entry.1) :
    Lands code 0 (1 + r.params.length) ∧ ∀ p ∈ code, p.Flows code known := by
  cases h with
  | @mk sp m after hb =>
      have hparts : sp ++ ([⟨m, .plain .pushNil, after, 0⟩, ⟨m + 1, .plain .ret, after, 1⟩] : List Spot) ⊆ _ :=
        List.Subset.refl _
      rw [List.append_subset, List.cons_subset, List.cons_subset] at hparts
      obtain ⟨hbody, hnil, hret, -⟩ := hparts
      obtain ⟨ha, hall⟩ := hb.flows hbody hf (lands_of_mem hnil)
      rw [List.length_reverse] at ha
      refine ⟨ha, ?_⟩
      rw [List.forall_mem_append, List.forall_mem_cons, List.forall_mem_singleton]
      exact ⟨hall, .value (.inl rfl) (lands_of_mem hret), .ret⟩

end Lox
