import Lox.Proofs.Compile.Total

/-! Compiling terminates. Each token but the end takes characters of the source, and each loop of the grammar and each
circle of rules takes a token, so a rule needs a budget in proportion to the tokens that are left. A budget that is
enough can be any larger one: it bounds the work and has no say in the result. -/

namespace Lox

namespace Compiler

/-! ### Larger budgets -/

variable {α β : Type}

/-- Whatever the one rule comes to, the other one comes to as well. -/
def Extends (x y : Compiler α) : Prop := ∀ s a s', x.run s = .ok a s' → y.run s = .ok a s'

namespace Extends

theorem refl (x : Compiler α) : Extends x x := fun _ _ _ h => h

theorem trans {x y z : Compiler α} (h : Extends x y) (h' : Extends y z) : Extends x z :=
  fun s a s' hx => h' s a s' (h s a s' hx)

theorem giveUp (y : Compiler α) : Extends giveUp y := fun _ _ _ h => absurd h run_throw_ne_ok

theorem bind {x y : Compiler α} {f g : α → Compiler β} (hx : Extends x y) (hf : ∀ a, Extends (f a) (g a)) :
    Extends (x >>= f) (y >>= g) := by
  intro s b s'' h
  obtain ⟨a, s', h₁, h₂⟩ := run_bind_eq_ok.mp h
  exact run_bind_eq_ok.mpr ⟨a, s', hx _ _ _ h₁, hf a _ _ _ h₂⟩

/-- The first step is the same. -/
theorem after {x : Compiler α} {f g : α → Compiler β} (hf : ∀ a, Extends (f a) (g a)) : Extends (x >>= f) (x >>= g) :=
  bind (refl x) hf

/-- The last steps are the same. -/
theorem before {x y : Compiler α} {f : α → Compiler β} (hx : Extends x y) : Extends (x >>= f) (y >>= f) :=
  bind hx fun a => refl (f a)

theorem ite {p : Prop} [Decidable p] {x x' y y' : Compiler α} (hx : Extends x x') (hy : Extends y y') :
    Extends (if p then x else y) (if p then x' else y') := by
  split
  · exact hx
  · exact hy

/-- A rule that is extended by its next larger budget is extended by every larger one. -/
theorem of_succ {x : Nat → Compiler α} (h : ∀ budget, Extends (x budget) (x (budget + 1))) {b b' : Nat} (hb : b ≤ b') :
    Extends (x b) (x b') := by
  induction hb with
  | refl => exact .refl _
  | step _ ih => exact ih.trans (h _)

end Extends

theorem extends_expressions (budget : Nat) :
    (∀ p, Extends (expressionOf p budget) (expressionOf p (budget + 1))) ∧
      (∀ p, Extends (joinAll p budget) (joinAll p (budget + 1))) ∧
      (∀ o c, Extends (openWith o c budget) (openWith o c (budget + 1))) ∧
      (∀ j p, Extends (joinWith j p budget) (joinWith j p (budget + 1))) ∧
      ∀ count, Extends (arguments count budget) (arguments count (budget + 1)) := by
  induction budget with
  | zero =>
      refine ⟨fun p => ?_, fun p => ?_, fun o c => ?_, fun j p => ?_, fun count => ?_⟩
      · rw [expressionOf]; exact .giveUp _
      · rw [joinAll]; exact .giveUp _
      · rw [openWith]; exact .giveUp _
      · rw [joinWith]; exact .giveUp _
      · rw [arguments]; exact .giveUp _
  | succ budget ih =>
      obtain ⟨hexpr, hall, hopen, hjoin, hargs⟩ := ih
      refine ⟨fun p => ?_, fun p => ?_, fun o c => ?_, fun j p => ?_, fun count => ?_⟩
      · rw [expressionOf, expressionOf]
        refine .after fun _ => .after fun s => ?_
        cases opening? s.previous.kind with
        | none => exact .refl _
        | some o => exact .bind (hopen o _) fun _ => .before (hall p)
      · rw [joinAll, joinAll]
        refine .after fun s => ?_
        cases joining? s.current.kind with
        | none => exact .refl _
        | some jq => exact .ite (.after fun _ => .bind (hjoin _ _) fun _ => hall p) (.refl _)
      · cases o <;> rw [openWith, openWith]
        case grouping => exact .before (hexpr _)
        case unary op => exact .before (hexpr _)
        case number | string | literal => exact .refl _
        case «variable» =>
          refine .after fun _ => .after fun access => ?_
          cases access with
          | none => exact .refl _
          | some access =>
              have huse : ∀ assigns : Bool, Extends (if assigns = true then do
                  expressionOf .assignment budget
                  emitByte access.write access.operand
                else emitByte access.read access.operand) (if assigns = true then do
                  expressionOf .assignment (budget + 1)
                  emitByte access.write access.operand
                else emitByte access.read access.operand) := fun _ => .ite (.before (hexpr _)) (.refl _)
              exact .ite (.after huse) (.after huse)
      · cases j <;> rw [joinWith, joinWith]
        case binary op => exact .before (hexpr _)
        case and => exact .after fun _ => .after fun _ => .before (hexpr _)
        case or => exact .after fun _ => .after fun _ => .after fun _ => .after fun _ => .before (hexpr _)
        case call => exact .after fun _ => .ite (.refl _) (.before (hargs 0))
      · rw [arguments, arguments]
        exact .bind (hexpr _) fun _ => .after fun _ => .after fun _ => .ite (hargs _) (.refl _)

theorem extends_expression (budget : Nat) : Extends (expression budget) (expression (budget + 1)) :=
  (extends_expressions budget).1 _

theorem extends_expressionStatement (budget : Nat) :
    Extends (expressionStatement budget) (expressionStatement (budget + 1)) := .before (extends_expression budget)

theorem extends_printStatement (budget : Nat) : Extends (printStatement budget) (printStatement (budget + 1)) :=
  .before (extends_expression budget)

theorem extends_returnStatement (budget : Nat) : Extends (returnStatement budget) (returnStatement (budget + 1)) :=
  .after fun _ => .ite (.refl _) (.before (extends_expression budget))

theorem extends_varDeclaration (budget : Nat) : Extends (varDeclaration budget) (varDeclaration (budget + 1)) :=
  .after fun _ => .after fun _ => .ite (.before (extends_expression budget)) (.refl _)

theorem extends_forInitializer (budget : Nat) : Extends (forInitializer budget) (forInitializer (budget + 1)) :=
  .after fun _ => .ite (extends_varDeclaration budget)
    (.after fun _ => .ite (extends_expressionStatement budget) (.refl _))

theorem extends_forCondition (budget : Nat) : Extends (forCondition budget) (forCondition (budget + 1)) :=
  .after fun _ => .ite (.refl _) (.before (extends_expression budget))

theorem extends_forIncrement (start budget : Nat) :
    Extends (forIncrement start budget) (forIncrement start (budget + 1)) :=
  .after fun _ => .ite (.refl _) (.after fun _ => .after fun _ => .before (extends_expression budget))

theorem extends_parameters (budget : Nat) : Extends (parameters budget) (parameters (budget + 1)) := by
  induction budget with
  | zero => exact .giveUp _
  | succ budget ih =>
      rw [parameters, parameters]
      exact .after fun _ => .after fun _ => .after fun _ => .after fun _ => .ite ih (.refl _)

theorem extends_skipStatement (budget : Nat) : Extends (skipStatement budget) (skipStatement (budget + 1)) := by
  induction budget with
  | zero => exact .giveUp _
  | succ budget ih =>
      rw [skipStatement, skipStatement]
      exact .after fun _ => .ite (.refl _) (.after fun _ => ih)

theorem extends_synchronize (budget : Nat) : Extends (synchronize budget) (synchronize (budget + 1)) :=
  .after fun _ => .ite (.after fun _ => extends_skipStatement budget) (.refl _)

theorem extends_statements (budget : Nat) :
    Extends (declaration budget) (declaration (budget + 1)) ∧
      Extends (funDeclaration budget) (funDeclaration (budget + 1)) ∧
      Extends (functionBody budget) (functionBody (budget + 1)) ∧
      Extends (statement budget) (statement (budget + 1)) ∧ Extends (block budget) (block (budget + 1)) ∧
      Extends (ifStatement budget) (ifStatement (budget + 1)) ∧
      Extends (whileStatement budget) (whileStatement (budget + 1)) ∧
      Extends (forStatement budget) (forStatement (budget + 1)) := by
  induction budget with
  | zero => exact ⟨.giveUp _, .giveUp _, .giveUp _, .giveUp _, .giveUp _, .giveUp _, .giveUp _, .giveUp _⟩
  | succ budget ih =>
      obtain ⟨hdecl, hfun, hbody, hstmt, hblock, hif, hwhile, hfor⟩ := ih
      have hsync := extends_synchronize budget
      have hexpr := extends_expression budget
      refine ⟨?_, ?_, ?_, ?_, ?_, ?_, ?_, ?_⟩
      · rw [declaration, declaration]
        exact .after fun _ => .ite (.bind hfun fun _ => hsync)
          (.after fun _ => .ite (.bind (extends_varDeclaration budget) fun _ => hsync)
            (.after fun _ => .ite (.after fun _ => hsync) (.bind hstmt fun _ => hsync)))
      · rw [funDeclaration, funDeclaration]
        exact .after fun _ => .after fun _ => .before hbody
      · rw [functionBody, functionBody]
        have hrest : Extends (do
            expect .rightParen .parenAfterParameters
            expect .leftBrace .braceBeforeBody
            block budget
            let function ← endFunction
            emitConstant (.object function)) (do
            expect .rightParen .parenAfterParameters
            expect .leftBrace .braceBeforeBody
            block (budget + 1)
            let function ← endFunction
            emitConstant (.object function)) := .after fun _ => .after fun _ => .before hblock
        exact .after fun _ => .after fun _ => .after fun _ => .after fun _ => .after fun _ => .after fun _ =>
          .ite (.bind (extends_parameters budget) fun _ => hrest) hrest
      · rw [statement, statement]
        exact .after fun _ => .ite (extends_printStatement budget)
          (.after fun _ => .ite hfor (.after fun _ => .ite hif
          (.after fun _ => .ite (extends_returnStatement budget) (.after fun _ => .ite hwhile
          (.after fun _ => .ite (.after fun _ => .before hblock) (extends_expressionStatement budget))))))
      · rw [block, block]
        exact .after fun _ => .ite (.refl _) (.bind hdecl fun _ => hblock)
      · rw [ifStatement, ifStatement]
        exact .after fun _ => .bind hexpr fun _ => .after fun _ => .after fun _ => .after fun _ => .bind hstmt fun _ =>
          .after fun _ => .after fun _ => .after fun _ => .after fun _ => .ite (.before hstmt) (.refl _)
      · rw [whileStatement, whileStatement]
        exact .after fun _ => .after fun _ => .bind hexpr fun _ => .after fun _ => .after fun _ => .after fun _ =>
          .before hstmt
      · rw [forStatement, forStatement]
        exact .after fun _ => .after fun _ => .bind (extends_forInitializer budget) fun _ => .after fun _ =>
          .bind (extends_forCondition budget) fun _ => .bind (extends_forIncrement _ budget) fun _ => .before hstmt

theorem extends_program (budget : Nat) : Extends (program budget) (program (budget + 1)) := by
  induction budget with
  | zero => exact .giveUp _
  | succ budget ih =>
      rw [program, program]
      exact .after fun _ => .ite (.refl _) (.bind (extends_statements budget).1 fun _ => ih)

theorem extends_script (budget : Nat) : Extends (script budget) (script (budget + 1)) :=
  .after fun _ => .before (extends_program budget)

/-! ### Rules from any state -/

/-- With at most `n` tokens left, the rule comes to one and the same result with every budget from `4 * n + slack` on,
and takes at least `taken` tokens if there are so many. -/
def Stops (x : Nat → Compiler α) (slack taken : Nat) : Prop :=
  ∀ n s, (∃ g, CompileState.Within g n s) → ∃ a s', (∃ g, CompileState.Within g (n - taken) s') ∧
    ∀ budget, 4 * n + slack ≤ budget → (x budget).run s = .ok a s'

theorem Stops.of_ends {x : Nat → Compiler α} {slack taken : Nat}
    (hx : ∀ g n, Ends (x (4 * n + slack)) g n g (n - taken)) (hm : ∀ budget, Extends (x budget) (x (budget + 1))) :
    Stops x slack taken := by
  rintro n s ⟨g, hs⟩
  obtain ⟨a, s', h, hs'⟩ := hx g n s hs
  exact ⟨a, s', ⟨g, hs'⟩, fun budget hb => Extends.of_succ hm hb _ _ _ h⟩

end Compiler

open Compiler in
/-- **Compiling terminates.** The scanner takes characters until it is at the end, and stays there. Each rule that a
loop or a circle of rules goes through comes to a result from every state, with a budget in proportion to the tokens
left, and those that a loop repeats take a token. So a whole source comes to a result, which no larger budget changes.
-/
theorem compile_terminates :
    (∀ c : Cursor, c.next.1.kind = .eof ∧ c.next.2.rest = [] ∧ c.next.2.next = c.next ∨
      c.next.2.rest.length < c.rest.length) ∧
    (∀ source count, source.toList.length < count → (Cursor.ofSource source).collect count [] = tokenize source) ∧
    (Stops program 5 0 ∧ Stops declaration 4 1 ∧ Stops statement 2 1 ∧ Stops block 5 0 ∧ Stops functionBody 6 0 ∧
      (∀ p, Stops (expressionOf p) 1 1) ∧ (∀ p, Stops (joinAll p) 2 0) ∧
      (∀ j p, Stops (fun budget => do advance; joinWith j p budget) 3 1) ∧
      (∀ count ≤ 255, Stops (arguments count) 2 0) ∧ Stops parameters 1 0 ∧ Stops synchronize 1 0) ∧
    ∀ source heap printCode journal, ∃ c, compile source heap printCode journal = .ok c ∧
      ∀ budget, 4 * (tokenize source).length + 1 ≤ budget →
        ∃ s, (script budget).run (.initial source heap printCode journal) = .ok c s := by
  refine ⟨fun c => ?_, fun source count hc => ?_, ?_, fun source heap printCode journal => ?_⟩
  · by_cases hend : c.next.1.kind = .eof
    · exact .inl ⟨hend, Cursor.next_of_eof hend⟩
    · exact .inr (Cursor.next_spec c hend).1
  · exact Cursor.collect_stable hc (Nat.lt_succ_self _) []
  · refine ⟨?_, ?_, ?_, ?_, ?_, fun p => ?_, fun p => ?_, fun j p => ?_, fun count hcount => ?_, ?_, ?_⟩
    · exact .of_ends (fun _ _ => ends_program (Nat.le_refl _)) extends_program
    · exact .of_ends (fun _ _ => (ends_statements _).1 _ _ (Nat.le_refl _)) fun b => (extends_statements b).1
    · exact .of_ends (fun _ _ => (ends_statements _).2.2.2.1 _ _ (Nat.le_refl _)) fun b =>
        (extends_statements b).2.2.2.1
    · exact .of_ends (fun _ _ => (ends_statements _).2.2.2.2.1 _ _ (Nat.le_refl _))
        fun b => (extends_statements b).2.2.2.2.1
    · exact .of_ends (fun _ _ => (ends_statements _).2.2.1 _ _ (Nat.le_refl _)) fun b => (extends_statements b).2.2.1
    · exact .of_ends (fun _ n => (ends_expressions (4 * n + 1)).1 _ _ _ (by omega)) fun b => (extends_expressions b).1 p
    · exact .of_ends (fun _ n => (ends_expressions (4 * n + 2)).2.1 _ _ _ (by omega)) fun b =>
        (extends_expressions b).2.1 p
    · refine .of_ends (fun g n => .bind ends_advance fun _ => ?_) fun b => .after fun _ =>
        (extends_expressions b).2.2.2.1 j p
      exact (ends_expressions (4 * n + 3)).2.2.2.1 _ _ _ _ (by omega)
    · refine .of_ends (fun g n s hs => ?_) fun b => (extends_expressions b).2.2.2.2 count
      obtain ⟨a, s', h, hs', -⟩ := (ends_expressions (4 * n + 2)).2.2.2.2 count g n hcount (by omega) s hs
      exact ⟨a, s', h, hs'⟩
    · exact .of_ends (fun _ _ => ends_parameters (by omega)) extends_parameters
    · exact .of_ends (fun _ _ => ends_synchronize (by omega)) extends_synchronize
  · -- the smallest budget that is enough gives what all larger ones give
    obtain ⟨s, hrun, -⟩ := ends_script source heap printCode journal (Nat.le_refl _)
    have hall : ∀ budget, 4 * (tokenize source).length + 1 ≤ budget →
        (script budget).run (.initial source heap printCode journal) = .ok s.finish s :=
      fun budget hb => Extends.of_succ extends_script hb _ _ _ hrun
    exact ⟨s.finish, compile_of_script (hall _ (budget_enough _)), fun budget hb => ⟨s, hall budget hb⟩⟩

end Lox
