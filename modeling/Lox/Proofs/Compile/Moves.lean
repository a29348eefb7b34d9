import Lox.Compile.Basic
import Lox.Proofs.Storage.Interning

/-! What the compiler can do to its state. Every rule of the grammar is a sequence of a few kinds of moves: it takes a
token, notes a complaint, edits the code of the innermost function, changes the scope, makes a string or a function
object, or turns to another function, whose name is a string. Whatever all moves keep, a whole compilation keeps,
whether the source is accepted or not. -/

namespace Lox

namespace Compiler

variable {α β : Type}

/-- A run of two parts is a run of the one and then of the other. -/
theorem run_bind_eq_ok {x : Compiler α} {f : α → Compiler β} {s s'' : CompileState} {b : β} :
    (x >>= f).run s = .ok b s'' ↔ ∃ a s', x.run s = .ok a s' ∧ (f a).run s' = .ok b s'' := by
  rw [EStateM.run_bind]
  cases h : x.run s with
  | ok a s' =>
      constructor
      · exact fun h' => ⟨a, s', rfl, h'⟩
      · rintro ⟨a', t, heq, h'⟩
        cases heq
        exact h'
  | error e s' => simp

theorem run_throw_ne_ok {e : Fault} {s s' : CompileState} {a : α} :
    (throw e : Compiler α).run s ≠ .ok a s' := by
  intro h
  cases h

end Compiler

/-- An edit of the code of a chunk: something of a source line is written, or a jump is given its target. -/
inductive Chunk.Edit (line : Nat) (c : Chunk) : Chunk → Prop where
  | op (op : Opcode) : Edit line c (c.writeOp op line)
  | opByte (op : Opcode) (operand : UInt8) : Edit line c (c.writeOpByte op operand line)
  | opWord (op : Opcode) (operand : Nat) : Edit line c (c.writeOpWord op operand line)
  | patch (offset operand : Nat) : Edit line c (c.setWord offset operand)

namespace CompileState

/-- A constant is added to the innermost function. -/
def withConstant (value : Value) (s : CompileState) : CompileState := s.mapChunk fun c => (c.addConstant value).1

theorem heap_intern (chars : String) (s : CompileState) :
    (s.intern chars).2.heap = (s.heap.intern chars).1 ∧ (s.intern chars).1 = (s.heap.intern chars).2 := by
  unfold intern
  refine ⟨?_, rfl⟩
  simp only
  split <;> rfl

/-- One move of the compiler. Constants are numbers, strings that have just been interned, and functions that have
just been made. -/
inductive Move (s : CompileState) : CompileState → Prop where
  | advance : Move s s.advance
  | complain (token : Token) (complaint : Complaint) : Move s (s.complainAt token complaint)
  | calm : Move s { s with panicking := false }
  | code (c : Chunk) (h : s.body.chunk.Edit s.previous.line c) : Move s (s.mapChunk fun _ => c)
  | scope (scope : Scope) : Move s (s.mapScope fun _ => scope)
  | parameter : Move s { s with body := { s.body with arity := s.body.arity + 1 } }
  | number (x : Float) : Move s (s.withConstant (.number x))
  | text (chars : String) : Move s (s.intern chars).2
  | literal (chars : String) : Move s ((s.intern chars).2.withConstant (.object (s.intern chars).1))
  | opened (name : Handle) (h : ∃ text, s.heap.string? name = some text) : Move s (s.openFunction name)
  | closed : Move s (s.closeFunction.2.withConstant (.object s.closeFunction.1))

/-- Any number of moves. -/
inductive Moves : CompileState → CompileState → Prop where
  | refl (s : CompileState) : Moves s s
  | step {s t u : CompileState} (h : Moves s t) (m : t.Move u) : Moves s u

namespace Moves

theorem single {s t : CompileState} (m : s.Move t) : Moves s t := .step (.refl s) m

theorem trans {s t u : CompileState} (h : Moves s t) (h' : Moves t u) : Moves s u := by
  induction h' with
  | refl => exact h
  | step _ m ih => exact .step ih m

/-- What every move keeps, any number of moves keeps. -/
theorem keeps {P : CompileState → Prop} (hstep : ∀ {s t : CompileState}, s.Move t → P s → P t)
    {s t : CompileState} (h : Moves s t) (hs : P s) : P t := by
  induction h with
  | refl => exact hs
  | step _ m ih => exact hstep m ih

end Moves

end CompileState

namespace Compiler

open CompileState

variable {α β : Type}

/-- Every run of the rule that does not fault is a sequence of moves. -/
class ByMoves (x : Compiler α) : Prop where
  moves : ∀ s a s', x.run s = .ok a s' → Moves s s'

instance {x : Compiler α} : CoeFun (ByMoves x) fun _ => ∀ s a s', x.run s = .ok a s' → Moves s s' :=
  ⟨fun h => h.moves⟩

namespace ByMoves

theorem bind {x : Compiler α} {f : α → Compiler β} (hx : ByMoves x) (hf : ∀ a, ByMoves (f a)) :
    ByMoves (x >>= f) := by
  refine ⟨fun s b s'' h => ?_⟩
  obtain ⟨a, s', h₁, h₂⟩ := run_bind_eq_ok.mp h
  exact (hx _ _ _ h₁).trans (hf a _ _ _ h₂)

theorem pure (a : α) : ByMoves (pure a : Compiler α) := by
  refine ⟨fun s b s' h => ?_⟩
  cases h
  exact .refl s

theorem get : ByMoves (get : Compiler CompileState) := by
  refine ⟨fun s b s' h => ?_⟩
  cases h
  exact .refl s

theorem throw (e : Fault) : ByMoves (throw e : Compiler α) :=
  ⟨fun _ _ _ h => absurd h run_throw_ne_ok⟩

theorem modify {f : CompileState → CompileState} (hf : ∀ s : CompileState, s.Move (f s)) :
    ByMoves (modify f : Compiler PUnit) := by
  refine ⟨fun s b s' h => ?_⟩
  cases h
  exact .single (hf s)

theorem modifyGet {f : CompileState → α × CompileState} (hf : ∀ s : CompileState, s.Move (f s).2) :
    ByMoves (modifyGet f : Compiler α) := by
  refine ⟨fun s b s' h => ?_⟩
  cases h
  exact .single (hf s)

theorem ite {p : Prop} [Decidable p] {x y : Compiler α} (hx : ByMoves x) (hy : ByMoves y) :
    ByMoves (if p then x else y) := by
  split
  · exact hx
  · exact hy

instance {x : Compiler α} {f : α → Compiler β} [hx : ByMoves x] [hf : ∀ a, ByMoves (f a)] : ByMoves (x >>= f) :=
  .bind hx hf

/-- With this instance, found first where nothing is handed on, the search stays short. -/
instance {x : Compiler α} {y : Compiler β} [hx : ByMoves x] [hy : ByMoves y] : ByMoves (x >>= fun _ => y) :=
  .bind hx fun _ => hy

instance {a : α} : ByMoves (Pure.pure a : Compiler α) := .pure a

instance : ByMoves (MonadState.get : Compiler CompileState) := .get

instance {p : Prop} [Decidable p] {x y : Compiler α} [hx : ByMoves x] [hy : ByMoves y] :
    ByMoves (if p then x else y) := .ite hx hy

end ByMoves

/-! ### The small steps -/

instance byMoves_advance : ByMoves advance := .modify fun _ => .advance

instance byMoves_complain (c : Complaint) : ByMoves (complain c) := .modify fun _ => .complain _ c

instance byMoves_complainHere (c : Complaint) : ByMoves (complainHere c) := .modify fun _ => .complain _ c

instance byMoves_sees (k : TokenKind) : ByMoves (sees k) := .bind .get fun _ => .pure _

instance byMoves_accept (k : TokenKind) : ByMoves (accept k) :=
  .bind (byMoves_sees k) fun _ => .ite (.bind byMoves_advance fun _ => .pure _) (.pure _)

instance byMoves_expect (k : TokenKind) (e : Expectation) : ByMoves (expect k e) :=
  .bind (byMoves_sees k) fun _ => .ite byMoves_advance (byMoves_complainHere _)

instance byMoves_previousLexeme : ByMoves previousLexeme := .bind .get fun _ => .pure _

instance byMoves_offset : ByMoves offset := .bind .get fun _ => .pure _

instance byMoves_emit (op : Opcode) : ByMoves (emit op) := .modify fun _ => .code _ (.op op)

instance byMoves_emitByte (op : Opcode) (n : Nat) : ByMoves (emitByte op n) :=
  .modify fun _ => .code _ (.opByte op _)

instance byMoves_emitWord (op : Opcode) (n : Nat) : ByMoves (emitWord op n) :=
  .modify fun _ => .code _ (.opWord op n)

instance byMoves_emitRepeated (op : Opcode) (n : Nat) : ByMoves (emitRepeated op n) := by
  induction n with
  | zero => exact .pure _
  | succ n ih => exact .bind (byMoves_emit op) fun _ => ih

instance byMoves_emitReturn : ByMoves emitReturn := .bind (byMoves_emit _) fun _ => byMoves_emit _

/-- After its constant has been added, the instruction that pushes it is written. -/
theorem moves_emitConstant {v : Value} {s s' : CompileState} {a : Unit} (h : (emitConstant v).run s = .ok a s') :
    Moves (s.withConstant v) s' := by
  unfold emitConstant at h
  obtain ⟨index, s₁, h₁, h⟩ := run_bind_eq_ok.mp h
  have hwrite : ByMoves (if index < 256 then emitByte .constant index
      else if index < 65536 then emitWord .constantWide index else complain .tooManyConstants) :=
    .ite (byMoves_emitByte _ _) (.ite (byMoves_emitWord _ _) (byMoves_complain _))
  cases h₁
  exact hwrite _ _ _ h

instance byMoves_intern (chars : String) :
    ByMoves (modifyGet (CompileState.intern chars) : Compiler Handle) := .modifyGet fun _ => .text chars

instance byMoves_nameConstant (name : String) : ByMoves (nameConstant name) := by
  refine ⟨fun s i s' h => ?_⟩
  unfold nameConstant at h
  obtain ⟨handle, s₁, h₁, h⟩ := run_bind_eq_ok.mp h
  cases h₁
  obtain ⟨s₂, s₃, h₂, h⟩ := run_bind_eq_ok.mp h
  cases h₂
  split at h
  · cases h
    exact .single (.text name)
  · obtain ⟨index, s₄, h₄, h⟩ := run_bind_eq_ok.mp h
    have hend : ByMoves (if index < 256 then pure index else do complain .tooManyConstants; return 0) :=
      .ite (.pure _) (.bind (byMoves_complain _) fun _ => .pure _)
    cases h₄
    exact .trans (.single (.literal name)) (hend _ _ _ h)

instance byMoves_emitJump (op : Opcode) : ByMoves (emitJump op) :=
  .bind .get fun _ => .bind (.modify fun _ => .code _ (.opWord op _)) fun _ => .pure _

instance byMoves_reportJump (e : JumpError) : ByMoves (reportJump e) := by
  cases e with
  | fault cause => exact .throw cause
  | jumpTooLarge => exact byMoves_complain _
  | loopTooLarge => exact byMoves_complain _

instance byMoves_patchJump (operand : Nat) : ByMoves (patchJump operand) := by
  refine .bind .get fun s => ?_
  split
  · exact .modify fun _ => .code _ (.patch _ _)
  · exact byMoves_reportJump _

instance byMoves_emitLoop (start : Nat) : ByMoves (emitLoop start) := by
  refine .bind .get fun s => ?_
  split
  · exact .modify fun _ => .code _ (.opWord _ _)
  · exact byMoves_reportJump _

instance byMoves_enterScope : ByMoves enterScope := .modify fun _ => .scope _

instance byMoves_leaveScope : ByMoves leaveScope := by
  refine .bind .get fun s => ?_
  split
  · exact .throw _
  · exact .bind (.modify fun _ => .scope _) fun _ => byMoves_emitRepeated _ _

instance byMoves_markInitialized : ByMoves markInitialized := .modify fun _ => .scope _

instance byMoves_declareVariable : ByMoves declareVariable := by
  refine .bind .get fun s => ?_
  split
  · split
    · exact .modify fun _ => .scope _
    · exact byMoves_complain _
  · exact .pure _

instance byMoves_declareName (e : Expectation) : ByMoves (declareName e) := by
  refine .bind (byMoves_expect _ _) fun _ => .bind byMoves_declareVariable fun _ => .bind .get fun _ => ?_
  exact .ite (.pure _) (.bind byMoves_previousLexeme fun _ => byMoves_nameConstant _)

instance byMoves_defineVariable (n : Nat) : ByMoves (defineVariable n) :=
  .bind .get fun _ => .ite byMoves_markInitialized (byMoves_emitByte _ _)

/-- The name of a function has been interned when the compiler turns to it. -/
theorem moves_beginFunction {chars : String} {name : Handle} {s s₁ s₂ : CompileState} {a : Unit}
    (h₁ : (modifyGet (CompileState.intern chars) : Compiler Handle).run s = .ok name s₁)
    (h₂ : (beginFunction name).run s₁ = .ok a s₂) : Moves s s₂ := by
  cases h₁
  cases h₂
  obtain ⟨hheap, hname⟩ := s.heap_intern chars
  have htext : ∃ text, (s.intern chars).2.heap.string? (s.intern chars).1 = some text := by
    rw [hheap, hname]
    exact s.heap.string?_intern chars
  exact .step (.single (.text chars)) (.opened _ htext)

instance byMoves_beginNamed {chars : String} {x : Compiler α} [hx : ByMoves x] :
    ByMoves (do
      let name ← modifyGet (CompileState.intern chars)
      beginFunction name
      x) := by
  refine ⟨fun s a s' h => ?_⟩
  obtain ⟨name, s₁, h₁, h⟩ := run_bind_eq_ok.mp h
  obtain ⟨_, s₂, h₂, h⟩ := run_bind_eq_ok.mp h
  exact (moves_beginFunction h₁ h₂).trans (hx _ _ _ h)

/-- A function that is complete becomes a constant of the function around it. -/
instance byMoves_endFunction :
    ByMoves (do let function ← endFunction; emitConstant (.object function)) := by
  refine ⟨fun s a s' h => ?_⟩
  obtain ⟨function, s₁, h₁, h⟩ := run_bind_eq_ok.mp h
  unfold endFunction at h₁
  obtain ⟨_, s₂, h₂, h₁⟩ := run_bind_eq_ok.mp h₁
  cases h₁
  exact ((byMoves_emitReturn _ _ _ h₂).trans (.single .closed)).trans (moves_emitConstant h)

/-! ### Expressions -/

instance byMoves_numberLiteral : ByMoves numberLiteral := by
  refine .bind byMoves_previousLexeme fun _ => ?_
  split
  · exact ⟨fun _ _ _ h => .trans (.single (.number _)) (moves_emitConstant h)⟩
  · exact byMoves_complain _

instance byMoves_stringLiteral : ByMoves stringLiteral := by
  refine .bind byMoves_previousLexeme fun _ => ?_
  split
  · refine ⟨fun s a s' h => ?_⟩
    obtain ⟨handle, s₁, h₁, h⟩ := run_bind_eq_ok.mp h
    cases h₁
    exact .trans (.single (.literal _)) (moves_emitConstant h)
  · exact .throw _

instance byMoves_accessOf (name : String) : ByMoves (accessOf name) := by
  refine .bind .get fun s => ?_
  split
  · exact .pure _
  · exact .bind (byMoves_nameConstant name) fun _ => .pure _
  · exact .bind (byMoves_complain _) fun _ => .pure _

instance byMoves_countArgument (n : Nat) : ByMoves (countArgument n) :=
  .ite (.bind (byMoves_complain _) fun _ => .pure _) (.pure _)

/-- All rules for expressions, by induction on the budget. -/
theorem byMoves_expressions (budget : Nat) :
    (∀ p, ByMoves (expressionOf p budget)) ∧ (∀ p, ByMoves (joinAll p budget)) ∧
      (∀ o b, ByMoves (openWith o b budget)) ∧ (∀ j p, ByMoves (joinWith j p budget)) ∧
      ∀ n, ByMoves (arguments n budget) := by
  induction budget with
  | zero =>
      refine ⟨fun p => ?_, fun p => ?_, fun o b => ?_, fun j p => ?_, fun n => ?_⟩
      · rw [expressionOf]; exact .throw _
      · rw [joinAll]; exact .throw _
      · rw [openWith]; exact .throw _
      · rw [joinWith]; exact .throw _
      · rw [arguments]; exact .throw _
  | succ budget ih =>
      obtain ⟨hexpr, hall, hopen, hjoin, hargs⟩ := ih
      refine ⟨fun p => ?_, fun p => ?_, fun o b => ?_, fun j p => ?_, fun n => ?_⟩
      · rw [expressionOf]
        refine .bind byMoves_advance fun _ => .bind .get fun s => ?_
        split
        · exact byMoves_complain _
        · refine .bind (hopen _ _) fun _ => .bind (hall _) fun _ => .ite ?_ (.pure _)
          exact .bind (byMoves_accept _) fun _ => .ite (byMoves_complain _) (.pure _)
      · rw [joinAll]
        refine .bind .get fun s => ?_
        split
        · exact .ite (.bind byMoves_advance fun _ => .bind (hjoin _ _) fun _ => hall _) (.pure _)
        · exact .pure _
      · cases o <;> rw [openWith]
        case grouping => exact .bind (hexpr _) fun _ => byMoves_expect _ _
        case unary op => exact .bind (hexpr _) fun _ => byMoves_emit _
        case number => exact byMoves_numberLiteral
        case string => exact byMoves_stringLiteral
        case literal op => exact byMoves_emit op
        case «variable» =>
          refine .bind byMoves_previousLexeme fun _ => .bind (byMoves_accessOf _) fun a => ?_
          split
          · exact .pure _
          · next access =>
              have huse : ∀ assigns : Bool, ByMoves (if assigns = true then do
                  expressionOf Precedence.assignment budget
                  emitByte access.write access.operand
                else emitByte access.read access.operand) :=
                fun _ => .ite (.bind (hexpr _) fun _ => byMoves_emitByte _ _) (byMoves_emitByte _ _)
              exact .ite (.bind (byMoves_accept _) huse) (.bind (.pure _) huse)
      · cases j <;> rw [joinWith]
        case binary op => exact .bind (hexpr _) fun _ => byMoves_emit _
        case and =>
          exact .bind (byMoves_emitJump _) fun _ => .bind (byMoves_emit _) fun _ =>
            .bind (hexpr _) fun _ => byMoves_patchJump _
        case or =>
          exact .bind (byMoves_emitJump _) fun _ => .bind (byMoves_emitJump _) fun _ =>
            .bind (byMoves_patchJump _) fun _ => .bind (byMoves_emit _) fun _ =>
            .bind (hexpr _) fun _ => byMoves_patchJump _
        case call =>
          have hend : ∀ count, ByMoves (do
              expect TokenKind.rightParen Expectation.parenAfterArguments
              emitByte Opcode.call count) :=
            fun _ => .bind (byMoves_expect _ _) fun _ => byMoves_emitByte _ _
          exact .bind (byMoves_sees _) fun _ => .ite (.bind (.pure _) hend) (.bind (hargs _) hend)
      · rw [arguments]
        exact .bind (hexpr _) fun _ => .bind (byMoves_countArgument _) fun _ =>
          .bind (byMoves_accept _) fun _ => .ite (hargs _) (.pure _)

instance byMoves_expressionOf (p : Precedence) (budget : Nat) : ByMoves (expressionOf p budget) :=
  (byMoves_expressions budget).1 p

instance byMoves_joinAll (p : Precedence) (budget : Nat) : ByMoves (joinAll p budget) :=
  (byMoves_expressions budget).2.1 p

instance byMoves_arguments (count budget : Nat) : ByMoves (arguments count budget) :=
  (byMoves_expressions budget).2.2.2.2 count

instance byMoves_expression (budget : Nat) : ByMoves (expression budget) := byMoves_expressionOf _ _

/-! ### Statements -/

instance byMoves_expressionStatement (budget : Nat) : ByMoves (expressionStatement budget) :=
  .bind (byMoves_expression _) fun _ => .bind (byMoves_expect _ _) fun _ => byMoves_emit _

instance byMoves_printStatement (budget : Nat) : ByMoves (printStatement budget) :=
  .bind (byMoves_expression _) fun _ => .bind (byMoves_expect _ _) fun _ => byMoves_emit _

instance byMoves_returnStatement (budget : Nat) : ByMoves (returnStatement budget) :=
  .bind (byMoves_accept _) fun _ => .ite byMoves_emitReturn
    (.bind (byMoves_expression _) fun _ => .bind (byMoves_expect _ _) fun _ => byMoves_emit _)

instance byMoves_varDeclaration (budget : Nat) : ByMoves (varDeclaration budget) := by
  refine .bind (byMoves_declareName _) fun _ => .bind (byMoves_accept _) fun _ => ?_
  have hend : ∀ n, ByMoves (do expect .semicolon .semicolonAfterVariable; defineVariable n) :=
    fun n => .bind (byMoves_expect _ _) fun _ => byMoves_defineVariable n
  exact .ite (.bind (byMoves_expression _) fun _ => hend _) (.bind (byMoves_emit _) fun _ => hend _)

instance byMoves_forInitializer (budget : Nat) : ByMoves (forInitializer budget) :=
  .bind (byMoves_accept _) fun _ => .ite (byMoves_varDeclaration _)
    (.bind (byMoves_accept _) fun _ => .ite (byMoves_expressionStatement _) (.pure _))

instance byMoves_forCondition (budget : Nat) : ByMoves (forCondition budget) :=
  .bind (byMoves_accept _) fun _ => .ite (.pure _)
    (.bind (byMoves_expression _) fun _ => .bind (byMoves_expect _ _) fun _ =>
      .bind (byMoves_emitJump _) fun _ => .bind (byMoves_emit _) fun _ => .pure _)

instance byMoves_forIncrement (start budget : Nat) : ByMoves (forIncrement start budget) :=
  .bind (byMoves_accept _) fun _ => .ite (.pure _)
    (.bind (byMoves_emitJump _) fun _ => .bind byMoves_offset fun _ =>
      .bind (byMoves_expression _) fun _ => .bind (byMoves_emit _) fun _ =>
      .bind (byMoves_expect _ _) fun _ => .bind (byMoves_emitLoop _) fun _ =>
      .bind (byMoves_patchJump _) fun _ => .pure _)

instance byMoves_forExit (exit : Option Nat) : ByMoves (forExit exit) := by
  cases exit with
  | none => exact .pure _
  | some exit => exact .bind (byMoves_patchJump _) fun _ => byMoves_emit _

instance byMoves_countParameter : ByMoves countParameter :=
  .bind .get fun _ => .ite (byMoves_complainHere _) (.modify fun _ => .parameter)

instance byMoves_parameters (budget : Nat) : ByMoves (parameters budget) := by
  induction budget with
  | zero => exact .throw _
  | succ budget ih =>
      rw [parameters]
      exact .bind byMoves_countParameter fun _ => .bind (byMoves_declareName _) fun _ =>
        .bind (byMoves_defineVariable _) fun _ => .bind (byMoves_accept _) fun _ => .ite ih (.pure _)

instance byMoves_skipStatement (budget : Nat) : ByMoves (skipStatement budget) := by
  induction budget with
  | zero => exact .throw _
  | succ budget ih =>
      rw [skipStatement]
      exact .bind .get fun _ => .ite (.pure _) (.bind byMoves_advance fun _ => ih)

instance byMoves_synchronize (budget : Nat) : ByMoves (synchronize budget) :=
  .bind .get fun _ => .ite (.bind (.modify fun _ => .calm) fun _ => byMoves_skipStatement _) (.pure _)

/-- All rules for statements, by induction on the budget. -/
theorem byMoves_statements (budget : Nat) :
    ByMoves (declaration budget) ∧ ByMoves (funDeclaration budget) ∧ ByMoves (functionBody budget) ∧
      ByMoves (statement budget) ∧ ByMoves (block budget) ∧ ByMoves (ifStatement budget) ∧
      ByMoves (whileStatement budget) ∧ ByMoves (forStatement budget) := by
  induction budget with
  | zero => exact ⟨.throw _, .throw _, .throw _, .throw _, .throw _, .throw _, .throw _, .throw _⟩
  | succ budget ih =>
      obtain ⟨hdecl, hfun, hbody, hstmt, hblock, hif, hwhile, hfor⟩ := ih
      have hsync := byMoves_synchronize budget
      have hexpr := byMoves_expression budget
      refine ⟨?_, ?_, ?_, ?_, ?_, ?_, ?_, ?_⟩
      · rw [declaration]
        exact .bind (byMoves_accept _) fun _ => .ite (.bind hfun fun _ => hsync)
          (.bind (byMoves_accept _) fun _ => .ite (.bind (byMoves_varDeclaration _) fun _ => hsync)
            (.bind (byMoves_accept _) fun _ => .ite (.bind (byMoves_complain _) fun _ => hsync)
              (.bind hstmt fun _ => hsync)))
      · rw [funDeclaration]
        exact .bind (byMoves_declareName _) fun _ => .bind byMoves_markInitialized fun _ =>
          .bind hbody fun _ => byMoves_defineVariable _
      · rw [functionBody]
        refine .bind byMoves_previousLexeme fun _ => @byMoves_beginNamed _ _ _ <| .bind byMoves_enterScope fun _ =>
          .bind (byMoves_expect _ _) fun _ => .bind (byMoves_sees _) fun _ => ?_
        have hrest : ByMoves (do
            expect .rightParen .parenAfterParameters
            expect .leftBrace .braceBeforeBody
            block budget
            let function ← endFunction
            emitConstant (.object function)) :=
          .bind (byMoves_expect _ _) fun _ => .bind (byMoves_expect _ _) fun _ =>
            .bind hblock fun _ => byMoves_endFunction
        exact .ite (.bind (byMoves_parameters _) fun _ => hrest) hrest
      · rw [statement]
        exact .bind (byMoves_accept _) fun _ => .ite (byMoves_printStatement _)
          (.bind (byMoves_accept _) fun _ => .ite hfor
          (.bind (byMoves_accept _) fun _ => .ite hif
          (.bind (byMoves_accept _) fun _ => .ite (byMoves_returnStatement _)
          (.bind (byMoves_accept _) fun _ => .ite hwhile
          (.bind (byMoves_accept _) fun _ => .ite
            (.bind byMoves_enterScope fun _ => .bind hblock fun _ => byMoves_leaveScope)
            (byMoves_expressionStatement _))))))
      · rw [block]
        exact .bind .get fun _ => .ite (byMoves_expect _ _) (.bind hdecl fun _ => hblock)
      · rw [ifStatement]
        exact .bind (byMoves_expect _ _) fun _ => .bind hexpr fun _ =>
          .bind (byMoves_expect _ _) fun _ => .bind (byMoves_emitJump _) fun _ =>
          .bind (byMoves_emit _) fun _ => .bind hstmt fun _ => .bind (byMoves_emitJump _) fun _ =>
          .bind (byMoves_patchJump _) fun _ => .bind (byMoves_emit _) fun _ =>
          .bind (byMoves_accept _) fun _ =>
          .ite (.bind hstmt fun _ => byMoves_patchJump _) (byMoves_patchJump _)
      · rw [whileStatement]
        exact .bind byMoves_offset fun _ => .bind (byMoves_expect _ _) fun _ => .bind hexpr fun _ =>
          .bind (byMoves_expect _ _) fun _ => .bind (byMoves_emitJump _) fun _ =>
          .bind (byMoves_emit _) fun _ => .bind hstmt fun _ => .bind (byMoves_emitLoop _) fun _ =>
          .bind (byMoves_patchJump _) fun _ => byMoves_emit _
      · rw [forStatement]
        exact .bind byMoves_enterScope fun _ => .bind (byMoves_expect _ _) fun _ =>
          .bind (byMoves_forInitializer _) fun _ => .bind byMoves_offset fun _ =>
          .bind (byMoves_forCondition _) fun _ => .bind (byMoves_forIncrement _ _) fun _ =>
          .bind hstmt fun _ => .bind (byMoves_emitLoop _) fun _ => .bind (byMoves_forExit _) fun _ =>
          byMoves_leaveScope

instance byMoves_declaration (budget : Nat) : ByMoves (declaration budget) := (byMoves_statements budget).1

instance byMoves_statement (budget : Nat) : ByMoves (statement budget) := (byMoves_statements budget).2.2.2.1

instance byMoves_block (budget : Nat) : ByMoves (block budget) := (byMoves_statements budget).2.2.2.2.1

instance byMoves_program (budget : Nat) : ByMoves (program budget) := by
  induction budget with
  | zero => exact .throw _
  | succ budget ih =>
      rw [program]
      exact .bind (byMoves_accept _) fun _ =>
        .ite (.pure _) (.bind (byMoves_statements budget).1 fun _ => ih)

/-- The moves of a whole compilation: those of the rules, and the end of the script. -/
theorem byMoves_read (budget : Nat) : ByMoves (do advance; program budget; emitReturn) :=
  .bind byMoves_advance fun _ => .bind (byMoves_program _) fun _ => byMoves_emitReturn

end Compiler

end Lox
