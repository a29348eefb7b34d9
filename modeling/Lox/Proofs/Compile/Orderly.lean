import Lox.Proofs.Compile.Course
import Lox.Proofs.Compile.Renumbering

/-! The whole grammar is orderly: every run of a rule takes its course, and none looks at a line. An expression starts
with taking a token, and so does a declaration, so either may follow on a finding about the token looked at; everything
else goes on from a token taken since. -/

namespace Lox

/-- The instruction that starts with the token, if any, has no operand. -/
def Opening.Bare : Opening → Prop
  | .unary op | .literal op => op.operandSize = 0
  | .grouping | .number | .string | .variable => True

theorem opening?_bare {kind : TokenKind} {o : Opening} (h : opening? kind = some o) : o.Bare := by
  unfold opening? at h
  split at h <;> cases h <;> first | rfl | trivial

/-- The instruction of an operator has no operand. -/
def Joining.Bare : Joining → Prop
  | .binary op => op.operandSize = 0
  | .call | .and | .or => True

theorem joining?_bare {kind : TokenKind} {j : Joining} {p : Precedence} (h : joining? kind = some (j, p)) : j.Bare := by
  unfold joining? at h
  split at h <;> cases h <;> first | rfl | trivial

namespace Compiler

open CompileState

variable {α β : Type} {holes : List Nat} {b c d : Footing}

/-- A rule takes its course from any state in which the given jumps are open, and does not look at lines. -/
structure Orderly (holes : List Nat) (b : Footing) (x : Compiler α) (c : Footing) : Prop where
  course : ∀ s, s.body.chunk.Open holes → ∀ a s', x.run s = .ok a s' → Course s b s' c
  renumbers : ∀ φ s t, Renumbers φ s t → ∀ a s', x.run s = .ok a s' → ∃ t', x.run t = .ok a t' ∧ Renumbers φ s' t'

namespace Orderly

theorem pure (a : α) : Orderly holes b (pure a) b where
  course s _ a' s' h := by
    cases h
    exact .refl s b
  renumbers φ s t hst a' s' h := by
    cases h
    exact ⟨t, rfl, hst⟩

theorem throw (e : Fault) : Orderly holes b (throw e : Compiler α) c where
  course _ _ _ _ h := absurd h run_throw_ne_ok
  renumbers _ _ _ _ _ _ h := absurd h run_throw_ne_ok

theorem bind {x : Compiler α} {f : α → Compiler β} (hx : Orderly holes b x c) (hf : ∀ a, Orderly holes c (f a) d) :
    Orderly holes b (x >>= f) d where
  course s ho a s'' h := by
    obtain ⟨a', s', h₁, h₂⟩ := run_bind_eq_ok.mp h
    have hfirst := hx.course s ho a' s' h₁
    exact hfirst.trans ((hf a').course s' (hfirst.keeps ho) a s'' h₂)
  renumbers φ s t hst a s'' h := by
    obtain ⟨a', s', h₁, h₂⟩ := run_bind_eq_ok.mp h
    obtain ⟨t', ht, hst'⟩ := hx.renumbers φ s t hst a' s' h₁
    obtain ⟨t'', ht', hst''⟩ := (hf a').renumbers φ s' t' hst' a s'' h₂
    exact ⟨t'', run_bind_eq_ok.mpr ⟨a', t', ht, ht'⟩, hst''⟩

theorem ite {p : Prop} [Decidable p] {x y : Compiler α} (hx : Orderly holes b x c) (hy : Orderly holes b y c) :
    Orderly holes b (if p then x else y) c := by
  split
  · exact hx
  · exact hy

/-- Less may be said than is known, before and after. -/
theorem yield {x : Compiler α} {b' c' : Footing} (hx : Orderly holes b x c) (hb : b ≤ b') (hc : c' ≤ c) :
    Orderly holes b' x c' where
  course s ho a s' h := (Course.yield hb).trans ((hx.course s ho a s' h).trans (.yield hc))
  renumbers := hx.renumbers

/-- A rule that looks at what is the same whatever the lines are. -/
theorem get {f : CompileState → Compiler α} (heq : ∀ φ s t, Renumbers φ s t → f s = f t)
    (hf : ∀ s, Orderly holes b (f s) c) : Orderly holes b (get >>= f) c where
  course s ho a s' h := (hf s).course s ho a s' h
  renumbers φ s t hst a s' h := by
    obtain ⟨t', ht, hst'⟩ := (hf s).renumbers φ s t hst a s' h
    rw [heq φ s t hst] at ht
    exact ⟨t', ht, hst'⟩

theorem modify {g : CompileState → CompileState} (hcourse : ∀ s, s.body.chunk.Open holes → Course s b (g s) c)
    (hsame : ∀ φ s t, Renumbers φ s t → Renumbers φ (g s) (g t)) : Orderly holes b (modify g : Compiler Unit) c where
  course s ho a s' h := by
    cases h
    exact hcourse s ho
  renumbers φ s t hst a s' h := by
    cases h
    exact ⟨g t, rfl, hsame φ s t hst⟩

theorem renumbers_modifyGet {g : CompileState → α × CompileState}
    (hsame : ∀ φ s t, Renumbers φ s t → (g s).1 = (g t).1 ∧ Renumbers φ (g s).2 (g t).2) {φ : Nat → Nat}
    {s t s' : CompileState} {a : α} (hst : Renumbers φ s t)
    (h : (MonadStateOf.modifyGet g : Compiler α).run s = .ok a s') :
    ∃ t', (MonadStateOf.modifyGet g : Compiler α).run t = .ok a t' ∧ Renumbers φ s' t' := by
  cases h
  obtain ⟨hvalue, hstate⟩ := hsame φ s t hst
  exact ⟨(g t).2, by rw [hvalue]; rfl, hstate⟩

theorem modifyGet {g : CompileState → α × CompileState} (hcourse : ∀ s, Course s b (g s).2 c)
    (hsame : ∀ φ s t, Renumbers φ s t → (g s).1 = (g t).1 ∧ Renumbers φ (g s).2 (g t).2) :
    Orderly holes b (modifyGet g : Compiler α) c where
  course s ho a s' h := by
    cases h
    exact hcourse s
  renumbers _ _ _ hst _ _ h := renumbers_modifyGet hsame hst h

end Orderly

/-! ### Taking tokens and complaining -/

theorem orderly_advance : Orderly holes b advance .firm :=
  .modify (fun _ _ => .advance) fun _ _ _ h => h.advance

theorem orderly_complain (complaint : Complaint) : Orderly holes .firm (complain complaint) .firm :=
  .modify (fun _ _ => .complain complaint) fun φ s t h => by
    unfold CompileState.complain
    rw [h.previous]
    exact h.complainAt t.previous complaint

theorem orderly_complainHere (hb : .ahead ≤ b) (complaint : Complaint) :
    Orderly holes b (complainHere complaint) .firm :=
  .modify (fun _ _ => .complainHere hb complaint) fun φ s t h => by
    unfold CompileState.complainHere
    rw [h.current]
    exact h.complainAt t.current complaint

theorem sees_eq {φ : Nat → Nat} {s t : CompileState} (h : Renumbers φ s t) (kind : TokenKind) :
    s.sees kind = t.sees kind := by
  unfold CompileState.sees
  rw [h.current]
  rfl

theorem orderly_sees (kind : TokenKind) : Orderly holes b (sees kind) b :=
  .get (fun φ s t h => by rw [sees_eq h]) fun _ => .pure _

/-- What follows on an accepted token has it as the token taken last. -/
theorem orderly_accept {kind : TokenKind} {f : Bool → Compiler α} (hyes : Orderly holes .firm (f true) c)
    (hno : Orderly holes b (f false) c) : Orderly holes b (accept kind >>= f) c := by
  unfold accept
  rw [bind_assoc]
  refine (orderly_sees kind).bind fun seen => ?_
  cases seen
  · simpa using hno
  · simpa using orderly_advance.bind fun _ => hyes

theorem orderly_expect (hb : .ahead ≤ b) (kind : TokenKind) (what : Expectation) :
    Orderly holes b (expect kind what) .firm :=
  (orderly_sees kind).bind fun _ => .ite orderly_advance (orderly_complainHere hb _)

theorem orderly_previousLexeme : Orderly holes b previousLexeme b :=
  .get (fun φ s t h => by rw [h.previous]; rfl) fun _ => .pure _

theorem size_eq_of_sameCode {φ : Nat → Nat} {s t : CompileState} (h : Renumbers φ s t) :
    s.body.chunk.size = t.body.chunk.size := by
  unfold Chunk.size
  rw [h.body.code]

theorem orderly_offset : Orderly holes b offset b :=
  .get (fun φ s t h => by rw [size_eq_of_sameCode h]) fun _ => .pure _

/-! ### Writing code -/

theorem sameCode_append {c c' : Chunk} (hcode : c.code = c'.code) (hconstants : c.constants = c'.constants)
    (line line' : Nat) (bytes : List UInt8) : (c.append line bytes).code = (c'.append line' bytes).code ∧
      (c.append line bytes).constants = (c'.append line' bytes).constants := by
  induction bytes generalizing c c' with
  | nil => exact ⟨hcode, hconstants⟩
  | cons byte bytes ih => exact ih (by rw [Chunk.write, Chunk.write, hcode]) hconstants

theorem orderly_write (hb : .ahead ≤ b) (op : Opcode) (operands : List UInt8)
    (hsize : operands.length = op.operandSize) :
    Orderly holes b (modify fun s => s.mapChunk (·.append s.previous.line (op.toByte :: operands))) b :=
  .modify (fun _ _ => .write hb hsize) fun φ s t h => by
    have hsame := sameCode_append h.body.code h.body.constants s.previous.line t.previous.line (op.toByte :: operands)
    exact h.mapChunk hsame.1 hsame.2

theorem orderly_emit (hb : .ahead ≤ b) {op : Opcode} (hsize : op.operandSize = 0) : Orderly holes b (emit op) b :=
  orderly_write hb op [] hsize.symm

theorem orderly_emitByte (hb : .ahead ≤ b) {op : Opcode} (hsize : op.operandSize = 1) (operand : Nat) :
    Orderly holes b (emitByte op operand) b := orderly_write hb op [operand.toUInt8] hsize.symm

theorem orderly_emitWord (hb : .ahead ≤ b) {op : Opcode} (hsize : op.operandSize = 2) (operand : Nat) :
    Orderly holes b (emitWord op operand) b :=
  orderly_write hb op [lowByte operand, highByte operand] hsize.symm

theorem orderly_emitPops (hb : .ahead ≤ b) (count : Nat) : Orderly holes b (emitRepeated .pop count) b := by
  induction count with
  | zero => exact .pure _
  | succ count ih => exact (orderly_emit hb rfl).bind fun _ => ih

theorem orderly_emitReturn (hb : .ahead ≤ b) : Orderly holes b emitReturn b :=
  (orderly_emit hb rfl).bind fun _ => orderly_emit hb rfl

/-- A step that changes neither tokens nor code. -/
theorem orderly_quiet {g : CompileState → CompileState} (hquiet : ∀ s, Quiet s (g s))
    (hsame : ∀ φ s t, Renumbers φ s t → Renumbers φ (g s) (g t)) : Orderly holes b (modify g : Compiler Unit) b :=
  .modify (fun s _ => .quiet (hquiet s)) hsame

theorem orderly_addConstant (value : Value) : Orderly holes b (addConstant value) b := by
  refine .get (fun φ s t h => by rw [h.body.constants]) fun s => ?_
  refine (orderly_quiet (g := CompileState.withConstant value)
    (fun s => ⟨rfl, rfl, rfl, rfl, rfl, rfl, rfl, rfl, fun _ _ => id⟩) fun φ s t h => ?_).bind fun _ => .pure _
  exact h.mapChunk h.body.code (by rw [Chunk.addConstant, Chunk.addConstant, h.body.constants])

theorem orderly_emitConstant (value : Value) : Orderly holes .firm (emitConstant value) .firm :=
  (orderly_addConstant value).bind fun _ => .ite (orderly_emitByte (by decide) rfl _)
    (.ite (orderly_emitWord (by decide) rfl _) (orderly_complain _))

theorem orderly_intern (chars : String) : Orderly holes b (modifyGet (CompileState.intern chars) : Compiler Handle) b :=
  .modifyGet (fun s => .quiet (quiet_intern chars s)) fun _ _ _ h => h.intern chars

theorem orderly_nameConstant (name : String) : Orderly holes .firm (nameConstant name) .firm := by
  refine (orderly_intern name).bind fun handle => ?_
  refine .get (fun φ s t h => by unfold nameIndex?; rw [h.body.constants]) fun s => ?_
  split
  · exact .pure _
  · exact (orderly_addConstant _).bind fun _ => .ite (.pure _) ((orderly_complain _).bind fun _ => .pure _)

/-! ### Jumps -/

/-- A jump that has been written stays open until it is given its target. -/
theorem orderly_emitJump (hb : .ahead ≤ b) {op : Opcode} (hsize : op.operandSize = 2) {f : Nat → Compiler α}
    (hf : ∀ n, Orderly (n :: holes) b (f n) c) : Orderly holes b (emitJump op >>= f) c where
  course s ho a s' h := by
    obtain ⟨n, t, hjump, h⟩ := run_bind_eq_ok.mp h
    cases hjump
    have hwrite : Course s b (s.mapChunk (·.append s.previous.line
        (op.toByte :: [lowByte Chunk.placeholder, highByte Chunk.placeholder]))) b := .write hb hsize.symm
    refine hwrite.trans ((hf (s.body.chunk.size + 1)).course _ ?_ a s' h)
    have hopen := hwrite.keeps ho
    refine ⟨hopen.1, fun m hm => ?_⟩
    rcases List.mem_cons.mp hm with rfl | hm
    · exact Chunk.hole_append ho.1 _ hsize
    · exact hopen.2 m hm
  renumbers φ s t hst a s' h := by
    obtain ⟨n, u, hjump, h⟩ := run_bind_eq_ok.mp h
    have hemit : Orderly [] b (emitJump op) b :=
      .get (fun φ s t h => by rw [size_eq_of_sameCode h]) fun _ =>
        (orderly_write hb op [lowByte Chunk.placeholder, highByte Chunk.placeholder] hsize.symm).bind
          fun _ => .pure _
    obtain ⟨u', hu, hst'⟩ := hemit.renumbers φ s t hst n u hjump
    obtain ⟨t', ht, hst''⟩ := (hf n).renumbers φ u u' hst' a s' h
    exact ⟨t', run_bind_eq_ok.mpr ⟨n, u', hu, ht⟩, hst''⟩

theorem orderly_reportJump (cause : JumpError) : Orderly holes .firm (reportJump cause) .firm := by
  cases cause with
  | fault cause => exact .throw cause
  | jumpTooLarge | loopTooLarge => exact orderly_complain _

theorem orderly_patchJump {n : Nat} (hn : n ∈ holes) : Orderly holes .firm (patchJump n) .firm := by
  refine .get (fun φ s t h => by unfold Chunk.forwardDistance; rw [size_eq_of_sameCode h]) fun s => ?_
  split
  · refine .modify (fun s ho => .patch (ho.2 n hn) _) fun φ s t h => ?_
    exact h.mapChunk (by rw [Chunk.setWord, Chunk.setWord, h.body.code]) h.body.constants
  · exact orderly_reportJump _

theorem orderly_emitLoop (start : Nat) : Orderly holes .firm (emitLoop start) .firm := by
  refine .get (fun φ s t h => by unfold Chunk.backwardDistance; rw [size_eq_of_sameCode h]) fun s => ?_
  split
  · next distance _ => exact orderly_emitWord (by decide) rfl ((65536 - distance) % 65536)
  · exact orderly_reportJump _

/-! ### Scopes and variables -/

theorem orderly_mapScope (f : Scope → Scope) : Orderly holes b (modify (CompileState.mapScope f) : Compiler Unit) b :=
  orderly_quiet (fun _ => ⟨rfl, rfl, rfl, rfl, rfl, rfl, rfl, rfl, fun _ _ => id⟩) fun _ _ _ h => h.mapScope f

theorem orderly_leaveScope (hb : .ahead ≤ b) : Orderly holes b leaveScope b := by
  refine .get (fun φ s t h => by rw [h.body.scope]) fun s => ?_
  split
  · exact .throw _
  · exact (orderly_mapScope _).bind fun _ => orderly_emitPops hb _

theorem orderly_declareVariable : Orderly holes .firm declareVariable .firm := by
  refine .get (fun φ s t h => by rw [h.body.scope, h.previous]; rfl) fun s => ?_
  split
  · split
    · exact orderly_mapScope _
    · exact orderly_complain _
  · exact .pure _

theorem orderly_declareName (what : Expectation) : Orderly holes .firm (declareName what) .firm :=
  (orderly_expect (by decide) _ _).bind fun _ => orderly_declareVariable.bind fun _ =>
    .get (fun φ s t h => by rw [h.body.scope]) fun _ =>
      .ite (.pure _) (orderly_previousLexeme.bind fun _ => orderly_nameConstant _)

theorem orderly_defineVariable (nameIndex : Nat) : Orderly holes .firm (defineVariable nameIndex) .firm :=
  .get (fun φ s t h => by rw [h.body.scope]) fun _ =>
    .ite (orderly_mapScope _) (orderly_emitByte (by decide) rfl _)

/-! ### Expressions -/

theorem orderly_numberLiteral : Orderly holes .firm numberLiteral .firm := by
  refine orderly_previousLexeme.bind fun lexeme => ?_
  split
  · exact orderly_emitConstant _
  · exact orderly_complain _

theorem orderly_stringLiteral : Orderly holes .firm stringLiteral .firm := by
  refine orderly_previousLexeme.bind fun lexeme => ?_
  split
  · exact (orderly_intern _).bind fun _ => orderly_emitConstant _
  · exact .throw _

/-- The instructions that read and write a variable have a one-byte operand. -/
theorem orderly_accessOf (name : String) {f : Option Access → Compiler α} (hnone : Orderly holes .firm (f none) c)
    (hsome : ∀ access : Access, access.read.operandSize = 1 → access.write.operandSize = 1 →
      Orderly holes .firm (f (some access)) c) : Orderly holes .firm (accessOf name >>= f) c := by
  unfold accessOf
  rw [bind_assoc]
  refine .get (fun φ s t h => by rw [h.body.scope]) fun s => ?_
  split
  · exact hsome _ rfl rfl
  · rw [bind_assoc]
    exact (orderly_nameConstant name).bind fun _ => hsome _ rfl rfl
  · rw [bind_assoc]
    exact (orderly_complain _).bind fun _ => hnone

theorem orderly_countArgument (count : Nat) : Orderly holes .firm (countArgument count) .firm :=
  .ite ((orderly_complain _).bind fun _ => .pure _) (.pure _)


/-- All rules for expressions, by induction on the budget. -/
theorem orderly_expressions (budget : Nat) :
    (∀ holes b p, Orderly holes b (expressionOf p budget) .firm) ∧
      (∀ holes p, Orderly holes .firm (joinAll p budget) .firm) ∧
      (∀ holes o canAssign, o.Bare → Orderly holes .firm (openWith o canAssign budget) .firm) ∧
      (∀ holes j p, j.Bare → Orderly holes .firm (joinWith j p budget) .firm) ∧
      ∀ holes b count, Orderly holes b (arguments count budget) .firm := by
  induction budget with
  | zero =>
      refine ⟨fun _ _ p => ?_, fun _ p => ?_, fun _ o c _ => ?_, fun _ j p _ => ?_, fun _ _ n => ?_⟩
      · rw [expressionOf]; exact .throw _
      · rw [joinAll]; exact .throw _
      · rw [openWith]; exact .throw _
      · rw [joinWith]; exact .throw _
      · rw [arguments]; exact .throw _
  | succ budget ih =>
      obtain ⟨hexpr, hall, hopen, hjoin, hargs⟩ := ih
      refine ⟨fun holes b p => ?_, fun holes p => ?_, fun holes o canAssign ho => ?_, fun holes j p hj => ?_,
        fun holes b count => ?_⟩
      · rw [expressionOf]
        refine orderly_advance.bind fun _ => .get (fun φ s t h => by rw [h.previous]; rfl) fun s => ?_
        split
        · exact orderly_complain _
        · next o ho =>
            refine (hopen _ o _ (opening?_bare ho)).bind fun _ => (hall _ p).bind fun _ => .ite ?_ (.pure _)
            exact orderly_accept (orderly_complain _) (.pure _)
      · rw [joinAll]
        refine .get (fun φ s t h => by rw [h.current]; rfl) fun s => ?_
        split
        · next j q hj =>
            exact .ite (orderly_advance.bind fun _ => (hjoin _ j q (joining?_bare hj)).bind fun _ => hall _ p) (.pure _)
        · exact .pure _
      · cases o <;> rw [openWith]
        case grouping => exact (hexpr _ _ _).bind fun _ => orderly_expect (by decide) _ _
        case unary op => exact (hexpr _ _ _).bind fun _ => orderly_emit (by decide) ho
        case number => exact orderly_numberLiteral
        case string => exact orderly_stringLiteral
        case literal op => exact orderly_emit (by decide) ho
        case «variable» =>
          refine orderly_previousLexeme.bind fun name => orderly_accessOf name (.pure _) fun access hread hwrite => ?_
          have hyes : Orderly holes .firm (do
              expressionOf .assignment budget
              emitByte access.write access.operand) .firm :=
            (hexpr _ _ _).bind fun _ => orderly_emitByte (by decide) hwrite _
          have hno : Orderly holes .firm (emitByte access.read access.operand) .firm :=
            orderly_emitByte (by decide) hread _
          exact .ite (orderly_accept (.ite hyes hno) (.ite hyes hno)) ((Orderly.pure _).bind fun _ => .ite hyes hno)
      · cases j <;> rw [joinWith]
        case binary op => exact (hexpr _ _ _).bind fun _ => orderly_emit (by decide) hj
        case and =>
          exact orderly_emitJump (by decide) rfl fun _ => (orderly_emit (by decide) rfl).bind fun _ =>
            (hexpr _ _ _).bind fun _ => orderly_patchJump (by simp)
        case or =>
          exact orderly_emitJump (by decide) rfl fun _ => orderly_emitJump (by decide) rfl fun _ =>
            (orderly_patchJump (by simp)).bind fun _ => (orderly_emit (by decide) rfl).bind fun _ =>
            (hexpr _ _ _).bind fun _ => orderly_patchJump (by simp)
        case call =>
          have hrest : ∀ count, Orderly holes .firm (do
              expect .rightParen .parenAfterArguments
              emitByte .call count) .firm :=
            fun _ => (orderly_expect (by decide) _ _).bind fun _ => orderly_emitByte (by decide) rfl _
          exact (orderly_sees _).bind fun _ => .ite ((Orderly.pure _).bind hrest) ((hargs _ _ 0).bind hrest)
      · rw [arguments]
        exact (hexpr _ _ _).bind fun _ => (orderly_countArgument _).bind fun _ =>
          orderly_accept (.ite (hargs _ _ _) (.pure _)) (.ite (hargs _ _ _) (.pure _))

theorem orderly_expression (budget : Nat) : Orderly holes b (expression budget) .firm :=
  (orderly_expressions budget).1 _ _ _

/-! ### Statements -/

theorem orderly_expressionStatement (budget : Nat) : Orderly holes b (expressionStatement budget) .firm :=
  (orderly_expression budget).bind fun _ => (orderly_expect (by decide) _ _).bind fun _ => orderly_emit (by decide) rfl

theorem orderly_printStatement (budget : Nat) : Orderly holes b (printStatement budget) .firm :=
  (orderly_expression budget).bind fun _ => (orderly_expect (by decide) _ _).bind fun _ => orderly_emit (by decide) rfl

theorem orderly_returnStatement (budget : Nat) : Orderly holes .firm (returnStatement budget) .firm := by
  have hvalue : Orderly holes .firm (do
      expression budget
      expect .semicolon .semicolonAfterReturn
      emit .ret) .firm :=
    (orderly_expression budget).bind fun _ => (orderly_expect (by decide) _ _).bind fun _ => orderly_emit
      (by decide) rfl
  exact orderly_accept (.ite (orderly_emitReturn (by decide)) hvalue) (.ite (orderly_emitReturn (by decide)) hvalue)

theorem orderly_varDeclaration (budget : Nat) : Orderly holes .firm (varDeclaration budget) .firm := by
  refine (orderly_declareName _).bind fun index => ?_
  have hrest : Orderly holes .firm (do
      expect .semicolon .semicolonAfterVariable
      defineVariable index) .firm := (orderly_expect (by decide) _ _).bind fun _ => orderly_defineVariable _
  have hboth : ∀ assigned : Bool, Orderly holes .firm (if assigned = true then do
      expression budget
      expect .semicolon .semicolonAfterVariable
      defineVariable index
    else do
      emit .pushNil
      expect .semicolon .semicolonAfterVariable
      defineVariable index) .firm := fun _ =>
    .ite ((orderly_expression budget).bind fun _ => hrest) ((orderly_emit (by decide) rfl).bind fun _ => hrest)
  exact orderly_accept (hboth true) (hboth false)

theorem orderly_forInitializer (budget : Nat) : Orderly holes .firm (forInitializer budget) .firm := by
  refine orderly_accept (orderly_varDeclaration budget) ?_
  exact orderly_accept (.pure _) (orderly_expressionStatement budget)

/-- The jump that leaves the loop, if there is one, stays open. -/
theorem orderly_forCondition (budget : Nat) {f : Option Nat → Compiler α}
    (hf : ∀ exit : Option Nat, Orderly (exit.toList ++ holes) .firm (f exit) c) :
    Orderly holes .firm (forCondition budget >>= f) c := by
  unfold forCondition
  rw [bind_assoc]
  refine orderly_accept ?_ ?_
  · simpa using hf none
  · simp only [Bool.false_eq_true, if_false, bind_assoc, pure_bind]
    refine (orderly_expression budget).bind fun _ => (orderly_expect (by decide) _ _).bind fun _ => ?_
    exact orderly_emitJump (by decide) rfl fun n => (orderly_emit (by decide) rfl).bind fun _ => hf (some n)

theorem orderly_forIncrement (start budget : Nat) : Orderly holes .firm (forIncrement start budget) .firm := by
  refine orderly_accept (.pure _) ?_
  exact orderly_emitJump (by decide) rfl fun _ => orderly_offset.bind fun _ => (orderly_expression budget).bind fun _ =>
    (orderly_emit (by decide) rfl).bind fun _ => (orderly_expect (by decide) _ _).bind fun _ =>
    (orderly_emitLoop _).bind fun _ => (orderly_patchJump (by simp)).bind fun _ => .pure _

theorem orderly_forExit {exit : Option Nat} (h : ∀ n ∈ exit, n ∈ holes) : Orderly holes .firm (forExit exit) .firm := by
  cases exit with
  | none => exact .pure _
  | some n => exact (orderly_patchJump (h n rfl)).bind fun _ => orderly_emit (by decide) rfl

theorem orderly_countParameter : Orderly holes .firm countParameter .firm := by
  refine .get (fun φ s t h => by rw [h.body.arity]) fun s => .ite (orderly_complainHere (by decide) _) ?_
  refine orderly_quiet (fun _ => ⟨rfl, rfl, rfl, rfl, rfl, rfl, rfl, rfl, fun _ _ => id⟩) fun φ s t h => ?_
  exact { h with body := { h.body with arity := congrArg (· + 1) h.body.arity } }

theorem orderly_parameters (budget : Nat) : Orderly holes .firm (parameters budget) .firm := by
  induction budget with
  | zero => exact .throw _
  | succ budget ih =>
      rw [parameters]
      exact orderly_countParameter.bind fun _ => (orderly_declareName _).bind fun _ =>
        (orderly_defineVariable _).bind fun _ => orderly_accept (.ite ih (.pure _)) (.ite ih (.pure _))

theorem orderly_skipStatement (hb : .ahead ≤ b) (budget : Nat) : Orderly holes b (skipStatement budget) .ahead := by
  induction budget generalizing b with
  | zero => exact .throw _
  | succ budget ih =>
      rw [skipStatement]
      exact .get (fun φ s t h => by rw [h.current, h.previous]; rfl) fun s =>
        .ite ((Orderly.pure ()).yield hb (Footing.le_refl _)) (orderly_advance.bind fun _ => ih (by decide))

theorem orderly_synchronize (hb : .ahead ≤ b) (budget : Nat) : Orderly holes b (synchronize budget) .ahead := by
  refine .get (fun φ s t h => by rw [h.panicking]) fun s => .ite ?_ ((Orderly.pure ()).yield hb (Footing.le_refl _))
  have hcalm : Orderly holes b (modify fun s : CompileState => { s with panicking := false } : Compiler Unit) .ahead :=
    .modify (fun _ _ => .calm hb) fun φ s t h => { h with panicking := rfl }
  exact hcalm.bind fun _ => orderly_skipStatement (by decide) budget

/-! ### Functions -/

/-- What lies between the beginning of a function and its end. -/
theorem orderly_function (name : Handle) {x : Compiler Unit} (hx : Orderly [] b x c) :
    Orderly holes b (beginFunction name >>= fun _ => x >>= fun _ => modifyGet CompileState.closeFunction) c where
  course s ho a s' h := by
    obtain ⟨_, s₁, hopen, h⟩ := run_bind_eq_ok.mp h
    obtain ⟨_, t, hrun, hclose⟩ := run_bind_eq_ok.mp h
    cases hopen
    cases hclose
    exact Course.function (hx.course _ Chunk.open_empty _ _ hrun)
  renumbers φ s t hst a s' h := by
    obtain ⟨_, s₁, hopen, h⟩ := run_bind_eq_ok.mp h
    obtain ⟨_, u, hrun, hclose⟩ := run_bind_eq_ok.mp h
    cases hopen
    obtain ⟨u', hrun', hu⟩ := hx.renumbers φ _ _ (hst.openFunction name) _ _ hrun
    obtain ⟨t', hclose', ht'⟩ := Orderly.renumbers_modifyGet (fun _ _ _ h => h.closeFunction) hu hclose
    exact ⟨t', run_bind_eq_ok.mpr ⟨_, _, rfl, run_bind_eq_ok.mpr ⟨_, _, hrun', hclose'⟩⟩, ht'⟩

/-- The parameters and the body of a function, and its end. -/
def readFunction (budget : Nat) : Compiler Unit := do
  enterScope
  expect .leftParen .parenAfterFunctionName
  if !(← sees .rightParen) then parameters budget
  expect .rightParen .parenAfterParameters
  expect .leftBrace .braceBeforeBody
  block budget
  emitReturn

theorem functionBody_succ (budget : Nat) : functionBody (budget + 1) = (do
    let name ← modifyGet (CompileState.intern (← previousLexeme))
    let function ← beginFunction name >>= fun _ => readFunction budget >>= fun _ => modifyGet CompileState.closeFunction
    emitConstant (.object function)) := by
  rw [functionBody]
  unfold readFunction endFunction
  simp only [bind_assoc]
  congr 1; funext chars
  congr 1; funext name
  congr 1; funext _
  congr 1; funext _
  congr 1; funext _
  congr 1; funext seen
  cases seen <;> simp only [Bool.not_true, Bool.not_false, Bool.false_eq_true, if_true, if_false, bind_assoc]

/-- All rules for statements, by induction on the budget. -/
theorem orderly_statements (budget : Nat) :
    (∀ holes b, Orderly holes b (declaration budget) .ahead) ∧
      (∀ holes, Orderly holes .firm (funDeclaration budget) .firm) ∧
      (∀ holes, Orderly holes .firm (functionBody budget) .firm) ∧
      (∀ holes b, Orderly holes b (statement budget) .firm) ∧
      (∀ holes b, .ahead ≤ b → Orderly holes b (block budget) .firm) ∧
      (∀ holes, Orderly holes .firm (ifStatement budget) .firm) ∧
      (∀ holes, Orderly holes .firm (whileStatement budget) .firm) ∧
      ∀ holes, Orderly holes .firm (forStatement budget) .firm := by
  induction budget with
  | zero =>
      exact ⟨fun _ _ => .throw _, fun _ => .throw _, fun _ => .throw _, fun _ _ => .throw _, fun _ _ _ => .throw _,
        fun _ => .throw _, fun _ => .throw _, fun _ => .throw _⟩
  | succ budget ih =>
      obtain ⟨hdecl, hfun, hbody, hstmt, hblock, hif, hwhile, hfor⟩ := ih
      refine ⟨fun holes b => ?_, fun holes => ?_, fun holes => ?_, fun holes b => ?_, fun holes b hb => ?_,
        fun holes => ?_, fun holes => ?_, fun holes => ?_⟩
      · rw [declaration]
        have hsync : Orderly holes .firm (synchronize budget) .ahead := orderly_synchronize (by decide) budget
        exact orderly_accept ((hfun _).bind fun _ => hsync)
          (orderly_accept ((orderly_varDeclaration _).bind fun _ => hsync)
          (orderly_accept ((orderly_complain _).bind fun _ => hsync) ((hstmt _ _).bind fun _ => hsync)))
      · rw [funDeclaration]
        exact (orderly_declareName _).bind fun _ => (orderly_mapScope _).bind fun _ => (hbody _).bind fun _ =>
          orderly_defineVariable _
      · rw [functionBody_succ]
        refine orderly_previousLexeme.bind fun chars => (orderly_intern chars).bind fun name => ?_
        refine (orderly_function name ?_).bind fun _ => orderly_emitConstant _
        have hrest : Orderly [] .firm (do
            expect .rightParen .parenAfterParameters
            expect .leftBrace .braceBeforeBody
            block budget
            emitReturn) .firm :=
          (orderly_expect (by decide) _ _).bind fun _ => (orderly_expect (by decide) _ _).bind fun _ =>
            (hblock _ _ (by decide)).bind fun _ => orderly_emitReturn (by decide)
        exact (orderly_mapScope _).bind fun _ => (orderly_expect (by decide) _ _).bind fun _ =>
          (orderly_sees _).bind fun _ =>
          .ite ((orderly_parameters _).bind fun _ => hrest) hrest
      · rw [statement]
        have hscoped : Orderly holes .firm (do
            enterScope
            block budget
            leaveScope) .firm :=
          (orderly_mapScope _).bind fun _ => (hblock _ _ (by decide)).bind fun _ => orderly_leaveScope (by decide)
        exact orderly_accept (orderly_printStatement _) (orderly_accept (hfor _) (orderly_accept (hif _)
          (orderly_accept (orderly_returnStatement _) (orderly_accept (hwhile _)
          (orderly_accept hscoped (orderly_expressionStatement _))))))
      · rw [block]
        exact .get (fun φ s t h => by rw [sees_eq h, sees_eq h]) fun _ => .ite (orderly_expect hb _ _)
          ((hdecl _ _).bind fun _ => hblock _ _ (by decide))
      · rw [ifStatement]
        refine (orderly_expect (by decide) _ _).bind fun _ => (orderly_expression _).bind fun _ =>
          (orderly_expect (by decide) _ _).bind fun _ => orderly_emitJump (by decide) rfl fun _ =>
          (orderly_emit (by decide) rfl).bind fun _ => (hstmt _ _).bind fun _ => orderly_emitJump
          (by decide) rfl fun _ =>
          (orderly_patchJump (by simp)).bind fun _ => (orderly_emit (by decide) rfl).bind fun _ => ?_
        exact orderly_accept ((hstmt _ _).bind fun _ => orderly_patchJump (by simp)) (orderly_patchJump (by simp))
      · rw [whileStatement]
        exact orderly_offset.bind fun _ => (orderly_expect (by decide) _ _).bind fun _ =>
          (orderly_expression _).bind fun _ => (orderly_expect (by decide) _ _).bind fun _ =>
          orderly_emitJump (by decide) rfl fun _ => (orderly_emit (by decide) rfl).bind fun _ =>
            (hstmt _ _).bind fun _ =>
          (orderly_emitLoop _).bind fun _ => (orderly_patchJump (by simp)).bind fun _ => orderly_emit (by decide) rfl
      · rw [forStatement]
        exact (orderly_mapScope _).bind fun _ => (orderly_expect (by decide) _ _).bind fun _ =>
          (orderly_forInitializer _).bind fun _ => orderly_offset.bind fun _ => orderly_forCondition _ fun exit =>
          (orderly_forIncrement _ _).bind fun _ => (hstmt _ _).bind fun _ => (orderly_emitLoop _).bind fun _ =>
          (orderly_forExit fun n hn => List.mem_append_left _ (Option.mem_toList.mpr hn)).bind fun _ =>
          orderly_leaveScope (by decide)

theorem orderly_program (budget : Nat) : Orderly holes b (program budget) .firm := by
  induction budget generalizing b with
  | zero => exact .throw _
  | succ budget ih =>
      rw [program]
      exact orderly_accept (.pure _) (((orderly_statements budget).1 _ _).bind fun _ => ih)

/-- The course of a compilation, from the first look at the source on. -/
theorem course_of_source {tokens : List Token} {heap : Heap} {printCode : Bool} {journal : Journal} {budget : Nat}
    {s : CompileState}
    (h : (do
      advance
      program budget
      emitReturn : Compiler Unit).run { rest := tokens, heap, printCode, journal } = .ok () s) :
    Course (CompileState.advance { rest := tokens, heap, printCode, journal }) .start s .firm := by
  obtain ⟨_, s₁, hadvance, h⟩ := run_bind_eq_ok.mp h
  cases hadvance
  have hsource : Orderly [] .start (program budget >>= fun _ => emitReturn) .firm :=
    (orderly_program budget).bind fun _ => orderly_emitReturn (by decide)
  refine hsource.course _ ?_ _ _ h
  obtain ⟨current, rest, findings, panicking, journal', heq⟩ :=
    CompileState.advance_turn { rest := tokens, heap, printCode, journal }
  rw [heq]
  exact Chunk.open_empty

/-- Two compilations of the same words go on in step. -/
theorem renumbers_source {φ : Nat → Nat} {s t s' : CompileState} {budget : Nat} (hst : Renumbers φ s t)
    (h : (do
      advance
      program budget
      emitReturn : Compiler Unit).run s = .ok () s') :
    ∃ t', (do
      advance
      program budget
      emitReturn : Compiler Unit).run t = .ok () t' ∧ Renumbers φ s' t' :=
  have hsource : Orderly [] .start (advance >>= fun _ => program budget >>= fun _ => emitReturn) .firm :=
    orderly_advance.bind fun _ => (orderly_program budget).bind fun _ => orderly_emitReturn (by decide)
  hsource.renumbers φ s t hst () s' h

end Compiler

end Lox
