import Lox.Proofs.Compile.Scopes

/-! Expressions, as the compiler reads them by binding strength. The loop over the operators after an
operand keeps what has been read so far as one tree; that tree may be the left operand of the next
operator because everything that binds more tightly has been read into it already. -/

namespace Lox

open CompileState

/-- The strength that the left operand of an operator needs. -/
def Joining.operand : Joining → Precedence → Precedence
  | .binary _, strength => strength
  | .and, _ => .equality
  | .or, _ => .and
  | .call, _ => .call

/-- What has been read may stand where strength `p` is wanted, and to the left of the next token. -/
def Fits (p : Precedence) (next : TokenKind) (ts : List Token) (e : Expr) : Prop :=
  Expr.Reads p ts e ∧ ∀ j q, joining? next = some (j, q) → p ≤ q → Expr.Reads (j.operand q) ts e

/-- The next token does not go on with an expression of strength `p`. -/
def Quits (p : Precedence) (next : TokenKind) : Prop := ∀ j q, joining? next = some (j, q) → ¬ p ≤ q

/-! ### The tables of operators -/

theorem Precedence.le_trans {p q r : Precedence} (h : p ≤ q) (h' : q ≤ r) : p ≤ r := Nat.le_trans h h'

theorem joining_operand_le {k : TokenKind} {j : Joining} {q : Precedence} (h : joining? k = some (j, q)) :
    j.operand q ≤ .call ∧ .assignment ≤ q ∧ .or ≤ q ∧ (¬ .unary ≤ q → j.operand q ≤ .unary) ∧
      (¬ .and ≤ q → j.operand q ≤ .and) := by
  cases k <;> cases h <;> decide

theorem joining_binary {k : TokenKind} {op : Opcode} {q : Precedence}
    (h : joining? k = some (.binary op, q)) :
    q.next ≤ .unary ∧ op.operandSize = 0 ∧ ∃ b, binaryOp? k = some (b, q) ∧ b.opcode = op ∧
      ∀ k' j' q', joining? k' = some (j', q') → ¬ q.next ≤ q' → j'.operand q' ≤ q := by
  cases k <;> cases h <;>
    exact ⟨by decide, rfl, _, rfl, rfl, fun k' j' q' h' => by cases k' <;> cases h' <;> decide⟩

theorem joining_and {k : TokenKind} {q : Precedence} (h : joining? k = some (.and, q)) :
    k = .andWord ∧ q = .and := by
  cases k <;> cases h
  exact ⟨rfl, rfl⟩

theorem joining_or {k : TokenKind} {q : Precedence} (h : joining? k = some (.or, q)) :
    k = .orWord ∧ q = .or := by
  cases k <;> cases h
  exact ⟨rfl, rfl⟩

theorem joining_call {k : TokenKind} {q : Precedence} (h : joining? k = some (.call, q)) :
    k = .leftParen ∧ q = .call := by
  cases k <;> cases h
  exact ⟨rfl, rfl⟩

theorem opening_unary {k : TokenKind} {op : Opcode} (h : opening? k = some (.unary op)) :
    op.operandSize = 0 ∧ ∃ u, unaryOp? k = some u ∧ u.opcode = op := by
  cases k <;> cases h <;> exact ⟨rfl, _, rfl, rfl⟩

theorem opening_literal {k : TokenKind} {op : Opcode} (h : opening? k = some (.literal op)) :
    op.operandSize = 0 ∧ (k = .nilWord ∧ op = .pushNil ∨ k = .trueWord ∧ op = .pushTrue ∨
      k = .falseWord ∧ op = .pushFalse) := by
  cases k <;> cases h <;> simp [Opcode.operandSize]

theorem opening_kind {k : TokenKind} {o : Opening} (h : opening? k = some o) :
    k ≠ .eof ∧ (o = .grouping → k = .leftParen) ∧ (o = .number → k = .number) ∧
      (o = .string → k = .string) ∧ (o = .variable → k = .identifier) := by
  cases k <;> cases h <;> simp

theorem Fits.of_primary {p : Precedence} {k : TokenKind} {ts : List Token} {e : Expr}
    (hp : p ≤ .primary) (h : Expr.Reads .primary ts e) : Fits p k ts e :=
  ⟨.looser hp h, fun j q hj _ => .looser (Precedence.le_trans (joining_operand_le hj).1 (by decide)) h⟩

/-- The state after the code of an expression that was read from the tokens. -/
structure Compiled (scope : List String) (t : Nat) (s s' : CompileState) (ts : List Token) (e : Expr) :
    Prop where
  same : s'.body.scope = s.body.scope
  code : ∃ sp, Adds s s' ts sp [] ∧ e.Laid scope t s.body.chunk.size sp s'.body.chunk.size

theorem Compiled.ready {scope : List String} {t : Nat} {s s' : CompileState} {ts : List Token} {e : Expr}
    (h : Compiled scope t s s' ts e) (hr : s.Ready) : s'.Ready := by
  obtain ⟨sp, ha, -⟩ := h.code
  exact ha.ready hr

/-- A single instruction after the first token. -/
theorem CompileState.Took.compiled {scope : List String} {t : Nat} {s₀ s s' : CompileState} {i : Instr} {e : Expr}
    (ht : Took s₀ s) (hw : Wrote s s' i)
    (hl : Expr.Laid scope t s.body.chunk.size e [⟨s.body.chunk.size, i, scope, t⟩]
      (s.body.chunk.size + i.size)) : Compiled scope t s₀ s' [s₀.current] e := by
  refine ⟨hw.scope.trans (by rw [ht.body]), _, ht.adds.trans (hw.adds scope t), ?_⟩
  rw [hw.size, ← ht.body]
  exact hl

namespace Compiler

variable {s s' : CompileState}

/-! ### Variables -/

/-- Where the variable of a name lives: in a slot, or under a constant that names it. -/
def Access.Finds (a : Access) (scope : List String) (name : String) (heap : Heap) (c : Chunk) : Prop :=
  (∃ slot, slotOf name scope = some slot ∧ slot < 256 ∧ a = ⟨.getLocal, .setLocal, slot⟩) ∨
    slotOf name scope = none ∧ ∃ i v, i < 256 ∧ a = ⟨.getGlobal, .setGlobal, i⟩ ∧
      c.FirstAt i v ∧ (Literal.text name).Denotes heap v

theorem Access.Finds.grow {a : Access} {scope : List String} {name : String} {heap heap' : Heap}
    {c c' : Chunk} (h : a.Finds scope name heap c) (hc : c.Grows c') (hh : heap.Extends heap') :
    a.Finds scope name heap' c' := by
  rcases h with h | ⟨hn, i, v, hi, ha, hv, hd⟩
  · exact .inl h
  · exact .inr ⟨hn, i, v, hi, ha, hv.grow hc, hd.mono hh⟩

theorem accessOf_clean {name : String} {r : Option Access} (h : (accessOf name).run s = .ok r s')
    (hc : s'.Clean) :
    s.Clean ∧ Idle s s' ∧ ∃ access, r = some access ∧
      ∀ scope, s.body.scope.Resolves scope → name ≠ "" → s.heap.Interned →
        access.Finds scope name s'.heap s'.body.chunk := by
  unfold accessOf at h
  obtain ⟨s₂, s₃, h₂, h⟩ := run_bind_eq_ok.mp h
  cases h₂
  split at h
  · next slot hslot =>
      cases h
      refine ⟨hc, .refl _, _, rfl, fun scope hs hne _ => ?_⟩
      obtain ⟨hr, hlt⟩ := hs name _ hne hslot
      exact .inl ⟨slot, hr.symm, hlt _ rfl, rfl⟩
  · next hglobal =>
      obtain ⟨i, s₁, h₁, h⟩ := run_bind_eq_ok.mp h
      cases h
      obtain ⟨hc₀, hidle, hi, hconst⟩ := nameConstant_clean h₁ hc
      refine ⟨hc₀, hidle, _, rfl, fun scope hs hne hh => ?_⟩
      obtain ⟨hr, -⟩ := hs name _ hne hglobal
      obtain ⟨v, hv, hd⟩ := hconst hh
      exact .inr ⟨hr.symm, i, v, hi, rfl, hv, hd⟩
  · obtain ⟨_, s₁, h₁, h⟩ := run_bind_eq_ok.mp h
    cases h
    exact absurd hc (complain_not_clean h₁)

theorem read_clean {a : Access} (h : (emitByte a.read a.operand).run s = .ok () s') (hc : s'.Clean) :
    s.Clean ∧ ∀ scope t name, a.Finds scope name s.heap s.body.chunk →
      ∃ i, Wrote s s' i ∧ i.size = 2 ∧
        Expr.Laid scope t s.body.chunk.size (.variable name) [⟨s.body.chunk.size, i, scope, t⟩]
          (s.body.chunk.size + 2) := by
  obtain ⟨hc₀, hw⟩ := emitByte_clean h hc
  refine ⟨hc₀, fun scope t name hf => ?_⟩
  rcases hf with ⟨slot, hs, hlt, rfl⟩ | ⟨hn, i, v, hi, rfl, hv, hd⟩
  · refine ⟨.getLocal name slot, hw _ rfl rfl fun c hg hb => ?_, rfl, .getLocal hs⟩
    exact ⟨_, hb, toNat_toUInt8 hlt⟩
  · refine ⟨.getGlobal name, hw _ rfl rfl fun c hg hb => ?_, rfl, .getGlobal hn⟩
    exact ⟨_, v, hb, by rw [toNat_toUInt8 hi]; exact hv.grow hg, hd⟩

theorem write_clean {a : Access} (h : (emitByte a.write a.operand).run s = .ok () s') (hc : s'.Clean) :
    s.Clean ∧ ∀ scope t name, a.Finds scope name s.heap s.body.chunk →
      ∃ i, Wrote s s' i ∧ i.size = 2 ∧ ∀ start e sp, Expr.Laid scope t start e sp s.body.chunk.size →
        Expr.Laid scope t start (.assign name e) (sp ++ [⟨s.body.chunk.size, i, scope, t + 1⟩])
          (s.body.chunk.size + 2) := by
  obtain ⟨hc₀, hw⟩ := emitByte_clean h hc
  refine ⟨hc₀, fun scope t name hf => ?_⟩
  rcases hf with ⟨slot, hs, hlt, rfl⟩ | ⟨hn, i, v, hi, rfl, hv, hd⟩
  · refine ⟨.setLocal name slot, hw _ rfl rfl fun c hg hb => ?_, rfl, fun _ _ _ he => .setLocal hs he⟩
    exact ⟨_, hb, toNat_toUInt8 hlt⟩
  · refine ⟨.setGlobal name, hw _ rfl rfl fun c hg hb => ?_, rfl, fun _ _ _ he => .setGlobal hn he⟩
    exact ⟨_, v, hb, by rw [toNat_toUInt8 hi]; exact hv.grow hg, hd⟩

/-! ### What each rule does -/

/-- A rule that reads an expression of some strength. -/
def ExpressionSpec (p : Precedence) (x : Compiler Unit) : Prop :=
  ∀ s s', x.run s = .ok () s' → s'.Clean → s.Clean ∧
    ∀ scope t, p ≤ .unary → s.Ready → s.body.scope.Resolves scope →
      ∃ ts e, Compiled scope t s s' ts e ∧ Expr.Reads p ts e ∧ Quits p s'.current.kind

/-- A rule that reads the operators after an operand. -/
def JoinAllSpec (p : Precedence) (x : Compiler Unit) : Prop :=
  ∀ s s', x.run s = .ok () s' → s'.Clean → s.Clean ∧
    ∀ scope t s₀ ls l, p ≤ .unary → s₀.Ready → s₀.body.scope.Resolves scope →
      Compiled scope t s₀ s ls l → Fits p s.current.kind ls l →
      ∃ ts e, Compiled scope t s₀ s' ts e ∧ Expr.Reads p ts e ∧ Quits p s'.current.kind

/-- A rule that reads an expression whose first token has been taken. -/
def OpenSpec (o : Opening) (canAssign : Bool) (x : Compiler Unit) : Prop :=
  ∀ s s', x.run s = .ok () s' → s'.Clean → s.Clean ∧
    ∀ scope t s₀ p, p ≤ .unary → canAssign = decide (p ≤ .assignment) → s₀.Ready →
      s₀.body.scope.Resolves scope → Took s₀ s → opening? s₀.current.kind = some o →
      ∃ ts e, Compiled scope t s₀ s' ts e ∧ Fits p s'.current.kind ts e

/-- A rule that reads what follows an operator. -/
def JoinSpec (j : Joining) (q : Precedence) (x : Compiler Unit) : Prop :=
  ∀ s s', x.run s = .ok () s' → s'.Clean → s.Clean ∧
    ∀ scope t s₀ s₁ p ls l, s₀.Ready → s₀.body.scope.Resolves scope → Compiled scope t s₀ s₁ ls l →
      Took s₁ s → joining? s₁.current.kind = some (j, q) → p ≤ q → Expr.Reads (j.operand q) ls l →
      ∃ ts e, Compiled scope t s₀ s' ts e ∧ Fits p s'.current.kind ts e

/-- A rule that reads arguments after `count` of them. -/
def ArgumentsSpec (count : Nat) (x : Compiler Nat) : Prop :=
  ∀ s n s', x.run s = .ok n s' → s'.Clean → s.Clean ∧
    ∀ scope t, count ≤ 255 → s.Ready → s.body.scope.Resolves scope →
      s'.body.scope = s.body.scope ∧ ∃ ts e args sp, Adds s s' ts sp [] ∧
        Args.Laid scope t s.body.chunk.size (.cons e args) sp s'.body.chunk.size ∧
        Args.Reads ts (.cons e args) ∧ n = count + (Args.cons e args).length ∧ n ≤ 255

theorem numberLiteral_clean (h : numberLiteral.run s = .ok () s') (hc : s'.Clean) :
    s.Clean ∧ ∃ x, Number.ofLiteral? s.previous.lexeme.toList = some x ∧
      ∃ wide, Wrote s s' (.constant (.number x) wide) := by
  unfold numberLiteral at h
  obtain ⟨lexeme, s₁, h₁, h⟩ := run_bind_eq_ok.mp h
  cases h₁
  split at h
  · next x hx =>
      obtain ⟨hc₀, hw⟩ := emitConstant_clean h hc
      exact ⟨hc₀, x, hx, hw (.number x) rfl⟩
  · exact absurd hc (complain_not_clean h)

theorem stringLiteral_clean (h : stringLiteral.run s = .ok () s') (hc : s'.Clean) :
    s.Clean ∧ ∃ chars, unquote? s.previous.lexeme = some chars ∧
      (s.heap.Interned → ∃ wide, Wrote s s' (.constant (.text chars) wide)) := by
  unfold stringLiteral at h
  obtain ⟨lexeme, s₁, h₁, h⟩ := run_bind_eq_ok.mp h
  cases h₁
  split at h
  · next chars hx =>
      obtain ⟨handle, s₂, h₂, h⟩ := run_bind_eq_ok.mp h
      obtain ⟨hcl, hidle, hd⟩ := intern_spec h₂
      obtain ⟨hc₀, hw⟩ := emitConstant_clean h hc
      refine ⟨hcl hc₀, chars, hx, fun hi => ?_⟩
      obtain ⟨wide, hw⟩ := hw _ (hd hi)
      exact ⟨wide, hidle.wrote hw⟩
  · exact absurd h run_throw_ne_ok

/-! ### The start of an expression -/

theorem grouping_spec {x : Compiler Unit} {canAssign : Bool} (hx : ExpressionSpec .assignment x) :
    OpenSpec .grouping canAssign (do x; expect .rightParen .parenAfterExpression) := by
  intro s s' h hc
  obtain ⟨_, s₁, h₁, h⟩ := run_bind_eq_ok.mp h
  obtain ⟨hc₁, hk, ht₁⟩ := expect_clean h (by decide) hc
  obtain ⟨hc₀, hspec⟩ := hx s s₁ h₁ hc₁
  refine ⟨hc₀, fun scope t s₀ p hp _ hr hs ht ho => ?_⟩
  obtain ⟨ts, e, hcomp, hreads, -⟩ := hspec scope t (by decide) (ht.adds.ready hr) (by rw [ht.body]; exact hs)
  obtain ⟨sp, ha, hl⟩ := hcomp.code
  refine ⟨s₀.current :: (ts ++ [s₁.current]), e, ⟨?_, sp, ?_, ?_⟩, .of_primary ?_ ?_⟩
  · rw [ht₁.body, hcomp.same, ht.body]
  · simpa using ht.adds.trans (ha.trans ht₁.adds)
  · rw [ht₁.body, ← ht.body]
    exact hl
  · exact Precedence.le_trans hp (by decide)
  · exact .grouping ((opening_kind ho).2.1 rfl) hreads hk

theorem unary_spec {x : Compiler Unit} {canAssign : Bool} {op : Opcode} (hop : op.operandSize = 0)
    (hx : ExpressionSpec .unary x) : OpenSpec (.unary op) canAssign (do x; emit op) := by
  intro s s' h hc
  obtain ⟨_, s₁, h₁, h⟩ := run_bind_eq_ok.mp h
  obtain ⟨hc₁, hw⟩ := emit_clean h hop hc
  obtain ⟨hc₀, hspec⟩ := hx s s₁ h₁ hc₁
  refine ⟨hc₀, fun scope t s₀ p hp _ hr hs ht ho => ?_⟩
  obtain ⟨-, u, hu, rfl⟩ := opening_unary ho
  obtain ⟨ts, e, hcomp, hreads, hquits⟩ :=
    hspec scope t (by decide) (ht.adds.ready hr) (by rw [ht.body]; exact hs)
  obtain ⟨sp, ha, hl⟩ := hcomp.code
  have hread : Expr.Reads .unary (s₀.current :: ts) (.unary u e) := .unary hu hreads
  refine ⟨s₀.current :: ts, .unary u e, ⟨?_, sp ++ [⟨s₁.body.chunk.size, .plain u.opcode, scope, t + 1⟩], ?_, ?_⟩,
    .looser hp hread, ?_⟩
  · rw [hw.scope, hcomp.same, ht.body]
  · simpa using ht.adds.trans (ha.trans (hw.adds scope (t + 1)))
  · rw [hw.size, ← ht.body]
    exact .unary hl
  · intro j q hj _
    rw [hw.current] at hj
    exact .looser ((joining_operand_le hj).2.2.2.1 (hquits j q hj)) hread

/-- The access of a variable whose name has just been taken finds the variable. -/
theorem finds_of_took {access : Access} (h : (accessOf s.previous.lexeme).run s = .ok (some access) s')
    (hc : s'.Clean) :
    s.Clean ∧ Idle s s' ∧ ∀ scope s₀, s₀.Ready → s₀.body.scope.Resolves scope → Took s₀ s →
      s₀.current.kind = .identifier → access.Finds scope s₀.current.lexeme s'.heap s'.body.chunk := by
  obtain ⟨hc₀, hidle, _, hr, hfinds⟩ := accessOf_clean h hc
  cases hr
  refine ⟨hc₀, hidle, fun scope s₀ hr hs ht hid => ?_⟩
  have hne : s.previous.lexeme ≠ "" := by
    rw [ht.previous]
    exact (hr.proper (by rw [hid]; decide)).named hid
  have hf := hfinds scope (by rw [ht.body]; exact hs) hne (ht.adds.ready hr).heap
  rwa [ht.previous] at hf

/-- The variable is read. -/
theorem variable_read {access : Access} {s₁ : CompileState}
    (h₁ : (accessOf s.previous.lexeme).run s = .ok (some access) s₁)
    (h : (emitByte access.read access.operand).run s₁ = .ok () s') (hc : s'.Clean) :
    s.Clean ∧ ∀ scope t s₀ p, p ≤ .unary → s₀.Ready → s₀.body.scope.Resolves scope → Took s₀ s →
      s₀.current.kind = .identifier → ∃ ts e, Compiled scope t s₀ s' ts e ∧ Fits p s'.current.kind ts e := by
  obtain ⟨hc₁, hw⟩ := read_clean h hc
  obtain ⟨hc₀, hidle, hfinds⟩ := finds_of_took h₁ hc₁
  refine ⟨hc₀, fun scope t s₀ p hp hr hs ht hid => ?_⟩
  obtain ⟨i, hwrote, hsize, hl⟩ := hw scope t _ (hfinds scope s₀ hr hs ht hid)
  rw [hidle.size] at hl
  refine ⟨[s₀.current], _, ht.compiled (hidle.wrote hwrote) (hsize ▸ hl), .of_primary ?_ (.variable hid)⟩
  exact Precedence.le_trans hp (by decide)

/-- The variable is written, after the value behind the equals sign. -/
theorem variable_write {x : Compiler Unit} (hx : ExpressionSpec .assignment x) {access : Access}
    {s₁ s₂ s₃ : CompileState} (h₁ : (accessOf s.previous.lexeme).run s = .ok (some access) s₁)
    (hk : s₁.current.kind = .equal) (h₂ : advance.run s₁ = .ok () s₂) (h₃ : x.run s₂ = .ok () s₃)
    (h : (emitByte access.write access.operand).run s₃ = .ok () s') (hc : s'.Clean) :
    s.Clean ∧ ∀ scope t s₀ p, p ≤ .assignment → s₀.Ready → s₀.body.scope.Resolves scope → Took s₀ s →
      s₀.current.kind = .identifier → ∃ ts e, Compiled scope t s₀ s' ts e ∧ Fits p s'.current.kind ts e := by
  obtain ⟨hc₃, hw⟩ := write_clean h hc
  obtain ⟨hc₂, hspec⟩ := hx s₂ s₃ h₃ hc₃
  obtain ⟨hc₁, ht₂⟩ := advance_clean h₂ (by rw [hk]; decide) hc₂
  obtain ⟨hc₀, hidle, hfinds⟩ := finds_of_took h₁ hc₁
  refine ⟨hc₀, fun scope t s₀ p hp hr hs ht hid => ?_⟩
  have hready := hidle.adds.ready (ht.adds.ready hr)
  have hscope : s₂.body.scope.Resolves scope := by
    rw [ht₂.body, hidle.scope, ht.body]
    exact hs
  obtain ⟨ts, e, hcomp, hreads, hquits⟩ := hspec scope t (by decide) (ht₂.adds.ready hready) hscope
  obtain ⟨sp, ha, hl⟩ := hcomp.code
  -- the place of the variable was looked up before the code of the value was written
  have hf := (hfinds scope s₀ hr hs ht hid).grow (ht₂.adds.trans ha).chunk (ht₂.adds.trans ha).heap.keeps
  obtain ⟨i, hwrote, hsize, hl'⟩ := hw scope t _ hf
  have hread : Expr.Reads .assignment (s₀.current :: s₁.current :: ts) (.assign s₀.current.lexeme e) :=
    .assign hid hk hreads
  refine ⟨_, _, ⟨?_, sp ++ [⟨s₃.body.chunk.size, i, scope, t + 1⟩], ?_, ?_⟩, .looser hp hread, ?_⟩
  · rw [hwrote.scope, hcomp.same, ht₂.body, hidle.scope, ht.body]
  · simpa using ht.adds.trans (hidle.adds.trans (ht₂.adds.trans (ha.trans (hwrote.adds scope (t + 1)))))
  · rw [hwrote.size, hsize, ← ht.body, ← hidle.size, ← ht₂.body]
    exact hl' _ _ _ hl
  · intro j q hj _
    rw [hwrote.current] at hj
    exact absurd (joining_operand_le hj).2.1 (hquits j q hj)

theorem variable_spec {x : Compiler Unit} (canAssign : Bool) (hx : ExpressionSpec .assignment x) :
    OpenSpec .variable canAssign (do
      match ← accessOf (← previousLexeme) with
      | none => return
      | some access =>
        let assigns ← if canAssign then accept .equal else pure false
        if assigns then
          x
          emitByte access.write access.operand
        else emitByte access.read access.operand) := by
  intro s s' h hc
  obtain ⟨name, s₁, h₁, h⟩ := run_bind_eq_ok.mp h
  cases h₁
  obtain ⟨r, s₂, h₂, h⟩ := run_bind_eq_ok.mp h
  cases r with
  | none =>
      cases h
      obtain ⟨-, -, access, hr, -⟩ := accessOf_clean h₂ hc
      cases hr
  | some access =>
      have hread : (emitByte access.read access.operand).run s₂ = .ok () s' → _ := fun h => variable_read h₂ h hc
      cases canAssign with
      | false =>
          obtain ⟨hc₀, hspec⟩ := hread h
          exact ⟨hc₀, fun scope t s₀ p hp _ hr hs ht ho => hspec scope t s₀ p hp hr hs ht
            ((opening_kind ho).2.2.2.2 rfl)⟩
      | true =>
          obtain ⟨assigns, s₃, h₃, h⟩ := run_bind_eq_ok.mp h
          rcases accept_cases h₃ with ⟨rfl, hk, h₃'⟩ | ⟨rfl, hk, rfl⟩
          · obtain ⟨_, s₄, h₄, h⟩ := run_bind_eq_ok.mp h
            obtain ⟨hc₀, hspec⟩ := variable_write hx h₂ hk h₃' h₄ h hc
            exact ⟨hc₀, fun scope t s₀ p _ hp hr hs ht ho =>
              hspec scope t s₀ p (of_decide_eq_true hp.symm) hr hs ht ((opening_kind ho).2.2.2.2 rfl)⟩
          · obtain ⟨hc₀, hspec⟩ := hread h
            exact ⟨hc₀, fun scope t s₀ p hp _ hr hs ht ho => hspec scope t s₀ p hp hr hs ht
              ((opening_kind ho).2.2.2.2 rfl)⟩

theorem number_spec (canAssign : Bool) : OpenSpec .number canAssign numberLiteral := by
  intro s s' h hc
  obtain ⟨hc₀, x, hx, wide, hw⟩ := numberLiteral_clean h hc
  refine ⟨hc₀, fun scope t s₀ p hp _ hr hs ht ho => ?_⟩
  rw [ht.previous] at hx
  refine ⟨[s₀.current], .number x, ht.compiled hw .number, .of_primary ?_ ?_⟩
  · exact Precedence.le_trans hp (by decide)
  · exact .number ((opening_kind ho).2.2.1 rfl) hx

theorem string_spec (canAssign : Bool) : OpenSpec .string canAssign stringLiteral := by
  intro s s' h hc
  obtain ⟨hc₀, chars, hx, hw⟩ := stringLiteral_clean h hc
  refine ⟨hc₀, fun scope t s₀ p hp _ hr hs ht ho => ?_⟩
  rw [ht.previous] at hx
  obtain ⟨wide, hw⟩ := hw (ht.adds.ready hr).heap
  refine ⟨[s₀.current], .text chars, ht.compiled hw .text, .of_primary ?_ ?_⟩
  · exact Precedence.le_trans hp (by decide)
  · exact .text ((opening_kind ho).2.2.2.1 rfl) hx

theorem literal_spec {op : Opcode} (hop : op.operandSize = 0) (canAssign : Bool) :
    OpenSpec (.literal op) canAssign (emit op) := by
  intro s s' h hc
  obtain ⟨hc₀, hw⟩ := emit_clean h hop hc
  refine ⟨hc₀, fun scope t s₀ p hp _ hr hs ht ho => ?_⟩
  have hprimary := Precedence.le_trans hp (show Precedence.unary ≤ .primary by decide)
  obtain ⟨-, ⟨hk, rfl⟩ | ⟨hk, rfl⟩ | ⟨hk, rfl⟩⟩ := opening_literal ho
  · exact ⟨[s₀.current], .nil, ht.compiled hw .nil, .of_primary hprimary (.nil hk)⟩
  · exact ⟨[s₀.current], .truth true, ht.compiled hw .yes, .of_primary hprimary (.yes hk)⟩
  · exact ⟨[s₀.current], .truth false, ht.compiled hw .no, .of_primary hprimary (.no hk)⟩

/-! ### Operators after an operand -/

theorem binary_spec {x : Compiler Unit} {op : Opcode} {q : Precedence} (hop : op.operandSize = 0)
    (hx : ExpressionSpec q.next x) : JoinSpec (.binary op) q (do x; emit op) := by
  intro s s' h hc
  obtain ⟨_, s₂, h₂, h⟩ := run_bind_eq_ok.mp h
  obtain ⟨hc₂, hw⟩ := emit_clean h hop hc
  obtain ⟨hc₀, hspec⟩ := hx s s₂ h₂ hc₂
  refine ⟨hc₀, fun scope t s₀ s₁ p ls l hr hs hleft ht hj hp hreads => ?_⟩
  obtain ⟨hq, -, b, hb, rfl, hnext⟩ := joining_binary hj
  obtain ⟨sl, hal, hll⟩ := hleft.code
  obtain ⟨ts, r, hright, hreadr, hquits⟩ := hspec scope (t + 1) hq (ht.adds.ready (hleft.ready hr))
    (by rw [ht.body, hleft.same]; exact hs)
  obtain ⟨sr, har, hlr⟩ := hright.code
  have hread : Expr.Reads q (ls ++ s₁.current :: ts) (.binary b l r) := .binary hb hreads hreadr
  refine ⟨_, _, ⟨?_, sl ++ (sr ++ [⟨s₂.body.chunk.size, .plain b.opcode, scope, t + 2⟩]), ?_, ?_⟩,
    .looser hp hread, ?_⟩
  · rw [hw.scope, hright.same, ht.body, hleft.same]
  · simpa using hal.trans (ht.adds.trans (har.trans (hw.adds scope (t + 2))))
  · rw [hw.size]
    exact .binary hll (by rw [← ht.body]; exact hlr)
  · intro j' q' hj' hp'
    rw [hw.current] at hj'
    exact .looser (hnext _ _ _ hj' (hquits j' q' hj')) hread

theorem and_spec {x : Compiler Unit} (hx : ExpressionSpec .and x) :
    JoinSpec .and .and (do
      let finish ← emitJump .jumpIfFalse
      emit .pop
      x
      patchJump finish) := by
  intro s s' h hc
  obtain ⟨finish, s₂, h₂, h⟩ := run_bind_eq_ok.mp h
  obtain ⟨hcl, rfl, hscope₂, hcur₂, -, hsize₂, hbyte₂, ha₂⟩ := emitJump_spec h₂
  obtain ⟨_, s₃, h₃, h⟩ := run_bind_eq_ok.mp h
  obtain ⟨_, s₄, h₄, h⟩ := run_bind_eq_ok.mp h
  obtain ⟨hc₄, hscope, hcur, -, hsize, -, hpatch⟩ := patchJump_clean h hc
  obtain ⟨hc₃, hspec⟩ := hx s₃ s₄ h₄ hc₄
  obtain ⟨hc₂, hw⟩ := emit_clean h₃ rfl hc₃
  refine ⟨hcl hc₂, fun scope t s₀ s₁ p ls l hr hs hleft ht hj hp hreads => ?_⟩
  obtain ⟨sl, hal, hll⟩ := hleft.code
  have hready := hw.adds scope (t + 1) |>.ready (ha₂.ready (ht.adds.ready (hleft.ready hr)))
  obtain ⟨ts, r, hright, hreadr, hquits⟩ := hspec scope t (by decide) hready
    (by rw [hw.scope, hscope₂, ht.body, hleft.same]; exact hs)
  obtain ⟨sr, har, hlr⟩ := hright.code
  have hread : Expr.Reads .and (ls ++ s₁.current :: ts) (.and l r) :=
    .and (joining_and hj).1 hreads hreadr
  have hstart : s₃.body.chunk.size = s₁.body.chunk.size + 4 := by
    rw [hw.size, hsize₂, ht.body]
    rfl
  -- the jump over the right operand gets its target once the operand is complete
  have hadds := hpatch (i := .jumpIfFalse s₄.body.chunk.size)
    (ha₂.trans ((hw.adds scope (t + 1)).trans har)) rfl ⟨hsize₂, by rw [Spot.next, ← hw.size]; exact hlr.contiguous⟩
    (.inr rfl) ((hw.adds scope (t + 1)).trans har |>.chunk.byteAt? hbyte₂) scope (t + 1)
  refine ⟨_, _, ⟨?_, sl ++ ⟨s₁.body.chunk.size, .jumpIfFalse s₄.body.chunk.size, scope, t + 1⟩ ::
    ⟨s₁.body.chunk.size + 3, .plain .pop, scope, t + 1⟩ :: sr, ?_, ?_⟩, .looser hp hread, ?_⟩
  · rw [hscope, hright.same, hw.scope, hscope₂, ht.body, hleft.same]
  · rw [hsize₂, ht.body] at hadds
    simpa using hal.trans (ht.adds.trans hadds)
  · rw [hsize]
    exact .and hll (by rw [← hstart]; exact hlr)
  · intro j' q' hj' hp'
    rw [hcur] at hj'
    exact .looser ((joining_operand_le hj').2.2.2.2 (hquits j' q' hj')) hread

theorem or_spec {x : Compiler Unit} (hx : ExpressionSpec .or x) :
    JoinSpec .or .or (do
      let right ← emitJump .jumpIfFalse
      let finish ← emitJump .jump
      patchJump right
      emit .pop
      x
      patchJump finish) := by
  intro s s' h hc
  obtain ⟨right, s₂, h₂, h⟩ := run_bind_eq_ok.mp h
  obtain ⟨hcl₂, rfl, hscope₂, hcur₂, -, hsize₂, hbyte₂, ha₂⟩ := emitJump_spec h₂
  obtain ⟨finish, s₃, h₃, h⟩ := run_bind_eq_ok.mp h
  obtain ⟨hcl₃, rfl, hscope₃, hcur₃, -, hsize₃, hbyte₃, ha₃⟩ := emitJump_spec h₃
  obtain ⟨_, s₄, h₄, h⟩ := run_bind_eq_ok.mp h
  obtain ⟨_, s₅, h₅, h⟩ := run_bind_eq_ok.mp h
  obtain ⟨_, s₆, h₆, h⟩ := run_bind_eq_ok.mp h
  obtain ⟨hc₆, hscope, hcur, -, hsize, -, hpatch⟩ := patchJump_clean h hc
  obtain ⟨hc₅, hspec⟩ := hx s₅ s₆ h₆ hc₆
  obtain ⟨hc₄, hw⟩ := emit_clean h₅ rfl hc₅
  obtain ⟨hc₃, hscope₄, hcur₄, -, hsize₄, hbyte₄, hpatch₄⟩ := patchJump_clean h₄ hc₄
  refine ⟨hcl₂ (hcl₃ hc₃), fun scope t s₀ s₁ p ls l hr hs hleft ht hj hp hreads => ?_⟩
  obtain ⟨sl, hal, hll⟩ := hleft.code
  -- the jump to the right operand is complete as soon as the jump over it is written
  have hjump := hpatch₄ (i := .jumpIfFalse s₃.body.chunk.size) (ha₂.trans ha₃) rfl rfl (.inr rfl)
    (ha₃.chunk.byteAt? hbyte₂) scope (t + 1)
  have hready := hw.adds scope (t + 1) |>.ready (hjump.ready (ht.adds.ready (hleft.ready hr)))
  obtain ⟨ts, r, hright, hreadr, hquits⟩ := hspec scope t (by decide) hready
    (by rw [hw.scope, hscope₄, hscope₃, hscope₂, ht.body, hleft.same]; exact hs)
  obtain ⟨sr, har, hlr⟩ := hright.code
  have hread : Expr.Reads .or (ls ++ s₁.current :: ts) (.or l r) := .or (joining_or hj).1 hreads hreadr
  have hstart : s₅.body.chunk.size = s₁.body.chunk.size + 7 := by
    rw [hw.size, hsize₄, hsize₃, hsize₂, ht.body]
    rfl
  have hadds := hpatch (i := .jump s₆.body.chunk.size) (hjump.trans ((hw.adds scope (t + 1)).trans har))
    ⟨rfl, hsize₂.symm⟩ ⟨hsize₄.trans hsize₃, by rw [Spot.next, ← hw.size]; exact hlr.contiguous⟩ (.inl rfl)
    ((hw.adds scope (t + 1)).trans har |>.chunk.byteAt? (by
      rw [hbyte₄ _ (.inr (Nat.le_of_eq hsize₂.symm))]
      exact hbyte₃)) scope (t + 1)
  refine ⟨_, _, ⟨?_, sl ++ ⟨s₁.body.chunk.size, .jumpIfFalse (s₁.body.chunk.size + 6), scope, t + 1⟩ ::
    ⟨s₁.body.chunk.size + 3, .jump s₆.body.chunk.size, scope, t + 1⟩ ::
    ⟨s₁.body.chunk.size + 6, .plain .pop, scope, t + 1⟩ :: sr, ?_, ?_⟩, .looser hp hread, ?_⟩
  · rw [hscope, hright.same, hw.scope, hscope₄, hscope₃, hscope₂, ht.body, hleft.same]
  · rw [hsize₄, hsize₃, hsize₂, ht.body] at hadds
    simpa using hal.trans (ht.adds.trans hadds)
  · rw [hsize]
    exact .or hll (by rw [← hstart]; exact hlr)
  · intro j' q' hj' hp'
    rw [hcur] at hj'
    exact absurd (joining_operand_le hj').2.2.1 (hquits j' q' hj')

theorem countArgument_clean {count n : Nat} (h : (countArgument count).run s = .ok n s') (hc : s'.Clean) :
    s = s' ∧ n = count + 1 ∧ count ≠ 255 := by
  unfold countArgument at h
  split at h
  · obtain ⟨_, s₁, h₁, h⟩ := run_bind_eq_ok.mp h
    cases h
    exact absurd hc (complain_not_clean h₁)
  · next hne =>
      cases h
      exact ⟨rfl, rfl, hne⟩

theorem arguments_spec {x : Compiler Unit} {more : Nat → Compiler Nat} {count : Nat}
    (hx : ExpressionSpec .assignment x) (hmore : ∀ n, ArgumentsSpec n (more n)) :
    ArgumentsSpec count (do
      x
      let count ← countArgument count
      if ← accept .comma then more count else return count) := by
  intro s n s' h hc
  obtain ⟨_, s₁, h₁, h⟩ := run_bind_eq_ok.mp h
  obtain ⟨count', s₂, h₂, h⟩ := run_bind_eq_ok.mp h
  obtain ⟨b, s₃, h₃, h⟩ := run_bind_eq_ok.mp h
  rcases accept_cases h₃ with ⟨rfl, hk, h₃'⟩ | ⟨rfl, hk, rfl⟩
  · obtain ⟨hc₃, hrest⟩ := hmore count' s₃ n s' h hc
    obtain ⟨hc₂, ht⟩ := advance_clean h₃' (by rw [hk]; decide) hc₃
    obtain ⟨rfl, rfl, hne⟩ := countArgument_clean h₂ hc₂
    obtain ⟨hc₀, hspec⟩ := hx s s₁ h₁ hc₂
    refine ⟨hc₀, fun scope t hcount hr hs => ?_⟩
    obtain ⟨ts, e, hcomp, hreads, -⟩ := hspec scope t (by decide) hr hs
    obtain ⟨sp, ha, hl⟩ := hcomp.code
    obtain ⟨hsame, us, e', args, sq, hb, hm, hreads', hn, hle⟩ := hrest scope (t + 1) (by omega)
      (ht.adds.ready (ha.ready hr)) (by rw [ht.body, hcomp.same]; exact hs)
    refine ⟨?_, ts ++ s₁.current :: us, e, .cons e' args, sp ++ sq, ?_, ?_, .cons hreads hk hreads', ?_, hle⟩
    · rw [hsame, ht.body, hcomp.same]
    · simpa using ha.trans (ht.adds.trans hb)
    · exact .cons hl (by rw [← ht.body]; exact hm)
    · rw [hn]
      simp only [Args.length]
      omega
  · cases h
    obtain ⟨rfl, rfl, hne⟩ := countArgument_clean h₂ hc
    obtain ⟨hc₀, hspec⟩ := hx s s₁ h₁ hc
    refine ⟨hc₀, fun scope t hcount hr hs => ?_⟩
    obtain ⟨ts, e, hcomp, hreads, -⟩ := hspec scope t (by decide) hr hs
    obtain ⟨sp, ha, hl⟩ := hcomp.code
    refine ⟨hcomp.same, ts, e, .nil, sp ++ [], by simpa using ha, .cons hl .nil, .last hreads, rfl, by omega⟩

/-- With or without arguments, the parenthesis and the instruction follow. -/
theorem callEnd_clean {s s' : CompileState} {n : Nat} (hc : s'.Clean)
    (h : (do expect .rightParen .parenAfterArguments; emitByte .call n : Compiler Unit).run s = .ok () s') :
    s.Clean ∧ ∃ s₁, s.current.kind = .rightParen ∧ Took s s₁ ∧ (n ≤ 255 → Wrote s₁ s' (.call n)) := by
  obtain ⟨_, s₁, h₁, h⟩ := run_bind_eq_ok.mp h
  obtain ⟨hc₁, hw⟩ := emitByte_clean h hc
  obtain ⟨hc₀, hk, ht⟩ := expect_clean h₁ (by decide) hc₁
  refine ⟨hc₀, s₁, hk, ht, fun hn => hw (.call n) rfl rfl fun c hg hb => ?_⟩
  exact ⟨_, hb, toNat_toUInt8 (by omega)⟩

/-- A callee, its arguments and the end of the call make a call. -/
theorem compiled_call {s₀ s₁ s s₃ s₄ s' : CompileState} {n t : Nat} {scope : List String}
    {ls us : List Token} {l : Expr} {args : Args} {sa : List Spot} {p : Precedence}
    (hleft : Compiled scope t s₀ s₁ ls l) (ht : Took s₁ s)
    (hj : joining? s₁.current.kind = some (.call, .call)) (hp : p ≤ .call) (hreads : Expr.Reads .call ls l)
    (hsame : s₃.body.scope = s.body.scope) (ha : Adds s s₃ us sa [])
    (hl : Args.Laid scope (t + 1) s.body.chunk.size args sa s₃.body.chunk.size) (hreads' : Args.Reads us args)
    (hn : n = args.length) (hk : s₃.current.kind = .rightParen) (ht₄ : Took s₃ s₄) (hw : Wrote s₄ s' (.call n)) :
    ∃ ts e, Compiled scope t s₀ s' ts e ∧ Fits p s'.current.kind ts e := by
  subst hn
  obtain ⟨sl, hal, hll⟩ := hleft.code
  have hread : Expr.Reads .call (ls ++ s₁.current :: (us ++ [s₃.current])) (.call l args) :=
    .call (joining_call hj).1 hreads hreads' hk
  refine ⟨_, _, ⟨?_, sl ++ (sa ++ [⟨s₃.body.chunk.size, .call args.length, scope, t + 1 + args.length⟩]),
    ?_, ?_⟩, .looser hp hread, ?_⟩
  · rw [hw.scope, ht₄.body, hsame, ht.body, hleft.same]
  · have := hw.adds scope (t + 1 + args.length)
    rw [ht₄.body] at this
    simpa using hal.trans (ht.adds.trans (ha.trans (ht₄.adds.trans this)))
  · rw [hw.size, ht₄.body]
    exact .call hll (by rw [← ht.body]; exact hl)
  · intro j' q' hj' _
    exact .looser (joining_operand_le hj').1 hread

theorem call_spec {x : Compiler Nat} (hx : ArgumentsSpec 0 x) :
    JoinSpec .call .call (do
      let count ← if ← sees .rightParen then pure 0 else x
      expect .rightParen .parenAfterArguments
      emitByte .call count) := by
  intro s s' h hc
  obtain ⟨b, s₂, h₂, h⟩ := run_bind_eq_ok.mp h
  obtain ⟨rfl, hb⟩ := sees_cases h₂
  split at h
  · next hyes =>
      obtain ⟨hc₃, s₄, hk, ht₄, hw⟩ := callEnd_clean hc h
      refine ⟨hc₃, fun scope t s₀ s₁ p ls l hr hs hleft ht hj hp hreads => ?_⟩
      exact compiled_call hleft ht hj hp hreads rfl (.refl s) .nil .nil rfl hk ht₄ (hw (by omega))
  · obtain ⟨n, s₃, h₃, h⟩ := run_bind_eq_ok.mp h
    obtain ⟨hc₃, s₄, hk, ht₄, hw⟩ := callEnd_clean hc h
    obtain ⟨hc₀, hspec⟩ := hx s n s₃ h₃ hc₃
    refine ⟨hc₀, fun scope t s₀ s₁ p ls l hr hs hleft ht hj hp hreads => ?_⟩
    obtain ⟨hsame, us, e, args, sa, ha, hl, hreads', hn, hle⟩ := hspec scope (t + 1) (by omega)
      (ht.adds.ready (hleft.ready hr)) (by rw [ht.body, hleft.same]; exact hs)
    exact compiled_call hleft ht hj hp hreads hsame ha hl hreads' (by omega) hk ht₄ (hw hle)

/-! ### All rules together -/

theorem joinAll_spec {p : Precedence} {join : Joining → Precedence → Compiler Unit} {more : Compiler Unit}
    (hjoin : ∀ j q, (∃ k, joining? k = some (j, q)) → JoinSpec j q (join j q)) (hmore : JoinAllSpec p more) :
    JoinAllSpec p (do
      match joining? (← get).current.kind with
      | some (joining, binding) =>
        if p ≤ binding then
          advance
          join joining binding
          more
      | none => return) := by
  intro s s' h hc
  obtain ⟨s₂, s₃, h₂, h⟩ := run_bind_eq_ok.mp h
  cases h₂
  split at h
  · next j q hj =>
      split at h
      · next hp =>
          obtain ⟨_, s₁, h₁, h⟩ := run_bind_eq_ok.mp h
          obtain ⟨_, s₂, h₂, h⟩ := run_bind_eq_ok.mp h
          obtain ⟨hc₂, hrest⟩ := hmore s₂ s' h hc
          obtain ⟨hc₁, hspec⟩ := hjoin j q ⟨_, hj⟩ s₁ s₂ h₂ hc₂
          have hne : s.current.kind ≠ .eof := fun he => by rw [he] at hj; cases hj
          obtain ⟨hc₀, ht⟩ := advance_clean h₁ hne hc₁
          refine ⟨hc₀, fun scope t s₀ ls l hu hr hs hleft hfits => ?_⟩
          obtain ⟨ts, e, hcomp, hfits'⟩ :=
            hspec scope t s₀ s p ls l hr hs hleft ht hj hp (hfits.2 j q hj hp)
          exact hrest scope t s₀ ts e hu hr hs hcomp hfits'
      · next hp =>
          cases h
          refine ⟨hc, fun scope t s₀ ls l hu hr hs hleft hfits => ⟨ls, l, hleft, hfits.1, ?_⟩⟩
          intro j' q' hj'
          rw [hj] at hj'
          cases hj'
          exact hp
  · next hnone =>
      cases h
      refine ⟨hc, fun scope t s₀ ls l hu hr hs hleft hfits => ⟨ls, l, hleft, hfits.1, ?_⟩⟩
      intro j q hj
      rw [hnone] at hj
      cases hj

theorem expressionOf_spec {p : Precedence} {start : Opening → Bool → Compiler Unit} {more : Compiler Unit}
    (hstart : ∀ o b, (∃ k, opening? k = some o) → OpenSpec o b (start o b)) (hmore : JoinAllSpec p more) :
    ExpressionSpec p (do
      advance
      match opening? (← get).previous.kind with
      | none => complain .expectExpression
      | some opening =>
        let canAssign := decide (p ≤ .assignment)
        start opening canAssign
        more
        if canAssign then
          if ← accept .equal then complain .invalidAssignmentTarget) := by
  intro s s' h hc
  obtain ⟨_, s₁, h₁, h⟩ := run_bind_eq_ok.mp h
  cases h₁
  obtain ⟨s₂, s₃, h₂, h⟩ := run_bind_eq_ok.mp h
  cases h₂
  split at h
  · exact absurd hc (complain_not_clean h)
  · next o ho =>
      dsimp only at h
      obtain ⟨_, s₂, h₂, h⟩ := run_bind_eq_ok.mp h
      obtain ⟨_, s₃, h₃, h⟩ := run_bind_eq_ok.mp h
      -- an equals sign that is left over is an error, so none is
      obtain rfl : s₃ = s' := by
        split at h
        · obtain ⟨b, s₄, h₄, h⟩ := run_bind_eq_ok.mp h
          rcases accept_cases h₄ with ⟨rfl, -, -⟩ | ⟨rfl, -, rfl⟩
          · exact absurd hc (complain_not_clean h)
          · cases h
            rfl
        · cases h
          rfl
      obtain ⟨-, -, -, hprev, -⟩ := s.advance_frame
      rw [hprev] at ho
      obtain ⟨hc₂, hrest⟩ := hmore s₂ s₃ h₃ hc
      obtain ⟨hc₁, hspec⟩ := hstart o _ ⟨_, ho⟩ s.advance s₂ h₂ hc₂
      obtain ⟨hc₀, ht⟩ := advance_clean rfl (opening_kind ho).1 hc₁
      refine ⟨hc₀, fun scope t hp hr hs => ?_⟩
      obtain ⟨ts, e, hcomp, hfits⟩ := hspec scope t s p hp rfl hr hs ht ho
      exact hrest scope t s ts e hp hr hs hcomp hfits

/-- **Expressions.** Whatever strength is asked for, an accepted expression is read as the grammar says,
and its code is laid out for the variables in scope. -/
theorem expressions_spec (budget : Nat) :
    (∀ p, ExpressionSpec p (expressionOf p budget)) ∧ (∀ p, JoinAllSpec p (joinAll p budget)) ∧
      (∀ o b, (∃ k, opening? k = some o) → OpenSpec o b (openWith o b budget)) ∧
      (∀ j q, (∃ k, joining? k = some (j, q)) → JoinSpec j q (joinWith j q budget)) ∧
      ∀ n, ArgumentsSpec n (arguments n budget) := by
  induction budget with
  | zero =>
      refine ⟨fun p => ?_, fun p => ?_, fun o b _ => ?_, fun j q _ => ?_, fun n => ?_⟩
      · rw [expressionOf]
        exact fun _ _ h => absurd h run_throw_ne_ok
      · rw [joinAll]
        exact fun _ _ h => absurd h run_throw_ne_ok
      · rw [openWith]
        exact fun _ _ h => absurd h run_throw_ne_ok
      · rw [joinWith]
        exact fun _ _ h => absurd h run_throw_ne_ok
      · rw [arguments]
        exact fun _ _ _ h => absurd h run_throw_ne_ok
  | succ budget ih =>
      obtain ⟨hexpr, hall, hopen, hjoin, hargs⟩ := ih
      refine ⟨fun p => ?_, fun p => ?_, fun o b ho => ?_, fun j q hj => ?_, fun n => ?_⟩
      · rw [expressionOf]
        exact expressionOf_spec hopen (hall p)
      · rw [joinAll]
        exact joinAll_spec hjoin (hall p)
      · obtain ⟨k, ho⟩ := ho
        cases o <;> rw [openWith]
        case grouping => exact grouping_spec (hexpr _)
        case unary op => exact unary_spec (opening_unary ho).1 (hexpr _)
        case number => exact number_spec b
        case string => exact string_spec b
        case literal op => exact literal_spec (opening_literal ho).1 b
        case «variable» => exact variable_spec b (hexpr _)
      · obtain ⟨k, hj⟩ := hj
        cases j <;> rw [joinWith]
        case binary op => exact binary_spec (joining_binary hj).2.1 (hexpr _)
        case and =>
          rw [(joining_and hj).2]
          exact and_spec (hexpr _)
        case or =>
          rw [(joining_or hj).2]
          exact or_spec (hexpr _)
        case call =>
          rw [(joining_call hj).2]
          exact call_spec (hargs 0)
      · rw [arguments]
        exact arguments_spec (hexpr _) hargs

theorem expression_spec (budget : Nat) : ExpressionSpec .assignment (expression budget) :=
  (expressions_spec budget).1 _

end Compiler

end Lox
