import Lox.Proofs.Compile.Expressions

/-! Statements and declarations of an accepted source. Each rule reads one statement as the grammar says,
lays out its code, and leaves the variables as they were, except that a declaration adds its own. A
function is compiled into a chunk of its own and becomes an object before the code around it goes on. -/

namespace Lox

open CompileState

namespace CompileState

/-- The compiler panics only after a finding. -/
def Sane (s : CompileState) : Prop := s.panicking = true → s.findings ≠ []

theorem sane_complainAt {s : CompileState} (token : Token) (complaint : Complaint) (hs : s.Sane) :
    (s.complainAt token complaint).Sane := by
  unfold complainAt
  split
  · exact hs
  · exact fun _ => List.cons_ne_nil _ _

theorem findings_complainAt {s : CompileState} (token : Token) (complaint : Complaint) (hs : s.findings ≠ []) :
    (s.complainAt token complaint).findings ≠ [] := by
  unfold complainAt
  split
  · exact hs
  · exact List.cons_ne_nil _ _

theorem listCode_eq (chunk : Chunk) (title : String) (s : CompileState) :
    ∃ journal, s.listCode chunk title = { s with journal } := by
  unfold listCode
  split <;> exact ⟨_, rfl⟩

/-- Closing a function makes it an object and turns back to the one around it. -/
theorem closeFunction_turn (s : CompileState) :
    ∃ journal, s.closeFunction = (⟨s.heap.cells.size⟩, { s with
      body := s.enclosing.headD {}
      enclosing := s.enclosing.tail
      heap := (s.heap.allocate (.function { arity := s.body.arity, chunk := s.body.chunk, name := s.body.name })).1
      journal }) := by
  unfold closeFunction allocateFunction record
  cases he : s.enclosing with
  | nil =>
      simp only
      split
      · obtain ⟨journal, hj⟩ := listCode_eq s.body.chunk (s.heap.functionText
          { arity := s.body.arity, chunk := s.body.chunk, name := s.body.name })
          { s with body := {}, journal := s.journal.record (.functionEnded (s.heap.functionText
            { arity := s.body.arity, chunk := s.body.chunk, name := s.body.name }) s.body.arity) }
        rw [he] at hj
        simp only [hj]
        exact ⟨_, rfl⟩
      · exact ⟨_, rfl⟩
  | cons outer enclosing =>
      simp only
      split
      · obtain ⟨journal, hj⟩ := listCode_eq s.body.chunk (s.heap.functionText
          { arity := s.body.arity, chunk := s.body.chunk, name := s.body.name })
          { s with body := outer, enclosing, journal := s.journal.record (.functionEnded (s.heap.functionText
            { arity := s.body.arity, chunk := s.body.chunk, name := s.body.name }) s.body.arity) }
        simp only [hj]
        exact ⟨_, rfl⟩
      · exact ⟨_, rfl⟩

theorem closeFunction_eq (s : CompileState) :
    ∃ body enclosing journal,
      s.closeFunction = (⟨s.heap.cells.size⟩, { s with
        body
        enclosing
        heap := (s.heap.allocate (.function
          { arity := s.body.arity, chunk := s.body.chunk, name := s.body.name })).1
        journal }) ∧
      ∀ outer others, s.enclosing = outer :: others → body = outer ∧ enclosing = others := by
  obtain ⟨journal, heq⟩ := s.closeFunction_turn
  refine ⟨_, _, journal, heq, fun outer others h => ?_⟩
  rw [h]
  exact ⟨rfl, rfl⟩

theorem intern_findings (chars : String) (s : CompileState) :
    (s.intern chars).2.findings = s.findings ∧ (s.intern chars).2.panicking = s.panicking := by
  unfold intern
  simp only
  split <;> exact ⟨rfl, rfl⟩

/-- A move never takes a finding back, and panics only with a finding. -/
theorem Move.sane {s t : CompileState} (m : s.Move t) :
    (s.findings ≠ [] → t.findings ≠ []) ∧ (s.Sane → t.Sane) := by
  cases m with
  | advance =>
      have hfound : s.findings ≠ [] → s.advance.findings ≠ [] :=
        pull_keeps (P := fun t => t.findings ≠ []) (fun _ _ _ h => h) findings_complainAt s.rest
          (s := { s with previous := s.current })
      have hsane : s.Sane → s.advance.Sane :=
        pull_keeps (P := Sane) (fun _ _ _ h => h) sane_complainAt s.rest (s := { s with previous := s.current })
      exact ⟨hfound, hsane⟩
  | complain token complaint => exact ⟨findings_complainAt token complaint, sane_complainAt token complaint⟩
  | calm => exact ⟨id, fun _ => nofun⟩
  | code c h => exact ⟨id, id⟩
  | scope scope => exact ⟨id, id⟩
  | parameter => exact ⟨id, id⟩
  | number x => exact ⟨id, id⟩
  | text chars | literal chars =>
      show (_ → (s.intern chars).2.findings ≠ []) ∧ (_ → (s.intern chars).2.Sane)
      unfold Sane
      rw [(s.intern_findings chars).1, (s.intern_findings chars).2]
      exact ⟨id, id⟩
  | opened name => exact ⟨id, id⟩
  | closed =>
      obtain ⟨body, enclosing, journal, heq, -⟩ := s.closeFunction_eq
      rw [heq]
      exact ⟨id, id⟩

theorem Moves.sane {s t : CompileState} (h : Moves s t) (hs : s.Sane) : t.Sane :=
  h.keeps (fun m => m.sane.2) hs

theorem Moves.findings {s t : CompileState} (h : Moves s t) (hs : s.findings ≠ []) : t.findings ≠ [] :=
  h.keeps (P := fun u => u.findings ≠ []) (fun m => m.sane.1) hs

end CompileState

namespace Compiler

variable {s s' : CompileState}

/-- Without a finding there is no panic to get over. -/
theorem synchronize_clean {budget : Nat} (h : (synchronize budget).run s = .ok () s') (hs : s.Sane)
    (hc : s'.Clean) : s = s' := by
  unfold synchronize at h
  obtain ⟨s₂, s₃, h₂, h⟩ := run_bind_eq_ok.mp h
  cases h₂
  split at h
  · next hpan =>
      obtain ⟨_, s₁, h₁, h⟩ := run_bind_eq_ok.mp h
      cases h₁
      have := (byMoves_skipStatement budget _ _ _ h).findings (hs hpan)
      exact absurd hc.1 this
  · cases h
    rfl

end Compiler

/-- The state after the code of a statement that was read from the tokens and declares `inner`. -/
structure Stated (scope inner : List String) (s s' : CompileState) (ts : List Token) (st : Stmt) : Prop where
  grows : s.body.scope.Extends s'.body.scope inner
  names : s'.body.scope.Names (inner ++ scope)
  code : ∃ sp, Adds s s' ts sp st.functions ∧
    st.Laid (decide (s.body.scope.depth = 0)) scope s.body.chunk.size sp s'.body.chunk.size (inner ++ scope)

theorem Stated.ready {scope inner : List String} {s s' : CompileState} {ts : List Token} {st : Stmt}
    (h : Stated scope inner s s' ts st) (hr : s.Ready) : s'.Ready := by
  obtain ⟨sp, ha, -⟩ := h.code
  exact ha.ready hr

theorem Scope.Extends.eq_of_nil {scope scope' : Scope} (h : scope.Extends scope' []) : scope' = scope := by
  obtain ⟨new, hnew, hnames, -⟩ := h.locals
  obtain rfl := List.map_eq_nil_iff.mp hnames
  obtain ⟨locals, depth⟩ := scope
  obtain ⟨locals', depth'⟩ := scope'
  have hd : depth' = depth := h.depth
  have hl : locals' = locals := hnew
  rw [hd, hl]

/-- A statement that leaves the variables as they were. -/
theorem stated_of_same {scope : List String} {s s' : CompileState} {ts : List Token} {st : Stmt}
    {sp : List Spot} (hs : s'.body.scope = s.body.scope) (hn : s.body.scope.Names scope)
    (ha : Adds s s' ts sp st.functions)
    (hl : st.Laid (decide (s.body.scope.depth = 0)) scope s.body.chunk.size sp s'.body.chunk.size scope) :
    Stated scope [] s s' ts st := ⟨hs ▸ .refl _, hs ▸ hn, sp, ha, hl⟩

/-- A statement whose first token is taken beforehand. -/
theorem Stated.of_took {scope inner : List String} {s₀ s s' : CompileState} {ts : List Token} {st : Stmt}
    (h : Stated scope inner s s' ts st) (ht : Took s₀ s) : Stated scope inner s₀ s' (s₀.current :: ts) st := by
  obtain ⟨hg, hn, sp, ha, hl⟩ := h
  rw [ht.body] at hg hl
  exact ⟨hg, hn, sp, ht.adds.trans ha, hl⟩

namespace Compiler

variable {s s' : CompileState}

/-- A rule that reads a statement. -/
def StatementSpec (x : Compiler Unit) : Prop :=
  ∀ s s', s.Sane → x.run s = .ok () s' → s'.Clean → s.Clean ∧
    ∀ scope, s.Ready → s.body.scope.Names scope →
      ∃ ts st o, Stated scope [] s s' ts st ∧ Stmt.Reads o ts st ∧ (o = true → s'.current.kind ≠ .elseWord)

/-- A rule that reads a statement whose first word has been taken. -/
def KeywordSpec (k : TokenKind) (x : Compiler Unit) : Prop :=
  ∀ s s', s.Sane → x.run s = .ok () s' → s'.Clean → s.Clean ∧
    ∀ scope s₀, s₀.Ready → s₀.body.scope.Names scope → Took s₀ s → s₀.current.kind = k →
      ∃ ts st o, Stated scope [] s₀ s' ts st ∧ Stmt.Reads o ts st ∧ (o = true → s'.current.kind ≠ .elseWord)

/-! ### Statements with a value -/

/-- An expression, a semicolon, and an instruction that uses the value. -/
theorem value_clean {budget : Nat} {what : Expectation} {op : Opcode} (hop : op.operandSize = 0)
    (h : (do expression budget; expect .semicolon what; emit op : Compiler Unit).run s = .ok () s')
    (hc : s'.Clean) :
    s.Clean ∧ ∀ scope, s.Ready → s.body.scope.Resolves scope →
      ∃ ts e u sp m, Expr.Reads .assignment ts e ∧ u.kind = .semicolon ∧ s'.body.scope = s.body.scope ∧
        Adds s s' (ts ++ [u]) (sp ++ [⟨m, .plain op, scope, 1⟩]) [] ∧
        Expr.Laid scope 0 s.body.chunk.size e sp m ∧ s'.body.chunk.size = m + 1 := by
  obtain ⟨_, s₁, h₁, h⟩ := run_bind_eq_ok.mp h
  obtain ⟨_, s₂, h₂, h⟩ := run_bind_eq_ok.mp h
  obtain ⟨hc₂, hw⟩ := emit_clean h hop hc
  obtain ⟨hc₁, hk, ht⟩ := expect_clean h₂ (by decide) hc₂
  obtain ⟨hc₀, hspec⟩ := expression_spec budget s s₁ h₁ hc₁
  refine ⟨hc₀, fun scope hr hs => ?_⟩
  obtain ⟨ts, e, hcomp, hreads, -⟩ := hspec scope 0 (by decide) hr hs
  obtain ⟨sp, ha, hl⟩ := hcomp.code
  refine ⟨ts, e, s₁.current, sp, s₁.body.chunk.size, hreads, hk, ?_, ?_, hl, ?_⟩
  · rw [hw.scope, ht.body, hcomp.same]
  · have := hw.adds scope 1
    rw [ht.body] at this
    simpa using ha.trans (ht.adds.trans this)
  · rw [hw.size, ht.body]
    rfl

theorem expressionStatement_spec (budget : Nat) : StatementSpec (expressionStatement budget) := by
  intro s s' _ h hc
  obtain ⟨hc₀, hspec⟩ := value_clean rfl h hc
  refine ⟨hc₀, fun scope hr hn => ?_⟩
  obtain ⟨ts, e, u, sp, m, hreads, hu, hsame, ha, hl, hsize⟩ := hspec scope hr hn.resolves
  refine ⟨ts ++ [u], .expression e, false, stated_of_same hsame hn ha ?_, .expression hreads hu, nofun⟩
  rw [hsize]
  exact .expression hl

theorem printStatement_spec (budget : Nat) : KeywordSpec .printWord (printStatement budget) := by
  intro s s' _ h hc
  obtain ⟨hc₀, hspec⟩ := value_clean rfl h hc
  refine ⟨hc₀, fun scope s₀ hr hn ht hk => ?_⟩
  obtain ⟨ts, e, u, sp, m, hreads, hu, hsame, ha, hl, hsize⟩ :=
    hspec scope (ht.adds.ready hr) (by rw [ht.body]; exact hn.resolves)
  refine ⟨s₀.current :: (ts ++ [u]), .print e, false,
    stated_of_same (by rw [hsame, ht.body]) hn (ht.adds.trans ha) ?_, .print hk hreads hu, nofun⟩
  rw [hsize, ← ht.body]
  exact .print hl

theorem returnStatement_spec (budget : Nat) : KeywordSpec .returnWord (returnStatement budget) := by
  intro s s' _ h hc
  unfold returnStatement at h
  obtain ⟨b, s₁, h₁, h⟩ := run_bind_eq_ok.mp h
  rcases accept_cases h₁ with ⟨rfl, hk₁, h₁'⟩ | ⟨rfl, hk₁, rfl⟩
  · obtain ⟨hc₁, s₂, hw₁, hw₂⟩ := emitReturn_clean h hc
    obtain ⟨hc₀, ht₁⟩ := advance_clean h₁' (by rw [hk₁]; decide) hc₁
    refine ⟨hc₀, fun scope s₀ hr hn ht hk => ?_⟩
    have hadds := ht.adds.trans (ht₁.adds.trans ((hw₁.adds scope 0).trans (hw₂.adds scope 1)))
    rw [hw₁.size, ht₁.body, ht.body] at hadds
    refine ⟨[s₀.current, s.current], .ret .nil, false, stated_of_same ?_ hn hadds ?_, .leave hk hk₁, nofun⟩
    · rw [hw₂.scope, hw₁.scope, ht₁.body, ht.body]
    · rw [hw₂.size, hw₁.size, ht₁.body, ht.body]
      exact .ret .nil
  · obtain ⟨hc₀, hspec⟩ := value_clean rfl h hc
    refine ⟨hc₀, fun scope s₀ hr hn ht hk => ?_⟩
    obtain ⟨ts, e, u, sp, m, hreads, hu, hsame, ha, hl, hsize⟩ :=
      hspec scope (ht.adds.ready hr) (by rw [ht.body]; exact hn.resolves)
    refine ⟨s₀.current :: (ts ++ [u]), .ret e, false,
      stated_of_same (by rw [hsame, ht.body]) hn (ht.adds.trans ha) ?_, .ret hk hreads hu, nofun⟩
    rw [hsize, ← ht.body]
    exact .ret hl

/-! ### Variables -/

theorem defineVariable_clean {i : Nat} (h : (defineVariable i).run s = .ok () s') (hc : s'.Clean) :
    s.Clean ∧ s'.current = s.current ∧
      (0 < s.body.scope.depth → s'.body.scope = s.body.scope.markInitialized ∧
        s'.body.chunk.size = s.body.chunk.size ∧ Adds s s' [] [] []) ∧
      (s.body.scope.depth = 0 → ∀ name v, i < 256 → s.body.chunk.FirstAt i v →
        (Literal.text name).Denotes s.heap v → Wrote s s' (.defineGlobal name)) := by
  unfold defineVariable at h
  obtain ⟨s₂, s₃, h₂, h⟩ := run_bind_eq_ok.mp h
  cases h₂
  split at h
  · next hlocal =>
      obtain ⟨hcl, ha, hcur, -, hchunk, -, hscope⟩ := markInitialized_spec h
      refine ⟨hcl hc, hcur, fun _ => ⟨hscope, by rw [hchunk], ha⟩, fun h0 => ?_⟩
      simp [Scope.isLocal, h0] at hlocal
  · next hlocal =>
      obtain ⟨hc₀, hw⟩ := emitByte_clean h hc
      refine ⟨hc₀, by cases h; rfl, fun hpos => ?_, fun _ name v hi hv hd => ?_⟩
      · simp [Scope.isLocal, hpos] at hlocal
      · refine hw (.defineGlobal name) rfl rfl fun c hg hb => ?_
        exact ⟨_, v, hb, by rw [toNat_toUInt8 hi]; exact hv.grow hg, hd⟩

/-- A variable is declared, and it can join the names in scope or be defined as global. -/
structure Declared (scope : List String) (name : String) (i : Nat) (s s₁ : CompileState) : Prop where
  depth : s₁.body.scope.depth = s.body.scope.depth
  global : s.body.scope.depth = 0 → s₁.body.scope = s.body.scope ∧ i < 256 ∧
    ∃ v, s₁.body.chunk.FirstAt i v ∧ (Literal.text name).Denotes s₁.heap v
  marked : 0 < s.body.scope.depth → s.body.scope.Extends s₁.body.scope.markInitialized [name] ∧
    s₁.body.scope.markInitialized.Names (name :: scope)

theorem declareName_declared {what : Expectation} {i : Nat} (h : (declareName what).run s = .ok i s')
    (hc : s'.Clean) :
    s.Clean ∧ s.current.kind = .identifier ∧ Adds s s' [s.current] [] [] ∧
      s'.body.chunk.size = s.body.chunk.size ∧ s'.previous = s.current ∧
      ∀ scope s₀, s.body = s₀.body → s.Ready → s₀.body.scope.Names scope →
        s'.body.scope.Resolves scope ∧ Declared scope s.current.lexeme i s₀ s' := by
  obtain ⟨hc₀, hk, ha, hsize, hprev, hscope⟩ := declareName_clean h hc
  refine ⟨hc₀, hk, ha, hsize, hprev, fun scope s₀ hb hr hn => ?_⟩
  rw [hb] at hscope
  rcases hscope with ⟨hpos, hlen, heq⟩ | ⟨h0, heq, hi, hconst⟩
  · refine ⟨heq ▸ hn.resolves_declared _ _, by rw [heq], fun h0 => by omega, fun _ => ?_⟩
    rw [heq, markInitialized_declared hpos]
    refine ⟨⟨rfl, ⟨[_], rfl, rfl, ?_⟩, fun h0 => by omega⟩, hn.declared hlen _⟩
    intro l hl
    obtain rfl := List.mem_singleton.mp hl
    rfl
  · exact ⟨heq ▸ hn.resolves, by rw [heq], fun _ => ⟨heq, hi, hconst hr.heap⟩, fun hpos => by omega⟩

/-- A declared variable takes its value: it joins the names in scope, or it is defined as global. -/
theorem Declared.define {scope : List String} {name : String} {i : Nat} {s₀ s₁ : CompileState}
    {ts : List Token} {sp : List Spot} {fs : List (Handle × Routine)} {st : Stmt}
    (hd : Declared scope name i s₀ s₁) (hn : s₀.body.scope.Names scope)
    (hdef : (defineVariable i).run s = .ok () s') (hc : s'.Clean) (hsame : s.body.scope = s₁.body.scope)
    (hg : s₁.body.chunk.Grows s.body.chunk) (hh : s₁.heap.Grows s.heap) (ha : Adds s₀ s ts sp fs)
    (hfs : st.functions = fs)
    (hlocal : Stmt.Laid false scope s₀.body.chunk.size st sp s.body.chunk.size (name :: scope))
    (hglobal : Stmt.Laid true scope s₀.body.chunk.size st
      (sp ++ [⟨s.body.chunk.size, .defineGlobal name, scope, 1⟩]) (s.body.chunk.size + 2) scope) :
    ∃ inner, Stated scope inner s₀ s' ts st := by
  subst hfs
  obtain ⟨-, -, hloc, hglob⟩ := defineVariable_clean hdef hc
  rw [hsame, hd.depth] at hloc hglob
  by_cases h0 : s₀.body.scope.depth = 0
  · obtain ⟨heq, hi, v, hv, hden⟩ := hd.global h0
    have hw := hglob h0 name v hi (hv.grow hg) (hden.mono hh.keeps)
    refine ⟨[], stated_of_same ?_ hn (by simpa using ha.trans (hw.adds scope 1)) ?_⟩
    · rw [hw.scope, hsame, heq]
    · rw [hw.size, decide_eq_true h0]
      exact hglobal
  · obtain ⟨hscope, hsize, hadds⟩ := hloc (by omega)
    obtain ⟨hext, hnames⟩ := hd.marked (by omega)
    rw [← hscope] at hext hnames
    refine ⟨[name], hext, hnames, sp, by simpa using ha.trans hadds, ?_⟩
    rw [hsize, decide_eq_false h0]
    exact hlocal

/-- A rule that reads a declaration whose first word has been taken. -/
def DeclarationSpec (k : TokenKind) (reads : List Token → Stmt → Prop) (x : Compiler Unit) : Prop :=
  ∀ s s', s.Sane → x.run s = .ok () s' → s'.Clean → s.Clean ∧
    ∀ scope s₀, s₀.Ready → s₀.body.scope.Names scope → Took s₀ s → s₀.current.kind = k →
      ∃ ts st inner, Stated scope inner s₀ s' ts st ∧ reads ts st

theorem varDeclaration_spec (budget : Nat) :
    DeclarationSpec .varWord VarReads (varDeclaration budget) := by
  intro s s' _ h hc
  unfold varDeclaration at h
  obtain ⟨i, s₁, h₁, h⟩ := run_bind_eq_ok.mp h
  obtain ⟨b, s₂, h₂, h⟩ := run_bind_eq_ok.mp h
  rcases accept_cases h₂ with ⟨rfl, hk₂, h₂'⟩ | ⟨rfl, hk₂, rfl⟩
  · obtain ⟨_, s₃, h₃, h⟩ := run_bind_eq_ok.mp h
    obtain ⟨_, s₄, h₄, h⟩ := run_bind_eq_ok.mp h
    obtain ⟨hc₄, -, -, -⟩ := defineVariable_clean h hc
    obtain ⟨hc₃, hk₄, ht₄⟩ := expect_clean h₄ (by decide) hc₄
    obtain ⟨hc₂, hspec⟩ := expression_spec budget s₂ s₃ h₃ hc₃
    obtain ⟨hc₁, ht₂⟩ := advance_clean h₂' (by rw [hk₂]; decide) hc₂
    obtain ⟨hc₀, hk₁, ha₁, hsize₁, -, hdecl⟩ := declareName_declared h₁ hc₁
    refine ⟨hc₀, fun scope s₀ hr hn ht hk => ?_⟩
    obtain ⟨hres, hd⟩ := hdecl scope s₀ ht.body (ht.adds.ready hr) hn
    obtain ⟨ts, e, hcomp, hreads, -⟩ := hspec scope 0 (by decide)
      (ht₂.adds.ready (ha₁.ready (ht.adds.ready hr))) (by rw [ht₂.body]; exact hres)
    obtain ⟨sp, ha, hl⟩ := hcomp.code
    rw [ht₂.body, hsize₁, ht.body] at hl
    obtain ⟨inner, hstated⟩ : ∃ inner, Stated scope inner s₀ s' _ (.var s.current.lexeme e) := hd.define hn h hc
      (by rw [ht₄.body, hcomp.same, ht₂.body]) (by rw [ht₄.body, ← ht₂.body]; exact ha.chunk)
      (by rw [ht₄.heap, ← ht₂.heap]; exact ha.heap)
      (ht.adds.trans (ha₁.trans (ht₂.adds.trans (ha.trans ht₄.adds)))) rfl
      (by simpa [ht₄.body] using .varLocal hl) (by simpa [ht₄.body] using .varGlobal hl)
    exact ⟨_, _, inner, hstated, .value hk hk₁ hk₂ hreads hk₄⟩
  · obtain ⟨_, s₃, h₃, h⟩ := run_bind_eq_ok.mp h
    obtain ⟨_, s₄, h₄, h⟩ := run_bind_eq_ok.mp h
    obtain ⟨hc₄, -, -, -⟩ := defineVariable_clean h hc
    obtain ⟨hc₃, hk₄, ht₄⟩ := expect_clean h₄ (by decide) hc₄
    obtain ⟨hc₁, hw⟩ := emit_clean h₃ rfl hc₃
    obtain ⟨hc₀, hk₁, ha₁, hsize₁, -, hdecl⟩ := declareName_declared h₁ hc₁
    refine ⟨hc₀, fun scope s₀ hr hn ht hk => ?_⟩
    obtain ⟨-, hd⟩ := hdecl scope s₀ ht.body (ht.adds.ready hr) hn
    have hadds := ht.adds.trans (ha₁.trans ((hw.adds scope 0).trans ht₄.adds))
    rw [hsize₁, ht.body] at hadds
    have hsize : s₄.body.chunk.size = s₀.body.chunk.size + 1 := by
      rw [ht₄.body, hw.size, hsize₁, ht.body]
      rfl
    obtain ⟨inner, hstated⟩ : ∃ inner, Stated scope inner s₀ s' _ (.var s.current.lexeme .nil) := hd.define hn h hc
      (by rw [ht₄.body, hw.scope]) (by rw [ht₄.body]; exact (hw.adds scope 0).chunk)
      (by rw [ht₄.heap]; exact (hw.adds scope 0).heap) hadds rfl
      (by rw [hsize]; exact .varLocal .nil) (by rw [hsize]; exact .varGlobal .nil)
    exact ⟨_, _, inner, hstated, .bare hk hk₁ hk₄⟩

/-! ### Functions -/

/-- The state after the parameters of a function. -/
structure Params (scope : List String) (s s' : CompileState) (ts : List Token) (names : List String) :
    Prop where
  tokens : Takes s s' ts
  makes : s.heap.Makes s'.heap []
  size : s'.body.chunk.size = s.body.chunk.size
  name : s'.body.name = s.body.name
  arity : s'.body.arity = s.body.arity + names.length
  enclosing : s'.enclosing = s.enclosing
  names : s'.body.scope.Names (names.reverse ++ scope)
  depth : s'.body.scope.depth = s.body.scope.depth

theorem Params.ready {scope : List String} {ts : List Token} {names : List String}
    (h : Params scope s s' ts names) (hr : s.Ready) : s'.Ready := by
  obtain ⟨us, hu⟩ := hr.ahead
  obtain ⟨us', -, hu'⟩ := h.tokens us hu
  exact ⟨⟨us', hu'⟩, h.makes.grows.interned hr.heap⟩

theorem countParameter_clean (h : countParameter.run s = .ok () s') (hc : s'.Clean) :
    s.Clean ∧ s' = { s with body := { s.body with arity := s.body.arity + 1 } } := by
  unfold countParameter at h
  obtain ⟨s₂, s₃, h₂, h⟩ := run_bind_eq_ok.mp h
  cases h₂
  split at h
  · exact absurd hc (complainHere_not_clean h)
  · cases h
    exact ⟨hc, rfl⟩

/-- One parameter: it is counted, named, and may be read at once. -/
theorem parameter_clean {s₁ s₂ : CompileState} {i : Nat} (h₁ : countParameter.run s = .ok () s₁)
    (h₂ : (declareName .parameterName).run s₁ = .ok i s₂) (h₃ : (defineVariable i).run s₂ = .ok () s')
    (hc : s'.Clean) :
    s.Clean ∧ s.current.kind = .identifier ∧ ∀ scope, s.Ready → s.body.scope.Names scope →
      0 < s.body.scope.depth → s'.Ready ∧ Params scope s s' [s.current] [s.current.lexeme] := by
  obtain ⟨hc₂, -, hloc, -⟩ := defineVariable_clean h₃ hc
  obtain ⟨hc₁, hk, ha, hsize, -, hdecl⟩ := declareName_declared h₂ hc₂
  obtain ⟨hc₀, rfl⟩ := countParameter_clean h₁ hc₁
  refine ⟨hc₀, hk, fun scope hr hn hpos => ?_⟩
  have hcount : Takes s { s with body := { s.body with arity := s.body.arity + 1 } } [] :=
    fun us hu => ⟨us, rfl, hu.congr rfl rfl⟩
  have hready : CompileState.Ready { s with body := { s.body with arity := s.body.arity + 1 } } := by
    obtain ⟨us, hu⟩ := hr.ahead
    exact ⟨⟨us, hu.congr rfl rfl⟩, hr.heap⟩
  obtain ⟨-, hd⟩ := hdecl scope _ rfl hready hn
  obtain ⟨hext, hnames⟩ := hd.marked hpos
  obtain ⟨hscope, hsize', ha'⟩ := hloc (by rw [hd.depth]; exact hpos)
  rw [← hscope] at hext hnames
  have hadds := ha.trans ha'
  refine ⟨hadds.ready hready, hcount.trans hadds.tokens, hadds.makes, hsize'.trans hsize, hadds.name, ?_,
    hadds.enclosing, hnames, hext.depth⟩
  exact hadds.arity

theorem parameters_spec (budget : Nat) :
    ∀ s s', (parameters budget).run s = .ok () s' → s'.Clean → s.Clean ∧
      ∀ scope, s.Ready → s.body.scope.Names scope → 0 < s.body.scope.depth →
        ∃ ts name names, Params scope s s' ts (name :: names) ∧ ParamsRead ts (name :: names) := by
  induction budget with
  | zero => exact fun _ _ h => absurd h run_throw_ne_ok
  | succ budget ih =>
      intro s s' h hc
      rw [parameters] at h
      obtain ⟨_, s₁, h₁, h⟩ := run_bind_eq_ok.mp h
      obtain ⟨i, s₂, h₂, h⟩ := run_bind_eq_ok.mp h
      obtain ⟨_, s₃, h₃, h⟩ := run_bind_eq_ok.mp h
      obtain ⟨b, s₄, h₄, h⟩ := run_bind_eq_ok.mp h
      rcases accept_cases h₄ with ⟨rfl, hk₄, h₄'⟩ | ⟨rfl, hk₄, rfl⟩
      · obtain ⟨hc₄, hspec⟩ := ih s₄ s' h hc
        obtain ⟨hc₃, ht⟩ := advance_clean h₄' (by rw [hk₄]; decide) hc₄
        obtain ⟨hc₀, hk, hone⟩ := parameter_clean h₁ h₂ h₃ hc₃
        refine ⟨hc₀, fun scope hr hn hpos => ?_⟩
        obtain ⟨hr₃, hp⟩ := hone scope hr hn hpos
        obtain ⟨ts, name, names, hps, hreads⟩ := hspec (s.current.lexeme :: scope) (ht.adds.ready hr₃)
          (by rw [ht.body]; exact hp.names) (by rw [ht.body, hp.depth]; exact hpos)
        refine ⟨s.current :: s₃.current :: ts, s.current.lexeme, name :: names, ⟨?_, ?_, ?_, ?_, ?_, ?_, ?_, ?_⟩,
          .cons hk hk₄ hreads⟩
        · exact hp.tokens.trans (ht.adds.tokens.trans hps.tokens)
        · exact hp.makes.trans (ht.adds.makes.trans hps.makes)
        · rw [hps.size, ht.body, hp.size]
        · rw [hps.name, ht.body, hp.name]
        · rw [hps.arity, ht.body, hp.arity]
          simp only [List.length_cons, List.length_nil]
          omega
        · rw [hps.enclosing, ht.adds.enclosing, hp.enclosing]
        · have := hps.names
          simpa using this
        · rw [hps.depth, ht.body, hp.depth]
      · cases h
        obtain ⟨hc₀, hk, hone⟩ := parameter_clean h₁ h₂ h₃ hc
        refine ⟨hc₀, fun scope hr hn hpos => ?_⟩
        exact ⟨_, _, [], (hone scope hr hn hpos).2, .last hk⟩

/-- A rule that reads declarations up to a closing brace. -/
def BlockSpec (x : Compiler Unit) : Prop :=
  ∀ s s', s.Sane → x.run s = .ok () s' → s'.Clean → s.Clean ∧
    ∀ scope, s.Ready → s.body.scope.Names scope →
      ∃ ts u b inner sp, Block.Reads ts b ∧ u.kind = .rightBrace ∧ s.body.scope.Extends s'.body.scope inner ∧
        s'.body.scope.Names (inner ++ scope) ∧ Adds s s' (ts ++ [u]) sp b.functions ∧
        b.Laid (decide (s.body.scope.depth = 0)) scope s.body.chunk.size sp s'.body.chunk.size (inner ++ scope)

/-- A rule that reads the parameters and the body of a function, and pushes the function. -/
def FunctionSpec (x : Compiler Unit) : Prop :=
  ∀ s s', s.Sane → x.run s = .ok () s' → s'.Clean → s.Clean ∧ (s.Ready →
    ∃ v ps w x bs y params body label wide, v.kind = .leftParen ∧ ParamsRead ps params ∧
      w.kind = .rightParen ∧ x.kind = .leftBrace ∧ Block.Reads bs body ∧ y.kind = .rightBrace ∧
      s'.body.scope = s.body.scope ∧
      s'.body.chunk.size = s.body.chunk.size + (Instr.constant (.function label) wide).size ∧
      ∀ scope t, Adds s s' (v :: (ps ++ w :: x :: (bs ++ [y])))
        [⟨s.body.chunk.size, .constant (.function label) wide, scope, t⟩]
        (body.functions ++ [(label, ⟨some s.previous.lexeme, params, body⟩)]))

end Compiler

end Lox
