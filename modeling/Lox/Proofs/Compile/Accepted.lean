import Lox.Proofs.Compile.Control

/-! A source that is accepted. The rules for statements and declarations call one another; each is accounted
for by induction on the budget. Read from the first token to the last, the source is a program of the grammar,
and the functions that compiling it makes are the code of the program and of the functions it declares. -/

namespace Lox

open CompileState

/-- A declaration and then a sequence are a sequence. -/
theorem Stated.cons {scope inner more : List String} {s s₁ s' : CompileState} {ts us : List Token}
    {st : Stmt} {b : Block} {sp : List Spot} (hst : Stated scope inner s s₁ ts st)
    (hg : s₁.body.scope.Extends s'.body.scope more)
    (ha : Adds s₁ s' us sp b.functions)
    (hl : b.Laid (decide (s₁.body.scope.depth = 0)) (inner ++ scope) s₁.body.chunk.size sp s'.body.chunk.size
      (more ++ (inner ++ scope))) :
    s.body.scope.Extends s'.body.scope (more ++ inner) ∧ ∃ sq, Adds s s' (ts ++ us) sq (Block.cons st b).functions ∧
      (Block.cons st b).Laid (decide (s.body.scope.depth = 0)) scope s.body.chunk.size sq s'.body.chunk.size
        (more ++ inner ++ scope) := by
  obtain ⟨hg₁, hn₁, sp₁, ha₁, hl₁⟩ := hst
  rw [hg₁.depth] at hl
  refine ⟨hg₁.trans hg, _, ha₁.trans ha, .cons hl₁ ?_⟩
  rw [List.append_assoc]
  exact hl

namespace Compiler

variable {s s' : CompileState}

/-- A rule that reads a declaration or a statement. -/
def DeclaresSpec (x : Compiler Unit) : Prop :=
  ∀ s s', s.Sane → x.run s = .ok () s' → s'.Clean → s.Clean ∧
    ∀ scope, s.Ready → s.body.scope.Names scope →
      ∃ ts st inner, Stated scope inner s s' ts st ∧ DeclarationReads ts st

/-! ### Branches on the first word -/

theorem statement_branch {k : TokenKind} {x y : Compiler Unit} (hk : k ≠ .eof) (hx : KeywordSpec k x)
    (hy : StatementSpec y) : StatementSpec (do if ← accept k then x else y) := by
  intro s s' hsane h hc
  obtain ⟨b, s₁, h₁, h⟩ := run_bind_eq_ok.mp h
  have hsane₁ := (byMoves_accept _ _ _ _ h₁).sane hsane
  rcases accept_cases h₁ with ⟨rfl, hcur, h₁'⟩ | ⟨rfl, hcur, rfl⟩
  · obtain ⟨hc₁, hspec⟩ := hx s₁ s' hsane₁ h hc
    obtain ⟨hc₀, ht⟩ := advance_clean h₁' (by rw [hcur]; exact hk) hc₁
    exact ⟨hc₀, fun scope hr hn => hspec scope s hr hn ht hcur⟩
  · exact hy s s' hsane h hc

theorem declaration_branch {k : TokenKind} {x y : Compiler Unit} {reads : List Token → Stmt → Prop} {budget : Nat}
    (hk : k ≠ .eof) (hm : ByMoves x) (hx : DeclarationSpec k reads x)
    (hreads : ∀ ts st, reads ts st → DeclarationReads ts st) (hy : DeclaresSpec y) :
    DeclaresSpec (do
      if ← accept k then
        x
        synchronize budget
      else y) := by
  intro s s' hsane h hc
  obtain ⟨b, s₁, h₁, h⟩ := run_bind_eq_ok.mp h
  have hsane₁ := (byMoves_accept _ _ _ _ h₁).sane hsane
  rcases accept_cases h₁ with ⟨rfl, hcur, h₁'⟩ | ⟨rfl, hcur, rfl⟩
  · obtain ⟨_, s₂, h₂, h⟩ := run_bind_eq_ok.mp h
    obtain rfl := synchronize_clean h ((hm _ _ _ h₂).sane hsane₁) hc
    obtain ⟨hc₁, hspec⟩ := hx s₁ s₂ hsane₁ h₂ hc
    obtain ⟨hc₀, ht⟩ := advance_clean h₁' (by rw [hcur]; exact hk) hc₁
    refine ⟨hc₀, fun scope hr hn => ?_⟩
    obtain ⟨ts, st, inner, hst, hr'⟩ := hspec scope s hr hn ht hcur
    exact ⟨ts, st, inner, hst, hreads ts st hr'⟩
  · exact hy s s' hsane h hc

theorem unsupported_spec :
    DeclarationSpec .classWord (fun _ _ => False) (complain .classesUnsupported) :=
  fun _ _ _ h hc => absurd hc (complain_not_clean h)

/-- A statement is a declaration that declares nothing. -/
theorem statement_declares {x : Compiler Unit} {budget : Nat} (hm : ByMoves x) (hx : StatementSpec x) :
    DeclaresSpec (do x; synchronize budget) := by
  intro s s' hsane h hc
  obtain ⟨_, s₁, h₁, h⟩ := run_bind_eq_ok.mp h
  obtain rfl := synchronize_clean h ((hm _ _ _ h₁).sane hsane) hc
  obtain ⟨hc₀, hspec⟩ := hx s s₁ hsane h₁ hc
  refine ⟨hc₀, fun scope hr hn => ?_⟩
  obtain ⟨ts, st, o, hst, hreads, -⟩ := hspec scope hr hn
  exact ⟨ts, st, [], hst, fun us rest hrest => .statement hreads hrest⟩

/-! ### Sequences -/

theorem block_spec {budget : Nat} (hx : DeclaresSpec (declaration budget)) (hb : BlockSpec (block budget)) :
    BlockSpec (block (budget + 1)) := by
  intro s s' hsane h hc
  rw [block] at h
  obtain ⟨s₂, s₃, h₂, h⟩ := run_bind_eq_ok.mp h
  cases h₂
  split at h
  · obtain ⟨hc₀, hk, ht⟩ := expect_clean h (by decide) hc
    refine ⟨hc₀, fun scope hr hn => ⟨[], _, .nil, [], [], .nil, hk, ?_, ?_, ht.adds, ?_⟩⟩
    · rw [ht.body]
      exact .refl _
    · rw [ht.body]
      exact hn
    · rw [ht.body]
      exact .nil
  · obtain ⟨_, s₁, h₁, h⟩ := run_bind_eq_ok.mp h
    have hsane₁ := ((byMoves_statements _).1 _ _ _ h₁).sane hsane
    obtain ⟨hc₁, hrest⟩ := hb s₁ s' hsane₁ h hc
    obtain ⟨hc₀, hspec⟩ := hx s s₁ hsane h₁ hc₁
    refine ⟨hc₀, fun scope hr hn => ?_⟩
    obtain ⟨ts, st, inner, hst, hreads⟩ := hspec scope hr hn
    obtain ⟨us, u, b, more, sp, hb, hu, hg, hn', ha, hl⟩ := hrest (inner ++ scope) (hst.ready hr) hst.names
    obtain ⟨hext, sq, ha', hl'⟩ := hst.cons hg ha hl
    refine ⟨ts ++ us, u, .cons st b, more ++ inner, sq, hreads us b hb, hu, hext, ?_, by simpa using ha', hl'⟩
    rw [List.append_assoc]
    exact hn'

/-- All rules for statements and declarations, by induction on the budget. -/
theorem statements_spec (budget : Nat) :
    DeclaresSpec (declaration budget) ∧ DeclarationSpec .funWord DeclarationReads (funDeclaration budget) ∧
      FunctionSpec (functionBody budget) ∧ StatementSpec (statement budget) ∧ BlockSpec (block budget) ∧
      KeywordSpec .ifWord (ifStatement budget) ∧ KeywordSpec .whileWord (whileStatement budget) ∧
      KeywordSpec .forWord (forStatement budget) := by
  induction budget with
  | zero =>
      refine ⟨?_, ?_, ?_, ?_, ?_, ?_, ?_, ?_⟩ <;> exact fun _ _ _ h => absurd h run_throw_ne_ok
  | succ budget ih =>
      obtain ⟨hdecl, hfun, hbody, hstmt, hblock, hif, hwhile, hfor⟩ := ih
      have hmoves := byMoves_statements budget
      refine ⟨?_, funDeclaration_spec hbody, functionBody_spec hblock, ?_, block_spec hdecl hblock,
        ifStatement_spec hstmt, whileStatement_spec hstmt, forStatement_spec hstmt⟩
      · rw [declaration]
        exact declaration_branch (by decide) hmoves.2.1 hfun (fun _ _ => id)
          (declaration_branch (by decide) (byMoves_varDeclaration _) (varDeclaration_spec _)
            (fun _ _ hreads _ _ hrest => .var hreads hrest)
            (declaration_branch (by decide) (byMoves_complain _) unsupported_spec (fun _ _ => False.elim)
              (statement_declares hmoves.2.2.2.1 hstmt)))
      · rw [statement]
        exact statement_branch (by decide) (printStatement_spec _)
          (statement_branch (by decide) hfor
          (statement_branch (by decide) hif
          (statement_branch (by decide) (returnStatement_spec _)
          (statement_branch (by decide) hwhile
          (statement_branch (by decide) (blockStatement_spec hblock) (expressionStatement_spec _))))))

/-! ### Whole sources -/

/-- The declarations up to the end of the source. -/
theorem program_spec (budget : Nat) :
    ∀ s s', s.Sane → (program budget).run s = .ok () s' → s'.Clean → s.Clean ∧
      (s.Ready → s.body.scope.Names [] → s.body.scope.depth = 0 →
        ∃ ts b sp t, Block.Reads ts b ∧ Adds s t ts sp b.functions ∧ t.current.kind = .eof ∧
          s'.body = t.body ∧ s'.heap = t.heap ∧
          b.Laid true [] s.body.chunk.size sp t.body.chunk.size []) := by
  induction budget with
  | zero => exact fun _ _ _ h => absurd h run_throw_ne_ok
  | succ budget ih =>
      intro s s' hsane h hc
      rw [program] at h
      obtain ⟨b, s₁, h₁, h⟩ := run_bind_eq_ok.mp h
      rcases accept_cases h₁ with ⟨rfl, hcur, h₁'⟩ | ⟨rfl, hcur, rfl⟩
      · cases h
        cases h₁'
        obtain ⟨hb, -, hh, -, hcl⟩ := s.advance_frame
        exact ⟨hcl hc, fun _ _ _ => ⟨[], .nil, [], s, .nil, .refl s, hcur, hb, hh, .nil⟩⟩
      · obtain ⟨_, s₂, h₂, h⟩ := run_bind_eq_ok.mp h
        have hsane₂ := ((byMoves_statements _).1 _ _ _ h₂).sane hsane
        obtain ⟨hc₂, hrest⟩ := ih s₂ s' hsane₂ h hc
        obtain ⟨hc₀, hspec⟩ := (statements_spec budget).1 s s₂ hsane h₂ hc₂
        refine ⟨hc₀, fun hr hn h0 => ?_⟩
        obtain ⟨ts, st, inner, hst, hreads⟩ := hspec [] hr hn
        obtain rfl := hst.grows.top h0
        have hscope : s₂.body.scope = s.body.scope := hst.grows.eq_of_nil
        obtain ⟨us, b, sp, t, hb, ha, hk, hbody, hheap, hl⟩ := hrest (hst.ready hr) hst.names (by rw [hscope, h0])
        obtain ⟨sp₁, ha₁, hl₁⟩ := hst.code
        rw [decide_eq_true h0] at hl₁
        exact ⟨_, _, _, t, hreads us b hb, ha₁.trans ha, hk, hbody, hheap, .cons hl₁ hl⟩

end Compiler

/-- The end of an accepted source: the script becomes an object. -/
theorem CompileState.finish_eq_ok {s : CompileState} {script : Handle} (h : s.finish.result = .ok script) :
    s.findings = [] ∧ script = ⟨s.heap.cells.size⟩ ∧
      s.finish.heap = (s.heap.allocate (.function
        { arity := s.body.arity, chunk := s.body.chunk, name := s.body.name })).1 := by
  unfold finish at h ⊢
  split at h
  · next hf =>
      obtain ⟨journal, hj⟩ := listCode_eq s.body.chunk "<script>" s
      rw [if_pos hf]
      simp only [hj] at h ⊢
      cases h
      exact ⟨List.isEmpty_iff.mp hf, rfl, rfl⟩
  · cases h

/-- An accepted source reads as a program, and the functions made from it are the code of the program and of
the functions it declares. -/
theorem compile_accepted {source : String} {heap : Heap} {printCode : Bool} {journal : Journal} {c : Compilation}
    {script : Handle} (h : compile source heap printCode journal = .ok c) (hok : c.result = .ok script)
    (hi : heap.Interned) :
    ∃ p, Block.ReadsAll (tokenize source) p ∧ heap.Makes c.heap (p.functions ++ [(script, ⟨none, [], p⟩)]) := by
  obtain ⟨s, hrun, rfl⟩ := compile_eq_ok h
  obtain ⟨hf, rfl, hheap⟩ := finish_eq_ok hok
  obtain ⟨us, last, htok, hlast, hproper⟩ := tokenize_spec source
  obtain ⟨_, s₁, h₁, h₂⟩ := Compiler.run_bind_eq_ok.mp hrun
  obtain ⟨_, s₂, h₂, h₃⟩ := Compiler.run_bind_eq_ok.mp h₂
  -- nothing was found, so nothing is suppressed either
  have hsane : CompileState.Sane { rest := tokenize source, heap, printCode, journal } := nofun
  have hsane₁ := (Compiler.byMoves_advance _ _ _ h₁).sane hsane
  have hc : s.Clean := by
    refine ⟨hf, ?_⟩
    have := (Compiler.byMoves_read _ _ _ _ hrun).sane hsane
    by_contra hpan
    exact this (by simpa using hpan) hf
  obtain ⟨hc₂, t₁, hw₁, hw₂⟩ := Compiler.emitReturn_clean h₃ hc
  obtain ⟨hc₁, hspec⟩ := Compiler.program_spec _ s₁ s₂ hsane₁ h₂ hc₂
  cases h₁
  obtain ⟨hbody, henc, hheap₁, -, -⟩ := advance_frame { rest := tokenize source, heap, printCode, journal }
  have hahead := ahead_advance (s := { rest := tokenize source, heap, printCode, journal }) htok hlast hproper hc₁
  obtain ⟨ts, b, sp, t, hreads, ha, hk, hbody', hheap', hl⟩ := hspec ⟨⟨us, hahead⟩, by rw [hheap₁]; exact hi⟩
    (by rw [hbody]; exact Scope.names_start) (by rw [hbody]; rfl)
  obtain ⟨us', rfl, hus'⟩ := ha.tokens us hahead
  have hus : us' = [] := by
    cases hus' with
    | done => rfl
    | more hr hlast' hp => exact absurd hk (hp _ (List.mem_cons_self ..)).1
  rw [hbody] at hl
  have hret := (hw₁.adds [] 0).trans (hw₂.adds [] 1)
  rw [hw₁.size, Instr.size, hbody'] at hret
  have hheap₂ : s.heap.Makes s.finish.heap _ := hheap ▸ makes_body (r := ⟨none, [], b⟩)
    (by rw [hret.arity, hbody', ha.arity, hbody]; rfl)
    (by rw [hret.name, hbody', ha.name, hbody]; trivial) (.mk hl)
    (hl.contiguous.append ⟨rfl, rfl, by rw [hw₂.size, hw₁.size, hbody']; rfl⟩) (by
      intro p hp
      rcases List.mem_append.mp hp with hp | hp
      · have := ha.holds p hp
        rw [← hbody', ← hheap'] at this
        exact this.grow hret.chunk hret.heap.keeps
      · exact hret.holds p (by simpa using hp))
  refine ⟨b, ⟨ts, last, by rw [htok, hus, List.append_nil], hlast, hreads⟩, ?_⟩
  have hmakes := ha.makes
  rw [hheap₁, ← hheap'] at hmakes
  simpa using (hmakes.trans hret.makes).trans hheap₂

end Lox
