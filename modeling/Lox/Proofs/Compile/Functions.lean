import Lox.Proofs.Compile.Statements

/-! Function declarations of an accepted source. The body of a function is compiled into a chunk of its own,
with its own variables; when it ends, the function is made an object and the code around it goes on where it
was left. -/

namespace Lox

open CompileState

namespace CompileState

/-- Between turning to a new function and turning back, tokens are taken and objects are made for the
function around it; its code does not change. -/
theorem adds_function {s s₁ s₂ s' : CompileState} {ts : List Token} {fs gs : List (Handle × Routine)}
    (ht : Takes s₁ s₂ ts) (hm : s₁.heap.Makes s₂.heap fs) (hcur : s₁.current = s.current)
    (hrest : s₁.rest = s.rest) (hheap : s₁.heap = s.heap)
    (hend : s'.current = s₂.current ∧ s'.rest = s₂.rest ∧ s'.body = s.body ∧ s'.enclosing = s.enclosing)
    (hm' : s₂.heap.Makes s'.heap gs) : Adds s s' ts [] (fs ++ gs) := by
  obtain ⟨hcur', hrest', hbody, henc⟩ := hend
  refine ⟨fun us hu => ?_, hbody ▸ .refl _, (hheap ▸ hm).trans hm', by rw [hbody], by rw [hbody], henc, nofun⟩
  obtain ⟨us', hus, hu'⟩ := ht us (hu.congr hcur hrest)
  exact ⟨us', hus, hu'.congr hcur' hrest'⟩

/-- The innermost function becomes an object that is the code of a routine. -/
theorem makes_body {s : CompileState} {r : Routine} {code : List Spot} (ha : s.body.arity = r.params.length)
    (hn : NameHolds s.heap s.body.name r.name) (hl : r.Laid code)
    (hw : Contiguous 0 code s.body.chunk.size) (hp : ∀ p ∈ code, p.Holds s.heap s.body.chunk) :
    s.heap.Makes (s.heap.allocate (.function
      { arity := s.body.arity, chunk := s.body.chunk, name := s.body.name })).1 [(⟨s.heap.cells.size⟩, r)] := by
  have hkeeps := (Heap.grows_allocate s.heap (o := .function
    { arity := s.body.arity, chunk := s.body.chunk, name := s.body.name }) fun _ => nofun).keeps
  refine Heap.makes_allocate ⟨?_, ha, hn.mono hkeeps, hl, hw, fun p h => ?_⟩
  · rw [Heap.function?_eq_some_iff, Heap.get?_allocate, if_pos rfl]
  · exact (hp p h).grow (.refl _) hkeeps

end CompileState

namespace Compiler

variable {s s' : CompileState}

/-- The parameter list, which may be empty. -/
theorem parameterList_clean {budget : Nat} (h : (parameters budget).run s = .ok () s' ∨ s = s') (hc : s'.Clean) :
    s.Clean ∧ (s.Ready → s.body.scope.Names [] → 0 < s.body.scope.depth →
      ∃ ts names, Params [] s s' ts names ∧ ParamsRead ts names) := by
  rcases h with h | rfl
  · obtain ⟨hc₀, hspec⟩ := parameters_spec budget s s' h hc
    refine ⟨hc₀, fun hr hn hpos => ?_⟩
    obtain ⟨ts, name, names, hp, hreads⟩ := hspec [] hr hn hpos
    exact ⟨ts, _, hp, hreads⟩
  · refine ⟨hc, fun hr hn hpos => ⟨[], [], ?_, .nil⟩⟩
    exact ⟨fun us hu => ⟨us, rfl, hu⟩, .refl _, rfl, rfl, rfl, rfl, hn, rfl⟩

/-- The end of a function: it returns nil, and it becomes an object. -/
theorem endFunction_clean {label : Handle} (h : endFunction.run s = .ok label s') (hc : s'.Clean) :
    s.Clean ∧ ∃ s₁ s₂, Wrote s s₁ (.plain .pushNil) ∧ Wrote s₁ s₂ (.plain .ret) ∧
      label = ⟨s₂.heap.cells.size⟩ ∧
      s'.heap = (s₂.heap.allocate (.function
        { arity := s₂.body.arity, chunk := s₂.body.chunk, name := s₂.body.name })).1 ∧
      ∀ outer others, s₂.enclosing = outer :: others →
        s'.current = s₂.current ∧ s'.rest = s₂.rest ∧ s'.body = outer ∧ s'.enclosing = others := by
  unfold endFunction at h
  obtain ⟨_, s₂, h₂, h⟩ := run_bind_eq_ok.mp h
  obtain ⟨body, enclosing, journal, heq, houter⟩ := s₂.closeFunction_eq
  rw [EStateM.run_modifyGet, heq] at h
  cases h
  obtain ⟨hc₀, s₁, hw₁, hw₂⟩ := emitReturn_clean h₂ hc
  refine ⟨hc₀, s₁, s₂, hw₁, hw₂, rfl, rfl, fun outer others he => ?_⟩
  obtain ⟨hb, he'⟩ := houter outer others he
  exact ⟨rfl, rfl, hb, he'⟩

/-- The code between the parentheses and the end of a function, and the object that it becomes. -/
theorem functionCode_clean {budget : Nat} (hblock : BlockSpec (block budget)) (hsane : s.Sane) {label : Handle}
    (h : (do
      expect .rightParen .parenAfterParameters
      expect .leftBrace .braceBeforeBody
      block budget
      endFunction : Compiler Handle).run s = .ok label s') (hc : s'.Clean) :
    s.Clean ∧ ∀ params name handle outer others, s.Ready → s.body.scope.Names (List.reverse params) →
      0 < s.body.scope.depth → s.body.chunk.size = 0 → s.body.arity = params.length → s.body.name = some handle →
      (Literal.text name).Denotes s.heap (.object handle) → s.enclosing = outer :: others →
      ∃ u v ts w body s₂, u.kind = .rightParen ∧ v.kind = .leftBrace ∧ w.kind = .rightBrace ∧
        Block.Reads ts body ∧ Takes s s₂ (u :: v :: (ts ++ [w])) ∧ s.heap.Makes s₂.heap body.functions ∧
        s₂.heap.Makes s'.heap [(label, ⟨some name, params, body⟩)] ∧
        s'.current = s₂.current ∧ s'.rest = s₂.rest ∧ s'.body = outer ∧ s'.enclosing = others := by
  obtain ⟨_, s₁, h₁, h⟩ := run_bind_eq_ok.mp h
  obtain ⟨_, s₂, h₂, h⟩ := run_bind_eq_ok.mp h
  obtain ⟨_, s₃, h₃, h⟩ := run_bind_eq_ok.mp h
  have hsane₂ := ((byMoves_expect _ _ _ _ _ h₁).trans (byMoves_expect _ _ _ _ _ h₂)).sane hsane
  obtain ⟨hc₃, s₄, s₅, hw₄, hw₅, rfl, hheap, hend⟩ := endFunction_clean h hc
  obtain ⟨hc₂, hspec⟩ := hblock s₂ s₃ hsane₂ h₃ hc₃
  obtain ⟨hc₁, hk₂, ht₂⟩ := expect_clean h₂ (by decide) hc₂
  obtain ⟨hc₀, hk₁, ht₁⟩ := expect_clean h₁ (by decide) hc₁
  refine ⟨hc₀, fun params name handle outer others hr hn hpos hsize harity hname hden henc => ?_⟩
  have hbody : s₂.body = s.body := ht₂.body.trans ht₁.body
  obtain ⟨ts, w, body, inner, sp, hreads, hw, -, -, ha, hl⟩ := hspec params.reverse
    (ht₂.adds.ready (ht₁.adds.ready hr)) (by rw [hbody]; exact hn)
  rw [hbody, hsize, decide_eq_false (by omega)] at hl
  have hadds := ht₁.adds.trans (ht₂.adds.trans (ha.trans
    ((hw₄.adds (inner ++ params.reverse) 0).trans (hw₅.adds (inner ++ params.reverse) 1))))
  rw [hw₄.size, Instr.size] at hadds
  refine ⟨_, _, ts, w, body, s₅, hk₁, hk₂, hw, hreads, ?_, ?_, ?_, hend outer others ?_⟩
  · simpa using hadds.tokens
  · simpa using hadds.makes
  · rw [hheap]
    refine makes_body (hadds.arity.trans harity) ?_ (.mk hl) (hl.contiguous.append ⟨rfl, rfl, ?_⟩)
      fun p hp => hadds.holds p (by simpa using hp)
    · rw [hadds.name, hname]
      obtain ⟨_, str, heq, hstr, hchars⟩ := hden.mono hadds.heap.keeps
      cases heq
      exact ⟨str, hstr, hchars⟩
    · rw [hw₅.size, hw₄.size]
      rfl
  · rw [hadds.enclosing, henc]

/-- A function is opened under its name, and closed behind its body; then it becomes a constant. -/
theorem functionBody_cases {budget : Nat} (h : (functionBody (budget + 1)).run s = .ok () s') :
    ∃ name s₁ s₂ s₃ label s₄,
      (modifyGet (CompileState.intern s.previous.lexeme) : Compiler Handle).run s = .ok name s₁ ∧
      (beginFunction name).run s₁ = .ok () (openFunction name s₁) ∧
      (expect .leftParen .parenAfterFunctionName).run (mapScope Scope.enter (openFunction name s₁)) = .ok () s₂ ∧
      ((parameters budget).run s₂ = .ok () s₃ ∨ s₂ = s₃) ∧
      (do
        expect .rightParen .parenAfterParameters
        expect .leftBrace .braceBeforeBody
        block budget
        endFunction : Compiler Handle).run s₃ = .ok label s₄ ∧
      (emitConstant (.object label)).run s₄ = .ok () s' := by
  rw [functionBody] at h
  obtain ⟨_, s₁, h₁, h⟩ := run_bind_eq_ok.mp h
  cases h₁
  obtain ⟨name, s₁, h₁, h⟩ := run_bind_eq_ok.mp h
  obtain ⟨_, _, hopen, h⟩ := run_bind_eq_ok.mp h
  cases hopen
  obtain ⟨_, _, henter, h⟩ := run_bind_eq_ok.mp h
  cases henter
  obtain ⟨_, s₂, h₂, h⟩ := run_bind_eq_ok.mp h
  obtain ⟨b, _, hsees, h⟩ := run_bind_eq_ok.mp h
  obtain ⟨rfl, -⟩ := sees_cases hsees
  obtain ⟨s₃, h₃, h⟩ : ∃ s₃, ((parameters budget).run s₂ = .ok () s₃ ∨ s₂ = s₃) ∧
      (do
        expect .rightParen .parenAfterParameters
        expect .leftBrace .braceBeforeBody
        block budget
        let function ← endFunction
        emitConstant (.object function) : Compiler Unit).run s₃ = .ok () s' := by
    simp only at h
    split at h
    · obtain ⟨_, s₃, h₃, h⟩ := run_bind_eq_ok.mp h
      exact ⟨s₃, .inl h₃, h⟩
    · exact ⟨s₂, .inr rfl, h⟩
  obtain ⟨label, s₄, h₄, h₅⟩ : ∃ label s₄, (do
      expect .rightParen .parenAfterParameters
      expect .leftBrace .braceBeforeBody
      block budget
      endFunction : Compiler Handle).run s₃ = .ok label s₄ ∧
      (emitConstant (.object label)).run s₄ = .ok () s' := by
    rw [← run_bind_eq_ok]
    simpa using h
  exact ⟨name, s₁, s₂, s₃, label, s₄, h₁, rfl, h₂, h₃, h₄, h₅⟩

theorem functionBody_spec {budget : Nat} (hblock : BlockSpec (block budget)) :
    FunctionSpec (functionBody (budget + 1)) := by
  intro s s' hsane h hc
  obtain ⟨name, s₁, s₄, s₆, label, s₇, h₁, h₂, h₄, hps, h₇, h₈⟩ := functionBody_cases h
  obtain ⟨hcl₁, hidle, hname⟩ := intern_spec h₁
  have hsane₄ : s₄.Sane :=
    ((moves_beginFunction h₁ h₂).trans ((byMoves_enterScope _ _ _ rfl).trans (byMoves_expect _ _ _ _ _ h₄))).sane hsane
  have hsane₆ : s₆.Sane := by
    rcases hps with hps | rfl
    · exact (byMoves_parameters _ _ _ _ hps).sane hsane₄
    · exact hsane₄
  obtain ⟨hc₇, hconst⟩ := emitConstant_clean h₈ hc
  obtain ⟨hc₆, hcode⟩ := functionCode_clean hblock hsane₆ h₇ hc₇
  obtain ⟨hc₄, hparams⟩ := parameterList_clean hps hc₆
  obtain ⟨hc₃, hk₄, ht₄⟩ := expect_clean h₄ (by decide) hc₄
  refine ⟨hcl₁ hc₃, fun hr => ?_⟩
  have hr₁ := hidle.adds.ready hr
  have hr₃ : (mapScope Scope.enter (openFunction name s₁)).Ready := by
    obtain ⟨us, hu⟩ := hr₁.ahead
    exact ⟨⟨us, hu.congr rfl rfl⟩, hr₁.heap⟩
  have hr₄ := ht₄.adds.ready hr₃
  obtain ⟨ps, params, hp, hpreads⟩ := hparams hr₄ (by rw [ht₄.body]; exact Scope.names_start.enter)
    (by rw [ht₄.body]; exact Nat.one_pos)
  obtain ⟨w, x, bs, y, body, s₅, hw, hx, hy, hreads, htakes, hmakes, hmakes', hend⟩ :=
    hcode params s.previous.lexeme name s₁.body s₁.enclosing (hp.ready hr₄) (by simpa using hp.names)
      (by rw [hp.depth, ht₄.body]; exact Nat.one_pos) (by rw [hp.size, ht₄.body]; rfl)
      (by rw [hp.arity, ht₄.body]; exact Nat.zero_add _) (by rw [hp.name, ht₄.body]; rfl)
      (((hname hr.heap).mono ht₄.adds.heap.keeps).mono hp.makes.grows.keeps)
      (by rw [hp.enclosing, ht₄.adds.enclosing]; rfl)
  have hinner : Adds s₁ s₇ _ [] ([] ++ ([] ++ body.functions) ++ _) :=
    adds_function (ht₄.adds.tokens.trans (hp.tokens.trans htakes))
      (ht₄.adds.makes.trans (hp.makes.trans hmakes)) rfl rfl rfl hend hmakes'
  obtain ⟨wide, hwrote⟩ := hconst (.function label) rfl
  have hbody : s₇.body = s₁.body := hend.2.2.1
  refine ⟨_, ps, w, x, bs, y, params, body, label, wide, hk₄, hpreads, hw, hx, hreads, hy, ?_, ?_, ?_⟩
  · rw [hwrote.scope, hbody, hidle.scope]
  · rw [hwrote.size, hbody, hidle.size]
  · intro scope t
    have := hidle.adds.trans (hinner.trans (hwrote.adds scope t))
    rw [hbody, hidle.size] at this
    simpa using this

/-- The name of a function counts as initialized before its body. -/
theorem Declared.mark {scope : List String} {name : String} {i : Nat} {s₀ : CompileState}
    (hd : Declared scope name i s₀ s) (h : markInitialized.run s = .ok () s') : Declared scope name i s₀ s' := by
  obtain ⟨-, -, -, -, hchunk, hheap, hscope⟩ := markInitialized_spec h
  refine ⟨by rw [hscope, depth_markInitialized, hd.depth], fun h0 => ?_, fun hpos => ?_⟩
  · obtain ⟨heq, hi, hconst⟩ := hd.global h0
    rw [hscope, hchunk, hheap, markInitialized_top (hd.depth.trans h0)]
    exact ⟨heq, hi, hconst⟩
  · rw [hscope, markInitialized_twice]
    exact hd.marked hpos

/-- The tokens declare something, whatever is declared after it. -/
def DeclarationReads (ts : List Token) (st : Stmt) : Prop :=
  ∀ us rest, Block.Reads us rest → Block.Reads (ts ++ us) (.cons st rest)

theorem funDeclaration_spec {budget : Nat} (hf : FunctionSpec (functionBody budget)) :
    DeclarationSpec .funWord DeclarationReads (funDeclaration (budget + 1)) := by
  intro s s' hsane h hc
  rw [funDeclaration] at h
  obtain ⟨i, s₁, h₁, h⟩ := run_bind_eq_ok.mp h
  obtain ⟨_, s₂, h₂, h⟩ := run_bind_eq_ok.mp h
  obtain ⟨_, s₃, h₃, h⟩ := run_bind_eq_ok.mp h
  have hsane₂ := ((byMoves_declareName _ _ _ _ h₁).trans (byMoves_markInitialized _ _ _ h₂)).sane hsane
  obtain ⟨hc₃, -, -, -⟩ := defineVariable_clean h hc
  obtain ⟨hc₂, hspec⟩ := hf s₂ s₃ hsane₂ h₃ hc₃
  obtain ⟨hcl, hadds₂, -, hprev₂, hchunk₂, -, -⟩ := markInitialized_spec h₂
  obtain ⟨hc₀, hk₁, ha₁, hsize₁, hprev₁, hdecl⟩ := declareName_declared h₁ (hcl hc₂)
  refine ⟨hc₀, fun scope s₀ hr hn ht hk => ?_⟩
  obtain ⟨-, hd⟩ := hdecl scope s₀ ht.body (ht.adds.ready hr) hn
  obtain ⟨v, ps, w, x, bs, y, params, body, label, wide, hv, hps, hw, hx, hbs, hy, hsame, hsize, ha⟩ :=
    hspec (hadds₂.ready (ha₁.ready (ht.adds.ready hr)))
  rw [hprev₂, hprev₁, hchunk₂, hsize₁, ht.body] at ha
  rw [hchunk₂, hsize₁, ht.body] at hsize
  obtain ⟨inner, hstated⟩ : ∃ inner, Stated scope inner s₀ s' _ (.function label s.current.lexeme params body) :=
    (hd.mark h₂).define hn h hc hsame (ha scope 0).chunk (ha scope 0).heap
      (ht.adds.trans (ha₁.trans (hadds₂.trans (ha scope 0)))) rfl
      (by rw [hsize]; exact .functionLocal) (by rw [hsize]; exact .functionGlobal)
  refine ⟨_, _, inner, hstated, fun us rest hrest => ?_⟩
  have hreads : Block.Reads _ (.cons (.function label s.current.lexeme params body) rest) :=
    .function hk hk₁ hv hps hw hx hbs hy hrest
  simpa using hreads

end Compiler

end Lox
