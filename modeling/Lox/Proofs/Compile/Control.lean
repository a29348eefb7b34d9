import Lox.Proofs.Compile.Functions

/-! Control flow of an accepted source: conditions, loops and blocks. A jump forward is written before its
target is known and completed once the code it jumps over is there. With these the rules that call one
another are all accounted for, by induction on the budget, and so is a whole source. -/

namespace Lox

open CompileState

namespace Compiler

variable {s s' : CompileState}

/-! ### Conditions -/

/-- A condition in parentheses, and the jump away from what depends on it, which has no target yet. -/
theorem condition_clean {budget o : Nat} {what what' : Expectation} {s₁ s₂ s₃ s₄ : CompileState}
    (h₁ : (expect .leftParen what).run s = .ok () s₁) (h₂ : (expression budget).run s₁ = .ok () s₂)
    (h₃ : (expect .rightParen what').run s₂ = .ok () s₃) (h₄ : (emitJump .jumpIfFalse).run s₃ = .ok o s₄)
    (h : (emit .pop).run s₄ = .ok () s') (hc : s'.Clean) :
    s.Clean ∧ ∀ scope, s.Ready → s.body.scope.Resolves scope →
      ∃ u ts c v sp m, u.kind = .leftParen ∧ Expr.Reads .assignment ts c ∧ v.kind = .rightParen ∧ o = m + 1 ∧
        s'.body.scope = s.body.scope ∧ s'.body.chunk.size = m + 4 ∧
        s'.body.chunk.byteAt? m = some Opcode.jumpIfFalse.toByte ∧ Expr.Laid scope 0 s.body.chunk.size c sp m ∧
        Adds s s' (u :: (ts ++ [v])) (sp ++ [⟨m + 3, .plain .pop, scope, 1⟩]) [] := by
  obtain ⟨hc₄, hw⟩ := emit_clean h rfl hc
  obtain ⟨hcl, rfl, hscope₄, -, -, hsize₄, hbyte₄, ha₄⟩ := emitJump_spec h₄
  obtain ⟨hc₂, hk₃, ht₃⟩ := expect_clean h₃ (by decide) (hcl hc₄)
  obtain ⟨hc₁, hspec⟩ := expression_spec budget s₁ s₂ h₂ hc₂
  obtain ⟨hc₀, hk₁, ht₁⟩ := expect_clean h₁ (by decide) hc₁
  refine ⟨hc₀, fun scope hr hs => ?_⟩
  obtain ⟨ts, c, hcomp, hreads, -⟩ := hspec scope 0 (by decide) (ht₁.adds.ready hr) (by rw [ht₁.body]; exact hs)
  obtain ⟨sp, ha, hl⟩ := hcomp.code
  rw [ht₁.body] at hl
  refine ⟨_, ts, c, _, sp, s₂.body.chunk.size, hk₁, hreads, hk₃, by rw [ht₃.body], ?_, ?_, ?_, hl, ?_⟩
  · rw [hw.scope, hscope₄, ht₃.body, hcomp.same, ht₁.body]
  · rw [hw.size, hsize₄, ht₃.body]
    rfl
  · rw [← ht₃.body]
    exact (hw.adds scope 1).chunk.byteAt? hbyte₄
  · have := ht₁.adds.trans (ha.trans (ht₃.adds.trans (ha₄.trans (hw.adds scope 1))))
    rw [hsize₄, ht₃.body] at this
    simpa using this

/-- A condition in parentheses and what depends on it, up to the other branch. The jump that leads to the other branch
has its target, the jump over it has not. -/
theorem consequent_clean {budget o o' : Nat} {what what' : Expectation} {s₁ s₂ s₃ s₄ s₅ s₆ s₇ s₈ : CompileState}
    (hx : StatementSpec (statement budget)) (hsane : s₅.Sane) (h₁ : (expect .leftParen what).run s = .ok () s₁)
    (h₂ : (expression budget).run s₁ = .ok () s₂) (h₃ : (expect .rightParen what').run s₂ = .ok () s₃)
    (h₄ : (emitJump .jumpIfFalse).run s₃ = .ok o s₄) (h₅ : (emit .pop).run s₄ = .ok () s₅)
    (h₆ : (statement budget).run s₅ = .ok () s₆) (h₇ : (emitJump .jump).run s₆ = .ok o' s₇)
    (h₈ : (patchJump o).run s₇ = .ok () s₈) (h : (emit .pop).run s₈ = .ok () s') (hc : s'.Clean) :
    s.Clean ∧ ∀ scope, s.Ready → s.body.scope.Names scope →
      ∃ u cs c v ys yes b sc sy m n, u.kind = .leftParen ∧ Expr.Reads .assignment cs c ∧ v.kind = .rightParen ∧
        Stmt.Reads b ys yes ∧ (b = true → s'.current.kind ≠ .elseWord) ∧ o' = n + 1 ∧
        s'.body.scope = s.body.scope ∧ s'.body.chunk.size = n + 4 ∧
        s'.body.chunk.byteAt? n = some Opcode.jump.toByte ∧ Expr.Laid scope 0 s.body.chunk.size c sc m ∧
        yes.Laid (decide (s.body.scope.depth = 0)) scope (m + 4) sy n scope ∧
        Adds s s' (u :: (cs ++ v :: ys)) ((sc ++ ⟨m, .jumpIfFalse (n + 3), scope, 1⟩ ::
          ⟨m + 3, .plain .pop, scope, 1⟩ :: sy) ++ [⟨n + 3, .plain .pop, scope, 1⟩]) yes.functions := by
  obtain ⟨hcl₇, rfl, hscope₇, hcur₇, -, hsize₇, hbyte₇, ha₇⟩ := emitJump_spec h₇
  obtain ⟨hc₈, hw⟩ := emit_clean h rfl hc
  obtain ⟨-, rfl, -⟩ := emitJump_spec h₄
  obtain ⟨hc₇, hscope₈, hcur₈, -, hsize₈, hbyte₈, hpatch₈⟩ := patchJump_clean h₈ hc₈
  obtain ⟨hc₅, hyes⟩ := hx s₅ s₆ hsane h₆ (hcl₇ hc₇)
  obtain ⟨hc₀, hcond⟩ := condition_clean h₁ h₂ h₃ h₄ h₅ hc₅
  refine ⟨hc₀, fun scope hr hn => ?_⟩
  obtain ⟨u, cs, c, v, sc, m, hu, hcs, hv, hm, hscope₅, hsize₅, hbyte₅, hlc, hac⟩ := hcond scope hr hn.resolves
  rw [Nat.add_right_cancel hm] at hpatch₈ hbyte₈
  obtain ⟨ys, yes, oy, hy, hys, hoy⟩ := hyes scope (hac.ready hr) (by rw [hscope₅]; exact hn)
  obtain ⟨sy, hay, hly⟩ := hy.code
  rw [hscope₅, hsize₅] at hly
  have hle := hly.contiguous.range.1
  have hsize : s₈.body.chunk.size = s₆.body.chunk.size + 3 := hsize₈.trans hsize₇
  -- the jump to the other branch lands behind the jump over it
  have hcode : Adds s s₇ (u :: (cs ++ v :: ys)) (sc ++ ⟨m + 3, .plain .pop, scope, 1⟩ :: sy) yes.functions := by
    simpa using hac.trans (hay.trans ha₇)
  have hfirst := hpatch₈ (i := .jumpIfFalse s₇.body.chunk.size) hcode hlc.contiguous ⟨rfl, hly.contiguous⟩ (.inr rfl)
    ((hay.trans ha₇).chunk.byteAt? hbyte₅) scope 1
  refine ⟨u, cs, c, v, ys, yes, oy, sc, sy, m, s₆.body.chunk.size, hu, hcs, hv, hys, ?_, rfl, ?_, ?_, ?_, hlc, hly, ?_⟩
  · rw [hw.current, hcur₈, hcur₇]
    exact hoy
  · rw [hw.scope, hscope₈, hscope₇, hy.grows.eq_of_nil, hscope₅]
  · rw [hw.size, hsize]
    rfl
  · refine (hw.adds scope 1).chunk.byteAt? ?_
    rw [hbyte₈ _ (.inr (by omega))]
    exact hbyte₇
  · rw [hsize₇] at hfirst
    have hall := hfirst.trans (hw.adds scope 1)
    rw [hsize] at hall
    simpa using hall

/-- What follows a condition that does not hold; it may be left out. -/
theorem otherwise_clean {x : Compiler Unit} (hx : StatementSpec x) (hsane : s.Sane) {b : Bool} {s₁ : CompileState}
    (h₁ : (accept .elseWord).run s = .ok b s₁) (h : b = true ∧ x.run s₁ = .ok () s' ∨ b = false ∧ s₁ = s')
    (hc : s'.Clean) :
    s.Clean ∧ ∀ scope, s.Ready → s.body.scope.Names scope →
      (s.current.kind = .elseWord ∧ ∃ ts st o, Stated scope [] s s' (s.current :: ts) st ∧
        Stmt.Reads o ts st ∧ (o = true → s'.current.kind ≠ .elseWord)) ∨
      (s.current.kind ≠ .elseWord ∧ s'.current.kind ≠ .elseWord ∧ Stated scope [] s s' [] (.block .nil)) := by
  have hsane₁ := (byMoves_accept _ _ _ _ h₁).sane hsane
  rcases h with ⟨rfl, h⟩ | ⟨rfl, rfl⟩
  · obtain ⟨hc₁, hspec⟩ := hx s₁ s' hsane₁ h hc
    obtain ⟨hc₀, ⟨-, hk, ht⟩ | ⟨hb, -⟩⟩ := accept_clean h₁ (by decide) hc₁
    case inr => cases hb
    refine ⟨hc₀, fun scope hr hn => .inl ⟨hk, ?_⟩⟩
    obtain ⟨ts, st, o, hst, hreads, ho⟩ := hspec scope (ht.adds.ready hr) (by rw [ht.body]; exact hn)
    exact ⟨ts, st, o, hst.of_took ht, hreads, ho⟩
  · obtain ⟨hc₀, ⟨hb, -⟩ | ⟨-, hk, rfl⟩⟩ := accept_clean h₁ (by decide) hc
    case inl => cases hb
    refine ⟨hc₀, fun scope hr hn => .inr ⟨hk, hk, ?_⟩⟩
    have hl : Stmt.Laid (decide (s.body.scope.depth = 0)) scope s.body.chunk.size (.block .nil)
        ([] ++ pops scope [] s.body.chunk.size) (s.body.chunk.size + ([] : List String).length) scope := .block .nil
    exact stated_of_same rfl hn (.refl _) hl

theorem ifStatement_spec {budget : Nat} (hx : StatementSpec (statement budget)) :
    KeywordSpec .ifWord (ifStatement (budget + 1)) := by
  intro s s' hsane h hc
  rw [ifStatement] at h
  obtain ⟨_, s₁, h₁, h⟩ := run_bind_eq_ok.mp h
  obtain ⟨_, s₂, h₂, h⟩ := run_bind_eq_ok.mp h
  obtain ⟨_, s₃, h₃, h⟩ := run_bind_eq_ok.mp h
  obtain ⟨o, s₄, h₄, h⟩ := run_bind_eq_ok.mp h
  obtain ⟨_, s₅, h₅, h⟩ := run_bind_eq_ok.mp h
  obtain ⟨_, s₆, h₆, h⟩ := run_bind_eq_ok.mp h
  obtain ⟨o', s₇, h₇, h⟩ := run_bind_eq_ok.mp h
  obtain ⟨_, s₈, h₈, h⟩ := run_bind_eq_ok.mp h
  obtain ⟨_, s₉, h₉, h⟩ := run_bind_eq_ok.mp h
  have hsane₅ := (((byMoves_expect _ _ _ _ _ h₁).trans (byMoves_expression _ _ _ _ h₂)).trans
    ((byMoves_expect _ _ _ _ _ h₃).trans ((byMoves_emitJump _ _ _ _ h₄).trans (byMoves_emit _ _ _ _ h₅)))).sane hsane
  have hsane₉ := (((byMoves_statements _).2.2.2.1 _ _ _ h₆).trans ((byMoves_emitJump _ _ _ _ h₇).trans
    ((byMoves_patchJump _ _ _ _ h₈).trans (byMoves_emit _ _ _ _ h₉)))).sane hsane₅
  obtain ⟨b, t, hb, h⟩ := run_bind_eq_ok.mp h
  obtain ⟨s₁₀, h₁₀, h⟩ : ∃ s₁₀,
    (b = true ∧ (statement budget).run t = .ok () s₁₀ ∨ b = false ∧ t = s₁₀) ∧
      (patchJump o').run s₁₀ = .ok () s' := by
    cases b with
    | true =>
        obtain ⟨_, s₁₀, h₁₀, h⟩ := run_bind_eq_ok.mp h
        exact ⟨s₁₀, .inl ⟨rfl, h₁₀⟩, h⟩
    | false => exact ⟨t, .inr ⟨rfl, rfl⟩, h⟩
  obtain ⟨-, rfl, -⟩ := emitJump_spec h₇
  obtain ⟨hc₁₀, hscope, hcur, -, hsize, -, hpatch⟩ := patchJump_clean h hc
  obtain ⟨hc₉, helse⟩ := otherwise_clean hx hsane₉ hb h₁₀ hc₁₀
  obtain ⟨hc₀, hthen⟩ := consequent_clean hx hsane₅ h₁ h₂ h₃ h₄ h₅ h₆ h₇ h₈ h₉ hc₉
  refine ⟨hc₀, fun scope s₀ hr hn ht hk => ?_⟩
  have hr₁ := ht.adds.ready hr
  have hn₁ : s.body.scope.Names scope := by rw [ht.body]; exact hn
  obtain ⟨u, cs, c, v, ys, yes, oy, sc, sy, m, n, hu, hcs, hv, hys, hoy, ho', hscope₉, hsize₉, hjump₉, hlc,
    hly, hfirst⟩ :=
    hthen scope hr₁ hn₁
  rw [Nat.add_right_cancel ho'] at hpatch
  have hyes : ∀ ts no, Stated scope [] s₉ s₁₀ ts no →
      Stated scope [] s₀ s' (s₀.current :: u :: (cs ++ v :: (ys ++ ts))) (.cond c yes no) := by
    intro ts no hno
    obtain ⟨sn, han, hln⟩ := hno.code
    rw [hscope₉, hsize₉] at hln
    have hcode := hfirst.trans han
    rw [List.append_assoc] at hcode
    have hsecond := hpatch (i := .jump s₁₀.body.chunk.size) hcode
      (hlc.contiguous.append ⟨rfl, rfl, hly.contiguous⟩) ⟨rfl, hln.contiguous⟩ (.inl rfl)
      (han.chunk.byteAt? hjump₉) scope 0
    refine stated_of_same ?_ hn (by simpa [Stmt.functions] using ht.adds.trans hsecond) ?_
    · rw [hscope, hno.grows.eq_of_nil, hscope₉, ht.body]
    · rw [hsize, ← ht.body]
      exact .cond hlc hly hln
  rcases helse scope (hfirst.ready hr₁) (by rw [hscope₉]; exact hn₁) with ⟨hke, ns, no, o, hno, hns, ho⟩
    | ⟨hke, hke', hno⟩
  · obtain rfl : oy = false := by
      by_contra hne
      exact hoy (by simpa using hne) hke
    exact ⟨_, _, o, hyes _ _ hno, .ifElse hk hu hcs hv hys hke hns, by rw [hcur]; exact ho⟩
  · refine ⟨_, _, true, hyes _ _ hno, ?_, fun _ => by rw [hcur]; exact hke'⟩
    simpa using .ifAlone hk hu hcs hv hys

/-! ### Loops -/

/-- The state after the test of a loop; the jump that leaves the loop, if there is one, has no target yet. -/
inductive Tested (scope : List String) (s s' : CompileState) : Option Nat → List Token → Option Expr → Prop where
  | none {ts : List Token} (hsize : s'.body.chunk.size = s.body.chunk.size) (ha : Adds s s' ts [] []) :
      Tested scope s s' none ts none
  | some {ts : List Token} {c : Expr} {sp : List Spot} {m : Nat} (hl : Expr.Laid scope 0 s.body.chunk.size c sp m)
      (hsize : s'.body.chunk.size = m + 4) (hbyte : s'.body.chunk.byteAt? m = some Opcode.jumpIfFalse.toByte)
      (ha : Adds s s' ts (sp ++ [⟨m + 3, .plain .pop, scope, 1⟩]) []) : Tested scope s s' (some (m + 1)) ts (some c)

theorem Tested.ready {scope : List String} {exit : Option Nat} {ts : List Token} {c : Option Expr}
    (h : Tested scope s s' exit ts c) (hr : s.Ready) : s'.Ready := by
  cases h with
  | none hsize ha => exact ha.ready hr
  | some hl hsize hbyte ha => exact ha.ready hr

theorem Tested.size_le {scope : List String} {exit : Option Nat} {ts : List Token} {c : Option Expr}
    (h : Tested scope s s' exit ts c) : s.body.chunk.size ≤ s'.body.chunk.size := by
  cases h with
  | none hsize ha => exact ha.chunk.size_le
  | some hl hsize hbyte ha => exact ha.chunk.size_le

theorem patchJump_keeps_clean {o : Nat} (h : (patchJump o).run s = .ok () s') (hc : s'.Clean) : s.Clean := by
  unfold patchJump at h
  obtain ⟨s₂, s₃, h₂, h⟩ := run_bind_eq_ok.mp h
  cases h₂
  split at h
  · cases h
    exact hc
  · exact absurd hc (reportJump_not_clean h)

theorem forExit_clean {exit : Option Nat} (h : (forExit exit).run s = .ok () s') (hc : s'.Clean) : s.Clean := by
  cases exit with
  | none =>
      cases h
      exact hc
  | some o =>
      obtain ⟨_, s₁, h₁, h⟩ := run_bind_eq_ok.mp h
      exact patchJump_keeps_clean h₁ (emit_clean h rfl hc).1

/-- The end of a loop gives the jump that leaves the loop its target. -/
theorem Tested.close {scope : List String} {exit : Option Nat} {ts us : List Token} {c : Option Expr}
    {s₀ s₁ : CompileState} {sq : List Spot} {fs : List (Handle × Routine)} (ht : Tested scope s₀ s₁ exit ts c)
    (h : (forExit exit).run s = .ok () s') (hc : s'.Clean) (ha : Adds s₁ s us sq fs)
    (hq : Contiguous s₁.body.chunk.size sq s.body.chunk.size) :
    ∃ sc se, TestLaid scope s₀.body.chunk.size c s.body.chunk.size sc s₁.body.chunk.size ∧
      ExitLaid scope s.body.chunk.size c se s'.body.chunk.size ∧
      Adds s₀ s' (ts ++ us) (sc ++ (sq ++ se)) fs ∧ s'.body.scope = s.body.scope ∧ s'.current = s.current := by
  cases ht with
  | none hsize ha₀ =>
      cases h
      refine ⟨[], [], by rw [hsize]; exact .none, .none, by simpa using ha₀.trans ha, rfl, rfl⟩
  | @some _ c sp m hl hsize hbyte ha₀ =>
      obtain ⟨_, s₂, h₂, h⟩ := run_bind_eq_ok.mp h
      obtain ⟨hc₂, hw⟩ := emit_clean h rfl hc
      obtain ⟨-, hscope, hcur, -, hsize₂, -, hpatch⟩ := patchJump_clean h₂ hc₂
      have hcode : Adds s₀ s (ts ++ us) (sp ++ ⟨m + 3, .plain .pop, scope, 1⟩ :: sq) fs := by
        simpa using ha₀.trans ha
      have hadds := hpatch (i := .jumpIfFalse s.body.chunk.size) hcode hl.contiguous
        ⟨rfl, by rw [Spot.next, Instr.size, Nat.add_assoc, ← hsize]; exact hq⟩ (.inr rfl)
        (ha.chunk.byteAt? hbyte) scope 1
      have hadds' := hadds.trans (hw.adds scope 1)
      rw [hsize₂] at hadds'
      refine ⟨_, _, by rw [hsize]; exact .some hl, ?_, by simpa using hadds', ?_, ?_⟩
      · rw [hw.size, hsize₂]
        exact .some
      · rw [hw.scope, hscope]
      · rw [hw.current, hcur]

/-- The body of a loop, the jump back, and the end of the loop. -/
theorem loop_clean {x : Compiler Unit} (hx : StatementSpec x) {exit : Option Nat} {back : Nat}
    {s₁ s₂ : CompileState} (hsane : s.Sane) (h₁ : x.run s = .ok () s₁) (h₂ : (emitLoop back).run s₁ = .ok () s₂)
    (h₃ : (forExit exit).run s₂ = .ok () s') (hc : s'.Clean) :
    s.Clean ∧ ∀ {scope s₀ t ts c us si n}, s₀.Ready → s₀.body.scope.Names scope →
      s.body.scope = s₀.body.scope → Tested scope s₀ t exit ts c → Adds t s us si [] →
      IncrementLaid scope s₀.body.chunk.size t.body.chunk.size n back si s.body.chunk.size →
      ∃ bs b o, Stated scope [] s₀ s' (ts ++ (us ++ bs)) (.loop c n b) ∧ Stmt.Reads o bs b ∧
        (o = true → s'.current.kind ≠ .elseWord) := by
  have hc₂ := forExit_clean h₃ hc
  obtain ⟨hc₁, hloop⟩ := emitLoop_clean h₂ hc₂
  obtain ⟨hc₀, hbody⟩ := hx s s₁ hsane h₁ hc₁
  refine ⟨hc₀, fun {scope s₀ t ts c us si n} hr hn hscope ht hi hli => ?_⟩
  obtain ⟨bs, b, o, hb, hbs, ho⟩ := hbody scope (hi.ready (ht.ready hr)) (by rw [hscope]; exact hn)
  obtain ⟨sb, hab, hlb⟩ := hb.code
  have hback := hloop (by
    have := hli.back_le ht.size_le
    have := hlb.contiguous.range.1
    omega)
  have hsize₂ : s₂.body.chunk.size = s₁.body.chunk.size + 3 := hback.size
  obtain ⟨sc, se, hlc, hle, ha, hscope', hcur'⟩ := ht.close h₃ hc (hi.trans (hab.trans (hback.adds scope 0)))
    (hli.contiguous.append (hlb.contiguous.append ⟨rfl, hsize₂.symm⟩))
  rw [hscope] at hlb
  rw [hsize₂] at hlc hle
  refine ⟨bs, b, o, stated_of_same ?_ hn ?_ (.loop hlc hli hlb hle), hbs, ?_⟩
  · rw [hscope', hback.scope, hb.grows.eq_of_nil, hscope]
  · simpa [Stmt.functions] using ha
  · rw [hcur', hback.current]
    exact ho

theorem whileStatement_spec {budget : Nat} (hx : StatementSpec (statement budget)) :
    KeywordSpec .whileWord (whileStatement (budget + 1)) := by
  intro s s' hsane h hc
  rw [whileStatement] at h
  obtain ⟨_, s₁, h₁, h⟩ := run_bind_eq_ok.mp h
  cases h₁
  obtain ⟨_, s₁, h₁, h⟩ := run_bind_eq_ok.mp h
  obtain ⟨_, s₂, h₂, h⟩ := run_bind_eq_ok.mp h
  obtain ⟨_, s₃, h₃, h⟩ := run_bind_eq_ok.mp h
  obtain ⟨o, s₄, h₄, h⟩ := run_bind_eq_ok.mp h
  obtain ⟨_, s₅, h₅, h⟩ := run_bind_eq_ok.mp h
  obtain ⟨_, s₆, h₆, h⟩ := run_bind_eq_ok.mp h
  obtain ⟨_, s₇, h₇, h⟩ := run_bind_eq_ok.mp h
  have hsane₅ := (((byMoves_expect _ _ _ _ _ h₁).trans (byMoves_expression _ _ _ _ h₂)).trans
    ((byMoves_expect _ _ _ _ _ h₃).trans ((byMoves_emitJump _ _ _ _ h₄).trans (byMoves_emit _ _ _ _ h₅)))).sane hsane
  have h₈ : (forExit (some o)).run s₇ = .ok () s' := h
  obtain ⟨hc₅, hloop⟩ := loop_clean hx hsane₅ h₆ h₇ h₈ hc
  obtain ⟨hc₀, hcond⟩ := condition_clean h₁ h₂ h₃ h₄ h₅ hc₅
  refine ⟨hc₀, fun scope s₀ hr hn ht hk => ?_⟩
  have hr₁ := ht.adds.ready hr
  rw [← ht.body] at hn
  obtain ⟨u, cs, c, v, sc, m, hu, hcs, hv, rfl, hscope₅, hsize₅, hbyte₅, hlc, hac⟩ := hcond scope hr₁ hn.resolves
  obtain ⟨bs, b, o, hb, hbs, ho⟩ := hloop hr₁ hn hscope₅ (.some hlc hsize₅ hbyte₅ hac) (.refl _) .none
  refine ⟨_, _, o, hb.of_took ht, ?_, ho⟩
  simpa using .while hk hu hcs hv hbs

/-- The first clause of a loop, whatever comes after it. -/
structure Initialized (scope inner : List String) (s s' : CompileState) (ts : List Token) : Prop where
  grows : s.body.scope.Extends s'.body.scope inner
  names : s'.body.scope.Names (inner ++ scope)
  code : ∃ sp, Adds s s' ts sp [] ∧ ∀ rest, ∃ body, InitializerReads ts rest body ∧
    body.functions = rest.functions ∧ ∀ {sr b after},
      rest.Laid (decide (s.body.scope.depth = 0)) (inner ++ scope) s'.body.chunk.size sr b after →
      body.Laid (decide (s.body.scope.depth = 0)) scope s.body.chunk.size (sp ++ sr) b after

theorem Initialized.of_stated {scope inner : List String} {ts : List Token} {st : Stmt}
    (h : Stated scope inner s s' ts st) (hf : st.functions = [])
    (hi : ∀ rest, InitializerReads ts rest (.cons st rest)) : Initialized scope inner s s' ts := by
  obtain ⟨hg, hn, sp, ha, hl⟩ := h
  rw [hf] at ha
  refine ⟨hg, hn, sp, ha, fun rest => ⟨.cons st rest, hi rest, by simp [Block.functions, hf], ?_⟩⟩
  exact fun hrest => .cons hl hrest

theorem forInitializer_clean {budget : Nat} (h : (forInitializer budget).run s = .ok () s') (hsane : s.Sane)
    (hc : s'.Clean) :
    s.Clean ∧ ∀ scope, s.Ready → s.body.scope.Names scope → ∃ inner ts, Initialized scope inner s s' ts := by
  unfold forInitializer at h
  obtain ⟨b, s₁, h₁, h⟩ := run_bind_eq_ok.mp h
  have hsane₁ := (byMoves_accept _ _ _ _ h₁).sane hsane
  rcases accept_cases h₁ with ⟨rfl, hk, h₁'⟩ | ⟨rfl, hk, rfl⟩
  · obtain ⟨hc₁, hspec⟩ := varDeclaration_spec budget s₁ s' hsane₁ h hc
    obtain ⟨hc₀, ht⟩ := advance_clean h₁' (by rw [hk]; decide) hc₁
    refine ⟨hc₀, fun scope hr hn => ?_⟩
    obtain ⟨ts, st, inner, hst, hreads⟩ := hspec scope s hr hn ht hk
    refine ⟨inner, ts, .of_stated hst ?_ fun rest => .var hreads⟩
    cases hreads with
    | bare => rfl
    | value => rfl
  · obtain ⟨b, s₂, h₂, h⟩ := run_bind_eq_ok.mp h
    have hsane₂ := (byMoves_accept _ _ _ _ h₂).sane hsane
    rcases accept_cases h₂ with ⟨rfl, hk₂, h₂'⟩ | ⟨rfl, hk₂, rfl⟩
    · cases h
      obtain ⟨hc₀, ht⟩ := advance_clean h₂' (by rw [hk₂]; decide) hc
      refine ⟨hc₀, fun scope hr hn =>
        ⟨[], _, by rw [ht.body]; exact .refl _, by rw [ht.body]; exact hn, [], ht.adds, ?_⟩⟩
      intro rest
      refine ⟨rest, .none hk₂, rfl, fun hrest => ?_⟩
      rw [ht.body] at hrest
      exact hrest
    · obtain ⟨hc₀, hspec⟩ := value_clean rfl h hc
      refine ⟨hc₀, fun scope hr hn => ?_⟩
      obtain ⟨ts, e, u, sp, m, hreads, hu, hsame, ha, hl, hsize⟩ := hspec scope hr hn.resolves
      have hst : Stated scope [] s s' (ts ++ [u]) (.expression e) :=
        stated_of_same hsame hn ha (by rw [hsize]; exact .expression hl)
      exact ⟨[], _, .of_stated hst rfl fun rest => .expression hreads hu⟩

theorem forCondition_clean {budget : Nat} {exit : Option Nat} (h : (forCondition budget).run s = .ok exit s')
    (hc : s'.Clean) :
    s.Clean ∧ ∀ scope, s.Ready → s.body.scope.Resolves scope →
      ∃ ts c u, ClauseReads ts c ∧ u.kind = .semicolon ∧ s'.body.scope = s.body.scope ∧
        Tested scope s s' exit (ts ++ [u]) c := by
  unfold forCondition at h
  obtain ⟨b, s₁, h₁, h⟩ := run_bind_eq_ok.mp h
  rcases accept_cases h₁ with ⟨rfl, hk, h₁'⟩ | ⟨rfl, hk, rfl⟩
  · cases h
    obtain ⟨hc₀, ht⟩ := advance_clean h₁' (by rw [hk]; decide) hc
    exact ⟨hc₀, fun scope hr hs => ⟨[], none, _, .none, hk, by rw [ht.body], .none (by rw [ht.body]) ht.adds⟩⟩
  · obtain ⟨_, s₁, h₁, h⟩ := run_bind_eq_ok.mp h
    obtain ⟨_, s₂, h₂, h⟩ := run_bind_eq_ok.mp h
    obtain ⟨o, s₃, h₃, h⟩ := run_bind_eq_ok.mp h
    obtain ⟨_, s₄, h₄, h⟩ := run_bind_eq_ok.mp h
    cases h
    obtain ⟨hc₃, hw⟩ := emit_clean h₄ rfl hc
    obtain ⟨hcl, rfl, hscope₃, -, -, hsize₃, hbyte₃, ha₃⟩ := emitJump_spec h₃
    obtain ⟨hc₁, hk₂, ht₂⟩ := expect_clean h₂ (by decide) (hcl hc₃)
    obtain ⟨hc₀, hspec⟩ := expression_spec budget s s₁ h₁ hc₁
    refine ⟨hc₀, fun scope hr hs => ?_⟩
    obtain ⟨ts, c, hcomp, hreads, -⟩ := hspec scope 0 (by decide) hr hs
    obtain ⟨sp, ha, hl⟩ := hcomp.code
    have hadds := ha.trans (ht₂.adds.trans (ha₃.trans (hw.adds scope 1)))
    rw [hsize₃, ht₂.body] at hadds
    refine ⟨ts, some c, _, .some hreads, hk₂, ?_, ?_⟩
    · rw [hw.scope, hscope₃, ht₂.body, hcomp.same]
    · rw [ht₂.body]
      refine .some hl ?_ ?_ (by simpa using hadds)
      · rw [hw.size, hsize₃, ht₂.body]
        rfl
      · rw [← ht₂.body]
        exact (hw.adds scope 1).chunk.byteAt? hbyte₃

theorem forIncrement_clean {budget start back : Nat} (h : (forIncrement start budget).run s = .ok back s')
    (hc : s'.Clean) :
    s.Clean ∧ ∀ scope, s.Ready → s.body.scope.Resolves scope → start ≤ s.body.chunk.size →
      ∃ ts n u si, ClauseReads ts n ∧ u.kind = .rightParen ∧ s'.body.scope = s.body.scope ∧
        Adds s s' (ts ++ [u]) si [] ∧ IncrementLaid scope start s.body.chunk.size n back si s'.body.chunk.size := by
  unfold forIncrement at h
  obtain ⟨b, s₁, h₁, h⟩ := run_bind_eq_ok.mp h
  rcases accept_cases h₁ with ⟨rfl, hk, h₁'⟩ | ⟨rfl, hk, rfl⟩
  · cases h
    obtain ⟨hc₀, ht⟩ := advance_clean h₁' (by rw [hk]; decide) hc
    refine ⟨hc₀, fun scope hr hs hstart => ⟨[], none, _, [], .none, hk, by rw [ht.body], ht.adds, ?_⟩⟩
    rw [ht.body]
    exact .none
  · obtain ⟨o, s₁, h₁, h⟩ := run_bind_eq_ok.mp h
    obtain ⟨hcl₁, rfl, hscope₁, -, -, hsize₁, hbyte₁, ha₁⟩ := emitJump_spec h₁
    obtain ⟨i, s₂, h₂, h⟩ := run_bind_eq_ok.mp h
    cases h₂
    obtain ⟨_, s₂, h₂, h⟩ := run_bind_eq_ok.mp h
    obtain ⟨_, s₃, h₃, h⟩ := run_bind_eq_ok.mp h
    obtain ⟨_, s₄, h₄, h⟩ := run_bind_eq_ok.mp h
    obtain ⟨_, s₅, h₅, h⟩ := run_bind_eq_ok.mp h
    obtain ⟨_, s₆, h₆, h⟩ := run_bind_eq_ok.mp h
    cases h
    obtain ⟨hc₅, hscope₆, -, -, hsize₆, -, hpatch⟩ := patchJump_clean h₆ hc
    obtain ⟨hc₄, hloop⟩ := emitLoop_clean h₅ hc₅
    obtain ⟨hc₃, hk₄, ht₄⟩ := expect_clean h₄ (by decide) hc₄
    obtain ⟨hc₂, hw⟩ := emit_clean h₃ rfl hc₃
    obtain ⟨hc₁, hspec⟩ := expression_spec budget _ s₂ h₂ hc₂
    refine ⟨hcl₁ hc₁, fun scope hr hs hstart => ?_⟩
    obtain ⟨ts, e, hcomp, hreads, -⟩ := hspec scope 0 (by decide) (ha₁.ready hr) (by rw [hscope₁]; exact hs)
    obtain ⟨sp, ha, hl⟩ := hcomp.code
    rw [hsize₁] at hl
    have hsize₃ : s₃.body.chunk.size = s₂.body.chunk.size + 1 := hw.size
    have hback := hloop (by
      have := hl.contiguous.range.1
      rw [ht₄.body, hsize₃]
      omega)
    have hsize₅ : s₅.body.chunk.size = s₂.body.chunk.size + 4 := by
      rw [hback.size, ht₄.body, hsize₃]
      rfl
    have hcode := ha₁.trans (ha.trans ((hw.adds scope 1).trans (ht₄.adds.trans (hback.adds scope 0))))
    rw [ht₄.body, hsize₃] at hcode
    -- the code before the increment goes on behind it
    have hskip := hpatch (i := .jump s₅.body.chunk.size) hcode rfl (hl.contiguous.append ⟨rfl, rfl, rfl⟩) (.inl rfl)
      ((ha.trans ((hw.adds scope 1).trans (ht₄.adds.trans (hback.adds scope 0)))).chunk.byteAt? hbyte₁) scope 0
    rw [hsize₅] at hskip
    refine ⟨ts, some e, _, _, .some hreads, hk₄, ?_, by simpa using hskip, ?_⟩
    · rw [hscope₆, hback.scope, ht₄.body, hw.scope, hcomp.same, hscope₁]
    · rw [hsize₆, hsize₅, hsize₁]
      exact .some hl

/-! ### Scopes -/

/-- A sequence in a scope of its own: the variables of the scope are gone behind it. -/
theorem scoped_clean {s₁ : CompileState} (h : leaveScope.run s₁ = .ok () s') (hc : s'.Clean) :
    s₁.Clean ∧ ∀ {scope inner ts body sp}, s.body.scope.Names scope →
      s.body.scope.enter.Extends s₁.body.scope inner → Adds s s₁ ts sp (Block.functions body) →
      Block.Laid false scope s.body.chunk.size body sp s₁.body.chunk.size (inner ++ scope) →
      s'.current = s₁.current ∧ Stated scope [] s s' ts (.block body) := by
  obtain ⟨hc₁, hleave⟩ := leaveScope_clean h hc
  refine ⟨hc₁, fun {scope inner ts body sp} hn hext ha hl => ?_⟩
  obtain ⟨hscope, hcur, hsize, hpops⟩ := hleave s.body.scope inner scope hn.depth hext
  refine ⟨hcur, stated_of_same hscope hn (by simpa [Stmt.functions] using ha.trans hpops) ?_⟩
  rw [hsize]
  exact .block hl

theorem blockStatement_spec {budget : Nat} (hx : BlockSpec (block budget)) :
    KeywordSpec .leftBrace (do enterScope; block budget; leaveScope) := by
  intro s s' hsane h hc
  obtain ⟨_, s₁, h₁, h⟩ := run_bind_eq_ok.mp h
  obtain ⟨_, s₂, h₂, h₃⟩ := run_bind_eq_ok.mp h
  have hsane₁ := (byMoves_enterScope _ _ _ h₁).sane hsane
  cases h₁
  obtain ⟨hc₂, hleave⟩ := scoped_clean h₃ hc
  obtain ⟨hc₁, hspec⟩ := hx _ s₂ hsane₁ h₂ hc₂
  refine ⟨hc₁, fun scope s₀ hr hn ht hk => ?_⟩
  rw [← ht.body] at hn
  have henter := adds_mapScope s Scope.enter
  obtain ⟨ts, u, b, inner, sp, hreads, hu, hext, -, ha, hl⟩ := hspec scope
    (henter.ready (ht.adds.ready hr)) hn.enter
  obtain ⟨-, hst⟩ := hleave hn hext (henter.trans ha) hl
  exact ⟨_, _, false, hst.of_took ht, .block hk hreads hu, nofun⟩

theorem forStatement_spec {budget : Nat} (hx : StatementSpec (statement budget)) :
    KeywordSpec .forWord (forStatement (budget + 1)) := by
  intro s s' hsane h hc
  rw [forStatement] at h
  obtain ⟨_, s₁, h₁, h⟩ := run_bind_eq_ok.mp h
  obtain ⟨_, s₂, h₂, h⟩ := run_bind_eq_ok.mp h
  obtain ⟨_, s₃, h₃, h⟩ := run_bind_eq_ok.mp h
  obtain ⟨start, s₄, h₄, h⟩ := run_bind_eq_ok.mp h
  obtain ⟨exit, s₅, h₅, h⟩ := run_bind_eq_ok.mp h
  obtain ⟨back, s₆, h₆, h⟩ := run_bind_eq_ok.mp h
  obtain ⟨_, s₇, h₇, h⟩ := run_bind_eq_ok.mp h
  obtain ⟨_, s₈, h₈, h⟩ := run_bind_eq_ok.mp h
  obtain ⟨_, s₉, h₉, h⟩ := run_bind_eq_ok.mp h
  have hsane₂ := ((byMoves_enterScope _ _ _ h₁).trans (byMoves_expect _ _ _ _ _ h₂)).sane hsane
  have hsane₆ := (((byMoves_forInitializer _ _ _ _ h₃).trans (byMoves_offset _ _ _ h₄)).trans
    ((byMoves_forCondition _ _ _ _ h₅).trans (byMoves_forIncrement _ _ _ _ _ h₆))).sane hsane₂
  obtain ⟨hc₉, hleave⟩ := scoped_clean (s := s) h hc
  cases h₁
  cases h₄
  obtain ⟨hc₆, hloop⟩ := loop_clean hx hsane₆ h₇ h₈ h₉ hc₉
  obtain ⟨hc₅, hincr⟩ := forIncrement_clean h₆ hc₆
  obtain ⟨hc₃, htest⟩ := forCondition_clean h₅ hc₅
  obtain ⟨hc₂, hinit⟩ := forInitializer_clean h₃ hsane₂ hc₃
  obtain ⟨hc₁, hk₂, ht₂⟩ := expect_clean h₂ (by decide) hc₂
  refine ⟨hc₁, fun scope s₀ hr hn ht hk => ?_⟩
  rw [← ht.body] at hn
  have henter := adds_mapScope s Scope.enter
  have hr₂ := ht₂.adds.ready (henter.ready (ht.adds.ready hr))
  obtain ⟨inner, is, hi⟩ := hinit scope hr₂ (by rw [ht₂.body]; exact hn.enter)
  obtain ⟨si, hai, hbody⟩ := hi.code
  have hr₃ := hai.ready hr₂
  obtain ⟨cs, c, v, hcs, hv, hscope₅, htested⟩ := htest (inner ++ scope) hr₃ hi.names.resolves
  obtain ⟨ns, n, w, sn, hns, hw, hscope₆, han, hln⟩ := hincr (inner ++ scope) (htested.ready hr₃)
    (by rw [hscope₅]; exact hi.names.resolves) htested.size_le
  obtain ⟨bs, b, o, hb, hbs, ho⟩ := hloop hr₃ hi.names (hscope₆.trans hscope₅) htested han hln
  obtain ⟨sl, hal, hll⟩ := hb.code
  obtain ⟨body, hreads, hfs, hlaid⟩ := hbody (.cons (.loop c n b) .nil)
  have hpos : decide (s₂.body.scope.depth = 0) = false := by
    rw [ht₂.body]
    rfl
  have hpos₃ : decide (s₃.body.scope.depth = 0) = false := by rw [hi.grows.depth, hpos]
  rw [hpos] at hlaid
  rw [hpos₃] at hll
  have hblock : Block.Laid false scope s.body.chunk.size body (si ++ sl) s₉.body.chunk.size (inner ++ scope) := by
    have := hlaid (.cons hll .nil)
    rw [ht₂.body, List.append_nil] at this
    exact this
  have hext : s.body.scope.enter.Extends s₉.body.scope inner := by
    have := hi.grows
    rw [ht₂.body] at this
    rw [hb.grows.eq_of_nil]
    exact this
  have hadds : Adds s s₉ (s.current :: (is ++ (cs ++ v :: (ns ++ w :: bs)))) (si ++ sl) body.functions := by
    have := henter.trans (ht₂.adds.trans (hai.trans hal))
    simp only [hfs, Block.functions, List.nil_append, List.append_nil, List.append_assoc,
      List.singleton_append] at this ⊢
    exact this
  obtain ⟨hcur, hst⟩ := hleave hn hext hadds hblock
  refine ⟨_, _, o, hst.of_took ht, ?_, by rw [hcur]; exact ho⟩
  exact .for hk hk₂ hreads hcs hv hns hw hbs

end Compiler

end Lox
