import Lox.Proofs.Compile.Clauses

/-! Statements and declarations along a reading that is known. The rules for them call one another, and so do the
forms of the grammar, so each form is got through on the assumption that its parts are. An `else` that follows
belongs to the nearest `if`, so a statement that ends with an open one is only read where none follows. -/

namespace Lox

open CompileState

namespace Compiler

variable {x : Point} {t u v w : Token} {ts us : List Token} {top o : Bool} {inner outer : List String}

/-- The point is one where a statement with the given tokens is read, and where it ends. -/
structure Facing (o top : Bool) (inner outer : List String) (ts us : List Token) (x : Point) : Prop where
  splits : x.scope.Splits top inner outer
  no_else : o = true → nextKind us ≠ .elseWord
  ahead : x.ahead = ts ++ us

/-- The compiler goes through the tokens of a statement. -/
def StmtLeads (o : Bool) (ts : List Token) (st : Stmt) : Prop :=
  ∀ b x us top inner outer, Facing o top inner outer ts us x →
    Answers (statement b) (At x) (st.Legal top inner outer x.draft) fun _ =>
      At (x.after (st.draft top (inner ++ outer) x.draft) us)

/-- The compiler goes through the tokens of a declaration or a statement. -/
def DeclarationLeads (ts : List Token) (st : Stmt) : Prop :=
  ∀ b x us top inner outer, Facing true top inner outer ts us x →
    Answers (declaration b) (At x) (st.Legal top inner outer x.draft) fun _ =>
      At ({ x with scope := x.scope.adds (st.declares top) }.after (st.draft top (inner ++ outer) x.draft) us)

/-! ### Sequences -/

/-- A rule that reads one declaration after the other, up to a brace or the end. -/
structure Loops (loop : Nat → Compiler Unit) : Prop where
  moves : ∀ n, ByMoves (loop n)
  zero : loop 0 = giveUp
  step : ∀ n x legal r, x.next ≠ .eof → x.next ≠ .rightBrace →
    Answers (do declaration n; loop n) (At x) legal r → Answers (loop (n + 1)) (At x) legal r

theorem loops_block : Loops block where
  moves := byMoves_block
  zero := rfl
  step n x legal r heof hbrace h := by
    rw [block]
    refine .get fun s hs => ?_
    rw [CompileState.sees, CompileState.sees, hs.kind_current, if_neg (by simp [heof, hbrace])]
    exact h

theorem loops_program : Loops program where
  moves := byMoves_program
  zero := rfl
  step n x legal r heof hbrace h := by
    rw [program]
    exact answers_accept_of_ne heof h

/-- The compiler goes through the tokens of a sequence up to the brace or the end behind it. -/
def BlockLeads (ts : List Token) (body : Block) : Prop :=
  ∀ loop, Loops loop → ∀ b x us top inner outer legal r, x.scope.Splits top inner outer → x.ahead = ts ++ us →
    nextKind us ∈ [.rightBrace, .eof] →
    (body.Legal top inner outer x.draft → ∀ n, Answers (loop n)
      (At ({ x with scope := x.scope.adds (body.declares top) }.after (body.draft top (inner ++ outer) x.draft) us))
      legal r) →
    Answers (loop b) (At x) (body.Legal top inner outer x.draft ∧ legal) r

theorem blockLeads_nil : BlockLeads [] .nil := by
  intro loop hloop b x us top inner outer legal r hs hx hus hmore
  rw [Block.Legal, Block.declares, Block.draft] at *
  obtain rfl : x.ahead = us := hx
  exact (hmore trivial b).congr (and_iff_right trivial).symm

theorem blockLeads_cons {st : Stmt} {rest : Block} (hst : DeclarationLeads ts st)
    (hstarts : ∀ vs, nextKind (ts ++ vs) ∉ [.rightBrace, .eof]) (hrest : BlockLeads us rest)
    (hno : ∀ vs, nextKind vs ∈ [.rightBrace, .eof] → nextKind (us ++ vs) ≠ .elseWord) :
    BlockLeads (ts ++ us) (.cons st rest) := by
  intro loop hloop b x vs top inner outer legal r hs hx hvs hmore
  have hahead : x.ahead = ts ++ (us ++ vs) := by rw [hx, List.append_assoc]
  have hnext := hstarts (us ++ vs)
  have := hloop.moves
  cases b with
  | zero => rw [hloop.zero]; exact .giveUp
  | succ b =>
      rw [Block.Legal, Block.declares, Block.draft] at *
      refine hloop.step b x _ _ ?_ ?_
        (((hst b x (us ++ vs) top inner outer ⟨hs, fun _ => hno vs hvs, hahead⟩).bind_of_legal fun hlegal _ => ?_).congr
        and_assoc.symm)
      · rw [Point.next, hahead]
        exact fun h => hnext (by rw [h]; decide)
      · rw [Point.next, hahead]
        exact fun h => hnext (by rw [h]; decide)
      · refine hrest loop hloop b _ vs top (st.declares top ++ inner) outer legal r (hs.adds_declares hlegal) rfl hvs
          fun hl n => ?_
        have := hmore ⟨hlegal, hl⟩ n
        rw [Scope.adds_append] at this
        rw [List.append_assoc]
        exact this

/-- A sequence with its closing brace. -/
theorem BlockLeads.answers_block {body : Block} (h : BlockLeads ts body) (hs : x.scope.Splits top inner outer)
    (hu : u.kind = .rightBrace) (hx : x.ahead = ts ++ u :: us) (b : Nat) :
    Answers (block b) (At x) (body.Legal top inner outer x.draft) fun _ =>
      At ({ x with scope := x.scope.adds (body.declares top) }.after (body.draft top (inner ++ outer) x.draft) us) := by
  refine (h block loops_block b x (u :: us) top inner outer True _ hs hx (by rw [nextKind, hu]; decide)
    fun _ n => ?_).congr (and_iff_left trivial)
  cases n with
  | zero => exact .giveUp
  | succ n =>
      rw [block]
      refine .get fun s hs' => ?_
      rw [CompileState.sees, hs'.kind_current, if_pos (by simp [Point.next, Point.after, nextKind, hu])]
      exact answers_expect rfl hu

/-- The end of the source stays in sight. -/
theorem answers_accept_end (hx : x.ahead = []) : Answers (accept .eof) (At x) True fun b s => b = true ∧ s.At x := by
  intro s b s' hs h
  have ha := hs.ahead
  rw [hx] at ha
  cases ha with
  | done hk hr =>
      rw [run_accept_of_eq hk] at h
      cases h
      have hadvance : s.advance = { s with previous := s.current } := by
        rw [CompileState.advance, hr, pull]
      rw [hadvance]
      refine ⟨fun _ => ⟨rfl, ?_⟩, fun _ => trivial⟩
      exact ⟨hs.clean, hs.ahead.congr rfl rfl, hs.words, hs.heap, hs.base, hs.scope, hs.arity, hs.outer,
        hs.size, hs.pool⟩

/-- A sequence up to the end of the source. -/
theorem BlockLeads.answers_program {body : Block} (h : BlockLeads ts body) (hs : x.scope.Splits top inner outer)
    (hx : x.ahead = ts) (b : Nat) :
    Answers (program b) (At x) (body.Legal top inner outer x.draft) fun _ =>
      At ({ x with scope := x.scope.adds (body.declares top) }.after (body.draft top (inner ++ outer) x.draft) []) := by
  refine (h program loops_program b x [] top inner outer True _ hs (by rw [hx, List.append_nil]) (by decide) fun _ n =>
    ?_).congr (and_iff_left trivial)
  cases n with
  | zero => exact .giveUp
  | succ n =>
      rw [program]
      exact (answers_accept_end rfl).bind_known (.pure fun _ hs => hs)

/-! ### The forms of statements -/

theorem stmtLeads_of_succ {st : Stmt} (h : ∀ b x us top inner outer, Facing o top inner outer ts us x →
    Answers (statement (b + 1)) (At x) (st.Legal top inner outer x.draft) fun _ =>
      At (x.after (st.draft top (inner ++ outer) x.draft) us)) : StmtLeads o ts st := by
  intro b
  cases b with
  | zero => exact fun _ _ _ _ _ _ => .giveUp
  | succ b => exact h b

/-- The word that a statement starts with is none of those asked for before it. -/
theorem answers_other {y z : Compiler Unit} {k : TokenKind} {legal : Prop} {r : Unit → CompileState → Prop}
    (hx : x.ahead = t :: us) (ht : t.kind ≠ k) (hz : Answers z (At x) legal r) :
    Answers (do if ← accept k then y else z) (At x) legal r :=
  answers_accept_of_ne (by rwa [next_of_cons hx]) hz

theorem stmtLeads_expression {e : Expr} (h : Expr.Reads .assignment ts e) (ht : t.kind = .semicolon) :
    StmtLeads false (ts ++ [t]) (.expression e) := by
  refine stmtLeads_of_succ fun b x us top inner outer hf => ?_
  have hx : x.ahead = ts ++ t :: us := by simp [hf.ahead]
  have hne : ∀ k, opening? k = none → x.next ≠ k := fun k hk => by
    rw [Point.next, hx]
    exact h.leads.nextKind_ne hk _
  rw [statement, Stmt.Legal, Stmt.draft]
  exact answers_accept_of_ne (hne _ rfl) <| answers_accept_of_ne (hne _ rfl) <| answers_accept_of_ne (hne _ rfl) <|
    answers_accept_of_ne (hne _ rfl) <| answers_accept_of_ne (hne _ rfl) <| answers_accept_of_ne (hne _ rfl) <|
    answers_value h ht hf.splits.shows_names hx b

theorem stmtLeads_print {e : Expr} (ht : t.kind = .printWord) (h : Expr.Reads .assignment ts e)
    (hu : u.kind = .semicolon) : StmtLeads false (t :: (ts ++ [u])) (.print e) := by
  refine stmtLeads_of_succ fun b x us top inner outer hf => ?_
  have hx : x.ahead = t :: (ts ++ u :: us) := by simp [hf.ahead]
  rw [statement, Stmt.Legal, Stmt.draft]
  exact answers_accept_of_cons hx ht
    (answers_value (x := { x with ahead := ts ++ u :: us }) h hu hf.splits.shows_names rfl b)

/-- A `return` is the fourth word asked for. -/
theorem stmtLeads_of_return {st : Stmt} (ht : t.kind = .returnWord)
    (h : ∀ b x us top inner outer, Facing o top inner outer ts us x →
      Answers (returnStatement b) (At x) (st.Legal top inner outer x.draft) fun _ =>
        At (x.after (st.draft top (inner ++ outer) x.draft) us)) : StmtLeads o (t :: ts) st := by
  refine stmtLeads_of_succ fun b x us top inner outer hf => ?_
  have hne : ∀ k, k ≠ .returnWord → t.kind ≠ k := fun k hk heq => hk (heq.symm.trans ht)
  rw [statement]
  exact answers_other hf.ahead (hne _ (by decide)) <| answers_other hf.ahead (hne _ (by decide)) <|
    answers_other hf.ahead (hne _ (by decide)) <| answers_accept_of_cons hf.ahead ht <|
    h b { x with ahead := ts ++ us } us top inner outer ⟨hf.splits, hf.no_else, rfl⟩

theorem stmtLeads_leave (ht : t.kind = .returnWord) (hu : u.kind = .semicolon) :
    StmtLeads false [t, u] (.ret .nil) := by
  refine stmtLeads_of_return ht fun b x us top inner outer hf => ?_
  rw [Stmt.Legal, Stmt.draft, Expr.Legal, Expr.draft]
  exact answers_accept_of_cons hf.ahead hu answers_emitReturn

theorem stmtLeads_ret {e : Expr} (ht : t.kind = .returnWord) (h : Expr.Reads .assignment ts e)
    (hu : u.kind = .semicolon) : StmtLeads false (t :: (ts ++ [u])) (.ret e) := by
  refine stmtLeads_of_return ht fun b x us top inner outer hf => ?_
  have hx : x.ahead = ts ++ u :: us := by simp [hf.ahead]
  rw [Stmt.Legal, Stmt.draft]
  exact answers_accept_of_ne (by rw [Point.next, hx]; exact h.leads.nextKind_ne rfl _)
    (answers_value h hu hf.splits.shows_names hx b)

theorem stmtLeads_block {body : Block} (ht : t.kind = .leftBrace) (h : BlockLeads ts body) (hu : u.kind = .rightBrace) :
    StmtLeads false (t :: (ts ++ [u])) (.block body) := by
  refine stmtLeads_of_succ fun b x us top inner outer hf => ?_
  have hx : x.ahead = t :: (ts ++ u :: us) := by simp [hf.ahead]
  have hne : ∀ k, k ≠ .leftBrace → t.kind ≠ k := fun k hk heq => hk (heq.symm.trans ht)
  have hinner : Answers (do enterScope; block b; leaveScope) (At { x with ahead := ts ++ u :: us })
      (body.Legal false [] (inner ++ outer) x.draft) fun _ =>
        At (x.after ((body.draft false (inner ++ outer) x.draft).write (body.declares false).length) us) := by
    refine answers_enterScope.bind_sure fun _ => ?_
    refine (h.answers_block hf.splits.enter hu rfl b).bind_last fun _ => ?_
    exact answers_leaveScope hf.splits.names.depth (Scope.extends_adds fun h0 => by simp [Scope.enter] at h0)
  rw [statement, Stmt.Legal, Stmt.draft]
  exact answers_other hx (hne _ (by decide)) <| answers_other hx (hne _ (by decide)) <|
    answers_other hx (hne _ (by decide)) <| answers_other hx (hne _ (by decide)) <|
    answers_other hx (hne _ (by decide)) <| answers_accept_of_cons hx ht hinner

/-! ### Branches and loops -/

/-- The compiler goes through the other branch, which may be left out, and then on. -/
def ElseLeads (o : Bool) (ts : List Token) (no : Stmt) : Prop :=
  ∀ b x us top inner outer (f : Compiler Unit) legal r, Facing o top inner outer ts us x → ByMoves f →
    Answers f (At (x.after (no.draft top (inner ++ outer) x.draft) us)) legal r →
    Answers (do
      if ← accept .elseWord then
        statement b
        f
      else f) (At x) (no.Legal top inner outer x.draft ∧ legal) r

theorem elseLeads_none : ElseLeads true [] (.block .nil) := by
  intro b x us top inner outer f legal r hf hm hmore
  rw [Stmt.Legal, Stmt.draft, Block.Legal, Block.draft, Block.declares] at *
  obtain rfl : x.ahead = us := hf.ahead
  exact (answers_accept_of_ne (hf.no_else rfl) hmore).congr (and_iff_right trivial).symm

theorem elseLeads_some {no : Stmt} (ht : t.kind = .elseWord) (h : StmtLeads o ts no) : ElseLeads o (t :: ts) no := by
  intro b x us top inner outer f legal r hf hm hmore
  refine answers_accept_of_cons hf.ahead ht ?_
  exact (h b { x with ahead := ts ++ us } us top inner outer ⟨hf.splits, hf.no_else, rfl⟩).bind fun _ => hmore

theorem stmtLeads_cond {c : Expr} {yes no : Stmt} {o' : Bool} {cs ys ns : List Token} (ht : t.kind = .ifWord)
    (hu : u.kind = .leftParen) (hc : Expr.Reads .assignment cs c) (hv : v.kind = .rightParen)
    (hy : StmtLeads o' ys yes) (hn : ElseLeads o ns no)
    (hopen : ∀ us, (o = true → nextKind us ≠ .elseWord) → o' = true → nextKind (ns ++ us) ≠ .elseWord) :
    StmtLeads o (t :: u :: (cs ++ v :: (ys ++ ns))) (.cond c yes no) := by
  refine stmtLeads_of_succ fun b x us top inner outer hf => ?_
  have hx : x.ahead = t :: u :: (cs ++ v :: (ys ++ (ns ++ us))) := by simp [hf.ahead]
  have hne : ∀ k, k ≠ .ifWord → t.kind ≠ k := fun k hk heq => hk (heq.symm.trans ht)
  have hif : Answers (ifStatement b) (At { x with ahead := u :: (cs ++ v :: (ys ++ (ns ++ us))) })
      ((Stmt.cond c yes no).Legal top inner outer x.draft) fun _ =>
        At (x.after ((Stmt.cond c yes no).draft top (inner ++ outer) x.draft) us) := by
    cases b with
    | zero => exact .giveUp
    | succ b =>
        rw [ifStatement, Stmt.Legal]
        dsimp only
        have hshows := hf.splits.shows_names
        have hyes := yes.size_le_draft top (inner ++ outer) ((c.draft (inner ++ outer) x.draft).write 4)
        have hno := no.size_le_draft top (inner ++ outer) ((yes.draft top (inner ++ outer)
          ((c.draft (inner ++ outer) x.draft).write 4)).write 4)
        simp only [Draft.write] at hyes hno
        refine (answers_expect rfl hu).bind_sure fun _ => ?_
        refine (hc.leads.answers_expression (x := { x with ahead := cs ++ v :: (ys ++ (ns ++ us)) })
          (by rw [nextKind, hv]; decide) hshows rfl b).bind fun _ => ?_
        refine (answers_expect rfl hv).bind_sure fun _ => (answers_emitJump _).bind_known ?_
        refine (answers_emit _).bind_sure fun _ => ?_
        refine (hy b (x.after ((c.draft (inner ++ outer) x.draft).write 4) (ys ++ (ns ++ us)))
          (ns ++ us) top inner outer ⟨hf.splits, hopen us hf.no_else, rfl⟩).bind fun _ => ?_
        refine (answers_emitJump _).bind_known
          ((answers_patchJump ?_).bind fun _ => (answers_emit _).bind_sure fun _ => ?_)
        · simp only [Point.after, Point.write, Draft.write]
          omega
        · refine hn b (x.after ((yes.draft top (inner ++ outer) ((c.draft (inner ++ outer) x.draft).write 4)).write 4)
            (ns ++ us)) us top inner outer _ _ _ ⟨hf.splits, hf.no_else, rfl⟩ inferInstance (answers_patchJump ?_)
          simp only [Point.after, Draft.write]
          omega
  rw [statement]
  exact answers_other hx (hne _ (by decide)) <| answers_other hx (hne _ (by decide)) <| answers_accept_of_cons hx ht hif

/-- A `while` loop: a `for` loop that has a condition only. -/
theorem stmtLeads_while {c : Expr} {body : Stmt} {cs bs : List Token} (ht : t.kind = .whileWord)
    (hu : u.kind = .leftParen) (hc : Expr.Reads .assignment cs c) (hv : v.kind = .rightParen)
    (hb : StmtLeads o bs body) : StmtLeads o (t :: u :: (cs ++ v :: bs)) (.loop (some c) none body) := by
  refine stmtLeads_of_succ fun b x us top inner outer hf => ?_
  have hx : x.ahead = t :: u :: (cs ++ v :: (bs ++ us)) := by simp [hf.ahead]
  have hne : ∀ k, k ≠ .whileWord → t.kind ≠ k := fun k hk heq => hk (heq.symm.trans ht)
  have hwhile : Answers (whileStatement b) (At { x with ahead := u :: (cs ++ v :: (bs ++ us)) })
      ((Stmt.loop (some c) none body).Legal top inner outer x.draft) fun _ =>
        At (x.after ((Stmt.loop (some c) none body).draft top (inner ++ outer) x.draft) us) := by
    cases b with
    | zero => exact .giveUp
    | succ b =>
        have htest := c.size_le_draft (inner ++ outer) x.draft
        have hbody := body.size_le_draft top (inner ++ outer) ((c.draft (inner ++ outer) x.draft).write 4)
        simp only [Draft.write] at hbody
        have hclose : Closes (nextKind (v :: (bs ++ us))) := by rw [nextKind, hv]; decide
        have hend : Answers (do
            emitLoop x.draft.size
            forExit ((some c).map fun e => (e.draft (inner ++ outer) x.draft).size + 1))
            (At (x.after (body.draft top (inner ++ outer) ((c.draft (inner ++ outer) x.draft).write 4)) us)) _ fun _ =>
              At (x.after ((Stmt.loop (some c) none body).draft top (inner ++ outer) x.draft) us) :=
          (answers_emitLoop (by simp only [Point.after, Draft.write]; omega)).bind fun _ =>
            answers_forExit (by simp only [testDraft, Point.after, Point.write, Draft.write]; omega)
        have hloop : Answers (do
            statement b
            emitLoop x.draft.size
            forExit ((some c).map fun e => (e.draft (inner ++ outer) x.draft).size + 1))
            (At (x.after ((c.draft (inner ++ outer) x.draft).write 4) (bs ++ us))) _ fun _ =>
              At (x.after ((Stmt.loop (some c) none body).draft top (inner ++ outer) x.draft) us) :=
          (hb b (x.after ((c.draft (inner ++ outer) x.draft).write 4) (bs ++ us)) us top inner outer
            ⟨hf.splits, hf.no_else, rfl⟩).bind fun _ => hend
        rw [whileStatement, Stmt.Legal]
        refine answers_offset.bind_known ((answers_expect rfl hu).bind_sure fun _ => ?_)
        refine ((hc.leads.answers_expression (x := { x with ahead := cs ++ v :: (bs ++ us) }) hclose
          hf.splits.shows_names rfl b).bind fun _ => (answers_expect rfl hv).bind_sure fun _ =>
            (answers_emitJump _).bind_known ((answers_emit _).bind_sure fun _ => hloop)).congr ?_
        rw [testLegal_iff]
        simp only [Option.mem_def, Option.some.injEq, forall_eq']
        constructor
        · rintro ⟨hc, hb, hback, hexit⟩
          exact ⟨⟨hc, hexit⟩, trivial, hb, hback⟩
        · rintro ⟨⟨hc, hexit⟩, -, hb, hback⟩
          exact ⟨hc, hb, hback, hexit⟩
  rw [statement]
  exact answers_other hx (hne _ (by decide)) <| answers_other hx (hne _ (by decide)) <|
    answers_other hx (hne _ (by decide)) <| answers_other hx (hne _ (by decide)) <| answers_accept_of_cons hx ht hwhile

/-- The loop of a `for` statement, and what follows it. -/
theorem answers_forLoop {c i : Option Expr} {body : Stmt} {cs ns bs : List Token} {f : Compiler Unit} [ByMoves f]
    {r : Unit → CompileState → Prop} (hc : ClauseReads cs c) (hv : v.kind = .semicolon) (hi : ClauseReads ns i)
    (hw : w.kind = .rightParen) (hb : StmtLeads o bs body)
    (hf : Facing o top inner outer (cs ++ v :: (ns ++ w :: bs)) us x) (b : Nat)
    (hmore : Answers f (At (x.after ((Stmt.loop c i body).draft top (inner ++ outer) x.draft) us)) True r) :
    Answers (do
      let start ← offset
      let exit ← forCondition b
      let start ← forIncrement start b
      statement b
      emitLoop start
      forExit exit
      f) (At x) ((Stmt.loop c i body).Legal top inner outer x.draft) r := by
  have hx : x.ahead = cs ++ v :: (ns ++ w :: (bs ++ us)) := by simp [hf.ahead]
  have hshows := hf.splits.shows_names
  have htest := size_le_testDraft (inner ++ outer) c x.draft
  have hstep := size_le_incrementDraft (inner ++ outer) i (testDraft (inner ++ outer) c x.draft)
  have hbody := body.size_le_draft top (inner ++ outer)
    (incrementDraft (inner ++ outer) i (testDraft (inner ++ outer) c x.draft))
  rw [Stmt.Legal]
  refine answers_offset.bind_known ?_
  have hend : Answers (do
      emitLoop (backOf x.draft.size i (testDraft (inner ++ outer) c x.draft))
      forExit (c.map fun e => (e.draft (inner ++ outer) x.draft).size + 1)
      f) (At (x.after (body.draft top (inner ++ outer)
        (incrementDraft (inner ++ outer) i (testDraft (inner ++ outer) c x.draft))) us)) _ r :=
    answers_loopEnd ((backOf_le_size htest _ i).trans hbody) (hstep.trans hbody) hmore
  refine ((answers_forCondition hc hv hshows hx b).bind_value fun _ =>
    (answers_forIncrement (x := x.after (testDraft (inner ++ outer) c x.draft) (ns ++ w :: (bs ++ us))) hi
      hw hshows htest rfl b).bind_value fun _ =>
    (hb b (x.after (incrementDraft (inner ++ outer) i (testDraft (inner ++ outer) c x.draft)) (bs ++ us)) us top inner
      outer ⟨hf.splits, hf.no_else, rfl⟩).bind fun _ => hend).congr ?_
  rw [testLegal_iff]
  constructor
  · rintro ⟨hc, hi, hb, hback, hexit⟩
    exact ⟨⟨hc, hexit⟩, hi, hb, hback⟩
  · rintro ⟨⟨hc, hexit⟩, hi, hb, hback⟩
    exact ⟨hc, hi, hb, hback, hexit⟩

/-- A `for` statement: a scope that holds the first clause and the loop. -/
theorem stmtLeads_for {c i : Option Expr} {st : Stmt} {body : Block} {is cs ns bs : List Token} (ht : t.kind = .forWord)
    (hu : u.kind = .leftParen) (hfirst : InitializerReads is (.cons (.loop c i st) .nil) body) (hc : ClauseReads cs c)
    (hv : v.kind = .semicolon) (hi : ClauseReads ns i) (hw : w.kind = .rightParen) (hb : StmtLeads o bs st) :
    StmtLeads o (t :: u :: (is ++ (cs ++ v :: (ns ++ w :: bs)))) (.block body) := by
  refine stmtLeads_of_succ fun b x us top inner outer hf => ?_
  have hx : x.ahead = t :: u :: (is ++ (cs ++ v :: (ns ++ w :: bs) ++ us)) := by simp [hf.ahead]
  have hne : ∀ k, k ≠ .forWord → t.kind ≠ k := fun k hk heq => hk (heq.symm.trans ht)
  have hfor : Answers (forStatement b) (At { x with ahead := u :: (is ++ (cs ++ v :: (ns ++ w :: bs) ++ us)) })
      (body.Legal false [] (inner ++ outer) x.draft) fun _ =>
        At (x.after ((body.draft false (inner ++ outer) x.draft).write (body.declares false).length) us) := by
    cases b with
    | zero => exact .giveUp
    | succ b =>
        rw [forStatement]
        refine answers_enterScope.bind_sure fun _ => (answers_expect rfl hu).bind_sure fun _ => ?_
        refine answers_forInitializer hfirst hf.splits.enter rfl b fun names d hdeclares hdraft hsplits => ?_
        rw [Block.Legal, Block.Legal]
        refine (answers_forLoop hc hv hi hw hb ⟨hsplits, hf.no_else, rfl⟩ b ?_).congr (and_iff_left trivial).symm
        have hnames : body.declares false = names := by
          rw [hdeclares]
          simp [Block.declares, Stmt.declares]
        have hall : body.draft false (inner ++ outer) x.draft =
            (Stmt.loop c i st).draft false (names ++ (inner ++ outer)) d := by
          rw [Block.draft, Block.draft] at hdraft
          exact hdraft
        rw [hall, hnames, List.append_nil]
        exact answers_leaveScope hf.splits.names.depth (Scope.extends_adds fun h0 => by simp [Scope.enter] at h0)
  rw [statement, Stmt.Legal, Stmt.draft]
  exact answers_other hx (hne _ (by decide)) <| answers_accept_of_cons hx ht hfor

end Compiler

end Lox
