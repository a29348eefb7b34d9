import Lox.Proofs.Compile.Declarations

/-! Expressions along a reading that is known. The compiler reads an expression by binding strength, and the
grammar says what an operator takes to its left, so what has been read up to some operator is a whole expression
only after the fact. It is shown how the compiler gets through the tokens of an expression up to the operators
behind it, whatever it does with those; a left operand is got through like that, and the operator goes on. -/

namespace Lox

open CompileState

attribute [local simp] Expr.Legal

/-- What has been read with strength `q` may stand to the left of the next token, if that goes on with an
expression of strength `p`. -/
def Admits (p q : Precedence) (next : TokenKind) : Prop :=
  ∀ j r, joining? next = some (j, r) → p ≤ r → j.operand r ≤ q

/-! ### The tables of operators -/

theorem Quits.admits {p q : Precedence} {k : TokenKind} (h : Quits p k) : Admits p q k :=
  fun j r hj hp => absurd hp (h j r hj)

namespace Admits

variable {p q q' : Precedence} {k : TokenKind}

theorem tighter (h : Admits p q k) (hq : q ≤ q') : Admits p q' k :=
  fun j r hj hp => Precedence.le_trans (h j r hj hp) hq

/-- An operand of strength `q'` ends where none of the operators that could go on with it may follow. -/
theorem quits (h : Admits p q k) (hp : p ≤ q') (hno : ∀ j r, joining? k = some (j, r) → q' ≤ r → ¬ j.operand r ≤ q) :
    Quits q' k :=
  fun j r hj hr => hno j r hj hr (h j r hj (Precedence.le_trans hp hr))

theorem quits_assignment (h : Admits p .assignment k) (hp : p ≤ .assignment) : Quits .assignment k :=
  h.quits hp fun j r hj _ => by cases k <;> cases hj <;> decide

theorem quits_or (h : Admits p .or k) (hp : p ≤ .or) : Quits .or k :=
  h.quits hp fun j r hj _ => by cases k <;> cases hj <;> decide

theorem quits_and (h : Admits p .and k) (hp : p ≤ .and) : Quits .and k :=
  h.quits hp fun j r hj hr => by
    revert hr
    cases k <;> cases hj <;> decide

theorem quits_unary (h : Admits p .unary k) (hp : p ≤ .unary) : Quits .unary k :=
  h.quits hp fun j r hj hr => by
    revert hr
    cases k <;> cases hj <;> decide

theorem quits_next {t : TokenKind} {op : BinaryOp} (h : Admits p q k) (ht : binaryOp? t = some (op, q)) (hp : p ≤ q) :
    Quits q.next k := by
  have hnext : q ≤ q.next := by cases q <;> decide
  have hq : q = .equality ∨ q = .comparison ∨ q = .term ∨ q = .factor := by
    cases t <;> cases ht <;> decide
  refine h.quits (Precedence.le_trans hp hnext) fun j r hj hr => ?_
  revert hr
  rcases hq with rfl | rfl | rfl | rfl <;> cases k <;> cases hj <;> decide

end Admits

/-- An operator between two operands, as the compiler joins them. -/
theorem joining_of_binary {k : TokenKind} {op : BinaryOp} {q : Precedence} (h : binaryOp? k = some (op, q)) :
    joining? k = some (.binary op.opcode, q) ∧ ¬ q.next ≤ .assignment := by
  cases k <;> cases h <;> exact ⟨rfl, by decide⟩

theorem opening_of_unary {k : TokenKind} {op : UnaryOp} (h : unaryOp? k = some op) :
    opening? k = some (.unary op.opcode) := by
  cases k <;> cases h <;> rfl

/-- No token that goes on with an expression is an equals sign. -/
theorem ne_equal_of_joining {k : TokenKind} {j : Joining} {q : Precedence} (h : joining? k = some (j, q)) :
    k ≠ .equal := by
  rintro rfl
  cases h

namespace Compiler

variable {x : Point} {p q : Precedence} {t u : Token} {ts us : List Token} {names : List String}
  {pending : Option String} {legal : Prop} {r : Unit → CompileState → Prop}

/-! ### Going through the tokens of an expression -/

/-- The point is one where an expression of strength `p` with the given tokens is read, and where it ends. -/
structure Reading (p q : Precedence) (names : List String) (pending : Option String) (ts us : List Token) (x : Point) :
    Prop where
  strength : p ≤ q
  admits : Admits p q (nextKind us)
  no_equal : p ≤ .assignment → nextKind us ≠ .equal
  scope : x.scope.Shows names pending
  ahead : x.ahead = ts ++ us

/-- The compiler goes through the tokens of an expression of strength `q` up to the operators behind it. -/
def Leads (q : Precedence) (ts : List Token) (e : Expr) : Prop :=
  ∃ t ts' o, ts = t :: ts' ∧ opening? t.kind = some o ∧
    ∀ p budget x us names pending legal r, Reading p q names pending ts' us x →
      (∀ b, Answers (joinAll p b) (At (x.after (e.draft names x.draft) us)) legal r) →
      Answers (do openWith o (decide (p ≤ .assignment)) budget; joinAll p budget)
        (fun s => s.previous = t ∧ t.Proper ∧ s.At x) (e.Legal names pending x.draft ∧ legal) r

theorem answers_joinAll_quits (hq : Quits p x.next) (b : Nat) : Answers (joinAll p b) (At x) True fun _ => At x := by
  cases b with
  | zero => rw [joinAll]; exact .giveUp
  | succ b =>
      rw [joinAll]
      refine .get fun s hs => ?_
      rw [hs.kind_current]
      cases hj : joining? x.next with
      | none => exact .pure fun _ hs' => hs'
      | some jr =>
          simp only
          rw [if_neg (hq jr.1 jr.2 hj)]
          exact .pure fun _ hs' => hs'

/-- The next operator joins what has been read with what follows. -/
theorem answers_joinAll_joins {j : Joining} {y : Point} {legal' : Prop} (hx : x.ahead = t :: us)
    (hj : joining? t.kind = some (j, q)) (hp : p ≤ q)
    (hjoin : ∀ b, Answers (joinWith j q b) (At { x with ahead := us }) legal fun _ => At y)
    (hmore : ∀ b, Answers (joinAll p b) (At y) legal' r) (b : Nat) :
    Answers (joinAll p b) (At x) (legal ∧ legal') r := by
  cases b with
  | zero => rw [joinAll]; exact .giveUp
  | succ b =>
      rw [joinAll]
      refine .get fun s hs => ?_
      rw [hs.kind_current, next_of_cons hx, hj]
      simp only
      rw [if_pos hp]
      refine (answers_advance hx).bind_sure fun _ => ?_
      exact ((hjoin b).of_imp fun s hs => hs.2.2).bind fun _ => hmore b

/-- A whole expression: the next token does not go on with it. -/
theorem Leads.answers_expressionOf {e : Expr} (h : Leads q ts e) (hp : p ≤ q) (hq : Quits p (nextKind us))
    (hne : p ≤ .assignment → nextKind us ≠ .equal) (hs : x.scope.Shows names pending) (hx : x.ahead = ts ++ us)
    (budget : Nat) :
    Answers (expressionOf p budget) (At x) (e.Legal names pending x.draft) fun _ =>
      At (x.after (e.draft names x.draft) us) := by
  cases budget with
  | zero => rw [expressionOf]; exact .giveUp
  | succ budget =>
      obtain ⟨t, ts', o, rfl, ho, h⟩ := h
      rw [expressionOf]
      refine (answers_advance hx).bind_sure fun _ => .get fun s hs' => ?_
      rw [hs'.1, ho]
      have hend : Answers (do
          if decide (p ≤ .assignment) then
            if ← accept .equal then complain .invalidAssignmentTarget : Compiler Unit)
          (At (x.after (e.draft names x.draft) us)) True fun _ => At (x.after (e.draft names x.draft) us) := by
        by_cases hassign : p ≤ .assignment
        · rw [if_pos (decide_eq_true hassign)]
          exact answers_accept_of_ne (hne hassign) (.pure fun _ hs' => hs')
        · rw [if_neg (by simpa using hassign)]
          exact .pure fun _ hs' => hs'
      have hread := h p budget { x with ahead := ts' ++ us } us names pending True
        (fun _ => At (x.after (e.draft names x.draft) us)) ⟨hp, hq.admits, hne, hs, rfl⟩
        fun b => answers_joinAll_quits hq b
      have := (hread.congr (and_iff_left trivial)).bind_last fun _ => hend
      simpa using this

/-- The token that follows ends an expression. -/
def Closes (k : TokenKind) : Prop := joining? k = none ∧ k ≠ .equal

instance (k : TokenKind) : Decidable (Closes k) := inferInstanceAs (Decidable (_ ∧ _))

theorem Leads.answers_expression {e : Expr} (h : Leads .assignment ts e) (hus : Closes (nextKind us))
    (hs : x.scope.Shows names pending) (hx : x.ahead = ts ++ us) (budget : Nat) :
    Answers (expression budget) (At x) (e.Legal names pending x.draft) fun _ =>
      At (x.after (e.draft names x.draft) us) :=
  h.answers_expressionOf (Nat.le_refl _) (fun j r hj => by rw [hus.1] at hj; cases hj) (fun _ => hus.2) hs hx budget

/-- An expression starts with a token that opens one. -/
theorem Leads.nextKind_ne {e : Expr} {k : TokenKind} (h : Leads q ts e) (hk : opening? k = none) (us : List Token) :
    nextKind (ts ++ us) ≠ k := by
  obtain ⟨t, ts', o, rfl, ho, -⟩ := h
  rintro rfl
  rw [List.cons_append, nextKind, ho] at hk
  cases hk

/-- An expression that is read by what its first token opens. -/
theorem leads_of_open {e : Expr} {o : Opening} (ho : opening? t.kind = some o)
    (h : ∀ p budget x us names pending, Reading p q names pending ts us x →
      Answers (openWith o (decide (p ≤ .assignment)) (budget + 1)) (fun s => s.previous = t ∧ t.Proper ∧ s.At x)
        (e.Legal names pending x.draft) fun _ => At (x.after (e.draft names x.draft) us)) : Leads q (t :: ts) e := by
  refine ⟨t, ts, o, rfl, ho, fun p budget x us names pending legal r hr hmore => ?_⟩
  refine .bind ?_ fun _ => hmore budget
  cases budget with
  | zero => rw [openWith]; exact .giveUp
  | succ budget => exact h p budget x us names pending hr

theorem Leads.looser {q' : Precedence} {e : Expr} (h : Leads q ts e) (hq : q' ≤ q) : Leads q' ts e := by
  obtain ⟨t, ts', o, hts, ho, h⟩ := h
  refine ⟨t, ts', o, hts, ho, fun p budget x us names pending legal r hr hmore => ?_⟩
  exact h p budget x us names pending legal r
    ⟨Precedence.le_trans hr.strength hq, hr.admits.tighter hq, hr.no_equal, hr.scope, hr.ahead⟩ hmore

/-- An expression with a left operand: the operator behind it joins it with the rest, whose code and rules depend
on the code so far. -/
theorem leads_of_join {q' : Precedence} {l e : Expr} {j : Joining} {ls rs : List Token}
    (joined : List String → Draft → Draft) (rule : List String → Option String → Draft → Prop) (hl : Leads q' ls l)
    (hj : joining? t.kind = some (j, q)) (hq : q ≤ q') (hop : j.operand q ≤ q')
    (hdraft : ∀ names d, e.draft names d = joined names (l.draft names d))
    (hlegal : ∀ names pending d, e.Legal names pending d ↔
      l.Legal names pending d ∧ rule names pending (l.draft names d))
    (hjoin : ∀ p b x us names pending, Reading p q names pending rs us x →
      Answers (joinWith j q (b + 1)) (At x) (rule names pending x.draft) fun _ =>
        At (x.after (joined names x.draft) us)) : Leads q (ls ++ t :: rs) e := by
  obtain ⟨t₀, ls', o, rfl, ho, h⟩ := hl
  refine ⟨t₀, ls' ++ t :: rs, o, rfl, ho, fun p budget x us names pending legal r hr hmore => ?_⟩
  have hadmits : Admits p q' t.kind := by
    intro j' r' hj' _
    rw [hj] at hj'
    cases hj'
    exact hop
  have hahead : x.ahead = ls' ++ (t :: (rs ++ us)) := by simp [hr.ahead]
  refine (h p budget x (t :: (rs ++ us)) names pending (rule names pending (l.draft names x.draft) ∧ legal) r
    ⟨Precedence.le_trans hr.strength hq, hadmits, fun _ => ne_equal_of_joining hj, hr.scope, hahead⟩
    fun b => ?_).congr ?_
  · rw [hdraft] at hmore
    refine answers_joinAll_joins rfl hj hr.strength (fun b => ?_) hmore b
    cases b with
    | zero => rw [joinWith]; exact .giveUp
    | succ b =>
        exact hjoin p b (x.after (l.draft names x.draft) (rs ++ us)) us names pending
          ⟨hr.strength, hr.admits, hr.no_equal, hr.scope, rfl⟩
  · rw [hlegal, and_assoc]

/-! ### The forms of expressions -/

theorem leads_word {e : Expr} {op : Opcode} (ho : opening? t.kind = some (.literal op))
    (hdraft : ∀ names d, e.draft names d = d.write 1) (hlegal : ∀ names pending d, e.Legal names pending d) :
    Leads .primary [t] e := by
  refine leads_of_open ho fun p budget x us names pending hr => ?_
  obtain rfl : x.ahead = us := hr.ahead
  rw [openWith, hdraft]
  exact ((answers_emit op).of_imp fun s hs => hs.2.2).of_legal (hlegal names pending x.draft)

theorem answers_previousLexeme :
    Answers previousLexeme (fun s => s.previous = t ∧ t.Proper ∧ s.At x) True fun lexeme s =>
      lexeme = t.lexeme ∧ t.Proper ∧ s.At x :=
  .get fun s hs => .pure fun s' hs' => ⟨by rw [hs.1], hs'.2⟩

theorem leads_number {v : Float} (ht : t.kind = .number) (hv : Number.ofLiteral? t.lexeme.toList = some v) :
    Leads .primary [t] (.number v) := by
  refine leads_of_open (by rw [ht]; rfl) fun p budget x us names pending hr => ?_
  obtain rfl : x.ahead = us := hr.ahead
  rw [openWith, Expr.Legal, Expr.draft]
  refine answers_previousLexeme.bind_known ?_
  rw [hv]
  exact (answers_emitConstant (.number v) none).of_imp fun s hs => ⟨.number v, hs.2⟩

theorem leads_text {chars : String} (ht : t.kind = .string) (hc : unquote? t.lexeme = some chars) :
    Leads .primary [t] (.text chars) := by
  refine leads_of_open (by rw [ht]; rfl) fun p budget x us names pending hr => ?_
  obtain rfl : x.ahead = us := hr.ahead
  rw [openWith, Expr.Legal, Expr.draft]
  refine answers_previousLexeme.bind_known ?_
  rw [hc]
  exact .bind_sure (.modifyGet fun s hs => (hs.2.intern chars).symm) fun handle => answers_emitConstant _ _

/-- A variable is looked up, and what is done with it follows. -/
theorem answers_variable {f : Access → Compiler Unit} [∀ a, ByMoves (f a)] (hs : x.scope.Shows names pending)
    (ht : t.kind = .identifier)
    (hf : ∀ a, Answers (f a) (At { x with draft := x.draft.access names t.lexeme }) legal r) :
    Answers (do
      match ← accessOf (← previousLexeme) with
      | none => return
      | some access => f access) (fun s => s.previous = t ∧ t.Proper ∧ s.At x)
      (x.draft.Usable names pending t.lexeme ∧ legal) r := by
  refine answers_previousLexeme.bind_known ?_
  have hmoves : ∀ a : Option Access, ByMoves (match a with
      | none => Pure.pure ()
      | some access => f access) := by
    intro a
    cases a <;> infer_instance
  have haccess : Answers (accessOf t.lexeme) (fun s => t.Proper ∧ s.At x) (x.draft.Usable names pending t.lexeme)
      fun a s => (∃ access, a = some access) ∧ s.At { x with draft := x.draft.access names t.lexeme } :=
    fun s a s' hat => answers_accessOf hs (hat.1.named ht) s a s' hat.2
  refine haccess.bind fun a => ?_
  rintro s₁ b s₂ ⟨⟨access, rfl⟩, hat⟩ h
  exact hf access s₁ b s₂ hat h

theorem leads_variable (ht : t.kind = .identifier) : Leads .primary [t] (.variable t.lexeme) := by
  refine leads_of_open (by rw [ht]; rfl) fun p budget x us names pending hr => ?_
  obtain rfl : x.ahead = us := hr.ahead
  rw [openWith, Expr.Legal, Expr.draft]
  refine (answers_variable hr.scope ht fun access => ?_).congr (and_iff_left trivial)
  by_cases hp : p ≤ .assignment
  · rw [if_pos (decide_eq_true hp)]
    exact answers_accept_of_ne (hr.no_equal hp) (answers_emitByte _ _)
  · rw [if_neg (by simpa using hp)]
    exact answers_emitByte _ _

theorem leads_assign {e : Expr} (ht : t.kind = .identifier) (hu : u.kind = .equal) (h : Leads .assignment ts e) :
    Leads .assignment (t :: u :: ts) (.assign t.lexeme e) := by
  refine leads_of_open (by rw [ht]; rfl) fun p budget x us names pending hr => ?_
  rw [openWith, Expr.Legal, Expr.draft]
  refine answers_variable hr.scope ht fun access => ?_
  rw [if_pos (decide_eq_true hr.strength)]
  refine answers_accept_of_cons (x := { x with draft := x.draft.access names t.lexeme }) hr.ahead hu ?_
  refine (h.answers_expressionOf (x := { x with draft := x.draft.access names t.lexeme, ahead := ts ++ us })
    (by decide) (hr.admits.quits_assignment hr.strength) (fun _ => hr.no_equal hr.strength) hr.scope rfl
    budget).bind_last fun _ => ?_
  exact answers_emitByte _ _

theorem leads_grouping {e : Expr} (ht : t.kind = .leftParen) (h : Leads .assignment ts e) (hu : u.kind = .rightParen) :
    Leads .primary (t :: (ts ++ [u])) e := by
  refine leads_of_open (by rw [ht]; rfl) fun p budget x us names pending hr => ?_
  have hahead : x.ahead = ts ++ u :: us := by simp [hr.ahead]
  rw [openWith]
  exact ((h.answers_expression (by rw [nextKind, hu]; decide) hr.scope hahead budget).of_imp
    fun s hs => hs.2.2).bind_last fun _ => answers_expect rfl hu

theorem leads_unary {op : UnaryOp} {e : Expr} (ht : unaryOp? t.kind = some op) (h : Leads .unary ts e) :
    Leads .unary (t :: ts) (.unary op e) := by
  refine leads_of_open (opening_of_unary ht) fun p budget x us names pending hr => ?_
  rw [openWith, Expr.Legal, Expr.draft]
  refine ((h.answers_expressionOf (by decide) (hr.admits.quits_unary hr.strength) (fun hp => absurd hp (by decide))
    hr.scope hr.ahead budget).of_imp fun s hs => hs.2.2).bind_last fun _ => ?_
  exact answers_emit _

theorem leads_binary {op : BinaryOp} {l e : Expr} {ls rs : List Token} (ht : binaryOp? t.kind = some (op, q))
    (hl : Leads q ls l) (hr : Leads q.next rs e) : Leads q (ls ++ t :: rs) (.binary op l e) := by
  obtain ⟨hj, hno⟩ := joining_of_binary ht
  refine leads_of_join (fun names d => (e.draft names d).write 1) (fun names pending d => e.Legal names pending d) hl hj
    (Nat.le_refl _) (Nat.le_refl _) (fun names d => by rw [Expr.draft]) (fun names pending d => by rw [Expr.Legal])
    fun p b x us names pending h => ?_
  rw [joinWith]
  refine (hr.answers_expressionOf (Nat.le_refl _) (h.admits.quits_next ht h.strength) (fun hp => absurd hp hno)
    h.scope h.ahead b).bind_last fun _ => ?_
  exact answers_emit _

theorem leads_and {l e : Expr} {ls rs : List Token} (ht : t.kind = .andWord) (hl : Leads .equality ls l)
    (hr : Leads .and rs e) : Leads .and (ls ++ t :: rs) (.and l e) := by
  have hj : joining? t.kind = some (.and, .and) := by rw [ht]; rfl
  refine leads_of_join (fun names d => e.draft names (d.write 4))
    (fun names pending d => e.Legal names pending (d.write 4) ∧ Near (d.size + 3) (e.draft names (d.write 4)).size)
    hl hj (by decide) (by decide) (fun names d => by rw [Expr.draft])
    (fun names pending d => by rw [Expr.Legal]) fun p b x us names pending h => ?_
  rw [joinWith]
  refine (answers_emitJump _).bind_known ((answers_emit _).bind_sure fun _ => ?_)
  have hsize := e.size_le_draft names (x.draft.write 4)
  refine (hr.answers_expressionOf (x := x.write 4) (by decide) (h.admits.quits_and h.strength)
    (fun hp => absurd hp (by decide)) h.scope h.ahead b).bind fun _ => answers_patchJump ?_
  simp only [Point.after, Point.write, Draft.write] at hsize ⊢
  omega

theorem leads_or {l e : Expr} {ls rs : List Token} (ht : t.kind = .orWord) (hl : Leads .and ls l)
    (hr : Leads .or rs e) : Leads .or (ls ++ t :: rs) (.or l e) := by
  have hj : joining? t.kind = some (.or, .or) := by rw [ht]; rfl
  refine leads_of_join (fun names d => e.draft names (d.write 7))
    (fun names pending d => e.Legal names pending (d.write 7) ∧ Near (d.size + 6) (e.draft names (d.write 7)).size)
    hl hj (by decide) (by decide) (fun names d => by rw [Expr.draft])
    (fun names pending d => by rw [Expr.Legal]) fun p b x us names pending h => ?_
  rw [joinWith]
  refine (answers_emitJump _).bind_known ((answers_emitJump _).bind_known ?_)
  -- the first jump goes over the second one only
  have hnear : Near (x.draft.size + 3) (x.draft.size + 6) := by
    unfold Near
    omega
  have hskip : Answers (patchJump (x.draft.size + 1)) (At (x.write 6)) True fun _ => At (x.write 6) :=
    (answers_patchJump (x := x.write 6) (by simp [Point.write, Draft.write])).congr ⟨fun _ => trivial, fun _ => hnear⟩
  refine hskip.bind_sure fun _ => (answers_emit _).bind_sure fun _ => ?_
  have hsize := e.size_le_draft names (x.draft.write 7)
  refine (hr.answers_expressionOf (x := x.write 7) (by decide) (h.admits.quits_or h.strength)
    (fun hp => absurd hp (by decide)) h.scope h.ahead b).bind fun _ => answers_patchJump (m := x.draft.size + 3) ?_
  simp only [Point.after, Point.write, Draft.write] at hsize ⊢
  omega

/-! ### Calls -/

/-- The compiler goes through the tokens of some arguments up to the parenthesis behind them. -/
def ArgsLead (ts : List Token) (args : Args) : Prop :=
  (∀ us, nextKind (ts ++ us) ≠ .rightParen) ∧
    ∀ count b x us names pending, count ≤ 255 → nextKind us = .rightParen → x.scope.Shows names pending →
      x.ahead = ts ++ us →
      Answers (arguments count b) (At x) (args.Legal names pending x.draft ∧ count + args.length ≤ 255) fun _ =>
        At (x.after (args.draft names x.draft) us)

theorem answers_countArgument (count : Nat) :
    Answers (countArgument count) (At x) (count ≠ 255) fun n s => n = count + 1 ∧ s.At x := by
  by_cases hmany : count = 255
  · rw [countArgument, if_pos hmany]
    exact answers_complain_pure (fun h => h hmany) fun _ hs => hs.sane
  · rw [countArgument, if_neg hmany]
    exact Answers.of_legal (.pure fun _ hs => ⟨rfl, hs⟩) hmany

theorem argsLead_last {e : Expr} (h : Leads .assignment ts e) : ArgsLead ts (.cons e .nil) := by
  refine ⟨h.nextKind_ne rfl, fun count b x us names pending hcount hus hs hx => ?_⟩
  cases b with
  | zero => rw [arguments]; exact .giveUp
  | succ b =>
      have hend : Answers (do if ← accept .comma then arguments (count + 1) b else return count + 1)
          (At (x.after (e.draft names x.draft) us)) True fun _ => At (x.after (e.draft names x.draft) us) :=
        answers_accept_of_ne (by rw [Point.next, Point.after, hus]; decide) (.pure fun _ hs => hs)
      rw [arguments, Args.Legal, Args.Legal, Args.draft, Args.draft]
      refine ((h.answers_expression (by rw [hus]; decide) hs hx b).bind fun _ =>
        (answers_countArgument count).bind_value fun _ => hend).congr ?_
      rw [Args.length, Args.length]
      constructor
      · rintro ⟨he, hroom, -⟩
        exact ⟨⟨he, trivial⟩, by omega⟩
      · rintro ⟨⟨he, -⟩, hroom⟩
        exact ⟨he, by omega, trivial⟩

theorem argsLead_cons {e : Expr} {args : Args} (h : Leads .assignment ts e) (ht : t.kind = .comma)
    (hr : ArgsLead us args) : ArgsLead (ts ++ t :: us) (.cons e args) := by
  refine ⟨fun vs => by rw [List.append_assoc]; exact h.nextKind_ne rfl _,
    fun count b x vs names pending hcount hvs hs hx => ?_⟩
  rw [List.append_assoc, List.cons_append] at hx
  cases b with
  | zero => rw [arguments]; exact .giveUp
  | succ b =>
      have hmore (hroom : count ≠ 255) :
          Answers (do if ← accept .comma then arguments (count + 1) b else return count + 1)
            (At (x.after (e.draft names x.draft) (t :: (us ++ vs))))
            (args.Legal names pending (e.draft names x.draft) ∧ count + 1 + args.length ≤ 255) fun _ =>
              At (x.after (args.draft names (e.draft names x.draft)) vs) :=
        answers_accept_of_cons rfl ht (hr.2 (count + 1) b (x.after (e.draft names x.draft) (us ++ vs)) vs names pending
          (by omega) hvs hs rfl)
      rw [arguments, Args.Legal, Args.draft]
      refine ((h.answers_expression (by rw [nextKind, ht]; decide) hs hx b).bind fun _ =>
        (answers_countArgument count).bind_value hmore).congr ?_
      rw [Args.length]
      constructor
      · rintro ⟨he, -, ha, hroom⟩
        exact ⟨⟨he, ha⟩, by omega⟩
      · rintro ⟨⟨he, ha⟩, hroom⟩
        exact ⟨he, by omega, ha, by omega⟩

theorem leads_call {f : Expr} {args : Args} {ls rs : List Token} (ht : t.kind = .leftParen) (hl : Leads .call ls f)
    (hr : args = .nil ∧ rs = [] ∨ ArgsLead rs args) (hu : u.kind = .rightParen) :
    Leads .call (ls ++ t :: (rs ++ [u])) (.call f args) := by
  have hj : joining? t.kind = some (.call, .call) := by rw [ht]; rfl
  refine leads_of_join (fun names d => (args.draft names d).write 2)
    (fun names pending d => args.Legal names pending d ∧ args.length ≤ 255)
    hl hj (by decide) (by decide) (fun names d => by rw [Expr.draft])
    (fun names pending d => by rw [Expr.Legal]) fun p b x us names pending h => ?_
  have hahead : x.ahead = rs ++ u :: us := by simp [h.ahead]
  have hend : ∀ count, Answers (do expect .rightParen .parenAfterArguments; emitByte .call count)
      (At (x.after (args.draft names x.draft) (u :: us))) True fun _ =>
        At (x.after ((args.draft names x.draft).write 2) us) :=
    fun count => (answers_expect rfl hu).bind_sure fun _ => answers_emitByte _ _
  rw [joinWith]
  refine (answers_sees _).bind_known ?_
  rcases hr with ⟨rfl, rfl⟩ | ⟨hfirst, hargs⟩
  · rw [next_of_cons hahead, hu, if_pos (by decide)]
    have hx : x = x.after (Args.nil.draft names x.draft) (u :: us) := by
      rw [List.nil_append] at hahead
      rw [Args.draft, Point.after, ← hahead]
    rw [← hx] at hend
    refine Answers.of_legal ?_ (by simp [Args.Legal, Args.length])
    exact .bind_sure (.pure fun _ hs => hs) hend
  · have hne : x.next ≠ .rightParen := by
      rw [Point.next, hahead]
      exact hfirst _
    rw [if_neg (by simpa using hne)]
    refine ((hargs 0 b x (u :: us) names pending (Nat.zero_le _) hu h.scope hahead).bind_last hend).congr ?_
    rw [Nat.zero_add]

end Compiler

mutual

/-- The compiler goes through every expression of the grammar. -/
theorem Expr.Reads.leads : ∀ {q : Precedence} {ts : List Token} {e : Expr}, Expr.Reads q ts e → Compiler.Leads q ts e
  | _, _, _, .looser hq h => h.leads.looser hq
  | _, _, _, .nil ht => Compiler.leads_word (by rw [ht]; rfl) (fun _ _ => by rw [Expr.draft]) fun _ _ _ => by simp
  | _, _, _, .yes ht => Compiler.leads_word (by rw [ht]; rfl) (fun _ _ => by rw [Expr.draft]) fun _ _ _ => by simp
  | _, _, _, .no ht => Compiler.leads_word (by rw [ht]; rfl) (fun _ _ => by rw [Expr.draft]) fun _ _ _ => by simp
  | _, _, _, .number ht hv => Compiler.leads_number ht hv
  | _, _, _, .text ht hc => Compiler.leads_text ht hc
  | _, _, _, .variable ht => Compiler.leads_variable ht
  | _, _, _, .grouping ht h hu => Compiler.leads_grouping ht h.leads hu
  | _, _, _, .assign ht hu h => Compiler.leads_assign ht hu h.leads
  | _, _, _, .unary ht h => Compiler.leads_unary ht h.leads
  | _, _, _, .binary ht hl hr => Compiler.leads_binary ht hl.leads hr.leads
  | _, _, _, .and ht hl hr => Compiler.leads_and ht hl.leads hr.leads
  | _, _, _, .or ht hl hr => Compiler.leads_or ht hl.leads hr.leads
  | _, _, _, .call ht hl hr hu => Compiler.leads_call ht hl.leads hr.leads hu

theorem Args.Reads.leads : ∀ {ts : List Token} {args : Args}, Args.Reads ts args →
    args = .nil ∧ ts = [] ∨ Compiler.ArgsLead ts args
  | _, _, .nil => .inl ⟨rfl, rfl⟩
  | _, _, .last h => .inr (Compiler.argsLead_last h.leads)
  | _, _, .cons h ht hr => .inr (Compiler.argsLead_cons h.leads ht (hr.leads.resolve_left nofun))

end

end Lox
