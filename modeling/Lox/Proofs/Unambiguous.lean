import Lox.Proofs.Compile.Language
import Lox.Proofs.Token.Joined

/-! The grammar is unambiguous: no tokens read as two different expressions, and as two programs only if these differ
in nothing but the handles that name their functions. An expression is taken apart from the left: what its first
token begins, and then one operator after the other, each with what stands to its right. The strengths of the
operators leave no choice where a right side ends. Statements are told apart by their first words. -/

namespace Lox

/-! ### The parts of an expression -/

/-- No operator goes on with an expression of strength `p`, nor is it assigned to. -/
structure Ends (p : Precedence) (us : List Token) : Prop where
  quits : Quits p (nextKind us)
  no_equal : nextKind us ≠ .equal

/-- What has been read with strength `q` may stand to the left of what follows in an expression of strength `p`. -/
structure Precedes (p q : Precedence) (us : List Token) : Prop where
  strength : p ≤ q
  admits : Admits p q (nextKind us)
  no_equal : nextKind us ≠ .equal

namespace Expr

/-- The expression that a token is on its own. -/
def ofToken? (t : Token) : Option Expr :=
  match t.kind with
  | .nilWord => some .nil
  | .trueWord => some (.truth true)
  | .falseWord => some (.truth false)
  | .number => (Number.ofLiteral? t.lexeme.toList).map .number
  | .string => (Compiler.unquote? t.lexeme).map .text
  | .identifier => some (.variable t.lexeme)
  | _ => none

/-- The tokens are an expression with no operator behind an operand. -/
inductive Begins : Precedence → List Token → Expr → Prop where
  | word {t : Token} {e : Expr} (ht : ofToken? t = some e) : Begins .primary [t] e
  | grouping {t u : Token} {ts : List Token} {e : Expr} (ht : t.kind = .leftParen) (h : Reads .assignment ts e)
      (hu : u.kind = .rightParen) : Begins .primary (t :: (ts ++ [u])) e
  | assign {t u : Token} {ts : List Token} {e : Expr} (ht : t.kind = .identifier) (hu : u.kind = .equal)
      (h : Reads .assignment ts e) : Begins .assignment (t :: u :: ts) (.assign t.lexeme e)
  | unary {t : Token} {ts : List Token} {op : UnaryOp} {e : Expr} (ht : unaryOp? t.kind = some op)
      (h : Reads .unary ts e) : Begins .unary (t :: ts) (.unary op e)

/-- An operator with what stands to its right makes an expression of what stands to its left. -/
inductive Joins : Token → List Token → (Expr → Expr) → Prop where
  | binary {t : Token} {rs : List Token} {op : BinaryOp} {p : Precedence} {r : Expr}
      (ht : binaryOp? t.kind = some (op, p)) (hr : Reads p.next rs r) : Joins t rs (.binary op · r)
  | and {t : Token} {rs : List Token} {r : Expr} (ht : t.kind = .andWord) (hr : Reads .and rs r) : Joins t rs (.and · r)
  | or {t : Token} {rs : List Token} {r : Expr} (ht : t.kind = .orWord) (hr : Reads .or rs r) : Joins t rs (.or · r)
  | call {t u : Token} {rs : List Token} {args : Args} (ht : t.kind = .leftParen) (hr : Args.Reads rs args)
      (hu : u.kind = .rightParen) : Joins t (rs ++ [u]) (.call · args)

/-- From an expression of strength `q` the tokens go on to one of strength `q'`, one operator after the other. -/
inductive Continues : Precedence → Expr → List Token → Precedence → Expr → Prop where
  | done {q : Precedence} {e : Expr} : Continues q e [] q e
  | join {t : Token} {j : Joining} {p q q' : Precedence} {l e : Expr} {rs ts : List Token} {f : Expr → Expr}
      (hj : joining? t.kind = some (j, p)) (hq : j.operand p ≤ q) (hf : Joins t rs f)
      (h : Continues p (f l) ts q' e) : Continues q l (t :: (rs ++ ts)) q' e

theorem Continues.snoc {t : Token} {j : Joining} {p q q' : Precedence} {l e : Expr} {rs ts : List Token}
    {f : Expr → Expr} (h : Continues q l ts q' e) (hj : joining? t.kind = some (j, p)) (hq : j.operand p ≤ q')
    (hf : Joins t rs f) :
    Continues q l (ts ++ t :: rs) p (f e) := by
  induction h with
  | @done q e =>
      have hone : Continues q e (t :: (rs ++ [])) p (f e) := .join hj hq hf .done
      rwa [List.append_nil] at hone
  | join hj' hq' hf' _ ih =>
      have hall := Continues.join hj' hq' hf' (ih hq)
      rwa [← List.append_assoc] at hall

/-- Every expression has its first part, and operators after it. -/
theorem Reads.parts {q : Precedence} {ts : List Token} {e : Expr} (h : Reads q ts e) :
    ∃ q₀ q₁ hs rest d, ts = hs ++ rest ∧ Begins q₀ hs d ∧ Continues q₀ d rest q₁ e ∧ q ≤ q₁ := by
  match h with
  | .looser hq h =>
      obtain ⟨q₀, q₁, hs, rest, d, rfl, hb, hc, hle⟩ := h.parts
      exact ⟨q₀, q₁, hs, rest, d, rfl, hb, hc, Precedence.le_trans hq hle⟩
  | .nil ht | .yes ht | .no ht | .variable ht =>
      exact ⟨_, _, _, [], _, rfl, .word (by simp [ofToken?, ht]), .done, Nat.le_refl _⟩
  | .number ht hx | .text ht hx =>
      exact ⟨_, _, _, [], _, rfl, .word (by simp [ofToken?, ht, hx]), .done, Nat.le_refl _⟩
  | .grouping ht h hu => exact ⟨_, _, _, [], _, (List.append_nil _).symm, .grouping ht h hu, .done, Nat.le_refl _⟩
  | .assign ht hu h => exact ⟨_, _, _, [], _, (List.append_nil _).symm, .assign ht hu h, .done, Nat.le_refl _⟩
  | .unary ht h => exact ⟨_, _, _, [], _, (List.append_nil _).symm, .unary ht h, .done, Nat.le_refl _⟩
  | .binary ht hl hr =>
      obtain ⟨q₀, q₁, hs, rest, d, rfl, hb, hc, hle⟩ := hl.parts
      exact ⟨q₀, _, hs, _, d, by rw [List.append_assoc], hb, hc.snoc (joining_of_binary ht).1 hle (.binary ht hr),
        Nat.le_refl _⟩
  | .and ht hl hr =>
      obtain ⟨q₀, q₁, hs, rest, d, rfl, hb, hc, hle⟩ := hl.parts
      exact ⟨q₀, _, hs, _, d, by rw [List.append_assoc], hb, hc.snoc (j := .and) (by rw [ht]; rfl) hle (.and ht hr),
        Nat.le_refl _⟩
  | .or ht hl hr =>
      obtain ⟨q₀, q₁, hs, rest, d, rfl, hb, hc, hle⟩ := hl.parts
      exact ⟨q₀, _, hs, _, d, by rw [List.append_assoc], hb, hc.snoc (j := .or) (by rw [ht]; rfl) hle (.or ht hr),
        Nat.le_refl _⟩
  | .call ht hl hr hu =>
      obtain ⟨q₀, q₁, hs, rest, d, rfl, hb, hc, hle⟩ := hl.parts
      exact ⟨q₀, _, hs, _, d,
        by rw [List.append_assoc], hb, hc.snoc (j := .call) (by rw [ht]; rfl) hle (.call ht hr hu), Nat.le_refl _⟩

/-! ### One way to read an expression -/

variable {p q q' : Precedence} {t t' : Token} {ts ts' us us' : List Token} {e e' l : Expr} {n : Nat}

theorem joining_le {k : TokenKind} {j : Joining} (h : joining? k = some (j, p)) : p ≤ j.operand p := by
  cases k <;> cases h <;> decide

theorem Continues.le (h : Continues q l ts q' e) : q' ≤ q := by
  induction h with
  | done => exact Nat.le_refl _
  | join hj hq _ _ ih => exact Precedence.le_trans ih (Precedence.le_trans (joining_le hj) hq)

/-- Where operators go on with an expression, what has been read may stand to their left. -/
theorem Continues.precedes (h : Continues q l ts q' e) (hp : p ≤ q') (hus : Ends p us) : Precedes p q (ts ++ us) := by
  refine ⟨Precedence.le_trans hp h.le, ?_, ?_⟩ <;> cases h with
  | done => first
    | exact hus.quits.admits
    | exact hus.no_equal
  | join hj hq => first
    | exact ne_equal_of_joining hj
    | rintro j' r hj' -
      have := hj.symm.trans hj'
      cases this
      exact hq

/-- Expressions with fewer tokens than a bound are read in one way, and end at one place. -/
def UniqueBelow (n : Nat) : Prop :=
  ∀ {q : Precedence} {ts ts' us us' : List Token} {e e' : Expr}, ts.length < n → Reads q ts e → Reads q ts' e' →
    ts ++ us = ts' ++ us' → Ends q us → Ends q us' → e = e' ∧ us = us'

/-- Behind a token that ends an expression of any strength. -/
theorem ends_of_closes (h : Compiler.Closes t.kind) : Ends p (t :: us) := by
  refine ⟨fun j r hj => ?_, h.2⟩
  rw [nextKind, h.1] at hj
  cases hj

theorem Begins.unique (ih : UniqueBelow n) {hs hs' : List Token} {h h' : Expr} (hb : Begins q hs h)
    (hb' : Begins q' hs' h') (hn : hs.length ≤ n) (heq : hs ++ us = hs' ++ us') (hf : Precedes p q us)
    (hf' : Precedes p q' us') : q = q' ∧ h = h' ∧ us = us' := by
  have hword : ∀ {t : Token} {e : Expr}, ofToken? t = some e → t.kind ≠ .leftParen ∧ unaryOp? t.kind = none := by
    intro t e ht
    unfold ofToken? at ht
    split at ht <;> simp_all [unaryOp?]
  cases hb with
  | @word t e ht =>
      cases hb' with
      | @word t' e' ht' =>
          obtain ⟨rfl, rfl⟩ := List.cons.inj heq
          exact ⟨rfl, Option.some.inj (ht.symm.trans ht'), rfl⟩
      | grouping ht' =>
          obtain ⟨rfl, -⟩ := List.cons.inj heq
          exact absurd ht' (hword ht).1
      | assign ht' hu' =>
          obtain ⟨rfl, rfl⟩ := List.cons.inj heq
          exact absurd hu' hf.no_equal
      | unary ht' =>
          obtain ⟨rfl, -⟩ := List.cons.inj heq
          simp [(hword ht).2] at ht'
  | @grouping t u ts e ht h hu =>
      cases hb' with
      | word ht' =>
          obtain ⟨rfl, -⟩ := List.cons.inj heq
          exact absurd ht (hword ht').1
      | @grouping t' u' ts' e' ht' h' hu' =>
          simp only [List.cons_append, List.append_assoc, List.cons.injEq, List.nil_append] at heq
          simp only [List.length_cons, List.length_append] at hn
          obtain ⟨rfl, heq⟩ := ih (by omega) h h' heq.2 (ends_of_closes (by rw [hu]; decide))
            (ends_of_closes (by rw [hu']; decide))
          exact ⟨rfl, rfl, (List.cons.inj heq).2⟩
      | assign ht' =>
          obtain ⟨rfl, -⟩ := List.cons.inj heq
          simp [ht] at ht'
      | unary ht' =>
          obtain ⟨rfl, -⟩ := List.cons.inj heq
          simp [ht, unaryOp?] at ht'
  | @assign t u ts e ht hu h =>
      cases hb' with
      | word =>
          obtain ⟨rfl, rfl⟩ := List.cons.inj heq
          exact absurd hu hf'.no_equal
      | grouping ht' =>
          obtain ⟨rfl, -⟩ := List.cons.inj heq
          simp [ht] at ht'
      | assign _ _ h' =>
          simp only [List.cons_append, List.cons.injEq] at heq
          obtain ⟨rfl, rfl, heq⟩ := heq
          simp only [List.length_cons] at hn
          obtain ⟨rfl, rfl⟩ := ih (by omega) h h' heq ⟨hf.admits.quits_assignment hf.strength, hf.no_equal⟩
            ⟨hf'.admits.quits_assignment hf'.strength, hf'.no_equal⟩
          exact ⟨rfl, rfl, rfl⟩
      | unary ht' =>
          obtain ⟨rfl, -⟩ := List.cons.inj heq
          simp [ht, unaryOp?] at ht'
  | unary ht h =>
      cases hb' with
      | word ht' =>
          obtain ⟨rfl, -⟩ := List.cons.inj heq
          simp [(hword ht').2] at ht
      | grouping ht' | assign ht' =>
          obtain ⟨rfl, -⟩ := List.cons.inj heq
          simp [ht', unaryOp?] at ht
      | unary ht' h' =>
          simp only [List.cons_append, List.cons.injEq] at heq
          obtain ⟨rfl, heq⟩ := heq
          cases ht.symm.trans ht'
          simp only [List.length_cons] at hn
          obtain ⟨rfl, rfl⟩ := ih (by omega) h h' heq ⟨hf.admits.quits_unary hf.strength, hf.no_equal⟩
            ⟨hf'.admits.quits_unary hf'.strength, hf'.no_equal⟩
          exact ⟨rfl, rfl, rfl⟩

/-- An expression starts with a token that opens one. -/
theorem Reads.opens (h : Reads q ts e) {vs : List Token} (heq : ts ++ us = t :: vs) : opening? t.kind ≠ none :=
  fun hk => h.leads.nextKind_ne hk us (by rw [heq]; rfl)

end Expr

open Lox.Expr

/-- Argument lists whose expressions are read in one way are read in one way. -/
theorem Args.Reads.unique {n : Nat} (ih : UniqueBelow n) :
    ∀ {ts ts' us us' : List Token} {t t' : Token} {args args' : Args}, Args.Reads ts args → Args.Reads ts' args' →
    ts.length < n → ts ++ t :: us = ts' ++ t' :: us' →
    t.kind = .rightParen → t'.kind = .rightParen → args = args' ∧ us = us'
  | _, _, us, us', t, t', _, _, h, h', hn, heq, ht, ht' => by
      have hend : Ends .assignment (t :: us) := ends_of_closes (by rw [ht]; decide)
      have hend' : Ends .assignment (t' :: us') := ends_of_closes (by rw [ht']; decide)
      cases h with
      | nil =>
          cases h' with
          | nil => exact ⟨rfl, (List.cons.inj heq).2⟩
          | last hl => exact absurd (by rw [ht]; rfl) (hl.opens heq.symm)
          | cons hl _ _ =>
              rw [List.append_assoc] at heq
              exact absurd (by rw [ht]; rfl) (hl.opens heq.symm)
      | last hl =>
          cases h' with
          | nil => exact absurd (by rw [ht']; rfl) (hl.opens heq)
          | last hl' =>
              obtain ⟨rfl, hrest⟩ := ih hn hl hl' heq hend hend'
              exact ⟨rfl, (List.cons.inj hrest).2⟩
          | cons hl' hc' _ =>
              rw [List.append_assoc] at heq
              obtain ⟨-, hrest⟩ := ih hn hl hl' heq hend (ends_of_closes (by rw [hc']; decide))
              obtain ⟨rfl, -⟩ := List.cons.inj hrest
              simp [hc'] at ht
      | cons hl hc hr =>
          rw [List.append_assoc] at heq
          simp only [List.length_append, List.length_cons] at hn
          cases h' with
          | nil => exact absurd (by rw [ht']; rfl) (hl.opens heq)
          | last hl' =>
              obtain ⟨-, hrest⟩ := ih (by omega) hl hl' heq (ends_of_closes (by rw [hc]; decide)) hend'
              obtain ⟨rfl, -⟩ := List.cons.inj hrest
              simp [hc] at ht'
          | cons hl' hc' hr' =>
              rw [List.append_assoc] at heq
              obtain ⟨rfl, hrest⟩ := ih (by omega) hl hl' heq (ends_of_closes (by rw [hc]; decide))
                (ends_of_closes (by rw [hc']; decide))
              obtain ⟨hargs, hus⟩ := Args.Reads.unique ih hr hr' (by omega) (List.cons.inj hrest).2 ht ht'
              exact ⟨by rw [hargs], hus⟩

namespace Expr

variable {p q q' : Precedence} {t t' : Token} {ts ts' us us' : List Token} {e e' l : Expr} {n : Nat}

/-- An operator is read in one way, with all that belongs to its right side. -/
theorem Joins.unique {j : Joining} {rs rs' : List Token} {f f' : Expr → Expr} (ih : UniqueBelow n) (h : Joins t rs f)
    (h' : Joins t rs' f') (hn : rs.length < n) (heq : rs ++ us = rs' ++ us') (hj : joining? t.kind = some (j, q))
    (hf : Precedes p q us) (hf' : Precedes p q us') : f = f' ∧ us = us' := by
  cases h with
  | binary ht hr =>
      cases h' with
      | binary ht' hr' =>
          cases ht.symm.trans ht'
          cases (joining_of_binary ht).1.symm.trans hj
          obtain ⟨rfl, rfl⟩ := ih hn hr hr' heq ⟨hf.admits.quits_next ht hf.strength, hf.no_equal⟩
            ⟨hf'.admits.quits_next ht hf'.strength, hf'.no_equal⟩
          exact ⟨rfl, rfl⟩
      | and ht' | or ht' | call ht' => simp [ht', binaryOp?] at ht
  | and ht hr =>
      rw [ht] at hj
      cases hj
      cases h' with
      | and _ hr' =>
          obtain ⟨rfl, rfl⟩ := ih hn hr hr' heq ⟨hf.admits.quits_and hf.strength, hf.no_equal⟩
            ⟨hf'.admits.quits_and hf'.strength, hf'.no_equal⟩
          exact ⟨rfl, rfl⟩
      | binary ht' => simp [ht, binaryOp?] at ht'
      | or ht' | call ht' => simp [ht] at ht'
  | or ht hr =>
      rw [ht] at hj
      cases hj
      cases h' with
      | or _ hr' =>
          obtain ⟨rfl, rfl⟩ := ih hn hr hr' heq ⟨hf.admits.quits_or hf.strength, hf.no_equal⟩
            ⟨hf'.admits.quits_or hf'.strength, hf'.no_equal⟩
          exact ⟨rfl, rfl⟩
      | binary ht' => simp [ht, binaryOp?] at ht'
      | and ht' | call ht' => simp [ht] at ht'
  | call ht hr hu =>
      cases h' with
      | call _ hr' hu' =>
          rw [List.append_assoc, List.append_assoc] at heq
          simp only [List.length_append, List.length_cons] at hn
          obtain ⟨rfl, rfl⟩ := hr.unique ih hr' (by omega) heq hu hu'
          exact ⟨rfl, rfl⟩
      | binary ht' => simp [ht, binaryOp?] at ht'
      | and ht' | or ht' => simp [ht] at ht'

/-- An operator that goes on with an expression does not end it. -/
theorem Continues.not_ends {j : Joining} {f : Expr → Expr} {rs : List Token} (hj : joining? t.kind = some (j, q))
    (h : Continues q (f l) ts q' e) (hp : p ≤ q') (hus : Ends p (t :: (rs ++ ts) ++ us)) : False :=
  hus.quits j q hj (Precedence.le_trans hp h.le)

theorem Continues.unique {q₁ q₂ : Precedence} (ih : UniqueBelow n) (h : Continues q l ts q₁ e) :
    ∀ {ts'}, Continues q l ts' q₂ e' → ts.length ≤ n → ts ++ us = ts' ++ us' → p ≤ q₁ →
    p ≤ q₂ → Ends p us →
      Ends p us' → e = e' ∧ us = us' := by
  induction h with
  | done =>
      intro ts' h' _ heq _ hp' hus _
      cases h' with
      | done => exact ⟨rfl, heq⟩
      | join hj' _ _ h' =>
          obtain rfl : us = _ := heq
          exact (h'.not_ends hj' hp' hus).elim
  | join hj hq hf h hrec =>
      intro ts' h' hn heq hp hp' hus hus'
      cases h' with
      | done =>
          obtain rfl : _ = us' := heq
          exact (h.not_ends hj hp hus').elim
      | join hj' _ hf' h' =>
          simp only [List.cons_append, List.append_assoc, List.cons.injEq] at heq
          obtain ⟨rfl, heq⟩ := heq
          cases hj.symm.trans hj'
          simp only [List.length_cons, List.length_append] at hn
          obtain ⟨rfl, hrest⟩ := hf.unique ih hf' (by omega) heq hj (h.precedes hp hus) (h'.precedes hp' hus')
          exact hrec h' (by omega) hrest hp hp' hus hus'

/-- **Expressions are read in one way**, and end at one place. -/
theorem Reads.unique (h : Reads q ts e) (h' : Reads q ts' e') (heq : ts ++ us = ts' ++ us') (hus : Ends q us)
    (hus' : Ends q us') : e = e' ∧ us = us' := by
  have hall : ∀ n, UniqueBelow n := by
    intro n
    induction n with
    | zero => exact fun hn => absurd hn (Nat.not_lt_zero _)
    | succ n ih =>
        intro q ts ts' us us' e e' hn h h' heq hus hus'
        obtain ⟨q₀, q₁, hs, rest, d, rfl, hb, hc, hle⟩ := h.parts
        obtain ⟨q₀', q₁', hs', rest', d', rfl, hb', hc', hle'⟩ := h'.parts
        rw [List.append_assoc, List.append_assoc] at heq
        rw [List.length_append] at hn
        obtain ⟨rfl, rfl, hrest⟩ := hb.unique ih hb' (by omega) heq (hc.precedes hle hus) (hc'.precedes hle' hus')
        exact hc.unique ih hc' (by omega) hrest hle hle' hus hus'
  exact hall _ (Nat.lt_succ_self _) h h' heq hus hus'

/-- An expression between words that are no part of it. -/
theorem Reads.unique_closed (h : Reads .assignment ts e) (h' : Reads .assignment ts' e')
    (heq : ts ++ t :: us = ts' ++ t' :: us') (ht : Compiler.Closes t.kind) (ht' : Compiler.Closes t'.kind) :
    e = e' ∧ t = t' ∧ us = us' := by
  obtain ⟨rfl, hrest⟩ := h.unique h' heq (ends_of_closes ht) (ends_of_closes ht')
  exact ⟨rfl, List.cons.inj hrest⟩

end Expr

/-! ### Programs that differ in the handles of their functions -/

mutual

/-- The statements are the same but for the handles of their functions, which go together. -/
inductive Stmt.Relabels (F : Handle → Handle → Prop) : Stmt → Stmt → Prop where
  | expression {e : Expr} : Stmt.Relabels F (.expression e) (.expression e)
  | print {e : Expr} : Stmt.Relabels F (.print e) (.print e)
  | ret {e : Expr} : Stmt.Relabels F (.ret e) (.ret e)
  | cond {c : Expr} {yes yes' no no' : Stmt} (hy : Stmt.Relabels F yes yes') (hn : Stmt.Relabels F no no') :
      Stmt.Relabels F (.cond c yes no) (.cond c yes' no')
  | loop {c i : Option Expr} {body body' : Stmt} (hb : Stmt.Relabels F body body') :
      Stmt.Relabels F (.loop c i body) (.loop c i body')
  | block {body body' : Block} (hb : Block.Relabels F body body') : Stmt.Relabels F (.block body) (.block body')
  | var {name : String} {e : Expr} : Stmt.Relabels F (.var name e) (.var name e)
  | function {label label' : Handle} {name : String} {params : List String} {body body' : Block}
      (hl : F label label') (hb : Block.Relabels F body body') :
      Stmt.Relabels F (.function label name params body) (.function label' name params body')

/-- The sequences are the same but for the handles of their functions, which go together. -/
inductive Block.Relabels (F : Handle → Handle → Prop) : Block → Block → Prop where
  | nil : Block.Relabels F .nil .nil
  | cons {s s' : Stmt} {rest rest' : Block} (hs : Stmt.Relabels F s s') (hr : Block.Relabels F rest rest') :
      Block.Relabels F (.cons s rest) (.cons s' rest')

end

/-- Nothing is asked of the handles. -/
abbrev AnyLabels (_ _ : Handle) : Prop := True

/-! ### One way to read a program -/

/-- Words of different kinds do not begin the same tokens. -/
theorem words_differ {t t' : Token} {ts ts' : List Token} {k k' : TokenKind} (heq : t :: ts = t' :: ts')
    (ht : t.kind = k) (ht' : t'.kind = k') (hne : k ≠ k') : False :=
  hne (by rw [← ht, ← ht', (List.cons.inj heq).1])

/-- A word that opens no expression begins none. -/
theorem Expr.Reads.not_word {q : Precedence} {t : Token} {ts us vs ws : List Token} {e : Expr} {k : TokenKind}
    (h : Reads q ts e) (heq : ts ++ us ++ vs = t :: ws) (ht : t.kind = k) (hk : opening? k = Option.none) : False :=
  h.opens ((List.append_assoc ..).symm.trans heq) (by rw [ht, hk])

section Statements

variable {ts ts' us us' : List Token} {t t' : Token}

/-- A word, an expression and a semicolon. -/
theorem Expr.Reads.unique_ended {u u' : Token} {e e' : Expr} (h : Reads .assignment ts e)
    (h' : Reads .assignment ts' e') (hu : u.kind = .semicolon) (hu' : u'.kind = .semicolon)
    (heq : t :: (ts ++ [u]) ++ us = t' :: (ts' ++ [u']) ++ us') : e = e' ∧ us = us' := by
  simp only [List.cons_append, List.append_assoc, List.nil_append, List.cons.injEq] at heq
  obtain ⟨rfl, -, rfl⟩ := h.unique_closed h' heq.2 (by rw [hu]; decide) (by rw [hu']; decide)
  exact ⟨rfl, rfl⟩

/-- A word, a condition in parentheses, and what is subject to it. -/
theorem Expr.Reads.unique_condition {u u' v v' : Token} {cs cs' : List Token} {c c' : Expr}
    (h : Reads .assignment cs c) (h' : Reads .assignment cs' c') (hv : v.kind = .rightParen)
    (hv' : v'.kind = .rightParen)
    (heq : t :: u :: (cs ++ v :: ts) ++ us = t' :: u' :: (cs' ++ v' :: ts') ++ us') : c = c' ∧
    ts ++ us = ts' ++ us' := by
  simp only [List.cons_append, List.append_assoc, List.cons.injEq] at heq
  obtain ⟨rfl, -, hrest⟩ := h.unique_closed h' heq.2.2 (by rw [hv]; decide) (by rw [hv']; decide)
  exact ⟨rfl, hrest⟩

theorem ParamsRead.unique {params params' : List String} (h : ParamsRead ts params) (h' : ParamsRead ts' params')
    (heq : ts ++ t :: us = ts' ++ t' :: us') (ht : t.kind = .rightParen) (ht' : t'.kind = .rightParen) :
    params = params' ∧ us = us' := by
  induction h generalizing ts' params' with
  | nil =>
      cases h' with
      | nil => exact ⟨rfl, (List.cons.inj heq).2⟩
      | last hi | cons hi =>
          obtain ⟨rfl, -⟩ := List.cons.inj heq
          simp [hi] at ht
  | last hi =>
      cases h' with
      | nil =>
          obtain ⟨rfl, -⟩ := List.cons.inj heq
          simp [hi] at ht'
      | last hi' =>
          simp only [List.cons_append, List.nil_append, List.cons.injEq] at heq
          obtain ⟨rfl, -, rfl⟩ := heq
          exact ⟨rfl, rfl⟩
      | cons hi' hc' hr' =>
          simp only [List.cons_append, List.nil_append, List.cons.injEq] at heq
          obtain ⟨rfl, rfl, -⟩ := heq
          simp [hc'] at ht
  | cons hi hc hr ih =>
      cases h' with
      | nil =>
          obtain ⟨rfl, -⟩ := List.cons.inj heq
          simp [hi] at ht'
      | last hi' =>
          simp only [List.cons_append, List.nil_append, List.cons.injEq] at heq
          obtain ⟨rfl, rfl, -⟩ := heq
          simp [hc] at ht'
      | cons hi' hc' hr' =>
          simp only [List.cons_append, List.cons.injEq] at heq
          obtain ⟨rfl, rfl, heq⟩ := heq
          obtain ⟨hnames, rfl⟩ := ih hr' heq
          exact ⟨by rw [hnames], rfl⟩

theorem ClauseReads.unique {c c' : Option Expr} (h : ClauseReads ts c) (h' : ClauseReads ts' c')
    (heq : ts ++ t :: us = ts' ++ t' :: us') (ht : Compiler.Closes t.kind ∧ opening? t.kind = Option.none)
    (ht' : Compiler.Closes t'.kind ∧ opening? t'.kind = Option.none) : c = c' ∧ us = us' := by
  cases h with
  | none =>
      cases h' with
      | none => exact ⟨rfl, (List.cons.inj heq).2⟩
      | some he' => exact absurd ht.2 (he'.opens heq.symm)
  | some he =>
      cases h' with
      | none => exact absurd ht'.2 (he.opens heq)
      | some he' =>
          obtain ⟨rfl, -, rfl⟩ := he.unique_closed he' heq ht.1 ht'.1
          exact ⟨rfl, rfl⟩

theorem VarReads.unique {s s' : Stmt} (h : VarReads ts s) (h' : VarReads ts' s') (heq : ts ++ us = ts' ++ us') :
    s.Relabels AnyLabels s' ∧ us = us' := by
  cases h with
  | bare ht hu hv =>
      cases h' with
      | bare =>
          simp only [List.cons_append, List.nil_append, List.cons.injEq] at heq
          obtain ⟨rfl, rfl, rfl, rfl⟩ := heq
          exact ⟨.var, rfl⟩
      | value _ _ hv' =>
          simp only [List.cons_append, List.nil_append, List.cons.injEq] at heq
          obtain ⟨rfl, rfl, rfl, -⟩ := heq
          simp [hv] at hv'
  | value ht hu hv he hw =>
      cases h' with
      | bare _ _ hv' =>
          simp only [List.cons_append, List.nil_append, List.cons.injEq] at heq
          obtain ⟨rfl, rfl, rfl, -⟩ := heq
          simp [hv] at hv'
      | value _ _ _ he' hw' =>
          simp only [List.cons_append, List.append_assoc, List.nil_append, List.cons.injEq] at heq
          obtain ⟨rfl, rfl, rfl, heq⟩ := heq
          obtain ⟨rfl, -, rfl⟩ := he.unique_closed he' heq (by rw [hw]; decide) (by rw [hw']; decide)
          exact ⟨.var, rfl⟩

theorem InitializerReads.unique {rest rest' body body' : Block} (h : InitializerReads ts rest body)
    (h' : InitializerReads ts' rest' body') (heq : ts ++ us = ts' ++ us') :
    (rest.Relabels AnyLabels rest' → body.Relabels AnyLabels body') ∧ us = us' := by
  cases h with
  | none ht =>
      cases h' with
      | none => exact ⟨id, (List.cons.inj heq).2⟩
      | var hv =>
          obtain ⟨v, vs, rfl, hk⟩ := hv.starts
          exact (words_differ heq ht hk (by decide)).elim
      | expression he => exact (he.not_word heq.symm ht rfl).elim
  | var hv =>
      obtain ⟨v, vs, rfl, hk⟩ := hv.starts
      cases h' with
      | none ht' => exact (words_differ heq hk ht' (by decide)).elim
      | var hv' =>
          obtain ⟨hs, rfl⟩ := hv.unique hv' heq
          exact ⟨.cons hs, rfl⟩
      | expression he => exact (he.not_word heq.symm hk rfl).elim
  | expression he ht =>
      cases h' with
      | none ht' => exact (he.not_word heq ht' rfl).elim
      | var hv =>
          obtain ⟨v, vs, rfl, hk⟩ := hv.starts
          exact (he.not_word heq hk rfl).elim
      | expression he' ht' =>
          rw [List.append_assoc, List.append_assoc] at heq
          obtain ⟨rfl, -, rfl⟩ := he.unique_closed he' heq (by rw [ht]; decide) (by rw [ht']; decide)
          exact ⟨.cons .expression, rfl⟩

end Statements

theorem Stmt.Reads.not_end {o : Bool} {ts us : List Token} {s : Stmt} (h : Stmt.Reads o ts s)
    (hus : nextKind (ts ++ us) ∈ [.rightBrace, .eof]) : False := by
  refine h.starts us ?_
  simp only [List.mem_cons, List.not_mem_nil, or_false] at hus ⊢
  tauto

/-- The words that declare something begin no statement. -/
theorem Stmt.Reads.not_declaration {o : Bool} {t : Token} {ts us ws : List Token} {s : Stmt} (h : Stmt.Reads o ts s)
    (heq : ts ++ us = t :: ws) (ht : t.kind = .funWord ∨ t.kind = .varWord) : False := by
  refine h.starts us ?_
  rw [heq]
  rcases ht with ht | ht <;> simp [nextKind, ht]

/-- A statement that could be followed by an `else` is not followed by one. -/
def NoElse (o : Bool) (us : List Token) : Prop := o = true → nextKind us ≠ .elseWord

mutual

theorem Stmt.Reads.unique : ∀ {o o' : Bool} {ts ts' us us' : List Token} {s s' : Stmt}, Stmt.Reads o ts s →
    Stmt.Reads o' ts' s' → ts ++ us = ts' ++ us' → NoElse o us → NoElse o' us' → s.Relabels AnyLabels s' ∧ us = us'
  | _, _, _, _, _, _, _, _, .expression he ht, h', heq, _, _ => by
      cases h' with
      | expression he' ht' =>
          rw [List.append_assoc, List.append_assoc] at heq
          obtain ⟨rfl, -, rfl⟩ := he.unique_closed he' heq (by rw [ht]; decide) (by rw [ht']; decide)
          exact ⟨.expression, rfl⟩
      | print hk | leave hk | ret hk | block hk | ifAlone hk | ifElse hk | «while» hk | «for» hk =>
          exact (he.not_word heq hk rfl).elim
  | _, _, _, _, _, _, _, _, .print ht he hu, h', heq, _, _ => by
      cases h' with
      | print _ he' hu' =>
          obtain ⟨rfl, rfl⟩ := he.unique_ended he' hu hu' heq
          exact ⟨.print, rfl⟩
      | expression he' =>
          exact (he'.not_word heq.symm ht rfl).elim
      | leave hk | ret hk | block hk | ifAlone hk | ifElse hk | «while» hk | «for» hk =>
          exact (words_differ heq ht hk (by decide)).elim
  | _, _, _, _, _, _, _, _, .leave ht hu, h', heq, _, _ => by
      cases h' with
      | leave =>
          simp only [List.cons_append, List.nil_append, List.cons.injEq] at heq
          obtain ⟨rfl, -, rfl⟩ := heq
          exact ⟨.ret, rfl⟩
      | ret _ he' _ =>
          simp only [List.cons_append, List.append_assoc, List.nil_append, List.cons.injEq] at heq
          exact absurd (by rw [hu]; rfl) (he'.opens heq.2.symm)
      | expression he' =>
          exact (he'.not_word heq.symm ht rfl).elim
      | print hk | block hk | ifAlone hk | ifElse hk | «while» hk | «for» hk =>
          exact (words_differ heq ht hk (by decide)).elim
  | _, _, _, _, _, _, _, _, .ret ht he hu, h', heq, _, _ => by
      cases h' with
      | ret _ he' hu' =>
          obtain ⟨rfl, rfl⟩ := he.unique_ended he' hu hu' heq
          exact ⟨.ret, rfl⟩
      | leave _ hu' =>
          simp only [List.cons_append, List.append_assoc, List.nil_append, List.cons.injEq] at heq
          exact absurd (by rw [hu']; rfl) (he.opens heq.2)
      | expression he' =>
          exact (he'.not_word heq.symm ht rfl).elim
      | print hk | block hk | ifAlone hk | ifElse hk | «while» hk | «for» hk =>
          exact (words_differ heq ht hk (by decide)).elim
  | _, _, _, _, _, _, _, _, .block ht hb hu, h', heq, _, _ => by
      cases h' with
      | block _ hb' hu' =>
          simp only [List.cons_append, List.append_assoc, List.nil_append, List.cons.injEq] at heq
          obtain ⟨rfl, heq⟩ := heq
          obtain ⟨hbody, hrest⟩ := hb.unique hb' heq (by simp [nextKind, hu]) (by simp [nextKind, hu'])
          exact ⟨.block hbody, (List.cons.inj hrest).2⟩
      | expression he' =>
          exact (he'.not_word heq.symm ht rfl).elim
      | print hk | leave hk | ret hk | ifAlone hk | ifElse hk | «while» hk | «for» hk =>
          exact (words_differ heq ht hk (by decide)).elim
  | _, _, _, _, us, us', _, _, .ifAlone ht hu hc hv hy, h', heq, hno, hno' => by
      cases h' with
      | ifAlone _ _ hc' hv' hy' =>
          obtain ⟨rfl, heq⟩ := hc.unique_condition hc' hv hv' heq
          obtain ⟨hyes, rfl⟩ := hy.unique hy' heq (fun _ => hno rfl) fun _ => hno' rfl
          exact ⟨.cond hyes (.block .nil), rfl⟩
      | ifElse _ _ hc' hv' hy' hw' _ =>
          -- the tokens of the longer one go on with an `else`, which does not follow the shorter one
          obtain ⟨rfl, heq⟩ := hc.unique_condition hc' hv hv' heq
          rw [List.append_assoc] at heq
          obtain ⟨-, rfl⟩ := hy.unique hy' heq (fun _ => hno rfl) nofun
          exact absurd hw' (hno rfl)
      | expression he' =>
          exact (he'.not_word heq.symm ht rfl).elim
      | print hk | leave hk | ret hk | block hk | «while» hk | «for» hk =>
          exact (words_differ heq ht hk (by decide)).elim
  | _, _, _, _, us, us', _, _, .ifElse ht hu hc hv hy hw hn, h', heq, hno, hno' => by
      cases h' with
      | ifAlone _ _ hc' hv' hy' =>
          obtain ⟨rfl, heq⟩ := hc.unique_condition hc' hv hv' heq
          rw [List.append_assoc] at heq
          obtain ⟨-, rfl⟩ := hy.unique hy' heq nofun fun _ => hno' rfl
          exact absurd hw (hno' rfl)
      | ifElse _ _ hc' hv' hy' hw' hn' =>
          obtain ⟨rfl, heq⟩ := hc.unique_condition hc' hv hv' heq
          rw [List.append_assoc, List.append_assoc] at heq
          obtain ⟨hyes, heq⟩ := hy.unique hy' heq nofun nofun
          obtain ⟨hnot, rfl⟩ := hn.unique hn' (List.cons.inj heq).2 hno hno'
          exact ⟨.cond hyes hnot, rfl⟩
      | expression he' =>
          exact (he'.not_word heq.symm ht rfl).elim
      | print hk | leave hk | ret hk | block hk | «while» hk | «for» hk =>
          exact (words_differ heq ht hk (by decide)).elim
  | _, _, _, _, _, _, _, _, .while ht hu hc hv hb, h', heq, hno, hno' => by
      cases h' with
      | «while» _ _ hc' hv' hb' =>
          obtain ⟨rfl, heq⟩ := hc.unique_condition hc' hv hv' heq
          obtain ⟨hbody, rfl⟩ := hb.unique hb' heq hno hno'
          exact ⟨.loop hbody, rfl⟩
      | expression he' =>
          exact (he'.not_word heq.symm ht rfl).elim
      | print hk | leave hk | ret hk | block hk | ifAlone hk | ifElse hk | «for» hk =>
          exact (words_differ heq ht hk (by decide)).elim
  | _, _, _, _, _, _, _, _, .for ht hu hi hc hv hn hw hb, h', heq, hno, hno' => by
      cases h' with
      | «for» _ _ hi' hc' hv' hn' hw' hb' =>
          simp only [List.cons_append, List.append_assoc, List.cons.injEq] at heq
          obtain ⟨rfl, rfl, heq⟩ := heq
          obtain ⟨hbody, heq⟩ := hi.unique hi' heq
          obtain ⟨rfl, heq⟩ := hc.unique hc' heq (by rw [hv]; decide) (by rw [hv']; decide)
          obtain ⟨rfl, heq⟩ := hn.unique hn' heq (by rw [hw]; decide) (by rw [hw']; decide)
          obtain ⟨hrest, rfl⟩ := hb.unique hb' heq hno hno'
          exact ⟨.block (hbody (.cons (.loop hrest) .nil)), rfl⟩
      | expression he' =>
          exact (he'.not_word heq.symm ht rfl).elim
      | print hk | leave hk | ret hk | block hk | ifAlone hk | ifElse hk | «while» hk =>
          exact (words_differ heq ht hk (by decide)).elim

/-- Sequences up to the end of a block, or of the source. -/
theorem Block.Reads.unique : ∀ {ts ts' us us' : List Token} {b b' : Block}, Block.Reads ts b → Block.Reads ts' b' →
    ts ++ us = ts' ++ us' → nextKind us ∈ [.rightBrace, .eof] → nextKind us' ∈ [.rightBrace, .eof] →
    b.Relabels AnyLabels b' ∧ us = us'
  | _, _, us, _, _, _, .nil, h', heq, hus, hus' => by
      cases h' with
      | nil => exact ⟨.nil, heq⟩
      | function hk =>
          obtain rfl : us = _ := heq
          simp [nextKind, hk] at hus
      | var hv =>
          obtain ⟨v, vs, rfl, hk⟩ := hv.starts
          obtain rfl : us = _ := heq
          simp [nextKind, hk] at hus
      | statement hs =>
          rw [List.append_assoc] at heq
          obtain rfl : us = _ := heq
          exact (hs.not_end hus).elim
  | _, _, us, us', _, _, .function ht hu hv hp hw hx hb hy hr, h', heq, hus, hus' => by
      cases h' with
      | nil =>
          obtain rfl : _ = us' := heq
          simp [nextKind, ht] at hus'
      | function _ _ _ hp' hw' _ hb' hy' hr' =>
          simp only [List.cons_append, List.append_assoc, List.cons.injEq] at heq
          obtain ⟨rfl, rfl, rfl, heq⟩ := heq
          obtain ⟨rfl, heq⟩ := hp.unique hp' heq hw hw'
          obtain ⟨hbody, heq⟩ := hb.unique hb' (List.cons.inj heq).2 (by simp [nextKind, hy]) (by simp [nextKind, hy'])
          obtain ⟨hrest, rfl⟩ := hr.unique hr' (List.cons.inj heq).2 hus hus'
          exact ⟨.cons (.function trivial hbody) hrest, rfl⟩
      | var hv' =>
          obtain ⟨v, vs, rfl, hk⟩ := hv'.starts
          exact (words_differ heq ht hk (by decide)).elim
      | statement hs =>
          rw [List.append_assoc] at heq
          exact (hs.not_declaration heq.symm (.inl ht)).elim
  | _, _, us, us', _, _, .var hv hr, h', heq, hus, hus' => by
      rw [List.append_assoc] at heq
      cases h' with
      | nil =>
          obtain ⟨v, vs, rfl, hk⟩ := hv.starts
          obtain rfl : _ = us' := heq
          simp [nextKind, hk] at hus'
      | function ht =>
          obtain ⟨v, vs, rfl, hk⟩ := hv.starts
          exact (words_differ heq hk ht (by decide)).elim
      | var hv' hr' =>
          rw [List.append_assoc] at heq
          obtain ⟨hs, heq⟩ := hv.unique hv' heq
          obtain ⟨hrest, rfl⟩ := hr.unique hr' heq hus hus'
          exact ⟨.cons hs hrest, rfl⟩
      | statement hs =>
          obtain ⟨v, vs, rfl, hk⟩ := hv.starts
          rw [List.append_assoc] at heq
          exact (hs.not_declaration heq.symm (.inr hk)).elim
  | _, _, us, us', _, _, .statement hs hr, h', heq, hus, hus' => by
      rw [List.append_assoc] at heq
      cases h' with
      | nil =>
          obtain rfl : _ = us' := heq
          exact (hs.not_end hus').elim
      | function ht => exact (hs.not_declaration heq (.inl ht)).elim
      | var hv =>
          obtain ⟨v, vs, rfl, hk⟩ := hv.starts
          exact (hs.not_declaration heq (.inr hk)).elim
      | statement hs' hr' =>
          rw [List.append_assoc] at heq
          obtain ⟨hst, heq⟩ := hs.unique hs' heq (fun _ => hr.starts hus) fun _ => hr'.starts hus'
          obtain ⟨hrest, rfl⟩ := hr.unique hr' heq hus hus'
          exact ⟨.cons hst hrest, rfl⟩

end

/-- **The grammar is unambiguous.** Two programs that a source reads as differ only in the handles of their functions.
-/
theorem Block.ReadsAll.unique {tokens : List Token} {p p' : Block} (h : p.ReadsAll tokens) (h' : p'.ReadsAll tokens) :
    p.Relabels AnyLabels p' := by
  obtain ⟨ts, last, rfl, hlast, hp⟩ := h
  obtain ⟨ts', last', heq, hlast', hp'⟩ := h'
  exact (hp.unique hp' heq (by simp [nextKind, hlast]) (by simp [nextKind, hlast'])).1

/-! ### Readings on other lines -/

mutual

theorem Expr.Reads.lowered (n : Nat) : ∀ {q : Precedence} {ts : List Token} {e : Expr}, Expr.Reads q ts e →
    Expr.Reads q (ts.map (Token.below n)) e
  | _, _, _, .looser hq h => .looser hq (h.lowered n)
  | _, _, _, .nil ht => .nil ht
  | _, _, _, .yes ht => .yes ht
  | _, _, _, .no ht => .no ht
  | _, _, _, .number ht hx => .number ht hx
  | _, _, _, .text ht hx => .text ht hx
  | _, _, _, .variable ht => .variable (t := Token.below n _) ht
  | _, _, _, .grouping ht h hu => by
      rw [List.map_cons, List.map_append]
      exact .grouping ht (h.lowered n) hu
  | _, _, _, .assign ht hu h => .assign (t := Token.below n _) (u := Token.below n _) ht hu (h.lowered n)
  | _, _, _, .unary ht h => .unary (t := Token.below n _) ht (h.lowered n)
  | _, _, _, .binary ht hl hr => by
      rw [List.map_append]
      exact .binary (t := Token.below n _) ht (hl.lowered n) (hr.lowered n)
  | _, _, _, .and ht hl hr => by
      rw [List.map_append]
      exact .and (t := Token.below n _) ht (hl.lowered n) (hr.lowered n)
  | _, _, _, .or ht hl hr => by
      rw [List.map_append]
      exact .or (t := Token.below n _) ht (hl.lowered n) (hr.lowered n)
  | _, _, _, .call ht hl hr hu => by
      rw [List.map_append, List.map_cons, List.map_append]
      exact .call ht (hl.lowered n) (hr.lowered n) hu

theorem Args.Reads.lowered (n : Nat) : ∀ {ts : List Token} {args : Args}, Args.Reads ts args →
    Args.Reads (ts.map (Token.below n)) args
  | _, _, .nil => .nil
  | _, _, .last h => .last (h.lowered n)
  | _, _, .cons h ht hr => by
      rw [List.map_append]
      exact .cons (t := Token.below n _) (h.lowered n) ht (hr.lowered n)

end

theorem ParamsRead.lowered (n : Nat) {ts : List Token} {params : List String} (h : ParamsRead ts params) :
    ParamsRead (ts.map (Token.below n)) params := by
  induction h with
  | nil => exact .nil
  | last ht => exact .last (t := Token.below n _) ht
  | cons ht hu _ ih => exact .cons (t := Token.below n _) (u := Token.below n _) ht hu ih

theorem ClauseReads.lowered (n : Nat) {ts : List Token} {c : Option Expr} (h : ClauseReads ts c) :
    ClauseReads (ts.map (Token.below n)) c := by
  cases h with
  | none => exact .none
  | some h => exact .some (h.lowered n)

theorem VarReads.lowered (n : Nat) {ts : List Token} {s : Stmt} (h : VarReads ts s) :
    VarReads (ts.map (Token.below n)) s := by
  cases h with
  | bare ht hu hv => exact .bare (t := Token.below n _) (u := Token.below n _) (v := Token.below n _) ht hu hv
  | value ht hu hv h hw =>
      simp only [List.map_cons, List.map_append, List.map_nil]
      exact .value (t := Token.below n _) (u := Token.below n _) (v := Token.below n _) ht hu hv (h.lowered n) hw

theorem InitializerReads.lowered (n : Nat) {ts : List Token} {rest body : Block} (h : InitializerReads ts rest body) :
    InitializerReads (ts.map (Token.below n)) rest body := by
  cases h with
  | none ht => exact .none (t := Token.below n _) ht
  | var h => exact .var (h.lowered n)
  | expression h ht =>
      rw [List.map_append]
      exact .expression (t := Token.below n _) (h.lowered n) ht

mutual

theorem Stmt.Reads.lowered (n : Nat) : ∀ {o : Bool} {ts : List Token} {s : Stmt}, Stmt.Reads o ts s →
    Stmt.Reads o (ts.map (Token.below n)) s
  | _, _, _, .expression h ht => by
      rw [List.map_append]
      exact .expression (t := Token.below n _) (h.lowered n) ht
  | _, _, _, .print ht h hu => by
      rw [List.map_cons, List.map_append]
      exact .print ht (h.lowered n) hu
  | _, _, _, .leave ht hu => .leave (t := Token.below n _) (u := Token.below n _) ht hu
  | _, _, _, .ret ht h hu => by
      rw [List.map_cons, List.map_append]
      exact .ret ht (h.lowered n) hu
  | _, _, _, .block ht h hu => by
      rw [List.map_cons, List.map_append]
      exact .block ht (h.lowered n) hu
  | _, _, _, .ifAlone ht hu hc hv hy => by
      simp only [List.map_cons, List.map_append]
      exact .ifAlone (t := Token.below n _) (u := Token.below n _) ht hu (hc.lowered n) hv (hy.lowered n)
  | _, _, _, .ifElse ht hu hc hv hy hw hn => by
      simp only [List.map_cons, List.map_append]
      exact .ifElse (t := Token.below n _) (u := Token.below n _) ht hu (hc.lowered n) hv (hy.lowered n) hw
        (hn.lowered n)
  | _, _, _, .while ht hu hc hv hb => by
      simp only [List.map_cons, List.map_append]
      exact .while (t := Token.below n _) (u := Token.below n _) ht hu (hc.lowered n) hv (hb.lowered n)
  | _, _, _, .for ht hu hi hc hv hn hw hb => by
      simp only [List.map_cons, List.map_append]
      exact .for (t := Token.below n _) (u := Token.below n _) ht hu (hi.lowered n) (hc.lowered n) hv (hn.lowered n) hw
        (hb.lowered n)

theorem Block.Reads.lowered (n : Nat) : ∀ {ts : List Token} {b : Block}, Block.Reads ts b →
    Block.Reads (ts.map (Token.below n)) b
  | _, _, .nil => .nil
  | _, _, .function ht hu hv hp hw hx hb hy hr => by
      simp only [List.map_cons, List.map_append]
      exact .function (t := Token.below n _) (u := Token.below n _) (v := Token.below n _) ht hu hv (hp.lowered n) hw hx
        (hb.lowered n) hy (hr.lowered n)
  | _, _, .var h hr => by
      rw [List.map_append]
      exact .var (h.lowered n) (hr.lowered n)
  | _, _, .statement h hr => by
      rw [List.map_append]
      exact .statement (h.lowered n) (hr.lowered n)

end

/-! ### One program after another -/

/-- The declarations of one sequence and then those of another one. -/
def Block.append : Block → Block → Block
  | .nil, q => q
  | .cons s rest, q => .cons s (rest.append q)

theorem Block.Reads.append {ts us : List Token} {p q : Block} (h : Block.Reads ts p) (hq : Block.Reads us q) :
    Block.Reads (ts ++ us) (p.append q) := by
  match h with
  | .nil => exact hq
  | .function ht hu hv hp hw hx hb hy hr =>
      simp only [List.cons_append, List.append_assoc]
      exact .function ht hu hv hp hw hx hb hy (hr.append hq)
  | .var h hr =>
      rw [List.append_assoc]
      exact .var h (hr.append hq)
  | .statement h hr =>
      rw [List.append_assoc]
      exact .statement h (hr.append hq)

/-- Two sources with a newline between them read as one program after the other. -/
theorem Block.ReadsAll.joined {a b : String} {p q : Block} (h : p.ReadsAll (tokenize a))
    (hq : q.ReadsAll (tokenize b)) :
    (p.append q).ReadsAll (tokenize (a ++ "\n" ++ b)) := by
  obtain ⟨us, last, n, htokens, -, hjoined⟩ := tokenize_joined h.words b
  obtain ⟨ts, last₁, heq, -, hp⟩ := h
  obtain ⟨rfl, -⟩ := List.append_inj' (heq.symm.trans htokens) rfl
  obtain ⟨vs, last₂, heq₂, hlast₂, hq⟩ := hq
  refine ⟨ts ++ vs.map (Token.below n), last₂.below n, ?_, hlast₂, hp.append (hq.lowered n)⟩
  rw [hjoined, heq₂, List.map_append, List.append_assoc]
  rfl

/-- What goes together with two sequences is two sequences. -/
theorem Block.Relabels.of_append {F : Handle → Handle → Prop} {p q b : Block} (h : (p.append q).Relabels F b) :
    ∃ p' q', b = p'.append q' ∧ p.Relabels F p' ∧ q.Relabels F q' := by
  match p, h with
  | .nil, h => exact ⟨.nil, b, rfl, .nil, h⟩
  | .cons s rest, .cons hs hr =>
      obtain ⟨p', q', rfl, hp, hq⟩ := of_append hr
      exact ⟨.cons _ p', q', rfl, .cons hs hp, hq⟩

end Lox
