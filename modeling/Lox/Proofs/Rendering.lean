import Lox.Proofs.Syntax

/-! Writing expressions down. An expression stands in a place of the grammar that asks for some binding strength, and
it needs parentheses where it binds less tightly than that. More of them may stand around any expression inside of
it, the targets of assignments apart, and whichever do, the tokens read as the expression. -/

namespace Lox

/-- What a token says, wherever it stands. -/
structure Word where
  kind : TokenKind
  lexeme : String
  deriving DecidableEq, Repr

/-- What the token says. -/
def Token.word (t : Token) : Word := ⟨t.kind, t.lexeme⟩

/-- How the operator is written. -/
def UnaryOp.word : UnaryOp → Word
  | .negate => ⟨.minus, "-"⟩
  | .not => ⟨.bang, "!"⟩

/-- How the operator is written. -/
def BinaryOp.word : BinaryOp → Word
  | .add => ⟨.plus, "+"⟩
  | .subtract => ⟨.minus, "-"⟩
  | .multiply => ⟨.star, "*"⟩
  | .divide => ⟨.slash, "/"⟩
  | .equal => ⟨.equalEqual, "=="⟩
  | .notEqual => ⟨.bangEqual, "!="⟩
  | .greater => ⟨.greater, ">"⟩
  | .greaterEqual => ⟨.greaterEqual, ">="⟩
  | .less => ⟨.less, "<"⟩
  | .lessEqual => ⟨.lessEqual, "<="⟩

/-- How tightly the operator binds. -/
def BinaryOp.strength : BinaryOp → Precedence
  | .add | .subtract => .term
  | .multiply | .divide => .factor
  | .equal | .notEqual => .equality
  | .greater | .greaterEqual | .less | .lessEqual => .comparison

/-- How tightly the outermost operator binds. -/
def Expr.strength : Expr → Precedence
  | .assign .. => .assignment
  | .or .. => .or
  | .and .. => .and
  | .binary op .. => op.strength
  | .unary .. => .unary
  | .call .. => .call
  | _ => .primary

/-- How expressions are written. A place in an expression is the list of the turns to it, the last one first. -/
structure Style where
  /-- The digits of a number. -/
  digits : Float → String
  /-- How many pairs of parentheses stand around the expression in a place besides those that it needs. -/
  extra : List Nat → Nat

/-- So many pairs of parentheses around the words. -/
def enclose : Nat → List Word → List Word
  | 0, ws => ws
  | count + 1, ws => ⟨.leftParen, "("⟩ :: (enclose count ws ++ [⟨.rightParen, ")"⟩])

/-- The words of an expression, and around them the parentheses that it needs in its place and those besides. -/
def Style.around (style : Style) (place : List Nat) (p : Precedence) (e : Expr) (ws : List Word) : List Word :=
  enclose (style.extra place + if p ≤ e.strength then 0 else 1) ws

mutual

/-- The words of an expression without parentheses around it. -/
def Expr.bare (style : Style) : List Nat → Expr → List Word
  | _, .nil => [⟨.nilWord, "nil"⟩]
  | _, .truth true => [⟨.trueWord, "true"⟩]
  | _, .truth false => [⟨.falseWord, "false"⟩]
  | _, .number x => [⟨.number, style.digits x⟩]
  | _, .text chars => [⟨.string, "\"" ++ chars ++ "\""⟩]
  | _, .variable name => [⟨.identifier, name⟩]
  | place, .assign name value =>
    ⟨.identifier, name⟩ :: ⟨.equal, "="⟩ ::
      style.around (0 :: place) .assignment value (value.bare style (0 :: place))
  | place, .unary op operand =>
    op.word :: style.around (0 :: place) .unary operand (operand.bare style (0 :: place))
  | place, .binary op left right =>
    style.around (0 :: place) op.strength left (left.bare style (0 :: place)) ++
      op.word :: style.around (1 :: place) op.strength.next right (right.bare style (1 :: place))
  | place, .and left right =>
    style.around (0 :: place) .equality left (left.bare style (0 :: place)) ++
      ⟨.andWord, "and"⟩ :: style.around (1 :: place) .and right (right.bare style (1 :: place))
  | place, .or left right =>
    style.around (0 :: place) .and left (left.bare style (0 :: place)) ++
      ⟨.orWord, "or"⟩ :: style.around (1 :: place) .or right (right.bare style (1 :: place))
  | place, .call callee arguments =>
    style.around (0 :: place) .call callee (callee.bare style (0 :: place)) ++
      ⟨.leftParen, "("⟩ :: (arguments.bare style (1 :: place) ++ [⟨.rightParen, ")"⟩])

/-- The words of an argument list. -/
def Args.bare (style : Style) : List Nat → Args → List Word
  | _, .nil => []
  | place, .cons first .nil =>
    style.around (0 :: place) .assignment first (first.bare style (0 :: place))
  | place, .cons first (.cons second rest) =>
    style.around (0 :: place) .assignment first (first.bare style (0 :: place)) ++
      ⟨.comma, ","⟩ :: (Args.cons second rest).bare style (1 :: place)

end

/-- The words of a whole expression. -/
def Expr.render (style : Style) (e : Expr) : List Word := style.around [] .assignment e (e.bare style [])

mutual

/-- All numbers in the expression can be written down, and are. -/
def Expr.Spelled (digits : Float → String) : Expr → Prop
  | .number x => Number.ofLiteral? (digits x).toList = some x
  | .assign _ value => value.Spelled digits
  | .unary _ operand => operand.Spelled digits
  | .binary _ left right | .and left right | .or left right => left.Spelled digits ∧ right.Spelled digits
  | .call callee arguments => callee.Spelled digits ∧ arguments.Spelled digits
  | _ => True

/-- All numbers in the arguments can be written down, and are. -/
def Args.Spelled (digits : Float → String) : Args → Prop
  | .nil => True
  | .cons first rest => first.Spelled digits ∧ rest.Spelled digits

end

variable {style : Style} {ts : List Token} {ws : List Word} {e : Expr} {p : Precedence}

/-! ### What is written reads as what it was -/

theorem Compiler.unquote?_quoted (chars : String) : Compiler.unquote? ("\"" ++ chars ++ "\"") = some chars := by
  have hlexeme : ("\"" ++ chars ++ "\"").toList = '"' :: (chars.toList ++ ['"']) := by simp
  unfold Compiler.unquote?
  rw [hlexeme]
  cases hc : chars.toList ++ ['"'] with
  | nil => simp at hc
  | cons c cs =>
      simp only
      rw [← hc, List.dropLast_concat, String.ofList_toList]

theorem binaryOp?_word (op : BinaryOp) : binaryOp? op.word.kind = some (op, op.strength) := by
  cases op <;> rfl

theorem unaryOp?_word (op : UnaryOp) : unaryOp? op.word.kind = some op := by
  cases op <;> rfl

theorem BinaryOp.assignment_le_strength (op : BinaryOp) : .assignment ≤ op.strength := by
  cases op <;> decide

theorem Expr.assignment_le_strength (e : Expr) : .assignment ≤ e.strength := by
  cases e with
  | binary op => exact op.assignment_le_strength
  | _ => exact Nat.le_of_ble_eq_true rfl

/-- Parentheses do not change what the words read as, and inside of them anything may stand. -/
theorem reads_enclose (h : ∀ ts, ts.map Token.word = ws → Expr.Reads .assignment ts e) (count : Nat) :
    ∀ ts, ts.map Token.word = enclose (count + 1) ws → Expr.Reads .primary ts e := by
  have hgroup : ∀ ws', (∀ ts, ts.map Token.word = ws' → Expr.Reads .assignment ts e) →
      ∀ ts, ts.map Token.word = ⟨.leftParen, "("⟩ :: (ws' ++ [⟨.rightParen, ")"⟩]) → Expr.Reads .primary ts e := by
    intro ws' h' ts hts
    obtain ⟨t, rest, rfl, ht, hrest⟩ := List.map_eq_cons_iff.mp hts
    obtain ⟨us, last, rfl, hus, hlast⟩ := List.map_eq_append_iff.mp hrest
    obtain ⟨u, nothing, rfl, hu, hnothing⟩ := List.map_eq_cons_iff.mp hlast
    obtain rfl := List.map_eq_nil_iff.mp hnothing
    exact .grouping (congrArg Word.kind ht) (h' us hus) (congrArg Word.kind hu)
  induction count with
  | zero => exact hgroup ws h
  | succ count ih => exact hgroup _ fun ts hts => .looser (by decide) (ih ts hts)

/-- In every place an expression has the parentheses that it needs there. -/
theorem Style.reads_around (h : ∀ ts, ts.map Token.word = ws → Expr.Reads e.strength ts e) (place : List Nat)
    (hts : ts.map Token.word = style.around place p e ws) : Expr.Reads p ts e := by
  have hany : ∀ ts, ts.map Token.word = ws → Expr.Reads .assignment ts e :=
    fun ts hts => .looser e.assignment_le_strength (h ts hts)
  have hprimary : p ≤ .primary := by cases p <;> decide
  unfold around at hts
  by_cases hp : p ≤ e.strength
  · rw [if_pos hp] at hts
    cases hcount : style.extra place with
    | zero =>
        rw [hcount] at hts
        exact .looser hp (h ts hts)
    | succ count =>
        rw [hcount] at hts
        exact .looser hprimary (reads_enclose hany count ts hts)
  · rw [if_neg hp] at hts
    exact .looser hprimary (reads_enclose hany _ ts hts)

/-- An operator between two operands that are written as they read. -/
theorem exists_of_map_join {ls rs : List Word} {w : Word} (hts : ts.map Token.word = ls ++ w :: rs) :
    ∃ xs t ys, ts = xs ++ t :: ys ∧ xs.map Token.word = ls ∧ t.kind = w.kind ∧ ys.map Token.word = rs := by
  obtain ⟨xs, more, rfl, hxs, hmore⟩ := List.map_eq_append_iff.mp hts
  obtain ⟨t, ys, rfl, ht, hys⟩ := List.map_eq_cons_iff.mp hmore
  exact ⟨xs, t, ys, rfl, hxs, congrArg Word.kind ht, hys⟩

theorem exists_of_map_singleton {w : Word} (hts : ts.map Token.word = [w]) :
    ∃ t, ts = [t] ∧ t.kind = w.kind ∧ t.lexeme = w.lexeme := by
  obtain ⟨t, nothing, rfl, rfl, hnothing⟩ := List.map_eq_cons_iff.mp hts
  obtain rfl := List.map_eq_nil_iff.mp hnothing
  exact ⟨t, rfl, rfl, rfl⟩

mutual

/-- The words of an expression read as the expression. -/
theorem Expr.reads_bare : ∀ {e : Expr} (place : List Nat) (ts : List Token), e.Spelled style.digits →
    ts.map Token.word = e.bare style place → Expr.Reads e.strength ts e
  | .nil, _, _, _, hts => by
      obtain ⟨t, rfl, hk, -⟩ := exists_of_map_singleton hts
      exact .nil hk
  | .truth true, _, _, _, hts => by
      obtain ⟨t, rfl, hk, -⟩ := exists_of_map_singleton hts
      exact .yes hk
  | .truth false, _, _, _, hts => by
      obtain ⟨t, rfl, hk, -⟩ := exists_of_map_singleton hts
      exact .no hk
  | .number x, _, _, he, hts => by
      obtain ⟨t, rfl, hk, hlexeme⟩ := exists_of_map_singleton hts
      rw [Expr.Spelled] at he
      exact .number hk (by rw [hlexeme]; exact he)
  | .text chars, _, _, _, hts => by
      obtain ⟨t, rfl, hk, hlexeme⟩ := exists_of_map_singleton hts
      exact .text hk (by rw [hlexeme]; exact Compiler.unquote?_quoted chars)
  | .variable name, _, _, _, hts => by
      obtain ⟨t, rfl, hk, rfl⟩ := exists_of_map_singleton hts
      exact .variable hk
  | .assign name value, place, _, he, hts => by
      rw [Expr.Spelled] at he
      rw [Expr.bare] at hts
      obtain ⟨t, more, rfl, ht, hmore⟩ := List.map_eq_cons_iff.mp hts
      obtain ⟨u, us, rfl, hu, hus⟩ := List.map_eq_cons_iff.mp hmore
      obtain rfl : t.lexeme = name := congrArg Word.lexeme ht
      exact .assign (congrArg Word.kind ht) (congrArg Word.kind hu)
        (style.reads_around (fun ts => Expr.reads_bare (0 :: place) ts he) _ hus)
  | .unary op operand, place, _, he, hts => by
      rw [Expr.Spelled] at he
      rw [Expr.bare] at hts
      obtain ⟨t, us, rfl, ht, hus⟩ := List.map_eq_cons_iff.mp hts
      have hk : t.kind = op.word.kind := congrArg Word.kind ht
      exact .unary (hk ▸ unaryOp?_word op) (style.reads_around (fun ts => Expr.reads_bare (0 :: place) ts he) _ hus)
  | .binary op left right, place, _, he, hts => by
      rw [Expr.Spelled] at he
      rw [Expr.bare] at hts
      obtain ⟨xs, t, ys, rfl, hxs, hk, hys⟩ := exists_of_map_join hts
      exact .binary (hk ▸ binaryOp?_word op) (style.reads_around (fun ts => Expr.reads_bare (0 :: place) ts he.1) _ hxs)
        (style.reads_around (fun ts => Expr.reads_bare (1 :: place) ts he.2) _ hys)
  | .and left right, place, _, he, hts => by
      rw [Expr.Spelled] at he
      rw [Expr.bare] at hts
      obtain ⟨xs, t, ys, rfl, hxs, hk, hys⟩ := exists_of_map_join hts
      exact .and hk (style.reads_around (fun ts => Expr.reads_bare (0 :: place) ts he.1) _ hxs)
        (style.reads_around (fun ts => Expr.reads_bare (1 :: place) ts he.2) _ hys)
  | .or left right, place, _, he, hts => by
      rw [Expr.Spelled] at he
      rw [Expr.bare] at hts
      obtain ⟨xs, t, ys, rfl, hxs, hk, hys⟩ := exists_of_map_join hts
      exact .or hk (style.reads_around (fun ts => Expr.reads_bare (0 :: place) ts he.1) _ hxs)
        (style.reads_around (fun ts => Expr.reads_bare (1 :: place) ts he.2) _ hys)
  | .call callee arguments, place, _, he, hts => by
      rw [Expr.Spelled] at he
      rw [Expr.bare] at hts
      obtain ⟨xs, t, more, rfl, hxs, hk, hmore⟩ := exists_of_map_join hts
      obtain ⟨ys, u, nothing, rfl, hys, hu, hnothing⟩ := exists_of_map_join hmore
      obtain rfl := List.map_eq_nil_iff.mp hnothing
      exact .call hk (style.reads_around (fun ts => Expr.reads_bare (0 :: place) ts he.1) _ hxs)
        (Args.reads_bare (1 :: place) ys he.2 hys) hu

/-- The words of an argument list read as the arguments. -/
theorem Args.reads_bare : ∀ {args : Args} (place : List Nat) (ts : List Token), args.Spelled style.digits →
    ts.map Token.word = args.bare style place → Args.Reads ts args
  | .nil, _, _, _, hts => by
      obtain rfl := List.map_eq_nil_iff.mp hts
      exact .nil
  | .cons first .nil, place, _, he, hts => by
      rw [Args.Spelled] at he
      rw [Args.bare] at hts
      exact .last (style.reads_around (fun ts => Expr.reads_bare (0 :: place) ts he.1) _ hts)
  | .cons first (.cons second rest), place, _, he, hts => by
      rw [Args.Spelled] at he
      rw [Args.bare] at hts
      obtain ⟨xs, t, ys, rfl, hxs, hk, hys⟩ := exists_of_map_join hts
      exact .cons (style.reads_around (fun ts => Expr.reads_bare (0 :: place) ts he.1) _ hxs) hk
        (Args.reads_bare (1 :: place) ys he.2 hys)

end

/-- **Whatever is written reads as the expression**, with the parentheses that it needs alone, or with any others. -/
theorem Expr.reads_render (he : e.Spelled style.digits) (hts : ts.map Token.word = e.render style) :
    Expr.Reads .assignment ts e :=
  style.reads_around (fun ts => reads_bare [] ts he) [] hts

end Lox
