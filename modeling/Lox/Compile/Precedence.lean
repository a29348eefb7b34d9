import Lox.Code.Opcode
import Lox.Token.Basic

/-! How tightly operators bind, and what a token means at the start of an expression and after an
operand. -/

namespace Lox

/-- Binding strength, from the loosest to the tightest. -/
inductive Precedence where
  | none
  | assignment
  | or
  | and
  | equality
  | comparison
  | term
  | factor
  | unary
  | call
  | primary
  deriving DecidableEq, Repr, Inhabited

namespace Precedence

/-- The place in the order. -/
def rank : Precedence → Nat
  | .none => 0
  | .assignment => 1
  | .or => 2
  | .and => 3
  | .equality => 4
  | .comparison => 5
  | .term => 6
  | .factor => 7
  | .unary => 8
  | .call => 9
  | .primary => 10

/-- The next tighter strength; the tightest one is its own. -/
def next : Precedence → Precedence
  | .none => .assignment
  | .assignment => .or
  | .or => .and
  | .and => .equality
  | .equality => .comparison
  | .comparison => .term
  | .term => .factor
  | .factor => .unary
  | .unary => .call
  | .call => .primary
  | .primary => .primary

instance : LE Precedence := ⟨fun p q => p.rank ≤ q.rank⟩

instance (p q : Precedence) : Decidable (p ≤ q) := inferInstanceAs (Decidable (p.rank ≤ q.rank))

end Precedence

/-- What a token means where an expression starts. -/
inductive Opening where
  /-- A parenthesised expression. -/
  | grouping
  /-- An operator before its operand. -/
  | unary (op : Opcode)
  | number
  | string
  /-- A word that pushes a fixed value. -/
  | literal (op : Opcode)
  | variable
  deriving DecidableEq, Repr

/-- What a token means after an operand. -/
inductive Joining where
  /-- An argument list. -/
  | call
  /-- An operator between two operands, which associates to the left. -/
  | binary (op : Opcode)
  /-- The conjunction, whose right side may be skipped. -/
  | and
  /-- The disjunction, whose right side may be skipped. -/
  | or
  deriving DecidableEq, Repr

/-- What a token means where an expression starts, if it may start one. -/
def opening? : TokenKind → Option Opening
  | .leftParen => some .grouping
  | .minus => some (.unary .negate)
  | .bang => some (.unary .not)
  | .identifier => some .variable
  | .string => some .string
  | .number => some .number
  | .falseWord => some (.literal .pushFalse)
  | .trueWord => some (.literal .pushTrue)
  | .nilWord => some (.literal .pushNil)
  | _ => none

/-- What a token means after an operand and how tightly it binds, if it may stand there. -/
def joining? : TokenKind → Option (Joining × Precedence)
  | .leftParen => some (.call, .call)
  | .minus => some (.binary .subtract, .term)
  | .plus => some (.binary .add, .term)
  | .slash => some (.binary .divide, .factor)
  | .star => some (.binary .multiply, .factor)
  | .bangEqual => some (.binary .notEqual, .equality)
  | .equalEqual => some (.binary .equal, .equality)
  | .greater => some (.binary .greater, .comparison)
  | .greaterEqual => some (.binary .greaterEqual, .comparison)
  | .less => some (.binary .less, .comparison)
  | .lessEqual => some (.binary .lessEqual, .comparison)
  | .andWord => some (.and, .and)
  | .orWord => some (.or, .or)
  | _ => none

end Lox
