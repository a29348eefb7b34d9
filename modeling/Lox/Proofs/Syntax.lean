import Lox.Compile.Grammar
import Lox.Value

/-! Syntax trees and the grammar that says which tokens read as which tree. The compiler builds no tree;
the trees are what its code is measured against. Expressions are stratified by binding strength: binary
operators associate to the left, the skipping operators and assignment to the right, and only a name can
be assigned to. A `for` loop reads as a block that holds its first clause and a loop, a missing `else` as
an empty block, and a missing value as nil. An `else` belongs to the nearest `if` that has none. -/

namespace Lox

/-- An operator before its operand. -/
inductive UnaryOp where
  | negate
  | not
  deriving DecidableEq, Repr

/-- An operator between two operands that are both evaluated. -/
inductive BinaryOp where
  | add
  | subtract
  | multiply
  | divide
  | equal
  | notEqual
  | greater
  | greaterEqual
  | less
  | lessEqual
  deriving DecidableEq, Repr

mutual

/-- Expressions. -/
inductive Expr where
  | nil
  | truth (value : Bool)
  | number (x : Float)
  | text (chars : String)
  | variable (name : String)
  | assign (name : String) (value : Expr)
  | unary (op : UnaryOp) (operand : Expr)
  | binary (op : BinaryOp) (left right : Expr)
  | and (left right : Expr)
  | or (left right : Expr)
  | call (callee : Expr) (arguments : Args)

/-- Argument lists. -/
inductive Args where
  | nil
  | cons (first : Expr) (rest : Args)

end

/-- The number of arguments. -/
def Args.length : Args → Nat
  | .nil => 0
  | .cons _ rest => rest.length + 1

mutual

/-- Statements and declarations. A function declaration carries the handle that names the function: two
declarations make two functions even if they read the same. -/
inductive Stmt where
  | expression (value : Expr)
  | print (value : Expr)
  | ret (value : Expr)
  | cond (condition : Expr) (yes no : Stmt)
  | loop (condition increment : Option Expr) (body : Stmt)
  | block (body : Block)
  | var (name : String) (value : Expr)
  | function (label : Handle) (name : String) (params : List String) (body : Block)

/-- Sequences of statements and declarations. -/
inductive Block where
  | nil
  | cons (first : Stmt) (rest : Block)

end

/-- What a call executes: a declared function, or a script, which has no name and whose outermost
variables are global. -/
structure Routine where
  name : Option String
  params : List String
  body : Block

mutual

/-- The functions that a statement declares, at any depth, with their handles. -/
def Stmt.functions : Stmt → List (Handle × Routine)
  | .cond _ yes no => yes.functions ++ no.functions
  | .loop _ _ body => body.functions
  | .block body => body.functions
  | .function label name params body => body.functions ++ [(label, ⟨some name, params, body⟩)]
  | _ => []

/-- The functions that a sequence declares, at any depth, with their handles. -/
def Block.functions : Block → List (Handle × Routine)
  | .nil => []
  | .cons first rest => first.functions ++ rest.functions

end

/-! ### The grammar -/

/-- The operator that a token stands for before an operand. -/
def unaryOp? : TokenKind → Option UnaryOp
  | .minus => some .negate
  | .bang => some .not
  | _ => none

/-- The operator that a token stands for between two operands, and how tightly it binds. -/
def binaryOp? : TokenKind → Option (BinaryOp × Precedence)
  | .equalEqual => some (.equal, .equality)
  | .bangEqual => some (.notEqual, .equality)
  | .greater => some (.greater, .comparison)
  | .greaterEqual => some (.greaterEqual, .comparison)
  | .less => some (.less, .comparison)
  | .lessEqual => some (.lessEqual, .comparison)
  | .plus => some (.add, .term)
  | .minus => some (.subtract, .term)
  | .star => some (.multiply, .factor)
  | .slash => some (.divide, .factor)
  | _ => none

mutual

/-- The tokens are an expression of the given strength or of a tighter one. -/
inductive Expr.Reads : Precedence → List Token → Expr → Prop where
  | looser {p q : Precedence} {ts : List Token} {e : Expr} (hpq : p ≤ q) (h : Expr.Reads q ts e) : Expr.Reads p ts e
  | nil {t : Token} (ht : t.kind = .nilWord) : Expr.Reads .primary [t] .nil
  | yes {t : Token} (ht : t.kind = .trueWord) : Expr.Reads .primary [t] (.truth true)
  | no {t : Token} (ht : t.kind = .falseWord) : Expr.Reads .primary [t] (.truth false)
  | number {t : Token} {x : Float} (ht : t.kind = .number)
      (hx : Number.ofLiteral? t.lexeme.toList = some x) : Expr.Reads .primary [t] (.number x)
  | text {t : Token} {chars : String} (ht : t.kind = .string)
      (hx : Compiler.unquote? t.lexeme = some chars) : Expr.Reads .primary [t] (.text chars)
  | variable {t : Token} (ht : t.kind = .identifier) : Expr.Reads .primary [t] (.variable t.lexeme)
  | grouping {t u : Token} {ts : List Token} {e : Expr} (ht : t.kind = .leftParen)
      (h : Expr.Reads .assignment ts e) (hu : u.kind = .rightParen) : Expr.Reads .primary (t :: (ts ++ [u])) e
  | assign {t u : Token} {ts : List Token} {e : Expr} (ht : t.kind = .identifier) (hu : u.kind = .equal)
      (h : Expr.Reads .assignment ts e) : Expr.Reads .assignment (t :: u :: ts) (.assign t.lexeme e)
  | unary {t : Token} {ts : List Token} {op : UnaryOp} {e : Expr} (ht : unaryOp? t.kind = some op)
      (h : Expr.Reads .unary ts e) : Expr.Reads .unary (t :: ts) (.unary op e)
  | binary {t : Token} {ls rs : List Token} {op : BinaryOp} {p : Precedence} {l r : Expr}
      (ht : binaryOp? t.kind = some (op, p)) (hl : Expr.Reads p ls l) (hr : Expr.Reads p.next rs r) :
      Expr.Reads p (ls ++ t :: rs) (.binary op l r)
  | and {t : Token} {ls rs : List Token} {l r : Expr} (ht : t.kind = .andWord)
      (hl : Expr.Reads .equality ls l) (hr : Expr.Reads .and rs r) : Expr.Reads .and (ls ++ t :: rs) (.and l r)
  | or {t : Token} {ls rs : List Token} {l r : Expr} (ht : t.kind = .orWord)
      (hl : Expr.Reads .and ls l) (hr : Expr.Reads .or rs r) : Expr.Reads .or (ls ++ t :: rs) (.or l r)
  | call {t u : Token} {ls rs : List Token} {f : Expr} {args : Args} (ht : t.kind = .leftParen)
      (hl : Expr.Reads .call ls f) (hr : Args.Reads rs args) (hu : u.kind = .rightParen) :
      Expr.Reads .call (ls ++ t :: (rs ++ [u])) (.call f args)

/-- The tokens are expressions with commas between them. -/
inductive Args.Reads : List Token → Args → Prop where
  | nil : Args.Reads [] .nil
  | last {ts : List Token} {e : Expr} (h : Expr.Reads .assignment ts e) : Args.Reads ts (.cons e .nil)
  | cons {t : Token} {ts us : List Token} {e e' : Expr} {args : Args}
      (h : Expr.Reads .assignment ts e) (ht : t.kind = .comma) (hr : Args.Reads us (.cons e' args)) :
      Args.Reads (ts ++ t :: us) (.cons e (.cons e' args))

end

/-- The tokens are names with commas between them. -/
inductive ParamsRead : List Token → List String → Prop where
  | nil : ParamsRead [] []
  | last {t : Token} (ht : t.kind = .identifier) : ParamsRead [t] [t.lexeme]
  | cons {t u : Token} {ts : List Token} {name : String} {names : List String} (ht : t.kind = .identifier)
      (hu : u.kind = .comma) (hr : ParamsRead ts (name :: names)) :
      ParamsRead (t :: u :: ts) (t.lexeme :: name :: names)

/-- The tokens are an expression that may be left out. -/
inductive ClauseReads : List Token → Option Expr → Prop where
  | none : ClauseReads [] none
  | some {ts : List Token} {e : Expr} (h : Expr.Reads .assignment ts e) : ClauseReads ts (some e)

/-- The tokens declare a variable. -/
inductive VarReads : List Token → Stmt → Prop where
  | bare {t u v : Token} (ht : t.kind = .varWord) (hu : u.kind = .identifier) (hv : v.kind = .semicolon) :
      VarReads [t, u, v] (.var u.lexeme .nil)
  | value {t u v w : Token} {ts : List Token} {e : Expr} (ht : t.kind = .varWord)
      (hu : u.kind = .identifier) (hv : v.kind = .equal) (h : Expr.Reads .assignment ts e)
      (hw : w.kind = .semicolon) : VarReads (t :: u :: v :: (ts ++ [w])) (.var u.lexeme e)

/-- The tokens are the first clause of a loop, which is a statement or nothing. -/
inductive InitializerReads : List Token → Block → Block → Prop where
  | none {t : Token} {rest : Block} (ht : t.kind = .semicolon) : InitializerReads [t] rest rest
  | var {ts : List Token} {s : Stmt} {rest : Block} (h : VarReads ts s) :
      InitializerReads ts rest (.cons s rest)
  | expression {t : Token} {ts : List Token} {e : Expr} {rest : Block} (h : Expr.Reads .assignment ts e)
      (ht : t.kind = .semicolon) : InitializerReads (ts ++ [t]) rest (.cons (.expression e) rest)

mutual

/-- The tokens are a statement. The flag says that it ends with an `if` that an `else` could follow. -/
inductive Stmt.Reads : Bool → List Token → Stmt → Prop where
  | expression {t : Token} {ts : List Token} {e : Expr} (h : Expr.Reads .assignment ts e)
      (ht : t.kind = .semicolon) : Stmt.Reads false (ts ++ [t]) (.expression e)
  | print {t u : Token} {ts : List Token} {e : Expr} (ht : t.kind = .printWord)
      (h : Expr.Reads .assignment ts e) (hu : u.kind = .semicolon) :
      Stmt.Reads false (t :: (ts ++ [u])) (.print e)
  | leave {t u : Token} (ht : t.kind = .returnWord) (hu : u.kind = .semicolon) :
      Stmt.Reads false [t, u] (.ret .nil)
  | ret {t u : Token} {ts : List Token} {e : Expr} (ht : t.kind = .returnWord)
      (h : Expr.Reads .assignment ts e) (hu : u.kind = .semicolon) :
      Stmt.Reads false (t :: (ts ++ [u])) (.ret e)
  | block {t u : Token} {ts : List Token} {b : Block} (ht : t.kind = .leftBrace) (h : Block.Reads ts b)
      (hu : u.kind = .rightBrace) : Stmt.Reads false (t :: (ts ++ [u])) (.block b)
  | ifAlone {t u v : Token} {cs ys : List Token} {c : Expr} {y : Stmt} {o : Bool} (ht : t.kind = .ifWord)
      (hu : u.kind = .leftParen) (hc : Expr.Reads .assignment cs c) (hv : v.kind = .rightParen)
      (hy : Stmt.Reads o ys y) : Stmt.Reads true (t :: u :: (cs ++ v :: ys)) (.cond c y (.block .nil))
  | ifElse {t u v w : Token} {cs ys ns : List Token} {c : Expr} {y n : Stmt} {o : Bool}
      (ht : t.kind = .ifWord) (hu : u.kind = .leftParen) (hc : Expr.Reads .assignment cs c)
      (hv : v.kind = .rightParen) (hy : Stmt.Reads false ys y) (hw : w.kind = .elseWord) (hn : Stmt.Reads o ns n) :
      Stmt.Reads o (t :: u :: (cs ++ v :: (ys ++ w :: ns))) (.cond c y n)
  | while {t u v : Token} {cs bs : List Token} {c : Expr} {b : Stmt} {o : Bool} (ht : t.kind = .whileWord)
      (hu : u.kind = .leftParen) (hc : Expr.Reads .assignment cs c) (hv : v.kind = .rightParen)
      (hb : Stmt.Reads o bs b) : Stmt.Reads o (t :: u :: (cs ++ v :: bs)) (.loop (some c) none b)
  | for {t u v w : Token} {is cs ns bs : List Token} {c n : Option Expr} {b : Stmt} {body : Block}
      {o : Bool} (ht : t.kind = .forWord) (hu : u.kind = .leftParen)
      (hi : InitializerReads is (.cons (.loop c n b) .nil) body) (hc : ClauseReads cs c)
      (hv : v.kind = .semicolon) (hn : ClauseReads ns n) (hw : w.kind = .rightParen) (hb : Stmt.Reads o bs b) :
      Stmt.Reads o (t :: u :: (is ++ (cs ++ v :: (ns ++ w :: bs)))) (.block body)

/-- The tokens are declarations and statements one after the other. -/
inductive Block.Reads : List Token → Block → Prop where
  | nil : Block.Reads [] .nil
  | function {t u v w x y : Token} {ps bs us : List Token} {params : List String} {body rest : Block}
      {label : Handle} (ht : t.kind = .funWord) (hu : u.kind = .identifier) (hv : v.kind = .leftParen)
      (hp : ParamsRead ps params) (hw : w.kind = .rightParen) (hx : x.kind = .leftBrace)
      (hb : Block.Reads bs body) (hy : y.kind = .rightBrace) (hr : Block.Reads us rest) :
      Block.Reads (t :: u :: v :: (ps ++ w :: x :: (bs ++ y :: us)))
        (.cons (.function label u.lexeme params body) rest)
  | var {ts us : List Token} {s : Stmt} {rest : Block} (h : VarReads ts s) (hr : Block.Reads us rest) :
      Block.Reads (ts ++ us) (.cons s rest)
  | statement {ts us : List Token} {s : Stmt} {rest : Block} {o : Bool} (h : Stmt.Reads o ts s)
      (hr : Block.Reads us rest) : Block.Reads (ts ++ us) (.cons s rest)

end

/-- A source reads as a program if its tokens, up to the end, are the program's declarations. -/
def Block.ReadsAll (tokens : List Token) (program : Block) : Prop :=
  ∃ ts last, tokens = ts ++ [last] ∧ last.kind = .eof ∧ Block.Reads ts program

end Lox
