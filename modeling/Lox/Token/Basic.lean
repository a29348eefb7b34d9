/-! Tokens: the words of a source text with the line on which each one ends. -/

namespace Lox

/-- What kind of word a token is. -/
inductive TokenKind where
  | leftParen | rightParen | leftBrace | rightBrace
  | comma | dot | minus | plus | semicolon | slash | star
  | bang | bangEqual | equal | equalEqual
  | greater | greaterEqual | less | lessEqual
  | identifier | string | number
  | andWord | classWord | elseWord | falseWord | forWord | funWord | ifWord | nilWord
  | orWord | printWord | returnWord | superWord | thisWord | trueWord | varWord | whileWord
  /-- A stretch of the source that is no word; the lexeme is a message that says why. -/
  | error
  /-- The end of the source. -/
  | eof
  deriving DecidableEq, Repr, Inhabited

namespace TokenKind

/-- The name under which a kind is reported. -/
def name : TokenKind → String
  | .leftParen => "LeftParen"
  | .rightParen => "RightParen"
  | .leftBrace => "LeftBrace"
  | .rightBrace => "RightBrace"
  | .comma => "Comma"
  | .dot => "Dot"
  | .minus => "Minus"
  | .plus => "Plus"
  | .semicolon => "Semicolon"
  | .slash => "Slash"
  | .star => "Star"
  | .bang => "Bang"
  | .bangEqual => "BangEqual"
  | .equal => "Equal"
  | .equalEqual => "EqualEqual"
  | .greater => "Greater"
  | .greaterEqual => "GreaterEqual"
  | .less => "Less"
  | .lessEqual => "LessEqual"
  | .identifier => "Identifier"
  | .string => "String"
  | .number => "Number"
  | .andWord => "And"
  | .classWord => "Class"
  | .elseWord => "Else"
  | .falseWord => "False"
  | .forWord => "For"
  | .funWord => "Fun"
  | .ifWord => "If"
  | .nilWord => "Nil"
  | .orWord => "Or"
  | .printWord => "Print"
  | .returnWord => "Return"
  | .superWord => "Super"
  | .thisWord => "This"
  | .trueWord => "True"
  | .varWord => "Var"
  | .whileWord => "While"
  | .error => "Error"
  | .eof => "Eof"

/-- The reserved words. -/
def keywords : List (String × TokenKind) :=
  [("and", .andWord), ("class", .classWord), ("else", .elseWord), ("false", .falseWord),
   ("for", .forWord), ("fun", .funWord), ("if", .ifWord), ("nil", .nilWord), ("or", .orWord),
   ("print", .printWord), ("return", .returnWord), ("super", .superWord), ("this", .thisWord),
   ("true", .trueWord), ("var", .varWord), ("while", .whileWord)]

/-- The kind of a word made of letters, digits and underscores: reserved or free. -/
def ofWord (word : String) : TokenKind := (keywords.lookup word).getD .identifier

end TokenKind

/-- A word of the source. -/
structure Token where
  kind : TokenKind
  /-- The source text of the word, or the message of an error token. -/
  lexeme : String
  /-- The line on which the word ends, counted from one. -/
  line : Nat
  deriving DecidableEq, Repr, Inhabited

namespace Token

/-- The end of an empty source, which also stands for "no token read yet". -/
def start : Token := { kind := .eof, lexeme := "", line := 1 }

end Token

end Lox
