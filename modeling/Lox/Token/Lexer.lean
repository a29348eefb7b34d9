import Lox.Number.Text
import Lox.Token.Basic

/-! Splitting a source into tokens. A cursor is the text still to be read and the line it starts
on. Blanks, newlines and comments from `//` to the end of the line separate tokens and are dropped;
each token takes the longest word that starts where the last separator ended. A double-quoted
string may span lines and carries the line of its closing quote. -/

namespace Lox

/-- A place in a source: what is still to be read, and the number of the current line. -/
structure Cursor where
  /-- The characters still to be read. -/
  rest : List Char
  /-- The current line, counted from one. -/
  line : Nat := 1
  deriving Repr, Inhabited

namespace Cursor

/-- The first place of a source. -/
def ofSource (source : String) : Cursor := { rest := source.toList }

/-- Drops blanks and comments. Inside a comment everything up to the newline is dropped. -/
def skip (inComment : Bool) : List Char → Nat → Cursor
  | [], line => ⟨[], line⟩
  | '\n' :: rest, line => skip false rest (line + 1)
  | c :: rest, line =>
    if inComment then skip true rest line
    else if c = ' ' ∨ c = '\r' ∨ c = '\t' then skip false rest line
    else
      match c, rest with
      | '/', '/' :: rest => skip true rest line
      | c, rest => ⟨c :: rest, line⟩

/-- The place after the blanks and comments that start here. -/
def skipBlank (c : Cursor) : Cursor := skip false c.rest c.line

/-- Whether a character may start a word. -/
def isWordStart (c : Char) : Bool := c.isAlpha || c == '_'

/-- Whether a character may stand inside a word. -/
def isWordPart (c : Char) : Bool := isWordStart c || Number.isDigit c

/-- A token of the current line that takes the characters `text`, and the place after it. -/
def take (kind : TokenKind) (text rest : List Char) (line : Nat) : Token × Cursor :=
  (⟨kind, String.ofList text, line⟩, ⟨rest, line⟩)

/-- A message in place of a token. -/
def refuse (message : String) (rest : List Char) (line : Nat) : Token × Cursor :=
  (⟨.error, message, line⟩, ⟨rest, line⟩)

/-- An operator that may be followed by an equals sign: the longer reading wins. -/
def takeOperator (alone withEqual : TokenKind) (c : Char) (rest : List Char) (line : Nat) :
    Token × Cursor :=
  match rest with
  | '=' :: rest => take withEqual [c, '='] rest line
  | rest => take alone [c] rest line

/-- A string, given what follows its opening quote. Each newline inside it counts. -/
def takeString (rest : List Char) (line : Nat) : Token × Cursor :=
  let (body, after) := rest.span (· != '"')
  let line := line + body.count '\n'
  match after with
  | '"' :: after => take .string ('"' :: body ++ ['"']) after line
  | after => refuse "Unterminated string." after line

/-- A number, given all of it: digits, and a point only if a digit follows it. -/
def takeNumber (text : List Char) (line : Nat) : Token × Cursor :=
  let (whole, rest) := text.span Number.isDigit
  match rest with
  | '.' :: after =>
    let (places, after) := after.span Number.isDigit
    if places.isEmpty then take .number whole rest line
    else take .number (whole ++ '.' :: places) after line
  | rest => take .number whole rest line

/-- A name or a reserved word, given all of it. -/
def takeWord (text : List Char) (line : Nat) : Token × Cursor :=
  let (word, rest) := text.span isWordPart
  take (.ofWord (String.ofList word)) word rest line

/-- The token that starts with `c`, where no blank and no comment starts. -/
def read (c : Char) (rest : List Char) (line : Nat) : Token × Cursor :=
  match c with
  | '(' => take .leftParen [c] rest line
  | ')' => take .rightParen [c] rest line
  | '{' => take .leftBrace [c] rest line
  | '}' => take .rightBrace [c] rest line
  | ';' => take .semicolon [c] rest line
  | ',' => take .comma [c] rest line
  | '.' => take .dot [c] rest line
  | '-' => take .minus [c] rest line
  | '+' => take .plus [c] rest line
  | '/' => take .slash [c] rest line
  | '*' => take .star [c] rest line
  | '!' => takeOperator .bang .bangEqual c rest line
  | '=' => takeOperator .equal .equalEqual c rest line
  | '<' => takeOperator .less .lessEqual c rest line
  | '>' => takeOperator .greater .greaterEqual c rest line
  | '"' => takeString rest line
  | c =>
    if Number.isDigit c then takeNumber (c :: rest) line
    else if isWordStart c then takeWord (c :: rest) line
    else refuse "Unexpected character." rest line

/-- The next token and the place after it. At the end of the source the end token comes again and
again. -/
def next (c : Cursor) : Token × Cursor :=
  match c.skipBlank with
  | ⟨[], line⟩ => take .eof [] [] line
  | ⟨c :: rest, line⟩ => read c rest line

/-- The tokens from a place on, after those in `reversed`. Each token but the last takes at least
one character, so a count above the number of characters suffices. -/
def collect : Nat → Cursor → List Token → List Token
  | 0, _, reversed => reversed.reverse
  | count + 1, c, reversed =>
    let (token, after) := c.next
    if token.kind = .eof then (token :: reversed).reverse
    else collect count after (token :: reversed)

/-- All tokens from a place on, up to and including the end token. -/
def tokens (c : Cursor) : List Token := collect (c.rest.length + 1) c []

end Cursor

/-- The tokens of a source. The last one, and only the last one, is the end token. -/
def tokenize (source : String) : List Token := (Cursor.ofSource source).tokens

end Lox
