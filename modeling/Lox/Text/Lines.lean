/-! The lines of a text. A line ends at a newline, and a carriage return right before that newline
belongs to the line end; after a final newline there is no further line. A carriage return anywhere
else, also at the very end of the text, is an ordinary character. -/

namespace Lox.Text

/-- A line without the carriage return of its line end, given as its characters in reverse. -/
def closeLine : List Char → String
  | '\r' :: reversed => String.ofList reversed.reverse
  | reversed => String.ofList reversed.reverse

/-- The lines of the remaining characters, where `reversed` holds what was read of the current
line. -/
def linesFrom (reversed : List Char) : List Char → List String
  | [] => if reversed.isEmpty then [] else [String.ofList reversed.reverse]
  | '\n' :: rest => closeLine reversed :: linesFrom [] rest
  | c :: rest => linesFrom (c :: reversed) rest

/-- The lines of a text, in order. -/
def lines (text : String) : List String := linesFrom [] text.toList

end Lox.Text
