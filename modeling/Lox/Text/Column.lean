/-! Texts set in columns of a fixed width. A text that is wider than its column is left whole. -/

namespace Lox.Text

/-- A text moved to the right end of a column, with `fill` in front of it. -/
def alignRight (width : Nat) (fill : Char) (text : String) : String :=
  String.ofList (List.replicate (width - text.length) fill) ++ text

/-- A text at the left end of a column, with blanks after it. -/
def alignLeft (width : Nat) (text : String) : String :=
  text ++ String.ofList (List.replicate (width - text.length) ' ')

end Lox.Text
