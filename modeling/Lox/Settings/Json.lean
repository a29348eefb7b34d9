/-! Reading JSON. The reader keeps what a later decision may hang on: numbers as they are written,
members in order with repetitions, and strings with their escapes as code units, because a string
that nobody looks at may hold half of a surrogate pair and one that is looked at may not. -/

namespace Lox

/-- A piece of a JSON string. -/
inductive TextUnit where
  /-- A character that stands for itself or has a short escape. -/
  | char (c : Char)
  /-- A 16-bit code unit from a numeric escape. -/
  | code (n : Nat)
  deriving DecidableEq, Repr

/-- A JSON value as it is written. -/
inductive Json where
  | null
  | bool (b : Bool)
  /-- A number, with its characters. -/
  | number (literal : List Char)
  | string (units : List TextUnit)
  | array (items : List Json)
  | object (members : List (List TextUnit × Json))

namespace Json

/-- Drops blanks. -/
def skip : List Char → List Char
  | c :: rest => if c = ' ' ∨ c = '\n' ∨ c = '\t' ∨ c = '\r' then skip rest else c :: rest
  | [] => []

/-- The value of a hexadecimal digit. -/
def hexValue? (c : Char) : Option Nat :=
  if '0' ≤ c ∧ c ≤ '9' then some (c.toNat - '0'.toNat)
  else if 'a' ≤ c ∧ c ≤ 'f' then some (c.toNat - 'a'.toNat + 10)
  else if 'A' ≤ c ∧ c ≤ 'F' then some (c.toNat - 'A'.toNat + 10)
  else none

/-- The code unit that four hexadecimal digits denote. -/
def codeUnit? (a b c d : Char) : Option Nat := do
  return ((← hexValue? a) * 16 + (← hexValue? b)) * 256 + ((← hexValue? c) * 16 + (← hexValue? d))

/-- The character that a short escape denotes. -/
def escaped? : Char → Option Char
  | '"' => some '"'
  | '\\' => some '\\'
  | '/' => some '/'
  | 'b' => some '\x08'
  | 'f' => some '\x0c'
  | 'n' => some '\n'
  | 'r' => some '\r'
  | 't' => some '\t'
  | _ => none

/-- Reads the rest of a string after its opening quote. Control characters must be escaped. -/
def units? (reversed : List TextUnit) : List Char → Option (List TextUnit × List Char)
  | '"' :: rest => some (reversed.reverse, rest)
  | '\\' :: 'u' :: a :: b :: c :: d :: rest =>
    match codeUnit? a b c d with
    | some code => units? (.code code :: reversed) rest
    | none => none
  | '\\' :: c :: rest =>
    match escaped? c with
    | some c => units? (.char c :: reversed) rest
    | none => none
  | c :: rest => if c.toNat < 32 ∨ c = '\\' then none else units? (.char c :: reversed) rest
  | [] => none

/-- Whether a character is a decimal digit. -/
def isDigit (c : Char) : Bool := '0' ≤ c && c ≤ '9'

/-- The digits at the start of a text and what follows them; `none` if there are none. -/
def digits? (text : List Char) : Option (List Char × List Char) :=
  match text.span isDigit with
  | ([], _) => none
  | (digits, rest) => some (digits, rest)

/-- The integer part of a number: no needless zero may stand in front. -/
def integerPart? (text : List Char) : Option (List Char × List Char) := do
  let (digits, rest) ← digits? text
  match digits with
  | '0' :: _ :: _ => none
  | digits => some (digits, rest)

/-- The fraction of a number, if it has one. -/
def fractionPart? : List Char → Option (List Char × List Char)
  | '.' :: rest => do
    let (digits, rest) ← digits? rest
    return ('.' :: digits, rest)
  | rest => some ([], rest)

/-- The exponent of a number, if it has one. -/
def exponentPart? : List Char → Option (List Char × List Char)
  | mark :: rest =>
    if mark = 'e' ∨ mark = 'E' then
      match rest with
      | '+' :: rest => do
        let (digits, rest) ← digits? rest
        return (mark :: '+' :: digits, rest)
      | '-' :: rest => do
        let (digits, rest) ← digits? rest
        return (mark :: '-' :: digits, rest)
      | rest => do
        let (digits, rest) ← digits? rest
        return (mark :: digits, rest)
    else some ([], mark :: rest)
  | [] => some ([], [])

/-- Reads a number. -/
def number? (text : List Char) : Option (Json × List Char) := do
  let (sign, rest) := match text with
    | '-' :: rest => (['-'], rest)
    | rest => ([], rest)
  let (integer, rest) ← integerPart? rest
  let (fraction, rest) ← fractionPart? rest
  let (exponent, rest) ← exponentPart? rest
  return (.number (sign ++ integer ++ fraction ++ exponent), rest)

mutual

/-- Reads a value. The count bounds the nesting and the number of items; the length of the text
suffices. -/
def value? : Nat → List Char → Option (Json × List Char)
  | 0, _ => none
  | count + 1, text =>
    match skip text with
    | 'n' :: 'u' :: 'l' :: 'l' :: rest => some (.null, rest)
    | 't' :: 'r' :: 'u' :: 'e' :: rest => some (.bool true, rest)
    | 'f' :: 'a' :: 'l' :: 's' :: 'e' :: rest => some (.bool false, rest)
    | '"' :: rest => (units? [] rest).map fun (units, rest) => (.string units, rest)
    | '[' :: rest =>
      match skip rest with
      | ']' :: rest => some (.array [], rest)
      | rest => items? [] count rest
    | '{' :: rest =>
      match skip rest with
      | '}' :: rest => some (.object [], rest)
      | rest => members? [] count rest
    | rest => number? rest

/-- Reads the items of an array after those in `reversed`, and its end. -/
def items? (reversed : List Json) : Nat → List Char → Option (Json × List Char)
  | 0, _ => none
  | count + 1, text =>
    match value? count text with
    | none => none
    | some (item, rest) =>
      match skip rest with
      | ',' :: rest => items? (item :: reversed) count rest
      | ']' :: rest => some (.array (item :: reversed).reverse, rest)
      | _ => none

/-- Reads the members of an object after those in `reversed`, and its end. -/
def members? (reversed : List (List TextUnit × Json)) : Nat → List Char → Option (Json × List Char)
  | 0, _ => none
  | count + 1, text =>
    match skip text with
    | '"' :: rest =>
      match units? [] rest with
      | none => none
      | some (name, rest) =>
        match skip rest with
        | ':' :: rest =>
          match value? count rest with
          | none => none
          | some (member, rest) =>
            match skip rest with
            | ',' :: rest => members? ((name, member) :: reversed) count rest
            | '}' :: rest => some (.object ((name, member) :: reversed).reverse, rest)
            | _ => none
        | _ => none
    | _ => none

end

/-- Reads a text that is one value and nothing else. -/
def parse? (text : String) : Option Json :=
  let chars := text.toList
  match value? (chars.length + 1) chars with
  | some (value, rest) => if (skip rest).isEmpty then some value else none
  | none => none

/-- The characters of a string after those in `reversed`; `none` if half of a surrogate pair stands
alone. -/
def textOf? (reversed : List Char) : List TextUnit → Option String
  | [] => some (String.ofList reversed.reverse)
  | .char c :: rest => textOf? (c :: reversed) rest
  | .code high :: rest =>
    if high < 0xD800 ∨ 0xE000 ≤ high then textOf? (Char.ofNat high :: reversed) rest
    else if 0xDC00 ≤ high then none
    else
      match rest with
      | .code low :: rest =>
        if 0xDC00 ≤ low ∧ low < 0xE000 then
          textOf? (Char.ofNat (0x10000 + (high - 0xD800) * 0x400 + (low - 0xDC00)) :: reversed) rest
        else none
      | _ => none

end Json

end Lox
