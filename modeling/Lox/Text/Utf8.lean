/-! Reading bytes as UTF-8. Two readings exist: the strict one refuses broken bytes, and the lenient
one writes the replacement character for each maximal broken stretch, that is for the longest
prefix that some well-formed character could still have had. -/

namespace Lox.Text

/-- What the first bytes of a text say. -/
inductive Lead where
  /-- A well-formed character and the number of its bytes. -/
  | char (c : Char) (width : Nat)
  /-- A broken stretch of so many bytes. -/
  | broken (width : Nat)
  deriving Repr

/-- Whether a byte lies between two bounds. -/
def within (low high : UInt8) (byte : UInt8) : Bool := low ≤ byte && byte ≤ high

/-- Whether a byte may continue a character. -/
def continues : UInt8 → Bool := within 0x80 0xBF

/-- The bounds of the second byte of a longer character, by its first byte: they exclude overlong
forms, surrogates and numbers past the last code point. `none` means that the byte starts no longer
character. The first component is the number of bytes. -/
def secondByte (first : UInt8) : Option (Nat × UInt8 × UInt8) :=
  if within 0xC2 0xDF first then some (2, 0x80, 0xBF)
  else if first == 0xE0 then some (3, 0xA0, 0xBF)
  else if first == 0xED then some (3, 0x80, 0x9F)
  else if within 0xE1 0xEF first then some (3, 0x80, 0xBF)
  else if first == 0xF0 then some (4, 0x90, 0xBF)
  else if within 0xF1 0xF3 first then some (4, 0x80, 0xBF)
  else if first == 0xF4 then some (4, 0x80, 0x8F)
  else none

/-- The payload of a continuation byte appended to a partial code point. -/
def extend (point : Nat) (byte : UInt8) : Nat := 64 * point + byte.toNat % 64

/-- Reads the first character of a non-empty byte sequence. -/
def lead (first : UInt8) (rest : List UInt8) : Lead :=
  if first < 0x80 then .char (Char.ofNat first.toNat) 1
  else
    match secondByte first, rest with
    | none, _ => .broken 1
    | some (width, low, high), second :: rest =>
      if !within low high second then .broken 1
      else
        let point := extend (first.toNat % Nat.pow 2 (7 - width)) second
        match width, rest with
        | 2, _ => .char (Char.ofNat point) 2
        | 3, third :: _ =>
          if continues third then .char (Char.ofNat (extend point third)) 3 else .broken 2
        | 4, third :: rest =>
          if !continues third then .broken 2
          else
            match rest with
            | fourth :: _ =>
              if continues fourth then .char (Char.ofNat (extend (extend point third) fourth)) 4
              else .broken 3
            | [] => .broken 3
        | _, _ => .broken 2
    | some _, [] => .broken 1

/-- The characters of a byte sequence after those in `reversed`, with the replacement character for
each broken stretch. The count bounds the characters still to be read; the length of the sequence
suffices. -/
def decode (reversed : List Char) : Nat → List UInt8 → List Char
  | 0, _ => reversed.reverse
  | _, [] => reversed.reverse
  | count + 1, first :: rest =>
    match lead first rest with
    | .char c width => decode (c :: reversed) count (rest.drop (width - 1))
    | .broken width => decode ('\uFFFD' :: reversed) count (rest.drop (width - 1))

/-- The bytes as text, with the replacement character for each broken stretch. -/
def ofUtf8Lossy (bytes : ByteArray) : String :=
  match String.fromUTF8? bytes with
  | some text => text
  | none =>
    let bytes := bytes.data.toList
    String.ofList (decode [] bytes.length bytes)

/-- The bytes as text, if they are well formed. -/
def ofUtf8? (bytes : ByteArray) : Option String := String.fromUTF8? bytes

end Lox.Text
