/-! The hash under which strings are interned: 32-bit FNV-1a over the UTF-8 bytes. -/

namespace Lox.Text

/-- The state before the first byte. -/
def hashBasis : UInt32 := 2166136261

/-- The multiplier of each round. -/
def hashPrime : UInt32 := 16777619

/-- One round: the byte is mixed in first and the product taken after, modulo `2 ^ 32`. -/
def hashByte (state : UInt32) (byte : UInt8) : UInt32 := (state ^^^ byte.toUInt32) * hashPrime

/-- The hash of a text. -/
def hash (text : String) : UInt32 := text.toUTF8.data.foldl hashByte hashBasis

end Lox.Text
