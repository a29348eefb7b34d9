import Lox.Code.Chunk
import Lox.Text.Hash

/-! Heap objects: interned strings, compiled functions, and functions of the host. -/

namespace Lox

/-- A string with its hash, which is computed once. -/
structure StringObject where
  chars : String
  hash : UInt32 := Text.hash chars
  deriving DecidableEq, Repr

/-- A compiled function. The script itself is a function without a name. -/
structure FunctionObject where
  /-- The number of parameters. -/
  arity : Nat := 0
  chunk : Chunk := .empty
  /-- The name, as a string object. -/
  name : Option Handle := none
  deriving Inhabited

/-- A function of the host. It sees its arguments in order and what the host's clock says at the time of
the call, and it cannot fail. -/
structure NativeObject where
  name : String
  /-- The number of arguments. -/
  arity : Nat
  /-- What the host computes. -/
  body : (reading : Float) → (arguments : List Value) → Value

/-- A heap object. -/
inductive Object where
  | string (s : StringObject)
  | function (f : FunctionObject)
  | native (n : NativeObject)

namespace Object

/-- The name of the object's kind. -/
def typeName : Object → String
  | .string _ => "String"
  | .function _ => "Function"
  | .native _ => "Native"

/-- The bytes that an object's contents reserve: the bytes of a string, and for a function the room
of its buffers, where a line takes eight bytes and a constant sixteen. -/
def payload : Object → Nat
  | .string s => s.chars.utf8ByteSize
  | .function f =>
    f.chunk.code.capacity + 8 * f.chunk.lines.capacity + 16 * f.chunk.constants.capacity
  | .native _ => 0

end Object

/-- The bytes that an object takes beside its contents. How many they are depends on the computer that the
program was built for, but there are some. -/
abbrev Header := { bytes : Nat // 0 < bytes }

/-- The bytes that an object counts for: its header and its contents. -/
def Object.size (header : Header) (object : Object) : Nat := header + object.payload

end Lox
