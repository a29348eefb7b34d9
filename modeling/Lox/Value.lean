/-! Values of the language: nil, booleans, double-precision numbers, and handles of heap objects.
What a handle denotes is the heap's business; two handles are the same object exactly when they
are equal. -/

namespace Lox

/-- Names a heap object by the place where it was allocated, counted from zero. Places are counted without
end here, and a handle is kept in 32 bits: these are the same for a heap with no more objects than handles
can name. -/
structure Handle where
  /-- The place of the object. -/
  index : Nat
  deriving DecidableEq, Repr, Inhabited

/-- The number of objects that the 32 bits of a handle can name. -/
def Handle.limit : Nat := UInt32.size

/-- The 32 bits of a handle. -/
def Handle.word (handle : Handle) : UInt32 := .ofNat handle.index

/-- A value as it lies on the stack, in a constant pool or in a variable. -/
inductive Value where
  | nil
  | bool (truth : Bool)
  | number (x : Float)
  | object (handle : Handle)
  deriving Repr, Inhabited

namespace Value

/-- Only nil and false count as false; zero and the empty string count as true. -/
def isFalsey : Value → Bool
  | .nil => true
  | .bool truth => !truth
  | _ => false

/-- Whether the value is nil. -/
def isNil : Value → Bool
  | .nil => true
  | _ => false

/-- The truth value, if it is one. -/
def bool? : Value → Option Bool
  | .bool truth => some truth
  | _ => none

/-- The number, if it is one. -/
def number? : Value → Option Float
  | .number x => some x
  | _ => none

/-- The handle, if it is an object. -/
def handle? : Value → Option Handle
  | .object handle => some handle
  | _ => none

/-- Equality of the language: values of different kinds differ, numbers compare as numbers (so a
NaN differs from itself and the two zeros agree), and objects compare by handle. -/
def equal : Value → Value → Bool
  | .nil, .nil => true
  | .bool a, .bool b => a == b
  | .number x, .number y => x == y
  | .object a, .object b => a == b
  | _, _ => false

/-- The name of the value's kind, for diagnostics. -/
def typeName : Value → String
  | .nil => "nil"
  | .bool _ => "bool"
  | .number _ => "number"
  | .object _ => "object"

end Value

end Lox
