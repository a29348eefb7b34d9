/-! Faults: the ways in which a computation would leave the range that its data allow. They are
ordinary values here, so that a statement such as "compiling never faults" has something to
deny. -/

namespace Lox

/-- Why a computation cannot go on. None of these is an error of the program being run: each one
says that an internal bound was crossed. -/
inductive Fault where
  /-- A difference of two offsets would be negative. -/
  | underflow
  /-- A size no longer fits the 64-bit word that holds it. -/
  | overflow
  /-- An index lies outside the sequence it refers to. -/
  | outOfRange
  /-- A step budget ran out before the computation ended. -/
  | exhausted
  deriving DecidableEq, Repr, Inhabited

/-- The number of values of the 64-bit words that hold sizes and offsets. -/
def wordLimit : Nat := Nat.pow 2 64

/-- The successor of a size or an offset, which must fit a word as well. -/
def nextWord (n : Nat) : Except Fault Nat :=
  if n + 1 < wordLimit then .ok (n + 1) else .error .overflow

end Lox
