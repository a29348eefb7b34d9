import Lox.Fault

/-! Growable buffers. The memory accounting of the heap counts reserved room and not only used
room, so a buffer carries its capacity beside its items: an empty buffer reserves nothing, the
first item reserves eight places, and a full buffer doubles. -/

namespace Lox

/-- The least capacity that is ever reserved. -/
def minCapacity : Nat := 8

/-- The capacity that follows `capacity`: eight places at first, then twice as many each time. -/
def nextCapacity (capacity : Nat) : Nat :=
  if capacity < minCapacity then minCapacity else 2 * capacity

/-- The capacity that follows `capacity` as a 64-bit word, and a fault if doubling would not fit. -/
def checkedCapacity (capacity : Nat) : Except Fault Nat :=
  let grown := nextCapacity capacity
  if grown < wordLimit then .ok grown else .error .overflow

/-- The number of bytes that no single allocation reaches. -/
def allocationLimit : Nat := Nat.pow 2 63

/-- A number of places that can be asked for at once: each of them takes at least one byte. -/
def checkedPlaces (count : Nat) : Except Fault Nat :=
  if count < allocationLimit then .ok count else .error .overflow

/-- A sequence together with the number of places reserved for it. -/
structure Buffer (α : Type) where
  /-- The items, oldest first. -/
  items : Array α := #[]
  /-- The number of places reserved. -/
  capacity : Nat := 0
  deriving Repr, Inhabited

namespace Buffer

variable {α : Type}

/-- The buffer that holds nothing and reserves nothing. -/
def empty : Buffer α := {}

/-- A buffer that holds nothing and reserves exactly `capacity` places. -/
def reserving (capacity : Nat) : Buffer α := { capacity }

/-- The number of items held. -/
def size (b : Buffer α) : Nat := b.items.size

/-- The item at a position, if there is one. -/
def get? (b : Buffer α) (i : Nat) : Option α := b.items[i]?

/-- A buffer is full if the next item has no reserved place. -/
def isFull (b : Buffer α) : Bool := b.items.size == b.capacity

/-- Adds an item at the end, growing first if the buffer is full. -/
def push (b : Buffer α) (a : α) : Buffer α :=
  let capacity := if b.items.size = b.capacity then nextCapacity b.capacity else b.capacity
  { items := b.items.push a, capacity }

/-- Replaces the item at a position; a position past the end changes nothing. -/
def set (b : Buffer α) (i : Nat) (a : α) : Buffer α :=
  { b with items := b.items.setIfInBounds i a }

/-- Keeps the first `n` items. The reserved room stays. -/
def truncate (b : Buffer α) (n : Nat) : Buffer α :=
  { b with items := b.items.take n }

@[simp] theorem size_empty : (empty : Buffer α).size = 0 := rfl

@[simp] theorem size_push (b : Buffer α) (a : α) : (b.push a).size = b.size + 1 := by
  simp [push, size]

@[simp] theorem size_set (b : Buffer α) (i : Nat) (a : α) : (b.set i a).size = b.size := by
  simp [set, size]

@[simp] theorem items_push (b : Buffer α) (a : α) : (b.push a).items = b.items.push a := rfl

end Buffer

end Lox
