import Lox.Storage.Buffer
import Lox.Value

/-! Hash tables from interned strings to values, with open addressing and linear probing. A deleted
entry leaves a tombstone, so that the probe sequences that ran through it stay whole; tombstones
count towards the load, and a table grows before an insertion would fill more than three quarters
of it, so a probe always meets an empty slot. Growing drops the tombstones. -/

namespace Lox

/-- The name of an entry: an interned string and its hash. Keys are the same if their handles are. -/
structure Key where
  handle : Handle
  hash : UInt32
  deriving DecidableEq, Repr, Inhabited

/-- A place in a table. -/
inductive Slot where
  | empty
  /-- An entry was here and has been deleted. -/
  | tombstone
  | occupied (key : Key) (value : Value)
  deriving Repr, Inhabited

/-- The entry of a slot. -/
def Slot.entry? : Slot → Option (Key × Value)
  | .occupied key value => some (key, value)
  | _ => none

/-- A table from keys to values. -/
structure Table where
  /-- The slots; their number is the capacity. -/
  slots : Array Slot := #[]
  /-- The number of slots that are not empty: entries and tombstones. -/
  used : Nat := 0
  /-- The number of entries. -/
  live : Nat := 0
  deriving Inhabited

namespace Table

/-- The table without entries and without slots. -/
def empty : Table := {}

/-- The number of slots. -/
def capacity (t : Table) : Nat := t.slots.size

/-- The number of entries. -/
def size (t : Table) : Nat := t.live

/-- Whether the table has no entry. -/
def isEmpty (t : Table) : Bool := t.live == 0

/-- The slot where a probe for a hash starts. -/
def home (slots : Array Slot) (hash : UInt32) : Nat := hash.toNat % slots.size

/-- Follows the probe sequence of a handle from `index` on, for at most so many slots: the slot that
holds the handle, or else the slot where it would be stored, which is the first tombstone met or the
empty slot that ends the sequence. -/
def probe (slots : Array Slot) (handle : Handle) (reuse : Option Nat) : Nat → Nat → Option Nat
  | 0, _ => none
  | count + 1, index =>
    match slots[index]? with
    | none => none
    | some .empty => some (reuse.getD index)
    | some .tombstone =>
      probe slots handle (reuse.or (some index)) count ((index + 1) % slots.size)
    | some (.occupied key _) =>
      if key.handle = handle then some index
      else probe slots handle reuse count ((index + 1) % slots.size)

/-- The slot of a key: where it is, or where it belongs. `none` only if no slot is empty. -/
def find? (slots : Array Slot) (key : Key) : Option Nat :=
  probe slots key.handle none slots.size (home slots key.hash)

/-- The value of a key. -/
def get? (t : Table) (key : Key) : Option Value :=
  if t.used = 0 then none
  else
    match (find? t.slots key).bind (t.slots[·]?) with
    | some (.occupied _ value) => some value
    | _ => none

/-- Whether a key has a value. -/
def contains (t : Table) (key : Key) : Bool := (t.get? key).isSome

/-- Stores the entry of a slot, if it has one, where it belongs among new slots, and counts it. -/
def rehash : Array Slot × Nat → Slot → Array Slot × Nat
  | (slots, count), .occupied key value =>
    match find? slots key with
    | some index => (slots.setIfInBounds index (.occupied key value), count + 1)
    | none => (slots, count + 1)
  | into, _ => into

/-- The table with `capacity` slots and the same entries. -/
def resize (t : Table) (capacity : Nat) : Table :=
  let (slots, used) := t.slots.foldl rehash (Array.replicate capacity .empty, 0)
  { t with slots, used }

/-- Makes room for one more slot in use: at most three quarters of the slots may be. -/
def reserve (t : Table) : Table :=
  if 3 * t.capacity < 4 * (t.used + 1) then t.resize (nextCapacity t.capacity) else t

/-- Gives a key a value, and says whether the key is new. A tombstone that is used again was counted
already. -/
def set (t : Table) (key : Key) (value : Value) : Table × Bool :=
  let ⟨slots, used, live⟩ := t.reserve
  match find? slots key with
  | none => (⟨slots, used, live⟩, false)
  | some index =>
    match slots[index]? with
    | some (.occupied _ _) =>
      (⟨slots.setIfInBounds index (.occupied key value), used, live⟩, false)
    | some .tombstone =>
      (⟨slots.setIfInBounds index (.occupied key value), used, live + 1⟩, true)
    | _ => (⟨slots.setIfInBounds index (.occupied key value), used + 1, live + 1⟩, true)

/-- Takes a key's value away, and says whether it had one. The slot becomes a tombstone. -/
def erase (t : Table) (key : Key) : Table × Bool :=
  if t.used = 0 then (t, false)
  else
    let ⟨slots, used, live⟩ := t
    match find? slots key with
    | none => (⟨slots, used, live⟩, false)
    | some index =>
      match slots[index]? with
      | some (.occupied _ _) => (⟨slots.setIfInBounds index .tombstone, used, live - 1⟩, true)
      | _ => (⟨slots, used, live⟩, false)

/-- Follows the probe sequence of a hash for at most so many slots, to a key with that hash that
`accepts`. Tombstones are passed over and an empty slot ends the search. -/
def probeContent (slots : Array Slot) (hash : UInt32) (accepts : Handle → Bool) :
    Nat → Nat → Option Handle
  | 0, _ => none
  | count + 1, index =>
    match slots[index]? with
    | none => none
    | some .empty => none
    | some .tombstone => probeContent slots hash accepts count ((index + 1) % slots.size)
    | some (.occupied key _) =>
      if key.hash == hash && accepts key.handle then some key.handle
      else probeContent slots hash accepts count ((index + 1) % slots.size)

/-- The handle of a key with a given hash that `accepts`. -/
def findContent? (t : Table) (hash : UInt32) (accepts : Handle → Bool) : Option Handle :=
  if t.used = 0 then none
  else probeContent t.slots hash accepts t.slots.size (home t.slots hash)

/-- The entries, in slot order. -/
def toList (t : Table) : List (Key × Value) := t.slots.toList.filterMap Slot.entry?

/-- Drops all entries and all slots. -/
def clear (_ : Table) : Table := empty

end Table

end Lox
