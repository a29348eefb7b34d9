/-! The host's clock. A program may look at it as often as it calls functions of the host, and each time
the clock says something else. What it is going to say is not known, so a clock is any sequence of
readings, of which some are taken already. -/

namespace Lox

/-- A clock, as all of its readings. -/
structure Clock where
  /-- The readings in their order, in seconds. -/
  readings : Nat → Float
  /-- The number of readings taken so far. -/
  taken : Nat := 0

namespace Clock

/-- The clock that stands still. -/
def constant (reading : Float) : Clock := { readings := fun _ => reading }

instance : Inhabited Clock := ⟨constant 0⟩

/-- A number of seconds stands for the clock that always says so. -/
instance {n : Nat} : OfNat Clock n := ⟨constant (OfNat.ofNat n)⟩

/-- What the clock says now. -/
def now (c : Clock) : Float := c.readings c.taken

/-- The clock when it has been read once more. -/
def next (c : Clock) : Clock := { c with taken := c.taken + 1 }

end Clock

end Lox
