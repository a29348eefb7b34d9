import Lox.Proofs.Reached

/-! Global variables by name. A machine finds a variable through the string object that is its name; with
the shared parts in order this is a map from names to values, whatever else the heap holds. -/

namespace Lox

namespace Machine

namespace Sound

variable {m : Machine} (hm : m.Sound)

include hm

/-- The key of a string object finds the variable that its characters name. -/
theorem get?_key {name : String} {handle : Handle} {s : StringObject} {key : Key}
    (hs : m.heap.string? handle = some s) (hchars : s.chars = name) (hk : m.heap.key? handle = some key) :
    m.globals.get? key = m.global? name := by
  have hi := (hm.heap.interned?_eq_some_iff name handle).mpr ⟨s, hs, hchars⟩
  unfold global?
  rw [hi]
  show _ = (m.heap.key? handle).bind m.globals.get?
  rw [hk]
  rfl

/-- A variable has a value if the table holds one for the string object that names it. -/
theorem global?_eq_some_iff (name : String) (v : Value) :
    m.global? name = some v ↔
      ∃ key s, m.heap.string? key.handle = some s ∧ s.chars = name ∧ Table.Holds m.globals.slots key v := by
  constructor
  · intro h
    unfold global? at h
    obtain ⟨handle, hi, h⟩ := Option.bind_eq_some_iff.mp h
    obtain ⟨key, hk, h⟩ := Option.bind_eq_some_iff.mp h
    obtain ⟨s, hs, hchars⟩ := (hm.heap.interned?_eq_some_iff name handle).mp hi
    refine ⟨key, s, ?_, hchars, (hm.globals.get?_eq_some_iff (hm.agrees hk) v).mp h⟩
    rw [Heap.key?_handle hk]
    exact hs
  · rintro ⟨key, s, hs, hchars, hv⟩
    have hk := hm.keys key v hv
    rw [← hm.get?_key hs hchars hk]
    exact (hm.globals.get?_eq_some_iff (hm.agrees hk) v).mpr hv

/-- New objects do not change the variables. -/
theorem global?_grow {m' : Machine} (hg : m.heap.Grows m'.heap) (hglobals : m'.globals = m.globals) (name : String) :
    m'.global? name = m.global? name := by
  refine Option.ext fun v => ?_
  rw [(hm.grow hg hglobals).global?_eq_some_iff, hm.global?_eq_some_iff, hglobals]
  constructor
  · rintro ⟨key, s, hs, hchars, hv⟩
    -- the key was in the table before, so its string was there before
    obtain ⟨t, ht, -⟩ := Heap.key?_eq_some_iff.mp (hm.keys key v hv)
    have := hg.keeps.string? ht
    rw [hs] at this
    cases this
    exact ⟨key, s, ht, hchars, hv⟩
  · rintro ⟨key, s, hs, hchars, hv⟩
    exact ⟨key, s, hg.keeps.string? hs, hchars, hv⟩

/-- Defining a variable changes no other one. -/
theorem global?_define {name : String} {s : StringObject} {key : Key} (hs : m.heap.string? key.handle = some s)
    (hchars : s.chars = name) (hk : m.heap.key? key.handle = some key) (v : Value) (other : String) :
    global? { m with globals := (m.globals.set key v).1 } other =
      if other = name then some v else m.global? other := by
  obtain ⟨-, hstored, -⟩ := hm.globals.set_spec (hm.agrees hk) v
  have hiff := (hm.define hk v).global?_eq_some_iff
  by_cases ho : other = name
  · rw [if_pos ho, hiff]
    exact ⟨key, s, hs, by rw [hchars, ho], (hstored key v).mpr (.inl ⟨rfl, rfl⟩)⟩
  · rw [if_neg ho]
    refine Option.ext fun w => ?_
    rw [hiff, hm.global?_eq_some_iff]
    constructor
    · rintro ⟨k, t, ht, htc, hv⟩
      rcases (hstored k w).mp hv with ⟨rfl, -⟩ | ⟨-, hv⟩
      · have := hs.symm.trans ht
        cases this
        exact absurd (htc.symm.trans hchars) ho
      · exact ⟨k, t, ht, htc, hv⟩
    · rintro ⟨k, t, ht, htc, hv⟩
      refine ⟨k, t, ht, htc, (hstored k w).mpr (.inr ⟨fun heq => ?_, hv⟩)⟩
      rw [heq, hs] at ht
      cases ht
      exact ho (htc.symm.trans hchars)

/-- Storing under a key says whether the variable had no value. -/
theorem set_isNew {name : String} {s : StringObject} {key : Key} (hs : m.heap.string? key.handle = some s)
    (hchars : s.chars = name) (hk : m.heap.key? key.handle = some key) (v : Value) :
    (m.globals.set key v).2 = true ↔ m.global? name = none := by
  rw [(hm.globals.set_spec (hm.agrees hk) v).2.2, ← hm.get?_key hs hchars hk,
    hm.globals.get?_eq_none_iff (hm.agrees hk)]

/-- Taking back the definition of a variable that had no value leaves all variables as they were. -/
theorem global?_undo {name : String} {s : StringObject} {key : Key} (hs : m.heap.string? key.handle = some s)
    (hchars : s.chars = name) (hk : m.heap.key? key.handle = some key) (hnew : m.global? name = none) (v : Value)
    (other : String) :
    global? { m with globals := ((m.globals.set key v).1.erase key).1 } other = m.global? other := by
  have hset := hm.define hk v
  obtain ⟨-, hstored, -⟩ := hm.globals.set_spec (hm.agrees hk) v
  obtain ⟨-, herased, -⟩ := hset.globals.erase_spec (hset.agrees hk)
  rw [← hm.get?_key hs hchars hk, hm.globals.get?_eq_none_iff (hm.agrees hk)] at hnew
  refine Option.ext fun w => ?_
  rw [(hset.drop hk).global?_eq_some_iff, hm.global?_eq_some_iff]
  constructor
  · rintro ⟨k, t, ht, htc, hv⟩
    obtain ⟨hne, hv⟩ := (herased k w).mp hv
    rcases (hstored k w).mp hv with ⟨rfl, -⟩ | ⟨-, hv⟩
    · exact absurd rfl hne
    · exact ⟨k, t, ht, htc, hv⟩
  · rintro ⟨k, t, ht, htc, hv⟩
    have hne := hnew k w hv
    exact ⟨k, t, ht, htc, (herased k w).mpr ⟨hne, (hstored k w).mpr (.inr ⟨hne, hv⟩)⟩⟩

end Sound

end Machine

end Lox
