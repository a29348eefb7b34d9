import Lox.Proofs.Storage.Load

/-! Searching a table by content. The search starts from a hash and not from a key, and asks of each key that it meets
whether it has the hash and is accepted; a table of strings is searched in this way for a text that may have no key
yet. In a table with a history it finds a key of the map that the history describes exactly if the map has one to be
found. -/

namespace Lox.Table

/-- A search by content in slots without entries finds nothing. -/
theorem probeContent_of_not_holds {slots : Array Slot} (hno : ∀ k v, ¬ Holds slots k v) (hash : UInt32)
    (accepts : Handle → Bool) (count : Nat) : probeContent slots hash accepts count (home slots hash) = none := by
  rcases Nat.eq_zero_or_pos slots.size with h0 | hpos
  · have houtside : slots[home slots hash]? = none := Array.getElem?_eq_none (by omega)
    cases count with
    | zero => rfl
    | succ count => rw [probeContent, houtside]
  · cases hfound : probeContent slots hash accepts count (home slots hash) with
    | none => rfl
    | some handle =>
        obtain ⟨k, v, hk, -⟩ := probeContent_eq_some (home_lt hpos hash) hfound
        exact absurd hk (hno k v)

/-- A valid table is searched to the end: no more steps than there are slots would change the answer. -/
theorem Valid.probeContent_eq {t : Table} (h : Valid t) (hash : UInt32) (accepts : Handle → Bool) {count : Nat}
    (hcount : t.capacity ≤ count) :
    probeContent t.slots hash accepts count (home t.slots hash) = t.findContent? hash accepts := by
  unfold findContent?
  by_cases h0 : t.used = 0
  · rw [if_pos h0]
    exact probeContent_of_not_holds (h.not_holds_of_used_eq_zero h0) hash accepts count
  · rw [if_neg h0]
    have hpos : 0 < t.slots.size := h.capacity_pos h0
    obtain ⟨d, hd, -, hanswer⟩ := (h.hasEmpty hpos).searchesEnd.content hash accepts _ (home_lt hpos hash)
    rw [hanswer count (Nat.lt_of_lt_of_le hd hcount), hanswer t.slots.size hd]

namespace Represents

variable {hashOf : Handle → UInt32} {t : Table} {map : Handle → Option Value} (h : Represents hashOf t map)

include h

/-- The entry of a handle is in some slot, under the key of the handle. -/
theorem exists_holds {handle : Handle} (hlive : (map handle).isSome) : ∃ v, Holds t.slots (keyOf hashOf handle) v := by
  obtain ⟨v, hv⟩ := Option.isSome_iff_exists.mp hlive
  exact ⟨v, (h.holds_iff _ _).mpr ⟨rfl, hv⟩⟩

/-- What a search by content returns is in the map. -/
theorem of_findContent? {hash : UInt32} {accepts : Handle → Bool} {handle : Handle}
    (hfound : t.findContent? hash accepts = some handle) :
    (map handle).isSome ∧ hashOf handle = hash ∧ accepts handle = true := by
  obtain ⟨k, v, hk, rfl, hhash, haccepted⟩ := (h.valid.findContent?_spec hash accepts).1 handle hfound
  obtain ⟨hkey, hv⟩ := (h.holds_iff k v).mp hk
  exact ⟨Option.isSome_iff_exists.mpr ⟨v, hv⟩, hkey.symm.trans hhash, haccepted⟩

/-- A search by content misses nothing that is in the map. -/
theorem findContent?_eq_none_iff (hash : UInt32) (accepts : Handle → Bool) :
    t.findContent? hash accepts = none ↔
      ∀ handle, (map handle).isSome → hashOf handle = hash → accepts handle = false := by
  constructor
  · intro hnone handle hlive hhash
    obtain ⟨v, hv⟩ := h.exists_holds hlive
    exact (h.valid.findContent?_spec hash accepts).2 hnone _ v hv hhash
  · intro hrefused
    cases hfound : t.findContent? hash accepts with
    | none => rfl
    | some handle =>
        obtain ⟨hlive, hhash, haccepted⟩ := h.of_findContent? hfound
        rw [hrefused handle hlive hhash] at haccepted
        cases haccepted

end Represents

/-- **Searching by content is complete.** After any history of operations a search by content returns a handle only if
the handle has a value, its hash is the one searched for, and it is accepted; and it returns none exactly if there is no
such handle. It has come to an end by then: more steps than there are slots would give the same answer. -/
theorem content_search_complete (hashOf : Handle → UInt32) (history : List Action) (hash : UInt32)
    (accepts : Handle → Bool) :
    (∀ handle, (replay hashOf history).findContent? hash accepts = some handle →
        (recalled history handle).isSome ∧ hashOf handle = hash ∧ accepts handle = true) ∧
      ((replay hashOf history).findContent? hash accepts = none ↔
        ∀ handle, (recalled history handle).isSome → hashOf handle = hash → accepts handle = false) ∧
      ∀ count, (replay hashOf history).capacity ≤ count →
        probeContent (replay hashOf history).slots hash accepts count (home (replay hashOf history).slots hash) =
          (replay hashOf history).findContent? hash accepts := by
  have h := represents_replay hashOf history
  exact ⟨fun _ => h.of_findContent?, h.findContent?_eq_none_iff hash accepts,
    fun _ => h.valid.probeContent_eq hash accepts⟩

/-- Of two keys with one hash the first is deleted, and the other is found behind its tombstone. -/
example : (replay (fun _ => 9) [.erase ⟨1⟩, .set ⟨2⟩ .nil, .set ⟨1⟩ .nil]).findContent? 9 (· == ⟨2⟩) =
  some ⟨2⟩ := by
  decide +kernel

end Lox.Table
