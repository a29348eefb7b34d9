import Lox.Storage.Table

/-! Probe sequences. A probe for a hash visits the slots from the hash's home on, one after the other
and around the end, until a slot decides it: an empty slot, or the one that holds the handle sought.
The slots are sound if no handle lies in two of them and no probe for an entry meets an empty slot
before the entry. In sound slots with an empty one among them a probe finds the entry of a handle
exactly if there is one, and finds a place for it otherwise. -/

namespace Lox.Table

/-- An entry lies in some slot. -/
def Holds (slots : Array Slot) (key : Key) (value : Value) : Prop :=
  ∃ i : Nat, slots[i]? = some (.occupied key value)

/-- The slot that a probe from `start` on meets after `d` others. -/
def place (slots : Array Slot) (start d : Nat) : Nat := (start + d) % slots.size

/-- A handle cannot be in the slot, and a probe for it goes on from there. -/
def Passes (handle : Handle) : Slot → Prop
  | .empty => False
  | .tombstone => True
  | .occupied key _ => key.handle ≠ handle

/-- A slot that new entries may take. -/
def Vacant : Slot → Prop
  | .occupied _ _ => False
  | _ => True

/-- All slots on the way from `start` to the slot `d` places further are in use. -/
def Filled (slots : Array Slot) (start d : Nat) : Prop :=
  ∀ e < d, ∃ s, slots[place slots start e]? = some s ∧ s ≠ .empty

/-- No handle lies in two slots, and every entry is reached by the probe for its key. -/
structure Sound (slots : Array Slot) : Prop where
  unique : ∀ {i j : Nat} {k l : Key} {v w : Value}, slots[i]? = some (.occupied k v) →
    slots[j]? = some (.occupied l w) → k.handle = l.handle → i = j
  reached : ∀ {i : Nat} {k : Key} {v : Value}, slots[i]? = some (.occupied k v) →
    ∃ d < slots.size, place slots (home slots k.hash) d = i ∧ Filled slots (home slots k.hash) d

theorem place_lt {slots : Array Slot} (h : 0 < slots.size) (start d : Nat) :
    place slots start d < slots.size := Nat.mod_lt _ h

theorem place_zero {slots : Array Slot} {start : Nat} (h : start < slots.size) :
    place slots start 0 = start := Nat.mod_eq_of_lt h

theorem place_succ (slots : Array Slot) (start d : Nat) :
    place slots ((start + 1) % slots.size) d = place slots start (d + 1) := by
  unfold place
  rw [Nat.mod_add_mod, Nat.add_assoc, Nat.add_comm 1 d]

theorem home_lt {slots : Array Slot} (h : 0 < slots.size) (hash : UInt32) :
    home slots hash < slots.size := Nat.mod_lt _ h

/-- Every slot is met by a probe, wherever it starts. -/
theorem exists_place {slots : Array Slot} {i : Nat} (hi : i < slots.size) (start : Nat) :
    ∃ d < slots.size, place slots start d = i := by
  have hpos : 0 < slots.size := by omega
  have hs : start % slots.size < slots.size := Nat.mod_lt _ hpos
  by_cases hle : start % slots.size ≤ i
  · refine ⟨i - start % slots.size, by omega, ?_⟩
    rw [place, ← Nat.mod_add_mod, Nat.add_sub_cancel' hle, Nat.mod_eq_of_lt hi]
  · refine ⟨i + slots.size - start % slots.size, by omega, ?_⟩
    rw [place, ← Nat.mod_add_mod]
    have hsum : start % slots.size + (i + slots.size - start % slots.size) = i + slots.size := by
      omega
    rw [hsum, Nat.add_mod_right, Nat.mod_eq_of_lt hi]

/-! ### What a probe returns -/

/-- A probe that passes over the slot where it starts, and over others behind it, passes over them all. -/
theorem passes_succ {slots : Array Slot} {handle : Handle} {start d : Nat} {s : Slot} (hstart : start < slots.size)
    (hs : slots[start]? = some s) (hp : Passes handle s)
    (h : ∀ e < d, ∃ s, slots[place slots ((start + 1) % slots.size) e]? = some s ∧ Passes handle s) :
    ∀ e < d + 1, ∃ s, slots[place slots start e]? = some s ∧ Passes handle s := by
  intro e he
  cases e with
  | zero => exact ⟨s, by rw [place_zero hstart]; exact hs, hp⟩
  | succ e =>
      rw [← place_succ]
      exact h e (Nat.lt_of_succ_lt_succ he)

/-- What decides a probe `d` places behind its start: the slot of the handle, or an empty slot. In the second case it
returns the slot that was kept for reuse, or the first one that it could have kept. -/
inductive Decided (slots : Array Slot) (handle : Handle) (reuse : Option Nat) (start d r : Nat) : Prop where
  | found (k : Key) (v : Value) (hr : r = place slots start d) (hocc : slots[r]? = some (.occupied k v))
      (hk : k.handle = handle)
  | kept (hempty : slots[place slots start d]? = some .empty) (hreuse : reuse = some r)
  | room (e : Nat) (s : Slot) (hempty : slots[place slots start d]? = some .empty) (hnone : reuse = none) (he : e ≤ d)
      (hr : r = place slots start e) (hs : slots[r]? = some s) (hvacant : Vacant s)

namespace Decided

variable {slots : Array Slot} {handle : Handle} {reuse : Option Nat} {start d r : Nat}

/-- The probe has passed over an entry of another handle. -/
theorem after_occupied (h : Decided slots handle reuse ((start + 1) % slots.size) d r) :
    Decided slots handle reuse start (d + 1) r := by
  cases h with
  | found k v hr hocc hk => exact .found k v (hr.trans (place_succ ..)) hocc hk
  | kept hempty hreuse => exact .kept (place_succ .. ▸ hempty) hreuse
  | room e s hempty hnone he hr hs hvacant =>
      exact .room (e + 1) s (place_succ .. ▸ hempty) hnone (Nat.succ_le_succ he) (hr.trans (place_succ ..)) hs hvacant

/-- The probe has passed over a tombstone, which it keeps for reuse unless it has kept one before. -/
theorem after_tombstone (hstart : start < slots.size) (htomb : slots[start]? = some .tombstone)
    (h : Decided slots handle (reuse.or (some start)) ((start + 1) % slots.size) d r) :
    Decided slots handle reuse start (d + 1) r := by
  cases h with
  | found k v hr hocc hk => exact .found k v (hr.trans (place_succ ..)) hocc hk
  | kept hempty hreuse =>
      have hempty := place_succ slots start d ▸ hempty
      cases reuse with
      | some q => exact .kept hempty hreuse
      | none =>
          obtain rfl : start = r := Option.some.inj hreuse
          exact .room 0 .tombstone hempty rfl (Nat.zero_le _) (place_zero hstart).symm htomb trivial
  | room e s hempty hnone => cases reuse <;> cases hnone

end Decided

/-- A probe that ends has passed over some slots and met one that decides it. -/
theorem probe_eq_some {slots : Array Slot} {handle : Handle} {r : Nat} :
    ∀ {count start : Nat} {reuse : Option Nat}, start < slots.size →
      probe slots handle reuse count start = some r →
      ∃ d < count, (∀ e < d, ∃ s, slots[place slots start e]? = some s ∧ Passes handle s) ∧
        Decided slots handle reuse start d r := by
  intro count
  induction count with
  | zero => intro start reuse _ h; simp [probe] at h
  | succ count ih =>
      intro start reuse hstart h
      have hnext : (start + 1) % slots.size < slots.size := Nat.mod_lt _ (by omega)
      have hzero : place slots start 0 = start := place_zero hstart
      have hnow : ∀ e < 0, ∃ s, slots[place slots start e]? = some s ∧ Passes handle s :=
        fun e he => absurd he (Nat.not_lt_zero e)
      rw [probe] at h
      split at h
      · cases h
      · next hempty =>
          rw [← hzero] at hempty
          refine ⟨0, Nat.succ_pos _, hnow, ?_⟩
          cases reuse with
          | some q => exact .kept hempty h
          | none =>
              obtain rfl : start = r := Option.some.inj h
              exact .room 0 .empty hempty rfl (Nat.le_refl _) hzero.symm (hzero ▸ hempty) trivial
      · next htomb =>
          obtain ⟨d, hd, hpass, hdec⟩ := ih hnext h
          exact ⟨d + 1, Nat.succ_lt_succ hd, passes_succ hstart htomb trivial hpass, hdec.after_tombstone hstart htomb⟩
      · next k v hocc =>
          split at h
          · next hk =>
              obtain rfl : start = r := Option.some.inj h
              exact ⟨0, Nat.succ_pos _, hnow, .found k v hzero.symm hocc hk⟩
          · next hk =>
              obtain ⟨d, hd, hpass, hdec⟩ := ih hnext h
              exact ⟨d + 1, Nat.succ_lt_succ hd, passes_succ hstart hocc hk hpass, hdec.after_occupied⟩

/-- A probe never returns a place that does not exist. -/
theorem probe_lt {slots : Array Slot} {handle : Handle} {count start r : Nat} (hstart : start < slots.size)
    (h : probe slots handle none count start = some r) : r < slots.size := by
  have hpos : 0 < slots.size := by omega
  obtain ⟨d, -, -, hdec⟩ := probe_eq_some hstart h
  cases hdec with
  | found _ _ hr => exact hr ▸ place_lt hpos _ _
  | kept _ hreuse => cases hreuse
  | room _ _ _ _ _ hr => exact hr ▸ place_lt hpos _ _

/-- A probe that meets an empty slot within its count ends. -/
theorem probe_isSome {slots : Array Slot} {handle : Handle} :
    ∀ {count start d : Nat} {reuse : Option Nat}, start < slots.size → d < count →
      slots[place slots start d]? = some .empty →
      (probe slots handle reuse count start).isSome := by
  intro count
  induction count with
  | zero => intro start d reuse _ hd; omega
  | succ count ih =>
      intro start d reuse hstart hd hempty
      have hpos : 0 < slots.size := by omega
      have hnext : ∀ reuse, d ≠ 0 →
          (probe slots handle reuse count ((start + 1) % slots.size)).isSome := by
        intro reuse hne
        refine ih (d := d - 1) (Nat.mod_lt _ hpos) (by omega) ?_
        rw [place_succ, Nat.sub_add_cancel (by omega)]
        exact hempty
      rw [probe]
      split
      · next hnone =>
          rw [Array.getElem?_eq_none_iff] at hnone
          omega
      · simp
      · next htomb =>
          refine hnext _ fun hd0 => ?_
          rw [hd0, place_zero hstart, htomb] at hempty
          cases hempty
      · next k v hocc =>
          split
          · simp
          · refine hnext _ fun hd0 => ?_
            rw [hd0, place_zero hstart, hocc] at hempty
            cases hempty

/-! ### Finding a key in sound slots -/

/-- The number of slots in use leaves an empty one. -/
def HasEmpty (slots : Array Slot) : Prop := ∃ i : Nat, slots[i]? = some .empty

theorem HasEmpty.size_pos {slots : Array Slot} (h : HasEmpty slots) : 0 < slots.size := by
  obtain ⟨i, hi⟩ := h
  have := (Array.getElem?_eq_some_iff.mp hi).1
  omega

/-- The stored key of a handle, if there is one, is the key looked for. Keys whose hash is a function
of their handle are never at odds. -/
def Agrees (slots : Array Slot) (key : Key) : Prop :=
  ∀ {k : Key} {v : Value}, Holds slots k v → k.handle = key.handle → k = key

/-- The slot that a search returns: the slot of the key, or a slot where the key may be stored. -/
inductive Found (slots : Array Slot) (key : Key) (r : Nat) : Prop where
  | entry (value : Value) (h : slots[r]? = some (.occupied key value))
  | room (absent : ∀ k v, Holds slots k v → k.handle ≠ key.handle)
      (s : Slot) (h : slots[r]? = some s) (vacant : Vacant s)
      (d : Nat) (hd : d < slots.size) (hr : place slots (home slots key.hash) d = r)
      (filled : Filled slots (home slots key.hash) d)

theorem filled_of_passes {slots : Array Slot} {handle : Handle} {start d e : Nat}
    (h : ∀ e < d, ∃ s, slots[place slots start e]? = some s ∧ Passes handle s) (he : e ≤ d) :
    Filled slots start e := by
  intro f hf
  obtain ⟨s, hs, hp⟩ := h f (by omega)
  refine ⟨s, hs, ?_⟩
  rintro rfl
  exact hp

/-- In sound slots the entry of a handle stands before the first empty slot of its probe. -/
theorem Sound.lt_of_empty {slots : Array Slot} (hs : Sound slots) {i d : Nat} {k : Key} {v : Value}
    (hocc : slots[i]? = some (.occupied k v))
    (hempty : slots[place slots (home slots k.hash) d]? = some .empty) :
    ∃ e < d, place slots (home slots k.hash) e = i := by
  obtain ⟨e, -, hplace, hfilled⟩ := hs.reached hocc
  rcases Nat.lt_trichotomy e d with hlt | heq | hgt
  · exact ⟨e, hlt, hplace⟩
  · rw [← heq, hplace, hocc] at hempty
    cases hempty
  · obtain ⟨s, hsome, hne⟩ := hfilled d hgt
    rw [hempty] at hsome
    exact absurd (Option.some.inj hsome).symm hne

theorem find?_found {slots : Array Slot} (hs : Sound slots) (he : HasEmpty slots) {key : Key}
    (ha : Agrees slots key) : ∃ r, find? slots key = some r ∧ Found slots key r := by
  have hpos := he.size_pos
  have hhome := home_lt hpos key.hash
  obtain ⟨i, hi⟩ := he
  obtain ⟨d, hd, hplace⟩ := exists_place (Array.getElem?_eq_some_iff.mp hi).1 (home slots key.hash)
  have hsome : (probe slots key.handle none slots.size (home slots key.hash)).isSome :=
    probe_isSome hhome hd (hplace ▸ hi)
  obtain ⟨r, hr⟩ := Option.isSome_iff_exists.mp hsome
  refine ⟨r, hr, ?_⟩
  obtain ⟨d, hd, hpass, hdec⟩ := probe_eq_some hhome hr
  cases hdec with
  | found k v _ hocc hk =>
      obtain rfl := ha ⟨r, hocc⟩ hk
      exact .entry v hocc
  | kept _ hreuse => cases hreuse
  | room e s hempty _ hed hre hsr hvac =>
      refine .room ?_ s hsr hvac e (by omega) hre.symm (filled_of_passes hpass hed)
      rintro k v ⟨j, hocc⟩ hk
      -- the probe would have passed over the slot of the handle
      obtain rfl := ha ⟨j, hocc⟩ hk
      obtain ⟨f, hf, hfj⟩ := hs.lt_of_empty hocc hempty
      obtain ⟨t, ht, hp⟩ := hpass f hf
      rw [hfj, hocc] at ht
      cases ht
      exact hp rfl

/-! ### Finding a key by its content -/

/-- Within a count that reaches an empty slot, a search by content returns a key exactly if a slot
before that one has it. -/
theorem probeContent_eq_some {slots : Array Slot} {hash : UInt32} {accepts : Handle → Bool}
    {handle : Handle} :
    ∀ {count start : Nat}, start < slots.size → probeContent slots hash accepts count start = some handle →
      ∃ k v, Holds slots k v ∧ k.handle = handle ∧ k.hash = hash ∧ accepts handle := by
  intro count
  induction count with
  | zero => intro start _ h; simp [probeContent] at h
  | succ count ih =>
      intro start hstart h
      have hpos : 0 < slots.size := by omega
      rw [probeContent] at h
      split at h
      · cases h
      · cases h
      · exact ih (Nat.mod_lt _ hpos) h
      · next k v hocc =>
          split at h
          · next hk =>
              obtain rfl := Option.some.inj h
              rw [Bool.and_eq_true, beq_iff_eq] at hk
              exact ⟨k, v, ⟨_, hocc⟩, rfl, hk.1, hk.2⟩
          · exact ih (Nat.mod_lt _ hpos) h

/-- What a search by content returns has been accepted, whatever table it is. -/
theorem accepts_of_findContent? {t : Table} {hash : UInt32} {accepts : Handle → Bool} {handle : Handle}
    (h : t.findContent? hash accepts = some handle) : accepts handle := by
  unfold findContent? at h
  split at h
  · cases h
  · rcases Nat.eq_zero_or_pos t.slots.size with h0 | hpos
    · rw [h0] at h
      cases h
    · obtain ⟨-, -, -, -, -, haccepted⟩ := probeContent_eq_some (home_lt hpos hash) h
      exact haccepted

theorem probeContent_eq_none {slots : Array Slot} {hash : UInt32} {accepts : Handle → Bool} :
    ∀ {count start : Nat}, start < slots.size → probeContent slots hash accepts count start = none →
      ∀ d < count, Filled slots start (d + 1) → ∀ k v,
        slots[place slots start d]? = some (.occupied k v) → k.hash = hash → accepts k.handle = false := by
  intro count
  induction count with
  | zero => intro start _ _ d hd; omega
  | succ count ih =>
      intro start hstart h d hd hfilled k v hocc hk
      have hpos : 0 < slots.size := by omega
      have hzero : place slots start 0 = start := place_zero hstart
      -- a search that goes on has its answer from the later slots
      have hnext : probeContent slots hash accepts count ((start + 1) % slots.size) = none →
          d ≠ 0 → accepts k.handle = false := by
        intro hrest hne
        obtain ⟨d, rfl⟩ := Nat.exists_eq_succ_of_ne_zero hne
        refine ih (Nat.mod_lt _ hpos) hrest d (by omega) ?_ k v ?_ hk
        · intro e he
          rw [place_succ]
          exact hfilled (e + 1) (by omega)
        · rw [place_succ]
          exact hocc
      obtain ⟨s, hs, hne⟩ := hfilled 0 (by omega)
      rw [hzero] at hs
      rw [probeContent, hs] at h
      cases s with
      | empty => exact absurd rfl hne
      | tombstone =>
          refine hnext h fun hd0 => ?_
          rw [hd0, hzero, hs] at hocc
          cases hocc
      | occupied l w =>
          simp only at h
          split at h
          · cases h
          · next hl =>
              by_cases hd0 : d = 0
              · rw [hd0, hzero, hs] at hocc
                cases hocc
                rw [Bool.and_eq_true, beq_iff_eq, not_and] at hl
                simpa using hl hk
              · exact hnext h hd0

/-- In sound slots a search by content misses no key. -/
theorem Sound.probeContent_eq_none_iff {slots : Array Slot} (hs : Sound slots) (hpos : 0 < slots.size)
    (hash : UInt32) (accepts : Handle → Bool) :
    probeContent slots hash accepts slots.size (home slots hash) = none ↔
      ∀ k v, Holds slots k v → k.hash = hash → accepts k.handle = false := by
  constructor
  · rintro h k v ⟨i, hocc⟩ rfl
    obtain ⟨d, hd, hplace, hfilled⟩ := hs.reached hocc
    refine probeContent_eq_none (home_lt hpos k.hash) h d hd ?_ k v (hplace ▸ hocc) rfl
    intro e he
    rcases Nat.lt_succ_iff_lt_or_eq.mp he with hlt | rfl
    · exact hfilled e hlt
    · exact ⟨.occupied k v, hplace ▸ hocc, by simp⟩
  · intro h
    cases hp : probeContent slots hash accepts slots.size (home slots hash) with
    | none => rfl
    | some handle =>
        obtain ⟨k, v, hk, rfl, hhash, hacc⟩ := probeContent_eq_some (home_lt hpos hash) hp
        rw [h k v hk hhash] at hacc
        cases hacc

end Lox.Table
