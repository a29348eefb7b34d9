import Lox.Proofs.Storage.Writes
import Mathlib.Data.Set.Card

/-! Tables as partial maps. A valid table has sound slots, counts them correctly and is loaded to at
most three quarters, and every operation keeps it so. What a table answers is then a matter of its
entries alone: reading finds the entry of a key, storing replaces it, deleting removes it, and growing
changes nothing. The main statement compares a table with the history of the operations on it. -/

namespace Lox.Table

/-- The bookkeeping of a table is right and its probes end. -/
structure Valid (t : Table) : Prop where
  sound : Sound t.slots
  used_eq : t.used = t.slots.countP inUse
  live_eq : t.live = t.slots.countP isEntry
  load : 4 * t.used ≤ 3 * t.capacity
  capacity_eq : t.capacity = 0 ∨ ∃ n, t.capacity = 8 * 2 ^ n

theorem valid_empty : Valid empty :=
  ⟨(fresh_replicate 0).sound, rfl, rfl, Nat.le_refl _, Or.inl rfl⟩

/-- The next capacity leaves room for one more slot in use, and is eight times a power of two again. -/
theorem nextCapacity_room {used capacity : Nat} (hload : 4 * used ≤ 3 * capacity)
    (hcapacity : capacity = 0 ∨ ∃ n, capacity = 8 * 2 ^ n) :
    4 * (used + 1) ≤ 3 * nextCapacity capacity ∧ ∃ j, nextCapacity capacity = 8 * 2 ^ j := by
  unfold nextCapacity minCapacity
  rcases hcapacity with h0 | ⟨j, hj⟩
  · rw [if_pos (by omega)]
    exact ⟨by omega, 0, rfl⟩
  · have hpow : 0 < 2 ^ j := Nat.two_pow_pos j
    rw [if_neg (by omega)]
    exact ⟨by omega, j + 1, by rw [Nat.pow_succ]; omega⟩

namespace Valid

variable {t : Table} (h : Valid t)

include h

theorem live_le_used : t.live ≤ t.used := by
  rw [h.live_eq, h.used_eq]
  exact Array.countP_mono_left fun s _ hs => by cases s <;> simp_all [isEntry, inUse]

theorem hasEmpty (hpos : 0 < t.capacity) : HasEmpty t.slots := by
  refine hasEmpty_of_countP_lt ?_
  have hload := h.load
  rw [← h.used_eq]
  unfold capacity at hload hpos
  omega

theorem not_holds_of_used_eq_zero (h0 : t.used = 0) (k : Key) (v : Value) : ¬ Holds t.slots k v := by
  rintro ⟨i, hi⟩
  have hcount : t.slots.countP inUse = 0 := h.used_eq ▸ h0
  exact Array.countP_eq_zero.mp hcount _ (Array.mem_of_getElem? hi) rfl

theorem capacity_pos (h0 : t.used ≠ 0) : 0 < t.capacity := by
  have := h.load
  omega

/-! ### Reading -/

theorem get?_eq_some_iff {key : Key} (ha : Agrees t.slots key) (value : Value) :
    t.get? key = some value ↔ Holds t.slots key value := by
  unfold get?
  by_cases h0 : t.used = 0
  · rw [if_pos h0]
    simp only [reduceCtorEq, false_iff]
    exact h.not_holds_of_used_eq_zero h0 key value
  · rw [if_neg h0]
    obtain ⟨r, hr, hfound⟩ := find?_found h.sound (h.hasEmpty (h.capacity_pos h0)) ha
    rw [hr, Option.bind_some]
    cases hfound with
    | entry old hold =>
        rw [hold]
        constructor
        · intro heq
          cases heq
          exact ⟨r, hold⟩
        · rintro ⟨j, hj⟩
          obtain rfl := h.sound.unique hold hj rfl
          rw [hold] at hj
          cases hj
          rfl
    | room absent s hs vacant =>
        rw [hs]
        constructor
        · intro heq
          cases s with
          | empty => cases heq
          | tombstone => cases heq
          | occupied k v => exact vacant.elim
        · intro hv
          exact absurd rfl (absent key value hv)

theorem get?_eq_none_iff {key : Key} (ha : Agrees t.slots key) :
    t.get? key = none ↔ ∀ k v, Holds t.slots k v → k.handle ≠ key.handle := by
  constructor
  · intro hn k v hv hk
    obtain rfl := ha hv hk
    rw [(h.get?_eq_some_iff ha v).mpr hv] at hn
    cases hn
  · intro habs
    cases hg : t.get? key with
    | none => rfl
    | some v => exact absurd rfl (habs key v ((h.get?_eq_some_iff ha v).mp hg))

/-! ### Growing -/

theorem resize_valid {n : Nat} (hroom : 4 * t.live ≤ 3 * n) (hpos : 0 < n) (hn : ∃ j, n = 8 * 2 ^ j) :
    Valid (t.resize n) ∧ (t.resize n).used = t.live ∧ (t.resize n).capacity = n ∧
      ∀ k v, Holds (t.resize n).slots k v ↔ Holds t.slots k v := by
  have hcount : t.slots.toList.countP isEntry = t.live := by
    rw [Array.countP_toList, h.live_eq]
  obtain ⟨slots, hfold, hsize, hfresh, hholds⟩ := (fresh_replicate n).foldl_rehash h.sound.distinct
    (fun k v _ _ hk => by
      obtain ⟨i, hi⟩ := hk
      rw [Array.getElem?_replicate] at hi
      split at hi <;> cases hi)
    (by rw [hcount, Array.size_replicate]; omega)
  have hresize : t.resize n = ⟨slots, t.live, t.live⟩ := by
    unfold resize
    rw [← Array.foldl_toList, hfold, hcount, Nat.zero_add]
  rw [hcount, Nat.zero_add] at hfresh
  rw [Array.size_replicate] at hsize
  rw [hresize]
  refine ⟨⟨hfresh.sound, hfresh.used, hfresh.live, ?_, Or.inr ?_⟩, rfl, hsize, ?_⟩
  · simpa only [capacity, hsize] using hroom
  · simpa only [capacity, hsize] using hn
  · intro k v
    rw [hholds, Array.mem_toList_iff, Array.mem_iff_getElem?]
    constructor
    · rintro (⟨i, hi⟩ | hk)
      · rw [Array.getElem?_replicate] at hi
        split at hi <;> cases hi
      · exact hk
    · exact Or.inr

/-- Making room changes no entry. -/
theorem reserve_valid : Valid t.reserve ∧ 4 * (t.reserve.used + 1) ≤ 3 * t.reserve.capacity ∧
    ∀ k v, Holds t.reserve.slots k v ↔ Holds t.slots k v := by
  have hload := h.load
  have hlive := h.live_le_used
  unfold reserve
  split
  · obtain ⟨hroom, hn⟩ := nextCapacity_room hload h.capacity_eq
    obtain ⟨hv, hu, hc, hholds⟩ := h.resize_valid (n := nextCapacity t.capacity) (by omega) (by omega) hn
    exact ⟨hv, by omega, hholds⟩
  · exact ⟨h, by omega, fun _ _ => Iff.rfl⟩

/-! ### Storing and deleting -/

theorem set_spec {key : Key} (ha : Agrees t.slots key) (value : Value) :
    Valid (t.set key value).1 ∧ Stored t.slots (t.set key value).1.slots key value ∧
      ((t.set key value).2 = true ↔ ∀ k v, Holds t.slots k v → k.handle ≠ key.handle) := by
  obtain ⟨hv, hload, hholds⟩ := h.reserve_valid
  have ha' : Agrees t.reserve.slots key := fun hk => ha ((hholds _ _).mp hk)
  obtain ⟨r, hr, hfound⟩ := find?_found hv.sound (hv.hasEmpty (by omega)) ha'
  obtain ⟨hsound, hstored⟩ := hv.sound.store hfound value
  have hsize : (t.reserve.slots.setIfInBounds r (.occupied key value)).size = t.reserve.capacity := by
    simp [capacity]
  have hst : Stored t.slots (t.reserve.slots.setIfInBounds r (.occupied key value)) key value :=
    fun k v => (hstored k v).trans (by rw [hholds])
  have hused := hv.used_eq
  have hlive := hv.live_eq
  unfold set
  simp only [hr]
  cases hfound with
  | entry old hold =>
      have hu := countP_setIfInBounds inUse hold (.occupied key value)
      have hl := countP_setIfInBounds isEntry hold (.occupied key value)
      simp only [inUse, isEntry, if_true] at hu hl
      rw [hold]
      refine ⟨⟨hsound, by simp only; omega, by simp only; omega, ?_, ?_⟩, hst, ?_⟩
      · simp only [capacity, Array.size_setIfInBounds]
        exact hv.load
      · simp only [capacity, Array.size_setIfInBounds]
        exact hv.capacity_eq
      · simp only [Bool.false_eq_true, false_iff]
        exact fun habs => absurd rfl (habs key old ((hholds _ _).mp ⟨r, hold⟩))
  | room absent s hs vacant =>
      have habs : ∀ k v, Holds t.slots k v → k.handle ≠ key.handle :=
        fun k v hk => absent k v ((hholds k v).mpr hk)
      have hu := countP_setIfInBounds inUse hs (.occupied key value)
      have hl := countP_setIfInBounds isEntry hs (.occupied key value)
      rw [hs]
      cases s with
      | occupied k v => exact vacant.elim
      | tombstone =>
          simp only [inUse, isEntry, if_true, Bool.false_eq_true, if_false] at hu hl
          refine ⟨⟨hsound, by simp only; omega, by simp only; omega, ?_, ?_⟩, hst, by simpa using habs⟩
          · simp only [capacity, Array.size_setIfInBounds]
            exact hv.load
          · simp only [capacity, Array.size_setIfInBounds]
            exact hv.capacity_eq
      | empty =>
          simp only [inUse, isEntry, if_true, Bool.false_eq_true, if_false] at hu hl
          refine ⟨⟨hsound, by simp only; omega, by simp only; omega, ?_, ?_⟩, hst, by simpa using habs⟩
          · simp only [capacity, Array.size_setIfInBounds]
            exact hload
          · simp only [capacity, Array.size_setIfInBounds]
            exact hv.capacity_eq

theorem erase_spec {key : Key} (ha : Agrees t.slots key) :
    Valid (t.erase key).1 ∧
      (∀ k v, Holds (t.erase key).1.slots k v ↔ k.handle ≠ key.handle ∧ Holds t.slots k v) ∧
      ((t.erase key).2 = true ↔ ∃ v, Holds t.slots key v) := by
  unfold erase
  by_cases h0 : t.used = 0
  · rw [if_pos h0]
    have hno := h.not_holds_of_used_eq_zero h0
    refine ⟨h, fun k v => ⟨fun hk => absurd hk (hno k v), fun hk => absurd hk.2 (hno k v)⟩, ?_⟩
    simp only [Bool.false_eq_true, false_iff]
    rintro ⟨v, hv⟩
    exact hno key v hv
  · rw [if_neg h0]
    obtain ⟨r, hr, hfound⟩ := find?_found h.sound (h.hasEmpty (h.capacity_pos h0)) ha
    simp only [hr]
    cases hfound with
    | entry old hold =>
        have hu := countP_setIfInBounds inUse hold .tombstone
        have hl := countP_setIfInBounds isEntry hold .tombstone
        simp only [inUse, isEntry, if_true, Bool.false_eq_true, if_false] at hu hl
        obtain ⟨hsound, hholds⟩ := h.sound.bury hold
        have hused := h.used_eq
        have hlive := h.live_eq
        rw [hold]
        refine ⟨⟨hsound, by simp only; omega, by simp only; omega, ?_, ?_⟩, hholds, ?_⟩
        · simp only [capacity, Array.size_setIfInBounds]
          exact h.load
        · simp only [capacity, Array.size_setIfInBounds]
          exact h.capacity_eq
        · simp only [true_iff]
          exact ⟨old, r, hold⟩
    | room absent s hs vacant =>
        rw [hs]
        have hsame : ∀ k v, Holds t.slots k v ↔ k.handle ≠ key.handle ∧ Holds t.slots k v :=
          fun k v => ⟨fun hk => ⟨absent k v hk, hk⟩, And.right⟩
        have hnone : ¬ ∃ v, Holds t.slots key v := by
          rintro ⟨v, hv⟩
          exact absent key v hv rfl
        cases s with
        | occupied k v => exact vacant.elim
        | tombstone => exact ⟨h, hsame, by simpa using hnone⟩
        | empty => exact ⟨h, hsame, by simpa using hnone⟩

/-! ### The list of the entries -/

omit h in
theorem mem_toList {k : Key} {v : Value} : (k, v) ∈ t.toList ↔ Holds t.slots k v := by
  unfold toList Holds
  rw [List.mem_filterMap]
  simp only [Array.mem_toList_iff, Array.mem_iff_getElem?]
  constructor
  · rintro ⟨s, ⟨i, hi⟩, hs⟩
    cases s with
    | empty => cases hs
    | tombstone => cases hs
    | occupied l w =>
        cases hs
        exact ⟨i, hi⟩
  · rintro ⟨i, hi⟩
    exact ⟨_, ⟨i, hi⟩, rfl⟩

theorem nodup_toList : (t.toList.map fun entry => entry.1.handle).Nodup := by
  unfold toList List.Nodup
  rw [List.pairwise_map, List.pairwise_filterMap]
  refine h.sound.distinct.imp ?_
  intro s u hsu a ha b hb
  cases s <;> cases ha
  cases u <;> cases hb
  exact hsu _ _ _ _ rfl rfl

theorem length_toList : t.toList.length = t.size := by
  rw [toList, List.length_filterMap_eq_countP, size, h.live_eq, ← Array.countP_toList]
  congr 1
  funext s
  cases s <;> rfl

/-! ### Searching by content -/

/-- A search by content returns a key with the hash that is accepted, and returns none only if there
is none. -/
theorem findContent?_spec (hash : UInt32) (accepts : Handle → Bool) :
    (∀ handle, t.findContent? hash accepts = some handle →
      ∃ k v, Holds t.slots k v ∧ k.handle = handle ∧ k.hash = hash ∧ accepts handle) ∧
    (t.findContent? hash accepts = none →
      ∀ k v, Holds t.slots k v → k.hash = hash → accepts k.handle = false) := by
  unfold findContent?
  by_cases h0 : t.used = 0
  · rw [if_pos h0]
    exact ⟨fun _ hn => by simp at hn, fun _ k v hk => absurd hk (h.not_holds_of_used_eq_zero h0 k v)⟩
  · rw [if_neg h0]
    have hpos : 0 < t.slots.size := h.capacity_pos h0
    exact ⟨fun _ hf => probeContent_eq_some (home_lt hpos hash) hf,
      (h.sound.probeContent_eq_none_iff hpos hash accepts).mp⟩

end Valid

/-! ### Tables and histories -/

/-- What can be done with a table; the keys are named by their handles. -/
inductive Action where
  | get (handle : Handle)
  | contains (handle : Handle)
  | set (handle : Handle) (value : Value)
  | erase (handle : Handle)
  | clear

/-- What an action says. -/
inductive Answer where
  | value (found : Option Value)
  | flag (truth : Bool)
  | done

/-- The key of a handle, where the hash is a function of the handle. -/
def keyOf (hashOf : Handle → UInt32) (handle : Handle) : Key := ⟨handle, hashOf handle⟩

@[simp] theorem keyOf_handle (hashOf : Handle → UInt32) (handle : Handle) :
    (keyOf hashOf handle).handle = handle := rfl

/-- Carries out an action. -/
def Action.perform (hashOf : Handle → UInt32) (t : Table) : Action → Table × Answer
  | .get handle => (t, .value (t.get? (keyOf hashOf handle)))
  | .contains handle => (t, .flag (t.contains (keyOf hashOf handle)))
  | .set handle value =>
      let (t, isNew) := t.set (keyOf hashOf handle) value
      (t, .flag isNew)
  | .erase handle =>
      let (t, wasThere) := t.erase (keyOf hashOf handle)
      (t, .flag wasThere)
  | .clear => (t.clear, .done)

/-- The table after a history of actions, the latest first. -/
def replay (hashOf : Handle → UInt32) : List Action → Table
  | [] => empty
  | latest :: earlier => (latest.perform hashOf (replay hashOf earlier)).1

/-- What a history says about a handle: the value it was last given, unless it was deleted or
everything was cleared since. -/
def recalled : List Action → Handle → Option Value
  | [], _ => none
  | .set other value :: earlier, handle => if handle = other then some value else recalled earlier handle
  | .erase other :: earlier, handle => if handle = other then none else recalled earlier handle
  | .clear :: _, _ => none
  | .get _ :: earlier, handle | .contains _ :: earlier, handle => recalled earlier handle

/-- The answer that a partial map gives to an action. -/
def Action.answer (map : Handle → Option Value) : Action → Answer
  | .get handle => .value (map handle)
  | .contains handle => .flag (map handle).isSome
  | .set handle _ => .flag (map handle).isNone
  | .erase handle => .flag (map handle).isSome
  | .clear => .done

/-- The entries of a table are those of a map whose keys are hashed by `hashOf`. -/
structure Represents (hashOf : Handle → UInt32) (t : Table) (map : Handle → Option Value) : Prop where
  valid : Valid t
  holds_iff : ∀ k v, Holds t.slots k v ↔ k.hash = hashOf k.handle ∧ map k.handle = some v

namespace Represents

variable {hashOf : Handle → UInt32} {t : Table} {map : Handle → Option Value}
  (h : Represents hashOf t map)

include h

theorem agrees (handle : Handle) : Agrees t.slots (keyOf hashOf handle) := by
  intro k v hk heq
  have hhash := ((h.holds_iff k v).mp hk).1
  rw [heq] at hhash
  obtain ⟨kh, kd⟩ := k
  exact Key.mk.injEq .. ▸ ⟨heq, hhash⟩

theorem get?_eq (handle : Handle) : t.get? (keyOf hashOf handle) = map handle := by
  refine Option.ext fun v => ?_
  rw [h.valid.get?_eq_some_iff (h.agrees handle), h.holds_iff]
  simp [keyOf]

theorem absent_iff (handle : Handle) :
    (∀ k v, Holds t.slots k v → k.handle ≠ handle) ↔ map handle = none := by
  rw [← h.get?_eq, h.valid.get?_eq_none_iff (h.agrees handle)]
  rfl

theorem set (handle : Handle) (value : Value) :
    Represents hashOf (t.set (keyOf hashOf handle) value).1
        (fun other => if other = handle then some value else map other) ∧
      (t.set (keyOf hashOf handle) value).2 = (map handle).isNone := by
  obtain ⟨hv, hst, hnew⟩ := h.valid.set_spec (h.agrees handle) value
  refine ⟨⟨hv, ?_⟩, ?_⟩
  · intro k v
    rw [hst, h.holds_iff]
    by_cases hk : k.handle = handle
    · obtain ⟨kh, kd⟩ := k
      simp only [keyOf] at hk ⊢
      subst hk
      simp only [Key.mk.injEq, true_and, ne_eq, not_true_eq_false, false_and, or_false, if_true,
        Option.some.injEq]
      exact and_congr_right fun _ => eq_comm
    · have hne : k ≠ keyOf hashOf handle := fun heq => hk (by rw [heq]; rfl)
      simp [hk, hne]
  · rw [Bool.eq_iff_iff, hnew, Option.isNone_iff_eq_none]
    exact h.absent_iff handle

theorem erase (handle : Handle) :
    Represents hashOf (t.erase (keyOf hashOf handle)).1
        (fun other => if other = handle then none else map other) ∧
      (t.erase (keyOf hashOf handle)).2 = (map handle).isSome := by
  obtain ⟨hv, hholds, hwas⟩ := h.valid.erase_spec (h.agrees handle)
  refine ⟨⟨hv, ?_⟩, ?_⟩
  · intro k v
    rw [hholds, h.holds_iff]
    by_cases hk : k.handle = handle <;> simp [keyOf, hk]
  · rw [Bool.eq_iff_iff, hwas, Option.isSome_iff_exists]
    simp only [h.holds_iff, keyOf, true_and]

end Represents

theorem represents_empty (hashOf : Handle → UInt32) : Represents hashOf empty fun _ => none :=
  ⟨valid_empty, fun k v => by simp [Holds, empty]⟩

/-- One action keeps a table a representation of its map, and it answers as the map does. -/
theorem Represents.perform {hashOf : Handle → UInt32} {earlier : List Action} {t : Table}
    (h : Represents hashOf t (recalled earlier)) (a : Action) :
    Represents hashOf (a.perform hashOf t).1 (recalled (a :: earlier)) ∧
      (a.perform hashOf t).2 = a.answer (recalled earlier) := by
  cases a with
  | get handle => exact ⟨h, congrArg Answer.value (h.get?_eq handle)⟩
  | contains handle => 
      refine ⟨h, ?_⟩
      rw [Action.perform, Action.answer, Table.contains, h.get?_eq]
  | set handle value => exact ⟨(h.set handle value).1, congrArg Answer.flag (h.set handle value).2⟩
  | erase handle => exact ⟨(h.erase handle).1, congrArg Answer.flag (h.erase handle).2⟩
  | clear => exact ⟨represents_empty hashOf, rfl⟩

theorem represents_replay (hashOf : Handle → UInt32) (history : List Action) :
    Represents hashOf (replay hashOf history) (recalled history) := by
  induction history with
  | nil => exact represents_empty hashOf
  | cons latest earlier ih => exact (ih.perform latest).1

/-- **A table is a finite map.** After any history of operations the next one answers as the partial
map that the history describes, the size is the number of the handles that have a value, and the list of
the entries names each of them once with its value. -/
theorem replay_refines_recall (hashOf : Handle → UInt32) (history : List Action) :
    (∀ a : Action, (a.perform hashOf (replay hashOf history)).2 = a.answer (recalled history)) ∧
      {handle | (recalled history handle).isSome}.Finite ∧
      (replay hashOf history).size = {handle | (recalled history handle).isSome}.ncard ∧
      ((replay hashOf history).isEmpty = true ↔ ∀ handle, recalled history handle = none) ∧
      ((replay hashOf history).toList.map fun entry => entry.1.handle).Nodup ∧
      ∀ k v, (k, v) ∈ (replay hashOf history).toList ↔
        k = keyOf hashOf k.handle ∧ recalled history k.handle = some v := by
  have h := represents_replay hashOf history
  have hnodup := h.valid.nodup_toList
  have hmem : ∀ k v, (k, v) ∈ (replay hashOf history).toList ↔
      k = keyOf hashOf k.handle ∧ recalled history k.handle = some v := by
    intro k v
    rw [Valid.mem_toList, h.holds_iff]
    obtain ⟨kh, kd⟩ := k
    simp [keyOf]
  have hset : {handle | (recalled history handle).isSome} =
      ((replay hashOf history).toList.map fun entry => entry.1.handle).toFinset := by
    ext handle
    simp only [Set.mem_ofPred_eq, List.coe_toFinset, List.mem_map, Prod.exists, Option.isSome_iff_exists]
    constructor
    · rintro ⟨v, hv⟩
      exact ⟨keyOf hashOf handle, v, (hmem _ _).mpr ⟨rfl, hv⟩, rfl⟩
    · rintro ⟨k, v, hkv, rfl⟩
      exact ⟨v, ((hmem k v).mp hkv).2⟩
  have hsize : (replay hashOf history).size = {handle | (recalled history handle).isSome}.ncard := by
    rw [hset, Set.ncard_coe_finset, List.toFinset_card_of_nodup hnodup, List.length_map,
      h.valid.length_toList]
  refine ⟨fun a => (h.perform a).2, hset ▸ Finset.finite_toSet _, hsize, ?_, hnodup, hmem⟩
  rw [isEmpty, beq_iff_eq, show (replay hashOf history).live = _ from hsize,
    Set.ncard_eq_zero (hset ▸ Finset.finite_toSet _), Set.eq_empty_iff_forall_notMem]
  simp

end Lox.Table
