import Lox.Proofs.Storage.Map

/-! How full a table gets, whatever keys it is given. The slots in use are never undercounted and never more than three
quarters of all slots, so there is always an empty one, and every search stops there if not before. This asks nothing of
the keys: if one handle comes with several hashes, entries may be met where they were not looked for, but no search goes
on forever. Where the hash is a function of the handle, the counts are exact and no search misses an entry. -/

namespace Lox.Table

/-! ### Searches end -/

/-- A search from `start` on passes over `d` slots and stops at the next one. -/
def StopsAfter (slots : Array Slot) (stops : Slot → Prop) (start d : Nat) : Prop :=
  (∃ s, slots[place slots start d]? = some s ∧ stops s) ∧
    ∀ e < d, ∃ s, slots[place slots start e]? = some s ∧ ¬ stops s

/-- Where a search for a handle stops: at the handle, and where there is nothing to be found any more. -/
def Ends (handle : Handle) (s : Slot) : Prop := ¬ Passes handle s

/-- Where a search by content stops. -/
def Meets (hash : UInt32) (accepts : Handle → Bool) : Slot → Prop
  | .empty => True
  | .tombstone => False
  | .occupied key _ => (key.hash == hash && accepts key.handle) = true

/-- From wherever a search starts, it stops before it would come round. A search for a handle takes the number of steps
that leads to the first slot where it stops, neither more nor less, and returns a slot of the table. A search by content
says what is in the first slot where it stops, however many more steps it would be allowed. -/
structure SearchesEnd (slots : Array Slot) : Prop where
  handle : ∀ (handle : Handle) (reuse : Option Nat) (start : Nat), start < slots.size →
    ∃ d < slots.size, StopsAfter slots (Ends handle) start d ∧
      ∀ count, (probe slots handle reuse count start).isSome ↔ d < count
  inside : ∀ (handle : Handle) (count start r : Nat), start < slots.size →
    probe slots handle none count start = some r → r < slots.size
  content : ∀ (hash : UInt32) (accepts : Handle → Bool) (start : Nat), start < slots.size →
    ∃ d < slots.size, StopsAfter slots (Meets hash accepts) start d ∧ ∀ count, d < count →
      probeContent slots hash accepts count start = (slots[place slots start d]?.bind Slot.entry?).map (·.1.handle)

variable {slots : Array Slot} {stops : Slot → Prop} {start d : Nat}

/-- A search that stops at empty slots stops if there is one. -/
theorem HasEmpty.exists_stopsAfter (h : HasEmpty slots) (hempty : stops .empty) (start : Nat) :
    ∃ d < slots.size, StopsAfter slots stops start d := by
  classical
  have hpos := h.size_pos
  obtain ⟨i, hi⟩ := h
  obtain ⟨d, hd, hplace⟩ := exists_place (Array.getElem?_eq_some_iff.mp hi).1 start
  have hstop : ∃ s, slots[place slots start d]? = some s ∧ stops s := ⟨.empty, hplace ▸ hi, hempty⟩
  -- the first slot where the search stops, of which the empty one is an example
  have hex : ∃ d, ∃ s, slots[place slots start d]? = some s ∧ stops s := ⟨d, hstop⟩
  refine ⟨Nat.find hex, Nat.lt_of_le_of_lt (Nat.find_min' hex hstop) hd, Nat.find_spec hex, fun e he => ?_⟩
  have hslot := Array.getElem?_eq_getElem (place_lt hpos start e)
  exact ⟨_, hslot, fun hs => Nat.find_min hex he ⟨_, hslot, hs⟩⟩

/-- A search stops at its first slot, or goes on as one from the next slot on. -/
theorem StopsAfter.first (h : StopsAfter slots stops start d) (hstart : start < slots.size) {s : Slot}
    (hs : slots[start]? = some s) : (stops s ∧ d = 0) ∨
      ¬ stops s ∧ ∃ rest, d = rest + 1 ∧ StopsAfter slots stops ((start + 1) % slots.size) rest := by
  have hzero : place slots start 0 = start := place_zero hstart
  obtain ⟨hstop, hpass⟩ := h
  cases d with
  | zero =>
      obtain ⟨t, ht, hstops⟩ := hstop
      rw [hzero, hs] at ht
      cases ht
      exact .inl ⟨hstops, rfl⟩
  | succ d =>
      obtain ⟨t, ht, hpasses⟩ := hpass 0 (Nat.succ_pos d)
      rw [hzero, hs] at ht
      cases ht
      refine .inr ⟨hpasses, d, rfl, ?_, fun e he => ?_⟩
      · rw [place_succ]
        exact hstop
      · rw [place_succ]
        exact hpass (e + 1) (by omega)

theorem StopsAfter.probe_isSome_iff {handle : Handle} {reuse : Option Nat} {count : Nat}
    (h : StopsAfter slots (Ends handle) start d) (hstart : start < slots.size) :
    (probe slots handle reuse count start).isSome ↔ d < count := by
  induction count generalizing start d reuse with
  | zero => simp [probe]
  | succ count ih =>
      have hs := Array.getElem?_eq_getElem hstart
      have hnext : (start + 1) % slots.size < slots.size := Nat.mod_lt _ (by omega)
      rw [probe, hs]
      rcases h.first hstart hs with ⟨hend, rfl⟩ | ⟨hpass, rest, rfl, hrest⟩
      · cases hslot : slots[start] with
        | empty => simp
        | tombstone =>
            rw [hslot] at hend
            exact absurd trivial hend
        | occupied key value =>
            rw [hslot] at hend
            have hkey : key.handle = handle := not_not.mp hend
            simp [hkey]
      · cases hslot : slots[start] with
        | empty =>
            rw [hslot] at hpass
            exact absurd (fun hp => hp) hpass
        | tombstone =>
            simp only
            rw [ih hrest hnext]
            omega
        | occupied key value =>
            rw [hslot] at hpass
            have hkey : key.handle ≠ handle := not_not.mp hpass
            simp only [if_neg hkey]
            rw [ih hrest hnext]
            omega

theorem StopsAfter.probeContent_eq {hash : UInt32} {accepts : Handle → Bool} {count : Nat}
    (h : StopsAfter slots (Meets hash accepts) start d) (hstart : start < slots.size) (hcount : d < count) :
    probeContent slots hash accepts count start = (slots[place slots start d]?.bind Slot.entry?).map (·.1.handle) := by
  induction count generalizing start d with
  | zero => omega
  | succ count ih =>
      have hs := Array.getElem?_eq_getElem hstart
      have hnext : (start + 1) % slots.size < slots.size := Nat.mod_lt _ (by omega)
      rw [probeContent, hs]
      rcases h.first hstart hs with ⟨hmeets, rfl⟩ | ⟨hpass, rest, rfl, hrest⟩
      · rw [place_zero hstart, hs]
        cases hslot : slots[start] with
        | empty => rfl
        | tombstone =>
            rw [hslot] at hmeets
            exact hmeets.elim
        | occupied key value =>
            rw [hslot] at hmeets
            have hmeets : (key.hash == hash && accepts key.handle) = true := hmeets
            simp [hmeets, Slot.entry?]
      · rw [← place_succ]
        cases hslot : slots[start] with
        | empty =>
            rw [hslot] at hpass
            exact absurd trivial hpass
        | tombstone => exact ih hrest hnext (by omega)
        | occupied key value =>
            rw [hslot] at hpass
            have hpass : ¬ (key.hash == hash && accepts key.handle) = true := hpass
            simp only [if_neg hpass]
            exact ih hrest hnext (by omega)

theorem HasEmpty.searchesEnd (h : HasEmpty slots) : SearchesEnd slots where
  handle handle reuse start hstart := by
    have hempty : Ends handle .empty := id
    obtain ⟨d, hd, hstops⟩ := h.exists_stopsAfter hempty start
    exact ⟨d, hd, hstops, fun count => hstops.probe_isSome_iff hstart⟩
  inside handle count start r hstart hr := probe_lt hstart hr
  content hash accepts start hstart := by
    have hempty : Meets hash accepts .empty := trivial
    obtain ⟨d, hd, hstops⟩ := h.exists_stopsAfter hempty start
    exact ⟨d, hd, hstops, fun count hcount => hstops.probeContent_eq hstart hcount⟩

/-- A search for a key ends at a slot, whatever its hash is. -/
theorem HasEmpty.exists_find? (h : HasEmpty slots) (key : Key) :
    ∃ r s, find? slots key = some r ∧ slots[r]? = some s := by
  have hhome := home_lt h.size_pos key.hash
  obtain ⟨d, hd, -, hends⟩ := h.searchesEnd.handle key.handle none _ hhome
  obtain ⟨r, hr⟩ := Option.isSome_iff_exists.mp ((hends slots.size).mpr hd)
  exact ⟨r, _, hr, Array.getElem?_eq_getElem (h.searchesEnd.inside _ _ _ _ hhome hr)⟩

/-! ### The load, whatever the keys are -/

/-- Slots in use are not undercounted, and the count leaves a quarter of the slots. -/
structure Loaded (t : Table) : Prop where
  used : t.slots.countP inUse ≤ t.used
  load : 4 * t.used ≤ 3 * t.capacity
  capacity_eq : t.capacity = 0 ∨ ∃ n, t.capacity = 8 * 2 ^ n

/-- A slot that is written counts at most once more. -/
theorem countP_setIfInBounds_le (p : Slot → Bool) (slots : Array Slot) (r : Nat) (s : Slot) :
    (slots.setIfInBounds r s).countP p ≤ slots.countP p + 1 := by
  cases h : slots[r]? with
  | none =>
      rw [Array.setIfInBounds, dif_neg (Nat.not_lt.mpr (Array.getElem?_eq_none_iff.mp h))]
      exact Nat.le_succ _
  | some old =>
      have := countP_setIfInBounds p h s
      have : (if p s then 1 else 0) ≤ 1 := by split <;> omega
      omega

/-- Rehashing counts each entry, and stores it in one slot at most. -/
theorem rehash_counts {slots : Array Slot} {count : Nat} (h : slots.countP inUse ≤ count) (s : Slot) :
    (rehash (slots, count) s).1.size = slots.size ∧
      (rehash (slots, count) s).1.countP inUse ≤ (rehash (slots, count) s).2 ∧
      (rehash (slots, count) s).2 = count + if isEntry s then 1 else 0 := by
  cases s with
  | empty => exact ⟨rfl, h, rfl⟩
  | tombstone => exact ⟨rfl, h, rfl⟩
  | occupied key value =>
      rw [rehash]
      cases find? slots key with
      | none => exact ⟨rfl, Nat.le_succ_of_le h, rfl⟩
      | some r =>
          have hle := countP_setIfInBounds_le inUse slots r (.occupied key value)
          exact ⟨Array.size_setIfInBounds, by simp only; omega, rfl⟩

theorem foldl_rehash_counts (l : List Slot) {slots : Array Slot} {count : Nat} (h : slots.countP inUse ≤ count) :
    (l.foldl rehash (slots, count)).1.size = slots.size ∧
      (l.foldl rehash (slots, count)).1.countP inUse ≤ (l.foldl rehash (slots, count)).2 ∧
      (l.foldl rehash (slots, count)).2 = count + l.countP isEntry := by
  induction l generalizing slots count with
  | nil => exact ⟨rfl, h, rfl⟩
  | cons s l ih =>
      obtain ⟨hsize, hused, hcount⟩ := rehash_counts h s
      obtain ⟨hsize', hused', hcount'⟩ := ih hused
      rw [List.foldl_cons, List.countP_cons]
      exact ⟨hsize'.trans hsize, hused', by rw [hcount', hcount]; omega⟩

theorem countP_replicate_empty (n : Nat) : (Array.replicate n Slot.empty).countP inUse = 0 := by
  simp [Array.countP_replicate, inUse]

namespace Loaded

variable {t : Table} (h : Loaded t)

include h

theorem hasEmpty (hpos : 0 < t.capacity) : HasEmpty t.slots := by
  refine hasEmpty_of_countP_lt ?_
  have hused := h.used
  have hload := h.load
  unfold capacity at hload hpos
  omega

theorem entries_le : t.slots.countP isEntry ≤ t.used :=
  Nat.le_trans (Array.countP_mono_left fun s _ hs => by cases s <;> simp_all [isEntry, inUse]) h.used

/-- The slots while the table grows, when some of the old slots have been rehashed, are not full. -/
theorem rehashing (n : Nat) : HasEmpty ((t.slots.toList.take n).foldl rehash
    (Array.replicate (nextCapacity t.capacity) .empty, 0)).1 := by
  have hstart : (Array.replicate (nextCapacity t.capacity) Slot.empty).countP inUse ≤ 0 :=
    Nat.le_of_eq (countP_replicate_empty _)
  obtain ⟨hsize, hused, hcount⟩ := foldl_rehash_counts (t.slots.toList.take n) hstart
  have hle : (t.slots.toList.take n).countP isEntry ≤ t.slots.countP isEntry := by
    rw [← Array.countP_toList]
    exact (List.take_sublist n _).countP_le
  have hentries := h.entries_le
  have hroom := (nextCapacity_room h.load h.capacity_eq).1
  refine hasEmpty_of_countP_lt ?_
  rw [Array.size_replicate] at hsize
  omega

theorem resize {n : Nat} (hroom : 4 * t.used ≤ 3 * n) (hn : ∃ j, n = 8 * 2 ^ j) :
    Loaded (t.resize n) ∧ (t.resize n).used ≤ t.used ∧ (t.resize n).capacity = n := by
  obtain ⟨hsize, hused, hcount⟩ := foldl_rehash_counts t.slots.toList (Nat.le_of_eq (countP_replicate_empty n))
  rw [Array.size_replicate] at hsize
  rw [Array.countP_toList, Nat.zero_add] at hcount
  have hresize : (t.resize n).slots = (t.slots.toList.foldl rehash (Array.replicate n .empty, 0)).1 ∧
      (t.resize n).used = (t.slots.toList.foldl rehash (Array.replicate n .empty, 0)).2 := by
    unfold Table.resize
    rw [← Array.foldl_toList]
    exact ⟨rfl, rfl⟩
  have hentries := h.entries_le
  have hcapacity : (t.resize n).capacity = n := by rw [capacity, hresize.1, hsize]
  have hle : (t.resize n).used ≤ t.used := by omega
  refine ⟨⟨?_, ?_, .inr (by rwa [hcapacity])⟩, hle, hcapacity⟩
  · rw [hresize.1, hresize.2]
    exact hused
  · omega

theorem reserve : Loaded t.reserve ∧ 4 * (t.reserve.used + 1) ≤ 3 * t.reserve.capacity := by
  unfold Table.reserve
  split
  · obtain ⟨hroom, hn⟩ := nextCapacity_room h.load h.capacity_eq
    obtain ⟨hloaded, hle, hcapacity⟩ := h.resize (n := nextCapacity t.capacity) (by omega) hn
    exact ⟨hloaded, by omega⟩
  · exact ⟨h, by omega⟩

/-- A slot in use is written, and counted if it was empty. -/
theorem write {r used live : Nat} {old s : Slot} (hold : t.slots[r]? = some old) (hs : inUse s = true)
    (hused : used = t.used + if inUse old then 0 else 1) (hroom : 4 * used ≤ 3 * t.capacity) :
    Loaded ⟨t.slots.setIfInBounds r s, used, live⟩ := by
  have hcount := countP_setIfInBounds inUse hold s
  have hbefore := h.used
  have hcapacity : capacity ⟨t.slots.setIfInBounds r s, used, live⟩ = t.capacity := Array.size_setIfInBounds
  refine ⟨?_, hcapacity ▸ hroom, hcapacity ▸ h.capacity_eq⟩
  rw [if_pos hs] at hcount
  show (t.slots.setIfInBounds r s).countP inUse ≤ used
  cases hin : inUse old with
  | false =>
      simp only [hin, Bool.false_eq_true, if_false] at hcount hused
      omega
  | true =>
      simp only [hin, if_true] at hcount hused
      omega

theorem set (key : Key) (value : Value) : Loaded (t.set key value).1 := by
  obtain ⟨hloaded, hroom⟩ := h.reserve
  obtain ⟨r, s, hr, hs⟩ := (hloaded.hasEmpty (by omega)).exists_find? key
  have hload := hloaded.load
  unfold Table.set
  simp only [hr, hs]
  cases s with
  | empty => exact hloaded.write hs rfl rfl hroom
  | tombstone => exact hloaded.write hs rfl rfl hload
  | occupied k v => exact hloaded.write hs rfl rfl hload

theorem erase (key : Key) : Loaded (t.erase key).1 := by
  unfold Table.erase
  split
  · exact h
  · next hused =>
      have hload := h.load
      obtain ⟨r, s, hr, hs⟩ := (h.hasEmpty (by omega)).exists_find? key
      simp only [hr, hs]
      cases s with
      | empty => exact h
      | tombstone => exact h
      | occupied k v => exact h.write hs rfl rfl hload

end Loaded

theorem Valid.loaded {t : Table} (h : Valid t) : Loaded t := ⟨Nat.le_of_eq h.used_eq.symm, h.load, h.capacity_eq⟩

/-! ### Any sequence of changes -/

/-- A change of a table. Nothing is asked of its key. -/
inductive Change where
  | set (key : Key) (value : Value)
  | erase (key : Key)
  | clear

/-- The table after a change. -/
def Change.apply (t : Table) : Change → Table
  | .set key value => (t.set key value).1
  | .erase key => (t.erase key).1
  | .clear => t.clear

/-- The key that a change is about. -/
def Change.key? : Change → Option Key
  | .set key _ => some key
  | .erase key => some key
  | .clear => none

/-- The table after changes, the earliest first. -/
def changed (changes : List Change) : Table := changes.foldl Change.apply empty

/-- The slots that are searched in a table or while it is changed: its own, those with room for one more entry, and
those of a larger table into which some of its slots have been rehashed. -/
inductive Searched (t : Table) : Array Slot → Prop where
  | own : Searched t t.slots
  | reserved : Searched t t.reserve.slots
  | rehashing (n : Nat) : Searched t ((t.slots.toList.take n).foldl rehash
      (Array.replicate (nextCapacity t.capacity) .empty, 0)).1

/-- A slot whose entry has been deleted. -/
def isTombstone : Slot → Bool
  | .tombstone => true
  | _ => false

theorem countP_inUse (slots : Array Slot) : slots.countP inUse = slots.countP isEntry + slots.countP isTombstone := by
  obtain ⟨l⟩ := slots
  simp only [List.countP_toArray]
  induction l with
  | nil => rfl
  | cons s l ih =>
      simp only [List.countP_cons, ih]
      cases s <;> simp [inUse, isEntry, isTombstone] <;> omega

/-- Whatever holds of the table without entries and is kept by each change, holds after any changes. -/
theorem changed_induction {P : Table → Prop} {changes : List Change} (hempty : P empty)
    (happly : ∀ t, ∀ c ∈ changes, P t → P (c.apply t)) : P (changed changes) :=
  List.foldlRecOn changes Change.apply hempty fun t ht c hc => happly t c hc ht

theorem loaded_changed (changes : List Change) : Loaded (changed changes) := by
  refine changed_induction valid_empty.loaded fun t c _ h => ?_
  cases c with
  | set key value => exact h.set key value
  | erase key => exact h.erase key
  | clear => exact valid_empty.loaded

theorem Loaded.searched {t : Table} (h : Loaded t) {slots : Array Slot} (hs : Searched t slots)
    (hpos : 0 < slots.size) : HasEmpty slots := by
  cases hs with
  | own => exact h.hasEmpty hpos
  | reserved => exact h.reserve.1.hasEmpty hpos
  | rehashing n => exact h.rehashing n

/-- Changes whose keys are hashed by a function of the handle leave a table that represents a map. -/
theorem represents_changed {hashOf : Handle → UInt32} {changes : List Change}
    (hkeys : ∀ c ∈ changes, ∀ key, c.key? = some key → key.hash = hashOf key.handle) :
    ∃ map, Represents hashOf (changed changes) map := by
  have hkey : ∀ key : Key, key.hash = hashOf key.handle → key = keyOf hashOf key.handle := by
    rintro ⟨handle, hash⟩ hhash
    exact congrArg (Key.mk handle) hhash
  refine changed_induction (P := fun t => ∃ map, Represents hashOf t map) ⟨_, represents_empty hashOf⟩
    fun t c hc ⟨map, h⟩ => ?_
  cases c with
  | set key value =>
      rw [hkey key (hkeys _ hc key rfl)]
      exact ⟨_, (h.set key.handle value).1⟩
  | erase key =>
      rw [hkey key (hkeys _ hc key rfl)]
      exact ⟨_, (h.erase key.handle).1⟩
  | clear => exact ⟨_, represents_empty hashOf⟩

/-- **Load and searches.** After any changes, with any keys, the capacity is zero or eight times a power of two, the
entries and the tombstones are no more than the table counts, and it counts at most three quarters of its slots. So
unless there are no slots an empty one is among them, as it is whenever slots are searched while the table is changed,
and every search stops before it would come round. If the hash of each key is that of its handle, the table counts
exactly its entries and tombstones, and as its size exactly its entries; no handle is in two slots, and no empty slot
lies between the home of a key and its slot. -/
theorem load_bounded (changes : List Change) :
    ((changed changes).capacity = 0 ∨ ∃ n, (changed changes).capacity = 8 * 2 ^ n) ∧
      (changed changes).slots.countP isEntry + (changed changes).slots.countP isTombstone ≤ (changed changes).used ∧
      4 * (changed changes).used ≤ 3 * (changed changes).capacity ∧
      (∀ slots, Searched (changed changes) slots → 0 < slots.size → HasEmpty slots ∧ SearchesEnd slots) ∧
      ∀ hashOf : Handle → UInt32,
        (∀ c ∈ changes, ∀ key, c.key? = some key → key.hash = hashOf key.handle) →
        (changed changes).used = (changed changes).slots.countP isEntry + (changed changes).slots.countP isTombstone ∧
          (changed changes).size = (changed changes).slots.countP isEntry ∧
          (∀ (i j : Nat) (k l : Key) (v w : Value), (changed changes).slots[i]? = some (.occupied k v) →
            (changed changes).slots[j]? = some (.occupied l w) → k.handle = l.handle → i = j) ∧
          ∀ (i : Nat) (k : Key) (v : Value), (changed changes).slots[i]? = some (.occupied k v) →
            ∃ d < (changed changes).capacity,
              place (changed changes).slots (home (changed changes).slots k.hash) d = i ∧
              Filled (changed changes).slots (home (changed changes).slots k.hash) d := by
  have h := loaded_changed changes
  refine ⟨h.capacity_eq, ?_, h.load, fun slots hs hpos => ?_, fun hashOf hkeys => ?_⟩
  · rw [← countP_inUse]
    exact h.used
  · have hempty := h.searched hs hpos
    exact ⟨hempty, hempty.searchesEnd⟩
  · obtain ⟨map, hrep⟩ := represents_changed hkeys
    refine ⟨?_, hrep.valid.live_eq, fun i j k l v w => hrep.valid.sound.unique, fun i k v => hrep.valid.sound.reached⟩
    rw [← countP_inUse]
    exact hrep.valid.used_eq

/-- Handle 1 comes with two hashes here and is in two slots, until the table grows and both entries are rehashed into
one slot, which is counted twice. -/
example :
    let two := [Change.set ⟨⟨1⟩, 15⟩ .nil, .set ⟨⟨1⟩, 0⟩ .nil, .set ⟨⟨2⟩, 15⟩ .nil]
    let grown := two ++
      [.set ⟨⟨3⟩, 3⟩ .nil, .set ⟨⟨4⟩, 4⟩ .nil, .set ⟨⟨5⟩, 5⟩ .nil, .set ⟨⟨6⟩, 6⟩ .nil]
    ((changed two).used, (changed two).slots.countP inUse) = (3, 3) ∧
      ((changed grown).used, (changed grown).slots.countP inUse) = (7, 6) := by
  decide +kernel

end Lox.Table
