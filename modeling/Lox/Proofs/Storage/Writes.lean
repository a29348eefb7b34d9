import Lox.Proofs.Storage.Probe

/-! Writing to the slots of a table. A slot in use that takes the place of another slot keeps the
slots sound, provided that an entry written this way is where its probe leads and is the only one of
its handle. Storing, overwriting and deleting an entry are the three cases of this, and growing a table
is storing its entries one after the other among new slots. -/

namespace Lox.Table

/-- A slot counts towards the load. -/
def inUse : Slot → Bool
  | .empty => false
  | _ => true

/-- A slot holds an entry. -/
def isEntry : Slot → Bool
  | .occupied _ _ => true
  | _ => false

@[simp] theorem place_setIfInBounds (slots : Array Slot) (r : Nat) (s : Slot) (start d : Nat) :
    place (slots.setIfInBounds r s) start d = place slots start d := by
  simp [place]

@[simp] theorem home_setIfInBounds (slots : Array Slot) (r : Nat) (s : Slot) (hash : UInt32) :
    home (slots.setIfInBounds r s) hash = home slots hash := by
  simp [home]

theorem Filled.setIfInBounds {slots : Array Slot} {start d : Nat} (h : Filled slots start d) {s : Slot}
    (hs : s ≠ .empty) (r : Nat) : Filled (slots.setIfInBounds r s) start d := by
  intro e he
  obtain ⟨t, ht, hne⟩ := h e he
  rw [place_setIfInBounds, Array.getElem?_setIfInBounds]
  split
  · next heq =>
      have hlt := (Array.getElem?_eq_some_iff.mp ht).1
      rw [if_pos (by omega)]
      exact ⟨s, rfl, hs⟩
  · exact ⟨t, ht, hne⟩

theorem holds_setIfInBounds {slots : Array Slot} {r : Nat} (hr : r < slots.size) (s : Slot) (k : Key)
    (v : Value) : Holds (slots.setIfInBounds r s) k v ↔
      s = .occupied k v ∨ ∃ j, j ≠ r ∧ slots[j]? = some (.occupied k v) := by
  constructor
  · rintro ⟨j, hj⟩
    rw [Array.getElem?_setIfInBounds] at hj
    split at hj
    · exact Or.inl (Option.some.inj hj)
    · next hne => exact Or.inr ⟨j, fun h => hne h.symm, hj⟩
  · rintro (rfl | ⟨j, hne, hj⟩)
    · exact ⟨r, by rw [Array.getElem?_setIfInBounds, if_pos rfl, if_pos hr]⟩
    · exact ⟨j, by rw [Array.getElem?_setIfInBounds, if_neg (fun h => hne h.symm)]; exact hj⟩

/-- A slot in use takes the place of another one. -/
theorem Sound.setIfInBounds {slots : Array Slot} (hs : Sound slots) {r : Nat} (hr : r < slots.size)
    {s : Slot} (hne : s ≠ .empty)
    (hkey : ∀ key v, s = .occupied key v →
      (∀ {j : Nat} {k : Key} {w : Value}, j ≠ r → slots[j]? = some (.occupied k w) →
        k.handle ≠ key.handle) ∧
      ∃ d < slots.size, place slots (home slots key.hash) d = r ∧ Filled slots (home slots key.hash) d) :
    Sound (slots.setIfInBounds r s) := by
  have hcases : ∀ {j : Nat} {k : Key} {w : Value},
      (slots.setIfInBounds r s)[j]? = some (.occupied k w) →
        (j = r ∧ s = .occupied k w) ∨ (j ≠ r ∧ slots[j]? = some (.occupied k w)) := by
    intro j k w hj
    rw [Array.getElem?_setIfInBounds] at hj
    split at hj
    · next heq => exact Or.inl ⟨heq.symm, Option.some.inj hj⟩
    · next hne => exact Or.inr ⟨fun h => hne h.symm, hj⟩
  constructor
  · intro i j k l v w hi hj hkl
    rcases hcases hi with ⟨rfl, hsi⟩ | ⟨hir, hsi⟩ <;> rcases hcases hj with ⟨rfl, hsj⟩ | ⟨hjr, hsj⟩
    · rfl
    · exact absurd hkl.symm ((hkey k v hsi).1 hjr hsj)
    · exact absurd hkl ((hkey l w hsj).1 hir hsi)
    · exact hs.unique hsi hsj hkl
  · intro i k v hi
    simp only [Array.size_setIfInBounds, place_setIfInBounds, home_setIfInBounds]
    rcases hcases hi with ⟨rfl, hsi⟩ | ⟨hir, hsi⟩
    · obtain ⟨d, hd, hplace, hfilled⟩ := (hkey k v hsi).2
      exact ⟨d, hd, hplace, hfilled.setIfInBounds hne _⟩
    · obtain ⟨d, hd, hplace, hfilled⟩ := hs.reached hsi
      exact ⟨d, hd, hplace, hfilled.setIfInBounds hne _⟩

/-- What a slot contributes to a count, before and after it is replaced. -/
theorem countP_setIfInBounds (p : Slot → Bool) {slots : Array Slot} {r : Nat} {old : Slot}
    (h : slots[r]? = some old) (s : Slot) :
    (slots.setIfInBounds r s).countP p + (if p old then 1 else 0) =
      slots.countP p + (if p s then 1 else 0) := by
  obtain ⟨hr, hold⟩ := Array.getElem?_eq_some_iff.mp h
  have hle : (if p old then 1 else 0) ≤ slots.countP p := by
    split
    · next hp => exact Array.countP_pos_iff.mpr ⟨old, Array.mem_of_getElem? h, hp⟩
    · omega
  rw [Array.setIfInBounds, dif_pos hr, Array.countP_set, hold]
  omega

theorem hasEmpty_of_countP_lt {slots : Array Slot} (h : slots.countP inUse < slots.size) :
    HasEmpty slots := by
  refine Classical.byContradiction fun hno => ?_
  have hall : ∀ s ∈ slots, inUse s := by
    intro s hs
    obtain ⟨i, hi⟩ := Array.mem_iff_getElem?.mp hs
    cases s with
    | empty => exact absurd ⟨i, hi⟩ hno
    | tombstone => rfl
    | occupied k v => rfl
  rw [Array.countP_eq_size.mpr hall] at h
  omega

/-! ### Storing and deleting -/

/-- The effect of storing an entry on the entries. -/
def Stored (slots slots' : Array Slot) (key : Key) (value : Value) : Prop :=
  ∀ k v, Holds slots' k v ↔ (k = key ∧ v = value) ∨ (k.handle ≠ key.handle ∧ Holds slots k v)

/-- A slot takes up an entry if no other slot has its key, and if what the slot held was nothing or had that key. -/
theorem stored_setIfInBounds {slots : Array Slot} {r : Nat} (hr : r < slots.size) {key : Key} {value : Value}
    (hother : ∀ {j : Nat} {k : Key} {w : Value}, j ≠ r → slots[j]? = some (.occupied k w) → k.handle ≠ key.handle)
    (hself : ∀ {k : Key} {w : Value}, slots[r]? = some (.occupied k w) → k.handle = key.handle) :
    Stored slots (slots.setIfInBounds r (.occupied key value)) key value := by
  intro k v
  rw [holds_setIfInBounds hr]
  constructor
  · rintro (heq | ⟨j, hne, hj⟩)
    · cases heq
      exact Or.inl ⟨rfl, rfl⟩
    · exact Or.inr ⟨hother hne hj, j, hj⟩
  · rintro (⟨rfl, rfl⟩ | ⟨hk, j, hj⟩)
    · exact Or.inl rfl
    · refine Or.inr ⟨j, ?_, hj⟩
      rintro rfl
      exact hk (hself hj)

/-- Storing an entry where a search led keeps the slots sound and changes one entry. -/
theorem Sound.store {slots : Array Slot} (hs : Sound slots) {key : Key} {r : Nat} (hf : Found slots key r)
    (value : Value) :
    Sound (slots.setIfInBounds r (.occupied key value)) ∧
      Stored slots (slots.setIfInBounds r (.occupied key value)) key value := by
  cases hf with
  | entry old hold =>
      have hr := (Array.getElem?_eq_some_iff.mp hold).1
      have hother : ∀ {j : Nat} {k : Key} {w : Value}, j ≠ r → slots[j]? = some (.occupied k w) →
          k.handle ≠ key.handle := fun hne hj hk => hne (hs.unique hj hold hk)
      refine ⟨hs.setIfInBounds hr (by simp) ?_, stored_setIfInBounds hr hother fun hself => ?_⟩
      · rintro _ _ ⟨⟩
        exact ⟨hother, hs.reached hold⟩
      · rw [hold] at hself
        cases hself
        rfl
  | room absent s hsr vacant d hd hplace filled =>
      have hr := (Array.getElem?_eq_some_iff.mp hsr).1
      refine ⟨hs.setIfInBounds hr (by simp) ?_, stored_setIfInBounds hr (fun _ hj => absent _ _ ⟨_, hj⟩)
        fun hself => ?_⟩
      · rintro _ _ ⟨⟩
        exact ⟨fun _ hj => absent _ _ ⟨_, hj⟩, d, hd, hplace, filled⟩
      · rw [hsr] at hself
        cases hself
        exact vacant.elim

/-- Deleting an entry keeps the slots sound, and the other entries are still there. -/
theorem Sound.bury {slots : Array Slot} (hs : Sound slots) {key : Key} {r : Nat} {value : Value}
    (h : slots[r]? = some (.occupied key value)) :
    Sound (slots.setIfInBounds r .tombstone) ∧
      ∀ k v, Holds (slots.setIfInBounds r .tombstone) k v ↔ k.handle ≠ key.handle ∧ Holds slots k v := by
  have hr := (Array.getElem?_eq_some_iff.mp h).1
  refine ⟨hs.setIfInBounds hr (by simp) (by rintro _ _ ⟨⟩), ?_⟩
  intro k v
  rw [holds_setIfInBounds hr]
  constructor
  · rintro (heq | ⟨j, hne, hj⟩)
    · cases heq
    · exact ⟨fun hk => hne (hs.unique hj h hk), j, hj⟩
  · rintro ⟨hk, j, hj⟩
    refine Or.inr ⟨j, ?_, hj⟩
    rintro rfl
    rw [h] at hj
    cases hj
    exact hk rfl

/-! ### Growing -/

/-- The slots of a list hold no handle twice. -/
def Distinct (slots : List Slot) : Prop :=
  slots.Pairwise fun s t => ∀ k v l w, s = .occupied k v → t = .occupied l w → k.handle ≠ l.handle

theorem Sound.distinct {slots : Array Slot} (hs : Sound slots) : Distinct slots.toList := by
  refine List.pairwise_iff_getElem.mpr ?_
  intro i j hi hj hij k v l w hk hl heq
  have hki : slots[i]? = some (.occupied k v) := by
    rw [← Array.getElem?_toList, List.getElem?_eq_getElem hi, hk]
  have hlj : slots[j]? = some (.occupied l w) := by
    rw [← Array.getElem?_toList, List.getElem?_eq_getElem hj, hl]
  exact absurd (hs.unique hki hlj heq) (by omega)

/-- Slots without tombstones, counted. -/
structure Fresh (slots : Array Slot) (count : Nat) : Prop where
  sound : Sound slots
  used : count = slots.countP inUse
  live : count = slots.countP isEntry

/-- A tombstone is in use but holds no entry, so the two counts would differ. -/
theorem Fresh.not_tombstone {slots : Array Slot} {count r : Nat} (hf : Fresh slots count) :
    slots[r]? ≠ some .tombstone := by
  intro hr
  have hle : (slots.setIfInBounds r .empty).countP isEntry ≤ (slots.setIfInBounds r .empty).countP inUse :=
    Array.countP_mono_left fun x _ hx => by cases x <;> simp_all [isEntry, inUse]
  have hused := countP_setIfInBounds inUse hr .empty
  have hlive := countP_setIfInBounds isEntry hr .empty
  simp [inUse, isEntry] at hused hlive
  have := hf.used
  have := hf.live
  omega

/-- One more entry goes to fresh slots. -/
theorem Fresh.rehash {slots : Array Slot} {count : Nat} (hf : Fresh slots count)
    (hroom : count < slots.size) {key : Key} (value : Value)
    (hnew : ∀ k v, Holds slots k v → k.handle ≠ key.handle) :
    ∃ slots', rehash (slots, count) (.occupied key value) = (slots', count + 1) ∧
      slots'.size = slots.size ∧ Fresh slots' (count + 1) ∧ Stored slots slots' key value := by
  have hempty : HasEmpty slots := hasEmpty_of_countP_lt (hf.used ▸ hroom)
  have ha : Agrees slots key := fun h hk => absurd hk (hnew _ _ h)
  obtain ⟨r, hr, hfound⟩ := find?_found hf.sound hempty ha
  have hstore := hf.sound.store hfound value
  refine ⟨slots.setIfInBounds r (.occupied key value), ?_, by simp, ?_, hstore.2⟩
  · rw [Table.rehash, hr]
  · cases hfound with
    | entry old hold => exact absurd rfl (hnew key old ⟨r, hold⟩)
    | room absent s hsr vacant =>
        have hused := countP_setIfInBounds inUse hsr (.occupied key value)
        have hlive := countP_setIfInBounds isEntry hsr (.occupied key value)
        have hse : s = .empty := by
          cases s with
          | empty => rfl
          | occupied k v => exact vacant.elim
          | tombstone => exact absurd hsr hf.not_tombstone
        subst hse
        simp [inUse, isEntry] at hused hlive
        have := hf.used
        have := hf.live
        exact ⟨hstore.1, by omega, by omega⟩

/-- Rehashing a list of slots stores their entries and nothing else. -/
theorem Fresh.foldl_rehash : ∀ {l : List Slot} {slots : Array Slot} {count : Nat},
    Fresh slots count → Distinct l →
    (∀ k v l' w, Holds slots k v → .occupied l' w ∈ l → k.handle ≠ l'.handle) →
    count + l.countP isEntry < slots.size →
    ∃ slots', l.foldl Table.rehash (slots, count) = (slots', count + l.countP isEntry) ∧
      slots'.size = slots.size ∧ Fresh slots' (count + l.countP isEntry) ∧
      ∀ k v, Holds slots' k v ↔ Holds slots k v ∨ .occupied k v ∈ l := by
  intro l
  induction l with
  | nil =>
      intro slots count hf _ _ _
      exact ⟨slots, by simp, rfl, by simpa using hf, by simp⟩
  | cons s l ih =>
      intro slots count hf hd hnew hroom
      obtain ⟨hs, hrest⟩ := List.pairwise_cons.mp hd
      by_cases hentry : isEntry s
      · obtain ⟨key, value, rfl⟩ : ∃ key value, s = .occupied key value := by
          cases s <;> simp_all [isEntry]
        rw [List.countP_cons_of_pos hentry] at hroom ⊢
        obtain ⟨slots₁, hre, hsize, hf₁, hst⟩ := hf.rehash (by omega) value
          (fun k v h => hnew k v key value h List.mem_cons_self)
        have hnew₁ : ∀ k v l' w, Holds slots₁ k v → .occupied l' w ∈ l → k.handle ≠ l'.handle := by
          intro k v l' w hk hl
          rcases (hst k v).mp hk with ⟨rfl, rfl⟩ | ⟨-, hk⟩
          · exact hs _ hl _ _ l' w rfl rfl
          · exact hnew k v l' w hk (List.mem_cons_of_mem _ hl)
        obtain ⟨slots₂, hfold, hsize₂, hf₂, hholds⟩ := ih hf₁ hrest hnew₁ (by omega)
        refine ⟨slots₂, ?_, by omega, ?_, ?_⟩
        · rw [List.foldl_cons, hre, hfold, Nat.add_assoc, Nat.add_comm 1]
        · rw [Nat.add_comm (l.countP isEntry), ← Nat.add_assoc]
          exact hf₂
        · intro k v
          rw [hholds, hst, List.mem_cons]
          constructor
          · rintro ((⟨rfl, rfl⟩ | ⟨-, hk⟩) | hk)
            · exact Or.inr (Or.inl rfl)
            · exact Or.inl hk
            · exact Or.inr (Or.inr hk)
          · rintro (hk | heq | hk)
            · exact Or.inl (Or.inr ⟨hnew k v key value hk List.mem_cons_self, hk⟩)
            · cases heq
              exact Or.inl (Or.inl ⟨rfl, rfl⟩)
            · exact Or.inr hk
      · rw [List.countP_cons_of_neg hentry] at hroom ⊢
        have hskip : Table.rehash (slots, count) s = (slots, count) := by
          cases s <;> simp_all [isEntry, Table.rehash]
        obtain ⟨slots₂, hfold, hsize₂, hf₂, hholds⟩ := ih hf hrest
          (fun k v l' w hk hl => hnew k v l' w hk (List.mem_cons_of_mem _ hl)) hroom
        refine ⟨slots₂, by rw [List.foldl_cons, hskip, hfold], hsize₂, hf₂, ?_⟩
        intro k v
        rw [hholds, List.mem_cons]
        have hne : Slot.occupied k v ≠ s := by
          rintro rfl
          exact hentry rfl
        simp [hne]

theorem fresh_replicate (n : Nat) : Fresh (Array.replicate n .empty) 0 := by
  have hno : ∀ {i : Nat} {k : Key} {v : Value},
      (Array.replicate n Slot.empty)[i]? ≠ some (.occupied k v) := by
    intro i k v h
    rw [Array.getElem?_replicate] at h
    split at h <;> cases h
  refine ⟨⟨fun h => absurd h hno, fun h => absurd h hno⟩, ?_, ?_⟩ <;>
    simp [Array.countP_replicate, inUse, isEntry]

end Lox.Table
