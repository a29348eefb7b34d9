import Lox.Proofs.Storage.Map
import Lox.Storage.Heap

/-! Interning. In an interned heap the keys of the string table are the live strings with their hashes,
and no two live strings have the same characters. So the table finds the string object of any text, if
there is one, and equality of string values is equality of their characters. -/

namespace Lox.Heap

/-- A heap keeps all objects that another one has. -/
def Extends (h h' : Heap) : Prop :=
  ∀ handle o, h.get? handle = some o → h'.get? handle = some o

namespace Extends

theorem refl (h : Heap) : Extends h h := fun _ _ ho => ho

theorem trans {h₁ h₂ h₃ : Heap} (h : Extends h₁ h₂) (h' : Extends h₂ h₃) : Extends h₁ h₃ :=
  fun _ _ ho => h' _ _ (h _ _ ho)

end Extends

theorem string?_eq_some_iff {h : Heap} {handle : Handle} {s : StringObject} :
    h.string? handle = some s ↔ h.get? handle = some (.string s) := by
  unfold string?
  split
  · next t ht => simp [ht]
  · next hno =>
      simp only [reduceCtorEq, false_iff]
      exact hno s

theorem function?_eq_some_iff {h : Heap} {handle : Handle} {f : FunctionObject} :
    h.function? handle = some f ↔ h.get? handle = some (.function f) := by
  unfold function?
  split
  · next t ht => simp [ht]
  · next hno =>
      simp only [reduceCtorEq, false_iff]
      exact hno f

theorem native?_eq_some_iff {h : Heap} {handle : Handle} {n : NativeObject} :
    h.native? handle = some n ↔ h.get? handle = some (.native n) := by
  unfold native?
  split
  · next t ht => simp [ht]
  · next hno =>
      simp only [reduceCtorEq, false_iff]
      exact hno n

theorem Extends.string? {h h' : Heap} (he : Extends h h') {handle : Handle} {s : StringObject}
    (hs : h.string? handle = some s) : h'.string? handle = some s :=
  string?_eq_some_iff.mpr (he _ _ (string?_eq_some_iff.mp hs))

theorem Extends.function? {h h' : Heap} (he : Extends h h') {handle : Handle} {f : FunctionObject}
    (hf : h.function? handle = some f) : h'.function? handle = some f :=
  function?_eq_some_iff.mpr (he _ _ (function?_eq_some_iff.mp hf))

theorem Extends.native? {h h' : Heap} (he : Extends h h') {handle : Handle} {n : NativeObject}
    (hn : h.native? handle = some n) : h'.native? handle = some n :=
  native?_eq_some_iff.mpr (he _ _ (native?_eq_some_iff.mp hn))

theorem lt_size_of_get? {h : Heap} {handle : Handle} {o : Object} (ho : h.get? handle = some o) :
    handle.index < h.cells.size := by
  unfold get? at ho
  obtain ⟨c, hc, -⟩ := Option.map_eq_some_iff.mp ho
  exact (Array.getElem?_eq_some_iff.mp hc).1

theorem exists_get? {h : Heap} {handle : Handle} (hlt : handle.index < h.cells.size) : ∃ o, h.get? handle = some o :=
  ⟨(h.cells[handle.index]).object, by simp [get?, Array.getElem?_eq_getElem hlt]⟩

@[simp] theorem get?_new (header : Header) (handle : Handle) : (new header).get? handle = none := rfl

@[simp] theorem get?_empty (handle : Handle) : empty.get? handle = none := rfl

@[simp] theorem get?_free (h : Heap) (handle : Handle) : h.free.1.get? handle = none := rfl

/-- Every object of a heap that is not too large is named by the 32 bits of its handle. -/
theorem word_of_get? {h : Heap} (hlimit : h.cells.size ≤ Handle.limit) {handle : Handle} {o : Object}
    (ho : h.get? handle = some o) : handle.word.toNat = handle.index :=
  UInt32.toNat_ofNat_of_lt' (Nat.lt_of_lt_of_le (lt_size_of_get? ho) hlimit)

theorem word_inj {h : Heap} (hlimit : h.cells.size ≤ Handle.limit) {a b : Handle} {o o' : Object}
    (ho : h.get? a = some o) (ho' : h.get? b = some o') : a.word = b.word ↔ a = b := by
  rw [← UInt32.toNat_inj, word_of_get? hlimit ho, word_of_get? hlimit ho', Handle.mk.injEq]

/-! ### Allocating -/

theorem allocate_snd (h : Heap) (o : Object) : (h.allocate o).2 = ⟨h.cells.size⟩ := rfl

theorem get?_allocate (h : Heap) (o : Object) (handle : Handle) :
    (h.allocate o).1.get? handle = if handle = ⟨h.cells.size⟩ then some o else h.get? handle := by
  obtain ⟨i⟩ := handle
  simp only [allocate, get?, Array.getElem?_push, Handle.mk.injEq]
  split <;> rfl

theorem get?_allocate_self (h : Heap) (o : Object) :
    (h.allocate o).1.get? (h.allocate o).2 = some o := by
  rw [get?_allocate, allocate_snd, if_pos rfl]

theorem extends_allocate (h : Heap) (o : Object) : h.Extends (h.allocate o).1 := by
  intro handle o' ho
  rw [get?_allocate, if_neg]
  · exact ho
  · rintro rfl
    exact absurd (lt_size_of_get? ho) (Nat.lt_irrefl _)

/-- The heap's strings do not depend on its string table. -/
theorem string?_with_strings (h : Heap) (t : Table) (handle : Handle) :
    string? { h with strings := t } handle = h.string? handle := rfl

theorem string?_allocate_string (h : Heap) (s : StringObject) (handle : Handle) :
    (h.allocate (.string s)).1.string? handle = if handle = ⟨h.cells.size⟩ then some s else h.string? handle := by
  refine Option.ext fun t => ?_
  rw [string?_eq_some_iff, get?_allocate]
  split
  · simp
  · rw [string?_eq_some_iff]

/-- Allocating something else than a string makes no string. -/
theorem string?_allocate_other (h : Heap) {o : Object} (hno : ∀ s, o ≠ .string s) (handle : Handle) :
    (h.allocate o).1.string? handle = h.string? handle := by
  refine Option.ext fun s => ?_
  rw [string?_eq_some_iff, string?_eq_some_iff, get?_allocate]
  split
  · next heq =>
      constructor
      · intro ho
        exact absurd (Option.some.inj ho) (hno s)
      · intro ho
        have := lt_size_of_get? ho
        rw [heq] at this
        exact absurd this (Nat.lt_irrefl _)
  · rfl

/-! ### Interned heaps -/

/-- The string table and the live strings agree, and no text has two string objects. -/
structure Interned (h : Heap) : Prop where
  table : h.strings.Valid
  keys : ∀ key, (∃ v, Table.Holds h.strings.slots key v) ↔ h.key? key.handle = some key
  hash_eq : ∀ {handle s}, h.string? handle = some s → s.hash = Text.hash s.chars
  unique : ∀ {a b s t}, h.string? a = some s → h.string? b = some t → s.chars = t.chars → a = b

theorem interned_new (header : Header) : Interned (new header) where
  table := Table.valid_empty
  keys key := by
    constructor
    · rintro ⟨v, i, hi⟩
      simp [new, Table.empty] at hi
    · intro hk
      simp [key?, string?] at hk
  hash_eq hs := by simp [string?] at hs
  unique hs := by simp [string?] at hs

theorem interned_empty : Interned empty := interned_new _

theorem key?_eq_some_iff {h : Heap} {handle : Handle} {key : Key} :
    h.key? handle = some key ↔ ∃ s, h.string? handle = some s ∧ key = ⟨handle, s.hash⟩ := by
  unfold key?
  rw [Option.map_eq_some_iff]
  exact exists_congr fun s => and_congr_right fun _ => eq_comm

theorem key?_handle {h : Heap} {handle : Handle} {key : Key} (hk : h.key? handle = some key) :
    key.handle = handle := by
  obtain ⟨s, -, rfl⟩ := key?_eq_some_iff.mp hk
  rfl

namespace Interned

variable {h : Heap} (hi : Interned h)

include hi

/-- The table finds the string object of a text exactly if there is one. -/
theorem interned?_eq_some_iff (chars : String) (handle : Handle) :
    h.interned? chars = some handle ↔ ∃ s, h.string? handle = some s ∧ s.chars = chars := by
  have hspec := hi.table.findContent?_spec (Text.hash chars)
  -- whatever the table accepts is a string object with the text
  have hfound : ∀ handle, h.interned? chars = some handle →
      ∃ s, h.string? handle = some s ∧ s.chars = chars := by
    intro handle hf
    obtain ⟨k, v, -, -, -, hacc⟩ := (hspec _).1 handle hf
    split at hacc
    · next s hs => exact ⟨s, hs, by simpa using hacc⟩
    · cases hacc
  refine ⟨hfound handle, ?_⟩
  rintro ⟨s, hs, rfl⟩
  cases hf : h.interned? s.chars with
  | some other =>
      obtain ⟨t, ht, hchars⟩ := hfound other hf
      rw [hi.unique ht hs hchars]
  | none =>
      obtain ⟨v, hv⟩ := (hi.keys ⟨handle, s.hash⟩).mpr (key?_eq_some_iff.mpr ⟨s, hs, rfl⟩)
      have hno := (hspec _).2 hf _ v hv (hi.hash_eq hs)
      simp [hs] at hno

theorem interned?_eq_none_iff (chars : String) :
    h.interned? chars = none ↔ ∀ handle s, h.string? handle = some s → s.chars ≠ chars := by
  constructor
  · intro hn handle s hs hchars
    rw [(hi.interned?_eq_some_iff chars handle).mpr ⟨s, hs, hchars⟩] at hn
    cases hn
  · intro hno
    cases hf : h.interned? chars with
    | none => rfl
    | some handle =>
        obtain ⟨s, hs, hchars⟩ := (hi.interned?_eq_some_iff chars handle).mp hf
        exact absurd hchars (hno handle s hs)

/-- A new object that is no string leaves a heap interned. -/
theorem allocate_other {o : Object} (hno : ∀ s, o ≠ .string s) : Interned (h.allocate o).1 := by
  have hstr := string?_allocate_other h hno
  refine ⟨hi.table, ?_, ?_, ?_⟩
  · intro key
    rw [key?, hstr, ← key?]
    exact hi.keys key
  · intro handle s hs
    rw [hstr] at hs
    exact hi.hash_eq hs
  · intro a b s t hs ht
    rw [hstr] at hs ht
    exact hi.unique hs ht

/-- A key of the table has a live handle, so the handle of the next object is not in use. -/
theorem handle_ne_next {k : Key} {v : Value} (hv : Table.Holds h.strings.slots k v) : k.handle ≠ ⟨h.cells.size⟩ := by
  intro heq
  obtain ⟨s, hs, -⟩ := key?_eq_some_iff.mp ((hi.keys k).mp ⟨v, hv⟩)
  rw [heq] at hs
  exact absurd (lt_size_of_get? (string?_eq_some_iff.mp hs)) (Nat.lt_irrefl _)

/-- A new string object with characters that no other one has, together with its key. -/
theorem allocate_string {chars : String} (hnew : h.interned? chars = none) :
    Interned { (h.allocate (.string { chars, hash := Text.hash chars })).1 with
      strings := (h.strings.set ⟨⟨h.cells.size⟩, Text.hash chars⟩ .nil).1 } := by
  have hno := (hi.interned?_eq_none_iff chars).mp hnew
  have hstr := h.string?_allocate_string { chars, hash := Text.hash chars }
  have hagrees : Table.Agrees h.strings.slots ⟨⟨h.cells.size⟩, Text.hash chars⟩ :=
    fun hv heq => absurd heq (hi.handle_ne_next hv)
  obtain ⟨hvalid, hstored, -⟩ := hi.table.set_spec hagrees .nil
  refine ⟨hvalid, ?_, ?_, ?_⟩
  · intro key
    rw [key?, string?_with_strings, hstr]
    constructor
    · rintro ⟨v, hv⟩
      rcases (hstored key v).mp hv with ⟨rfl, -⟩ | ⟨hne, hold⟩
      · simp
      · rw [if_neg (hi.handle_ne_next hold), ← key?]
        exact (hi.keys key).mp ⟨v, hold⟩
    · intro hk
      split at hk
      · next heq =>
          obtain rfl : ⟨⟨h.cells.size⟩, Text.hash chars⟩ = key := by simpa [heq] using hk
          exact ⟨.nil, (hstored _ _).mpr (Or.inl ⟨rfl, rfl⟩)⟩
      · next hne =>
          obtain ⟨v, hv⟩ := (hi.keys key).mpr (by rw [key?]; exact hk)
          exact ⟨v, (hstored _ _).mpr (Or.inr ⟨hne, hv⟩)⟩
  · intro handle s hs
    rw [string?_with_strings, hstr] at hs
    split at hs
    · cases hs
      rfl
    · exact hi.hash_eq hs
  · intro a b s t hs ht hchars
    rw [string?_with_strings, hstr] at hs ht
    split at hs <;> split at ht
    · next ha hb => rw [ha, hb]
    · cases hs
      exact absurd hchars.symm (hno _ t ht)
    · cases ht
      exact absurd hchars (hno _ s hs)
    · exact hi.unique hs ht hchars

end Interned

/-! ### Interning a text -/

theorem intern_of_interned? {h : Heap} {chars : String} {handle : Handle}
    (hf : h.interned? chars = some handle) : h.intern chars = (h, handle) := by
  unfold interned? at hf
  simp only [intern, hf]

theorem intern_of_new {h : Heap} {chars : String} (hf : h.interned? chars = none) :
    h.intern chars =
      ({ (h.allocate (.string { chars, hash := Text.hash chars })).1 with
        strings := (h.strings.set ⟨⟨h.cells.size⟩, Text.hash chars⟩ .nil).1 }, ⟨h.cells.size⟩) := by
  unfold interned? at hf
  simp only [intern, hf]
  rfl

/-- Interning returns a string object, whatever the heap holds. -/
theorem string?_intern (h : Heap) (chars : String) : ∃ s, (h.intern chars).1.string? (h.intern chars).2 = some s := by
  cases hf : h.interned? chars with
  | some handle =>
      rw [intern_of_interned? hf]
      have haccepted := Table.accepts_of_findContent? hf
      split at haccepted
      · next s hs => exact ⟨s, hs⟩
      · cases haccepted
  | none =>
      rw [intern_of_new hf]
      exact ⟨_, string?_eq_some_iff.mpr (get?_allocate_self h _)⟩

/-- Interning returns the string object of the text, and makes it if there is none. -/
theorem Interned.intern {h : Heap} (hi : Interned h) (chars : String) :
    Interned (h.intern chars).1 ∧ h.Extends (h.intern chars).1 ∧
      (h.intern chars).1.string? (h.intern chars).2 = some { chars, hash := Text.hash chars } := by
  cases hf : h.interned? chars with
  | some handle =>
      rw [intern_of_interned? hf]
      obtain ⟨s, hs, rfl⟩ := (hi.interned?_eq_some_iff chars handle).mp hf
      refine ⟨hi, Extends.refl h, ?_⟩
      rw [hs, ← hi.hash_eq hs]
  | none =>
      rw [intern_of_new hf]
      refine ⟨hi.allocate_string hf, extends_allocate h _, ?_⟩
      rw [string?_with_strings, string?_eq_some_iff]
      exact get?_allocate_self h _

/-- An object that is there after a text has been interned was there before, or is a string. -/
theorem get?_of_intern {h : Heap} {chars : String} {handle : Handle} {o : Object}
    (ho : (h.intern chars).1.get? handle = some o) : h.get? handle = some o ∨ ∃ s, o = .string s := by
  cases hn : h.interned? chars with
  | some other =>
      rw [intern_of_interned? hn] at ho
      exact .inl ho
  | none =>
      rw [intern_of_new hn] at ho
      have ho : (h.allocate (.string { chars, hash := Text.hash chars })).1.get? handle = some o := ho
      rw [get?_allocate] at ho
      split at ho
      · exact .inr ⟨_, (Option.some.inj ho).symm⟩
      · exact .inl ho

/-- Interning makes no function. -/
theorem function?_of_intern {h : Heap} {chars : String} {handle : Handle} {f : FunctionObject}
    (hf : (h.intern chars).1.function? handle = some f) : h.function? handle = some f := by
  rw [function?_eq_some_iff] at hf ⊢
  exact (get?_of_intern hf).resolve_right fun ⟨_, hs⟩ => nomatch hs

theorem interned_free (h : Heap) : Interned h.free.1 := by
  have hno : ∀ handle s, h.free.1.string? handle ≠ some s := by
    intro handle s hs
    simp [string?] at hs
  exact ⟨Table.valid_empty, (interned_new h.header).keys, fun hs => absurd hs (hno _ _),
    fun hs => absurd hs (hno _ _)⟩

/-- Two strings are the same value exactly if they have the same characters. -/
theorem Interned.equal_iff {h : Heap} (hi : Interned h) {a b : Handle} {s t : StringObject}
    (hs : h.string? a = some s) (ht : h.string? b = some t) :
    (Value.object a).equal (.object b) = true ↔ s.chars = t.chars := by
  rw [Value.equal, beq_iff_eq]
  constructor
  · rintro rfl
    rw [hs] at ht
    cases ht
    rfl
  · exact hi.unique hs ht

end Lox.Heap
