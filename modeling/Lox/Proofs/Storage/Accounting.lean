import Lox.Proofs.Compile.Capacity

/-! The list of objects and the count of bytes. Each cell links to the one before it, so a walk from the newest object
meets every cell once, and the counters that are kept beside the cells agree with that walk. This holds whatever is
allocated and however often everything is freed; so freeing walks the whole list, and its subtractions, which stop at
zero, never have to. -/

namespace Lox.Heap

/-- The sum of the sizes that objects were recorded with. -/
def sizes (header : Header) (entries : List (Handle × Object)) : Nat :=
  (entries.map fun entry => entry.2.size header).sum

/-- The object allocated before the one with an index. -/
def before : Nat → Option Handle
  | 0 => none
  | i + 1 => some ⟨i⟩

/-- The links from a place on lead to a cell each, down to the end of the list. -/
inductive Linked (h : Heap) : Option Handle → List (Handle × Object) → Prop where
  | finish : Linked h none []
  | link {handle : Handle} {cell : Cell} {rest : List (Handle × Object)} (hc : h.cells[handle.index]? = some cell)
      (hrest : Linked h cell.next rest) : Linked h (some handle) ((handle, cell.object) :: rest)

/-- The counters agree with the cells, and each cell links to the one before it. -/
structure Accounted (h : Heap) : Prop where
  links : ∀ i cell, h.cells[i]? = some cell → cell.next = before i
  newest : h.newest = before h.cells.size
  live : h.live = h.cells.size
  allocated : h.allocated = (h.cells.toList.map fun cell => cell.object.size h.header).sum

theorem accounted_new (header : Header) : Accounted (new header) where
  links i cell hc := by simp [new] at hc
  newest := rfl
  live := rfl
  allocated := rfl

/-- The heap's objects do not depend on its string table. -/
theorem Accounted.with_strings {h : Heap} (ha : h.Accounted) (t : Table) : Accounted { h with strings := t } :=
  ⟨ha.links, ha.newest, ha.live, ha.allocated⟩

theorem Accounted.allocate {h : Heap} (ha : h.Accounted) (o : Object) : Accounted (h.allocate o).1 where
  links i cell hc := by
    simp only [Heap.allocate, Array.getElem?_push] at hc
    split at hc
    · next hi =>
        cases hc
        rw [hi]
        exact ha.newest
    · exact ha.links i cell hc
  newest := by simp [Heap.allocate, before]
  live := by simp [Heap.allocate, ha.live]
  allocated := by simp [Heap.allocate, ha.allocated]

theorem Accounted.intern {h : Heap} (ha : h.Accounted) (chars : String) : Accounted (h.intern chars).1 := by
  cases hf : h.interned? chars with
  | some handle =>
      rw [intern_of_interned? hf]
      exact ha
  | none =>
      rw [intern_of_new hf]
      exact (ha.allocate _).with_strings _

/-! ### Walking the list -/

namespace Accounted

variable {h : Heap} (ha : h.Accounted)

include ha

/-- The walk from a place on goes down through all cells below it. -/
theorem walk_before {n count : Nat} (hn : n ≤ h.cells.size) (hcount : n ≤ count) :
    h.walk count (before n) =
    ((h.cells.toList.take n).zipIdx.map fun entry => (⟨entry.2⟩, entry.1.object)).reverse := by
  induction n generalizing count with
  | zero => cases count <;> rfl
  | succ i ih =>
      obtain ⟨rest, rfl⟩ : ∃ rest, count = rest + 1 := ⟨count - 1, by omega⟩
      have hcell : h.cells[i]? = some h.cells[i] := Array.getElem?_eq_getElem hn
      have htake : h.cells.toList.take (i + 1) = h.cells.toList.take i ++ [h.cells[i]] := by
        rw [List.take_add_one, Array.getElem?_toList, hcell]
        rfl
      rw [before, walk, hcell]
      simp only
      rw [ha.links i _ hcell, ih (by omega) (by omega), htake, List.zipIdx_append, List.map_append, List.reverse_append]
      simp [Nat.min_eq_left (Nat.le_of_succ_le hn)]

/-- The walk from the newest object meets the cells in the reverse of the order in which they were made. -/
theorem objects_eq :
    h.objects = (h.cells.toList.zipIdx.map fun entry => (⟨entry.2⟩, entry.1.object)).reverse := by
  rw [objects, ha.newest, ha.walk_before (Nat.le_refl _) (Nat.le_refl _), ← Array.length_toList, List.take_length]

theorem linked_objects : h.Linked h.newest h.objects := by
  suffices hbefore : ∀ n ≤ h.cells.size, ∀ count, n ≤ count → h.Linked (before n) (h.walk count (before n)) by
    rw [objects, ha.newest]
    exact hbefore _ (Nat.le_refl _) _ (Nat.le_refl _)
  intro n
  induction n with
  | zero =>
      intro _ count _
      have hnil : h.walk count (before 0) = [] := by cases count <;> rfl
      rw [hnil]
      exact .finish
  | succ i ih =>
      intro hi count hcount
      obtain ⟨rest, rfl⟩ : ∃ rest, count = rest + 1 := ⟨count - 1, by omega⟩
      have hcell : h.cells[i]? = some h.cells[i] := Array.getElem?_eq_getElem hi
      rw [before, walk, hcell]
      refine .link hcell ?_
      rw [ha.links i _ hcell]
      exact ih (by omega) rest (by omega)

theorem mem_objects (handle : Handle) (o : Object) : (handle, o) ∈ h.objects ↔ h.get? handle = some o := by
  rw [ha.objects_eq, List.mem_reverse, List.mem_map, get?, Option.map_eq_some_iff]
  constructor
  · rintro ⟨⟨cell, i⟩, hmem, heq⟩
    cases heq
    rw [List.mem_zipIdx_iff_getElem?, Array.getElem?_toList] at hmem
    exact ⟨cell, hmem, rfl⟩
  · rintro ⟨cell, hcell, rfl⟩
    refine ⟨(cell, handle.index), ?_, rfl⟩
    rw [List.mem_zipIdx_iff_getElem?, Array.getElem?_toList]
    exact hcell

/-- Newer objects come first. -/
theorem objects_sorted : h.objects.Pairwise fun newer older => older.1.index < newer.1.index := by
  rw [ha.objects_eq, List.pairwise_reverse, List.pairwise_map]
  have hsorted : (h.cells.toList.zipIdx.map Prod.snd).Pairwise (· < ·) := by
    rw [List.zipIdx_map_snd]
    exact List.pairwise_lt_range'
  exact List.pairwise_map.mp hsorted

theorem objects_nodup : (h.objects.map (·.1)).Nodup := by
  rw [List.Nodup, List.pairwise_map]
  exact ha.objects_sorted.imp fun hlt heq => absurd (congrArg Handle.index heq) (Nat.ne_of_gt hlt)

/-- A new object is the first of the list, and those that were there follow as they were. -/
theorem objects_allocate (o : Object) : (h.allocate o).1.objects = ((h.allocate o).2, o) :: h.objects := by
  rw [(ha.allocate o).objects_eq, ha.objects_eq]
  simp [Heap.allocate, List.zipIdx_append]

theorem length_objects : h.objects.length = h.live := by
  rw [ha.objects_eq, ha.live]
  simp

theorem sizes_objects : sizes h.header h.objects = h.allocated := by
  have hmap : (h.cells.toList.zipIdx.map fun entry => ((⟨entry.2⟩ : Handle), entry.1.object)).map
      (fun entry => entry.2.size h.header) = h.cells.toList.map fun cell => cell.object.size h.header := by
    rw [List.map_map]
    conv_rhs => rw [← List.zipIdx_map_fst 0 h.cells.toList, List.map_map]
    rfl
  rw [sizes, ha.objects_eq, List.map_reverse, List.sum_reverse, hmap, ha.allocated]

/-- Without the headers, the bytes are those of the contents. -/
theorem bytes_eq : h.bytes = (h.objects.map fun entry => entry.2.payload).sum := by
  have hsum : ∀ entries : List (Handle × Object), sizes h.header entries =
      entries.length * h.header + (entries.map fun entry => entry.2.payload).sum := by
    intro entries
    induction entries with
    | nil => simp [sizes]
    | cons entry entries ih =>
        simp only [sizes, List.map_cons, List.sum_cons, List.length_cons, Nat.add_mul, Object.size] at ih ⊢
        omega
  rw [bytes, ← ha.sizes_objects, hsum, ha.length_objects, Nat.add_sub_cancel_left]

end Accounted

/-! ### Freeing -/

/-- What is left of the bytes when objects have been freed. -/
def unpaid (header : Header) (freed : List (Handle × Object)) (bytes : Nat) : Nat :=
  freed.foldl (fun bytes entry => bytes - entry.2.size header) bytes

theorem unpaid_sizes (header : Header) (freed : List (Handle × Object)) (rest : Nat) :
    unpaid header freed (sizes header freed + rest) = rest := by
  induction freed with
  | nil => simp [unpaid, sizes]
  | cons entry freed ih =>
      have hsum : sizes header (entry :: freed) + rest - entry.2.size header = sizes header freed + rest := by
        simp only [sizes, List.map_cons, List.sum_cons]
        omega
      rw [unpaid, List.foldl_cons, hsum]
      exact ih

/-- Freeing subtracts from each object on no more than is left. -/
theorem Accounted.covered {h : Heap} (ha : h.Accounted) {freed rest : List (Handle × Object)} {entry : Handle × Object}
    (hsplit : h.objects = freed ++ entry :: rest) : entry.2.size h.header ≤ unpaid h.header freed h.allocated := by
  have hallocated : h.allocated = sizes h.header freed + (entry.2.size h.header + sizes h.header rest) := by
    rw [← ha.sizes_objects, hsplit]
    simp [sizes]
  rw [hallocated, unpaid_sizes]
  exact Nat.le_add_right _ _

theorem Accounted.free {h : Heap} (ha : h.Accounted) : h.free = (new h.header, h.live) := by
  have hallocated : unpaid h.header h.objects h.allocated = 0 := by
    rw [← ha.sizes_objects]
    exact unpaid_sizes h.header h.objects 0
  have hfree : h.free =
      ({ new h.header with strings := .empty, allocated := unpaid h.header h.objects h.allocated },
      h.objects.length) := rfl
  rw [hfree, hallocated, ha.length_objects]
  rfl

end Lox.Heap

/-! ### Heaps that come about -/

namespace Lox

namespace Heap

theorem Accounted.changes {h h' : Heap} (ha : h.Accounted) (hs : h.Changes h') : h'.Accounted := by
  refine hs.keeps (fun hc ha => ?_) ha
  cases hc with
  | text chars => exact ha.intern chars
  | function f => exact ha.allocate _

theorem Reached.accounted {h : Heap} (hr : Reached h) : h.Accounted := by
  induction hr with
  | new header => exact accounted_new header
  | intern hr chars ih => exact ih.intern chars
  | function hr f ih => exact ih.allocate _
  | native hr n ih => exact ih.allocate _
  | compile hr hc ih => exact ih.changes (changes_compile hc)
  | step hr ih => exact ih.changes (Execution.byMoves_step _).changes
  | free hr ih =>
      rw [ih.free]
      exact accounted_new _

/-- **Accounting.** In every heap that can come about, whatever the header of its objects, the list of objects holds
each live object once, the newest first: a new object goes to the front of the list and adds its size, header and
contents, to the bytes. As long as handles can name all objects, the 32 bits of a new one are the number of those
before. The number of objects is the length of the list, and the bytes are the sum of the sizes. The size of a
function is the header and its buffers; if the writers filled its chunk, as they fill those of all compiled functions,
each buffer reserves nothing while it is empty and else the least power of two from eight on that holds its items.
Freeing finds a cell behind each link, counts all objects, subtracts for each no more than is left, and leaves nothing
behind, so that the next object gets the first handle. -/
theorem Reached.accounting {h : Heap} (hr : h.Reached) :
    ((∀ handle o, (handle, o) ∈ h.objects ↔ h.get? handle = some o) ∧ (h.objects.map (·.1)).Nodup ∧
      h.objects.Pairwise fun newer older => older.1.index < newer.1.index) ∧
      (∀ o, (h.allocate o).1.objects = ((h.allocate o).2, o) :: h.objects ∧
        (h.allocate o).1.allocated = h.allocated + (h.header + o.payload) ∧
        (h.live < Handle.limit → (h.allocate o).2.word.toNat = h.live)) ∧
      h.live = h.objects.length ∧ h.allocated = sizes h.header h.objects ∧
      (∀ handle f, (handle, .function f) ∈ h.objects → f.chunk.Filled →
        (Object.function f).size h.header =
          h.header + (f.chunk.code.capacity + 8 * f.chunk.lines.capacity + 16 * f.chunk.constants.capacity) ∧
        f.chunk.code.Snug ∧ f.chunk.lines.Snug ∧ f.chunk.constants.Snug) ∧
      (∀ source printCode journal c, Lox.compile source h printCode journal = .ok c → ∀ handle f,
        (handle, .function f) ∈ c.heap.objects → (handle, .function f) ∈ h.objects ∨ f.chunk.Filled) ∧
      h.free.2 = h.live ∧ h.Linked h.newest h.objects ∧
      (∀ freed entry rest, h.objects = freed ++ entry :: rest →
        entry.2.size h.header ≤ unpaid h.header freed h.allocated) ∧
      (h.free.1.objects = [] ∧ h.free.1.newest = none ∧ h.free.1.live = 0 ∧ h.free.1.allocated = 0 ∧
        h.free.1.internedCount = 0 ∧ h.free.1.strings.toList = [] ∧ h.free.1.header = h.header) ∧
      (∀ o, (h.free.1.allocate o).2 = ⟨0⟩) ∧ (∀ chars, (h.free.1.intern chars).2 = ⟨0⟩) ∧
      h.bytes = (h.objects.map fun entry => entry.2.payload).sum := by
  have ha := hr.accounted
  have hfree := ha.free
  refine ⟨⟨ha.mem_objects, ha.objects_nodup, ha.objects_sorted⟩,
    fun o => ⟨ha.objects_allocate o, rfl, fun hlimit => ?_⟩, ha.length_objects.symm, ha.sizes_objects.symm,
    fun handle f _ hfilled => ⟨rfl, hfilled.snug⟩, ?_, by rw [hfree],
    ha.linked_objects, fun freed entry rest => ha.covered, ?_, ?_, ?_, ha.bytes_eq⟩
  · rw [ha.live] at hlimit ⊢
    exact UInt32.toNat_ofNat_of_lt' hlimit
  · intro source printCode journal c hc handle f hf
    rw [(ha.changes (changes_compile hc)).mem_objects, ← function?_eq_some_iff] at hf
    rw [ha.mem_objects, ← function?_eq_some_iff]
    exact compile_filled hc handle f hf
  · rw [hfree]
    exact ⟨rfl, rfl, rfl, rfl, rfl, rfl, rfl⟩
  · intro o
    rw [hfree]
    rfl
  · intro chars
    rw [hfree, intern_of_new ((interned_new _).interned?_eq_none_iff chars |>.mpr fun handle s hs => ?_)]
    · rfl
    · simp [string?] at hs

/-- A heap that was freed once, with a string of two bytes and a function of three, and headers of 64 bytes. -/
def afterFreeing : Heap :=
  ((((new ⟨64, by decide⟩).intern "a").1.free.1.intern "bc").1.allocate
    (.function { chunk := (Chunk.empty.writeOpByte .getLocal 0 1).writeOp .ret 1 })).1

/-- The function is the newest object; its code and its lines reserve eight places each. -/
theorem accounting_after_freeing : afterFreeing.Reached ∧ afterFreeing.live = 2 ∧
    afterFreeing.objects.map (·.1) = [⟨1⟩, ⟨0⟩] ∧ afterFreeing.allocated = (64 + 2) + (64 + (8 + 8 * 8)) ∧
    afterFreeing.allocated = sizes afterFreeing.header afterFreeing.objects ∧ afterFreeing.free.2 = 2 ∧
    (afterFreeing.free.1.intern "d").2 = ⟨0⟩ := by
  have hr : afterFreeing.Reached := .function (.intern (.free (.intern (.new _) "a")) "bc") _
  obtain ⟨-, -, -, hallocated, -, -, hcount, -, -, -, -, hnext, -⟩ := Reached.accounting hr
  have hlive : afterFreeing.live = 2 := by decide +kernel
  exact ⟨hr, hlive, by decide +kernel, by decide +kernel, hallocated, by rw [hcount, hlive], hnext "d"⟩

end Heap

end Lox
