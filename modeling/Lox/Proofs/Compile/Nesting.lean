import Lox.Proofs.Compile.References

/-! How functions are nested. A function is made after the functions among its constants, so its handle is greater than
theirs, and no function is inside of itself. The compiler makes a function when its body is complete and hands it to the
one around it. So on the way, the functions that unfinished bodies hold are in the order in which they were made, from
the outermost body to the innermost; and once a body is finished, no other function holds what it holds. This does not
depend on the source being accepted, nor on what else is on the heap. -/

namespace Lox

theorem Value.handle?_eq_some_iff {v : Value} {k : Handle} : v.handle? = some k ↔ v = .object k := by
  cases v <;> simp [Value.handle?]

namespace Chunk

/-- The objects among the constants, in the order of the constants. -/
def handles (c : Chunk) : List Handle := c.constants.items.toList.filterMap Value.handle?

/-- The functions among the constants, in the order of the constants. -/
def nested (c : Chunk) (h : Heap) : List Handle := c.handles.filter fun k => (h.function? k).isSome

variable {c : Chunk} {h h' : Heap} {k : Handle}

theorem mem_handles : k ∈ c.handles ↔ ∃ i, c.constant? i = some (.object k) := by
  simp [handles, List.mem_filterMap, Value.handle?_eq_some_iff, Array.mem_iff_getElem?, constant?, Buffer.get?]

theorem mem_nested : k ∈ c.nested h ↔ k ∈ c.handles ∧ ∃ f, h.function? k = some f := by
  rw [nested, List.mem_filter, Option.isSome_iff_exists]

theorem handles_addConstant (v : Value) : (c.addConstant v).1.handles = c.handles ++ v.handle?.toList := by
  rw [handles, addConstant, Buffer.items_push, Array.toList_push, List.filterMap_append]
  cases v <;> rfl

/-- Which of the constants are functions does not change while objects are added. -/
theorem nested_extends (hext : h.Extends h') (hc : ∀ k ∈ c.handles, k.index < h.cells.size) :
    c.nested h' = c.nested h := by
  refine List.filter_congr fun k hk => ?_
  obtain ⟨o, ho⟩ := Heap.exists_get? (hc k hk)
  rw [Heap.function?, Heap.function?, ho, hext k o ho]

end Chunk

namespace Heap

/-- The objects among the constants of a function were there before it. -/
def Ordered (h : Heap) : Prop :=
  ∀ k f i l, h.function? k = some f → f.chunk.constant? i = some (.object l) → l.index < k.index

variable {h h' : Heap} {n : Nat}

theorem Ordered.handles_lt (ho : h.Ordered) {k : Handle} {f : FunctionObject} (hf : h.function? k = some f) :
    ∀ l ∈ f.chunk.handles, l.index < k.index := by
  intro l hl
  obtain ⟨i, hi⟩ := Chunk.mem_handles.mp hl
  exact ho k f i l hf hi

theorem Ordered.nested_extends (ho : h.Ordered) (hext : h.Extends h') {k : Handle} {f : FunctionObject}
    (hf : h.function? k = some f) : f.chunk.nested h' = f.chunk.nested h := by
  have hk := lt_size_of_get? (function?_eq_some_iff.mp hf)
  exact Chunk.nested_extends hext fun l hl => Nat.lt_trans (ho.handles_lt hf l hl) hk

theorem ordered_new (header : Header) : Ordered (new header) := by
  intro k f i l hf
  simp [function?] at hf

theorem ordered_free (h : Heap) : Ordered h.free.1 := by
  intro k f i l hf
  simp [function?] at hf

/-- A heap without new functions is ordered as before. -/
theorem Ordered.of_same_functions (ho : h.Ordered) (hsame : ∀ k f, h'.function? k = some f → h.function? k = some f) :
    h'.Ordered :=
  fun k f i l hf hi => ho k f i l (hsame k f hf) hi

/-- What is a function after an object has been made was one before, or is the object. -/
theorem function?_of_allocate {o : Object} {k : Handle} {f : FunctionObject}
    (hf : (h.allocate o).1.function? k = some f) : k = ⟨h.cells.size⟩ ∧ o = .function f ∨ h.function? k = some f := by
  rw [function?_eq_some_iff, get?_allocate] at hf
  split at hf
  · next hk => exact .inl ⟨hk, Option.some.inj hf⟩
  · exact .inr (function?_eq_some_iff.mpr hf)

theorem size_allocate (h : Heap) (o : Object) : (h.allocate o).1.cells.size = h.cells.size + 1 := Array.size_push ..

/-- What a function holds after another one has been made. -/
theorem Ordered.nested_of_allocate (ho : h.Ordered) {f : FunctionObject}
    (hf : ∀ k ∈ f.chunk.handles, k.index < h.cells.size) {k : Handle} {g : FunctionObject}
    (hg : (h.allocate (.function f)).1.function? k = some g) :
    k = ⟨h.cells.size⟩ ∧ g.chunk.nested (h.allocate (.function f)).1 = f.chunk.nested h ∨
      h.function? k = some g ∧ g.chunk.nested (h.allocate (.function f)).1 = g.chunk.nested h := by
  have hext := h.extends_allocate (.function f)
  rcases function?_of_allocate hg with ⟨hk, hobject⟩ | hold
  · obtain rfl := Object.function.inj hobject
    exact .inl ⟨hk, Chunk.nested_extends hext hf⟩
  · exact .inr ⟨hold, ho.nested_extends hext hold⟩

/-- A new function is greater than all objects that there are. -/
theorem Ordered.allocate (ho : h.Ordered) {o : Object}
    (hnew : ∀ f, o = .function f → ∀ l ∈ f.chunk.handles, l.index < h.cells.size) : (h.allocate o).1.Ordered := by
  intro k f i l hf hi
  rcases function?_of_allocate hf with ⟨rfl, hobject⟩ | hf
  · exact hnew f hobject l (Chunk.mem_handles.mpr ⟨i, hi⟩)
  · exact ho k f i l hf hi

/-! ### Unfinished functions -/

/-- The functions that unfinished bodies hold, from the outermost body to the innermost, which comes first in the list
of bodies. -/
def pending (h : Heap) : List Chunk → List Handle
  | [] => []
  | c :: outer => h.pending outer ++ c.nested h

theorem mem_pending {k : Handle} {cs : List Chunk} : k ∈ h.pending cs ↔ ∃ c ∈ cs, k ∈ c.nested h := by
  induction cs with
  | nil => simp [pending]
  | cons c outer ih => simp [pending, ih, or_comm]

theorem pending_extends (hext : h.Extends h') {cs : List Chunk}
    (hcs : ∀ c ∈ cs, ∀ k ∈ c.handles, k.index < h.cells.size) : h'.pending cs = h.pending cs := by
  induction cs with
  | nil => rfl
  | cons c outer ih =>
      obtain ⟨hc, houter⟩ := List.forall_mem_cons.mp hcs
      rw [pending, pending, ih houter, Chunk.nested_extends hext hc]

/-- The functions of a compilation that began with `n` objects are in order: the finished ones, and those whose bodies
have the given code so far, the innermost first. -/
structure Nests (n : Nat) (h : Heap) (cs : List Chunk) : Prop where
  ordered : h.Ordered
  below : ∀ c ∈ cs, ∀ k ∈ c.handles, k.index < h.cells.size
  pending : (h.pending cs).Pairwise fun a b => a.index < b.index
  sorted : ∀ {k f}, n ≤ k.index → h.function? k = some f → (f.chunk.nested h).Pairwise fun a b => a.index < b.index
  apart : ∀ {k f l}, n ≤ k.index → h.function? k = some f → l ∈ f.chunk.nested h → l ∉ h.pending cs
  once : ∀ {k k' f f' l}, n ≤ k.index → h.function? k = some f → n ≤ k'.index → h.function? k' = some f' →
    l ∈ f.chunk.nested h → l ∈ f'.chunk.nested h → k = k'

namespace Nests

variable {c c' : Chunk} {cs : List Chunk}

theorem start (ho : h.Ordered) : Nests h.cells.size h [{}] := by
  have hnone : ∀ {k f}, h.cells.size ≤ k.index → h.function? k ≠ some f := fun hk hf =>
    absurd (lt_size_of_get? (function?_eq_some_iff.mp hf)) (Nat.not_lt.mpr hk)
  exact ⟨ho, by simp [Chunk.handles, Buffer.empty], .nil, fun hk hf => absurd hf (hnone hk),
    fun hk hf => absurd hf (hnone hk), fun hk hf => absurd hf (hnone hk)⟩

/-- Only the constants matter, and of these only the objects. -/
theorem of_handles (hn : Nests n h (c :: cs)) (hc : c'.handles = c.handles) : Nests n h (c' :: cs) := by
  have hpending : h.pending (c' :: cs) = h.pending (c :: cs) := by
    rw [Heap.pending, Heap.pending, Chunk.nested, Chunk.nested, hc]
  obtain ⟨hbelow, houter⟩ := List.forall_mem_cons.mp hn.below
  exact ⟨hn.ordered, List.forall_mem_cons.mpr ⟨hc ▸ hbelow, houter⟩, hpending ▸ hn.pending, hn.sorted,
    hpending ▸ hn.apart, hn.once⟩

/-- Objects are added that are no functions. -/
theorem extend (hn : Nests n h cs) (hext : h.Extends h') (hsize : h.cells.size ≤ h'.cells.size)
    (hsame : ∀ k f, h'.function? k = some f → h.function? k = some f) : Nests n h' cs := by
  have hpending : h'.pending cs = h.pending cs := pending_extends hext hn.below
  have hnested : ∀ {k f}, h'.function? k = some f → f.chunk.nested h' = f.chunk.nested h := fun hf =>
    hn.ordered.nested_extends hext (hsame _ _ hf)
  refine ⟨hn.ordered.of_same_functions hsame, fun c hc k hk => Nat.lt_of_lt_of_le (hn.below c hc k hk) hsize,
    hpending ▸ hn.pending, fun hk hf => ?_, fun hk hf hl => ?_, fun hk hf hk' hf' hl hl' => ?_⟩
  · rw [hnested hf]
    exact hn.sorted hk (hsame _ _ hf)
  · rw [hpending]
    rw [hnested hf] at hl
    exact hn.apart hk (hsame _ _ hf) hl
  · rw [hnested hf] at hl
    rw [hnested hf'] at hl'
    exact hn.once hk (hsame _ _ hf) hk' (hsame _ _ hf') hl hl'

/-- A body begins. -/
theorem opened (hn : Nests n h cs) : Nests n h ({} :: cs) := by
  have hpending : h.pending ({} :: cs) = h.pending cs := List.append_nil _
  refine ⟨hn.ordered, List.forall_mem_cons.mpr ⟨?_, hn.below⟩, hpending ▸ hn.pending, hn.sorted,
    hpending ▸ hn.apart, hn.once⟩
  simp [Chunk.handles, Buffer.empty]

/-- The innermost body becomes a function. -/
theorem allocate {f : FunctionObject} (hn : Nests n h (f.chunk :: cs)) : Nests n (h.allocate (.function f)).1 cs := by
  obtain ⟨hbelow, houter⟩ := List.forall_mem_cons.mp hn.below
  obtain ⟨hrest, hown, hacross⟩ := List.pairwise_append.mp hn.pending
  have hpending := pending_extends (h.extends_allocate (.function f)) houter
  have hinner : ∀ {l}, l ∈ f.chunk.nested h → l ∈ h.pending (f.chunk :: cs) := fun hl => List.mem_append_right _ hl
  refine ⟨hn.ordered.allocate fun g hg l hl => ?_, fun c hc k hk => ?_, hpending ▸ hrest, fun hk hg => ?_,
    fun hk hg hl => ?_, fun hk hg hk' hg' hl hl' => ?_⟩
  · obtain rfl := Object.function.inj hg
    exact hbelow l hl
  · rw [size_allocate]
    exact Nat.lt_succ_of_lt (houter c hc k hk)
  · rcases hn.ordered.nested_of_allocate hbelow hg with ⟨-, heq⟩ | ⟨hold, heq⟩
    · exact heq ▸ hown
    · exact heq ▸ hn.sorted hk hold
  · rw [hpending]
    rcases hn.ordered.nested_of_allocate hbelow hg with ⟨-, heq⟩ | ⟨hold, heq⟩
    · exact fun hpend => absurd (hacross _ hpend _ (heq ▸ hl)) (Nat.lt_irrefl _)
    · exact fun hpend => hn.apart hk hold (heq ▸ hl) (List.mem_append_left _ hpend)
  · -- what the new function holds was pending, and no function that was finished before holds that
    rcases hn.ordered.nested_of_allocate hbelow hg with ⟨rfl, heq⟩ | ⟨hold, heq⟩
    · rcases hn.ordered.nested_of_allocate hbelow hg' with ⟨rfl, -⟩ | ⟨hold', heq'⟩
      · rfl
      · exact absurd (hinner (heq ▸ hl)) (hn.apart hk' hold' (heq' ▸ hl'))
    · rcases hn.ordered.nested_of_allocate hbelow hg' with ⟨rfl, heq'⟩ | ⟨hold', heq'⟩
      · exact absurd (hinner (heq' ▸ hl')) (hn.apart hk hold (heq ▸ hl))
      · exact hn.once hk hold hk' hold' (heq ▸ hl) (heq' ▸ hl')

/-- A constant is added that is no function. -/
theorem addOther (hn : Nests n h (c :: cs)) {v : Value}
    (hv : ∀ k, v = .object k → k.index < h.cells.size ∧ h.function? k = none) :
    Nests n h ((c.addConstant v).1 :: cs) := by
  obtain ⟨hbelow, houter⟩ := List.forall_mem_cons.mp hn.below
  have hnested : (c.addConstant v).1.nested h = c.nested h := by
    rw [Chunk.nested, Chunk.nested, Chunk.handles_addConstant, List.filter_append, List.append_right_eq_self,
      List.filter_eq_nil_iff]
    intro k hk
    simp [(hv k (Value.handle?_eq_some_iff.mp (Option.mem_toList.mp hk))).2]
  have hpending : h.pending ((c.addConstant v).1 :: cs) = h.pending (c :: cs) := by
    rw [Heap.pending, Heap.pending, hnested]
  refine ⟨hn.ordered, List.forall_mem_cons.mpr ⟨fun k hk => ?_, houter⟩, hpending ▸ hn.pending, hn.sorted,
    hpending ▸ hn.apart, hn.once⟩
  rw [Chunk.handles_addConstant] at hk
  rcases List.mem_append.mp hk with hk | hk
  · exact hbelow k hk
  · exact (hv k (Value.handle?_eq_some_iff.mp (Option.mem_toList.mp hk))).1

/-- The object made last is added as a constant, and it is a function. -/
theorem addLast (hn : Nests n h (c :: cs)) {k : Handle} {f : FunctionObject} (hf : h.function? k = some f)
    (hlast : h.cells.size ≤ k.index + 1) (hpending : ∀ l ∈ h.pending (c :: cs), l.index < k.index) :
    Nests n h ((c.addConstant (.object k)).1 :: cs) := by
  obtain ⟨hbelow, houter⟩ := List.forall_mem_cons.mp hn.below
  have hhandles : (c.addConstant (.object k)).1.handles = c.handles ++ [k] := Chunk.handles_addConstant _
  have hmore : h.pending ((c.addConstant (.object k)).1 :: cs) = h.pending (c :: cs) ++ [k] := by
    rw [Heap.pending, Heap.pending, Chunk.nested, hhandles, List.filter_append]
    simp [Chunk.nested, hf]
  refine ⟨hn.ordered, List.forall_mem_cons.mpr ⟨fun l hl => ?_, houter⟩, ?_, hn.sorted,
    fun hk' hg hl hpend => ?_, hn.once⟩
  · rw [hhandles] at hl
    rcases List.mem_append.mp hl with hl | hl
    · exact hbelow l hl
    · exact List.mem_singleton.mp hl ▸ lt_size_of_get? (function?_eq_some_iff.mp hf)
  · rw [hmore]
    refine List.pairwise_append.mpr ⟨hn.pending, List.pairwise_singleton _ _, fun l hl k' hk' => ?_⟩
    exact List.mem_singleton.mp hk' ▸ hpending l hl
  · rw [hmore] at hpend
    rcases List.mem_append.mp hpend with hpend | hpend
    · exact hn.apart hk' hg hl hpend
    · -- no function is younger than the last one, so none holds it
      obtain rfl := List.mem_singleton.mp hpend
      have hyounger := hn.ordered.handles_lt hg _ (Chunk.mem_nested.mp hl).1
      have := lt_size_of_get? (function?_eq_some_iff.mp hg)
      omega

/-- The innermost body becomes a function, which the body around it holds. A body that is left without one around it
gives way to an empty one. -/
theorem close {f : FunctionObject} (hn : Nests n h (f.chunk :: cs)) : Nests n (h.allocate (.function f)).1
    (((cs.headD {}).addConstant (.object ⟨h.cells.size⟩)).1 :: cs.tail) := by
  have hbelow : ∀ c ∈ cs.headD {} :: cs.tail, ∀ k ∈ c.handles, k.index < h.cells.size := by
    cases cs with
    | nil => simp [Chunk.handles, Buffer.empty]
    | cons c cs => exact (List.forall_mem_cons.mp hn.below).2
  have houter : Nests n (h.allocate (.function f)).1 (cs.headD {} :: cs.tail) := by
    cases cs with
    | nil => exact hn.allocate.opened
    | cons c cs => exact hn.allocate
  refine houter.addLast (function?_eq_some_iff.mpr (get?_allocate_self h _)) (Nat.le_of_eq (size_allocate h _))
    fun l hl => ?_
  obtain ⟨c, hc, hl⟩ := mem_pending.mp hl
  exact hbelow c hc l (Chunk.mem_nested.mp hl).1

end Nests

end Heap

namespace CompileState

/-- The code of the unfinished functions, the innermost first. -/
def chunks (s : CompileState) : List Chunk := s.body.chunk :: s.enclosing.map (·.chunk)

/-- The functions of a compilation are in order. -/
def Nested (n : Nat) (s : CompileState) : Prop := s.heap.Nests n s.chunks

namespace Nested

variable {n : Nat} {s t : CompileState}

theorem congr (hn : s.Nested n) (hheap : t.heap = s.heap) (hconstants : t.body.chunk.constants = s.body.chunk.constants)
    (henc : t.enclosing = s.enclosing) : t.Nested n := by
  unfold Nested chunks
  rw [hheap, henc]
  exact Heap.Nests.of_handles hn (by rw [Chunk.handles, Chunk.handles, hconstants])

theorem intern (hn : s.Nested n) (chars : String) : (s.intern chars).2.Nested n := by
  obtain ⟨hbody, -, -, -, henc, -⟩ := s.intern_frame chars
  have hgrows := s.heap.grows_intern chars
  unfold Nested chunks
  rw [(s.heap_intern chars).1, hbody, henc]
  exact Heap.Nests.extend hn hgrows.keeps hgrows.size_le fun _ _ => Heap.function?_of_intern

theorem close (hn : s.Nested n) : (s.closeFunction.2.withConstant (.object s.closeFunction.1)).Nested n := by
  obtain ⟨journal, heq⟩ := s.closeFunction_turn
  have hclose := Heap.Nests.close (f := s.body.function) hn
  rw [heq]
  cases henc : s.enclosing <;> rw [henc] at hclose <;> exact hclose

theorem move (hn : s.Nested n) (m : s.Move t) : t.Nested n := by
  cases m with
  | advance =>
      obtain ⟨hbody, henc, hheap, -⟩ := s.advance_frame
      exact hn.congr hheap (by rw [hbody]) henc
  | complain token complaint =>
      obtain ⟨hbody, henc, -⟩ := s.complainAt_frame token complaint
      refine hn.congr ?_ (by rw [hbody]) henc
      unfold complainAt
      split <;> rfl
  | calm | scope | parameter => exact hn.congr rfl rfl rfl
  | code c he => exact hn.congr rfl he.constants rfl
  | number x => exact Heap.Nests.addOther hn nofun
  | text chars => exact hn.intern chars
  | literal chars =>
      obtain ⟨hheap, hhandle⟩ := s.heap_intern chars
      obtain ⟨text, htext⟩ := s.heap.string?_intern chars
      rw [← hheap, ← hhandle, Heap.string?_eq_some_iff] at htext
      refine Heap.Nests.addOther (hn.intern chars) fun k hk => ?_
      cases hk
      exact ⟨Heap.lt_size_of_get? htext, by rw [Heap.function?, htext]⟩
  | opened name => exact Heap.Nests.opened hn
  | closed => exact hn.close

theorem moves (hn : s.Nested n) (hm : Moves s t) : t.Nested n := hm.keeps (fun m hs => hs.move m) hn

end Nested

end CompileState

/-- The functions that a compilation makes are nested in order, whether the source is accepted or not. -/
theorem compile_nests {source : String} {heap : Heap} {printCode : Bool} {journal : Journal} {c : Compilation}
    (h : compile source heap printCode journal = .ok c) (ho : heap.Ordered) :
    ∃ cs, c.heap.Nests heap.cells.size cs := by
  obtain ⟨s, hrun, rfl⟩ := compile_eq_ok h
  have hstart : CompileState.Nested heap.cells.size { rest := tokenize source, heap, printCode, journal } :=
    Heap.Nests.start ho
  have hs := hstart.moves (Compiler.byMoves_read _ _ _ _ hrun)
  unfold CompileState.finish
  split
  · simp only [CompileState.allocateFunction, CompileState.heap_listCode]
    exact ⟨_, Heap.Nests.allocate (f := s.body.function) hs⟩
  · exact ⟨_, hs⟩

end Lox
