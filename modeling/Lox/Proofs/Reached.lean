import Lox.Proofs.Compile.Moves
import Lox.Proofs.Machine.Moves

/-! The heaps and machines that can come about. Whatever a host does with them, in whatever order, and
whatever sources and code it feeds to them, the heap stays interned: a compilation and an instruction
change it only by interning a text or by making a function. -/

namespace Lox

namespace Heap

/-- A heap that came from another one by allocations: it keeps the objects, and stays interned. -/
structure Grows (h h' : Heap) : Prop where
  keeps : h.Extends h'
  size_le : h.cells.size ≤ h'.cells.size
  interned : Interned h → Interned h'

namespace Grows

theorem refl (h : Heap) : Grows h h := ⟨.refl h, Nat.le_refl _, id⟩

theorem trans {h₁ h₂ h₃ : Heap} (h : Grows h₁ h₂) (h' : Grows h₂ h₃) : Grows h₁ h₃ :=
  ⟨h.keeps.trans h'.keeps, Nat.le_trans h.size_le h'.size_le, fun hi => h'.interned (h.interned hi)⟩

end Grows

theorem grows_allocate (h : Heap) {o : Object} (hno : ∀ s, o ≠ .string s) : Grows h (h.allocate o).1 :=
  ⟨extends_allocate h o, by simp [allocate], fun hi => hi.allocate_other hno⟩

theorem grows_intern (h : Heap) (chars : String) : Grows h (h.intern chars).1 := by
  cases hf : h.interned? chars with
  | some handle =>
      rw [intern_of_interned? hf]
      exact .refl h
  | none =>
      rw [intern_of_new hf]
      exact ⟨extends_allocate h _, by simp [allocate], fun hi => hi.allocate_string hf⟩

/-- What a rule of the compiler or an instruction does to the heap. -/
inductive Change (h : Heap) : Heap → Prop where
  | text (chars : String) : Change h (h.intern chars).1
  | function (f : FunctionObject) : Change h (h.allocate (.function f)).1

/-- Any number of changes. -/
inductive Changes : Heap → Heap → Prop where
  | refl (h : Heap) : Changes h h
  | step {h h' h'' : Heap} (hs : Changes h h') (hc : h'.Change h'') : Changes h h''

theorem Change.grows {h h' : Heap} (hc : h.Change h') : Grows h h' := by
  cases hc with
  | text chars => exact grows_intern h chars
  | function f => exact grows_allocate h fun _ => nofun

namespace Changes

variable {h h' h'' : Heap}

theorem text (h : Heap) (chars : String) : Changes h (h.intern chars).1 := .step (.refl h) (.text chars)

theorem function (h : Heap) (f : FunctionObject) : Changes h (h.allocate (.function f)).1 :=
  .step (.refl h) (.function f)

theorem trans (hs : Changes h h') (hs' : Changes h' h'') : Changes h h'' := by
  induction hs' with
  | refl => exact hs
  | step _ hc ih => exact .step ih hc

/-- What every change keeps, any number of changes keeps. -/
theorem keeps {P : Heap → Prop} (hchange : ∀ {h h' : Heap}, h.Change h' → P h → P h') (hs : Changes h h') (hp : P h) :
    P h' := by
  induction hs with
  | refl => exact hp
  | step _ hc ih => exact hchange hc ih

theorem grows (hs : Changes h h') : Grows h h' := hs.keeps (P := h.Grows) (fun hc hg => hg.trans hc.grows) (.refl h)

end Changes

/-- The functions of the host on a heap were there before. -/
def SameHost (h h' : Heap) : Prop := ∀ k n, h'.native? k = some n → h.native? k = some n

namespace SameHost

theorem refl (h : Heap) : h.SameHost h := fun _ _ => id

theorem trans {h₁ h₂ h₃ : Heap} (h : h₁.SameHost h₂) (h' : h₂.SameHost h₃) : h₁.SameHost h₃ :=
  fun k n hn => h k n (h' k n hn)

theorem allocate (h : Heap) {o : Object} (hno : ∀ n, o ≠ .native n) : h.SameHost (h.allocate o).1 := by
  intro k n hn
  rw [native?_eq_some_iff, get?_allocate] at hn
  split at hn
  · exact absurd (Option.some.inj hn) (hno n)
  · exact native?_eq_some_iff.mpr hn

theorem intern (h : Heap) (chars : String) : h.SameHost (h.intern chars).1 := by
  intro k n hn
  rw [native?_eq_some_iff] at hn ⊢
  exact (get?_of_intern hn).resolve_right fun ⟨_, hs⟩ => nomatch hs

end SameHost

theorem Changes.sameHost {h h' : Heap} (hs : h.Changes h') : h.SameHost h' := by
  refine hs.keeps (P := h.SameHost) (fun hc hh => hh.trans ?_) (.refl h)
  cases hc with
  | text chars => exact .intern _ chars
  | function f => exact .allocate _ fun _ => nofun

end Heap

namespace CompileState

/-- What does not depend on the tokens, and is kept by a complaint, is kept while the next token is looked for. -/
theorem pull_keeps {P : CompileState → Prop}
    (htokens : ∀ {s : CompileState} current rest journal, P s → P { s with current, rest, journal })
    (hcomplain : ∀ {s : CompileState} token complaint, P s → P (s.complainAt token complaint))
    (tokens : List Token) {s : CompileState} (h : P s) : P (pull tokens s) := by
  fun_induction pull tokens s with
  | case1 s => exact htokens .start [] s.journal h
  | case2 last s => exact htokens last [last] s.journal h
  | case3 token next rest s t hkind ih => exact ih (hcomplain _ _ (htokens s.current s.rest t.journal h))
  | case4 token next rest s t hkind => exact htokens (s := s) token (next :: rest) t.journal h

theorem heap_complainAt (token : Token) (complaint : Complaint) (s : CompileState) :
    (s.complainAt token complaint).heap = s.heap := by
  unfold complainAt
  split <;> rfl

theorem pull_heap (tokens : List Token) (s : CompileState) : (pull tokens s).heap = s.heap :=
  pull_keeps (P := fun t => t.heap = s.heap) (fun _ _ _ h => h)
    (fun _ _ h => (heap_complainAt _ _ _).trans h) tokens rfl

theorem heap_listCode (chunk : Chunk) (title : String) (s : CompileState) :
    (s.listCode chunk title).heap = s.heap := by
  unfold listCode
  split <;> rfl

theorem heap_closeFunction (s : CompileState) :
    s.closeFunction.2.heap = (s.heap.allocate (.function
      { arity := s.body.arity, chunk := s.body.chunk, name := s.body.name })).1 := by
  unfold closeFunction allocateFunction record
  cases s.enclosing <;> simp only <;> split <;> simp only [heap_listCode]

theorem Move.changes {s t : CompileState} (m : s.Move t) : s.heap.Changes t.heap := by
  cases m with
  | advance =>
      rw [CompileState.advance, pull_heap]
      exact .refl _
  | complain token complaint =>
      rw [heap_complainAt]
      exact .refl _
  | calm | code | scope | parameter | number | opened => exact .refl _
  | text chars | literal chars =>
      show s.heap.Changes (s.intern chars).2.heap
      rw [(heap_intern chars s).1]
      exact .text s.heap chars
  | closed =>
      show s.heap.Changes s.closeFunction.2.heap
      rw [heap_closeFunction]
      exact .function s.heap _

theorem Moves.changes {s t : CompileState} (h : Moves s t) : s.heap.Changes t.heap :=
  h.keeps (P := fun u => s.heap.Changes u.heap) (fun m hs => hs.trans m.changes) (.refl _)

theorem Moves.grows {s t : CompileState} (h : Moves s t) : s.heap.Grows t.heap := h.changes.grows

theorem changes_finish (s : CompileState) : s.heap.Changes s.finish.heap := by
  unfold finish
  split
  · simp only [allocateFunction, heap_listCode]
    exact .function s.heap _
  · exact .refl _

end CompileState

/-- A compilation is a run of the rules from the tokens of the source, and the end of the script. -/
theorem toOption_eq_some {ε α : Type} {answer : Except ε α} {a : α} : answer.toOption = some a ↔ answer = .ok a := by
  cases answer <;> simp [Except.toOption]

theorem compile_eq_ok {source : String} {heap : Heap} {printCode : Bool} {journal : Journal}
    {c : Compilation} (h : compile source heap printCode journal = .ok c) :
    ∃ s : CompileState, (do
        Compiler.advance
        Compiler.program (compileBudget (tokenize source).length)
        Compiler.emitReturn : Compiler Unit).run { rest := tokenize source, heap, printCode, journal } =
      .ok () s ∧ c = s.finish := by
  unfold compile at h
  simp only at h
  split at h
  · next c' t hrun =>
      cases h
      unfold Compiler.script at hrun
      obtain ⟨_, s₁, h₁, hrun⟩ := Compiler.run_bind_eq_ok.mp hrun
      obtain ⟨_, s₂, h₂, hrun⟩ := Compiler.run_bind_eq_ok.mp hrun
      obtain ⟨_, s₃, h₃, hrun⟩ := Compiler.run_bind_eq_ok.mp hrun
      cases hrun
      refine ⟨t, ?_, rfl⟩
      exact Compiler.run_bind_eq_ok.mpr ⟨_, _, h₁, Compiler.run_bind_eq_ok.mpr ⟨_, _, h₂, h₃⟩⟩
  · cases h

/-- Compiling a source only adds to the heap, whether the source is accepted or not. -/
theorem changes_compile {source : String} {heap : Heap} {printCode : Bool} {journal : Journal}
    {c : Compilation} (h : compile source heap printCode journal = .ok c) : heap.Changes c.heap := by
  obtain ⟨s, hrun, rfl⟩ := compile_eq_ok h
  exact (Compiler.byMoves_read _ _ _ _ hrun).changes.trans s.changes_finish

theorem grows_compile {source : String} {heap : Heap} {printCode : Bool} {journal : Journal}
    {c : Compilation} (h : compile source heap printCode journal = .ok c) : heap.Grows c.heap :=
    (changes_compile h).grows

namespace Machine

theorem Move.changes {m m' : Machine} (h : m.Move m') : m.heap.Changes m'.heap := by
  cases h with
  | own m' hheap hglobals =>
      rw [hheap]
      exact .refl _
  | text chars => exact .text m.heap chars
  | define | drop => exact .refl _

theorem Moves.changes {m m' : Machine} (h : Moves m m') : m.heap.Changes m'.heap :=
  h.keeps (P := fun u => m.heap.Changes u.heap) (fun hm hs => hs.trans hm.changes) (.refl _)

theorem Moves.grows {m m' : Machine} (h : Moves m m') : m.heap.Grows m'.heap := h.changes.grows

/-- An instruction lets the heap grow, whatever code it belongs to. -/
theorem grows_step (m : Machine) : m.heap.Grows (Execution.after Execution.step m).heap :=
  (Execution.byMoves_step m).grows

/-- A function of the host becomes the value of the global variable with its name. -/
theorem defineNative_turn {m : Machine} (hi : m.heap.Interned) (n : NativeObject) : ∃ journal, m.defineNative n =
    { m with
      heap := ((m.heap.intern n.name).1.allocate (.native n)).1
      globals := (m.globals.set ⟨(m.heap.intern n.name).2, Text.hash n.name⟩
        (.object ⟨(m.heap.intern n.name).1.cells.size⟩)).1
      journal } := by
  obtain ⟨journal, hintern⟩ := m.intern_turn n.name
  have hkey : ((m.heap.intern n.name).1.allocate (.native n)).1.key? (m.heap.intern n.name).2 =
      some ⟨(m.heap.intern n.name).2, Text.hash n.name⟩ :=
    Heap.key?_eq_some_iff.mpr ⟨_, (Heap.extends_allocate _ _).string? (hi.intern n.name).2.2, rfl⟩
  unfold defineNative
  simp only [hintern, allocate, hkey]
  exact ⟨_, rfl⟩

theorem grows_defineNative (m : Machine) (n : NativeObject) : m.heap.Grows (m.defineNative n).heap := by
  have hg : m.heap.Grows ((m.intern n.name).2.allocate (.native n)).2.heap :=
    (moves_intern m n.name).grows.trans (Heap.grows_allocate _ fun _ => nofun)
  unfold defineNative
  simp only
  split <;> exact hg

/-- The functions of the host are those of before and the new one. -/
theorem native?_defineNative {m : Machine} {n n' : NativeObject} {k : Handle} (hi : m.heap.Interned)
    (h : (m.defineNative n).heap.native? k = some n') : n' = n ∨ m.heap.native? k = some n' := by
  obtain ⟨journal, heq⟩ := defineNative_turn hi n
  rw [heq] at h
  have hget := Heap.native?_eq_some_iff.mp h
  rw [Heap.get?_allocate] at hget
  split at hget
  · cases hget
    exact .inl rfl
  · exact .inr (Heap.SameHost.intern m.heap n.name k n' (Heap.native?_eq_some_iff.mpr hget))

end Machine

namespace Heap

/-- The heaps that come about when texts are interned, functions are made, sources are compiled,
instructions are executed and everything is freed, in any order. -/
inductive Reached : Heap → Prop where
  | new (header : Header) : Reached (new header)
  | intern {h : Heap} (hr : Reached h) (chars : String) : Reached (h.intern chars).1
  | function {h : Heap} (hr : Reached h) (f : FunctionObject) : Reached (h.allocate (.function f)).1
  | native {h : Heap} (hr : Reached h) (n : NativeObject) : Reached (h.allocate (.native n)).1
  | compile {h : Heap} (hr : Reached h) {source : String} {printCode : Bool} {journal : Journal}
      {c : Compilation} (hc : compile source h printCode journal = .ok c) : Reached c.heap
  | step {m : Machine} (hr : Reached m.heap) : Reached (Execution.after Execution.step m).heap
  | free {h : Heap} (hr : Reached h) : Reached h.free.1

theorem Reached.interned {h : Heap} (hr : Reached h) : Interned h := by
  induction hr with
  | new header => exact interned_new header
  | intern hr chars ih => exact (grows_intern _ chars).interned ih
  | function hr f ih => exact ih.allocate_other fun _ => nofun
  | native hr n ih => exact ih.allocate_other fun _ => nofun
  | compile hr hc ih => exact (grows_compile hc).interned ih
  | step hr ih => exact (Machine.grows_step _).interned ih
  | free hr ih => exact interned_free _

/-- The handles of the keys of the string table are those of the live strings. -/
theorem Interned.live_strings {h : Heap} (hi : Interned h) :
    {handle | (h.string? handle).isSome} = (h.strings.toList.map fun entry => entry.1.handle).toFinset := by
  ext handle
  simp only [Set.mem_ofPred_eq, List.coe_toFinset, List.mem_map, Prod.exists, Option.isSome_iff_exists]
  constructor
  · rintro ⟨s, hs⟩
    obtain ⟨v, hv⟩ := (hi.keys ⟨handle, s.hash⟩).mpr (key?_eq_some_iff.mpr ⟨s, hs, rfl⟩)
    exact ⟨_, v, Table.Valid.mem_toList.mpr hv, rfl⟩
  · rintro ⟨key, v, hkv, rfl⟩
    obtain ⟨s, hs, -⟩ := key?_eq_some_iff.mp ((hi.keys key).mp ⟨v, Table.Valid.mem_toList.mp hkv⟩)
    exact ⟨s, hs⟩

theorem Interned.internedCount_eq {h : Heap} (hi : Interned h) :
    h.internedCount = {handle | (h.string? handle).isSome}.ncard := by
  rw [hi.live_strings, Set.ncard_coe_finset, List.toFinset_card_of_nodup hi.table.nodup_toList,
    List.length_map, hi.table.length_toList, internedCount]

/-- **Interning.** In every heap that can come about, no two live strings have the same characters, the
string table finds each of them by its characters, interning a text allocates one object exactly if no
live string has that text, the table counts the live strings, and two strings are equal values exactly if
their characters are. As long as there are no more objects than handles can name, it is enough to compare
the 32 bits of the handles. -/
theorem Reached.interning {h : Heap} (hr : Reached h) :
    (∀ a b s t, h.string? a = some s → h.string? b = some t → s.chars = t.chars → a = b) ∧
      (∀ handle s, h.string? handle = some s →
        s.hash = Text.hash s.chars ∧ ∃ v, (⟨handle, s.hash⟩, v) ∈ h.strings.toList) ∧
      (∀ chars handle, h.interned? chars = some handle ↔
        ∃ s, h.string? handle = some s ∧ s.chars = chars) ∧
      (∀ chars handle, h.interned? chars = some handle → h.intern chars = (h, handle)) ∧
      (∀ chars, h.interned? chars = none →
        (h.intern chars).2 = ⟨h.cells.size⟩ ∧
        (h.intern chars).1.cells =
          h.cells.push ⟨.string { chars, hash := Text.hash chars }, h.newest⟩ ∧
        (h.intern chars).1.live = h.live + 1) ∧
      h.internedCount = {handle | (h.string? handle).isSome}.ncard ∧
      (∀ a b s t, h.string? a = some s → h.string? b = some t →
        ((Value.object a).equal (.object b) = true ↔ s.chars = t.chars)) ∧
      (h.cells.size ≤ Handle.limit → ∀ a b s t, h.string? a = some s → h.string? b = some t →
        (a.word = b.word ↔ s.chars = t.chars)) := by
  have hi := hr.interned
  refine ⟨fun a b s t => hi.unique, ?_, hi.interned?_eq_some_iff, fun _ _ => intern_of_interned?, ?_,
    hi.internedCount_eq, fun a b s t => hi.equal_iff, fun hlimit a b s t hs ht => ?_⟩
  · intro handle s hs
    obtain ⟨v, hv⟩ := (hi.keys ⟨handle, s.hash⟩).mpr (key?_eq_some_iff.mpr ⟨s, hs, rfl⟩)
    exact ⟨hi.hash_eq hs, v, Table.Valid.mem_toList.mpr hv⟩
  · intro chars hnew
    rw [intern_of_new hnew]
    exact ⟨rfl, rfl, rfl⟩
  · rw [← hi.equal_iff hs ht, Value.equal, beq_iff_eq]
    exact word_inj hlimit (string?_eq_some_iff.mp hs) (string?_eq_some_iff.mp ht)

/-- A heap that was freed finds what was interned since. -/
theorem interning_after_free :
    ((empty.intern "a").1.free.1.intern "b").1.Reached ∧
      ∀ chars handle, ((empty.intern "a").1.free.1.intern "b").1.interned? chars = some handle ↔
        ∃ s, ((empty.intern "a").1.free.1.intern "b").1.string? handle = some s ∧ s.chars = chars := by
  have hr : ((empty.intern "a").1.free.1.intern "b").1.Reached := .intern (.free (.intern (.new _) "a")) "b"
  exact ⟨hr, (Reached.interning hr).2.2.1⟩

end Heap

namespace Machine

/-- The machines that a host can have: it creates one, adds functions of its own, compiles sources,
executes instructions, changes what belongs to a run, and frees everything, in any order. -/
inductive Reached : Machine → Prop where
  | create (limits : Limits) (printCode : Bool) (clock : Clock) (journal : Journal) :
      Reached (create limits printCode clock journal)
  | native {m : Machine} (hr : Reached m) (n : NativeObject) : Reached (m.defineNative n)
  | text {m : Machine} (hr : Reached m) (chars : String) : Reached (m.intern chars).2
  | function {m : Machine} (hr : Reached m) (f : FunctionObject) : Reached (m.allocate (.function f)).2
  | compile {m m' : Machine} (hr : Reached m) {source : String} {result : Except CompileError Handle}
      (hc : m.compile source = .ok (result, m')) : Reached m'
  | step {m : Machine} (hr : Reached m) : Reached (Execution.after Execution.step m)
  | own {m : Machine} (hr : Reached m) (m' : Machine) (hheap : m'.heap = m.heap)
      (hglobals : m'.globals = m.globals) : Reached m'
  | free {m : Machine} (hr : Reached m) : Reached m.free.2

/-- The shared parts of a machine are in order: the heap is interned, and the globals are a valid table
whose keys are those of live strings. -/
structure Sound (m : Machine) : Prop where
  heap : m.heap.Interned
  globals : m.globals.Valid
  keys : ∀ key v, Table.Holds m.globals.slots key v → m.heap.key? key.handle = some key

namespace Sound

variable {m : Machine} (hm : m.Sound)

include hm

theorem agrees {handle : Handle} {key : Key} (hk : m.heap.key? handle = some key) :
    Table.Agrees m.globals.slots key := by
  intro k v hv heq
  have hkey := hm.keys k v hv
  rw [heq, Heap.key?_handle hk, hk] at hkey
  exact (Option.some.inj hkey).symm

/-- A heap that grew, with the same globals. -/
theorem grow {m' : Machine} (hg : m.heap.Grows m'.heap) (hglobals : m'.globals = m.globals) :
    m'.Sound := by
  refine ⟨hg.interned hm.heap, hglobals ▸ hm.globals, fun key v hv => ?_⟩
  rw [hglobals] at hv
  obtain ⟨s, hs, hkey⟩ := Heap.key?_eq_some_iff.mp (hm.keys key v hv)
  exact Heap.key?_eq_some_iff.mpr ⟨s, hg.keeps.string? hs, hkey⟩

theorem define {key : Key} (hk : m.heap.key? key.handle = some key) (value : Value) :
    Sound { m with globals := (m.globals.set key value).1 } := by
  obtain ⟨hvalid, hstored, -⟩ := hm.globals.set_spec (hm.agrees hk) value
  refine ⟨hm.heap, hvalid, fun k v hv => ?_⟩
  rcases (hstored k v).mp hv with ⟨rfl, -⟩ | ⟨-, hold⟩
  · exact hk
  · exact hm.keys k v hold

theorem drop {key : Key} (hk : m.heap.key? key.handle = some key) :
    Sound { m with globals := (m.globals.erase key).1 } := by
  obtain ⟨hvalid, hholds, -⟩ := hm.globals.erase_spec (hm.agrees hk)
  exact ⟨hm.heap, hvalid, fun k v hv => hm.keys k v ((hholds k v).mp hv).2⟩

theorem move {m' : Machine} (h : m.Move m') : m'.Sound := by
  cases h with
  | own m' hheap hglobals => exact hm.grow (hheap ▸ .refl _) hglobals
  | text chars => exact hm.grow (Heap.grows_intern _ _) rfl
  | define key value h => exact hm.define h value
  | drop key h => exact hm.drop h

theorem moves {m' : Machine} (h : Moves m m') : m'.Sound := h.keeps (fun hm hs => hs.move hm) hm

theorem defineNative (n : NativeObject) : (m.defineNative n).Sound := by
  have hn := hm.moves (moves_intern m n.name)
  have ha : ((m.intern n.name).2.allocate (.native n)).2.Sound :=
    hn.grow (Heap.grows_allocate _ fun _ => nofun) rfl
  unfold Machine.defineNative
  simp only
  split
  · next key hkey =>
      rw [← Heap.key?_handle hkey] at hkey
      exact ha.define hkey _
  · exact ha

end Sound

theorem compile_eq_ok {m m' : Machine} {source : String} {result : Except CompileError Handle}
    (h : m.compile source = .ok (result, m')) :
    ∃ c, Lox.compile source m.heap m.printCode m.journal = .ok c ∧ result = c.result ∧
      ∃ status, m' = { m with heap := c.heap, journal := c.journal, status } := by
  unfold Machine.compile at h
  simp only at h
  split at h
  · cases h
  · next c hc =>
      cases h
      exact ⟨c, hc, rfl, _, rfl⟩

/-- Compiling lets the heap grow and leaves alone what a program can see. -/
theorem compile_frame {m m' : Machine} {source : String} {result : Except CompileError Handle}
    (h : m.compile source = .ok (result, m')) :
    m.heap.Grows m'.heap ∧ m'.globals = m.globals ∧ m'.output = m.output ∧ m'.clock = m.clock := by
  obtain ⟨c, hc, -, status, rfl⟩ := compile_eq_ok h
  exact ⟨grows_compile hc, rfl, rfl, rfl⟩

theorem sound_new (limits : Limits) (printCode : Bool) (clock : Clock) (journal : Journal) :
    Sound { limits, printCode, clock, journal } :=
  ⟨Heap.interned_empty, Table.valid_empty, fun key v hv => by
    obtain ⟨i, hi⟩ := hv
    simp [Table.empty] at hi⟩

theorem sound_free (m : Machine) : m.free.2.Sound := by
  refine ⟨Heap.interned_free _, Table.valid_empty, fun key v hv => ?_⟩
  obtain ⟨i, hi⟩ := hv
  simp [Machine.free, Table.clear, Table.empty] at hi

/-- The shared parts of every machine that a host can have are in order. -/
theorem Reached.sound {m : Machine} (hr : m.Reached) : m.Sound := by
  induction hr with
  | create limits printCode clock journal => exact (sound_new ..).defineNative _
  | native hr n ih => exact ih.defineNative n
  | text hr chars ih => exact ih.moves (moves_intern _ chars)
  | function hr f ih => exact ih.grow (Heap.grows_allocate _ fun _ => nofun) rfl
  | compile hr hc ih =>
      obtain ⟨c, hrun, -, status, rfl⟩ := compile_eq_ok hc
      exact ih.grow (grows_compile hrun) rfl
  | step hr ih => exact ih.moves (Execution.byMoves_step _)
  | own hr m' hheap hglobals ih => exact ih.grow (hheap ▸ .refl _) hglobals
  | free hr ih => exact sound_free _

end Machine

end Lox
