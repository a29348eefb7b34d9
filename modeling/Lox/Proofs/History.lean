import Lox.Proofs.Compile.Accepted
import Lox.Proofs.Machine.Globals
import Lox.Proofs.Machine.View

/-! What a machine has lived through. A host may put any function on a heap, and a source that is rejected may
leave functions behind; the functions that an accepted source makes are kept apart from those. For each of them
there is a tree that it is the code of. -/

namespace Lox

namespace Machine

/-- The machines that a host can have, with the handles that accepted sources have made since the objects were
last freed. -/
inductive Lived : (Handle → Prop) → Machine → Prop where
  | create (limits : Limits) (printCode : Bool) (clock : Clock) (journal : Journal) :
      Lived (fun _ => False) (create limits printCode clock journal)
  | native {made : Handle → Prop} {m : Machine} (h : Lived made m) (n : NativeObject) : Lived made (m.defineNative n)
  | text {made : Handle → Prop} {m : Machine} (h : Lived made m) (chars : String) : Lived made (m.intern chars).2
  | function {made : Handle → Prop} {m : Machine} (h : Lived made m) (f : FunctionObject) :
      Lived made (m.allocate (.function f)).2
  | accepted {made : Handle → Prop} {m m' : Machine} (h : Lived made m) {source : String} {script : Handle}
      (hc : m.compile source = .ok (.ok script, m')) :
      Lived (fun k => made k ∨ m.heap.cells.size ≤ k.index ∧ k.index < m'.heap.cells.size) m'
  | rejected {made : Handle → Prop} {m m' : Machine} (h : Lived made m) {source : String} {e : CompileError}
      (hc : m.compile source = .ok (.error e, m')) : Lived made m'
  | step {made : Handle → Prop} {m : Machine} (h : Lived made m) : Lived made (Execution.after Execution.step m)
  | own {made : Handle → Prop} {m : Machine} (h : Lived made m) (m' : Machine) (hheap : m'.heap = m.heap)
      (hglobals : m'.globals = m.globals) : Lived made m'
  | free {made : Handle → Prop} {m : Machine} (h : Lived made m) : Lived (fun _ => False) m.free.2

theorem Lived.reached {made : Handle → Prop} {m : Machine} (h : m.Lived made) : m.Reached := by
  induction h with
  | create limits printCode clock journal => exact .create ..
  | native _ n ih => exact .native ih n
  | text _ chars ih => exact .text ih chars
  | function _ f ih => exact .function ih f
  | accepted _ hc ih => exact .compile ih hc
  | rejected _ hc ih => exact .compile ih hc
  | step _ ih => exact .step ih
  | own _ m' hheap hglobals ih => exact .own ih m' hheap hglobals
  | free _ ih => exact .free ih

end Machine

/-- The value is no object, or a string, or a function of the host, or a function that an accepted source made. -/
def Value.Known (heap : Heap) (made : Handle → Prop) : Value → Prop
  | .object k => ∃ o, heap.get? k = some o ∧ ∀ f, o = .function f → made k
  | _ => True

theorem Value.Known.mono {heap heap' : Heap} {made : Handle → Prop} {v : Value} (h : v.Known heap made)
    (hh : heap.Extends heap') : v.Known heap' made := by
  cases v with
  | object k =>
      obtain ⟨o, ho, hf⟩ := h
      exact ⟨o, hh k o ho, hf⟩
  | nil | bool | number => trivial

/-- A value that is known stands for something. -/
theorem Value.Known.view {L : Library} {heap : Heap} {made : Handle → Prop} {v : Value} (hv : v.Known heap made)
    (hcovers : ∀ k f, made k → heap.function? k = some f → ∃ r, L.routine k = some r)
    (hhosts : ∀ k n, heap.native? k = some n → ∃ g, L.host k = some g) : ∃ d, L.view heap v = some d := by
  cases v with
  | nil => exact ⟨.nil, rfl⟩
  | bool truth => exact ⟨.bool truth, rfl⟩
  | number x => exact ⟨.number x, rfl⟩
  | object k =>
      obtain ⟨o, ho, hmade⟩ := hv
      cases o with
      | string s => exact ⟨_, Library.view_text (Heap.string?_eq_some_iff.mpr ho)⟩
      | function f =>
          obtain ⟨r, hr⟩ := hcovers k f (hmade f rfl) (Heap.function?_eq_some_iff.mpr ho)
          exact ⟨.function k r, by rw [Library.view, ho, hr]; rfl⟩
      | native n =>
          obtain ⟨g, hg⟩ := hhosts k n (Heap.native?_eq_some_iff.mpr ho)
          exact ⟨.native k, by rw [Library.view, ho, hg]; rfl⟩

/-- The global variables of a machine hold only what is known. -/
def Machine.KnownGlobals (m : Machine) (made : Handle → Prop) : Prop :=
  ∀ name v, m.global? name = some v → v.Known m.heap made

/-- A function that the host adds is known. -/
theorem Machine.KnownGlobals.defineNative {m : Machine} {made : Handle → Prop} (h : m.KnownGlobals made) (hm : m.Sound)
    (n : NativeObject) : (m.defineNative n).KnownGlobals made := by
  have hintern := hm.moves (moves_intern m n.name)
  have hs : ((m.intern n.name).2.allocate (.native n)).2.Sound :=
    hintern.grow (Heap.grows_allocate _ fun _ => nofun) rfl
  have hg : m.heap.Grows ((m.intern n.name).2.allocate (.native n)).2.heap :=
    (moves_intern m n.name).grows.trans (Heap.grows_allocate _ fun _ => nofun)
  have hold : ((m.intern n.name).2.allocate (.native n)).2.KnownGlobals made := by
    intro name v hv
    rw [hm.global?_grow hg (globals_intern m n.name)] at hv
    exact (h name v hv).mono hg.keeps
  unfold Machine.defineNative
  simp only
  split
  · next key hkey =>
      intro name v hv
      rw [← Heap.key?_handle hkey] at hkey
      obtain ⟨s, hstring, -⟩ := Heap.key?_eq_some_iff.mp hkey
      rw [hs.global?_define hstring rfl hkey] at hv
      split at hv
      · cases hv
        exact ⟨_, Heap.get?_allocate_self _ _, nofun⟩
      · exact hold name v hv
  · exact hold

/-! ### The functions of a tree -/

mutual

/-- What a function of a statement declares is a function of the statement. -/
theorem Stmt.functions_subset {k : Handle} {r : Routine} : (s : Stmt) → (k, r) ∈ s.functions →
    r.body.functions ⊆ s.functions
  | .expression _, h | .print _, h | .ret _, h | .var _ _, h => nomatch h
  | .cond _ yes no, h => by
      rw [Stmt.functions] at h ⊢
      rcases List.mem_append.mp h with h | h
      · exact List.subset_append_of_subset_left _ (yes.functions_subset h)
      · exact List.subset_append_of_subset_right _ (no.functions_subset h)
  | .loop _ _ body, h => body.functions_subset h
  | .block body, h => body.functions_subset h
  | .function label name params body, h => by
      rw [Stmt.functions] at h ⊢
      rcases List.mem_append.mp h with h | h
      · exact List.subset_append_of_subset_left _ (body.functions_subset h)
      · cases List.mem_singleton.mp h
        exact List.subset_append_left _ _

theorem Block.functions_subset {k : Handle} {r : Routine} : (b : Block) → (k, r) ∈ b.functions →
    r.body.functions ⊆ b.functions
  | .nil, h => nomatch h
  | .cons first rest, h => by
      rw [Block.functions] at h ⊢
      rcases List.mem_append.mp h with h | h
      · exact List.subset_append_of_subset_left _ (first.functions_subset h)
      · exact List.subset_append_of_subset_right _ (rest.functions_subset h)

end

/-- All functions of a source: those that it declares, and the script. -/
def Block.routines (p : Block) (script : Handle) : List (Handle × Routine) := p.functions ++ [(script, ⟨none, [], p⟩)]

theorem Block.routines_closed {p : Block} {script k : Handle} {r : Routine} (h : (k, r) ∈ p.routines script) :
    r.body.functions ⊆ p.routines script := by
  rcases List.mem_append.mp h with h | h
  · exact List.subset_append_of_subset_left _ (p.functions_subset h)
  · cases List.mem_singleton.mp h
    exact List.subset_append_left _ _

/-! ### A tree for each function -/

/-- The function of a handle is one of an accepted source, and the routine is its part of the source's tree. -/
def FromSource (heap : Heap) (k : Handle) (r : Routine) : Prop :=
  ∃ source before printCode journal c script p, compile source before printCode journal = .ok c ∧
    c.result = .ok script ∧
    c.heap.Extends heap ∧ Block.ReadsAll (tokenize source) p ∧ (k, r) ∈ p.routines script

theorem FromSource.grow {heap heap' : Heap} {k : Handle} {r : Routine} (h : FromSource heap k r)
    (hh : heap.Extends heap') : FromSource heap' k r := by
  obtain ⟨source, before, printCode, journal, c, script, p, hc, hres, hext, hp⟩ := h
  exact ⟨source, before, printCode, journal, c, script, p, hc, hres, hext.trans hh, hp⟩

/-- The routines of all functions that accepted sources made. -/
structure Collects (heap : Heap) (made : Handle → Prop) (routine : Handle → Option Routine) : Prop where
  coded : ∀ k r, routine k = some r → ∃ f code, Coded heap k r f code
  closed : ∀ k r, routine k = some r → ∀ entry ∈ r.body.functions, routine entry.1 = some entry.2
  sourced : ∀ k r, routine k = some r → FromSource heap k r
  old : ∀ k, made k → k.index < heap.cells.size
  covers : ∀ k f, made k → heap.function? k = some f → ∃ r, routine k = some r

theorem lookup_eq_some_iff_mem {fs : List (Handle × Routine)} (hn : (fs.map (·.1)).Nodup) {k : Handle} {r : Routine} :
    fs.lookup k = some r ↔ (k, r) ∈ fs := by
  induction fs with
  | nil => simp
  | cons first rest ih =>
      obtain ⟨l, q⟩ := first
      rw [List.map_cons, List.nodup_cons] at hn
      rw [List.lookup_cons, List.mem_cons, ← ih hn.2]
      by_cases hk : k = l
      · subst hk
        have hnone : rest.lookup k ≠ some r := by
          intro hsome
          exact hn.1 (List.mem_map.mpr ⟨(k, r), (ih hn.2).mp hsome, rfl⟩)
        simp [hnone, eq_comm]
      · simp [beq_false_of_ne hk, hk]

/-- The routines of functions that are made, besides those of functions that were there. -/
def addRoutines (fs : List (Handle × Routine)) (routine : Handle → Option Routine) : Handle → Option Routine :=
  fun k => (fs.lookup k).or (routine k)

section AddRoutines

variable {heap heap' : Heap} {fs : List (Handle × Routine)} {routine : Handle → Option Routine}
  {k : Handle} {r : Routine}

theorem addRoutines_new (hm : heap.Makes heap' fs) (hr : (k, r) ∈ fs) : addRoutines fs routine k = some r := by
  rw [addRoutines, (lookup_eq_some_iff_mem hm.nodup).mpr hr]
  rfl

theorem addRoutines_old (hm : heap.Makes heap' fs) (hk : k.index < heap.cells.size) :
    addRoutines fs routine k = routine k := by
  have hlook : fs.lookup k = none := by
    rw [Option.eq_none_iff_forall_ne_some]
    intro r hr
    have := (hm.fresh _ _ ((lookup_eq_some_iff_mem hm.nodup).mp hr)).1
    omega
  rw [addRoutines, hlook, Option.none_or]

theorem addRoutines_cases (hm : heap.Makes heap' fs) (hr : addRoutines fs routine k = some r) :
    (k, r) ∈ fs ∨ routine k = some r := by
  rcases Option.or_eq_some_iff.mp hr with hr | hr
  · exact .inl ((lookup_eq_some_iff_mem hm.nodup).mp hr)
  · exact .inr hr.2

end AddRoutines

namespace Collects

variable {heap heap' : Heap} {made : Handle → Prop} {routine : Handle → Option Routine}

theorem empty (heap : Heap) : Collects heap (fun _ => False) fun _ => none :=
  ⟨nofun, nofun, nofun, nofun, nofun⟩

theorem grow (h : Collects heap made routine) (hg : heap.Grows heap') : Collects heap' made routine where
  coded k r hr := by
    obtain ⟨f, code, hc⟩ := h.coded k r hr
    exact ⟨f, code, hc.grow hg.keeps⟩
  closed := h.closed
  sourced k r hr := (h.sourced k r hr).grow hg.keeps
  old k hk := Nat.lt_of_lt_of_le (h.old k hk) hg.size_le
  covers k f hk hf := by
    -- the function was there before
    obtain ⟨o, ho⟩ := Heap.exists_get? (h.old k hk)
    have hobject := hg.keeps _ _ ho
    rw [Heap.function?_eq_some_iff.mp hf] at hobject
    exact h.covers k f hk (Heap.function?_eq_some_iff.mpr (hobject ▸ ho))

/-- The functions that an accepted source makes are added. -/
theorem accept (h : Collects heap made routine) {fs : List (Handle × Routine)} (hm : heap.Makes heap' fs)
    (hclosed : ∀ k r, (k, r) ∈ fs → r.body.functions ⊆ fs) (hsourced : ∀ k r, (k, r) ∈ fs → FromSource heap' k r) :
    Collects heap' (fun k => made k ∨ heap.cells.size ≤ k.index ∧ k.index < heap'.cells.size)
      (addRoutines fs routine) := by
  have hg := h.grow hm.grows
  refine ⟨?_, ?_, ?_, ?_, ?_⟩
  · intro k r hr
    rcases addRoutines_cases hm hr with hr | hr
    · exact hm.coded k r hr
    · exact hg.coded k r hr
  · intro k r hr entry hentry
    rcases addRoutines_cases hm hr with hr | hr
    · exact addRoutines_new hm (hclosed k r hr hentry)
    · have hold := h.closed k r hr entry hentry
      obtain ⟨f, code, hc⟩ := h.coded _ _ hold
      exact (addRoutines_old hm (Heap.lt_size_of_get? (Heap.function?_eq_some_iff.mp hc.object))).trans hold
  · intro k r hr
    rcases addRoutines_cases hm hr with hr | hr
    · exact hsourced k r hr
    · exact hg.sourced k r hr
  · rintro k (hk | hk)
    · exact hg.old k hk
    · exact hk.2
  · rintro k f (hk | hk) hf
    · obtain ⟨r, hr⟩ := hg.covers k f hk hf
      cases hl : fs.lookup k with
      | none => exact ⟨r, by rw [addRoutines, hl, hr]; rfl⟩
      | some q => exact ⟨q, by rw [addRoutines, hl]; rfl⟩
    · obtain ⟨r, hr⟩ := hm.made k f hk.1 hf
      exact ⟨r, addRoutines_new hm hr⟩

end Collects

/-- An accepted source has a tree, and each function that compiling it made is the code of its part of the tree. -/
theorem Machine.compile_accepted {m m' : Machine} {source : String} {script : Handle} (hi : m.heap.Interned)
    (hc : m.compile source = .ok (.ok script, m')) :
    ∃ p, Block.ReadsAll (tokenize source) p ∧ m.heap.Makes m'.heap (p.routines script) ∧
      ∀ k r, (k, r) ∈ p.routines script → FromSource m'.heap k r := by
  obtain ⟨c, hrun, hres, status, rfl⟩ := compile_eq_ok hc
  obtain ⟨p, hp, hmakes⟩ := Lox.compile_accepted hrun hres.symm hi
  exact ⟨p, hp, hmakes, fun k r hr => ⟨source, m.heap, _, _, c, script, p, hrun, hres.symm, .refl _, hp, hr⟩⟩

/-- What holds while nothing has been made, lasts while the heap grows, and lasts when a source is accepted, holds of
whatever a machine has lived through. -/
theorem Machine.Lived.heap_induction {made : Handle → Prop} {m : Machine} (h : m.Lived made)
    {motive : (Handle → Prop) → Heap → Prop} (empty : ∀ heap, motive (fun _ => False) heap)
    (grow : ∀ {made : Handle → Prop} {heap heap' : Heap}, motive made heap → heap.Grows heap' → motive made heap')
    (accept : ∀ {made : Handle → Prop} {m m' : Machine} {source : String} {script : Handle}, motive made m.heap →
      m.heap.Interned → m.compile source = .ok (.ok script, m') →
      motive (fun k => made k ∨ m.heap.cells.size ≤ k.index ∧ k.index < m'.heap.cells.size) m'.heap) :
    motive made m.heap := by
  induction h with
  | create limits printCode clock journal => exact empty _
  | native _ n ih => exact grow ih (grows_defineNative _ n)
  | text _ chars ih => exact grow ih (moves_intern _ chars).grows
  | function _ f ih => exact grow ih (Heap.grows_allocate _ fun _ => nofun)
  | accepted h hc ih => exact accept ih h.reached.sound.heap hc
  | rejected _ hc ih =>
      obtain ⟨c, hrun, -, status, rfl⟩ := compile_eq_ok hc
      exact grow ih (grows_compile hrun)
  | step _ ih => exact grow ih (grows_step _)
  | own _ m' hheap hglobals ih => exact hheap ▸ ih
  | free _ ih => exact empty _

/-- Whatever a machine has lived through, there is a tree for each function that an accepted source made. -/
theorem Machine.Lived.collects {made : Handle → Prop} {m : Machine} (h : m.Lived made) :
    ∃ routine, Collects m.heap made routine := by
  refine h.heap_induction (motive := fun made heap => ∃ routine, Collects heap made routine)
    (fun heap => ⟨_, .empty heap⟩) (fun ⟨routine, hr⟩ hg => ⟨routine, hr.grow hg⟩) fun ⟨routine, hr⟩ hi hc => ?_
  obtain ⟨p, -, hmakes, hsourced⟩ := compile_accepted hi hc
  exact ⟨_, hr.accept hmakes (fun _ _ => Block.routines_closed) hsourced⟩

/-! ### A new machine -/

namespace Machine

theorem heap_create (limits : Limits) (printCode : Bool) (clock : Clock) (journal : Journal) :
    (create limits printCode clock journal).heap =
    ((Heap.empty.intern "clock").1.allocate (.native clockNative)).1 := by
  unfold create defineNative
  simp only
  split <;> simp only [Machine.allocate, Machine.intern] <;> split <;> rfl

/-- The only function of the host is the clock. -/
theorem native?_create_iff {limits : Limits} {printCode : Bool} {clock : Clock} {journal : Journal} {k : Handle}
    {n : NativeObject} :
    (create limits printCode clock journal).heap.native? k = some n ↔ k = ⟨1⟩ ∧ n = clockNative := by
  have hname : ∀ o, (Heap.empty.intern "clock").1.get? k = some o → ∀ n, o ≠ .native n := by
    intro o ho n hn
    rw [Heap.intern_of_new (by decide +kernel)] at ho
    have ho : (Heap.empty.allocate (.string { chars := "clock", hash := Text.hash "clock" })).1.get? k = some o := ho
    rw [Heap.get?_allocate] at ho
    split at ho
    · cases ho
      cases hn
    · simp at ho
  have hget : ((Heap.empty.intern "clock").1.allocate (.native clockNative)).1.get? k =
      if k = ⟨1⟩ then some (.native clockNative) else (Heap.empty.intern "clock").1.get? k := Heap.get?_allocate _ _ _
  rw [heap_create, Heap.native?_eq_some_iff, hget]
  split
  · next hk => simp [hk, eq_comm]
  · next hk =>
      simp only [hk, false_and, iff_false]
      exact fun ho => hname _ ho n rfl

theorem knownGlobals_create (limits : Limits) (printCode : Bool) (clock : Clock) (journal : Journal) :
    (create limits printCode clock journal).KnownGlobals fun _ => False := by
  refine KnownGlobals.defineNative ?_ (sound_new ..) _
  intro name v hv
  obtain ⟨key, s, -, -, i, hi⟩ := ((sound_new ..).global?_eq_some_iff name v).mp hv
  simp [Table.empty] at hi

end Machine

end Lox
