import Lox.Proofs.Twins.Endings

/-! A program split over two inputs. Interpreting a source and then, on the same machine, another one comes to the same
as interpreting both at once, if the first one comes to its end. The tree of both at once is that of the first one
followed by that of the second one, so the run of both at once goes side by side first with the run of the one and then
with the run of the other, although their code, their constants and their objects were made at other times. -/

namespace Lox

namespace Machine

open Execution

/-! ### Notions -/

/-- Only the script is active, and what is left of its code is to return nil. -/
def AtEnd (m : Machine) (script : Handle) : Prop :=
  ∃ frame f, m.frames = [frame] ∧ frame.function = script ∧ m.heap.function? script = some f ∧
    frame.ip + 2 = f.chunk.size

/-- The run of a source comes to the end of its code. -/
def ReachesEnd (m : Machine) (source : String) : Prop :=
  ∃ script m₁ m', m.compile source = .ok (.ok script, m₁) ∧ m₁.Visits script m' ∧ m'.AtEnd script

/-- The machines have printed the same, and their global variables have the same names and are shown alike. -/
structure ShowsLike (m m' : Machine) : Prop where
  output : m.output = m'.output
  globals : ∀ name, (m.global? name).map m.display = (m'.global? name).map m'.display

/-- Two interpretations come to the same: both end well and their last values are shown alike, or both end in a runtime
error of the same kind, or neither ends within its budget. -/
inductive SameOutcome :
    Except Fault (Except LoxError Unit × Machine) → Except Fault (Except LoxError Unit × Machine) → Prop where
  | ok {m m' : Machine} (hlast : m.display m.lastValue = m'.display m'.lastValue) (hm : m.ShowsLike m') :
      SameOutcome (.ok (.ok (), m)) (.ok (.ok (), m'))
  | error {e e' : RuntimeError} {m m' : Machine} (hkind : e.kind = e'.kind) (hm : m.ShowsLike m') :
      SameOutcome (.ok (.error (.runtime e), m)) (.ok (.error (.runtime e'), m'))
  | exhausted : SameOutcome (.error .exhausted) (.error .exhausted)

/-! ### Compiled sources -/

/-- A source has been compiled on a machine, and the functions of its tree are there besides what was there. -/
structure Compiles (m : Machine) (routine : Handle → Option Routine) (source : String) (script : Handle) (p : Block)
    (m' : Machine) : Prop where
  compiled : m.compile source = .ok (.ok script, m')
  reads : p.ReadsAll (tokenize source)
  makes : m.heap.Makes m'.heap (p.routines script)
  before : m.Tidy routine
  tidy : m'.Tidy (addRoutines (p.routines script) routine)

variable {m m₁ m₂ m' e e' : Machine} {routine routine' : Handle → Option Routine} {source : String}
  {script script' : Handle} {p q p' q' : Block} {budget : Nat}

theorem Tidy.compiles (h : m.Tidy routine) (hc : m.compile source = .ok (.ok script, m')) :
    ∃ p, m.Compiles routine source script p m' := by
  obtain ⟨p, hreads, hmakes, htidy⟩ := h.accept_makes hc
  exact ⟨p, hc, hreads, hmakes, h, htidy⟩

namespace Compiles

variable (h : m.Compiles routine source script p m')

include h

theorem frame : m'.stack = m.stack ∧ m'.limits = m.limits ∧ m'.clock = m.clock ∧ m'.output = m.output := by
  obtain ⟨c, -, -, status, rfl⟩ := compile_eq_ok h.compiled
  exact ⟨rfl, rfl, rfl, rfl⟩

theorem routine_script : addRoutines (p.routines script) routine script = some ⟨none, [], p⟩ :=
  addRoutines_new h.makes (List.mem_append_right _ (List.mem_singleton_self _))

theorem routine_old {k : Handle} {r : Routine} (hr : routine k = some r) :
    addRoutines (p.routines script) routine k = some r :=
  (addRoutines_old h.makes (h.before.collects.old k ⟨r, hr⟩)).trans hr

theorem routine_new {k : Handle} {r : Routine} (hr : (k, r) ∈ p.functions) :
    addRoutines (p.routines script) routine k = some r :=
  addRoutines_new h.makes (List.mem_append_left _ hr)

theorem global? (name : String) : m'.global? name = m.global? name := by
  obtain ⟨hg, hglobals, -, -⟩ := compile_frame h.compiled
  exact h.before.sound.global?_grow hg hglobals name

/-- The script is none of the functions that go together with others. -/
theorem script_new {F : Handle → Handle → Prop} {heap' : Heap} {fs' : List (Handle × Routine)}
    (hs : Track.Shares F m.heap heap' routine routine') (k' : Handle) : ¬ Track.Added F p.functions fs' script k' := by
  have hscript : (script, (⟨none, [], p⟩ : Routine)) ∈ p.routines script :=
    List.mem_append_right _ (List.mem_singleton_self _)
  rintro (hF | ⟨r, r', hr⟩)
  · have := hs.index_lt (fun a r hr => h.before.collects.old a ⟨r, hr⟩) hF
    have := (h.makes.fresh _ _ hscript).1
    omega
  · have hnodup := h.makes.nodup
    rw [Block.routines, List.map_append, List.nodup_append] at hnodup
    exact hnodup.2.2 script (List.mem_map.mpr ⟨_, (List.of_mem_zip hr).1, rfl⟩) script (List.mem_singleton_self _) rfl

end Compiles

/-- What was there before a source is not made by it. -/
theorem Tidy.kept_lt {k k' : Handle} (h : m.Tidy routine) (hk : Track.Kept m routine k k') :
    k'.index < m.heap.cells.size := by
  obtain ⟨rfl, ⟨r, hr⟩ | ⟨n, hn⟩⟩ := hk
  · exact h.collects.old k ⟨r, hr⟩
  · exact Heap.lt_size_of_get? (Heap.native?_eq_some_iff.mp hn)

namespace Compiles

theorem notMem_of_kept {k k' : Handle} (h : m.Compiles routine source script p m') (hk : Track.Kept m routine k k') :
    k' ∉ p.functions.map (·.1) := by
  intro hmem
  obtain ⟨e, he, rfl⟩ := List.mem_map.mp hmem
  have := (h.makes.fresh _ _ (List.mem_append_left _ he)).1
  have := h.before.kept_lt hk
  omega

theorem functions_nodup (h : m.Compiles routine source script p m') : (p.functions.map (·.1)).Nodup := by
  have hnodup := h.makes.nodup
  rw [Block.routines, List.map_append] at hnodup
  exact hnodup.of_append_left

variable {whole : String}

/-- The functions of a source go together with those of a longer one whose beginning it is. -/
theorem shares (h : m.Compiles routine source script p m₁) (h' : m.Compiles routine whole script' (p'.append q') m')
    (huniform : m.UniformHost) (hp : p.Relabels AnyLabels p') :
    Track.Shares (Track.Added (Track.Kept m routine) p.functions p'.functions) m₁.heap m'.heap
        (addRoutines (p.routines script) routine) (addRoutines ((p'.append q').routines script') routine) ∧
      p.Relabels (Track.Added (Track.Kept m routine) p.functions p'.functions) p' := by
  have hfunctions := functions_append p' q'
  have hnodup := h'.functions_nodup
  rw [hfunctions, List.map_append] at hnodup
  refine ((Track.Shares.kept h.before huniform).mono (.refl _) h'.makes.grows.keeps (fun _ _ => id)
    fun _ _ => h'.routine_old).extend h.makes (fun k r hr => h.before.collects.old k ⟨r, hr⟩) hp (fun e he => ?_)
    hnodup.of_append_left fun k k' hk hmem => ?_
  · exact h'.routine_new (hfunctions ▸ List.mem_append_left _ he)
  · refine h'.notMem_of_kept hk ?_
    rw [hfunctions, List.map_append]
    exact List.mem_append_left _ hmem

/-- What goes together while the beginning of a source runs is not made by the rest of it. -/
theorem apart {fs : List (Handle × Routine)} {k k' : Handle} (h : m.Compiles routine whole script' (p'.append q') m')
    (hk : Track.Added (Track.Kept m routine) fs p'.functions k k') : k' ∉ q'.functions.map (·.1) := by
  have hfunctions := functions_append p' q'
  intro hmem
  rcases hk with hk | ⟨r, r', hr⟩
  · refine h.notMem_of_kept hk ?_
    rw [hfunctions, List.map_append]
    exact List.mem_append_right _ hmem
  · have hnodup := h.functions_nodup
    rw [hfunctions, List.map_append, List.nodup_append] at hnodup
    exact hnodup.2.2 k' (List.mem_map.mpr ⟨_, (List.of_mem_zip hr).2, rfl⟩) k' hmem rfl

end Compiles

/-! ### Scripts that start -/

theorem Goes.within {limits : Limits} {k : Nat} (hg : m.Goes k m') (hm : m.Within limits) : m'.Within limits := by
  induction hg with
  | refl => exact hm
  | step hs _ ih =>
      obtain ⟨m₁, hm₁, ⟨flow, hrun⟩ | ⟨kind, hrun⟩⟩ := (safe_step hm).run
      · rw [hs] at hrun
        cases hrun
        exact ih hm₁
      · rw [hs] at hrun
        cases hrun

/-- A machine on which a script has just started. -/
def Launched (m : Machine) (script : Handle) (n : Machine) : Prop :=
  ∃ status journal, n = Machine.config { m with status, journal, lastValue := .nil } [⟨script, 0, m.stack.size⟩]
    (.object script :: m.stack.toList.reverse)

/-- The run of a script starts on a stage that has its code. -/
structure Starts (S : Stage) (m : Machine) (script : Handle) (p : Block) (sp : List Spot) (stop : Nat) (n : Machine) :
    Prop where
  heap : S.heap = m.heap
  routine : S.lib.routine script = some ⟨none, [], p⟩
  start : m.start script = (.paused, n)
  launched : m.Launched script n
  running : S.Running m.stack.toList.reverse n
  coded : ∃ f, Coded S.heap script ⟨none, [], p⟩ f (S.code script) ∧ f.chunk.size = stop + 2
  code : S.code script = sp ++ leaving stop
  laid : Block.Laid true [] 0 p sp stop []

theorem Starts.within {S : Stage} {sp : List Spot} {stop : Nat} {n : Machine} (h : Starts S m script p sp stop n)
    (hroom : m.CanStart) : n.Within m.limits := by
  obtain ⟨status, journal, rfl⟩ := h.launched
  refine ⟨rfl, ?_, hroom.2⟩
  simpa [Machine.config] using hroom.1

theorem Compiles.canStart (h : m.Compiles routine source script p m') : m'.CanStart ↔ m.CanStart := by
  obtain ⟨hstack, hlimits, -, -⟩ := h.frame
  unfold CanStart
  rw [hstack, hlimits]

/-- The script of a source starts if there is room for it. -/
theorem Compiles.starts (h : m.Compiles routine source script p m') (hroom : m.CanStart) :
    ∃ S sp stop n, S.lib.routine = addRoutines (p.routines script) routine ∧ Starts S m' script p sp stop n := by
  obtain ⟨S, hroutine, hheap, -, hstarts⟩ := h.tidy.start h.routine_script
  have hscript : S.lib.routine script = some ⟨none, [], p⟩ := hroutine ▸ h.routine_script
  obtain ⟨f, sp, stop, hcoded, hcode, hlaid, hsize⟩ := S.script_code hscript
  obtain ⟨status, journal, hstart⟩ := (h.canStart.mpr hroom).start (hheap ▸ hcoded.object) hcoded.arity
  obtain ⟨-, hrunning⟩ | ⟨_, hdone, -⟩ := hstarts _ _ hstart
  · exact ⟨S, sp, stop, _, hroutine, hheap, hscript, hstart, ⟨_, _, rfl⟩, hrunning, ⟨f, hcoded, hsize⟩, hcode, hlaid⟩
  · cases hdone

/-- There was room for a script that has started. -/
theorem Compiles.canStart_of_paused {n : Machine} (h : m.Compiles routine source script p m')
    (hstart : m'.start script = (.paused, n)) : m.CanStart := by
  obtain ⟨f, code, hcoded⟩ := h.tidy.collects.coded _ _ h.routine_script
  obtain ⟨-, _, _, _, _, hdone, -⟩ | ⟨hroom, -⟩ := start_cases hcoded.object hcoded.arity
  · rw [hstart] at hdone
    cases hdone
  · exact h.canStart.mp hroom

/-! ### The first source -/

/-- The script of two programs, one after the other, as a stage has it. -/
structure Whole (S : Stage) (script : Handle) (p q : Block) (sp₁ sp₂ : List Spot) (seam stop : Nat) : Prop where
  routine : S.lib.routine script = some ⟨none, [], p.append q⟩
  code : S.code script = (sp₁ ++ sp₂) ++ leaving stop
  first : Block.Laid true [] 0 p sp₁ seam []
  second : Block.Laid true [] seam q sp₂ stop []

theorem exists_whole (S : Stage) (h : S.lib.routine script = some ⟨none, [], p.append q⟩) :
    ∃ sp₁ sp₂ seam stop, Whole S script p q sp₁ sp₂ seam stop := by
  obtain ⟨f, sp, stop, -, hcode, hlaid, -⟩ := S.script_code h
  obtain ⟨sp₁, seam, sp₂, rfl, hfirst, hsecond⟩ := hlaid.of_append
  exact ⟨sp₁, sp₂, seam, stop, h, hcode, hfirst, hsecond⟩

/-- One source has been run, and with a longer one whose beginning it is a machine has come to the end of that
beginning. -/
structure Seam (F : Handle → Handle → Prop) (routine routine' : Handle → Option Routine) (heap' : Heap)
    (script' : Handle) (seam : Nat) (m e' : Machine) : Prop where
  shares : Track.Shares F m.heap heap' routine routine'
  room : m.CanStart
  keeps : heap'.Extends e'.heap
  sound : e'.Sound
  frames : e'.frames = [⟨script', seam, m.stack.size⟩]
  size : e'.stack.size = m.stack.size + 1
  globals : ∀ name, Option.Rel (Value.Renamed fun a b => F a b ∨ m.heap.SameText e'.heap a b) (m.global? name)
    (e'.global? name)
  last : e'.lastValue = .nil
  limits : m.limits = e'.limits
  clock : m.clock = e'.clock
  output : m.output = e'.output

/-- What is known before two sources are compiled stands for the same on both heaps. -/
theorem alike_of_known {F : Handle → Handle → Prop} {h h' : Heap} {v : Value}
    (hF : ∀ k k', Track.Kept m routine k k' → F k k') (hv : v.Known m.heap fun k => ∃ r, routine k = some r)
    (hk : m.heap.Extends h) (hk' : m.heap.Extends h') : v.Renamed (fun a b => F a b ∨ h.SameText h' a b) v := by
  cases v with
  | nil => exact .nil
  | bool truth => exact .bool truth
  | number x => exact .number x
  | object k =>
      obtain ⟨o, ho, hmade⟩ := hv
      cases o with
      | string s =>
          have hs := Heap.string?_eq_some_iff.mpr ho
          exact .object (.inr ⟨s, s, hk.string? hs, hk'.string? hs, rfl⟩)
      | function f => exact .object (.inl (hF k k ⟨rfl, .inl (hmade f rfl)⟩))
      | native n => exact .object (.inl (hF k k ⟨rfl, .inr ⟨n, Heap.native?_eq_some_iff.mpr ho⟩⟩))

/-- The script of a source, and the beginning of the script of a longer one. -/
def opening (left right : Stage) (F : Handle → Handle → Prop) (script script' : Handle) (sp : List Spot) (stop : Nat)
    (sp₁ : List Spot) (seam base : Nat) : Track where
  left := left
  right := right
  twins := F
  script := script
  script' := script'
  code := sp
  stop := stop
  code' := sp₁
  stop' := seam
  hidden := base + 1

section First

variable {F : Handle → Handle → Prop} {left right : Stage} {sp sp₁ sp₂ : List Spot} {stop seam stop' : Nat}
  {v w n : Machine}

theorem Starts.opening_parallel (hleft : Starts left v script p sp stop n)
    (hright : Whole right script' p' q' sp₁ sp₂ seam stop') (hp : p.Relabels F p') :
    Parallel F [] 0 sp stop 0 sp₁ seam :=
  (hleft.laid.parallel hright.first hp).2

theorem Starts.opening_fits (hleft : Starts left v script p sp stop n)
    (hright : Whole right script' p' q' sp₁ sp₂ seam stop')
    (hs : Track.Shares F left.heap right.heap left.lib.routine right.lib.routine) (hp : p.Relabels F p') (base : Nat) :
    (opening left right F script script' sp stop sp₁ seam base).Fits where
  unique := hs.unique
  functions := hs.functions
  scripts := ⟨0, 0, hleft.opening_parallel hright hp⟩
  leftCode := by
    show sp ⊆ left.code script
    rw [hleft.code]
    exact List.subset_append_left _ _
  rightCode := by
    show sp₁ ⊆ right.code script'
    rw [hright.code, List.append_assoc]
    exact List.subset_append_left _ _
  rightRoutine := ⟨_, hright.routine⟩

/-- When the scripts have started, the machines are side by side. -/
theorem opening_begins {n' : Machine} {whole : String} (hn : v.Launched script n) (hn' : w.Launched script' n')
    (h : m.Compiles routine source script p v) (h' : m.Compiles routine whole script' (p'.append q') w)
    (hleft : left.heap = v.heap) (hright : right.heap = w.heap) (hF : ∀ k k', Track.Kept m routine k k' → F k k')
    (hfits : (opening left right F script script' sp stop sp₁ seam m.stack.size).Fits)
    (hcode : Parallel F [] 0 sp stop 0 sp₁ seam) :
    (opening left right F script script' sp stop sp₁ seam m.stack.size).pairing.Machines n n' := by
  obtain ⟨status, journal, rfl⟩ := hn
  obtain ⟨status', journal', rfl⟩ := hn'
  obtain ⟨hstack, hlimits, hclock, houtput⟩ := h.frame
  obtain ⟨hstack', hlimits', hclock', houtput'⟩ := h'.frame
  rw [hstack, hstack']
  refine hfits.begins hcode (hleft ▸ .refl _) (hright ▸ .refl _) (h.tidy.sound.grow (.refl _) rfl)
    (h'.tidy.sound.grow (.refl _) rfl) rfl rfl rfl ?_ ?_ (fun name => ?_) rfl rfl (hlimits.trans hlimits'.symm)
    (hclock.trans hclock'.symm) (houtput.trans houtput'.symm)
  · simp [Machine.config]
  · simp [Machine.config]
  · show Option.Rel _ (v.global? name) (w.global? name)
    rw [h.global?, h'.global?]
    cases hv : m.global? name with
    | none => exact .none
    | some x => exact .some (alike_of_known hF (h.before.globals name x hv) h.makes.grows.keeps h'.makes.grows.keeps)

/-- At the end of the beginning only the longer script is active. -/
theorem Seam.of_stop {below : List Value} {base : Nat} {status : Status} {journal : Journal}
    (hs : Track.Shares F left.heap right.heap left.lib.routine right.lib.routine)
    (hleaves : (opening left right F script script' sp stop sp₁ seam base).Leaves below)
    (hfits : (opening left right F script script' sp stop sp₁ seam base).Fits)
    (hm : (opening left right F script script' sp stop sp₁ seam base).pairing.Machines e e')
    (hr : left.Running below e) (hframes : e.frames = [⟨script, stop, below.length⟩])
    (hvalues : e.stack.toList.reverse = .object script :: below) (hroom : below.length < e.limits.stackMax)
    (hcalls : 0 < e.limits.framesMax) (hkeeps : right.heap.Extends e'.heap) (hlast : e'.lastValue = .nil) :
    Seam F left.lib.routine right.lib.routine right.heap script' seam
      (Machine.config { e with lastValue := .nil, status, journal } [] below) e' where
  shares := hs.mono hr.holds.keeps (.refl _) (fun _ _ => id) fun _ _ => id
  room := ⟨by simpa [Machine.config] using hroom, hcalls⟩
  keeps := hkeeps
  sound := hm.right
  frames := by
    obtain ⟨f, gs, f', gs', hfs, hfs', hf, hrest⟩ :=
      (frames_cases hm.frames).resolve_left fun h => by simp [hframes] at h
    obtain ⟨rfl, rfl⟩ := List.cons.inj (hfs.symm.trans hframes)
    cases hrest
    obtain ⟨k', x', base'⟩ := f'
    obtain rfl : below.length = base' := hf.base
    rw [hfs']
    rcases hf.abreast with ⟨ht, -⟩ | ⟨-, rfl, hx⟩
    · exact absurd ht (hleaves.outside k')
    · obtain ⟨a, a', hcode⟩ := hfits.scripts
      obtain rfl : x' = seam := hx.eq_exit hcode.left
      simp [Machine.config]
  size := by
    have hsize := congrArg List.length hvalues
    rw [← hm.size]
    simpa [Machine.config] using hsize
  globals := hm.globals
  last := hlast
  limits := hm.limits
  clock := hm.clock
  output := hm.output

/-- The end of the code of a script comes after its program. -/
theorem Starts.stop_of_atEnd {below : List Value} (hleft : Starts left v script p sp stop n)
    (hr : left.Running below e) (hend : e.AtEnd script) : ∃ base, e.frames = [⟨script, stop, base⟩] := by
  obtain ⟨⟨k, x, base⟩, f, hframes, hk, hf, hip⟩ := hend
  obtain ⟨f₀, hcoded, hsize⟩ := hleft.coded
  cases hf.symm.trans (hr.holds.keeps.function? hcoded.object)
  obtain rfl : k = script := hk
  obtain rfl : x = stop := by
    have hip : x + 2 = f.chunk.size := hip
    omega
  exact ⟨base, hframes⟩

/-- **The first source.** If a source is run to its end, the run of a longer one whose beginning it is comes to the end
of that beginning. -/
theorem first_half {whole : String} {k : Nat}
    (h : m.Compiles routine source script p v) (h' : m.Compiles routine whole script' (p'.append q') w)
    (huniform : m.UniformHost) (hp : p.Relabels AnyLabels p')
    (hright : right.lib.routine = addRoutines ((p'.append q').routines script') routine) (hheap : right.heap = w.heap)
    (hw : Whole right script' p' q' sp₁ sp₂ seam stop') (hstart : v.start script = (.paused, n)) (hgoes : n.Goes k e)
    (hend : e.AtEnd script) (hrun : n.resume budget = (.done (.ok ()), m₁)) :
    ∃ n' e', w.start script' = (.paused, n') ∧ n'.Goes k e' ∧
      Seam (Track.Added (Track.Kept m routine) p.functions p'.functions) (addRoutines (p.routines script) routine)
        right.lib.routine right.heap script' seam m₁ e' := by
  -- both scripts start, for there is as much room for the one as for the other
  have hroom := h.canStart_of_paused hstart
  obtain ⟨left, sp, stop, n, hroutine, hleft⟩ := h.starts hroom
  cases hstart.symm.trans hleft.start
  have hwithin := hgoes.within (hleft.within (h.canStart.mpr hroom))
  obtain ⟨g, hg⟩ := right.coded _ _ hw.routine
  obtain ⟨status, journal, hstart'⟩ := (h'.canStart.mpr hroom).start (hheap ▸ hg.object) hg.arity
  -- they go side by side up to the end of the beginning
  obtain ⟨hs, hsame⟩ := h.shares h' huniform hp
  rw [← hroutine, ← hright, ← hleft.heap, ← hheap] at hs
  have hfits := hleft.opening_fits hw hs hsame m.stack.size
  have hm := opening_begins hleft.launched ⟨status, journal, rfl⟩ h h' hleft.heap hheap (fun _ _ => .inl) hfits
    (hleft.opening_parallel hw hsame)
  have hleaves : (opening left right (Track.Added (Track.Kept m routine) p.functions p'.functions) script script' sp
      stop sp₁ seam m.stack.size).Leaves v.stack.toList.reverse :=
    ⟨by simp [opening, h.frame.1], hleft.code, ⟨_, hleft.routine⟩, h.script_new (.kept h.before huniform)⟩
  have hrunning := hleft.running.goes hgoes
  obtain ⟨base, hstop⟩ := hleft.stop_of_atEnd hrunning hend
  obtain ⟨e', hgoes', he⟩ := hleaves.reaches hfits hm hleft.running (hheap ▸ .refl _) hgoes hstop
  refine ⟨_, e', hstart', hgoes', ?_⟩
  -- and the first script has nothing to do but to leave
  obtain ⟨hframes, hvalues, hall⟩ := hleaves.at_stop he hrunning ⟨_, _, hstop, rfl, rfl⟩
  obtain ⟨_, _, rfl⟩ := hgoes.leaves hframes hvalues hall hrun
  obtain ⟨hstack, hcalls⟩ := h.canStart.mpr hroom
  rw [← hroutine]
  refine Seam.of_stop hs hleaves hfits he hrunning hframes hvalues ?_ ?_ ?_ hgoes'.lastValue
  · rw [hwithin.limits_eq]
    simpa using hstack
  · rw [hwithin.limits_eq]
    exact hcalls
  · exact hheap ▸ hgoes'.grows.keeps

end First

/-! ### The second source -/

/-- The script of a source, and the rest of the script of a longer one, both with their ends. -/
def closing (left right : Stage) (F : Handle → Handle → Prop) (script script' : Handle) (sp : List Spot) (stop : Nat)
    (sp₂ : List Spot) (stop' base : Nat) : Track where
  left := left
  right := right
  twins := F
  script := script
  script' := script'
  code := sp ++ leaving stop
  stop := stop + 2
  code' := sp₂ ++ leaving stop'
  stop' := stop' + 2
  hidden := base + 1

section Second

variable {F : Handle → Handle → Prop} {left right : Stage} {sp sp₁ sp₂ : List Spot} {stop seam stop' : Nat}
  {v n : Machine}

theorem Starts.closing_parallel (hleft : Starts left v script q sp stop n)
    (hright : Whole right script' p' q' sp₁ sp₂ seam stop') (hq : q.Relabels F q') :
    Parallel F [] 0 (sp ++ leaving stop) (stop + 2) seam (sp₂ ++ leaving stop') (stop' + 2) :=
  (hleft.laid.parallel hright.second hq).2.append (leaving_parallel F [] stop stop')

theorem Starts.closing_fits (hleft : Starts left v script q sp stop n)
    (hright : Whole right script' p' q' sp₁ sp₂ seam stop')
    (hs : Track.Shares F left.heap right.heap left.lib.routine right.lib.routine) (hq : q.Relabels F q') (base : Nat) :
    (closing left right F script script' sp stop sp₂ stop' base).Fits where
  unique := hs.unique
  functions := hs.functions
  scripts := ⟨0, seam, hleft.closing_parallel hright hq⟩
  leftCode := by
    show sp ++ leaving stop ⊆ left.code script
    rw [hleft.code]
    exact List.Subset.refl _
  rightCode := by
    show sp₂ ++ leaving stop' ⊆ right.code script'
    rw [hright.code, List.append_assoc]
    exact List.subset_append_right _ _
  rightRoutine := ⟨_, hright.routine⟩

/-- The end of the code of a script is not a place of it. -/
theorem Starts.not_atStop {below : List Value} {l : Machine} {base : Nat} (hleft : Starts left v script q sp stop n)
    (hl : left.Running below l) : ¬ (closing left right F script script' sp stop sp₂ stop' base).AtStop l := by
  rintro ⟨g, gs, hgs, hg, hip⟩
  obtain ⟨f, hcoded, hsize⟩ := hleft.coded
  obtain ⟨k, fs, own, rest, p, hp⟩ := hl.poised
  cases hgs.symm.trans hp.frames
  obtain rfl : k = script := hg
  have hlt := hp.offset_lt hcoded
  have hstop : p.offset = stop + 2 := hip
  omega

/-- **The second source.** A source that is run afterwards ends like the rest of the longer one. -/
theorem Seam.second_half (hseam : Seam F routine right.lib.routine right.heap script' seam m e')
    (h : m.Compiles routine source script q v) (hq : q.Relabels AnyLabels q')
    (hw : Whole right script' p' q' sp₁ sp₂ seam stop') (hin : ∀ e ∈ q'.functions, right.lib.routine e.1 = some e.2)
    (hnodup : (q'.functions.map (·.1)).Nodup) (hapart : ∀ k k', F k k' → k' ∉ q'.functions.map (·.1)) :
    ∃ (T : Pairing) (n : Machine), v.start script = (.paused, n) ∧ n.Within v.limits ∧
      ∀ more, T.Ends (n.resume more) (e'.resume more) := by
  obtain ⟨hstack, hlimits, hclock, houtput⟩ := h.frame
  obtain ⟨left, sp, stop, n, hroutine, hleft⟩ := h.starts hseam.room
  obtain ⟨hs, hsame⟩ := hseam.shares.extend h.makes (fun k r hr => h.before.collects.old k ⟨r, hr⟩) hq hin hnodup hapart
  rw [← hleft.heap, ← hroutine] at hs
  have hfits := hleft.closing_fits hw hs hsame m.stack.size
  refine ⟨_, n, hleft.start, hleft.within (h.canStart.mpr hseam.room), fun more => Pairing.ends_resume
    (fun l l' hl hr => hfits.levelled hl hr (hleft.not_atStop hr)) ?_ hleft.running hseam.keeps more⟩
  obtain ⟨status, journal, rfl⟩ := hleft.launched
  refine hfits.begins (hleft.closing_parallel hw hsame) (hleft.heap ▸ .refl _) hseam.keeps
    (h.tidy.sound.grow (.refl _) rfl) hseam.sound ?_ hseam.frames rfl ?_ hseam.size (fun name => ?_) rfl hseam.last
    (hlimits.trans hseam.limits) (hclock.trans hseam.clock) (houtput.trans hseam.output)
  · simp [closing, hstack]
  · simp [Machine.config, hstack]
  · show Option.Rel _ (v.global? name) _
    rw [h.global?]
    refine rel_mono (hseam.globals name) fun _ _ hv => hv.mono fun a b hab => ?_
    exact hab.imp .inl fun ht => ht.mono h.makes.grows.keeps (.refl _)

end Second

/-! ### Both sources -/

theorem showsLike {T : Pairing} (h : T.Machines m m') : m.ShowsLike m' := by
  refine ⟨h.output, fun name => ?_⟩
  rcases rel_cases (h.globals name) with ⟨hg, hg'⟩ | ⟨v, v', hg, hg', hv⟩
  · rw [hg, hg']
    rfl
  · rw [hg, hg']
    exact congrArg some (h.links.display_eq hv)

/-- What an interpretation makes of the run of its script. -/
def outcome (r : Progress × Machine) : Except Fault (Except LoxError Unit × Machine) :=
  (complete r).map fun p => (p.1.mapError LoxError.runtime, p.2)

theorem Compiles.interpret_of_start {v n : Machine} (h : m.Compiles routine source script p v)
    (hstart : v.start script = (.paused, n)) (budget : Nat) :
    m.interpret source budget = outcome (n.resume budget) := by
  rw [interpret_accepted h.compiled]
  unfold runFunction
  rw [hstart]
  rfl

theorem sameOutcome_of_ends {T : Pairing} {limits : Limits} {n n' : Machine} (hn : n.Within limits) (budget : Nat)
    (h : T.Ends (n.resume budget) (n'.resume budget)) :
    SameOutcome (outcome (n.resume budget)) (outcome (n'.resume budget)) := by
  have hproceeds := (proceeds_resume hn budget).2
  generalize n.resume budget = r at h hproceeds
  generalize n'.resume budget = r' at h
  cases h with
  | ok hm => exact .ok (hm.links.display_eq hm.last) (showsLike hm)
  | error he hm => exact .error he (showsLike hm)
  | paused => exact .exhausted
  | fault =>
      obtain hpaused | ⟨_, hdone⟩ := hproceeds
      · cases hpaused
      · cases hdone

theorem Compiles.after_run {v : Machine} {r : Except RuntimeError Unit} (h : m.Compiles routine source script p v)
    (hrun : v.runFunction script budget = (.done r, m₁)) : m₁.Tidy (addRoutines (p.routines script) routine) := by
  obtain ⟨S, hroutine, -, -, -, hends⟩ := h.tidy.runs h.routine_script
  have hmoves := moves_runFunction v script budget
  rw [hrun] at hmoves
  exact h.tidy.after_run hroutine (hends _ _ _ hrun).holds hmoves

/-- The tree of two sources at once is that of the one followed by that of the other. -/
theorem Compiles.parts {a b : String} {ρ₁ ρ₂ : Handle → Option Routine} {script₂ : Handle} {c : Block}
    {v v₂ w : Machine}
    (h : m.Compiles routine a script p v) (h₂ : m₁.Compiles ρ₁ b script₂ q v₂)
    (h' : m₂.Compiles ρ₂ (a ++ "\n" ++ b) script' c w) :
    ∃ p' q', c = p'.append q' ∧ p.Relabels AnyLabels p' ∧ q.Relabels AnyLabels q' :=
  ((h.reads.joined h₂.reads).unique h'.reads).of_append

/-- Two runs, one after the other, end like the run of both sources at once, which takes as many instructions more as
there are in the first one up to its end. -/
theorem Compiles.split {a b : String} {script₂ : Handle} {c : Block} {v v₂ w n : Machine} {k : Nat}
    (h : m.Compiles routine a script p v)
    (h₂ : m₁.Compiles (addRoutines (p.routines script) routine) b script₂ q v₂)
    (h' : m.Compiles routine (a ++ "\n" ++ b) script' c w) (huniform : m.UniformHost)
    (hstart : v.start script = (.paused, n)) (hgoes : n.Goes k e) (hend : e.AtEnd script)
    (hrun : n.resume budget = (.done (.ok ()), m₁)) (more : Nat) :
    SameOutcome (m₁.interpret b more) (m.interpret (a ++ "\n" ++ b) (k + more)) := by
  obtain ⟨p', q', rfl, hp, hq⟩ := h.parts h₂ h'
  obtain ⟨right, hright, hheap, -⟩ := h'.tidy.exists_stage
  obtain ⟨sp₁, sp₂, seam, stop', hw⟩ := exists_whole right (hright ▸ h'.routine_script)
  obtain ⟨n', e', hstart', hgoes', hseam⟩ :=
    first_half h h' huniform hp hright hheap hw hstart hgoes hend hrun
  have hnodup := h'.functions_nodup
  rw [functions_append, List.map_append, List.nodup_append] at hnodup
  have hin : ∀ e ∈ q'.functions, right.lib.routine e.1 = some e.2 := by
    intro e he
    rw [hright]
    refine h'.routine_new ?_
    rw [functions_append]
    exact List.mem_append_right _ he
  obtain ⟨T, n₂, hstart₂, hwithin, hends⟩ := hseam.second_half h₂ hq hw hin hnodup.2.1 fun _ _ => h'.apart
  have hboth : n'.resume (k + more) = e'.resume more := by
    unfold resume
    rw [hgoes'.steps (Nat.le_add_right k more), Nat.add_sub_cancel_left]
  rw [h₂.interpret_of_start hstart₂, h'.interpret_of_start hstart', hboth]
  exact sameOutcome_of_ends hwithin more (hends more)

/-- **Splitting a program.** On a machine on whose heap the host has put nothing but functions that make nothing of the
names of objects, let a source be interpreted that comes to its end and ends well, and then another one. This comes to
the same as interpreting, on the machine as it was at first, both sources at once, with a line break between them: the
same has been printed, both end well and the last values are shown alike, or both end in a runtime error of the same
kind, and the global variables have the same names and are shown alike. -/
theorem Hosted.split_unobserved {a b : String} (hm : m.Hosted) (hb : accepts b = true)
    (hab : accepts (a ++ "\n" ++ b) = true) (hend : m.ReachesEnd a) (hrun : m.interpret a budget = .ok (.ok (), m₁)) :
    ∃ taken, ∀ more, SameOutcome (m₁.interpret b more) (m.interpret (a ++ "\n" ++ b) (taken + more)) := by
  obtain ⟨⟨routine, htidy⟩, huniform⟩ := hm.tidy
  obtain ⟨script, v, e, hc, ⟨n, k, hstart, hgoes⟩, hend⟩ := hend
  obtain ⟨p, h⟩ := htidy.compiles hc
  have hdone : v.runFunction script budget = (.done (.ok ()), m₁) := by
    obtain ⟨_, hc', -⟩ | ⟨_, _, r, hc', hdone, hr⟩ := interpret_eq_ok hrun
    · rw [hc] at hc'
      cases hc'
    · rw [hc] at hc'
      cases hc'
      cases r with
      | ok => exact hdone
      | error => cases hr
  obtain ⟨r₂, v₂, hc₂⟩ := m₁.compile_ok b
  obtain ⟨r', w, hc'⟩ := m.compile_ok (a ++ "\n" ++ b)
  have htidy₁ := h.after_run hdone
  obtain ⟨script₂, rfl⟩ := (accepts_iff htidy₁.sound.heap hc₂).mp hb
  obtain ⟨script', rfl⟩ := (accepts_iff htidy.sound.heap hc').mp hab
  obtain ⟨q, h₂⟩ := htidy₁.compiles hc₂
  obtain ⟨c, h'⟩ := htidy.compiles hc'
  have hresume : n.resume budget = (.done (.ok ()), m₁) := by
    unfold runFunction at hdone
    rwa [hstart] at hdone
  exact ⟨k, h.split h₂ h' huniform hstart hgoes hend hresume⟩

/-- A function of one source is called from the next one. -/
theorem split_after_function : ∃ m₁ m₂ taken,
    (create {} false 0 .silent).ReachesEnd "fun f(x) \x7b return x; \x7d var a = true;" ∧
    (create {} false 0 .silent).interpret "fun f(x) \x7b return x; \x7d var a = true;" 10 = .ok (.ok (), m₁) ∧
    m₁.interpret "print f(a);" 10 = .ok (.ok (), m₂) ∧ ∀ more, SameOutcome (m₁.interpret "print f(a);" more)
      ((create {} false 0 .silent).interpret ("fun f(x) \x7b return x; \x7d var a = true;" ++ "\n" ++ "print f(a);")
        (taken + more)) := by
  have hstops : (((create {} false 0 .silent).compile "fun f(x) \x7b return x; \x7d var a = true;").toOption.any
      fun compiled => compiled.1.toOption.any fun script => (paused? (compiled.2.start script)).any fun n =>
      (paused? (n.resume 4)).any fun e => e.frames.length == 1 && e.frames.any fun frame => frame.function == script &&
        (e.heap.function? script).any fun f => frame.ip + 2 == f.chunk.size) = true := by decide +kernel
  have hruns : (((create {} false 0 .silent).interpret "fun f(x) \x7b return x; \x7d var a = true;" 10).toOption.any
      fun p => p.1.toOption.isSome && (p.2.interpret "print f(a);" 10).toOption.any
        fun p => p.1.toOption.isSome) = true := by decide +kernel
  simp only [Option.any_eq_true, List.any_eq_true, toOption_eq_some, paused?_eq_some, Bool.and_eq_true, beq_iff_eq]
    at hstops
  obtain ⟨⟨_, v⟩, hc, script, rfl, n, hstart, e, hresume, hone, frame, hmem, hscript, f, hf, hip⟩ := hstops
  have hframes : e.frames = [frame] := by
    obtain ⟨frame', hframes⟩ := List.length_eq_one_iff.mp hone
    rw [hframes, List.mem_singleton] at hmem
    rw [hframes, hmem]
  have hwithin : n.Within {} := by
    have hop : v.Operated {} := .compile (.create ..) hc
    have := (proceeds_start hop.within script).1
    rwa [hstart] at this
  have hend : (create {} false 0 .silent).ReachesEnd "fun f(x) \x7b return x; \x7d var a = true;" :=
    ⟨script, v, e, hc, ⟨n, 4, hstart, goes_of_paused hwithin hresume⟩, frame, f, hframes, hscript, hf, hip⟩
  simp only [Option.any_eq_true, toOption_eq_some, Bool.and_eq_true, Option.isSome_iff_exists] at hruns
  obtain ⟨⟨_, m₁⟩, hrun, ⟨_, rfl⟩, ⟨_, m₂⟩, hnext, _, rfl⟩ := hruns
  obtain ⟨taken, hsame⟩ := (Hosted.create {} false 0 .silent).split_unobserved (b := "print f(a);")
    (by decide +kernel) (by decide +kernel) hend hrun
  exact ⟨m₁, m₂, taken, hend, hrun, hnext, hsame⟩

end Machine

end Lox
