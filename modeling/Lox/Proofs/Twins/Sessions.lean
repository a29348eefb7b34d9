import Lox.Proofs.Compile.Termination
import Lox.Proofs.Twins.Running
import Lox.Session

/-! Sessions. A source that is refused leaves nothing behind that a later source can notice: the objects that were
made for it make all later ones get other handles, and machines that differ in that answer every line alike. -/

namespace Lox

open Pairing

namespace Machine

/-- No program can tell the two machines apart. -/
def Twin (m m' : Machine) : Prop := ∃ R, (exact R).Machines m m' ∧ Heap.Copies R m.heap m'.heap

end Machine

theorem Pairing.Machines.widen {R S : Handle → Handle → Prop} {m m' : Machine} (hm : (exact R).Machines m m')
    (hRS : ∀ a b, R a b → S a b) (hl : (exact S).Links m.heap m'.heap) : (exact S).Machines m m' where
  left := hm.left
  right := hm.right
  links := hl
  size := hm.size
  stack i hi := rel_mono (hm.stack i hi) fun _ _ hv => hv.widen hRS
  frames := hm.frames.imp fun _ _ hf => ⟨⟨hRS _ _ hf.abreast.1, hf.abreast.2⟩, hf.base, hf.above⟩
  globals name := rel_mono (hm.globals name) fun _ _ hv => hv.widen hRS
  last := hm.last.widen hRS
  limits := hm.limits
  clock := hm.clock
  output := hm.output

namespace Machine

/-- Both machines have stopped for the same reason, or have given the same answer and still cannot be told apart. -/
inductive Answers {α : Type} : Except Fault (α × Machine) → Except Fault (α × Machine) → Prop where
  | fault (cause : Fault) : Answers (.error cause) (.error cause)
  | ok (a : α) {m m' : Machine} (h : m.Twin m') : Answers (.ok (a, m)) (.ok (a, m'))

theorem compile_ok (m : Machine) (source : String) : ∃ r m', m.compile source = .ok (r, m') := by
  obtain ⟨c, hc⟩ := compile_ends source m.heap m.printCode m.journal
  unfold Machine.compile
  simp only [hc]
  exact ⟨_, _, rfl⟩

theorem interpret_refused {m n : Machine} {source : String} {e : CompileError}
    (hc : m.compile source = .ok (.error e, n)) (budget : Nat) : m.interpret source budget =
    .ok (.error (.compile e), n) := by
  unfold Machine.interpret
  rw [hc]
  rfl

theorem interpret_accepted {m n : Machine} {source : String} {script : Handle}
    (hc : m.compile source = .ok (.ok script, n)) (budget : Nat) : m.interpret source budget =
      (complete (n.runFunction script budget)).map fun p => (p.1.mapError LoxError.runtime, p.2) := by
  unfold Machine.interpret
  rw [hc]
  show (complete (n.runFunction script budget) >>= fun p => pure (p.1.mapError LoxError.runtime, p.2)) = _
  cases complete (n.runFunction script budget) <;> rfl

/-- Both machines refuse the source with the same findings, or both accept it, and then the scripts go together. -/
theorem twin_compile {m m' n n' : Machine} (h : m.Twin m') {source : String} {r r' : Except CompileError Handle}
    (hc : m.compile source = .ok (r, n)) (hc' : m'.compile source = .ok (r', n')) :
    ∃ R, (exact R).Machines n n' ∧ Heap.Copies R n.heap n'.heap ∧
      ((∃ e, r = .error e ∧ r' = .error e) ∨ ∃ a b, r = .ok a ∧ r' = .ok b ∧ R a b) := by
  obtain ⟨R, hm, hcopies⟩ := h
  obtain ⟨c, hcomp, rfl, status, rfl⟩ := compile_eq_ok hc
  obtain ⟨c', hcomp', rfl, status', rfl⟩ := compile_eq_ok hc'
  obtain ⟨S, hRS, hcopies', hresult⟩ := compile_twins hcopies hcomp hcomp'
  exact ⟨S, (hm.grow (grows_compile hcomp) (grows_compile hcomp')).widen hRS hcopies'.links, hcopies', hresult⟩

/-- **One source on two machines.** Machines that cannot be told apart interpret a source alike. -/
theorem Twin.interpret {m m' : Machine} (h : m.Twin m') (source : String) (budget : Nat) :
    Answers (m.interpret source budget) (m'.interpret source budget) := by
  obtain ⟨r, n, hc⟩ := m.compile_ok source
  obtain ⟨r', n', hc'⟩ := m'.compile_ok source
  obtain ⟨R, hn, hcopies, hresult⟩ := twin_compile h hc hc'
  rcases hresult with ⟨e, rfl, rfl⟩ | ⟨a, b, rfl, rfl, hab⟩
  · rw [interpret_refused hc, interpret_refused hc']
    exact .ok _ ⟨R, hn, hcopies⟩
  · obtain ⟨hp, hl, hk, hk'⟩ := runs_runFunction budget hn hcopies hab
    rw [interpret_accepted hc, interpret_accepted hc']
    generalize n.runFunction a budget = o at hp hl hk hk' ⊢
    generalize n'.runFunction b budget = o' at hp hl hk hk' ⊢
    obtain ⟨p, l⟩ := o
    obtain ⟨p', l'⟩ := o'
    obtain rfl : p = p' := hp
    cases p with
    | done result => exact .ok _ ⟨R, hl, hcopies.later hl.links hk hk'⟩
    | paused | fault => exact .fault _

/-- The texts of their values, and the reports of their errors, are the same. -/
theorem Twin.interpretIn {m m' : Machine} (h : m.Twin m') (source : String) (budget : Nat) :
    Answers (m.interpretIn source budget) (m'.interpretIn source budget) := by
  have hanswers := h.interpret source budget
  unfold Machine.interpretIn
  generalize m.interpret source budget = o at hanswers ⊢
  generalize m'.interpret source budget = o' at hanswers ⊢
  cases hanswers with
  | fault cause => exact .fault cause
  | @ok result n n' hn =>
      obtain ⟨R, hm, hcopies⟩ := hn
      rcases result with (e | e) | done
      · exact .ok _ ⟨R, hm, hcopies⟩
      · exact .ok _ ⟨R, hm.own rfl (fun _ _ => .none) .nil hm.last hm.output, hcopies⟩
      · have hvalue : (if n.lastValue.isNil then none else some (n.display n.lastValue)) =
            if n'.lastValue.isNil then none else some (n'.display n'.lastValue) := by
          rw [hm.last.isNil_eq, Machine.display, Machine.display, hm.links.display_eq hm.last]
        show Answers (Except.ok (Except.ok (if n.lastValue.isNil then none else some (n.display n.lastValue)), n))
          (Except.ok (Except.ok (if n'.lastValue.isNil then none else some (n'.display n'.lastValue)), n'))
        rw [hvalue]
        exact .ok _ ⟨R, hm, hcopies⟩

/-! ### What hosts do -/

/-- The host may change what belongs to a run on both machines. -/
theorem Twin.own {m m' : Machine} (h : m.Twin m') {limits : Limits} {printCode printCode' : Bool} {clock : Clock}
    {output : Output} {status status' : Status} {journal journal' : Journal} :
    Twin { m with limits, printCode, clock, output, status, journal }
      { m' with limits, printCode := printCode', clock, output, status := status', journal := journal' } := by
  obtain ⟨R, hm, hcopies⟩ := h
  have howned : (exact R).Machines { m with printCode, output, status, journal }
      { m' with printCode := printCode', output, status := status', journal := journal' } :=
    hm.own hm.size hm.stack hm.frames hm.last rfl
  exact ⟨R, { howned with
    left := hm.left.grow (.refl _) rfl
    right := hm.right.grow (.refl _) rfl
    limits := rfl
    clock := rfl }, hcopies⟩

/-- Values and calls may be dropped on both machines. -/
theorem Twin.resetStack {m m' : Machine} (h : m.Twin m') : m.resetStack.Twin m'.resetStack := by
  obtain ⟨R, hm, hcopies⟩ := h
  exact ⟨R, hm.own rfl (fun _ _ => .none) .nil hm.last hm.output, hcopies⟩

/-- Either heap may grow. -/
theorem Twin.grow {m m' : Machine} (h : m.Twin m') {heap heap' : Heap} {status status' : Status}
    {journal journal' : Journal} (hg : m.heap.Grows heap) (hg' : m'.heap.Grows heap') :
    Twin { m with heap, status, journal } { m' with heap := heap', status := status', journal := journal' } := by
  obtain ⟨R, hm, hcopies⟩ := h
  exact ⟨R, hm.grow hg hg', hcopies.grow hg hg'⟩

/-- A function of the host that makes nothing of the names of objects may be added to both machines. -/
theorem Twin.defineNative {m m' : Machine} (h : m.Twin m') {n : NativeObject} (hn : n.Uniform) :
    (m.defineNative n).Twin (m'.defineNative n) := by
  obtain ⟨R, hm, hcopies⟩ := h
  obtain ⟨journal, heq⟩ := defineNative_turn hm.links.left n
  obtain ⟨journal', heq'⟩ := defineNative_turn hm.links.right n
  have hg := m.heap.grows_intern n.name
  have hg' := m'.heap.grows_intern n.name
  have hnew := (m.heap.intern n.name).1.grows_allocate (o := .native n) fun _ h => by cases h
  have hnew' := (m'.heap.intern n.name).1.grows_allocate (o := .native n) fun _ h => by cases h
  have hadd := (hcopies.grow hg hg').addNative hn
  have hs := hnew.keeps.string? (hm.links.left.intern n.name).2.2
  have hs' := hnew'.keeps.string? (hm.links.right.intern n.name).2.2
  have hgrown : (exact R).Machines { m with heap := ((m.heap.intern n.name).1.allocate (.native n)).1, journal }
      { m' with heap := ((m'.heap.intern n.name).1.allocate (.native n)).1, journal := journal' } :=
    hm.grow (hg.trans hnew) (hg'.trans hnew')
  have hwide := hgrown.widen (fun _ _ => .inl) hadd.links
  rw [heq, heq']
  refine ⟨_, hwide.define ⟨?_, ?_, _, _, hs, hs', rfl⟩ (.object (.inl (.inr ⟨rfl, rfl⟩))), hadd⟩
  · exact Heap.key?_eq_some_iff.mpr ⟨_, hs, rfl⟩
  · exact Heap.key?_eq_some_iff.mpr ⟨_, hs', rfl⟩

/-- The machines of hosts that let functions of their own see nothing but what values stand for. They are created,
they interpret sources, and they may be reset and freed in between. -/
inductive Hosted : Machine → Prop where
  | create (limits : Limits) (printCode : Bool) (clock : Clock) (journal : Journal) :
      Hosted (create limits printCode clock journal)
  | native {m : Machine} (h : Hosted m) {n : NativeObject} (hn : n.Uniform) : Hosted (m.defineNative n)
  | text {m : Machine} (h : Hosted m) (chars : String) : Hosted (m.intern chars).2
  | compile {m m' : Machine} (h : Hosted m) {source : String} {r : Except CompileError Handle}
      (hc : m.compile source = .ok (r, m')) : Hosted m'
  | interpret {m m' : Machine} (h : Hosted m) {source : String} {budget : Nat} {r : Except LoxError Unit}
      (hr : m.interpret source budget = .ok (r, m')) : Hosted m'
  | own {m : Machine} (h : Hosted m) (limits : Limits) (printCode : Bool) (clock : Clock) (output : Output)
      (status : Status) (journal : Journal) : Hosted { m with limits, printCode, clock, output, status, journal }
  | reset {m : Machine} (h : Hosted m) : Hosted m.resetStack
  | free {m : Machine} (h : Hosted m) : Hosted m.free.2

/-- A machine that holds no objects holds none that could be told apart. -/
theorem twin_of_empty {m m' : Machine} (hm : m.Sound) (hm' : m'.Sound) (hs : m.stack = #[]) (hs' : m'.stack = #[])
    (hf : m.frames = []) (hf' : m'.frames = []) (hg : ∀ name, m.global? name = none)
    (hg' : ∀ name, m'.global? name = none)
    (hl : m.lastValue = .nil) (hl' : m'.lastValue = .nil) (hlimits : m.limits = m'.limits) (hclock : m.clock = m'.clock)
    (houtput : m.output = m'.output) : m.Twin m' := by
  have hlinks : (exact fun _ _ => False).Links m.heap m'.heap := by
    refine ⟨hm.heap, hm'.heap, ⟨?_, ?_⟩, fun _ _ h => h.elim⟩
    · exact fun _ _ _ h => h.elim
    · exact fun _ _ _ h => h.elim
  refine ⟨fun _ _ => False, ?_, hlinks, fun _ _ _ _ h => h.elim⟩
  refine ⟨hm, hm', hlinks, by rw [hs, hs'], fun i _ => ?_, ?_, fun name => ?_, ?_, hlimits, hclock, houtput⟩
  · rw [hs, hs']
    exact .none
  · rw [hf, hf']
    exact .nil
  · rw [hg, hg']
    exact .none
  · rw [hl, hl']
    exact .nil

theorem uniform_clockNative : clockNative.Uniform := fun _ _ clock _ _ _ => .number clock

theorem global?_of_empty {m : Machine} (h : m.globals = .empty) (name : String) : m.global? name = none := by
  have hnone : ∀ key, m.globals.get? key = none := by
    intro key
    rw [h]
    rfl
  unfold global?
  cases m.heap.interned? name with
  | none => rfl
  | some handle =>
      rw [Option.bind_eq_bind, Option.bind_some]
      cases m.heap.key? handle with
      | none => rfl
      | some key => exact hnone key

/-- No program can tell the machine of such a host from itself, whatever its objects are called. -/
theorem Hosted.twin {m : Machine} (h : m.Hosted) : m.Twin m := by
  induction h with
  | create limits printCode clock journal =>
      refine Twin.defineNative ?_ uniform_clockNative
      have hnone := global?_of_empty (m := { limits, printCode, clock, journal }) rfl
      exact twin_of_empty (sound_new ..) (sound_new ..) rfl rfl rfl rfl hnone hnone rfl rfl rfl rfl rfl
  | native _ hn ih => exact ih.defineNative hn
  | @text m _ chars ih =>
      obtain ⟨journal, heq⟩ := m.intern_turn chars
      rw [heq]
      exact ih.grow (m.heap.grows_intern chars) (m.heap.grows_intern chars)
  | compile _ hc ih =>
      obtain ⟨R, hm, hcopies, -⟩ := twin_compile ih hc hc
      exact ⟨R, hm, hcopies⟩
  | @interpret m m' _ source budget r hr ih =>
      have hanswers := ih.interpret source budget
      rw [hr] at hanswers
      cases hanswers with
      | ok _ hm' => exact hm'
  | own _ limits printCode clock output status journal ih => exact ih.own
  | reset _ ih => exact ih.resetStack
  | @free m _ ih =>
      have hnone := global?_of_empty (m := m.free.2) rfl
      exact twin_of_empty (sound_free m) (sound_free m) rfl rfl rfl rfl hnone hnone rfl rfl rfl rfl rfl

end Machine

/-! ### Lines -/

/-- A line of a session, with what the host provides for it. -/
structure Line where
  source : String
  host : Host

/-- What a session shows for a line. -/
structure Answer where
  /-- The text of the value, or what is reported. -/
  result : Except LoxError (Option String)
  /-- What the line printed. -/
  printed : ByteArray

/-- Whether the line was refused by the compiler. -/
def Answer.refused (a : Answer) : Bool :=
  match a.result with
  | .error (.compile _) => true
  | _ => false

/-- Whether a source is accepted, by itself. -/
def accepts (source : String) : Bool :=
  match compile source .empty false .silent with
  | .ok c => c.result.isOk
  | .error _ => false

/-- The results of steps that are taken one after the other, up to the first one that stops. -/
def transcript {σ ι α : Type} (step : σ → ι → Except Fault (α × σ)) : σ → List ι → List (Except Fault α)
  | _, [] => []
  | s, i :: is =>
    match step s i with
    | .ok (a, s) => .ok a :: transcript step s is
    | .error cause => [.error cause]

theorem transcript_ok {σ ι α : Type} {step : σ → ι → Except Fault (α × σ)} {s t : σ} {i : ι} {a : α}
    (h : step s i = .ok (a, t)) (is : List ι) : transcript step s (i :: is) = .ok a :: transcript step t is := by
  rw [transcript, h]

theorem transcript_error {σ ι α : Type} {step : σ → ι → Except Fault (α × σ)} {s : σ} {i : ι} {cause : Fault}
    (h : step s i = .error cause) (is : List ι) : transcript step s (i :: is) = [.error cause] := by
  rw [transcript, h]

namespace Machine

/-- The machine as the host turns to the next line: the clock has gone on, and what was printed is shown. -/
def facing (m : Machine) (clock : Clock) : Machine := { m with clock, output := m.output.drain.2 }

/-- Interprets a line. -/
def answer (m : Machine) (line : Line) : Except Fault (Answer × Machine) := do
  let (result, m) ← (m.facing line.host.clock).interpretIn line.source line.host.budget
  return ({ result, printed := m.output.written }, m)

/-- The answers to lines that are interpreted one after the other. A line that does not come to an answer is the
last one. -/
def session : Machine → List Line → List (Except Fault Answer) := transcript answer

theorem interpretIn_refused {m n : Machine} {source : String} {e : CompileError}
    (hc : m.compile source = .ok (.error e, n)) (budget : Nat) :
    m.interpretIn source budget = .ok (.error (.compile e), n) := by
  unfold Machine.interpretIn
  rw [interpret_refused hc]
  rfl

/-- An accepted source gets another answer. -/
theorem interpretIn_accepted {m n n' : Machine} {source : String} {script : Handle} {budget : Nat}
    {r : Except LoxError (Option String)} (hc : m.compile source = .ok (.ok script, n))
    (h : m.interpretIn source budget = .ok (r, n')) (e : CompileError) : r ≠ .error (.compile e) := by
  unfold Machine.interpretIn at h
  rw [interpret_accepted hc] at h
  cases hr : complete (n.runFunction script budget) with
  | error cause =>
      rw [hr] at h
      cases h
  | ok p =>
      rw [hr] at h
      obtain ⟨result, l⟩ := p
      cases result with
      | error e => cases h; simp
      | ok value => cases h; simp

/-- Whether a source is accepted does not depend on the machine. -/
theorem accepts_iff {m n : Machine} {source : String} {r : Except CompileError Handle} (hm : m.heap.Interned)
    (hc : m.compile source = .ok (r, n)) : accepts source = true ↔ ∃ script, r = .ok script := by
  obtain ⟨c, hcomp, rfl, -⟩ := compile_eq_ok hc
  obtain ⟨c₀, hc₀⟩ := compile_ends source .empty false .silent
  have hcopies : Heap.Copies (fun _ _ => False) .empty m.heap := by
    refine ⟨⟨Heap.interned_empty, hm, ⟨?_, ?_⟩, fun _ _ h => h.elim⟩, fun _ _ _ _ h => h.elim⟩
    · exact fun _ _ _ h => h.elim
    · exact fun _ _ _ h => h.elim
  obtain ⟨S, -, -, hresult⟩ := compile_twins hcopies hc₀ hcomp
  unfold accepts
  rw [hc₀]
  show c₀.result.isOk = true ↔ _
  rcases hresult with ⟨e, h, h'⟩ | ⟨a, b, h, h', -⟩
  · rw [h, h']
    simp [Except.isOk, Except.toBool]
  · rw [h, h']
    simp [Except.isOk, Except.toBool]

/-- The machines cannot be told apart once the host turns to the next line. -/
def Abreast (m m' : Machine) : Prop := ∀ clock, (m.facing clock).Twin (m'.facing clock)

theorem Twin.abreast {m m' : Machine} (h : m.Twin m') : m.Abreast m' := by
  intro clock
  have hsame : m.limits = m'.limits ∧ m.output = m'.output := by
    obtain ⟨R, hm, -⟩ := h
    exact ⟨hm.limits, hm.output⟩
  unfold facing
  rw [hsame.1, hsame.2]
  exact h.own

theorem answer_ok {m n : Machine} {line : Line} {r : Except LoxError (Option String)}
    (h : (m.facing line.host.clock).interpretIn line.source line.host.budget = .ok (r, n)) :
    m.answer line = .ok (⟨r, n.output.written⟩, n) := by
  unfold answer
  rw [h]
  rfl

theorem answer_error {m : Machine} {line : Line} {cause : Fault}
    (h : (m.facing line.host.clock).interpretIn line.source line.host.budget = .error cause) :
    m.answer line = .error cause := by
  unfold answer
  rw [h]
  rfl

/-- **Sessions.** Machines that cannot be told apart answer alike, and a line that is refused does not change that. So
without the lines that are refused, the other lines are answered as they were. -/
theorem Abreast.session {m m' : Machine} (h : m.Abreast m') (lines : List Line) :
    (m.session lines).filter (fun a => !a.toOption.any Answer.refused) =
      m'.session (lines.filter fun line => accepts line.source) := by
  induction lines generalizing m m' with
  | nil => rfl
  | cons line lines ih =>
      have htwin := h line.host.clock
      obtain ⟨r, n, hc⟩ := (m.facing line.host.clock).compile_ok line.source
      have hinterned : (m.facing line.host.clock).heap.Interned := by
        obtain ⟨R, hm, -⟩ := htwin
        exact hm.links.left
      have hiff := accepts_iff hinterned hc
      cases r with
      | error e =>
          have haccepts : ¬ accepts line.source = true := by
            rw [hiff]
            rintro ⟨script, h⟩
            cases h
          rw [List.filter_cons_of_neg (p := fun line : Line => accepts line.source) haccepts, Machine.session,
            transcript_ok (answer_ok (interpretIn_refused hc _)),
            List.filter_cons_of_neg (by simp [Except.toOption, Answer.refused])]
          refine ih fun clock => ?_
          obtain ⟨c, hcomp, -, status, rfl⟩ := compile_eq_ok hc
          exact (h clock).grow (grows_compile hcomp) (.refl _)
      | ok script =>
          have haccepts : accepts line.source = true := hiff.mpr ⟨script, rfl⟩
          rw [List.filter_cons_of_pos (p := fun line : Line => accepts line.source) haccepts]
          have hanswers := htwin.interpretIn line.source line.host.budget
          rcases hanswer : (m.facing line.host.clock).interpretIn line.source line.host.budget with cause
            | ⟨result, l⟩ <;>
            rcases hanswer' : (m'.facing line.host.clock).interpretIn line.source line.host.budget with cause'
              | ⟨result', l'⟩ <;>
            rw [hanswer, hanswer'] at hanswers
          · cases hanswers
            rw [Machine.session, transcript_error (answer_error hanswer),
              transcript_error (answer_error hanswer')]
            rfl
          · cases hanswers
          · cases hanswers
          · cases hanswers with
            | ok _ hl =>
                have hstands : Answer.refused ⟨result, l.output.written⟩ = false := by
                  rcases result with (e | e) | value
                  · exact absurd rfl (interpretIn_accepted hc hanswer e)
                  · rfl
                  · rfl
                have hprinted : l.output = l'.output := by
                  obtain ⟨R, hm, -⟩ := hl
                  exact hm.output
                rw [Machine.session, transcript_ok (answer_ok hanswer),
                  transcript_ok (answer_ok hanswer'), ← hprinted,
                  List.filter_cons_of_pos (by simp [Except.toOption, hstands])]
                exact congrArg _ (ih hl.abreast)

/-- **A refused source changes nothing that can be noticed.** On every machine, a source that is refused is not run:
the stack, the calls, the global variables, the last value, the output and all else but the journal are as before, the
status says so, and all objects are still there. And in every session, the lines that are refused could as well be
left out: each other line prints the same, has the same value and is reported on in the same words. -/
theorem failed_compile_unobserved :
    (∀ (m m' : Machine) source e, m.compile source = .ok (.error e, m') →
      m' = { m with heap := m'.heap, journal := m'.journal, status := .haltedCompileError } ∧
        m.heap.Extends m'.heap ∧ (m.Reached → ∀ name, m'.global? name = m.global? name) ∧
        ∀ budget, m.interpret source budget = .ok (.error (.compile e), m') ∧
          m.interpretIn source budget = .ok (.error (.compile e), m')) ∧
    ∀ m : Machine, m.Hosted →
      (∀ source r m', m.compile source = .ok (r, m') → (accepts source = true ↔ ∃ script, r = .ok script)) ∧
      ∀ lines, (m.session lines).filter (fun a => !a.toOption.any Answer.refused) =
        m.session (lines.filter fun line => accepts line.source) := by
  refine ⟨fun m m' source e hc => ?_,
    fun m hm => ⟨fun source r m' hc => ?_, fun lines => hm.twin.abreast.session lines⟩⟩
  · obtain ⟨hg, hglobals, -, -⟩ := compile_frame hc
    refine ⟨?_, hg.keeps, fun hm => hm.sound.global?_grow hg hglobals, fun budget =>
      ⟨interpret_refused hc budget, interpretIn_refused hc budget⟩⟩
    unfold Machine.compile at hc
    simp only at hc
    split at hc
    · cases hc
    · next c _ =>
        have hresult := congrArg Prod.fst (Except.ok.inj hc)
        have hmachine := congrArg Prod.snd (Except.ok.inj hc)
        simp only at hresult hmachine
        rw [hresult] at hmachine
        rw [← hmachine]
  · obtain ⟨R, hsame, -⟩ := hm.twin
    exact accepts_iff hsame.links.left hc

/-- The function and the text of a refused line stay behind, and the line after it is answered as without them. -/
theorem failed_compile_unobserved_function :
    (create {} false 0 .silent).Hosted ∧
      (∃ e m', (create {} false 0 .silent).compile "fun g() \x7b print \"b\"; \x7d +;" = .ok (.error e, m') ∧
        m'.stack = #[] ∧ (create {} false 0 .silent).heap.Extends m'.heap) ∧
      ((create {} false 0 .silent).session [⟨"var f = \"a\";", ⟨0, 9⟩⟩,
        ⟨"fun g() \x7b print \"b\"; \x7d +;", ⟨0, 9⟩⟩, ⟨"print f + \"b\";", ⟨0, 9⟩⟩]).filter
        (fun a => !a.toOption.any Answer.refused) =
      (create {} false 0 .silent).session [⟨"var f = \"a\";", ⟨0, 9⟩⟩, ⟨"print f + \"b\";", ⟨0, 9⟩⟩] := by
  have hhosted : (create {} false 0 .silent).Hosted := .create ..
  have hfirst : accepts "var f = \"a\";" = true := by decide +kernel
  have hsecond : accepts "fun g() \x7b print \"b\"; \x7d +;" = false := by decide +kernel
  have hthird : accepts "print f + \"b\";" = true := by decide +kernel
  obtain ⟨hrefused, hsession⟩ := failed_compile_unobserved
  obtain ⟨haccepts, hlines⟩ := hsession _ hhosted
  refine ⟨hhosted, ?_, ?_⟩
  · obtain ⟨r, m', hc⟩ := (create {} false 0 .silent).compile_ok "fun g() \x7b print \"b\"; \x7d +;"
    cases r with
    | ok script => simp [(haccepts _ _ _ hc).mpr ⟨script, rfl⟩] at hsecond
    | error e =>
        obtain ⟨heq, hext, -⟩ := hrefused _ _ _ _ hc
        exact ⟨e, m', hc, by rw [heq]; rfl, hext⟩
  · rw [hlines]
    simp [hfirst, hsecond, hthird]

end Machine

end Lox
