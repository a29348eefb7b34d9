import Lox.Proofs.Discipline.Hosts
import Lox.Proofs.Discipline.Traces
import Lox.Proofs.Excerpt

/-! Which line an interactive session blames. A function outlives the source that made it, but its errors carry only the
number of a line, and they are shown in the source that was put in last. So the line that is marked is the one where the
failing instruction comes from if that source made its function, or has the same line by chance; otherwise it is not. -/

namespace Lox

/-! ### The line that is marked -/

/-- A line of a text, by its number. -/
def Text.line? (text : String) (number : Nat) : Option (List Char) :=
  if number = 0 then none else (linesOf (text.toList.splitOn '\n'))[number - 1]?

/-- A failure is shown with an excerpt of a source, where this line is the one that is marked. -/
def LoxError.Marks (e : LoxError) (source : String) (line : List Char) : Prop :=
  ∃ number text, e.line? = some number ∧ e.render source .text = e.text ++ "\n" ++ text ∧
    ShowsAround source number line text

/-- What is marked is the line of the source that has the failure's number. -/
theorem LoxError.marks_iff {e : LoxError} {number : Nat} (h : e.line? = some number) (source : String)
    (line : List Char) :
    e.Marks source line ↔ Text.line? source number = some line := by
  unfold Text.line?
  constructor
  · rintro ⟨number', text, hnumber, -, hshown⟩
    obtain rfl : number = number' := Option.some.inj (h.symm.trans hnumber)
    rw [if_neg (Nat.ne_of_gt hshown.one_le)]
    exact hshown.nth
  · intro hline
    have hne : number ≠ 0 := fun hzero => by simp [hzero] at hline
    rw [if_neg hne, ← Text.lines_eq, List.getElem?_map, Option.map_eq_some_iff] at hline
    obtain ⟨shown, hnth, rfl⟩ := hline
    obtain ⟨text, hsome, hshown⟩ := excerpt?_showsAround (Nat.pos_of_ne_zero hne) (by rw [hnth, String.ofList_toList])
    exact ⟨number, text, h, by rw [render, h, Option.bind_some, hsome, Option.getD_some], hshown⟩

/-! ### What a run leaves behind -/

theorem Heap.Grows.function?_of_lt {heap heap' : Heap} (hg : heap.Grows heap') {k : Handle}
    (hk : k.index < heap.cells.size) {f : FunctionObject} (hf : heap'.function? k = some f) :
    heap.function? k = some f := by
  obtain ⟨o, ho⟩ := Heap.exists_get? hk
  obtain rfl : o = .function f := Option.some.inj ((hg.keeps k o ho).symm.trans (Heap.function?_eq_some_iff.mp hf))
  exact Heap.function?_eq_some_iff.mpr ho

namespace Machine

variable {m m' : Machine} {made : Handle → Prop}

/-- What the global variables hold depends on the heap and on their table. -/
theorem KnownGlobals.congr (h : m.KnownGlobals made) (hheap : m'.heap = m.heap) (hglobals : m'.globals = m.globals) :
    m'.KnownGlobals made := by
  have hsame : ∀ name, m'.global? name = m.global? name := fun name => by rw [global?, global?, hheap, hglobals]
  intro name v hv
  rw [hheap]
  exact h name v (hsame name ▸ hv)

theorem Lived.goes {n : Nat} (h : m.Lived made) (hg : m.Goes n m') : m'.Lived made := by
  induction hg with
  | refl => exact h
  | step hs _ ih =>
      have hnext := h.step
      rw [Execution.after, hs] at hnext
      exact ih hnext

end Machine

namespace Stage

open Machine Execution

variable {S : Stage} {script : Handle} {below : List Value} {made : Handle → Prop} {m m' : Machine} {budget : Nat}
  {result : Except RuntimeError Unit}

/-- A run ends where a step has ended it. -/
theorem Running.stopped (h : S.Running below m) (hr : m.resume budget = (.done result, m')) :
    ∃ n m₁, m.Goes n m₁ ∧ m'.heap = (after step m₁).heap ∧ m'.globals = (after step m₁).globals := by
  induction budget generalizing m with
  | zero => cases hr
  | succ budget ih =>
      obtain ⟨_, _, _, _, _, hp⟩ := h.poised
      cases hs : step.run m with
      | ok flow m₁ =>
          have hafter : after step m = m₁ := by rw [after, hs]
          cases flow with
          | next =>
              rw [resume_succ hs] at hr
              obtain ⟨n, m₂, hg, hends⟩ := ih (hp.next hs).1 hr
              exact ⟨n + 1, m₂, .step hs hg, hends⟩
          | halt =>
              obtain ⟨-, rfl⟩ := Halts.ends ⟨0, m, .refl m, hs⟩ |>.2 hr
              refine ⟨0, m, .refl m, ?_⟩
              rw [hafter, haltOk]
              split <;> exact ⟨rfl, rfl⟩
      | error stop m₁ =>
          have hafter : after step m = m₁ := by rw [after, hs]
          obtain ⟨-, ⟨kind, rfl, -⟩, -⟩ := hp.error hs
          obtain ⟨-, rfl⟩ := Stops.ends ⟨0, m, .refl m, hs⟩ |>.2 hr
          refine ⟨0, m, .refl m, ?_⟩
          rw [hafter]
          exact ⟨rfl, rfl⟩

/-- A script's run does not begin, or ends where a step has ended it. -/
theorem Accounted.stopped (h : S.Accounted script below made m)
    (hr : m.runFunction script budget = (.done result, m')) :
    m'.heap = m.heap ∧ m'.globals = m.globals ∨ ∃ m₁, m.Visits script m₁ ∧ m'.heap = (after step m₁).heap ∧
      m'.globals = (after step m₁).globals := by
  unfold runFunction at hr
  split at hr
  · next m₁ hstart =>
      obtain ⟨n, m₂, hg, hends⟩ := (h.visited m₁ ⟨m₁, 0, hstart, .refl m₁⟩).running.stopped hr
      exact .inr ⟨m₂, ⟨m₁, n, hstart, hg⟩, hends⟩
  · obtain ⟨p, hscript⟩ := h.unnamed
    obtain ⟨f, hc⟩ := S.coded script _ hscript
    have hc := hc.grow h.holds.keeps
    rcases start_eq hc.object hc.arity with ⟨e, status, journal, vs, heq, -⟩ | ⟨status, journal, heq⟩ <;>
      rw [heq] at hr <;> cases hr
    exact .inl ⟨rfl, rfl⟩

theorem Accounted.visits_heap {m₁ : Machine} (h : S.Accounted script below made m) (hv : m.Visits script m₁) :
    m.heap.Grows m₁.heap ∧ (m.Lived made → m₁.Lived made) := by
  obtain ⟨m₂, n, hstart, hg⟩ := hv
  obtain ⟨p, hscript⟩ := h.unnamed
  obtain ⟨f, hc⟩ := S.coded script _ hscript
  have hc := hc.grow h.holds.keeps
  have hsame : m₂.heap = m.heap ∧ m₂.globals = m.globals := by
    rcases start_eq hc.object hc.arity with ⟨e, status, journal, vs, heq, -⟩ | ⟨status, journal, heq⟩ <;>
      rw [heq] at hstart <;> cases hstart
    exact ⟨rfl, rfl⟩
  exact ⟨hsame.1 ▸ hg.grows, fun hl => (hl.own m₂ hsame.1 hsame.2).goes hg⟩

end Stage

/-! ### Conversations -/

/-- A source that was put in, with the places of the heap that were taken while it was compiled and run. -/
structure Input where
  source : String
  first : Nat
  last : Nat

/-- The function at a place was made for the input. -/
def Input.Made (i : Input) (k : Handle) : Prop := i.first ≤ k.index ∧ k.index < i.last

namespace Machine

/-- A new machine on which sources have been compiled and run, one after the other, whatever came of each. -/
inductive Conversed : List Input → Machine → Prop where
  | start (limits : Limits) (printCode : Bool) (clock : Clock) (journal : Journal) :
      Conversed [] (create limits printCode clock journal)
  | input {inputs : List Input} {m m' : Machine} {source : String} {clock : Clock} {budget : Nat}
      {result : Except LoxError (Option String)} (h : Conversed inputs m)
      (hi : (m.facing clock).interpretIn source budget = .ok (result, m')) :
      Conversed (inputs ++ [⟨source, m.heap.cells.size, m'.heap.cells.size⟩]) m'

/-- The functions that can be reached have been made for one of the inputs, and have the lines of its source. -/
structure Credited (inputs : List Input) (made : Handle → Prop) (m : Machine) : Prop where
  lived : m.Lived made
  globals : m.KnownGlobals fun k => made k ∧ m.heap.Declares k
  host : m.UniformHost
  origin : ∀ k f, made k → m.heap.function? k = some f →
    ∃ input ∈ inputs, input.Made k ∧ f.chunk.Attributed (tokenize input.source)

namespace Credited

variable {inputs : List Input} {made : Handle → Prop} {m m' m₁ : Machine} {source : String} {script : Handle}

theorem facing (h : Credited inputs made m) (clock : Clock) : Credited inputs made (m.facing clock) :=
  ⟨h.lived.own _ rfl rfl, h.globals.congr rfl rfl, h.host, h.origin⟩

/-- Functions that were there are not changed when the heap grows. -/
theorem origin_old (h : Credited inputs made m) {heap : Heap} (hg : m.heap.Grows heap) {k : Handle} {f : FunctionObject}
    (hk : made k) (hf : heap.function? k = some f) :
    ∃ input ∈ inputs, input.Made k ∧ f.chunk.Attributed (tokenize input.source) := by
  obtain ⟨routine, hcollects⟩ := h.lived.collects
  exact h.origin k f hk (hg.function?_of_lt (hcollects.old k hk) hf)

/-- What is known of the global variables lasts while nothing but the heap grows. -/
theorem globals_grow (h : Credited inputs made m) {made' : Handle → Prop} (hg : m.heap.Grows m'.heap)
    (hglobals : m'.globals = m.globals) (hmade : ∀ k, made k → made' k) :
    m'.KnownGlobals fun k => made' k ∧ m'.heap.Declares k := by
  intro name v hv
  rw [h.lived.reached.sound.global?_grow hg hglobals] at hv
  exact ((h.globals name v hv).mono hg.keeps).weaken fun k _ _ hk => ⟨hmade k hk.1, hk.2.mono hg.keeps⟩

/-- A source that is refused leaves nothing that can be reached. -/
theorem refuse (h : Credited inputs made m) {e : CompileError}
    (hc : m.compile source = .ok (.error e, m')) (i : Input) :
    Credited (inputs ++ [i]) made m' := by
  obtain ⟨c, hrun, -, status, heq⟩ := compile_eq_ok hc
  have hg : m.heap.Grows m'.heap := by
    rw [heq]
    exact grows_compile hrun
  refine ⟨h.lived.rejected hc, h.globals_grow hg (by rw [heq]) fun _ => id, h.host.same (sameHost_compile hc), ?_⟩
  intro k f hk hf
  obtain ⟨input, hmem, hinput⟩ := h.origin_old hg hk hf
  exact ⟨input, List.mem_append_left _ hmem, hinput⟩

/-- A source that is accepted makes functions, and no others are made while it runs. -/
theorem accept (h : Credited inputs made m) (hc : m.compile source = .ok (.ok script, m₁)) {budget : Nat}
    {result : Except RuntimeError Unit} (hr : m₁.runFunction script budget = (.done result, m')) :
    Credited (inputs ++ [⟨source, m.heap.cells.size, m'.heap.cells.size⟩])
      (fun k => made k ∨ m.heap.cells.size ≤ k.index ∧ k.index < m₁.heap.cells.size) m' := by
  obtain ⟨S, below, hS⟩ := h.lived.accounted h.globals (h.host.known _) hc
  obtain ⟨c, hrun, hres, status, heq⟩ := compile_eq_ok hc
  have hg : m.heap.Grows m₁.heap := by
    rw [heq]
    exact grows_compile hrun
  have hmoves : Moves m₁ m' := by
    have := moves_runFunction m₁ script budget
    rwa [hr] at this
  have hlived := h.lived.accepted hc
  refine ⟨?_, ?_, h.host.same ((sameHost_compile hc).trans hmoves.changes.sameHost), ?_⟩
  · rcases hS.stopped hr with ⟨hheap, hglobals⟩ | ⟨m₂, hv, hheap, hglobals⟩
    · exact hlived.own m' hheap hglobals
    · exact (((hS.visits_heap hv).2 hlived).step).own m' hheap hglobals
  · rcases hS.stopped hr with ⟨hheap, hglobals⟩ | ⟨m₂, hv, hheap, hglobals⟩
    · refine h.globals_grow (hheap ▸ hg) (hglobals.trans (by rw [heq])) fun k => Or.inl
    · rw [hheap]
      exact (hS.globals hv).congr hheap hglobals
  · rintro k f (hk | ⟨hle, hlt⟩) hf
    · obtain ⟨input, hmem, hinput⟩ := h.origin_old (hg.trans hmoves.grows) hk hf
      exact ⟨input, List.mem_append_left _ hmem, hinput⟩
    · have hmade : Input.Made ⟨source, m.heap.cells.size, m'.heap.cells.size⟩ k :=
        ⟨hle, Nat.lt_of_lt_of_le hlt hmoves.grows.size_le⟩
      have hnew := hmoves.grows.function?_of_lt hlt hf
      rw [heq] at hnew
      exact ⟨_, List.mem_append_right _ (List.mem_singleton_self _), hmade, compile_attributed hrun hres.symm hle hnew⟩

end Credited

variable {inputs : List Input} {m m' : Machine} {source : String} {clock : Clock} {budget : Nat}

/-- Interpreting a source comes to its refusal, or to the end of its script's run. -/
theorem interpretIn_eq_ok {result : Except LoxError (Option String)}
    (h : m.interpretIn source budget = .ok (result, m')) :
    (∃ e, m.compile source = .ok (.error e, m') ∧ result = .error (.compile e)) ∨
      ∃ script m₁ r m₂, m.compile source = .ok (.ok script, m₁) ∧ m₁.runFunction script budget = (.done r, m₂) ∧
        (result, m') = m₂.settle r := by
  unfold interpretIn at h
  cases hrun : m.interpret source budget with
  | error fault =>
      rw [hrun] at h
      cases h
  | ok answer =>
      obtain ⟨answer, m₂⟩ := answer
      rw [hrun] at h
      rcases interpret_eq_ok hrun with ⟨e, hc, rfl⟩ | ⟨script, m₁, r, hc, hfinal, rfl⟩
      · cases h
        exact .inl ⟨e, hc, rfl⟩
      · refine .inr ⟨script, m₁, r, m₂, hc, hfinal, ?_⟩
        cases r <;> exact (Except.ok.inj h).symm

theorem settle_shared (m : Machine) (r : Except RuntimeError Unit) :
    (m.settle r).2.heap = m.heap ∧ (m.settle r).2.globals = m.globals := by
  cases r <;> exact ⟨rfl, rfl⟩

/-- What a conversation keeps. -/
theorem Conversed.credited (h : Conversed inputs m) : ∃ made, Credited inputs made m := by
  induction h with
  | start limits printCode clock journal =>
      refine ⟨_, .create .., fun name v hv => ?_, fun k n hn => ?_, nofun⟩
      · exact (knownGlobals_create _ _ _ _ name v hv).weaken fun _ _ _ h => h.elim
      · obtain ⟨-, rfl⟩ := native?_create_iff.mp hn
        exact uniform_clockNative
  | @input inputs m m' source clock budget result _ hi ih =>
      obtain ⟨made, hcredited⟩ := ih
      have hfacing := hcredited.facing clock
      rcases interpretIn_eq_ok hi with ⟨e, hc, -⟩ | ⟨script, m₁, r, m₂, hc, hr, hsettle⟩
      · exact ⟨_, hfacing.refuse hc _⟩
      · have hended := hfacing.accept hc hr
        obtain ⟨hheap, hglobals⟩ := m₂.settle_shared r
        rw [← hsettle] at hheap hglobals
        have hheap : m'.heap = m₂.heap := hheap
        refine ⟨_, hended.lived.own m' hheap hglobals, ?_, ?_, ?_⟩
        · rw [hheap]
          exact hended.globals.congr hheap hglobals
        · exact fun k n hn => hended.host k n (hheap ▸ hn)
        · rw [hheap]
          exact hended.origin

/-- The error was raised by an instruction of a function that was made for an input, and has the line of the instruction
in the source of that input. The call that failed is the innermost one before and after. -/
def Raised (m : Machine) (source : String) (origin : Input) (e : RuntimeError) : Prop :=
  ∃ script m₁ m₂ m₃ frame next outer f op, m.compile source = .ok (.ok script, m₁) ∧ m₁.Visits script m₂ ∧
    Execution.step.run m₂ = .error (.error e.kind) m₃ ∧ e = m₃.runtimeError e.kind ∧ m₂.frames = frame :: outer ∧
    m₃.frames = { frame with ip := next } :: outer ∧ origin.Made frame.function ∧
    m₂.heap.function? frame.function = some f ∧ f.chunk.Attributed (tokenize origin.source) ∧
    f.chunk.InstructionAt frame.ip op ∧ f.chunk.lineAt? frame.ip = some e.line

/-- An instruction that fails belongs to one of the inputs. -/
theorem Credited.raised {made : Handle → Prop} {e : RuntimeError} (h : Credited inputs made m)
    (hi : m.interpretIn source budget = .ok (.error (.runtime e), m')) (htrace : e.trace ≠ []) :
    ∃ origin ∈ inputs ++ [⟨source, m.heap.cells.size, m'.heap.cells.size⟩], m.Raised source origin e := by
  rcases interpretIn_eq_ok hi with ⟨e', -, heq⟩ | ⟨script, m₁, r, m', hc, hr, hsettle⟩
  · cases heq
  cases r with
  | ok value => cases hsettle
  | error e =>
      cases hsettle
      have hended := h.accept hc hr
      obtain ⟨S, below, hS⟩ := h.lived.accounted h.globals (h.host.known _) hc
      obtain ⟨m₂, m₃, hv, hs, he⟩ := (hS.ends hr).resolve_left htrace
      obtain ⟨k, fs, own, rest, p, hp⟩ := (hS.visited m₂ hv).running.poised
      obtain ⟨r, hroutine⟩ := hp.active.routine
      have haccounts := hS.error hv hs
      rw [← he] at haccounts
      obtain ⟨hlines, -, hline, -⟩ := haccounts
      rw [executing, hp.frames] at hlines
      obtain ⟨f, op, hf, hat, hfirst⟩ : ∃ f op, m₂.heap.function? k = some f ∧ f.chunk.InstructionAt p.offset op ∧
          f.chunk.lineAt? p.offset = some e.line := by
        generalize e.trace = trace at hlines hline
        cases hlines with
        | cons hcall _ =>
            obtain ⟨f, op, hf, hat, hentry⟩ := hcall
            exact ⟨f, op, hf, hat, hentry.trans hline⟩
      -- the function was there when the run began, so it is still there when the run has ended
      have hmade := hS.made k r hroutine
      have hbegun : m₁.heap.function? k = some f := by
        obtain ⟨routine, hcollects⟩ := (h.lived.accepted hc).collects
        exact (hS.visits_heap hv).1.function?_of_lt (hcollects.old k hmade) hf
      have hkeeps := (moves_runFunction m₁ script budget).grows.keeps
      rw [hr] at hkeeps
      obtain ⟨origin, hmem, hplace, hattributed⟩ := hended.origin k f hmade (hkeeps.function? hbegun)
      have hfailed := (hS.visited m₂ hv).failed hS.discreet hp hs
      exact ⟨origin, hmem, script, m₁, m₂, m₃, ⟨k, p.offset, rest.length⟩, p.next, fs, f, op, hc, hv, hs,
        he, hp.frames, hfailed, hplace, hf, hattributed, hat, hfirst⟩

/-- The call that failed is still the innermost one when the run has ended. -/
theorem Raised.innermost {origin : Input} {e : RuntimeError} {script : Handle} {m₁ last : Machine}
    {result : Except RuntimeError Unit} (h : m.Raised source origin e) (hc : m.compile source = .ok (.ok script, m₁))
    (hr : m₁.runFunction script budget = (.done result, last)) :
    ∃ call, last.frames.head? = some call ∧ origin.Made call.function := by
  obtain ⟨script', m₁', m₂, m₃, frame, next, outer, f, op, hc', ⟨m₀, n, hstart, hg⟩, hs, -, -, hframes,
    hplace, -⟩ := h
  cases hc.symm.trans hc'
  rw [runFunction, hstart] at hr
  obtain ⟨-, rfl⟩ := Stops.ends ⟨n, m₂, hg, hs⟩ |>.2 hr
  have hhead : (m₃.haltWith e.kind).2.frames.head? = some { frame with ip := next } := by
    show m₃.frames.head? = _
    rw [hframes]
    rfl
  exact ⟨_, hhead, hplace⟩

/-- **A session blames the source that was put in last.** Let a source be interpreted after others, and end in a
runtime error. In what is shown then, the line of this source that has the error's number is marked, and nothing if
there is no such line. The error's number is that of a line of the source which the failing instruction comes from,
and this may be any of those that have been put in. So the line of the failing instruction is marked if it comes from
the last source, and otherwise if both sources have the same text in that line, and only then. An error that no
instruction raises has no entries. -/
theorem Conversed.blames_last (h : Conversed inputs m) {e : RuntimeError}
    (hi : (m.facing clock).interpretIn source budget = .ok (.error (.runtime e), m')) :
    (∀ line, (LoxError.runtime e).Marks source line ↔ Text.line? source e.line = some line) ∧
      (e.trace = [] ∨ ∃ origin ∈ inputs ++ [⟨source, m.heap.cells.size, m'.heap.cells.size⟩],
        (m.facing clock).Raised source origin e ∧
        ((∀ line, (LoxError.runtime e).Marks source line ↔ Text.line? origin.source e.line = some line) ↔
          Text.line? source e.line = Text.line? origin.source e.line)) := by
  have hmarks : ∀ line, (LoxError.runtime e).Marks source line ↔ Text.line? source e.line = some line :=
    LoxError.marks_iff rfl source
  refine ⟨hmarks, ?_⟩
  by_cases htrace : e.trace = []
  · exact .inl htrace
  · obtain ⟨made, hcredited⟩ := h.credited
    obtain ⟨origin, hmem, hraised⟩ := (hcredited.facing clock).raised hi htrace
    refine .inr ⟨origin, hmem, hraised, fun hsame => Option.ext fun line => (hmarks line).symm.trans (hsame line), ?_⟩
    exact fun hsame line => hsame ▸ hmarks line

/-- A source that fails itself, after another one. -/
theorem Conversed.blames_last_itself : ∃ input m m' e, Conversed [input] m ∧
    (m.facing 0).interpretIn "print -nil;\n" 20 = .ok (.error (.runtime e), m') ∧ e.trace = [⟨1, none⟩] ∧
    (LoxError.runtime e).Marks "print -nil;\n" "print -nil;".toList ∧
    ∃ origin ∈ [input] ++ [⟨"print -nil;\n", m.heap.cells.size, m'.heap.cells.size⟩],
      (m.facing 0).Raised "print -nil;\n" origin e := by
  have hrun : ((((create {} false 0 .silent).facing 0).interpretIn "var a = true;\n" 20).toOption.any fun first =>
      ((first.2.facing 0).interpretIn "print -nil;\n" 20).toOption.any fun second =>
      (runtimeError? second.1).any fun e => e.trace == [⟨1, none⟩] && e.line == 1) = true := by decide +kernel
  simp only [Option.any_eq_true, toOption_eq_some, runtimeError?_eq_some, Bool.and_eq_true, beq_iff_eq] at hrun
  obtain ⟨⟨_, m⟩, hfirst, ⟨_, m'⟩, hsecond, e, rfl, htrace, hline⟩ := hrun
  have hconversed : Conversed _ m := .input (.start {} false 0 .silent) hfirst
  obtain ⟨hmarks, hraised⟩ := hconversed.blames_last hsecond
  obtain ⟨origin, hmem, hraised, -⟩ := hraised.resolve_left (by simp [htrace])
  exact ⟨_, m, m', e, hconversed, hsecond, htrace, (hmarks _).mpr (by rw [hline]; decide +kernel), origin,
    hmem, hraised⟩

/-- A function that fails is called by a source on the same line: the line that is marked is that of the call. -/
theorem Conversed.blames_call :
    ∃ input m m' e, Conversed [input] m ∧ input.source = "fun f() \x7b return -nil; \x7d\n" ∧
    (m.facing 0).interpretIn "f();\n" 20 = .ok (.error (.runtime e), m') ∧ (m.facing 0).Raised "f();\n" input e ∧
    Text.line? input.source e.line = some "fun f() \x7b return -nil; \x7d".toList ∧
    (LoxError.runtime e).Marks "f();\n" "f();".toList ∧ (LoxError.runtime e).render "f();\n" .text =
      "Operand must be a number.\n[line 1] in f()\n[line 1] in script\n> 1 | f();\n" := by
  have hrun : ((((create {} false 0 .silent).facing 0).interpretIn "fun f() \x7b return -nil; \x7d\n" 20).toOption.any
      fun first => ((first.2.facing 0).compile "f();\n").toOption.any fun compiled =>
      compiled.1.toOption.any fun script => ((first.2.facing 0).interpretIn "f();\n" 20).toOption.any fun second =>
      (compiled.2.runFunction script 20).2.frames.head?.any (·.function.index < first.2.heap.cells.size) &&
      (runtimeError? second.1).any fun e => e.trace == [⟨1, some "f"⟩, ⟨1, none⟩] && e.line == 1 &&
        (LoxError.runtime e).render "f();\n" .text ==
          "Operand must be a number.\n[line 1] in f()\n[line 1] in script\n> 1 | f();\n") = true := by decide +kernel
  simp only [Option.any_eq_true, toOption_eq_some, runtimeError?_eq_some, Bool.and_eq_true, beq_iff_eq,
    decide_eq_true_eq] at hrun
  obtain ⟨⟨_, m⟩, hfirst, ⟨_, m₁⟩, hc, script, rfl, ⟨_, m'⟩, hsecond, ⟨inner, hinner, hold⟩, e, rfl,
    ⟨htrace, hline⟩, hrender⟩ := hrun
  have hconversed : Conversed _ m := .input (.start {} false 0 .silent) hfirst
  obtain ⟨made, hcredited⟩ := hconversed.credited
  obtain ⟨origin, hmem, hraised⟩ := (hcredited.facing 0).raised hsecond (by simp [htrace])
  have hmarks := (LoxError.marks_iff (e := .runtime e) rfl "f();\n" "f();".toList).mpr (by rw [hline]; decide +kernel)
  have htext : Text.line? "fun f() \x7b return -nil; \x7d\n" 1 = some "fun f() \x7b return -nil; \x7d".toList := by
    decide +kernel
  rcases List.mem_append.mp hmem with hmem | hmem
  · obtain rfl := List.mem_singleton.mp hmem
    exact ⟨_, m, m', e, hconversed, rfl, hsecond, hraised, hline ▸ htext, hmarks, hrender⟩
  · -- the call that failed is that of an older function
    rcases interpretIn_eq_ok hsecond with ⟨e', hrefused, -⟩ | ⟨script', m₁', r, last, hc', hlast, -⟩
    · cases hc.symm.trans hrefused
    · cases hc.symm.trans hc'
      obtain ⟨call, hcall, hplace⟩ := hraised.innermost hc hlast
      rw [hlast] at hinner
      obtain rfl : call = inner := Option.some.inj (hcall.symm.trans hinner)
      rw [List.mem_singleton.mp hmem] at hplace
      exact absurd hplace.1 (Nat.not_le.mpr hold)

end Machine

end Lox
