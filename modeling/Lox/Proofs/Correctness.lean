import Lox.Proofs.History
import Lox.Proofs.Simulation.Calls
import Lox.Proofs.Simulation.Runs

/-! The compiler is correct. For every accepted source, running the compiled script and executing the source's tree
come to the same: the same value, the same global variables and the same output, or the same error, or neither
ends. The only exceptions are the machine's own limits, of its stack and of its output. The tree is the one that the
grammar gives to the source, and a function that an earlier source left in a global variable stands for its part of
that source's tree. -/

namespace Lox

open Machine

/-- A function of the host computes on what values stand for, whatever the clock says and whatever else has been
made, and comes to what the reference is told. Texts are interned, so it may compare objects by their handles. -/
def NativeObject.Computes (n : NativeObject) (g : HostFunction) (host : Handle → Option HostFunction) (start : Heap) :
    Prop :=
  ∀ (L : Library) (heap : Heap) (args : List Value) (ds : List Datum), L.host = host → heap.Interned →
    start.Extends heap → args.map (L.view heap) = ds.map some →
    ∀ reading, L.view heap (n.body reading args) = some (g.result reading ds)

/-- The host's functions compute on what values stand for, in a way that the reference is told of. -/
def Machine.HostedBy (m : Machine) (host : Handle → Option HostFunction) : Prop :=
  ∀ k, match m.heap.native? k with
    | none => host k = none
    | some n => ∃ g, host k = some g ∧ n.arity = g.arity ∧ n.Computes g host m.heap

theorem Machine.HostedBy.native {m : Machine} {host : Handle → Option HostFunction} (h : m.HostedBy host) {k : Handle}
    {g : HostFunction} (hg : host k = some g) :
    ∃ n, m.heap.native? k = some n ∧ n.arity = g.arity ∧ n.Computes g host m.heap := by
  have hk := h k
  cases hn : m.heap.native? k with
  | none =>
      rw [hn, hg] at hk
      cases hk
  | some n =>
      rw [hn] at hk
      obtain ⟨g', hg', harity, hbody⟩ := hk
      rw [hg] at hg'
      cases hg'
      exact ⟨n, rfl, harity, hbody⟩

/-- The global variables of a machine stand for those of a world, the machine has written what the world has printed
after what was written before, and both have the same clock. -/
structure Library.Agrees (L : Library) (written : ByteArray) (m : Machine) (w : World) : Prop where
  globals : ∀ name, (m.global? name).map (L.view m.heap) = (w.globals name).map some
  printed : m.output.written = written ++ w.printed.toUTF8
  clock : m.clock = w.clock

/-- A machine stands for one world at most. -/
theorem Library.Agrees.unique {L : Library} {written : ByteArray} {m : Machine} {w w' : World}
    (h : L.Agrees written m w) (h' : L.Agrees written m w') : w = w' := by
  obtain ⟨globals, printed, clock⟩ := w
  obtain ⟨globals', printed', clock'⟩ := w'
  have hglobals : globals = globals' := by
    funext name
    have := (h.globals name).symm.trans (h'.globals name)
    exact Option.map_injective (Option.some_injective _) this
  have hprinted : printed = printed' := by
    have := h.printed.symm.trans h'.printed
    rw [ByteArray.append_right_inj] at this
    exact String.toByteArray_inj.mp this
  have hclock : clock = clock' := h.clock.symm.trans h'.clock
  rw [hglobals, hprinted, hclock]

theorem Machine.Mirrors.agrees {S : Setting} {w : World} {m : Machine} (h : Mirrors S w m) :
    S.lib.Agrees S.written m w := ⟨h.globals, h.printed, h.clock⟩

/-! ### From instructions to runs -/

/-- The next instruction ends the script. -/
def Finishes (S : Setting) (d : Datum) (w : World) (m : Machine) : Prop :=
  ∃ m', Execution.step.run m = .ok .halt m' ∧ Mirrors S w m' ∧ S.lib.view m'.heap m'.lastValue = some d

theorem Activation.Leaves.finishes {S : Setting} {A : Activation S} {d : Datum} {w : World} {m : Machine}
    (h : A.Leaves d w m) (houter : A.outer = []) : Finishes S d w m := by
  obtain ⟨m₀, v, journal, hm, hv, hstep⟩ := h.step
  rw [if_pos houter] at hstep
  exact ⟨_, hstep, hm.congr rfl rfl rfl rfl, hv⟩

/-- The machine does what the reference does with more and more fuel, and its limits do not stop it. -/
structure Follows (S : Setting) (m : Machine) (outcome : Nat → EStateM.Result Halt World Datum) : Prop where
  meets : ∀ n, Meets S n id (Finishes S) (outcome n) m
  limits : ∀ budget e m', m.resume budget = (.done (.error e), m') →
    e.kind ≠ .stackOverflow ∧ ∀ reason, e.kind ≠ .output reason

namespace Follows

variable {S : Setting} {m m' : Machine} {outcome : Nat → EStateM.Result Halt World Datum} {n : Nat} {d : Datum}
  {w : World} {kind : ErrorKind}

theorem not_escapes (h : Follows S m outcome) : ¬ m.Escapes := by
  rintro ⟨kind, m', hs, hk⟩
  obtain ⟨budget, hres⟩ := hs.ends.1
  obtain ⟨hover, hout⟩ := h.limits budget _ _ hres
  rcases hk with rfl | ⟨reason, rfl⟩
  · exact hover rfl
  · exact hout reason rfl

theorem halts (h : Follows S m outcome) (hr : outcome n = .ok d w) :
    ∃ m', m.Halts m' ∧ Mirrors S w m' ∧ S.lib.view m'.heap m'.lastValue = some d := by
  have hmeets := (h.meets n).resolve_left h.not_escapes
  rw [hr] at hmeets
  obtain ⟨k, m₁, hg, m', hs, hm, hv⟩ := hmeets
  exact ⟨m', ⟨k, m₁, hg, hs⟩, hm, hv⟩

theorem stops (h : Follows S m outcome) (hr : outcome n = .error (.failed kind) w) :
    ∃ m', m.Stops kind m' ∧ Mirrors S w m' := by
  have hmeets := (h.meets n).resolve_left h.not_escapes
  rw [hr] at hmeets
  exact hmeets

theorem goes (h : Follows S m outcome) (hr : outcome n = .error .exhausted w) : ∃ k m', n ≤ k ∧ m.Goes k m' := by
  have hmeets := (h.meets n).resolve_left h.not_escapes
  rw [hr] at hmeets
  exact hmeets

/-- The end of a script is the end of a run, since what it printed reaches its destination. -/
theorem haltOk (h : Follows S m outcome) (hh : m.Halts m') (hm : Mirrors S w m')
    (hv : S.lib.view m'.heap m'.lastValue = some d) :
    m'.haltOk.1 = .ok () ∧ S.lib.Agrees S.written m'.haltOk.2 w ∧
      S.lib.view m'.haltOk.2.heap m'.haltOk.2.lastValue = some d := by
  obtain ⟨budget, hres⟩ := hh.ends.1
  unfold Machine.haltOk at hres ⊢
  split
  · next hflush =>
      rw [if_pos hflush] at hres
      exact absurd rfl ((h.limits budget _ _ hres).2 Output.flushReason)
  · exact ⟨rfl, Mirrors.agrees (hm.congr rfl rfl rfl rfl), hv⟩

/-- With more fuel than a finished run took instructions, the reference ends too. -/
theorem of_done (h : Follows S m outcome) {budget : Nat} {r : Except RuntimeError Unit}
    (hres : m.resume budget = (.done r, m')) :
    (∃ d w m₁, outcome (budget + 1) = .ok d w ∧ m.Halts m₁ ∧ Mirrors S w m₁ ∧
      S.lib.view m₁.heap m₁.lastValue = some d) ∨
    ∃ kind w m₁, outcome (budget + 1) = .error (.failed kind) w ∧ m.Stops kind m₁ ∧ Mirrors S w m₁ := by
  match hr : outcome (budget + 1) with
  | .ok d w =>
      obtain ⟨m₁, hh, hm, hv⟩ := h.halts hr
      exact .inl ⟨d, w, m₁, rfl, hh, hm, hv⟩
  | .error (.failed kind) w =>
      obtain ⟨m₁, hs, hm⟩ := h.stops hr
      exact .inr ⟨kind, w, m₁, rfl, hs, hm⟩
  | .error .exhausted w =>
      obtain ⟨k, m₁, hk, hg⟩ := h.goes hr
      obtain ⟨m₂, hpaused⟩ := hg.paused (Nat.le_of_succ_le hk)
      rw [hres] at hpaused
      cases hpaused

theorem returns_iff (h : Follows S m outcome) (d : Datum) (w : World) :
    (∃ n, outcome n = .ok d w) ↔ ∃ budget m', m.resume budget = (.done (.ok ()), m') ∧
      S.lib.Agrees S.written m' w ∧ S.lib.view m'.heap m'.lastValue = some d := by
  constructor
  · rintro ⟨n, hr⟩
    obtain ⟨m', hh, hm, hv⟩ := h.halts hr
    obtain ⟨hok, hagrees, hv'⟩ := h.haltOk hh hm hv
    obtain ⟨budget, hres⟩ := hh.ends.1
    exact ⟨budget, _, by rw [hres, hok], hagrees, hv'⟩
  · rintro ⟨budget, m', hres, hagrees, hv⟩
    refine ⟨budget + 1, ?_⟩
    rcases h.of_done hres with ⟨d', w', m₁, hr, hh, hm, hv'⟩ | ⟨kind, w', m₁, hr, hs, hm⟩
    · obtain ⟨-, hagrees', hv'⟩ := h.haltOk hh hm hv'
      obtain ⟨-, rfl⟩ := hh.ends.2 hres
      rw [hv] at hv'
      cases hv'
      rw [hr, hagrees.unique hagrees']
    · obtain ⟨hr', -⟩ := hs.ends.2 hres
      cases hr'

theorem fails_iff (h : Follows S m outcome) (kind : ErrorKind) (w : World) :
    (∃ n, outcome n = .error (.failed kind) w) ↔ ∃ budget e m', m.resume budget = (.done (.error e), m') ∧
      e.kind = kind ∧ S.lib.Agrees S.written m' w := by
  constructor
  · rintro ⟨n, hr⟩
    obtain ⟨m', hs, hm⟩ := h.stops hr
    obtain ⟨budget, hres⟩ := hs.ends.1
    exact ⟨budget, _, _, hres, rfl, Mirrors.agrees (hm.congr rfl rfl rfl rfl)⟩
  · rintro ⟨budget, e, m', hres, rfl, hagrees⟩
    refine ⟨budget + 1, ?_⟩
    rcases h.of_done hres with ⟨d', w', m₁, hr, hh, hm, hv'⟩ | ⟨kind, w', m₁, hr, hs, hm⟩
    · obtain ⟨hok, -⟩ := h.haltOk hh hm hv'
      rw [← (hh.ends.2 hres).1] at hok
      cases hok
    · obtain ⟨he, rfl⟩ := hs.ends.2 hres
      cases he
      have hagrees' : S.lib.Agrees S.written (m₁.haltWith kind).2 w' :=
        Mirrors.agrees (hm.congr rfl rfl rfl rfl)
      rw [hr, hagrees.unique hagrees']
      rfl

theorem diverges_iff (h : Follows S m outcome) :
    (∀ n, ∃ w, outcome n = .error .exhausted w) ↔ ∀ budget, ∃ m', m.resume budget = (.paused, m') := by
  constructor
  · intro hall budget
    obtain ⟨w, hr⟩ := hall budget
    obtain ⟨k, m₁, hk, hg⟩ := h.goes hr
    exact hg.paused hk
  · intro hall n
    match hr : outcome n with
    | .ok d w =>
        obtain ⟨m₁, hh, -⟩ := h.halts hr
        obtain ⟨budget, hres⟩ := hh.ends.1
        obtain ⟨m₂, hpaused⟩ := hall budget
        rw [hres] at hpaused
        cases hpaused
    | .error (.failed kind) w =>
        obtain ⟨m₁, hs, -⟩ := h.stops hr
        obtain ⟨budget, hres⟩ := hs.ends.1
        obtain ⟨m₂, hpaused⟩ := hall budget
        rw [hres] at hpaused
        cases hpaused
    | .error .exhausted w => exact ⟨w, rfl⟩

end Follows

/-! ### The script -/

/-- A machine that has just started a script meets the reference, whatever the fuel. -/
theorem meets_script {S : Setting} (hS : S.Computes) {w : World} {m : Machine} {script : Handle} {p : Block}
    {f : FunctionObject} {code : List Spot} (hc : Coded S.heap script ⟨none, [], p⟩ f code)
    (hf : ∀ entry ∈ p.functions, S.lib.routine entry.1 = some entry.2) (hm : Mirrors S w m) (below : List Value)
    (n : Nat) :
    Meets S n id (Finishes S) ((p.run S.lib.host n).run w)
      (m.config [⟨script, 0, below.length⟩] (.object script :: below)) := by
  let A : Activation S := ⟨script, code, .object script, below, [], f, hc.object, hc.holds⟩
  have hargs : ([] : List Value).map (S.lib.view m.heap) = ([] : List Datum).reverse.map some := rfl
  have hrun := Routine.Laid.meets (A := A) hc.laid (List.Subset.refl code) (calls_invoke hS n) hf hm hargs rfl
  exact hrun.mono (Nat.le_refl n) fun d w m hl => hl.finishes rfl

/-- What stays the same while a machine runs whose functions are those of accepted sources and of its host. -/
def Collects.setting {m : Machine} {made : Handle → Prop} {routine : Handle → Option Routine}
    {host : Handle → Option HostFunction} (hc : Collects m.heap made routine)
    (hhost : ∀ k g, host k = some g → ∃ n, m.heap.native? k = some n ∧ n.arity = g.arity) : Setting where
  lib := ⟨routine, host⟩
  heap := m.heap
  written := m.output.written
  fits := ⟨hc.coded, hc.closed, hhost⟩

/-- The world that a machine begins a run with. -/
def Library.world (L : Library) (m : Machine) : World :=
  ⟨fun name => (m.global? name).bind (L.view m.heap), "", m.clock⟩

theorem mirrors_world {S : Setting} {m : Machine} (hm : m.Sound) (hheap : S.heap = m.heap)
    (hout : S.written = m.output.written)
    (hglobals : ∀ name v, m.global? name = some v → ∃ d, S.lib.view m.heap v = some d) :
    Mirrors S (S.lib.world m) m := by
  refine ⟨hm, hheap ▸ .refl _, fun name => ?_, ?_, rfl⟩
  · show (m.global? name).map (S.lib.view m.heap) = ((m.global? name).bind (S.lib.view m.heap)).map some
    cases hv : m.global? name with
    | none => rfl
    | some v =>
        obtain ⟨d, hd⟩ := hglobals name v hv
        rw [Option.map_some, Option.bind_some, hd]
        rfl
  · rw [hout]
    simp [Library.world]

/-- The functions of the host compute after a compilation what they computed before it. -/
theorem Collects.setting_computes {m m₁ : Machine} {made : Handle → Prop} {routine : Handle → Option Routine}
    {host : Handle → Option HostFunction} (hhost : m.HostedBy host) (hgrows : m.heap.Grows m₁.heap)
    (hc : Collects m₁.heap made routine)
    (hnatives : ∀ k g, host k = some g → ∃ n, m₁.heap.native? k = some n ∧ n.arity = g.arity) :
    (hc.setting hnatives).Computes := by
  intro k g n hg hn heap args ds hinterned hext hargs
  obtain ⟨n', hn', -, hbody⟩ := hhost.native hg
  have heq : m₁.heap.native? k = some n := hn
  rw [hgrows.keeps.native? hn'] at heq
  cases heq
  exact hbody (hc.setting hnatives).lib heap args ds rfl hinterned (hgrows.keeps.trans hext) hargs

/-- After a compilation the variables are those of before, and what they hold is known. -/
theorem Machine.KnownGlobals.view_grow {made : Handle → Prop} {m m₁ : Machine} {L : Library} (h : m.KnownGlobals made)
    (hm : m.Sound) (hgrows : m.heap.Grows m₁.heap) (hsame : m₁.globals = m.globals)
    (hcovers : ∀ k f, made k → m.heap.function? k = some f → ∃ r, L.routine k = some r)
    (hhosts : ∀ k n, m.heap.native? k = some n → ∃ g, L.host k = some g) (name : String) (v : Value)
    (hv : m₁.global? name = some v) : ∃ d, L.view m₁.heap v = some d := by
  rw [hm.global?_grow hgrows hsame] at hv
  obtain ⟨d, hd⟩ := (h name v hv).view hcovers hhosts
  exact ⟨d, Library.view_mono hgrows.keeps hd⟩

/-- **Compiler correctness.** On a machine whose global variables hold only what accepted sources and the host have
made, let a source be accepted, and let running its script end neither in a stack overflow nor in an error of the
output. Then the source has a tree, and there is a reading of the machine's functions as parts of the trees of
accepted sources, such that executing the tree, with the readings of the machine's clock in their order, returns a
value and leaves a world exactly if the run ends with a value and in a state that stand for them, it fails with an
error and leaves a world exactly if the run ends with that error in a state that stands for the world, and it diverges
exactly if the run never ends. -/
theorem Machine.Lived.compiler_correct {made : Handle → Prop} {m m₁ : Machine} {source : String} {script : Handle}
    {host : Handle → Option HostFunction} (hm : m.Lived made)
    (hglobals : m.KnownGlobals made) (hhost : m.HostedBy host)
    (hc : m.compile source = .ok (.ok script, m₁))
    (hlimits : ∀ budget e m', m₁.runFunction script budget = (.done (.error e), m') →
      e.kind ≠ .stackOverflow ∧ ∀ reason, e.kind ≠ .output reason) :
    ∃ (p : Block) (L : Library) (w : World),
      Block.ReadsAll (tokenize source) p ∧ L.host = host ∧
      (∀ k r, (k, r) ∈ p.routines script → L.routine k = some r) ∧
      (∀ k r, L.routine k = some r → FromSource m₁.heap k r) ∧
      w.printed = "" ∧ L.Agrees m₁.output.written m₁ w ∧
      (∀ d w', p.Returns host w d w' ↔ ∃ budget m', m₁.runFunction script budget = (.done (.ok ()), m') ∧
        L.Agrees m₁.output.written m' w' ∧ L.view m'.heap m'.lastValue = some d) ∧
      (∀ kind w', p.Fails host w kind w' ↔ ∃ budget e m', m₁.runFunction script budget = (.done (.error e), m') ∧
        e.kind = kind ∧ L.Agrees m₁.output.written m' w') ∧
      (p.Diverges host w ↔ ∀ budget, ∃ m', m₁.runFunction script budget = (.paused, m')) := by
  have hsound := hm.reached.sound
  obtain ⟨routine, hroutine⟩ := hm.collects
  obtain ⟨p, hreads, hmakes, hsourced⟩ := compile_accepted hsound.heap hc
  have hall := hroutine.accept hmakes (fun _ _ => Block.routines_closed) hsourced
  obtain ⟨hgrows, hsame, -⟩ := compile_frame hc
  have hnatives : ∀ k g, host k = some g → ∃ n, m₁.heap.native? k = some n ∧ n.arity = g.arity := by
    intro k g hg
    obtain ⟨n, hn, harity, -⟩ := hhost.native hg
    exact ⟨n, hgrows.keeps.native? hn, harity⟩
  let S : Setting := hall.setting hnatives
  have hS : S.Computes := hall.setting_computes hhost hgrows hnatives
  have hcovers : ∀ k f, made k → m.heap.function? k = some f → ∃ r, S.lib.routine k = some r :=
    fun k f hk hf => hall.covers k f (.inl hk) (hgrows.keeps.function? hf)
  have hhosts : ∀ k n, m.heap.native? k = some n → ∃ g, S.lib.host k = some g := by
    intro k n hn
    have hk := hhost k
    rw [hn] at hk
    exact hk.imp fun g hg => hg.1
  have hmirrors : Mirrors S (S.lib.world m₁) m₁ := mirrors_world (hsound.grow hgrows hsame) rfl rfl
    (hglobals.view_grow hsound hgrows hsame hcovers hhosts)
  have hroutines : ∀ k r, (k, r) ∈ p.routines script → S.lib.routine k = some r := by
    intro k r hr
    show ((p.routines script).lookup k).or (routine k) = some r
    rw [(lookup_eq_some_iff_mem hmakes.nodup).mpr hr]
    rfl
  obtain ⟨f, code, hcoded⟩ := hmakes.coded script ⟨none, [], p⟩ (List.mem_append_right _ (List.mem_singleton_self _))
  rcases runFunction_eq hcoded.object hcoded.arity with ⟨e, m', hkind, hrun⟩ | ⟨status, journal, m₂, hm₂, hrun⟩
  · exact absurd hkind (hlimits 0 e m' (hrun 0)).1
  · have hfollows : Follows S m₂ fun n => (p.run host n).run (S.lib.world m₁) := by
      refine ⟨fun n => ?_, fun budget e m' hres => hlimits budget e m' ((hrun budget).trans hres)⟩
      have hmeets := meets_script (m := { m₁ with status, journal, lastValue := .nil }) hS hcoded
        (fun entry he => hroutines entry.1 entry.2 (List.mem_append_left _ he)) (hmirrors.congr rfl rfl rfl rfl)
        m₁.stack.toList.reverse n
      rw [List.length_reverse, Array.length_toList, ← hm₂] at hmeets
      exact hmeets
    refine ⟨p, S.lib, S.lib.world m₁, hreads, rfl, hroutines, hall.sourced, rfl, hmirrors.agrees, ?_, ?_, ?_⟩
    · intro d w'
      simp only [hrun]
      exact hfollows.returns_iff d w'
    · intro kind w'
      simp only [hrun]
      exact hfollows.fails_iff kind w'
    · simp only [hrun]
      exact hfollows.diverges_iff

/-! ### Functions of a host -/

/-- The function that reads the clock does what it says. -/
theorem computes_clock (host : Handle → Option HostFunction) (start : Heap) :
    clockNative.Computes ⟨0, fun reading _ => .number reading⟩ host start := fun _ _ _ _ _ _ _ _ _ => rfl

/-- A function of the host that compares two values. -/
def sameNative : NativeObject where
  name := "same"
  arity := 2
  body
    | _, [x, y] => .bool (x.equal y)
    | _, _ => .nil

/-- What it computes: texts are compared by their characters. -/
def sameHost : HostFunction where
  arity := 2
  result
    | _, [d, e] => .bool (d.equal e)
    | _, _ => .nil

/-- A function of the host may compare handles, since equal texts are one object. -/
theorem computes_same (host : Handle → Option HostFunction) (start : Heap) :
    sameNative.Computes sameHost host start := by
  intro L heap args ds _ hinterned _ hargs reading
  match args, ds with
  | [x, y], [d, e] =>
      obtain ⟨hx, hy, -⟩ : L.view heap x = some d ∧ L.view heap y = some e ∧ True := by simpa using hargs
      exact congrArg (some ∘ Datum.bool) (Library.equal_view hinterned hx hy)
  | [], [] | [_], [_] | _ :: _ :: _ :: _, _ :: _ :: _ :: _ => rfl
  | [], _ :: _ | _ :: _, [] | [_], _ :: _ :: _ | _ :: _ :: _, [_] | [_, _], _ :: _ :: _ :: _
  | _ :: _ :: _ :: _, [_, _] => simp at hargs

/-- If each function of the host computes something, whatever the others do, the reference can be told of all. -/
theorem Machine.exists_hostedBy {m : Machine} (h : ∀ k n, m.heap.native? k = some n →
    ∃ g : HostFunction, n.arity = g.arity ∧ ∀ host start, n.Computes g host start) : ∃ host, m.HostedBy host := by
  choose g harity hcomputes using h
  refine ⟨fun k => (m.heap.native? k).attach.map fun n => g k n.1 n.2, fun k => ?_⟩
  split
  · next hn => simp [hn]
  · next n hn => exact ⟨g k n hn, by simp [hn], harity k n hn, hcomputes k n hn _ _⟩

/-- A script that compares and joins texts in a loop inside a function ends, so executing its tree ends. The texts are
compared by a function of the host. -/
theorem Machine.compiler_correct_loop : ∃ script m₁,
    ((create {} false 0 .silent).defineNative sameNative).compile
      "fun f(a) \x7b var b = \"\"; while (!same(a, b)) b = b + \"x\"; return b; \x7d print f(\"xx\");" =
        .ok (.ok script, m₁) ∧
    ∃ host p w, ((create {} false 0 .silent).defineNative sameNative).HostedBy host ∧ Block.ReadsAll (tokenize
      "fun f(a) \x7b var b = \"\"; while (!same(a, b)) b = b + \"x\"; return b; \x7d print f(\"xx\");") p ∧
      ¬ p.Diverges host w := by
  have hrun : (match ((create {} false 0 .silent).defineNative sameNative).compile
        "fun f(a) \x7b var b = \"\"; while (!same(a, b)) b = b + \"x\"; return b; \x7d print f(\"xx\");" with
      | .ok (.ok script, m₁) =>
        match (m₁.runFunction script 100).1 with
        | .done (.ok ()) => true
        | _ => false
      | _ => false) = true := by decide +kernel
  have hsound := (Reached.create {} false 0 .silent).sound
  have hknown := (knownGlobals_create {} false 0 .silent).defineNative hsound sameNative
  obtain ⟨host, hhost⟩ : ∃ host, ((create {} false 0 .silent).defineNative sameNative).HostedBy host := by
    refine exists_hostedBy fun k n hn => ?_
    obtain rfl | hclock := native?_defineNative hsound.heap hn
    · exact ⟨_, rfl, computes_same⟩
    · obtain ⟨-, rfl⟩ := native?_create_iff.mp hclock
      exact ⟨_, rfl, computes_clock⟩
  split at hrun
  · next script m₁ hc =>
      split at hrun
      · next hdone =>
          have hdone' : m₁.runFunction script 100 = (.done (.ok ()), (m₁.runFunction script 100).2) := by rw [← hdone]
          have hlimits : ∀ budget e m', m₁.runFunction script budget = (.done (.error e), m') →
              e.kind ≠ .stackOverflow ∧ ∀ reason, e.kind ≠ .output reason := by
            intro budget e m' he
            cases (runFunction_unique hdone' he).1
          obtain ⟨p, L, w, hreads, -, -, -, -, -, -, -, hdiv⟩ := Machine.Lived.compiler_correct
            (.native (.create ..) sameNative) hknown hhost hc hlimits
          refine ⟨script, m₁, hc, host, p, w, hhost, hreads, fun hd => ?_⟩
          obtain ⟨m', hpaused⟩ := hdiv.mp hd 100
          rw [hdone'] at hpaused
          cases hpaused
      · cases hrun
  · cases hrun

end Lox
