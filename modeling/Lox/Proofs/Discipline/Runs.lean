import Lox.Proofs.Discipline.Calls
import Lox.Proofs.History
import Lox.Proofs.Machine.Safety
import Lox.Proofs.Simulation.Runs

/-! Stack discipline of compiled code. Wherever a run of an accepted source stands, the number of values from the
base of the innermost call to the top of the stack is a matter of its function and of its instruction pointer alone:
one for the function, one for each variable in scope there, and one for each value that is still needed. It follows
that no run finds its stack too short or its code malformed. The machine's global variables may hold what other
accepted sources and the host have made; what rejected sources and the host have left elsewhere on the heap does not
matter. -/

namespace Lox

open Machine

/-! ### Steps and runs -/

namespace Stage

variable {S : Stage} {below : List Value} {m m' : Machine}

theorem values_config (m : Machine) (fs : List Frame) (vs : List Value) :
    (m.config fs vs).stack.toList.reverse = vs := by
  simp [config]

theorem Did.frames_ne_nil {i : Instr} {fs fs' : List Frame} {vs vs' : List Value} (h : Did i fs vs fs' vs') :
    fs' ≠ [] := by
  cases h <;> exact List.cons_ne_nil _ _

/-- A machine in the middle of a run, above the values of its host. -/
structure Running (S : Stage) (below : List Value) (m : Machine) : Prop where
  holds : S.Holds m
  stands : S.Stands below m.heap 0 m.frames m.stack.toList.reverse
  active : m.frames ≠ []

/-- The innermost call of a running machine stands at a place of its code, with as many values as that expects. -/
structure Poised (S : Stage) (below : List Value) (m : Machine) (k : Handle) (fs : List Frame) (own rest : List Value)
    (p : Spot) : Prop where
  active : S.Active below m k fs rest
  frames : m.frames = ⟨k, p.offset, rest.length⟩ :: fs
  values : m.stack.toList.reverse = own ++ .object k :: rest
  mem : p ∈ S.code k
  height : p.height = 1 + own.length
  known : ∀ v ∈ own, S.lib.Knows m.heap v

theorem Running.poised (h : S.Running below m) : ∃ k fs own rest p, S.Poised below m k fs own rest p := by
  obtain ⟨hholds, hstands, hactive⟩ := h
  generalize hfs : m.frames = fs at hstands hactive
  generalize hvs : m.stack.toList.reverse = vs at hstands
  cases hstands with
  | bottom => exact absurd rfl hactive
  | @call _ k r ip fs own rest hk hl hown hrest =>
      obtain ⟨p, hp, rfl, hheight⟩ := hl
      exact ⟨k, fs, own, rest, p, ⟨hholds, ⟨r, hk⟩, hrest⟩, hfs, hvs, hp, hheight, hown⟩

namespace Poised

variable {k : Handle} {fs : List Frame} {own rest : List Value} {p : Spot} (h : S.Poised below m k fs own rest p)

include h

theorem outcome : S.Outcome below p.instr rest m.frames m.stack.toList.reverse (Execution.step.run m) := by
  have ho := h.active.outcome h.mem h.height h.known
  rw [← h.frames, ← h.values, config_self] at ho
  exact ho

theorem next (hs : Execution.step.run m = .ok .next m') :
    S.Running below m' ∧ Did p.instr m.frames m.stack.toList.reverse m'.frames m'.stack.toList.reverse := by
  have ho := h.outcome
  rw [hs] at ho
  cases ho with
  | next hm hstands hd =>
      rw [values_config]
      exact ⟨⟨hm.congr rfl rfl, by rw [values_config]; exact hstands, hd.frames_ne_nil⟩, hd⟩

theorem halt (hs : Execution.step.run m = .ok .halt m') :
    S.Holds m' ∧ m.frames.length = 1 ∧ rest = below ∧ m'.frames = [] ∧ m'.stack.toList.reverse = below := by
  have ho := h.outcome
  rw [hs] at ho
  cases ho with
  | halt hm hfs hrest => exact ⟨hm.congr rfl rfl, hfs, hrest, rfl, values_config _ _ _⟩

theorem error {stop : Stop} (hs : Execution.step.run m = .error stop m') :
    S.Holds m' ∧ (∃ kind, stop = .error kind ∧ kind.Ordinary) ∧ rest <:+ m'.stack.toList.reverse := by
  have ho := h.outcome
  rw [hs] at ho
  cases ho with
  | error hm hkind hkept =>
      rw [values_config]
      exact ⟨hm.congr rfl rfl, ⟨_, rfl, hkind⟩, hkept⟩

theorem size : m.stack.size = rest.length + p.height := by
  have hlen := congrArg List.length h.values
  simp only [List.length_reverse, Array.length_toList, List.length_append, List.length_cons] at hlen
  rw [hlen, h.height]
  omega

end Poised

/-- What one step keeps, a run keeps. -/
theorem Running.goes {k : Nat} (h : S.Running below m) (hg : m.Goes k m') : S.Running below m' := by
  induction hg with
  | refl => exact h
  | step hs _ ih =>
      obtain ⟨_, _, _, _, _, hp⟩ := h.poised
      exact ih (hp.next hs).1

/-- How a run ends: with the values of its host as they were, or with an ordinary error above them. -/
structure Ended (S : Stage) (below : List Value) (result : Except RuntimeError Unit) (m : Machine) : Prop where
  holds : S.Holds m
  kept : below <:+ m.stack.toList.reverse
  ok : result = .ok () → m.frames = [] ∧ m.stack.toList.reverse = below
  ordinary : ∀ e, result = .error e → e.kind.Ordinary

theorem Holds.haltWith {kind : ErrorKind} (h : S.Holds m) (hkind : kind.Ordinary)
    (hkept : below <:+ m.stack.toList.reverse) :
    S.Ended below (.error (m.haltWith kind).1) (m.haltWith kind).2 where
  holds := h.congr rfl rfl
  kept := hkept
  ok := nofun
  ordinary e he := by
    cases he
    exact hkind

theorem Holds.haltOk (h : S.Holds m) (hfs : m.frames = []) (hvs : m.stack.toList.reverse = below) :
    S.Ended below m.haltOk.1 m.haltOk.2 := by
  unfold Machine.haltOk
  split
  · exact h.haltWith trivial (hvs ▸ List.suffix_refl _)
  · exact ⟨h.congr rfl rfl, hvs ▸ List.suffix_refl _, fun _ => ⟨hfs, hvs⟩, nofun⟩

theorem Running.ends {budget : Nat} {result : Except RuntimeError Unit} (h : S.Running below m)
    (hr : m.resume budget = (.done result, m')) : S.Ended below result m' := by
  induction budget generalizing m with
  | zero => cases hr
  | succ budget ih =>
      obtain ⟨_, _, _, rest, _, hp⟩ := h.poised
      cases hs : Execution.step.run m with
      | ok flow m₁ =>
          cases flow with
          | next =>
              rw [resume_succ hs] at hr
              exact ih (hp.next hs).1 hr
          | halt =>
              obtain ⟨hholds, -, -, hfs, hvs⟩ := hp.halt hs
              obtain ⟨rfl, rfl⟩ := Halts.ends ⟨0, m, .refl m, hs⟩ |>.2 hr
              exact hholds.haltOk hfs hvs
      | error stop m₁ =>
          obtain ⟨hholds, ⟨kind, rfl, hkind⟩, hkept⟩ := hp.error hs
          obtain ⟨rfl, rfl⟩ := Stops.ends ⟨0, m, .refl m, hs⟩ |>.2 hr
          exact hholds.haltWith hkind (hp.active.waits.suffix.trans hkept)

end Stage

/-! ### The beginning of a run -/

/-- Whatever the clock says, a function of the host returns one of its arguments, or something known. -/
def Machine.KnownHost (m : Machine) (made : Handle → Prop) : Prop :=
  ∀ k n, m.heap.native? k = some n → ∀ reading args,
    n.body reading args ∈ args ∨ (n.body reading args).Known m.heap made

/-- The machine stands between two instructions of a run of a function. -/
def Machine.Visits (m : Machine) (script : Handle) (m' : Machine) : Prop :=
  ∃ m₁ k, m.start script = (.paused, m₁) ∧ m₁.Goes k m'

/-- The shared parts of a machine are in order, and what can be reached from its global variables has been made by
accepted sources and by the host. The routines are those of the accepted sources. -/
structure Machine.Tidy (m : Machine) (routine : Handle → Option Routine) : Prop where
  sound : m.Sound
  collects : Collects m.heap (fun k => ∃ r, routine k = some r) routine
  globals : m.KnownGlobals fun k => ∃ r, routine k = some r
  host : m.KnownHost fun k => ∃ r, routine k = some r

theorem Collects.routed {heap : Heap} {made : Handle → Prop} {routine : Handle → Option Routine}
    (h : Collects heap made routine) : Collects heap (fun k => ∃ r, routine k = some r) routine where
  coded := h.coded
  closed := h.closed
  sourced := h.sourced
  old k hk := by
    obtain ⟨r, hr⟩ := hk
    obtain ⟨f, code, hc⟩ := h.coded k r hr
    exact Heap.lt_size_of_get? (Heap.function?_eq_some_iff.mp hc.object)
  covers k f hk _ := hk

theorem Value.Known.weaken {heap : Heap} {made made' : Handle → Prop} {v : Value} (h : v.Known heap made)
    (hm : ∀ k f, heap.function? k = some f → made k → made' k) : v.Known heap made' := by
  cases v with
  | object k =>
      obtain ⟨o, ho, hf⟩ := h
      exact ⟨o, ho, fun f hof => hm k f (Heap.function?_eq_some_iff.mpr (hof ▸ ho)) (hf f hof)⟩
  | nil | bool | number => trivial

theorem Collects.tidy {made : Handle → Prop} {m : Machine} {routine : Handle → Option Routine}
    (hroutine : Collects m.heap made routine) (hm : m.Sound) (hglobals : m.KnownGlobals made)
    (hhost : m.KnownHost made) : m.Tidy routine := by
  have hcovers : ∀ k f, m.heap.function? k = some f → made k → ∃ r, routine k = some r :=
    fun k f hf hk => hroutine.covers k f hk hf
  refine ⟨hm, hroutine.routed, fun name v hv => (hglobals name v hv).weaken hcovers, ?_⟩
  intro k n hn reading args
  exact (hhost k n hn reading args).imp_right fun hk => hk.weaken hcovers

theorem Machine.Lived.tidy {made : Handle → Prop} {m : Machine} (h : m.Lived made) (hglobals : m.KnownGlobals made)
    (hhost : m.KnownHost made) : ∃ routine, m.Tidy routine := by
  obtain ⟨routine, hroutine⟩ := h.collects
  exact ⟨routine, hroutine.tidy h.reached.sound hglobals hhost⟩

namespace Machine.Tidy

variable {m m' : Machine} {routine : Handle → Option Routine}

/-- There is a stage for the runs of a tidy machine. -/
theorem exists_stage (h : m.Tidy routine) :
    ∃ S : Stage, S.lib.routine = routine ∧ S.heap = m.heap ∧ S.Holds m := by
  have hcode : ∀ k, ∃ code, ∀ r, routine k = some r → ∃ f, Coded m.heap k r f code := by
    intro k
    cases hk : routine k with
    | none => exact ⟨[], nofun⟩
    | some r =>
        obtain ⟨f, code, hc⟩ := h.collects.coded k r hk
        refine ⟨code, ?_⟩
        rintro r' ⟨⟩
        exact ⟨f, hc⟩
  choose code hcode using hcode
  let lib : Library := ⟨routine, fun k => (m.heap.native? k).map fun n => ⟨n.arity, fun _ _ => .nil⟩⟩
  have hfits : lib.Fits m.heap := by
    refine ⟨h.collects.coded, h.collects.closed, fun k g hg => ?_⟩
    obtain ⟨n, hn, rfl⟩ := Option.map_eq_some_iff.mp hg
    exact ⟨n, hn, rfl⟩
  have hknows : ∀ v, v.Known m.heap (fun k => ∃ r, routine k = some r) → lib.Knows m.heap v := by
    intro v hv
    refine hv.view (fun k f hk _ => hk) fun k n hn => ⟨⟨n.arity, fun _ _ => .nil⟩, ?_⟩
    exact Option.map_eq_some_iff.mpr ⟨n, hn, rfl⟩
  let S : Stage := ⟨lib, m.heap, code, hfits, hcode,
    fun k n g _ hn reading args => (h.host k n hn reading args).imp_right (hknows _)⟩
  exact ⟨S, rfl, rfl, h.sound, .refl _, fun name v hv => hknows v (h.globals name v hv)⟩

/-- A heap that grew by strings and functions, under the same globals. -/
theorem grow {routine' : Handle → Option Routine} (h : m.Tidy routine) (hg : m.heap.Grows m'.heap)
    (hglobals : m'.globals = m.globals) (hhost : m.heap.SameHost m'.heap)
    (hc : Collects m'.heap (fun k => ∃ r, routine' k = some r) routine')
    (hmore : ∀ k r, routine k = some r → ∃ r', routine' k = some r') : m'.Tidy routine' := by
  have hknown : ∀ v, Value.Known m.heap (fun k => ∃ r, routine k = some r) v →
      v.Known m'.heap fun k => ∃ r, routine' k = some r :=
    fun v hv => (hv.mono hg.keeps).weaken fun k _ _ ⟨r, hr⟩ => hmore k r hr
  refine ⟨h.sound.grow hg hglobals, hc, fun name v hv => hknown v (h.globals name v ?_),
    fun k n hn reading args => (h.host k n (hhost k n hn) reading args).imp_right (hknown _)⟩
  rwa [h.sound.global?_grow hg hglobals] at hv

/-- After an accepted source the routines of its tree are there too. -/
theorem accept_makes (h : m.Tidy routine) {source : String} {script : Handle}
    (hc : m.compile source = .ok (.ok script, m')) : ∃ p, Block.ReadsAll (tokenize source) p ∧
      m.heap.Makes m'.heap (p.routines script) ∧ m'.Tidy (addRoutines (p.routines script) routine) := by
  obtain ⟨p, hreads, hmakes, hsourced⟩ := compile_accepted h.sound.heap hc
  have hall := (h.collects.accept hmakes (fun _ _ => Block.routines_closed) hsourced).routed
  obtain ⟨c, hrun, -, status, rfl⟩ := compile_eq_ok hc
  refine ⟨p, hreads, hmakes, h.grow hmakes.grows rfl (changes_compile hrun).sameHost hall fun k r hr => ?_⟩
  exact ⟨r, (addRoutines_old hmakes (h.collects.old k ⟨r, hr⟩)).trans hr⟩

/-- A function that the host adds keeps the machine tidy if what it returns is known. -/
theorem defineNative (h : m.Tidy routine) {n : NativeObject}
    (hn : ∀ reading args, n.body reading args ∈ args ∨
      (n.body reading args).Known m.heap fun k => ∃ r, routine k = some r) : (m.defineNative n).Tidy routine := by
  have hg := grows_defineNative m n
  refine ⟨h.sound.defineNative n, h.collects.grow hg, h.globals.defineNative h.sound n, fun k n' hn' reading args => ?_⟩
  rcases native?_defineNative h.sound.heap hn' with rfl | hold
  · exact (hn reading args).imp_right fun hk => hk.mono hg.keeps
  · exact (h.host k n' hold reading args).imp_right fun hk => hk.mono hg.keeps

theorem accept (h : m.Tidy routine) {source : String} {script : Handle} (hc : m.compile source = .ok (.ok script, m')) :
    ∃ p routine', m'.Tidy routine' ∧ routine' script = some ⟨none, [], p⟩ := by
  obtain ⟨p, -, hmakes, htidy⟩ := h.accept_makes hc
  exact ⟨p, _, htidy, addRoutines_new hmakes (List.mem_append_right _ (List.mem_singleton_self _))⟩

/-- A script of an accepted source starts at the beginning of its code, or overflows the stack. -/
theorem start (h : m.Tidy routine) {script : Handle} {p : Block} (hs : routine script = some ⟨none, [], p⟩) :
    ∃ S : Stage, S.lib.routine = routine ∧ S.heap = m.heap ∧ S.Holds m ∧
      ∀ progress m₁, m.start script = (progress, m₁) →
        (progress = .paused ∧ S.Running m.stack.toList.reverse m₁) ∨
          ∃ e, progress = .done (.error e) ∧ S.Ended m.stack.toList.reverse (.error e) m₁ := by
  obtain ⟨S, hroutine, hheap, hholds⟩ := h.exists_stage
  refine ⟨S, hroutine, hheap, hholds, fun progress m₁ hstart => ?_⟩
  have hscript : S.lib.routine script = some ⟨none, [], p⟩ := hroutine ▸ hs
  obtain ⟨f, hcoded⟩ := S.coded script _ hscript
  rw [hheap] at hcoded
  rcases start_eq hcoded.object hcoded.arity with ⟨e, status, journal, vs, heq, hkind, hkept⟩ | ⟨status, journal, heq⟩
  · rw [hstart] at heq
    cases heq
    refine .inr ⟨e, rfl, hholds.congr rfl rfl, ?_, nofun, ?_⟩
    · rw [Stage.values_config]
      exact hkept
    · rintro e' ⟨⟩
      rw [hkind]
      trivial
  · rw [hstart] at heq
    cases heq
    refine .inl ⟨rfl, hholds.congr rfl rfl, ?_, List.cons_ne_nil _ _⟩
    have hbase : m.stack.size = m.stack.toList.reverse.length := by simp
    have hbegin : S.Stands m.stack.toList.reverse m.heap 0 [⟨script, 0, m.stack.toList.reverse.length⟩]
        ([] ++ .object script :: m.stack.toList.reverse) := .call hscript (S.flows hscript).1 nofun .bottom
    rw [Stage.values_config]
    show S.Stands _ m.heap 0 [⟨script, 0, m.stack.size⟩] _
    rw [hbase]
    exact hbegin

/-- A run of a script of an accepted source keeps to the layout of the code, and ends as it should. -/
theorem runs (h : m.Tidy routine) {script : Handle} {p : Block} (hs : routine script = some ⟨none, [], p⟩) :
    ∃ S : Stage, S.lib.routine = routine ∧ S.heap = m.heap ∧ S.Holds m ∧
      (∀ m', m.Visits script m' → S.Running m.stack.toList.reverse m') ∧
      ∀ budget result m', m.runFunction script budget = (.done result, m') →
        S.Ended m.stack.toList.reverse result m' := by
  obtain ⟨S, hroutine, hheap, hholds, hstart⟩ := h.start hs
  refine ⟨S, hroutine, hheap, hholds, ?_, ?_⟩
  · rintro m' ⟨m₁, k, hpaused, hgoes⟩
    obtain ⟨-, hrunning⟩ | ⟨e, he, -⟩ := hstart _ _ hpaused
    · exact hrunning.goes hgoes
    · cases he
  · intro budget result m' hrun
    unfold runFunction at hrun
    split at hrun
    · next m₁ hpaused =>
        obtain ⟨-, hrunning⟩ | ⟨e, he, -⟩ := hstart _ _ hpaused
        · exact hrunning.ends hrun
        · cases he
    · obtain ⟨hprogress, -⟩ | ⟨e, he, hended⟩ := hstart _ _ hrun
      · cases hprogress
      · cases he
        exact hended

end Machine.Tidy

/-! ### Stack discipline -/

theorem Opcode.toByte_injective {op op' : Opcode} (h : op.toByte = op'.toByte) : op = op' := by
  have := congrArg Opcode.ofByte? h
  rwa [Opcode.ofByte?_toByte, Opcode.ofByte?_toByte, Option.some.injEq] at this

theorem Spot.Holds.opcode_eq {heap : Heap} {c : Chunk} {p : Spot} {op : Opcode} (h : p.Holds heap c)
    (hb : c.byteAt? p.offset = some op.toByte) : p.instr.opcode = op := by
  rw [h.1, Option.some.injEq] at hb
  exact Opcode.toByte_injective hb

/-- An instruction that accesses a local variable names the slot of a variable in scope. -/
theorem Spot.Flows.local_operand {code : List Spot} {known : Handle → Prop} {heap : Heap} {c : Chunk} {p : Spot}
    {operand : UInt8} (hf : p.Flows code known) (hh : p.Holds heap c)
    (hop : c.byteAt? p.offset = some Opcode.getLocal.toByte ∨ c.byteAt? p.offset = some Opcode.setLocal.toByte)
    (hoperand : c.byteAt? (p.offset + 1) = some operand) :
    ∃ name, (p.instr = .getLocal name operand.toNat ∨ p.instr = .setLocal name operand.toNat) ∧
      slotOf name p.scope = some operand.toNat := by
  have hop : p.instr.opcode = .getLocal ∨ p.instr.opcode = .setLocal := hop.imp hh.opcode_eq hh.opcode_eq
  have hslot : ∀ {slot}, (∃ i, c.byteAt? (p.offset + 1) = some i ∧ i.toNat = slot) → slot = operand.toNat := by
    rintro slot ⟨i, hi, rfl⟩
    rw [hoperand] at hi
    cases hi
    rfl
  cases hf with
  | @getLocal a t slot scope name hs =>
      obtain rfl := hslot hh.2
      exact ⟨name, .inl rfl, hs⟩
  | @setLocal a t slot scope name hs =>
      obtain rfl := hslot hh.2
      exact ⟨name, .inr rfl, hs⟩
  | value h => rcases h with rfl | rfl | rfl <;> simp [Instr.opcode] at hop
  | @constant a t scope literal wide => cases wide <;> simp [Instr.opcode] at hop
  | @unary a t scope op => cases op <;> simp [Instr.opcode, UnaryOp.opcode] at hop
  | @binary a t scope op => cases op <;> simp [Instr.opcode, BinaryOp.opcode] at hop
  | getGlobal | setGlobal | defineGlobal | pop | print | jump | loop | jumpIfFalse | call | ret =>
      simp [Instr.opcode] at hop

/-- **Stack discipline.** On a machine whose global variables hold only what accepted sources and the host have made,
let a source be accepted. Then the code of each function has its places, and wherever a run of the script stands,
whatever the clock has said, the innermost call executes a function of an accepted source and is at one place of its
code; above its base lie its function, the variables in scope at that place, and the values that are pending there. An
instruction of that function that accesses a local variable names a slot between these, the one of the variable meant.
No run ends because the stack is too short or the code is not well formed. -/
theorem Machine.Lived.stack_discipline {made : Handle → Prop} {m m₁ : Machine} {source : String} {script : Handle}
    (hm : m.Lived made) (hglobals : m.KnownGlobals made) (hhost : m.KnownHost made)
    (hc : m.compile source = .ok (.ok script, m₁)) :
    ∃ code : Handle → List Spot,
      (∀ m', m₁.Visits script m' → ∃ frame fs f r p,
        m'.frames = frame :: fs ∧ FromSource m'.heap frame.function r ∧
        Coded m'.heap frame.function r f (code frame.function) ∧
        p ∈ code frame.function ∧ p.offset = frame.ip ∧ (∀ q ∈ code frame.function, q.offset = frame.ip → q = p) ∧
        m'.stack.size = frame.base + (1 + p.scope.length + p.pending) ∧
        ∀ q ∈ code frame.function, ∀ operand,
          (f.chunk.byteAt? q.offset = some Opcode.getLocal.toByte ∨
            f.chunk.byteAt? q.offset = some Opcode.setLocal.toByte) →
          f.chunk.byteAt? (q.offset + 1) = some operand →
          1 ≤ operand.toNat ∧ operand.toNat < 1 + q.scope.length + q.pending ∧
            ∃ name, (q.instr = .getLocal name operand.toNat ∨ q.instr = .setLocal name operand.toNat) ∧
              slotOf name q.scope = some operand.toNat) ∧
      ∀ budget e m', m₁.runFunction script budget = (.done (.error e), m') →
        e.kind ≠ .stackUnderflow ∧ (∀ byte, e.kind ≠ .unknownOpcode byte) ∧
        ∀ flaw, e.kind ≠ .invalidBytecode flaw := by
  obtain ⟨routine₀, htidy⟩ := hm.tidy hglobals hhost
  obtain ⟨p, routine, htidy, hscript⟩ := htidy.accept hc
  obtain ⟨S, hroutine, hheap, -, hvisits, hends⟩ := htidy.runs hscript
  refine ⟨S.code, ?_, ?_⟩
  · intro m' hm'
    obtain ⟨k, fs, own, rest, p, hp⟩ := (hvisits m' hm').poised
    obtain ⟨r, hr⟩ := hp.active.routine
    obtain ⟨f, hcoded⟩ := S.coded k r hr
    have hcoded := hcoded.grow hp.active.holds.keeps
    have hsourced := (htidy.collects.sourced k r (hroutine ▸ hr)).grow (hheap ▸ hp.active.holds.keeps)
    refine ⟨_, fs, f, r, p, hp.frames, hsourced, hcoded, hp.mem, rfl, ?_, hp.size, ?_⟩
    · exact fun q hq heq => hcoded.whole.eq_of_offset hq hp.mem heq
    · intro q hq operand hop hoperand
      obtain ⟨name, hname, hslot⟩ := ((S.flows hr).2 q hq).local_operand (hcoded.holds q hq) hop hoperand
      have hbounds := slotOf_bounds hslot
      exact ⟨hbounds.1, by omega, name, hname, hslot⟩
  · intro budget e m' hrun
    have hordinary := (hends budget _ m' hrun).ordinary e rfl
    refine ⟨?_, fun byte => ?_, fun flaw => ?_⟩ <;> intro heq <;> rw [heq] at hordinary <;> exact hordinary

/-! ### A new machine -/

theorem Machine.knownHost_create (limits : Limits) (printCode : Bool) (clock : Clock) (journal : Journal) :
    (create limits printCode clock journal).KnownHost fun _ => False := by
  intro k n hn reading args
  obtain ⟨-, rfl⟩ := native?_create_iff.mp hn
  exact .inr trivial

/-- The machine of a run that can go on. -/
def Machine.paused? : Progress × Machine → Option Machine
  | (.paused, m) => some m
  | _ => none

theorem Machine.paused?_eq_some {r : Progress × Machine} {m : Machine} : paused? r = some m ↔ r = (.paused, m) := by
  obtain ⟨progress, m'⟩ := r
  cases progress <;> simp [paused?]

/-- A run that is paused has carried out its budget. -/
theorem Machine.goes_of_paused {limits : Limits} {m m' : Machine} {budget : Nat} (hm : m.Within limits)
    (h : m.resume budget = (.paused, m')) : m.Goes budget m' := by
  induction budget generalizing m with
  | zero =>
      cases h
      exact .refl _
  | succ budget ih =>
      obtain ⟨m₁, hm₁, ⟨flow, hs⟩ | ⟨kind, hs⟩⟩ := (Execution.safe_step hm).run
      · cases flow with
        | next =>
            rw [resume_succ hs] at h
            exact .step hs (ih hm₁ h)
        | halt =>
            unfold resume at h
            rw [Execution.steps, Execution.run_bind_of_ok hs] at h
            cases h
      · unfold resume at h
        rw [Execution.steps, Execution.run_bind_of_error hs] at h
        cases h

/-- In a call with a parameter and a variable, three values lie above the base before the variable is read. -/
theorem Machine.discipline_inside_call : ∃ script m₁ m' frame, ∃ p : Spot,
    (create {} false 0 .silent).compile "fun f(a) \x7b var b = a; return b; \x7d print f(1);" = .ok (.ok script, m₁) ∧
    m₁.Visits script m' ∧ m'.frames.length = 2 ∧ m'.stack.size = 4 ∧ m'.frames.head? = some frame ∧
    p.offset = frame.ip ∧ m'.stack.size = frame.base + (1 + p.scope.length + p.pending) := by
  have hrun : (((create {} false 0 .silent).compile
      "fun f(a) \x7b var b = a; return b; \x7d print f(1);").toOption.any fun compiled =>
      compiled.1.toOption.any fun script => (paused? (compiled.2.start script)).any fun m₂ =>
      (paused? (m₂.resume 6)).any fun m' => m'.frames.length == 2 && m'.stack.size == 4) = true := by decide +kernel
  simp only [Option.any_eq_true, toOption_eq_some, paused?_eq_some] at hrun
  obtain ⟨⟨_, m₁⟩, hc, script, rfl, m₂, hstart, m', hresume, hrun⟩ := hrun
  rw [Bool.and_eq_true, beq_iff_eq, beq_iff_eq] at hrun
  have hwithin : m₂.Within {} := by
    have hop : m₁.Operated {} := .compile (.create ..) hc
    have := (proceeds_start hop.within script).1
    rwa [hstart] at this
  have hvisits : m₁.Visits script m' := ⟨m₂, 6, hstart, goes_of_paused hwithin hresume⟩
  obtain ⟨code, hall, -⟩ := Lived.stack_discipline (.create ..) (knownGlobals_create _ _ _ _)
    (knownHost_create _ _ _ _) hc
  obtain ⟨frame, fs, f, r, p, hframes, -, -, -, hip, -, hsize, -⟩ := hall m' hvisits
  refine ⟨script, m₁, m', frame, p, hc, hvisits, hrun.1, hrun.2, ?_, hip, hsize⟩
  rw [hframes, List.head?_cons]

end Lox
