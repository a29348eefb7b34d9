import Lox.Machine.Run
import Lox.Proofs.Twins.Compiling
import Lox.Proofs.Twins.Steps

/-! Scripts that run side by side on machines whose functions have the same code. Both read the same instructions, so
both do the same from the start of the script to its end, and a script that fails is reported in the same words. -/

namespace Lox

open Execution

namespace Pairing

variable {R : Handle → Handle → Prop} {m m' : Machine} {h h' : Heap} {r : Nat}

theorem exact_room : (exact R).Room r m := .inr (.inl rfl)

/-! ### Reading instructions -/

/-- The functions of the innermost calls have the same code, if they are functions. -/
theorem functions_cases (hc : Heap.Copies R h h') {f f' : Frame} (hf : (exact R).Frames f f') :
    h.function? f.function = none ∧ h'.function? f'.function = none ∨
      ∃ g g', h.function? f.function = some g ∧ h'.function? f'.function = some g' ∧
        g.chunk.Twins ((exact R).Alike h h') g'.chunk ∧ h.SameName h' g.name g'.name := by
  cases hc.links.objects _ _ hf.abreast.1 with
  | native ha hb => exact .inl ⟨by simp [Heap.function?, Heap.native?_eq_some_iff.mp ha],
      by simp [Heap.function?, Heap.native?_eq_some_iff.mp hb]⟩
  | function ha hb _ hname => exact .inr ⟨_, _, ha, hb, hc.code _ _ _ _ hf.abreast.1 ha hb, hname⟩

theorem together_readByte (hc : Heap.Copies R h h') : (exact R).Together h h' r readByte readByte r Equal := by
  intro m m' hm hk hk' hr
  have hc := hc.later hm.links hk hk'
  have hnone : ∀ {m : Machine}, m.frames = [] → readByte.run m = .error (.error (.invalidBytecode .noFrame)) m := by
    intro m h
    unfold readByte
    rw [run_bind_of_ok (EStateM.run_get _), h]
    rfl
  have hsome : ∀ {m : Machine} {f fs}, m.frames = f :: fs → readByte.run m =
      ((m.heap.function? f.function).bind (·.chunk.byteAt? f.ip)).elim
        (.error (.error (.invalidBytecode .pointerOutOfBounds)) m)
        fun byte => .ok byte { m with frames := { f with ip := f.ip + 1 } :: fs } := by
    intro m f fs h
    unfold readByte
    rw [run_bind_of_ok (EStateM.run_get _), h]
    simp only
    cases (m.heap.function? f.function).bind (·.chunk.byteAt? f.ip) with
    | none => rfl
    | some byte =>
        rw [run_bind_of_ok (EStateM.run_modify ..), h]
        rfl
  rcases frames_cases hm.frames with ⟨hfs, hfs'⟩ | ⟨f, fs, f', fs', hfs, hfs', hf, hrest⟩
  · rw [hnone hfs, hnone hfs']
    exact .error hm (.refl _) (.refl _)
  · have hbyte : (m.heap.function? f.function).bind (·.chunk.byteAt? f.ip) =
        (m'.heap.function? f'.function).bind (·.chunk.byteAt? f'.ip) := by
      rcases functions_cases hc hf with ⟨h, h'⟩ | ⟨g, g', h, h', hcode, -⟩
      · rw [h, h']
        rfl
      · rw [h, h', Option.bind_some, Option.bind_some, Chunk.byteAt?, Chunk.byteAt?, hcode.code, hf.abreast.2]
    rw [hsome hfs, hsome hfs', ← hbyte]
    cases (m.heap.function? f.function).bind (·.chunk.byteAt? f.ip) with
    | none => exact .error hm (.refl _) (.refl _)
    | some byte =>
        have hnext : (exact R).Frames { f with ip := f.ip + 1 } { f' with ip := f'.ip + 1 } :=
          ⟨⟨hf.abreast.1, congrArg (· + 1) hf.abreast.2⟩, hf.base, hf.above⟩
        exact .ok (hm.own hm.size hm.stack (.cons hnext hrest) hm.last hm.output) (.refl _) (.refl _) exact_room rfl

theorem together_readWord (hc : Heap.Copies R h h') : (exact R).Together h h' r readWord readWord r Equal := by
  refine (together_readByte hc).bind fun k k' low low' hk hk' hlow => ((together_readByte hc).later hk hk').bind
    fun _ _ high high' _ _ hhigh => .pure fun _ _ _ _ => ?_
  rw [hlow, hhigh]

theorem together_readSigned (hc : Heap.Copies R h h') : (exact R).Together h h' r readSigned readSigned r Equal :=
  (together_readWord hc).bind fun _ _ _ _ _ _ hword => .pure fun _ _ _ _ => by rw [hword]

theorem together_constant (hc : Heap.Copies R h h') (index : Nat) :
    (exact R).Together h h' r (constant index) (constant index) r (exact R).Alike := by
  intro m m' hm hk hk' hr
  have hc := hc.later hm.links hk hk'
  have hrun : ∀ m : Machine, (constant index).run m =
      ((m.frames.head?.bind fun frame => m.heap.function? frame.function).bind (·.chunk.constant? index)).elim
        (.error (.error (.invalidBytecode .constantOutOfRange)) m) fun v => .ok v m := by
    intro m
    unfold constant
    rw [run_bind_of_ok (EStateM.run_get _)]
    cases (m.frames.head?.bind fun frame => m.heap.function? frame.function).bind (·.chunk.constant? index) <;> rfl
  have hvalue : Option.Rel ((exact R).Alike m.heap m'.heap)
      ((m.frames.head?.bind fun frame => m.heap.function? frame.function).bind (·.chunk.constant? index))
      ((m'.frames.head?.bind fun frame => m'.heap.function? frame.function).bind (·.chunk.constant? index)) := by
    rcases frames_cases hm.frames with ⟨hfs, hfs'⟩ | ⟨f, fs, f', fs', hfs, hfs', hf, -⟩
    · rw [hfs, hfs']
      exact .none
    · rw [hfs, hfs', List.head?_cons, List.head?_cons, Option.bind_some, Option.bind_some]
      rcases functions_cases hc hf with ⟨h, h'⟩ | ⟨g, g', h, h', hcode, -⟩
      · rw [h, h']
        exact .none
      · rw [h, h']
        exact hcode.constants index
  rw [hrun, hrun]
  rcases rel_cases hvalue with ⟨h, h'⟩ | ⟨v, v', h, h', hv⟩
  · rw [h, h']
    exact .error hm (.refl _) (.refl _)
  · rw [h, h']
    exact .ok hm (.refl _) (.refl _) hr hv

theorem together_readName (hc : Heap.Copies R h h') : (exact R).Together h h' r readName readName r Heap.SameKey := by
  refine (together_readByte hc).bind fun k k' index index' hk hk' hindex => ?_
  obtain rfl : index = index' := hindex
  refine ((together_constant hc index.toNat).later hk hk').bind fun l l' v v' _ _ hv => ?_
  intro m m' hm he he' hr
  have hv := hv.mono he he'
  rw [run_bind_of_ok (EStateM.run_get m), run_bind_of_ok (EStateM.run_get m')]
  cases hv with
  | nil | bool | number => exact .error hm (.refl _) (.refl _)
  | @object a b hab =>
      simp only [Value.handle?, Option.bind_some]
      rcases hm.links.string? hab with ⟨s, t, hs, ht, hst⟩ | ⟨-, hs, ht⟩
      · have hkey : m.heap.key? a = some ⟨a, s.hash⟩ := by rw [Heap.key?, hs]; rfl
        have hkey' : m'.heap.key? b = some ⟨b, t.hash⟩ := by rw [Heap.key?, ht]; rfl
        rw [hkey, hkey']
        exact .ok hm (.refl _) (.refl _) hr ⟨hkey, hkey', s, t, hs, ht, hst⟩
      · have hkey : m.heap.key? a = none := by rw [Heap.key?, hs]; rfl
        have hkey' : m'.heap.key? b = none := by rw [Heap.key?, ht]; rfl
        rw [hkey, hkey']
        exact .error hm (.refl _) (.refl _)

/-- Equal distances lead to the same place. -/
theorem exact_leads {d : Int} (hm : (exact R).Machines m m') : (exact R).Leads m m' d d := by
  intro f fs f' fs' hfs hfs'
  obtain ⟨g, gs, g', gs', h, h', hf, -⟩ := (frames_cases hm.frames).resolve_left fun h => by simp [hfs] at h
  rw [hfs] at h
  rw [hfs'] at h'
  cases h
  cases h'
  rw [← hf.abreast.2]
  by_cases hneg : (f.ip : Int) + d < 0
  · exact .inl ⟨hneg, hneg⟩
  · exact .inr ⟨by omega, by omega, hf.abreast.1, rfl⟩

/-- Instructions that do the same on all machines with two heaps. -/
def Alikes (T : Pairing) (h h' : Heap) (i i' : Fetched) : Prop :=
  ∀ m m', T.Machines m m' → m.heap = h → m'.heap = h' → T.Fetches m m' i i'

theorem together_operand (hc : Heap.Copies R h h') (op : Opcode) :
    (exact R).Together h h' r (operand op) (operand op) r (exact R).Alikes := by
  cases op
  case constant =>
    refine (together_readByte hc).bind fun k k' index index' hk hk' hindex => ?_
    obtain rfl : index = index' := hindex
    refine ((together_constant hc _).later hk hk').bind fun l l' v v' _ _ hv => .pure fun n n' hn hn' => ?_
    rintro m m' - rfl rfl
    exact .value (hv.mono hn hn')
  case constantWide =>
    refine (together_readWord hc).bind fun k k' index index' hk hk' hindex => ?_
    obtain rfl : index = index' := hindex
    refine ((together_constant hc _).later hk hk').bind fun l l' v v' _ _ hv => .pure fun n n' hn hn' => ?_
    rintro m m' - rfl rfl
    exact .value (hv.mono hn hn')
  case getLocal | setLocal =>
    refine (together_readByte hc).bind fun k k' slot slot' _ _ hslot => .pure fun n n' _ _ m m' _ _ _ => ?_
    obtain rfl : slot = slot' := hslot
    first
    | exact .getLocal (.inl rfl)
    | exact .setLocal (.inl rfl)
  case getGlobal | setGlobal | defineGlobal =>
    refine (together_readName hc).bind fun k k' key key' _ _ hkey => .pure fun n n' hn hn' => ?_
    rintro m m' - rfl rfl
    first
    | exact .getGlobal (hkey.mono hn hn')
    | exact .setGlobal (hkey.mono hn hn')
    | exact .defineGlobal (hkey.mono hn hn')
  case jump | loop | jumpIfFalse =>
    refine (together_readSigned hc).bind fun k k' d d' _ _ hd => .pure fun n n' _ _ m m' hm _ _ => ?_
    obtain rfl : d = d' := hd
    first
    | exact .jump (exact_leads hm)
    | exact .jumpIfFalse (exact_leads hm)
  case call =>
    refine (together_readByte hc).bind fun k k' count count' _ _ hcount => .pure fun n n' _ _ m m' _ _ _ => ?_
    obtain rfl : count = count' := hcount
    exact .call
  all_goals exact .pure fun n n' _ _ m m' _ _ _ => .plain rfl

theorem together_fetch (hc : Heap.Copies R h h') : (exact R).Together h h' r fetch fetch r (exact R).Alikes := by
  refine (together_readByte hc).bind fun k k' byte byte' hk hk' hbyte => ?_
  obtain rfl : byte = byte' := hbyte
  cases Opcode.ofByte? byte with
  | none => exact .fail _
  | some op => exact (together_operand hc op).later hk hk'

/-! ### Running -/

/-- Both machines carry out the next instruction, and it is the same. -/
theorem exact_step (hm : (exact R).Machines m m') (hc : Heap.Copies R m.heap m'.heap) :
    (exact R).Outcome 0 Equal m m' (step.run m) (step.run m') := by
  refine outcome_step ?_ fun _ _ _ => exact_room
  have hfetch := together_fetch (r := 0) hc m m' hm (.refl _) (.refl _) .zero
  unfold Fetching
  generalize fetch.run m = o at hfetch ⊢
  generalize fetch.run m' = o' at hfetch ⊢
  cases hfetch with
  | error hn hk hk' => exact .error hn hk hk'
  | ok hn hk hk' hr hi => exact .ok hn hk hk' hr (hi _ _ hn rfl rfl)

/-- Scripts that run side by side end alike, or have both not ended. -/
theorem exact_steps (budget : Nat) (hm : (exact R).Machines m m') (hc : Heap.Copies R m.heap m'.heap) :
    (exact R).Outcome 0 Any m m' ((steps budget).run m) ((steps budget).run m') :=
  outcome_steps (I := fun n n' => Heap.Copies R n.heap n'.heap) (fun _ _ hn hi => exact_step hn hi)
    (fun _ _ _ _ hi _ _ hl hk hk' => hi.later hl.links hk hk') budget hm hc

/-- Errors that happen at the same place read the same. -/
theorem runtimeError_eq (hm : (exact R).Machines m m') (hc : Heap.Copies R m.heap m'.heap) (kind : ErrorKind) :
    m.runtimeError kind = m'.runtimeError kind := by
  have hentry : ∀ f f', (exact R).Frames f f' → m.traceEntry f = m'.traceEntry f' := by
    intro f f' hf
    unfold Machine.traceEntry
    rcases functions_cases hc hf with ⟨h, h'⟩ | ⟨g, g', h, h', hcode, hname⟩
    · rw [h, h']
    · rw [h, h']
      simp only [Chunk.lineAt?, hcode.lines, hf.abreast.2, hname.functionName?_eq]
  have htrace : m.frames.map m.traceEntry = m'.frames.map m'.traceEntry := by
    have hframes := hm.frames
    generalize m.frames = fs at hframes
    generalize m'.frames = fs' at hframes
    induction hframes with
    | nil => rfl
    | cons hf _ ih => rw [List.map_cons, List.map_cons, hentry _ _ hf, ih]
  unfold Machine.runtimeError
  rw [htrace]

/-- Two runs have come equally far, and the machines are still side by side. -/
structure Runs (T : Pairing) (m m' : Machine) (p p' : Progress × Machine) : Prop where
  progress : p.1 = p'.1
  machines : T.Machines p.2 p'.2
  left : m.heap.Extends p.2.heap
  right : m'.heap.Extends p'.2.heap

theorem Runs.later {T : Pairing} {n n' : Machine} {p p' : Progress × Machine} (h : T.Runs n n' p p')
    (hk : m.heap.Extends n.heap) (hk' : m'.heap.Extends n'.heap) : T.Runs m m' p p' :=
  ⟨h.progress, h.machines, hk.trans h.left, hk'.trans h.right⟩

theorem runs_haltWith (hm : (exact R).Machines m m') (hc : Heap.Copies R m.heap m'.heap) (kind : ErrorKind) :
    (exact R).Runs m m' (.done (.error (m.haltWith kind).1), (m.haltWith kind).2)
      (.done (.error (m'.haltWith kind).1), (m'.haltWith kind).2) where
  progress := congrArg (fun e => Progress.done (.error e)) (runtimeError_eq hm hc kind)
  machines := hm.own hm.size hm.stack hm.frames hm.last hm.output
  left := .refl _
  right := .refl _

theorem runs_haltOk (hm : (exact R).Machines m m') (hc : Heap.Copies R m.heap m'.heap) :
    (exact R).Runs m m' (.done m.haltOk.1, m.haltOk.2) (.done m'.haltOk.1, m'.haltOk.2) := by
  unfold Machine.haltOk
  rw [← hm.output]
  split
  · exact runs_haltWith hm hc _
  · exact ⟨rfl, hm.own hm.size hm.stack hm.frames hm.last rfl, .refl _, .refl _⟩

/-- Stopping is reported in the same words. -/
theorem runs_resume (budget : Nat) (hm : (exact R).Machines m m') (hc : Heap.Copies R m.heap m'.heap) :
    (exact R).Runs m m' (m.resume budget) (m'.resume budget) := by
  have hsteps := exact_steps budget hm hc
  unfold Machine.resume
  generalize (steps budget).run m = o at hsteps ⊢
  generalize (steps budget).run m' = o' at hsteps ⊢
  cases hsteps with
  | ok hn hk hk' => exact (runs_haltOk hn (hc.later hn.links hk hk')).later hk hk'
  | @error n n' stop hn hk hk' =>
      cases stop with
      | error kind => exact (runs_haltWith hn (hc.later hn.links hk hk') kind).later hk hk'
      | fault cause => cases cause <;> exact ⟨rfl, hn, hk, hk'⟩

theorem together_load {a b : Handle} (hc : Heap.Copies R h h') (hab : R a b) :
    (exact R).Together h h' 1 (Machine.load a) (Machine.load b) 0 Any := by
  have hsame : (exact R).Same h h' a b := .inl hab
  refine (together_push (.object hsame)).bind fun k k' _ _ hk hk' _ => ?_
  cases hc.links.objects a b hab with
  | function ha hb harity _ hstart =>
      exact together_callFunction (hk.function? ha) (hk'.function? hb) harity hstart (Nat.le_refl 1)
  | native ha hb =>
      intro m m' hm he he' _
      have hrun : ∀ {m : Machine} {a : Handle} {n : NativeObject}, m.heap.native? a = some n →
          (callFunction a 0).run m = .error (.error .notCallable) m := by
        intro m a n hn
        have hnone : m.heap.function? a = none := by simp [Heap.function?, Heap.native?_eq_some_iff.mp hn]
        unfold callFunction
        rw [run_bind_of_ok (EStateM.run_get _), hnone]
        rfl
      rw [hrun ((hk.trans he).native? ha), hrun ((hk'.trans he').native? hb)]
      exact .error hm (.refl _) (.refl _)

theorem runs_start {a b : Handle} (hm : (exact R).Machines m m') (hc : Heap.Copies R m.heap m'.heap) (hab : R a b) :
    (exact R).Runs m m' (m.start a) (m'.start b) := by
  have hclear : (exact R).Machines { m with frames := [], lastValue := .nil }
    { m' with frames := [], lastValue := .nil } :=
    hm.own hm.size hm.stack .nil .nil hm.output
  have hload := together_load hc hab _ _ hclear (.refl _) (.refl _) exact_room
  unfold Machine.start
  generalize (Machine.load a).run { m with frames := [], lastValue := .nil } = o at hload ⊢
  generalize (Machine.load b).run { m' with frames := [], lastValue := .nil } = o' at hload ⊢
  cases hload with
  | ok hn hk hk' => exact ⟨rfl, hn.own hn.size hn.stack hn.frames hn.last hn.output, hk, hk'⟩
  | @error n n' stop hn hk hk' =>
      cases stop with
      | error kind => exact (runs_haltWith hn (hc.later hn.links hk hk') kind).later hk hk'
      | fault cause => exact ⟨rfl, hn, hk, hk'⟩

/-- **One script on two machines.** Running functions that go together comes to the same on both: the same result, or
the same error with the same trace, and what is printed and what stays on the machines is the same. -/
theorem runs_runFunction {a b : Handle} (budget : Nat) (hm : (exact R).Machines m m')
    (hc : Heap.Copies R m.heap m'.heap) (hab : R a b) : (exact R).Runs m m' (m.runFunction a budget)
    (m'.runFunction b budget) := by
  obtain ⟨hp, hn, hk, hk'⟩ := runs_start hm hc hab
  unfold Machine.runFunction
  generalize m.start a = o at hp hn hk hk' ⊢
  generalize m'.start b = o' at hp hn hk hk' ⊢
  obtain ⟨p, n⟩ := o
  obtain ⟨p', n'⟩ := o'
  obtain rfl : p = p' := hp
  cases p with
  | paused => exact (runs_resume budget hn (hc.later hn.links hk hk')).later hk hk'
  | done | fault => exact ⟨rfl, hn, hk, hk'⟩

end Pairing

end Lox
