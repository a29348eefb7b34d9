import Lox.Proofs.Discipline.Runs
import Lox.Session

/-! What calls and runs leave alone. A call works on the part of the stack above its base: as long as it is active
nothing below changes, and when it returns its result stands where its callee and its arguments stood. A run that
ends well gives the stack back as it was, and one that fails leaves at least that much. So a machine that runs one
source after another always comes back to an empty stack. -/

namespace Lox

open Machine Execution

/-! ### Notions -/

namespace Machine

/-- The bases of the active calls grow from the outermost to the innermost, and at each lies the function called. -/
structure Framed (m : Machine) : Prop where
  bases : m.frames.Pairwise fun inner outer => outer.base < inner.base
  functions : ∀ frame ∈ m.frames, m.stack[frame.base]? = some (.object frame.function)

/-- The machine goes on, and all the way at least so many calls are active. -/
inductive Inside (depth : Nat) : Machine → Machine → Prop where
  | refl {m : Machine} (hd : depth ≤ m.frames.length) : Inside depth m m
  | step {m m' m'' : Machine} (hd : depth ≤ m.frames.length) (hs : step.run m = .ok .next m')
      (hi : Inside depth m' m'') : Inside depth m m''

/-- The machine makes a call, and goes on until the call has returned. A function of the host returns at once. -/
inductive Returns (m : Machine) : Machine → Prop where
  | hosted {m' : Machine} (hs : step.run m = .ok .next m') (hd : m'.frames.length = m.frames.length) : Returns m m'
  | compiled {m₁ m₂ m' : Machine} (hs : step.run m = .ok .next m₁) (hi : Inside (m.frames.length + 1) m₁ m₂)
      (hr : step.run m₂ = .ok .next m') (hd : m'.frames.length = m.frames.length) : Returns m m'

/-- The machine is about to call with so many arguments. -/
def CallsWith (m : Machine) (frame : Frame) (count : UInt8) : Prop :=
  ∃ f, m.heap.function? frame.function = some f ∧ f.chunk.byteAt? frame.ip = some Opcode.call.toByte ∧
    f.chunk.byteAt? (frame.ip + 1) = some count

/-- One source after another is compiled and run. In between the host changes what is its own, so that the output may
fail and the clock goes on, and it adds functions, which return an argument or something that is no function. -/
inductive Session (m : Machine) : Machine → Prop where
  | start : Session m m
  | host {m₁ : Machine} (h : Session m m₁) (limits : Limits) (printCode : Bool) (output : Output) (clock : Clock)
      (journal : Journal) : Session m { m₁ with limits, printCode, output, clock, journal }
  | native {m₁ : Machine} (h : Session m m₁) {n : NativeObject}
      (hn : ∀ reading args, n.body reading args ∈ args ∨ (n.body reading args).Known m₁.heap fun _ => False) :
      Session m (m₁.defineNative n)
  | next {m₁ m₂ : Machine} (h : Session m m₁) {source : String} {budget : Nat}
      {result : Except LoxError (Option String)} (hi : m₁.interpretIn source budget = .ok (result, m₂)) : Session m m₂

end Machine

theorem Machine.Inside.depth {depth : Nat} {m m' : Machine} (h : Inside depth m m') : depth ≤ m.frames.length := by
  cases h <;> assumption

theorem Machine.getElem?_stack {m : Machine} {rest : List Value} (h : rest <:+ m.stack.toList.reverse) {i : Nat}
    (hi : i < rest.length) : m.stack[i]? = rest.reverse[i]? := by
  obtain ⟨above, heq⟩ := h
  have hstack : m.stack.toList = rest.reverse ++ above.reverse := by
    rw [← List.reverse_append, heq, List.reverse_reverse]
  rw [← Array.getElem?_toList, hstack, List.getElem?_append_left (by simpa using hi)]

theorem Spot.Holds.call_operand {heap : Heap} {c : Chunk} {p : Spot} {count : UInt8} (h : p.Holds heap c)
    (hop : c.byteAt? p.offset = some Opcode.call.toByte) (hoperand : c.byteAt? (p.offset + 1) = some count) :
    p.instr = .call count.toNat := by
  have hcall := h.opcode_eq hop
  obtain ⟨-, hholds⟩ := h
  generalize p.instr = i at hcall hholds
  cases i with
  | plain op =>
      obtain rfl : op = .call := hcall
      cases hholds
  | call n =>
      obtain ⟨i, hi, rfl⟩ := hholds
      rw [hoperand] at hi
      cases hi
      rfl
  | constant literal wide => cases wide <;> cases hcall
  | getLocal | setLocal | getGlobal | setGlobal | defineGlobal | jump | jumpIfFalse | loop => cases hcall

theorem Machine.stack_eq {m : Machine} {vs : List Value} (h : m.stack.toList.reverse = vs) :
    m.stack = vs.reverse.toArray := by
  rw [← h, List.reverse_reverse, Array.toArray_toList]

/-! ### Below the base of a call -/

namespace Stage

variable {S : Stage} {below : List Value} {m m' : Machine}

theorem Running.framed (h : S.Running below m) : m.Framed where
  bases := h.stands.bases
  functions frame hframe := by
    have := h.stands.function_at_base frame hframe
    rwa [List.reverse_reverse, Array.getElem?_toList] at this

theorem Poised.suffix {k : Handle} {fs : List Frame} {own rest : List Value} {p : Spot}
    (hp : S.Poised below m k fs own rest p) : rest <:+ m.stack.toList.reverse := by
  rw [hp.values]
  exact (List.suffix_cons _ _).trans (List.suffix_append _ _)

/-- A call is active, innermost or not, that has the values `rest` below its base and the calls `fs` around it. -/
structure Hosts (m : Machine) (label : Handle) (rest : List Value) (fs : List Frame) : Prop where
  frames : ∃ inner ip, m.frames = inner ++ ⟨label, ip, rest.length⟩ :: fs
  values : rest <:+ m.stack.toList.reverse

/-- Below the base of a call there is nothing that does not lie below the base of the innermost one. -/
theorem Hosts.suffix {label k : Handle} {rest own rest' : List Value} {fs fs' : List Frame} {p : Spot}
    (h : Hosts m label rest fs) (hp : S.Poised below m k fs' own rest' p) (hr : S.Running below m) :
    rest <:+ rest' := by
  obtain ⟨inner, ip, hframes⟩ := h.frames
  refine List.suffix_of_suffix_length_le h.values hp.suffix ?_
  have hbases := hr.stands.bases
  have hhead := hp.frames
  rw [hframes] at hhead hbases
  cases inner with
  | nil =>
      have hbase := congrArg Frame.base (List.cons.inj hhead).1
      exact Nat.le_of_eq hbase
  | cons first inner =>
      obtain ⟨rfl, -⟩ := List.cons.inj hhead
      exact Nat.le_of_lt (List.rel_of_pairwise_cons hbases (List.mem_append_right _ List.mem_cons_self))

/-- An instruction changes nothing below the base of the innermost call. -/
theorem Did.kept {i : Instr} {fs fs' : List Frame} {vs vs' : List Value} (h : Did i fs vs fs' vs') :
    ∃ k ip outer, ∃ rest : List Value, fs = ⟨k, ip, rest.length⟩ :: outer ∧ rest <:+ vs ∧ rest <:+ vs' := by
  have habove : ∀ (own : List Value) k rest, rest <:+ own ++ .object k :: rest := fun own k rest =>
    (List.suffix_cons _ _).trans (List.suffix_append _ _)
  cases h with
  | inside => exact ⟨_, _, _, _, rfl, habove _ _ _, habove _ _ _⟩
  | hosted => exact ⟨_, _, _, _, rfl, habove _ _ _, habove _ _ _⟩
  | @enter k label ip fs args own rest =>
      have hrest := (habove own k rest).trans (habove args label _)
      exact ⟨_, _, _, _, rfl, hrest, hrest⟩
  | leave => exact ⟨_, _, _, _, rfl, habove _ _ _, List.suffix_cons _ _⟩

/-- No step of a run changes anything below the base of the innermost call, not even one that fails. -/
theorem Poised.kept {k : Handle} {fs : List Frame} {own rest : List Value} {p : Spot}
    (hp : S.Poised below m k fs own rest p) : rest <:+ (after step m).stack.toList.reverse := by
  unfold Execution.after
  cases hs : step.run m with
  | ok flow m' =>
      cases flow with
      | halt =>
          obtain ⟨-, -, rfl, -, hvs⟩ := hp.halt hs
          rw [hvs]
      | next =>
          obtain ⟨k', ip, outer, rest', hframes, hbefore, hafter⟩ := (hp.next hs).2.kept
          have hlen : rest.length = rest'.length := by
            rw [hp.frames] at hframes
            exact congrArg Frame.base (List.cons.inj hframes).1
          have hsame : rest = rest' :=
            (List.suffix_of_suffix_length_le hp.suffix hbefore hlen.le).eq_of_length hlen
          rwa [hsame]
  | error stop m' => exact (hp.error hs).2.2

/-- A call stays active as long as no more than the calls inside it are closed. -/
theorem Did.frames_kept {i : Instr} {fs fs' inner outer : List Frame} {vs vs' : List Value} {label : Handle}
    {ip base : Nat} (h : Did i fs vs fs' vs') (hfs : fs = inner ++ ⟨label, ip, base⟩ :: outer)
    (hdepth : outer.length < fs'.length) :
    ∃ inner' ip', fs' = inner' ++ ⟨label, ip', base⟩ :: outer := by
  cases inner with
  | nil =>
      cases h with
      | inside | hosted =>
          cases hfs
          exact ⟨[], _, rfl⟩
      | enter =>
          cases hfs
          exact ⟨[_], _, rfl⟩
      | leave =>
          cases hfs
          exact absurd hdepth (Nat.lt_irrefl _)
  | cons first inner =>
      cases h with
      | inside | hosted =>
          cases hfs
          exact ⟨_ :: inner, ip, rfl⟩
      | enter =>
          cases hfs
          exact ⟨_ :: _ :: inner, ip, rfl⟩
      | leave => exact ⟨inner, ip, (List.cons.inj hfs).2⟩

theorem Hosts.next {label : Handle} {rest : List Value} {fs : List Frame} (h : Hosts m label rest fs)
    (hr : S.Running below m) (hs : step.run m = .ok .next m') (hdepth : fs.length < m'.frames.length) :
    Hosts m' label rest fs := by
  obtain ⟨k, fs', own, rest', p, hp⟩ := hr.poised
  obtain ⟨inner, ip, hframes⟩ := h.frames
  refine ⟨(hp.next hs).2.frames_kept hframes hdepth, (h.suffix hp hr).trans ?_⟩
  have := hp.kept
  rwa [Execution.after, hs] at this

/-- As long as a call is active, nothing below its base changes. -/
theorem Hosts.inside {label : Handle} {rest : List Value} {fs : List Frame} (h : Hosts m label rest fs)
    (hr : S.Running below m) (hi : Inside (fs.length + 1) m m') : Hosts m' label rest fs ∧ S.Running below m' := by
  induction hi with
  | refl => exact ⟨h, hr⟩
  | step _ hs hi ih =>
      obtain ⟨k, fs', own, rest', p, hp⟩ := hr.poised
      exact ih (h.next hr hs hi.depth) (hp.next hs).1

theorem Poised.cells_kept {k : Handle} {fs : List Frame} {own rest : List Value} {p : Spot}
    (hp : S.Poised below m k fs own rest p) (hr : S.Running below m) (hi : Inside m.frames.length m m') :
    ∀ i < rest.length, m'.stack[i]? = m.stack[i]? ∧ (after step m').stack[i]? = m.stack[i]? := by
  intro i hlt
  have hdepth : m.frames.length = fs.length + 1 := congrArg List.length hp.frames
  have hhosts : Hosts m k rest fs := ⟨⟨[], p.offset, hp.frames⟩, hp.suffix⟩
  obtain ⟨hhosts', hr'⟩ := hhosts.inside hr (hdepth ▸ hi)
  obtain ⟨k', fs', own', rest', p', hp'⟩ := hr'.poised
  have hafter : rest <:+ (after step m').stack.toList.reverse := (hhosts'.suffix hp' hr').trans hp'.kept
  rw [getElem?_stack hp.suffix hlt, getElem?_stack hhosts'.values hlt, getElem?_stack hafter hlt]
  exact ⟨rfl, rfl⟩

/-! ### Calls that return -/

theorem Poised.instr_call {k : Handle} {fs : List Frame} {own rest : List Value} {p : Spot} {count : UInt8}
    (hp : S.Poised below m k fs own rest p) (hc : m.CallsWith ⟨k, p.offset, rest.length⟩ count) :
    p.instr = .call count.toNat := by
  obtain ⟨f, hf, hop, hoperand⟩ := hc
  obtain ⟨f', hf', hholds⟩ := hp.active.has hp.mem
  obtain rfl : f' = f := by
    rw [hf] at hf'
    cases hf'
    rfl
  exact hholds.call_operand hop hoperand

/-- A call leaves its result in the place of callee and arguments, or opens a frame there. -/
theorem Did.call_cases {count base ip : Nat} {k : Handle} {fs fs' : List Frame} {vs vs' : List Value}
    (h : Did (.call count) (⟨k, ip, base⟩ :: fs) vs fs' vs') :
    ∃ args callee lower, vs = args ++ callee :: lower ∧ args.length = count ∧ base < lower.length ∧
      ((∃ v, fs' = ⟨k, ip + 2, base⟩ :: fs ∧ vs' = v :: lower) ∨
        ∃ label, fs' = ⟨label, 0, lower.length⟩ :: ⟨k, ip + 2, base⟩ :: fs ∧ vs' = vs) := by
  have hbase : ∀ own rest : List Value, rest.length < (own ++ .object k :: rest).length := by
    intro own rest
    rw [List.length_append, List.length_cons]
    omega
  cases h with
  | inside hi => exact absurd rfl (hi count)
  | @hosted _ _ _ args own rest callee v =>
      exact ⟨args, callee, own ++ .object k :: rest, by simp, rfl, hbase _ _, .inl ⟨v, rfl, rfl⟩⟩
  | @enter _ label _ _ args own rest =>
      exact ⟨args, .object label, _, rfl, rfl, hbase _ _, .inr ⟨label, rfl, rfl⟩⟩

/-- A call that is closed was the innermost one, and its result lies on what was below its base. -/
theorem Did.closes {i : Instr} {inner outer fs' : List Frame} {vs vs' : List Value} {label : Handle} {ip base : Nat}
    (h : Did i (inner ++ ⟨label, ip, base⟩ :: outer) vs fs' vs') (hdepth : fs'.length = outer.length) :
    fs' = outer ∧ ∃ v rest, vs' = v :: rest ∧ rest.length = base ∧ rest <:+ vs := by
  generalize hfs : inner ++ ⟨label, ip, base⟩ :: outer = fs at h
  have hlen := congrArg List.length hfs
  rw [List.length_append, List.length_cons] at hlen
  cases h with
  | inside | hosted | enter =>
      simp only [List.length_cons] at hlen hdepth
      omega
  | @leave k _ frame fs own rest v =>
      simp only [List.length_cons] at hlen hdepth
      obtain rfl : inner = [] := List.eq_nil_of_length_eq_zero (by omega)
      cases hfs
      exact ⟨rfl, v, rest, rfl, rfl, (List.suffix_cons _ _).trans (List.suffix_append _ _)⟩

/-- A call that returns replaces callee and arguments by one value, and nothing else. -/
theorem Poised.returns {k : Handle} {fs : List Frame} {own rest : List Value} {p : Spot} {count : Nat}
    (hp : S.Poised below m k fs own rest p) (hi : p.instr = .call count) (hret : m.Returns m') :
    ∃ args callee lower v, m.stack.toList.reverse = args ++ callee :: lower ∧ args.length = count ∧
      rest.length < lower.length ∧ m'.frames = ⟨k, p.offset + 2, rest.length⟩ :: fs ∧
      m'.stack.toList.reverse = v :: lower := by
  have hdepth : m.frames.length = fs.length + 1 := congrArg List.length hp.frames
  have hcall : ∀ {m₁}, step.run m = .ok .next m₁ → Did (.call count) (⟨k, p.offset, rest.length⟩ :: fs)
      m.stack.toList.reverse m₁.frames m₁.stack.toList.reverse := by
    intro m₁ hs
    have hdid := (hp.next hs).2
    rwa [hi, hp.frames] at hdid
  cases hret with
  | hosted hs hd =>
      obtain ⟨args, callee, lower, hvs, hcount, hlower, ⟨v, hfs', hvs'⟩ | ⟨label, hfs', -⟩⟩ := (hcall hs).call_cases
      · exact ⟨args, callee, lower, v, hvs, hcount, hlower, hfs', hvs'⟩
      · rw [hfs', hdepth] at hd
        simp at hd
  | @compiled m₁ m₂ _ hs hin hs' hd =>
      obtain ⟨args, callee, lower, hvs, hcount, hlower, ⟨v, hfs', -⟩ | ⟨label, hfs', hvs'⟩⟩ := (hcall hs).call_cases
      · have := hin.depth
        rw [hfs', hdepth, List.length_cons] at this
        omega
      · have hopened : Hosts m₁ label lower (⟨k, p.offset + 2, rest.length⟩ :: fs) := by
          refine ⟨⟨[], 0, hfs'⟩, ?_⟩
          rw [hvs', hvs]
          exact (List.suffix_cons _ _).trans (List.suffix_append _ _)
        obtain ⟨⟨⟨inner, ip, hframes⟩, hkept⟩, hr₂⟩ := hopened.inside (hp.next hs).1 (hdepth ▸ hin)
        obtain ⟨_, _, _, _, p₂, hp₂⟩ := hr₂.poised
        have hdid := (hp₂.next hs').2
        rw [hframes] at hdid
        obtain ⟨hclosed, v, rest', hresult, hlen, hsuffix⟩ := hdid.closes (hd.trans hdepth)
        have hsame : rest' = lower := (List.suffix_of_suffix_length_le hsuffix hkept hlen.le).eq_of_length hlen
        exact ⟨args, callee, lower, v, hvs, hcount, hlower, hclosed, hsame ▸ hresult⟩

end Stage

/-- The stack after a call has returned, in terms of the stack before. -/
theorem Machine.stack_of_call {m m' : Machine} {args lower : List Value} {callee v : Value}
    (h : m.stack.toList.reverse = args ++ callee :: lower) (h' : m'.stack.toList.reverse = v :: lower) :
    m.stack.size = lower.length + (args.length + 1) ∧
      m'.stack = (m.stack.extract 0 (m.stack.size - (args.length + 1))).push v := by
  rw [stack_eq h, stack_eq h']
  simp

/-! ### One source after another -/

/-- What stands for something is known. -/
theorem Library.Knows.known {L : Library} {heap : Heap} {v : Value} (h : L.Knows heap v) :
    v.Known heap fun k => ∃ r, L.routine k = some r := by
  obtain ⟨d, hd⟩ := h
  cases Library.shows_of_view hd with
  | nil | bool | number => trivial
  | text ho => exact ⟨_, ho, nofun⟩
  | function ho hr => exact ⟨_, ho, fun _ _ => ⟨_, hr⟩⟩
  | native ho => exact ⟨_, ho, nofun⟩

namespace Machine.Tidy

variable {m m' : Machine} {routine : Handle → Option Routine}

theorem congr (h : m.Tidy routine) (hheap : m'.heap = m.heap) (hglobals : m'.globals = m.globals) :
    m'.Tidy routine :=
  h.grow (hheap ▸ .refl _) hglobals (hheap ▸ .refl _) (hheap ▸ h.collects) fun _ r hr => ⟨r, hr⟩

theorem reject (h : m.Tidy routine) {source : String} {e : CompileError} (hc : m.compile source = .ok (.error e, m')) :
    m'.Tidy routine := by
  obtain ⟨c, hrun, -, status, rfl⟩ := compile_eq_ok hc
  have hgrows := grows_compile hrun
  exact h.grow hgrows rfl (changes_compile hrun).sameHost (h.collects.grow hgrows) fun _ r hr => ⟨r, hr⟩

/-- A run that keeps to its stage leaves a tidy machine. -/
theorem after_run {S : Stage} (h : m.Tidy routine) (hroutine : S.lib.routine = routine) (hm' : S.Holds m')
    (hmoves : Moves m m') : m'.Tidy routine where
  sound := hm'.sound
  collects := h.collects.grow hmoves.grows
  globals name v hv := by
    subst hroutine
    exact (hm'.globals name v hv).known
  host k n hn reading args :=
    (h.host k n (hmoves.changes.sameHost k n hn) reading args).imp_right fun hk => hk.mono hmoves.grows.keeps

/-- What compiling and running a source does to a tidy machine. -/
theorem interpret (h : m.Tidy routine) {source : String} {budget : Nat} {result : Except LoxError Unit}
    (hi : m.interpret source budget = .ok (result, m')) :
    (∃ routine', m'.Tidy routine') ∧ (result = .ok () → m'.frames = [] ∧ m'.stack = m.stack) ∧
      ∀ e, result = .error (.compile e) → m'.frames = m.frames ∧ m'.stack = m.stack := by
  rcases interpret_eq_ok hi with ⟨e, hc, rfl⟩ | ⟨script, m₁, r, hc, hfinal, rfl⟩
  · refine ⟨⟨routine, h.reject hc⟩, nofun, fun _ _ => ?_⟩
    obtain ⟨c, -, -, status, rfl⟩ := compile_eq_ok hc
    exact ⟨rfl, rfl⟩
  · obtain ⟨p, routine', htidy, hscript⟩ := h.accept hc
    obtain ⟨S, hroutine, -, -, -, hends⟩ := htidy.runs hscript
    have hended := hends budget r m' hfinal
    have hmoves : Moves m₁ m' := by
      have := moves_runFunction m₁ script budget
      rwa [hfinal] at this
    have hstack : m₁.stack = m.stack := by
      obtain ⟨c, -, -, status, rfl⟩ := compile_eq_ok hc
      rfl
    refine ⟨⟨routine', htidy.after_run hroutine hended.holds hmoves⟩, fun hok => ?_, fun e he => ?_⟩
    · cases r with
      | error e => cases hok
      | ok value =>
          obtain ⟨hframes, hvalues⟩ := hended.ok rfl
          exact ⟨hframes, by rw [stack_eq hvalues, hstack]; simp⟩
    · cases r <;> cases he

theorem interpretIn (h : m.Tidy routine) {source : String} {budget : Nat} {result : Except LoxError (Option String)}
    (hi : m.interpretIn source budget = .ok (result, m')) :
    (∃ routine', m'.Tidy routine') ∧ (m.stack = #[] → m'.stack = #[]) ∧ (m'.frames = [] ∨ m'.frames = m.frames) := by
  unfold Machine.interpretIn at hi
  cases hrun : m.interpret source budget with
  | error fault =>
      rw [hrun] at hi
      cases hi
  | ok answer =>
      obtain ⟨answer, m₂⟩ := answer
      rw [hrun] at hi
      obtain ⟨⟨routine', htidy⟩, hok, hrefused⟩ := h.interpret hrun
      cases answer with
      | ok value =>
          cases hi
          obtain ⟨hframes, hstack⟩ := hok rfl
          exact ⟨⟨routine', htidy⟩, fun hempty => hstack.trans hempty, .inl hframes⟩
      | error e =>
          cases e with
          | compile e =>
              cases hi
              obtain ⟨hframes, hstack⟩ := hrefused e rfl
              exact ⟨⟨routine', htidy⟩, fun hempty => hstack.trans hempty, .inr hframes⟩
          | runtime e =>
              cases hi
              exact ⟨⟨routine', htidy.congr rfl rfl⟩, fun _ => rfl, .inl rfl⟩

end Machine.Tidy

/-- The error at run time that an answer consists of, if it is one. -/
def runtimeError? : Except LoxError (Option String) → Option RuntimeError
  | .error (.runtime e) => some e
  | _ => none

theorem runtimeError?_eq_some {answer : Except LoxError (Option String)} {e : RuntimeError} :
    runtimeError? answer = some e ↔ answer = .error (.runtime e) := by
  unfold runtimeError?
  split <;> simp_all

/-- A session that begins with an empty stack comes back to it after every source. -/
theorem Machine.Session.empty {m m' : Machine} {routine : Handle → Option Routine} (hm : m.Tidy routine)
    (hs : Session m m') (hempty : m.stack = #[]) :
    (∃ routine', m'.Tidy routine') ∧ m'.stack = #[] ∧ (m.frames = [] → m'.frames = []) := by
  induction hs with
  | start => exact ⟨⟨routine, hm⟩, hempty, id⟩
  | host _ limits printCode output clock journal ih =>
      obtain ⟨⟨routine₁, htidy⟩, hrest⟩ := ih
      exact ⟨⟨routine₁, htidy.congr rfl rfl⟩, hrest⟩
  | @native m₁ _ n hn ih =>
      obtain ⟨⟨routine₁, htidy⟩, hrest⟩ := ih
      have hknown : (m₁.defineNative n).Tidy routine₁ := htidy.defineNative fun reading args =>
        (hn reading args).imp_right fun hk => hk.weaken fun _ _ _ hno => hno.elim
      obtain ⟨journal, heq⟩ := defineNative_turn htidy.sound.heap n
      refine ⟨⟨routine₁, hknown⟩, ?_⟩
      rw [heq]
      exact hrest
  | next _ hi ih =>
      obtain ⟨⟨routine₁, htidy⟩, hstack, hframes⟩ := ih
      obtain ⟨hrest, hkept, hclosed⟩ := htidy.interpretIn hi
      refine ⟨hrest, hkept hstack, fun hnone => ?_⟩
      rcases hclosed with hclosed | hclosed
      · exact hclosed
      · rw [hclosed, hframes hnone]

/-- **Calls and runs touch only their own part of the stack.** On a machine whose global variables hold only what
accepted sources and the host have made, and whose stack may hold anything, let a source be accepted. Throughout the
run of its script the bases of the active calls grow, and at each lies the function called; as long as a call is
active, no cell below its base changes; a call that returns leaves the cells below its callee as they were and
replaces callee and arguments by one value. A run that ends well gives back the stack as it was, with no active calls,
and a run that fails leaves a stack that starts with what was there. So if the stack is empty, it is empty again after
each of any number of sources, whatever became of them and whatever the host has changed in between, its clock and its
output among it, and no call is left active. -/
theorem Machine.Lived.frame_effect {made : Handle → Prop} {m : Machine} (hm : m.Lived made)
    (hglobals : m.KnownGlobals made) (hhost : m.KnownHost made) :
    (∀ source script m₁, m.compile source = .ok (.ok script, m₁) →
      (∀ m', m₁.Visits script m' → m'.Framed ∧ ∀ frame fs, m'.frames = frame :: fs →
        (∀ m'', Inside m'.frames.length m' m'' → ∀ i < frame.base,
          m''.stack[i]? = m'.stack[i]? ∧ (Execution.after Execution.step m'').stack[i]? = m'.stack[i]?) ∧
        ∀ count m'', m'.CallsWith frame count → m'.Returns m'' →
          frame.base + 1 + (count.toNat + 1) ≤ m'.stack.size ∧ m''.frames = { frame with ip := frame.ip + 2 } :: fs ∧
          ∃ v, m''.stack = (m'.stack.extract 0 (m'.stack.size - (count.toNat + 1))).push v) ∧
      (∀ budget m', m₁.runFunction script budget = (.done (.ok ()), m') → m'.stack = m₁.stack ∧ m'.frames = []) ∧
      ∀ budget e m', m₁.runFunction script budget = (.done (.error e), m') → m₁.stack.toList <+: m'.stack.toList) ∧
    (m.stack = #[] → ∀ m', Session m m' → m'.stack = #[] ∧ (m.frames = [] → m'.frames = [])) := by
  obtain ⟨routine₀, htidy₀⟩ := hm.tidy hglobals hhost
  refine ⟨fun source script m₁ hc => ?_, fun hempty m' hs => (hs.empty htidy₀ hempty).2⟩
  obtain ⟨p, routine, htidy, hscript⟩ := htidy₀.accept hc
  obtain ⟨S, hroutine, hheap, -, hvisits, hends⟩ := htidy.runs hscript
  refine ⟨fun m' hm' => ?_, fun budget m' hrun => ?_, fun budget e m' hrun => ?_⟩
  · have hr := hvisits m' hm'
    refine ⟨hr.framed, fun frame fs hframes => ?_⟩
    obtain ⟨k, fs', own, rest, p, hp⟩ := hr.poised
    obtain ⟨rfl, rfl⟩ := List.cons.inj (hframes.symm.trans hp.frames)
    refine ⟨fun m'' hi => hp.cells_kept hr hi, fun count m'' hcall hret => ?_⟩
    obtain ⟨args, callee, lower, v, hvs, hcount, hlower, hframes', hvs'⟩ := hp.returns (hp.instr_call hcall) hret
    obtain ⟨hsize, hstack⟩ := stack_of_call hvs hvs'
    rw [hcount] at hsize hstack
    refine ⟨?_, hframes', v, hstack⟩
    show rest.length + 1 + (count.toNat + 1) ≤ _
    omega
  · obtain ⟨hframes, hvalues⟩ := (hends budget _ m' hrun).ok rfl
    exact ⟨by rw [stack_eq hvalues]; simp, hframes⟩
  · have hkept := (hends budget _ m' hrun).kept
    exact List.reverse_suffix.mp hkept

/-- A new machine on whose stack the host has left a value. -/
def Machine.withValue : Machine := { create {} false 0 .silent with stack := #[.bool true] }

/-- The machine when its output can no longer be flushed. -/
def Machine.unflushed (m : Machine) : Machine := { m with output := { m.output with flushFails := true } }

/-- A script that calls a function with a variable of its own leaves the value of the host alone. And a session in which
a source ends well, one is cut short because its output cannot be flushed, and one is refused, ends with nothing on the
stack. -/
theorem Machine.frame_effect_above_value :
    (∃ script m₁ m',
      withValue.compile "fun f(a) \x7b var b = a; return b; \x7d print f(true);" = .ok (.ok script, m₁) ∧
      m₁.runFunction script 30 = (.done (.ok ()), m') ∧ m₁.stack.size = 1 ∧ m'.stack = m₁.stack ∧ m'.frames = []) ∧
    ∃ m₁ m₂ m₃ e e', (create {} false 0 .silent).interpretIn "print 1;" 10 = .ok (.ok none, m₁) ∧
      m₁.unflushed.interpretIn "print 2;" 10 = .ok (.error (.runtime e), m₂) ∧ e.kind = .output Output.flushReason ∧
      m₂.interpretIn "print" 10 = .ok (.error (.compile e'), m₃) ∧ m₃.stack = #[] ∧ m₃.frames = [] := by
  constructor
  · have hrun : (match withValue.compile "fun f(a) \x7b var b = a; return b; \x7d print f(true);" with
        | .ok (.ok script, m₁) =>
          match m₁.runFunction script 30 with
          | (.done (.ok _), _) => m₁.stack.size == 1
          | _ => false
        | _ => false) = true := by decide +kernel
    have hlived : withValue.Lived fun _ => False := .own (.create {} false 0 .silent) _ rfl rfl
    obtain ⟨hall, -⟩ := hlived.frame_effect (knownGlobals_create {} false 0 .silent)
      (knownHost_create {} false 0 .silent)
    split at hrun
    · next script m₁ hc =>
        split at hrun
        · next m' hdone =>
            obtain ⟨-, hok, -⟩ := hall _ script m₁ hc
            obtain ⟨hstack, hframes⟩ := hok 30 m' hdone
            exact ⟨script, m₁, m', hc, hdone, beq_iff_eq.mp hrun, hstack, hframes⟩
        · cases hrun
    · cases hrun
  · have hrun : (((create {} false 0 .silent).interpretIn "print 1;" 10).toOption.any fun first =>
        first.1.toOption.any (·.isNone) && (first.2.unflushed.interpretIn "print 2;" 10).toOption.any fun second =>
        (second.2.interpretIn "print" 10).toOption.any fun third =>
        third.1.toOption.isNone && (runtimeError? third.1).isNone &&
          (runtimeError? second.1).any fun e => e.kind == .output Output.flushReason) = true := by decide +kernel
    have hlived : (create {} false 0 .silent).Lived fun _ => False := .create {} false 0 .silent
    obtain ⟨-, hsession⟩ := hlived.frame_effect (knownGlobals_create {} false 0 .silent)
      (knownHost_create {} false 0 .silent)
    simp only [Option.any_eq_true, toOption_eq_some, runtimeError?_eq_some, Bool.and_eq_true, beq_iff_eq,
      Option.isNone_iff_eq_none] at hrun
    obtain ⟨⟨_, m₁⟩, h₁, ⟨_, rfl, rfl⟩, ⟨_, m₂⟩, h₂, ⟨r, m₃⟩, h₃, ⟨hrefused, hcompile⟩, e, rfl,
      hkind⟩ := hrun
    have hs : Session (create {} false 0 .silent) m₃ :=
      .next (.next (.host (.next .start h₁) _ _ _ _ _) h₂) h₃
    obtain ⟨hstack, hframes⟩ := hsession rfl m₃ hs
    cases r with
    | ok => cases hrefused
    | error cause =>
        cases cause with
        | runtime => cases hcompile
        | compile e' => exact ⟨m₁, m₂, m₃, e, e', h₁, h₂, hkind, h₃, hstack, hframes rfl⟩

end Lox
