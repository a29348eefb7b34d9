import Lox.Proofs.Listing
import Lox.Proofs.Machine.Failures
import Lox.Proofs.Machine.Frames

/-! The machine reads code as it is listed. Each instruction that a listing names is read from the same bytes, with
the same operand and up to the same offset; what a listing cannot name, or finds cut off, stops the machine. -/

namespace Lox

namespace Execution

open Machine

variable {m n : Machine} {k : Handle} {f : FunctionObject} {a base w : Nat} {fs : List Frame}
  {vs : List Value} {op : Opcode}

/-! ### Reading -/

theorem run_readByte_past (hf : m.heap.function? k = some f) (hend : f.chunk.byteAt? a = none) :
    readByte.run (m.config (⟨k, a, base⟩ :: fs) vs) =
      .error (.error (.invalidBytecode .pointerOutOfBounds)) (m.config (⟨k, a, base⟩ :: fs) vs) := by
  have hnone : (m.heap.function? k).bind (·.chunk.byteAt? a) = none := by rw [hf, Option.bind_some, hend]
  unfold readByte
  rw [run_bind_of_ok (EStateM.run_get _)]
  simp only [config, hnone]
  rfl

theorem run_readWord_past (hf : m.heap.function? k = some f) (hend : f.chunk.wordAt? a = none) :
    ∃ n, readWord.run (m.config (⟨k, a, base⟩ :: fs) vs) =
    .error (.error (.invalidBytecode .pointerOutOfBounds)) n := by
  unfold readWord
  cases hl : f.chunk.byteAt? a with
  | none => exact ⟨_, run_bind_of_error (run_readByte_past hf hl)⟩
  | some low =>
      have hh : f.chunk.byteAt? (a + 1) = none := Chunk.byteAt?_eq_none_iff.mpr (Chunk.wordAt?_eq_none_iff.mp hend)
      rw [run_bind_of_ok (run_readByte hf hl)]
      exact ⟨_, run_bind_of_error (run_readByte_past hf hh)⟩

theorem run_constant_past (hf : m.heap.function? k = some f) {i : Nat} (hend : f.chunk.constant? i = none) :
    (constant i).run (m.config (⟨k, a, base⟩ :: fs) vs) =
      .error (.error (.invalidBytecode .constantOutOfRange)) (m.config (⟨k, a, base⟩ :: fs) vs) := by
  have hnone : (m.heap.function? k).bind (·.chunk.constant? i) = none := by rw [hf, Option.bind_some, hend]
  unfold constant
  rw [run_bind_of_ok (EStateM.run_get _)]
  simp only [config, List.head?_cons, Option.bind_some, hnone]
  rfl

theorem run_fetch_of_opcode (hf : m.heap.function? k = some f) (hop : f.chunk.opcodeAt? a = some op) :
    fetch.run (m.config (⟨k, a, base⟩ :: fs) vs) = (operand op).run (m.config (⟨k, a + 1, base⟩ :: fs) vs) := by
  obtain ⟨byte, hb, hop⟩ := Option.bind_eq_some_iff.mp hop
  exact run_fetch hf hb hop

theorem fetch_unknown (hf : m.heap.function? k = some f) {byte : UInt8} (hb : f.chunk.byteAt? a = some byte)
    (hop : Opcode.ofByte? byte = none) : ∃ n,
    fetch.run (m.config (⟨k, a, base⟩ :: fs) vs) = .error (.error (.unknownOpcode byte.toNat)) n := by
  unfold fetch
  rw [run_bind_of_ok (run_readByte hf hb), hop]
  exact ⟨_, rfl⟩

/-- An instruction that is cut off. -/
theorem fetch_truncated (hf : m.heap.function? k = some f) (hop : f.chunk.opcodeAt? a = some op)
    (hcut : f.chunk.size ≤ a + op.operandSize) : ∃ n,
    fetch.run (m.config (⟨k, a, base⟩ :: fs) vs) = .error (.error (.invalidBytecode .pointerOutOfBounds)) n := by
  have hlt := Chunk.lt_size_of_opcodeAt? hop
  rw [run_fetch_of_opcode hf hop]
  cases op with
  | constant | getLocal | setLocal | call =>
      exact ⟨_, run_bind_of_error (run_readByte_past hf (Chunk.byteAt?_eq_none_iff.mpr hcut))⟩
  | getGlobal | setGlobal | defineGlobal =>
      exact ⟨_, run_bind_of_error (run_bind_of_error (run_readByte_past hf (Chunk.byteAt?_eq_none_iff.mpr hcut)))⟩
  | constantWide =>
      exact (run_readWord_past hf (Chunk.wordAt?_eq_none_iff.mpr hcut)).imp fun n hn => run_bind_of_error hn
  | jump | jumpIfFalse | loop =>
      exact (run_readWord_past hf (Chunk.wordAt?_eq_none_iff.mpr hcut)).imp fun n hn =>
        run_bind_of_error (run_bind_of_error hn)
  | pushNil | pushTrue | pushFalse | pop | add | subtract | multiply | divide | negate | equal | notEqual | greater
    | greaterEqual | less | lessEqual | not | ret | print =>
      have hcut : f.chunk.size ≤ a := hcut
      omega

/-- An instruction whose constant does not exist. -/
theorem fetch_badConstant (hf : m.heap.function? k = some f) (hop : f.chunk.opcodeAt? a = some op) {index : Nat}
    (hindex : f.chunk.Refers a op index) (hnone : f.chunk.constant? index = none) : ∃ n,
    fetch.run (m.config (⟨k, a, base⟩ :: fs) vs) = .error (.error (.invalidBytecode .constantOutOfRange)) n := by
  rw [run_fetch_of_opcode hf hop]
  cases hindex with
  | wide hw => exact ⟨_, (run_bind_of_ok (run_readWord hf hw)).trans (run_bind_of_error (run_constant_past hf hnone))⟩
  | short hkind hb =>
      have hname : ∃ n, readName.run (m.config (⟨k, a + 1, base⟩ :: fs) vs) =
          .error (.error (.invalidBytecode .constantOutOfRange)) n :=
        ⟨_, (run_bind_of_ok (run_readByte hf hb)).trans (run_bind_of_error (run_constant_past hf hnone))⟩
      obtain ⟨n, hname⟩ := hname
      rcases hkind with rfl | rfl | rfl | rfl
      · exact ⟨_, (run_bind_of_ok (run_readByte hf hb)).trans (run_bind_of_error (run_constant_past hf hnone))⟩
      · exact ⟨n, run_bind_of_error hname⟩
      · exact ⟨n, run_bind_of_error hname⟩
      · exact ⟨n, run_bind_of_error hname⟩

/-- What an opcode is read as. -/
inductive Reads (c : Chunk) (a : Nat) : Opcode → Fetched → Prop where
  | straight {op : Opcode} {i : Fetched} (hi : i.Straight) (hop : op ∉ [.ret, .call, .jump, .loop, .jumpIfFalse]) :
      Reads c a op i
  | ret : Reads c a .ret (.plain .ret)
  | call (count : Nat) : Reads c a .call (.call count)
  | jump {op : Opcode} {distance : Int} (hop : op = .jump ∨ op = .loop) (hd : c.signedAt? (a + 1) = some distance) :
      Reads c a op (.jump distance)
  | jumpIfFalse {distance : Int} (hd : c.signedAt? (a + 1) = some distance) :
      Reads c a .jumpIfFalse (.jumpIfFalse distance)

theorem run_constant_state {i : Nat} {v : Value} (h : (constant i).run m = .ok v n) : n = m := by
  unfold constant at h
  rw [run_bind_of_ok (EStateM.run_get m)] at h
  split at h <;> cases h
  rfl

theorem frames_readName {key : Key} (hf : m.heap.function? k = some f) (hlt : a < f.chunk.size)
    (h : readName.run (m.config (⟨k, a, base⟩ :: fs) vs) = .ok key n) : n.frames = ⟨k, a + 1, base⟩ :: fs := by
  obtain ⟨byte, hb⟩ := Chunk.exists_byteAt? hlt
  unfold readName at h
  rw [run_bind_of_ok (run_readByte hf hb)] at h
  obtain ⟨v, m₁, hconstant, h⟩ := run_bind_eq_ok.mp h
  obtain rfl := run_constant_state hconstant
  rw [run_bind_of_ok (EStateM.run_get _)] at h
  split at h <;> cases h
  rfl

/-- An instruction that was read with its operand. -/
theorem fetch_reads {i : Fetched} (hf : m.heap.function? k = some f) (hop : f.chunk.opcodeAt? a = some op)
    (h : fetch.run (m.config (⟨k, a, base⟩ :: fs) vs) = .ok i n) : a + op.operandSize < f.chunk.size ∧
      Reads f.chunk a op i ∧ n.frames = ⟨k, a + 1 + op.operandSize, base⟩ :: fs := by
  have hwhole : a + op.operandSize < f.chunk.size := by
    by_contra hcut
    have hfails : ∃ n', fetch.run (m.config (⟨k, a, base⟩ :: fs) vs) =
        .error (.error (.invalidBytecode .pointerOutOfBounds)) n' := fetch_truncated hf hop (by omega)
    obtain ⟨n', hn'⟩ := hfails
    rw [hn'] at h
    cases h
  refine ⟨hwhole, ?_⟩
  rw [run_fetch_of_opcode hf hop] at h
  cases op with
  | ret =>
      cases h
      exact ⟨.ret, rfl⟩
  | pushNil | pushTrue | pushFalse | pop | add | subtract | multiply | divide | negate | equal | notEqual | greater
    | greaterEqual | less | lessEqual | not | print =>
      cases h
      exact ⟨.straight (.plain rfl (by decide)) (by decide), rfl⟩
  | getLocal | setLocal =>
      obtain ⟨byte, hb⟩ := Chunk.exists_byteAt? (i := a + 1) hwhole
      rw [operand, run_bind_of_ok (run_readByte hf hb)] at h
      cases h
      exact ⟨.straight (by constructor) (by decide), rfl⟩
  | call =>
      obtain ⟨byte, hb⟩ := Chunk.exists_byteAt? (i := a + 1) hwhole
      rw [operand, run_bind_of_ok (run_readByte hf hb)] at h
      cases h
      exact ⟨.call _, rfl⟩
  | constant =>
      obtain ⟨byte, hb⟩ := Chunk.exists_byteAt? (i := a + 1) hwhole
      rw [operand, run_bind_of_ok (run_readByte hf hb)] at h
      obtain ⟨v, m₁, hconstant, h⟩ := run_bind_eq_ok.mp h
      obtain rfl := run_constant_state hconstant
      cases h
      exact ⟨.straight (.value _) (by decide), rfl⟩
  | constantWide =>
      obtain ⟨w, hw⟩ := Chunk.exists_wordAt? (i := a + 1) hwhole
      rw [operand, run_bind_of_ok (run_readWord hf hw)] at h
      obtain ⟨v, m₁, hconstant, h⟩ := run_bind_eq_ok.mp h
      obtain rfl := run_constant_state hconstant
      cases h
      exact ⟨.straight (.value _) (by decide), rfl⟩
  | getGlobal | setGlobal | defineGlobal =>
      obtain ⟨key, m₁, hname, h⟩ := run_bind_eq_ok.mp h
      cases h
      exact ⟨.straight (by constructor) (by decide), frames_readName hf hwhole hname⟩
  | jump | loop =>
      obtain ⟨w, hw⟩ := Chunk.exists_wordAt? (i := a + 1) hwhole
      rw [operand, run_bind_of_ok (run_readSigned hf hw)] at h
      cases h
      exact ⟨.jump (by simp) (Chunk.signedAt?_eq_some_iff.mpr ⟨w, hw, rfl⟩), rfl⟩
  | jumpIfFalse =>
      obtain ⟨w, hw⟩ := Chunk.exists_wordAt? (i := a + 1) hwhole
      rw [operand, run_bind_of_ok (run_readSigned hf hw)] at h
      cases h
      exact ⟨.jumpIfFalse (Chunk.signedAt?_eq_some_iff.mpr ⟨w, hw, rfl⟩), rfl⟩

theorem opcode?_eq {frame : Frame} {outer : List Frame} (hframes : m.frames = frame :: outer)
    (hf : m.heap.function? frame.function = some f) : m.opcode? = f.chunk.opcodeAt? frame.ip := by
  simp only [opcode?, hframes, List.head?_cons, Option.bind_eq_bind, Option.bind_some, hf]
  rfl

/-- A step that succeeds has read a whole instruction, and turns the calls as that one does. -/
theorem step_reads {frame : Frame} {outer : List Frame} {flow : Flow} (hframes : m.frames = frame :: outer)
    (hf : m.heap.function? frame.function = some f) (h : step.run m = .ok flow n) :
    ∃ op i, f.chunk.opcodeAt? frame.ip = some op ∧ frame.ip + op.operandSize < f.chunk.size ∧
      Reads f.chunk frame.ip op i ∧
      i.Turns ({ frame with ip := frame.ip + 1 + op.operandSize } :: outer) n.frames := by
  rw [step_eq] at h
  obtain ⟨i, m₁, hfetch, hperform⟩ := run_bind_eq_ok.mp h
  have hturns := (turns_perform (sized_of_fetch hfetch) hperform).1
  have hop : ∃ op, f.chunk.opcodeAt? frame.ip = some op := by
    obtain ⟨byte, m₂, hread, hrest⟩ := run_bind_eq_ok.mp hfetch
    rw [← opcode?_eq hframes hf, (opcode?_of_readByte hread).1]
    split at hrest
    · next op heq => exact ⟨op, heq⟩
    · cases hrest
  obtain ⟨op, hop⟩ := hop
  rw [← config_self m, hframes] at hfetch
  obtain ⟨hwhole, hreads, hread⟩ := fetch_reads hf hop hfetch
  exact ⟨op, i, hop, hwhole, hreads, hread ▸ hturns⟩

end Execution

namespace Machine

open Execution

/-- The calls after an instruction that has succeeded, as the line says that lists it: a jump leads to the place that is
shown, any other instruction to the next line, unless it returns. A call may have begun meanwhile. -/
structure LedBy (op : Opcode) (frame : Frame) (outer : List Frame) (place line : String) (next : Nat)
    (frames : List Frame) : Prop where
  ret : op = .ret → frames = outer
  jump : op = .jump ∨ op = .loop → ∃ target : Nat, frames = { frame with ip := target } :: outer ∧
    line = place ++ Chunk.listOperand op frame.ip ++ " -> " ++ toString target ++ "\n"
  jumpIfFalse : op = .jumpIfFalse → ∃ target : Nat,
    (frames = { frame with ip := next } :: outer ∨ frames = { frame with ip := target } :: outer) ∧
    line = place ++ Chunk.listOperand op frame.ip ++ " -> " ++ toString target ++ "\n"
  others : op ∉ [.ret, .jump, .loop, .jumpIfFalse] → ∃ callees, frames = callees ++ { frame with ip := next } :: outer ∧
    (op ≠ .call → callees = [])

/-- What the machine makes of the instruction at which its innermost call stands is what a line says that lists it. -/
structure ReadsAs (m : Machine) (frame : Frame) (outer : List Frame) (place line : String) (next : Nat) : Prop where
  unknown : ∀ byte : Nat, line = place ++ "Unknown opcode " ++ toString byte ++ "\n" →
    ∃ m', step.run m = .error (.error (.unknownOpcode byte)) m'
  truncated : ∀ before, line = before ++ " <truncated>\n" →
    ∃ m', step.run m = .error (.error (.invalidBytecode .pointerOutOfBounds)) m'
  badConstant : ∀ before, line = before ++ "<bad constant>\n" →
    ∃ m', step.run m = .error (.error (.invalidBytecode .constantOutOfRange)) m'
  succeeds : ∀ flow m', step.run m = .ok flow m' → ∃ op, m.opcode? = some op ∧
    LedBy op frame outer place line next m'.frames

variable {m n : Machine} {h : Heap} {f : FunctionObject} {frame : Frame} {outer frames : List Frame} {op : Opcode}
  {i : Fetched} {next : Nat} {body : String}

/-- An instruction that cannot be read stops the machine. -/
theorem step_of_fetch_error {stop : Stop} (hframes : m.frames = frame :: outer)
    (h : ∃ n, fetch.run (m.config (frame :: outer) m.stack.toList.reverse) = .error stop n) :
    ∃ n, step.run m = .error stop n := by
  obtain ⟨n, hn⟩ := h
  rw [← hframes, config_self] at hn
  exact ⟨n, by rw [step_eq, run_bind_of_error hn]⟩

/-- What has been read as an opcode turns the calls as the line of the opcode says. -/
theorem ledBy_of_reads (hsize : f.chunk.size < allocationLimit) (hop : f.chunk.opcodeAt? frame.ip = some op)
    (hreads : Reads f.chunk frame.ip op i)
    (hturns : i.Turns ({ frame with ip := frame.ip + 1 + op.operandSize } :: outer) frames) :
    LedBy op frame outer (f.chunk.listPlace frame.ip) (f.chunk.listInstruction h frame.ip).1
      (frame.ip + 1 + op.operandSize) frames := by
  cases hreads with
  | straight hi hnot =>
      simp only [List.mem_cons, List.not_mem_nil, or_false, not_or] at hnot
      obtain ⟨hret, hcall, hjump, hloop, hif⟩ := hnot
      have hkeeps : frames = { frame with ip := frame.ip + 1 + op.operandSize } :: outer := by
        cases hturns with
        | straight => rfl
        | ret =>
            cases hi with
            | plain _ hop => exact absurd rfl hop
        | jump | jumpIfFalse | pass | call | callNative => cases hi
      refine ⟨fun heq => absurd heq hret, fun heq => ?_, fun heq => absurd heq hif, fun _ => ⟨[], hkeeps, fun _ => rfl⟩⟩
      rcases heq with heq | heq
      · exact absurd heq hjump
      · exact absurd heq hloop
  | ret =>
      refine ⟨fun _ => ?_, by simp, by simp, by simp⟩
      cases hturns with
      | ret => rfl
      | straight hi =>
          cases hi with
          | plain _ hop => exact absurd rfl hop
  | call count =>
      refine ⟨by simp, by simp, by simp, fun _ => ?_⟩
      cases hturns with
      | straight hi => cases hi
      | call _ callee => exact ⟨[callee], rfl, fun hne => absurd rfl hne⟩
      | callNative => exact ⟨[], rfl, fun _ => rfl⟩
  | jump hkind hd =>
      have hline := fun target => Chunk.line_of_jump (h := h) target hsize hop
        (hkind.elim .inl fun heq => .inr (.inr heq)) hd
      have hoperand : op.operandSize = 2 := by rcases hkind with rfl | rfl <;> rfl
      refine ⟨?_, fun _ => ?_, ?_, ?_⟩
      · rintro rfl
        simp at hkind
      · cases hturns with
        | straight hi => cases hi
        | @jump _ target _ _ htarget =>
            refine ⟨target, rfl, hline target ?_⟩
            simp only [hoperand] at htarget
            omega
      · rintro rfl
        simp at hkind
      · intro hnot
        rcases hkind with rfl | rfl <;> simp at hnot
  | jumpIfFalse hd =>
      have hline := fun target => Chunk.line_of_jump (h := h) target hsize hop (.inr (.inl rfl)) hd
      refine ⟨by simp, by simp, fun _ => ?_, by simp⟩
      cases hturns with
      | straight hi => cases hi
      | @jumpIfFalse _ target _ _ htarget =>
          have htarget : ((frame.ip + 1 + 2 : Nat) : Int) + _ = target := htarget
          exact ⟨target, .inr rfl, hline target (by omega)⟩
      | pass => exact ⟨_, .inl rfl, congrArg Prod.fst (Chunk.listInstruction_jump hop (.inr (.inl rfl)) hd)⟩

theorem readsAs_of_shows (hsize : f.chunk.size < allocationLimit) (hs : f.chunk.Shows h frame.ip body next)
    (hline : (f.chunk.listInstruction h frame.ip).1 = f.chunk.listPlace frame.ip ++ body ++ "\n")
    (hframes : m.frames = frame :: outer) (hf : m.heap.function? frame.function = some f) :
    m.ReadsAs frame outer (f.chunk.listPlace frame.ip) (f.chunk.listInstruction h frame.ip).1 next where
  unknown n hn := by
    obtain ⟨byte, hb, hop, rfl⟩ := hs.of_unknown (hline ▸ hn)
    exact step_of_fetch_error hframes (fetch_unknown hf hb hop)
  truncated before hbefore := by
    obtain ⟨op, hop, hcut⟩ := hs.of_truncated (hline ▸ hbefore)
    exact step_of_fetch_error hframes (fetch_truncated hf hop hcut)
  badConstant before hbefore := by
    obtain ⟨op, index, hop, hindex, hnone⟩ := hs.of_badConstant (hline ▸ hbefore)
    exact step_of_fetch_error hframes (fetch_badConstant hf hop hindex hnone)
  succeeds flow n hstep := by
    obtain ⟨op, i, hop, hwhole, hreads, hturns⟩ := step_reads hframes hf hstep
    rw [hs.next_eq hop hwhole]
    exact ⟨op, (opcode?_eq hframes hf).trans hop, ledBy_of_reads hsize hop hreads hturns⟩

end Machine

/-- **Listings and machines read code alike.** Let a chunk hold any bytes, as many as fit an allocation, and any
constants. The listing of the chunk walks through its code from the start to the end, and each byte belongs to exactly
one of the instructions that it lists. The listing of an instruction, wherever it is taken to start, leads on within
the chunk, and past the opcode and its operand if it is known and whole. A machine whose innermost call stands there
stops with the error that fits what the line says, if that is that the opcode is unknown, that the instruction is
truncated or that the constant is bad; and if its step succeeds, the call is led on as the line says. -/
theorem Chunk.decoded_alike {c : Chunk} (hsize : c.size < allocationLimit) (h : Heap) :
    (∀ title, ∃ offsets nested, c.Walk h 0 offsets ∧
      c.listing h title = "== " ++ title ++ " ==\n" ++ c.listed h offsets ++ nested ∧
      ∀ i < c.size, ∃! o, o ∈ offsets ∧ o ≤ i ∧ i < (c.listInstruction h o).2) ∧
    ∀ offset < c.size, ∃ line next, c.instructionAt h offset = .ok (line, next) ∧ offset < next ∧ next ≤ c.size ∧
      (∀ op, c.opcodeAt? offset = some op → offset + op.operandSize < c.size → next = offset + 1 + op.operandSize) ∧
      ∀ (m : Machine) (frame : Frame) (outer : List Frame) (f : FunctionObject), m.frames = frame :: outer →
        m.heap.function? frame.function = some f → f.chunk = c → frame.ip = offset →
        m.ReadsAs frame outer (c.listPlace offset) line next := by
  refine ⟨fun title => ?_, fun offset hlt => ?_⟩
  · obtain ⟨offsets, nested, hwalk, hlisting⟩ := c.exists_listing h title
    exact ⟨offsets, nested, hwalk, hlisting, fun i hi => hwalk.existsUnique (Nat.zero_le i) hi⟩
  · obtain ⟨body, hshows, hline⟩ := listInstruction_shows (h := h) hlt
    obtain ⟨hadvance, hend⟩ := hshows.bounds
    have hword : offset + 1 < wordLimit := by
      have hlimit : allocationLimit ≤ wordLimit := by decide
      omega
    refine ⟨_, _, by rw [instructionAt, nextWord, if_pos hword]; rfl, hadvance, hend,
      fun op hop hwhole => hshows.next_eq hop hwhole, ?_⟩
    rintro m frame outer f hframes hf rfl rfl
    exact Machine.readsAs_of_shows hsize hshows hline hframes hf

/-- A function with code that is cut off: it pushes nil, may jump over a byte that is no opcode, and has no operand
for its last instruction. -/
def cutOff : FunctionObject where
  arity := 0
  chunk := (((Chunk.empty.writeOp .pushNil 1).writeOpWord .jumpIfFalse 1 1).write 255 1).writeOp .constant 1
  name := none

/-- A machine that is about to carry out the last instruction of that function. -/
def beforeCut : Machine :=
  { ((Machine.create {} false 0 .silent).allocate (.function cutOff)).2 with frames := [⟨⟨2⟩, 5, 0⟩] }

/-- The listing says that the last instruction is truncated, so the machine runs out of code there. -/
theorem decoded_alike_at_cut : cutOff.chunk.size < allocationLimit ∧
    cutOff.chunk.instructionAt .empty 5 = .ok ("0005    | OP_CONSTANT <truncated>\n", 6) ∧
    ∃ m', Execution.step.run beforeCut = .error (.error (.invalidBytecode .pointerOutOfBounds)) m' := by
  have hsize : cutOff.chunk.size < allocationLimit := by decide
  have hlisted : cutOff.chunk.instructionAt .empty 5 =
    .ok ("0005    | OP_CONSTANT <truncated>\n", 6) := by decide +kernel
  obtain ⟨line, next, hat, -, -, -, hreads⟩ := (Chunk.decoded_alike hsize .empty).2 5 (by decide)
  cases hat.symm.trans hlisted
  exact ⟨hsize, hlisted, (hreads beforeCut _ _ _ rfl rfl rfl rfl).truncated "0005    | OP_CONSTANT" rfl⟩

end Lox
