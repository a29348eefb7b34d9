import Lox.Proofs.Compile.Orderly
import Lox.Proofs.Compile.Positions
import Lox.Proofs.Compile.WellFormed
import Lox.Proofs.Twins.Compiling

/-! The lines of compiled code. An instruction is written on the line of the token taken last, and tokens are taken in
the order of their lines; so along the course of a compilation no function ever goes back to an earlier line. A function
around another one waits while the inner one is written, and then goes on behind it. -/

namespace Lox

namespace Chunk

variable {c : Chunk} {a offset : Nat} {op : Opcode}

/-! ### Reading code from its start -/

/-- The instruction at an offset, when the code is read from its start. -/
def InstructionAt (c : Chunk) (offset : Nat) (op : Opcode) : Prop :=
  ∃ code, c.instructions? = some code ∧ (offset, op) ∈ code

/-- What is read from a start to the end of the code are the instructions at the starts on the way. -/
theorem Boundary.decodeFrom (hwhole : c.Boundary c.size) (count : Nat) (ha : c.Boundary a) (hle : a ≤ c.size)
    (hcount : c.size ≤ a + count) : ∃ code, c.decodeFrom count a = some code ∧
      ∀ b op, (b, op) ∈ code → c.Boundary b ∧ c.opcodeAt? b = some op := by
  induction count generalizing a with
  | zero => exact ⟨[], by rw [Chunk.decodeFrom, if_pos (by omega)], nofun⟩
  | succ count ih =>
      by_cases hend : a = c.size
      · exact ⟨[], by rw [Chunk.decodeFrom, if_pos hend], nofun⟩
      · obtain ⟨op, hop, hnext⟩ := hwhole.ends ha (by omega)
        obtain ⟨code, hcode, hall⟩ := ih (.next ha hop) hnext (by omega)
        refine ⟨(a, op) :: code, ?_, fun b op' hmem => ?_⟩
        · have hread : (c.byteAt? a).bind Opcode.ofByte? = some op := hop
          rw [Chunk.decodeFrom, if_neg hend, hread, Option.bind_eq_bind, Option.bind_some, hcode]
          rfl
        · rcases List.mem_cons.mp hmem with heq | hmem
          · cases heq
            exact ⟨ha, hop⟩
          · exact hall b op' hmem

/-! ### Lines -/

/-- The line is that of one of the tokens. -/
def LineOf (tokens : List Token) (line : Nat) : Prop := ∃ t ∈ tokens, t.line = line

/-- The lines of code that has been compiled from tokens: each byte has one, they do not go back, and all bytes of an
instruction have that of one token. -/
structure Attributed (c : Chunk) (tokens : List Token) : Prop where
  size : c.lines.size = c.code.size
  ordered : ∀ i j l l', i ≤ j → c.lineAt? i = some l → c.lineAt? j = some l' → l ≤ l'
  instructions : ∃ code, c.instructions? = some code ∧
    ∀ a op, (a, op) ∈ code → ∃ t ∈ tokens, ∀ i ≤ op.operandSize, c.lineAt? (a + i) = some t.line

theorem Lined.attributed {tokens : List Token} (h : c.Lined (LineOf tokens)) : c.Attributed tokens := by
  obtain ⟨code, hcode, hall⟩ := h.whole.decodeFrom c.size .start (Nat.zero_le _) (by omega)
  refine ⟨h.size, h.ordered, code, hcode, fun a op hmem => ?_⟩
  obtain ⟨ha, hop⟩ := hall a op hmem
  have hlt : a < c.lines.size := h.size ▸ lt_size_of_opcodeAt? hop
  obtain ⟨l, hl⟩ : ∃ l, c.lineAt? a = some l := ⟨_, Array.getElem?_eq_getElem hlt⟩
  obtain ⟨t, ht, rfl⟩ := h.among a l hl
  exact ⟨t, ht, fun i hi => (h.uniform a op i ha hop hi).trans hl⟩

/-- The bytes of an instruction have the line of its first one. -/
theorem Attributed.lineAt? {tokens : List Token} (h : c.Attributed tokens) (hop : c.InstructionAt a op) :
    ∃ l, ∀ i, a ≤ i → i ≤ a + op.operandSize → c.lineAt? i = some l := by
  obtain ⟨code, hcode, hmem⟩ := hop
  obtain ⟨code', hcode', hall⟩ := h.instructions
  obtain rfl : code = code' := Option.some.inj (hcode.symm.trans hcode')
  obtain ⟨t, -, hline⟩ := hall a op hmem
  refine ⟨t.line, fun i hle hi => ?_⟩
  obtain ⟨d, rfl⟩ := Nat.exists_eq_add_of_le hle
  exact hline d (by omega)

/-- Constants have no lines. -/
theorem Lined.of_code {c' : Chunk} {lines : Nat → Prop} (h : c.Lined lines) (hcode : c'.code = c.code)
    (hlines : c'.lines = c.lines) : c'.Lined lines := by
  have hsize : c'.size = c.size := congrArg Buffer.size hcode
  have hline : ∀ i, c'.lineAt? i = c.lineAt? i := fun i => congrArg (·.get? i) hlines
  refine ⟨?_, ?_, ?_, ?_, ?_⟩
  · rw [hlines, hsize]
    exact h.size
  · rw [hsize]
    exact h.whole.of_code hcode
  · intro i j l l' hij hi hj
    exact h.ordered i j l l' hij (hline i ▸ hi) (hline j ▸ hj)
  · intro a op i ha hop hi
    rw [hline, hline]
    exact h.uniform a op i (ha.of_code hcode.symm) (by rwa [opcodeAt?_congr hcode] at hop) hi
  · exact fun i l hi => h.among i l (hline i ▸ hi)

end Chunk

namespace CompileState

open Chunk (LineOf)

variable {tokens : List Token} {base : Nat} {b c : Footing} {s t : CompileState}

/-- The code of an unfinished function has lines of the tokens, and may go on with the token taken last. -/
structure Placed (tokens : List Token) (b : Footing) (s : CompileState) (code : Chunk) : Prop where
  lined : code.Lined (LineOf tokens)
  current : ∀ i l, code.lineAt? i = some l → l ≤ s.current.line
  previous : .ahead ≤ b → ∀ i l, code.lineAt? i = some l → l ≤ s.previous.line

/-- All code so far has lines of the tokens, that of finished functions from a handle on and that of unfinished ones. -/
structure Attributes (tokens : List Token) (base : Nat) (b : Footing) (s : CompileState) : Prop where
  bodies : ∀ body ∈ s.body :: s.enclosing, Placed tokens b s body.chunk
  functions : ∀ k f, base ≤ k.index → s.heap.function? k = some f → f.chunk.Lined (LineOf tokens)

namespace Placed

variable {code : Chunk}

/-- It matters only what the two tokens are. -/
theorem congr (h : Placed tokens b s code) (hcurrent : t.current = s.current) (hprevious : t.previous = s.previous)
    (hc : .ahead ≤ c → .ahead ≤ b) : Placed tokens c t code where
  lined := h.lined
  current := hcurrent ▸ h.current
  previous hahead := hprevious ▸ h.previous (hc hahead)

theorem of_code {code' : Chunk} (h : Placed tokens b s code) (hcode : code'.code = code.code)
    (hlines : code'.lines = code.lines) : Placed tokens b s code' where
  lined := h.lined.of_code hcode hlines
  current i l hi := h.current i l (by rwa [Chunk.lineAt?, hlines] at hi)
  previous hb i l hi := h.previous hb i l (by rwa [Chunk.lineAt?, hlines] at hi)

theorem empty : Placed tokens b s .empty := ⟨Chunk.lined_empty, nofun, fun _ => nofun⟩

/-- The token looked at becomes the one taken last. -/
theorem advance (h : Placed tokens b s code) (ho : InOrder tokens b s) : Placed tokens c s.advance code := by
  have hle : s.advance.previous.line ≤ s.advance.current.line := (ho.advance.previous (by decide)).2
  have hprevious : s.advance.previous = s.current := by
    obtain ⟨current, rest, findings, panicking, journal, heq⟩ := s.advance_turn
    rw [heq]
  rw [hprevious] at hle
  exact ⟨h.lined, fun i l hi => Nat.le_trans (h.current i l hi) hle, fun _ => hprevious ▸ h.current⟩

/-- An instruction goes on the line of the token taken last. -/
theorem write (h : Placed tokens b s code) (ho : InOrder tokens b s) (hb : .ahead ≤ b) {op : Opcode}
    {operands : List UInt8} (hsize : operands.length = op.operandSize) :
    Placed tokens b s (code.append s.previous.line (op.toByte :: operands)) := by
  obtain ⟨hmem, hle⟩ := ho.previous hb
  have hlast : ∀ i l, (code.append s.previous.line (op.toByte :: operands)).lineAt? i = some l →
    l ≤ s.previous.line := by
    intro i l hi
    rw [Chunk.lineAt?_append code h.lined.size] at hi
    split at hi
    · exact h.previous hb i l hi
    · split at hi
      · exact Nat.le_of_eq (Option.some.inj hi).symm
      · cases hi
  exact ⟨h.lined.append hsize ⟨_, hmem, rfl⟩ (h.previous hb), fun i l hi => Nat.le_trans (hlast i l hi) hle,
    fun _ => hlast⟩

end Placed

namespace Attributes

/-- A step that only reads the source or notes a complaint. -/
theorem congr (h : Attributes tokens base b s) (hbody : t.body = s.body) (henclosing : t.enclosing = s.enclosing)
    (hheap : t.heap = s.heap) (hplaced : ∀ code, Placed tokens b s code → Placed tokens c t code) :
    Attributes tokens base c t where
  bodies body hbody' := by
    rw [hbody, henclosing] at hbody'
    exact hplaced _ (h.bodies body hbody')
  functions := hheap ▸ h.functions

/-- Only the code of the innermost function changes. -/
theorem mapChunk (h : Attributes tokens base b s) {f : Chunk → Chunk}
    (hf : Placed tokens b s s.body.chunk → Placed tokens b s (f s.body.chunk)) :
    Attributes tokens base b (s.mapChunk f) where
  bodies := by
    obtain ⟨hbody, houter⟩ := List.forall_mem_cons.mp h.bodies
    refine List.forall_mem_cons.mpr ⟨(hf hbody).congr rfl rfl id, fun body hmem => ?_⟩
    exact (houter body hmem).congr rfl rfl id
  functions := h.functions

/-- The innermost function is finished, and becomes an object. -/
theorem closeFunction (h : Attributes tokens base b s) (hne : s.enclosing ≠ []) :
    Attributes tokens base b s.closeFunction.2 := by
  obtain ⟨journal, heq⟩ := s.closeFunction_turn
  obtain ⟨outer, rest, houter⟩ := List.exists_cons_of_ne_nil hne
  rw [heq, houter]
  refine ⟨fun body hmem => ?_, fun k f hk hf => ?_⟩
  · exact (h.bodies body (List.mem_cons_of_mem _ (houter ▸ hmem))).congr rfl rfl id
  · rw [Heap.function?_eq_some_iff, Heap.get?_allocate] at hf
    split at hf
    · cases hf
      exact (h.bodies s.body List.mem_cons_self).lined
    · exact h.functions k f hk (Heap.function?_eq_some_iff.mpr hf)

/-- Along its course the compiler keeps to the lines of the tokens. -/
theorem course (hst : Course s b t c) (ho : InOrder tokens b s) (h : Attributes tokens base b s) :
    Attributes tokens base c t := by
  induction hst with
  | yield hc => exact h.congr rfl rfl rfl fun _ hp => hp.congr rfl rfl fun hahead => Footing.le_trans hahead hc
  | trans hst _ ih ih' => exact ih' (ho.course hst) (ih ho h)
  | @advance s b =>
      have hplaced : ∀ code, Placed tokens b s code → Placed tokens .firm s.advance code := fun _ hp => hp.advance ho
      obtain ⟨current, rest, findings, panicking, journal, heq⟩ := s.advance_turn
      rw [heq] at hplaced ⊢
      exact h.congr rfl rfl rfl hplaced
  | @complain s complaint =>
      obtain ⟨findings, panicking, journal, heq⟩ := s.complainAt_turn s.previous complaint
      rw [CompileState.complain, heq]
      exact h.congr rfl rfl rfl fun _ hp => hp.congr rfl rfl id
  | @complainHere s b hb complaint =>
      obtain ⟨findings, panicking, journal, heq⟩ := s.complainAt_turn s.current complaint
      rw [CompileState.complainHere, heq]
      exact h.congr rfl rfl rfl fun _ hp => hp.congr rfl rfl fun _ => hb
  | calm hb => exact h.congr rfl rfl rfl fun _ hp => hp.congr rfl rfl fun _ => hb
  | write hb hsize => exact h.mapChunk fun hp => hp.write ho hb hsize
  | patch hn operand => exact h.mapChunk fun hp => ⟨hp.lined.setWord hn operand, hp.current, hp.previous⟩
  | @quiet s t b hq =>
      obtain ⟨hbody, houter⟩ := List.forall_mem_cons.mp h.bodies
      refine ⟨List.forall_mem_cons.mpr ⟨?_, fun body hmem => ?_⟩,
        fun k f hk hf => h.functions k f hk (hq.functions k f hf)⟩
      · exact (hbody.of_code hq.code hq.lines).congr hq.current hq.previous id
      · exact (houter body (hq.enclosing ▸ hmem)).congr hq.current hq.previous id
  | @function s t b c name hst ih =>
      have hopen : Attributes tokens base b (s.openFunction name) := by
        refine ⟨List.forall_mem_cons.mpr ⟨.empty, fun body hmem => ?_⟩, h.functions⟩
        exact (h.bodies body hmem).congr rfl rfl id
      refine (ih { ho with } hopen).closeFunction ?_
      rw [hst.enclosing]
      exact List.cons_ne_nil _ _

end Attributes

end CompileState

/-- The code of every function that an accepted source makes has the lines of its tokens. -/
theorem compile_attributed {source : String} {heap : Heap} {printCode : Bool} {journal : Journal} {c : Compilation}
    {script k : Handle} {f : FunctionObject} (hc : compile source heap printCode journal = .ok c)
    (hok : c.result = .ok script) (hk : heap.cells.size ≤ k.index) (hf : c.heap.function? k = some f) :
    f.chunk.Attributed (tokenize source) := by
  obtain ⟨s, hrun, rfl⟩ := compile_eq_ok hc
  have hstart : CompileState.Attributes (tokenize source) heap.cells.size .start
      (CompileState.advance { rest := tokenize source, heap, printCode, journal }) := by
    obtain ⟨current, rest, findings, panicking, journal', heq⟩ :=
      CompileState.advance_turn { rest := tokenize source, heap, printCode, journal }
    rw [heq]
    refine ⟨List.forall_mem_singleton.mpr .empty, fun k f hk hf => ?_⟩
    -- the heap that was there has no cells from here on
    exact absurd (Heap.lt_size_of_get? (Heap.function?_eq_some_iff.mp hf)) (Nat.not_lt.mpr hk)
  have hend := hstart.course (Compiler.course_of_source hrun) (.of_source source heap printCode journal)
  rcases s.finish_turn with ⟨-, -, hheap⟩ | ⟨-, hres, -⟩
  · rw [hheap, Heap.function?_eq_some_iff, Heap.get?_allocate] at hf
    split at hf
    · cases hf
      exact (hend.bodies s.body List.mem_cons_self).lined.attributed
    · exact (hend.functions k f hk (Heap.function?_eq_some_iff.mpr hf)).attributed
  · rw [hres] at hok
    cases hok

/-- The script of an accepted source is one of the functions that it makes. -/
theorem compile_script {source : String} {heap : Heap} {printCode : Bool} {journal : Journal} {c : Compilation}
    {script : Handle} (hc : compile source heap printCode journal = .ok c) (hok : c.result = .ok script) :
    heap.cells.size ≤ script.index ∧ ∃ f, c.heap.function? script = some f := by
  obtain ⟨s, hrun, rfl⟩ := compile_eq_ok hc
  rcases s.finish_turn with ⟨-, hres, hheap⟩ | ⟨-, hres, -⟩
  · rw [hres] at hok
    cases hok
    rw [hheap]
    exact ⟨(Compiler.byMoves_read _ _ _ _ hrun).grows.size_le, _,
      Heap.function?_eq_some_iff.mpr (Heap.get?_allocate_self _ _)⟩
  · rw [hres] at hok
    cases hok

end Lox
