import Lox.Proofs.Compile.Boundaries
import Lox.Proofs.Compile.Statements

/-! The course that every compilation takes, whether the source is accepted or not. It says from which token a
complaint or an instruction takes its line, and where instructions are written and patched. A complaint about the
token taken last, for example, is only made when a token has been taken since the latest finding, unless the compiler
panics. What is to be known about lines follows from the course alone. -/

namespace Lox

/-- What is known about the token taken last. -/
inductive Footing where
  /-- It need not be a token of the source. -/
  | start
  /-- It is a token of the source. The latest finding may be about the token after it. -/
  | ahead
  /-- It is a token of the source, and no finding is about a later one unless the compiler panics. -/
  | firm
  deriving DecidableEq

namespace Footing

/-- How much is known. -/
def rank : Footing → Nat
  | .start => 0
  | .ahead => 1
  | .firm => 2

instance : LE Footing := ⟨fun b c => b.rank ≤ c.rank⟩

instance (b c : Footing) : Decidable (b ≤ c) := inferInstanceAs (Decidable (b.rank ≤ c.rank))

theorem le_refl (b : Footing) : b ≤ b := Nat.le_refl b.rank

theorem le_trans {b c d : Footing} (h : b ≤ c) (h' : c ≤ d) : b ≤ d := Nat.le_trans h h'

end Footing

namespace Chunk

/-- An instruction may be written at the end, and the jumps with operands at the given offsets are open. -/
def Open (c : Chunk) (holes : List Nat) : Prop := c.Boundary c.size ∧ ∀ n ∈ holes, c.Hole n

variable {c c' : Chunk} {holes : List Nat}

theorem open_empty : Chunk.empty.Open [] := ⟨.start, nofun⟩

theorem opcodeAt?_congr (h : c'.code = c.code) (a : Nat) : c'.opcodeAt? a = c.opcodeAt? a := by
  unfold opcodeAt? byteAt?
  rw [h]

theorem Boundary.of_code {b : Nat} (hb : c.Boundary b) (h : c'.code = c.code) : c'.Boundary b :=
  hb.congr fun a _ _ _ hop => by rwa [opcodeAt?_congr h]

theorem Open.of_code (ho : c.Open holes) (h : c'.code = c.code) : c'.Open holes := by
  obtain ⟨hwhole, hholes⟩ := ho
  refine ⟨?_, fun n hn => ?_⟩
  · unfold size
    rw [h]
    exact hwhole.of_code h
  · obtain ⟨a, op, ha, hop, hrest⟩ := hholes n hn
    exact ⟨a, op, ha.of_code h, by rwa [opcodeAt?_congr h], hrest⟩

theorem Open.append (ho : c.Open holes) (line : Nat) {op : Opcode} {operands : List UInt8}
    (hsize : operands.length = op.operandSize) : (c.append line (op.toByte :: operands)).Open holes :=
  ⟨boundary_append_size ho.1 line hsize, fun n hn => (grows_append c line _).hole (ho.2 n hn)⟩

theorem Open.setWord (ho : c.Open holes) {n : Nat} (hn : c.Hole n) (operand : Nat) :
    (c.setWord n operand).Open holes := by
  refine ⟨?_, fun m hm => hn.setWord (ho.2 m hm) operand⟩
  rw [size_setWord]
  exact (boundary_setWord hn operand).mpr ho.1

end Chunk

namespace CompileState

/-- Tokens, findings and code stay as they are, and no function is made. -/
structure Quiet (s t : CompileState) : Prop where
  current : t.current = s.current
  previous : t.previous = s.previous
  rest : t.rest = s.rest
  findings : t.findings = s.findings
  panicking : t.panicking = s.panicking
  enclosing : t.enclosing = s.enclosing
  code : t.body.chunk.code = s.body.chunk.code
  lines : t.body.chunk.lines = s.body.chunk.lines
  functions : ∀ k f, t.heap.function? k = some f → s.heap.function? k = some f

theorem quiet_intern (chars : String) (s : CompileState) : Quiet s (s.intern chars).2 := by
  have hmade : ∀ k f, (s.intern chars).2.heap.function? k = some f → s.heap.function? k = some f := by
    rw [(s.heap_intern chars).1]
    exact fun _ _ => Heap.function?_of_intern
  constructor
  case functions => exact hmade
  all_goals
    unfold intern
    simp only
    split <;> rfl

/-- The course from one state to another, and what is known about the token taken last before and after it. -/
inductive Course : CompileState → Footing → CompileState → Footing → Prop where
  /-- Less may be said than is known. -/
  | yield {s : CompileState} {b c : Footing} (h : c ≤ b) : Course s b s c
  | trans {s t u : CompileState} {b c d : Footing} (h : Course s b t c) (h' : Course t c u d) : Course s b u d
  | advance {s : CompileState} {b : Footing} : Course s b s.advance .firm
  | complain {s : CompileState} (c : Complaint) : Course s .firm (s.complain c) .firm
  | complainHere {s : CompileState} {b : Footing} (hb : .ahead ≤ b) (c : Complaint) :
      Course s b (s.complainHere c) .firm
  | calm {s : CompileState} {b : Footing} (hb : .ahead ≤ b) : Course s b { s with panicking := false } .ahead
  | write {s : CompileState} {b : Footing} (hb : .ahead ≤ b) {op : Opcode} {operands : List UInt8}
      (hsize : operands.length = op.operandSize) :
      Course s b (s.mapChunk (·.append s.previous.line (op.toByte :: operands))) b
  | patch {s : CompileState} {b : Footing} {n : Nat} (hn : s.body.chunk.Hole n) (operand : Nat) :
      Course s b (s.mapChunk (·.setWord n operand)) b
  | quiet {s t : CompileState} {b : Footing} (h : Quiet s t) : Course s b t b
  /-- A function is opened, and closed again after its own course. -/
  | function {s t : CompileState} {b c : Footing} {name : Handle} (h : Course (s.openFunction name) b t c) :
      Course s b t.closeFunction.2 c

/-! ### What a step leaves alone -/

theorem complainAt_turn (token : Token) (complaint : Complaint) (s : CompileState) :
    ∃ findings panicking journal, s.complainAt token complaint = { s with findings, panicking, journal } := by
  unfold complainAt
  split <;> exact ⟨_, _, _, rfl⟩

theorem pull_turn (tokens : List Token) (s : CompileState) : ∃ current rest findings panicking journal,
    pull tokens s = { s with current, rest, findings, panicking, journal } := by
  fun_induction pull tokens s with
  | case1 s => exact ⟨_, _, _, _, _, rfl⟩
  | case2 last s => exact ⟨_, _, _, _, _, rfl⟩
  | case3 token next rest s t hkind ih =>
      obtain ⟨current, rest', findings, panicking, journal, heq⟩ := ih
      obtain ⟨findings', panicking', journal', heq'⟩ := complainAt_turn token (.badToken token.lexeme) t
      refine ⟨current, rest', findings, panicking, journal, ?_⟩
      rw [heq, heq']
      rfl
  | case4 token next rest s t hkind => exact ⟨_, _, _, _, _, rfl⟩

theorem advance_turn (s : CompileState) : ∃ current rest findings panicking journal,
    s.advance = { s with current, previous := s.current, rest, findings, panicking, journal } := by
  obtain ⟨current, rest, findings, panicking, journal, heq⟩ := pull_turn s.rest { s with previous := s.current }
  exact ⟨current, rest, findings, panicking, journal, heq⟩

namespace Course

variable {s t : CompileState} {b c : Footing} {holes : List Nat}

theorem refl (s : CompileState) (b : Footing) : Course s b s b := .yield b.le_refl

/-- A course comes back to the functions around the one it starts in. -/
theorem enclosing (h : Course s b t c) : t.enclosing = s.enclosing := by
  induction h with
  | yield => rfl
  | trans _ _ ih ih' => exact ih'.trans ih
  | @advance s b =>
      obtain ⟨current, rest, findings, panicking, journal, heq⟩ := s.advance_turn
      rw [heq]
  | @complain s c =>
      obtain ⟨findings, panicking, journal, heq⟩ := s.complainAt_turn s.previous c
      rw [CompileState.complain, heq]
  | @complainHere s b _ c =>
      obtain ⟨findings, panicking, journal, heq⟩ := s.complainAt_turn s.current c
      rw [CompileState.complainHere, heq]
  | calm => rfl
  | write => rfl
  | patch => rfl
  | quiet h => exact h.enclosing
  | @function s t b c name _ ih =>
      obtain ⟨journal, heq⟩ := t.closeFunction_turn
      rw [heq]
      show t.enclosing.tail = s.enclosing
      rw [ih]
      rfl

/-- The function around a finished one goes on where it stopped. -/
theorem body_closed {name : Handle} (h : Course (s.openFunction name) b t c) : t.closeFunction.2.body = s.body := by
  obtain ⟨journal, heq⟩ := t.closeFunction_turn
  rw [heq]
  show t.enclosing.headD {} = s.body
  rw [h.enclosing]
  rfl

/-- Open jumps stay open, and the next instruction is written behind the ones there are. -/
theorem keeps (h : Course s b t c) (ho : s.body.chunk.Open holes) : t.body.chunk.Open holes := by
  induction h with
  | yield => exact ho
  | trans _ _ ih ih' => exact ih' (ih ho)
  | @advance s b =>
      obtain ⟨current, rest, findings, panicking, journal, heq⟩ := s.advance_turn
      rw [heq]
      exact ho
  | @complain s c =>
      obtain ⟨findings, panicking, journal, heq⟩ := s.complainAt_turn s.previous c
      rw [CompileState.complain, heq]
      exact ho
  | @complainHere s b _ c =>
      obtain ⟨findings, panicking, journal, heq⟩ := s.complainAt_turn s.current c
      rw [CompileState.complainHere, heq]
      exact ho
  | calm => exact ho
  | write _ hsize => exact ho.append _ hsize
  | patch hn operand => exact ho.setWord hn operand
  | quiet h => exact ho.of_code h.code
  | function h _ =>
      rw [h.body_closed]
      exact ho

end Course

end CompileState

end Lox
