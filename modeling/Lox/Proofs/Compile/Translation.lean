import Lox.Proofs.Compile.Language
import Lox.Proofs.Rendering

/-! The bytes that an expression comes to. They follow from the tree alone, operands first and operators after them,
with the skipped operands of conjunctions and disjunctions jumped over; parentheses leave no trace. It is shown along
a reading that the compiler writes these bytes and no others: each of its steps does what one line of the
translation says, and where the translation has no value because some limit is exceeded, the step complains. -/

namespace Lox

open CompileState

/-! ### The translation -/

/-- The constants of a function so far, and the heap on which their objects are. -/
structure Pool where
  heap : Heap
  constants : List Value

/-- The value is the object with the handle. -/
def Value.refersTo (handle : Handle) : Value → Bool
  | .object other => other == handle
  | _ => false

namespace Pool

/-- A constant more. -/
def add (v : Value) (P : Pool) : Pool := { P with constants := P.constants ++ [v] }

/-- The string object with the given characters. -/
def intern (chars : String) (P : Pool) : Handle × Pool :=
  let (heap, handle) := P.heap.intern chars
  (handle, { P with heap })

/-- A constant more and the instruction that loads it, in the long form if its index takes two bytes. -/
def load (v : Value) (P : Pool) : Option (List UInt8 × Pool) :=
  let index := P.constants.length
  if index < 256 then some ([Opcode.constant.toByte, index.toUInt8], P.add v)
  else if index < 65536 then some ([Opcode.constantWide.toByte, lowByte index, highByte index], P.add v)
  else none

/-- The index of a name's string: that of the first constant that is the string, or that of a new one. -/
def index (handle : Handle) (P : Pool) : Option (Nat × Pool) :=
  let found := P.constants.findIdx (·.refersTo handle)
  if found < 256 then some (found, if found < P.constants.length then P else P.add (.object handle)) else none

/-- The index of a name. -/
def name (chars : String) (P : Pool) : Option (Nat × Pool) := (P.intern chars).2.index (P.intern chars).1

/-- Where a variable lives. -/
def access (scope : Scope) (chars : String) (P : Pool) : Option (Compiler.Access × Pool) :=
  match scope.resolve chars with
  | .ok (some slot) => some (⟨.getLocal, .setLocal, slot⟩, P)
  | .ok none => (P.name chars).map fun (index, P) => (⟨.getGlobal, .setGlobal, index⟩, P)
  | .error _ => none

end Pool

/-- A jump over so many bytes. -/
def jumpOver (op : Opcode) (distance : Nat) : Option (List UInt8) :=
  if distance ≤ maxJump then some [op.toByte, lowByte distance, highByte distance] else none

mutual

/-- The bytes of an expression, and the constants after it; nothing if some limit is exceeded, or if a variable is
used that is being initialized. -/
def Expr.translate (scope : Scope) : Expr → Pool → Option (List UInt8 × Pool)
  | .nil, P => some ([Opcode.pushNil.toByte], P)
  | .truth true, P => some ([Opcode.pushTrue.toByte], P)
  | .truth false, P => some ([Opcode.pushFalse.toByte], P)
  | .number x, P => P.load (.number x)
  | .text chars, P => (P.intern chars).2.load (.object (P.intern chars).1)
  | .variable name, P => do
    let (a, P) ← P.access scope name
    return ([a.read.toByte, a.operand.toUInt8], P)
  | .assign name value, P => do
    let (a, P) ← P.access scope name
    let (code, P) ← value.translate scope P
    return (code ++ [a.write.toByte, a.operand.toUInt8], P)
  | .unary op operand, P => do
    let (code, P) ← operand.translate scope P
    return (code ++ [op.opcode.toByte], P)
  | .binary op left right, P => do
    let (first, P) ← left.translate scope P
    let (second, P) ← right.translate scope P
    return (first ++ second ++ [op.opcode.toByte], P)
  | .and left right, P => do
    let (first, P) ← left.translate scope P
    let (second, P) ← right.translate scope P
    let skip ← jumpOver .jumpIfFalse (second.length + 1)
    return (first ++ skip ++ Opcode.pop.toByte :: second, P)
  | .or left right, P => do
    let (first, P) ← left.translate scope P
    let (second, P) ← right.translate scope P
    let skip ← jumpOver .jump (second.length + 1)
    return (first ++ [Opcode.jumpIfFalse.toByte, 3, 0] ++ skip ++ Opcode.pop.toByte :: second, P)
  | .call callee arguments, P => do
    let (first, P) ← callee.translate scope P
    let (second, P) ← arguments.translate scope P
    if arguments.length ≤ 255 then
      return (first ++ second ++ [Opcode.call.toByte, arguments.length.toUInt8], P)
    else none

/-- The bytes of an argument list. -/
def Args.translate (scope : Scope) : Args → Pool → Option (List UInt8 × Pool)
  | .nil, P => some ([], P)
  | .cons first rest, P => do
    let (code, P) ← first.translate scope P
    let (more, P) ← rest.translate scope P
    return (code ++ more, P)

end

attribute [local simp] Expr.translate Args.translate

/-! ### Where the compiler is -/

/-- What the compiler has written of a function, and what it has before it. -/
structure Page where
  scope : Scope
  bytes : List UInt8
  pool : Pool
  ahead : List Token

namespace Page

/-- Some bytes more. -/
def put (x : Page) (bytes : List UInt8) : Page := { x with bytes := x.bytes ++ bytes }

/-- Some tokens are replaced by what they come to. -/
def after (x : Page) (code : List UInt8 × Pool) (us : List Token) : Page :=
  { x with bytes := x.bytes ++ code.1, pool := code.2, ahead := us }

end Page

namespace CompileState

/-- The constants of the innermost function. -/
def pool (s : CompileState) : Pool := ⟨s.heap, s.body.chunk.constants.items.toList⟩

/-- The compiler is at the page, and nothing has been found so far. -/
structure On (x : Page) (s : CompileState) : Prop where
  clean : s.Clean
  ahead : s.Ahead x.ahead
  words : ∀ t ∈ x.ahead, t.kind ≠ .error
  scope : s.body.scope = x.scope
  code : s.body.chunk.code.items.toList = x.bytes
  pool : s.pool = x.pool

namespace On

variable {x : Page} {s : CompileState}

theorem kind_current (h : s.On x) : s.current.kind = nextKind x.ahead := h.ahead.kind_current

theorem size (h : s.On x) : s.body.chunk.size = x.bytes.length := by
  rw [← h.code, Array.length_toList]
  rfl

theorem sane (h : s.On x) : s.Sane := h.clean.sane

/-- A step that touches nothing but the bytes. -/
theorem rewrite (h : s.On x) {c : Chunk} {bytes : List UInt8} (hcode : c.code.items.toList = bytes)
    (hconst : c.constants = s.body.chunk.constants) : (s.mapChunk fun _ => c).On { x with bytes } where
  clean := h.clean
  ahead := h.ahead.congr rfl rfl
  words := h.words
  scope := h.scope
  code := hcode
  pool := by rw [← h.pool, CompileState.pool, CompileState.pool, mapChunk, hconst]

/-- The next token is taken. -/
theorem advance (h : s.On x) {t : Token} {us : List Token} (hx : x.ahead = t :: us) :
    s.advance.On { x with ahead := us } ∧ s.advance.previous = t ∧ t.Proper := by
  obtain ⟨hb, -, hh, -, -⟩ := s.advance_frame
  have ha := h.ahead
  have hwords := h.words
  rw [hx] at ha hwords
  have hwords : ∀ u ∈ us, u.kind ≠ .error := fun u hu => hwords u (List.mem_cons_of_mem _ hu)
  obtain ⟨hclean, hahead, htaken⟩ := ha.advance h.clean hwords
  refine ⟨⟨hclean, hahead, hwords, ?_, ?_, ?_⟩, htaken⟩
  · rw [hb]
    exact h.scope
  · rw [hb]
    exact h.code
  · rw [CompileState.pool, hb, hh]
    exact h.pool

end On

end CompileState

namespace Compiler

variable {α β γ : Type} {x : Page} {p q : Precedence} {t u : Token} {ts us : List Token} {k : TokenKind}

/-- From states with `p` the rule does what a line of the translation says: it comes to states that `q` relates to
the value of the line, and it complains if the line has none. -/
def Follows (x : Compiler α) (p : CompileState → Prop) (line : Option β) (q : β → α → CompileState → Prop) : Prop :=
  ∀ s a s', p s → x.run s = .ok a s' → (∃ b, line = some b ∧ q b a s') ∨ line = none ∧ s'.findings ≠ []

/-- A rule that comes to states with `q`. -/
def Reaches (x : Compiler α) (p : CompileState → Prop) (q : α → CompileState → Prop) : Prop :=
  ∀ s a s', p s → x.run s = .ok a s' → q a s'

namespace Reaches

variable {x : Compiler α} {f : α → Compiler β} {p : CompileState → Prop} {q : α → CompileState → Prop}
  {r : β → CompileState → Prop}

theorem bind (hx : Reaches x p q) (hf : ∀ a, Reaches (f a) (q a) r) : Reaches (x >>= f) p r := by
  intro s b s' hs h
  obtain ⟨a, s₁, h₁, h₂⟩ := run_bind_eq_ok.mp h
  exact hf a s₁ b s' (hx s a s₁ hs h₁) h₂

theorem bind_known {q : CompileState → Prop} {a : α} (hx : Reaches x p fun b s => b = a ∧ q s)
    (hf : Reaches (f a) q r) : Reaches (x >>= f) p r :=
  .bind hx fun _ s b s' hs h => hf s b s' hs.2 (hs.1 ▸ h)

theorem pure {a : α} (h : ∀ s, p s → q a s) : Reaches (pure a) p q := by
  intro s b s' hs hrun
  cases hrun
  exact h s hs

theorem modify {g : CompileState → CompileState} {q : Unit → CompileState → Prop} (h : ∀ s, p s → q () (g s)) :
    Reaches (modify g : Compiler Unit) p q := by
  intro s b s' hs hrun
  cases hrun
  exact h s hs

theorem modifyGet {g : CompileState → α × CompileState} (h : ∀ s, p s → q (g s).1 (g s).2) :
    Reaches (modifyGet g : Compiler α) p q := by
  intro s b s' hs hrun
  cases hrun
  exact h s hs

theorem get {f : CompileState → Compiler β} (hf : ∀ s, p s → Reaches (f s) p r) : Reaches (get >>= f) p r := by
  intro s b s' hs h
  obtain ⟨s₁, s₂, h₁, h₂⟩ := run_bind_eq_ok.mp h
  cases h₁
  exact hf s hs s b s' hs h₂

end Reaches

theorem Reaches.follows {x : Compiler α} {p : CompileState → Prop} {q : β → α → CompileState → Prop} {b : β}
    (h : Reaches x p (q b)) : Follows x p (some b) q := fun s a s' hs hrun => .inl ⟨b, rfl, h s a s' hs hrun⟩

namespace Follows

variable {x : Compiler α} {f : α → Compiler β} {p : CompileState → Prop} {δ : Type} {line : Option γ}
  {next : γ → Option δ} {q : γ → α → CompileState → Prop} {r : δ → β → CompileState → Prop}

/-- One line after the other. What is wrong with the first one is not forgotten in the second. -/
theorem bind [hm : ∀ a, ByMoves (f a)] (hx : Follows x p line q) (hf : ∀ c a, Follows (f a) (q c a) (next c) r) :
    Follows (x >>= f) p (line >>= next) r := by
  intro s b s' hs h
  obtain ⟨a, s₁, h₁, h₂⟩ := run_bind_eq_ok.mp h
  rcases hx s a s₁ hs h₁ with ⟨c, rfl, hc⟩ | ⟨rfl, hfind⟩
  · exact hf c a s₁ b s' hc h₂
  · exact .inr ⟨rfl, (hm a s₁ b s' h₂).findings hfind⟩

/-- Steps behind the last line. -/
theorem finish [∀ a, ByMoves (f a)] {r : γ → β → CompileState → Prop} (hx : Follows x p line q)
    (hf : ∀ c a, Reaches (f a) (q c a) (r c)) : Follows (x >>= f) p line r := by
  have h : Follows (x >>= f) p (line >>= pure) r := hx.bind fun c a => (hf c a).follows
  rwa [bind_pure] at h

/-- A step that is no line of its own. -/
theorem after {q : α → CompileState → Prop} {r : γ → β → CompileState → Prop} (hx : Reaches x p q)
    (hf : ∀ a, Follows (f a) (q a) line r) : Follows (x >>= f) p line r := by
  intro s b s' hs h
  obtain ⟨a, s₁, h₁, h₂⟩ := run_bind_eq_ok.mp h
  exact hf a s₁ b s' (hx s a s₁ hs h₁) h₂

/-- A step that is no line of its own and has a known result. -/
theorem after_known {q : CompileState → Prop} {r : γ → β → CompileState → Prop} {a : α}
    (hx : Reaches x p fun b s => b = a ∧ q s) (hf : Follows (f a) q line r) : Follows (x >>= f) p line r :=
  .after hx fun _ s b s' hs h => hf s b s' hs.2 (hs.1 ▸ h)

/-- A line whose result is known, and something else besides. -/
theorem bind_value [∀ a, ByMoves (f a)] {q : CompileState → Prop} {a : α} {known : Prop}
    (hx : Follows x p line fun _ b s => b = a ∧ known ∧ q s) (hf : known → ∀ c, Follows (f a) q (next c) r) :
    Follows (x >>= f) p (line >>= next) r :=
  hx.bind fun c _ s b s' hs h => hf hs.2.1 c s b s' hs.2.2 (hs.1 ▸ h)

theorem get {f : CompileState → Compiler β} {r : γ → β → CompileState → Prop}
    (hf : ∀ s, p s → Follows (f s) p line r) : Follows (get >>= f) p line r := by
  intro s b s' hs h
  obtain ⟨s₁, s₂, h₁, h₂⟩ := run_bind_eq_ok.mp h
  cases h₁
  exact hf s hs s b s' hs h₂

/-- What the lines come to is put into another form. -/
theorem map {g : γ → δ} {r : δ → α → CompileState → Prop} (hx : Follows x p line q)
    (h : ∀ c a s, q c a s → r (g c) a s) : Follows x p (line >>= fun c => pure (g c)) r := by
  intro s a s' hs hrun
  rcases hx s a s' hs hrun with ⟨c, rfl, hc⟩ | ⟨rfl, hfind⟩
  · exact .inl ⟨g c, rfl, h c a s' hc⟩
  · exact .inr ⟨rfl, hfind⟩

theorem of_imp {p' : CompileState → Prop} (hx : Follows x p line q) (h : ∀ s, p' s → p s) : Follows x p' line q :=
  fun s a s' hs hrun => hx s a s' (h s hs) hrun

theorem reaches {c : γ} (hx : Follows x p (some c) q) : Reaches x p (q c) := by
  intro s a s' hs h
  rcases hx s a s' hs h with ⟨_, ⟨⟩, hc⟩ | ⟨⟨⟩, _⟩
  exact hc

/-- A rule without budget comes to nothing. -/
theorem giveUp : Follows (giveUp : Compiler α) p line q := fun _ _ _ _ h => absurd h run_throw_ne_ok

/-- A rule that complains where the line has no value. -/
theorem refuse (hx : ∀ s a s', p s → x.run s = .ok a s' → s'.findings ≠ []) : Follows x p none q :=
  fun s a s' hs hrun => .inr ⟨rfl, hx s a s' hs hrun⟩

end Follows

theorem findings_complain {s s' : CompileState} {c : Complaint} {u : Unit} (hs : s.Sane)
    (h : (complain c).run s = .ok u s') : s'.findings ≠ [] := by
  cases h
  unfold CompileState.complain complainAt
  split
  · next hpan => exact hs hpan
  · exact List.cons_ne_nil _ _

theorem follows_complain {c : Complaint} {q : β → Unit → CompileState → Prop} :
    Follows (complain c) (On x) none q := .refuse fun _ _ _ hs h => findings_complain hs.sane h

theorem follows_complain_pure {c : Complaint} {a : α} {q : β → α → CompileState → Prop} :
    Follows (do complain c; return a) (On x) none q := by
  refine .refuse fun s b s' hs h => ?_
  obtain ⟨_, s₁, h₁, h⟩ := run_bind_eq_ok.mp h
  cases h
  exact findings_complain hs.sane h₁

/-! ### Tokens -/

section Tokens

variable {line : Option γ} {q : γ → α → CompileState → Prop}

theorem reaches_advance (hx : x.ahead = t :: us) :
    Reaches advance (On x) fun _ s => s.previous = t ∧ t.Proper ∧ s.On { x with ahead := us } := by
  refine .modify fun s hs => ?_
  obtain ⟨hon, hprev, hproper⟩ := hs.advance hx
  exact ⟨hprev, hproper, hon⟩

theorem reaches_sees (k : TokenKind) :
    Reaches (sees k) (On x) fun b s => b = decide (nextKind x.ahead = k) ∧ s.On x := by
  intro s b s' hs h
  rw [run_sees] at h
  cases h
  exact ⟨by rw [hs.kind_current], hs⟩

theorem follows_accept_of_cons {y z : Compiler α} (hx : x.ahead = t :: us) (ht : t.kind = k)
    (hy : Follows y (On { x with ahead := us }) line q) : Follows (do if ← accept k then y else z) (On x) line q := by
  refine .after_known (q := On { x with ahead := us }) (a := true) (fun s b s' hs h => ?_) hy
  rw [run_accept_of_eq (by rw [hs.kind_current, hx]; exact ht)] at h
  cases h
  exact ⟨rfl, (hs.advance hx).1⟩

theorem reaches_accept_of_ne (hk : nextKind x.ahead ≠ k) :
    Reaches (accept k) (On x) fun b s => b = false ∧ s.On x := by
  intro s b s' hs h
  rw [run_accept_of_ne (by rw [hs.kind_current]; exact hk)] at h
  cases h
  exact ⟨rfl, hs⟩

theorem follows_accept_of_ne {y z : Compiler α} (hk : nextKind x.ahead ≠ k) (hz : Follows z (On x) line q) :
    Follows (do if ← accept k then y else z) (On x) line q := .after_known (reaches_accept_of_ne hk) hz

theorem reaches_expect {what : Expectation} (hx : x.ahead = t :: us) (ht : t.kind = k) :
    Reaches (expect k what) (On x) fun _ => On { x with ahead := us } := by
  intro s a s' hs h
  unfold expect at h
  obtain ⟨b, s₁, h₁, h⟩ := run_bind_eq_ok.mp h
  rw [run_sees] at h₁
  cases h₁
  rw [if_pos (decide_eq_true (hs.kind_current.trans (by rw [hx]; exact ht)))] at h
  exact (reaches_advance hx s a s' hs h).2.2

end Tokens

/-! ### Bytes -/

theorem reaches_emit (op : Opcode) : Reaches (emit op) (On x) fun _ => On (x.put [op.toByte]) :=
  .modify fun s hs => hs.rewrite (by
    rw [← hs.code]
    simp [Chunk.writeOp, Chunk.write]) rfl

theorem reaches_emitByte (op : Opcode) (n : Nat) :
    Reaches (emitByte op n) (On x) fun _ => On (x.put [op.toByte, n.toUInt8]) :=
  .modify fun s hs => hs.rewrite (by
    rw [← hs.code]
    simp [Chunk.writeOpByte, Chunk.writeOp, Chunk.write]) rfl

theorem items_writeOpWord (c : Chunk) (op : Opcode) (n line : Nat) :
    (c.writeOpWord op n line).code.items.toList = c.code.items.toList ++ [op.toByte, lowByte n, highByte n] := by
  simp [Chunk.writeOpWord, Chunk.writeOp, Chunk.write]

theorem reaches_emitWord (op : Opcode) (n : Nat) :
    Reaches (emitWord op n) (On x) fun _ => On (x.put [op.toByte, lowByte n, highByte n]) :=
  .modify fun s hs => hs.rewrite (by rw [items_writeOpWord, hs.code]) rfl

/-- A jump without target. -/
def blankJump (op : Opcode) : List UInt8 := [op.toByte, lowByte Chunk.placeholder, highByte Chunk.placeholder]

theorem reaches_emitJump (op : Opcode) :
    Reaches (emitJump op) (On x) fun o s => o = x.bytes.length + 1 ∧ s.On (x.put (blankJump op)) := by
  refine .get fun s hs => ?_
  refine .bind (q := fun _ => On (x.put (blankJump op))) (.modify fun s' hs' => ?_)
    fun _ => .pure fun s' hs' => ⟨by rw [hs.size], hs'⟩
  exact hs'.rewrite (by rw [Chunk.writeJump, items_writeOpWord, hs'.code]; rfl) rfl

/-- A jump gets its target, which is the end of the code. -/
theorem follows_patchJump (op : Opcode) (before behind : List UInt8)
    (hx : x.bytes = before ++ (blankJump op ++ behind)) :
    Follows (patchJump (before.length + 1)) (On x) (jumpOver op behind.length) fun skip _ =>
      On { x with bytes := before ++ (skip ++ behind) } := by
  refine .get fun s hs => ?_
  have hsize : s.body.chunk.size = before.length + 3 + behind.length := by
    rw [hs.size, hx, List.length_append, List.length_append]
    simp [blankJump, Nat.add_assoc]
  have hdistance : s.body.chunk.size - (before.length + 1 + 2) = behind.length := by omega
  unfold Chunk.forwardDistance jumpOver
  rw [if_neg (by omega), hdistance]
  by_cases hfar : maxJump < behind.length
  · simp only [if_pos hfar]
    rw [if_neg (Nat.not_le.mpr hfar)]
    exact follows_complain
  · simp only [if_neg hfar]
    rw [if_pos (Nat.not_lt.mp hfar)]
    refine Reaches.follows (.modify fun s' hs' => hs'.rewrite ?_ rfl)
    show ((s'.body.chunk.code.items.setIfInBounds _ _).setIfInBounds _ _).toList = _
    have hset : ∀ (bytes : List UInt8) (i : Nat) (b : UInt8),
        (before ++ bytes).set (before.length + i) b = before ++ bytes.set i b := fun bytes i b => by
      rw [List.set_append_right _ _ (Nat.le_add_right _ _), Nat.add_sub_cancel_left]
    rw [Array.toList_setIfInBounds, Array.toList_setIfInBounds, hs'.code, hx, hset, Nat.add_assoc, hset]
    rfl

/-! ### Constants -/

theorem reaches_addConstant (v : Value) :
    Reaches (addConstant v) (On x) fun i s =>
      i = x.pool.constants.length ∧ s.On { x with pool := x.pool.add v } := by
  refine .get fun s hs => .bind (q := fun _ => On { x with pool := x.pool.add v }) (.modify fun s' hs' => ?_)
    fun _ => .pure fun s' hs' => ⟨?_, hs'⟩
  · refine ⟨hs'.clean, hs'.ahead.congr rfl rfl, hs'.words, hs'.scope, hs'.code, ?_⟩
    rw [← hs'.pool]
    simp [CompileState.pool, Pool.add, mapChunk, Chunk.addConstant]
  · rw [← hs.pool, CompileState.pool, Array.length_toList]
    rfl

/-- A constant is added, and the instruction that loads it is written. -/
theorem follows_emitConstant (v : Value) :
    Follows (emitConstant v) (On x) (x.pool.load v) fun code _ => On (x.after code x.ahead) := by
  refine .after_known (reaches_addConstant v) ?_
  unfold Pool.load
  by_cases hshort : x.pool.constants.length < 256
  · simp only [if_pos hshort]
    exact (reaches_emitByte _ _).follows
  · simp only [if_neg hshort]
    by_cases hlong : x.pool.constants.length < 65536
    · simp only [if_pos hlong]
      exact (reaches_emitWord _ _).follows
    · simp only [if_neg hlong]
      exact follows_complain

theorem reaches_intern (chars : String) :
    Reaches (modifyGet (CompileState.intern chars)) (On x) fun handle s =>
      handle = (x.pool.intern chars).1 ∧ s.On { x with pool := (x.pool.intern chars).2 } := by
  refine .modifyGet fun s hs => ?_
  obtain ⟨hb, hcur, -, hrest, -, -⟩ := s.intern_frame chars
  obtain ⟨hheap, hhandle⟩ := s.heap_intern chars
  obtain ⟨hfind, hpan⟩ := s.intern_findings chars
  have hpool := hs.pool
  refine ⟨?_, ⟨hfind.trans hs.clean.1, hpan.trans hs.clean.2⟩, hs.ahead.congr hcur hrest, hs.words, ?_, ?_, ?_⟩
  · rw [hhandle, ← hpool]
    rfl
  · rw [hb]
    exact hs.scope
  · rw [hb]
    exact hs.code
  · rw [CompileState.pool, hb, hheap, ← hpool]
    rfl

theorem Value.refersTo_iff {handle : Handle} {v : Value} : v.refersTo handle = true ↔ v = .object handle := by
  cases v <;> simp [Value.refersTo]

/-- Where the object with the handle is found among the constants. -/
theorem findConstant_eq_findIdx (constants : Array Value) (handle : Handle) :
    findConstant constants handle constants.size 0 =
      let index := constants.toList.findIdx (·.refersTo handle)
      if index < constants.size then some index else none := by
  cases hfind : findConstant constants handle constants.size 0 with
  | some i =>
      obtain ⟨hhere, hfirst⟩ := findConstant_eq_some hfind
      obtain ⟨hlt, hget⟩ := Array.getElem?_eq_some_iff.mp hhere
      have hindex : constants.toList.findIdx (·.refersTo handle) = i := by
        refine (List.findIdx_eq hlt).mpr ⟨Value.refersTo_iff.mpr hget, fun j hj => ?_⟩
        refine Bool.eq_false_iff.mpr fun hrefers => hfirst j (Nat.zero_le j) hj ?_
        exact Array.getElem?_eq_some_iff.mpr ⟨Nat.lt_trans hj hlt, Value.refersTo_iff.mp hrefers⟩
      simp only [hindex, if_pos hlt]
  | none =>
      have hindex : constants.toList.findIdx (·.refersTo handle) = constants.size := by
        refine List.findIdx_eq_length.mpr fun v hv => Bool.eq_false_iff.mpr fun hrefers => ?_
        obtain ⟨j, hj, rfl⟩ := List.getElem_of_mem hv
        refine findConstant_eq_none hfind j (Nat.zero_le j) (by simpa using hj) ?_
        exact Array.getElem?_eq_some_iff.mpr ⟨hj, Value.refersTo_iff.mp hrefers⟩
      simp only [hindex, Nat.lt_irrefl, if_false]

theorem follows_nameConstant (chars : String) :
    Follows (nameConstant chars) (On x) (x.pool.name chars) fun c i s =>
      i = c.1 ∧ s.On { x with pool := c.2 } := by
  refine .after_known (reaches_intern chars) (.get fun s hs => ?_)
  have hconstants : s.body.chunk.constants.items.toList = (x.pool.intern chars).2.constants :=
    congrArg Pool.constants hs.pool
  have hsize : s.body.chunk.constants.size = (x.pool.intern chars).2.constants.length := by
    rw [← hconstants, Array.length_toList]
    rfl
  unfold nameIndex? Pool.name Pool.index
  rw [show s.body.chunk.constants.size = s.body.chunk.constants.items.size from rfl, findConstant_eq_findIdx,
    hconstants]
  rw [show s.body.chunk.constants.items.size = s.body.chunk.constants.size from rfl, hsize]
  have hle : (x.pool.intern chars).2.constants.findIdx (·.refersTo (x.pool.intern chars).1) ≤
      (x.pool.intern chars).2.constants.length := List.findIdx_le_length
  generalize (x.pool.intern chars).2.constants.findIdx _ = found at hle ⊢
  by_cases hold : found < (x.pool.intern chars).2.constants.length
  · by_cases hnear : found < 256
    · simp only [if_pos hold, Option.filter_some, decide_eq_true hnear, if_pos hnear, if_true]
      exact Reaches.follows (.pure fun s' hs' => ⟨rfl, hs'⟩)
    · simp only [if_pos hold, Option.filter_some, decide_eq_false hnear, if_neg hnear]
      have hfar : ¬ (x.pool.intern chars).2.constants.length < 256 := by omega
      refine .after_known (reaches_addConstant _) ?_
      simp only [if_neg hfar]
      exact follows_complain_pure
  · obtain rfl : found = (x.pool.intern chars).2.constants.length := Nat.le_antisymm hle (Nat.not_lt.mp hold)
    simp only [Nat.lt_irrefl, if_false, Option.filter_none]
    refine .after_known (reaches_addConstant _) ?_
    by_cases hnear : (x.pool.intern chars).2.constants.length < 256
    · simp only [if_pos hnear]
      exact Reaches.follows (.pure fun s' hs' => ⟨rfl, hs'⟩)
    · simp only [if_neg hnear]
      exact follows_complain_pure

theorem follows_accessOf (chars : String) :
    Follows (accessOf chars) (On x) (x.pool.access x.scope chars) fun c a s =>
      a = some c.1 ∧ s.On { x with pool := c.2 } := by
  refine .get fun s hs => ?_
  rw [hs.scope]
  unfold Pool.access
  cases x.scope.resolve chars with
  | error cause => exact follows_complain_pure
  | ok slot =>
      cases slot with
      | some slot => exact Reaches.follows (.pure fun s' hs' => ⟨rfl, hs'⟩)
      | none =>
          simp only
          rw [Option.map_eq_bind]
          refine (follows_nameConstant chars).bind fun c i => ?_
          exact Reaches.follows (.pure fun s' hs' => ⟨by rw [hs'.1], hs'.2⟩)

/-! ### Along a reading -/

/-- The page is one where an expression of strength `p` with the given tokens is read, and where it ends. -/
structure Stretch (p q : Precedence) (ts us : List Token) (x : Page) : Prop where
  strength : p ≤ q
  admits : Admits p q (nextKind us)
  no_equal : p ≤ .assignment → nextKind us ≠ .equal
  ahead : x.ahead = ts ++ us

/-- The compiler translates the tokens of an expression of strength `q` up to the operators behind it, and goes on from
what it has written. -/
def Translates (q : Precedence) (ts : List Token) (e : Expr) : Prop :=
  ∃ t ts' o, ts = t :: ts' ∧ opening? t.kind = some o ∧
    ∀ p budget x us, Stretch p q ts' us x →
      ∀ {γ : Type} (more : List UInt8 × Pool → Option γ) (r : γ → Unit → CompileState → Prop),
        (∀ code b, Follows (joinAll p b) (On (x.after code us)) (more code) r) →
        Follows (do openWith o (decide (p ≤ .assignment)) budget; joinAll p budget)
          (fun s => s.previous = t ∧ t.Proper ∧ s.On x) (e.translate x.scope x.pool >>= more) r

theorem reaches_joinAll_quits (hq : Quits p (nextKind x.ahead)) (b : Nat) :
    Reaches (joinAll p b) (On x) fun _ => On x := by
  cases b with
  | zero => exact fun _ _ _ _ h => absurd h run_throw_ne_ok
  | succ b =>
      rw [joinAll]
      refine .get fun s hs => ?_
      rw [hs.kind_current]
      cases hj : joining? (nextKind x.ahead) with
      | none => exact .pure fun _ hs' => hs'
      | some jr =>
          simp only
          rw [if_neg (hq jr.1 jr.2 hj)]
          exact .pure fun _ hs' => hs'

/-- The next operator joins what has been written with what follows. -/
theorem follows_joinAll_joins {j : Joining} {line : Option β} {more : β → Option γ} {y : β → Page}
    {r : γ → Unit → CompileState → Prop} (hx : x.ahead = t :: us) (hj : joining? t.kind = some (j, q)) (hp : p ≤ q)
    (hjoin : ∀ b, Follows (joinWith j q b) (On { x with ahead := us }) line fun c _ => On (y c))
    (hmore : ∀ c b, Follows (joinAll p b) (On (y c)) (more c) r) (b : Nat) :
    Follows (joinAll p b) (On x) (line >>= more) r := by
  cases b with
  | zero => rw [joinAll]; exact .giveUp
  | succ b =>
      rw [joinAll]
      refine .get fun s hs => ?_
      rw [hs.kind_current, hx, nextKind, hj]
      simp only
      rw [if_pos hp]
      refine .after (reaches_advance hx) fun _ => ?_
      exact ((hjoin b).of_imp fun s hs => hs.2.2).bind fun c _ => hmore c b

/-- A whole expression: the next token does not go on with it. -/
theorem Translates.follows_expressionOf {e : Expr} (h : Translates q ts e) (hp : p ≤ q) (hq : Quits p (nextKind us))
    (hne : p ≤ .assignment → nextKind us ≠ .equal) (hx : x.ahead = ts ++ us) (budget : Nat) :
    Follows (expressionOf p budget) (On x) (e.translate x.scope x.pool) fun code _ => On (x.after code us) := by
  cases budget with
  | zero => rw [expressionOf]; exact .giveUp
  | succ budget =>
      obtain ⟨t, ts', o, rfl, ho, h⟩ := h
      rw [expressionOf]
      refine .after (reaches_advance hx) fun _ => .get fun s hs => ?_
      rw [hs.1, ho]
      have hend : ∀ y : Page, y.ahead = us → Reaches (do
          if decide (p ≤ .assignment) then
            if ← accept .equal then complain .invalidAssignmentTarget : Compiler Unit) (On y) fun _ => On y := by
        intro y hy
        by_cases hassign : p ≤ .assignment
        · rw [if_pos (decide_eq_true hassign)]
          exact .bind_known (reaches_accept_of_ne (hy ▸ hne hassign)) (.pure fun _ hs' => hs')
        · rw [if_neg (by simpa using hassign)]
          exact .pure fun _ hs' => hs'
      have hread := h p budget { x with ahead := ts' ++ us } us ⟨hp, hq.admits, hne, rfl⟩ pure
        (fun code _ => On (x.after code us)) fun code b => (reaches_joinAll_quits hq b).follows
      rw [bind_pure] at hread
      have := hread.finish fun code _ => hend (x.after code us) rfl
      simpa using this

theorem Translates.follows_expression {e : Expr} (h : Translates .assignment ts e) (hus : Closes (nextKind us))
    (hx : x.ahead = ts ++ us) (budget : Nat) :
    Follows (expression budget) (On x) (e.translate x.scope x.pool) fun code _ => On (x.after code us) :=
  h.follows_expressionOf (Nat.le_refl _) (fun j r hj => by rw [hus.1] at hj; cases hj) (fun _ => hus.2) hx budget

/-- An expression that is translated by what its first token opens. -/
theorem translates_of_open {e : Expr} {o : Opening} (ho : opening? t.kind = some o)
    (h : ∀ p budget x us, Stretch p q ts us x →
      Follows (openWith o (decide (p ≤ .assignment)) (budget + 1)) (fun s => s.previous = t ∧ t.Proper ∧ s.On x)
        (e.translate x.scope x.pool) fun code _ => On (x.after code us)) : Translates q (t :: ts) e := by
  refine ⟨t, ts, o, rfl, ho, fun p budget x us hx γ more r hmore => ?_⟩
  refine .bind ?_ fun code _ => hmore code budget
  cases budget with
  | zero => rw [openWith]; exact .giveUp
  | succ budget => exact h p budget x us hx

theorem Translates.looser {q' : Precedence} {e : Expr} (h : Translates q ts e) (hq : q' ≤ q) : Translates q' ts e := by
  obtain ⟨t, ts', o, hts, ho, h⟩ := h
  refine ⟨t, ts', o, hts, ho, fun p budget x us hx γ more r hmore => ?_⟩
  exact h p budget x us ⟨Precedence.le_trans hx.strength hq, hx.admits.tighter hq, hx.no_equal, hx.ahead⟩ more r hmore

/-- An expression with a left operand: the operator behind it joins it with the rest, whose bytes stand behind those of
the operand. -/
theorem translates_of_join {q' : Precedence} {l e : Expr} {j : Joining} {ls rs : List Token}
    (rest : Scope → Pool → Option (List UInt8 × Pool)) (hl : Translates q' ls l) (hj : joining? t.kind = some (j, q))
    (hq : q ≤ q') (hop : j.operand q ≤ q')
    (he : ∀ scope P, e.translate scope P = l.translate scope P >>= fun first =>
      rest scope first.2 >>= fun second => pure (first.1 ++ second.1, second.2))
    (hjoin : ∀ p b x us, Stretch p q rs us x →
      Follows (joinWith j q (b + 1)) (On x) (rest x.scope x.pool) fun code _ => On (x.after code us)) :
    Translates q (ls ++ t :: rs) e := by
  obtain ⟨t₀, ls', o, rfl, ho, h⟩ := hl
  refine ⟨t₀, ls' ++ t :: rs, o, rfl, ho, fun p budget x us hx γ more r hmore => ?_⟩
  have hadmits : Admits p q' t.kind := by
    intro j' r' hj' _
    rw [hj] at hj'
    cases hj'
    exact hop
  have hahead : x.ahead = ls' ++ (t :: (rs ++ us)) := by simp [hx.ahead]
  have hstretch : Stretch p q' ls' (t :: (rs ++ us)) x :=
    ⟨Precedence.le_trans hx.strength hq, hadmits, fun _ => ne_equal_of_joining hj, hahead⟩
  rw [he, bind_assoc]
  refine h p budget x _ hstretch _ r fun first b => ?_
  refine follows_joinAll_joins (y := fun code => x.after code us) rfl hj hx.strength (fun b => ?_)
    (fun code b => hmore code b) b
  cases b with
  | zero => rw [joinWith]; exact .giveUp
  | succ b =>
      have hmap := hjoin p b (x.after first (rs ++ us)) us ⟨hx.strength, hx.admits, hx.no_equal, rfl⟩
      refine hmap.map fun second _ s hs => ?_
      rw [Page.after, Page.after, List.append_assoc] at hs
      exact hs

/-! ### The forms of expressions -/

theorem translates_word {e : Expr} {op : Opcode} (ho : opening? t.kind = some (.literal op))
    (he : ∀ scope P, e.translate scope P = some ([op.toByte], P)) : Translates .primary [t] e := by
  refine translates_of_open ho fun p budget x us hx => ?_
  obtain rfl : x.ahead = us := hx.ahead
  rw [openWith, he]
  exact Reaches.follows fun s a s' hs h => reaches_emit op s a s' hs.2.2 h

theorem reaches_previousLexeme :
    Reaches previousLexeme (fun s => s.previous = t ∧ t.Proper ∧ s.On x) fun lexeme s => lexeme = t.lexeme ∧ s.On x :=
  .get fun s hs => .pure fun s' hs' => ⟨by rw [hs.1], hs'.2.2⟩

theorem translates_number {v : Float} (ht : t.kind = .number) (hv : Number.ofLiteral? t.lexeme.toList = some v) :
    Translates .primary [t] (.number v) := by
  refine translates_of_open (by rw [ht]; rfl) fun p budget x us hx => ?_
  obtain rfl : x.ahead = us := hx.ahead
  rw [openWith, Expr.translate]
  refine .after_known reaches_previousLexeme ?_
  rw [hv]
  exact follows_emitConstant (.number v)

theorem translates_text {chars : String} (ht : t.kind = .string) (hc : unquote? t.lexeme = some chars) :
    Translates .primary [t] (.text chars) := by
  refine translates_of_open (by rw [ht]; rfl) fun p budget x us hx => ?_
  obtain rfl : x.ahead = us := hx.ahead
  rw [openWith, Expr.translate]
  refine .after_known reaches_previousLexeme ?_
  rw [hc]
  exact .after_known (reaches_intern chars) (follows_emitConstant _)

/-- A variable is looked up, and what is done with it follows. -/
theorem follows_variable {f : Access → Compiler Unit} [∀ a, ByMoves (f a)] {more : Access × Pool → Option γ}
    {r : γ → Unit → CompileState → Prop}
    (hf : ∀ c, Follows (f c.1) (On { x with pool := c.2 }) (more c) r) :
    Follows (do
      match ← accessOf (← previousLexeme) with
      | none => return
      | some access => f access) (fun s => s.previous = t ∧ t.Proper ∧ s.On x)
      (x.pool.access x.scope t.lexeme >>= more) r := by
  have hmoves : ∀ a : Option Access, ByMoves (match a with
      | none => Pure.pure ()
      | some access => f access) := by
    intro a
    cases a <;> infer_instance
  refine .after_known reaches_previousLexeme ((follows_accessOf t.lexeme).bind fun c a => ?_)
  rintro s b s' ⟨rfl, hs⟩ h
  exact hf c s b s' hs h

theorem translates_variable (ht : t.kind = .identifier) : Translates .primary [t] (.variable t.lexeme) := by
  refine translates_of_open (by rw [ht]; rfl) fun p budget x us hx => ?_
  obtain rfl : x.ahead = us := hx.ahead
  rw [openWith, Expr.translate]
  refine follows_variable fun c => ?_
  by_cases hp : p ≤ .assignment
  · rw [if_pos (decide_eq_true hp)]
    exact follows_accept_of_ne (hx.no_equal hp) (reaches_emitByte _ _).follows
  · rw [if_neg (by simpa using hp)]
    exact (reaches_emitByte _ _).follows

theorem translates_assign {e : Expr} (ht : t.kind = .identifier) (hu : u.kind = .equal)
    (h : Translates .assignment ts e) : Translates .assignment (t :: u :: ts) (.assign t.lexeme e) := by
  refine translates_of_open (by rw [ht]; rfl) fun p budget x us hx => ?_
  rw [openWith, Expr.translate]
  refine follows_variable fun c => ?_
  rw [if_pos (decide_eq_true hx.strength)]
  refine follows_accept_of_cons (x := { x with pool := c.2 }) hx.ahead hu ?_
  refine (h.follows_expressionOf (x := { x with pool := c.2, ahead := ts ++ us }) (by decide)
    (hx.admits.quits_assignment hx.strength) (fun _ => hx.no_equal hx.strength) rfl budget).bind fun code _ => ?_
  refine Reaches.follows fun s a s' hs h => ?_
  have hon := reaches_emitByte _ _ s a s' hs h
  rwa [Page.put, Page.after, List.append_assoc] at hon

theorem translates_grouping {e : Expr} (ht : t.kind = .leftParen) (h : Translates .assignment ts e)
    (hu : u.kind = .rightParen) : Translates .primary (t :: (ts ++ [u])) e := by
  refine translates_of_open (by rw [ht]; rfl) fun p budget x us hx => ?_
  have hahead : x.ahead = ts ++ u :: us := by simp [hx.ahead]
  rw [openWith]
  exact ((h.follows_expression (by rw [nextKind, hu]; decide) hahead budget).of_imp fun s hs => hs.2.2).finish
    fun code _ => reaches_expect rfl hu

theorem translates_unary {op : UnaryOp} {e : Expr} (ht : unaryOp? t.kind = some op) (h : Translates .unary ts e) :
    Translates .unary (t :: ts) (.unary op e) := by
  refine translates_of_open (opening_of_unary ht) fun p budget x us hx => ?_
  rw [openWith, Expr.translate]
  refine ((h.follows_expressionOf (by decide) (hx.admits.quits_unary hx.strength) (fun hp => absurd hp (by decide))
    hx.ahead budget).of_imp fun s hs => hs.2.2).bind fun code _ => ?_
  refine Reaches.follows fun s a s' hs h => ?_
  have hon := reaches_emit _ s a s' hs h
  rwa [Page.put, Page.after, List.append_assoc] at hon

theorem translates_binary {op : BinaryOp} {l e : Expr} {ls rs : List Token} (ht : binaryOp? t.kind = some (op, q))
    (hl : Translates q ls l) (hr : Translates q.next rs e) : Translates q (ls ++ t :: rs) (.binary op l e) := by
  obtain ⟨hj, hno⟩ := joining_of_binary ht
  refine translates_of_join (fun scope P => e.translate scope P >>= fun c => pure (c.1 ++ [op.opcode.toByte], c.2)) hl
    hj (Nat.le_refl _) (Nat.le_refl _) (fun scope P => ?_) fun p b x us h => ?_
  · rw [Expr.translate]
    simp only [bind_assoc, pure_bind, List.append_assoc]
  · rw [joinWith]
    refine (hr.follows_expressionOf (Nat.le_refl _) (h.admits.quits_next ht h.strength) (fun hp => absurd hp hno)
      h.ahead b).bind fun code _ => ?_
    refine Reaches.follows fun s a s' hs h => ?_
    have hon := reaches_emit _ s a s' hs h
    rwa [Page.put, Page.after, List.append_assoc] at hon

theorem translates_and {l e : Expr} {ls rs : List Token} (ht : t.kind = .andWord) (hl : Translates .equality ls l)
    (hr : Translates .and rs e) : Translates .and (ls ++ t :: rs) (.and l e) := by
  have hj : joining? t.kind = some (.and, .and) := by rw [ht]; rfl
  refine translates_of_join (fun scope P => e.translate scope P >>= fun c =>
    jumpOver .jumpIfFalse (c.1.length + 1) >>= fun skip => pure (skip ++ Opcode.pop.toByte :: c.1, c.2)) hl hj
    (by decide) (by decide) (fun scope P => ?_) fun p b x us h => ?_
  · rw [Expr.translate]
    simp only [bind_assoc, pure_bind, List.append_assoc]
  · rw [joinWith]
    refine .after_known (reaches_emitJump _) (.after (reaches_emit _) fun _ => ?_)
    refine (hr.follows_expressionOf (x := (x.put (blankJump .jumpIfFalse)).put [Opcode.pop.toByte]) (by decide)
      (h.admits.quits_and h.strength) (fun hp => absurd hp (by decide)) h.ahead b).bind fun code _ => ?_
    refine (follows_patchJump .jumpIfFalse x.bytes (Opcode.pop.toByte :: code.1) ?_).map fun skip _ s hs => hs
    simp [Page.after, Page.put]

theorem translates_or {l e : Expr} {ls rs : List Token} (ht : t.kind = .orWord) (hl : Translates .and ls l)
    (hr : Translates .or rs e) : Translates .or (ls ++ t :: rs) (.or l e) := by
  have hj : joining? t.kind = some (.or, .or) := by rw [ht]; rfl
  refine translates_of_join (fun scope P => e.translate scope P >>= fun c =>
    jumpOver .jump (c.1.length + 1) >>= fun skip =>
      pure ([Opcode.jumpIfFalse.toByte, 3, 0] ++ (skip ++ Opcode.pop.toByte :: c.1), c.2)) hl hj (by decide) (by decide)
    (fun scope P => ?_) fun p b x us h => ?_
  · rw [Expr.translate]
    simp only [bind_assoc, pure_bind, List.append_assoc]
  · rw [joinWith]
    refine .after_known (reaches_emitJump _) (.after_known (reaches_emitJump _) ?_)
    -- the first jump goes over the second one only
    have hskip := (follows_patchJump (x := (x.put (blankJump .jumpIfFalse)).put (blankJump .jump)) .jumpIfFalse x.bytes
      (blankJump .jump) (List.append_assoc ..)).reaches (c := [Opcode.jumpIfFalse.toByte, 3, 0])
    refine .after hskip fun _ => .after (reaches_emit _) fun _ => ?_
    refine (hr.follows_expressionOf (x := { x with
      bytes := x.bytes ++ ([Opcode.jumpIfFalse.toByte, 3, 0] ++ blankJump .jump) ++ [Opcode.pop.toByte] }) (by decide)
      (h.admits.quits_or h.strength) (fun hp => absurd hp (by decide)) h.ahead b).bind fun code _ => ?_
    have hstart : (x.put (blankJump .jumpIfFalse)).bytes.length =
        (x.bytes ++ [Opcode.jumpIfFalse.toByte, 3, 0]).length := by
      simp [Page.put, blankJump]
    rw [hstart]
    refine (follows_patchJump .jump (x.bytes ++ [Opcode.jumpIfFalse.toByte, 3, 0]) (Opcode.pop.toByte :: code.1)
      ?_).map fun skip _ s hs => ?_
    · simp [Page.after]
    · rw [Page.after, ← List.append_assoc]
      exact hs

/-! ### Calls -/

/-- The compiler translates the tokens of some arguments up to the parenthesis behind them. -/
def ArgsTranslate (ts : List Token) (args : Args) : Prop :=
  (∀ us, nextKind (ts ++ us) ≠ .rightParen) ∧
    ∀ count b x us, count ≤ 255 → nextKind us = .rightParen → x.ahead = ts ++ us →
      Follows (arguments count b) (On x)
        (args.translate x.scope x.pool >>= fun code => if count + args.length ≤ 255 then some code else none)
        fun code n s => n = count + args.length ∧ s.On (x.after code us)

theorem follows_countArgument {count : Nat} (hcount : count ≤ 255) :
    Follows (countArgument count) (On x) (if count + 1 ≤ 255 then some () else none) fun _ n s =>
      n = count + 1 ∧ count + 1 ≤ 255 ∧ s.On x := by
  by_cases hmany : count = 255
  · rw [countArgument, if_pos hmany, if_neg (by omega)]
    exact follows_complain_pure
  · have hroom : count + 1 ≤ 255 := by omega
    rw [countArgument, if_neg hmany, if_pos hroom]
    exact Reaches.follows (.pure fun _ hs => ⟨rfl, hroom, hs⟩)

/-- An expression starts with a token that opens one. -/
theorem Translates.nextKind_ne {e : Expr} (h : Translates q ts e) (hk : opening? k = none) (us : List Token) :
    nextKind (ts ++ us) ≠ k := by
  obtain ⟨t, ts', o, rfl, ho, -⟩ := h
  rintro rfl
  rw [List.cons_append, nextKind, ho] at hk
  cases hk

/-- The arguments are counted one by one, and all of them are counted if the last one is. -/
theorem translate_cons (scope : Scope) (first : Expr) (rest : Args) (count : Nat) (P : Pool) :
    ((Args.cons first rest).translate scope P >>= fun code =>
        if count + (Args.cons first rest).length ≤ 255 then some code else none) =
      first.translate scope P >>= fun c => (if count + 1 ≤ 255 then some () else none) >>= fun _ =>
        (rest.translate scope c.2 >>= fun d => if count + 1 + rest.length ≤ 255 then some d else none) >>= fun d =>
          pure (c.1 ++ d.1, d.2) := by
  have hlength : count + (Args.cons first rest).length = count + 1 + rest.length := by
    rw [Args.length]
    omega
  rw [hlength, Args.translate]
  cases first.translate scope P with
  | none => rfl
  | some c =>
      by_cases hfew : count + 1 + rest.length ≤ 255
      · have hroom : count + 1 ≤ 255 := by omega
        cases hrest : rest.translate scope c.2 <;> simp [hrest, hfew, hroom]
      · by_cases hroom : count + 1 ≤ 255 <;> cases hrest : rest.translate scope c.2 <;> simp [hrest, hfew, hroom]

theorem argsTranslate_last {e : Expr} (h : Translates .assignment ts e) : ArgsTranslate ts (.cons e .nil) := by
  refine ⟨h.nextKind_ne rfl, fun count b x us hcount hus hx => ?_⟩
  cases b with
  | zero => rw [arguments]; exact .giveUp
  | succ b =>
      rw [arguments, translate_cons]
      refine (h.follows_expression (by rw [hus]; decide) hx b).bind fun code _ =>
        (follows_countArgument hcount).bind_value fun hroom _ => ?_
      have hline : ((Args.nil.translate x.scope code.2 >>= fun d =>
          if count + 1 + Args.nil.length ≤ 255 then some d else none) >>= fun d => pure (code.1 ++ d.1, d.2)) =
            some code := by
        simp [Args.translate, Args.length, hroom]
      rw [hline]
      exact follows_accept_of_ne (by rw [Page.after, hus]; decide) (Reaches.follows (.pure fun _ hs => ⟨rfl, hs⟩))

theorem argsTranslate_cons {e : Expr} {args : Args} (h : Translates .assignment ts e) (ht : t.kind = .comma)
    (hr : ArgsTranslate us args) : ArgsTranslate (ts ++ t :: us) (.cons e args) := by
  refine ⟨fun vs => by rw [List.append_assoc]; exact h.nextKind_ne rfl _, fun count b x vs hcount hvs hx => ?_⟩
  rw [List.append_assoc, List.cons_append] at hx
  cases b with
  | zero => rw [arguments]; exact .giveUp
  | succ b =>
      rw [arguments, translate_cons]
      refine (h.follows_expression (by rw [nextKind, ht]; decide) hx b).bind fun code _ =>
        (follows_countArgument hcount).bind_value fun hroom _ => ?_
      have hmore := hr.2 (count + 1) b (x.after code (us ++ vs)) vs hroom hvs rfl
      refine follows_accept_of_cons rfl ht (hmore.map fun d m s hs => ?_)
      obtain ⟨rfl, hs⟩ := hs
      refine ⟨?_, ?_⟩
      · rw [Args.length]
        omega
      · rw [Page.after, ← List.append_assoc]
        exact hs

theorem translates_call {f : Expr} {args : Args} {ls rs : List Token} (ht : t.kind = .leftParen)
    (hl : Translates .call ls f) (hr : args = .nil ∧ rs = [] ∨ ArgsTranslate rs args) (hu : u.kind = .rightParen) :
    Translates .call (ls ++ t :: (rs ++ [u])) (.call f args) := by
  have hj : joining? t.kind = some (.call, .call) := by rw [ht]; rfl
  refine translates_of_join (fun scope P =>
    (args.translate scope P >>= fun c => if 0 + args.length ≤ 255 then some c else none) >>= fun c =>
      pure (c.1 ++ [Opcode.call.toByte, args.length.toUInt8], c.2)) hl hj (by decide) (by decide)
    (fun scope P => ?_) fun p b x us h => ?_
  · rw [Expr.translate, Nat.zero_add]
    cases f.translate scope P with
    | none => rfl
    | some c =>
        by_cases hfew : args.length ≤ 255 <;> cases hargs : args.translate scope c.2 <;> simp [hargs, hfew]
  · have hahead : x.ahead = rs ++ u :: us := by simp [h.ahead]
    rw [joinWith]
    have hend : ∀ (code : List UInt8 × Pool) (count : Nat), Reaches (do
        expect .rightParen .parenAfterArguments
        emitByte .call count) (On (x.after code (u :: us))) fun _ =>
          On (x.after (code.1 ++ [Opcode.call.toByte, count.toUInt8], code.2) us) := by
      refine fun code count => .bind (reaches_expect rfl hu) fun _ s a s' hs h => ?_
      have hon := reaches_emitByte _ _ s a s' hs h
      rwa [Page.put, Page.after, List.append_assoc] at hon
    refine .after_known (reaches_sees _) ?_
    rcases hr with ⟨rfl, rfl⟩ | ⟨hfirst, hargs⟩
    · rw [hahead, List.nil_append, nextKind, hu, if_pos (by decide)]
      have hx : x.after ([], x.pool) (u :: us) = x := by
        rw [Page.after, List.append_nil, ← show x.ahead = u :: us from hahead]
      have hcall := hend ([], x.pool) 0
      rw [hx] at hcall
      simp only [Args.translate, Args.length]
      exact .after_known (q := On x) (a := 0) (.pure fun _ hs => ⟨rfl, hs⟩) hcall.follows
    · have hne : nextKind x.ahead ≠ .rightParen := by
        rw [hahead]
        exact hfirst _
      rw [if_neg (by simpa using hne)]
      refine (hargs 0 b x (u :: us) (Nat.zero_le _) hu hahead).bind fun code count => ?_
      rw [Nat.zero_add]
      refine Reaches.follows fun s a s' hs h => ?_
      obtain ⟨rfl, hs⟩ := hs
      exact hend code args.length s a s' hs h

end Compiler

mutual

/-- The compiler translates every expression of the grammar. -/
theorem Expr.Reads.translates : ∀ {q : Precedence} {ts : List Token} {e : Expr}, Expr.Reads q ts e →
    Compiler.Translates q ts e
  | _, _, _, .looser hq h => h.translates.looser hq
  | _, _, _, .nil ht => Compiler.translates_word (by rw [ht]; rfl) fun _ _ => by rw [Expr.translate]
  | _, _, _, .yes ht => Compiler.translates_word (by rw [ht]; rfl) fun _ _ => by rw [Expr.translate]
  | _, _, _, .no ht => Compiler.translates_word (by rw [ht]; rfl) fun _ _ => by rw [Expr.translate]
  | _, _, _, .number ht hv => Compiler.translates_number ht hv
  | _, _, _, .text ht hc => Compiler.translates_text ht hc
  | _, _, _, .variable ht => Compiler.translates_variable ht
  | _, _, _, .grouping ht h hu => Compiler.translates_grouping ht h.translates hu
  | _, _, _, .assign ht hu h => Compiler.translates_assign ht hu h.translates
  | _, _, _, .unary ht h => Compiler.translates_unary ht h.translates
  | _, _, _, .binary ht hl hr => Compiler.translates_binary ht hl.translates hr.translates
  | _, _, _, .and ht hl hr => Compiler.translates_and ht hl.translates hr.translates
  | _, _, _, .or ht hl hr => Compiler.translates_or ht hl.translates hr.translates
  | _, _, _, .call ht hl hr hu => Compiler.translates_call ht hl.translates hr.translates hu

theorem Args.Reads.translates : ∀ {ts : List Token} {args : Args}, Args.Reads ts args →
    args = .nil ∧ ts = [] ∨ Compiler.ArgsTranslate ts args
  | _, _, .nil => .inl ⟨rfl, rfl⟩
  | _, _, .last h => .inr (Compiler.argsTranslate_last h.translates)
  | _, _, .cons h ht hr => .inr (Compiler.argsTranslate_cons h.translates ht (hr.translates.resolve_left nofun))

end

/-! ### Whatever is written -/

namespace CompileState

/-- Functions whose counters have room keep their guard if no jump waits for its target. -/
theorem guard_of_bounded {s : CompileState} (h : ∀ b ∈ s.body :: s.enclosing, b.Bounded) :
    s.Guard ⟨[], s.enclosing.map fun _ => []⟩ := by
  refine ⟨h, .nil _, ?_⟩
  rw [List.forall₂_map_right_iff]
  exact List.forall₂_same.mpr fun _ _ => .nil _

end CompileState

namespace Compiler

/-- **Precedence and parentheses.** However an expression is written down, with the parentheses alone that the grammar
asks for or with any number of others around any of its parts, the compiler takes exactly its tokens and writes the
bytes and keeps the constants of its translation; if the translation exceeds a limit, the compiler complains. -/
theorem expression_translates (e : Expr) (style : Style) {ts us : List Token} {s : CompileState} {budget : Nat}
    (he : e.Spelled style.digits) (hts : ts.map Token.word = e.render style) (hus : Closes (nextKind us))
    (hwords : Words us) (hclean : s.Clean) (hahead : s.Ahead (ts ++ us))
    (hbounded : ∀ b ∈ s.body :: s.enclosing, b.Bounded) (hbudget : 2 * (ts ++ us).length + 1 ≤ budget) :
    ∃ s', (expression budget).run s = .ok () s' ∧
      (∀ bytes pool, e.translate s.body.scope s.pool = some (bytes, pool) →
        s'.Clean ∧ s'.Ahead us ∧ s'.body.scope = s.body.scope ∧
          s'.body.chunk.code.items.toList = s.body.chunk.code.items.toList ++ bytes ∧ s'.pool = pool) ∧
      (e.translate s.body.scope s.pool = none → s'.findings ≠ []) := by
  have hreads := Expr.reads_render he hts
  have hguard := guard_of_bounded hbounded
  generalize s.enclosing.map (fun _ => []) = jumps at hguard
  have hwithin : s.Within ⟨s, ⟨[], jumps⟩, ⟨[], jumps⟩, 0, s.body.scope.depth, s.enclosing⟩ (ts ++ us).length := by
    refine ⟨⟨_, hahead, Nat.le_refl _⟩, Nat.zero_le _, rfl, rfl, hguard, .refl _ _, ?_⟩
    unfold Numerate
    rw [hclean.1]
    exact nofun
  obtain ⟨_, s', hrun, -⟩ := ends_expression hbudget s hwithin
  have hon : s.On ⟨s.body.scope, s.body.chunk.code.items.toList, s.pool, ts ++ us⟩ :=
    ⟨hclean, hahead, words_append.mpr ⟨hreads.words, hwords⟩, rfl, rfl, rfl⟩
  refine ⟨s', hrun, fun bytes pool hcode => ?_, fun hnone => ?_⟩
  · rcases hreads.translates.follows_expression hus rfl budget s _ s' hon hrun with ⟨code, hsome, hat⟩ | ⟨hnone, -⟩
    · obtain rfl := Option.some.inj (hcode.symm.trans hsome)
      exact ⟨hat.clean, hat.ahead, hat.scope, hat.code, hat.pool⟩
    · exact absurd (hcode.symm.trans hnone) nofun
  · rcases hreads.translates.follows_expression hus rfl budget s _ s' hon hrun with ⟨code, hsome, -⟩ | ⟨-, hfind⟩
    · exact absurd (hnone.symm.trans hsome) nofun
    · exact hfind

/-- An assignment on the right of a disjunction needs its parentheses, and the operand of an operator may have some. -/
theorem expression_translates_assignment : ∃ s', (expression 40).run
    (CompileState.advance { rest := tokenize "!(true) or (a = nil and b);", heap := .empty }) = .ok () s' ∧
      s'.body.chunk.code.items.toList =
        [Opcode.pushTrue, .not, .jumpIfFalse].map Opcode.toByte ++ [3, 0] ++ [Opcode.jump.toByte, 10, 0] ++
          [Opcode.pop, .pushNil, .jumpIfFalse].map Opcode.toByte ++ [3, 0] ++
            [Opcode.pop.toByte, Opcode.getGlobal.toByte, 1, Opcode.setGlobal.toByte, 0] := by
  obtain ⟨us, last, htok, hlast, hproper⟩ := tokenize_spec "!(true) or (a = nil and b);"
  have hus : us = (tokenize "!(true) or (a = nil and b);").take 12 ++ [⟨.semicolon, ";", 1⟩] := by
    have hdrop : (tokenize "!(true) or (a = nil and b);").dropLast = us := by rw [htok, List.dropLast_concat]
    rw [← hdrop]
    decide +kernel
  have hwords : ∀ t ∈ us, t.kind ≠ .error := by
    rw [hus]
    decide +kernel
  have hat : (CompileState.advance { rest := tokenize "!(true) or (a = nil and b);", heap := .empty }).At
      ⟨.start, 0, [], .empty, {}, us⟩ := CompileState.at_start htok hlast hproper hwords Heap.interned_empty
  have hb : (CompileState.advance { rest := tokenize "!(true) or (a = nil and b);", heap := .empty }).body = {} :=
    (CompileState.advance_frame _).1
  have hpool : (CompileState.advance { rest := tokenize "!(true) or (a = nil and b);", heap := .empty }).pool =
      ⟨.empty, []⟩ := by
    rw [CompileState.pool, hb, (CompileState.advance_frame _).2.2.1]
    rfl
  have hbounded : ∀ b ∈ [({} : Body)], b.Bounded := List.forall_mem_singleton.mpr ⟨by decide, by decide⟩
  obtain ⟨s', hrun, hcode, -⟩ := expression_translates
    (.or (.unary .not (.truth true)) (.assign "a" (.and .nil (.variable "b"))))
    ⟨fun _ => "", fun place => if place = [0, 0] then 1 else 0⟩ ⟨trivial, trivial, trivial⟩ (by decide +kernel)
    (by decide) (words_cons.mpr ⟨by decide, words_nil⟩) hat.clean (hus ▸ hat.ahead)
    (by rw [hb, hat.outer]; exact hbounded) (show _ ≤ 40 by decide +kernel)
  rw [hb, hpool] at hcode
  have htranslate : ((Expr.or (.unary .not (.truth true)) (.assign "a" (.and .nil (.variable "b")))).translate .start
      ⟨.empty, []⟩).map Prod.fst = some ([Opcode.pushTrue, .not, .jumpIfFalse].map Opcode.toByte ++ [3, 0] ++
        [Opcode.jump.toByte, 10, 0] ++ [Opcode.pop, .pushNil, .jumpIfFalse].map Opcode.toByte ++ [3, 0] ++
          [Opcode.pop.toByte, Opcode.getGlobal.toByte, 1, Opcode.setGlobal.toByte, 0]) := by decide +kernel
  obtain ⟨⟨bytes, pool⟩, hsome, hbytes⟩ := Option.map_eq_some_iff.mp htranslate
  obtain ⟨-, -, -, hwritten, -⟩ := hcode bytes pool hsome
  exact ⟨s', hrun, hwritten.trans hbytes⟩

end Compiler

end Lox
