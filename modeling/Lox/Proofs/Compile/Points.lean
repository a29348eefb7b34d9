import Lox.Proofs.Compile.Total
import Lox.Proofs.StaticRules

/-! Compiling a source whose reading is known. A point says where the compiler is in such a source: which tokens
are left, which variables it keeps, and how far the code has come. From one point a rule gets to the next without
a complaint exactly if what it reads keeps the static rules; so each step of the compiler carries the rule that
it checks, and the rules of a sequence of steps are those of all its steps. -/

namespace Lox

/-- What a constant stands for, as far as the rules ask: a string for its characters. -/
inductive StandsFor (heap : Heap) : Value → Option String → Prop where
  | number (x : Float) : StandsFor heap (.number x) none
  | text {handle : Handle} {str : StringObject} (h : heap.string? handle = some str) :
      StandsFor heap (.object handle) (some str.chars)
  | function {handle : Handle} {f : FunctionObject} (h : heap.function? handle = some f) :
      StandsFor heap (.object handle) none

namespace StandsFor

variable {heap heap' : Heap} {v : Value} {entry : Option String}

theorem mono (h : StandsFor heap v entry) (hh : heap.Extends heap') : StandsFor heap' v entry := by
  cases h with
  | number x => exact .number x
  | text hs => exact .text (hh.string? hs)
  | function hf => exact .function (hh.function? hf)

/-- The constant that stands for a text is its string object. -/
theorem iff_of_string (h : StandsFor heap v entry) (hi : heap.Interned) {handle : Handle} {str : StringObject}
    (hs : heap.string? handle = some str) : v = .object handle ↔ entry = some str.chars := by
  cases h with
  | number x => simp
  | function hf =>
      refine ⟨fun heq => ?_, nofun⟩
      cases heq
      rw [Heap.function?_eq_some_iff] at hf
      rw [Heap.string?_eq_some_iff, hf] at hs
      cases hs
  | text ht =>
      constructor
      · intro heq
        cases heq
        rw [hs] at ht
        cases ht
        rfl
      · intro heq
        rw [hi.unique ht hs (Option.some.inj heq)]

end StandsFor

/-- Where the compiler is in a source. -/
structure Point where
  /-- The variables of the innermost function. -/
  scope : Scope
  /-- The number of its parameters so far. -/
  arity : Nat
  /-- The functions around it. -/
  outer : List Body
  /-- A heap whose objects are still there. -/
  base : Heap
  /-- The code of the innermost function. -/
  draft : Draft
  /-- The tokens that are left. -/
  ahead : List Token

/-- The kind of the next of the tokens that are left. -/
def nextKind : List Token → TokenKind
  | [] => .eof
  | t :: _ => t.kind

namespace Point

/-- The kind of the next token. -/
def next (x : Point) : TokenKind := nextKind x.ahead

/-- The tokens that are left, after some code. -/
def after (x : Point) (d : Draft) (us : List Token) : Point := { x with draft := d, ahead := us }

/-- Some bytes more. -/
def write (x : Point) (n : Nat) : Point := { x with draft := x.draft.write n }

end Point

namespace CompileState

theorem Clean.sane {s : CompileState} (h : s.Clean) : s.Sane := by
  intro hpan
  rw [h.2] at hpan
  cases hpan

namespace Ahead

variable {s : CompileState} {t : Token} {us : List Token}

theorem kind_current (h : s.Ahead us) : s.current.kind = nextKind us := by
  cases h with
  | done hk => exact hk
  | more => rfl

/-- The next token is taken, and the one after it is none that would be complained about. -/
theorem advance (h : s.Ahead (t :: us)) (hc : s.Clean) (hwords : ∀ u ∈ us, u.kind ≠ .error) :
    s.advance.Clean ∧ s.advance.Ahead us ∧ s.advance.previous = t ∧ t.Proper := by
  obtain ⟨-, -, -, hprevious, -⟩ := s.advance_frame
  cases h with
  | @more us last hr hlast hproper =>
      obtain ⟨hfirst, htail⟩ := List.forall_mem_cons.mp hproper
      have hclean : s.advance.Clean := by
        unfold CompileState.advance
        rw [hr]
        cases us with
        | nil => exact hc
        | cons u us =>
            rw [List.cons_append, pull_cons_append, if_neg (hwords u (by simp))]
            exact hc
      exact ⟨hclean, ahead_advance hr hlast htail hclean, hprevious, hfirst⟩

end Ahead

/-- The compiler is at a point, and nothing has been found so far. -/
structure At (x : Point) (s : CompileState) : Prop where
  clean : s.Clean
  ahead : s.Ahead x.ahead
  words : ∀ t ∈ x.ahead, t.kind ≠ .error
  heap : s.heap.Interned
  base : x.base.Extends s.heap
  scope : s.body.scope = x.scope
  arity : s.body.arity = x.arity
  outer : s.enclosing = x.outer
  size : s.body.chunk.size = x.draft.size
  pool : List.Forall₂ (StandsFor s.heap) s.body.chunk.constants.items.toList x.draft.pool

namespace At

variable {x : Point} {s s' : CompileState}

theorem kind_current (h : s.At x) : s.current.kind = x.next := h.ahead.kind_current

theorem sane (h : s.At x) : s.Sane := h.clean.sane

theorem pool_length (h : s.At x) : s.body.chunk.constants.size = x.draft.pool.length := by
  rw [← h.pool.length_eq, Array.length_toList]
  rfl

/-- A step that touches nothing but the code. -/
theorem code (h : s.At x) {c : Chunk} {n : Nat} (hsize : c.size = s.body.chunk.size + n)
    (hconst : c.constants = s.body.chunk.constants) : (s.mapChunk fun _ => c).At (x.write n) where
  clean := h.clean
  ahead := h.ahead.congr rfl rfl
  words := h.words
  heap := h.heap
  base := h.base
  scope := h.scope
  arity := h.arity
  outer := h.outer
  size := by rw [mapChunk, hsize, h.size]; rfl
  pool := by rw [mapChunk, hconst]; exact h.pool

/-- A step that touches nothing but the variables. -/
theorem rescope (h : s.At x) (scope : Scope) : (s.mapScope fun _ => scope).At { x with scope } where
  clean := h.clean
  ahead := h.ahead.congr rfl rfl
  words := h.words
  heap := h.heap
  base := h.base
  scope := rfl
  arity := h.arity
  outer := h.outer
  size := h.size
  pool := h.pool

/-- A constant is added. -/
theorem constant (h : s.At x) {v : Value} {entry : Option String} (hv : StandsFor s.heap v entry) :
    (s.withConstant v).At { x with draft := { x.draft with pool := x.draft.pool ++ [entry] } } where
  clean := h.clean
  ahead := h.ahead.congr rfl rfl
  words := h.words
  heap := h.heap
  base := h.base
  scope := h.scope
  arity := h.arity
  outer := h.outer
  size := h.size
  pool := by
    simp only [withConstant, mapChunk, Chunk.addConstant, Buffer.items_push, Array.toList_push]
    exact List.rel_append h.pool (.cons hv .nil)

/-- A text is interned. -/
theorem intern (h : s.At x) (chars : String) :
    (s.intern chars).2.At x ∧ StandsFor (s.intern chars).2.heap (.object (s.intern chars).1) (some chars) := by
  obtain ⟨hb, hcur, -, hrest, he, -⟩ := s.intern_frame chars
  obtain ⟨hheap, hhandle⟩ := s.heap_intern chars
  obtain ⟨hfind, hpan⟩ := s.intern_findings chars
  obtain ⟨hi, hext, hstr⟩ := h.heap.intern chars
  refine ⟨⟨?_, h.ahead.congr hcur hrest, h.words, hheap ▸ hi, ?_, by rw [hb]; exact h.scope, by rw [hb]; exact h.arity,
    he.trans h.outer, by rw [hb]; exact h.size, ?_⟩, ?_⟩
  · exact ⟨hfind.trans h.clean.1, hpan.trans h.clean.2⟩
  · rw [hheap]
    exact h.base.trans hext
  · rw [hb, hheap]
    exact h.pool.imp fun _ _ hv => hv.mono hext
  · rw [hheap, hhandle]
    exact .text hstr

/-- The object of a name is among the constants exactly where the name is. -/
theorem constant_iff (h : s.At x) {handle : Handle} {name : String}
    (hn : StandsFor s.heap (.object handle) (some name)) (i : Nat) :
    s.body.chunk.constants.items[i]? = some (.object handle) ↔ x.draft.pool[i]? = some (some name) := by
  cases hn with
  | @text _ str hs =>
      rw [← Array.getElem?_toList]
      have hlen := h.pool.length_eq
      by_cases hi : i < x.draft.pool.length
      · rw [List.getElem?_eq_getElem hi, List.getElem?_eq_getElem (by omega), Option.some.injEq, Option.some.injEq]
        exact (List.Forall₂.get h.pool (by omega) hi).iff_of_string h.heap hs
      · rw [List.getElem?_eq_none (by omega), List.getElem?_eq_none (by omega)]
        simp

/-- The next token is taken. -/
theorem advance (h : s.At x) {t : Token} {us : List Token} (hx : x.ahead = t :: us) :
    s.advance.At { x with ahead := us } ∧ s.advance.previous = t ∧ t.Proper := by
  obtain ⟨hb, he, hh, -, -⟩ := s.advance_frame
  have ha := h.ahead
  have hwords := h.words
  rw [hx] at ha hwords
  have hwords : ∀ u ∈ us, u.kind ≠ .error := fun u hu => hwords u (List.mem_cons_of_mem _ hu)
  obtain ⟨hclean, hahead, htaken⟩ := ha.advance h.clean hwords
  refine ⟨⟨hclean, hahead, hwords, ?_, ?_, ?_, ?_, he.trans h.outer, ?_, ?_⟩, htaken⟩
  · rw [hh]
    exact h.heap
  · rw [hh]
    exact h.base
  · rw [hb]
    exact h.scope
  · rw [hb]
    exact h.arity
  · rw [hb]
    exact h.size
  · rw [hb, hh]
    exact h.pool

end At

end CompileState

namespace Compiler

open CompileState

variable {α β : Type} {x : Point}

/-- From states with `p` the rule comes to states with `q`, and without a finding, exactly if the source is legal
there. -/
def Answers (x : Compiler α) (p : CompileState → Prop) (legal : Prop) (q : α → CompileState → Prop) : Prop :=
  ∀ s a s', p s → x.run s = .ok a s' → (legal → q a s') ∧ (s'.findings = [] → legal)

namespace Answers

variable {x : Compiler α} {f : α → Compiler β} {p : CompileState → Prop} {legal legal' : Prop}
  {q : α → CompileState → Prop} {r : β → CompileState → Prop}

/-- What is wrong with the first part is not forgotten in the second, which only has to answer if nothing is. -/
theorem bind_of_legal [hm : ∀ a, ByMoves (f a)] (hx : Answers x p legal q)
    (hf : legal → ∀ a, Answers (f a) (q a) legal' r) : Answers (x >>= f) p (legal ∧ legal') r := by
  intro s b s' hs h
  obtain ⟨a, s₁, h₁, h₂⟩ := run_bind_eq_ok.mp h
  obtain ⟨hgo, hback⟩ := hx s a s₁ hs h₁
  refine ⟨fun hl => (hf hl.1 a s₁ b s' (hgo hl.1) h₂).1 hl.2, fun hfind => ?_⟩
  have hl : legal := hback (by
    by_contra hne
    exact (hm a s₁ b s' h₂).findings hne hfind)
  exact ⟨hl, (hf hl a s₁ b s' (hgo hl) h₂).2 hfind⟩

theorem bind [∀ a, ByMoves (f a)] (hx : Answers x p legal q) (hf : ∀ a, Answers (f a) (q a) legal' r) :
    Answers (x >>= f) p (legal ∧ legal') r := hx.bind_of_legal fun _ => hf

/-- A step that checks nothing. -/
theorem bind_sure (hx : Answers x p True q) (hf : ∀ a, Answers (f a) (q a) legal r) :
    Answers (x >>= f) p legal r := by
  intro s b s' hs h
  obtain ⟨a, s₁, h₁, h₂⟩ := run_bind_eq_ok.mp h
  exact hf a s₁ b s' ((hx s a s₁ hs h₁).1 trivial) h₂

/-- A step that checks nothing and has a known result. -/
theorem bind_known {q : CompileState → Prop} {a : α} (hx : Answers x p True fun b s => b = a ∧ q s)
    (hf : Answers (f a) q legal r) : Answers (x >>= f) p legal r :=
  hx.bind_sure fun _ s b s' hs h => hf s b s' hs.2 (hs.1 ▸ h)

/-- A step that has a known result where it is legal. -/
theorem bind_value {q : CompileState → Prop} {a : α} [∀ a, ByMoves (f a)]
    (hx : Answers x p legal fun b s => b = a ∧ q s) (hf : legal → Answers (f a) q legal' r) :
    Answers (x >>= f) p (legal ∧ legal') r :=
  hx.bind_of_legal fun hl _ s b s' hs h => hf hl s b s' hs.2 (hs.1 ▸ h)

theorem pure {a : α} (h : ∀ s, p s → q a s) : Answers (pure a) p True q := by
  intro s b s' hs hrun
  cases hrun
  exact ⟨fun _ => h s hs, fun _ => trivial⟩

theorem get {f : CompileState → Compiler β} (hf : ∀ s, p s → Answers (f s) p legal r) :
    Answers (get >>= f) p legal r := by
  intro s b s' hs h
  obtain ⟨s₁, s₂, h₁, h₂⟩ := run_bind_eq_ok.mp h
  cases h₁
  exact hf s hs s b s' hs h₂

theorem modify {g : CompileState → CompileState} {q : Unit → CompileState → Prop} (h : ∀ s, p s → q () (g s)) :
    Answers (modify g : Compiler Unit) p True q := by
  intro s b s' hs hrun
  cases hrun
  exact ⟨fun _ => h s hs, fun _ => trivial⟩

theorem modifyGet {g : CompileState → α × CompileState} (h : ∀ s, p s → q (g s).1 (g s).2) :
    Answers (modifyGet g : Compiler α) p True q := by
  intro s b s' hs hrun
  cases hrun
  exact ⟨fun _ => h s hs, fun _ => trivial⟩

/-- A rule without budget comes to nothing. -/
theorem giveUp : Answers (giveUp : Compiler α) p legal q := fun _ _ _ _ h => absurd h run_throw_ne_ok

theorem congr (hx : Answers x p legal q) (h : legal ↔ legal') : Answers x p legal' q :=
  fun s a s' hs hrun => ⟨fun hl => (hx s a s' hs hrun).1 (h.mpr hl), fun hf => h.mp ((hx s a s' hs hrun).2 hf)⟩

theorem of_legal (hx : Answers x p True q) (h : legal) : Answers x p legal q :=
  hx.congr ⟨fun _ => h, fun _ => trivial⟩

/-- Nothing is checked after the first part. -/
theorem bind_last [hm : ∀ a, ByMoves (f a)] (hx : Answers x p legal q) (hf : ∀ a, Answers (f a) (q a) True r) :
    Answers (x >>= f) p legal r := (hx.bind hf).congr (and_iff_left trivial)

theorem imp {q' : α → CompileState → Prop} (hx : Answers x p legal q) (h : ∀ a s, q a s → q' a s) :
    Answers x p legal q' :=
  fun s a s' hs hrun => ⟨fun hl => h a s' ((hx s a s' hs hrun).1 hl), (hx s a s' hs hrun).2⟩

theorem of_imp {p' : CompileState → Prop} (hx : Answers x p legal q) (h : ∀ s, p' s → p s) : Answers x p' legal q :=
  fun s a s' hs hrun => hx s a s' (h s hs) hrun

/-- A rule that is not legal here complains. -/
theorem of_findings (hno : ¬ legal) (hx : ∀ s a s', p s → x.run s = .ok a s' → s'.findings ≠ []) :
    Answers x p legal q :=
  fun s a s' hs hrun => ⟨fun hl => absurd hl hno, fun hf => absurd hf (hx s a s' hs hrun)⟩

end Answers

/-- Complaining is right only where the source is not legal. -/
theorem answers_complain {legal : Prop} {p : CompileState → Prop} {q : Unit → CompileState → Prop} {c : Complaint}
    (hno : ¬ legal) (hp : ∀ s, p s → s.Sane) : Answers (complain c) p legal q := by
  refine .of_findings hno fun s a s' hs h => ?_
  cases h
  unfold CompileState.complain complainAt
  split
  · next hpan => exact hp s hs hpan
  · exact List.cons_ne_nil _ _

theorem answers_complain_pure {legal : Prop} {p : CompileState → Prop} {q : α → CompileState → Prop} {c : Complaint}
    {a : α} (hno : ¬ legal) (hp : ∀ s, p s → s.Sane) : Answers (do complain c; return a) p legal q := by
  refine .of_findings hno fun s b s' hs h => ?_
  obtain ⟨_, s₁, h₁, h⟩ := run_bind_eq_ok.mp h
  cases h
  exact fun hf => hno ((answers_complain (q := fun _ _ => True) hno hp s _ s' hs h₁).2 hf)

/-! ### Tokens -/

section Tokens

variable {t : Token} {us : List Token} {k : TokenKind} {legal : Prop} {q : α → CompileState → Prop}

theorem next_of_cons (hx : x.ahead = t :: us) : x.next = t.kind := by
  unfold Point.next
  rw [hx]
  rfl

theorem answers_advance (hx : x.ahead = t :: us) :
    Answers advance (At x) True fun _ s => s.previous = t ∧ t.Proper ∧ s.At { x with ahead := us } := by
  refine .modify fun s hs => ?_
  obtain ⟨hat, hprev, hproper⟩ := hs.advance hx
  exact ⟨hprev, hproper, hat⟩

theorem answers_sees (k : TokenKind) : Answers (sees k) (At x) True fun b s => b = decide (x.next = k) ∧ s.At x := by
  intro s b s' hs h
  rw [run_sees] at h
  cases h
  exact ⟨fun _ => ⟨by rw [hs.kind_current], hs⟩, fun _ => trivial⟩

theorem answers_accept_yes (hx : x.ahead = t :: us) (ht : t.kind = k) :
    Answers (accept k) (At x) True fun b s => b = true ∧ s.At { x with ahead := us } := by
  intro s b s' hs h
  rw [run_accept_of_eq (by rw [hs.kind_current, next_of_cons hx, ht])] at h
  cases h
  exact ⟨fun _ => ⟨rfl, (hs.advance hx).1⟩, fun _ => trivial⟩

theorem answers_accept_no (hk : x.next ≠ k) :
    Answers (accept k) (At x) True fun b s => b = false ∧ s.At x := by
  intro s b s' hs h
  rw [run_accept_of_ne (by rw [hs.kind_current]; exact hk)] at h
  cases h
  exact ⟨fun _ => ⟨rfl, hs⟩, fun _ => trivial⟩

theorem answers_accept_of_cons {y z : Compiler α} (hx : x.ahead = t :: us) (ht : t.kind = k)
    (hy : Answers y (At { x with ahead := us }) legal q) :
    Answers (do if ← accept k then y else z) (At x) legal q :=
  (answers_accept_yes hx ht).bind_known hy

theorem answers_accept_of_ne {y z : Compiler α} (hk : x.next ≠ k) (hz : Answers z (At x) legal q) :
    Answers (do if ← accept k then y else z) (At x) legal q :=
  (answers_accept_no hk).bind_known hz

theorem answers_expect_token {what : Expectation} (hx : x.ahead = t :: us) (ht : t.kind = k) :
    Answers (expect k what) (At x) True fun _ s => s.previous = t ∧ t.Proper ∧ s.At { x with ahead := us } := by
  refine (answers_sees k).bind_known ?_
  rw [next_of_cons hx, decide_eq_true ht]
  exact answers_advance hx

theorem answers_expect {what : Expectation} (hx : x.ahead = t :: us) (ht : t.kind = k) :
    Answers (expect k what) (At x) True fun _ => At { x with ahead := us } :=
  (answers_expect_token hx ht).imp fun _ _ h => h.2.2

end Tokens

/-! ### Code -/

theorem answers_emit (op : Opcode) : Answers (emit op) (At x) True fun _ => At (x.write 1) :=
  .modify fun _ hs => hs.code (Chunk.size_writeOp ..) rfl

theorem answers_emitByte (op : Opcode) (n : Nat) : Answers (emitByte op n) (At x) True fun _ => At (x.write 2) :=
  .modify fun _ hs => hs.code (Chunk.size_writeOpByte ..) rfl

theorem answers_emitWord (op : Opcode) (n : Nat) : Answers (emitWord op n) (At x) True fun _ => At (x.write 3) :=
  .modify fun _ hs => hs.code (Chunk.size_writeOpWord ..) rfl

theorem answers_emitReturn : Answers emitReturn (At x) True fun _ => At (x.write 2) :=
  (answers_emit _).bind_sure fun _ => answers_emit _

theorem answers_emitRepeated (op : Opcode) (n : Nat) :
    Answers (emitRepeated op n) (At x) True fun _ => At (x.write n) := by
  induction n generalizing x with
  | zero => exact .pure fun s hs => hs
  | succ n ih =>
      refine (answers_emit op).bind_sure fun _ => ih.imp fun _ s hs => ?_
      have hwrite : (x.write 1).write n = x.write (n + 1) := by
        simp only [Point.write, Draft.write, Nat.add_assoc, Nat.add_comm 1 n]
      rw [← hwrite]
      exact hs

theorem answers_offset : Answers offset (At x) True fun n s => n = x.draft.size ∧ s.At x :=
  .get fun _ hs => .pure fun _ hs' => ⟨hs.size, hs'⟩

theorem answers_emitJump (op : Opcode) :
    Answers (emitJump op) (At x) True fun o s => o = x.draft.size + 1 ∧ s.At (x.write 3) := by
  refine .get fun s hs => ?_
  refine .bind_sure (q := fun _ => At (x.write 3)) (.modify fun s' hs' => hs'.code ?_ rfl)
    fun _ => .pure fun s' hs' => ⟨by rw [hs.size], hs'⟩
  simp [Chunk.writeJump]

/-- A forward jump lands on the end of the code. -/
theorem answers_patchJump {m : Nat} (hm : m + 3 ≤ x.draft.size) :
    Answers (patchJump (m + 1)) (At x) (Near (m + 3) x.draft.size) fun _ => At x := by
  refine .get fun s hs => ?_
  have hsize := hs.size
  unfold Chunk.forwardDistance
  rw [if_neg (by omega)]
  by_cases hfar : maxJump < s.body.chunk.size - (m + 1 + 2)
  · have hno : ¬ Near (m + 3) x.draft.size := by
      unfold Near
      unfold maxJump at hfar
      omega
    simp only [if_pos hfar]
    exact answers_complain hno fun _ hs' => hs'.sane
  · have hyes : Near (m + 3) x.draft.size := by
      unfold Near
      unfold maxJump at hfar
      omega
    simp only [if_neg hfar]
    refine Answers.of_legal (.modify fun s' hs' => ?_) hyes
    exact hs'.code (n := 0) (Chunk.size_setWord ..) rfl

/-- A jump back to code that has been written. -/
theorem answers_emitLoop {start : Nat} (h : start ≤ x.draft.size) :
    Answers (emitLoop start) (At x) (Near start (x.draft.size + 3)) fun _ => At (x.write 3) := by
  refine .get fun s hs => ?_
  have hsize := hs.size
  unfold Chunk.backwardDistance
  rw [if_neg (by omega)]
  by_cases hfar : maxJump < s.body.chunk.size + 3 - start
  · have hno : ¬ Near start (x.draft.size + 3) := by
      unfold Near
      unfold maxJump at hfar
      omega
    simp only [if_pos hfar]
    exact answers_complain hno fun _ hs' => hs'.sane
  · have hyes : Near start (x.draft.size + 3) := by
      unfold Near
      unfold maxJump at hfar
      omega
    simp only [if_neg hfar]
    refine Answers.of_legal (.modify fun s' hs' => ?_) hyes
    exact hs'.code (by simp [Chunk.writeBack]) rfl

/-! ### Constants -/

theorem answers_addConstant (v : Value) (entry : Option String) :
    Answers (addConstant v) (fun s => StandsFor s.heap v entry ∧ s.At x) True fun i s =>
      i = x.draft.pool.length ∧ s.At { x with draft := { x.draft with pool := x.draft.pool ++ [entry] } } :=
  .get fun _ hs => .bind_sure (.modify fun _ hs' => hs'.2.constant hs'.1) fun _ =>
    .pure fun _ hs' => ⟨hs.2.pool_length, hs'⟩

/-- A constant is added, and the instruction that loads it is written. -/
theorem answers_emitConstant (v : Value) (entry : Option String) :
    Answers (emitConstant v) (fun s => StandsFor s.heap v entry ∧ s.At x) x.draft.Loadable
      fun _ => At { x with draft := x.draft.load entry } := by
  refine (answers_addConstant v entry).bind_known ?_
  unfold Draft.Loadable Draft.load
  by_cases hshort : x.draft.pool.length < 256
  · rw [if_pos hshort]
    simp only [if_pos hshort]
    exact (answers_emitByte _ _).of_legal (by omega)
  · rw [if_neg hshort]
    simp only [if_neg hshort]
    by_cases hlong : x.draft.pool.length < 65536
    · rw [if_pos hlong]
      exact (answers_emitWord _ _).of_legal hlong
    · rw [if_neg hlong]
      exact answers_complain hlong fun _ hs => hs.sane

/-- A name that is found among the constants is there, and not too far back. -/
theorem nameIndex_lt_of_found {s : CompileState} {handle : Handle} {name : String} {i : Nat} (h : s.At x)
    (hn : StandsFor s.heap (.object handle) (some name)) (hindex : nameIndex? s.body.chunk handle = some i) :
    some name ∈ x.draft.pool ∧ x.draft.nameIndex name < 256 := by
  obtain ⟨hlt, hfirst⟩ := nameIndex?_eq_some hindex
  have hi : x.draft.pool[i]? = some (some name) := (h.constant_iff hn i).mp hfirst.here
  have hmem : some name ∈ x.draft.pool := List.mem_of_getElem? hi
  have hle : x.draft.nameIndex name < i + 1 := by
    refine (List.mem_take_iff_idxOf_lt hmem).mp (List.mem_of_getElem? (i := i) ?_)
    rw [List.getElem?_take_of_lt (Nat.lt_succ_self i), hi]
  exact ⟨hmem, by omega⟩

/-- A name that is there but not found lies too far back. -/
theorem le_nameIndex_of_missed {s : CompileState} {handle : Handle} {name : String} (h : s.At x)
    (hn : StandsFor s.heap (.object handle) (some name)) (hindex : nameIndex? s.body.chunk handle = none)
    (hmem : some name ∈ x.draft.pool) : 256 ≤ x.draft.nameIndex name := by
  have hhere := (h.constant_iff hn _).mpr (List.getElem?_idxOf hmem)
  cases hfind : findConstant s.body.chunk.constants.items handle s.body.chunk.constants.size 0 with
  | none =>
      refine absurd hhere (findConstant_eq_none hfind _ (Nat.zero_le _) ?_)
      rw [h.pool_length, Nat.zero_add]
      exact List.idxOf_lt_length_of_mem hmem
  | some j =>
      have hj : ¬ j < 256 := by
        intro hlt
        rw [nameIndex?, hfind, Option.filter_some, if_pos (by simpa using hlt)] at hindex
        cases hindex
      by_contra hlt
      exact (findConstant_eq_some hfind).2 _ (Nat.zero_le _) (by unfold Draft.nameIndex at hlt; omega) hhere

/-- A name is looked up among the constants, and added if it is not there. -/
theorem answers_nameConstant (name : String) :
    Answers (nameConstant name) (At x) (x.draft.nameIndex name < 256)
      fun _ => At { x with draft := x.draft.mention name } := by
  refine .bind_sure (q := fun handle s => StandsFor s.heap (.object handle) (some name) ∧ s.At x)
    (.modifyGet fun s hs => (hs.intern name).symm) fun handle => .get fun s hs => ?_
  cases hindex : nameIndex? s.body.chunk handle with
  | some i =>
      obtain ⟨hmem, hlt⟩ := nameIndex_lt_of_found hs.2 hs.1 hindex
      unfold Draft.mention
      simp only [if_pos hmem]
      exact Answers.of_legal (.pure fun s' hs' => hs'.2) hlt
  | none =>
      have hfar := le_nameIndex_of_missed hs.2 hs.1 hindex
      refine (answers_addConstant (.object handle) (some name)).bind_known ?_
      by_cases hlt : x.draft.pool.length < 256
      · have hnew : some name ∉ x.draft.pool := fun hmem => by
          have := List.idxOf_lt_length_of_mem hmem
          have := hfar hmem
          unfold Draft.nameIndex at this
          omega
        have hindex : x.draft.nameIndex name = x.draft.pool.length := List.idxOf_eq_length hnew
        unfold Draft.mention
        rw [if_pos hlt]
        simp only [if_neg hnew]
        exact Answers.of_legal (.pure fun s' hs' => hs') (by omega)
      · have hno : ¬ x.draft.nameIndex name < 256 := by
          by_cases hmem : some name ∈ x.draft.pool
          · exact Nat.not_lt.mpr (hfar hmem)
          · rw [Draft.nameIndex, List.idxOf_eq_length hmem]
            exact hlt
        rw [if_neg hlt]
        exact answers_complain_pure hno fun _ hs' => hs'.sane

end Compiler

end Lox
