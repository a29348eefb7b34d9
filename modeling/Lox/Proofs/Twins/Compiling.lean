import Lox.Proofs.Compile.Statements
import Lox.Proofs.Compile.Termination
import Lox.Proofs.Twins.Values

/-! One source compiled into two heaps. What the heap holds has no say in what the compiler does: it makes the same
complaints, and it writes the same code, up to the names of the objects among the constants. -/

namespace Lox

/-- Functions that go together and are the same byte for byte. -/
def Pairing.exact (R : Handle → Handle → Prop) : Pairing where
  twins := R
  abreast k ip k' ip' := R k k' ∧ ip = ip'

namespace Pairing

variable {R S : Handle → Handle → Prop} {h h' : Heap} {a b : Handle} {v v' : Value}

theorem Same.widen (hab : (exact R).Same h h' a b) (hRS : ∀ a b, R a b → S a b) : (exact S).Same h h' a b :=
  hab.imp_left (hRS a b)

theorem Alike.widen (hv : (exact R).Alike h h' v v') (hRS : ∀ a b, R a b → S a b) : (exact S).Alike h h' v v' :=
  Value.Renamed.mono hv fun _ _ hab => hab.widen hRS

theorem Objects.widen (hab : (exact R).Objects h h' a b) (hRS : ∀ a b, R a b → S a b) : (exact S).Objects h h' a b := by
  cases hab with
  | native ha hb hn => exact .native ha hb hn
  | function ha hb arity name start => exact .function ha hb arity name ⟨hRS _ _ start.1, rfl⟩

end Pairing

/-- Chunks with the same code, whose constants go together one by one. -/
structure Chunk.Twins (V : Value → Value → Prop) (c c' : Chunk) : Prop where
  code : c.code = c'.code
  lines : c.lines = c'.lines
  size : c.constants.size = c'.constants.size
  constants : ∀ i, Option.Rel V (c.constant? i) (c'.constant? i)

namespace Chunk.Twins

variable {V W : Value → Value → Prop} {c c' : Chunk} {v v' : Value}

theorem mono (hc : c.Twins V c') (hV : ∀ v v', V v v' → W v v') : c.Twins W c' :=
  ⟨hc.code, hc.lines, hc.size, fun i => rel_mono (hc.constants i) hV⟩

theorem empty : Chunk.empty.Twins V Chunk.empty := ⟨rfl, rfl, rfl, fun _ => .none⟩

theorem write (hc : c.Twins V c') (byte : UInt8) (line : Nat) : (c.write byte line).Twins V (c'.write byte line) :=
  ⟨by rw [Chunk.write, Chunk.write, hc.code], by rw [Chunk.write, Chunk.write, hc.lines], hc.size, hc.constants⟩

theorem setWord (hc : c.Twins V c') (offset operand : Nat) :
    (c.setWord offset operand).Twins V (c'.setWord offset operand) :=
  ⟨by rw [Chunk.setWord, Chunk.setWord, hc.code], hc.lines, hc.size, hc.constants⟩

theorem addConstant (hc : c.Twins V c') (hv : V v v') : (c.addConstant v).1.Twins V (c'.addConstant v').1 where
  code := hc.code
  lines := hc.lines
  size := by simp [Chunk.addConstant, hc.size]
  constants i := by
    have hsize : c.constants.items.size = c'.constants.items.size := hc.size
    show Option.Rel V (c.constants.items.push v)[i]? (c'.constants.items.push v')[i]?
    rw [Array.getElem?_push, Array.getElem?_push, hsize]
    split
    · exact .some hv
    · exact hc.constants i

end Chunk.Twins

/-- An object is found among constants at the place where the one that goes together with it is found. -/
theorem findConstant_eq {ρ : Handle → Handle → Prop} (hρ : Relator.BiUnique ρ) {cs cs' : Array Value}
    (hcs : ∀ i : Nat, Option.Rel (Value.Renamed ρ) cs[i]? cs'[i]?) {a b : Handle} (hab : ρ a b) (count index : Nat) :
    Compiler.findConstant cs a count index = Compiler.findConstant cs' b count index := by
  induction count generalizing index with
  | zero => rfl
  | succ count ih =>
      rw [Compiler.findConstant, Compiler.findConstant]
      rcases rel_cases (hcs index) with ⟨h, h'⟩ | ⟨v, v', h, h', hv⟩
      · rw [h, h']
        exact ih _
      · rw [h, h']
        cases hv with
        | nil | bool | number => exact ih _
        | @object c d hcd =>
            have heq : c = a ↔ d = b := ⟨fun h => hρ.2 (h ▸ hcd) hab, fun h => hρ.1 (h ▸ hcd) hab⟩
            simp only [heq, ih]

namespace Heap

/-- Functions that go together have the same code. -/
structure Copies (R : Handle → Handle → Prop) (h h' : Heap) : Prop where
  links : (Pairing.exact R).Links h h'
  code : ∀ a b f g, R a b → h.function? a = some f → h'.function? b = some g →
    f.chunk.Twins ((Pairing.exact R).Alike h h') g.chunk

namespace Copies

variable {R : Handle → Handle → Prop} {h h' k k' : Heap}

/-- What is said of older heaps is said of newer ones. -/
theorem later (hc : Copies R h h') (hl : (Pairing.exact R).Links k k') (hk : h.Extends k) (hk' : h'.Extends k') :
    Copies R k k' := by
  refine ⟨hl, fun a b f g hab hf hg => ?_⟩
  cases hc.links.objects a b hab with
  | native ha hb hn =>
      rw [function?_eq_some_iff, native?_eq_some_iff.mp (hk.native? ha)] at hf
      cases hf
  | @function f₀ g₀ ha hb =>
      obtain rfl : f₀ = f := Option.some.inj ((hk.function? ha).symm.trans hf)
      obtain rfl : g₀ = g := Option.some.inj ((hk'.function? hb).symm.trans hg)
      exact (hc.code a b _ _ hab ha hb).mono fun _ _ hv => hv.mono hk hk'

theorem grow (hc : Copies R h h') (hg : h.Grows k) (hg' : h'.Grows k') : Copies R k k' :=
  hc.later (hc.links.grow hg hg') hg.keeps hg'.keeps

/-- Two new objects may go together from now on. -/
theorem join (hc : Copies R h h') {o o' : Object} (hno : ∀ s, o ≠ .string s) (hno' : ∀ s, o' ≠ .string s)
    (hobjects : ∀ S : Handle → Handle → Prop, S ⟨h.cells.size⟩ ⟨h'.cells.size⟩ →
      (Pairing.exact S).Objects (h.allocate o).1 (h'.allocate o').1 ⟨h.cells.size⟩ ⟨h'.cells.size⟩)
    (hcode : ∀ f g, o = .function f → o' = .function g → f.chunk.Twins ((Pairing.exact R).Alike h h') g.chunk) :
    Copies (fun a b => R a b ∨ a = ⟨h.cells.size⟩ ∧ b = ⟨h'.cells.size⟩) (h.allocate o).1 (h'.allocate o').1 := by
  have hg := h.grows_allocate hno
  have hg' := h'.grows_allocate hno'
  have hold := hc.grow hg hg'
  -- what goes together already is older than the new objects
  have hlive : ∀ a b, R a b → a ≠ ⟨h.cells.size⟩ ∧ b ≠ ⟨h'.cells.size⟩ := by
    intro a b hab
    obtain ⟨⟨p, hp⟩, p', hp'⟩ := (hc.links.objects a b hab).live
    refine ⟨?_, ?_⟩
    · rintro rfl
      exact Nat.lt_irrefl _ (lt_size_of_get? hp)
    · rintro rfl
      exact Nat.lt_irrefl _ (lt_size_of_get? hp')
  refine ⟨⟨hold.links.left, hold.links.right, ⟨?_, ?_⟩, ?_⟩, ?_⟩
  · rintro a b c (hac | ⟨rfl, rfl⟩) (hbc | ⟨rfl, hc⟩)
    · exact hc.links.unique.1 hac hbc
    · exact absurd hc (hlive _ _ hac).2
    · exact absurd rfl (hlive _ _ hbc).2
    · rfl
  · rintro a b c (hab | ⟨rfl, rfl⟩) (hac | ⟨ha, rfl⟩)
    · exact hc.links.unique.2 hab hac
    · exact absurd ha (hlive _ _ hab).1
    · exact absurd rfl (hlive _ _ hac).1
    · rfl
  · rintro a b (hab | ⟨rfl, rfl⟩)
    · exact (hold.links.objects a b hab).widen fun _ _ => .inl
    · exact hobjects _ (.inr ⟨rfl, rfl⟩)
  · rintro a b f g (hab | ⟨rfl, rfl⟩) hf hf'
    · exact (hold.code a b f g hab hf hf').mono fun _ _ hv => hv.widen fun _ _ => .inl
    · have hnew : some o = some (.function f) := (get?_allocate_self h o).symm.trans (function?_eq_some_iff.mp hf)
      have hnew' : some o' = some (.function g) := (get?_allocate_self h' o').symm.trans (function?_eq_some_iff.mp hf')
      refine (hcode f g (Option.some.inj hnew) (Option.some.inj hnew')).mono fun _ _ hv => ?_
      exact (hv.mono hg.keeps hg'.keeps).widen fun _ _ => .inl

/-- Functions that look alike and have the same code may be added. -/
theorem add (hc : Copies R h h') {f g : FunctionObject} (harity : f.arity = g.arity)
    (hname : h.SameName h' f.name g.name) (hcode : f.chunk.Twins ((Pairing.exact R).Alike h h') g.chunk) :
    Copies (fun a b => R a b ∨ a = ⟨h.cells.size⟩ ∧ b = ⟨h'.cells.size⟩) (h.allocate (.function f)).1
      (h'.allocate (.function g)).1 := by
  refine hc.join (fun _ h => by cases h) (fun _ h => by cases h) (fun S hS => ?_) fun f₀ g₀ hf hg => ?_
  · exact .function (function?_eq_some_iff.mpr (get?_allocate_self h _))
      (function?_eq_some_iff.mpr (get?_allocate_self h' _)) harity
      (hname.mono (extends_allocate _ _) (extends_allocate _ _)) ⟨hS, rfl⟩
  · cases hf
    cases hg
    exact hcode

/-- A function of the host may be added. -/
theorem addNative (hc : Copies R h h') {n : NativeObject} (hn : n.Uniform) :
    Copies (fun a b => R a b ∨ a = ⟨h.cells.size⟩ ∧ b = ⟨h'.cells.size⟩) (h.allocate (.native n)).1
      (h'.allocate (.native n)).1 :=
  hc.join (fun _ h => by cases h) (fun _ h => by cases h)
    (fun _ _ => .native (native?_eq_some_iff.mpr (get?_allocate_self h _))
    (native?_eq_some_iff.mpr (get?_allocate_self h' _)) hn)
    fun _ _ h => by cases h

end Copies

end Heap

/-- Functions that are compiled alike. -/
structure Body.Twins (R : Handle → Handle → Prop) (h h' : Heap) (b b' : Body) : Prop where
  name : h.SameName h' b.name b'.name
  arity : b.arity = b'.arity
  chunk : b.chunk.Twins ((Pairing.exact R).Alike h h') b'.chunk
  scope : b.scope = b'.scope

theorem Body.Twins.mono {R S : Handle → Handle → Prop} {h h' k k' : Heap} {b b' : Body} (hb : Twins R h h' b b')
    (hRS : ∀ a b, R a b → S a b) (hk : h.Extends k) (hk' : h'.Extends k') : Twins S k k' b b' :=
  ⟨hb.name.mono hk hk', hb.arity, hb.chunk.mono fun _ _ hv => (hv.mono hk hk').widen hRS, hb.scope⟩

/-- What both turn back to, if anything. -/
theorem Body.Twins.outer {R : Handle → Handle → Prop} {h h' : Heap} {bs bs' : List Body}
    (hbs : List.Forall₂ (Body.Twins R h h') bs bs') :
    Body.Twins R h h' (bs.headD {}) (bs'.headD {}) ∧ List.Forall₂ (Body.Twins R h h') bs.tail bs'.tail := by
  cases hbs with
  | nil => exact ⟨⟨.none, rfl, .empty, rfl⟩, .nil⟩
  | cons hb hrest => exact ⟨hb, hrest⟩

namespace CompileState

/-- Two compilations are at the same place, and have made functions that go together. -/
structure Twins (R : Handle → Handle → Prop) (s s' : CompileState) : Prop where
  current : s.current = s'.current
  previous : s.previous = s'.previous
  rest : s.rest = s'.rest
  findings : s.findings = s'.findings
  panicking : s.panicking = s'.panicking
  body : Body.Twins R s.heap s'.heap s.body s'.body
  enclosing : List.Forall₂ (Body.Twins R s.heap s'.heap) s.enclosing s'.enclosing
  heaps : Heap.Copies R s.heap s'.heap

namespace Twins

variable {R : Handle → Handle → Prop} {s s' : CompileState} (hs : Twins R s s')

include hs

theorem mapChunk {f f' : Chunk → Chunk}
    (hf : ∀ c c', c.Twins ((Pairing.exact R).Alike s.heap s'.heap) c' →
      (f c).Twins ((Pairing.exact R).Alike s.heap s'.heap) (f' c')) : Twins R (s.mapChunk f) (s'.mapChunk f') :=
  { hs with body := { hs.body with chunk := hf _ _ hs.body.chunk } }

theorem mapScope (f : Scope → Scope) : Twins R (s.mapScope f) (s'.mapScope f) :=
  { hs with body := { hs.body with scope := congrArg f hs.body.scope } }

theorem complainAt (token : Token) (complaint : Complaint) :
    Twins R (s.complainAt token complaint) (s'.complainAt token complaint) := by
  unfold CompileState.complainAt
  rw [hs.panicking, hs.findings]
  split
  · exact hs
  · exact { hs with findings := rfl, panicking := rfl }

theorem pull {tokens tokens' : List Token} (h : tokens = tokens') :
    Twins R (CompileState.pull tokens s) (CompileState.pull tokens' s') := by
  subst h
  induction tokens generalizing s s' with
  | nil => exact { hs with current := rfl, rest := rfl }
  | cons token tokens ih =>
      cases tokens with
      | nil => exact { hs with current := rfl, rest := rfl }
      | cons next rest =>
          have hs : Twins R (s.record (.token token)) (s'.record (.token token)) := { hs with }
          rw [CompileState.pull, CompileState.pull]
          split
          · exact ih (hs.complainAt _ _)
          · exact { hs with current := rfl, rest := rfl }

theorem advance : Twins R s.advance s'.advance := by
  have hs' : Twins R { s with previous := s.current } { s' with previous := s'.current } :=
    { hs with previous := hs.current }
  exact hs'.pull hs.rest

/-- Both heaps may grow. -/
theorem grow {heap heap' : Heap} {journal journal' : Journal} (hg : s.heap.Grows heap) (hg' : s'.heap.Grows heap') :
    Twins R { s with heap, journal } { s' with heap := heap', journal := journal' } :=
  { hs with
    body := hs.body.mono (fun _ _ => id) hg.keeps hg'.keeps
    enclosing := hs.enclosing.imp fun _ _ hb => hb.mono (fun _ _ => id) hg.keeps hg'.keeps
    heaps := hs.heaps.grow hg hg' }

/-- The innermost functions are finished, and go together from now on. -/
theorem close {journal journal' : Journal} :
    Twins (fun a b => R a b ∨ a = ⟨s.heap.cells.size⟩ ∧ b = ⟨s'.heap.cells.size⟩)
      { s with
        body := s.enclosing.headD {}
        enclosing := s.enclosing.tail
        heap := (s.heap.allocate (.function { arity := s.body.arity, chunk := s.body.chunk, name := s.body.name })).1
        journal }
      { s' with
        body := s'.enclosing.headD {}
        enclosing := s'.enclosing.tail
        heap := (s'.heap.allocate
          (.function { arity := s'.body.arity, chunk := s'.body.chunk, name := s'.body.name })).1
        journal := journal' } := by
  have hg := s.heap.grows_allocate
    (o := .function { arity := s.body.arity, chunk := s.body.chunk, name := s.body.name }) fun _ h => by cases h
  have hg' := s'.heap.grows_allocate
    (o := .function { arity := s'.body.arity, chunk := s'.body.chunk, name := s'.body.name }) fun _ h => by cases h
  have hwiden : ∀ a b, R a b → R a b ∨ a = ⟨s.heap.cells.size⟩ ∧ b = ⟨s'.heap.cells.size⟩ := fun _ _ => .inl
  refine ⟨hs.current, hs.previous, hs.rest, hs.findings, hs.panicking, ?_, ?_,
    hs.heaps.add (f := { arity := s.body.arity, chunk := s.body.chunk, name := s.body.name })
      (g := { arity := s'.body.arity, chunk := s'.body.chunk, name := s'.body.name }) hs.body.arity hs.body.name
      hs.body.chunk⟩
  · exact (Body.Twins.outer hs.enclosing).1.mono hwiden hg.keeps hg'.keeps
  · exact (Body.Twins.outer hs.enclosing).2.imp fun _ _ hb => hb.mono hwiden hg.keeps hg'.keeps

end Twins

/-- Two compilations are at the same place, and the functions that went together still do. -/
def Paired (R : Handle → Handle → Prop) (s s' : CompileState) : Prop := ∃ S, (∀ a b, R a b → S a b) ∧ Twins S s s'

end CompileState

namespace Compiler

open CompileState

variable {α β : Type} {R S : Handle → Handle → Prop} {s s' : CompileState}

/-- From the two states the rules come to the same result, as far as they come to one. -/
def Agree (R : Handle → Handle → Prop) (s s' : CompileState) (x x' : Compiler α) : Prop :=
  ∀ a t a' t', x.run s = .ok a t → x'.run s' = .ok a' t' → a = a' ∧ Paired R t t'

/-- What a rule comes to does not depend on the heap. -/
def Agrees (R : Handle → Handle → Prop) (x : Compiler α) : Prop := ∀ s s', Paired R s s' → Agree R s s' x x

theorem agree_get {f f' : CompileState → Compiler α} (h : Agree R s s' (f s) (f' s')) :
    Agree R s s' (get >>= f) (get >>= f') := h

namespace Agrees

variable {x y : Compiler α} {f : α → Compiler β}

theorem pure (a : α) : Agrees R (pure a) := by
  intro s s' hs b t b' t' h h'
  cases h
  cases h'
  exact ⟨rfl, hs⟩

theorem throw (fault : Fault) : Agrees R (throw fault : Compiler α) := fun _ _ _ _ _ _ _ h => absurd h run_throw_ne_ok

theorem bind (hx : Agrees R x) (hf : ∀ a, Agrees R (f a)) : Agrees R (x >>= f) := by
  intro s s' hs b t b' t' h h'
  obtain ⟨a, u, hu, h⟩ := run_bind_eq_ok.mp h
  obtain ⟨a', u', hu', h'⟩ := run_bind_eq_ok.mp h'
  obtain ⟨rfl, hs⟩ := hx s s' hs a u a' u' hu hu'
  exact hf a u u' hs b t b' t' h h'

theorem ite {p : Prop} [Decidable p] (hx : Agrees R x) (hy : Agrees R y) : Agrees R (if p then x else y) := by
  split
  · exact hx
  · exact hy

/-- A rule that looks at what is the same on both sides. -/
theorem get {f : CompileState → Compiler β} (heq : ∀ S s s', Twins S s s' → f s = f s') (hf : ∀ s, Agrees R (f s)) :
    Agrees R (get >>= f) := by
  rintro s s' ⟨S, hRS, hs⟩
  refine agree_get ?_
  rw [← heq S s s' hs]
  exact hf s s s' ⟨S, hRS, hs⟩

theorem modify {g : CompileState → CompileState} (hg : ∀ S s s', Twins S s s' → Twins S (g s) (g s')) :
    Agrees R (modify g : Compiler Unit) := by
  rintro s s' ⟨S, hRS, hs⟩ a t a' t' h h'
  cases h
  cases h'
  exact ⟨rfl, S, hRS, hg S s s' hs⟩

end Agrees

/-! ### Small steps -/

theorem agrees_advance : Agrees R advance := .modify fun _ _ _ hs => hs.advance

theorem agrees_complain (c : Complaint) : Agrees R (complain c) :=
  .modify fun _ s s' hs => by
    unfold CompileState.complain
    rw [hs.previous]
    exact hs.complainAt _ _

theorem agrees_complainHere (c : Complaint) : Agrees R (complainHere c) :=
  .modify fun _ s s' hs => by
    unfold CompileState.complainHere
    rw [hs.current]
    exact hs.complainAt _ _

theorem agrees_sees (kind : TokenKind) : Agrees R (sees kind) :=
  .get (fun _ s s' hs => by unfold CompileState.sees; rw [hs.current]) fun _ => .pure _

theorem agrees_accept (kind : TokenKind) : Agrees R (accept kind) :=
  (agrees_sees kind).bind fun _ => .ite (agrees_advance.bind fun _ => .pure _) (.pure _)

theorem agrees_expect (kind : TokenKind) (what : Expectation) : Agrees R (expect kind what) :=
  (agrees_sees kind).bind fun _ => .ite agrees_advance (agrees_complainHere _)

theorem agrees_previousLexeme : Agrees R previousLexeme :=
  .get (fun _ s s' hs => by rw [hs.previous]) fun _ => .pure _

theorem size_eq (hs : Twins R s s') : s.body.chunk.size = s'.body.chunk.size := by
  unfold Chunk.size
  rw [hs.body.chunk.code]

theorem agrees_offset : Agrees R offset := .get (fun _ s s' hs => by rw [size_eq hs]) fun _ => .pure _

/-- Writing depends on the line of the token taken last. -/
theorem agrees_write {f : Nat → Chunk → Chunk}
    (hf : ∀ V c c' line, Chunk.Twins V c c' → Chunk.Twins V (f line c) (f line c')) :
    Agrees R (modify fun s => s.mapChunk (f s.previous.line) : Compiler Unit) :=
  .modify fun _ s s' hs => by
    rw [hs.previous]
    exact hs.mapChunk fun _ _ hc => hf _ _ _ _ hc

theorem agrees_emit (op : Opcode) : Agrees R (emit op) :=
  agrees_write (f := fun line c => c.writeOp op line) fun _ _ _ _ hc => hc.write _ _

theorem agrees_emitByte (op : Opcode) (operand : Nat) : Agrees R (emitByte op operand) :=
  agrees_write (f := fun line c => c.writeOpByte op operand.toUInt8 line) fun _ _ _ _ hc => (hc.write _ _).write _ _

theorem agrees_emitWord (op : Opcode) (operand : Nat) : Agrees R (emitWord op operand) :=
  agrees_write (f := fun line c => c.writeOpWord op operand line) fun _ _ _ _ hc => ((hc.write _ _).write _ _).write _ _

theorem agrees_emitRepeated (op : Opcode) (count : Nat) : Agrees R (emitRepeated op count) := by
  induction count with
  | zero => exact .pure _
  | succ count ih => exact (agrees_emit op).bind fun _ => ih

theorem agrees_emitReturn : Agrees R emitReturn := (agrees_emit _).bind fun _ => agrees_emit _

/-! ### Constants -/

/-- Constants that stand for the same get the same index. -/
theorem agree_addConstant {v v' : Value} {f : Nat → Compiler α} (hs : Twins S s s') (hRS : ∀ a b, R a b → S a b)
    (hv : (Pairing.exact S).Alike s.heap s'.heap v v') (hf : ∀ i, Agrees R (f i)) :
    Agree R s s' (addConstant v >>= f) (addConstant v' >>= f) := by
  intro b t b' t' h h'
  have h : (f s.body.chunk.constants.size).run (s.withConstant v) = .ok b t := h
  have h' : (f s'.body.chunk.constants.size).run (s'.withConstant v') = .ok b' t' := h'
  rw [← hs.body.chunk.size] at h'
  exact hf _ _ _ ⟨S, hRS, hs.mapChunk fun _ _ hc => hc.addConstant hv⟩ b t b' t' h h'

theorem agree_emitConstant {v v' : Value} (hs : Twins S s s') (hRS : ∀ a b, R a b → S a b)
    (hv : (Pairing.exact S).Alike s.heap s'.heap v v') : Agree R s s' (emitConstant v) (emitConstant v') :=
  agree_addConstant hs hRS hv fun _ => .ite (agrees_emitByte _ _) (.ite (agrees_emitWord _ _) (agrees_complain _))

theorem intern_turn (chars : String) (s : CompileState) : ∃ journal,
    s.intern chars = ((s.heap.intern chars).2, { s with heap := (s.heap.intern chars).1, journal }) := by
  by_cases hlive : s.heap.live < (s.heap.intern chars).1.live
  · exact ⟨s.journal.record (.allocated (s.heap.intern chars).2),
      by simp [CompileState.intern, hlive, CompileState.record]⟩
  · exact ⟨s.journal, by simp [CompileState.intern, hlive]⟩

/-- The same text is interned, and both go on with the string. -/
theorem agree_intern {chars : String} {f : Handle → Compiler α} (hs : Paired R s s')
    (hf : ∀ S t t' a a', Twins S t t' → (∀ a b, R a b → S a b) → t.heap.SameText t'.heap a a' →
      Agree R t t' (f a) (f a')) :
    Agree R s s' (modifyGet (CompileState.intern chars) >>= f) (modifyGet (CompileState.intern chars) >>= f) := by
  intro b t b' t' h h'
  obtain ⟨S, hRS, hs⟩ := hs
  obtain ⟨journal, heq⟩ := intern_turn chars s
  obtain ⟨journal', heq'⟩ := intern_turn chars s'
  have h : (f (s.intern chars).1).run (s.intern chars).2 = .ok b t := h
  have h' : (f (s'.intern chars).1).run (s'.intern chars).2 = .ok b' t' := h'
  rw [heq] at h
  rw [heq'] at h'
  refine hf S _ _ _ _ (hs.grow (Heap.grows_intern _ _) (Heap.grows_intern _ _)) hRS ?_ b t b' t' h h'
  exact ⟨_, _, (hs.heaps.links.left.intern chars).2.2, (hs.heaps.links.right.intern chars).2.2, rfl⟩

theorem agrees_numberLiteral : Agrees R numberLiteral := by
  refine agrees_previousLexeme.bind fun lexeme => ?_
  cases Number.ofLiteral? lexeme.toList with
  | none => exact agrees_complain _
  | some x => exact fun s s' ⟨S, hRS, hs⟩ => agree_emitConstant hs hRS (.number x)

theorem agrees_stringLiteral : Agrees R stringLiteral := by
  refine agrees_previousLexeme.bind fun lexeme => ?_
  cases unquote? lexeme with
  | none => exact .throw _
  | some chars =>
      exact fun s s' hs => agree_intern hs fun _ _ _ _ _ ht hRS hab => agree_emitConstant ht hRS (.object (.inr hab))

theorem nameIndex?_eq {a b : Handle} (hs : Twins S s s') (hab : (Pairing.exact S).Same s.heap s'.heap a b) :
    nameIndex? s.body.chunk a = nameIndex? s'.body.chunk b := by
  unfold nameIndex?
  rw [hs.body.chunk.size, findConstant_eq hs.heaps.links.unique_same hs.body.chunk.constants hab]

theorem agrees_nameConstant (name : String) : Agrees R (nameConstant name) := by
  refine fun s s' hs => agree_intern hs fun S t t' a a' ht hRS hab => ?_
  refine agree_get ?_
  rw [← nameIndex?_eq ht (.inr hab)]
  cases nameIndex? t.body.chunk a with
  | some index => exact Agrees.pure index t t' ⟨S, hRS, ht⟩
  | none =>
      refine agree_addConstant ht hRS (.object (.inr hab)) fun index => ?_
      exact .ite (.pure _) ((agrees_complain _).bind fun _ => .pure _)

/-! ### Jumps, scopes and functions -/

theorem agrees_emitJump (op : Opcode) : Agrees R (emitJump op) := by
  refine .get (fun _ s s' hs => by rw [size_eq hs]) fun s => ?_
  exact (agrees_emitWord op Chunk.placeholder).bind fun _ => .pure _

theorem agrees_reportJump (cause : JumpError) : Agrees R (reportJump cause) := by
  cases cause with
  | fault cause => exact .throw _
  | jumpTooLarge | loopTooLarge => exact agrees_complain _

theorem agrees_patchJump (operand : Nat) : Agrees R (patchJump operand) := by
  refine .get (fun _ s s' hs => by unfold Chunk.forwardDistance; rw [size_eq hs]) fun s => ?_
  cases s.body.chunk.forwardDistance operand with
  | error cause => exact agrees_reportJump cause
  | ok distance => exact .modify fun _ _ _ hs => hs.mapChunk fun _ _ hc => hc.setWord _ _

theorem agrees_emitLoop (start : Nat) : Agrees R (emitLoop start) := by
  refine .get (fun _ s s' hs => by unfold Chunk.backwardDistance; rw [size_eq hs]) fun s => ?_
  cases s.body.chunk.backwardDistance start with
  | error cause => exact agrees_reportJump cause
  | ok distance => exact agrees_emitWord .loop ((65536 - distance) % 65536)

theorem agrees_mapScope (f : Scope → Scope) : Agrees R (modify (CompileState.mapScope f) : Compiler Unit) :=
  .modify fun _ _ _ hs => hs.mapScope f

theorem agrees_leaveScope : Agrees R leaveScope := by
  refine .get (fun _ s s' hs => by rw [hs.body.scope]) fun s => ?_
  cases s.body.scope.leave? with
  | none => exact .throw _
  | some left => exact (agrees_mapScope _).bind fun _ => agrees_emitRepeated _ _

theorem agrees_declareVariable : Agrees R declareVariable := by
  refine .get (fun _ s s' hs => by rw [hs.body.scope, hs.previous]) fun s => .ite ?_ (.pure _)
  cases s.body.scope.declare s.previous.lexeme with
  | error cause => exact agrees_complain _
  | ok scope => exact agrees_mapScope _

theorem agrees_declareName (what : Expectation) : Agrees R (declareName what) :=
  (agrees_expect _ _).bind fun _ => agrees_declareVariable.bind fun _ =>
    .get (fun _ s s' hs => by rw [hs.body.scope]) fun _ =>
      .ite (.pure _) (agrees_previousLexeme.bind fun _ => agrees_nameConstant _)

theorem agrees_defineVariable (nameIndex : Nat) : Agrees R (defineVariable nameIndex) :=
  .get (fun _ s s' hs => by rw [hs.body.scope]) fun _ => .ite (agrees_mapScope _) (agrees_emitByte _ _)

/-- The functions that both turn to have the same name. -/
theorem agree_beginFunction {a b : Handle} (hs : Twins S s s') (hRS : ∀ a b, R a b → S a b)
    (hab : s.heap.SameText s'.heap a b) {f : Compiler α} (hf : Agrees R f) :
    Agree R s s' (beginFunction a >>= fun _ => f) (beginFunction b >>= fun _ => f) := by
  intro c t c' t' h h'
  have h : f.run (s.openFunction a) = .ok c t := h
  have h' : f.run (s'.openFunction b) = .ok c' t' := h'
  refine hf _ _ ⟨S, hRS, ?_⟩ c t c' t' h h'
  exact { hs with body := ⟨.some hab, rfl, .empty, rfl⟩, enclosing := .cons hs.body hs.enclosing }

/-- The functions that both have finished go together from now on. -/
theorem agrees_endFunction :
    Agrees R (endFunction >>= fun function => emitConstant (.object function)) := by
  unfold endFunction
  rw [bind_assoc]
  refine agrees_emitReturn.bind fun _ => ?_
  rintro s s' ⟨S, hRS, hs⟩ b t b' t' h h'
  obtain ⟨journal, heq⟩ := s.closeFunction_turn
  obtain ⟨journal', heq'⟩ := s'.closeFunction_turn
  have h : (emitConstant (.object s.closeFunction.1)).run s.closeFunction.2 = .ok b t := h
  have h' : (emitConstant (.object s'.closeFunction.1)).run s'.closeFunction.2 = .ok b' t' := h'
  rw [heq] at h
  rw [heq'] at h'
  exact agree_emitConstant hs.close (fun a b hab => .inl (hRS a b hab))
    (.object (.inl (.inr ⟨rfl, rfl⟩))) b t b' t' h h'

/-! ### The grammar -/

theorem agrees_accessOf (name : String) : Agrees R (accessOf name) := by
  refine .get (fun _ s s' hs => by rw [hs.body.scope]) fun s => ?_
  cases s.body.scope.resolve name with
  | error cause => exact (agrees_complain _).bind fun _ => .pure _
  | ok slot =>
      cases slot with
      | none => exact (agrees_nameConstant name).bind fun _ => .pure _
      | some slot => exact .pure _

theorem agrees_countArgument (count : Nat) : Agrees R (countArgument count) :=
  .ite ((agrees_complain _).bind fun _ => .pure _) (.pure _)

theorem agrees_expressions (budget : Nat) :
    (∀ p, Agrees R (expressionOf p budget)) ∧ (∀ p, Agrees R (joinAll p budget)) ∧
      (∀ o c, Agrees R (openWith o c budget)) ∧ (∀ j p, Agrees R (joinWith j p budget)) ∧
      ∀ count, Agrees R (arguments count budget) := by
  induction budget with
  | zero =>
      refine ⟨fun p => ?_, fun p => ?_, fun o c => ?_, fun j p => ?_, fun count => ?_⟩
      · rw [expressionOf]; exact .throw _
      · rw [joinAll]; exact .throw _
      · rw [openWith]; exact .throw _
      · rw [joinWith]; exact .throw _
      · rw [arguments]; exact .throw _
  | succ budget ih =>
      obtain ⟨hexpr, hall, hopen, hjoin, hargs⟩ := ih
      refine ⟨fun p => ?_, fun p => ?_, fun o c => ?_, fun j p => ?_, fun count => ?_⟩
      · rw [expressionOf]
        refine agrees_advance.bind fun _ => .get (fun _ s s' hs => by rw [hs.previous]) fun s => ?_
        cases opening? s.previous.kind with
        | none => exact agrees_complain _
        | some o =>
            refine (hopen o _).bind fun _ => (hall p).bind fun _ => .ite ?_ (.pure _)
            exact (agrees_accept _).bind fun _ => .ite (agrees_complain _) (.pure _)
      · rw [joinAll]
        refine .get (fun _ s s' hs => by rw [hs.current]) fun s => ?_
        cases joining? s.current.kind with
        | none => exact .pure _
        | some jq => exact .ite (agrees_advance.bind fun _ => (hjoin _ _).bind fun _ => hall p) (.pure _)
      · cases o <;> rw [openWith]
        case grouping => exact (hexpr _).bind fun _ => agrees_expect _ _
        case unary op => exact (hexpr _).bind fun _ => agrees_emit _
        case number => exact agrees_numberLiteral
        case string => exact agrees_stringLiteral
        case literal op => exact agrees_emit _
        case «variable» =>
          refine agrees_previousLexeme.bind fun name => (agrees_accessOf name).bind fun access => ?_
          cases access with
          | none => exact .pure _
          | some access =>
              have huse : ∀ assigns : Bool, Agrees R (if assigns = true then do
                  expressionOf .assignment budget
                  emitByte access.write access.operand
                else emitByte access.read access.operand) :=
                fun _ => .ite ((hexpr _).bind fun _ => agrees_emitByte _ _) (agrees_emitByte _ _)
              exact .ite ((agrees_accept _).bind huse) ((Agrees.pure _).bind huse)
      · cases j <;> rw [joinWith]
        case binary op => exact (hexpr _).bind fun _ => agrees_emit _
        case and =>
          exact (agrees_emitJump _).bind fun _ => (agrees_emit _).bind fun _ => (hexpr _).bind fun _ =>
            agrees_patchJump _
        case or =>
          exact (agrees_emitJump _).bind fun _ => (agrees_emitJump _).bind fun _ => (agrees_patchJump _).bind fun _ =>
            (agrees_emit _).bind fun _ => (hexpr _).bind fun _ => agrees_patchJump _
        case call =>
          have hrest : ∀ count, Agrees R (do
              expect .rightParen .parenAfterArguments
              emitByte .call count) := fun _ => (agrees_expect _ _).bind fun _ => agrees_emitByte _ _
          exact (agrees_sees _).bind fun _ => .ite ((Agrees.pure _).bind hrest) ((hargs 0).bind hrest)
      · rw [arguments]
        exact (hexpr _).bind fun _ => (agrees_countArgument _).bind fun _ => (agrees_accept _).bind fun _ =>
          .ite (hargs _) (.pure _)

theorem agrees_expression (budget : Nat) : Agrees R (expression budget) := (agrees_expressions budget).1 _

theorem agrees_expressionStatement (budget : Nat) : Agrees R (expressionStatement budget) :=
  (agrees_expression budget).bind fun _ => (agrees_expect _ _).bind fun _ => agrees_emit _

theorem agrees_printStatement (budget : Nat) : Agrees R (printStatement budget) :=
  (agrees_expression budget).bind fun _ => (agrees_expect _ _).bind fun _ => agrees_emit _

theorem agrees_returnStatement (budget : Nat) : Agrees R (returnStatement budget) :=
  (agrees_accept _).bind fun _ => .ite agrees_emitReturn
    ((agrees_expression budget).bind fun _ => (agrees_expect _ _).bind fun _ => agrees_emit _)

theorem agrees_varDeclaration (budget : Nat) : Agrees R (varDeclaration budget) := by
  have hrest : ∀ index, Agrees R (do
      expect .semicolon .semicolonAfterVariable
      defineVariable index) := fun _ => (agrees_expect _ _).bind fun _ => agrees_defineVariable _
  exact (agrees_declareName _).bind fun index => (agrees_accept _).bind fun _ =>
    .ite ((agrees_expression budget).bind fun _ => hrest index) ((agrees_emit _).bind fun _ => hrest index)

theorem agrees_forInitializer (budget : Nat) : Agrees R (forInitializer budget) :=
  (agrees_accept _).bind fun _ => .ite (agrees_varDeclaration budget)
    ((agrees_accept _).bind fun _ => .ite (agrees_expressionStatement budget) (.pure _))

theorem agrees_forCondition (budget : Nat) : Agrees R (forCondition budget) :=
  (agrees_accept _).bind fun _ => .ite (.pure _)
    ((agrees_expression budget).bind fun _ => (agrees_expect _ _).bind fun _ =>
    (agrees_emitJump _).bind fun _ => (agrees_emit _).bind fun _ => .pure _)

theorem agrees_forIncrement (start budget : Nat) : Agrees R (forIncrement start budget) :=
  (agrees_accept _).bind fun _ => .ite (.pure _) ((agrees_emitJump _).bind fun _ => agrees_offset.bind fun _ =>
    (agrees_expression budget).bind fun _ => (agrees_emit _).bind fun _ => (agrees_expect _ _).bind fun _ =>
    (agrees_emitLoop _).bind fun _ => (agrees_patchJump _).bind fun _ => .pure _)

theorem agrees_forExit (exit : Option Nat) : Agrees R (forExit exit) := by
  cases exit with
  | none => exact .pure _
  | some exit => exact (agrees_patchJump _).bind fun _ => agrees_emit _

theorem agrees_countParameter : Agrees R countParameter :=
  .get (fun _ s s' hs => by rw [hs.body.arity]) fun _ => .ite (agrees_complainHere _)
    (.modify fun _ s s' hs => { hs with body := { hs.body with arity := congrArg (· + 1) hs.body.arity } })

theorem agrees_parameters (budget : Nat) : Agrees R (parameters budget) := by
  induction budget with
  | zero => exact .throw _
  | succ budget ih =>
      rw [parameters]
      exact agrees_countParameter.bind fun _ => (agrees_declareName _).bind fun _ =>
        (agrees_defineVariable _).bind fun _ =>
        (agrees_accept _).bind fun _ => .ite ih (.pure _)

theorem agrees_skipStatement (budget : Nat) : Agrees R (skipStatement budget) := by
  induction budget with
  | zero => exact .throw _
  | succ budget ih =>
      rw [skipStatement]
      exact .get (fun _ s s' hs => by rw [hs.current, hs.previous]) fun _ =>
        .ite (.pure _) (agrees_advance.bind fun _ => ih)

theorem agrees_synchronize (budget : Nat) : Agrees R (synchronize budget) :=
  .get (fun _ s s' hs => by rw [hs.panicking]) fun _ =>
    .ite (Agrees.bind (.modify fun _ s s' hs => { hs with panicking := rfl }) fun _ => agrees_skipStatement budget)
      (.pure _)

theorem agrees_statements (budget : Nat) :
    Agrees R (declaration budget) ∧ Agrees R (funDeclaration budget) ∧ Agrees R (functionBody budget) ∧
      Agrees R (statement budget) ∧ Agrees R (block budget) ∧ Agrees R (ifStatement budget) ∧
      Agrees R (whileStatement budget) ∧ Agrees R (forStatement budget) := by
  induction budget with
  | zero => exact ⟨.throw _, .throw _, .throw _, .throw _, .throw _, .throw _, .throw _, .throw _⟩
  | succ budget ih =>
      obtain ⟨hdecl, hfun, hbody, hstmt, hblock, hif, hwhile, hfor⟩ := ih
      have hsync := agrees_synchronize (R := R) budget
      have hexpr := agrees_expression (R := R) budget
      refine ⟨?_, ?_, ?_, ?_, ?_, ?_, ?_, ?_⟩
      · rw [declaration]
        exact (agrees_accept _).bind fun _ => .ite (hfun.bind fun _ => hsync) ((agrees_accept _).bind fun _ =>
          .ite ((agrees_varDeclaration budget).bind fun _ => hsync) ((agrees_accept _).bind fun _ =>
          .ite ((agrees_complain _).bind fun _ => hsync) (hstmt.bind fun _ => hsync)))
      · rw [funDeclaration]
        exact (agrees_declareName _).bind fun _ => (agrees_mapScope _).bind fun _ => hbody.bind fun _ =>
          agrees_defineVariable _
      · rw [functionBody]
        have hrest : Agrees R (do
            expect .rightParen .parenAfterParameters
            expect .leftBrace .braceBeforeBody
            block budget
            let function ← endFunction
            emitConstant (.object function)) :=
          (agrees_expect _ _).bind fun _ => (agrees_expect _ _).bind fun _ => hblock.bind fun _ => agrees_endFunction
        refine agrees_previousLexeme.bind fun name => fun s s' hs => agree_intern hs fun S t t' a b ht hRS hab => ?_
        refine agree_beginFunction ht hRS hab ((agrees_mapScope _).bind fun _ => (agrees_expect _ _).bind fun _ =>
          (agrees_sees _).bind fun _ => .ite ((agrees_parameters budget).bind fun _ => hrest) hrest)
      · rw [statement]
        exact (agrees_accept _).bind fun _ => .ite (agrees_printStatement budget)
          ((agrees_accept _).bind fun _ => .ite hfor ((agrees_accept _).bind fun _ => .ite hif
          ((agrees_accept _).bind fun _ => .ite (agrees_returnStatement budget)
          ((agrees_accept _).bind fun _ => .ite hwhile ((agrees_accept _).bind fun _ =>
          .ite ((agrees_mapScope _).bind fun _ => hblock.bind fun _ => agrees_leaveScope)
            (agrees_expressionStatement budget))))))
      · rw [block]
        exact .get (fun _ s s' hs => by unfold CompileState.sees; rw [hs.current]) fun _ =>
          .ite (agrees_expect _ _) (hdecl.bind fun _ => hblock)
      · rw [ifStatement]
        have hrest : ∀ finish, Agrees R (patchJump finish) := agrees_patchJump
        exact (agrees_expect _ _).bind fun _ => hexpr.bind fun _ => (agrees_expect _ _).bind fun _ =>
          (agrees_emitJump _).bind fun _ => (agrees_emit _).bind fun _ => hstmt.bind fun _ =>
          (agrees_emitJump _).bind fun finish => (agrees_patchJump _).bind fun _ => (agrees_emit _).bind fun _ =>
          (agrees_accept _).bind fun _ => .ite (hstmt.bind fun _ => hrest finish) (hrest finish)
      · rw [whileStatement]
        exact agrees_offset.bind fun _ => (agrees_expect _ _).bind fun _ => hexpr.bind fun _ =>
          (agrees_expect _ _).bind fun _ => (agrees_emitJump _).bind fun _ => (agrees_emit _).bind fun _ =>
          hstmt.bind fun _ => (agrees_emitLoop _).bind fun _ => (agrees_patchJump _).bind fun _ => agrees_emit _
      · rw [forStatement]
        exact (agrees_mapScope _).bind fun _ => (agrees_expect _ _).bind fun _ =>
          (agrees_forInitializer budget).bind fun _ =>
          agrees_offset.bind fun _ => (agrees_forCondition budget).bind fun _ =>
            (agrees_forIncrement _ budget).bind fun _ =>
          hstmt.bind fun _ => (agrees_emitLoop _).bind fun _ => (agrees_forExit _).bind fun _ => agrees_leaveScope

theorem agrees_program (budget : Nat) : Agrees R (program budget) := by
  induction budget with
  | zero => exact .throw _
  | succ budget ih =>
      rw [program]
      exact (agrees_accept _).bind fun _ => .ite (.pure _) ((agrees_statements budget).1.bind fun _ => ih)

end Compiler

namespace CompileState

/-- An accepted source has become a function, and a refused one nothing. -/
theorem finish_turn (s : CompileState) :
    s.findings = [] ∧ s.finish.result = .ok ⟨s.heap.cells.size⟩ ∧ s.finish.heap = (s.heap.allocate (.function
        { arity := s.body.arity, chunk := s.body.chunk, name := s.body.name })).1 ∨
      s.findings ≠ [] ∧ s.finish.result = .error ⟨s.findings.reverse⟩ ∧ s.finish.heap = s.heap := by
  unfold finish
  split
  · next hf =>
      obtain ⟨journal, hj⟩ := listCode_eq s.body.chunk "<script>" s
      simp only [hj]
      exact .inl ⟨List.isEmpty_iff.mp hf, rfl, rfl⟩
  · next hf => exact .inr ⟨fun h => hf (List.isEmpty_iff.mpr h), rfl, rfl⟩

end CompileState

/-- **Compiling alike.** Whether a source is accepted, what is found about it, and the code that it becomes do not
depend on what the heap holds. -/
theorem compile_twins {R : Handle → Handle → Prop} {h h' : Heap} (hcopies : Heap.Copies R h h') {source : String}
    {printCode printCode' : Bool} {journal journal' : Journal} {c c' : Compilation}
    (hc : compile source h printCode journal = .ok c) (hc' : compile source h' printCode' journal' = .ok c') :
    ∃ S, (∀ a b, R a b → S a b) ∧ Heap.Copies S c.heap c'.heap ∧
      ((∃ e, c.result = .error e ∧ c'.result = .error e) ∨ ∃ k k', c.result = .ok k ∧
      c'.result = .ok k' ∧ S k k') := by
  obtain ⟨s, hrun, rfl⟩ := compile_eq_ok hc
  obtain ⟨s', hrun', rfl⟩ := compile_eq_ok hc'
  have hstart : CompileState.Twins R { rest := tokenize source, heap := h, printCode, journal }
      { rest := tokenize source, heap := h', printCode := printCode', journal := journal' } :=
    ⟨rfl, rfl, rfl, rfl, rfl, ⟨.none, rfl, .empty, rfl⟩, .nil, hcopies⟩
  obtain ⟨-, S, hRS, hs⟩ := (Compiler.agrees_advance.bind fun _ => (Compiler.agrees_program _).bind fun _ =>
    Compiler.agrees_emitReturn) _ _ ⟨R, fun _ _ => id, hstart⟩ _ _ _ _ hrun hrun'
  rcases s.finish_turn with ⟨hf, hres, hheap⟩ | ⟨hf, hres, hheap⟩ <;>
    rcases s'.finish_turn with ⟨hf', hres', hheap'⟩ | ⟨hf', hres', hheap'⟩
  · have hadd := hs.heaps.add (f := { arity := s.body.arity, chunk := s.body.chunk, name := s.body.name })
      (g := { arity := s'.body.arity, chunk := s'.body.chunk, name := s'.body.name }) hs.body.arity hs.body.name
      hs.body.chunk
    rw [← hheap, ← hheap'] at hadd
    refine ⟨_, fun a b hab => ?_, hadd, .inr ⟨_, _, hres, hres', ?_⟩⟩
    · exact .inl (hRS a b hab)
    · exact .inr ⟨rfl, rfl⟩
  · exact absurd (hs.findings ▸ hf) hf'
  · exact absurd (hs.findings ▸ hf') hf
  · refine ⟨S, hRS, ?_, .inl ⟨_, hres, ?_⟩⟩
    · rw [hheap, hheap']
      exact hs.heaps
    · rw [hres', hs.findings]

end Lox
