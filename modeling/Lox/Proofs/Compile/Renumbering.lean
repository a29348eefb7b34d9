import Lox.Proofs.Compile.Statements

/-! Two compilations of the same words with different line numbers. The compiler copies the line of a token into its
diagnostics and into the code, and never looks at it, so the two go on in step, and the diagnostics of the one are those
of the other with the lines renumbered. -/

namespace Lox

/-- A token with its line renumbered. -/
def Token.renumber (φ : Nat → Nat) (t : Token) : Token := { t with line := φ t.line }

/-- A diagnostic with its line renumbered. -/
def Diagnostic.renumber (φ : Nat → Nat) (d : Diagnostic) : Diagnostic := { d with line := φ d.line }

/-- The bodies of functions that differ in the lines of their code. -/
structure Body.SameCode (b b' : Body) : Prop where
  name : b.name = b'.name
  arity : b.arity = b'.arity
  scope : b.scope = b'.scope
  code : b.chunk.code = b'.chunk.code
  constants : b.chunk.constants = b'.chunk.constants

theorem Body.SameCode.refl (b : Body) : SameCode b b := ⟨rfl, rfl, rfl, rfl, rfl⟩

/-- What both turn back to. -/
theorem Body.SameCode.outer {bs bs' : List Body} (h : List.Forall₂ SameCode bs bs') :
    SameCode (bs.headD {}) (bs'.headD {}) ∧ List.Forall₂ SameCode bs.tail bs'.tail := by
  cases h with
  | nil => exact ⟨.refl _, .nil⟩
  | cons hbody hrest => exact ⟨hbody, hrest⟩

/-- Heaps with the same handles and the same strings. -/
structure Heap.SameStrings (h h' : Heap) : Prop where
  size : h.cells.size = h'.cells.size
  strings : h.strings = h'.strings
  string? : ∀ handle, h.string? handle = h'.string? handle

namespace Heap.SameStrings

variable {h h' : Heap}

theorem refl (h : Heap) : SameStrings h h := ⟨rfl, rfl, fun _ => rfl⟩

theorem interned? (hs : SameStrings h h') (chars : String) : h.interned? chars = h'.interned? chars := by
  unfold Heap.interned? Heap.findString?
  simp only [hs.strings, hs.string?]

theorem string?_allocate (hs : SameStrings h h') (s : StringObject) (handle : Handle) :
    (h.allocate (.string s)).1.string? handle = (h'.allocate (.string s)).1.string? handle := by
  have hold := hs.string? handle
  unfold Heap.string? at hold ⊢
  rw [get?_allocate, get?_allocate, hs.size]
  by_cases hnew : handle = ⟨h'.cells.size⟩
  · rw [if_pos hnew, if_pos hnew]
  · rw [if_neg hnew, if_neg hnew]
    exact hold

theorem intern (hs : SameStrings h h') (chars : String) :
    (h.intern chars).2 = (h'.intern chars).2 ∧ SameStrings (h.intern chars).1 (h'.intern chars).1 := by
  cases hf : h.interned? chars with
  | some handle =>
      rw [intern_of_interned? hf, intern_of_interned? (hs.interned? chars ▸ hf)]
      exact ⟨rfl, hs⟩
  | none =>
      rw [intern_of_new hf, intern_of_new (hs.interned? chars ▸ hf)]
      refine ⟨by rw [hs.size], by simp [allocate, hs.size], by simp only [hs.strings, hs.size], ?_⟩
      exact hs.string?_allocate _

theorem allocate (hs : SameStrings h h') {o o' : Object} (ho : ∀ s, o ≠ .string s) (ho' : ∀ s, o' ≠ .string s) :
    SameStrings (h.allocate o).1 (h'.allocate o').1 where
  size := by simp [Heap.allocate, hs.size]
  strings := hs.strings
  string? handle := by rw [string?_allocate_other h ho, string?_allocate_other h' ho', hs.string?]

end Heap.SameStrings

namespace CompileState

/-- The first compilation is at the place where the second one is, with the lines renumbered. -/
structure Renumbers (φ : Nat → Nat) (s t : CompileState) : Prop where
  /-- The token that stands for none keeps its line. -/
  start : Token.start.renumber φ = Token.start
  current : s.current = t.current.renumber φ
  previous : s.previous = t.previous.renumber φ
  rest : s.rest = t.rest.map (Token.renumber φ)
  findings : s.findings = t.findings.map (Diagnostic.renumber φ)
  panicking : s.panicking = t.panicking
  body : s.body.SameCode t.body
  enclosing : List.Forall₂ Body.SameCode s.enclosing t.enclosing
  heap : s.heap.SameStrings t.heap

namespace Renumbers

variable {φ : Nat → Nat} {s t : CompileState} (h : Renumbers φ s t)

include h

theorem mapChunk {f f' : Chunk → Chunk} (hcode : (f s.body.chunk).code = (f' t.body.chunk).code)
    (hconstants : (f s.body.chunk).constants = (f' t.body.chunk).constants) :
    Renumbers φ (s.mapChunk f) (t.mapChunk f') :=
  { h with body := { h.body with code := hcode, constants := hconstants } }

theorem mapScope (f : Scope → Scope) : Renumbers φ (s.mapScope f) (t.mapScope f) :=
  { h with body := { h.body with scope := congrArg f h.body.scope } }

theorem complainAt (token : Token) (complaint : Complaint) :
    Renumbers φ (s.complainAt (token.renumber φ) complaint) (t.complainAt token complaint) := by
  unfold CompileState.complainAt
  rw [h.panicking, h.findings]
  split
  · exact h
  · exact { h with findings := rfl, panicking := rfl }

theorem pull (tokens : List Token) : Renumbers φ (pull (tokens.map (Token.renumber φ)) s) (pull tokens t) := by
  induction tokens generalizing s t with
  | nil => exact { h with current := h.start.symm, rest := rfl }
  | cons token tokens ih =>
      cases tokens with
      | nil => exact { h with current := rfl, rest := rfl }
      | cons next rest =>
          have hrecord : Renumbers φ (s.record (.token (token.renumber φ))) (t.record (.token token)) := { h with }
          rw [List.map_cons, List.map_cons, CompileState.pull, CompileState.pull]
          show Renumbers φ (if token.kind = .error then _ else _) _
          split
          · exact ih (hrecord.complainAt token _)
          · exact { h with current := rfl, rest := rfl }

theorem advance : Renumbers φ s.advance t.advance := by
  have hprevious : Renumbers φ { s with previous := s.current } { t with previous := t.current } :=
    { h with previous := h.current }
  have hpull := hprevious.pull t.rest
  rwa [← h.rest] at hpull

theorem intern (chars : String) :
    (s.intern chars).1 = (t.intern chars).1 ∧ Renumbers φ (s.intern chars).2 (t.intern chars).2 := by
  obtain ⟨hhandle, hheap⟩ := h.heap.intern chars
  refine ⟨hhandle, ?_⟩
  unfold CompileState.intern
  simp only
  split <;> split <;> exact { h with heap := hheap }

theorem openFunction (name : Handle) : Renumbers φ (s.openFunction name) (t.openFunction name) :=
  { h with body := .refl _, enclosing := .cons h.body h.enclosing }

theorem closeFunction :
    s.closeFunction.1 = t.closeFunction.1 ∧ Renumbers φ s.closeFunction.2 t.closeFunction.2 := by
  obtain ⟨journal, heq⟩ := s.closeFunction_turn
  obtain ⟨journal', heq'⟩ := t.closeFunction_turn
  rw [heq, heq']
  refine ⟨congrArg Handle.mk h.heap.size, { h with
    body := ?_, enclosing := ?_, heap := h.heap.allocate (fun _ => nofun) fun _ => nofun }⟩
  · exact (Body.SameCode.outer h.enclosing).1
  · exact (Body.SameCode.outer h.enclosing).2

end Renumbers

end CompileState

end Lox
