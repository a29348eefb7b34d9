import Lox.Proofs.Compile.Orderly
import Lox.Proofs.Compile.Positions
import Lox.Proofs.Compile.Recovery
import Lox.Proofs.Twins.Compiling

/-! Diagnostics come in the order of the source. A diagnostic only shows the line and the word of the token that it is
about. To tell the tokens of a source apart, they are compiled once more with their positions in place of their lines;
since the compiler does not look at lines, the same diagnostics come out, each with the position of its token. -/

namespace Lox

/-- Tokens that carry their position in place of their line. Positions count from two: one is the line of the token that
stands for none. -/
def positioned (tokens : List Token) : List Token := tokens.mapIdx fun i t => { t with line := i + 2 }

/-- The line of the token at a position. -/
def lineOf (tokens : List Token) : Nat → Nat
  | position + 2 => ((tokens[position]?).map (·.line)).getD 0
  | _ => 1

/-- What is found about tokens, in the order in which it is noted. -/
def diagnose (tokens : List Token) (heap : Heap) : List Diagnostic :=
  match (do
    Compiler.advance
    Compiler.program (compileBudget tokens.length)
    Compiler.emitReturn : Compiler Unit).run { rest := tokens, heap } with
  | .ok _ s => s.findings.reverse
  | .error _ _ => []

/-- The diagnostic `d` is about one of the tokens, and `m` is the same diagnostic with the position of that token. -/
def Diagnostic.Refers (tokens : List Token) (d m : Diagnostic) : Prop :=
  ∃ i token, tokens[i]? = some token ∧ m.line = i + 2 ∧ d.line = token.line ∧
    m.place = CompileState.placeOf token ∧ d.place = CompileState.placeOf token ∧ d.message = m.message

variable {tokens : List Token}

theorem mem_positioned {t : Token} (h : t ∈ positioned tokens) :
    ∃ i, ∃ token : Token, tokens[i]? = some token ∧ t = { token with line := i + 2 } := by
  obtain ⟨i, hi, rfl⟩ := List.mem_mapIdx.mp h
  exact ⟨i, tokens[i], List.getElem?_eq_getElem hi, rfl⟩

theorem positioned_ordered (tokens : List Token) : (positioned tokens).Pairwise (·.line ≤ ·.line) := by
  rw [List.pairwise_iff_getElem]
  intro i j hi hj hij
  simp only [positioned, List.getElem_mapIdx]
  omega

/-- With the lines of the tokens at the positions, the tokens come out again. -/
theorem renumber_positioned (tokens : List Token) :
    tokens = (positioned tokens).map (Token.renumber (lineOf tokens)) := by
  refine List.ext_getElem? fun i => ?_
  rw [List.getElem?_map, positioned, List.getElem?_mapIdx]
  cases h : tokens[i]? with
  | none => rfl
  | some t => simp [Token.renumber, lineOf, h]

theorem Diagnostic.refers_renumber {m : Diagnostic}
    (h : ∃ t ∈ positioned tokens, m.line = t.line ∧ m.place = CompileState.placeOf t) :
    (m.renumber (lineOf tokens)).Refers tokens m := by
  obtain ⟨t, ht, hline, hplace⟩ := h
  obtain ⟨i, token, htoken, rfl⟩ := mem_positioned ht
  refine ⟨i, token, htoken, hline, ?_, hplace, hplace, rfl⟩
  simp [Diagnostic.renumber, hline, lineOf, htoken]

/-- Both compilations start at the first token. -/
theorem CompileState.Renumbers.of_start (tokens : List Token) (heap : Heap) (printCode : Bool) (journal : Journal) :
    Renumbers (lineOf tokens) { rest := tokens, heap, printCode, journal } { rest := positioned tokens, heap } where
  start := rfl
  current := rfl
  previous := rfl
  rest := renumber_positioned tokens
  findings := rfl
  panicking := rfl
  body := .refl _
  enclosing := .nil
  heap := .refl heap

/-- The same diagnostics are found about tokens that carry their positions. -/
theorem diagnose_positioned {heap : Heap} {printCode : Bool} {journal : Journal} {s : CompileState}
    (h : (do
      Compiler.advance
      Compiler.program (compileBudget tokens.length)
      Compiler.emitReturn : Compiler Unit).run { rest := tokens, heap, printCode, journal } = .ok () s)
    (hmore : tokens ≠ []) :
    List.Forall₂ (Diagnostic.Refers tokens) s.findings.reverse (diagnose (positioned tokens) heap) ∧
      (diagnose (positioned tokens) heap).Pairwise (·.line ≤ ·.line) := by
  obtain ⟨t, hrun, hst⟩ := Compiler.renumbers_source (.of_start tokens heap printCode journal) h
  have hlength : (positioned tokens).length = tokens.length := List.length_mapIdx
  have hfound : diagnose (positioned tokens) heap = t.findings.reverse := by
    unfold diagnose
    rw [hlength, hrun]
  have hordered : CompileState.InOrder (positioned tokens) .firm t := by
    refine .course (Compiler.course_of_source hrun) (.of_start ?_ (positioned_ordered tokens))
    rwa [← List.length_pos_iff, hlength, List.length_pos_iff]
  rw [hfound, hst.findings, ← List.map_reverse]
  refine ⟨?_, List.pairwise_reverse.mpr hordered.found⟩
  rw [List.forall₂_map_left_iff, List.forall₂_same]
  exact fun m hm => Diagnostic.refers_renumber (hordered.about m (List.mem_reverse.mp hm))

/-- **Diagnostics come in the order of the source.** Let a source be refused. Its diagnostics refer to tokens at
positions that do not go back. So their lines do not go back either; the line of the first diagnostic, which stands
for the whole error, is the least of them, and all of them lie between the first line of the source and the last one.
-/
theorem diagnostics_in_order {source : String} {heap : Heap} {printCode : Bool} {journal : Journal} {c : Compilation}
    {e : CompileError} (hc : compile source heap printCode journal = .ok c) (he : c.result = .error e) :
    List.Forall₂ (Diagnostic.Refers (tokenize source)) e.diagnostics (diagnose (positioned (tokenize source)) heap) ∧
      (diagnose (positioned (tokenize source)) heap).Pairwise (·.line ≤ ·.line) ∧
      e.diagnostics.Pairwise (·.line ≤ ·.line) ∧
      (∃ line, e.line? = some line ∧ ∀ d ∈ e.diagnostics, line ≤ d.line) ∧
      ∀ d ∈ e.diagnostics, 1 ≤ d.line ∧ d.line ≤ 1 + source.toList.count '\n' := by
  obtain ⟨s, hrun, rfl⟩ := compile_eq_ok hc
  have hordered : CompileState.InOrder (tokenize source) .firm s :=
    .course (Compiler.course_of_source hrun) (.of_source source _ _ _)
  obtain ⟨hne, rfl⟩ : s.findings ≠ [] ∧ e = ⟨s.findings.reverse⟩ := by
    rcases s.finish_turn with ⟨-, hres, -⟩ | ⟨hne, hres, -⟩
    · rw [hres] at he
      cases he
    · rw [hres] at he
      exact ⟨hne, (Except.error.inj he).symm⟩
  obtain ⟨hrefers, hpositions⟩ := diagnose_positioned hrun (tokenize_ne_nil source)
  have hlines : s.findings.reverse.Pairwise (·.line ≤ ·.line) := List.pairwise_reverse.mpr hordered.found
  refine ⟨hrefers, hpositions, hlines, ?_, fun d hd => ?_⟩
  · show ∃ line, s.findings.reverse.head?.map (·.line) = some line ∧ ∀ d ∈ s.findings.reverse, line ≤ d.line
    cases hfirst : s.findings.reverse with
    | nil => exact absurd (List.reverse_eq_nil_iff.mp hfirst) hne
    | cons first others =>
        rw [hfirst] at hlines
        exact ⟨first.line, rfl, List.forall_mem_cons.mpr ⟨Nat.le_refl _, (List.pairwise_cons.mp hlines).1⟩⟩
  · obtain ⟨t, ht, hline, -⟩ := hordered.about d (List.mem_reverse.mp hd)
    rw [hline]
    exact (tokenize_lines source).2 t ht

/-- Three diagnostics on three lines. -/
theorem diagnostics_of_three_lines : ∃ c e, compile "print ;\nvar 1;\n@ a" .empty false .silent = .ok c ∧
    c.result = .error e ∧ e.diagnostics.map (·.line) = [1, 2, 3] ∧
    (diagnose (positioned (tokenize "print ;\nvar 1;\n@ a")) .empty).length = 3 ∧ e.line? = some 1 ∧
    ∀ d ∈ e.diagnostics, 1 ≤ d.line := by
  have hrun : ((compile "print ;\nvar 1;\n@ a" .empty false .silent).toOption.any fun c =>
      c.refusal?.any fun e => e.diagnostics.map (·.line) == [1, 2, 3]) = true := by decide +kernel
  simp only [Option.any_eq_true, toOption_eq_some, Compilation.refusal?_eq_some, beq_iff_eq] at hrun
  obtain ⟨c, hc, e, he, hlines⟩ := hrun
  obtain ⟨hrefers, -, -, -, hbounds⟩ := diagnostics_in_order hc he
  have hlength : e.diagnostics.length = 3 := by simpa using congrArg List.length hlines
  have hfirst : e.line? = some 1 := by
    rw [CompileError.line?, ← List.head?_map, hlines]
    rfl
  exact ⟨c, e, hc, he, hlines, hrefers.length_eq ▸ hlength, hfirst, fun d hd => (hbounds d hd).1⟩

end Lox
