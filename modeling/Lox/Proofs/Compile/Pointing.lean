import Lox.Proofs.Compile.Diagnostics

/-! What a diagnostic points at. A stretch of the source that is no token is complained about as soon as the compiler
comes to it, in the words of the scanner, and is then dropped: no other complaint is ever about such a stretch. So a
diagnostic that points nowhere says what is wrong with the stretch in its line. -/

namespace Lox

namespace CompileState

variable {tokens ahead : List Token} {b c : Footing} {s t : CompileState}

/-- Stretches that are no tokens are neither looked at nor taken, and what points nowhere has the words of such a
stretch. -/
structure Worded (tokens : List Token) (s : CompileState) : Prop where
  rest : ∀ t ∈ s.rest, t ∈ tokens
  /-- What is read last, again and again, is the end of the source. -/
  last : ∀ t, s.rest.getLast? = some t → t.kind ≠ .error
  current : s.current.kind ≠ .error
  previous : s.previous.kind ≠ .error
  unnamed : ∀ d ∈ s.findings, d.place = .unnamed →
    ∃ t ∈ tokens, t.kind = .error ∧ d.line = t.line ∧ d.message = t.lexeme

theorem placeOf_eq_unnamed {token : Token} : placeOf token = .unnamed ↔ token.kind = .error := by
  unfold placeOf
  split <;> simp_all

/-- A complaint about a word points at it. A complaint about another stretch has its words. -/
theorem unnamed_complainAt (h : ∀ d ∈ s.findings, d.place = .unnamed →
      ∃ t ∈ tokens, t.kind = .error ∧ d.line = t.line ∧ d.message = t.lexeme) {token : Token} {complaint : Complaint}
    (htoken : token.kind = .error → token ∈ tokens ∧ complaint.message = token.lexeme) :
    ∀ d ∈ (s.complainAt token complaint).findings, d.place = .unnamed →
      ∃ t ∈ tokens, t.kind = .error ∧ d.line = t.line ∧ d.message = t.lexeme := by
  unfold complainAt
  split
  · exact h
  · refine List.forall_mem_cons.mpr ⟨fun hplace => ?_, h⟩
    have hkind := placeOf_eq_unnamed.mp hplace
    exact ⟨token, (htoken hkind).1, hkind, rfl, (htoken hkind).2⟩

/-- Looking at the next token, behind the stretches that are none. -/
theorem worded_pull (hmem : ∀ t ∈ ahead, t ∈ tokens) (hlast : ∀ t, ahead.getLast? = some t → t.kind ≠ .error)
    (hprevious : s.previous.kind ≠ .error) (hunnamed : ∀ d ∈ s.findings, d.place = .unnamed →
      ∃ t ∈ tokens, t.kind = .error ∧ d.line = t.line ∧ d.message = t.lexeme) : Worded tokens (pull ahead s) := by
  fun_induction CompileState.pull ahead s with
  | case1 s =>
      have hstart : Token.start.kind ≠ .error := by decide
      have hnone : ∀ t, ([] : List Token).getLast? = some t → t.kind ≠ .error := by simp
      exact ⟨fun _ ht => absurd ht List.not_mem_nil, hnone, hstart, hprevious, hunnamed⟩
  | case2 last s => exact ⟨hmem, hlast, hlast last rfl, hprevious, hunnamed⟩
  | case3 token next rest s t hkind ih =>
      have hfirst := hmem token (List.mem_cons_self ..)
      refine ih (fun u hu => hmem u (List.mem_cons_of_mem _ hu)) (fun u hu => hlast u hu) ?_
        (unnamed_complainAt (s := t) hunnamed fun _ => ⟨hfirst, rfl⟩)
      rw [(complainAt_frame token _ t).2.2]
      exact hprevious
  | case4 token next rest s t hkind =>
      exact ⟨fun u hu => hmem u (List.mem_cons_of_mem _ hu), fun u hu => hlast u hu, hkind, hprevious, hunnamed⟩

namespace Worded

theorem advance (h : Worded tokens s) : Worded tokens s.advance :=
  worded_pull (s := { s with previous := s.current }) h.rest h.last h.current h.unnamed

theorem complainAt (h : Worded tokens s) {token : Token} (htoken : token.kind ≠ .error) (complaint : Complaint) :
    Worded tokens (s.complainAt token complaint) := by
  obtain ⟨findings, panicking, journal, heq⟩ := s.complainAt_turn token complaint
  have hword : token.kind = .error → token ∈ tokens ∧ complaint.message = token.lexeme :=
    fun hkind => absurd hkind htoken
  have hunnamed := unnamed_complainAt h.unnamed hword
  rw [heq] at hunnamed ⊢
  exact ⟨h.rest, h.last, h.current, h.previous, hunnamed⟩

/-- Along the course of a compilation nothing else is said about what is no token. -/
theorem course (hst : Course s b t c) (h : Worded tokens s) : Worded tokens t := by
  induction hst with
  | yield => exact h
  | trans _ _ ih ih' => exact ih' (ih h)
  | advance => exact h.advance
  | complain complaint => exact h.complainAt h.previous complaint
  | complainHere _ complaint => exact h.complainAt h.current complaint
  | calm | write | patch => exact { h with }
  | quiet hq =>
      refine ⟨?_, ?_, ?_, ?_, ?_⟩
      · exact hq.rest ▸ h.rest
      · exact hq.rest ▸ h.last
      · exact hq.current ▸ h.current
      · exact hq.previous ▸ h.previous
      · exact hq.findings ▸ h.unnamed
  | @function s t b c name _ ih =>
      have hclose := ih (show Worded tokens (s.openFunction name) from { h with })
      obtain ⟨journal, heq⟩ := t.closeFunction_turn
      rw [heq]
      exact { hclose with }

end Worded

end CompileState

/-- The diagnostics of a source are about its tokens, and what is said about a stretch that is no token is in the
words of the scanner. -/
theorem diagnostic_token {source : String} {heap : Heap} {printCode : Bool} {journal : Journal} {c : Compilation}
    {e : CompileError} (hc : compile source heap printCode journal = .ok c) (he : c.result = .error e) :
    ∀ d ∈ e.diagnostics, ∃ t ∈ tokenize source, d.line = t.line ∧ d.place = CompileState.placeOf t ∧
      (t.kind = .error → d.message = t.lexeme) := by
  obtain ⟨s, hrun, rfl⟩ := compile_eq_ok hc
  obtain ⟨us, last, htokens, hend, -⟩ := Scanner.scan_ofSource source
  have hcourse := Compiler.course_of_source hrun
  have hordered : CompileState.InOrder (tokenize source) .firm s := .course hcourse (.of_source source _ _ _)
  have hworded : CompileState.Worded (tokenize source) s := by
    refine .course hcourse (CompileState.worded_pull (fun _ => id) (fun t ht => ?_) nofun nofun)
    simp only [htokens, List.getLast?_append, List.getLast?_singleton, Option.some_or, Option.some.injEq] at ht
    simp [← ht, hend]
  obtain rfl : e = ⟨s.findings.reverse⟩ := by
    rcases s.finish_turn with ⟨-, hres, -⟩ | ⟨-, hres, -⟩
    · rw [hres] at he
      cases he
    · rw [hres] at he
      exact (Except.error.inj he).symm
  intro d hd
  have hd : d ∈ s.findings := List.mem_reverse.mp hd
  obtain ⟨t, ht, hline, hplace⟩ := hordered.about d hd
  by_cases hkind : t.kind = .error
  · obtain ⟨u, hu, hukind, huline, humessage⟩ :=
      hworded.unnamed d hd (hplace.trans (CompileState.placeOf_eq_unnamed.mpr hkind))
    refine ⟨u, hu, huline, ?_, fun _ => humessage⟩
    rw [hplace, CompileState.placeOf_eq_unnamed.mpr hkind, CompileState.placeOf_eq_unnamed.mpr hukind]
  · exact ⟨t, ht, hline, hplace, fun h => absurd h hkind⟩

end Lox
