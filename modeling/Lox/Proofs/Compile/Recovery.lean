import Lox.Proofs.Compile.Statements

/-! How a panic ends. At the end of a declaration the compiler calms down and then drops tokens up to the next
statement. A stretch of the source that is no token is complained about even there, so the compiler may come to the
next statement in a new panic; it does so exactly if it has dropped such a stretch. -/

namespace Lox

/-- What is wrong with the source, if it is refused. -/
def Compilation.refusal? (c : Compilation) : Option CompileError :=
  match c.result with
  | .ok _ => none
  | .error e => some e

theorem Compilation.refusal?_eq_some {c : Compilation} {e : CompileError} :
    c.refusal? = some e ↔ c.result = .error e := by
  unfold refusal?
  split
  · next h => simp [h]
  · next h => simp [h]

namespace CompileState

/-! ### Dropping tokens -/

/-- Tokens are dropped between two states. A panic in the later state has begun before, or at a stretch of the source
among the dropped tokens that is no token. -/
def Drops (s s' : CompileState) (skipped : List Token) : Prop :=
  s.rest = skipped ++ s'.rest ∧ (s'.panicking = true ↔ s.panicking = true ∨ ∃ t ∈ skipped, t.kind = .error)

theorem Drops.refl (s : CompileState) : Drops s s [] := ⟨rfl, by simp⟩

theorem Drops.trans {s s' s'' : CompileState} {ts us : List Token} (h : Drops s s' ts) (h' : Drops s' s'' us) :
    Drops s s'' (ts ++ us) := by
  obtain ⟨hrest, hpanic⟩ := h
  obtain ⟨hrest', hpanic'⟩ := h'
  refine ⟨by rw [hrest, hrest', List.append_assoc], ?_⟩
  rw [hpanic', hpanic]
  simp only [List.mem_append, or_and_right, exists_or, or_assoc]

theorem panicking_complainAt (token : Token) (complaint : Complaint) (s : CompileState) :
    (s.complainAt token complaint).panicking = true := by
  unfold complainAt
  split
  · assumption
  · rfl

theorem drops_pull (tokens : List Token) (s : CompileState) :
    ∃ skipped, Drops { s with rest := tokens } (pull tokens s) skipped := by
  fun_induction pull tokens s with
  | case1 s => exact ⟨[], rfl, by simp⟩
  | case2 last s => exact ⟨[], rfl, by simp⟩
  | case3 token next rest s t hkind ih =>
      obtain ⟨skipped, hrest, hpanic⟩ := ih
      refine ⟨token :: skipped, congrArg (token :: ·) hrest, ?_⟩
      simp only [hpanic, panicking_complainAt, true_or, true_iff]
      exact .inr ⟨token, List.mem_cons_self .., hkind⟩
  | case4 token next rest s t hkind => exact ⟨[token], rfl, by simp [t, record, hkind]⟩

theorem drops_advance (s : CompileState) : ∃ skipped, Drops s s.advance skipped :=
  drops_pull s.rest { s with previous := s.current }

/-! ### Complaints that are noted -/

/-- Findings have been added between two states if the later one is in a panic. -/
def Notes (s s' : CompileState) : Prop :=
  s.findings.length ≤ s'.findings.length ∧ (s'.panicking = true → s.findings.length < s'.findings.length)

theorem Notes.of_calm {s : CompileState} (h : s.panicking = false) : Notes s s :=
  ⟨Nat.le_refl _, fun hp => absurd hp (by simp [h])⟩

theorem Notes.complainAt {s t : CompileState} (h : Notes s t) (token : Token) (complaint : Complaint) :
    Notes s (t.complainAt token complaint) := by
  unfold CompileState.complainAt
  split
  · exact h
  · exact ⟨Nat.le_succ_of_le h.1, fun _ => Nat.lt_succ_of_le h.1⟩

theorem Notes.move {s t u : CompileState} (m : t.Move u) (h : Notes s t) : Notes s u := by
  cases m with
  | advance => exact pull_keeps (P := Notes s) (fun _ _ _ h => h) (fun _ _ h => h.complainAt _ _) t.rest h
  | complain token complaint => exact h.complainAt token complaint
  | calm => exact ⟨h.1, nofun⟩
  | code | scope | parameter | number | opened => exact h
  | text chars | literal chars =>
      show Notes s (t.intern chars).2
      unfold Notes
      rw [(t.intern_findings chars).1, (t.intern_findings chars).2]
      exact h
  | closed =>
      obtain ⟨body, enclosing, journal, heq, -⟩ := t.closeFunction_eq
      rw [heq]
      exact h

/-- While the compiler starts out calm, whatever lets it panic is noted. -/
theorem Moves.notes {s t : CompileState} (h : Moves s t) (hs : s.panicking = false) : Notes s t :=
  h.keeps Notes.move (.of_calm hs)

end CompileState

namespace Compiler

open CompileState

variable {s s' : CompileState}

theorem drops_skipStatement {budget : Nat} (h : (skipStatement budget).run s = .ok () s') :
    ∃ skipped, Drops s s' skipped := by
  induction budget generalizing s with
  | zero => exact absurd h run_throw_ne_ok
  | succ budget ih =>
      rw [skipStatement] at h
      obtain ⟨t, s₁, hget, h⟩ := run_bind_eq_ok.mp h
      cases hget
      split at h
      · cases h
        exact ⟨[], .refl _⟩
      · obtain ⟨_, s₂, hadvance, h⟩ := run_bind_eq_ok.mp h
        cases hadvance
        obtain ⟨ts, hts⟩ := s.drops_advance
        obtain ⟨us, hus⟩ := ih h
        exact ⟨ts ++ us, hts.trans hus⟩

/-- The state before tokens are dropped counts only if it is in a panic: then the compiler calms down first. -/
theorem drops_synchronize {budget : Nat} (h : (synchronize budget).run s = .ok () s') :
    (s.panicking = false ∧ s' = s) ∨
      s.panicking = true ∧ ∃ skipped, Drops { s with panicking := false } s' skipped := by
  obtain ⟨t, s₁, hget, h⟩ := run_bind_eq_ok.mp h
  cases hget
  split at h
  · next hpanic =>
      obtain ⟨_, s₂, hcalm, h⟩ := run_bind_eq_ok.mp h
      cases hcalm
      exact .inr ⟨hpanic, drops_skipStatement h⟩
  · next hcalm =>
      cases h
      exact .inl ⟨by simpa using hcalm, rfl⟩

/-- What a declaration reads before it gets over a panic. -/
def readDeclaration (budget : Nat) : Compiler Unit := do
  if ← accept .funWord then funDeclaration budget
  else if ← accept .varWord then varDeclaration budget
  else if ← accept .classWord then complain .classesUnsupported
  else statement budget

theorem declaration_succ (budget : Nat) :
    declaration (budget + 1) = readDeclaration budget >>= fun _ => synchronize budget := by
  rw [declaration, readDeclaration]
  simp only [bind_assoc]
  congr 1
  funext isFun
  cases isFun
  · simp only [Bool.false_eq_true, if_false, bind_assoc]
    congr 1
    funext isVar
    cases isVar
    · simp only [Bool.false_eq_true, if_false, bind_assoc]
      congr 1
      funext isClass
      cases isClass <;> rfl
    · rfl
  · rfl

/-- The state in which a rule ends, unless it faults. -/
def ended? (x : Compiler Unit) (s : CompileState) : Option CompileState :=
  match x.run s with
  | .ok _ s' => some s'
  | .error _ _ => none

theorem ended?_eq_some {x : Compiler Unit} : ended? x s = some s' ↔ x.run s = .ok () s' := by
  unfold ended?
  split
  · next h => simp [h]
  · next h => simp [h]

/-- **The end of a panic.** After a declaration the compiler panics exactly if the declaration came to its end in a
panic and one of the tokens dropped from there on is no token of the language. If it does not panic, then the next
thing that lets it panic is noted, and not lost to an earlier one. -/
theorem declaration_recovers {budget : Nat} (h : (declaration (budget + 1)).run s = .ok () s') :
    (∃ m skipped, (readDeclaration budget).run s = .ok () m ∧ m.rest = skipped ++ s'.rest ∧
      (m.panicking = false → s' = m) ∧
      (s'.panicking = true ↔ m.panicking = true ∧ ∃ t ∈ skipped, t.kind = .error)) ∧
    (s'.panicking = false → ∀ t, Moves s' t → t.panicking = true → s'.findings.length < t.findings.length) := by
  refine ⟨?_, fun hcalm t hmoves => (hmoves.notes hcalm).2⟩
  rw [declaration_succ] at h
  obtain ⟨_, m, hread, hsync⟩ := run_bind_eq_ok.mp h
  rcases drops_synchronize hsync with ⟨hcalm, rfl⟩ | ⟨hpanic, skipped, hrest, hafter⟩
  · exact ⟨s', [], hread, rfl, fun _ => rfl, by simp [hcalm]⟩
  · refine ⟨m, skipped, hread, hrest, fun hcalm => absurd hpanic (by simp [hcalm]), ?_⟩
    rw [hafter]
    simp [hpanic]

/-- A declaration that ends at a semicolon in a new panic: a stretch that is no token stands before the semicolon. -/
theorem declaration_recovers_past_stray : ∃ s s' m skipped, (declaration 40).run s = .ok () s' ∧ s'.panicking = true ∧
    (readDeclaration 39).run s = .ok () m ∧ m.rest = skipped ++ s'.rest ∧ ∃ t ∈ skipped, t.kind = .error := by
  have hrun : ((ended? advance { rest := tokenize "a b #; print ;", heap := .empty }).any fun s =>
      (ended? (declaration 40) s).any fun s' => s'.panicking) = true := by decide +kernel
  simp only [Option.any_eq_true, ended?_eq_some] at hrun
  obtain ⟨s, -, s', hdecl, hpanic⟩ := hrun
  obtain ⟨⟨m, skipped, hread, hrest, -, hafter⟩, -⟩ := declaration_recovers hdecl
  exact ⟨s, s', m, skipped, hdecl, hpanic, hread, hrest, (hafter.mp hpanic).2⟩

/-- A panic can outlive the declaration: the first declaration of this source ends in one, and so nothing is found about
the second one, which on its own is refused. -/
theorem panic_outlives_declaration :
    (∃ s s' s'', advance.run { rest := tokenize "a b #; print ;", heap := .empty } = .ok () s ∧
      (declaration 40).run s = .ok () s' ∧ s'.panicking = true ∧ s'.current.kind = .printWord ∧
      (declaration 40).run s' = .ok () s'' ∧ s''.findings = s'.findings) ∧
    (∃ c, compile "a b #; print ;" .empty false .silent = .ok c ∧ c.result = .error ⟨[
      ⟨1, .lexeme "b", "Expect ';' after expression."⟩, ⟨1, .unnamed, "Unexpected character."⟩]⟩) ∧
    ∃ c, compile "print ;" .empty false .silent = .ok c ∧
      c.result = .error ⟨[⟨1, .lexeme ";", "Expect expression."⟩]⟩ := by
  refine ⟨?_, ?_, ?_⟩
  · have hrun : ((ended? advance { rest := tokenize "a b #; print ;", heap := .empty }).any fun s =>
        (ended? (declaration 40) s).any fun s' => s'.panicking && s'.current.kind == .printWord &&
        (ended? (declaration 40) s').any fun s'' => s''.findings == s'.findings) = true := by decide +kernel
    simp only [Option.any_eq_true, ended?_eq_some, Bool.and_eq_true, beq_iff_eq] at hrun
    obtain ⟨s, hstart, s', hfirst, ⟨hpanic, hnext⟩, s'', hsecond, hsame⟩ := hrun
    exact ⟨s, s', s'', hstart, hfirst, hpanic, hnext, hsecond, hsame⟩
  · have hrun : ((compile "a b #; print ;" .empty false .silent).toOption.any fun c => c.refusal? == some ⟨[
        ⟨1, .lexeme "b", "Expect ';' after expression."⟩, ⟨1, .unnamed, "Unexpected character."⟩]⟩) = true := by
      decide +kernel
    simpa only [Option.any_eq_true, toOption_eq_some, beq_iff_eq, Compilation.refusal?_eq_some] using hrun
  · have hrun : ((compile "print ;" .empty false .silent).toOption.any fun c =>
        c.refusal? == some ⟨[⟨1, .lexeme ";", "Expect expression."⟩]⟩) = true := by decide +kernel
    simpa only [Option.any_eq_true, toOption_eq_some, beq_iff_eq, Compilation.refusal?_eq_some] using hrun

end Compiler

end Lox
