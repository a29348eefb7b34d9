import Lox.Proofs.Compile.Accepted
import Lox.Proofs.Compile.Sequences

/-! The language that the compiler accepts. Declarations of functions complete the forms of the grammar, so the
compiler gets through every reading of a source, and it has nothing to complain about exactly if the reading keeps
the static rules. Since an accepted source has a reading, the accepted sources are those that read as a program
that keeps the rules. -/

namespace Lox

open CompileState

/-- Some names more in the innermost scope, as long as there is room for them. -/
theorem Scope.Splits.adds_names {scope : Scope} {inner outer : List String} (h : scope.Splits false inner outer)
    (names : List String) (hlen : (names ++ (inner ++ outer)).length ≤ 255) :
    (scope.adds names).Splits false (names ++ inner) outer := by
  induction names with
  | nil => exact h
  | cons name names ih =>
      simp only [List.cons_append, List.length_cons] at hlen
      have hadds : scope.adds (name :: names) = (scope.adds names).adds [name] := scope.adds_append names [name]
      rw [hadds]
      refine (ih (by omega)).adds name fun _ => ?_
      rw [List.append_assoc]
      omega

namespace Compiler

variable {x : Point} {t u v w y z : Token} {ts ps bs us : List Token} {top : Bool} {inner outer : List String}
  {params : List String} {body : Block}

/-- What holds of the whole source may be used. -/
theorem Answers.of_and {α : Type} {f : Compiler α} {fact legal : Prop} {p : CompileState → Prop}
    {q : α → CompileState → Prop} (h : fact → Answers f p legal q) : Answers f (fun s => fact ∧ p s) legal q :=
  fun s a s' hs hrun => h hs.1 s a s' hs.2 hrun

/-- Parameters, of which there may be none, and what follows them. -/
theorem answers_parametersIf {f : Compiler Unit} [ByMoves f] {legal : Prop} {q : Unit → CompileState → Prop}
    (hp : ParamsRead ps params) (hs : x.scope.Splits false [] []) (harity : x.arity = 0)
    (hw : w.kind = .rightParen) (hx : x.ahead = ps ++ w :: us) (b : Nat)
    (hf : (x.scope.adds params.reverse).Splits false params.reverse [] →
      Answers f (At { x with
        scope := x.scope.adds params.reverse, arity := params.length, ahead := w :: us }) legal q) :
    Answers (do
      if !(← sees .rightParen) then parameters b
      f) (At x) ((params.Nodup ∧ params.length ≤ 255) ∧ legal) q := by
  refine (answers_sees _).bind_known ?_
  cases hparams : params with
  | nil =>
      subst hparams
      obtain rfl : ps = [] := by cases hp; rfl
      rw [next_of_cons hx, hw, if_neg (by decide)]
      have hx' : x =
          { x with scope := x.scope.adds [].reverse, arity := ([] : List String).length, ahead := w :: us } := by
        rw [List.reverse_nil, Scope.adds_nil, List.length_nil, ← harity, ← List.nil_append (w :: us), ← hx]
      rw [← hx'] at hf
      exact (hf hs).congr (by simp)
  | cons name names =>
      rw [← hparams]
      have hne : x.next ≠ .rightParen := by
        rw [Point.next, hx]
        cases hp with
        | nil => cases hparams
        | last ht | cons ht => simp [nextKind, ht]
      rw [if_pos (by simpa using hne)]
      refine ((answers_parameters hp (by rw [hparams]; exact List.cons_ne_nil _ _) hs harity List.nodup_nil
        (by rw [nextKind, hw]) hx b).bind_of_legal fun hl _ => ?_).congr (Iff.and ?_ Iff.rfl)
      · rw [harity, Nat.zero_add]
        refine hf ?_
        have := hs.adds_names params.reverse (by simpa using hl.2)
        rwa [List.append_nil] at this
      · simp [List.nodup_reverse]

instance byMoves_functionBody (b : Nat) : ByMoves (functionBody b) := (byMoves_statements b).2.2.1

/-- The parameters and the body of a function. The function around it comes out as it was, with a constant more. -/
theorem answers_functionBody (hv : v.kind = .leftParen) (hp : ParamsRead ps params) (hw : w.kind = .rightParen)
    (hy : y.kind = .leftBrace) (hb : BlockLeads bs body) (hz : z.kind = .rightBrace)
    (hx : x.ahead = v :: (ps ++ w :: y :: (bs ++ z :: us))) (b : Nat) :
    Answers (functionBody b) (At x)
      ((params.Nodup ∧ params.length ≤ 255) ∧ body.Legal false params.reverse [] {} ∧ x.draft.Loadable) fun _ =>
        At { x with ahead := us, draft := x.draft.load none } := by
  cases b with
  | zero => exact .giveUp
  | succ b =>
      rw [functionBody]
      refine .get fun s₀ _ => (Answers.modifyGet (q := fun _ => At x) fun s hs => (hs.intern _).1).bind_sure
        fun name => ?_
      refine (answers_beginFunction name).bind_sure fun _ => .of_exists fun c => .of_and fun hwaits => ?_
      refine answers_enterScope.bind_sure fun _ =>
        (answers_expect (x := { x.inside c.1 c.2 with scope := Scope.start.enter }) hx hv).bind_sure fun _ => ?_
      refine answers_parametersIf hp Scope.splits_start.enter rfl hw rfl b fun hsplits => ?_
      refine (answers_expect rfl hw).bind_sure fun _ => (answers_expect rfl hy).bind_sure fun _ => ?_
      refine (hb.answers_block hsplits hz rfl b).bind fun _ => ?_
      refine (answers_endFunction hwaits rfl).bind_sure fun function => ?_
      exact answers_emitConstant (x := { x with ahead := us }) (.object function) none

/-- A declaration takes the compiler out of no panic. -/
theorem answers_synchronize (b : Nat) : Answers (synchronize b) (At x) True fun _ => At x := by
  refine .get fun s hs => ?_
  rw [hs.clean.2, if_neg nofun]
  exact .pure fun _ hs' => hs'

theorem declarationLeads_of_succ {st : Stmt} (h : ∀ b x us top inner outer, Facing true top inner outer ts us x →
    Answers (declaration (b + 1)) (At x) (st.Legal top inner outer x.draft) fun _ =>
      At ({ x with scope := x.scope.adds (st.declares top) }.after (st.draft top (inner ++ outer) x.draft) us)) :
    DeclarationLeads ts st := by
  intro b
  cases b with
  | zero => exact fun _ _ _ _ _ _ => .giveUp
  | succ b => exact h b

/-- The declaration of a function. -/
theorem declarationLeads_function {label : Handle} (ht : t.kind = .funWord) (hu : u.kind = .identifier)
    (hv : v.kind = .leftParen) (hp : ParamsRead ps params) (hw : w.kind = .rightParen) (hy : y.kind = .leftBrace)
    (hb : BlockLeads bs body) (hz : z.kind = .rightBrace) :
    DeclarationLeads (t :: u :: v :: (ps ++ w :: y :: (bs ++ [z]))) (.function label u.lexeme params body) := by
  refine declarationLeads_of_succ fun b x us top inner outer hf => ?_
  have hx : x.ahead = t :: u :: v :: (ps ++ w :: y :: (bs ++ z :: us)) := by simp [hf.ahead]
  rw [declaration, Stmt.Legal, Stmt.draft, Stmt.declares]
  refine answers_accept_of_cons hx ht (.bind_last ?_ fun _ => answers_synchronize b)
  cases b with
  | zero => exact .giveUp
  | succ b =>
      rw [funDeclaration]
      have hdefine : ∀ i, Answers (defineVariable i) (At { x with
          scope := x.scope.adds (if top then [] else [u.lexeme]), ahead := us,
          draft := (x.draft.declare top u.lexeme).load none }) True fun _ => At { x with
            scope := x.scope.adds (if top then [] else [u.lexeme]), ahead := us,
            draft := ((x.draft.declare top u.lexeme).load none).define top } := by
        intro i
        have hdepth : top = true ↔ (x.scope.begun top u.lexeme).markInitialized.depth = 0 := by
          rw [depth_markInitialized, hf.splits.global]
          cases top <;> rfl
        have := answers_defineVariable (x := { x with
          scope := (x.scope.begun top u.lexeme).markInitialized, ahead := us,
          draft := (x.draft.declare top u.lexeme).load none }) i hdepth
        rwa [markInitialized_twice, hf.splits.marked_begun] at this
      have hbody := answers_functionBody (x := { x with
        scope := x.scope.adds (if top then [] else [u.lexeme]), ahead := v :: (ps ++ w :: y :: (bs ++ z :: us)),
        draft := x.draft.declare top u.lexeme }) hv hp hw hy hb hz rfl b
      have hmark := answers_markInitialized (x := { x with
        scope := x.scope.begun top u.lexeme, ahead := v :: (ps ++ w :: y :: (bs ++ z :: us)),
        draft := x.draft.declare top u.lexeme })
      rw [hf.splits.marked_begun] at hmark
      refine ((answers_declareName (x := { x with ahead := u :: v :: (ps ++ w :: y :: (bs ++ z :: us)) }) hf.splits rfl
        hu).bind fun i => hmark.bind_sure fun _ => hbody.bind_last fun _ => hdefine i).congr ?_
      constructor
      · rintro ⟨h, ⟨hn, hl⟩, hb⟩
        exact ⟨h, hn, hl, hb⟩
      · rintro ⟨h, hn, hl, hb⟩
        exact ⟨h, ⟨hn, hl⟩, hb⟩

/-- The declaration of a variable. -/
theorem declarationLeads_var {st : Stmt} (h : VarReads ts st) : DeclarationLeads ts st := by
  refine declarationLeads_of_succ fun b x us top inner outer hf => ?_
  obtain ⟨t, ts, rfl, ht⟩ := h.starts
  have hx : x.ahead = t :: (ts ++ us) := hf.ahead
  rw [declaration]
  refine answers_accept_of_ne (by rw [next_of_cons hx, ht]; decide) ?_
  exact answers_accept_of_cons hx ht
    ((answers_varDeclaration (x := { x with ahead := ts ++ us }) h hf.splits rfl b).bind_last fun _ =>
    answers_synchronize b)

/-- A statement declares nothing. -/
theorem declarationLeads_statement {o : Bool} {st : Stmt} (hreads : Stmt.Reads o ts st) (h : StmtLeads o ts st) :
    DeclarationLeads ts st := by
  refine declarationLeads_of_succ fun b x us top inner outer hf => ?_
  have hnone : st.declares top = [] := by cases hreads <;> rfl
  have hne : ∀ k, k ∈ [TokenKind.funWord, .varWord, .classWord] → x.next ≠ k := by
    intro k hk heq
    refine hreads.starts us ?_
    rw [← hf.ahead, show nextKind x.ahead = k from heq]
    simp only [List.mem_cons, List.not_mem_nil, or_false] at hk ⊢
    rcases hk with rfl | rfl | rfl <;> simp
  rw [declaration, hnone, Scope.adds_nil]
  refine answers_accept_of_ne (hne _ (by simp)) <| answers_accept_of_ne (hne _ (by simp)) <|
    answers_accept_of_ne (hne _ (by simp)) ?_
  exact (h b x us top inner outer ⟨hf.splits, fun _ => hf.no_else rfl, hf.ahead⟩).bind_last fun _ =>
    answers_synchronize b

end Compiler

/-! ### Whole readings -/

/-- What follows a sequence does not become an `else`. -/
theorem Block.Reads.starts {ts : List Token} {body : Block} (h : Block.Reads ts body) {us : List Token}
    (hus : nextKind us ∈ [.rightBrace, .eof]) : nextKind (ts ++ us) ≠ .elseWord := by
  cases h with
  | nil =>
      rw [List.nil_append]
      intro h
      rw [h] at hus
      exact absurd hus (by decide)
  | function ht => simp [nextKind, ht]
  | var h =>
      obtain ⟨t, ts, rfl, ht⟩ := h.starts
      simp [nextKind, ht]
  | statement h =>
      rw [List.append_assoc]
      exact fun heq => h.starts _ (by rw [heq]; decide)

mutual

/-- The compiler goes through every statement of the grammar. -/
theorem Stmt.Reads.leads : ∀ {o : Bool} {ts : List Token} {st : Stmt}, Stmt.Reads o ts st → Compiler.StmtLeads o ts st
  | _, _, _, .expression h ht => Compiler.stmtLeads_expression h ht
  | _, _, _, .print ht h hu => Compiler.stmtLeads_print ht h hu
  | _, _, _, .leave ht hu => Compiler.stmtLeads_leave ht hu
  | _, _, _, .ret ht h hu => Compiler.stmtLeads_ret ht h hu
  | _, _, _, .block ht h hu => Compiler.stmtLeads_block ht h.leads hu
  | _, _, _, .ifAlone ht hu hc hv hy => by
      have := Compiler.stmtLeads_cond ht hu hc hv hy.leads Compiler.elseLeads_none fun us hno _ => hno rfl
      rwa [List.append_nil] at this
  | _, _, _, .ifElse ht hu hc hv hy hw hn =>
      Compiler.stmtLeads_cond ht hu hc hv hy.leads (Compiler.elseLeads_some hw hn.leads) nofun
  | _, _, _, .while ht hu hc hv hb => Compiler.stmtLeads_while ht hu hc hv hb.leads
  | _, _, _, .for ht hu hi hc hv hn hw hb => Compiler.stmtLeads_for ht hu hi hc hv hn hw hb.leads

/-- The compiler goes through every sequence of the grammar. -/
theorem Block.Reads.leads : ∀ {ts : List Token} {body : Block}, Block.Reads ts body → Compiler.BlockLeads ts body
  | _, _, .nil => Compiler.blockLeads_nil
  | _, _, @Block.Reads.function t u v w x y ps bs us params body rest label ht hu hv hp hw hx hb hy hr => by
      have hfirst : Compiler.DeclarationLeads (t :: u :: v :: (ps ++ w :: x :: (bs ++ [y])))
          (.function label u.lexeme params body) := Compiler.declarationLeads_function ht hu hv hp hw hx hb.leads hy
      have := Compiler.blockLeads_cons hfirst (fun vs => by simp [nextKind, ht]) hr.leads fun vs hvs => hr.starts hvs
      simpa using this
  | _, _, .var h hr =>
      Compiler.blockLeads_cons (Compiler.declarationLeads_var h) (fun vs => by
        obtain ⟨t, ts, rfl, ht⟩ := h.starts
        simp [nextKind, ht]) hr.leads fun vs hvs => hr.starts hvs
  | _, _, .statement h hr =>
      Compiler.blockLeads_cons (Compiler.declarationLeads_statement h h.leads)
        (fun vs hmem => h.starts vs (by simp only [List.mem_cons, List.not_mem_nil, or_false] at hmem ⊢; tauto))
        hr.leads fun vs hvs => hr.starts hvs

end

/-! ### The tokens of a reading -/

/-- All tokens are words of the language. -/
def Words (ts : List Token) : Prop := ∀ t ∈ ts, t.kind ≠ .error

@[simp] theorem words_nil : Words [] := nofun

@[simp] theorem words_cons {t : Token} {ts : List Token} : Words (t :: ts) ↔ t.kind ≠ .error ∧ Words ts :=
  List.forall_mem_cons

@[simp] theorem words_append {ts us : List Token} : Words (ts ++ us) ↔ Words ts ∧ Words us :=
  List.forall_mem_append

mutual

theorem Expr.Reads.words : ∀ {q : Precedence} {ts : List Token} {e : Expr}, Expr.Reads q ts e → Words ts
  | _, _, _, .looser _ h => h.words
  | _, _, _, .nil ht | _, _, _, .yes ht | _, _, _, .no ht | _, _, _, .variable ht => by simp [ht]
  | _, _, _, .number ht _ | _, _, _, .text ht _ => by simp [ht]
  | _, _, _, .grouping ht h hu => by simp [ht, h.words, hu]
  | _, _, _, .assign ht hu h => by simp [ht, hu, h.words]
  | _, _, _, .unary ht h => by
      refine words_cons.mpr ⟨fun heq => ?_, h.words⟩
      rw [heq] at ht
      cases ht
  | _, _, _, .binary ht hl hr => by
      refine words_append.mpr ⟨hl.words, words_cons.mpr ⟨fun heq => ?_, hr.words⟩⟩
      rw [heq] at ht
      cases ht
  | _, _, _, .and ht hl hr | _, _, _, .or ht hl hr => by simp [ht, hl.words, hr.words]
  | _, _, _, .call ht hl hr hu => by simp [ht, hl.words, hr.words, hu]

theorem Args.Reads.words : ∀ {ts : List Token} {args : Args}, Args.Reads ts args → Words ts
  | _, _, .nil => words_nil
  | _, _, .last h => h.words
  | _, _, .cons h ht hr => by simp [h.words, ht, hr.words]

end

theorem ParamsRead.words {ts : List Token} {params : List String} (h : ParamsRead ts params) : Words ts := by
  induction h with
  | nil => exact words_nil
  | last ht => simp [ht]
  | cons ht hu _ ih => simp [ht, hu, ih]

theorem ClauseReads.words {ts : List Token} {c : Option Expr} (h : ClauseReads ts c) : Words ts := by
  cases h with
  | none => exact words_nil
  | some h => exact h.words

theorem VarReads.words {ts : List Token} {st : Stmt} (h : VarReads ts st) : Words ts := by
  cases h with
  | bare ht hu hv => simp [ht, hu, hv]
  | value ht hu hv h hw => simp [ht, hu, hv, h.words, hw]

theorem InitializerReads.words {ts : List Token} {rest body : Block} (h : InitializerReads ts rest body) :
    Words ts := by
  cases h with
  | none ht => simp [ht]
  | var h => exact h.words
  | expression h ht => simp [h.words, ht]

mutual

theorem Stmt.Reads.words : ∀ {o : Bool} {ts : List Token} {st : Stmt}, Stmt.Reads o ts st → Words ts
  | _, _, _, .expression h ht => by simp [h.words, ht]
  | _, _, _, .print ht h hu | _, _, _, .ret ht h hu => by simp [ht, h.words, hu]
  | _, _, _, .leave ht hu => by simp [ht, hu]
  | _, _, _, .block ht h hu => by simp [ht, h.words, hu]
  | _, _, _, .ifAlone ht hu hc hv hy => by simp [ht, hu, hc.words, hv, hy.words]
  | _, _, _, .ifElse ht hu hc hv hy hw hn => by simp [ht, hu, hc.words, hv, hy.words, hw, hn.words]
  | _, _, _, .while ht hu hc hv hb => by simp [ht, hu, hc.words, hv, hb.words]
  | _, _, _, .for ht hu hi hc hv hn hw hb => by simp [ht, hu, hi.words, hc.words, hv, hn.words, hw, hb.words]

theorem Block.Reads.words : ∀ {ts : List Token} {body : Block}, Block.Reads ts body → Words ts
  | _, _, .nil => words_nil
  | _, _, .function ht hu hv hp hw hx hb hy hr => by simp [ht, hu, hv, hp.words, hw, hx, hb.words, hy, hr.words]
  | _, _, .var h hr => by simp [h.words, hr.words]
  | _, _, .statement h hr => by simp [h.words, hr.words]

end

/-- What reads as a program has no stretch that is no word. -/
theorem Block.ReadsAll.words {tokens : List Token} {p : Block} (h : p.ReadsAll tokens) : Words tokens := by
  obtain ⟨ts, last, rfl, hlast, hreads⟩ := h
  simp [hreads.words, hlast]

/-! ### The language -/

/-- The beginning of a source that has only words. -/
theorem CompileState.at_start {source : String} {heap : Heap} {printCode : Bool} {journal : Journal} {ts : List Token}
    {last : Token} (htok : tokenize source = ts ++ [last]) (hlast : last.kind = .eof) (hproper : ∀ t ∈ ts, t.Proper)
    (hwords : Words ts) (hi : heap.Interned) :
    (advance { rest := tokenize source, heap, printCode, journal }).At ⟨.start, 0, [], heap, {}, ts⟩ := by
  obtain ⟨hb, he, hh, -, -⟩ := advance_frame { rest := tokenize source, heap, printCode, journal }
  have hclean : (advance { rest := tokenize source, heap, printCode, journal }).Clean := by
    unfold CompileState.advance
    rw [htok]
    cases ts with
    | nil => exact ⟨rfl, rfl⟩
    | cons t ts =>
        rw [List.cons_append, pull_cons_append, if_neg (words_cons.mp hwords).1]
        exact ⟨rfl, rfl⟩
  refine ⟨hclean, ahead_advance htok hlast hproper hclean, hwords, hh ▸ hi, hh ▸ .refl heap, ?_, ?_, he, ?_, ?_⟩
  · rw [hb]
  · rw [hb]
  · rw [hb]
    rfl
  · rw [hb]
    exact .nil

theorem CompileState.finish_accepts {s : CompileState} :
    (∃ script, s.finish.result = .ok script) ↔ s.findings = [] := by
  constructor
  · rintro ⟨script, h⟩
    exact (finish_eq_ok h).1
  · intro h
    unfold finish
    rw [if_pos (List.isEmpty_iff.mpr h)]
    exact ⟨_, rfl⟩

/-- A reading of a source decides whether the source is accepted. -/
theorem compile_of_reading {source : String} {heap : Heap} {printCode : Bool} {journal : Journal} {c : Compilation}
    {p : Block} (h : compile source heap printCode journal = .ok c) (hi : heap.Interned)
    (hp : p.ReadsAll (tokenize source)) : (∃ script, c.result = .ok script) ↔ p.Legal true [] [] {} := by
  obtain ⟨s, hrun, rfl⟩ := compile_eq_ok h
  obtain ⟨us, last, htok, hlast, hproper⟩ := tokenize_spec source
  obtain ⟨ts, last', htok', -, hreads⟩ := hp
  obtain ⟨rfl, -⟩ := List.append_inj' (htok.symm.trans htok') rfl
  obtain ⟨_, s₁, h₁, h₂⟩ := Compiler.run_bind_eq_ok.mp hrun
  cases h₁
  rw [CompileState.finish_accepts]
  have hat : (CompileState.advance { rest := tokenize source, heap, printCode, journal }).At
      ⟨.start, 0, [], heap, {}, us⟩ := at_start htok hlast hproper hreads.words hi
  have hprogram := hreads.leads.answers_program (x := ⟨.start, 0, [], heap, {}, us⟩) Scope.splits_start rfl
    (compileBudget (tokenize source).length)
  have hall := hprogram.bind_last fun _ => Compiler.answers_emitReturn
  obtain ⟨hgo, hback⟩ := hall _ _ s hat h₂
  exact ⟨hback, fun hl => (hgo hl).clean.1⟩

theorem CompileState.finish_refuses {s : CompileState} {e : CompileError} (h : s.finish.result = .error e) :
    e.diagnostics ≠ [] := by
  unfold finish at h
  split at h
  · cases h
  · next hne =>
      cases h
      have hfound : s.findings ≠ [] := by simpa using hne
      simpa [CompileState.record] using hfound

/-- **The compiler accepts exactly its language.** A source is accepted if all its tokens are words and it reads as
a program that keeps the static rules, whichever reading is taken, and otherwise it is refused with at least one
finding. -/
theorem compile_accepts_iff {heap : Heap} (hr : heap.Reached) (source : String) (printCode : Bool) (journal : Journal) :
    ∃ c, compile source heap printCode journal = .ok c ∧
      ((∃ script, c.result = .ok script) ↔
        Words (tokenize source) ∧ ∃ p, Block.ReadsAll (tokenize source) p ∧ p.Legal true [] [] {}) ∧
      (∀ p, Block.ReadsAll (tokenize source) p → ((∃ script, c.result = .ok script) ↔ p.Legal true [] [] {})) ∧
      ((∃ script, c.result = .ok script) ∨ ∃ e, c.result = .error e ∧ e.diagnostics ≠ []) := by
  obtain ⟨c, hc⟩ := compile_ends source heap printCode journal
  refine ⟨c, hc, ⟨?_, ?_⟩, fun p => compile_of_reading hc hr.interned, ?_⟩
  · rintro ⟨script, hok⟩
    obtain ⟨p, hreads, -⟩ := compile_accepted hc hok hr.interned
    exact ⟨hreads.words, p, hreads, (compile_of_reading hc hr.interned hreads).mp ⟨script, hok⟩⟩
  · rintro ⟨-, p, hreads, hlegal⟩
    exact (compile_of_reading hc hr.interned hreads).mpr hlegal
  · obtain ⟨s, -, rfl⟩ := compile_eq_ok hc
    cases hres : s.finish.result with
    | ok script => exact .inl ⟨script, rfl⟩
    | error e => exact .inr ⟨e, rfl, CompileState.finish_refuses hres⟩

/-- A loop is accepted, so it reads as a program that keeps the rules. -/
theorem reads_legal_loop : Heap.empty.Reached ∧ ∃ p,
    Block.ReadsAll (tokenize "for (var i = 0; i < 2; i = i + 1) \x7b var j = i; print j; \x7d") p ∧
      p.Legal true [] [] {} := by
  have hempty : Heap.empty.Reached := .new _
  obtain ⟨c, hc, hiff, -⟩ := compile_accepts_iff hempty
    "for (var i = 0; i < 2; i = i + 1) \x7b var j = i; print j; \x7d" false .silent
  have hok : (match compile "for (var i = 0; i < 2; i = i + 1) \x7b var j = i; print j; \x7d" .empty false .silent with
      | .ok c => c.result.isOk
      | .error _ => false) = true := by decide +kernel
  rw [hc] at hok
  cases hres : c.result with
  | ok script => exact ⟨hempty, (hiff.mp ⟨script, hres⟩).2⟩
  | error e =>
      simp only [hres] at hok
      cases hok

end Lox
