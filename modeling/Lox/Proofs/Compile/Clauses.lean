import Lox.Proofs.Compile.Operators

/-! The parts of statements along a reading that is known: values, declarations of variables, parameters, and the
clauses of a loop. A declaration puts its variable into the innermost scope, a jump is judged where it lands, and
the rest leaves the variables as they are. -/

namespace Lox

open CompileState

/-- No statement starts with one of these words, nor does any follow the last statement of a sequence. -/
theorem Stmt.Reads.starts {o : Bool} {ts : List Token} {st : Stmt} (h : Stmt.Reads o ts st) (us : List Token) :
    nextKind (ts ++ us) ∉ [.eof, .rightBrace, .elseWord, .funWord, .varWord, .classWord] := by
  cases h with
  | @expression t ts e h ht =>
      intro hmem
      rw [List.append_assoc, List.singleton_append] at hmem
      refine h.leads.nextKind_ne ?_ (t :: us) rfl
      revert hmem
      generalize nextKind (ts ++ t :: us) = k
      revert k
      decide
  | print ht | leave ht | ret ht | block ht | ifAlone ht | ifElse ht | «while» ht | «for» ht =>
      simp [nextKind, ht]

theorem VarReads.starts {ts : List Token} {st : Stmt} (h : VarReads ts st) :
    ∃ t ts', ts = t :: ts' ∧ t.kind = .varWord := by
  cases h with
  | bare ht | value ht => exact ⟨_, _, rfl, ht⟩

namespace Compiler

variable {x : Point} {t u : Token} {ts us : List Token} {top : Bool} {inner outer names : List String} {e : Expr}

/-- A value, a semicolon, and the instruction that takes the value. -/
theorem answers_value {what : Expectation} {op : Opcode} (h : Expr.Reads .assignment ts e) (hu : u.kind = .semicolon)
    (hs : x.scope.Shows names none) (hx : x.ahead = ts ++ u :: us) (b : Nat) :
    Answers (do expression b; expect .semicolon what; emit op) (At x) (e.Legal names none x.draft) fun _ =>
      At (x.after ((e.draft names x.draft).write 1) us) :=
  (h.leads.answers_expression (by rw [nextKind, hu]; decide) hs hx b).bind_last fun _ =>
    (answers_expect rfl hu).bind_sure fun _ => answers_emit _

/-! ### Variables and parameters -/

/-- What follows `var`. -/
theorem answers_varDeclaration {st : Stmt} (h : VarReads (t :: ts) st) (hs : x.scope.Splits top inner outer)
    (hx : x.ahead = ts ++ us) (b : Nat) :
    Answers (varDeclaration b) (At x) (st.Legal top inner outer x.draft) fun _ =>
      At ({ x with scope := x.scope.adds (st.declares top) }.after (st.draft top (inner ++ outer) x.draft) us) := by
  have hend : ∀ (name : String) (w : Token) (d : Draft) (i : Nat), w.kind = .semicolon →
      Answers (do expect .semicolon .semicolonAfterVariable; defineVariable i)
        (At ({ x with scope := x.scope.begun top name }.after d (w :: us))) True fun _ =>
          At ({ x with scope := x.scope.adds (if top then [] else [name]) }.after (d.define top) us) := by
    intro name w d i hw
    have hdepth : top = true ↔ (x.scope.begun top name).depth = 0 := by
      rw [hs.global]
      cases top <;> rfl
    rw [← hs.marked_begun name]
    exact (answers_expect rfl hw).bind_sure fun _ => answers_defineVariable i hdepth
  cases h with
  | @bare _ u v _ hu hv =>
      rw [Stmt.Legal, Stmt.draft, Stmt.declares, Expr.Legal, Expr.draft]
      refine (answers_declareName hs hx hu).bind fun i => ?_
      refine answers_accept_of_ne (by rw [next_of_cons rfl, hv]; decide) ?_
      exact (answers_emit _).bind_sure fun _ => hend _ v _ i hv
  | @value _ u v w ts e _ hu hv h hw =>
      rw [Stmt.Legal, Stmt.draft, Stmt.declares]
      refine (answers_declareName hs hx hu).bind fun i => ?_
      have hclose : Closes (nextKind (w :: us)) := by rw [nextKind, hw]; decide
      refine answers_accept_of_cons rfl hv ?_
      refine (h.leads.answers_expression hclose (hs.shows_begun u.lexeme) ?_ b).bind_last fun _ => hend _ w _ i hw
      simp

/-- A parameter, and what follows it. -/
theorem answers_parameter {f : Compiler Unit} [ByMoves f] {legal : Prop} {q : Unit → CompileState → Prop}
    (hs : x.scope.Splits false inner []) (harity : x.arity = inner.length) (hnodup : inner.Nodup)
    (hx : x.ahead = t :: us) (ht : t.kind = .identifier)
    (hf : (x.scope.adds [t.lexeme]).Splits false (t.lexeme :: inner) [] → (t.lexeme :: inner).Nodup →
      Answers f (At { x with scope := x.scope.adds [t.lexeme], arity := x.arity + 1, ahead := us }) legal q) :
    Answers (do countParameter; let i ← declareName .parameterName; defineVariable i; f) (At x)
      ((t.lexeme ∉ inner ∧ inner.length < 255) ∧ legal) q := by
  have hdefine : ∀ i, Answers (defineVariable i)
      (At { x with scope := x.scope.begun false t.lexeme, arity := x.arity + 1, ahead := us }) True fun _ =>
        At { x with scope := x.scope.adds [t.lexeme], arity := x.arity + 1, ahead := us } := by
    intro i
    have hmark := hs.marked_begun t.lexeme
    rw [if_neg nofun] at hmark
    rw [← hmark]
    exact answers_defineVariable
      (x := { x with scope := x.scope.begun false t.lexeme, arity := x.arity + 1, ahead := us }) i hs.global
  refine (answers_countParameter.bind fun _ => (answers_declareName (x := { x with arity := x.arity + 1 }) hs hx
    ht).bind_of_legal fun hname i => (hdefine i).bind_sure fun _ =>
    hf (hs.adds t.lexeme fun _ => hname.2) (List.nodup_cons.mpr ⟨hname.1, hnodup⟩)).congr ?_
  rw [harity, Draft.Declarable, if_neg nofun, List.append_nil]
  exact ⟨fun h => ⟨h.2.1, h.2.2⟩, fun h => ⟨by omega, h⟩⟩

/-- Parameters are declared one after the other, as many as one byte can count. -/
theorem answers_parameters {params : List String} (h : ParamsRead ts params) (hne : params ≠ [])
    (hs : x.scope.Splits false inner []) (harity : x.arity = inner.length) (hnodup : inner.Nodup)
    (hus : nextKind us = .rightParen) (hx : x.ahead = ts ++ us) (b : Nat) :
    Answers (parameters b) (At x) ((params.reverse ++ inner).Nodup ∧ inner.length + params.length ≤ 255) fun _ =>
      At { x with scope := x.scope.adds params.reverse, arity := x.arity + params.length, ahead := us } := by
  induction h generalizing x inner b with
  | nil => exact absurd rfl hne
  | @last t ht =>
      cases b with
      | zero => exact .giveUp
      | succ b =>
          rw [parameters]
          have hnext : nextKind ([].append us) ≠ .comma := by
            rw [List.append_eq, List.nil_append, hus]
            decide
          refine (answers_parameter hs harity hnodup hx ht fun _ _ =>
            answers_accept_of_ne hnext (.pure fun _ hs => hs)).congr ?_
          simp [hnodup]
  | @cons t u ts name names ht hu hr ih =>
      cases b with
      | zero => exact .giveUp
      | succ b =>
          have hrev : (t.lexeme :: name :: names).reverse = (name :: names).reverse ++ [t.lexeme] := List.reverse_cons
          have harity' : x.arity + (t.lexeme :: name :: names).length = x.arity + 1 + (name :: names).length := by
            simp only [List.length_cons]
            omega
          have hmore (hs' : (x.scope.adds [t.lexeme]).Splits false (t.lexeme :: inner) [])
              (hnodup' : (t.lexeme :: inner).Nodup) :=
            ih (x := { x with scope := x.scope.adds [t.lexeme], arity := x.arity + 1, ahead := ts ++ us })
              (List.cons_ne_nil _ _) hs' (by simp [harity]) hnodup' rfl b
          rw [parameters, hrev, Scope.adds_append, harity']
          refine (answers_parameter hs harity hnodup hx ht fun hs' hnodup' =>
            answers_accept_of_cons rfl hu (hmore hs' hnodup')).congr ?_
          rw [List.append_assoc, List.singleton_append]
          constructor
          · rintro ⟨-, hall, hlen⟩
            refine ⟨hall, ?_⟩
            simp only [List.length_cons] at hlen ⊢
            omega
          · rintro ⟨hall, hlen⟩
            simp only [List.length_cons] at hlen
            refine ⟨⟨(List.nodup_cons.mp hall.of_append_right).1, by omega⟩, hall, ?_⟩
            simp only [List.length_cons]
            omega

/-! ### The clauses of a loop -/

variable {c i : Option Expr}

theorem answers_forCondition (h : ClauseReads ts c) (hu : u.kind = .semicolon) (hs : x.scope.Shows names none)
    (hx : x.ahead = ts ++ u :: us) (b : Nat) :
    Answers (forCondition b) (At x) (∀ e ∈ c, e.Legal names none x.draft) fun exit s =>
      exit = c.map (fun e => (e.draft names x.draft).size + 1) ∧ s.At (x.after (testDraft names c x.draft) us) := by
  cases h with
  | none =>
      refine Answers.of_legal (answers_accept_of_cons hx hu (.pure fun _ hs => ⟨rfl, hs⟩)) nofun
  | @some _ e h =>
      refine answers_accept_of_ne (by rw [Point.next, hx]; exact h.leads.nextKind_ne rfl _) ?_
      refine ((h.leads.answers_expression (by rw [nextKind, hu]; decide) hs hx b).bind_last fun _ =>
        (answers_expect rfl hu).bind_sure fun _ => (answers_emitJump _).bind_known
          ((answers_emit _).bind_sure fun _ => .pure fun _ hs => ⟨rfl, hs⟩)).congr ?_
      simp

theorem answers_forIncrement {start : Nat} (h : ClauseReads ts i) (hu : u.kind = .rightParen)
    (hs : x.scope.Shows names none) (hstart : start ≤ x.draft.size) (hx : x.ahead = ts ++ u :: us) (b : Nat) :
    Answers (forIncrement start b) (At x) (IncrementLegal names start i x.draft) fun back s =>
      back = backOf start i x.draft ∧ s.At (x.after (incrementDraft names i x.draft) us) := by
  cases h with
  | none => exact Answers.of_legal (answers_accept_of_cons hx hu (.pure fun _ hs => ⟨rfl, hs⟩)) trivial
  | @some _ e h =>
      have hsize := e.size_le_draft names (x.draft.write 3)
      simp only [Draft.write] at hsize
      have hend : Answers (do emitLoop start; patchJump (x.draft.size + 1); return x.draft.size + 3)
          (At (x.after ((e.draft names (x.draft.write 3)).write 1) us))
          (Near start (incrementDraft names (some e) x.draft).size ∧
            Near (x.draft.size + 3) (incrementDraft names (some e) x.draft).size) fun back s =>
          back = x.draft.size + 3 ∧ s.At (x.after (incrementDraft names (some e) x.draft) us) := by
        refine (answers_emitLoop ?_).bind fun _ => (answers_patchJump ?_).bind_last fun _ =>
          .pure fun _ hs => ⟨rfl, hs⟩
        · simp only [Point.after, Draft.write]
          omega
        · simp only [Point.after, Point.write, Draft.write]
          omega
      refine answers_accept_of_ne (by rw [Point.next, hx]; exact h.leads.nextKind_ne rfl _) ?_
      refine (answers_emitJump _).bind_known (answers_offset.bind_known ?_)
      exact (h.leads.answers_expression (x := x.write 3) (by rw [nextKind, hu]; decide) hs hx b).bind fun _ =>
        (answers_emit _).bind_sure fun _ => (answers_expect rfl hu).bind_sure fun _ => hend

/-- A loop that has a condition is left by a jump, which lands where the code is now. -/
theorem answers_forExit {d : Draft} (hd : (testDraft names c d).size ≤ x.draft.size) :
    Answers (forExit (c.map fun e => (e.draft names d).size + 1)) (At x)
      (∀ e ∈ c, Near ((e.draft names d).size + 3) x.draft.size) fun _ =>
        At { x with draft := exitDraft c x.draft } := by
  cases c with
  | none => exact Answers.of_legal (.pure fun _ hs => hs) nofun
  | some e =>
      simp only [testDraft, Draft.write] at hd
      refine ((answers_patchJump (by omega)).bind_last fun _ => answers_emit _).congr ?_
      simp

theorem testLegal_iff {exit : Nat} {d : Draft} :
    TestLegal names exit c d ↔ (∀ e ∈ c, e.Legal names none d) ∧ ∀ e ∈ c, Near ((e.draft names d).size + 3) exit := by
  cases c <;> simp [TestLegal]

/-- The end of a loop jumps back, and the exit lands behind it. -/
theorem answers_loopEnd {start : Nat} {d : Draft} {f : Compiler Unit} [ByMoves f] {r : Unit → CompileState → Prop}
    (hstart : start ≤ x.draft.size) (hd : (testDraft names c d).size ≤ x.draft.size)
    (hf : Answers f (At { x with draft := exitDraft c (x.draft.write 3) }) True r) :
    Answers (do emitLoop start; forExit (c.map fun e => (e.draft names d).size + 1); f) (At x)
      (Near start (x.draft.write 3).size ∧ ∀ e ∈ c, Near ((e.draft names d).size + 3) (x.draft.write 3).size) r :=
  (answers_emitLoop hstart).bind fun _ =>
    (answers_forExit (x := x.write 3) (Nat.le_add_right_of_le hd)).bind_last fun _ => hf

/-- The first clause of a loop, and what follows it in its scope. -/
theorem answers_forInitializer {rest body : Block} {f : Compiler Unit} [ByMoves f] {q : Unit → CompileState → Prop}
    (h : InitializerReads ts rest body) (hs : x.scope.Splits false inner outer) (hx : x.ahead = ts ++ us) (b : Nat)
    (hf : ∀ names d, body.declares false = rest.declares false ++ names →
      body.draft false (inner ++ outer) x.draft = rest.draft false (names ++ (inner ++ outer)) d →
      (x.scope.adds names).Splits false (names ++ inner) outer →
      Answers f (At ({ x with scope := x.scope.adds names }.after d us))
        (rest.Legal false (names ++ inner) outer d) q) :
    Answers (do forInitializer b; f) (At x) (body.Legal false inner outer x.draft) q := by
  cases h with
  | none ht =>
      unfold forInitializer
      refine .bind_sure (q := fun _ => At { x with ahead := us }) ?_ fun _ => ?_
      · refine answers_accept_of_ne (by rw [next_of_cons hx, ht]; decide) ?_
        exact (answers_accept_yes hx ht).bind_known (.pure fun _ hs => hs)
      · exact hf [] x.draft (by simp) (by simp) hs
  | @var _ st rest h =>
      obtain ⟨t, ts, rfl, ht⟩ := h.starts
      have hfirst : Answers (forInitializer b) (At x) (st.Legal false inner outer x.draft) fun _ =>
          At ({ x with scope := x.scope.adds (st.declares false) }.after
            (st.draft false (inner ++ outer) x.draft) us) :=
        answers_accept_of_cons hx ht (answers_varDeclaration (x := { x with ahead := ts ++ us }) h hs rfl b)
      rw [Block.Legal]
      exact hfirst.bind_of_legal fun hst _ =>
        hf (st.declares false) _ (by rw [Block.declares]) (by rw [Block.draft]) (hs.adds_declares hst)
  | @expression t ts e rest h ht =>
      have hne : ∀ k, opening? k = none → x.next ≠ k := fun k hk => by
        rw [Point.next, hx]
        simpa using h.leads.nextKind_ne hk (t :: us)
      have hfirst : Answers (forInitializer b) (At x) (e.Legal (inner ++ outer) none x.draft) fun _ =>
          At (x.after ((e.draft (inner ++ outer) x.draft).write 1) us) :=
        answers_accept_of_ne (hne _ rfl) ((answers_accept_no (hne _ rfl)).bind_known
          (answers_value h ht hs.shows_names (by simp [hx]) b))
      have hrest := hf [] ((e.draft (inner ++ outer) x.draft).write 1) (by simp [Block.declares, Stmt.declares])
        (by rw [Block.draft, Stmt.draft]; rfl) hs
      rw [Block.Legal, Stmt.Legal, Stmt.draft]
      exact hfirst.bind fun _ => hrest

end Compiler

end Lox
