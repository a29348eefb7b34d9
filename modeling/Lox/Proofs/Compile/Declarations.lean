import Lox.Proofs.Compile.Points

/-! Variables and functions along a reading that is known. The variables that the compiler keeps are those of the
innermost scope and those around it, and it finds a name among them as the static rules say. A new function starts
with no variables and no code, and the one around it waits until it is complete. -/

namespace Lox

theorem slotOf_eq_none_iff {name : String} {names : List String} : slotOf name names = none ↔ name ∉ names := by
  induction names with
  | nil => simp [slotOf]
  | cons latest earlier ih =>
      rw [slotOf]
      split
      · next h => simp [h]
      · next h => rw [ih, List.mem_cons, not_or, and_iff_right (Ne.symm h)]

namespace Scope

/-- What is found under a name: nothing while the variable is being initialized, and else what the list of names
says. -/
def Shows (scope : Scope) (names : List String) (pending : Option String) : Prop :=
  ∀ name, name ≠ "" →
    scope.resolve name = if pending = some name then .error .readInOwnInitializer else .ok (slotOf name names)

/-- A variable is declared and not yet initialized; at the top level the function does not keep it. -/
def begun (top : Bool) (name : String) (scope : Scope) : Scope :=
  if top then scope else { scope with locals := ⟨name, scope.depth, false⟩ :: scope.locals }

/-- Some initialized variables more, the latest first. -/
def adds (names : List String) (scope : Scope) : Scope :=
  { scope with locals := names.map (⟨·, scope.depth, true⟩) ++ scope.locals }

@[simp] theorem adds_nil (scope : Scope) : scope.adds [] = scope := rfl

theorem adds_append (names more : List String) (scope : Scope) :
    scope.adds (more ++ names) = (scope.adds names).adds more := by
  simp [adds]

theorem extends_adds {names : List String} {scope : Scope} (h : scope.depth = 0 → names = []) :
    scope.Extends (scope.adds names) names := by
  refine ⟨rfl, ⟨_, rfl, by simp [Function.comp_def], fun l hl => ?_⟩, h⟩
  obtain ⟨name, -, rfl⟩ := List.mem_map.mp hl
  rfl

/-- The variables are those of the innermost scope and those around it. -/
structure Splits (scope : Scope) (top : Bool) (inner outer : List String) : Prop where
  names : scope.Names (inner ++ outer)
  global : top = true ↔ scope.depth = 0
  own : top = false → (scope.locals.takeWhile fun l => scope.depth ≤ l.depth).map (·.name) = inner

theorem splits_start : start.Splits true [] [] := ⟨names_start, by simp [start], nofun⟩

namespace Splits

variable {scope : Scope} {top : Bool} {inner outer : List String}

theorem isLocal (h : scope.Splits top inner outer) : scope.isLocal = !top := by
  have htop := h.global
  unfold Scope.isLocal
  cases top with
  | true => simp [htop.mp rfl]
  | false =>
      have : scope.depth ≠ 0 := fun h0 => Bool.noConfusion (htop.mpr h0)
      simp
      omega

theorem shows_names (h : scope.Splits top inner outer) : scope.Shows (inner ++ outer) none := by
  intro name hne
  rw [if_neg nofun]
  exact resolveIn_eq hne h.names.names h.names.ready

theorem shows_begun (h : scope.Splits top inner outer) (name : String) :
    (scope.begun top name).Shows (inner ++ outer) (if top then none else some name) := by
  cases top with
  | true => exact h.shows_names
  | false =>
      intro other hne
      show resolveIn other (_ :: _) = _
      rw [resolveIn]
      by_cases heq : name = other
      · simp [heq]
      · rw [if_neg heq, if_neg (by simpa using heq)]
        exact resolveIn_eq hne h.names.names h.names.ready

theorem enter (h : scope.Splits top inner outer) : scope.enter.Splits false [] (inner ++ outer) := by
  refine ⟨h.names.enter, by simp [Scope.enter], fun _ => ?_⟩
  rw [List.map_eq_nil_iff]
  cases hl : scope.locals with
  | nil => simp [Scope.enter, hl]
  | cons l rest =>
      have hd := h.names.depth l (by rw [hl]; exact List.mem_cons_self ..)
      simp only [Scope.enter, hl]
      rw [List.takeWhile_cons_of_neg]
      simp
      omega

/-- Whether a variable can be declared in the innermost scope. -/
theorem declare_eq (h : scope.Splits false inner outer) (name : String) :
    scope.declare name = .ok (scope.begun false name) ∧ name ∉ inner ∧ (inner ++ outer).length < 255 ∨
      (∃ cause, scope.declare name = .error cause) ∧ ¬ (name ∉ inner ∧ (inner ++ outer).length < 255) := by
  have hlen := h.names.length_eq
  have hdeclares : scope.declares name = true ↔ name ∈ inner := by
    rw [declares, List.any_eq_true, ← h.own rfl]
    simp
  unfold declare
  split
  · next hmany =>
      unfold maxLocals at hmany
      exact .inr ⟨⟨_, rfl⟩, fun hno => by omega⟩
  · next hroom =>
      unfold maxLocals at hroom
      split
      · next hdec => exact .inr ⟨⟨_, rfl⟩, fun hno => hno.1 (hdeclares.mp hdec)⟩
      · next hdec => exact .inl ⟨rfl, fun hmem => hdec (hdeclares.mpr hmem), by omega⟩

/-- A declared variable joins the innermost scope once it is initialized. -/
theorem marked_begun (h : scope.Splits top inner outer) (name : String) :
    (scope.begun top name).markInitialized = scope.adds (if top then [] else [name]) := by
  cases top with
  | true => exact Compiler.markInitialized_top (h.global.mp rfl)
  | false =>
      exact Compiler.markInitialized_declared
        (Nat.pos_of_ne_zero fun h0 => Bool.noConfusion (h.global.mpr h0)) name

theorem adds (h : scope.Splits top inner outer) (name : String) (hroom : top = false → (inner ++ outer).length < 255) :
    (scope.adds (if top then [] else [name])).Splits top ((if top then [] else [name]) ++ inner) outer := by
  cases top with
  | true => exact h
  | false =>
      have hlen := h.names.length_eq
      have hroom := hroom rfl
      refine ⟨h.names.declared (by unfold maxLocals; omega) name, h.global, fun _ => ?_⟩
      show (List.takeWhile _ (_ :: scope.locals)).map _ = [name] ++ inner
      rw [List.takeWhile_cons_of_pos (by simp [Scope.adds]), List.map_cons]
      exact congrArg (name :: ·) (h.own rfl)

/-- A legal declaration joins the innermost scope. -/
theorem adds_declares (h : scope.Splits top inner outer) {st : Stmt} {d : Draft} (hst : st.Legal top inner outer d) :
    (scope.adds (st.declares top)).Splits top (st.declares top ++ inner) outer := by
  have hroom : ∀ name, d.Declarable top inner outer name → top = false → (inner ++ outer).length < 255 := by
    rintro name hname rfl
    exact hname.2
  cases st with
  | var name value =>
      rw [Stmt.Legal] at hst
      exact h.adds name (hroom name hst.1)
  | function label name params body =>
      rw [Stmt.Legal] at hst
      exact h.adds name (hroom name hst.1)
  | _ => exact h

end Splits

end Scope

/-- A function that waits: it is as the point says, with its constants on a heap that may have grown since. -/
structure Waits (x : Point) (body : Body) (heap : Heap) : Prop where
  base : x.base.Extends heap
  scope : body.scope = x.scope
  arity : body.arity = x.arity
  size : body.chunk.size = x.draft.size
  pool : List.Forall₂ (StandsFor heap) body.chunk.constants.items.toList x.draft.pool

/-- The beginning of the function inside another one. -/
def Point.inside (x : Point) (body : Body) (base : Heap) : Point :=
  ⟨.start, 0, body :: x.outer, base, {}, x.ahead⟩

namespace Compiler

open CompileState

variable {α β : Type} {x : Point} {top : Bool} {inner outer : List String} {t : Token} {us : List Token}

/-! ### Variables -/

theorem answers_enterScope : Answers enterScope (At x) True fun _ => At { x with scope := x.scope.enter } :=
  .modify fun _ hs => hs.scope ▸ hs.rescope _

theorem answers_markInitialized :
    Answers markInitialized (At x) True fun _ => At { x with scope := x.scope.markInitialized } :=
  .modify fun _ hs => hs.scope ▸ hs.rescope _

/-- The variables of a scope that ends are dropped. -/
theorem answers_leaveScope {scope : Scope} (hd : ∀ l ∈ scope.locals, l.depth ≤ scope.depth)
    (hx : scope.enter.Extends x.scope inner) :
    Answers leaveScope (At x) True fun _ => At ({ x with scope }.write inner.length) := by
  refine .get fun s hs => ?_
  rw [hs.scope, hx.leave? hd]
  exact .bind_sure (.modify fun _ hs' => hs'.rescope scope) fun _ => answers_emitRepeated _ _

/-- A variable that is read or assigned is found, unless it is being initialized. -/
theorem answers_accessOf {names : List String} {pending : Option String} {name : String}
    (hx : x.scope.Shows names pending) (hne : name ≠ "") :
    Answers (accessOf name) (At x) (x.draft.Usable names pending name)
      fun r s => (∃ access, r = some access) ∧ s.At { x with draft := x.draft.access names name } := by
  refine .get fun s hs => ?_
  rw [hs.scope, hx name hne]
  unfold Draft.Usable Draft.access
  by_cases hpending : pending = some name
  · simp only [if_pos hpending]
    exact answers_complain_pure (fun h => h.1 hpending) fun _ hs' => hs'.sane
  · simp only [if_neg hpending]
    cases hslot : slotOf name names with
    | some slot =>
        have hmem : name ∈ names := by
          by_contra hno
          rw [slotOf_eq_none_iff.mpr hno] at hslot
          cases hslot
        simp only [if_pos hmem]
        exact Answers.of_legal (.pure fun _ hs' => ⟨⟨_, rfl⟩, hs'⟩) ⟨hpending, .inl hmem⟩
    | none =>
        have hno := slotOf_eq_none_iff.mp hslot
        simp only [if_neg hno]
        exact ((answers_nameConstant name).bind_last fun _ => .pure fun _ hs' => ⟨⟨_, rfl⟩, hs'⟩).congr
          (by simp [hpending, hno])

theorem answers_declareVariable (hx : x.scope.Splits top inner outer) (t : Token) :
    Answers declareVariable (fun s => s.previous = t ∧ s.At x)
      (top = false → t.lexeme ∉ inner ∧ (inner ++ outer).length < 255)
      fun _ s => s.previous = t ∧ s.At { x with scope := x.scope.begun top t.lexeme } := by
  refine .get fun s hs => ?_
  rw [hs.2.scope, hx.isLocal, hs.1]
  cases top with
  | true => exact Answers.of_legal (.pure fun _ hs' => hs') nofun
  | false =>
      rw [if_pos (by rfl)]
      rcases hx.declare_eq t.lexeme with ⟨heq, hfresh, hroom⟩ | ⟨⟨cause, heq⟩, hno⟩
      · rw [heq]
        exact Answers.of_legal (.modify fun _ hs' => ⟨hs'.1, hs'.2.rescope _⟩) fun _ => ⟨hfresh, hroom⟩
      · rw [heq]
        exact answers_complain (fun h => hno (h rfl)) fun _ hs' => hs'.2.sane

/-- A new name is taken and declared. -/
theorem answers_declareName {what : Expectation} (hx : x.scope.Splits top inner outer) (ha : x.ahead = t :: us)
    (ht : t.kind = .identifier) :
    Answers (declareName what) (At x) (x.draft.Declarable top inner outer t.lexeme) fun _ =>
      At { x with ahead := us, scope := x.scope.begun top t.lexeme, draft := x.draft.declare top t.lexeme } := by
  refine (answers_expect_token ha ht).bind_sure fun _ => ?_
  have hdeclare : Answers declareVariable (fun s => s.previous = t ∧ t.Proper ∧ s.At { x with ahead := us })
      (top = false → t.lexeme ∉ inner ∧ (inner ++ outer).length < 255) fun _ s =>
        s.previous = t ∧ s.At { x with ahead := us, scope := x.scope.begun top t.lexeme } :=
    (answers_declareVariable (x := { x with ahead := us }) hx t).of_imp fun s hs => ⟨hs.1, hs.2.2⟩
  unfold Draft.Declarable Draft.declare
  have hlocal : ∀ s : CompileState, s.At { x with ahead := us, scope := x.scope.begun top t.lexeme } →
      s.body.scope.isLocal = !top := by
    intro s hs
    rw [hs.scope, ← hx.isLocal]
    cases top <;> rfl
  cases top with
  | true =>
      refine (hdeclare.congr ⟨fun _ => trivial, fun _ => nofun⟩).bind_sure fun _ => .get fun s hs => ?_
      rw [hlocal s hs.2, if_neg nofun]
      refine .bind_known (q := At { x with ahead := us }) (a := t.lexeme) ?_ (answers_nameConstant _)
      exact .get fun s' hs' => .pure fun s'' hs'' => ⟨by rw [hs'.1], hs''.2⟩
  | false =>
      refine (hdeclare.bind_last fun _ => .get fun s hs => ?_).congr ⟨fun h => h rfl, fun h _ => h⟩
      rw [hlocal s hs.2, if_pos (by rfl)]
      exact .pure fun _ hs' => hs'.2

/-- A declared variable has its value. -/
theorem answers_defineVariable (i : Nat) (hx : top = true ↔ x.scope.depth = 0) :
    Answers (defineVariable i) (At x) True fun _ =>
      At { x with scope := x.scope.markInitialized, draft := x.draft.define top } := by
  refine .get fun s hs => ?_
  rw [hs.scope]
  cases top with
  | true =>
      have h0 := hx.mp rfl
      rw [Scope.isLocal, h0, if_neg (by simp), markInitialized_top h0]
      exact answers_emitByte _ _
  | false =>
      have hpos : 0 < x.scope.depth := Nat.pos_of_ne_zero fun h0 => Bool.noConfusion (hx.mpr h0)
      rw [Scope.isLocal, if_pos (by simpa using hpos)]
      exact answers_markInitialized

/-! ### Functions -/

theorem Answers.of_exists {γ : Type} {y : Compiler α} {p : γ → CompileState → Prop} {legal : Prop}
    {q : α → CompileState → Prop} (h : ∀ c, Answers y (p c) legal q) : Answers y (fun s => ∃ c, p c s) legal q := by
  rintro s a s' ⟨c, hc⟩ hrun
  exact h c s a s' hc hrun

theorem answers_beginFunction (name : Handle) :
    Answers (beginFunction name) (At x) True fun _ s =>
      ∃ c : Body × Heap, Waits x c.1 c.2 ∧ s.At (x.inside c.1 c.2) := by
  refine .modify fun s hs => ⟨(s.body, s.heap), ⟨hs.base, hs.scope, hs.arity, hs.size, hs.pool⟩, ?_⟩
  exact ⟨hs.clean, hs.ahead.congr rfl rfl, hs.words, hs.heap, .refl _, rfl, rfl, congrArg (s.body :: ·) hs.outer, rfl,
    .nil⟩

theorem answers_endFunction {y : Point} {body : Body} (hw : Waits x body y.base) (hy : y.outer = body :: x.outer) :
    Answers endFunction (At y) True fun handle s =>
      StandsFor s.heap (.object handle) none ∧ s.At { x with ahead := y.ahead } := by
  refine answers_emitReturn.bind_sure fun _ => .modifyGet fun s hs => ?_
  obtain ⟨body', enclosing, journal, heq, houter⟩ := s.closeFunction_eq
  obtain ⟨rfl, rfl⟩ := houter body x.outer (hs.outer.trans hy)
  rw [heq]
  have hgrows := s.heap.grows_allocate (o := .function
    { arity := s.body.arity, chunk := s.body.chunk, name := s.body.name }) fun _ => nofun
  have hext : y.base.Extends _ := hs.base.trans hgrows.keeps
  refine ⟨.function (f := { arity := s.body.arity, chunk := s.body.chunk, name := s.body.name }) ?_, ?_⟩
  · rw [Heap.function?_eq_some_iff, Heap.get?_allocate, if_pos rfl]
  · exact ⟨hs.clean, hs.ahead.congr rfl rfl, hs.words, hgrows.interned hs.heap, hw.base.trans hext, hw.scope, hw.arity,
      rfl, hw.size, hw.pool.imp fun _ _ hv => hv.mono hext⟩

theorem answers_countParameter :
    Answers countParameter (At x) (x.arity ≠ 255) fun _ => At { x with arity := x.arity + 1 } := by
  refine .get fun s hs => ?_
  rw [hs.arity]
  by_cases hmany : x.arity = 255
  · rw [if_pos hmany]
    refine .of_findings (fun h => h hmany) fun s' a s'' hs' hrun => ?_
    cases hrun
    unfold CompileState.complainHere complainAt
    rw [hs'.clean.2, if_neg nofun]
    exact List.cons_ne_nil _ _
  · rw [if_neg hmany]
    refine Answers.of_legal (.modify fun s' hs' => ?_) hmany
    exact ⟨hs'.clean, hs'.ahead.congr rfl rfl, hs'.words, hs'.heap, hs'.base, hs'.scope, congrArg (· + 1) hs'.arity,
      hs'.outer, hs'.size, hs'.pool⟩

end Compiler

end Lox
