import Lox.Proofs.Compile.Steps

/-! The compiler's variables. Between two statements the variables it keeps are the names in scope, the
latest first, with the callee at the bottom; the slot it resolves a name to is the place of the name in
that list. -/

namespace Lox

namespace Scope

/-- The variables are the given names above the callee, and all of them may be read. -/
structure Names (scope : Scope) (names : List String) : Prop where
  names : scope.locals.map (·.name) = names ++ [""]
  ready : ∀ l ∈ scope.locals, l.initialized = true
  depth : ∀ l ∈ scope.locals, l.depth ≤ scope.depth
  length : scope.locals.length ≤ maxLocals

/-- A name that can be read denotes the variable that the list of names says, if any. -/
def Resolves (scope : Scope) (names : List String) : Prop :=
  ∀ name r, name ≠ "" → scope.resolve name = .ok r →
    r = slotOf name names ∧ ∀ slot, r = some slot → slot < 256

theorem resolveIn_eq {name : String} (hne : name ≠ "") {locals : List Local} {names : List String}
    (hn : locals.map (·.name) = names ++ [""]) (hr : ∀ l ∈ locals, l.initialized = true) :
    resolveIn name locals = .ok (slotOf name names) := by
  induction locals generalizing names with
  | nil => simp at hn
  | cons l earlier ih =>
      rw [resolveIn]
      cases names with
      | nil =>
          simp only [List.map_cons, List.nil_append, List.cons.injEq, List.map_eq_nil_iff] at hn
          obtain ⟨hl, rfl⟩ := hn
          rw [if_neg (by rw [hl]; exact fun h => hne h.symm)]
          rfl
      | cons x xs =>
          simp only [List.map_cons, List.cons_append, List.cons.injEq] at hn
          obtain ⟨rfl, hn⟩ := hn
          rw [slotOf]
          have hlen : earlier.length = xs.length + 1 := by
            have := congrArg List.length hn
            simpa using this
          split
          · rw [if_pos (hr l (List.mem_cons_self ..)), hlen]
          · exact ih hn fun l' hl' => hr l' (List.mem_cons_of_mem _ hl')

namespace Names

variable {scope : Scope} {names : List String}

theorem length_eq (h : scope.Names names) : scope.locals.length = names.length + 1 := by
  have := congrArg List.length h.names
  simpa using this

theorem slot_lt (h : scope.Names names) {name : String} {slot : Nat}
    (hs : slotOf name names = some slot) : slot < 256 := by
  have h₁ := h.length_eq
  have h₂ := h.length
  have h₃ := slotOf_bounds hs
  unfold maxLocals at h₂
  omega

theorem resolves (h : scope.Names names) : scope.Resolves names := by
  intro name r hne hr
  rw [resolve, resolveIn_eq hne h.names h.ready] at hr
  cases hr
  exact ⟨rfl, fun slot hs => h.slot_lt hs⟩

/-- A variable that is being initialized cannot be read, so it hides nothing that is read. -/
theorem resolves_declared (h : scope.Names names) (name : String) (depth : Nat) :
    Resolves { scope with locals := { name, depth, initialized := false } :: scope.locals } names := by
  intro other r hne hr
  rw [resolve, resolveIn] at hr
  split at hr
  · simp at hr
  · exact h.resolves other r hne hr

/-- A variable joins the names once it is initialized. -/
theorem declared (h : scope.Names names) (hlen : scope.locals.length < maxLocals) (name : String) :
    Names { scope with locals := { name, depth := scope.depth, initialized := true } :: scope.locals }
      (name :: names) := by
  refine ⟨by simp [h.names], ?_, ?_, by simpa using hlen⟩
  · intro l hl
    rcases List.mem_cons.mp hl with rfl | hl
    · rfl
    · exact h.ready l hl
  · intro l hl
    rcases List.mem_cons.mp hl with rfl | hl
    · exact Nat.le_refl _
    · exact h.depth l hl

theorem enter (h : scope.Names names) : scope.enter.Names names :=
  ⟨h.names, h.ready, fun l hl => Nat.le_succ_of_le (h.depth l hl), h.length⟩

end Names

theorem names_start : start.Names [] := by
  refine ⟨rfl, ?_, ?_, by decide⟩
  · intro l hl
    obtain rfl := List.mem_singleton.mp hl
    rfl
  · intro l hl
    obtain rfl := List.mem_singleton.mp hl
    exact Nat.le_refl _

/-- A scope with more variables of its own depth above those of another one. -/
structure Extends (scope scope' : Scope) (inner : List String) : Prop where
  depth : scope'.depth = scope.depth
  locals : ∃ new : List Local, scope'.locals = new ++ scope.locals ∧ new.map (·.name) = inner ∧
    ∀ l ∈ new, l.depth = scope.depth
  top : scope.depth = 0 → inner = []

namespace Extends

theorem refl (scope : Scope) : Extends scope scope [] := ⟨rfl, ⟨[], rfl, rfl, nofun⟩, fun _ => rfl⟩

theorem trans {s₁ s₂ s₃ : Scope} {xs ys : List String} (h : Extends s₁ s₂ xs) (h' : Extends s₂ s₃ ys) :
    Extends s₁ s₃ (ys ++ xs) := by
  obtain ⟨new, hnew, hnames, hdepth⟩ := h.locals
  obtain ⟨new', hnew', hnames', hdepth'⟩ := h'.locals
  refine ⟨h'.depth.trans h.depth, ⟨new' ++ new, ?_, ?_, ?_⟩, fun h0 => ?_⟩
  · rw [hnew', hnew, List.append_assoc]
  · rw [List.map_append, hnames, hnames']
  · intro l hl
    rcases List.mem_append.mp hl with hl | hl
    · exact (hdepth' l hl).trans h.depth
    · exact hdepth l hl
  · rw [h.top h0, h'.top (h.depth.trans h0), List.append_nil]

/-- Leaving a scope drops exactly the variables declared in it. -/
theorem leave? {scope scope' : Scope} {inner : List String} (hd : ∀ l ∈ scope.locals, l.depth ≤ scope.depth)
    (h : Extends scope.enter scope' inner) : scope'.leave? = some (scope, inner.length) := by
  obtain ⟨new, hnew, hnames, hdepth⟩ := h.locals
  have hpos : scope'.depth = scope.depth + 1 := h.depth
  have hkept : scope'.locals.dropWhile (!outlives scope.depth ·) = scope.locals := by
    rw [hnew, List.dropWhile_append_of_pos]
    · show scope.locals.dropWhile _ = scope.locals
      cases hl : scope.locals with
      | nil => rfl
      | cons l rest =>
          rw [List.dropWhile_cons_of_neg]
          have := hd l (by rw [hl]; exact List.mem_cons_self ..)
          simpa [outlives] using this
    · intro l hl
      have : l.depth = scope.depth + 1 := hdepth l hl
      simp [outlives, this]
  unfold Scope.leave?
  rw [hpos]
  simp only [hkept]
  rw [hnew, ← hnames]
  simp [Scope.enter]

end Extends

end Scope

namespace Compiler

open CompileState

variable {s s' : CompileState}

/-- A change of the variables alone. -/
theorem adds_mapScope (s : CompileState) (f : Scope → Scope) : Adds s (s.mapScope f) [] [] [] :=
  .of_code rfl rfl rfl rfl rfl rfl (.refl _) nofun

theorem declareVariable_clean (h : declareVariable.run s = .ok () s') (hc : s'.Clean) :
    s.Clean ∧ Adds s s' [] [] [] ∧ s'.current = s.current ∧ s'.previous = s.previous ∧
      s'.body.chunk = s.body.chunk ∧ s'.heap = s.heap ∧
      (0 < s.body.scope.depth ∧ s.body.scope.locals.length < maxLocals ∧
        s'.body.scope = { s.body.scope with
          locals := ⟨s.previous.lexeme, s.body.scope.depth, false⟩ :: s.body.scope.locals } ∨
        s.body.scope.depth = 0 ∧ s'.body.scope = s.body.scope) := by
  unfold declareVariable at h
  obtain ⟨s₂, s₃, h₂, h⟩ := run_bind_eq_ok.mp h
  cases h₂
  split at h
  · next hlocal =>
      split at h
      · next scope hscope =>
          cases h
          unfold Scope.declare at hscope
          split at hscope
          · cases hscope
          next hlen =>
          split at hscope
          · cases hscope
          cases hscope
          refine ⟨hc, adds_mapScope _ _, rfl, rfl, rfl, rfl, .inl ⟨by simpa [Scope.isLocal] using hlocal, ?_, rfl⟩⟩
          omega
      · exact absurd hc (complain_not_clean h)
  · next hlocal =>
      cases h
      exact ⟨hc, .refl _, rfl, rfl, rfl, rfl, .inr ⟨by simpa [Scope.isLocal] using hlocal, rfl⟩⟩

/-- A new name is taken. It becomes a variable that cannot be read yet, or a constant that names a global
variable. -/
theorem declareName_clean {what : Expectation} {i : Nat} (h : (declareName what).run s = .ok i s')
    (hc : s'.Clean) :
    s.Clean ∧ s.current.kind = .identifier ∧ Adds s s' [s.current] [] [] ∧
      s'.body.chunk.size = s.body.chunk.size ∧ s'.previous = s.current ∧
      (0 < s.body.scope.depth ∧ s.body.scope.locals.length < maxLocals ∧
        s'.body.scope = { s.body.scope with
          locals := ⟨s.current.lexeme, s.body.scope.depth, false⟩ :: s.body.scope.locals } ∨
        s.body.scope.depth = 0 ∧ s'.body.scope = s.body.scope ∧ i < 256 ∧ (s.heap.Interned →
          ∃ v, s'.body.chunk.FirstAt i v ∧ (Literal.text s.current.lexeme).Denotes s'.heap v)) := by
  unfold declareName at h
  obtain ⟨_, s₁, h₁, h⟩ := run_bind_eq_ok.mp h
  obtain ⟨_, s₂, h₂, h⟩ := run_bind_eq_ok.mp h
  obtain ⟨_, s₃, h₃, h⟩ := run_bind_eq_ok.mp h
  cases h₃
  -- whichever way the name is kept, the two steps before are clean and took one token
  have hfront : s₂.Clean → s.Clean ∧ s.current.kind = .identifier ∧ Took s s₁ ∧ Adds s s₂ [s.current] [] [] ∧
      s₂.body.chunk.size = s.body.chunk.size ∧ s₂.previous = s.current ∧
      (0 < s.body.scope.depth ∧ s.body.scope.locals.length < maxLocals ∧
        s₂.body.scope = { s.body.scope with
          locals := ⟨s.current.lexeme, s.body.scope.depth, false⟩ :: s.body.scope.locals } ∨
        s.body.scope.depth = 0 ∧ s₂.body.scope = s.body.scope) := by
    intro hc₂
    obtain ⟨hc₁, ha, hcur, hprev, hchunk, hheap, hscope⟩ := declareVariable_clean h₂ hc₂
    obtain ⟨hc₀, hk, ht⟩ := expect_clean h₁ (by decide) hc₁
    rw [ht.body, ht.previous] at hscope
    exact ⟨hc₀, hk, ht, ht.adds.trans ha, by rw [hchunk, ht.body], hprev.trans ht.previous, hscope⟩
  split at h
  · next hlocal =>
      cases h
      obtain ⟨hc₀, hk, -, ha, hsize, hprev, hscope⟩ := hfront hc
      refine ⟨hc₀, hk, ha, hsize, hprev, ?_⟩
      rcases hscope with hscope | ⟨h0, hscope⟩
      · exact .inl hscope
      · rw [Scope.isLocal, hscope, h0] at hlocal
        simp at hlocal
  · next hlocal =>
      obtain ⟨name, s₄, h₄, h⟩ := run_bind_eq_ok.mp h
      cases h₄
      obtain ⟨hc₂, hidle, hlt, hconst⟩ := nameConstant_clean h hc
      obtain ⟨hc₀, hk, ht, ha, hsize, hprev, hscope⟩ := hfront hc₂
      refine ⟨hc₀, hk, ha.trans hidle.adds, hidle.size.trans hsize, hidle.previous.trans hprev, ?_⟩
      rcases hscope with ⟨hpos, -, hscope⟩ | ⟨h0, hscope⟩
      · rw [Scope.isLocal, hscope] at hlocal
        simp [hpos] at hlocal
      · rw [hprev] at hconst
        exact .inr ⟨h0, hidle.scope.trans hscope, hlt, fun hi => hconst (ha.heap.interned hi)⟩

theorem markInitialized_spec (h : markInitialized.run s = .ok () s') :
    (s'.Clean → s.Clean) ∧ Adds s s' [] [] [] ∧ s'.current = s.current ∧ s'.previous = s.previous ∧
      s'.body.chunk = s.body.chunk ∧ s'.heap = s.heap ∧
      s'.body.scope = s.body.scope.markInitialized := by
  cases h
  exact ⟨id, adds_mapScope _ _, rfl, rfl, rfl, rfl, rfl⟩

theorem markInitialized_declared {scope : Scope} (hpos : 0 < scope.depth) (name : String) :
    Scope.markInitialized { scope with locals := ⟨name, scope.depth, false⟩ :: scope.locals } =
      { scope with locals := ⟨name, scope.depth, true⟩ :: scope.locals } := by
  obtain ⟨locals, depth⟩ := scope
  cases depth with
  | zero => simp at hpos
  | succ depth => rfl

theorem depth_markInitialized (scope : Scope) : scope.markInitialized.depth = scope.depth := by
  unfold Scope.markInitialized
  split <;> rfl

theorem markInitialized_top {scope : Scope} (h : scope.depth = 0) : scope.markInitialized = scope := by
  obtain ⟨locals, depth⟩ := scope
  obtain rfl : depth = 0 := h
  rfl

theorem markInitialized_twice (scope : Scope) :
    scope.markInitialized.markInitialized = scope.markInitialized := by
  obtain ⟨locals, depth⟩ := scope
  cases depth with
  | zero => rfl
  | succ depth =>
      cases locals with
      | nil => rfl
      | cons latest others => rfl

theorem emitRepeated_pop_clean {n : Nat} (h : (emitRepeated .pop n).run s = .ok () s') (hc : s'.Clean) :
    s.Clean ∧ s'.body.scope = s.body.scope ∧ s'.current = s.current ∧
      s'.body.chunk.size = s.body.chunk.size + n ∧
      ∀ inner outer : List String, inner.length = n →
        Adds s s' [] (pops outer inner s.body.chunk.size) [] := by
  induction n generalizing s with
  | zero =>
      cases h
      refine ⟨hc, rfl, rfl, rfl, fun inner outer hn => ?_⟩
      obtain rfl := List.length_eq_zero_iff.mp hn
      exact .refl _
  | succ n ih =>
      rw [emitRepeated] at h
      obtain ⟨_, s₁, h₁, h⟩ := run_bind_eq_ok.mp h
      obtain ⟨hc₁, hscope, hcur, hsize, ha⟩ := ih h
      obtain ⟨hc₀, hw⟩ := emit_clean h₁ rfl hc₁
      refine ⟨hc₀, hscope.trans hw.scope, hcur.trans hw.current, ?_, fun inner outer hn => ?_⟩
      · rw [hsize, hw.size]
        simp only [Instr.size]
        omega
      · cases inner with
        | nil => cases hn
        | cons x xs =>
            have := (hw.adds (x :: xs ++ outer) 0).trans (ha xs outer (Nat.succ.inj hn))
            rw [hw.size] at this
            exact this

/-- Leaving a scope removes its variables from the stack. -/
theorem leaveScope_clean (h : leaveScope.run s = .ok () s') (hc : s'.Clean) :
    s.Clean ∧ ∀ (scope : Scope) (inner outer : List String),
      (∀ l ∈ scope.locals, l.depth ≤ scope.depth) → Scope.Extends scope.enter s.body.scope inner →
      s'.body.scope = scope ∧ s'.current = s.current ∧
        s'.body.chunk.size = s.body.chunk.size + inner.length ∧
        Adds s s' [] (pops outer inner s.body.chunk.size) [] := by
  unfold leaveScope at h
  obtain ⟨s₂, s₃, h₂, h⟩ := run_bind_eq_ok.mp h
  cases h₂
  split at h
  · cases h
  next left count hleave =>
  obtain ⟨_, s₁, h₁, h⟩ := run_bind_eq_ok.mp h
  cases h₁
  obtain ⟨hc₁, hscope, hcur, hsize, ha⟩ := emitRepeated_pop_clean h hc
  refine ⟨hc₁, fun scope inner outer hd he => ?_⟩
  rw [he.leave? hd] at hleave
  cases hleave
  exact ⟨hscope, hcur, hsize, (adds_mapScope _ _).trans (ha inner outer rfl)⟩

end Compiler

end Lox
