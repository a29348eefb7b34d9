import Lox.Proofs.Machine.Config
import Lox.Proofs.Machine.View

/-! What each instruction does on a configuration, in the words of the layout: a spot that holds in the code
of the innermost call is carried out without looking at its bytes again. Operators are described by what they
make of the data that their operands stand for. -/

namespace Lox

namespace Machine

/-- The code of a function has an instruction at its place. -/
def Has (m : Machine) (handle : Handle) (p : Spot) : Prop :=
  ∃ f, m.heap.function? handle = some f ∧ p.Holds m.heap f.chunk

/-- The result of an instruction that pushes a value. -/
def pushed (m : Machine) (fs : List Frame) (vs : List Value) (v : Value) :
    EStateM.Result Stop Machine Execution.Flow :=
  if m.limits.stackMax ≤ vs.length then .error (.error .stackOverflow) (m.config fs vs)
  else .ok .next (m.config fs (v :: vs))

end Machine

namespace Execution

open Machine Library

variable {m : Machine} {handle : Handle} {a base : Nat} {fs : List Frame} {vs rest above : List Value} {v : Value}
  {scope : List String} {t : Nat}

theorem run_push_next : (do push v; return .next : Execution Flow).run (m.config fs vs) = m.pushed fs vs v := by
  unfold pushed
  by_cases h : m.limits.stackMax ≤ vs.length
  · rw [if_pos h, run_bind_of_error (by rw [run_push, if_pos h])]
  · rw [if_neg h, run_bind_of_ok (by rw [run_push, if_neg h])]
    rfl

/-! ### Values and variables -/

theorem step_nil (h : m.Has handle ⟨a, .plain .pushNil, scope, t⟩) :
    step.run (m.config (⟨handle, a, base⟩ :: fs) vs) = m.pushed (⟨handle, a + 1, base⟩ :: fs) vs .nil := by
  obtain ⟨f, hf, hop, -⟩ := h
  rw [run_step hf hop]
  exact run_push_next

theorem step_true (h : m.Has handle ⟨a, .plain .pushTrue, scope, t⟩) :
    step.run (m.config (⟨handle, a, base⟩ :: fs) vs) = m.pushed (⟨handle, a + 1, base⟩ :: fs) vs (.bool true) := by
  obtain ⟨f, hf, hop, -⟩ := h
  rw [run_step hf hop]
  exact run_push_next

theorem step_false (h : m.Has handle ⟨a, .plain .pushFalse, scope, t⟩) :
    step.run (m.config (⟨handle, a, base⟩ :: fs) vs) = m.pushed (⟨handle, a + 1, base⟩ :: fs) vs (.bool false) := by
  obtain ⟨f, hf, hop, -⟩ := h
  rw [run_step hf hop]
  exact run_push_next

theorem step_constant {literal : Literal} {wide : Bool} (h : m.Has handle ⟨a, .constant literal wide, scope, t⟩) :
    ∃ v, literal.Denotes m.heap v ∧ step.run (m.config (⟨handle, a, base⟩ :: fs) vs) =
      m.pushed (⟨handle, a + (Instr.constant literal wide).size, base⟩ :: fs) vs v := by
  obtain ⟨f, hf, hop, hoperand⟩ := h
  cases wide with
  | false =>
      obtain ⟨i, v, hi, hv, hd⟩ := hoperand
      refine ⟨v, hd, ?_⟩
      rw [run_step hf hop]
      show (do push (← constant (← readByte).toNat); return .next : Execution Flow).run _ = _
      rw [run_bind_of_ok (run_readByte hf hi), run_bind_of_ok (run_constant hf hv)]
      exact run_push_next
  | true =>
      obtain ⟨i, v, hi, hv, hd⟩ := hoperand
      refine ⟨v, hd, ?_⟩
      rw [run_step hf hop]
      show (do push (← constant (← readWord)); return .next : Execution Flow).run _ = _
      rw [run_bind_of_ok (run_readWord hf hi), run_bind_of_ok (run_constant hf hv)]
      exact run_push_next

theorem step_pop (h : m.Has handle ⟨a, .plain .pop, scope, t⟩) :
    step.run (m.config (⟨handle, a, base⟩ :: fs) (v :: vs)) = .ok .next
    (m.config (⟨handle, a + 1, base⟩ :: fs) vs) := by
  obtain ⟨f, hf, hop, -⟩ := h
  rw [run_step hf hop]
  show (do let _ ← pop; return .next : Execution Flow).run _ = _
  rw [run_bind_of_ok run_pop]
  rfl

theorem step_getLocal {name : String} {slot : Nat} (h : m.Has handle ⟨a, .getLocal name slot, scope, t⟩)
    (hs : base + slot = rest.length) :
    step.run (m.config (⟨handle, a, base⟩ :: fs) (above ++ v :: rest)) =
      m.pushed (⟨handle, a + 2, base⟩ :: fs) (above ++ v :: rest) v := by
  obtain ⟨f, hf, hop, i, hi, rfl⟩ := h
  rw [run_step hf hop]
  show (do push (← getSlot (← readByte).toNat); return .next : Execution Flow).run _ = _
  rw [run_bind_of_ok (run_readByte hf hi), run_bind_of_ok (run_getSlot hs)]
  exact run_push_next

theorem step_setLocal {name : String} {slot : Nat} {w : Value} (h : m.Has handle ⟨a, .setLocal name slot, scope, t⟩)
    (hs : base + slot = rest.length) :
    step.run (m.config (⟨handle, a, base⟩ :: fs) (w :: (above ++ v :: rest))) =
      .ok .next (m.config (⟨handle, a + 2, base⟩ :: fs) (w :: (above ++ w :: rest))) := by
  obtain ⟨f, hf, hop, i, hi, rfl⟩ := h
  rw [run_step hf hop]
  show (do setSlot (← readByte).toNat (← peek 0); return .next : Execution Flow).run _ = _
  rw [run_bind_of_ok (run_readByte hf hi), run_bind_of_ok (run_peek rfl)]
  have hset : (setSlot i.toNat w).run (m.config (⟨handle, a + 2, base⟩ :: fs) (w :: above ++ v :: rest)) =
      .ok () (m.config (⟨handle, a + 2, base⟩ :: fs) (w :: above ++ w :: rest)) := run_setSlot hs
  rw [List.cons_append, List.cons_append] at hset
  rw [run_bind_of_ok hset]
  rfl

/-! ### Jumps -/

theorem step_jump {target : Nat} (h : m.Has handle ⟨a, .jump target, scope, t⟩ ∨
    m.Has handle ⟨a, .loop target, scope, t⟩) :
    step.run (m.config (⟨handle, a, base⟩ :: fs) vs) = .ok .next (m.config (⟨handle, target, base⟩ :: fs) vs) := by
  have hexec : ∀ {f : FunctionObject} {w : Nat}, m.heap.function? handle = some f → f.chunk.wordAt? (a + 1) = some w →
      ((a + 1 + 2 : Nat) : Int) + signedOf w = target →
      (do jump (← readSigned); return .next : Execution Flow).run (m.config (⟨handle, a + 1, base⟩ :: fs) vs) =
        .ok .next (m.config (⟨handle, target, base⟩ :: fs) vs) := by
    intro f w hf hw htarget
    rw [run_bind_of_ok (run_readSigned hf hw), run_bind_of_ok (run_jump htarget)]
    rfl
  rcases h with ⟨f, hf, hop, w, hw, htarget⟩ | ⟨f, hf, hop, w, hw, htarget⟩
  · rw [run_step hf hop]
    exact hexec hf hw htarget
  · rw [run_step hf hop]
    exact hexec hf hw htarget

theorem step_jumpIfFalse {target : Nat} (h : m.Has handle ⟨a, .jumpIfFalse target, scope, t⟩) :
    step.run (m.config (⟨handle, a, base⟩ :: fs) (v :: vs)) =
      .ok .next (m.config (⟨handle, if v.isFalsey then target else a + 3, base⟩ :: fs) (v :: vs)) := by
  obtain ⟨f, hf, hop, w, hw, htarget⟩ := h
  rw [run_step hf hop]
  show (do
    let distance ← readSigned
    let value ← peek 0
    if value.isFalsey then jump distance
    return .next : Execution Flow).run _ = _
  rw [run_bind_of_ok (run_readSigned hf hw), run_bind_of_ok (run_peek rfl)]
  cases v.isFalsey with
  | true =>
      show (do jump (signedOf w); return .next : Execution Flow).run _ = _
      rw [run_bind_of_ok (run_jump htarget)]
      rfl
  | false => rfl

/-! ### Global variables -/

theorem run_readName {f : FunctionObject} {i : UInt8} {name : String} (hf : m.heap.function? handle = some f)
    (hi : f.chunk.byteAt? a = some i) (hv : f.chunk.FirstAt i.toNat v)
    (hd : (Literal.text name).Denotes m.heap v) :
    ∃ key s, m.heap.string? key.handle = some s ∧ s.chars = name ∧ m.heap.key? key.handle = some key ∧
      ∀ base fs vs, readName.run (m.config (⟨handle, a, base⟩ :: fs) vs) =
        .ok key (m.config (⟨handle, a + 1, base⟩ :: fs) vs) := by
  obtain ⟨h, s, rfl, hs, hchars⟩ := hd
  have hk : m.heap.key? h = some ⟨h, s.hash⟩ := Heap.key?_eq_some_iff.mpr ⟨s, hs, rfl⟩
  refine ⟨⟨h, s.hash⟩, s, hs, hchars, hk, fun base fs vs => ?_⟩
  unfold readName
  rw [run_bind_of_ok (run_readByte hf hi), run_bind_of_ok (run_constant hf hv.here)]
  rw [run_bind_of_ok (EStateM.run_get _)]
  simp only [Value.handle?, config, Option.bind_some, hk]
  rfl

theorem run_failUndefined {α : Type} {key : Key} {s : StringObject} (hs : m.heap.string? key.handle = some s) :
    (failUndefined key : Execution α).run (m.config fs vs) =
      .error (.error (.undefinedVariable s.chars)) (m.config fs vs) := by
  have heq : (failUndefined key : Execution α).run (m.config fs vs) =
    .error (.error (.undefinedVariable (((m.heap.string? key.handle).map (·.chars)).getD ""))) (m.config fs vs) := rfl
  rw [heq, hs]
  rfl

theorem step_getGlobal {name : String} (hm : m.Sound) (h : m.Has handle ⟨a, .getGlobal name, scope, t⟩) :
    step.run (m.config (⟨handle, a, base⟩ :: fs) vs) =
      match m.global? name with
      | some v => m.pushed (⟨handle, a + 2, base⟩ :: fs) vs v
      | none => .error (.error (.undefinedVariable name)) (m.config (⟨handle, a + 2, base⟩ :: fs) vs) := by
  obtain ⟨f, hf, hop, i, v, hi, hv, hd⟩ := h
  obtain ⟨key, s, hs, hchars, hk, hread⟩ := run_readName hf hi hv hd
  rw [run_step hf hop]
  show (do getGlobal; return .next : Execution Flow).run _ = _
  have hget : getGlobal.run (m.config (⟨handle, a + 1, base⟩ :: fs) vs) =
      (match m.globals.get? key with
        | some value => push value
        | none => failUndefined key : Execution Unit).run (m.config (⟨handle, a + 2, base⟩ :: fs) vs) := by
    unfold getGlobal
    rw [run_bind_of_ok (hread _ _ _)]
    rfl
  rw [hm.get?_key hs hchars hk] at hget
  cases hg : m.global? name with
  | some w =>
      rw [hg] at hget
      rw [EStateM.run_bind, hget]
      exact run_push_next
  | none =>
      rw [hg] at hget
      rw [run_bind_of_error (hget.trans (run_failUndefined hs)), hchars]

/-- The machine after a change of its global variables, which leaves all but one of them alone. -/
structure Defined (m : Machine) (name : String) (v : Value) (globals : Table) : Prop where
  sound : Sound { m with globals }
  global? : ∀ other, Machine.global? { m with globals } other = if other = name then some v else m.global? other

theorem step_defineGlobal {name : String} (hm : m.Sound)
    (h : m.Has handle ⟨a, .defineGlobal name, scope, t⟩) (v : Value) :
    ∃ globals, Defined m name v globals ∧ ∀ base fs vs, step.run (m.config (⟨handle, a, base⟩ :: fs) (v :: vs)) =
      .ok .next (Machine.config { m with globals } (⟨handle, a + 2, base⟩ :: fs) vs) := by
  obtain ⟨f, hf, hop, i, w, hi, hw, hd⟩ := h
  obtain ⟨key, s, hs, hchars, hk, hread⟩ := run_readName hf hi hw hd
  refine ⟨_, ⟨hm.define hk v, hm.global?_define hs hchars hk v⟩, fun base fs vs => ?_⟩
  rw [run_step hf hop]
  show (do defineGlobal; return .next : Execution Flow).run _ = _
  have hdef : defineGlobal.run (m.config (⟨handle, a + 1, base⟩ :: fs) (v :: vs)) =
      (do let _ ← pop).run (Machine.config { m with globals := (m.globals.set key v).1 }
        (⟨handle, a + 2, base⟩ :: fs) (v :: vs)) := by
    unfold defineGlobal
    rw [run_bind_of_ok (hread _ _ _), run_bind_of_ok (run_peek rfl)]
    rfl
  rw [EStateM.run_bind, hdef, run_bind_of_ok run_pop]
  rfl

theorem run_setGlobal {f : FunctionObject} {key : Key} (hf : m.heap.function? handle = some f)
    (hop : f.chunk.byteAt? a = some Opcode.setGlobal.toByte)
    (hread : ∀ base fs vs, readName.run (m.config (⟨handle, a + 1, base⟩ :: fs) vs) =
      .ok key (m.config (⟨handle, a + 1 + 1, base⟩ :: fs) vs)) :
    step.run (m.config (⟨handle, a, base⟩ :: fs) (v :: vs)) =
      (do
        if (m.globals.set key v).2 then
          modify fun m => { m with globals := (m.globals.erase key).1 }
          failUndefined key
        return .next : Execution Flow).run (Machine.config { m with globals := (m.globals.set key v).1 }
          (⟨handle, a + 2, base⟩ :: fs) (v :: vs)) := by
  rw [run_step hf hop]
  show (do setGlobal; return .next : Execution Flow).run _ = _
  have hset : setGlobal.run (m.config (⟨handle, a + 1, base⟩ :: fs) (v :: vs)) =
      (do
        if (m.globals.set key v).2 then
          modify fun m => { m with globals := (m.globals.erase key).1 }
          failUndefined key : Execution Unit).run (Machine.config { m with globals := (m.globals.set key v).1 }
        (⟨handle, a + 2, base⟩ :: fs) (v :: vs)) := by
    unfold setGlobal
    rw [run_bind_of_ok (hread _ _ _), run_bind_of_ok (run_peek rfl)]
    rfl
  rw [EStateM.run_bind, hset, ← EStateM.run_bind]
  cases (m.globals.set key v).2 <;> rfl

theorem step_setGlobal {name : String} {old : Value} (hm : m.Sound) (h : m.Has handle ⟨a, .setGlobal name, scope, t⟩)
    (hg : m.global? name = some old) (v : Value) :
    ∃ globals, Defined m name v globals ∧ ∀ base fs vs, step.run (m.config (⟨handle, a, base⟩ :: fs) (v :: vs)) =
      .ok .next (Machine.config { m with globals } (⟨handle, a + 2, base⟩ :: fs) (v :: vs)) := by
  obtain ⟨f, hf, hop, i, w, hi, hw, hd⟩ := h
  obtain ⟨key, s, hs, hchars, hk, hread⟩ := run_readName hf hi hw hd
  refine ⟨_, ⟨hm.define hk v, hm.global?_define hs hchars hk v⟩, fun base fs vs => ?_⟩
  have hold : (m.globals.set key v).2 = false := by
    rw [← Bool.not_eq_true, hm.set_isNew hs hchars hk v, hg]
    exact nofun
  rw [run_setGlobal hf hop hread, hold]
  rfl

/-- Assigning to a variable that is not there leaves the variables as they were. -/
theorem step_setGlobal_new {name : String} (hm : m.Sound) (h : m.Has handle ⟨a, .setGlobal name, scope, t⟩)
    (hg : m.global? name = none) (v : Value) :
    ∃ globals, Sound { m with globals } ∧ (∀ other, Machine.global? { m with globals } other = m.global? other) ∧
      ∀ base fs vs, step.run (m.config (⟨handle, a, base⟩ :: fs) (v :: vs)) =
        .error (.error (.undefinedVariable name))
          (Machine.config { m with globals } (⟨handle, a + 2, base⟩ :: fs) (v :: vs)) := by
  obtain ⟨f, hf, hop, i, w, hi, hw, hd⟩ := h
  obtain ⟨key, s, hs, hchars, hk, hread⟩ := run_readName hf hi hw hd
  refine ⟨_, (hm.define hk v).drop hk, hm.global?_undo hs hchars hk hg v, fun base fs vs => ?_⟩
  rw [run_setGlobal hf hop hread, (hm.set_isNew hs hchars hk v).mpr hg, ← hchars]
  exact run_failUndefined (m := { m with globals := ((m.globals.set key v).1.erase key).1 }) hs

/-! ### Operators -/

section Operators

variable {L : Library} {x y : Value} {dx dy : Datum}

theorem run_numberOperands : numberOperands.run (m.config fs (y :: x :: vs)) =
    (match x, y with
      | .number a, .number b => return (a, b)
      | _, _ => fail .operandsMustBeNumbers : Execution (Float × Float)).run (m.config fs (y :: x :: vs)) := by
  unfold numberOperands
  exact (run_bind_of_ok (run_peek rfl)).trans (run_bind_of_ok (run_peek rfl))

/-- An operator on two numbers. -/
theorem run_numeric {f : Float → Float → Value} {g : Float → Float → Datum}
    (hfg : ∀ a b, L.view m.heap (f a b) = some (g a b)) (hx : L.view m.heap x = some dx)
    (hy : L.view m.heap y = some dy) :
    match dx.ofNumbers g dy with
    | .ok d => ∃ v, L.view m.heap v = some d ∧
        (do numeric f; return .next : Execution Flow).run (m.config fs (y :: x :: vs)) = m.pushed fs vs v
    | .error kind => (do numeric f; return .next : Execution Flow).run (m.config fs (y :: x :: vs)) =
        .error (.error kind) (m.config fs (y :: x :: vs)) := by
  have hoperands : numberOperands.run (m.config fs (y :: x :: vs)) = _ := run_numberOperands
  cases shows_of_view hx <;> cases shows_of_view hy <;>
    try exact run_bind_of_error (run_bind_of_error hoperands)
  next a b =>
    refine ⟨f a b, hfg a b, ?_⟩
    have hrun : (numeric f).run (m.config fs (.number b :: .number a :: vs)) = (push (f a b)).run (m.config fs vs) := by
      unfold numeric
      rw [run_bind_of_ok hoperands]
      show (do let _ ← popTwo; push (f a b) : Execution Unit).run _ = _
      rw [run_bind_of_ok run_popTwo]
    rw [EStateM.run_bind, hrun]
    exact run_push_next

theorem run_compareEqual (wanted : Bool) :
    (do compareEqual wanted; return .next : Execution Flow).run (m.config fs (y :: x :: vs)) =
      m.pushed fs vs (.bool (x.equal y == wanted)) := by
  have hrun : (compareEqual wanted).run (m.config fs (y :: x :: vs)) =
      (push (.bool (x.equal y == wanted))).run (m.config fs vs) := by
    unfold compareEqual
    rw [run_bind_of_ok run_popTwo]
  rw [EStateM.run_bind, hrun]
  exact run_push_next

theorem run_concatenate {i j : Handle} {s u : StringObject} (hm : m.heap.Interned)
    (hs : m.heap.string? i = some s) (hu : m.heap.string? j = some u) :
    ∃ heap journal v, m.heap.Grows heap ∧ L.view heap v = some (.text (s.chars ++ u.chars)) ∧
      (do concatenate i j; return .next : Execution Flow).run (m.config fs (y :: x :: vs)) =
        Machine.pushed { m with heap, journal } fs vs v := by
  have hview : L.view (m.heap.intern (s.chars ++ u.chars)).1 (.object (m.heap.intern (s.chars ++ u.chars)).2) =
      some (.text (s.chars ++ u.chars)) := view_text (hm.intern (s.chars ++ u.chars)).2.2
  obtain ⟨journal, hintern⟩ : ∃ journal, ∀ fs vs, (m.config fs vs).intern (s.chars ++ u.chars) =
      ((m.heap.intern (s.chars ++ u.chars)).2,
        Machine.config { m with heap := (m.heap.intern (s.chars ++ u.chars)).1, journal } fs vs) := by
    by_cases hlive : m.heap.live < (m.heap.intern (s.chars ++ u.chars)).1.live
    · refine ⟨m.journal.record (.allocated (m.heap.intern (s.chars ++ u.chars)).2), fun fs vs => ?_⟩
      simp [Machine.intern, config, hlive, Machine.record]
    · refine ⟨m.journal, fun fs vs => ?_⟩
      simp [Machine.intern, config, hlive]
  refine ⟨_, journal, _, Heap.grows_intern m.heap (s.chars ++ u.chars), hview, ?_⟩
  have hrun : (concatenate i j).run (m.config fs (y :: x :: vs)) =
      (push (.object (m.heap.intern (s.chars ++ u.chars)).2)).run
        (Machine.config { m with heap := (m.heap.intern (s.chars ++ u.chars)).1, journal } fs vs) := by
    unfold concatenate
    rw [run_bind_of_ok (EStateM.run_get _)]
    simp only [heap_config, hs, hu]
    rw [run_bind_of_ok run_popTwo, EStateM.run_bind, EStateM.run_modifyGet, hintern]
  rw [EStateM.run_bind, hrun]
  exact run_push_next

theorem run_concatenate_fail {i j : Handle} (h : m.heap.string? i = none ∨ m.heap.string? j = none) :
    (concatenate i j).run (m.config fs vs) =
      .error (.error .operandsMustBeNumbersOrStrings) (m.config fs vs) := by
  unfold concatenate
  rw [run_bind_of_ok (EStateM.run_get _)]
  simp only [heap_config]
  rcases h with h | h
  · rw [h]
    rfl
  · rw [h]
    cases m.heap.string? i <;> rfl

theorem run_add_eq : add.run (m.config fs (y :: x :: vs)) =
    (match x, y with
      | .number a, .number b => do
        let _ ← popTwo
        push (.number (a + b))
      | .object a, .object b => concatenate a b
      | _, _ => fail .operandsMustBeNumbersOrStrings : Execution Unit).run (m.config fs (y :: x :: vs)) := by
  unfold add
  exact (run_bind_of_ok (run_peek rfl)).trans (run_bind_of_ok (run_peek rfl))

/-- Addition of numbers, or of strings, which may make a new string. -/
theorem run_add (hm : m.heap.Interned) (hx : L.view m.heap x = some dx) (hy : L.view m.heap y = some dy) :
    match dx.add dy with
    | .ok d => ∃ heap journal v, m.heap.Grows heap ∧ L.view heap v = some d ∧
        (do add; return .next : Execution Flow).run (m.config fs (y :: x :: vs)) =
          Machine.pushed { m with heap, journal } fs vs v
    | .error kind => (do add; return .next : Execution Flow).run (m.config fs (y :: x :: vs)) =
        .error (.error kind) (m.config fs (y :: x :: vs)) := by
  have hadd : add.run (m.config fs (y :: x :: vs)) = _ := run_add_eq
  -- functions of either kind are not strings
  have hother : ∀ {i : Handle} {o : Object}, m.heap.get? i = some o → (∀ s, o ≠ .string s) →
      m.heap.string? i = none := by
    intro i o ho hne
    cases hs : m.heap.string? i with
    | none => rfl
    | some s =>
        have := ho.symm.trans (Heap.string?_eq_some_iff.mp hs)
        exact absurd (Option.some.inj this) (hne s)
  cases shows_of_view hx with
  | nil | bool => cases shows_of_view hy <;> exact run_bind_of_error hadd
  | number a =>
      cases shows_of_view hy with
      | number b =>
          refine ⟨m.heap, m.journal, .number (a + b), .refl _, rfl, ?_⟩
          have hrun : add.run (m.config fs (.number b :: .number a :: vs)) =
            (push (.number (a + b))).run (m.config fs vs) := hadd.trans (run_bind_of_ok run_popTwo)
          rw [EStateM.run_bind, hrun]
          exact run_push_next
      | _ => exact run_bind_of_error hadd
  | text ho =>
      cases shows_of_view hy with
      | text ho' =>
          obtain ⟨heap, journal, v, hg, hv, hrun⟩ := run_concatenate hm (Heap.string?_eq_some_iff.mpr ho)
            (Heap.string?_eq_some_iff.mpr ho')
          refine ⟨heap, journal, v, hg, hv, ?_⟩
          rw [EStateM.run_bind, hadd, ← EStateM.run_bind]
          exact hrun
      | function ho' | native ho' =>
          exact run_bind_of_error (hadd.trans (run_concatenate_fail (.inr (hother ho' nofun))))
      | _ => exact run_bind_of_error hadd
  | function ho | native ho =>
      cases shows_of_view hy with
      | nil | bool | number => exact run_bind_of_error hadd
      | _ => exact run_bind_of_error (hadd.trans (run_concatenate_fail (.inl (hother ho nofun))))

theorem run_negate_eq : negate.run (m.config fs (x :: vs)) =
    (match x with
      | .number a => do
        let _ ← pop
        push (.number (-a))
      | _ => fail .operandMustBeNumber : Execution Unit).run (m.config fs (x :: vs)) := by
  unfold negate
  exact run_bind_of_ok (run_peek rfl)

/-- What a binary operator does to its operands. -/
theorem step_binary {op : BinaryOp} (hm : m.heap.Interned) (h : m.Has handle ⟨a, .plain op.opcode, scope, t⟩)
    (hx : L.view m.heap x = some dx) (hy : L.view m.heap y = some dy) (base : Nat) (fs : List Frame) (vs : List Value) :
    match op.apply dx dy with
    | .ok d => ∃ heap journal v, m.heap.Grows heap ∧ L.view heap v = some d ∧
        step.run (m.config (⟨handle, a, base⟩ :: fs) (y :: x :: vs)) =
          Machine.pushed { m with heap, journal } (⟨handle, a + 1, base⟩ :: fs) vs v
    | .error kind => step.run (m.config (⟨handle, a, base⟩ :: fs) (y :: x :: vs)) =
        .error (.error kind) (m.config (⟨handle, a + 1, base⟩ :: fs) (y :: x :: vs)) := by
  obtain ⟨f, hf, hop, -⟩ := h
  rw [run_step hf hop]
  -- all but addition leave the heap alone
  have hsame : ∀ {r : Except ErrorKind Datum} {e : Execution Flow},
      (match r with
        | .ok d => ∃ v, L.view m.heap v = some d ∧
            e.run (m.config (⟨handle, a + 1, base⟩ :: fs) (y :: x :: vs)) = m.pushed (⟨handle, a + 1, base⟩ :: fs) vs v
        | .error kind => e.run (m.config (⟨handle, a + 1, base⟩ :: fs) (y :: x :: vs)) =
            .error (.error kind) (m.config (⟨handle, a + 1, base⟩ :: fs) (y :: x :: vs))) →
      match r with
      | .ok d => ∃ heap journal v, m.heap.Grows heap ∧ L.view heap v = some d ∧
          e.run (m.config (⟨handle, a + 1, base⟩ :: fs) (y :: x :: vs)) =
            Machine.pushed { m with heap, journal } (⟨handle, a + 1, base⟩ :: fs) vs v
      | .error kind => e.run (m.config (⟨handle, a + 1, base⟩ :: fs) (y :: x :: vs)) =
          .error (.error kind) (m.config (⟨handle, a + 1, base⟩ :: fs) (y :: x :: vs)) := by
    intro r e h
    cases r with
    | error kind => exact h
    | ok d =>
        obtain ⟨v, hv, hrun⟩ := h
        exact ⟨m.heap, m.journal, v, .refl _, hv, hrun⟩
  cases op with
  | add => exact run_add hm hx hy
  | equal =>
      refine hsame (r := .ok (.bool (dx.equal dy))) ⟨_, ?_, run_compareEqual true⟩
      rw [equal_view hm hx hy]
      simp [view]
  | notEqual =>
      refine hsame (r := .ok (.bool (!dx.equal dy))) ⟨_, ?_, run_compareEqual false⟩
      rw [equal_view hm hx hy]
      simp [view]
  | subtract | multiply | divide | greater | greaterEqual | less | lessEqual =>
      exact hsame (run_numeric (fun _ _ => rfl) hx hy)

/-- What a unary operator does to its operand. -/
theorem step_unary {op : UnaryOp} (h : m.Has handle ⟨a, .plain op.opcode, scope, t⟩) (hx : L.view m.heap x = some dx)
    (base : Nat) (fs : List Frame) (vs : List Value) :
    match op.apply dx with
    | .ok d => ∃ v, L.view m.heap v = some d ∧ step.run (m.config (⟨handle, a, base⟩ :: fs) (x :: vs)) =
        m.pushed (⟨handle, a + 1, base⟩ :: fs) vs v
    | .error kind => step.run (m.config (⟨handle, a, base⟩ :: fs) (x :: vs)) =
        .error (.error kind) (m.config (⟨handle, a + 1, base⟩ :: fs) (x :: vs)) := by
  obtain ⟨f, hf, hop, -⟩ := h
  rw [run_step hf hop]
  cases op with
  | not =>
      refine ⟨.bool x.isFalsey, by rw [isFalsey_view hx]; rfl, ?_⟩
      have hrun : negateTruth.run (m.config (⟨handle, a + 1, base⟩ :: fs) (x :: vs)) =
          (push (.bool x.isFalsey)).run (m.config (⟨handle, a + 1, base⟩ :: fs) vs) := by
        unfold negateTruth
        rw [run_bind_of_ok run_pop]
      show (do negateTruth; return .next : Execution Flow).run _ = _
      rw [EStateM.run_bind, hrun]
      exact run_push_next
  | negate =>
      have hnegate : negate.run (m.config (⟨handle, a + 1, base⟩ :: fs) (x :: vs)) = _ := run_negate_eq
      cases shows_of_view hx with
      | number b =>
          refine ⟨.number (-b), rfl, ?_⟩
          have hrun : negate.run (m.config (⟨handle, a + 1, base⟩ :: fs) (.number b :: vs)) =
            (push (.number (-b))).run (m.config (⟨handle, a + 1, base⟩ :: fs) vs) :=
            hnegate.trans (run_bind_of_ok run_pop)
          show (do negate; return .next : Execution Flow).run _ = _
          rw [EStateM.run_bind, hrun]
          exact run_push_next
      | _ => exact run_bind_of_error hnegate

theorem step_print {d : Datum} (hL : L.Fits m.heap) (h : m.Has handle ⟨a, .plain .print, scope, t⟩)
    (hv : L.view m.heap v = some d) :
    step.run (m.config (⟨handle, a, base⟩ :: fs) (v :: vs)) =
      if (m.output.write (d.display ++ "\n")).2 then .ok .next (Machine.config
        { m with output := (m.output.write (d.display ++ "\n")).1 } (⟨handle, a + 1, base⟩ :: fs) vs)
      else .error (.error (.output Output.closedReason)) (Machine.config
        { m with output := (m.output.write (d.display ++ "\n")).1 } (⟨handle, a + 1, base⟩ :: fs) vs) := by
  obtain ⟨f, hf, hop, -⟩ := h
  have hprint : print.run (m.config (⟨handle, a + 1, base⟩ :: fs) (v :: vs)) =
      (do
        if !(m.output.write (m.heap.display v ++ "\n")).2 then fail (.output Output.closedReason) :
        Execution Unit).run (Machine.config
          { m with output := (m.output.write (m.heap.display v ++ "\n")).1 } (⟨handle, a + 1, base⟩ :: fs) vs) := by
    unfold print
    rw [run_bind_of_ok run_pop]
    rfl
  rw [display_view hL hv] at hprint
  rw [run_step hf hop]
  show (do print; return .next : Execution Flow).run _ = _
  rw [EStateM.run_bind, hprint]
  cases (m.output.write (d.display ++ "\n")).2 <;> rfl

end Operators

/-! ### Calls -/

theorem step_call {args : List Value} (h : m.Has handle ⟨a, .call args.length, scope, t⟩) :
    step.run (m.config (⟨handle, a, base⟩ :: fs) (args ++ v :: rest)) =
      (do callValue v args.length; return .next : Execution Flow).run
        (m.config (⟨handle, a + 2, base⟩ :: fs) (args ++ v :: rest)) := by
  obtain ⟨f, hf, hop, i, hi, hlen⟩ := h
  rw [run_step hf hop]
  show (do
    let count ← readByte
    callValue (← peek count.toNat) count.toNat
    return .next : Execution Flow).run _ = _
  have hpeek : (args ++ v :: rest)[args.length]? = some v := by simp
  rw [run_bind_of_ok (run_readByte hf hi), hlen, run_bind_of_ok (run_peek hpeek)]

/-- A call of a compiled function opens a frame above the values below the callee. -/
theorem run_callFunction {label : Handle} {g : FunctionObject} (hg : m.heap.function? label = some g)
    (fs : List Frame) (args rest : List Value) :
    ∃ journal, (callFunction label args.length).run (m.config fs (args ++ .object label :: rest)) =
      if args.length ≠ g.arity then
        .error (.error (.arityMismatch g.arity args.length)) (m.config fs (args ++ .object label :: rest))
      else if m.limits.framesMax ≤ fs.length then
        .error (.error .stackOverflow) (m.config fs (args ++ .object label :: rest))
      else .ok () (Machine.config { m with journal } (⟨label, 0, rest.length⟩ :: fs)
        (args ++ .object label :: rest)) := by
  refine ⟨m.journal.record (.called (fs.length + 1) rest.length), ?_⟩
  unfold callFunction
  rw [run_bind_of_ok (EStateM.run_get _)]
  simp only [heap_config, frames_config, limits_config, hg, size_config, List.length_append, List.length_cons]
  rw [if_neg (by omega : ¬ args.length + (rest.length + 1) < args.length + 1),
    show args.length + (rest.length + 1) - (args.length + 1) = rest.length by omega]
  split
  · rfl
  · split <;> rfl

theorem run_callValue_function {label : Handle} {g : FunctionObject} (hg : m.heap.function? label = some g)
    (count : Nat) :
    (callValue (.object label) count).run (m.config fs vs) = (callFunction label count).run (m.config fs vs) := by
  unfold callValue
  simp only
  rw [run_bind_of_ok (EStateM.run_get _), heap_config, Heap.function?_eq_some_iff.mp hg]

/-- A call of a function of the host reads the clock, and replaces callee and arguments by the result. -/
theorem run_callNative {args : List Value} {label : Handle} {n : NativeObject}
    (hn : m.heap.native? label = some n) :
    (do callValue (.object label) args.length; return .next : Execution Flow).run
      (m.config fs (args ++ .object label :: rest)) =
      if args.length ≠ n.arity then
        .error (.error (.arityMismatch n.arity args.length)) (m.config fs (args ++ .object label :: rest))
      else m.ticked.pushed fs rest (n.body m.clock.now args.reverse) := by
  have heq : (callValue (.object label) args.length).run (m.config fs (args ++ .object label :: rest)) =
      (callNative n args.length).run (m.config fs (args ++ .object label :: rest)) := by
    unfold callValue
    simp only
    rw [run_bind_of_ok (EStateM.run_get _), heap_config, Heap.native?_eq_some_iff.mp hn]
  by_cases harity : args.length ≠ n.arity
  · rw [if_pos harity]
    refine run_bind_of_error (heq.trans ?_)
    show (callNative n args.length).run _ = _
    unfold callNative
    rw [if_pos harity]
    rfl
  · rw [if_neg harity]
    have hcall : (callNative n args.length).run (m.config fs (args ++ .object label :: rest)) =
        (push (n.body m.clock.now args.reverse)).run (m.ticked.config fs rest) := by
      unfold callNative
      rw [if_neg harity, run_bind_of_ok run_top]
      show (if (m.config fs (args ++ .object label :: rest)).stack.size < args.length + 1 then
          throw (.fault .underflow)
        else do
          truncate ((m.config fs (args ++ .object label :: rest)).stack.size - args.length - 1)
          push (n.body m.clock.now args.reverse) : Execution Unit).run
            (m.ticked.config fs (args ++ .object label :: rest)) = _
      rw [size_config, List.length_append, List.length_cons, if_neg (by omega),
        show args.length + (rest.length + 1) - args.length - 1 = rest.length by omega]
      have hcut : (truncate rest.length).run (m.ticked.config fs (args ++ [.object label] ++ rest)) =
        .ok () (m.ticked.config fs rest) := run_truncate
      rw [List.append_assoc, List.singleton_append] at hcut
      rw [run_bind_of_ok hcut]
    rw [EStateM.run_bind, heq.trans hcall]
    exact run_push_next

theorem run_callOther {count : Nat} (hf : ∀ label, v = .object label →
    m.heap.function? label = none ∧ m.heap.native? label = none) :
    (do callValue v count; return .next : Execution Flow).run (m.config fs vs) =
      .error (.error .notCallable) (m.config fs vs) := by
  refine run_bind_of_error ?_
  cases v with
  | nil => rfl
  | bool truth => rfl
  | number x => rfl
  | object label =>
      obtain ⟨hfun, hnat⟩ := hf label rfl
      unfold callValue
      simp only
      rw [run_bind_of_ok (EStateM.run_get _), heap_config]
      split
      · next f hget => simp [Heap.function?_eq_some_iff.mpr hget] at hfun
      · next n hget => simp [Heap.native?_eq_some_iff.mpr hget] at hnat
      · rfl

/-- A return takes the frame away with all its values. -/
theorem step_return (h : m.Has handle ⟨a, .plain .ret, scope, t⟩) (fs : List Frame) (v : Value)
    (above rest : List Value) :
    ∃ journal, step.run (m.config (⟨handle, a, rest.length⟩ :: fs) (v :: (above ++ rest))) =
      if fs = [] then .ok .halt (Machine.config { m with lastValue := v } [] rest)
      else if m.limits.stackMax ≤ rest.length then .error (.error .stackOverflow) (m.config fs rest)
      else .ok .next (Machine.config { m with journal } fs (v :: rest)) := by
  obtain ⟨f, hf, hop, -⟩ := h
  refine ⟨m.journal.record (.returned fs.length), ?_⟩
  rw [run_step hf hop]
  have hreturn : returnFrom.run (m.config (⟨handle, a + 1, rest.length⟩ :: fs) (v :: (above ++ rest))) =
      (do
        truncate rest.length
        if fs.isEmpty then
          modify fun m => { m with lastValue := v }
          return .halt
        else
          push v
          modify fun m => m.record (.returned m.frames.length)
          return .next : Execution Flow).run (m.config fs (above ++ rest)) := by
    unfold returnFrom
    rw [run_bind_of_ok run_pop]
    rfl
  show returnFrom.run _ = _
  rw [hreturn, run_bind_of_ok run_truncate]
  cases fs with
  | nil => rfl
  | cons frame fs =>
      rw [if_neg (List.cons_ne_nil _ _)]
      show (do
        push v
        modify fun m => m.record (.returned m.frames.length)
        return .next : Execution Flow).run _ = _
      by_cases hmax : m.limits.stackMax ≤ rest.length
      · rw [if_pos hmax, run_bind_of_error (by rw [run_push, if_pos hmax])]
      · rw [if_neg hmax, run_bind_of_ok (by rw [run_push, if_neg hmax])]
        rfl

end Execution

end Lox
