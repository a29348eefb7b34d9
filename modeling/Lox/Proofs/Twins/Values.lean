import Lox.Proofs.Reached
import Mathlib.Logic.Relator

/-! Values of two heaps that stand for the same. Handles say where an object was allocated, so two machines that do
the same may hold different ones. Strings go together by their characters; which functions go together is given, and
what is asked of them is that they are of one kind and that a program cannot tell them apart by anything but a
call. -/

namespace Lox

/-- Optional values that go together are both there or both missing. -/
theorem rel_cases {α β : Type} {R : α → β → Prop} {a : Option α} {b : Option β} (h : Option.Rel R a b) :
    a = none ∧ b = none ∨ ∃ x y, a = some x ∧ b = some y ∧ R x y := by
  cases h with
  | none => exact .inl ⟨rfl, rfl⟩
  | some h => exact .inr ⟨_, _, rfl, rfl, h⟩

theorem rel_mono {α β : Type} {R S : α → β → Prop} {a : Option α} {b : Option β} (h : Option.Rel R a b)
    (hRS : ∀ a b, R a b → S a b) : Option.Rel S a b := by
  cases h with
  | none => exact .none
  | some h => exact .some (hRS _ _ h)

/-- The values differ in nothing but the names of objects. -/
inductive Value.Renamed (ρ : Handle → Handle → Prop) : Value → Value → Prop where
  | nil : Renamed ρ .nil .nil
  | bool (truth : Bool) : Renamed ρ (.bool truth) (.bool truth)
  | number (x : Float) : Renamed ρ (.number x) (.number x)
  | object {a b : Handle} (h : ρ a b) : Renamed ρ (.object a) (.object b)

namespace Value.Renamed

variable {ρ σ : Handle → Handle → Prop} {v v' w w' : Value}

theorem mono (h : Renamed ρ v v') (hρ : ∀ a b, ρ a b → σ a b) : Renamed σ v v' := by
  cases h with
  | nil => exact .nil
  | bool truth => exact .bool truth
  | number x => exact .number x
  | object h => exact .object (hρ _ _ h)

theorem isFalsey_eq (h : Renamed ρ v v') : v.isFalsey = v'.isFalsey := by cases h <;> rfl

theorem isNil_eq (h : Renamed ρ v v') : v.isNil = v'.isNil := by cases h <;> rfl

/-- If no object has two names, values are equal exactly if their other names are. -/
theorem equal_eq (hρ : Relator.BiUnique ρ) (hv : Renamed ρ v v') (hw : Renamed ρ w w') : v.equal w = v'.equal w' := by
  cases hv with
  | nil | bool | number => cases hw <;> rfl
  | @object a a' ha =>
      cases hw with
      | nil | bool | number => rfl
      | @object b b' hb =>
          rw [Value.equal, Value.equal, Bool.eq_iff_iff, beq_iff_eq, beq_iff_eq]
          constructor
          · rintro rfl
            exact hρ.2 ha hb
          · rintro rfl
            exact hρ.1 ha hb

end Value.Renamed

/-- A function of the host makes nothing of the names of objects: with other names for the objects among its
arguments it comes to the same result, up to those names. -/
def NativeObject.Uniform (n : NativeObject) : Prop :=
  ∀ ρ, Relator.BiUnique ρ → ∀ reading args args', List.Forall₂ (Value.Renamed ρ) args args' →
    Value.Renamed ρ (n.body reading args) (n.body reading args')

namespace Heap

/-- The handles denote strings with the same characters. -/
def SameText (h h' : Heap) (a b : Handle) : Prop :=
  ∃ s t, h.string? a = some s ∧ h'.string? b = some t ∧ s.chars = t.chars

theorem SameText.mono {h h' k k' : Heap} {a b : Handle} (hab : SameText h h' a b) (hk : h.Extends k)
    (hk' : h'.Extends k') : SameText k k' a b := by
  obtain ⟨s, t, hs, ht, hchars⟩ := hab
  exact ⟨s, t, hk.string? hs, hk'.string? ht, hchars⟩

/-- The names, if there are any, are strings with the same characters. -/
inductive SameName (h h' : Heap) : Option Handle → Option Handle → Prop where
  | none : SameName h h' none none
  | some {a b : Handle} (hab : h.SameText h' a b) : SameName h h' (some a) (some b)

theorem SameName.mono {h h' k k' : Heap} {a b : Option Handle} (hab : SameName h h' a b) (hk : h.Extends k)
    (hk' : h'.Extends k') : SameName k k' a b := by
  cases hab with
  | none => exact .none
  | some hab => exact .some (hab.mono hk hk')

theorem SameName.functionName?_eq {h h' : Heap} {f g : FunctionObject} (hname : h.SameName h' f.name g.name) :
    h.functionName? f = h'.functionName? g := by
  unfold functionName?
  generalize f.name = a at hname
  generalize g.name = b at hname
  cases hname with
  | none => rfl
  | some hab =>
      obtain ⟨s, t, hs, ht, hst⟩ := hab
      rw [Option.bind_some, Option.bind_some, hs, ht, Option.map_some, Option.map_some, hst]

end Heap

/-- How two machines that run side by side go together. -/
structure Pairing where
  /-- The functions that go together, compiled ones and those of the host. -/
  twins : Handle → Handle → Prop
  /-- The places in the code of two functions where the calls of them go on alike. -/
  abreast : Handle → Nat → Handle → Nat → Prop
  /-- The number of values at the bottom of the stack that need not go together. -/
  hidden : Nat := 0

namespace Pairing

variable (T : Pairing) {h h' k k' : Heap} {a b : Handle} {v v' w w' : Value}

/-- The handles denote strings with the same characters, or functions that go together. -/
def Same (h h' : Heap) (a b : Handle) : Prop := T.twins a b ∨ h.SameText h' a b

/-- The values stand for the same. -/
abbrev Alike (h h' : Heap) (v v' : Value) : Prop := v.Renamed (T.Same h h') v'

/-- The functions are one and the same function of the host, or compiled functions that look alike and start
alike. -/
inductive Objects (h h' : Heap) (a b : Handle) : Prop where
  | native {n : NativeObject} (ha : h.native? a = some n) (hb : h'.native? b = some n) (hn : n.Uniform)
  | function {f g : FunctionObject} (ha : h.function? a = some f) (hb : h'.function? b = some g)
      (arity : f.arity = g.arity) (name : h.SameName h' f.name g.name) (start : T.abreast a 0 b 0)

/-- The heaps hold the functions that go together. -/
structure Links (h h' : Heap) : Prop where
  left : h.Interned
  right : h'.Interned
  unique : Relator.BiUnique T.twins
  objects : ∀ a b, T.twins a b → T.Objects h h' a b

variable {T}

theorem Same.mono (hab : T.Same h h' a b) (hk : h.Extends k) (hk' : h'.Extends k') : T.Same k k' a b :=
  hab.imp_right fun hs => hs.mono hk hk'

theorem Alike.mono (hv : T.Alike h h' v v') (hk : h.Extends k) (hk' : h'.Extends k') : T.Alike k k' v v' :=
  Value.Renamed.mono hv fun _ _ hab => hab.mono hk hk'

theorem Objects.mono (hab : T.Objects h h' a b) (hk : h.Extends k) (hk' : h'.Extends k') : T.Objects k k' a b := by
  cases hab with
  | native ha hb hn => exact .native (hk.native? ha) (hk'.native? hb) hn
  | function ha hb arity name start =>
      exact .function (hk.function? ha) (hk'.function? hb) arity (name.mono hk hk') start

theorem Objects.no_string (hab : T.Objects h h' a b) : h.string? a = none ∧ h'.string? b = none := by
  cases hab with
  | native ha hb hn => exact ⟨by simp [Heap.string?, Heap.native?_eq_some_iff.mp ha],
      by simp [Heap.string?, Heap.native?_eq_some_iff.mp hb]⟩
  | function ha hb => exact ⟨by simp [Heap.string?, Heap.function?_eq_some_iff.mp ha],
      by simp [Heap.string?, Heap.function?_eq_some_iff.mp hb]⟩

theorem Objects.live (hab : T.Objects h h' a b) : (∃ o, h.get? a = some o) ∧ ∃ o, h'.get? b = some o := by
  cases hab with
  | native ha hb => exact ⟨⟨_, Heap.native?_eq_some_iff.mp ha⟩, _, Heap.native?_eq_some_iff.mp hb⟩
  | function ha hb => exact ⟨⟨_, Heap.function?_eq_some_iff.mp ha⟩, _, Heap.function?_eq_some_iff.mp hb⟩

namespace Links

variable (hl : T.Links h h')

include hl

theorem grow (hg : h.Grows k) (hg' : h'.Grows k') : T.Links k k' :=
  ⟨hg.interned hl.left, hg'.interned hl.right, hl.unique, fun a b hab => (hl.objects a b hab).mono hg.keeps hg'.keeps⟩

/-- No object has two others that it goes together with. -/
theorem unique_same : Relator.BiUnique (T.Same h h') := by
  constructor
  · rintro a b c (hac | ⟨s, t, hs, ht, hst⟩) (hbc | ⟨s', t', hs', ht', hst'⟩)
    · exact hl.unique.1 hac hbc
    · simp [(hl.objects _ _ hac).no_string.2] at ht'
    · simp [(hl.objects _ _ hbc).no_string.2] at ht
    · rw [ht] at ht'
      cases ht'
      exact hl.left.unique hs hs' (hst.trans hst'.symm)
  · rintro a b c (hab | ⟨s, t, hs, ht, hst⟩) (hac | ⟨s', t', hs', ht', hst'⟩)
    · exact hl.unique.2 hab hac
    · simp [(hl.objects _ _ hab).no_string.1] at hs'
    · simp [(hl.objects _ _ hac).no_string.1] at hs
    · rw [hs] at hs'
      cases hs'
      exact hl.right.unique ht ht' (hst.symm.trans hst')

theorem equal_eq (hv : T.Alike h h' v v') (hw : T.Alike h h' w w') : v.equal w = v'.equal w' :=
  Value.Renamed.equal_eq hl.unique_same hv hw

/-- A handle denotes a string if the other one does. -/
theorem string? (hab : T.Same h h' a b) :
    (∃ s t, h.string? a = some s ∧ h'.string? b = some t ∧ s.chars = t.chars) ∨
      T.Objects h h' a b ∧ h.string? a = none ∧ h'.string? b = none := by
  rcases hab with hab | hab
  · exact .inr ⟨hl.objects _ _ hab, (hl.objects _ _ hab).no_string⟩
  · exact .inl hab

/-- Values that stand for the same are printed alike. -/
theorem display_eq (hv : T.Alike h h' v v') : h.display v = h'.display v' := by
  cases hv with
  | nil | bool | number => rfl
  | @object a b hab =>
      simp only [Heap.display]
      rcases hab with hab | ⟨s, t, hs, ht, hst⟩
      · cases hl.objects _ _ hab with
        | native ha hb => simp only [Heap.native?_eq_some_iff.mp ha, Heap.native?_eq_some_iff.mp hb]
        | function ha hb arity name =>
            simp only [Heap.function?_eq_some_iff.mp ha, Heap.function?_eq_some_iff.mp hb, Heap.functionText,
              name.functionName?_eq]
      · simp only [Heap.string?_eq_some_iff.mp hs, Heap.string?_eq_some_iff.mp ht, hst]

end Links

end Pairing

end Lox
