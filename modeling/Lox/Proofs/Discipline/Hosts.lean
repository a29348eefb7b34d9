import Lox.Proofs.Discipline.Frames
import Lox.Proofs.Twins.Sessions

/-! Hosts that keep a machine tidy. A function of the host that makes nothing of the names of objects cannot come by
an object that it was not given. So whatever such a host does with a machine, what can be reached from the machine's
global variables has been made by accepted sources and by the host. -/

namespace Lox

open Machine

/-- The function returns no object but one that it was given, so that its result is known. -/
theorem NativeObject.Uniform.result {n : NativeObject} (hn : n.Uniform) (heap : Heap) (made : Handle → Prop)
    (reading : Float) (args : List Value) :
    n.body reading args ∈ args ∨ (n.body reading args).Known heap made := by
  -- with the objects among the arguments as the only names, the result has a name only if it is among them
  let ρ : Handle → Handle → Prop := fun a b => a = b ∧ Value.object a ∈ args
  have hunique : Relator.BiUnique ρ := by
    constructor
    · rintro a b c ⟨rfl, -⟩ ⟨rfl, -⟩
      rfl
    · rintro a b c ⟨rfl, -⟩ ⟨rfl, -⟩
      rfl
  have hargs : List.Forall₂ (Value.Renamed ρ) args args := by
    refine List.forall₂_same.mpr fun v hv => ?_
    cases v with
    | nil => exact .nil
    | bool truth => exact .bool truth
    | number x => exact .number x
    | object k => exact .object ⟨rfl, hv⟩
  have hresult := hn ρ hunique reading args args hargs
  generalize n.body reading args = v at hresult ⊢
  cases hresult with
  | nil | bool | number => exact .inr trivial
  | object h => exact .inl h.2

namespace Machine

/-- The functions of the host make nothing of the names of objects. -/
def UniformHost (m : Machine) : Prop := ∀ k n, m.heap.native? k = some n → n.Uniform

variable {m m' : Machine} {routine : Handle → Option Routine}

theorem UniformHost.same (h : m.UniformHost) (hs : m.heap.SameHost m'.heap) : m'.UniformHost :=
  fun k n hn => h k n (hs k n hn)

theorem UniformHost.known (h : m.UniformHost) (made : Handle → Prop) : m.KnownHost made :=
  fun k n hn => (h k n hn).result m.heap made

theorem native?_free (m : Machine) (k : Handle) : m.free.2.heap.native? k = none := by
  simp [Machine.free, Heap.native?]

theorem sameHost_compile {source : String} {r : Except CompileError Handle} (hc : m.compile source = .ok (r, m')) :
    m.heap.SameHost m'.heap := by
  obtain ⟨c, hrun, -, status, rfl⟩ := compile_eq_ok hc
  exact (changes_compile hrun).sameHost

theorem sameHost_interpret {source : String} {budget : Nat} {r : Except LoxError Unit}
    (hi : m.interpret source budget = .ok (r, m')) : m.heap.SameHost m'.heap := by
  rcases interpret_eq_ok hi with ⟨e, hc, -⟩ | ⟨script, m₁, result, hc, hrun, -⟩
  · exact sameHost_compile hc
  · have hmoves := (moves_runFunction m₁ script budget).changes.sameHost
    rw [hrun] at hmoves
    exact (sameHost_compile hc).trans hmoves

/-- Whatever such a host has done with a machine, it is tidy. -/
theorem Hosted.tidy (h : m.Hosted) : (∃ routine, m.Tidy routine) ∧ m.UniformHost := by
  induction h with
  | create limits printCode clock journal =>
      refine ⟨(Lived.create ..).tidy (knownGlobals_create _ _ _ _) (knownHost_create _ _ _ _), fun k n hn => ?_⟩
      obtain ⟨-, rfl⟩ := native?_create_iff.mp hn
      exact uniform_clockNative
  | @native m _ n hn ih =>
      obtain ⟨⟨routine, htidy⟩, huniform⟩ := ih
      have hall : (m.defineNative n).UniformHost := by
        intro k n' hn'
        rcases native?_defineNative htidy.sound.heap hn' with rfl | hold
        · exact hn
        · exact huniform k n' hold
      exact ⟨⟨routine, htidy.defineNative (hn.result _ _)⟩, hall⟩
  | @text m _ chars ih =>
      obtain ⟨⟨routine, htidy⟩, huniform⟩ := ih
      obtain ⟨journal, heq⟩ := m.intern_turn chars
      rw [heq]
      have hg := m.heap.grows_intern chars
      have hsame := Heap.SameHost.intern m.heap chars
      exact ⟨⟨routine, htidy.grow hg rfl hsame (htidy.collects.grow hg) fun _ r hr => ⟨r, hr⟩⟩, huniform.same hsame⟩
  | @compile m m' _ source r hc ih =>
      obtain ⟨⟨routine, htidy⟩, huniform⟩ := ih
      refine ⟨?_, huniform.same (sameHost_compile hc)⟩
      cases r with
      | error e => exact ⟨routine, htidy.reject hc⟩
      | ok script =>
          obtain ⟨p, routine', htidy', -⟩ := htidy.accept hc
          exact ⟨routine', htidy'⟩
  | @interpret m m' _ source budget r hr ih =>
      obtain ⟨⟨routine, htidy⟩, huniform⟩ := ih
      exact ⟨(htidy.interpret hr).1, huniform.same (sameHost_interpret hr)⟩
  | @own m _ limits printCode clock output status journal ih =>
      obtain ⟨⟨routine, htidy⟩, huniform⟩ := ih
      have hsound : Machine.Sound { m with limits, printCode, clock, output, status, journal } :=
        htidy.sound.grow (.refl _) rfl
      have hall : Machine.UniformHost { m with limits, printCode, clock, output, status, journal } := huniform
      exact ⟨⟨routine, hsound, htidy.collects, htidy.globals, hall.known _⟩, huniform⟩
  | @reset m _ ih =>
      obtain ⟨⟨routine, htidy⟩, huniform⟩ := ih
      exact ⟨⟨routine, htidy.congr rfl rfl⟩, huniform⟩
  | @free m _ ih =>
      have hall : m.free.2.UniformHost := fun k n hn => by simp [native?_free] at hn
      refine ⟨⟨_, sound_free m, (Collects.empty _).routed, fun name v hv => ?_, hall.known _⟩, hall⟩
      rw [global?_of_empty rfl] at hv
      cases hv

end Machine

end Lox
