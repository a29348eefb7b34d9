import Lox.Proofs.Compile.Written
import Lox.Proofs.Reference

/-! What a machine's values stand for. A string object stands for its characters, and a function object for
the routine that a library gives it; objects that no library knows stand for nothing. What a value stands for
does not change while the heap grows, and the machine treats values as the language treats what they stand
for. -/

namespace Lox

/-- What the functions of a heap stand for: trees, or functions of the host. -/
structure Library where
  routine : Handle → Option Routine
  host : Handle → Option HostFunction

namespace Library

/-- What a value stands for. -/
def view (L : Library) (heap : Heap) : Value → Option Datum
  | .nil => some .nil
  | .bool truth => some (.bool truth)
  | .number x => some (.number x)
  | .object handle =>
    match heap.get? handle with
    | some (.string s) => some (.text s.chars)
    | some (.function _) => (L.routine handle).map (.function handle)
    | some (.native _) => (L.host handle).map fun _ => .native handle
    | none => none

/-- The functions are the code of their routines, those that a routine declares are known too, and the
functions of the host are there. -/
structure Fits (L : Library) (heap : Heap) : Prop where
  routines : ∀ handle r, L.routine handle = some r → ∃ f code, Coded heap handle r f code
  closed : ∀ handle r, L.routine handle = some r → ∀ entry ∈ r.body.functions, L.routine entry.1 = some entry.2
  hosts : ∀ handle g, L.host handle = some g → ∃ n, heap.native? handle = some n ∧ n.arity = g.arity

variable {L : Library} {heap heap' : Heap} {v w : Value} {d e : Datum}

theorem view_mono (hh : heap.Extends heap') (h : L.view heap v = some d) : L.view heap' v = some d := by
  cases v with
  | object handle =>
      rw [view] at h ⊢
      cases ho : heap.get? handle with
      | none =>
          rw [ho] at h
          cases h
      | some o =>
          rw [hh _ _ ho]
          rw [ho] at h
          exact h
  | nil => exact h
  | bool truth => exact h
  | number x => exact h

theorem map_view_mono (hh : heap.Extends heap') {vs : List Value} {ds : List Datum}
    (h : vs.map (L.view heap) = ds.map some) : vs.map (L.view heap') = ds.map some := by
  induction vs generalizing ds with
  | nil => exact h
  | cons v vs ih =>
      cases ds with
      | nil => cases h
      | cons d ds =>
          simp only [List.map_cons, List.cons.injEq] at h ⊢
          exact ⟨view_mono hh h.1, ih h.2⟩

theorem map_local_mono (hh : heap.Extends heap') {vs : List Value} {locals : List (String × Datum)}
    (h : vs.map (L.view heap) = locals.map fun l => some l.2) :
    vs.map (L.view heap') = locals.map fun l => some l.2 := by
  have heq : (locals.map fun l => some l.2) = (locals.map (·.2)).map some := by rw [List.map_map]; rfl
  rw [heq] at h ⊢
  exact map_view_mono hh h

theorem Fits.mono (hf : L.Fits heap) (hh : heap.Extends heap') : L.Fits heap' where
  routines handle r hr := by
    obtain ⟨f, code, hc⟩ := hf.routines handle r hr
    exact ⟨f, code, hc.grow hh⟩
  closed := hf.closed
  hosts handle g hg := by
    obtain ⟨n, hn, ha⟩ := hf.hosts handle g hg
    exact ⟨n, hh.native? hn, ha⟩

/-! ### Single kinds of values -/

/-- The cases of what a value stands for. -/
inductive Shows (L : Library) (heap : Heap) : Value → Datum → Prop where
  | nil : Shows L heap .nil .nil
  | bool (truth : Bool) : Shows L heap (.bool truth) (.bool truth)
  | number (x : Float) : Shows L heap (.number x) (.number x)
  | text {handle : Handle} {s : StringObject} (ho : heap.get? handle = some (.string s)) :
      Shows L heap (.object handle) (.text s.chars)
  | function {handle : Handle} {f : FunctionObject} {r : Routine} (ho : heap.get? handle = some (.function f))
      (hr : L.routine handle = some r) : Shows L heap (.object handle) (.function handle r)
  | native {handle : Handle} {n : NativeObject} {g : HostFunction} (ho : heap.get? handle = some (.native n))
      (hg : L.host handle = some g) : Shows L heap (.object handle) (.native handle)

theorem shows_of_view (h : L.view heap v = some d) : L.Shows heap v d := by
  cases v with
  | nil =>
      cases h
      exact .nil
  | bool truth =>
      cases h
      exact .bool truth
  | number x =>
      cases h
      exact .number x
  | object handle =>
      rw [view] at h
      split at h
      · next s ho =>
          cases h
          exact .text ho
      · next f ho =>
          obtain ⟨r, hr, rfl⟩ := Option.map_eq_some_iff.mp h
          exact .function ho hr
      · next n ho =>
          obtain ⟨g, hg, rfl⟩ := Option.map_eq_some_iff.mp h
          exact .native ho hg
      · cases h

theorem view_text {handle : Handle} {s : StringObject} (hs : heap.string? handle = some s) :
    L.view heap (.object handle) = some (.text s.chars) := by
  rw [view, Heap.string?_eq_some_iff.mp hs]

theorem view_function (hf : L.Fits heap) {label : Handle} {r : Routine} (hr : L.routine label = some r) :
    L.view heap (.object label) = some (.function label r) := by
  obtain ⟨f, code, hc⟩ := hf.routines label r hr
  rw [view, Heap.function?_eq_some_iff.mp hc.object, hr]
  rfl

/-! ### The same treatment -/

theorem isFalsey_view (h : L.view heap v = some d) : v.isFalsey = d.isFalsey := by
  cases shows_of_view h <;> rfl

/-- A function is printed by the name of its routine. -/
theorem functionText_coded {handle : Handle} {r : Routine} {f : FunctionObject} {code : List Spot}
    (hc : Coded heap handle r f code) : heap.functionText f = (Datum.function handle r).display := by
  have hname := hc.name
  obtain ⟨name, params, body⟩ := r
  unfold Heap.functionText Heap.functionName?
  cases hf : f.name with
  | none =>
      cases name with
      | none => rfl
      | some name =>
          rw [hf] at hname
          cases hname
  | some nameHandle =>
      cases name with
      | none =>
          rw [hf] at hname
          cases hname
      | some name =>
          rw [hf] at hname
          obtain ⟨s, hs, rfl⟩ := hname
          simp only [Option.bind_some, hs, Option.map_some]
          rfl

theorem display_view (hf : L.Fits heap) (h : L.view heap v = some d) : heap.display v = d.display := by
  cases shows_of_view h with
  | nil => rfl
  | bool truth => rfl
  | number x => rfl
  | text ho => rw [Heap.display, ho]; rfl
  | function ho hr =>
      obtain ⟨f', code, hc⟩ := hf.routines _ _ hr
      have hobject := Heap.function?_eq_some_iff.mp hc.object
      rw [ho] at hobject
      cases hobject
      rw [Heap.display, ho]
      exact functionText_coded hc
  | native ho hg => rw [Heap.display, ho]; rfl

/-- Values are equal exactly if what they stand for is: equal texts are one object, and functions are told
apart by their handles. -/
theorem equal_view (hi : heap.Interned) (hv : L.view heap v = some d) (hw : L.view heap w = some e) :
    v.equal w = d.equal e := by
  -- objects of different kinds have different handles
  have hne : ∀ {a b : Handle} {o o' : Object}, heap.get? a = some o → heap.get? b = some o' → o ≠ o' →
      (a == b) = false := by
    intro a b o o' ha hb hoo
    rw [beq_eq_false_iff_ne]
    rintro rfl
    rw [ha] at hb
    exact hoo (Option.some.inj hb)
  cases shows_of_view hv with
  | nil => cases shows_of_view hw <;> rfl
  | bool truth => cases shows_of_view hw <;> rfl
  | number x => cases shows_of_view hw <;> rfl
  | text ho =>
      cases shows_of_view hw with
      | nil | bool | number => rfl
      | text ho' =>
          rw [Bool.eq_iff_iff, hi.equal_iff (Heap.string?_eq_some_iff.mpr ho) (Heap.string?_eq_some_iff.mpr ho')]
          simp [Datum.equal]
      | function ho' | native ho' => exact hne ho ho' nofun
  | function ho =>
      cases shows_of_view hw with
      | nil | bool | number | function => rfl
      | text ho' | native ho' => exact hne ho ho' nofun
  | native ho =>
      cases shows_of_view hw with
      | nil | bool | number | native => rfl
      | text ho' | function ho' => exact hne ho ho' nofun

end Library

end Lox
