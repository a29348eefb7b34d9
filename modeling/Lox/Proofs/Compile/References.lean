import Lox.Proofs.Compile.Pools

/-! What compiled functions refer to. A handle is a number, and nothing about it says whether there still is an object
in that place; so what keeps a heap in order is that no live function refers to a place without one. The compiler
makes a function of constants that are alive when they are added, and of a name that it has just interned, and an
object once made stays. This holds whether the source is accepted or not. -/

namespace Lox

/-- If the value is an object, then that object is alive. -/
def Value.Live (heap : Heap) (v : Value) : Prop := ∀ handle, v = .object handle → ∃ o, heap.get? handle = some o

namespace Value.Live

variable {heap heap' : Heap} {v : Value}

theorem nil : Value.nil.Live heap := nofun

theorem bool (truth : Bool) : (Value.bool truth).Live heap := nofun

theorem number (x : Float) : (Value.number x).Live heap := nofun

theorem object {handle : Handle} {o : Object} (h : heap.get? handle = some o) : (Value.object handle).Live heap := by
  rintro _ ⟨⟩
  exact ⟨o, h⟩

theorem mono (h : v.Live heap) (hh : heap.Extends heap') : v.Live heap' := by
  intro handle hv
  obtain ⟨o, ho⟩ := h handle hv
  exact ⟨o, hh handle o ho⟩

end Value.Live

/-- The constants of a function are alive, and its name is a string. -/
structure FunctionObject.Whole (heap : Heap) (f : FunctionObject) : Prop where
  constants : ∀ i v, f.chunk.constant? i = some v → v.Live heap
  name : ∀ handle, f.name = some handle → ∃ s, heap.string? handle = some s

theorem FunctionObject.Whole.mono {heap heap' : Heap} {f : FunctionObject} (h : f.Whole heap)
    (hh : heap.Extends heap') : f.Whole heap' where
  constants i v hv := (h.constants i v hv).mono hh
  name handle hn := by
    obtain ⟨s, hs⟩ := h.name handle hn
    exact ⟨s, hh.string? hs⟩

/-- A function without code has no constants. -/
theorem FunctionObject.Whole.of_empty {heap : Heap} {f : FunctionObject} (hchunk : f.chunk = .empty)
    (hname : ∀ handle, f.name = some handle → ∃ s, heap.string? handle = some s) : f.Whole heap := by
  refine ⟨fun i v hv => ?_, hname⟩
  rw [hchunk] at hv
  simp [Chunk.constant?, Buffer.get?, Buffer.empty, Chunk.empty] at hv

/-- A function of the host returns no object but one that it is given. -/
def NativeObject.Honest (n : NativeObject) : Prop :=
  ∀ reading args handle, n.body reading args = .object handle → .object handle ∈ args

namespace Heap

/-- No live function refers to an object that is not alive, and none of the host makes up objects. -/
structure Closed (h : Heap) : Prop where
  functions : ∀ {handle f}, h.function? handle = some f → f.Whole h
  natives : ∀ {handle n}, h.native? handle = some n → n.Honest

variable {h : Heap}

theorem closed_empty : Closed empty where
  functions hf := by simp [function?] at hf
  natives hn := by simp [native?] at hn

theorem closed_free (h : Heap) : Closed h.free.1 where
  functions hf := by simp [function?] at hf
  natives hn := by simp [native?] at hn

namespace Closed

variable (hc : h.Closed)

include hc

theorem intern (chars : String) : (h.intern chars).1.Closed where
  functions hf := (hc.functions (function?_of_intern hf)).mono (h.grows_intern chars).keeps
  natives hn := by
    rcases get?_of_intern (native?_eq_some_iff.mp hn) with hold | ⟨s, hs⟩
    · exact hc.natives (native?_eq_some_iff.mpr hold)
    · cases hs

theorem allocate {o : Object} (hf : ∀ f, o = .function f → f.Whole h) (hn : ∀ n, o = .native n → n.Honest) :
    (h.allocate o).1.Closed where
  functions {handle f} hfun := by
    refine FunctionObject.Whole.mono ?_ (extends_allocate h o)
    rw [function?_eq_some_iff, get?_allocate] at hfun
    split at hfun
    · exact hf f (Option.some.inj hfun)
    · exact hc.functions (function?_eq_some_iff.mpr hfun)
  natives {handle n} hnat := by
    rw [native?_eq_some_iff, get?_allocate] at hnat
    split at hnat
    · exact hn n (Option.some.inj hnat)
    · exact hc.natives (native?_eq_some_iff.mpr hnat)

end Closed

end Heap

/-- The function that a body becomes. -/
def Body.function (b : Body) : FunctionObject := { arity := b.arity, chunk := b.chunk, name := b.name }

namespace CompileState

/-- The finished functions and the unfinished ones refer to live objects only. -/
structure Closed (s : CompileState) : Prop where
  heap : s.heap.Closed
  body : s.body.function.Whole s.heap
  enclosing : ∀ b ∈ s.enclosing, b.function.Whole s.heap

namespace Closed

variable {s t : CompileState} (hs : s.Closed)

include hs

/-- Neither the heap changes nor what the functions refer to. -/
theorem congr (hheap : t.heap = s.heap) (hconstants : t.body.chunk.constants = s.body.chunk.constants)
    (hname : t.body.name = s.body.name) (henclosing : t.enclosing = s.enclosing) : t.Closed := by
  refine ⟨hheap ▸ hs.heap, ⟨fun i v hv => ?_, fun handle hn => ?_⟩, henclosing ▸ hheap ▸ hs.enclosing⟩
  · have hv : t.body.chunk.constants.get? i = some v := hv
    rw [hconstants] at hv
    rw [hheap]
    exact hs.body.constants i v hv
  · have hn : t.body.name = some handle := hn
    rw [hname] at hn
    rw [hheap]
    exact hs.body.name handle hn

theorem withConstant {v : Value} (hv : v.Live s.heap) : (s.withConstant v).Closed := by
  refine ⟨hs.heap, ⟨fun i w hw => ?_, hs.body.name⟩, hs.enclosing⟩
  have hw : (s.body.chunk.constants.push v).get? i = some w := hw
  simp only [Buffer.get?, Buffer.items_push, Array.getElem?_push] at hw
  split at hw
  · exact Option.some.inj hw ▸ hv
  · exact hs.body.constants i w hw

theorem intern (chars : String) : (s.intern chars).2.Closed := by
  obtain ⟨hbody, -, -, -, henclosing, -⟩ := s.intern_frame chars
  obtain ⟨hheap, -⟩ := s.heap_intern chars
  have hkeeps := (s.heap.grows_intern chars).keeps
  refine ⟨hheap ▸ hs.heap.intern chars, ?_, ?_⟩
  · rw [hheap, hbody]
    exact hs.body.mono hkeeps
  · rw [hheap, henclosing]
    exact fun b hb => (hs.enclosing b hb).mono hkeeps

theorem allocate_body : (s.heap.allocate (.function s.body.function)).1.Closed :=
  hs.heap.allocate (fun _ hf => Object.function.inj hf ▸ hs.body) nofun

theorem close : s.closeFunction.2.Closed := by
  have hheap : s.closeFunction.2.heap = (s.heap.allocate (.function s.body.function)).1 := s.heap_closeFunction
  have hkeeps := s.heap.extends_allocate (.function s.body.function)
  obtain ⟨body, enclosing, journal, heq, hcons⟩ := s.closeFunction_eq
  refine ⟨hheap ▸ hs.allocate_body, ?_, ?_⟩
  · rw [hheap]
    cases henc : s.enclosing with
    | nil =>
        have hempty : s.closeFunction.2.body = {} := by
          unfold closeFunction allocateFunction record
          rw [henc]
          simp only
          split
          · unfold listCode
            split <;> rfl
          · rfl
        rw [hempty]
        exact .of_empty rfl nofun
    | cons outer others =>
        obtain ⟨rfl, rfl⟩ := hcons outer others henc
        rw [heq]
        exact (hs.enclosing _ (henc ▸ List.mem_cons_self)).mono hkeeps
  · intro b hb
    rw [hheap]
    exact (hs.enclosing b (s.closeFunction_frame.2 b hb)).mono hkeeps

theorem move (m : s.Move t) : t.Closed := by
  cases m with
  | advance =>
      obtain ⟨hbody, henclosing, hheap, -⟩ := s.advance_frame
      exact hs.congr hheap (by rw [hbody]) (by rw [hbody]) henclosing
  | complain token complaint =>
      obtain ⟨hbody, henclosing, -⟩ := s.complainAt_frame token complaint
      refine hs.congr ?_ (by rw [hbody]) (by rw [hbody]) henclosing
      unfold complainAt
      split <;> rfl
  | calm | scope | parameter => exact hs.congr rfl rfl rfl rfl
  | code c he => exact hs.congr rfl he.constants rfl rfl
  | number x => exact hs.withConstant (.number x)
  | text chars => exact hs.intern chars
  | literal chars =>
      obtain ⟨hheap, hhandle⟩ := s.heap_intern chars
      obtain ⟨text, htext⟩ := s.heap.string?_intern chars
      refine (hs.intern chars).withConstant ?_
      rw [hheap, hhandle]
      exact .object (Heap.string?_eq_some_iff.mp htext)
  | opened name hname =>
      refine ⟨hs.heap, .of_empty rfl ?_, List.forall_mem_cons.mpr ⟨hs.body, hs.enclosing⟩⟩
      rintro _ ⟨⟩
      exact hname
  | closed =>
      obtain ⟨body, enclosing, journal, heq, -⟩ := s.closeFunction_eq
      refine hs.close.withConstant ?_
      rw [heq]
      exact .object (Heap.get?_allocate_self s.heap _)

theorem moves (hm : Moves s t) : t.Closed := hm.keeps (fun m hs => hs.move m) hs

end Closed

end CompileState

/-- A compilation leaves no function behind that refers to an object that is not alive, and the script is one of
them. -/
theorem compile_closed {source : String} {heap : Heap} {printCode : Bool} {journal : Journal} {c : Compilation}
    (h : compile source heap printCode journal = .ok c) (hclosed : heap.Closed) :
    c.heap.Closed ∧ ∀ script, c.result = .ok script → ∃ f, c.heap.function? script = some f := by
  obtain ⟨s, hrun, rfl⟩ := compile_eq_ok h
  have hstart : CompileState.Closed { rest := tokenize source, heap, printCode, journal } :=
    ⟨hclosed, .of_empty rfl (fun _ h => by cases h), fun _ h => by cases h⟩
  have hs := hstart.moves (Compiler.byMoves_read _ _ _ _ hrun)
  unfold CompileState.finish
  split
  · simp only [CompileState.allocateFunction, CompileState.heap_listCode]
    refine ⟨hs.allocate_body, ?_⟩
    rintro _ ⟨⟩
    exact ⟨_, Heap.function?_eq_some_iff.mpr (Heap.get?_allocate_self s.heap _)⟩
  · refine ⟨hs.heap, fun script hscript => ?_⟩
    cases hscript

end Lox
