import Lox.Proofs.Compile.References
import Lox.Proofs.Machine.Config
import Lox.Proofs.Machine.Safety

/-! No handle dangles. A machine holds handles in many places: on its stack, in its active calls, in the globals, in
the table of interned strings and inside of its functions. Handles are given out again after everything has been
freed, so one that had been forgotten anywhere would denote another object. Each operation of a host and each
instruction keeps all of them alive, also where it fails, and freeing leaves none. -/

namespace Lox

namespace Machine

/-- Everything that the machine refers to is alive, and of the kind that the place asks for. -/
structure Closed (m : Machine) : Prop where
  sound : m.Sound
  heap : m.heap.Closed
  stack : ∀ v ∈ m.stack, v.Live m.heap
  frames : ∀ frame ∈ m.frames, ∃ f, m.heap.function? frame.function = some f
  lastValue : m.lastValue.Live m.heap
  globals : ∀ key v, Table.Holds m.globals.slots key v → v.Live m.heap

namespace Closed

variable {m m' : Machine} (hm : m.Closed)

include hm

/-- What a run has of its own may change, if it stays alive. -/
theorem own (hheap : m'.heap = m.heap) (hglobals : m'.globals = m.globals) (hstack : ∀ v ∈ m'.stack, v.Live m.heap)
    (hframes : ∀ frame ∈ m'.frames, ∃ f, m.heap.function? frame.function = some f)
    (hlast : m'.lastValue.Live m.heap) : m'.Closed :=
  ⟨hm.sound.grow (hheap ▸ .refl _) hglobals, hheap ▸ hm.heap, hheap ▸ hstack, hheap ▸ hframes, hheap ▸ hlast,
    hglobals ▸ hheap ▸ hm.globals⟩

/-- What belongs to the host may change. -/
theorem congr (hheap : m'.heap = m.heap) (hglobals : m'.globals = m.globals) (hstack : m'.stack = m.stack)
    (hframes : m'.frames = m.frames) (hlast : m'.lastValue = m.lastValue) : m'.Closed :=
  hm.own hheap hglobals (hstack ▸ hm.stack) (hframes ▸ hm.frames) (hlast ▸ hm.lastValue)

theorem withStack {stack : Array Value} (hstack : ∀ v ∈ stack, v.Live m.heap) : Closed { m with stack } :=
  hm.own rfl rfl hstack hm.frames hm.lastValue

theorem withFrames {frames : List Frame} (hframes : ∀ frame ∈ frames, ∃ f, m.heap.function? frame.function = some f) :
    Closed { m with frames } :=
  hm.own rfl rfl hm.stack hframes hm.lastValue

/-- The heap may grow. -/
theorem grow (hg : m.heap.Grows m'.heap) (hclosed : m'.heap.Closed) (hglobals : m'.globals = m.globals)
    (hstack : m'.stack = m.stack) (hframes : m'.frames = m.frames) (hlast : m'.lastValue = m.lastValue) :
    m'.Closed where
  sound := hm.sound.grow hg hglobals
  heap := hclosed
  stack := hstack ▸ fun v hv => (hm.stack v hv).mono hg.keeps
  frames := hframes ▸ fun frame hframe => by
    obtain ⟨f, hf⟩ := hm.frames frame hframe
    exact ⟨f, hg.keeps.function? hf⟩
  lastValue := hlast ▸ hm.lastValue.mono hg.keeps
  globals := hglobals ▸ fun key v hv => (hm.globals key v hv).mono hg.keeps

/-- A variable may take a value that is alive. -/
theorem define {key : Key} (hk : m.heap.key? key.handle = some key) {v : Value} (hv : v.Live m.heap) :
    Closed { m with globals := (m.globals.set key v).1 } := by
  obtain ⟨-, hstored, -⟩ := hm.sound.globals.set_spec (hm.sound.agrees hk) v
  refine ⟨hm.sound.define hk v, hm.heap, hm.stack, hm.frames, hm.lastValue, fun k w hw => ?_⟩
  rcases (hstored k w).mp hw with ⟨-, rfl⟩ | ⟨-, hold⟩
  · exact hv
  · exact hm.globals k w hold

theorem drop {key : Key} (hk : m.heap.key? key.handle = some key) :
    Closed { m with globals := (m.globals.erase key).1 } := by
  obtain ⟨-, hholds, -⟩ := hm.sound.globals.erase_spec (hm.sound.agrees hk)
  exact ⟨hm.sound.drop hk, hm.heap, hm.stack, hm.frames, hm.lastValue,
    fun k w hw => hm.globals k w ((hholds k w).mp hw).2⟩

theorem intern (chars : String) :
    (m.intern chars).2.Closed ∧ ∃ s, (m.intern chars).2.heap.string? (m.intern chars).1 = some s := by
  have hgrown : Closed { m with heap := (m.heap.intern chars).1 } :=
    hm.grow (Heap.grows_intern _ _) (hm.heap.intern chars) rfl rfl rfl rfl
  unfold Machine.intern
  simp only
  split
  · exact ⟨hgrown.congr rfl rfl rfl rfl rfl, m.heap.string?_intern chars⟩
  · exact ⟨hgrown, m.heap.string?_intern chars⟩

end Closed

end Machine

namespace Execution

open Machine

variable {α β : Type} {m : Machine}

/-- The execution leaves a closed machine behind, whether it stops or not, and what it comes to is as said. -/
def Keeps (P : α → Machine → Prop) (x : Execution α) (m : Machine) : Prop :=
  (after x m).Closed ∧ ∀ a m', x.run m = .ok a m' → P a m'

/-- The value that has been found is alive. -/
def Alive (v : Value) (m : Machine) : Prop := v.Live m.heap

/-- Nothing is said about what the execution comes to. -/
def Anything {α : Type} (_ : α) (_ : Machine) : Prop := True

namespace Keeps

variable {P : α → Machine → Prop} {Q : β → Machine → Prop}

theorem bind {x : Execution α} {f : α → Execution β} (hx : Keeps P x m)
    (hf : ∀ a m', m'.Closed → P a m' → Keeps Q (f a) m') : Keeps Q (x >>= f) m := by
  obtain ⟨hclosed, hpost⟩ := hx
  unfold Execution.after at hclosed
  unfold Keeps
  rw [after_bind]
  cases h : x.run m with
  | ok a m' =>
      rw [h] at hclosed
      refine ⟨(hf a m' hclosed (hpost a m' h)).1, fun b m'' hrun => ?_⟩
      rw [run_bind_of_ok h] at hrun
      exact (hf a m' hclosed (hpost a m' h)).2 b m'' hrun
  | error e m' =>
      rw [h] at hclosed
      refine ⟨hclosed, fun b m'' hrun => ?_⟩
      rw [run_bind_of_error h] at hrun
      cases hrun

theorem pure (hm : m.Closed) {a : α} (ha : P a m) : Keeps P (pure a) m := by
  refine ⟨hm, ?_⟩
  rintro _ _ ⟨⟩
  exact ha

theorem throw (hm : m.Closed) (e : Stop) : Keeps P (throw e : Execution α) m := by
  refine ⟨hm, fun a m' hrun => ?_⟩
  have hstop : EStateM.Result.error e m = .ok a m' := hrun
  cases hstop

theorem fail (hm : m.Closed) (kind : ErrorKind) : Keeps P (fail kind : Execution α) m := throw hm _

theorem get {f : Machine → Execution α} (h : Keeps P (f m) m) : Keeps P (get >>= f) m := h

theorem modify {f : Machine → Machine} (h : (f m).Closed) : Keeps Anything (modify f : Execution PUnit) m :=
  ⟨h, fun _ _ _ => trivial⟩

theorem next {x : Execution Unit} {Q : Unit → Machine → Prop} (h : Keeps Q x m) :
    Keeps Anything (do x; return Flow.next) m :=
  h.bind fun _ _ hm' _ => .pure hm' trivial

end Keeps

/-! ### The stack -/

theorem mem_of_mem_extract {xs : Array Value} {start stop : Nat} {v : Value} (h : v ∈ xs.extract start stop) :
    v ∈ xs := by
  rw [Array.mem_def, Array.toList_extract] at h
  exact Array.mem_def.mpr (List.mem_of_mem_drop (List.mem_of_mem_take h))

theorem keeps_push (hm : m.Closed) {v : Value} (hv : v.Live m.heap) : Keeps Anything (push v) m := by
  apply Keeps.get
  split
  · exact .fail hm _
  · refine .modify (hm.withStack fun w hw => ?_)
    rcases Array.mem_push.mp hw with hw | rfl
    · exact hm.stack w hw
    · exact hv

theorem keeps_pop (hm : m.Closed) : Keeps Alive pop m := by
  apply Keeps.get
  split
  · exact .fail hm _
  · next v hv =>
      have hpopped : Closed { m with stack := m.stack.pop } :=
        by
        refine hm.withStack fun w hw => hm.stack w ?_
        rw [Array.mem_def, Array.toList_pop] at hw
        exact Array.mem_def.mpr (List.mem_of_mem_dropLast hw)
      refine ⟨hpopped, ?_⟩
      rintro _ _ ⟨⟩
      exact hm.stack v (Array.mem_of_back? hv)

theorem keeps_popTwo (hm : m.Closed) : Keeps Anything popTwo m :=
  (keeps_pop hm).bind fun _ _ hm₁ _ => (keeps_pop hm₁).bind fun _ _ hm₂ _ => .pure hm₂ trivial

theorem keeps_peek (hm : m.Closed) (n : Nat) : Keeps Alive (peek n) m := by
  apply Keeps.get
  split
  · exact .fail hm _
  · split
    · next v hv => exact .pure hm (hm.stack v (Array.mem_of_getElem? hv))
    · exact .throw hm _

theorem keeps_top (hm : m.Closed) (n : Nat) :
    Keeps (fun values m => ∀ v ∈ values, Value.Live m.heap v) (top n) m := by
  apply Keeps.get
  split
  · exact .fail hm _
  · exact .pure hm fun v hv => hm.stack v (mem_of_mem_extract (Array.mem_toList_iff.mp hv))

theorem keeps_truncate (hm : m.Closed) (size : Nat) : Keeps Anything (truncate size) m := by
  refine .modify (hm.withStack fun v hv => hm.stack v ?_)
  rw [Array.shrink_eq_take] at hv
  exact mem_of_mem_extract hv

theorem keeps_slotIndex (hm : m.Closed) (slot : Nat) : Keeps Anything (slotIndex slot) m := by
  apply Keeps.get
  split
  · exact .fail hm _
  · split
    · exact .pure hm trivial
    · exact .fail hm _

theorem keeps_getSlot (hm : m.Closed) (slot : Nat) : Keeps Alive (getSlot slot) m := by
  refine (keeps_slotIndex hm slot).bind fun index m₁ hm₁ _ => .get ?_
  split
  · next v hv => exact .pure hm₁ (hm₁.stack v (Array.mem_of_getElem? hv))
  · exact .throw hm₁ _

theorem keeps_setSlot (hm : m.Closed) (slot : Nat) {v : Value} (hv : v.Live m.heap) :
    Keeps Anything (setSlot slot v) m := by
  have hslot : Keeps (fun _ m' => m' = m) (slotIndex slot) m :=
    ⟨(keeps_slotIndex hm slot).1, fun _ _ h => (lt_of_slotIndex h).1⟩
  refine hslot.bind fun index m₁ hm₁ heq => .modify (hm₁.withStack fun w hw => ?_)
  subst heq
  obtain ⟨i, hi⟩ := Array.mem_iff_getElem?.mp hw
  rw [Array.getElem?_setIfInBounds] at hi
  split at hi
  · split at hi
    · exact Option.some.inj hi ▸ hv
    · cases hi
  · exact hm₁.stack w (Array.mem_of_getElem? hi)

/-! ### Calls -/

theorem keeps_callFunction (hm : m.Closed) (handle : Handle) (count : Nat) :
    Keeps Anything (callFunction handle count) m := by
  apply Keeps.get
  split
  · exact .fail hm _
  · next f hf =>
      split
      · exact .fail hm _
      · split
        · exact .fail hm _
        · split
          · exact .fail hm _
          · refine .modify ((hm.withFrames ?_).congr rfl rfl rfl rfl rfl)
            exact List.forall_mem_cons.mpr ⟨⟨f, hf⟩, hm.frames⟩

theorem keeps_readClock (hm : m.Closed) : Keeps (fun _ m' => m'.heap = m.heap) readClock m :=
  ⟨hm.congr rfl rfl rfl rfl rfl, by rintro _ _ ⟨⟩; rfl⟩

/-- The result is no object or one of the arguments, which are alive. -/
theorem keeps_callNative (hm : m.Closed) {native : NativeObject} (hnative : native.Honest) (count : Nat) :
    Keeps Anything (callNative native count) m := by
  unfold callNative
  split
  · exact .fail hm _
  · refine (keeps_top hm count).bind fun args m₁ hm₁ hargs =>
      (keeps_readClock hm₁).bind fun reading m₂ hm₂ hheap => .get ?_
    dsimp only
    split
    · exact .throw hm₂ _
    · have hresult : (native.body reading args).Live m₂.heap := fun handle hobject =>
        hheap ▸ hargs _ (hnative _ _ _ hobject) handle rfl
      have hshrunk : Closed { m₂ with stack := m₂.stack.shrink (m₂.stack.size - count - 1) } :=
        (keeps_truncate hm₂ _).1
      exact keeps_push (m := { m₂ with stack := m₂.stack.shrink (m₂.stack.size - count - 1) }) hshrunk hresult

theorem keeps_callValue (hm : m.Closed) (callee : Value) (count : Nat) : Keeps Anything (callValue callee count) m := by
  unfold callValue
  split
  · refine .get ?_
    split
    · exact keeps_callFunction hm _ _
    · next native hget => exact keeps_callNative hm (hm.heap.natives (Heap.native?_eq_some_iff.mpr hget)) _
    · exact .fail hm _
  · exact .fail hm _

theorem keeps_returnFrom (hm : m.Closed) : Keeps Anything returnFrom m := by
  refine (keeps_pop hm).bind fun result m₁ hm₁ hresult => .get ?_
  split
  · exact .fail hm₁ _
  · next frame outer hframes =>
      have houter : Closed { m₁ with frames := outer } :=
        hm₁.withFrames fun f hf => hm₁.frames f (hframes ▸ List.mem_cons_of_mem _ hf)
      have hshrunk : Closed { m₁ with frames := outer, stack := m₁.stack.shrink frame.base } :=
        (keeps_truncate houter _).1
      have hresult : result.Live { m₁ with frames := outer, stack := m₁.stack.shrink frame.base }.heap := hresult
      show Keeps Anything (if outer.isEmpty then do
          modify fun m => { m with lastValue := result }
          return Flow.halt
        else do
          push result
          modify fun m => m.record (.returned m.frames.length)
          return Flow.next) { m₁ with frames := outer, stack := m₁.stack.shrink frame.base }
      split
      · have hlast : Closed { m₁ with frames := outer, stack := m₁.stack.shrink frame.base, lastValue := result } :=
          hshrunk.own rfl rfl hshrunk.stack hshrunk.frames hresult
        exact .pure hlast trivial
      · refine (keeps_push hshrunk hresult).bind fun _ m₂ hm₂ _ => ?_
        exact (Keeps.modify (hm₂.congr rfl rfl rfl rfl rfl)).bind fun _ _ hm₃ _ => .pure hm₃ trivial

/-! ### Operators -/

theorem keeps_numeric (hm : m.Closed) {f : Float → Float → Value} (hf : ∀ a b heap, (f a b).Live heap) :
    Keeps Anything (numeric f) m := by
  have hoperands : Keeps Anything numberOperands m := by
    refine (keeps_peek hm 1).bind fun _ _ hm₁ _ => (keeps_peek hm₁ 0).bind fun _ _ hm₂ _ => ?_
    split
    · exact .pure hm₂ trivial
    · exact .fail hm₂ _
  exact hoperands.bind fun _ _ hm₁ _ => (keeps_popTwo hm₁).bind fun _ _ hm₂ _ => keeps_push hm₂ (hf _ _ _)

theorem keeps_concatenate (hm : m.Closed) (a b : Handle) : Keeps Anything (concatenate a b) m := by
  refine .get ?_
  dsimp only
  split
  · next left right _ _ =>
      refine (keeps_popTwo hm).bind fun _ m₁ hm₁ _ => ?_
      obtain ⟨hclosed, text, htext⟩ := hm₁.intern (left.chars ++ right.chars)
      exact keeps_push hclosed (.object (Heap.string?_eq_some_iff.mp htext))
  · exact .fail hm _

theorem keeps_add (hm : m.Closed) : Keeps Anything add m := by
  refine (keeps_peek hm 1).bind fun _ _ hm₁ _ => (keeps_peek hm₁ 0).bind fun _ _ hm₂ _ => ?_
  split
  · exact (keeps_popTwo hm₂).bind fun _ _ hm₃ _ => keeps_push hm₃ (.number _)
  · exact keeps_concatenate hm₂ _ _
  · exact .fail hm₂ _

theorem keeps_negate (hm : m.Closed) : Keeps Anything negate m := by
  refine (keeps_peek hm 0).bind fun _ _ hm₁ _ => ?_
  split
  · exact (keeps_pop hm₁).bind fun _ _ hm₂ _ => keeps_push hm₂ (.number _)
  · exact .fail hm₁ _

theorem keeps_compareEqual (hm : m.Closed) (wanted : Bool) : Keeps Anything (compareEqual wanted) m :=
  (keeps_popTwo hm).bind fun _ _ hm₁ _ => keeps_push hm₁ (.bool _)

theorem keeps_negateTruth (hm : m.Closed) : Keeps Anything negateTruth m :=
  (keeps_pop hm).bind fun _ _ hm₁ _ => keeps_push hm₁ (.bool _)

theorem keeps_print (hm : m.Closed) : Keeps Anything print m := by
  refine (keeps_pop hm).bind fun v m₁ hm₁ _ => .get ?_
  have hwritten : Closed { m₁ with output := (m₁.output.write (m₁.display v ++ "\n")).1 } :=
    hm₁.congr rfl rfl rfl rfl rfl
  have hrest : ∀ complete : Bool,
      Keeps Anything (if !complete then fail (.output Output.closedReason) else Pure.pure ())
      { m₁ with output := (m₁.output.write (m₁.display v ++ "\n")).1 } := by
    intro complete
    split
    · exact .fail hwritten _
    · exact .pure hwritten trivial
  exact hrest _

/-! ### Reading code -/

theorem keeps_readByte (hm : m.Closed) : Keeps Anything readByte m := by
  apply Keeps.get
  split
  · exact .fail hm _
  · next frame outer hframes =>
      split
      · exact .fail hm _
      · refine .bind (.modify ?_) fun _ _ hm₁ _ => .pure hm₁ trivial
        simp only [hframes]
        refine hm.withFrames fun f hf => ?_
        rcases List.mem_cons.mp hf with rfl | hf
        · exact hm.frames frame (hframes ▸ List.mem_cons_self)
        · exact hm.frames f (hframes ▸ List.mem_cons_of_mem _ hf)

theorem keeps_readWord (hm : m.Closed) : Keeps Anything readWord m :=
  (keeps_readByte hm).bind fun _ _ hm₁ _ => (keeps_readByte hm₁).bind fun _ _ hm₂ _ => .pure hm₂ trivial

theorem keeps_readSigned (hm : m.Closed) : Keeps Anything readSigned m :=
  (keeps_readWord hm).bind fun _ _ hm₁ _ => .pure hm₁ trivial

/-- The constant of a live function is alive. -/
theorem keeps_constant (hm : m.Closed) (index : Nat) : Keeps Alive (constant index) m := by
  apply Keeps.get
  split
  · next v hv =>
      obtain ⟨f, hf, hconstant⟩ := Option.bind_eq_some_iff.mp hv
      obtain ⟨frame, -, hfunction⟩ := Option.bind_eq_some_iff.mp hf
      exact .pure hm ((hm.heap.functions hfunction).constants index v hconstant)
  · exact .fail hm _

theorem keeps_readName (hm : m.Closed) : Keeps (fun key m => m.heap.key? key.handle = some key) readName m := by
  have hany : Keeps Anything readName m := by
    refine (keeps_readByte hm).bind fun _ _ hm₁ _ => (keeps_constant hm₁ _).bind fun _ _ hm₂ _ => .get ?_
    split
    · exact .pure hm₂ trivial
    · exact .fail hm₂ _
  exact ⟨hany.1, fun _ _ => key?_of_readName⟩

theorem keeps_failUndefined (hm : m.Closed) {P : α → Machine → Prop} (key : Key) :
    Keeps P (failUndefined key : Execution α) m := .get (.fail hm _)

theorem keeps_jump (hm : m.Closed) (distance : Int) : Keeps Anything (jump distance) m := by
  apply Keeps.get
  split
  · exact .fail hm _
  · next frame outer hframes =>
      dsimp only
      split
      · exact .fail hm _
      · refine .modify (hm.withFrames fun f hf => ?_)
        rcases List.mem_cons.mp hf with rfl | hf
        · exact hm.frames frame (hframes ▸ List.mem_cons_self)
        · exact hm.frames f (hframes ▸ List.mem_cons_of_mem _ hf)

/-! ### Variables -/

theorem keeps_getGlobal (hm : m.Closed) : Keeps Anything getGlobal m := by
  refine (keeps_readName hm).bind fun key m₁ hm₁ hkey => .get ?_
  split
  · next v hv =>
      exact keeps_push hm₁ (hm₁.globals key v ((hm₁.sound.globals.get?_eq_some_iff (hm₁.sound.agrees hkey) v).mp hv))
  · exact keeps_failUndefined hm₁ _

/-- The value that is looked at is alive, and the key stays that of a live string. -/
theorem keeps_peekFor (hm : m.Closed) {key : Key} (hkey : m.heap.key? key.handle = some key) :
    Keeps (fun v m => Alive v m ∧ m.heap.key? key.handle = some key) (peek 0) m := by
  refine ⟨(keeps_peek hm 0).1, fun v m' hpeek => ⟨(keeps_peek hm 0).2 v m' hpeek, ?_⟩⟩
  obtain rfl := run_peek_state hpeek
  exact hkey

theorem keeps_defineGlobal (hm : m.Closed) : Keeps Anything defineGlobal m := by
  refine (keeps_readName hm).bind fun key m₁ hm₁ hkey => (keeps_peekFor hm₁ hkey).bind fun v m₂ hm₂ hv => ?_
  refine .bind (.modify (hm₂.define hv.2 hv.1)) fun _ m₃ hm₃ _ => ?_
  exact (keeps_pop hm₃).bind fun _ _ hm₄ _ => .pure hm₄ trivial

theorem keeps_setGlobal (hm : m.Closed) : Keeps Anything setGlobal m := by
  refine (keeps_readName hm).bind fun key m₁ hm₁ hkey => (keeps_peekFor hm₁ hkey).bind fun v m₂ hm₂ hv => ?_
  have hstored : Closed { m₂ with globals := (m₂.globals.set key v).1 } := hm₂.define hv.2 hv.1
  have hrest : ∀ isNew : Bool, Keeps Anything (if isNew then do
        modify fun m => { m with globals := (m.globals.erase key).1 }
        failUndefined key
      else Pure.pure PUnit.unit) { m₂ with globals := (m₂.globals.set key v).1 } := by
    intro isNew
    split
    · exact .bind (.modify (hstored.drop hv.2)) fun _ _ hm₃ _ => keeps_failUndefined hm₃ _
    · exact .pure hstored trivial
  exact hrest _

/-! ### Instructions -/

theorem keeps_execute (hm : m.Closed) (op : Opcode) : Keeps Anything (execute op) m := by
  cases op with
  | constant =>
      exact (keeps_readByte hm).bind fun _ _ hm₁ _ => (keeps_constant hm₁ _).bind fun _ _ hm₂ hv =>
        (keeps_push hm₂ hv).next
  | constantWide =>
      exact (keeps_readWord hm).bind fun _ _ hm₁ _ => (keeps_constant hm₁ _).bind fun _ _ hm₂ hv =>
        (keeps_push hm₂ hv).next
  | pushNil => exact (keeps_push hm .nil).next
  | pushTrue | pushFalse => exact (keeps_push hm (.bool _)).next
  | pop => exact (keeps_pop hm).bind fun _ _ hm₁ _ => .pure hm₁ trivial
  | getLocal =>
      exact (keeps_readByte hm).bind fun _ _ hm₁ _ => (keeps_getSlot hm₁ _).bind fun _ _ hm₂ hv =>
        (keeps_push hm₂ hv).next
  | setLocal =>
      exact (keeps_readByte hm).bind fun _ _ hm₁ _ => (keeps_peek hm₁ 0).bind fun _ _ hm₂ hv =>
        (keeps_setSlot hm₂ _ hv).next
  | getGlobal => exact (keeps_getGlobal hm).next
  | defineGlobal => exact (keeps_defineGlobal hm).next
  | setGlobal => exact (keeps_setGlobal hm).next
  | add => exact (keeps_add hm).next
  | subtract | multiply | divide => exact (keeps_numeric hm fun _ _ _ => .number _).next
  | greater | greaterEqual | less | lessEqual => exact (keeps_numeric hm fun _ _ _ => .bool _).next
  | negate => exact (keeps_negate hm).next
  | equal | notEqual => exact (keeps_compareEqual hm _).next
  | not => exact (keeps_negateTruth hm).next
  | jump | loop => exact (keeps_readSigned hm).bind fun _ _ hm₁ _ => (keeps_jump hm₁ _).next
  | jumpIfFalse =>
      refine (keeps_readSigned hm).bind fun _ _ hm₁ _ => (keeps_peek hm₁ 0).bind fun _ _ hm₂ _ => ?_
      split
      · exact (keeps_jump hm₂ _).next
      · exact .pure hm₂ trivial
  | call =>
      exact (keeps_readByte hm).bind fun _ _ hm₁ _ => (keeps_peek hm₁ _).bind fun _ _ hm₂ _ =>
        (keeps_callValue hm₂ _ _).next
  | ret => exact keeps_returnFrom hm
  | print => exact (keeps_print hm).next

theorem keeps_step (hm : m.Closed) : Keeps Anything step m := by
  refine (keeps_readByte hm).bind fun byte _ hm₁ _ => ?_
  split
  · exact keeps_execute hm₁ _
  · exact .fail hm₁ _

/-- What one step keeps, all steps keep. -/
theorem keeps_steps (hm : m.Closed) (budget : Nat) : Keeps Anything (steps budget) m := by
  induction budget generalizing m with
  | zero => exact .throw hm _
  | succ budget ih =>
      refine (keeps_step hm).bind fun flow _ hm₁ _ => ?_
      cases flow with
      | next => exact ih hm₁
      | halt => exact .pure hm₁ trivial

theorem keeps_load (hm : m.Closed) {script : Handle} (hscript : ∃ f, m.heap.function? script = some f) :
    Keeps Anything (load script) m := by
  obtain ⟨f, hf⟩ := hscript
  exact (keeps_push hm (.object (Heap.function?_eq_some_iff.mp hf))).bind fun _ _ hm₁ _ => keeps_callFunction hm₁ _ _

end Execution

namespace Machine

open Execution

/-! ### Runs -/

namespace Closed

variable {m : Machine} (hm : m.Closed)

include hm

theorem haltWith (kind : ErrorKind) : (m.haltWith kind).2.Closed := hm.congr rfl rfl rfl rfl rfl

theorem haltOk : m.haltOk.2.Closed := by
  unfold Machine.haltOk
  split
  · exact hm.haltWith _
  · exact hm.congr rfl rfl rfl rfl rfl

theorem start {script : Handle} (hscript : ∃ f, m.heap.function? script = some f) : (m.start script).2.Closed := by
  have hbegin : Closed { m with frames := [], lastValue := .nil } := hm.own rfl rfl hm.stack nofun .nil
  have hload := (keeps_load hbegin hscript).1
  unfold Execution.after at hload
  unfold Machine.start
  split at hload
  · next hrun =>
      rw [hrun]
      exact hload.congr rfl rfl rfl rfl rfl
  · next e m' hrun =>
      rw [hrun]
      cases e with
      | error kind => exact hload.haltWith kind
      | fault cause => exact hload

theorem resume (budget : Nat) : (m.resume budget).2.Closed := by
  have hsteps := (keeps_steps hm budget).1
  unfold Execution.after at hsteps
  unfold Machine.resume
  split at hsteps
  · next hrun =>
      rw [hrun]
      exact hsteps.haltOk
  · next e m' hrun =>
      rw [hrun]
      cases e with
      | error kind => exact hsteps.haltWith kind
      | fault cause => cases cause <;> exact hsteps

theorem runFunction {script : Handle} (hscript : ∃ f, m.heap.function? script = some f) (budget : Nat) :
    (m.runFunction script budget).2.Closed := by
  have hstart := hm.start hscript
  unfold Machine.runFunction
  split
  · next m' heq =>
      rw [heq] at hstart
      exact hstart.resume budget
  · exact hstart

/-! ### What a host does -/

theorem compile {m' : Machine} {source : String} {result : Except CompileError Handle}
    (hc : m.compile source = .ok (result, m')) :
    m'.Closed ∧ ∀ script, result = .ok script → ∃ f, m'.heap.function? script = some f := by
  obtain ⟨c, hrun, rfl, status, rfl⟩ := compile_eq_ok hc
  obtain ⟨hclosed, hscript⟩ := compile_closed hrun hm.heap
  exact ⟨hm.grow (grows_compile hrun) hclosed rfl rfl rfl rfl, hscript⟩

theorem interpret {m' : Machine} {source : String} {budget : Nat} {result : Except LoxError Unit}
    (hi : m.interpret source budget = .ok (result, m')) : m'.Closed := by
  obtain ⟨e, hc, -⟩ | ⟨script, m₁, r, hc, hrun, -⟩ := interpret_eq_ok hi
  · exact (hm.compile hc).1
  · obtain ⟨hm₁, hscript⟩ := hm.compile hc
    have hclosed := hm₁.runFunction (hscript script rfl) budget
    rw [hrun] at hclosed
    exact hclosed

theorem defineNative {n : NativeObject} (hn : n.Honest) : (m.defineNative n).Closed := by
  obtain ⟨hnamed, text, htext⟩ := hm.intern n.name
  have hmade : ((m.intern n.name).2.allocate (.native n)).2.Closed :=
    hnamed.grow (Heap.grows_allocate _ fun _ => nofun)
      (hnamed.heap.allocate nofun fun _ heq => Object.native.inj heq ▸ hn) rfl rfl rfl rfl
  unfold Machine.defineNative
  simp only
  split
  · next key hkey =>
      rw [← Heap.key?_handle hkey] at hkey
      exact hmade.define hkey (.object (Heap.get?_allocate_self (m.intern n.name).2.heap _))
  · exact hmade

end Closed

theorem closed_new (limits : Limits) (printCode : Bool) (clock : Clock) (journal : Journal) :
    Closed { limits, printCode, clock, journal } :=
  ⟨sound_new .., Heap.closed_empty, by simp, nofun, .nil, fun key v hv => by
    obtain ⟨i, hi⟩ := hv
    simp [Table.empty] at hi⟩

theorem closed_free (m : Machine) : m.free.2.Closed :=
  ⟨sound_free m, Heap.closed_free _, by simp [free, resetStack], nofun, .nil, fun key v hv => by
    obtain ⟨i, hi⟩ := hv
    simp [free, Table.clear, Table.empty] at hi⟩

/-- The machines that a host can have: it creates one, adds functions of its own that make up no objects, compiles
and runs sources, runs functions that are alive, and goes on with runs that it has paused; it puts live values on the
stack and takes values from it; it makes strings, clears the stack and frees everything. -/
inductive Served : Machine → Prop where
  | create (limits : Limits) (printCode : Bool) (clock : Clock) (journal : Journal) :
      Served (create limits printCode clock journal)
  | native {m : Machine} (h : Served m) {n : NativeObject} (hn : n.Honest) : Served (m.defineNative n)
  | text {m : Machine} (h : Served m) (chars : String) : Served (m.intern chars).2
  | compile {m m' : Machine} (h : Served m) {source : String} {result : Except CompileError Handle}
      (hc : m.compile source = .ok (result, m')) : Served m'
  | interpret {m m' : Machine} (h : Served m) {source : String} {budget : Nat} {result : Except LoxError Unit}
      (hi : m.interpret source budget = .ok (result, m')) : Served m'
  | run {m : Machine} (h : Served m) {script : Handle} (hscript : ∃ f, m.heap.function? script = some f)
      (budget : Nat) : Served (m.runFunction script budget).2
  | resume {m : Machine} (h : Served m) (budget : Nat) : Served (m.resume budget).2
  | push {m : Machine} (h : Served m) {v : Value} (hv : v.Live m.heap) : Served (after (push v) m)
  | pop {m : Machine} (h : Served m) : Served (after pop m)
  | resetStack {m : Machine} (h : Served m) : Served m.resetStack
  | free {m : Machine} (h : Served m) : Served m.free.2
  | host {m : Machine} (h : Served m) (output : Output) (clock : Clock) : Served { m with output, clock }

theorem Served.closed {m : Machine} (h : m.Served) : m.Closed := by
  induction h with
  | create limits printCode clock journal =>
      refine (closed_new ..).defineNative ?_
      rintro _ _ _ ⟨⟩
  | native _ hn ih => exact ih.defineNative hn
  | text _ chars ih => exact (ih.intern chars).1
  | compile _ hc ih => exact (ih.compile hc).1
  | interpret _ hi ih => exact ih.interpret hi
  | run _ hscript budget ih => exact ih.runFunction hscript budget
  | resume _ budget ih => exact ih.resume budget
  | push _ hv ih => exact (keeps_push ih hv).1
  | pop _ ih => exact (keeps_pop ih).1
  | resetStack _ ih => exact ih.own rfl rfl (by simp [Machine.resetStack]) nofun ih.lastValue
  | free _ _ => exact closed_free _
  | host _ output clock ih => exact ih.congr rfl rfl rfl rfl rfl

/-- Some place of the machine holds the handle. -/
inductive Refers (m : Machine) (handle : Handle) : Prop where
  | stack (h : .object handle ∈ m.stack)
  | frame {frame : Frame} (h : frame ∈ m.frames) (hf : frame.function = handle)
  | lastValue (h : m.lastValue = .object handle)
  | globalKey {key : Key} {v : Value} (h : (key, v) ∈ m.globals.toList) (hk : key.handle = handle)
  | globalValue {key : Key} (h : (key, .object handle) ∈ m.globals.toList)
  | interned {key : Key} {v : Value} (h : (key, v) ∈ m.heap.strings.toList) (hk : key.handle = handle)
  | constant {owner : Handle} {f : FunctionObject} {i : Nat} (h : m.heap.function? owner = some f)
      (hc : f.chunk.constant? i = some (.object handle))
  | name {owner : Handle} {f : FunctionObject} (h : m.heap.function? owner = some f) (hn : f.name = some handle)

theorem Closed.live {m : Machine} (hm : m.Closed) {handle : Handle} (h : m.Refers handle) :
    ∃ o, m.heap.get? handle = some o := by
  cases h with
  | stack h => exact hm.stack _ h handle rfl
  | frame h hf =>
      obtain ⟨f, hfunction⟩ := hm.frames _ h
      exact ⟨_, hf ▸ Heap.function?_eq_some_iff.mp hfunction⟩
  | lastValue h => exact hm.lastValue handle h
  | globalKey h hk =>
      obtain ⟨s, hs, -⟩ := Heap.key?_eq_some_iff.mp (hm.sound.keys _ _ (Table.Valid.mem_toList.mp h))
      exact ⟨_, hk ▸ Heap.string?_eq_some_iff.mp hs⟩
  | globalValue h => exact hm.globals _ _ (Table.Valid.mem_toList.mp h) handle rfl
  | interned h hk =>
      obtain ⟨s, hs, -⟩ := Heap.key?_eq_some_iff.mp ((hm.sound.heap.keys _).mp ⟨_, Table.Valid.mem_toList.mp h⟩)
      exact ⟨_, hk ▸ Heap.string?_eq_some_iff.mp hs⟩
  | constant h hc => exact (hm.heap.functions h).constants _ _ hc handle rfl
  | name h hn =>
      obtain ⟨s, hs⟩ := (hm.heap.functions h).name handle hn
      exact ⟨_, Heap.string?_eq_some_iff.mp hs⟩

/-- A machine that has been freed holds no handle. -/
theorem not_refers_free (m : Machine) (handle : Handle) : ¬ m.free.2.Refers handle := by
  intro h
  cases h with
  | stack h => simp [free, resetStack] at h
  | frame h => cases h
  | lastValue h => cases h
  | globalKey h => cases h
  | globalValue h => cases h
  | interned h => cases h
  | constant h | name h => simp [free, Heap.function?] at h

/-- **No handle dangles.** Whatever a host has done with a machine, each handle that the machine holds denotes a live
object; active calls are calls of functions, the names of functions are strings, and the key of a global is the string
that names it, with its hash. As long as there are no more objects than handles can name, the 32 bits of the handles
tell them apart. Freeing leaves no handle behind, and no object that one could denote. -/
theorem Served.no_dangling {m : Machine} (h : m.Served) :
    (∀ handle, m.Refers handle → ∃ o, m.heap.get? handle = some o) ∧
      (m.heap.cells.size ≤ Handle.limit → ∀ a b, m.Refers a → m.Refers b → (a.word = b.word ↔ a = b)) ∧
      (∀ frame ∈ m.frames, ∃ f, m.heap.function? frame.function = some f) ∧
      (∀ handle f name, m.heap.function? handle = some f → f.name = some name → ∃ s, m.heap.string? name = some s) ∧
      (∀ key v, (key, v) ∈ m.globals.toList → ∃ s, m.heap.string? key.handle = some s ∧ key.hash = s.hash) ∧
      ∀ handle, ¬ m.free.2.Refers handle ∧ m.free.2.heap.get? handle = none := by
  have hm := h.closed
  refine ⟨fun _ => hm.live, fun hlimit a b ha hb => ?_, hm.frames, fun _ _ _ hf hn => (hm.heap.functions hf).name _ hn,
    fun key v hv => ?_, fun handle => ⟨m.not_refers_free handle, rfl⟩⟩
  · obtain ⟨o, ho⟩ := hm.live ha
    obtain ⟨o', ho'⟩ := hm.live hb
    exact Heap.word_inj hlimit ho ho'
  obtain ⟨s, hs, hkey⟩ := Heap.key?_eq_some_iff.mp (hm.sound.keys key v (Table.Valid.mem_toList.mp hv))
  exact ⟨s, hs, congrArg Key.hash hkey⟩

/-- A script that returns its own function: the value is alive until everything is freed, and then it is gone. -/
theorem no_dangling_after_script : ∃ m : Machine, m.Served ∧ m.lastValue = .object ⟨3⟩ ∧
    (∃ o, m.heap.get? ⟨3⟩ = some o) ∧ ∀ handle, ¬ m.free.2.Refers handle := by
  have hrun : (match (create {} false 0 .silent).interpret "fun f() \x7b return f; \x7d var g = f(); return g;" 200 with
      | .ok (.ok _, m) => m.lastValue.handle? == some ⟨3⟩
      | _ => false) = true := by decide +kernel
  split at hrun
  · next m hi =>
      have hserved : m.Served := .interpret (.create ..) hi
      have hlast : m.lastValue = .object ⟨3⟩ := by
        cases hv : m.lastValue <;> rw [hv] at hrun <;> simp [Value.handle?] at hrun
        rw [hrun]
      obtain ⟨hlive, -, -, -, -, hfree⟩ := Served.no_dangling hserved
      exact ⟨m, hserved, hlast, hlive _ (.lastValue hlast), fun handle => (hfree handle).1⟩
  · cases hrun

end Machine

end Lox
