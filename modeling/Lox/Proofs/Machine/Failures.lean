import Lox.Proofs.Machine.Config
import Lox.Proofs.Machine.Safety

/-! Instructions that fail. An instruction looks at its operands first, and what it does before its last possible
failure is either undone or makes that failure impossible: a value is pushed where at least one was taken, and an
assignment that turns out to define a variable is taken back. So a failed instruction leaves the machine as it was;
only the innermost call stands further on, and the table of globals may hold its entries in other slots. -/

namespace Lox

/-! ### Tables -/

namespace Table

/-- A table in order that has the entries of another one, in whatever slots. -/
structure Relaid (t t' : Table) : Prop where
  valid : t'.Valid
  size_eq : t'.size = t.size
  mem_iff : ∀ entry, entry ∈ t'.toList ↔ entry ∈ t.toList
  get?_eq : ∀ key, Agrees t.slots key → t'.get? key = t.get? key

namespace Valid

variable {t t' : Table} (h : Valid t)

include h

theorem relaid (h' : Valid t') (hholds : ∀ k v, Holds t'.slots k v ↔ Holds t.slots k v) : t.Relaid t' := by
  have hmem : ∀ entry, entry ∈ t'.toList ↔ entry ∈ t.toList := fun entry => by
    rw [mem_toList, mem_toList, hholds]
  refine ⟨h', ?_, hmem, fun key ha => Option.ext fun v => ?_⟩
  · rw [← h'.length_toList, ← h.length_toList]
    exact ((List.perm_ext_iff_of_nodup (.of_map _ h'.nodup_toList) (.of_map _ h.nodup_toList)).mpr hmem).length_eq
  · have ha' : Agrees t'.slots key := fun hk => ha ((hholds _ _).mp hk)
    rw [h'.get?_eq_some_iff ha', h.get?_eq_some_iff ha, hholds]

/-- Taking back the entry of a new key restores the entries, even if the table has grown to store it. -/
theorem relaid_set_erase {key : Key} (ha : Agrees t.slots key) {v : Value} (hnew : (t.set key v).2 = true) :
    t.Relaid ((t.set key v).1.erase key).1 := by
  obtain ⟨hset, hstored, hisNew⟩ := h.set_spec ha v
  have habsent := hisNew.mp hnew
  have hagrees : Agrees (t.set key v).1.slots key := by
    intro k w hk heq
    rcases (hstored k w).mp hk with ⟨rfl, -⟩ | ⟨hne, -⟩
    · rfl
    · exact absurd heq hne
  obtain ⟨herase, hholds, -⟩ := hset.erase_spec hagrees
  refine h.relaid herase fun k w => (hholds k w).trans ⟨?_, fun hk => ?_⟩
  · rintro ⟨hne, hk⟩
    rcases (hstored k w).mp hk with ⟨rfl, -⟩ | ⟨-, hk⟩
    · exact absurd rfl hne
    · exact hk
  · exact ⟨habsent k w hk, (hstored k w).mpr (.inr ⟨habsent k w hk, hk⟩)⟩

end Valid

end Table

/-! ### What a failure leaves behind -/

namespace Machine

/-- The same calls, of which the innermost may stand at another byte. -/
inductive Advanced : List Frame → List Frame → Prop where
  | idle : Advanced [] []
  | innermost (frame : Frame) (ip : Nat) (outer : List Frame) : Advanced (frame :: outer) ({ frame with ip } :: outer)

namespace Advanced

theorem refl : ∀ frames, Advanced frames frames
  | [] => .idle
  | frame :: outer => .innermost frame frame.ip outer

theorem trans {fs gs hs : List Frame} (h : Advanced fs gs) (h' : Advanced gs hs) : Advanced fs hs := by
  cases h with
  | idle => exact h'
  | innermost frame ip outer =>
      cases h' with
      | innermost _ ip' _ => exact .innermost frame ip' outer

end Advanced

/-- Only the innermost call has moved. -/
def Looked (m m' : Machine) : Prop := ∃ frames, Advanced m.frames frames ∧ m' = { m with frames }

/-- Nothing has changed but the place of the innermost call and the layout of the globals. -/
structure Spared (m m' : Machine) : Prop where
  calls : Advanced m.frames m'.frames
  globals : m.globals.Relaid m'.globals
  rest : m' = { m with frames := m'.frames, globals := m'.globals }

/-- The stack is within its limit and the globals are in order: a key that denotes a live string is the key of that
string. Nothing is asked of the code, of the calls or of the other objects. -/
structure Orderly (m : Machine) : Prop where
  room : m.stack.size ≤ m.limits.stackMax
  globals : m.globals.Valid
  keys : ∀ {key : Key} {v : Value} {own : Key}, Table.Holds m.globals.slots key v →
    m.heap.key? key.handle = some own → key = own

variable {m m' m'' : Machine}

theorem Looked.refl (m : Machine) : m.Looked m := ⟨m.frames, .refl _, rfl⟩

theorem Looked.trans (h : m.Looked m') (h' : m'.Looked m'') : m.Looked m'' := by
  obtain ⟨fs, hfs, rfl⟩ := h
  obtain ⟨gs, hgs, rfl⟩ := h'
  exact ⟨gs, hfs.trans hgs, rfl⟩

theorem Looked.frames_ne_nil (h : m.Looked m') (hne : m.frames ≠ []) : m'.frames ≠ [] := by
  obtain ⟨fs, hfs, rfl⟩ := h
  intro hnil
  subst hnil
  generalize m.frames = frames at hfs hne
  cases hfs
  exact hne rfl

theorem Looked.stack_eq (h : m.Looked m') : m'.stack = m.stack := by
  obtain ⟨fs, -, rfl⟩ := h
  rfl

theorem Looked.orderly (h : m.Looked m') (hm : m.Orderly) : m'.Orderly := by
  obtain ⟨fs, -, rfl⟩ := h
  exact ⟨hm.room, hm.globals, hm.keys⟩

theorem Looked.spared (h : m.Looked m') (hm : m.Orderly) : m.Spared m' := by
  obtain ⟨fs, hfs, rfl⟩ := h
  exact ⟨hfs, hm.globals.relaid hm.globals fun _ _ => .rfl, rfl⟩

theorem Looked.trans_spared (h : m.Looked m') (h' : m'.Spared m'') : m.Spared m'' := by
  obtain ⟨fs, hfs, rfl⟩ := h
  exact ⟨hfs.trans h'.calls, h'.globals, h'.rest⟩

/-- The key of a live string is never at odds with the globals. -/
theorem Orderly.agrees (hm : m.Orderly) {key : Key} (hk : m.heap.key? key.handle = some key) :
    Table.Agrees m.globals.slots key := by
  intro k v hv heq
  rw [← heq] at hk
  exact hm.keys hv hk

/-- Each variable has the value that it had. -/
theorem Spared.global?_eq (h : m.Spared m') (hm : m.Orderly) (name : String) : m'.global? name = m.global? name := by
  unfold global?
  rw [h.rest]
  refine bind_congr fun handle => ?_
  cases hk : m.heap.key? handle with
  | none => rfl
  | some key =>
      have hown : m.heap.key? key.handle = some key := by rw [Heap.key?_handle hk, hk]
      exact h.globals.get?_eq key (hm.agrees hown)

end Machine

namespace Execution

open Machine

variable {α β : Type} {m : Machine}

/-! ### Looking -/

/-- The execution only reads, and moves the innermost call. -/
def Looks (x : Execution α) : Prop := ∀ m : Machine, m.Looked (after x m)

namespace Looks

theorem bind {x : Execution α} {f : α → Execution β} (hx : Looks x) (hf : ∀ a, Looks (f a)) : Looks (x >>= f) := by
  intro m
  have hm := hx m
  rw [after_bind]
  unfold after at hm
  split
  · next a m' h =>
      rw [h] at hm
      exact hm.trans (hf a m')
  · next e m' h =>
      rw [h] at hm
      exact hm

theorem pure (a : α) : Looks (pure a : Execution α) := Looked.refl

theorem fail (kind : ErrorKind) : Looks (fail kind : Execution α) := Looked.refl

/-- What is done next may depend on the machine. -/
theorem get {f : Machine → Execution α} (hf : ∀ m : Machine, m.Looked (after (f m) m)) : Looks (get >>= f) := hf

theorem ok {x : Execution α} (h : Looks x) {a : α} {m' : Machine} (hrun : x.run m = .ok a m') : m.Looked m' := by
  have hm := h m
  rw [after, hrun] at hm
  exact hm

end Looks

theorem looks_peek (n : Nat) : Looks (peek n) := by
  refine .get fun m => ?_
  split
  · exact .refl m
  · split <;> exact .refl m

theorem looks_top (n : Nat) : Looks (top n) := by
  refine .get fun m => ?_
  split <;> exact .refl m

theorem looks_slotIndex (slot : Nat) : Looks (slotIndex slot) := by
  refine .get fun m => ?_
  split
  · exact .refl m
  · split <;> exact .refl m

theorem looks_getSlot (slot : Nat) : Looks (getSlot slot) := by
  refine (looks_slotIndex slot).bind fun index => .get fun m => ?_
  split <;> exact .refl m

theorem looks_numberOperands : Looks numberOperands := by
  refine (looks_peek 1).bind fun a => (looks_peek 0).bind fun b => ?_
  split
  · exact .pure _
  · exact .fail _

theorem looks_readByte : Looks readByte := by
  refine .get fun m => ?_
  split
  · exact .refl m
  · next frame outer hframes =>
      split
      · exact .refl m
      · refine ⟨{ frame with ip := frame.ip + 1 } :: outer, ?_, ?_⟩
        · rw [hframes]
          exact .innermost frame _ outer
        · cases m
          cases hframes
          rfl

theorem looks_readWord : Looks readWord :=
  looks_readByte.bind fun _ => looks_readByte.bind fun _ => .pure _

theorem looks_readSigned : Looks readSigned := looks_readWord.bind fun _ => .pure _

theorem looks_constant (index : Nat) : Looks (constant index) := by
  refine .get fun m => ?_
  split <;> exact .refl m

theorem looks_readName : Looks readName := by
  refine looks_readByte.bind fun index => (looks_constant _).bind fun value => .get fun m => ?_
  split <;> exact .refl m

theorem looks_failUndefined (key : Key) : Looks (failUndefined key : Execution α) := .get fun m => .refl m

theorem looks_jump (distance : Int) : Looks (jump distance) := by
  refine .get fun m => ?_
  split
  · exact .refl m
  · next frame outer hframes =>
      dsimp only
      split
      · exact .refl m
      · refine ⟨_, ?_, rfl⟩
        rw [hframes]
        exact .innermost frame _ outer

/-! ### Failing -/

/-- If the execution fails, other than because a text cannot be written, the machine is spared. -/
def Spares (x : Execution α) (m : Machine) : Prop :=
  ∀ kind m', x.run m = .error (.error kind) m' → (∀ reason, kind ≠ .output reason) → m.Spared m'

theorem Looks.spares {x : Execution α} (hx : Looks x) (hm : m.Orderly) : Spares x m := by
  intro kind m' hrun _
  have hlooked := hx m
  rw [after, hrun] at hlooked
  exact hlooked.spared hm

namespace Spares

/-- What only looks may come before anything else. -/
theorem bind {x : Execution α} {f : α → Execution β} (hx : Looks x) (hm : m.Orderly)
    (hf : ∀ a m', x.run m = .ok a m' → m.Looked m' → m'.Orderly → Spares (f a) m') : Spares (x >>= f) m := by
  intro kind m'' hrun hkind
  cases h : x.run m with
  | ok a m' =>
      have hlooked := hx.ok h
      rw [run_bind_of_ok h] at hrun
      exact hlooked.trans_spared (hf a m' h hlooked (hlooked.orderly hm) kind m'' hrun hkind)
  | error e m' =>
      rw [run_bind_of_error h] at hrun
      cases hrun
      exact hx.spares hm kind m'' h hkind

theorem get {f : Machine → Execution α} (h : Spares (f m) m) : Spares (get >>= f) m := h

theorem fail (hm : m.Orderly) (kind : ErrorKind) : Spares (fail kind : Execution α) m := (Looks.fail kind).spares hm

/-- What succeeds spares the machine. -/
theorem of_ok {x : Execution α} {a : α} {m' : Machine} (h : x.run m = .ok a m') : Spares x m := by
  intro kind m'' hrun
  rw [h] at hrun
  cases hrun

/-- Going on to the next instruction cannot fail. -/
theorem next {x : Execution Unit} (h : Spares x m) : Spares (do x; return Flow.next) m := by
  intro kind m' hrun
  cases hx : x.run m with
  | ok _ m₁ =>
      rw [run_bind_of_ok hx] at hrun
      cases hrun
  | error e m₁ =>
      rw [run_bind_of_error hx] at hrun
      cases hrun
      exact h kind m' hx

end Spares

theorem spares_push (hm : m.Orderly) (v : Value) : Spares (push v) m := by
  refine .get ?_
  split
  · exact .fail hm _
  · exact .of_ok rfl

/-- Where there is room a push succeeds. -/
theorem run_push_of_lt {v : Value} (hroom : m.stack.size < m.limits.stackMax) :
    (push v).run m = .ok () { m with stack := m.stack.push v } := by
  unfold push
  rw [run_bind_of_ok (EStateM.run_get _), if_neg (by omega)]
  rfl

/-- Where there is a value it can be taken. -/
theorem run_pop_of_pos (hpos : 0 < m.stack.size) : ∃ v, pop.run m = .ok v { m with stack := m.stack.pop } := by
  refine ⟨m.stack[m.stack.size - 1], ?_⟩
  unfold pop
  rw [run_bind_of_ok (EStateM.run_get _), Array.back?_eq_getElem?, Array.getElem?_eq_getElem (by omega)]
  rfl

theorem run_popTwo_of_le (hsize : 2 ≤ m.stack.size) :
    ∃ a b, popTwo.run m = .ok (a, b) { m with stack := m.stack.pop.pop } := by
  obtain ⟨b, hb⟩ := run_pop_of_pos (m := m) (by omega)
  obtain ⟨a, ha⟩ := run_pop_of_pos (m := { m with stack := m.stack.pop }) (by simp only [Array.size_pop]; omega)
  refine ⟨a, b, ?_⟩
  unfold popTwo
  rw [run_bind_of_ok hb, run_bind_of_ok ha]
  rfl

/-- On a stack without values there is nothing to take, and nothing is taken. -/
theorem run_pop_of_empty (hempty : m.stack.size = 0) : pop.run m = .error (.error .stackUnderflow) m := by
  unfold pop
  rw [run_bind_of_ok (EStateM.run_get _), Array.back?_eq_none_iff.mpr (Array.eq_empty_of_size_eq_zero hempty)]
  rfl

/-- Taking a value leaves room for its replacement. -/
theorem spares_pop_push (hm : m.Orderly) (f : Value → Value) : Spares (do let v ← pop; push (f v)) m := by
  by_cases hempty : m.stack.size = 0
  · intro kind m' hrun _
    rw [run_bind_of_error (run_pop_of_empty hempty)] at hrun
    cases hrun
    exact (Looked.refl m).spared hm
  · obtain ⟨v, hpop⟩ := run_pop_of_pos (m := m) (by omega)
    have hroom := hm.room
    refine .of_ok ((run_bind_of_ok hpop).trans (run_push_of_lt ?_))
    simp only [Array.size_pop]
    omega

/-- Taking two values that are there leaves room for their replacement. -/
theorem spares_popTwo_push (hm : m.Orderly) (hsize : 2 ≤ m.stack.size) (f : Value × Value → Value) :
    Spares (do let pair ← popTwo; push (f pair)) m := by
  obtain ⟨a, b, hpop⟩ := run_popTwo_of_le hsize
  have hroom := hm.room
  refine .of_ok ((run_bind_of_ok hpop).trans (run_push_of_lt ?_))
  simp only [Array.size_pop]
  omega

/-! ### Operators -/

theorem size_of_numberOperands {m' : Machine} {pair : Float × Float} (h : numberOperands.run m = .ok pair m') :
    2 ≤ m'.stack.size := by
  unfold numberOperands at h
  obtain ⟨a, m₁, h₁, h⟩ := run_bind_eq_ok.mp h
  have hsize := size_of_peek h₁
  obtain ⟨b, m₂, h₂, h'⟩ := run_bind_eq_ok.mp h
  obtain rfl := run_peek_state h₂
  split at h' <;> cases h'
  exact hsize

theorem spares_numeric (hm : m.Orderly) (f : Float → Float → Value) : Spares (numeric f) m :=
  .bind looks_numberOperands hm fun pair _ hrun _ hm' =>
    spares_popTwo_push hm' (size_of_numberOperands hrun) fun _ => f pair.1 pair.2

theorem spares_concatenate (hm : m.Orderly) (hsize : 2 ≤ m.stack.size) (a b : Handle) :
    Spares (concatenate a b) m := by
  refine .get ?_
  dsimp only
  split
  · next left right _ _ =>
      obtain ⟨lower, upper, hpop⟩ := run_popTwo_of_le hsize
      have hintern : ∀ n : Machine, (modifyGet (·.intern (left.chars ++ right.chars)) : Execution Handle).run n =
        .ok (n.intern (left.chars ++ right.chars)).1 (n.intern (left.chars ++ right.chars)).2 := fun _ => rfl
      refine .of_ok ((run_bind_of_ok hpop).trans ((run_bind_of_ok (hintern _)).trans (run_push_of_lt ?_)))
      have hroom := hm.room
      unfold intern
      simp only
      split <;> simp only [record, Array.size_pop] <;> omega
  · exact .fail hm _

theorem spares_add (hm : m.Orderly) : Spares add m := by
  refine .bind (looks_peek 1) hm fun a m₁ h₁ _ hm₁ => .bind (looks_peek 0) hm₁ fun b m₂ h₂ _ hm₂ => ?_
  have hsize := size_of_peek h₁
  obtain rfl := run_peek_state h₂
  split
  · exact spares_popTwo_push hm₂ hsize _
  · exact spares_concatenate hm₂ hsize _ _
  · exact .fail hm₂ _

theorem spares_negate (hm : m.Orderly) : Spares negate m := by
  refine .bind (looks_peek 0) hm fun a m₁ _ _ hm₁ => ?_
  split
  · exact spares_pop_push hm₁ _
  · exact .fail hm₁ _

/-- Equality takes its operands without looking at them first, so a single value would be lost. -/
theorem spares_compareEqual (hm : m.Orderly) (hsingle : m.stack.size ≠ 1) (wanted : Bool) :
    Spares (compareEqual wanted) m := by
  by_cases hempty : m.stack.size = 0
  · intro kind m' hrun _
    have hnone : popTwo.run m = .error (.error .stackUnderflow) m := run_bind_of_error (run_pop_of_empty hempty)
    rw [compareEqual, run_bind_of_error hnone] at hrun
    cases hrun
    exact (Looked.refl m).spared hm
  · exact spares_popTwo_push hm (by omega) fun pair => .bool (pair.1.equal pair.2 == wanted)

/-- A text that cannot be written is the only failure after the value has been taken. -/
theorem spares_print (hm : m.Orderly) : Spares print m := by
  intro kind m' hrun hkind
  unfold print at hrun
  by_cases hempty : m.stack.size = 0
  · rw [run_bind_of_error (run_pop_of_empty hempty)] at hrun
    cases hrun
    exact (Looked.refl m).spared hm
  · obtain ⟨v, hpop⟩ := run_pop_of_pos (m := m) (by omega)
    rw [run_bind_of_ok hpop, run_bind_of_ok (EStateM.run_get _)] at hrun
    rw [EStateM.run_bind] at hrun
    split at hrun
    · split at hrun
      · cases hrun
        exact absurd rfl (hkind _)
      · cases hrun
    · next heq =>
        cases heq

/-! ### Calls -/

theorem spares_callFunction (hm : m.Orderly) (handle : Handle) (count : Nat) :
    Spares (callFunction handle count) m := by
  refine .get ?_
  split
  · exact .fail hm _
  · split
    · exact .fail hm _
    · split
      · exact .fail hm _
      · split
        · exact .fail hm _
        · exact .of_ok rfl

/-- The callee is replaced by the result, so there is room for it. -/
theorem spares_callNative (hm : m.Orderly) (native : NativeObject) (count : Nat) :
    Spares (callNative native count) m := by
  unfold callNative
  split
  · exact .fail hm _
  · refine .bind (looks_top count) hm fun args m₁ _ _ hm₁ => ?_
    intro kind m' hrun _
    have hcall : (if m₁.stack.size < count + 1 then throw (.fault .underflow)
        else do
          truncate (m₁.stack.size - count - 1)
          push (native.body m₁.clock.now args) : Execution Unit).run { m₁ with clock := m₁.clock.next } =
        .error (.error kind) m' := hrun
    split at hcall
    · cases hcall
    · have hroom := hm₁.room
      have htruncate : ∀ n : Machine, (truncate (m₁.stack.size - count - 1)).run n =
        .ok () { n with stack := n.stack.shrink (m₁.stack.size - count - 1) } := fun _ => rfl
      rw [run_bind_of_ok (htruncate _), run_push_of_lt (by simp only [Array.size_shrink]; omega)] at hcall
      cases hcall

theorem spares_callValue (hm : m.Orderly) (callee : Value) (count : Nat) : Spares (callValue callee count) m := by
  unfold callValue
  split
  · refine .get ?_
    split
    · exact spares_callFunction hm _ _
    · exact spares_callNative hm _ _
    · exact .fail hm _
  · exact .fail hm _

/-- The result is taken from the values that the return drops, so it can be put back. -/
theorem spares_returnFrom (hm : m.Orderly) (hframes : m.frames ≠ []) : Spares returnFrom m := by
  by_cases hempty : m.stack.size = 0
  · intro kind m' hrun _
    rw [returnFrom, run_bind_of_error (run_pop_of_empty hempty)] at hrun
    cases hrun
    exact (Looked.refl m).spared hm
  · obtain ⟨result, hpop⟩ := run_pop_of_pos (m := m) (by omega)
    obtain ⟨frame, outer, hcalls⟩ := List.exists_cons_of_ne_nil hframes
    intro kind m' hrun _
    rw [returnFrom, run_bind_of_ok hpop, run_bind_of_ok (EStateM.run_get _)] at hrun
    simp only [hcalls] at hrun
    have htruncate : ∀ n : Machine, (truncate frame.base).run n =
      .ok () { n with stack := n.stack.shrink frame.base } := fun _ => rfl
    rw [run_bind_of_ok (EStateM.run_modify _ _), run_bind_of_ok (htruncate _)] at hrun
    split at hrun
    · cases hrun
    · rw [run_bind_of_ok (run_push_of_lt ?_)] at hrun
      · cases hrun
      · have hroom := hm.room
        simp only [Array.size_shrink, Array.size_pop]
        omega

/-! ### Variables -/

theorem spares_setSlot (hm : m.Orderly) (slot : Nat) (v : Value) : Spares (setSlot slot v) m :=
  .bind (looks_slotIndex slot) hm fun _ _ _ _ _ => .of_ok rfl

theorem spares_getGlobal (hm : m.Orderly) : Spares getGlobal m := by
  refine .bind looks_readName hm fun key m₁ _ _ hm₁ => .get ?_
  split
  · exact spares_push hm₁ _
  · exact (looks_failUndefined key).spares hm₁

/-- The value that is stored is known to be there before it is taken. -/
theorem spares_defineGlobal (hm : m.Orderly) : Spares defineGlobal m := by
  refine .bind looks_readName hm fun key m₁ _ _ hm₁ => .bind (looks_peek 0) hm₁ fun value m₂ hpeek _ _ => ?_
  have hsize := size_of_peek hpeek
  obtain ⟨v, hpop⟩ := run_pop_of_pos (m := { m₂ with globals := (m₂.globals.set key value).1 }) hsize
  exact .of_ok ((run_bind_of_ok (EStateM.run_modify _ _)).trans (run_bind_of_ok hpop))

/-- An assignment that defined a variable is taken back before it fails. -/
theorem spares_setGlobal (hm : m.Orderly) : Spares setGlobal m := by
  refine .bind looks_readName hm fun key m₁ hname _ hm₁ => .bind (looks_peek 0) hm₁ fun value m₂ hpeek _ hm₂ => ?_
  obtain rfl := run_peek_state hpeek
  have hagrees : Table.Agrees m₂.globals.slots key := hm₂.agrees (key?_of_readName hname)
  intro kind m' hrun _
  have hset : (if (m₂.globals.set key value).2 then do
        modify fun m => { m with globals := (m.globals.erase key).1 }
        failUndefined key
      else pure () : Execution Unit).run { m₂ with globals := (m₂.globals.set key value).1 } =
      .error (.error kind) m' := hrun
  split at hset
  · next hnew =>
      cases hset
      exact ⟨.refl _, hm₂.globals.relaid_set_erase hagrees hnew, rfl⟩
  · cases hset

/-! ### Instructions -/

/-- Whatever the operand bytes are, and whatever lies on the stack. -/
theorem spares_execute (hm : m.Orderly) (hframes : m.frames ≠ []) {op : Opcode}
    (hequal : op = .equal ∨ op = .notEqual → m.stack.size ≠ 1) : Spares (execute op) m := by
  cases op with
  | constant =>
      exact .bind looks_readByte hm fun _ _ _ _ hm₁ => .bind (looks_constant _) hm₁ fun _ _ _ _ hm₂ =>
        (spares_push hm₂ _).next
  | constantWide =>
      exact .bind looks_readWord hm fun _ _ _ _ hm₁ => .bind (looks_constant _) hm₁ fun _ _ _ _ hm₂ =>
        (spares_push hm₂ _).next
  | pushNil | pushTrue | pushFalse => exact (spares_push hm _).next
  | pop =>
      by_cases hempty : m.stack.size = 0
      · intro kind m' hrun _
        rw [execute, run_bind_of_error (run_pop_of_empty hempty)] at hrun
        cases hrun
        exact (Looked.refl m).spared hm
      · obtain ⟨v, hpop⟩ := run_pop_of_pos (m := m) (by omega)
        exact .of_ok (run_bind_of_ok hpop)
  | getLocal =>
      exact .bind looks_readByte hm fun _ _ _ _ hm₁ => .bind (looks_getSlot _) hm₁ fun _ _ _ _ hm₂ =>
        (spares_push hm₂ _).next
  | setLocal =>
      exact .bind looks_readByte hm fun _ _ _ _ hm₁ => .bind (looks_peek 0) hm₁ fun _ _ _ _ hm₂ =>
        (spares_setSlot hm₂ _ _).next
  | getGlobal => exact (spares_getGlobal hm).next
  | defineGlobal => exact (spares_defineGlobal hm).next
  | setGlobal => exact (spares_setGlobal hm).next
  | add => exact (spares_add hm).next
  | subtract | multiply | divide | greater | greaterEqual | less | lessEqual => exact (spares_numeric hm _).next
  | negate => exact (spares_negate hm).next
  | equal => exact (spares_compareEqual hm (hequal (.inl rfl)) true).next
  | notEqual => exact (spares_compareEqual hm (hequal (.inr rfl)) false).next
  | not => exact (spares_pop_push hm fun v => .bool v.isFalsey).next
  | jump | loop => exact .bind looks_readSigned hm fun _ _ _ _ hm₁ => ((looks_jump _).spares hm₁).next
  | jumpIfFalse =>
      refine .bind looks_readSigned hm fun _ _ _ _ hm₁ => .bind (looks_peek 0) hm₁ fun _ _ _ _ hm₂ => ?_
      split
      · exact ((looks_jump _).spares hm₂).next
      · exact .of_ok rfl
  | call =>
      exact .bind looks_readByte hm fun _ _ _ _ hm₁ => .bind (looks_peek _) hm₁ fun _ _ _ _ hm₂ =>
        (spares_callValue hm₂ _ _).next
  | ret => exact spares_returnFrom hm hframes
  | print => exact (spares_print hm).next

end Execution

namespace Machine

open Execution

/-- The instruction at which the innermost call stands. -/
def opcode? (m : Machine) : Option Opcode := do
  let frame ← m.frames.head?
  let function ← m.heap.function? frame.function
  let byte ← function.chunk.byteAt? frame.ip
  Opcode.ofByte? byte

theorem opcode?_of_readByte {m m' : Machine} {byte : UInt8} (h : readByte.run m = .ok byte m') :
    m.opcode? = Opcode.ofByte? byte ∧ m.frames ≠ [] := by
  unfold readByte at h
  obtain ⟨m₁, m₂, hget, h⟩ := run_bind_eq_ok.mp h
  cases hget
  split at h
  · cases h
  · next frame outer hframes =>
      split at h
      · cases h
      · next read hread =>
          cases h
          obtain ⟨function, hfunction, hbyte⟩ := Option.bind_eq_some_iff.mp hread
          refine ⟨?_, by simp [hframes]⟩
          simp only [opcode?, hframes, List.head?_cons, Option.bind_eq_bind, Option.bind_some, hfunction, hbyte]

/-- **A failed instruction leaves the machine as it was.** Let the stack be within its limit and the globals in order,
and let the code be any bytes. If the next instruction fails, other than because a text cannot be written and other
than at an equality on a single value, then the machine is the same but for the place of the innermost call and the
slots of the globals, which have the same entries; and every variable has the value that it had. -/
theorem failed_step_spares {m m' : Machine} {kind : ErrorKind} (hm : m.Orderly)
    (hfails : step.run m = .error (.error kind) m') (hkind : ∀ reason, kind ≠ .output reason)
    (hequal : m.stack.size = 1 → m.opcode? ≠ some .equal ∧ m.opcode? ≠ some .notEqual) :
    m'.stack = m.stack ∧ m'.heap = m.heap ∧ m'.lastValue = m.lastValue ∧ Advanced m.frames m'.frames ∧
      m.globals.Relaid m'.globals ∧ (∀ name, m'.global? name = m.global? name) ∧
      m' = { m with frames := m'.frames, globals := m'.globals } := by
  have hspares : Spares step m := by
    refine .bind looks_readByte hm fun byte m₁ hread hlooked hm₁ => ?_
    obtain ⟨hopcode, hframes⟩ := opcode?_of_readByte hread
    split
    · next op hop =>
        refine spares_execute hm₁ (hlooked.frames_ne_nil hframes) fun hop' hsingle => ?_
        rw [hlooked.stack_eq] at hsingle
        rw [hop] at hopcode
        obtain ⟨hne, hne'⟩ := hequal hsingle
        rcases hop' with rfl | rfl
        · exact hne hopcode
        · exact hne' hopcode
    · exact .fail hm₁ _
  have h := hspares kind m' hfails hkind
  refine ⟨?_, ?_, ?_, h.calls, h.globals, h.global?_eq hm, h.rest⟩ <;> rw [h.rest]

/-- Code that assigns to the variable that its first constant names. -/
def assigning : FunctionObject :=
  { arity := 0, chunk := ((Chunk.empty.addConstant (.object ⟨0⟩)).1.writeOpByte .setGlobal 0 1), name := none }

/-- A machine without variables that is about to assign to one. -/
def beforeAssigning : Machine :=
  ((((({} : Machine).intern "x").2).allocate (.function assigning)).2.start ⟨1⟩).2

/-- The assignment fails and takes back what it defined, in a table that has got eight slots for it. -/
theorem failed_assignment_spares : beforeAssigning.Orderly ∧
    ∃ m', step.run beforeAssigning = .error (.error (.undefinedVariable "x")) m' ∧ m'.globals.capacity = 8 ∧
      m'.stack = beforeAssigning.stack ∧ beforeAssigning.globals.Relaid m'.globals := by
  have hglobals : beforeAssigning.globals = .empty := rfl
  have horderly : beforeAssigning.Orderly := by
    refine ⟨by decide +kernel, hglobals ▸ Table.valid_empty, fun hk _ => ?_⟩
    rw [hglobals] at hk
    exact absurd hk (Table.valid_empty.not_holds_of_used_eq_zero rfl _ _)
  have hstep : (match step.run beforeAssigning with
      | .error (.error (.undefinedVariable "x")) m' => m'.globals.capacity == 8
      | _ => false) = true := by decide +kernel
  split at hstep
  · next m' hfails =>
      obtain ⟨hstack, -, -, -, hrelaid, -⟩ := failed_step_spares horderly hfails (by simp) (by decide +kernel)
      exact ⟨horderly, m', hfails, by simpa using hstep, hstack, hrelaid⟩
  · cases hstep

end Machine

end Lox
