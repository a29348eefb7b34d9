import Lox.Proofs.Machine.Config
import Lox.Proofs.Twins.Values

/-! Machines that run side by side. Their stacks are equally high and hold values that stand for the same, their calls
are abreast, and a global variable of one has a value that stands for the value it has in the other. Each operation
of the machine keeps them so, or stops both for the same reason. -/

namespace Lox

theorem frames_cases {R : Frame → Frame → Prop} {fs fs' : List Frame} (h : List.Forall₂ R fs fs') :
    fs = [] ∧ fs' = [] ∨ ∃ f gs f' gs', fs = f :: gs ∧ fs' = f' :: gs' ∧ R f f' ∧ List.Forall₂ R gs gs' := by
  cases h with
  | nil => exact .inl ⟨rfl, rfl⟩
  | cons hf hfs => exact .inr ⟨_, _, _, _, rfl, rfl, hf, hfs⟩

namespace Pairing

/-- Two calls go on alike, and all their variables lie above the hidden values. -/
structure Frames (T : Pairing) (f f' : Frame) : Prop where
  abreast : T.abreast f.function f.ip f'.function f'.ip
  base : f.base = f'.base
  above : T.hidden ≤ f.base + 1

/-- Two machines that run side by side. -/
structure Machines (T : Pairing) (m m' : Machine) : Prop where
  left : m.Sound
  right : m'.Sound
  links : T.Links m.heap m'.heap
  size : m.stack.size = m'.stack.size
  stack : ∀ i, T.hidden ≤ i → Option.Rel (T.Alike m.heap m'.heap) m.stack[i]? m'.stack[i]?
  frames : List.Forall₂ T.Frames m.frames m'.frames
  globals : ∀ name, Option.Rel (T.Alike m.heap m'.heap) (m.global? name) (m'.global? name)
  last : T.Alike m.heap m'.heap m.lastValue m'.lastValue
  limits : m.limits = m'.limits
  clock : m.clock = m'.clock
  output : m.output = m'.output

/-- At least so many values lie above the hidden ones. If none are hidden, nothing is asked for. -/
def Room (T : Pairing) (r : Nat) (m : Machine) : Prop := r = 0 ∨ T.hidden = 0 ∨ T.hidden + r ≤ m.stack.size

variable {T : Pairing} {m m' : Machine}

theorem Room.le {r s : Nat} (h : T.Room s m) (hr : r ≤ s) : T.Room r m := by
  unfold Room at *
  omega

theorem Room.zero : T.Room 0 m := .inl rfl

namespace Machines

/-- What belongs to a run may change on both sides. -/
theorem own {stack stack' : Array Value} {frames frames' : List Frame} {last last' : Value} {output output' : Output}
    {printCode printCode' : Bool} {status status' : Status} {journal journal' : Journal} (hm : T.Machines m m')
    (hsize : stack.size = stack'.size)
    (hstack : ∀ i, T.hidden ≤ i → Option.Rel (T.Alike m.heap m'.heap) stack[i]? stack'[i]?)
    (hframes : List.Forall₂ T.Frames frames frames') (hlast : T.Alike m.heap m'.heap last last')
    (houtput : output = output') :
    T.Machines { m with stack, frames, output, printCode, status, lastValue := last, journal }
      { m' with
        stack := stack', frames := frames', output := output', printCode := printCode', status := status',
        lastValue := last', journal := journal' } where
  left := hm.left.grow (.refl _) rfl
  right := hm.right.grow (.refl _) rfl
  links := hm.links
  size := hsize
  stack := hstack
  frames := hframes
  globals := hm.globals
  last := hlast
  limits := hm.limits
  clock := hm.clock
  output := houtput

/-- Values of the stack may change on both sides. -/
theorem stacked {stack stack' : Array Value} (hm : T.Machines m m') (hsize : stack.size = stack'.size)
    (hstack : ∀ i, T.hidden ≤ i → Option.Rel (T.Alike m.heap m'.heap) stack[i]? stack'[i]?) :
    T.Machines { m with stack } { m' with stack := stack' } :=
  hm.own hsize hstack hm.frames hm.last hm.output

/-- Either heap may grow. -/
theorem grow {heap heap' : Heap} {printCode printCode' : Bool} {status status' : Status} {journal journal' : Journal}
    (hm : T.Machines m m') (hg : m.heap.Grows heap) (hg' : m'.heap.Grows heap') :
    T.Machines { m with heap, printCode, status, journal }
      { m' with heap := heap', printCode := printCode', status := status', journal := journal' } where
  left := hm.left.grow hg rfl
  right := hm.right.grow hg' rfl
  links := hm.links.grow hg hg'
  size := hm.size
  stack i hi := rel_mono (hm.stack i hi) fun _ _ hv => hv.mono hg.keeps hg'.keeps
  frames := hm.frames
  globals name := by
    have hleft (n : Machine) (hn : n.heap = heap) (hs : n.globals = m.globals) : n.global? name = m.global? name :=
      hm.left.global?_grow (hn ▸ hg) hs name
    have hright (n : Machine) (hn : n.heap = heap') (hs : n.globals = m'.globals) : n.global? name = m'.global? name :=
      hm.right.global?_grow (hn ▸ hg') hs name
    rw [hleft { m with heap, printCode, status, journal } rfl rfl,
      hright { m' with heap := heap', printCode := printCode', status := status', journal := journal' } rfl rfl]
    exact rel_mono (hm.globals name) fun _ _ hv => hv.mono hg.keeps hg'.keeps
  last := hm.last.mono hg.keeps hg'.keeps
  limits := hm.limits
  clock := hm.clock
  output := hm.output

/-- Both clocks may be read. -/
theorem ticked (hm : T.Machines m m') :
    T.Machines { m with clock := m.clock.next } { m' with clock := m'.clock.next } where
  left := hm.left.grow (.refl _) rfl
  right := hm.right.grow (.refl _) rfl
  links := hm.links
  size := hm.size
  stack := hm.stack
  frames := hm.frames
  globals := hm.globals
  last := hm.last
  limits := hm.limits
  clock := congrArg Clock.next hm.clock
  output := hm.output

end Machines

/-! ### Pieces of execution -/

/-- What becomes of two machines that have run for a while: they come to results that go together and still run side
by side, or they have stopped for the same reason. -/
inductive Outcome (T : Pairing) {α α' : Type} (r : Nat) (Q : Machine → Machine → α → α' → Prop) (m m' : Machine) :
    EStateM.Result Stop Machine α → EStateM.Result Stop Machine α' → Prop where
  | ok {n n' : Machine} {a : α} {a' : α'} (hn : T.Machines n n') (hk : m.heap.Extends n.heap)
      (hk' : m'.heap.Extends n'.heap) (hr : T.Room r n) (hq : Q n n' a a') :
      Outcome T r Q m m' (.ok a n) (.ok a' n')
  | error {n n' : Machine} {stop : Stop} (hn : T.Machines n n') (hk : m.heap.Extends n.heap)
      (hk' : m'.heap.Extends n'.heap) : Outcome T r Q m m' (.error stop n) (.error stop n')

/-- Two pieces of execution do alike on machines that run side by side, whose heaps have at least the objects of two
given ones and that have room for so many values. -/
def Together (T : Pairing) {α α' : Type} (h h' : Heap) (r : Nat) (x : Execution α) (x' : Execution α') (r' : Nat)
    (Q : Heap → Heap → α → α' → Prop) : Prop :=
  ∀ m m', T.Machines m m' → h.Extends m.heap → h'.Extends m'.heap → T.Room r m →
    T.Outcome r' (fun n n' => Q n.heap n'.heap) m m' (x.run m) (x'.run m')

namespace Together

variable {α α' β β' : Type} {h h' k k' : Heap} {r r' s : Nat} {x : Execution α} {x' : Execution α'}
  {f : α → Execution β} {f' : α' → Execution β'} {P : Heap → Heap → α → α' → Prop}
  {Q : Heap → Heap → β → β' → Prop}

theorem bind (hx : T.Together h h' r x x' s P)
    (hf : ∀ k k' a a', h.Extends k → h'.Extends k' → P k k' a a' → T.Together k k' s (f a) (f' a') r' Q) :
    T.Together h h' r (x >>= f) (x' >>= f') r' Q := by
  intro m m' hm hk hk' hr
  have hout := hx m m' hm hk hk' hr
  rw [EStateM.run_bind, EStateM.run_bind]
  generalize x.run m = o at hout ⊢
  generalize x'.run m' = o' at hout ⊢
  cases hout with
  | error hn he he' => exact .error hn he he'
  | @ok n n' a a' hn he he' hs hp =>
      have hrest := hf _ _ a a' (hk.trans he) (hk'.trans he') hp n n' hn (.refl _) (.refl _) hs
      show T.Outcome r' (fun n n' => Q n.heap n'.heap) m m' ((f a).run n) ((f' a').run n')
      generalize (f a).run n = o at hrest ⊢
      generalize (f' a').run n' = o' at hrest ⊢
      cases hrest with
      | error hn hd hd' => exact .error hn (he.trans hd) (he'.trans hd')
      | ok hn hd hd' hr hq => exact .ok hn (he.trans hd) (he'.trans hd') hr hq

theorem pure {a : α} {a' : α'} (hp : ∀ k k', h.Extends k → h'.Extends k' → P k k' a a') :
    T.Together h h' r (pure a) (pure a') r P :=
  fun _ _ hm hk hk' hr => .ok hm (.refl _) (.refl _) hr (hp _ _ hk hk')

theorem throw (stop : Stop) : T.Together h h' r (throw stop) (throw stop) r' P :=
  fun _ _ hm _ _ _ => .error hm (.refl _) (.refl _)

theorem fail (kind : ErrorKind) : T.Together h h' r (Execution.fail kind) (Execution.fail kind) r' P :=
  throw (.error kind)

/-- What is done alike on all machines with the objects of two heaps is done alike on those with more. -/
theorem later (hx : T.Together h h' r x x' s P) (hk : h.Extends k) (hk' : h'.Extends k') : T.Together k k' r x x' s P :=
  fun m m' hm he he' hr => hx m m' hm (hk.trans he) (hk'.trans he') hr

/-- More room than needed does no harm. -/
theorem weaken (hx : T.Together h h' r x x' s P) (hr : r ≤ r') : T.Together h h' r' x x' s P :=
  fun m m' hm hk hk' hroom => hx m m' hm hk hk' (hroom.le hr)

end Together

/-- Nothing is said about the results. -/
abbrev Any {σ α α' : Type} (_ _ : σ) (_ : α) (_ : α') : Prop := True

/-- The results are equal. -/
abbrev Equal {σ α : Type} (_ _ : σ) (a a' : α) : Prop := a = a'

/-! ### The stack -/

section Stack

variable {h h' : Heap} {r : Nat} {v v' : Value}

theorem together_push (hv : T.Alike h h' v v') :
    T.Together h h' r (Execution.push v) (Execution.push v') r Any := by
  intro m m' hm hk hk' hr
  have hrun : ∀ (m : Machine) v, (Execution.push v).run m =
      if m.limits.stackMax ≤ m.stack.size then .error (.error .stackOverflow) m
      else .ok () { m with stack := m.stack.push v } := by
    intro m v
    unfold Execution.push
    rw [Execution.run_bind_of_ok (EStateM.run_get _)]
    split <;> rfl
  by_cases hfull : m.limits.stackMax ≤ m.stack.size
  · rw [hrun, hrun, if_pos hfull, if_pos (by rwa [← hm.limits, ← hm.size])]
    exact .error hm (.refl _) (.refl _)
  · rw [hrun, hrun, if_neg hfull, if_neg (by rwa [← hm.limits, ← hm.size])]
    refine .ok (hm.stacked ?_ fun i hi => ?_) (.refl _) (.refl _) ?_ trivial
    · rw [Array.size_push, Array.size_push, hm.size]
    · rw [Array.getElem?_push, Array.getElem?_push, ← hm.size]
      split
      · exact .some (hv.mono hk hk')
      · exact hm.stack i hi
    · unfold Room at hr ⊢
      rw [Array.size_push]
      omega

theorem together_pop : T.Together h h' (r + 1) Execution.pop Execution.pop r T.Alike := by
  intro m m' hm hk hk' hr
  have hnone : ∀ {m : Machine}, m.stack[m.stack.size - 1]? = none →
    Execution.pop.run m = .error (.error .stackUnderflow) m := by
    intro m h
    unfold Execution.pop
    rw [Execution.run_bind_of_ok (EStateM.run_get _), Array.back?_eq_getElem?, h]
    rfl
  have hsome : ∀ {m : Machine} {v}, m.stack[m.stack.size - 1]? = some v →
      Execution.pop.run m = .ok v { m with stack := m.stack.pop } := by
    intro m v h
    unfold Execution.pop
    rw [Execution.run_bind_of_ok (EStateM.run_get _), Array.back?_eq_getElem?, h]
    rfl
  have hroom : T.hidden = 0 ∨ T.hidden + (r + 1) ≤ m.stack.size := hr.resolve_left (Nat.succ_ne_zero r)
  rcases rel_cases (hm.stack (m.stack.size - 1) (by omega)) with ⟨h, h'⟩ | ⟨v, v', h, h', hv⟩
  · rw [hnone h, hnone (hm.size ▸ h')]
    exact .error hm (.refl _) (.refl _)
  · rw [hsome h, hsome (hm.size ▸ h')]
    refine .ok (hm.stacked ?_ fun i hi => ?_) (.refl _) (.refl _) ?_ hv
    · rw [Array.size_pop, Array.size_pop, hm.size]
    · rw [Array.getElem?_pop, Array.getElem?_pop, ← hm.size]
      split
      · exact hm.stack i hi
      · exact .none
    · unfold Room
      rw [Array.size_pop]
      omega

theorem together_popTwo : T.Together h h' (r + 2) Execution.popTwo Execution.popTwo r
    fun k k' p p' => T.Alike k k' p.1 p'.1 ∧ T.Alike k k' p.2 p'.2 := by
  refine together_pop.bind fun k k' v v' _ _ hv => together_pop.bind fun l l' w w' hl hl' hw =>
    .pure fun n n' hn hn' => ?_
  exact ⟨hw.mono hn hn', hv.mono (hl.trans hn) (hl'.trans hn')⟩

theorem together_peek {d : Nat} (hd : d + 1 ≤ r) :
    T.Together h h' r (Execution.peek d) (Execution.peek d) r T.Alike := by
  intro m m' hm hk hk' hr
  have hrun : ∀ m : Machine, (Execution.peek d).run m =
      (if m.stack.size < d + 1 then Execution.fail .stackUnderflow
      else (m.stack[m.stack.size - (d + 1)]?).elim (throw (.fault .outOfRange)) Pure.pure).run m := by
    intro m
    unfold Execution.peek
    rw [Execution.run_bind_of_ok (EStateM.run_get _)]
    split
    · rfl
    · cases m.stack[m.stack.size - (d + 1)]? <;> rfl
  have hroom : T.hidden = 0 ∨ T.hidden + r ≤ m.stack.size := hr.resolve_left (by omega)
  rw [hrun, hrun, ← hm.size]
  split
  · exact .error hm (.refl _) (.refl _)
  · rcases rel_cases (hm.stack (m.stack.size - (d + 1)) (by omega)) with ⟨h, h'⟩ | ⟨v, v', h, h', hv⟩
    · rw [h, h']
      exact .error hm (.refl _) (.refl _)
    · rw [h, h']
      exact .ok hm (.refl _) (.refl _) hr hv

theorem together_top {count : Nat} (hc : count ≤ r) :
    T.Together h h' r (Execution.top count) (Execution.top count) r
      fun k k' vs vs' => List.Forall₂ (T.Alike k k') vs vs' := by
  intro m m' hm hk hk' hr
  have hrun : ∀ m : Machine, (Execution.top count).run m =
      if m.stack.size < count then .error (.error .stackUnderflow) m
      else .ok (m.stack.extract (m.stack.size - count) m.stack.size).toList m := by
    intro m
    unfold Execution.top
    rw [Execution.run_bind_of_ok (EStateM.run_get _)]
    split <;> rfl
  rw [hrun, hrun, ← hm.size]
  split
  · exact .error hm (.refl _) (.refl _)
  · next hsize =>
      refine .ok hm (.refl _) (.refl _) hr (List.forall₂_iff_get.mpr ⟨by simp [hm.size], fun i hi hi' => ?_⟩)
      have hlen : i < count := by
        simp only [Array.length_toList, Array.size_extract] at hi
        omega
      have hroom : T.hidden = 0 ∨ T.hidden + r ≤ m.stack.size := by
        unfold Room at hr
        omega
      have := hm.stack (m.stack.size - count + i) (by omega)
      rw [Array.getElem?_eq_getElem (by omega), Array.getElem?_eq_getElem (by rw [← hm.size]; omega)] at this
      cases this with
      | some hv => simpa using hv

theorem together_truncate {size : Nat} :
    T.Together h h' r (Execution.truncate size) (Execution.truncate size) 0 Any := by
  intro m m' hm hk hk' hr
  refine .ok (hm.stacked ?_ fun i hi => ?_) (.refl _) (.refl _) .zero trivial
  · simp [hm.size]
  · simp only [← Array.getElem?_toList, Array.toList_shrink, List.getElem?_take]
    split
    · rw [Array.getElem?_toList, Array.getElem?_toList]
      exact hm.stack i hi
    · exact .none

/-- A slot other than the callee's lies above the hidden values. -/
theorem together_slotIndex {slot : Nat} (hslot : T.hidden = 0 ∨ 1 ≤ slot) :
    T.Together h h' r (Execution.slotIndex slot) (Execution.slotIndex slot) r
      fun _ _ i i' => i = i' ∧ T.hidden ≤ i := by
  intro m m' hm hk hk' hr
  have hnone : ∀ {m : Machine}, m.frames = [] →
      (Execution.slotIndex slot).run m = .error (.error (.invalidBytecode .noFrame)) m := by
    intro m h
    unfold Execution.slotIndex
    rw [Execution.run_bind_of_ok (EStateM.run_get _), h]
    rfl
  have hsome : ∀ {m : Machine} {frame fs}, m.frames = frame :: fs → (Execution.slotIndex slot).run m =
      if frame.base + slot < m.stack.size then .ok (frame.base + slot) m else .error (.error .stackUnderflow) m := by
    intro m frame fs h
    unfold Execution.slotIndex
    rw [Execution.run_bind_of_ok (EStateM.run_get _), h]
    simp only
    split <;> rfl
  rcases frames_cases hm.frames with ⟨h, h'⟩ | ⟨frame, fs, frame', fs', h, h', hf, -⟩
  · rw [hnone h, hnone h']
    exact .error hm (.refl _) (.refl _)
  · rw [hsome h, hsome h', ← hf.base, ← hm.size]
    split
    · have := hf.above
      exact .ok hm (.refl _) (.refl _) hr ⟨rfl, by omega⟩
    · exact .error hm (.refl _) (.refl _)

theorem together_getSlot {slot : Nat} (hslot : T.hidden = 0 ∨ 1 ≤ slot) :
    T.Together h h' r (Execution.getSlot slot) (Execution.getSlot slot) r T.Alike := by
  refine (together_slotIndex hslot).bind fun k k' i i' _ _ hi => ?_
  obtain ⟨rfl, hi⟩ := hi
  intro m m' hm hk hk' hr
  rw [Execution.run_bind_of_ok (EStateM.run_get _), Execution.run_bind_of_ok (EStateM.run_get _)]
  rcases rel_cases (hm.stack i hi) with ⟨h, h'⟩ | ⟨v, v', h, h', hv⟩
  · rw [h, h']
    exact .error hm (.refl _) (.refl _)
  · rw [h, h']
    exact .ok hm (.refl _) (.refl _) hr hv

theorem together_setSlot {slot : Nat} (hslot : T.hidden = 0 ∨ 1 ≤ slot) (hv : T.Alike h h' v v') :
    T.Together h h' r (Execution.setSlot slot v) (Execution.setSlot slot v') r Any := by
  refine (together_slotIndex hslot).bind fun k k' i i' hk hk' hi => ?_
  obtain ⟨rfl, hi⟩ := hi
  intro m m' hm hl hl' hr
  refine .ok (hm.stacked ?_ fun j hj => ?_) (.refl _) (.refl _) ?_ trivial
  · simp [hm.size]
  · rw [Array.getElem?_setIfInBounds, Array.getElem?_setIfInBounds, ← hm.size]
    split
    · split
      · exact .some (hv.mono (hk.trans hl) (hk'.trans hl'))
      · exact .none
    · exact hm.stack j hj
  · unfold Room at hr ⊢
    simpa using hr

end Stack

end Pairing

end Lox
