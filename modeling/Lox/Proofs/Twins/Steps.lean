import Lox.Machine.Step
import Lox.Proofs.Twins.Machines

/-! One instruction on machines that run side by side. An instruction is fetched first, with its operand looked up,
and then carried out. If both machines fetch instructions that do the same, they are still side by side when these
are carried out: nothing in what an instruction does depends on where objects were allocated. -/

namespace Lox

namespace Execution

/-- Pushes the value of the global variable with a key. -/
def pushGlobal (key : Key) : Execution Unit := do
  match (← get).globals.get? key with
  | some value => push value
  | none => failUndefined key

/-- Gives the global variable with a key the value on the top, and takes that value. -/
def storeGlobal (key : Key) : Execution Unit := do
  let value ← peek 0
  modify fun m => { m with globals := (m.globals.set key value).1 }
  let _ ← pop

/-- Gives the global variable with a key a value, if it exists. -/
def assignGlobal (key : Key) (value : Value) : Execution Unit := do
  let isNew ← modifyGet fun m =>
    let (globals, isNew) := m.globals.set key value
    (isNew, { m with globals })
  if isNew then
    modify fun m => { m with globals := (m.globals.erase key).1 }
    failUndefined key

/-- An instruction with its operand. -/
inductive Fetched where
  /-- An instruction without operand. -/
  | plain (op : Opcode)
  /-- Push a constant. -/
  | value (v : Value)
  | getLocal (slot : Nat)
  | setLocal (slot : Nat)
  | getGlobal (key : Key)
  | setGlobal (key : Key)
  | defineGlobal (key : Key)
  | jump (distance : Int)
  | jumpIfFalse (distance : Int)
  | call (count : Nat)

/-- Reads the operand of an instruction. -/
def operand : Opcode → Execution Fetched
  | .constant => do
    let index ← readByte
    return .value (← constant index.toNat)
  | .constantWide => do
    let index ← readWord
    return .value (← constant index)
  | .getLocal => return .getLocal (← readByte).toNat
  | .setLocal => return .setLocal (← readByte).toNat
  | .getGlobal => return .getGlobal (← readName)
  | .setGlobal => return .setGlobal (← readName)
  | .defineGlobal => return .defineGlobal (← readName)
  | .jump | .loop => return .jump (← readSigned)
  | .jumpIfFalse => return .jumpIfFalse (← readSigned)
  | .call => return .call (← readByte).toNat
  | op => return .plain op

/-- Reads the next instruction. -/
def fetch : Execution Fetched := do
  let byte ← readByte
  match Opcode.ofByte? byte with
  | some op => operand op
  | none => fail (.unknownOpcode byte.toNat)

theorem run_fetch {m : Machine} {k : Handle} {f : FunctionObject} {a base : Nat} {fs : List Frame} {vs : List Value}
    {byte : UInt8} {op : Opcode} (hf : m.heap.function? k = some f) (hb : f.chunk.byteAt? a = some byte)
    (hop : Opcode.ofByte? byte = some op) :
    fetch.run (m.config (⟨k, a, base⟩ :: fs) vs) = (operand op).run (m.config (⟨k, a + 1, base⟩ :: fs) vs) := by
  unfold fetch
  rw [run_bind_of_ok (run_readByte hf hb), hop]

/-- Carries out an instruction that has been read. -/
def perform : Fetched → Execution Flow
  | .plain op => execute op
  | .value v => do
    push v
    return .next
  | .getLocal slot => do
    push (← getSlot slot)
    return .next
  | .setLocal slot => do
    setSlot slot (← peek 0)
    return .next
  | .getGlobal key => do
    pushGlobal key
    return .next
  | .setGlobal key => do
    assignGlobal key (← peek 0)
    return .next
  | .defineGlobal key => do
    storeGlobal key
    return .next
  | .jump distance => do
    jump distance
    return .next
  | .jumpIfFalse distance => do
    if (← peek 0).isFalsey then jump distance
    return .next
  | .call count => do
    callValue (← peek count) count
    return .next

/-- How many values on the top an instruction works on. -/
def Fetched.need : Fetched → Nat
  | .plain .pushNil | .plain .pushTrue | .plain .pushFalse => 0
  | .plain .pop | .plain .negate | .plain .not | .plain .print | .plain .ret => 1
  | .plain _ => 2
  | .value _ | .getLocal _ | .getGlobal _ | .jump _ => 0
  | .setLocal _ | .setGlobal _ | .defineGlobal _ | .jumpIfFalse _ => 1
  | .call count => count + 1

theorem getGlobal_eq : getGlobal = readName >>= pushGlobal := rfl

theorem defineGlobal_eq : defineGlobal = readName >>= storeGlobal := rfl

theorem setGlobal_eq : setGlobal = readName >>= fun key => peek 0 >>= assignGlobal key := rfl

theorem execute_eq (op : Opcode) : execute op = operand op >>= perform := by
  cases op <;> simp only [execute, operand, perform, getGlobal_eq, defineGlobal_eq, setGlobal_eq, bind_assoc, pure_bind]

/-- An instruction is read and then carried out. -/
theorem step_eq : step = fetch >>= perform := by
  unfold step fetch
  rw [bind_assoc]
  congr
  funext byte
  cases Opcode.ofByte? byte with
  | none => rfl
  | some op => exact execute_eq op

end Execution

namespace Heap

/-- The keys are those of variables with the same name. -/
structure SameKey (h h' : Heap) (key key' : Key) : Prop where
  left : h.key? key.handle = some key
  right : h'.key? key'.handle = some key'
  text : h.SameText h' key.handle key'.handle

theorem SameKey.mono {h h' k k' : Heap} {key key' : Key} (hk : SameKey h h' key key') (he : h.Extends k)
    (he' : h'.Extends k') : SameKey k k' key key' := by
  have hkeep : ∀ {h k : Heap} {key : Key}, h.Extends k → h.key? key.handle = some key →
    k.key? key.handle = some key := by
    intro h k key he hkey
    obtain ⟨s, hs, heq⟩ := key?_eq_some_iff.mp hkey
    exact key?_eq_some_iff.mpr ⟨s, he.string? hs, heq⟩
  exact ⟨hkeep he hk.left, hkeep he' hk.right, hk.text.mono he he'⟩

end Heap

namespace Pairing

open Execution

variable {T : Pairing} {m m' : Machine} {h h' : Heap} {r : Nat} {v v' : Value} {key key' : Key}

theorem Together.modify {g g' : Machine → Machine}
    (hg : ∀ m m', T.Machines m m' → h.Extends m.heap → h'.Extends m'.heap → T.Machines (g m) (g' m'))
    (hheap : ∀ m, (g m).heap = m.heap) (hheap' : ∀ m, (g' m).heap = m.heap)
    (hsize : ∀ m, (g m).stack.size = m.stack.size) :
    T.Together h h' r (modify g : Execution Unit) (modify g' : Execution Unit) r Any := by
  intro m m' hm hk hk' hr
  refine .ok (hg m m' hm hk hk') (hheap m ▸ .refl _) (hheap' m' ▸ .refl _) ?_ trivial
  unfold Room at hr ⊢
  rwa [hsize]

/-- The instruction goes on to the next one. -/
theorem Together.next {x x' : Execution Unit} {s : Nat} (hx : T.Together h h' r x x' s Any) :
    T.Together h h' r (do x; return Flow.next) (do x'; return Flow.next) s Equal :=
  hx.bind fun _ _ _ _ _ _ _ => .pure fun _ _ _ _ => rfl

/-! ### Global variables -/

theorem failUndefined_run {α : Type} {s : StringObject} (hs : m.heap.string? key.handle = some s) :
    (failUndefined key : Execution α).run m = .error (.error (.undefinedVariable s.chars)) m := by
  have heq : (failUndefined key : Execution α).run m =
    .error (.error (.undefinedVariable (((m.heap.string? key.handle).map (·.chars)).getD ""))) m := rfl
  rw [heq, hs]
  rfl

theorem together_failUndefined {α : Type} {r' : Nat} {Q : Heap → Heap → α → α → Prop} (hk : h.SameKey h' key key') :
    T.Together h h' r (failUndefined key) (failUndefined key') r' Q := by
  intro m m' hm he he' _
  obtain ⟨s, t, hs, ht, hst⟩ := (hk.mono he he').text
  rw [failUndefined_run hs, failUndefined_run ht, hst]
  exact .error hm (.refl _) (.refl _)

theorem together_pushGlobal (hk : h.SameKey h' key key') :
    T.Together h h' r (pushGlobal key) (pushGlobal key') r Any := by
  intro m m' hm he he' hr
  have hk := hk.mono he he'
  obtain ⟨s, t, hs, ht, hst⟩ := hk.text
  unfold pushGlobal
  rw [run_bind_of_ok (EStateM.run_get _), run_bind_of_ok (EStateM.run_get _), hm.left.get?_key hs rfl hk.left,
    hm.right.get?_key ht hst.symm hk.right]
  rcases rel_cases (hm.globals s.chars) with ⟨hg, hg'⟩ | ⟨v, v', hg, hg', hv⟩
  · rw [hg, hg']
    exact together_failUndefined hk m m' hm (.refl _) (.refl _) hr
  · rw [hg, hg']
    exact together_push hv m m' hm (.refl _) (.refl _) hr

/-- Both machines give the variable a value. -/
theorem Machines.define (hm : T.Machines m m') (hk : m.heap.SameKey m'.heap key key')
    (hv : T.Alike m.heap m'.heap v v') :
    T.Machines { m with globals := (m.globals.set key v).1 } { m' with globals := (m'.globals.set key' v').1 } where
  left := hm.left.define hk.left v
  right := hm.right.define hk.right v'
  links := hm.links
  size := hm.size
  stack := hm.stack
  frames := hm.frames
  globals name := by
    obtain ⟨s, t, hs, ht, hst⟩ := hk.text
    rw [hm.left.global?_define hs rfl hk.left, hm.right.global?_define ht hst.symm hk.right]
    split
    · exact .some hv
    · exact hm.globals name
  last := hm.last
  limits := hm.limits
  clock := hm.clock
  output := hm.output

/-- Both machines take back the definition of a variable that was not there. -/
theorem Machines.undo (hm : T.Machines m m') {s : StringObject} (hs : m.heap.string? key.handle = some s)
    (hk : m.heap.SameKey m'.heap key key') (hnew : m.global? s.chars = none) :
    T.Machines { m with globals := ((m.globals.set key v).1.erase key).1 }
      { m' with globals := ((m'.globals.set key' v').1.erase key').1 } where
  left := (hm.left.define hk.left v).drop hk.left
  right := (hm.right.define hk.right v').drop hk.right
  links := hm.links
  size := hm.size
  stack := hm.stack
  frames := hm.frames
  globals name := by
    obtain ⟨s', t, hs', ht, hst⟩ := hk.text
    rw [hs] at hs'
    cases hs'
    have hnew' : m'.global? s.chars = none := by
      rcases rel_cases (hm.globals s.chars) with ⟨-, h⟩ | ⟨w, w', h, -, -⟩
      · exact h
      · simp [hnew] at h
    rw [hm.left.global?_undo hs rfl hk.left hnew, hm.right.global?_undo ht hst.symm hk.right hnew']
    exact hm.globals name
  last := hm.last
  limits := hm.limits
  clock := hm.clock
  output := hm.output

theorem together_storeGlobal (hk : h.SameKey h' key key') :
    T.Together h h' (r + 1) (storeGlobal key) (storeGlobal key') r Any := by
  refine (together_peek (by omega)).bind fun k k' v v' hl hl' hv => ?_
  refine Together.bind (.modify (fun m m' hm he he' => ?_) (fun _ => rfl) (fun _ => rfl) fun _ => rfl)
    fun _ _ _ _ _ _ _ => together_pop.bind fun _ _ _ _ _ _ _ => .pure fun _ _ _ _ => trivial
  exact hm.define (hk.mono (hl.trans he) (hl'.trans he')) (hv.mono he he')

theorem together_assignGlobal (hk : h.SameKey h' key key') (hv : T.Alike h h' v v') :
    T.Together h h' r (assignGlobal key v) (assignGlobal key' v') r Any := by
  intro m m' hm he he' hr
  have hk := hk.mono he he'
  obtain ⟨s, t, hs, ht, hst⟩ := hk.text
  have hrun : ∀ {m : Machine} {key v s}, m.heap.string? key.handle = some s → (assignGlobal key v).run m =
      if (m.globals.set key v).2 = true then
        .error (.error (.undefinedVariable s.chars)) { m with globals := ((m.globals.set key v).1.erase key).1 }
      else .ok () { m with globals := (m.globals.set key v).1 } := by
    intro m key v s hs
    have heq : (assignGlobal key v).run m =
      (if (m.globals.set key v).2 = true then do
        modify fun m => { m with globals := (m.globals.erase key).1 }
        failUndefined key
      else pure () : Execution Unit).run { m with globals := (m.globals.set key v).1 } := rfl
    rw [heq]
    split
    · exact failUndefined_run (m := { m with globals := ((m.globals.set key v).1.erase key).1 }) hs
    · rfl
  have hnew : (m.globals.set key v).2 = true ↔ (m'.globals.set key' v').2 = true := by
    rw [hm.left.set_isNew hs rfl hk.left, hm.right.set_isNew ht hst.symm hk.right]
    rcases rel_cases (hm.globals s.chars) with ⟨hg, hg'⟩ | ⟨w, w', hg, hg', -⟩
    · rw [hg, hg']
    · simp [hg, hg']
  rw [hrun hs, hrun ht, ← hst]
  by_cases hset : (m.globals.set key v).2 = true
  · rw [if_pos hset, if_pos (hnew.mp hset)]
    exact .error (hm.undo hs hk ((hm.left.set_isNew hs rfl hk.left v).mp hset)) (.refl _) (.refl _)
  · rw [if_neg hset, if_neg fun h => hset (hnew.mpr h)]
    exact .ok (hm.define hk (hv.mono he he')) (.refl _) (.refl _) hr trivial

/-! ### Operators -/

theorem together_numberOperands (hr : 2 ≤ r) : T.Together h h' r numberOperands numberOperands r Equal := by
  unfold numberOperands
  refine (together_peek (by omega)).bind fun k k' a a' _ _ ha => (together_peek (by omega)).bind
    fun l l' b b' _ _ hb => ?_
  cases ha with
  | number x =>
      cases hb with
      | number y => exact .pure fun _ _ _ _ => rfl
      | nil | bool | object => exact .fail _
  | nil | bool | object => exact .fail _

theorem together_numeric {f : Float → Float → Value} (hf : ∀ ρ x y, (f x y).Renamed ρ (f x y)) :
    T.Together h h' (r + 2) (numeric f) (numeric f) r Any := by
  unfold numeric
  refine (together_numberOperands (by omega)).bind fun k k' p p' _ _ hp => ?_
  obtain rfl : p = p' := hp
  exact together_popTwo.bind fun _ _ _ _ _ _ _ => together_push (hf _ _ _)

/-- Interning the same text gives the same string. -/
theorem together_intern (chars : String) :
    T.Together h h' r (modifyGet (·.intern chars)) (modifyGet (·.intern chars)) r
      fun k k' a a' => k.SameText k' a a' := by
  intro m m' hm hk hk' hr
  obtain ⟨journal, hint⟩ := m.intern_turn chars
  obtain ⟨journal', hint'⟩ := m'.intern_turn chars
  have hg := Heap.grows_intern m.heap chars
  have hg' := Heap.grows_intern m'.heap chars
  rw [EStateM.run_modifyGet, EStateM.run_modifyGet, hint, hint']
  exact .ok (hm.grow hg hg') hg.keeps hg'.keeps hr
    ⟨_, _, (hm.links.left.intern chars).2.2, (hm.links.right.intern chars).2.2, rfl⟩

theorem together_concatenate {a a' b b' : Handle} (ha : T.Same h h' a a') (hb : T.Same h h' b b') :
    T.Together h h' (r + 2) (concatenate a b) (concatenate a' b') r Any := by
  intro m m' hm hk hk' hr
  unfold concatenate
  rw [run_bind_of_ok (EStateM.run_get _), run_bind_of_ok (EStateM.run_get _)]
  simp only
  rcases hm.links.string? (ha.mono hk hk') with ⟨s, s', hs, hs', hss⟩ | ⟨-, hs, hs'⟩
  · rcases hm.links.string? (hb.mono hk hk') with ⟨t, t', ht, ht', htt⟩ | ⟨-, ht, ht'⟩
    · rw [hs, hs', ht, ht']
      simp only [hss, htt]
      refine Together.bind (s := r) together_popTwo (fun _ _ _ _ _ _ _ => ?_) m m' hm (.refl m.heap) (.refl m'.heap) hr
      exact (together_intern _).bind fun _ _ _ _ _ _ hs => together_push (.object (.inr hs))
    · rw [hs, hs', ht, ht']
      exact .error hm (.refl _) (.refl _)
  · rw [hs, hs']
    exact .error hm (.refl _) (.refl _)

theorem together_add : T.Together h h' (r + 2) add add r Any := by
  unfold add
  refine (together_peek (by omega)).bind fun k k' a a' _ _ ha => (together_peek (by omega)).bind
    fun l l' b b' hl hl' hb => ?_
  cases ha with
  | number x =>
      cases hb with
      | number y => exact together_popTwo.bind fun _ _ _ _ _ _ _ => together_push (.number _)
      | nil | bool | object => exact .fail _
  | object ha =>
      cases hb with
      | object hb => exact together_concatenate (ha.mono hl hl') hb
      | nil | bool | number => exact .fail _
  | nil | bool => exact .fail _

theorem together_negate : T.Together h h' (r + 1) negate negate r Any := by
  unfold negate
  refine (together_peek (by omega)).bind fun k k' a a' _ _ ha => ?_
  cases ha with
  | number x => exact together_pop.bind fun _ _ _ _ _ _ _ => together_push (.number _)
  | nil | bool | object => exact .fail _

theorem together_compareEqual (wanted : Bool) :
    T.Together h h' (r + 2) (compareEqual wanted) (compareEqual wanted) r Any := by
  unfold compareEqual
  refine together_popTwo.bind fun k k' p p' _ _ hp => ?_
  intro m m' hm hk hk' hr
  have heq : p.1.equal p.2 = p'.1.equal p'.2 := hm.links.equal_eq (hp.1.mono hk hk') (hp.2.mono hk hk')
  simp only [heq]
  exact together_push (.bool _) m m' hm (.refl _) (.refl _) hr

theorem together_negateTruth : T.Together h h' (r + 1) negateTruth negateTruth r Any := by
  unfold negateTruth
  refine together_pop.bind fun k k' v v' _ _ hv => ?_
  rw [hv.isFalsey_eq]
  exact together_push (.bool _)

theorem together_print : T.Together h h' (r + 1) print print r Any := by
  refine together_pop.bind fun k k' v v' _ _ hv => ?_
  intro m m' hm hk hk' hr
  have hline : m.display v = m'.display v' := hm.links.display_eq (hv.mono hk hk')
  have hshown : T.Machines { m with output := (m.output.write (m.display v ++ "\n")).1 }
      { m' with output := (m'.output.write (m'.display v' ++ "\n")).1 } :=
    hm.own hm.size hm.stack hm.frames hm.last (by rw [hline, hm.output])
  have hdone : (m.output.write (m.display v ++ "\n")).2 = (m'.output.write (m'.display v' ++ "\n")).2 := by
    rw [hline, hm.output]
  -- the line has been written, and it is left to see whether all of it was
  show T.Outcome r Any m m'
    ((if !(m.output.write (m.display v ++ "\n")).2 then fail (.output Output.closedReason) else pure () :
      Execution Unit).run { m with output := (m.output.write (m.display v ++ "\n")).1 })
    ((if !(m'.output.write (m'.display v' ++ "\n")).2 then fail (.output Output.closedReason) else pure () :
      Execution Unit).run { m' with output := (m'.output.write (m'.display v' ++ "\n")).1 })
  rw [← hdone]
  cases (m.output.write (m.display v ++ "\n")).2 with
  | true => exact .ok hshown (.refl _) (.refl _) hr trivial
  | false => exact .error hshown (.refl _) (.refl _)

/-! ### Calls -/

/-- The call of a function that goes together with another one is abreast with that one's call. -/
theorem together_callFunction {a a' : Handle} {count : Nat} {f f' : FunctionObject} (ha : h.function? a = some f)
    (ha' : h'.function? a' = some f') (harity : f.arity = f'.arity) (hstart : T.abreast a 0 a' 0)
    (hr : count + 1 ≤ r) : T.Together h h' r (callFunction a count) (callFunction a' count) 0 Any := by
  intro m m' hm hk hk' hroom
  have hrun : ∀ {m : Machine} {a : Handle} {f : FunctionObject}, m.heap.function? a = some f →
      (callFunction a count).run m =
      if count ≠ f.arity then .error (.error (.arityMismatch f.arity count)) m
      else if m.limits.framesMax ≤ m.frames.length then .error (.error .stackOverflow) m
      else if m.stack.size < count + 1 then .error (.error .stackUnderflow) m
      else .ok () { m with
        frames := ⟨a, 0, m.stack.size - (count + 1)⟩ :: m.frames
        journal := m.journal.record (.called (m.frames.length + 1) (m.stack.size - (count + 1))) } := by
    intro m a f hf
    unfold callFunction
    rw [run_bind_of_ok (EStateM.run_get _), hf]
    simp only
    split
    · rfl
    · split
      · rfl
      · split <;> rfl
  have hroom : T.hidden = 0 ∨ T.hidden + r ≤ m.stack.size := hroom.resolve_left (by omega)
  have hdone : ∀ {stop : Stop}, T.Outcome 0 Any m m' (.error stop m : EStateM.Result Stop Machine Unit)
      (.error stop m' : EStateM.Result Stop Machine Unit) := .error hm (.refl _) (.refl _)
  have hcalls : m.limits.framesMax ≤ m.frames.length ↔ m'.limits.framesMax ≤ m'.frames.length := by
    rw [hm.limits, hm.frames.length_eq]
  rw [hrun (hk.function? ha), hrun (hk'.function? ha'), ← harity]
  by_cases hargs : count ≠ f.arity
  · rw [if_pos hargs, if_pos hargs]
    exact hdone
  rw [if_neg hargs, if_neg hargs]
  by_cases hfull : m.limits.framesMax ≤ m.frames.length
  · rw [if_pos hfull, if_pos (hcalls.mp hfull)]
    exact hdone
  rw [if_neg hfull, if_neg fun hfull' => hfull (hcalls.mpr hfull'), ← hm.size]
  by_cases hunder : m.stack.size < count + 1
  · rw [if_pos hunder, if_pos hunder]
    exact hdone
  rw [if_neg hunder, if_neg hunder]
  have habove : T.hidden ≤ m.stack.size - (count + 1) + 1 := by omega
  exact .ok (hm.own hm.size hm.stack (.cons ⟨hstart, rfl, habove⟩ hm.frames) hm.last hm.output) (.refl _)
    (.refl _) .zero trivial

/-- Both clocks say the same. -/
theorem together_readClock : T.Together h h' r readClock readClock r Equal := by
  intro m m' hm _ _ hr
  show T.Outcome r (fun _ _ => Eq) m m' (.ok m.clock.now { m with clock := m.clock.next })
    (.ok m'.clock.now { m' with clock := m'.clock.next })
  exact .ok hm.ticked (.refl _) (.refl _) hr (congrArg Clock.now hm.clock)

/-- A function of the host does the same on both machines. -/
theorem together_callNative {n : NativeObject} {count : Nat} (hn : n.Uniform) (hr : count + 1 ≤ r) :
    T.Together h h' r (callNative n count) (callNative n count) 0 Any := by
  unfold callNative
  split
  · exact .fail _
  refine (together_top (by omega)).bind fun k k' vs vs' _ _ hvs =>
    together_readClock.bind fun l l' reading reading' hl hl' hreading => ?_
  cases hreading
  intro m m' hm hk hk' hroom
  rw [run_bind_of_ok (EStateM.run_get _), run_bind_of_ok (EStateM.run_get _), ← hm.size]
  simp only
  split
  · exact .error hm (.refl _) (.refl _)
  · have hargs : List.Forall₂ (T.Alike m.heap m'.heap) vs vs' :=
      hvs.imp fun _ _ hv => hv.mono (hl.trans hk) (hl'.trans hk')
    have hresult := hn _ hm.links.unique_same reading vs vs' hargs
    have hrest : T.Together m.heap m'.heap r (do truncate (m.stack.size - count - 1); push (n.body reading vs))
        (do truncate (m.stack.size - count - 1); push (n.body reading vs')) 0 Any :=
      together_truncate.bind fun _ _ _ _ hl hl' _ => together_push (Alike.mono hresult hl hl')
    exact hrest m m' hm (.refl _) (.refl _) hroom

/-- Equal values are called with equal success. -/
theorem together_callValue {count : Nat} (hv : T.Alike h h' v v') (hr : count + 1 ≤ r) :
    T.Together h h' r (callValue v count) (callValue v' count) 0 Any := by
  cases hv with
  | nil | bool | number => exact .fail _
  | @object a a' ha =>
      intro m m' hm hk hk' hroom
      unfold callValue
      simp only
      rw [run_bind_of_ok (EStateM.run_get _), run_bind_of_ok (EStateM.run_get _)]
      rcases hm.links.string? (ha.mono hk hk') with ⟨s, t, hs, ht, -⟩ | ⟨hobjects, -⟩
      · rw [Heap.string?_eq_some_iff.mp hs, Heap.string?_eq_some_iff.mp ht]
        exact .error hm (.refl _) (.refl _)
      · cases hobjects with
        | native hn hn' huniform =>
            rw [Heap.native?_eq_some_iff.mp hn, Heap.native?_eq_some_iff.mp hn']
            exact together_callNative huniform hr m m' hm (.refl m.heap) (.refl m'.heap) hroom
        | function hf hf' harity _ hstart =>
            rw [Heap.function?_eq_some_iff.mp hf, Heap.function?_eq_some_iff.mp hf']
            exact together_callFunction hf hf' harity hstart hr m m' hm (.refl _) (.refl _) hroom

theorem together_returnFrom : T.Together h h' (r + 1) returnFrom returnFrom 0 Equal := by
  unfold returnFrom
  refine together_pop.bind fun k k' v v' _ _ hv => ?_
  intro m m' hm hk hk' hroom
  rw [run_bind_of_ok (EStateM.run_get _), run_bind_of_ok (EStateM.run_get _)]
  rcases frames_cases hm.frames with ⟨hfs, hfs'⟩ | ⟨f, fs, f', fs', hfs, hfs', hf, hrest⟩
  · rw [hfs, hfs']
    exact .error hm (.refl _) (.refl _)
  · rw [hfs, hfs']
    simp only [← hf.base]
    have hempty : fs.isEmpty = fs'.isEmpty := by cases hrest <;> rfl
    have hclose : T.Together m.heap m'.heap r (modify fun m => { m with frames := fs } : Execution Unit)
        (modify fun m => { m with frames := fs' }) r Any :=
      .modify (fun m m' hm _ _ => hm.own hm.size hm.stack hrest hm.last hm.output) (fun _ => rfl)
        (fun _ => rfl) fun _ => rfl
    refine (hclose.bind fun k k' _ _ hl hl' _ => together_truncate.bind fun n n' _ _ hn hn' _ => ?_) m m' hm (.refl _)
      (.refl _) hroom
    have hv := hv.mono (hk.trans (hl.trans hn)) (hk'.trans (hl'.trans hn'))
    rw [← hempty]
    split
    · refine Together.bind (.modify (fun m m' hm he he' => ?_) (fun _ => rfl) (fun _ => rfl) fun _ => rfl)
        fun _ _ _ _ _ _ _ => .pure fun _ _ _ _ => rfl
      exact hm.own hm.size hm.stack hm.frames (hv.mono he he') hm.output
    · refine (together_push hv).bind fun _ _ _ _ _ _ _ => Together.bind (.modify (fun m m' hm _ _ => ?_) (fun _ => rfl)
        (fun _ => rfl) fun _ => rfl) fun _ _ _ _ _ _ _ => .pure fun _ _ _ _ => rfl
      exact hm.own hm.size hm.stack hm.frames hm.last hm.output

/-! ### Instructions -/

/-- Jumping over the distances leads the innermost calls out of their code, or to places where they go on alike. -/
def Leads (T : Pairing) (m m' : Machine) (d d' : Int) : Prop :=
  ∀ f fs f' fs', m.frames = f :: fs → m'.frames = f' :: fs' →
    ((f.ip : Int) + d < 0 ∧ (f'.ip : Int) + d' < 0) ∨
      0 ≤ (f.ip : Int) + d ∧ 0 ≤ (f'.ip : Int) + d' ∧
        T.abreast f.function ((f.ip : Int) + d).toNat f'.function ((f'.ip : Int) + d').toNat

/-- The machines have fetched instructions that do the same. -/
inductive Fetches (T : Pairing) (m m' : Machine) : Fetched → Fetched → Prop where
  | plain {op : Opcode} (hop : op.operandSize = 0) : Fetches T m m' (.plain op) (.plain op)
  | value {v v' : Value} (hv : T.Alike m.heap m'.heap v v') : Fetches T m m' (.value v) (.value v')
  | getLocal {slot : Nat} (hs : T.hidden = 0 ∨ 1 ≤ slot) : Fetches T m m' (.getLocal slot) (.getLocal slot)
  | setLocal {slot : Nat} (hs : T.hidden = 0 ∨ 1 ≤ slot) : Fetches T m m' (.setLocal slot) (.setLocal slot)
  | getGlobal {key key' : Key} (hk : m.heap.SameKey m'.heap key key') :
      Fetches T m m' (.getGlobal key) (.getGlobal key')
  | setGlobal {key key' : Key} (hk : m.heap.SameKey m'.heap key key') :
      Fetches T m m' (.setGlobal key) (.setGlobal key')
  | defineGlobal {key key' : Key} (hk : m.heap.SameKey m'.heap key key') :
      Fetches T m m' (.defineGlobal key) (.defineGlobal key')
  | jump {d d' : Int} (hl : T.Leads m m' d d') : Fetches T m m' (.jump d) (.jump d')
  | jumpIfFalse {d d' : Int} (hl : T.Leads m m' d d') : Fetches T m m' (.jumpIfFalse d) (.jumpIfFalse d')
  | call {count : Nat} : Fetches T m m' (.call count) (.call count)

theorem outcome_jump {d d' : Int} (hm : T.Machines m m') (hl : T.Leads m m' d d') (hr : T.Room r m) :
    T.Outcome r Any m m' ((jump d).run m) ((jump d').run m') := by
  have hnone : ∀ {m : Machine} {d}, m.frames = [] → (jump d).run m = .error (.error (.invalidBytecode .noFrame)) m := by
    intro m d h
    unfold jump
    rw [run_bind_of_ok (EStateM.run_get _), h]
    rfl
  have hsome : ∀ {m : Machine} {d : Int} {f fs}, m.frames = f :: fs → (jump d).run m =
      if (f.ip : Int) + d < 0 then .error (.error (.invalidBytecode .jumpOutOfRange)) m
      else .ok () { m with frames := { f with ip := ((f.ip : Int) + d).toNat } :: fs } := by
    intro m d f fs h
    unfold jump
    rw [run_bind_of_ok (EStateM.run_get _), h]
    simp only
    split <;> rfl
  rcases frames_cases hm.frames with ⟨hfs, hfs'⟩ | ⟨f, fs, f', fs', hfs, hfs', hf, hrest⟩
  · rw [hnone hfs, hnone hfs']
    exact .error hm (.refl _) (.refl _)
  · rw [hsome hfs, hsome hfs']
    rcases hl f fs f' fs' hfs hfs' with ⟨hneg, hneg'⟩ | ⟨hpos, hpos', habreast⟩
    · rw [if_pos hneg, if_pos hneg']
      exact .error hm (.refl _) (.refl _)
    · rw [if_neg (by omega), if_neg (by omega)]
      exact .ok (hm.own hm.size hm.stack (.cons ⟨habreast, hf.base, hf.above⟩ hrest) hm.last hm.output) (.refl _)
        (.refl _) hr trivial

theorem peek_cases (m : Machine) (d : Nat) :
    (∃ stop, (peek d).run m = .error stop m) ∨ ∃ v, (peek d).run m = .ok v m := by
  unfold peek
  rw [run_bind_of_ok (EStateM.run_get _)]
  split
  · exact .inl ⟨_, rfl⟩
  · split
    · exact .inr ⟨_, rfl⟩
    · exact .inl ⟨_, rfl⟩

theorem Outcome.next {x x' : Execution Unit} (ho : T.Outcome r Any m m' (x.run m) (x'.run m')) :
    T.Outcome r Equal m m' ((do x; return Flow.next : Execution Flow).run m)
      ((do x'; return Flow.next : Execution Flow).run m') := by
  rw [EStateM.run_bind, EStateM.run_bind]
  generalize x.run m = o at ho ⊢
  generalize x'.run m' = o' at ho ⊢
  cases ho with
  | error hn hk hk' => exact .error hn hk hk'
  | ok hn hk hk' hr => exact .ok hn hk hk' hr rfl

theorem Outcome.room {α α' : Type} {Q : Machine → Machine → α → α' → Prop} {o : EStateM.Result Stop Machine α}
    {o' : EStateM.Result Stop Machine α'} (ho : T.Outcome r Q m m' o o') : T.Outcome 0 Q m m' o o' := by
  cases ho with
  | error hn hk hk' => exact .error hn hk hk'
  | ok hn hk hk' _ hq => exact .ok hn hk hk' .zero hq

/-- Instructions without operand. -/
theorem together_plain {op : Opcode} (hop : op.operandSize = 0) (hr : (Fetched.plain op).need ≤ r) :
    ∃ s, T.Together h h' r (execute op) (execute op) s Equal := by
  obtain ⟨s, hs⟩ : ∃ s, T.Together h h' (Fetched.plain op).need (execute op) (execute op) s Equal := by
    cases op with
    | pushNil => exact ⟨_, (together_push .nil).next⟩
    | pushTrue => exact ⟨_, (together_push (.bool true)).next⟩
    | pushFalse => exact ⟨_, (together_push (.bool false)).next⟩
    | pop => exact ⟨_, together_pop.bind fun _ _ _ _ _ _ _ => .pure fun _ _ _ _ => rfl⟩
    | add => exact ⟨_, together_add.next⟩
    | subtract | multiply | divide => exact ⟨_, (together_numeric fun _ _ _ => .number _).next⟩
    | greater | greaterEqual | less | lessEqual => exact ⟨_, (together_numeric fun _ _ _ => .bool _).next⟩
    | equal => exact ⟨_, (together_compareEqual true).next⟩
    | notEqual => exact ⟨_, (together_compareEqual false).next⟩
    | negate => exact ⟨_, together_negate.next⟩
    | not => exact ⟨_, together_negateTruth.next⟩
    | print => exact ⟨_, together_print.next⟩
    | ret => exact ⟨_, together_returnFrom⟩
    | constant | constantWide | getLocal | setLocal | getGlobal | setGlobal | defineGlobal | jump | jumpIfFalse | loop
      | call => cases hop
  exact ⟨s, hs.weaken hr⟩

/-- **One instruction.** Machines that run side by side and have fetched instructions that do the same are side by
side when these are carried out, or have stopped for the same reason. -/
theorem outcome_perform {i i' : Fetched} (hm : T.Machines m m') (hi : T.Fetches m m' i i') (hr : T.Room i.need m) :
    T.Outcome 0 Equal m m' ((perform i).run m) ((perform i').run m') := by
  have hrun : ∀ {x x' : Execution Flow} {r s : Nat}, T.Together m.heap m'.heap r x x' s Equal → T.Room r m →
      T.Outcome 0 Equal m m' (x.run m) (x'.run m') :=
    fun hx hr => (hx m m' hm (.refl _) (.refl _) hr).room
  cases hi with
  | plain hop =>
      obtain ⟨s, hs⟩ := together_plain hop (Nat.le_refl _)
      exact hrun hs hr
  | value hv => exact hrun (together_push hv).next hr
  | getLocal hs => exact hrun ((together_getSlot hs).bind fun _ _ _ _ _ _ hv => (together_push hv).next) hr
  | setLocal hs =>
      exact hrun ((together_peek (Nat.le_refl 1)).bind fun _ _ _ _ _ _ hv => (together_setSlot hs hv).next) hr
  | getGlobal hk => exact hrun (together_pushGlobal hk).next hr
  | setGlobal hk =>
      exact hrun ((together_peek (Nat.le_refl 1)).bind fun _ _ _ _ he he' hv =>
        (together_assignGlobal (hk.mono he he') hv).next) hr
  | defineGlobal hk => exact hrun (together_storeGlobal hk).next hr
  | jump hl => exact (outcome_jump hm hl hr).room.next
  | @jumpIfFalse d d' hl =>
      -- looking at the condition changes neither machine, so the distances still lead where they led
      have hpeek := together_peek (Nat.le_refl 1) m m' hm (.refl _) (.refl _) hr
      show T.Outcome 0 Equal m m' ((do
          let v ← peek 0
          if v.isFalsey then jump d
          return Flow.next : Execution Flow).run m) ((do
          let v ← peek 0
          if v.isFalsey then jump d'
          return Flow.next : Execution Flow).run m')
      rcases peek_cases m 0 with ⟨stop, hrun⟩ | ⟨v, hrun⟩ <;> rcases peek_cases m' 0 with ⟨stop', hrun'⟩
        | ⟨v', hrun'⟩ <;>
        rw [hrun, hrun'] at hpeek
      · cases hpeek
        rw [run_bind_of_error hrun, run_bind_of_error hrun']
        exact .error hm (.refl _) (.refl _)
      · cases hpeek
      · cases hpeek
      · cases hpeek with
        | ok _ _ _ _ hv =>
            rw [run_bind_of_ok hrun, run_bind_of_ok hrun', hv.isFalsey_eq]
            split
            · exact (outcome_jump hm hl hr).room.next
            · exact .ok hm (.refl _) (.refl _) .zero rfl
  | call =>
      exact hrun ((together_peek (Nat.le_refl _)).bind fun _ _ _ _ _ _ hv =>
        (together_callValue hv (Nat.le_refl _)).next) hr

/-- The machines read instructions that do the same, or both stop. -/
abbrev Fetching (T : Pairing) (m m' : Machine) : Prop := T.Outcome 0 T.Fetches m m' (fetch.run m) (fetch.run m')

theorem outcome_step (hf : T.Fetching m m') (hr : ∀ i n, fetch.run m = .ok i n → T.Room i.need n) :
    T.Outcome 0 Equal m m' (step.run m) (step.run m') := by
  rw [step_eq, EStateM.run_bind, EStateM.run_bind]
  unfold Fetching at hf
  generalize fetch.run m = o at hf hr ⊢
  generalize fetch.run m' = o' at hf ⊢
  cases hf with
  | error hn hk hk' => exact .error hn hk hk'
  | @ok n n' i i' hn hk hk' _ hi =>
      have ho := outcome_perform hn hi (hr i n rfl)
      show T.Outcome 0 Equal m m' ((perform i).run n) ((perform i').run n')
      generalize (perform i).run n = o at ho ⊢
      generalize (perform i').run n' = o' at ho ⊢
      cases ho with
      | error hn he he' => exact .error hn (hk.trans he) (hk'.trans he')
      | ok hn he he' hr hq => exact .ok hn (hk.trans he) (hk'.trans he') hr hq

/-- What each step keeps, a run keeps: machines that run side by side, and have what it takes to go on side by side,
end alike or have both not ended. -/
theorem outcome_steps {I : Machine → Machine → Prop}
    (hstep : ∀ n n', T.Machines n n' → I n n' → T.Outcome 0 Equal n n' (step.run n) (step.run n'))
    (hkeep : ∀ n n' l l', I n n' → step.run n = .ok .next l → step.run n' = .ok .next l' → T.Machines l l' →
      n.heap.Extends l.heap → n'.heap.Extends l'.heap → I l l')
    (budget : Nat) (hm : T.Machines m m') (hi : I m m') :
    T.Outcome 0 Any m m' ((steps budget).run m) ((steps budget).run m') := by
  induction budget generalizing m m' with
  | zero => exact .error hm (.refl _) (.refl _)
  | succ budget ih =>
      have hone := hstep m m' hm hi
      have hnext := hkeep m m'
      rw [steps, EStateM.run_bind, EStateM.run_bind]
      generalize step.run m = o at hone hnext ⊢
      generalize step.run m' = o' at hone hnext ⊢
      cases hone with
      | error hn hk hk' => exact .error hn hk hk'
      | @ok n n' flow flow' hn hk hk' hr hflow =>
          obtain rfl : flow = flow' := hflow
          cases flow with
          | halt => exact .ok hn hk hk' hr trivial
          | next =>
              have hrest := ih hn (hnext n n' hi rfl rfl hn hk hk')
              show Outcome _ _ _ m m' ((steps budget).run n) ((steps budget).run n')
              generalize (steps budget).run n = o at hrest ⊢
              generalize (steps budget).run n' = o' at hrest ⊢
              cases hrest with
              | error hl he he' => exact .error hl (hk.trans he) (hk'.trans he')
              | ok hl he he' hr hq => exact .ok hl (hk.trans he) (hk'.trans he') hr hq

end Pairing

end Lox
