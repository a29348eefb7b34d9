import Lox.Proofs.Flow
import Lox.Proofs.Machine.Instructions

/-! The stack of a running program, call by call. Each active call owns the values from its function upwards, and
how many there are is what the layout of its code says for its next instruction; a call that waits for another one
expects one value more, the result. Below the outermost call lie the values of the host. Here it is shown what one
instruction can do to this order: it works on the values of the innermost call, or it opens a call above them, or it
closes the innermost call and hands one value down. The errors that remain are those of the program and of the
machine's limits. What an instruction can do at all is said once, in `Stage.Acts`; everything else about the
instructions of a call follows from there. -/

namespace Lox

/-- A value stands for something. -/
def Library.Knows (L : Library) (heap : Heap) (v : Value) : Prop := ∃ d, L.view heap v = some d

theorem Library.Knows.mono {L : Library} {heap heap' : Heap} {v : Value} (h : L.Knows heap v)
    (hh : heap.Extends heap') : L.Knows heap' v := h.imp fun _ => Library.view_mono hh

theorem Lands.cast {code : List Spot} {b x y : Nat} (h : Lands code b x) (hx : x = y) : Lands code b y := hx ▸ h

/-- An error of the program, or of the machine's limits. The others would be the compiler's fault. -/
def ErrorKind.Ordinary : ErrorKind → Prop
  | .stackUnderflow | .unknownOpcode _ | .invalidBytecode _ => False
  | _ => True

/-- What stays the same in a run: the functions that can be reached and where their instructions are, and the objects
that are there from the start. Whatever the clock says, a function of the host returns one of its arguments or
something known. -/
structure Stage where
  lib : Library
  heap : Heap
  code : Handle → List Spot
  fits : lib.Fits heap
  coded : ∀ k r, lib.routine k = some r → ∃ f, Coded heap k r f (code k)
  hosted : ∀ k n g, lib.host k = some g → heap.native? k = some n →
    ∀ reading args, n.body reading args ∈ args ∨ lib.Knows heap (n.body reading args)

namespace Stage

open Machine Execution

variable {S : Stage} {below : List Value} {heap : Heap} {m : Machine} {k : Handle} {fs : List Frame}
  {own rest : List Value} {p : Spot} {i : Instr} {n : Nat}

/-- The instructions of a function lead from one to another. -/
theorem flows (S : Stage) {r : Routine} (hk : S.lib.routine k = some r) :
    Lands (S.code k) 0 (1 + r.params.length) ∧
      ∀ p ∈ S.code k, p.Flows (S.code k) fun label => ∃ r, S.lib.routine label = some r := by
  obtain ⟨f, hc⟩ := S.coded k r hk
  exact hc.laid.flows fun entry he => ⟨entry.2, S.fits.closed k r hk entry he⟩

/-- The shared parts of a machine are in order, and its global variables hold only what is known. -/
structure Holds (S : Stage) (m : Machine) : Prop where
  sound : m.Sound
  keeps : S.heap.Extends m.heap
  globals : ∀ name v, m.global? name = some v → S.lib.Knows m.heap v

namespace Holds

theorem grow {m' : Machine} (h : S.Holds m) (hg : m.heap.Grows m'.heap) (hglobals : m'.globals = m.globals) :
    S.Holds m' where
  sound := h.sound.grow hg hglobals
  keeps := h.keeps.trans hg.keeps
  globals name v hv := by
    rw [h.sound.global?_grow hg hglobals] at hv
    exact (h.globals name v hv).mono hg.keeps

theorem congr {m' : Machine} (h : S.Holds m) (hheap : m'.heap = m.heap) (hglobals : m'.globals = m.globals) :
    S.Holds m' := h.grow (hheap ▸ .refl _) hglobals

theorem define {name : String} {v : Value} {globals : Table} (h : S.Holds m) (hd : Defined m name v globals)
    (hv : S.lib.Knows m.heap v) : S.Holds { m with globals } where
  sound := hd.sound
  keeps := h.keeps
  globals other w hw := by
    rw [hd.global? other] at hw
    split at hw
    · cases hw
      exact hv
    · exact h.globals other w hw

theorem fits (h : S.Holds m) : S.lib.Fits m.heap := S.fits.mono h.keeps

theorem has (h : S.Holds m) {r : Routine} (hk : S.lib.routine k = some r) (hp : p ∈ S.code k) : m.Has k p := by
  obtain ⟨f, hc⟩ := S.coded k r hk
  have hc := hc.grow h.keeps
  exact ⟨f, hc.object, hc.holds p hp⟩

end Holds

/-- The active calls, the innermost first, with the values that belong to them, the latest first. The innermost call
has all the values that its next instruction expects but for the last `n`, a waiting one all but one. -/
inductive Stands (S : Stage) (below : List Value) (heap : Heap) : Nat → List Frame → List Value → Prop where
  | bottom {n : Nat} : Stands S below heap n [] below
  | call {n : Nat} {k : Handle} {r : Routine} {ip : Nat} {fs : List Frame} {own rest : List Value}
      (hk : S.lib.routine k = some r) (hl : Lands (S.code k) ip (1 + own.length + n))
      (hown : ∀ v ∈ own, S.lib.Knows heap v) (hrest : Stands S below heap 1 fs rest) :
      Stands S below heap n (⟨k, ip, rest.length⟩ :: fs) (own ++ .object k :: rest)

namespace Stands

theorem mono {heap' : Heap} {vs : List Value} (h : S.Stands below heap n fs vs) (hh : heap.Extends heap') :
    S.Stands below heap' n fs vs := by
  induction h with
  | bottom => exact .bottom
  | call hk hl hown _ ih => exact .call hk hl (fun v hv => (hown v hv).mono hh) ih

theorem suffix {vs : List Value} (h : S.Stands below heap n fs vs) : below <:+ vs := by
  induction h with
  | bottom => exact List.suffix_refl _
  | @call n k r ip fs own rest _ _ _ _ ih =>
      calc below <:+ rest := ih
        _ <:+ .object k :: rest := List.suffix_cons _ _
        _ <:+ own ++ .object k :: rest := List.suffix_append _ _

theorem base_lt {vs : List Value} (h : S.Stands below heap n fs vs) : ∀ frame ∈ fs, frame.base < vs.length := by
  induction h with
  | bottom => exact nofun
  | @call n k r ip fs own rest _ _ _ _ ih =>
      intro frame hframe
      simp only [List.length_append, List.length_cons]
      rcases List.mem_cons.mp hframe with rfl | hframe
      · show rest.length < _
        omega
      · have := ih frame hframe
        omega

/-- The bases grow from call to call. -/
theorem bases {vs : List Value} (h : S.Stands below heap n fs vs) :
    fs.Pairwise fun inner outer => outer.base < inner.base := by
  induction h with
  | bottom => exact .nil
  | call _ _ _ hrest ih => exact .cons hrest.base_lt ih

/-- At the base of each call lies its function. -/
theorem function_at_base {vs : List Value} (h : S.Stands below heap n fs vs) :
    ∀ frame ∈ fs, vs.reverse[frame.base]? = some (.object frame.function) := by
  induction h with
  | bottom => exact nofun
  | @call n k r ip fs own rest _ _ _ hrest ih =>
      intro frame hframe
      rw [List.reverse_append, List.reverse_cons, List.append_assoc]
      rcases List.mem_cons.mp hframe with rfl | hframe
      · rw [List.getElem?_append_right (by simp)]
        simp
      · rw [List.getElem?_append_left (by simpa using hrest.base_lt frame hframe)]
        exact ih frame hframe

end Stands

/-- The innermost call, and what lies below it. -/
structure Active (S : Stage) (below : List Value) (m : Machine) (k : Handle) (fs : List Frame)
    (rest : List Value) : Prop where
  holds : S.Holds m
  routine : ∃ r, S.lib.routine k = some r
  waits : S.Stands below m.heap 1 fs rest

/-- What an instruction does to the active calls and their values. -/
inductive Did : Instr → List Frame → List Value → List Frame → List Value → Prop where
  /-- The values of the innermost call change. -/
  | inside {i : Instr} {k : Handle} {ip ip' : Nat} {fs : List Frame} {own own' rest : List Value}
      (hi : ∀ count, i ≠ .call count) :
      Did i (⟨k, ip, rest.length⟩ :: fs) (own ++ .object k :: rest)
        (⟨k, ip', rest.length⟩ :: fs) (own' ++ .object k :: rest)
  /-- A function of the host is called, and its result takes the place of callee and arguments. -/
  | hosted {k : Handle} {ip : Nat} {fs : List Frame} {args own rest : List Value} {callee v : Value} :
      Did (.call args.length) (⟨k, ip, rest.length⟩ :: fs) ((args ++ callee :: own) ++ .object k :: rest)
        (⟨k, ip + 2, rest.length⟩ :: fs) ((v :: own) ++ .object k :: rest)
  /-- A call is opened above the values below its callee. -/
  | enter {k label : Handle} {ip : Nat} {fs : List Frame} {args own rest : List Value} :
      Did (.call args.length) (⟨k, ip, rest.length⟩ :: fs) (args ++ .object label :: (own ++ .object k :: rest))
        (⟨label, 0, (own ++ .object k :: rest).length⟩ :: ⟨k, ip + 2, rest.length⟩ :: fs)
        (args ++ .object label :: (own ++ .object k :: rest))
  /-- The innermost call is closed, and its result is left in its place. -/
  | leave {k : Handle} {ip : Nat} {frame : Frame} {fs : List Frame} {own rest : List Value} {v : Value} :
      Did (.plain .ret) (⟨k, ip, rest.length⟩ :: frame :: fs) ((v :: own) ++ .object k :: rest)
        (frame :: fs) (v :: rest)

/-- What can become of an instruction of the innermost call, which lies above `rest`. -/
inductive Outcome (S : Stage) (below : List Value) (i : Instr) (rest : List Value) (fs : List Frame) (vs : List Value) :
    EStateM.Result Stop Machine Flow → Prop where
  | next {m : Machine} {fs' : List Frame} {vs' : List Value} (hm : S.Holds m) (hs : S.Stands below m.heap 0 fs' vs')
      (hd : Did i fs vs fs' vs') : Outcome S below i rest fs vs (.ok .next (m.config fs' vs'))
  | halt {m : Machine} (hm : S.Holds m) (hfs : fs.length = 1) (hrest : rest = below) :
      Outcome S below i rest fs vs (.ok .halt (m.config [] below))
  | error {kind : ErrorKind} {m : Machine} {fs' : List Frame} {vs' : List Value} (hm : S.Holds m)
      (hkind : kind.Ordinary) (hkept : rest <:+ vs') :
      Outcome S below i rest fs vs (.error (.error kind) (m.config fs' vs'))

namespace Active

variable (h : S.Active below m k fs rest)

include h

theorem grow {m' : Machine} (hg : m.heap.Grows m'.heap) (hglobals : m'.globals = m.globals) :
    S.Active below m' k fs rest :=
  ⟨h.holds.grow hg hglobals, h.routine, h.waits.mono hg.keeps⟩

theorem define {name : String} {v : Value} {globals : Table} (hd : Defined m name v globals)
    (hv : S.lib.Knows m.heap v) : S.Active below { m with globals } k fs rest :=
  ⟨h.holds.define hd hv, h.routine, h.waits⟩

theorem has (hp : p ∈ S.code k) : m.Has k p := by
  obtain ⟨r, hk⟩ := h.routine
  exact h.holds.has hk hp

theorem stands {ip : Nat} (hl : Lands (S.code k) ip (1 + own.length)) (hown : ∀ v ∈ own, S.lib.Knows m.heap v) :
    S.Stands below m.heap 0 (⟨k, ip, rest.length⟩ :: fs) (own ++ .object k :: rest) := by
  obtain ⟨r, hk⟩ := h.routine
  exact .call hk hl hown h.waits

variable {ip ip' : Nat} {own₀ : List Value}

/-- The instruction goes on to the next one. -/
theorem next (hi : ∀ count, i ≠ .call count) (hl : Lands (S.code k) ip' (1 + own.length))
    (hown : ∀ v ∈ own, S.lib.Knows m.heap v) :
    S.Outcome below i rest (⟨k, ip, rest.length⟩ :: fs) (own₀ ++ .object k :: rest)
      (.ok .next (m.config (⟨k, ip', rest.length⟩ :: fs) (own ++ .object k :: rest))) :=
  .next h.holds (h.stands hl hown) (.inside hi)

/-- The instruction is in error and leaves the frame alone. -/
theorem error {kind : ErrorKind} {fs' : List Frame} {vs : List Value} (own : List Value) (hkind : kind.Ordinary) :
    S.Outcome below i rest fs' vs
      (.error (.error kind) (m.config (⟨k, ip', rest.length⟩ :: fs) (own ++ .object k :: rest))) := by
  refine .error h.holds hkind ?_
  calc rest <:+ .object k :: rest := List.suffix_cons _ _
    _ <:+ own ++ .object k :: rest := List.suffix_append _ _

/-- The instruction pushes a value. -/
theorem pushed (hi : ∀ count, i ≠ .call count) {v : Value} (hv : S.lib.Knows m.heap v)
    (hl : Lands (S.code k) ip' (1 + own.length + 1)) (hown : ∀ w ∈ own, S.lib.Knows m.heap w) :
    S.Outcome below i rest (⟨k, ip, rest.length⟩ :: fs) (own₀ ++ .object k :: rest)
      (m.pushed (⟨k, ip', rest.length⟩ :: fs) (own ++ .object k :: rest) v) := by
  unfold Machine.pushed
  split
  · exact h.error _ trivial
  · have hall : ∀ w ∈ v :: own, S.lib.Knows m.heap w := List.forall_mem_cons.mpr ⟨hv, hown⟩
    exact h.next hi hl hall

end Active

/-! ### One instruction -/

theorem exists_split {α : Type} {l : List α} {n : Nat} (h : n < l.length) :
    ∃ front v back, l = front ++ v :: back ∧ front.length = n ∧ back.length + n + 1 = l.length :=
  ⟨l.take n, l[n], l.drop (n + 1), by simp, by simp; omega, by simp; omega⟩

/-- What an instruction does to the parts of the machine that all calls share. A variable that an assignment defines
is taken back. -/
inductive Alters (m : Machine) (own : List Value) : Machine → Prop where
  | grow {m' : Machine} (hg : m.heap.Grows m'.heap) (hglobals : m'.globals = m.globals) : Alters m own m'
  | define {name : String} {v : Value} {globals : Table} (hd : Defined m name v globals) (hv : v ∈ own) :
      Alters m own { m with globals }
  | undo {globals : Table} (hsound : Machine.Sound { m with globals })
      (hsame : ∀ name, Machine.global? { m with globals } name = m.global? name) : Alters m own { m with globals }

theorem Alters.same {m m' : Machine} {own : List Value} (hheap : m'.heap = m.heap)
    (hglobals : m'.globals = m.globals) : Alters m own m' := .grow (hheap ▸ .refl _) hglobals

theorem Alters.refl {m : Machine} {own : List Value} : Alters m own m := .same rfl rfl

theorem Alters.keeps {m m' : Machine} {own : List Value} (h : Alters m own m') : m.heap.Extends m'.heap := by
  cases h with
  | grow hg => exact hg.keeps
  | define | undo => exact .refl _

/-- Where a value comes from that an instruction pushes. The functions in code are such that `P` holds of them. -/
inductive Source (S : Stage) (P : Handle → Prop) (m : Machine) (own : List Value) (v : Value) : Prop where
  | own (hv : v ∈ own)
  | global {name : String} (hv : m.global? name = some v)
  | literal {l : Literal} (hd : l.Denotes m.heap v) (hl : ∀ label, l = .function label → P label)
  | computed {d : Datum} (hd : S.lib.view m.heap v = some d) (hplain : ∀ label r, d ≠ .function label r)
  | hosted {label : Handle} {g : HostFunction} {n : NativeObject} {reading : Float} {args : List Value}
      (hg : S.lib.host label = some g) (hn : m.heap.native? label = some n) (hargs : ∀ w ∈ args, w ∈ own)
      (hv : v = n.body reading args)

/-- What becomes of an instruction of the innermost call, which lies above `rest` and has the values `own`. -/
inductive Acts (S : Stage) (P : Handle → Prop) (m : Machine) (k : Handle) (fs : List Frame) (rest : List Value) :
    Spot → List Value → EStateM.Result Stop Machine Flow → Prop where
  /-- The call goes on with values that it had. -/
  | inside {p : Spot} {ip : Nat} {own : List Value} {m' : Machine} (own' : List Value)
      (hi : ∀ count, p.instr ≠ .call count) (ha : Alters m own m') (hown : ∀ v ∈ own', v ∈ own)
      (hl : Lands (S.code k) ip (1 + own'.length)) :
      Acts S P m k fs rest p own (.ok .next (m'.config (⟨k, ip, rest.length⟩ :: fs) (own' ++ .object k :: rest)))
  /-- The call pushes a value. -/
  | push {p : Spot} {own own' : List Value} {m' : Machine} {v : Value} (hi : ∀ count, p.instr ≠ .call count)
      (ha : Alters m own m') (hown : ∀ v ∈ own', v ∈ own) (hv : Source S P m' own v)
      (hl : Lands (S.code k) p.next (1 + own'.length + 1)) :
      Acts S P m k fs rest p own (m'.pushed (⟨k, p.next, rest.length⟩ :: fs) (own' ++ .object k :: rest) v)
  /-- The instruction is in error and leaves the calls alone. -/
  | error {p : Spot} {own : List Value} {m' : Machine} {kind : ErrorKind} (own' : List Value) (hkind : kind.Ordinary)
      (ha : Alters m own m') : Acts S P m k fs rest p own
        (.error (.error kind) (m'.config (⟨k, p.next, rest.length⟩ :: fs) (own' ++ .object k :: rest)))
  /-- A function of the host is called. -/
  | hosted {a t : Nat} {scope : List String} {args own : List Value} {callee v : Value} {m' : Machine}
      (ha : Alters m (args ++ callee :: own) m') (hv : Source S P m' (args ++ callee :: own) v)
      (hl : Lands (S.code k) (a + 2) (1 + own.length + 1)) :
      Acts S P m k fs rest ⟨a, .call args.length, scope, t⟩ (args ++ callee :: own)
        (m'.pushed (⟨k, a + 2, rest.length⟩ :: fs) (own ++ .object k :: rest) v)
  /-- A call is opened. -/
  | enter {a t : Nat} {scope : List String} {args own : List Value} {label : Handle} {r : Routine} {g : FunctionObject}
      {journal : Journal} (hr : S.lib.routine label = some r) (hg : m.heap.function? label = some g)
      (harity : args.length = g.arity) (hl : Lands (S.code k) (a + 2) (1 + own.length + 1)) :
      Acts S P m k fs rest ⟨a, .call args.length, scope, t⟩ (args ++ .object label :: own) (.ok .next
        (Machine.config { m with journal }
          (⟨label, 0, (own ++ .object k :: rest).length⟩ :: ⟨k, a + 2, rest.length⟩ :: fs)
          (args ++ .object label :: (own ++ .object k :: rest))))
  /-- The call is closed, and the run ends if no call waits. -/
  | leave {a t : Nat} {scope : List String} {own : List Value} {v : Value} {journal : Journal} :
      Acts S P m k fs rest ⟨a, .plain .ret, scope, t⟩ (v :: own)
        (if fs = [] then .ok .halt (Machine.config { m with lastValue := v } [] rest)
        else if m.limits.stackMax ≤ rest.length then .error (.error .stackOverflow) (m.config fs rest)
        else .ok .next (Machine.config { m with journal } fs (v :: rest)))

theorem Acts.of_eq {P : Handle → Prop} {x y : EStateM.Result Stop Machine Flow} (h : x = y)
    (ha : Acts S P m k fs rest p own y) : Acts S P m k fs rest p own x := h ▸ ha

theorem unary_ordinary {op : UnaryOp} {d : Datum} {kind : ErrorKind} (h : op.apply d = .error kind) :
    kind.Ordinary := by
  cases op <;> cases d <;> cases h <;> trivial

theorem binary_ordinary {op : BinaryOp} {d e : Datum} {kind : ErrorKind} (h : op.apply d e = .error kind) :
    kind.Ordinary := by
  cases op <;> cases d <;> cases e <;> cases h <;> trivial

/-- Operators make no functions. -/
theorem unary_plain {op : UnaryOp} {d e : Datum} (h : op.apply d = .ok e) (k : Handle) (r : Routine) :
    e ≠ .function k r := by
  cases op <;> cases d <;> cases h <;> exact nofun

theorem binary_plain {op : BinaryOp} {d d' e : Datum} (h : op.apply d d' = .ok e) (k : Handle) (r : Routine) :
    e ≠ .function k r := by
  cases op <;> cases d <;> cases d' <;> cases h <;> exact nofun

namespace Active

variable {P : Handle → Prop} (h : S.Active below m k fs rest) {a t : Nat} {scope : List String}

include h

theorem acts_getLocal {name : String} {slot : Nat} (hp : ⟨a, .getLocal name slot, scope, t⟩ ∈ S.code k)
    (hs : slotOf name scope = some slot) (hlen : scope.length + t = own.length)
    (hl : Lands (S.code k) (a + 2) (1 + own.length + 1)) : Acts S P m k fs rest ⟨a, .getLocal name slot, scope, t⟩ own
      (step.run (m.config (⟨k, a, rest.length⟩ :: fs) (own ++ .object k :: rest))) := by
  have hbounds := slotOf_bounds hs
  obtain ⟨above, v, back, rfl, habove, hback⟩ := exists_split (l := own) (n := own.length - slot) (by omega)
  have hstack : (above ++ v :: back) ++ .object k :: rest = above ++ v :: (back ++ .object k :: rest) := by simp
  have hbase : rest.length + slot = (back ++ .object k :: rest).length := by
    simp only [List.length_append, List.length_cons] at habove hback hlen ⊢
    omega
  have hstep : step.run (m.config (⟨k, a, rest.length⟩ :: fs) (above ++ v :: (back ++ .object k :: rest))) =
      m.pushed (⟨k, a + 2, rest.length⟩ :: fs) (above ++ v :: (back ++ .object k :: rest)) v :=
    step_getLocal (h.has hp) hbase
  rw [hstack, hstep, ← hstack]
  exact .push nofun .refl (fun _ hv => hv) (.own (by simp)) hl

theorem acts_setLocal {name : String} {slot : Nat} {w : Value} (hp : ⟨a, .setLocal name slot, scope, t + 1⟩ ∈ S.code k)
    (hs : slotOf name scope = some slot) (hlen : scope.length + t = own.length)
    (hl : Lands (S.code k) (a + 2) (1 + own.length + 1)) :
    Acts S P m k fs rest ⟨a, .setLocal name slot, scope, t + 1⟩ (w :: own)
      (step.run (m.config (⟨k, a, rest.length⟩ :: fs) ((w :: own) ++ .object k :: rest))) := by
  have hbounds := slotOf_bounds hs
  obtain ⟨above, v, back, rfl, habove, hback⟩ := exists_split (l := own) (n := own.length - slot) (by omega)
  have hstack : ∀ u, (w :: (above ++ u :: back)) ++ .object k :: rest =
      w :: (above ++ u :: (back ++ .object k :: rest)) := by simp
  have hbase : rest.length + slot = (back ++ .object k :: rest).length := by
    simp only [List.length_append, List.length_cons] at habove hback hlen ⊢
    omega
  have hstep : step.run (m.config (⟨k, a, rest.length⟩ :: fs) (w :: (above ++ v :: (back ++ .object k :: rest)))) =
      .ok .next (m.config (⟨k, a + 2, rest.length⟩ :: fs) (w :: (above ++ w :: (back ++ .object k :: rest)))) :=
    step_setLocal (h.has hp) hbase
  rw [← hstack, ← hstack] at hstep
  have hsub : ∀ u ∈ w :: (above ++ w :: back), u ∈ w :: (above ++ v :: back) := by
    simp only [List.mem_cons, List.mem_append]
    grind
  exact .of_eq hstep (.inside _ nofun .refl hsub (hl.cast (by simp; omega)))

/-- A call of a compiled function opens a frame, a call of a function of the host leaves its result. -/
theorem acts_call {args : List Value} {callee : Value} (hp : ⟨a, .call args.length, scope, t⟩ ∈ S.code k)
    (hcallee : S.lib.Knows m.heap callee) (hl : Lands (S.code k) (a + 2) (1 + own.length + 1)) :
    Acts S P m k fs rest ⟨a, .call args.length, scope, t⟩ (args ++ callee :: own)
      (step.run (m.config (⟨k, a, rest.length⟩ :: fs) ((args ++ callee :: own) ++ .object k :: rest))) := by
  obtain ⟨d, hd⟩ := hcallee
  have hstack : (args ++ callee :: own) ++ .object k :: rest = args ++ callee :: (own ++ .object k :: rest) := by simp
  have hfail : ∀ {kind : ErrorKind}, kind.Ordinary →
      Acts S P m k fs rest ⟨a, .call args.length, scope, t⟩ (args ++ callee :: own) (.error (.error kind)
        (m.config (⟨k, a + 2, rest.length⟩ :: fs) (args ++ callee :: (own ++ .object k :: rest)))) := by
    intro kind hkind
    rw [← hstack]
    exact .error _ hkind .refl
  have hother (hne : ∀ label, callee = .object label → m.heap.function? label = none ∧ m.heap.native? label = none) :
      Acts S P m k fs rest ⟨a, .call args.length, scope, t⟩ (args ++ callee :: own)
        (step.run (m.config (⟨k, a, rest.length⟩ :: fs) (args ++ callee :: (own ++ .object k :: rest)))) := by
    rw [step_call (h.has hp), run_callOther hne]
    exact hfail trivial
  rw [hstack]
  cases Library.shows_of_view hd with
  | nil | bool | number => exact hother nofun
  | @text handle s ho =>
      refine hother ?_
      rintro label ⟨⟩
      simp [Heap.function?, Heap.native?, ho]
  | @function label g r ho hr =>
      have hg := Heap.function?_eq_some_iff.mpr ho
      obtain ⟨journal, hcall⟩ := run_callFunction hg (⟨k, a + 2, rest.length⟩ :: fs) args (own ++ .object k :: rest)
      rw [step_call (h.has hp), EStateM.run_bind, run_callValue_function hg, hcall]
      by_cases harity : args.length = g.arity
      · rw [if_neg (not_not.mpr harity)]
        by_cases hroom : m.limits.framesMax ≤ (⟨k, a + 2, rest.length⟩ :: fs : List Frame).length
        · rw [if_pos hroom]
          exact hfail trivial
        · rw [if_neg hroom]
          exact .enter hr hg harity hl
      · rw [if_pos harity]
        exact hfail trivial
  | @native label n g ho hg =>
      have hn := Heap.native?_eq_some_iff.mpr ho
      have hresult : Source S P m.ticked (args ++ .object label :: own) (n.body m.clock.now args.reverse) :=
        .hosted hg hn (fun v hv => List.mem_append_left _ (List.mem_reverse.mp hv)) rfl
      rw [step_call (h.has hp), run_callNative hn]
      split
      · exact hfail trivial
      · exact .hosted (.same rfl rfl) hresult hl

theorem acts_ret {v : Value} (hp : ⟨a, .plain .ret, scope, t⟩ ∈ S.code k) :
    Acts S P m k fs rest ⟨a, .plain .ret, scope, t⟩ (v :: own)
      (step.run (m.config (⟨k, a, rest.length⟩ :: fs) ((v :: own) ++ .object k :: rest))) := by
  obtain ⟨journal, hstep⟩ := step_return (h.has hp) fs v (own ++ [.object k]) rest
  have hstack : v :: (own ++ [.object k] ++ rest) = (v :: own) ++ .object k :: rest := by simp
  rw [hstack] at hstep
  exact .of_eq hstep .leave

/-- The innermost call carries out the instruction at a place of its code, with as many values as the place
expects. -/
theorem acts (hp : p ∈ S.code k) (hflows : p.Flows (S.code k) P) (hheight : p.height = 1 + own.length)
    (hown : ∀ v ∈ own, S.lib.Knows m.heap v) : Acts S P m k fs rest p own
      (step.run (m.config (⟨k, p.offset, rest.length⟩ :: fs) (own ++ .object k :: rest))) := by
  have hhas := h.has hp
  obtain ⟨a, instr, scope, t⟩ := p
  have hlen : own.length = scope.length + t := by
    dsimp only [Spot.height] at hheight
    omega
  have hall : ∀ {own : List Value}, ∀ v ∈ own, v ∈ own := fun _ hv => hv
  have htail : ∀ {w : Value} {own : List Value}, ∀ v ∈ own, v ∈ w :: own := fun _ hv => List.mem_cons_of_mem _ hv
  cases hflows with
  | value hop hl =>
      have hl : Lands (S.code k) (a + 1) (1 + own.length + 1) := hl.cast (by omega)
      rcases hop with rfl | rfl | rfl
      · exact .of_eq (step_nil hhas) (.push nofun .refl hall (.computed (d := .nil) rfl nofun) hl)
      · exact .of_eq (step_true hhas) (.push nofun .refl hall (.computed (d := .bool true) rfl nofun) hl)
      · exact .of_eq (step_false hhas) (.push nofun .refl hall (.computed (d := .bool false) rfl nofun) hl)
  | constant hliteral hl =>
      obtain ⟨v, hd, hstep⟩ := step_constant hhas
      exact .of_eq hstep (.push nofun .refl hall (.literal hd hliteral) (hl.cast (by omega)))
  | getLocal hs hl => exact h.acts_getLocal hp hs hlen.symm (hl.cast (by omega))
  | @setLocal _ t _ _ _ hs hl =>
      obtain ⟨w, own, rfl, hlen₁⟩ := (List.length_eq_succ_iff (n := scope.length + t)).mp hlen
      exact h.acts_setLocal hp hs hlen₁.symm (hl.cast (by omega))
  | getGlobal hl =>
      rw [step_getGlobal h.holds.sound hhas]
      split
      · next v hv => exact .push nofun .refl hall (.global hv) (hl.cast (by omega))
      · exact .error _ trivial .refl
  | @setGlobal _ t _ name hl =>
      obtain ⟨w, own, rfl, hlen₁⟩ := (List.length_eq_succ_iff (n := scope.length + t)).mp hlen
      have hl : Lands (S.code k) (a + 2) (1 + (w :: own).length) := hl.cast (by rw [List.length_cons]; omega)
      cases hg : m.global? name with
      | some old =>
          obtain ⟨globals, hd, hstep⟩ := step_setGlobal h.holds.sound hhas hg w
          exact .of_eq (hstep _ _ _) (.inside (w :: own) nofun (.define hd List.mem_cons_self) hall hl)
      | none =>
          obtain ⟨globals, hsound, hsame, hstep⟩ := step_setGlobal_new h.holds.sound hhas hg w
          exact .of_eq (hstep _ _ _) (.error (w :: own) trivial (.undo hsound hsame))
  | @defineGlobal _ t _ name hl =>
      obtain ⟨w, own, rfl, hlen₁⟩ := (List.length_eq_succ_iff (n := scope.length + t)).mp hlen
      obtain ⟨globals, hd, hstep⟩ := step_defineGlobal h.holds.sound hhas w
      exact .of_eq (hstep _ _ _) (.inside _ nofun (.define hd List.mem_cons_self) htail (hl.cast (by omega)))
  | @pop _ _ height _ hh hpos hl =>
      obtain ⟨w, own, rfl, hlen₁⟩ := List.length_eq_succ_iff.mp (show own.length = height - 1 + 1 by omega)
      exact .of_eq (step_pop hhas) (.inside _ nofun .refl htail (hl.cast (by omega)))
  | @print _ t _ hl =>
      obtain ⟨w, own, rfl, hlen₁⟩ := (List.length_eq_succ_iff (n := scope.length + t)).mp hlen
      obtain ⟨d, hd⟩ := hown w List.mem_cons_self
      refine .of_eq (step_print h.holds.fits hhas hd) ?_
      split
      · exact .inside _ nofun (.same rfl rfl) htail (hl.cast (by omega))
      · exact .error _ trivial (.same rfl rfl)
  | @unary _ t _ op hl =>
      obtain ⟨x, own, rfl, hlen₁⟩ := (List.length_eq_succ_iff (n := scope.length + t)).mp hlen
      obtain ⟨dx, hx⟩ := hown x List.mem_cons_self
      have hstep := step_unary hhas hx rest.length fs (own ++ .object k :: rest)
      split at hstep
      · next d hd =>
          obtain ⟨v, hv, hstep⟩ := hstep
          exact .of_eq hstep (.push nofun .refl htail (.computed hv (unary_plain hd)) (hl.cast (by omega)))
      · next kind hkind => exact .of_eq hstep (.error (x :: own) (unary_ordinary hkind) .refl)
  | @binary _ t _ op hl =>
      obtain ⟨y, own, rfl, hlen₁⟩ := (List.length_eq_succ_iff (n := scope.length + t + 1)).mp hlen
      obtain ⟨x, own, rfl, hlen₂⟩ := List.length_eq_succ_iff.mp hlen₁
      rw [List.forall_mem_cons, List.forall_mem_cons] at hown
      obtain ⟨⟨dy, hy⟩, ⟨dx, hx⟩, -⟩ := hown
      have hstep := step_binary h.holds.sound.heap hhas hx hy rest.length fs (own ++ .object k :: rest)
      split at hstep
      · next d hd =>
          obtain ⟨heap, journal, v, hg, hv, hstep⟩ := hstep
          have hsub : ∀ v ∈ own, v ∈ y :: x :: own := fun v hv => htail v (htail v hv)
          have hgrow : Alters m (y :: x :: own) { m with heap, journal } := .grow hg rfl
          exact .of_eq hstep (.push nofun hgrow hsub (.computed hv (binary_plain hd)) (hl.cast (by omega)))
      · next kind hkind => exact .of_eq hstep (.error (y :: x :: own) (binary_ordinary hkind) .refl)
  | jump hl => exact .of_eq (step_jump (.inl hhas)) (.inside _ nofun .refl hall (hl.cast (by omega)))
  | loop hl => exact .of_eq (step_jump (.inr hhas)) (.inside _ nofun .refl hall (hl.cast (by omega)))
  | @jumpIfFalse _ t target _ hl hl' =>
      obtain ⟨w, own, rfl, hlen₁⟩ := (List.length_eq_succ_iff (n := scope.length + t)).mp hlen
      have hlands : Lands (S.code k) (if w.isFalsey then target else a + 3) (1 + (w :: own).length) := by
        split
        · exact hl.cast (by rw [List.length_cons]; omega)
        · exact hl'.cast (by rw [List.length_cons]; omega)
      exact .of_eq (step_jumpIfFalse hhas) (.inside (w :: own) nofun .refl hall hlands)
  | @call _ t count _ hl =>
      obtain ⟨args, callee, own, rfl, rfl, hback⟩ := exists_split (l := own) (n := count) (by omega)
      exact h.acts_call hp (hown callee (by simp)) (hl.cast (by omega))
  | @ret _ t _ =>
      obtain ⟨v, own, rfl, -⟩ := (List.length_eq_succ_iff (n := scope.length + t)).mp hlen
      exact h.acts_ret hp

end Active

/-! ### The order of the stack -/

/-- What a literal stands for is known. -/
theorem Holds.knows_literal {literal : Literal} {v : Value} (hm : S.Holds m) (hd : literal.Denotes m.heap v)
    (hl : ∀ label, literal = .function label → ∃ r, S.lib.routine label = some r) : S.lib.Knows m.heap v := by
  cases literal with
  | number x =>
      cases hd
      exact ⟨.number x, rfl⟩
  | text chars =>
      obtain ⟨handle, s, rfl, hs, -⟩ := hd
      exact ⟨_, Library.view_text hs⟩
  | function label =>
      cases hd
      obtain ⟨r, hr⟩ := hl label rfl
      exact ⟨_, Library.view_function hm.fits hr⟩

/-- What a function of the host returns is known. -/
theorem Holds.knows_result {label : Handle} {g : HostFunction} {native : NativeObject} {args : List Value}
    (hm : S.Holds m) (hg : S.lib.host label = some g) (hn : m.heap.native? label = some native)
    (hargs : ∀ v ∈ args, S.lib.Knows m.heap v) (reading : Float) :
    S.lib.Knows m.heap (native.body reading args) := by
  obtain ⟨native', hn', -⟩ := S.fits.hosts label g hg
  have heq := hm.keeps.native? hn'
  rw [hn] at heq
  cases heq
  rcases S.hosted label native g hg hn' reading args with hmem | hknown
  · exact hargs _ hmem
  · exact hknown.mono hm.keeps

/-- What an instruction pushes is known. -/
theorem Source.knows {v : Value} (hv : S.Source (fun label => ∃ r, S.lib.routine label = some r) m own v)
    (hm : S.Holds m) (hown : ∀ v ∈ own, S.lib.Knows m.heap v) : S.lib.Knows m.heap v := by
  cases hv with
  | own hv => exact hown v hv
  | global hv => exact hm.globals _ v hv
  | literal hd hl => exact hm.knows_literal hd hl
  | computed hd => exact ⟨_, hd⟩
  | hosted hg hn hargs hv =>
      subst hv
      exact hm.knows_result hg hn (fun w hw => hown w (hargs w hw)) _

theorem Active.alter {m' : Machine} (h : S.Active below m k fs rest) (ha : Alters m own m')
    (hown : ∀ v ∈ own, S.lib.Knows m.heap v) : S.Active below m' k fs rest := by
  cases ha with
  | grow hg hglobals => exact h.grow hg hglobals
  | define hd hv => exact h.define hd (hown _ hv)
  | undo hsound hsame =>
      refine ⟨⟨hsound, h.holds.keeps, fun name v hv => ?_⟩, h.routine, h.waits⟩
      rw [hsame] at hv
      exact h.holds.globals name v hv

/-- **One instruction.** The innermost call carries out the instruction at a place of its code, with as many values as
the place expects. -/
theorem Active.outcome (h : S.Active below m k fs rest) (hp : p ∈ S.code k) (hheight : p.height = 1 + own.length)
    (hown : ∀ v ∈ own, S.lib.Knows m.heap v) :
    S.Outcome below p.instr rest (⟨k, p.offset, rest.length⟩ :: fs) (own ++ .object k :: rest)
      (step.run (m.config (⟨k, p.offset, rest.length⟩ :: fs) (own ++ .object k :: rest))) := by
  obtain ⟨r, hk⟩ := h.routine
  have hacts := h.acts hp ((S.flows hk).2 p hp) hheight hown
  generalize step.run (m.config (⟨k, p.offset, rest.length⟩ :: fs) (own ++ .object k :: rest)) = result at hacts ⊢
  cases hacts with
  | inside own' hi ha hsub hl =>
      exact (h.alter ha hown).next hi hl fun v hv => (hown v (hsub v hv)).mono ha.keeps
  | push hi ha hsub hv hl =>
      have hA := h.alter ha hown
      have hkept : ∀ v ∈ own, S.lib.Knows _ v := fun v hv => (hown v hv).mono ha.keeps
      exact hA.pushed hi (hv.knows hA.holds hkept) hl fun w hw => hkept w (hsub w hw)
  | error own' hkind ha => exact (h.alter ha hown).error own' hkind
  | @hosted a t scope args own callee v m' ha hv hl =>
      have hA := h.alter ha hown
      have hkept : ∀ v ∈ args ++ callee :: own, S.lib.Knows m'.heap v := fun v hv => (hown v hv).mono ha.keeps
      have hresult := hv.knows hA.holds hkept
      unfold Machine.pushed
      split
      · exact hA.error _ trivial
      · rw [List.forall_mem_append, List.forall_mem_cons] at hkept
        exact .next hA.holds (hA.stands hl (List.forall_mem_cons.mpr ⟨hresult, hkept.2.2⟩)) .hosted
  | @enter a t scope args own label r' g journal hr hg harity hl =>
      obtain ⟨f, hc⟩ := S.coded label r' hr
      have hobject := (hc.grow h.holds.keeps).object
      rw [hg] at hobject
      cases hobject
      have hstart := (S.flows hr).1
      rw [← hc.arity, ← harity] at hstart
      rw [List.forall_mem_append, List.forall_mem_cons] at hown
      have hcaller := Stands.call hk hl hown.2.2 h.waits
      rw [List.append_assoc, List.cons_append]
      exact .next (h.holds.congr rfl rfl) (.call hr hstart hown.1 hcaller) .enter
  | @leave a t scope own v journal =>
      obtain ⟨hholds, -, hwaits⟩ := h
      cases hwaits with
      | bottom =>
          rw [if_pos rfl]
          exact .halt (hholds.congr rfl rfl) rfl rfl
      | @call _ k' r' ip' fs' own' rest' hk' hl' hown' hrest' =>
          rw [if_neg (List.cons_ne_nil _ _)]
          split
          · exact .error hholds trivial (List.suffix_refl _)
          · refine .next (hholds.congr rfl rfl) ?_ .leave
            have hv : S.lib.Knows m.heap v := hown v List.mem_cons_self
            show S.Stands below m.heap 0 _ ((v :: own') ++ .object k' :: rest')
            exact .call hk' hl' (List.forall_mem_cons.mpr ⟨hv, hown'⟩) hrest'

end Stage

end Lox
