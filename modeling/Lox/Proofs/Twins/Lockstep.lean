import Lox.Proofs.Discipline.Runs
import Lox.Proofs.Twins.Layouts
import Lox.Proofs.Twins.Steps

/-! Compiled code on machines that run side by side. The layouts of two functions say what is fetched at each place;
where they match, both machines fetch instructions that do the same, however the constants are numbered and the
functions are called. The discipline of the stack says that an instruction works on values above the callee, so what
lies at the bottom of the two stacks may differ. -/

namespace Lox

open Machine Execution

/-! ### Fetching -/

/-- The key is that of a variable. -/
def Heap.Names (heap : Heap) (key : Key) (name : String) : Prop :=
  heap.key? key.handle = some key ∧ ∃ s, heap.string? key.handle = some s ∧ s.chars = name

/-- What is fetched for an instruction. Distances are counted from the next instruction. -/
inductive Instr.Fetches (heap : Heap) (next : Nat) : Instr → Fetched → Prop where
  | plain {op : Opcode} (hop : op.operandSize = 0) : Fetches heap next (.plain op) (.plain op)
  | constant {literal : Literal} {wide : Bool} {v : Value} (hd : literal.Denotes heap v) :
      Fetches heap next (.constant literal wide) (.value v)
  | getLocal {name : String} {slot : Nat} : Fetches heap next (.getLocal name slot) (.getLocal slot)
  | setLocal {name : String} {slot : Nat} : Fetches heap next (.setLocal name slot) (.setLocal slot)
  | getGlobal {name : String} {key : Key} (hk : heap.Names key name) :
      Fetches heap next (.getGlobal name) (.getGlobal key)
  | setGlobal {name : String} {key : Key} (hk : heap.Names key name) :
      Fetches heap next (.setGlobal name) (.setGlobal key)
  | defineGlobal {name : String} {key : Key} (hk : heap.Names key name) :
      Fetches heap next (.defineGlobal name) (.defineGlobal key)
  | jump {target : Nat} {d : Int} (hd : (next : Int) + d = target) : Fetches heap next (.jump target) (.jump d)
  | loop {target : Nat} {d : Int} (hd : (next : Int) + d = target) : Fetches heap next (.loop target) (.jump d)
  | jumpIfFalse {target : Nat} {d : Int} (hd : (next : Int) + d = target) :
      Fetches heap next (.jumpIfFalse target) (.jumpIfFalse d)
  | call {count : Nat} : Fetches heap next (.call count) (.call count)

section Fetching

variable {m : Machine} {k : Handle} {p : Spot}

/-- At a place of its code a machine fetches the instruction that the layout has there. -/
theorem Machine.Has.fetches (h : m.Has k p) : ∃ i, p.instr.Fetches m.heap p.next i ∧ ∀ base fs vs,
    fetch.run (m.config (⟨k, p.offset, base⟩ :: fs) vs) = .ok i (m.config (⟨k, p.next, base⟩ :: fs) vs) := by
  obtain ⟨f, hf, hop, hoperand⟩ := h
  have hfetch : ∀ base fs vs, fetch.run (m.config (⟨k, p.offset, base⟩ :: fs) vs) =
      (operand p.instr.opcode).run (m.config (⟨k, p.offset + 1, base⟩ :: fs) vs) :=
    fun base fs vs => run_fetch hf hop (Opcode.ofByte?_toByte _)
  obtain ⟨a, i, scope, t⟩ := p
  cases i with
  | plain op =>
      refine ⟨_, .plain hoperand, fun base fs vs => (hfetch base fs vs).trans ?_⟩
      cases op <;> first | rfl | cases hoperand
  | constant literal wide =>
      cases wide with
      | false =>
          obtain ⟨i, v, hi, hv, hd⟩ := hoperand
          refine ⟨_, .constant hd, fun base fs vs => (hfetch base fs vs).trans ?_⟩
          show (do return Fetched.value (← constant (← readByte).toNat) : Execution Fetched).run _ = _
          rw [run_bind_of_ok (run_readByte hf hi), run_bind_of_ok (run_constant hf hv)]
          rfl
      | true =>
          obtain ⟨i, v, hi, hv, hd⟩ := hoperand
          refine ⟨_, .constant hd, fun base fs vs => (hfetch base fs vs).trans ?_⟩
          show (do return Fetched.value (← constant (← readWord)) : Execution Fetched).run _ = _
          rw [run_bind_of_ok (run_readWord hf hi), run_bind_of_ok (run_constant hf hv)]
          rfl
  | getLocal name slot =>
      obtain ⟨i, hi, rfl⟩ := hoperand
      exact ⟨_, .getLocal, fun base fs vs => (hfetch base fs vs).trans (run_bind_of_ok (run_readByte hf hi))⟩
  | setLocal name slot =>
      obtain ⟨i, hi, rfl⟩ := hoperand
      exact ⟨_, .setLocal, fun base fs vs => (hfetch base fs vs).trans (run_bind_of_ok (run_readByte hf hi))⟩
  | getGlobal name =>
      obtain ⟨i, v, hi, hv, hd⟩ := hoperand
      obtain ⟨key, s, hs, hchars, hk, hread⟩ := run_readName hf hi hv hd
      exact ⟨_, .getGlobal ⟨hk, s, hs, hchars⟩, fun base fs vs => (hfetch base fs vs).trans (run_bind_of_ok (hread ..))⟩
  | setGlobal name =>
      obtain ⟨i, v, hi, hv, hd⟩ := hoperand
      obtain ⟨key, s, hs, hchars, hk, hread⟩ := run_readName hf hi hv hd
      exact ⟨_, .setGlobal ⟨hk, s, hs, hchars⟩, fun base fs vs => (hfetch base fs vs).trans (run_bind_of_ok (hread ..))⟩
  | defineGlobal name =>
      obtain ⟨i, v, hi, hv, hd⟩ := hoperand
      obtain ⟨key, s, hs, hchars, hk, hread⟩ := run_readName hf hi hv hd
      exact ⟨_, .defineGlobal ⟨hk, s, hs, hchars⟩,
        fun base fs vs => (hfetch base fs vs).trans (run_bind_of_ok (hread ..))⟩
  | jump target =>
      obtain ⟨w, hw, htarget⟩ := hoperand
      exact ⟨_, .jump htarget, fun base fs vs => (hfetch base fs vs).trans (run_bind_of_ok (run_readSigned hf hw))⟩
  | loop target =>
      obtain ⟨w, hw, htarget⟩ := hoperand
      exact ⟨_, .loop htarget, fun base fs vs => (hfetch base fs vs).trans (run_bind_of_ok (run_readSigned hf hw))⟩
  | jumpIfFalse target =>
      obtain ⟨w, hw, htarget⟩ := hoperand
      exact ⟨_, .jumpIfFalse htarget,
        fun base fs vs => (hfetch base fs vs).trans (run_bind_of_ok (run_readSigned hf hw))⟩
  | call count =>
      obtain ⟨i, hi, rfl⟩ := hoperand
      exact ⟨_, .call, fun base fs vs => (hfetch base fs vs).trans (run_bind_of_ok (run_readByte hf hi))⟩

/-- An instruction works on values above the callee. -/
theorem Spot.Flows.room {code : List Spot} {known : Handle → Prop} {heap : Heap} {next : Nat} {i : Fetched}
    (hf : p.Flows code known) (hi : p.instr.Fetches heap next i) : i.need + 1 ≤ p.height := by
  unfold Spot.height
  cases hf with
  | value hop =>
      rcases hop with rfl | rfl | rfl <;> cases hi <;> simp only [Fetched.need] <;> omega
  | pop hh hpos =>
      cases hi
      simp only [Fetched.need]
      omega
  | @unary a t scope op =>
      cases op <;> cases hi <;> simp only [Fetched.need, UnaryOp.opcode] <;> omega
  | @binary a t scope op =>
      cases op <;> cases hi <;> simp only [Fetched.need, BinaryOp.opcode] <;> omega
  | constant | getLocal | setLocal | getGlobal | setGlobal | defineGlobal | print | jump | loop | jumpIfFalse
      | call | ret =>
      cases hi
      simp only [Fetched.need]
      omega

/-- An instruction that accesses a local variable does not access the callee. -/
theorem Spot.Flows.slot_pos {code : List Spot} {known : Handle → Prop} {name : String} {slot : Nat}
    (hf : p.Flows code known) (hi : p.instr = .getLocal name slot ∨ p.instr = .setLocal name slot) : 1 ≤ slot := by
  cases hf with
  | getLocal hs =>
      rcases hi with hi | hi <;> cases hi
      exact (slotOf_bounds hs).1
  | setLocal hs =>
      rcases hi with hi | hi <;> cases hi
      exact (slotOf_bounds hs).1
  | @unary a t scope op => cases op <;> rcases hi with hi | hi <;> cases hi
  | @binary a t scope op => cases op <;> rcases hi with hi | hi <;> cases hi
  | value | constant | getGlobal | setGlobal | defineGlobal | pop | print | jump | loop | jumpIfFalse | call | ret =>
      rcases hi with hi | hi <;> cases hi

end Fetching

namespace Pairing

variable {T : Pairing} {S S' : Stage} {below : List Value} {m m' : Machine} {k k' : Handle} {p p' : Spot}

theorem alike_literal {literal literal' : Literal} {wide wide' : Bool} {J : Nat → Nat → Prop}
    {v v' : Value} {h h' : Heap} (hl : (Instr.constant literal wide).Matches J T.twins (.constant literal' wide'))
    (hd : literal.Denotes h v)
    (hd' : literal'.Denotes h' v') : T.Alike h h' v v' := by
  cases hl with
  | number x =>
      cases hd
      cases hd'
      exact .number x
  | text chars =>
      obtain ⟨a, s, rfl, hs, hchars⟩ := hd
      obtain ⟨b, t, rfl, ht, hchars'⟩ := hd'
      exact .object (.inr ⟨s, t, hs, ht, hchars.trans hchars'.symm⟩)
  | function hlabel =>
      cases hd
      cases hd'
      exact .object (.inl hlabel)

theorem sameKey_of_names {h h' : Heap} {key key' : Key} {name : String} (hk : h.Names key name)
    (hk' : h'.Names key' name) :
    h.SameKey h' key key' := by
  obtain ⟨hkey, s, hs, hchars⟩ := hk
  obtain ⟨hkey', t, ht, hchars'⟩ := hk'
  exact ⟨hkey, hkey', s, t, hs, ht, hchars.trans hchars'.symm⟩

/-- Distances to places that go together lead there. -/
theorem leads_of_targets {x x' target target' base base' : Nat} {fs fs' : List Frame} {d d' : Int}
    (hfs : m.frames = ⟨k, x, base⟩ :: fs) (hfs' : m'.frames = ⟨k', x', base'⟩ :: fs') (hd : (x : Int) + d = target)
    (hd' : (x' : Int) + d' = target') (hJ : T.abreast k target k' target') : T.Leads m m' d d' := by
  intro f gs f' gs' h h'
  cases hfs.symm.trans h
  cases hfs'.symm.trans h'
  rw [hd, hd']
  exact .inr ⟨Int.natCast_nonneg _, Int.natCast_nonneg _, hJ⟩

/-- Where the layouts match, what is fetched does the same. -/
theorem fetches_of_matches {i i' : Instr} {j j' : Fetched} {x x' base base' : Nat} {fs fs' : List Frame}
    (hi : i.Matches (fun a b => T.abreast k a k' b) T.twins i') (hj : i.Fetches m.heap x j)
    (hj' : i'.Fetches m'.heap x' j')
    (hslot : ∀ name slot, i = .getLocal name slot ∨ i = .setLocal name slot → 1 ≤ slot)
    (hfs : m.frames = ⟨k, x, base⟩ :: fs) (hfs' : m'.frames = ⟨k', x', base'⟩ :: fs') : T.Fetches m m' j j' := by
  cases hj with
  | plain hop =>
      cases hi
      cases hj'
      exact .plain hop
  | constant hd =>
      have hliteral := hi
      cases hi <;>
      · cases hj' with
        | constant hd' => exact .value (alike_literal hliteral hd hd')
  | getLocal =>
      cases hi
      cases hj'
      exact .getLocal (.inr (hslot _ _ (.inl rfl)))
  | setLocal =>
      cases hi
      cases hj'
      exact .setLocal (.inr (hslot _ _ (.inr rfl)))
  | getGlobal hk =>
      cases hi
      cases hj' with
      | getGlobal hk' => exact .getGlobal (sameKey_of_names hk hk')
  | setGlobal hk =>
      cases hi
      cases hj' with
      | setGlobal hk' => exact .setGlobal (sameKey_of_names hk hk')
  | defineGlobal hk =>
      cases hi
      cases hj' with
      | defineGlobal hk' => exact .defineGlobal (sameKey_of_names hk hk')
  | jump hd =>
      cases hi with
      | jump hJ =>
          cases hj' with
          | jump hd' => exact .jump (leads_of_targets hfs hfs' hd hd' hJ)
  | loop hd =>
      cases hi with
      | loop hJ =>
          cases hj' with
          | loop hd' => exact .jump (leads_of_targets hfs hfs' hd hd' hJ)
  | jumpIfFalse hd =>
      cases hi with
      | jumpIfFalse hJ =>
          cases hj' with
          | jumpIfFalse hd' => exact .jumpIfFalse (leads_of_targets hfs hfs' hd hd' hJ)
  | call =>
      cases hi
      cases hj'
      exact .call

/-! ### Stepping -/

/-- Two places in the code of two functions from which calls of them go on alike. -/
structure Level (T : Pairing) (S S' : Stage) (k k' : Handle) (p p' : Spot) : Prop where
  left : p ∈ S.code k
  right : p' ∈ S'.code k'
  routine : ∃ r, S'.lib.routine k' = some r
  same : p.Matches (fun x x' => T.abreast k x k' x') T.twins p'
  next : T.abreast k p.next k' p'.next

/-- The innermost calls stand at places from which they go on alike. -/
def Levelled (T : Pairing) (S S' : Stage) (m m' : Machine) : Prop :=
  ∀ f fs f' fs', m.frames = f :: fs → m'.frames = f' :: fs' →
    ∃ p p', T.Level S S' f.function f'.function p p' ∧ p.offset = f.ip ∧ p'.offset = f'.ip

/-- **One instruction of two layouts.** Machines that run side by side, one of them on its stage, and stand at places
from which they go on alike, take a step alike. -/
theorem levelled_step (hm : T.Machines m m') (hr : S.Running below m) (hkeeps : S'.heap.Extends m'.heap)
    (hl : T.Levelled S S' m m') : T.Outcome 0 Equal m m' (step.run m) (step.run m') := by
  obtain ⟨k, fs, own, rest, q, hp⟩ := hr.poised
  obtain ⟨f, gs, f', fs', hfs, hfs', hf, hrest⟩ := (frames_cases hm.frames).resolve_left fun h =>
    by simp [hp.frames] at h
  cases hp.frames.symm.trans hfs
  obtain ⟨k', x', base'⟩ := f'
  obtain ⟨p, p', hlevel, hoffset, rfl⟩ := hl _ _ _ _ hfs hfs'
  -- the place of the layout is where the discipline says that the machine stands
  obtain ⟨r, hk⟩ := hp.active.routine
  obtain ⟨g, hcoded⟩ := S.coded k r hk
  obtain rfl : p = q := hcoded.whole.eq_of_offset hlevel.left hp.mem hoffset
  have hflows := (S.flows hk).2 p hp.mem
  obtain ⟨r', hk'⟩ := hlevel.routine
  obtain ⟨g', hcoded'⟩ := S'.coded k' r' hk'
  have hhas' : m'.Has k' p' := ⟨g', hkeeps.function? hcoded'.object, (hcoded'.grow hkeeps).holds p' hlevel.right⟩
  obtain ⟨i, hi, hfetch⟩ := (hp.active.has hp.mem).fetches
  obtain ⟨i', hi', hfetch'⟩ := hhas'.fetches
  have hbase : rest.length = base' := hf.base
  have hrun := hfetch rest.length fs m.stack.toList.reverse
  have hrun' := hfetch' base' fs' m'.stack.toList.reverse
  rw [← hp.frames, config_self] at hrun
  rw [← hfs', config_self] at hrun'
  have hfetched : T.Machines (m.config (⟨k, p.next, rest.length⟩ :: fs) m.stack.toList.reverse)
      (m'.config (⟨k', p'.next, base'⟩ :: fs') m'.stack.toList.reverse) := by
    refine hm.own ?_ ?_ (.cons ⟨hlevel.next, hbase, hf.above⟩ hrest) hm.last hm.output
    · simpa using hm.size
    · simpa using hm.stack
  refine outcome_step ?_ fun j n hj => ?_
  · unfold Fetching
    rw [hrun, hrun']
    refine .ok hfetched (.refl _) (.refl _) .zero ?_
    exact fetches_of_matches hlevel.same.instr hi hi' (fun _ _ => hflows.slot_pos) rfl rfl
  · rw [hrun] at hj
    cases hj
    have hroom := hflows.room hi
    have hsize := hp.size
    have habove : T.hidden ≤ rest.length + 1 := hf.above
    refine .inr (.inr ?_)
    rw [size_config, List.length_reverse, Array.length_toList]
    omega

/-! ### Running -/

/-- Two machines go on side by side as long as they stand at places from which they go on alike. If they do not get
as far as one of them does alone, they have come to a place where it is left open how to go on. -/
theorem goes_along {Open : Machine → Prop} {j : Nat} {n : Machine}
    (hlevel : ∀ l l', T.Machines l l' → S.Running below l → ¬ Open l → T.Levelled S S' l l') (hm : T.Machines m m')
    (hr : S.Running below m) (hkeeps : S'.heap.Extends m'.heap) (hg : m.Goes j n) :
    (∃ n', m'.Goes j n' ∧ T.Machines n n') ∨
      ∃ i l l', T.Machines l l' ∧ S.Running below l ∧ Open l ∧ l.Goes (i + 1) n := by
  induction hg generalizing m' with
  | refl => exact .inl ⟨m', .refl m', hm⟩
  | @step j m l n hs hg ih =>
      by_cases hopen : Open m
      · exact .inr ⟨j, m, m', hm, hr, hopen, .step hs hg⟩
      have hstep := levelled_step hm hr hkeeps (hlevel m m' hm hr hopen)
      rw [hs] at hstep
      generalize hs' : step.run m' = o' at hstep
      cases hstep with
      | @ok _ l' _ flow hl _ hk' _ hflow =>
          obtain rfl : Flow.next = flow := hflow
          obtain ⟨_, _, _, _, _, hp⟩ := hr.poised
          refine (ih hl (hp.next hs).1 (hkeeps.trans hk')).imp_left ?_
          rintro ⟨n', hgoes, hn⟩
          exact ⟨n', .step hs' hgoes, hn⟩

/-- How two runs have ended that went side by side: both well, both with errors of the same kind, or neither. -/
inductive Ends (T : Pairing) : Progress × Machine → Progress × Machine → Prop where
  | ok {n n' : Machine} (hn : T.Machines n n') : Ends T (.done (.ok ()), n) (.done (.ok ()), n')
  | error {e e' : RuntimeError} {n n' : Machine} (he : e.kind = e'.kind) (hn : T.Machines n n') :
      Ends T (.done (.error e), n) (.done (.error e'), n')
  | paused {n n' : Machine} (hn : T.Machines n n') : Ends T (.paused, n) (.paused, n')
  | fault {cause : Fault} {n n' : Machine} (hn : T.Machines n n') : Ends T (.fault cause, n) (.fault cause, n')

theorem ends_haltWith (hm : T.Machines m m') (kind : ErrorKind) :
    T.Ends (.done (.error (m.haltWith kind).1), (m.haltWith kind).2)
      (.done (.error (m'.haltWith kind).1), (m'.haltWith kind).2) :=
  .error rfl (hm.own hm.size hm.stack hm.frames hm.last hm.output)

theorem ends_haltOk (hm : T.Machines m m') :
    T.Ends (.done m.haltOk.1, m.haltOk.2) (.done m'.haltOk.1, m'.haltOk.2) := by
  unfold Machine.haltOk
  rw [← hm.output]
  split
  · exact ends_haltWith hm _
  · exact .ok (hm.own hm.size hm.stack hm.frames hm.last rfl)

/-- Runs that go on alike at every place end alike, whatever the budget. -/
theorem ends_resume (hlevel : ∀ l l', T.Machines l l' → S.Running below l → T.Levelled S S' l l') (hm : T.Machines m m')
    (hr : S.Running below m) (hkeeps : S'.heap.Extends m'.heap) (budget : Nat) :
    T.Ends (m.resume budget) (m'.resume budget) := by
  have hsteps := outcome_steps (I := fun l l' => S.Running below l ∧ S'.heap.Extends l'.heap)
    (fun l l' hl hi => levelled_step hl hi.1 hi.2 (hlevel l l' hl hi.1)) ?_ budget hm ⟨hr, hkeeps⟩
  · unfold Machine.resume
    generalize (steps budget).run m = o at hsteps ⊢
    generalize (steps budget).run m' = o' at hsteps ⊢
    cases hsteps with
    | ok hn => exact ends_haltOk hn
    | @error n n' stop hn =>
        cases stop with
        | error kind => exact ends_haltWith hn kind
        | fault cause =>
            cases cause with
            | exhausted => exact .paused hn
            | _ => exact .fault hn
  · rintro n n' l l' ⟨hrunning, hext⟩ hs - - - hext'
    obtain ⟨_, _, _, _, _, hp⟩ := hrunning.poised
    exact ⟨(hp.next hs).1, hext.trans hext'⟩

end Pairing

end Lox
