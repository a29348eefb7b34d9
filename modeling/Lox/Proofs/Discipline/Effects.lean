import Lox.Proofs.Discipline.Runs

/-! What an instruction leaves behind. An instruction that fails has been read to its end, and has neither opened nor
closed a call. One that goes on gives no script away: scripts are the only functions without a name, and the values that
it takes from code, from global variables, from a function of the host or from the values of its call are others. -/

namespace Lox

open Machine

/-! ### Functions with names -/

mutual

/-- The functions that a statement declares have names. -/
theorem Stmt.functions_named {k : Handle} {r : Routine} : (s : Stmt) → (k, r) ∈ s.functions → ∃ name, r.name = some name
  | .expression _, h | .print _, h | .ret _, h | .var _ _, h => nomatch h
  | .cond _ yes no, h => by
      rw [Stmt.functions] at h
      exact (List.mem_append.mp h).elim yes.functions_named no.functions_named
  | .loop _ _ body, h => body.functions_named h
  | .block body, h => body.functions_named h
  | .function label name params body, h => by
      rw [Stmt.functions] at h
      rcases List.mem_append.mp h with h | h
      · exact body.functions_named h
      · cases List.mem_singleton.mp h
        exact ⟨name, rfl⟩

theorem Block.functions_named {k : Handle} {r : Routine} :
    (b : Block) → (k, r) ∈ b.functions → ∃ name, r.name = some name
  | .nil, h => nomatch h
  | .cons first rest, h => by
      rw [Block.functions] at h
      exact (List.mem_append.mp h).elim first.functions_named rest.functions_named

end

/-- The handle is that of a function with a name. Sources declare such functions; a script has no name. -/
def Heap.Declares (heap : Heap) (k : Handle) : Prop := ∃ f name, heap.function? k = some f ∧ f.name = some name

/-- The value is no function, or one with a name. -/
def Value.Declared (heap : Heap) (v : Value) : Prop := v.Known heap heap.Declares

section Declared

variable {heap heap' : Heap} {k : Handle} {r : Routine} {f : FunctionObject} {code : List Spot} {v : Value}

theorem Heap.Declares.mono (h : heap.Declares k) (hh : heap.Extends heap') : heap'.Declares k := by
  obtain ⟨f, name, hf, hname⟩ := h
  exact ⟨f, name, hh.function? hf, hname⟩

theorem Value.Declared.mono (h : v.Declared heap) (hh : heap.Extends heap') : v.Declared heap' :=
  (Value.Known.mono h hh).weaken fun _ _ _ hk => hk.mono hh

/-- A function of a routine has the routine's name. -/
theorem Coded.functionName?_eq (hc : Coded heap k r f code) : heap.functionName? f = r.name := by
  have hname := hc.name
  unfold Heap.functionName?
  generalize f.name = handle at hname ⊢
  generalize r.name = name at hname ⊢
  cases handle <;> cases name
  · rfl
  · cases hname
  · cases hname
  · obtain ⟨s, hs, rfl⟩ := hname
    rw [Option.bind_some, hs]
    rfl

theorem Coded.declares (hc : Coded heap k r f code) {name : String} (hr : r.name = some name) : heap.Declares k := by
  have hname := hc.name
  rw [hr] at hname
  cases hf : f.name with
  | none =>
      rw [hf] at hname
      cases hname
  | some handle => exact ⟨f, handle, hc.object, hf⟩

theorem Coded.name_of_declares (hc : Coded heap k r f code) (hk : heap.Declares k) : ∃ name, r.name = some name := by
  obtain ⟨f', handle, hf', hhandle⟩ := hk
  obtain rfl : f = f' := Option.some.inj (hc.object.symm.trans hf')
  have hname := hc.name
  rw [hhandle] at hname
  cases hr : r.name with
  | none =>
      rw [hr] at hname
      cases hname
  | some name => exact ⟨name, rfl⟩

/-- A literal of code is no function without a name. -/
theorem Literal.Denotes.declared {literal : Literal} (h : literal.Denotes heap v)
    (hl : ∀ label, literal = .function label → heap.Declares label) : v.Declared heap := by
  cases literal with
  | number x =>
      cases h
      trivial
  | text chars =>
      obtain ⟨handle, s, rfl, hs, -⟩ := h
      exact ⟨_, Heap.string?_eq_some_iff.mp hs, nofun⟩
  | function label =>
      cases h
      obtain ⟨f, name, hf, hname⟩ := hl label rfl
      exact ⟨_, Heap.function?_eq_some_iff.mp hf, fun _ _ => ⟨f, name, hf, hname⟩⟩

/-- What stands for a datum that is no function is none. -/
theorem Value.Declared.of_view {L : Library} {d : Datum} (h : L.view heap v = some d)
    (hd : ∀ k r, d ≠ .function k r) : v.Declared heap := by
  cases Library.shows_of_view h with
  | nil | bool | number => trivial
  | text ho | native ho => exact ⟨_, ho, nofun⟩
  | function => exact absurd rfl (hd _ _)

end Declared

/-- No global variable holds a function without a name. -/
def Machine.DeclaredGlobals (m : Machine) : Prop := m.KnownGlobals m.heap.Declares

namespace Machine.DeclaredGlobals

variable {m m' : Machine}

theorem grow (h : m.DeclaredGlobals) (hm : m.Sound) (hg : m.heap.Grows m'.heap) (hglobals : m'.globals = m.globals) :
    m'.DeclaredGlobals := by
  intro name v hv
  rw [hm.global?_grow hg hglobals] at hv
  exact Value.Declared.mono (h name v hv) hg.keeps

theorem define (h : m.DeclaredGlobals) {name : String} {v : Value} {globals : Table}
    (hd : Execution.Defined m name v globals) (hv : v.Declared m.heap) : DeclaredGlobals { m with globals } := by
  intro other w hw
  rw [hd.global? other] at hw
  split at hw
  · cases hw
    exact hv
  · exact h other w hw

end Machine.DeclaredGlobals

namespace Stage

open Execution

variable {S : Stage} {below : List Value} {m m' : Machine} {k script : Handle} {fs : List Frame} {own rest : List Value}
  {p : Spot}

/-- The code of a function refers to functions that are declared. -/
theorem flows_declared (S : Stage) {r : Routine} (hk : S.lib.routine k = some r) :
    ∀ p ∈ S.code k, p.Flows (S.code k) S.heap.Declares := by
  obtain ⟨f, hc⟩ := S.coded k r hk
  refine (hc.laid.flows fun entry he => ?_).2
  obtain ⟨name, hname⟩ := r.body.functions_named he
  obtain ⟨g, code, hg⟩ := S.fits.routines _ _ (S.fits.closed k r hk entry he)
  exact hg.declares hname

/-- Whatever the clock says, a function of the host returns no function without a name, unless it is given one. -/
def Discreet (S : Stage) : Prop := ∀ k n, S.heap.native? k = some n → ∀ reading args,
  n.body reading args ∈ args ∨ (n.body reading args).Declared S.heap

/-! ### One instruction -/

/-- What the instruction at a spot leaves behind. Where it fails, it has been read to its end, and the calls are those
that there were. -/
inductive Effect (p : Spot) (k : Handle) (fs : List Frame) (rest : List Value) :
    EStateM.Result Stop Machine Flow → Prop where
  | inside {m : Machine} {ip : Nat} {own : List Value} (hown : ∀ v ∈ own, v.Declared m.heap)
      (hglobals : m.DeclaredGlobals) :
      Effect p k fs rest (.ok .next (m.config (⟨k, ip, rest.length⟩ :: fs) (own ++ .object k :: rest)))
  | enter {m : Machine} {label : Handle} {count : Nat} {args own : List Value} (hcall : p.instr = .call count)
      (hlabel : m.heap.Declares label) (hargs : ∀ v ∈ args, v.Declared m.heap) (hown : ∀ v ∈ own, v.Declared m.heap)
      (hglobals : m.DeclaredGlobals) : Effect p k fs rest (.ok .next
        (m.config (⟨label, 0, (own ++ .object k :: rest).length⟩ :: ⟨k, p.next, rest.length⟩ :: fs)
          (args ++ .object label :: (own ++ .object k :: rest))))
  | leave {m : Machine} {v : Value} (hv : v.Declared m.heap) (hglobals : m.DeclaredGlobals) :
      Effect p k fs rest (.ok .next (m.config fs (v :: rest)))
  | halt {m : Machine} {vs : List Value} (hglobals : m.DeclaredGlobals) :
      Effect p k fs rest (.ok .halt (m.config [] vs))
  | error {kind : ErrorKind} {m : Machine} {vs : List Value} (hglobals : m.DeclaredGlobals) :
      Effect p k fs rest (.error (.error kind) (m.config (⟨k, p.next, rest.length⟩ :: fs) vs))

theorem Effect.pushed {v : Value} (hv : v.Declared m.heap) (hown : ∀ w ∈ own, w.Declared m.heap)
    (hglobals : m.DeclaredGlobals) :
    Effect p k fs rest (m.pushed (⟨k, p.next, rest.length⟩ :: fs) (own ++ .object k :: rest) v) := by
  unfold Machine.pushed
  split
  · exact .error hglobals
  · have hall : ∀ w ∈ v :: own, w.Declared m.heap := List.forall_mem_cons.mpr ⟨hv, hown⟩
    exact .inside hall hglobals

/-- A function of the host gives no script away. -/
theorem Holds.declared_result {label : Handle} {g : HostFunction} {n : NativeObject} {args : List Value}
    (hm : S.Holds m) (hS : S.Discreet) (hg : S.lib.host label = some g) (hn : m.heap.native? label = some n)
    (hargs : ∀ v ∈ args, v.Declared m.heap) (reading : Float) : (n.body reading args).Declared m.heap := by
  obtain ⟨n', hn', -⟩ := S.fits.hosts label g hg
  have heq := hm.keeps.native? hn'
  rw [hn] at heq
  cases heq
  rcases hS label n hn' reading args with hmem | hdeclared
  · exact hargs _ hmem
  · exact hdeclared.mono hm.keeps

/-- What an instruction pushes gives no script away. -/
theorem Source.declared {v : Value} (hv : S.Source S.heap.Declares m own v) (hm : S.Holds m) (hS : S.Discreet)
    (hown : ∀ v ∈ own, v.Declared m.heap) (hglobals : m.DeclaredGlobals) : v.Declared m.heap := by
  cases hv with
  | own hv => exact hown v hv
  | global hv => exact hglobals _ v hv
  | literal hd hl => exact hd.declared fun label heq => (hl label heq).mono hm.keeps
  | computed hd hplain => exact .of_view hd hplain
  | hosted hg hn hargs hv =>
      subst hv
      exact hm.declared_result hS hg hn (fun w hw => hown w (hargs w hw)) _

theorem Alters.declaredGlobals (ha : Alters m own m') (hm : S.Holds m) (hown : ∀ v ∈ own, v.Declared m.heap)
    (hglobals : m.DeclaredGlobals) : m'.DeclaredGlobals := by
  cases ha with
  | grow hg hsame => exact hglobals.grow hm.sound hg hsame
  | define hd hv => exact hglobals.define hd (hown _ hv)
  | undo _ hsame => exact fun name v hv => hglobals name v (hsame name ▸ hv)

/-- **What one instruction leaves behind**, at a place of the code with as many values as it expects. The result of a
call takes less room than what the call gives up. -/
theorem Active.effect (h : S.Active below m k fs rest) (hp : p ∈ S.code k) (hheight : p.height = 1 + own.length)
    (hknown : ∀ v ∈ own, S.lib.Knows m.heap v) (hS : S.Discreet) (hown : ∀ v ∈ own, v.Declared m.heap)
    (hglobals : m.DeclaredGlobals) (hroom : rest.length < m.limits.stackMax) : Effect p k fs rest
      (step.run (m.config (⟨k, p.offset, rest.length⟩ :: fs) (own ++ .object k :: rest))) := by
  obtain ⟨r, hk⟩ := h.routine
  have hacts := h.acts hp (S.flows_declared hk p hp) hheight hknown
  generalize step.run (m.config (⟨k, p.offset, rest.length⟩ :: fs) (own ++ .object k :: rest)) = result at hacts ⊢
  cases hacts with
  | inside own' hi ha hsub hl =>
      exact .inside (fun v hv => (hown v (hsub v hv)).mono ha.keeps) (ha.declaredGlobals h.holds hown hglobals)
  | push hi ha hsub hv hl =>
      have hA := h.alter ha hknown
      have hkept : ∀ v ∈ own, v.Declared _ := fun v hv => (hown v hv).mono ha.keeps
      have hglobals := ha.declaredGlobals h.holds hown hglobals
      exact .pushed (hv.declared hA.holds hS hkept hglobals) (fun w hw => hkept w (hsub w hw)) hglobals
  | error own' hkind ha => exact .error (ha.declaredGlobals h.holds hown hglobals)
  | @hosted a t scope args own callee v m' ha hv hl =>
      have hA := h.alter ha hknown
      have hkept : ∀ v ∈ args ++ callee :: own, v.Declared m'.heap := fun v hv => (hown v hv).mono ha.keeps
      have hglobals := ha.declaredGlobals h.holds hown hglobals
      have hresult := hv.declared hA.holds hS hkept hglobals
      rw [List.forall_mem_append, List.forall_mem_cons] at hkept
      exact .pushed hresult hkept.2.2 hglobals
  | @enter a t scope args own label r' g journal hr hg harity hl =>
      rw [List.forall_mem_append, List.forall_mem_cons] at hown
      have hlabel : m.heap.Declares label := by
        obtain ⟨o, ho, hdeclares⟩ := hown.2.1
        exact hdeclares g (Option.some.inj (ho.symm.trans (Heap.function?_eq_some_iff.mp hg)))
      exact .enter (m := { m with journal }) rfl hlabel hown.1 hown.2.2 hglobals
  | @leave a t scope own v journal =>
      split
      · exact .halt (m := { m with lastValue := v }) hglobals
      · rw [if_neg (Nat.not_le.mpr hroom)]
        exact .leave (m := { m with journal }) (hown v List.mem_cons_self) hglobals

end Stage

end Lox
