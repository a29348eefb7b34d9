import Lox.Proofs.Machine.Instructions

/-! How a machine keeps up with the reference semantics. A machine mirrors a world if its global variables and
its output show the world's. It meets an outcome of the reference if it goes on to a state that shows the
outcome, or stops with the same error, or, where the reference has run out of fuel, if it goes on for as many
instructions as there was fuel. The machine's own limits, of the stack and of the output, may stop it first. -/

namespace Lox

/-- What stays the same in a run: what functions stand for, the objects that are there from the start, and what was
written before. -/
structure Setting where
  lib : Library
  heap : Heap
  written : ByteArray
  fits : lib.Fits heap

/-- The functions of the host compute on what their arguments stand for, whatever the clock says. -/
def Setting.Computes (S : Setting) : Prop :=
  ∀ handle g n, S.lib.host handle = some g → S.heap.native? handle = some n →
    ∀ heap args ds, heap.Interned → S.heap.Extends heap → args.map (S.lib.view heap) = ds.map some →
      ∀ reading, S.lib.view heap (n.body reading args) = some (g.result reading ds)

namespace Machine

/-- The machine carries out so many instructions. -/
inductive Goes : Nat → Machine → Machine → Prop where
  | refl (m : Machine) : Goes 0 m m
  | step {k : Nat} {m m' m'' : Machine} (h : Execution.step.run m = .ok .next m') (hg : Goes k m' m'') :
      Goes (k + 1) m m''

namespace Goes

variable {k l : Nat} {m m' m'' : Machine}

theorem single (h : Execution.step.run m = .ok .next m') : Goes 1 m m' := .step h (.refl m')

theorem trans (h : Goes k m m') (h' : Goes l m' m'') : Goes (k + l) m m'' := by
  induction h with
  | refl => simpa using h'
  | step hs _ ih =>
      rw [Nat.add_right_comm]
      exact .step hs (ih h')

/-- Running keeps all objects. -/
theorem grows (h : Goes k m m') : m.heap.Grows m'.heap := by
  induction h with
  | refl => exact .refl _
  | @step k m m' m'' hs _ ih =>
      have hone := Machine.grows_step m
      unfold Execution.after at hone
      rw [hs] at hone
      exact hone.trans ih

end Goes

/-- The machine goes on until an instruction stops with an error. -/
def Stops (m : Machine) (kind : ErrorKind) (m' : Machine) : Prop :=
  ∃ k m₁, Goes k m m₁ ∧ Execution.step.run m₁ = .error (.error kind) m'

/-- The limits of the machine stop it. -/
def Escapes (m : Machine) : Prop :=
  ∃ kind m', m.Stops kind m' ∧ (kind = .stackOverflow ∨ ∃ reason, kind = .output reason)

theorem Stops.after {k : Nat} {m m₁ m' : Machine} {kind : ErrorKind} (hg : Goes k m m₁) (h : m₁.Stops kind m') :
    m.Stops kind m' := by
  obtain ⟨l, m₂, hg', hs⟩ := h
  exact ⟨k + l, m₂, hg.trans hg', hs⟩

theorem Escapes.after {k : Nat} {m m₁ : Machine} (hg : Goes k m m₁) (h : m₁.Escapes) : m.Escapes := by
  obtain ⟨kind, m', hs, hk⟩ := h
  exact ⟨kind, m', hs.after hg, hk⟩

/-- The machine shows a world. -/
structure Mirrors (S : Setting) (w : World) (m : Machine) : Prop where
  sound : m.Sound
  keeps : S.heap.Extends m.heap
  globals : ∀ name, (m.global? name).map (S.lib.view m.heap) = (w.globals name).map some
  printed : m.output.written = S.written ++ w.printed.toUTF8
  clock : m.clock = w.clock

namespace Mirrors

variable {S : Setting} {w : World} {m : Machine}

/-- Calls, values, and what the run has to say about itself do not matter. -/
theorem congr {m' : Machine} (h : Mirrors S w m) (hheap : m'.heap = m.heap) (hglobals : m'.globals = m.globals)
    (hout : m'.output = m.output) (hclock : m'.clock = m.clock) : Mirrors S w m' := by
  have hsame : ∀ name, m'.global? name = m.global? name := by
    intro name
    unfold global?
    rw [hheap, hglobals]
  refine ⟨h.sound.grow (hheap ▸ .refl _) hglobals, hheap ▸ h.keeps, fun name => ?_, hout ▸ h.printed,
    hclock.trans h.clock⟩
  rw [hsame, hheap]
  exact h.globals name

theorem config (h : Mirrors S w m) (fs : List Frame) (vs : List Value) : Mirrors S w (m.config fs vs) :=
  h.congr rfl rfl rfl rfl

theorem fits (h : Mirrors S w m) : S.lib.Fits m.heap := S.fits.mono h.keeps

theorem global?_eq_none_iff (h : Mirrors S w m) (name : String) : m.global? name = none ↔ w.globals name = none := by
  have := h.globals name
  cases hm : m.global? name <;> cases hw : w.globals name <;> rw [hm, hw] at this <;> simp at this ⊢

theorem view_global (h : Mirrors S w m) {name : String} {v : Value} (hv : m.global? name = some v) :
    ∃ d, w.globals name = some d ∧ S.lib.view m.heap v = some d := by
  have := h.globals name
  rw [hv] at this
  cases hw : w.globals name with
  | none =>
      rw [hw] at this
      cases this
  | some d =>
      rw [hw] at this
      exact ⟨d, rfl, Option.some.inj this⟩

/-- The clock of the machine is read when that of the world is. -/
theorem ticked (h : Mirrors S w m) : Mirrors S { w with clock := w.clock.next } m.ticked :=
  ⟨h.sound.grow (.refl _) rfl, h.keeps, h.globals, h.printed, congrArg Clock.next h.clock⟩

/-- New strings change nothing. -/
theorem grow (h : Mirrors S w m) {heap : Heap} {journal : Journal} (hg : m.heap.Grows heap) :
    Mirrors S w { m with heap, journal } := by
  have hsame : ∀ name, ({ m with heap, journal } : Machine).global? name = m.global? name :=
    h.sound.global?_grow hg rfl
  refine ⟨h.sound.grow hg rfl, h.keeps.trans hg.keeps, fun name => ?_, h.printed, h.clock⟩
  rw [hsame, ← h.globals name]
  cases hv : m.global? name with
  | none => rfl
  | some v =>
      obtain ⟨d, -, hd⟩ := h.view_global hv
      show some _ = some _
      rw [hd, Library.view_mono hg.keeps hd]

theorem define (h : Mirrors S w m) {name : String} {v : Value} {d : Datum} {globals : Table}
    (hd : Execution.Defined m name v globals) (hv : S.lib.view m.heap v = some d) :
    Mirrors S (w.define name d) { m with globals } := by
  refine ⟨hd.sound, h.keeps, fun other => ?_, h.printed, h.clock⟩
  rw [hd.global? other, World.define]
  simp only
  split
  · simp [hv]
  · exact h.globals other

theorem print (h : Mirrors S w m) {text : String} (hw : (m.output.write text).2 = true) :
    Mirrors S { w with printed := w.printed ++ text } { m with output := (m.output.write text).1 } := by
  refine ⟨h.sound.grow (.refl _) rfl, h.keeps, h.globals, ?_, h.clock⟩
  have hwritten : (m.output.write text).1.written = m.output.written ++ text.toUTF8 := by
    unfold Output.write at hw ⊢
    simp only at hw ⊢
    split at hw
    · rfl
    · split at hw
      · next hroom => rw [if_pos hroom]
      · cases hw
  show (m.output.write text).1.written = _
  rw [hwritten, h.printed]
  simp [ByteArray.append_assoc]

end Mirrors

/-! ### Meeting an outcome -/

section Meets

variable {α β σ : Type}

/-- The machine meets an outcome of the reference: it goes on to a state as asked for, or stops with the same
error in the same world. Where the reference has run out of fuel the machine goes on for at least so many
instructions. -/
def Meets (S : Setting) (n : Nat) (world : σ → World) (Q : α → σ → Machine → Prop) (r : EStateM.Result Halt σ α)
    (m : Machine) : Prop :=
  m.Escapes ∨ match r with
    | .ok a s => ∃ k m', m.Goes k m' ∧ Q a s m'
    | .error (.failed kind) s => ∃ m', m.Stops kind m' ∧ Mirrors S (world s) m'
    | .error .exhausted _ => ∃ k m', n ≤ k ∧ m.Goes k m'

namespace Meets

variable {S : Setting} {n n' k : Nat} {world : σ → World} {Q Q' : α → σ → Machine → Prop}
  {R : β → σ → Machine → Prop} {r : EStateM.Result Halt σ α} {m m₁ m' : Machine} {a : α} {s : σ}

theorem here (hq : Q a s m) : Meets S n world Q (.ok a s) m := .inr ⟨0, m, .refl m, hq⟩

theorem fail {kind : ErrorKind} (h : Execution.step.run m = .error (.error kind) m') (hm : Mirrors S (world s) m') :
    Meets S n world Q (.error (.failed kind) s) m := .inr ⟨m', ⟨0, m, .refl m, h⟩, hm⟩

theorem exhausted : Meets S 0 world Q (.error .exhausted s) m := .inr ⟨0, m, Nat.le_refl 0, .refl m⟩

theorem escape {kind : ErrorKind} (h : Execution.step.run m = .error (.error kind) m')
    (hk : kind = .stackOverflow ∨ ∃ reason, kind = .output reason) : Meets S n world Q r m :=
  .inl ⟨kind, m', ⟨0, m, .refl m, h⟩, hk⟩

theorem mono (h : Meets S n world Q r m) (hn : n' ≤ n) (hq : ∀ a s m', Q a s m' → Q' a s m') :
    Meets S n' world Q' r m := by
  refine h.imp_right fun h => ?_
  match r with
  | .ok a s =>
      obtain ⟨k, m', hg, hm'⟩ := h
      exact ⟨k, m', hg, hq a s m' hm'⟩
  | .error (.failed kind) s => exact h
  | .error .exhausted s =>
      obtain ⟨k, m', hk, hg⟩ := h
      exact ⟨k, m', hn.trans hk, hg⟩

/-- Instructions before count against the fuel. -/
theorem after (hg : m.Goes k m₁) (h : Meets S n world Q r m₁) : Meets S (n + k) world Q r m := by
  refine h.imp (·.after hg) fun h => ?_
  match r with
  | .ok a s =>
      obtain ⟨l, m', hg', hm'⟩ := h
      exact ⟨k + l, m', hg.trans hg', hm'⟩
  | .error (.failed kind) s =>
      obtain ⟨m', hs, hm'⟩ := h
      exact ⟨m', hs.after hg, hm'⟩
  | .error .exhausted s =>
      obtain ⟨l, m', hl, hg'⟩ := h
      exact ⟨k + l, m', by omega, hg.trans hg'⟩

theorem goes (hg : m.Goes k m₁) (h : Meets S n world Q r m₁) : Meets S n world Q r m :=
  (h.after hg).mono (Nat.le_add_right n k) fun _ _ _ hq => hq

theorem step (hs : Execution.step.run m = .ok .next m₁) (h : Meets S n world Q r m₁) : Meets S n world Q r m :=
  h.goes (.single hs)

/-- An instruction that pushes a value and does nothing else. -/
theorem push {fs : List Frame} {vs : List Value} {v : Value} (hs : Execution.step.run m = m₁.pushed fs vs v)
    (hq : Q a s (m₁.config fs (v :: vs))) : Meets S n world Q (.ok a s) m := by
  unfold pushed at hs
  split at hs
  · exact escape hs (.inl rfl)
  · exact step hs (here hq)

theorem bind {x : EStateM Halt σ α} {f : α → EStateM Halt σ β} (h : Meets S n world Q (x.run s) m)
    (hf : ∀ a s' m', Q a s' m' → Meets S n world R ((f a).run s') m') :
    Meets S n world R ((x >>= f).run s) m := by
  rcases h with h | h
  · exact .inl h
  rw [EStateM.run_bind]
  match hr : x.run s with
  | .ok a s' =>
      rw [hr] at h
      obtain ⟨k, m', hg, hq⟩ := h
      exact (hf a s' m' hq).goes hg
  | .error (.failed kind) s' =>
      rw [hr] at h
      exact .inr h
  | .error .exhausted s' =>
      rw [hr] at h
      exact .inr h

/-- The machine goes on by itself. -/
theorem andThen (h : Meets S n world Q r m) (hq : ∀ a s m', Q a s m' → Meets S n world Q' (.ok a s) m') :
    Meets S n world Q' r m := by
  rcases h with h | h
  · exact .inl h
  match r with
  | .ok a s =>
      obtain ⟨k, m', hg, hm'⟩ := h
      exact (hq a s m' hm').goes hg
  | .error (.failed kind) s => exact .inr h
  | .error .exhausted s => exact .inr h

/-- Whatever the machine does, it keeps its objects. -/
theorem keeping (h : Meets S n world Q r m) :
    Meets S n world (fun a s m' => Q a s m' ∧ m.heap.Extends m'.heap) r m := by
  refine h.imp_right fun h => ?_
  match r with
  | .ok a s =>
      obtain ⟨k, m', hg, hm'⟩ := h
      exact ⟨k, m', hg, hm', hg.grows.keeps⟩
  | .error (.failed kind) s => exact h
  | .error .exhausted s => exact h

theorem inWorld {Q : α → World → Machine → Prop} {x : EStateM Halt World α} {env : Env}
    (h : Meets S n id Q (x.run env.world) m) :
    Meets S n Env.world (fun a env' m' => env'.locals = env.locals ∧ Q a env'.world m')
      ((Eval.inWorld x).run env) m := by
  refine h.imp_right fun h => ?_
  cases hr : x.run env.world with
  | ok a w =>
      have heq : (Eval.inWorld x).run env = .ok a { env with world := w } := by
        show Eval.inWorld x env = _
        unfold Eval.inWorld
        rw [hr]
      rw [hr] at h
      rw [heq]
      obtain ⟨k, m', hg, hq⟩ := h
      exact ⟨k, m', hg, rfl, hq⟩
  | error halt w =>
      have heq : (Eval.inWorld x).run env = .error halt { env with world := w } := by
        show Eval.inWorld x env = _
        unfold Eval.inWorld
        rw [hr]
      rw [hr] at h
      rw [heq]
      cases halt with
      | failed kind => exact h
      | exhausted => exact h

end Meets

end Meets

end Machine

end Lox
