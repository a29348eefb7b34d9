import Lox.Proofs.Compile.Guards

/-! Compiling comes to a result whatever the source is. A rule gets through because it is entered with a budget
for the tokens that are left, because every scope it leaves was entered and every jump it completes was written
before, and because the functions around the innermost one wait unchanged. Errors do not change that: a rule
that complains goes on with the tokens that are left, and each declaration uses up at least one of them. On the way
every move finds its guard met, and nobody complains about a number. -/

namespace Lox

namespace CompileState

/-- What a rule finds and leaves behind: where it all began and the jumps without target there, the jumps without
target now, the length that the code of the innermost function has at least, the nesting depth of its scopes, and the
functions around it. -/
structure Ground where
  origin : CompileState
  owed : Pending
  pending : Pending
  floor : Nat
  depth : Nat
  outer : List Body

/-- No finding is about a number. -/
def Numerate (s : CompileState) : Prop := ∀ d ∈ s.findings, d.message ≠ Complaint.message .invalidNumber

/-- The state is on its ground, to which guarded moves have led, and at most `n` tokens are left. -/
structure Within (g : Ground) (n : Nat) (s : CompileState) : Prop where
  ahead : ∃ us, s.Ahead us ∧ us.length ≤ n
  floor : g.floor ≤ s.body.chunk.size
  depth : s.body.scope.depth = g.depth
  outer : s.enclosing = g.outer
  guard : s.Guard g.pending
  path : GuardedMoves g.origin g.owed s g.pending
  numerate : s.Numerate

namespace Within

variable {g : Ground} {n : Nat} {s s' : CompileState}

theorem mono {m : Nat} (h : s.Within g n) (hm : n ≤ m) : s.Within g m := by
  obtain ⟨us, hu, hlen⟩ := h.ahead
  exact { h with ahead := ⟨us, hu, Nat.le_trans hlen hm⟩ }

/-- The floor may be moved to anywhere inside the code. -/
theorem onto (h : s.Within g n) {f : Nat} (hf : f ≤ s.body.chunk.size) : s.Within { g with floor := f } n :=
  ⟨h.ahead, hf, h.depth, h.outer, h.guard, h.path, h.numerate⟩

theorem lower (h : s.Within g n) {f : Nat} (hf : f ≤ g.floor) : s.Within { g with floor := f } n :=
  h.onto (Nat.le_trans hf h.floor)

/-- A guarded move that takes no token and finds nothing. -/
theorem move {p : Pending} {floor depth : Nat} {outer : List Body} (h : s.Within g n) (hm : s.Guarded g.pending s' p)
    (hcur : s'.current = s.current) (hrest : s'.rest = s.rest) (hfind : s'.findings = s.findings)
    (hsize : floor ≤ s'.body.chunk.size) (hdepth : s'.body.scope.depth = depth) (henc : s'.enclosing = outer) :
    s'.Within ⟨g.origin, g.owed, p, floor, depth, outer⟩ n := by
  obtain ⟨us, hu, hlen⟩ := h.ahead
  refine ⟨⟨us, hu.congr hcur hrest, hlen⟩, hsize, hdepth, henc, hm.guard h.guard, .step h.path hm, ?_⟩
  unfold Numerate
  rw [hfind]
  exact h.numerate

/-- A guarded move that stays on its ground. -/
theorem step (h : s.Within g n) (hm : s.Guarded g.pending s' g.pending) (hcur : s'.current = s.current)
    (hrest : s'.rest = s.rest) (hfind : s'.findings = s.findings) (hsize : s.body.chunk.size ≤ s'.body.chunk.size)
    (hdepth : s'.body.scope.depth = s.body.scope.depth) (henc : s'.enclosing = s.enclosing) : s'.Within g n :=
  h.move hm hcur hrest hfind (Nat.le_trans h.floor hsize) (hdepth.trans h.depth) (henc.trans h.outer)

theorem pos (h : s.Within g n) (hne : s.current.kind ≠ .eof) : 0 < n := by
  obtain ⟨us, hu, hlen⟩ := h.ahead
  cases hu with
  | done hk => exact absurd hk hne
  | more => exact Nat.lt_of_lt_of_le (Nat.succ_pos _) hlen

end Within

/-- The next token that is one is found before the end. -/
theorem ahead_pull {us : List Token} {last : Token} (hlast : last.kind = .eof) (hp : ∀ t ∈ us, t.Proper)
    (s : CompileState) : ∃ vs, (pull (us ++ [last]) s).Ahead vs ∧ vs.length ≤ us.length := by
  induction us generalizing s with
  | nil => exact ⟨[], .done hlast rfl, Nat.le_refl _⟩
  | cons u us ih =>
      rw [List.cons_append, pull_cons_append]
      split
      · obtain ⟨ws, hws, hlen⟩ := ih (fun t ht => hp t (List.mem_cons_of_mem _ ht))
          ((s.record (.token u)).complainAt u (.badToken u.lexeme))
        exact ⟨ws, hws, Nat.le_succ_of_le hlen⟩
      · exact ⟨u :: us, .more rfl hlast hp, Nat.le_refl _⟩

theorem Numerate.complainAt {s : CompileState} (h : s.Numerate) (token : Token) {c : Complaint}
    (hc : c.message ≠ Complaint.message .invalidNumber) : (s.complainAt token c).Numerate := by
  unfold CompileState.complainAt
  split
  · exact h
  · exact List.forall_mem_cons.mpr ⟨hc, h⟩

/-- What is no token is complained about in its own words. -/
theorem Numerate.pull {us : List Token} (last : Token) (hp : ∀ t ∈ us, t.Proper) {s : CompileState} (h : s.Numerate) :
    (pull (us ++ [last]) s).Numerate := by
  induction us generalizing s with
  | nil => exact h
  | cons u us ih =>
      obtain ⟨hu, hp⟩ := List.forall_mem_cons.mp hp
      rw [List.cons_append, pull_cons_append]
      split
      · next herr =>
          have hmsg : u.lexeme ≠ Complaint.message .invalidNumber := by
            rcases hu.refused herr with heq | heq <;> rw [heq] <;> decide
          refine ih hp (Numerate.complainAt (s := s.record (.token u)) h u ?_)
          exact hmsg
      · exact h

theorem within_advance {g : Ground} {n : Nat} {s : CompileState} (h : s.Within g n) :
    s.advance.Within g (n - 1) := by
  obtain ⟨hb, he, -⟩ := s.advance_frame
  -- the rest does not depend on what is ahead
  suffices hrest : (∃ vs, s.advance.Ahead vs ∧ vs.length ≤ n - 1) ∧ s.advance.Numerate by
    exact ⟨hrest.1, by rw [hb]; exact h.floor, by rw [hb]; exact h.depth, he.trans h.outer, h.guard.congr hb he,
      .step h.path .advance, hrest.2⟩
  obtain ⟨us, hu, hlen⟩ := h.ahead
  cases hu with
  | done hk hr =>
      have hnone : ∀ t ∈ ([] : List Token), t.Proper := fun _ ht => absurd ht List.not_mem_nil
      obtain ⟨vs, hvs, hle⟩ := ahead_pull hk hnone { s with previous := s.current }
      have hfind := Numerate.pull s.current hnone (s := { s with previous := s.current }) h.numerate
      rw [List.nil_append, ← hr] at hvs hfind
      exact ⟨⟨vs, hvs, Nat.le_trans hle (Nat.zero_le _)⟩, hfind⟩
  | @more us last hr hlast hp =>
      have hp' := (List.forall_mem_cons.mp hp).2
      obtain ⟨vs, hvs, hle⟩ := ahead_pull hlast hp' { s with previous := s.current }
      have hfind := Numerate.pull last hp' (s := { s with previous := s.current }) h.numerate
      rw [← hr] at hvs hfind
      rw [List.length_cons] at hlen
      exact ⟨⟨vs, hvs, by omega⟩, hfind⟩

end CompileState

namespace Compiler

open CompileState

variable {α β : Type} {g g' g₁ : Ground} {n m k budget : Nat}

/-- The rule comes to a result, and to a state, with a property. -/
def Ensures (x : Compiler α) (s : CompileState) (q : α → CompileState → Prop) : Prop :=
  ∃ a s', x.run s = .ok a s' ∧ q a s'

/-- What the first step of a rule does is known. -/
theorem Ensures.after {x : Compiler α} {f : α → Compiler β} {s s₁ : CompileState} {a : α}
    {q : β → CompileState → Prop} (hx : x.run s = .ok a s₁) (hf : Ensures (f a) s₁ q) : Ensures (x >>= f) s q := by
  obtain ⟨b, s₂, h₂, hq⟩ := hf
  exact ⟨b, s₂, run_bind_eq_ok.mpr ⟨a, s₁, hx, h₂⟩, hq⟩

theorem Ensures.bind {x : Compiler α} {f : α → Compiler β} {s : CompileState} {p : α → CompileState → Prop}
    {q : β → CompileState → Prop} (hx : Ensures x s p) (hf : ∀ a s', p a s' → Ensures (f a) s' q) :
    Ensures (x >>= f) s q := by
  obtain ⟨a, s₁, h₁, hp⟩ := hx
  exact .after h₁ (hf a s₁ hp)

/-- The rule comes to a result with `n` tokens left, and leaves at most `m` of them. -/
def Ends (x : Compiler α) (g : Ground) (n : Nat) (g' : Ground) (m : Nat) : Prop :=
  ∀ s, s.Within g n → Ensures x s fun _ s' => s'.Within g' m

namespace Ends

theorem bind {x : Compiler α} {f : α → Compiler β} (hx : Ends x g n g₁ m) (hf : ∀ a, Ends (f a) g₁ m g' k) :
    Ends (x >>= f) g n g' k :=
  fun s hs => (hx s hs).bind fun a s' hs' => hf a s' hs'

theorem pure (a : α) : Ends (pure a : Compiler α) g n g n := fun s hs => ⟨a, s, rfl, hs⟩

theorem modify {f : CompileState → CompileState} (hf : ∀ s, s.Within g n → (f s).Within g' m) :
    Ends (modify f : Compiler PUnit) g n g' m := fun s hs => ⟨_, _, rfl, hf s hs⟩

theorem modifyGet {f : CompileState → α × CompileState} (hf : ∀ s, s.Within g n → (f s).2.Within g' m) :
    Ends (modifyGet f : Compiler α) g n g' m := fun s hs => ⟨_, _, rfl, hf s hs⟩

/-- The rule looks at the state. -/
theorem get {f : CompileState → Compiler α} (hf : ∀ s, s.Within g n → Ensures (f s) s fun _ s' => s'.Within g' m) :
    Ends (get >>= f) g n g' m :=
  fun s hs => .after rfl (hf s hs)

theorem ite {p : Prop} [Decidable p] {x y : Compiler α} (hx : Ends x g n g' m) (hy : Ends y g n g' m) :
    Ends (if p then x else y) g n g' m := by
  split
  · exact hx
  · exact hy

/-- The rule knows which way it goes. -/
theorem dite {p : Prop} [Decidable p] {x y : Compiler α} (hx : p → Ends x g n g' m) (hy : ¬ p → Ends y g n g' m) :
    Ends (if p then x else y) g n g' m := by
  split
  · next h => exact hx h
  · next h => exact hy h

theorem mono {x : Compiler α} (hx : Ends x g n g' m) (hm : m ≤ k) : Ends x g n g' k := by
  intro s hs
  obtain ⟨a, s', h, hs'⟩ := hx s hs
  exact ⟨a, s', h, hs'.mono hm⟩

theorem lower {x : Compiler α} {f : Nat} (hx : Ends x g n g' m) (hf : f ≤ g'.floor) :
    Ends x g n { g' with floor := f } m := by
  intro s hs
  obtain ⟨a, s', h, hs'⟩ := hx s hs
  exact ⟨a, s', h, hs'.lower hf⟩

end Ends

/-- The rule ends on the ground where it began, with a result of a certain kind. -/
def Gives (x : Compiler α) (g : Ground) (n : Nat) (r : α → Prop) (m : Nat) : Prop :=
  ∀ s, s.Within g n → Ensures x s fun a s' => s'.Within g m ∧ r a

theorem Gives.bind {x : Compiler α} {f : α → Compiler β} {r : α → Prop} (hx : Gives x g n r m)
    (hf : ∀ a, r a → Ends (f a) g m g' k) : Ends (x >>= f) g n g' k :=
  fun s hs => (hx s hs).bind fun a s' h => hf a h.2 s' h.1

/-! ### The small steps -/

theorem ends_advance : Ends advance g n g (n - 1) := .modify fun _ => within_advance

theorem within_complainAt {s : CompileState} (token : Token) {c : Complaint}
    (hc : c.message ≠ Complaint.message .invalidNumber) (h : s.Within g n) : (s.complainAt token c).Within g n := by
  obtain ⟨hb, he, -⟩ := complainAt_frame token c s
  have hm : s.Guarded g.pending (s.complainAt token c) g.pending := .complain token c fun heq => hc (heq ▸ rfl)
  have hnum := h.numerate.complainAt token hc
  unfold complainAt at hb he hm hnum ⊢
  split
  · exact h
  · next hcalm =>
      rw [if_neg hcalm] at hm hnum
      obtain ⟨us, hu, hlen⟩ := h.ahead
      exact ⟨⟨us, hu.congr rfl rfl, hlen⟩, h.floor, h.depth, h.outer, hm.guard h.guard, .step h.path hm, hnum⟩

theorem ends_complain {c : Complaint} (hc : c.message ≠ Complaint.message .invalidNumber) : Ends (complain c) g n g n :=
  .modify fun _ => within_complainAt _ hc

theorem ends_complainHere {c : Complaint} (hc : c.message ≠ Complaint.message .invalidNumber) :
    Ends (complainHere c) g n g n :=
  .modify fun _ => within_complainAt _ hc

theorem expected_message (what : Expectation) :
    (Complaint.expected what).message ≠ Complaint.message .invalidNumber := by
  cases what <;> decide

theorem badScope_message (cause : ScopeError) :
    (Complaint.badScope cause).message ≠ Complaint.message .invalidNumber := by
  cases cause <;> decide

theorem run_sees (kind : TokenKind) (s : CompileState) :
    (sees kind).run s = .ok (decide (s.current.kind = kind)) s := by
  show EStateM.Result.ok (s.current.kind == kind) s = _
  rw [beq_eq_decide]

theorem run_accept_of_eq {kind : TokenKind} {s : CompileState} (h : s.current.kind = kind) :
    (accept kind).run s = .ok true s.advance :=
  run_bind_eq_ok.mpr ⟨true, s, by rw [run_sees, decide_eq_true h], rfl⟩

theorem run_accept_of_ne {kind : TokenKind} {s : CompileState} (h : s.current.kind ≠ kind) :
    (accept kind).run s = .ok false s :=
  run_bind_eq_ok.mpr ⟨false, s, by rw [run_sees, decide_eq_false h], rfl⟩

/-- Either the token is there and is taken, or nothing happens. -/
theorem ends_accept {kind : TokenKind} {x y : Compiler α} (hk : kind ≠ .eof)
    (hx : 0 < n → Ends x g (n - 1) g' m) (hy : Ends y g n g' m) :
    Ends (do if ← accept kind then x else y) g n g' m := by
  intro s hs
  by_cases hcur : s.current.kind = kind
  · exact .after (run_accept_of_eq hcur) (hx (hs.pos (hcur ▸ hk)) _ (within_advance hs))
  · exact .after (run_accept_of_ne hcur) (hy s hs)

theorem ends_expect (kind : TokenKind) (what : Expectation) : Ends (expect kind what) g n g n := by
  intro s hs
  exact .after (run_sees kind s)
    (Ends.ite (ends_advance.mono (Nat.sub_le _ _)) (ends_complainHere (expected_message what)) s hs)

/-- Writing code takes no token. -/
theorem ends_mapChunk {f : CompileState → Chunk} (hf : ∀ s, s.body.chunk.size ≤ (f s).size)
    (hm : ∀ s : CompileState, s.Guarded g.pending (s.mapChunk fun _ => f s) g.pending) :
    Ends (modify fun s => s.mapChunk fun _ => f s : Compiler PUnit) g n g n :=
  .modify fun s hs => hs.step (hm s) rfl rfl rfl (hf s) rfl rfl

theorem ends_emit (op : Opcode) : Ends (emit op) g n g n :=
  ends_mapChunk (fun _ => (Chunk.grows_writeOp ..).size_le) fun _ => .op op

theorem ends_emitByte (op : Opcode) {operand : Nat} (h : operand < 256) : Ends (emitByte op operand) g n g n :=
  ends_mapChunk (fun _ => (Chunk.grows_writeOpByte ..).size_le) fun _ => .opByte op h

theorem ends_emitWord (op : Opcode) {operand : Nat} (h : operand < 65536) : Ends (emitWord op operand) g n g n :=
  ends_mapChunk (fun _ => (Chunk.grows_writeOpWord ..).size_le) fun _ => .opWord op h

theorem ends_emitRepeated (op : Opcode) (count : Nat) : Ends (emitRepeated op count) g n g n := by
  induction count with
  | zero => exact .pure _
  | succ count ih => exact .bind (ends_emit op) fun _ => ih

theorem ends_emitReturn : Ends emitReturn g n g n := .bind (ends_emit _) fun _ => ends_emit _

theorem ends_addConstant (v : Value) : Ends (addConstant v) g n g n :=
  .get fun _ hs => ⟨_, _, rfl, hs.step (.constant v) rfl rfl rfl (Nat.le_refl _) rfl rfl⟩

theorem ends_emitConstant (v : Value) : Ends (emitConstant v) g n g n :=
  .bind (ends_addConstant v) fun _ =>
    .dite (ends_emitByte _) fun _ => .dite (ends_emitWord _) fun _ => ends_complain (by decide)

theorem findings_intern (chars : String) (s : CompileState) : (s.intern chars).2.findings = s.findings := by
  unfold CompileState.intern
  simp only
  split <;> rfl

theorem ends_intern (chars : String) : Ends (modifyGet (CompileState.intern chars) : Compiler Handle) g n g n := by
  refine .modifyGet fun s hs => ?_
  obtain ⟨hb, hcur, -, hrest, he, -⟩ := s.intern_frame chars
  exact hs.step (.text chars) hcur hrest (findings_intern chars s) (by rw [hb]) (by rw [hb]) he

/-- The index of a name fits one byte. -/
theorem gives_nameConstant (name : String) : Gives (nameConstant name) g n (· < 256) n := by
  intro s hs
  refine (ends_intern name s hs).bind fun handle s₁ hs₁ => .after rfl ?_
  split
  · next index hindex => exact ⟨_, _, rfl, hs₁, by simpa using (Option.filter_eq_some_iff.mp hindex).2⟩
  · refine (ends_addConstant _ s₁ hs₁).bind fun index s₂ hs₂ => ?_
    split
    · next hroom => exact ⟨_, _, rfl, hs₂, hroom⟩
    · refine (ends_complain (by decide) s₂ hs₂).bind fun _ s₃ hs₃ => ?_
      exact ⟨_, _, rfl, hs₃, by decide⟩

/-- Behind a jump that has been written, its operand lies inside the code and waits for its target. -/
theorem ends_emitJump {op : Opcode} {f : Nat → Compiler α}
    (hf : ∀ o, g.floor < o → Ends (f o) { g with floor := o + 2, pending := g.pending.push o } n g' m) :
    Ends (emitJump op >>= f) g n g' m := by
  intro s hs
  have hrun : (emitJump op).run s = .ok (s.body.chunk.size + 1)
      (s.mapChunk fun c => (c.writeJump op s.previous.line).1) := rfl
  have hfloor := hs.floor
  refine .after hrun (hf _ (by omega) _ (hs.move (.jump op) rfl rfl rfl ?_ hs.depth hs.outer))
  simp [mapChunk, Chunk.writeJump]

/-- A jump that is too long is given up with a complaint. -/
theorem ends_patchJump {operand : Nat} (hmem : operand ∈ g.pending.inner) (ho : operand + 2 ≤ g.floor) :
    Ends (patchJump operand) g n { g with pending := g.pending.drop operand } n := by
  intro s hs
  have hend : operand + 2 ≤ s.body.chunk.size := Nat.le_trans ho hs.floor
  refine .after rfl ?_
  unfold Chunk.forwardDistance
  rw [if_neg (by omega)]
  simp only
  by_cases hfar : maxJump < s.body.chunk.size - (operand + 2)
  · rw [if_pos hfar]
    have hdone := within_complainAt (c := .badJump .jumpTooLarge) s.previous (by decide) hs
    have hm : s.Guarded g.pending (s.complain (.badJump .jumpTooLarge)) (g.pending.drop operand) :=
      .giveUp hmem hend hfar
    exact ⟨_, _, rfl, hdone.ahead, hdone.floor, hdone.depth, hdone.outer, hm.guard hs.guard, .step hs.path hm,
      hdone.numerate⟩
  · rw [if_neg hfar]
    refine ⟨_, _, rfl, hs.move (.patch hmem hend (Nat.le_of_not_lt hfar)) rfl rfl rfl ?_ hs.depth hs.outer⟩
    exact Nat.le_trans hs.floor (Nat.le_of_eq (Chunk.size_setWord ..).symm)

/-- The jump written last gets its target. -/
theorem ends_patchLast {o floor : Nat} (ho : o + 2 ≤ floor) (hg : g.floor ≤ floor) :
    Ends (patchJump o) { g with floor, pending := g.pending.push o } n g n := by
  have h := (ends_patchJump (g := { g with floor, pending := g.pending.push o }) (n := n)
    (List.mem_cons_self ..) ho).lower hg
  rwa [Pending.drop_push] at h

/-- The jump before the last one gets its target. -/
theorem ends_patchEarlier {o o' floor : Nat} (hlt : o < o') (ho : o + 2 ≤ floor) :
    Ends (patchJump o) { g with floor, pending := (g.pending.push o).push o' } n
      { g with floor, pending := g.pending.push o' } n := by
  have h := ends_patchJump (g := { g with floor, pending := (g.pending.push o).push o' }) (n := n)
    (List.mem_cons_of_mem _ (List.mem_cons_self ..)) ho
  rwa [Pending.drop_push_push hlt] at h

theorem ends_emitLoop {start : Nat} (hstart : start ≤ g.floor) : Ends (emitLoop start) g n g n := by
  refine .get fun s hs => ?_
  have hle : start ≤ s.body.chunk.size := Nat.le_trans hstart hs.floor
  unfold Chunk.backwardDistance
  rw [if_neg (by omega)]
  simp only
  by_cases hfar : maxJump < s.body.chunk.size + 3 - start
  · rw [if_pos hfar]
    exact ends_complain (by decide) s hs
  · rw [if_neg hfar]
    exact ⟨_, _, rfl, hs.step (.back hle (Nat.le_of_not_lt hfar)) rfl rfl rfl (Chunk.grows_writeOpWord ..).size_le rfl
      rfl⟩

/-! ### Variables -/

theorem ends_enterScope : Ends enterScope g n { g with depth := g.depth + 1 } n :=
  .modify fun _ hs => hs.move .enter rfl rfl rfl hs.floor (congrArg (· + 1) hs.depth) hs.outer

theorem ends_leaveScope : Ends leaveScope { g with depth := g.depth + 1 } n g n := by
  refine .get fun s hs => ?_
  have hdepth : s.body.scope.depth = g.depth + 1 := hs.depth
  cases hleave : s.body.scope.leave? with
  | none =>
      unfold Scope.leave? at hleave
      rw [hdepth] at hleave
      cases hleave
  | some left =>
      obtain ⟨scope, count⟩ := left
      have hd : scope.depth = g.depth := by
        unfold Scope.leave? at hleave
        rw [hdepth] at hleave
        cases hleave
        rfl
      exact .after rfl (ends_emitRepeated _ _ _ (hs.move (.leave hleave) rfl rfl rfl hs.floor hd hs.outer))

theorem ends_markInitialized : Ends markInitialized g n g n :=
  .modify fun _ hs => hs.step .mark rfl rfl rfl (Nat.le_refl _) (depth_markInitialized _) rfl

theorem ends_declareVariable : Ends declareVariable g n g n := by
  refine .get fun s hs => ?_
  split
  · split
    · next scope hscope =>
        refine ⟨_, _, rfl, hs.step (.declare hscope) rfl rfl rfl (Nat.le_refl _) ?_ rfl⟩
        unfold Scope.declare at hscope
        split at hscope
        · cases hscope
        split at hscope
        · cases hscope
        cases hscope
        rfl
    · exact ends_complain (badScope_message _) s hs
  · exact ⟨_, _, rfl, hs⟩

theorem gives_declareName (what : Expectation) : Gives (declareName what) g n (· < 256) n := by
  intro s hs
  refine (ends_expect _ _ s hs).bind fun _ s₁ hs₁ => (ends_declareVariable s₁ hs₁).bind fun _ s₂ hs₂ => .after rfl ?_
  split
  · exact ⟨_, _, rfl, hs₂, by decide⟩
  · exact .after rfl (gives_nameConstant _ s₂ hs₂)

theorem ends_defineVariable {i : Nat} (h : i < 256) : Ends (defineVariable i) g n g n := by
  refine .get fun s hs => ?_
  split
  · exact ends_markInitialized s hs
  · exact ends_emitByte _ h s hs

/-- The function that was left behind is found again. -/
theorem ends_endFunction {body : Body} {others : List Body} {jumps : List Nat} {rest : List (List Nat)}
    (ho : g.outer = body :: others) (hp : g.pending = ⟨[], jumps :: rest⟩) :
    Ends endFunction g n ⟨g.origin, g.owed, ⟨jumps, rest⟩, body.chunk.size, body.scope.depth, others⟩ n := by
  refine .bind ends_emitReturn fun _ => .modifyGet fun s hs => ?_
  have hm : s.Guarded g.pending s.closeFunction.2 ⟨jumps, rest⟩ := .closed (hs.outer.trans ho) hp
  obtain ⟨body', enclosing, journal, heq, houter⟩ := s.closeFunction_eq
  obtain ⟨rfl, rfl⟩ := houter body others (hs.outer.trans ho)
  rw [heq] at hm ⊢
  exact hs.move hm rfl rfl rfl (Nat.le_refl _) rfl rfl

/-! ### Expressions -/

/-- A number token can be read as a number. -/
theorem ensures_numberLiteral {s : CompileState} (hs : s.Within g n)
    (hx : ∃ x, Number.ofLiteral? s.previous.lexeme.toList = some x) :
    Ensures numberLiteral s fun _ s' => s'.Within g n := by
  obtain ⟨x, hx⟩ := hx
  refine .after rfl ?_
  rw [hx]
  exact ends_emitConstant _ s hs

/-- Between the quotes there is something. -/
theorem unquote?_of_quoted {lexeme : String} {chars : List Char} (h : lexeme.toList = '"' :: (chars ++ ['"'])) :
    unquote? lexeme = some (String.ofList chars) := by
  unfold unquote?
  rw [h]
  cases chars with
  | nil => rfl
  | cons c cs =>
      show some (String.ofList ((c :: cs) ++ ['"']).dropLast) = _
      rw [List.dropLast_concat]

/-- A string token has its quotes. -/
theorem ensures_stringLiteral {s : CompileState} (hs : s.Within g n)
    (hq : ∃ chars, s.previous.lexeme.toList = '"' :: (chars ++ ['"'])) :
    Ensures stringLiteral s fun _ s' => s'.Within g n := by
  obtain ⟨cs, hcs⟩ := hq
  obtain ⟨chars, hchars⟩ : ∃ chars, unquote? s.previous.lexeme = some chars := ⟨_, unquote?_of_quoted hcs⟩
  have hrest : Ends (do
      let handle ← modifyGet (CompileState.intern chars)
      emitConstant (.object handle)) g n g n := .bind (ends_intern chars) fun _ => ends_emitConstant _
  refine .after rfl ?_
  rw [hchars]
  exact hrest s hs

theorem slot_lt {name : String} {locals : List Local} {slot : Nat}
    (h : Scope.resolveIn name locals = .ok (some slot)) : slot < locals.length := by
  induction locals with
  | nil => cases h
  | cons l earlier ih =>
      rw [Scope.resolveIn] at h
      split at h
      · split at h
        · cases h
          exact Nat.lt_succ_self _
        · cases h
      · exact Nat.lt_succ_of_lt (ih h)

/-- The operand that stands for a variable fits one byte. -/
theorem gives_accessOf (name : String) :
    Gives (accessOf name) g n (fun access => ∀ a, access = some a → a.operand < 256) n := by
  intro s hs
  refine .after rfl ?_
  split
  · next slot hslot =>
      have hroom := (List.forall_mem_cons.mp hs.guard.bounded).1.locals
      have := slot_lt hslot
      refine ⟨_, _, rfl, hs, fun a ha => ?_⟩
      cases ha
      exact Nat.lt_of_lt_of_le this hroom
  · refine (gives_nameConstant name s hs).bind fun i s₁ h₁ => ⟨_, _, rfl, h₁.1, fun a ha => ?_⟩
    cases ha
    exact h₁.2
  · exact (ends_complain (badScope_message _) s hs).bind fun _ s₁ hs₁ => ⟨_, _, rfl, hs₁, fun a ha => by cases ha⟩

theorem gives_countArgument {count : Nat} (h : count ≤ 255) : Gives (countArgument count) g n (· ≤ 255) n := by
  intro s hs
  unfold countArgument
  split
  · exact (ends_complain (by decide) s hs).bind fun _ s₁ hs₁ => ⟨_, _, rfl, hs₁, h⟩
  · exact ⟨_, _, rfl, hs, by omega⟩

/-- What opens an expression has the face that its rule asks for. -/
theorem ends_expressionOf {p : Precedence}
    (hopen : ∀ o c s, s.Within g (n - 1) →
      (o = .string → ∃ chars, s.previous.lexeme.toList = '"' :: (chars ++ ['"'])) →
      (o = .number → ∃ x, Number.ofLiteral? s.previous.lexeme.toList = some x) →
      0 < n → Ensures (openWith o c budget) s fun _ s' => s'.Within g (n - 1))
    (hall : 0 < n → Ends (joinAll p budget) g (n - 1) g (n - 1)) :
    Ends (expressionOf p (budget + 1)) g n g (n - 1) := by
  rw [expressionOf]
  intro s hs
  have hs₁ := within_advance hs
  have hrun : advance.run s = .ok () s.advance := rfl
  refine .after hrun (.after rfl ?_)
  obtain ⟨-, -, -, hprev, -⟩ := s.advance_frame
  cases ho : opening? s.advance.previous.kind with
  | none => exact ends_complain (by decide) _ hs₁
  | some o =>
      have hk := opening_kind ho
      rw [hprev] at hk
      have hpos := hs.pos hk.1
      have hproper : s.current.Proper := by
        obtain ⟨us, hu, -⟩ := hs.ahead
        cases hu with
        | done hk' => exact absurd hk' hk.1
        | more hr hlast hp => exact hp _ (List.mem_cons_self ..)
      have hstring : o = .string → ∃ chars, s.advance.previous.lexeme.toList = '"' :: (chars ++ ['"']) := by
        rw [hprev]
        exact fun hstr => hproper.quoted (hk.2.2.2.1 hstr)
      have hnumber : o = .number → ∃ x, Number.ofLiteral? s.advance.previous.lexeme.toList = some x := by
        rw [hprev]
        exact fun hnum => hproper.numeric (hk.2.2.1 hnum)
      have hend : Ends (do
          joinAll p budget
          if decide (p ≤ .assignment) then
            if ← accept .equal then complain .invalidAssignmentTarget) g (n - 1) g (n - 1) :=
        .bind (hall hpos) fun _ => .ite
          (ends_accept (by decide) (fun _ => (ends_complain (by decide)).mono (Nat.sub_le _ _)) (.pure _)) (.pure _)
      exact (hopen o _ _ hs₁ hstring hnumber hpos).bind fun _ s₂ hs₂ => hend s₂ hs₂

/-- There is a token that joins, and it is taken. -/
theorem ends_joinAll {p : Precedence} (hjoin : ∀ j q, 0 < n → Ends (joinWith j q budget) g (n - 1) g (n - 1))
    (hall : 0 < n → Ends (joinAll p budget) g (n - 1) g (n - 1)) : Ends (joinAll p (budget + 1)) g n g n := by
  rw [joinAll]
  refine .get fun s hs => ?_
  split
  · next j q hj =>
      have hpos : 0 < n := hs.pos fun he => by rw [he] at hj; cases hj
      split
      · have hmore : Ends (do advance; joinWith j q budget; joinAll p budget) g n g n :=
          .bind ends_advance fun _ => .bind (hjoin j q hpos) fun _ => (hall hpos).mono (Nat.sub_le _ _)
        exact hmore s hs
      · exact ⟨_, _, rfl, hs⟩
  · exact ⟨_, _, rfl, hs⟩

/-- A variable is read, or, before an equals sign, written. -/
theorem ends_variable {c : Bool} (hvalue : ∀ m, m ≤ n → Ends (expressionOf .assignment budget) g m g m) :
    Ends (openWith .variable c (budget + 1)) g n g n := by
  rw [openWith]
  intro s hs
  refine .after rfl ((gives_accessOf _ s hs).bind fun a s₁ h₁ => ?_)
  obtain ⟨hs₁, hoperand⟩ := h₁
  cases a with
  | none => exact ⟨_, _, rfl, hs₁⟩
  | some access =>
      have hbyte := hoperand access rfl
      have hread : Ends (emitByte access.read access.operand) g n g n := ends_emitByte _ hbyte
      have hwrite : Ends (do
          expressionOf .assignment budget
          emitByte access.write access.operand) g (n - 1) g (n - 1) :=
        .bind (hvalue _ (Nat.sub_le _ _)) fun _ => ends_emitByte _ hbyte
      simp only
      split
      · exact ends_accept (by decide) (fun _ => hwrite.mono (Nat.sub_le _ _)) hread s₁ hs₁
      · exact hread s₁ hs₁

theorem ensures_openWith {o : Opening} {c : Bool} {s : CompileState}
    (hexpr : ∀ p m, m ≤ n → Ends (expressionOf p budget) g m g m) (hs : s.Within g n)
    (hq : o = .string → ∃ chars, s.previous.lexeme.toList = '"' :: (chars ++ ['"']))
    (hx : o = .number → ∃ x, Number.ofLiteral? s.previous.lexeme.toList = some x) :
    Ensures (openWith o c (budget + 1)) s fun _ s' => s'.Within g n := by
  have hinner : ∀ p, Ends (expressionOf p budget) g n g n := fun p => hexpr p n (Nat.le_refl _)
  cases o with
  | «variable» => exact ends_variable (hexpr .assignment) s hs
  | number =>
      rw [openWith]
      exact ensures_numberLiteral hs (hx rfl)
  | string =>
      rw [openWith]
      exact ensures_stringLiteral hs (hq rfl)
  | literal op =>
      rw [openWith]
      exact ends_emit op s hs
  | grouping =>
      rw [openWith]
      exact Ends.bind (hinner _) (fun _ => ends_expect _ _) s hs
  | unary op =>
      rw [openWith]
      exact Ends.bind (hinner _) (fun _ => ends_emit _) s hs

/-- The jump of a conjunction is the last one without target when its right side has been read. -/
theorem ends_joinAnd {q : Precedence} (hinner : ∀ p g, Ends (expressionOf p budget) g n g n) :
    Ends (joinWith .and q (budget + 1)) g n g n := by
  rw [joinWith]
  refine ends_emitJump fun o ho => .bind (ends_emit _) fun _ => .bind (hinner _ _) fun _ => ?_
  exact ends_patchLast (Nat.le_refl _) (by omega)

/-- Of the two jumps of a disjunction, the earlier one gets its target first. -/
theorem ends_joinOr {q : Precedence} (hinner : ∀ p g, Ends (expressionOf p budget) g n g n) :
    Ends (joinWith .or q (budget + 1)) g n g n := by
  rw [joinWith]
  refine ends_emitJump fun o ho => ends_emitJump fun o' ho' => ?_
  have hlt : o + 2 < o' := ho'
  have hright : Ends (patchJump o) { g with floor := o' + 2, pending := (g.pending.push o).push o' } n
      { g with floor := o' + 2, pending := g.pending.push o' } n := ends_patchEarlier (by omega) (by omega)
  refine .bind hright fun _ => .bind (ends_emit _) fun _ => .bind (hinner _ _) fun _ => ?_
  exact ends_patchLast (Nat.le_refl _) (by omega)

theorem ends_joinCall {q : Precedence} (hargs : Gives (arguments 0 budget) g n (· ≤ 255) n) :
    Ends (joinWith .call q (budget + 1)) g n g n := by
  rw [joinWith]
  have hend : ∀ count, count ≤ 255 → Ends (do
      expect .rightParen .parenAfterArguments
      emitByte .call count) g n g n :=
    fun _ hcount => .bind (ends_expect _ _) fun _ => ends_emitByte _ (Nat.lt_succ_of_le hcount)
  intro s hs
  refine .after (run_sees _ s) ?_
  split
  · exact hend 0 (Nat.zero_le _) s hs
  · exact hargs.bind hend s hs

theorem ends_joinWith {j : Joining} {q : Precedence} (hinner : ∀ p g, Ends (expressionOf p budget) g n g n)
    (hargs : Gives (arguments 0 budget) g n (· ≤ 255) n) : Ends (joinWith j q (budget + 1)) g n g n := by
  cases j with
  | binary op =>
      rw [joinWith]
      exact .bind (hinner _ _) fun _ => ends_emit _
  | and => exact ends_joinAnd hinner
  | or => exact ends_joinOr hinner
  | call => exact ends_joinCall hargs

/-- After a comma there is one token less for the other arguments. -/
theorem gives_arguments {count : Nat} (hcount : count ≤ 255) (hinner : Ends (expressionOf .assignment budget) g n g n)
    (hargs : ∀ c, c ≤ 255 → 0 < n → Gives (arguments c budget) g (n - 1) (· ≤ 255) (n - 1)) :
    Gives (arguments count (budget + 1)) g n (· ≤ 255) n := by
  rw [arguments]
  intro s hs
  refine (hinner s hs).bind fun _ s₁ hs₁ => (gives_countArgument hcount s₁ hs₁).bind fun c s₂ h₂ => ?_
  obtain ⟨hs₂, hc⟩ := h₂
  by_cases hcur : s₂.current.kind = .comma
  · have hpos := hs₂.pos (by rw [hcur]; decide)
    refine .after (run_accept_of_eq hcur) ?_
    obtain ⟨a, s₃, h₃, hs₃, ha⟩ := hargs c hc hpos _ (within_advance hs₂)
    exact ⟨a, s₃, h₃, hs₃.mono (Nat.sub_le _ _), ha⟩
  · exact .after (run_accept_of_ne hcur) ⟨_, _, rfl, hs₂, hc⟩

/-- All rules for expressions, by induction on the budget. Reading an expression takes at least one token, if
there is one; so two rules are entered between two tokens. -/
theorem ends_expressions (budget : Nat) :
    (∀ p g n, 2 * n + 1 ≤ budget → Ends (expressionOf p budget) g n g (n - 1)) ∧
      (∀ p g n, 2 * n + 2 ≤ budget → Ends (joinAll p budget) g n g n) ∧
      (∀ o c g n s, 2 * n + 2 ≤ budget → s.Within g n →
        (o = .string → ∃ chars, s.previous.lexeme.toList = '"' :: (chars ++ ['"'])) →
        (o = .number → ∃ x, Number.ofLiteral? s.previous.lexeme.toList = some x) →
        Ensures (openWith o c budget) s fun _ s' => s'.Within g n) ∧
      (∀ j q g n, 2 * n + 3 ≤ budget → Ends (joinWith j q budget) g n g n) ∧
      ∀ count g n, count ≤ 255 → 2 * n + 2 ≤ budget → Gives (arguments count budget) g n (· ≤ 255) n := by
  induction budget with
  | zero => refine ⟨?_, ?_, ?_, ?_, ?_⟩ <;> intros <;> omega
  | succ budget ih =>
      obtain ⟨hexpr, hall, hopen, hjoin, hargs⟩ := ih
      -- an expression inside a rule may leave all tokens but those it takes
      have hinner : ∀ p g n, 2 * n + 1 ≤ budget → Ends (expressionOf p budget) g n g n :=
        fun p g n h => (hexpr p g n h).mono (Nat.sub_le _ _)
      refine ⟨fun p g n h => ?_, fun p g n h => ?_, fun o c g n s h hs hq hx => ?_, fun j q g n h => ?_,
        fun count g n hcount h => ?_⟩
      · exact ends_expressionOf (fun o c s hs hq hx hpos => hopen o c g _ s (by omega) hs hq hx)
          fun hpos => hall p g _ (by omega)
      · exact ends_joinAll (fun j q hpos => hjoin j q g _ (by omega)) fun hpos => hall p g _ (by omega)
      · exact ensures_openWith (fun p m hm => hinner p g m (by omega)) hs hq hx
      · exact ends_joinWith (fun p g => hinner p g n (by omega)) (hargs 0 g n (Nat.zero_le _) (by omega))
      · exact gives_arguments hcount (hinner _ g n (by omega)) fun c hc hpos => hargs c g _ hc (by omega)

theorem ends_expression (h : 2 * n + 1 ≤ budget) : Ends (expression budget) g n g (n - 1) :=
  (ends_expressions budget).1 _ g n h

/-- An expression that is followed by more of the same statement. -/
theorem ends_expression_inside (h : 2 * n + 1 ≤ budget) : Ends (expression budget) g n g n :=
  (ends_expression h).mono (Nat.sub_le _ _)

/-! ### Statements -/

theorem ends_expressionStatement (h : 2 * n + 1 ≤ budget) : Ends (expressionStatement budget) g n g (n - 1) :=
  .bind (ends_expression h) fun _ => .bind (ends_expect _ _) fun _ => ends_emit _

theorem ends_printStatement (h : 2 * n + 1 ≤ budget) : Ends (printStatement budget) g n g n :=
  .bind (ends_expression_inside h) fun _ => .bind (ends_expect _ _) fun _ => ends_emit _

theorem ends_returnStatement (h : 2 * n + 1 ≤ budget) : Ends (returnStatement budget) g n g n :=
  ends_accept (by decide) (fun _ => ends_emitReturn.mono (Nat.sub_le _ _))
    (.bind (ends_expression_inside h) fun _ => .bind (ends_expect _ _) fun _ => ends_emit _)

theorem ends_varDeclaration (h : 2 * n + 1 ≤ budget) : Ends (varDeclaration budget) g n g n := by
  have hend : ∀ i n, i < 256 → Ends (do expect .semicolon .semicolonAfterVariable; defineVariable i) g n g n :=
    fun i n hi => .bind (ends_expect _ _) fun _ => ends_defineVariable hi
  refine (gives_declareName _).bind fun i hi => ends_accept (by decide) (fun _ => ?_) ?_
  · exact (Ends.bind (ends_expression_inside (by omega)) fun _ => hend i _ hi).mono (Nat.sub_le _ _)
  · exact .bind (ends_emit _) fun _ => hend i n hi

theorem ends_forInitializer (h : 2 * n + 1 ≤ budget) : Ends (forInitializer budget) g n g n := by
  refine ends_accept (by decide) (fun _ => (ends_varDeclaration (by omega)).mono (Nat.sub_le _ _)) ?_
  intro s hs
  by_cases hcur : s.current.kind = .semicolon
  · exact .after (run_accept_of_eq hcur) ⟨_, _, rfl, (within_advance hs).mono (Nat.sub_le _ _)⟩
  · exact .after (run_accept_of_ne hcur) ((ends_expressionStatement h).mono (Nat.sub_le _ _) s hs)

/-- Behind the condition of a loop, the operand of the jump out of the loop lies inside the code. -/
theorem ends_forCondition {f : Option Nat → Compiler α} (h : 2 * n + 1 ≤ budget)
    (hf : ∀ floor, g.floor ≤ floor → ∀ exit, (∀ o, exit = some o → o + 2 ≤ floor) →
      Ends (f exit) { g with floor, pending := g.pending.await exit } n g' m) :
    Ends (forCondition budget >>= f) g n g' m := by
  intro s hs
  unfold forCondition
  rw [bind_assoc]
  by_cases hcur : s.current.kind = .semicolon
  · refine .after (run_accept_of_eq hcur) ?_
    exact hf g.floor (Nat.le_refl _) none nofun _ ((within_advance hs).mono (Nat.sub_le _ _))
  · refine .after (run_accept_of_ne hcur) ?_
    have hrest : Ends (do
        expression budget
        expect .semicolon .semicolonAfterCondition
        let exit ← emitJump .jumpIfFalse
        emit .pop
        f (some exit)) g n g' m :=
      .bind (ends_expression_inside h) fun _ => .bind (ends_expect _ _) fun _ => ends_emitJump fun o ho =>
        .bind (ends_emit _) fun _ => hf (o + 2) (by omega) (some o) fun _ ho' => by cases ho'; exact Nat.le_refl _
    simpa using hrest s hs

/-- Behind the increment of a loop, the code that the body goes back to has been written. -/
theorem ends_forIncrement {start : Nat} {f : Nat → Compiler α} (h : 2 * n + 1 ≤ budget) (hstart : start ≤ g.floor)
    (hf : ∀ floor, g.floor ≤ floor → ∀ back, back ≤ floor → Ends (f back) { g with floor } n g' m) :
    Ends (forIncrement start budget >>= f) g n g' m := by
  intro s hs
  unfold forIncrement
  rw [bind_assoc]
  by_cases hcur : s.current.kind = .rightParen
  · refine .after (run_accept_of_eq hcur) ?_
    exact hf g.floor (Nat.le_refl _) start hstart _ ((within_advance hs).mono (Nat.sub_le _ _))
  · refine .after (run_accept_of_ne hcur) ?_
    have hrest : Ends (do
        let body ← emitJump .jump
        let increment ← offset
        expression budget
        emit .pop
        expect .rightParen .parenAfterClauses
        emitLoop start
        patchJump body
        f increment) g n g' m := by
      refine ends_emitJump fun o ho s' hs' => .after rfl ?_
      -- the increment begins where the code is at this moment
      have hfloor := hs'.onto (Nat.le_refl _)
      have hle : o + 2 ≤ s'.body.chunk.size := hs'.floor
      have hpatch : Ends (patchJump o) { g with floor := s'.body.chunk.size, pending := g.pending.push o } n
          { g with floor := s'.body.chunk.size } n :=
        ends_patchLast (g := { g with floor := s'.body.chunk.size }) hle (Nat.le_refl _)
      refine Ends.bind (ends_expression_inside h) (fun _ => .bind (ends_emit _) fun _ =>
        .bind (ends_expect _ _) fun _ => .bind (ends_emitLoop ?_) fun _ => .bind hpatch fun _ =>
        hf _ ?_ _ (Nat.le_refl _)) s' hfloor
      · show start ≤ s'.body.chunk.size
        omega
      · omega
    simpa using hrest s hs

theorem ends_forExit {exit : Option Nat} {floor : Nat} (h : ∀ o, exit = some o → o + 2 ≤ floor) (hg : g.floor ≤ floor) :
    Ends (forExit exit) { g with floor, pending := g.pending.await exit } n g n := by
  cases exit with
  | none => exact (Ends.pure (g := { g with floor }) _).lower hg
  | some exit => exact .bind (ends_patchLast (h exit rfl) hg) fun _ => ends_emit _

theorem ends_countParameter : Ends countParameter g n g n := by
  refine .get fun s hs => ?_
  have harity := (List.forall_mem_cons.mp hs.guard.bounded).1.arity
  split
  · exact ends_complainHere (by decide) s hs
  · exact ⟨_, _, rfl, hs.step (.parameter (by omega)) rfl rfl rfl (Nat.le_refl _) rfl rfl⟩

theorem ends_parameters (h : n + 1 ≤ budget) : Ends (parameters budget) g n g n := by
  induction budget generalizing n with
  | zero => omega
  | succ budget ih =>
      rw [parameters]
      exact .bind ends_countParameter fun _ => (gives_declareName _).bind fun _ hi =>
        .bind (ends_defineVariable hi) fun _ =>
        ends_accept (by decide) (fun _ => (ih (by omega)).mono (Nat.sub_le _ _)) (.pure _)

theorem ends_skipStatement (h : n + 1 ≤ budget) : Ends (skipStatement budget) g n g n := by
  induction budget generalizing n with
  | zero => omega
  | succ budget ih =>
      rw [skipStatement]
      refine .get fun s hs => ?_
      split
      · exact ⟨_, _, rfl, hs⟩
      · next hgo =>
          have hpos : 0 < n := hs.pos fun he => hgo (by simp [he])
          exact Ends.bind ends_advance (fun _ => (ih (by omega)).mono (Nat.sub_le _ _)) s hs

theorem ends_synchronize (h : n + 1 ≤ budget) : Ends (synchronize budget) g n g n := by
  refine .get fun s hs => ?_
  split
  · have hskip : Ends (do
        modify fun s => { s with panicking := false }
        skipStatement budget) g n g n :=
      .bind (.modify fun _ hs => hs.step .calm rfl rfl rfl (Nat.le_refl _) rfl rfl) fun _ => ends_skipStatement h
    exact hskip s hs
  · exact ⟨_, _, rfl, hs⟩

/-- The functions around a new one wait until it is complete. -/
theorem ends_functionBody (hblock : ∀ g, Ends (block budget) g n g n) (h : n + 1 ≤ budget) :
    Ends (functionBody (budget + 1)) g n g n := by
  rw [functionBody]
  refine fun s hs => .after rfl ((ends_intern _ s hs).bind fun name s₁ hs₁ => .after rfl ?_)
  let inside : Ground := ⟨g.origin, g.owed, ⟨[], g.pending.inner :: g.pending.outer⟩, 0, 1, s₁.body :: g.outer⟩
  have hrest : Ends (do
      expect .rightParen .parenAfterParameters
      expect .leftBrace .braceBeforeBody
      block budget
      let function ← endFunction
      emitConstant (.object function)) inside n g n := by
    refine .bind (ends_expect _ _) fun _ => .bind (ends_expect _ _) fun _ => .bind (hblock _) fun _ =>
      .bind (ends_endFunction rfl rfl) fun function => ?_
    have hconst : Ends (emitConstant (.object function)) { g with floor := s₁.body.chunk.size } n
        { g with floor := s₁.body.chunk.size } n := ends_emitConstant _
    rw [hs₁.depth]
    exact hconst.lower hs₁.floor
  have hinner : Ends (do
      enterScope
      expect .leftParen .parenAfterFunctionName
      if !(← sees .rightParen) then parameters budget
      expect .rightParen .parenAfterParameters
      expect .leftBrace .braceBeforeBody
      block budget
      let function ← endFunction
      emitConstant (.object function)) { inside with depth := 0 } n g n := by
    refine .bind ends_enterScope fun _ => .bind (ends_expect _ _) fun _ s' hs' => .after (run_sees _ s') ?_
    exact Ends.ite (.bind (ends_parameters h) fun _ => hrest) hrest s' hs'
  exact hinner _ (hs₁.move (.opened name) rfl rfl rfl (Nat.zero_le _) rfl (congrArg (s₁.body :: ·) hs₁.outer))

theorem ends_ifStatement (hstmt : ∀ g n', n' ≤ n → Ends (statement budget) g n' g n') (h : 2 * n + 1 ≤ budget) :
    Ends (ifStatement (budget + 1)) g n g n := by
  rw [ifStatement]
  refine .bind (ends_expect _ _) fun _ => .bind (ends_expression_inside h) fun _ => .bind (ends_expect _ _) fun _ =>
    ends_emitJump fun o ho => .bind (ends_emit _) fun _ => .bind (hstmt _ n (Nat.le_refl _)) fun _ =>
    ends_emitJump fun o' ho' => ?_
  have hlt : o + 2 < o' := ho'
  have helse : Ends (patchJump o) { g with floor := o' + 2, pending := (g.pending.push o).push o' } n
      { g with floor := o' + 2, pending := g.pending.push o' } n := ends_patchEarlier (by omega) (by omega)
  have hend : ∀ n, Ends (patchJump o') { g with floor := o' + 2, pending := g.pending.push o' } n g n :=
    fun n => ends_patchLast (Nat.le_refl _) (by omega)
  refine .bind helse fun _ => .bind (ends_emit _) fun _ => ends_accept (by decide) (fun _ => ?_) (hend n)
  exact (Ends.bind (hstmt _ _ (Nat.sub_le _ _)) fun _ => hend _).mono (Nat.sub_le _ _)

theorem ends_whileStatement (hstmt : ∀ g, Ends (statement budget) g n g n) (h : 2 * n + 1 ≤ budget) :
    Ends (whileStatement (budget + 1)) g n g n := by
  rw [whileStatement]
  intro s hs
  have hrest : Ends (do
      expect .leftParen .parenAfterWhile
      expression budget
      expect .rightParen .parenAfterCondition
      let exit ← emitJump .jumpIfFalse
      emit .pop
      statement budget
      emitLoop s.body.chunk.size
      patchJump exit
      emit .pop) { g with floor := s.body.chunk.size } n { g with floor := s.body.chunk.size } n := by
    refine .bind (ends_expect _ _) fun _ => .bind (ends_expression_inside h) fun _ => .bind (ends_expect _ _) fun _ =>
      ends_emitJump fun o ho => .bind (ends_emit _) fun _ => .bind (hstmt _) fun _ => ?_
    have hstart : s.body.chunk.size < o := ho
    have hexit : Ends (patchJump o)
        { g with floor := o + 2, pending := g.pending.push o } n { g with floor := s.body.chunk.size } n :=
      ends_patchLast (g := { g with floor := s.body.chunk.size }) (Nat.le_refl _) (by simp only; omega)
    exact .bind (ends_emitLoop (by simp only; omega)) fun _ => .bind hexit fun _ => ends_emit _
  exact .after rfl ((hrest.lower hs.floor) s (hs.onto (Nat.le_refl _)))

theorem ends_forStatement (hstmt : ∀ g, Ends (statement budget) g n g n) (h : 2 * n + 1 ≤ budget) :
    Ends (forStatement (budget + 1)) g n g n := by
  rw [forStatement]
  refine .bind ends_enterScope fun _ => .bind (ends_expect _ _) fun _ => .bind (ends_forInitializer h) fun _ s hs => ?_
  let inside : Ground := { g with depth := g.depth + 1 }
  have hrest : Ends (do
      let exit ← forCondition budget
      let start ← forIncrement s.body.chunk.size budget
      statement budget
      emitLoop start
      forExit exit
      leaveScope) { inside with floor := s.body.chunk.size } n g n := by
    refine ends_forCondition h fun f hf exit hexit => ends_forIncrement h hf fun f' hf' back hback =>
      .bind (hstmt _) fun _ => .bind (ends_emitLoop hback) fun _ => ?_
    have hfloor : inside.floor ≤ f' := Nat.le_trans hs.floor (Nat.le_trans hf hf')
    exact .bind (ends_forExit (g := inside) (fun o ho => Nat.le_trans (hexit o ho) hf') hfloor) fun _ => ends_leaveScope
  exact .after rfl (hrest s (hs.onto (Nat.le_refl _)))

/-- All rules for statements, by induction on the budget. A declaration takes at least one token, if there is
one; so four rules are entered between two tokens. -/
theorem ends_statements (budget : Nat) :
    (∀ g n, 4 * n + 4 ≤ budget → Ends (declaration budget) g n g (n - 1)) ∧
      (∀ g n, 4 * n + 7 ≤ budget → Ends (funDeclaration budget) g n g n) ∧
      (∀ g n, 4 * n + 6 ≤ budget → Ends (functionBody budget) g n g n) ∧
      (∀ g n, 4 * n + 2 ≤ budget → Ends (statement budget) g n g (n - 1)) ∧
      (∀ g n, 4 * n + 5 ≤ budget → Ends (block budget) g n g n) ∧
      (∀ g n, 4 * n + 5 ≤ budget → Ends (ifStatement budget) g n g n) ∧
      (∀ g n, 4 * n + 5 ≤ budget → Ends (whileStatement budget) g n g n) ∧
      ∀ g n, 4 * n + 5 ≤ budget → Ends (forStatement budget) g n g n := by
  induction budget with
  | zero => refine ⟨?_, ?_, ?_, ?_, ?_, ?_, ?_, ?_⟩ <;> intros <;> omega
  | succ budget ih =>
      obtain ⟨hdecl, hfun, hbody, hstmt, hblock, hif, hwhile, hfor⟩ := ih
      have hinner : ∀ g n, 4 * n + 2 ≤ budget → Ends (statement budget) g n g n :=
        fun g n h => (hstmt g n h).mono (Nat.sub_le _ _)
      refine ⟨fun g n h => ?_, fun g n h => ?_, fun g n h => ?_, fun g n h => ?_, fun g n h => ?_, fun g n h => ?_,
        fun g n h => ?_, fun g n h => ?_⟩
      · have hsync : ∀ n', n' ≤ n → Ends (synchronize budget) g n' g n' := fun _ _ => ends_synchronize (by omega)
        rw [declaration]
        refine ends_accept (by decide) (fun _ => .bind (hfun _ _ (by omega)) fun _ => hsync _ (Nat.sub_le _ _)) ?_
        refine ends_accept (by decide)
          (fun _ => .bind (ends_varDeclaration (by omega)) fun _ => hsync _ (Nat.sub_le _ _)) ?_
        refine ends_accept (by decide) (fun _ => .bind (ends_complain (by decide)) fun _ => hsync _ (Nat.sub_le _ _)) ?_
        exact .bind (hstmt g n (by omega)) fun _ => hsync _ (Nat.sub_le _ _)
      · rw [funDeclaration]
        exact (gives_declareName _).bind fun _ hi => .bind ends_markInitialized fun _ =>
          .bind (hbody g n (by omega)) fun _ => ends_defineVariable hi
      · exact ends_functionBody (fun g => hblock g n (by omega)) (by omega)
      · rw [statement]
        refine ends_accept (by decide) (fun _ => ends_printStatement (by omega)) ?_
        refine ends_accept (by decide) (fun _ => hfor _ _ (by omega)) ?_
        refine ends_accept (by decide) (fun _ => hif _ _ (by omega)) ?_
        refine ends_accept (by decide) (fun _ => ends_returnStatement (by omega)) ?_
        refine ends_accept (by decide) (fun _ => hwhile _ _ (by omega)) ?_
        refine ends_accept (by decide) (fun _ => ?_) (ends_expressionStatement (by omega))
        exact .bind ends_enterScope fun _ => .bind (hblock _ _ (by omega)) fun _ => ends_leaveScope
      · rw [block]
        refine .get fun s hs => ?_
        split
        · exact ends_expect _ _ s hs
        · next hgo =>
            have hpos : 0 < n := hs.pos fun he => hgo (by simp [CompileState.sees, he])
            exact Ends.bind (hdecl g n (by omega))
              (fun _ => (hblock g (n - 1) (by omega)).mono (Nat.sub_le _ _)) s hs
      · exact ends_ifStatement (fun g n' hn => hinner g n' (by omega)) (by omega)
      · exact ends_whileStatement (fun g => hinner g n (by omega)) (by omega)
      · exact ends_forStatement (fun g => hinner g n (by omega)) (by omega)

theorem ends_program (h : 4 * n + 5 ≤ budget) : Ends (program budget) g n g n := by
  induction budget generalizing n with
  | zero => omega
  | succ budget ih =>
      rw [program]
      intro s hs
      by_cases hcur : s.current.kind = .eof
      · exact .after (run_accept_of_eq hcur) ⟨_, _, rfl, (within_advance hs).mono (Nat.sub_le _ _)⟩
      · have hpos := hs.pos hcur
        exact .after (run_accept_of_ne hcur) (Ends.bind ((ends_statements budget).1 g n (by omega))
          (fun _ => (ih (by omega)).mono (Nat.sub_le _ _)) s hs)

end Compiler

/-- The state in which a compilation begins. -/
def CompileState.initial (source : String) (heap : Heap) (printCode : Bool) (journal : Journal) : CompileState :=
  { rest := tokenize source, heap, printCode, journal }

/-- Nothing has been done yet. -/
theorem CompileState.guard_initial (source : String) (heap : Heap) (printCode : Bool) (journal : Journal) :
    (CompileState.initial source heap printCode journal).Guard {} :=
  ⟨List.forall_mem_cons.mpr ⟨⟨Nat.zero_le _, (show 1 ≤ 256 by decide)⟩, fun _ hb => absurd hb List.not_mem_nil⟩,
    .nil _, .nil⟩

/-- A whole compilation ends with every budget in proportion to the number of tokens. -/
theorem Compiler.ends_script (source : String) (heap : Heap) (printCode : Bool) (journal : Journal) {budget : Nat}
    (h : 4 * (tokenize source).length + 1 ≤ budget) :
    ∃ s, (script budget).run (.initial source heap printCode journal) = .ok s.finish s ∧
      s.Within ⟨.initial source heap printCode journal, {}, {}, 0, 0, []⟩ (tokenize source).length := by
  obtain ⟨us, last, htok, hlast, hproper⟩ := tokenize_spec source
  have hlen : (tokenize source).length = us.length + 1 := by rw [htok, List.length_append, List.length_singleton]
  let s : CompileState := .initial source heap printCode journal
  have hs : s.advance.Within ⟨s, {}, {}, 0, 0, []⟩ us.length := by
    obtain ⟨vs, hvs, hle⟩ := CompileState.ahead_pull hlast hproper { s with previous := s.current }
    have hfind := CompileState.Numerate.pull last hproper (s := { s with previous := s.current })
      fun d hd => absurd hd List.not_mem_nil
    rw [← htok] at hvs hfind
    obtain ⟨hb, he, -⟩ := s.advance_frame
    have hguard := (CompileState.guard_initial source heap printCode journal).congr hb he
    exact ⟨⟨vs, hvs, hle⟩, Nat.zero_le _, by rw [hb]; rfl, he, hguard, .step (.refl s _) .advance, hfind⟩
  have hbudget : 4 * us.length + 5 ≤ budget := by omega
  obtain ⟨_, s₁, h₁, hs₁⟩ := ends_program hbudget _ hs
  obtain ⟨_, s₂, h₂, hs₂⟩ := ends_emitReturn s₁ hs₁
  exact ⟨s₂, run_bind_eq_ok.mpr
    ⟨_, _, rfl, run_bind_eq_ok.mpr ⟨_, _, h₁, run_bind_eq_ok.mpr ⟨_, _, h₂, rfl⟩⟩⟩, hs₂.mono (by omega)⟩

/-- The budget of a compilation is large enough. -/
theorem budget_enough (tokens : Nat) : 4 * tokens + 1 ≤ compileBudget tokens := by
  rw [compileBudget]
  omega

/-- What the rules come to is what compiling comes to. -/
theorem compile_of_script {source : String} {heap : Heap} {printCode : Bool} {journal : Journal} {c : Compilation}
    {s : CompileState} (h : (Compiler.script (compileBudget (tokenize source).length)).run
      (.initial source heap printCode journal) = .ok c s) : compile source heap printCode journal = .ok c := by
  unfold CompileState.initial at h
  unfold compile
  simp only [h]

/-- **Compiling ends.** Every source is accepted or refused. -/
theorem compile_ends (source : String) (heap : Heap) (printCode : Bool) (journal : Journal) :
    ∃ c, compile source heap printCode journal = .ok c := by
  obtain ⟨s, hrun, -⟩ := Compiler.ends_script source heap printCode journal (budget_enough _)
  exact ⟨s.finish, compile_of_script hrun⟩

end Lox
