import Lox.Proofs.Compile.Clean

/-! The small steps of the compiler in a run without complaints: which tokens they take, which
instruction they write, and what they leave alone. -/

namespace Lox

open CompileState

namespace CompileState

theorem Ahead.congr {s s' : CompileState} {us : List Token} (h : s.Ahead us) (hc : s'.current = s.current)
    (hr : s'.rest = s.rest) : s'.Ahead us := by
  cases h with
  | done hk hr' => exact .done (by rw [hc, hk]) (by rw [hr, hc, hr'])
  | more hr' hlast hp =>
      rw [← hc]
      exact .more (by rw [hr, hr']) hlast (by rw [hc]; exact hp)

/-- A step that takes no token and makes no object. -/
theorem Adds.of_code {s s' : CompileState} {sp : List Spot} (hcur : s'.current = s.current)
    (hrest : s'.rest = s.rest) (hh : s'.heap = s.heap) (he : s'.enclosing = s.enclosing)
    (hn : s'.body.name = s.body.name) (ha : s'.body.arity = s.body.arity)
    (hc : s.body.chunk.Grows s'.body.chunk) (hp : ∀ p ∈ sp, p.Holds s'.heap s'.body.chunk) :
    Adds s s' [] sp [] :=
  .of_same_heap (fun us hu => ⟨us, rfl, hu.congr hcur hrest⟩) hc hh hn ha he hp

/-- The token looked at is taken. -/
structure Took (s s' : CompileState) : Prop where
  adds : Adds s s' [s.current] [] []
  body : s'.body = s.body
  heap : s'.heap = s.heap
  previous : s'.previous = s.current

/-- An instruction is written, and no token is taken. -/
structure Wrote (s s' : CompileState) (i : Instr) : Prop where
  scope : s'.body.scope = s.body.scope
  current : s'.current = s.current
  previous : s'.previous = s.previous
  size : s'.body.chunk.size = s.body.chunk.size + i.size
  adds : ∀ scope t, Adds s s' [] [⟨s.body.chunk.size, i, scope, t⟩] []

/-- A step changes neither tokens nor code nor variables. -/
structure Idle (s s' : CompileState) : Prop where
  scope : s'.body.scope = s.body.scope
  current : s'.current = s.current
  previous : s'.previous = s.previous
  size : s'.body.chunk.size = s.body.chunk.size
  adds : Adds s s' [] [] []

namespace Idle

variable {s s₁ s' : CompileState}

theorem refl (s : CompileState) : Idle s s := ⟨rfl, rfl, rfl, rfl, .refl s⟩

theorem trans (h : Idle s s₁) (h' : Idle s₁ s') : Idle s s' :=
  ⟨h'.scope.trans h.scope, h'.current.trans h.current, h'.previous.trans h.previous,
    h'.size.trans h.size, h.adds.trans h'.adds⟩

theorem wrote {i : Instr} (h : Idle s s₁) (h' : Wrote s₁ s' i) : Wrote s s' i := by
  refine ⟨h'.scope.trans h.scope, h'.current.trans h.current, h'.previous.trans h.previous, ?_, ?_⟩
  · rw [h'.size, h.size]
  · intro scope t
    have := h.adds.trans (h'.adds scope t)
    rwa [h.size] at this

end Idle

theorem intern_frame (chars : String) (s : CompileState) :
    (s.intern chars).2.body = s.body ∧ (s.intern chars).2.current = s.current ∧
      (s.intern chars).2.previous = s.previous ∧ (s.intern chars).2.rest = s.rest ∧
      (s.intern chars).2.enclosing = s.enclosing ∧ ((s.intern chars).2.Clean → s.Clean) := by
  unfold intern
  simp only
  split <;> exact ⟨rfl, rfl, rfl, rfl, rfl, id⟩

/-- Interning a text adds nothing but a string object. -/
theorem idle_intern (chars : String) (s : CompileState) : Idle s (s.intern chars).2 := by
  obtain ⟨hb, hcur, hprev, hrest, he, -⟩ := s.intern_frame chars
  have hh := (s.heap_intern chars).1
  refine ⟨by rw [hb], hcur, hprev, by rw [hb], ?_⟩
  refine ⟨fun us hu => ⟨us, rfl, hu.congr hcur hrest⟩, by rw [hb]; exact .refl _, ?_, by rw [hb],
    by rw [hb], he, nofun⟩
  rw [hh]
  exact .of_same_functions (Heap.grows_intern ..) fun _ _ => Heap.function?_of_intern

end CompileState

namespace Compiler

variable {s s' : CompileState}

/-! ### Tokens -/

theorem advance_clean (h : advance.run s = .ok () s') (hne : s.current.kind ≠ .eof) (hc : s'.Clean) :
    s.Clean ∧ Took s s' := by
  cases h
  obtain ⟨hb, he, hh, hp, hcl⟩ := s.advance_frame
  exact ⟨hcl hc, adds_advance hne hc, hb, hh, hp⟩

theorem sees_cases {k : TokenKind} {b : Bool} (h : (sees k).run s = .ok b s') :
    s = s' ∧ (b = true ↔ s.current.kind = k) := by
  cases h
  exact ⟨rfl, by simp [CompileState.sees]⟩

theorem accept_cases {k : TokenKind} {b : Bool} (h : (accept k).run s = .ok b s') :
    b = true ∧ s.current.kind = k ∧ advance.run s = .ok () s' ∨
      b = false ∧ s.current.kind ≠ k ∧ s = s' := by
  unfold accept at h
  obtain ⟨b', s₁, h₁, h⟩ := run_bind_eq_ok.mp h
  obtain ⟨rfl, hb⟩ := sees_cases h₁
  split at h
  · next ht =>
      obtain ⟨_, s₂, h₂, h⟩ := run_bind_eq_ok.mp h
      cases h
      exact .inl ⟨rfl, hb.mp ht, h₂⟩
  · next hf =>
      cases h
      exact .inr ⟨rfl, fun hk => hf (hb.mpr hk), rfl⟩

theorem accept_clean {k : TokenKind} {b : Bool} (h : (accept k).run s = .ok b s') (hk : k ≠ .eof)
    (hc : s'.Clean) :
    s.Clean ∧ (b = true ∧ s.current.kind = k ∧ Took s s' ∨ b = false ∧ s.current.kind ≠ k ∧ s = s') := by
  rcases accept_cases h with ⟨hb, hcur, h⟩ | ⟨hb, hcur, rfl⟩
  · obtain ⟨hcl, ht⟩ := advance_clean h (hcur ▸ hk) hc
    exact ⟨hcl, .inl ⟨hb, hcur, ht⟩⟩
  · exact ⟨hc, .inr ⟨hb, hcur, rfl⟩⟩

theorem complain_not_clean {c : Complaint} (h : (complain c).run s = .ok () s') : ¬ s'.Clean := by
  cases h
  exact not_clean_complainAt _ _ _

theorem complainHere_not_clean {c : Complaint} (h : (complainHere c).run s = .ok () s') : ¬ s'.Clean := by
  cases h
  exact not_clean_complainAt _ _ _

theorem expect_clean {k : TokenKind} {what : Expectation} (h : (expect k what).run s = .ok () s')
    (hk : k ≠ .eof) (hc : s'.Clean) : s.Clean ∧ s.current.kind = k ∧ Took s s' := by
  unfold expect at h
  obtain ⟨b', s₁, h₁, h⟩ := run_bind_eq_ok.mp h
  obtain ⟨rfl, hb⟩ := sees_cases h₁
  split at h
  · next ht =>
      have hcur := hb.mp ht
      obtain ⟨hcl, ht⟩ := advance_clean h (hcur ▸ hk) hc
      exact ⟨hcl, hcur, ht⟩
  · exact absurd hc (complainHere_not_clean h)

/-! ### Instructions -/

/-- A change of the code alone. -/
theorem mapChunk_wrote {c : Chunk} {i : Instr} (hg : s.body.chunk.Grows c)
    (hsize : c.size = s.body.chunk.size + i.size)
    (hop : c.byteAt? s.body.chunk.size = some i.opcode.toByte)
    (hi : i.OperandHolds s.heap c (s.body.chunk.size + 1)) : Wrote s (s.mapChunk fun _ => c) i := by
  refine ⟨rfl, rfl, rfl, hsize, fun scope t => .of_code rfl rfl rfl rfl rfl rfl hg ?_⟩
  intro p hp
  obtain rfl := List.mem_singleton.mp hp
  exact ⟨hop, hi⟩

theorem emit_clean {op : Opcode} (h : (emit op).run s = .ok () s') (hop : op.operandSize = 0)
    (hc : s'.Clean) : s.Clean ∧ Wrote s s' (.plain op) := by
  cases h
  exact ⟨hc, mapChunk_wrote (Chunk.grows_writeOp ..) (by simp [Instr.size]) (Chunk.opcode_writeOp ..) hop⟩

theorem emitByte_clean {op : Opcode} {n : Nat} (h : (emitByte op n).run s = .ok () s') (hc : s'.Clean) :
    s.Clean ∧ ∀ i : Instr, i.opcode = op → i.size = 2 →
      (∀ c, s.body.chunk.Grows c → c.byteAt? (s.body.chunk.size + 1) = some n.toUInt8 →
        i.OperandHolds s.heap c (s.body.chunk.size + 1)) → Wrote s s' i := by
  cases h
  refine ⟨hc, fun i hop hsize hi => mapChunk_wrote (Chunk.grows_writeOpByte ..) (by simp [hsize]) ?_ ?_⟩
  · rw [hop]
    exact Chunk.opcode_writeOpByte ..
  · exact hi _ (Chunk.grows_writeOpByte ..) (Chunk.operand_writeOpByte ..)

theorem toNat_toUInt8 {n : Nat} (h : n < 256) : n.toUInt8.toNat = n := by
  simp [Nat.toUInt8, UInt8.toNat_ofNat', Nat.mod_eq_of_lt h]

theorem emitReturn_clean (h : emitReturn.run s = .ok () s') (hc : s'.Clean) :
    s.Clean ∧ ∃ s₁, Wrote s s₁ (.plain .pushNil) ∧ Wrote s₁ s' (.plain .ret) := by
  unfold emitReturn at h
  obtain ⟨_, s₁, h₁, h⟩ := run_bind_eq_ok.mp h
  obtain ⟨hc₁, hw⟩ := emit_clean h rfl hc
  obtain ⟨hc₀, hw₁⟩ := emit_clean h₁ rfl hc₁
  exact ⟨hc₀, s₁, hw₁, hw⟩

theorem addConstant_spec {v : Value} {i : Nat} (h : (addConstant v).run s = .ok i s') :
    (s'.Clean → s.Clean) ∧ Idle s s' ∧ s'.heap = s.heap ∧ s'.body.chunk.constant? i = some v := by
  cases h
  refine ⟨id, ⟨rfl, rfl, rfl, rfl, ?_⟩, rfl, Chunk.constant?_addConstant ..⟩
  exact .of_code rfl rfl rfl rfl rfl rfl (Chunk.grows_addConstant ..) nofun

theorem emitWord_clean {op : Opcode} {n : Nat} (h : (emitWord op n).run s = .ok () s') (hc : s'.Clean)
    (hn : n < 65536) :
    s.Clean ∧ ∀ i : Instr, i.opcode = op → i.size = 3 →
      (∀ c, s.body.chunk.Grows c → c.wordAt? (s.body.chunk.size + 1) = some n →
        i.OperandHolds s.heap c (s.body.chunk.size + 1)) → Wrote s s' i := by
  cases h
  refine ⟨hc, fun i hop hsize hi => mapChunk_wrote (Chunk.grows_writeOpWord ..) (by simp [hsize]) ?_ ?_⟩
  · rw [hop]
    exact Chunk.opcode_writeOpWord ..
  · exact hi _ (Chunk.grows_writeOpWord ..) (Chunk.operand_writeOpWord _ _ hn _)

theorem emitConstant_clean {v : Value} (h : (emitConstant v).run s = .ok () s') (hc : s'.Clean) :
    s.Clean ∧ ∀ l : Literal, l.Denotes s.heap v → ∃ wide, Wrote s s' (.constant l wide) := by
  unfold emitConstant at h
  obtain ⟨index, s₁, h₁, h⟩ := run_bind_eq_ok.mp h
  obtain ⟨hcl, hidle, hheap, hconst⟩ := addConstant_spec h₁
  rw [← hheap]
  split at h
  · next hlt =>
      obtain ⟨hc₁, hw⟩ := emitByte_clean h hc
      refine ⟨hcl hc₁, fun l hd => ⟨false, hidle.wrote (hw _ rfl rfl fun c hg hb => ?_)⟩⟩
      exact ⟨_, v, hb, by rw [toNat_toUInt8 hlt]; exact hg.constants _ _ hconst, hd⟩
  · split at h
    · next hlt =>
        obtain ⟨hc₁, hw⟩ := emitWord_clean h hc hlt
        refine ⟨hcl hc₁, fun l hd => ⟨true, hidle.wrote (hw _ rfl rfl fun c hg hb => ?_)⟩⟩
        exact ⟨_, v, hb, hg.constants _ _ hconst, hd⟩
    · exact absurd hc (complain_not_clean h)

/-! ### Names of global variables -/

theorem intern_spec {chars : String} {handle : Handle}
    (h : (modifyGet (CompileState.intern chars) : Compiler Handle).run s = .ok handle s') :
    (s'.Clean → s.Clean) ∧ Idle s s' ∧
      (s.heap.Interned → (Literal.text chars).Denotes s'.heap (.object handle)) := by
  obtain ⟨rfl, rfl⟩ : (s.intern chars).1 = handle ∧ (s.intern chars).2 = s' := by
    rw [EStateM.run_modifyGet] at h
    exact EStateM.Result.ok.inj h
  refine ⟨(s.intern_frame chars).2.2.2.2.2, s.idle_intern chars, fun hi => ?_⟩
  obtain ⟨hheap, hhandle⟩ := s.heap_intern chars
  rw [hheap, hhandle]
  exact ⟨_, _, rfl, (hi.intern chars).2.2, rfl⟩

theorem findConstant_eq_some {constants : Array Value} {handle : Handle} {count index i : Nat}
    (h : findConstant constants handle count index = some i) :
    constants[i]? = some (.object handle) ∧ ∀ j, index ≤ j → j < i → constants[j]? ≠ some (.object handle) := by
  fun_induction findConstant constants handle count index with
  | case1 => cases h
  | case2 index count hget =>
      cases h
      exact ⟨hget, fun j hj hlt => by omega⟩
  | case3 index count other hget hne ih =>
      obtain ⟨hhere, hfirst⟩ := ih h
      refine ⟨hhere, fun j hj hlt heq => ?_⟩
      rcases Nat.eq_or_lt_of_le hj with rfl | hj
      · rw [hget] at heq
        cases heq
        exact hne rfl
      · exact hfirst j hj hlt heq
  | case4 index count hno ih =>
      obtain ⟨hhere, hfirst⟩ := ih h
      refine ⟨hhere, fun j hj hlt heq => ?_⟩
      rcases Nat.eq_or_lt_of_le hj with rfl | hj
      · exact hno handle heq
      · exact hfirst j hj hlt heq

theorem findConstant_eq_none {constants : Array Value} {handle : Handle} {count index : Nat}
    (h : findConstant constants handle count index = none) :
    ∀ j, index ≤ j → j < index + count → constants[j]? ≠ some (.object handle) := by
  fun_induction findConstant constants handle count index with
  | case1 => intro j hj hlt; omega
  | case2 => cases h
  | case3 index count other hget hne ih =>
      intro j hj hlt heq
      rcases Nat.eq_or_lt_of_le hj with rfl | hj
      · rw [hget] at heq
        cases heq
        exact hne rfl
      · exact ih h j hj (by omega) heq
  | case4 index count hno ih =>
      intro j hj hlt heq
      rcases Nat.eq_or_lt_of_le hj with rfl | hj
      · exact hno handle heq
      · exact ih h j hj (by omega) heq

theorem nameIndex?_eq_some {c : Chunk} {handle : Handle} {i : Nat} (h : nameIndex? c handle = some i) :
    i < 256 ∧ c.FirstAt i (.object handle) := by
  obtain ⟨hfind, hlt⟩ := Option.filter_eq_some_iff.mp h
  obtain ⟨hhere, hfirst⟩ := findConstant_eq_some hfind
  exact ⟨by simpa using hlt, hhere, fun j hj => hfirst j (Nat.zero_le j) hj⟩

/-- A name that is not found is new, as long as there are few constants. -/
theorem firstAt_addConstant {c : Chunk} {handle : Handle} (h : nameIndex? c handle = none)
    (hfew : c.constants.size < 256) : (c.addConstant (.object handle)).1.FirstAt c.constants.size (.object handle) := by
  have hnone : findConstant c.constants.items handle c.constants.size 0 = none := by
    cases hfind : findConstant c.constants.items handle c.constants.size 0 with
    | none => rfl
    | some i =>
        have hlt : i < c.constants.size := (Array.getElem?_eq_some_iff.mp (findConstant_eq_some hfind).1).1
        rw [nameIndex?, hfind, Option.filter_some, if_pos (by simp; omega)] at h
        cases h
  refine ⟨Chunk.constant?_addConstant .., fun j hj heq => ?_⟩
  refine findConstant_eq_none hnone j (Nat.zero_le j) (by omega) ?_
  have hlt : j < c.constants.items.size := hj
  simpa [Chunk.constant?, Chunk.addConstant, Buffer.get?, Buffer.items_push, Array.getElem?_push, Nat.ne_of_lt hlt]
    using heq

theorem nameConstant_clean {name : String} {i : Nat} (h : (nameConstant name).run s = .ok i s')
    (hc : s'.Clean) :
    s.Clean ∧ Idle s s' ∧ i < 256 ∧ (s.heap.Interned →
      ∃ v, s'.body.chunk.FirstAt i v ∧ (Literal.text name).Denotes s'.heap v) := by
  unfold nameConstant at h
  obtain ⟨handle, s₁, h₁, h⟩ := run_bind_eq_ok.mp h
  obtain ⟨hcl, hidle, hd⟩ := intern_spec h₁
  obtain ⟨s₂, s₃, h₂, h⟩ := run_bind_eq_ok.mp h
  cases h₂
  split at h
  · next index hindex =>
      cases h
      obtain ⟨hlt, hfirst⟩ := nameIndex?_eq_some hindex
      exact ⟨hcl hc, hidle, hlt, fun hi => ⟨_, hfirst, hd hi⟩⟩
  · next hindex =>
      obtain ⟨index, s₄, h₄, h⟩ := run_bind_eq_ok.mp h
      obtain ⟨hcl', hidle', hheap, -⟩ := addConstant_spec h₄
      split at h
      · next hlt =>
          cases h
          cases h₄
          exact ⟨hcl (hcl' hc), hidle.trans hidle', hlt, fun hi => ⟨_, firstAt_addConstant hindex hlt, hd hi⟩⟩
      · obtain ⟨_, s₅, h₅, h⟩ := run_bind_eq_ok.mp h
        cases h
        exact absurd hc (complain_not_clean h₅)

/-! ### Jumps -/

theorem emitJump_spec {op : Opcode} {o : Nat} (h : (emitJump op).run s = .ok o s') :
    (s'.Clean → s.Clean) ∧ o = s.body.chunk.size + 1 ∧ s'.body.scope = s.body.scope ∧
      s'.current = s.current ∧ s'.previous = s.previous ∧
      s'.body.chunk.size = s.body.chunk.size + 3 ∧
      s'.body.chunk.byteAt? s.body.chunk.size = some op.toByte ∧ Adds s s' [] [] [] := by
  cases h
  refine ⟨id, rfl, rfl, rfl, rfl, ?_, Chunk.opcode_writeOpWord .., ?_⟩
  · simp [mapChunk, Chunk.writeJump]
  · exact .of_code rfl rfl rfl rfl rfl rfl (Chunk.grows_writeOpWord ..) nofun

theorem reportJump_not_clean {e : JumpError} (h : (reportJump e).run s = .ok () s') : ¬ s'.Clean := by
  cases e with
  | fault cause => cases h
  | jumpTooLarge => exact complain_not_clean h
  | loopTooLarge => exact complain_not_clean h

/-- A forward jump whose distance has been written leads to the end of the code. -/
theorem holds_patched {heap : Heap} {c : Chunk} {m : Nat} {i : Instr} (hsize : m + 3 ≤ c.size)
    (hmax : c.size - (m + 3) ≤ maxJump) (hi : i = .jump c.size ∨ i = .jumpIfFalse c.size)
    (hop : c.byteAt? m = some i.opcode.toByte) (scope : List String) (t : Nat) :
    Spot.Holds heap (c.setWord (m + 1) (c.size - (m + 3))) ⟨m, i, scope, t⟩ := by
  have hword : (c.setWord (m + 1) (c.size - (m + 3))).wordAt? (m + 1) = some (c.size - (m + 3)) :=
    Chunk.wordAt?_setWord _ hsize (by unfold maxJump at hmax; omega)
  have hjump : ((m + 3 : Nat) : Int) + signedOf (c.size - (m + 3)) = c.size := by
    rw [signedOf_of_le hmax]
    omega
  have hbyte : (c.setWord (m + 1) (c.size - (m + 3))).byteAt? m = some i.opcode.toByte :=
    (Chunk.byteAt?_setWord _ _ _ _ (by omega) (by omega)).trans hop
  refine ⟨hbyte, ?_⟩
  rcases hi with rfl | rfl
  · exact ⟨_, hword, hjump⟩
  · exact ⟨_, hword, hjump⟩

/-- A jump that is completed takes its place between the spots beside it, which stay as they are. -/
theorem adds_patch {s₀ : CompileState} {ts : List Token} {sp sq : List Spot} {fs : List (Handle × Routine)}
    {m b word : Nat} {p : Spot} (ha : Adds s₀ s ts (sp ++ sq) fs) (hleft : Contiguous s₀.body.chunk.size sp m)
    (hright : Contiguous (m + 3) sq b) (hp : p.Holds s.heap (s.body.chunk.setWord (m + 1) word)) :
    Adds s₀ (s.mapChunk (·.setWord (m + 1) word)) ts (sp ++ p :: sq) fs := by
  have hm := hleft.range.1
  refine ⟨fun us hu => ?_, ?_, ha.makes, ha.name, ha.arity, ha.enclosing, ?_⟩
  · obtain ⟨us', hus, hu'⟩ := ha.tokens us hu
    exact ⟨us', hus, hu'.congr rfl rfl⟩
  · refine ⟨?_, fun n hn => ?_, ha.chunk.constants⟩
    · rw [mapChunk, Chunk.size_setWord]
      exact ha.chunk.size_le
    · rw [← ha.chunk.bytes n hn]
      exact Chunk.byteAt?_setWord _ _ _ _ (by omega) (by omega)
  · intro q hq
    rcases List.mem_append.mp hq with hq | hq
    · have := hleft.range.2 q hq
      exact (ha.holds q (List.mem_append_left _ hq)).setWord (by omega)
    rcases List.mem_cons.mp hq with rfl | hq
    · exact hp
    · have := hright.range.2 q hq
      exact (ha.holds q (List.mem_append_right _ hq)).setWord (by omega)

/-- Giving a forward jump its target completes its spot, and leaves the spots beside it alone. -/
theorem patchJump_clean {m : Nat} (h : (patchJump (m + 1)).run s = .ok () s') (hc : s'.Clean) :
    s.Clean ∧ s'.body.scope = s.body.scope ∧ s'.current = s.current ∧ s'.previous = s.previous ∧
      s'.body.chunk.size = s.body.chunk.size ∧
      (∀ n, n ≤ m ∨ m + 3 ≤ n → s'.body.chunk.byteAt? n = s.body.chunk.byteAt? n) ∧
      ∀ {s₀ : CompileState} {ts : List Token} {sp sq : List Spot} {fs : List (Handle × Routine)} {i : Instr} {b : Nat},
        Adds s₀ s ts (sp ++ sq) fs → Contiguous s₀.body.chunk.size sp m → Contiguous (m + 3) sq b →
        i = .jump s.body.chunk.size ∨ i = .jumpIfFalse s.body.chunk.size →
        s.body.chunk.byteAt? m = some i.opcode.toByte →
        ∀ scope t, Adds s₀ s' ts (sp ++ ⟨m, i, scope, t⟩ :: sq) fs := by
  unfold patchJump at h
  obtain ⟨s₂, s₃, h₂, h⟩ := run_bind_eq_ok.mp h
  cases h₂
  split at h
  case h_2 => exact absurd hc (reportJump_not_clean h)
  next distance hd =>
  cases h
  -- the distance fits, and the operand lies inside the code
  unfold Chunk.forwardDistance at hd
  split at hd
  · cases hd
  next hsize =>
  simp only at hd
  split at hd
  · cases hd
  next hmax =>
  cases hd
  refine ⟨hc, rfl, rfl, rfl, Chunk.size_setWord .., fun n hn => ?_, fun ha hleft hright hi hop scope t => ?_⟩
  · exact Chunk.byteAt?_setWord _ _ _ _ (by omega) (by omega)
  · exact adds_patch ha hleft hright (holds_patched (Nat.not_lt.mp hsize) (Nat.not_lt.mp hmax) hi hop scope t)

theorem emitLoop_clean {start : Nat} (h : (emitLoop start).run s = .ok () s') (hc : s'.Clean) :
    s.Clean ∧ (start ≤ s.body.chunk.size → Wrote s s' (.loop start)) := by
  unfold emitLoop at h
  obtain ⟨s₂, s₃, h₂, h⟩ := run_bind_eq_ok.mp h
  cases h₂
  split at h
  case h_2 => exact absurd hc (reportJump_not_clean h)
  next distance hd =>
  unfold Chunk.backwardDistance at hd
  split at hd
  · cases hd
  simp only at hd
  split at hd
  · cases hd
  next hmax =>
  cases hd
  cases h
  refine ⟨hc, fun hs => mapChunk_wrote (Chunk.grows_writeOpWord ..)
    (by simp [Chunk.writeBack, Instr.size]) (Chunk.opcode_writeOpWord ..) ?_⟩
  refine ⟨_, Chunk.operand_writeOpWord _ _ (Nat.mod_lt _ (by decide)) _, ?_⟩
  rw [signedOf_back (by omega) (by omega)]
  omega

end Compiler

end Lox
