import Lox.Proofs.Layout

/-! The functions of a source in the order in which it declares them. A function is declared before the functions
inside of it, and those before what follows; so the functions of a tree in this order are named by the names that follow
the word `fun` in its tokens. The code of a sequence refers to the functions that the sequence declares itself, and not
to those inside of them. -/

namespace Lox

mutual

/-- The functions that a statement declares itself, without those inside of them. -/
def Stmt.direct : Stmt → List (Handle × Routine)
  | .cond _ yes no => yes.direct ++ no.direct
  | .loop _ _ body => body.direct
  | .block body => body.direct
  | .function label name params body => [(label, ⟨some name, params, body⟩)]
  | _ => []

/-- The functions that a sequence declares itself, without those inside of them. -/
def Block.direct : Block → List (Handle × Routine)
  | .nil => []
  | .cons first rest => first.direct ++ rest.direct

end

mutual

/-- The functions that a statement declares, at any depth, in the order of their declarations. -/
def Stmt.declared : Stmt → List (Handle × Routine)
  | .cond _ yes no => yes.declared ++ no.declared
  | .loop _ _ body => body.declared
  | .block body => body.declared
  | .function label name params body => (label, ⟨some name, params, body⟩) :: body.declared
  | _ => []

/-- The functions that a sequence declares, at any depth, in the order of their declarations. -/
def Block.declared : Block → List (Handle × Routine)
  | .nil => []
  | .cons first rest => first.declared ++ rest.declared

end

/-! ### Both orders -/

mutual

theorem Stmt.direct_sublist (s : Stmt) : s.direct.Sublist s.functions := by
  cases s with
  | expression | print | ret | var => exact .slnil
  | cond _ yes no => exact yes.direct_sublist.append no.direct_sublist
  | loop _ _ body => exact body.direct_sublist
  | block body => exact body.direct_sublist
  | function => exact List.sublist_append_right _ _

/-- The functions that a sequence declares itself are made in the order of their declarations. -/
theorem Block.direct_sublist (b : Block) : b.direct.Sublist b.functions := by
  cases b with
  | nil => exact .slnil
  | cons first rest => exact first.direct_sublist.append rest.direct_sublist

end

mutual

theorem Stmt.declared_perm (s : Stmt) : s.declared.Perm s.functions := by
  cases s with
  | expression | print | ret | var => exact .nil
  | cond _ yes no => exact yes.declared_perm.append no.declared_perm
  | loop _ _ body => exact body.declared_perm
  | block body => exact body.declared_perm
  | function _ _ _ body => exact (body.declared_perm.cons _).trans (List.perm_append_singleton _ _).symm

/-- In the order of their declarations or in the order in which they are made, the functions are the same. -/
theorem Block.declared_perm (b : Block) : b.declared.Perm b.functions := by
  cases b with
  | nil => exact .nil
  | cons first rest => exact first.declared_perm.append rest.declared_perm

end

mutual

theorem Stmt.direct_or_inside {entry : Handle × Routine} : (s : Stmt) → entry ∈ s.functions →
    entry ∈ s.direct ∨ ∃ outer ∈ s.functions, entry ∈ outer.2.body.direct
  | .expression _, h | .print _, h | .ret _, h | .var _ _, h => nomatch h
  | .cond _ yes no, h => by
      rw [Stmt.functions] at h ⊢
      rw [Stmt.direct]
      rcases List.mem_append.mp h with h | h
      · rcases yes.direct_or_inside h with h | ⟨outer, houter, h⟩
        · exact .inl (List.mem_append_left _ h)
        · exact .inr ⟨outer, List.mem_append_left _ houter, h⟩
      · rcases no.direct_or_inside h with h | ⟨outer, houter, h⟩
        · exact .inl (List.mem_append_right _ h)
        · exact .inr ⟨outer, List.mem_append_right _ houter, h⟩
  | .loop _ _ body, h => body.direct_or_inside h
  | .block body, h => body.direct_or_inside h
  | .function label name params body, h => by
      rw [Stmt.functions] at h ⊢
      rcases List.mem_append.mp h with h | h
      · rcases body.direct_or_inside h with h | ⟨outer, houter, h⟩
        · exact .inr ⟨_, List.mem_append_right _ (List.mem_singleton_self _), h⟩
        · exact .inr ⟨outer, List.mem_append_left _ houter, h⟩
      · exact .inl h

/-- A function that a sequence does not declare itself is declared by a function inside of it. -/
theorem Block.direct_or_inside {entry : Handle × Routine} : (b : Block) → entry ∈ b.functions →
    entry ∈ b.direct ∨ ∃ outer ∈ b.functions, entry ∈ outer.2.body.direct
  | .nil, h => nomatch h
  | .cons first rest, h => by
      rw [Block.functions] at h ⊢
      rw [Block.direct]
      rcases List.mem_append.mp h with h | h
      · rcases first.direct_or_inside h with h | ⟨outer, houter, h⟩
        · exact .inl (List.mem_append_left _ h)
        · exact .inr ⟨outer, List.mem_append_left _ houter, h⟩
      · rcases rest.direct_or_inside h with h | ⟨outer, houter, h⟩
        · exact .inl (List.mem_append_right _ h)
        · exact .inr ⟨outer, List.mem_append_right _ houter, h⟩

end

mutual

theorem Stmt.inside_sublist {entry : Handle × Routine} : (s : Stmt) → entry ∈ s.functions →
    entry.2.body.direct.Sublist s.functions
  | .expression _, h | .print _, h | .ret _, h | .var _ _, h => nomatch h
  | .cond _ yes no, h => by
      rw [Stmt.functions] at h ⊢
      rcases List.mem_append.mp h with h | h
      · exact (yes.inside_sublist h).trans (List.sublist_append_left _ _)
      · exact (no.inside_sublist h).trans (List.sublist_append_right _ _)
  | .loop _ _ body, h => body.inside_sublist h
  | .block body, h => body.inside_sublist h
  | .function label name params body, h => by
      rw [Stmt.functions] at h ⊢
      rcases List.mem_append.mp h with h | h
      · exact (body.inside_sublist h).trans (List.sublist_append_left _ _)
      · cases List.mem_singleton.mp h
        exact body.direct_sublist.trans (List.sublist_append_left _ _)

/-- The functions that a function declares itself are made in the order of their declarations. -/
theorem Block.inside_sublist {entry : Handle × Routine} : (b : Block) → entry ∈ b.functions →
    entry.2.body.direct.Sublist b.functions
  | .nil, h => nomatch h
  | .cons first rest, h => by
      rw [Block.functions] at h ⊢
      rcases List.mem_append.mp h with h | h
      · exact (first.inside_sublist h).trans (List.sublist_append_left _ _)
      · exact (rest.inside_sublist h).trans (List.sublist_append_right _ _)

end

mutual

theorem Stmt.declared_infix {entry : Handle × Routine} : (s : Stmt) → entry ∈ s.declared →
    entry :: entry.2.body.declared <:+: s.declared
  | .expression _, h | .print _, h | .ret _, h | .var _ _, h => nomatch h
  | .cond _ yes no, h => by
      rw [Stmt.declared] at h ⊢
      rcases List.mem_append.mp h with h | h
      · exact (yes.declared_infix h).trans (List.prefix_append _ _).isInfix
      · exact (no.declared_infix h).trans (List.suffix_append _ _).isInfix
  | .loop _ _ body, h => body.declared_infix h
  | .block body, h => body.declared_infix h
  | .function label name params body, h => by
      rw [Stmt.declared] at h ⊢
      rcases List.mem_cons.mp h with rfl | h
      · exact List.infix_rfl
      · exact (body.declared_infix h).trans (List.suffix_cons _ _).isInfix

/-- Each function is followed by those inside of it. -/
theorem Block.declared_infix {entry : Handle × Routine} : (b : Block) → entry ∈ b.declared →
    entry :: entry.2.body.declared <:+: b.declared
  | .nil, h => nomatch h
  | .cons first rest, h => by
      rw [Block.declared] at h ⊢
      rcases List.mem_append.mp h with h | h
      · exact (first.declared_infix h).trans (List.prefix_append _ _).isInfix
      · exact (rest.declared_infix h).trans (List.suffix_append _ _).isInfix

end

/-! ### In the code -/

mutual

theorem Stmt.Laid.direct {top : Bool} {scope after : List String} {a b : Nat} {s : Stmt} {sp : List Spot}
    {entry : Handle × Routine} : Stmt.Laid top scope a s sp b after → entry ∈ s.direct →
    ∃ spot ∈ sp, ∃ wide, spot.instr = .constant (.function entry.1) wide
  | .expression _, h | .print _, h | .ret _, h | .varLocal _, h | .varGlobal _, h => nomatch h
  | .cond hc hy hn, h => by
      rcases List.mem_append.mp h with h | h
      · obtain ⟨spot, hmem, hspot⟩ := hy.direct h
        exact ⟨spot, by simp [hmem], hspot⟩
      · obtain ⟨spot, hmem, hspot⟩ := hn.direct h
        exact ⟨spot, by simp [hmem], hspot⟩
  | .loop hc hi hb he, h => by
      obtain ⟨spot, hmem, hspot⟩ := hb.direct h
      exact ⟨spot, by simp [hmem], hspot⟩
  | .block hb, h => by
      obtain ⟨spot, hmem, hspot⟩ := hb.direct h
      exact ⟨spot, List.mem_append_left _ hmem, hspot⟩
  | .functionLocal, h | .functionGlobal, h => by
      cases List.mem_singleton.mp h
      exact ⟨_, List.mem_cons_self, _, rfl⟩

/-- The code of a sequence has an instruction for each function that it declares itself. -/
theorem Block.Laid.direct {top : Bool} {scope after : List String} {a b : Nat} {body : Block} {sp : List Spot}
    {entry : Handle × Routine} : Block.Laid top scope a body sp b after → entry ∈ body.direct →
    ∃ spot ∈ sp, ∃ wide, spot.instr = .constant (.function entry.1) wide
  | .nil, h => nomatch h
  | .cons hs hr, h => by
      rcases List.mem_append.mp h with h | h
      · obtain ⟨spot, hmem, hspot⟩ := hs.direct h
        exact ⟨spot, List.mem_append_left _ hmem, hspot⟩
      · obtain ⟨spot, hmem, hspot⟩ := hr.direct h
        exact ⟨spot, List.mem_append_right _ hmem, hspot⟩

end

/-- The functions that the body of a function declares itself are among its constants. -/
theorem Coded.constant_of_direct {heap : Heap} {k : Handle} {r : Routine} {f : FunctionObject} {sp : List Spot}
    (hc : Coded heap k r f sp) {entry : Handle × Routine} (h : entry ∈ r.body.direct) :
    ∃ i, f.chunk.constant? i = some (.object entry.1) := by
  have hlaid := hc.laid
  have hholds := hc.holds
  cases hlaid with
  | mk hb =>
      obtain ⟨spot, hmem, wide, hinstr⟩ := hb.direct h
      have hoperand := (hholds spot (List.mem_append_left _ hmem)).2
      rw [hinstr] at hoperand
      cases wide <;> obtain ⟨i, v, -, hv, rfl⟩ := hoperand <;> exact ⟨_, hv⟩

/-! ### In the source -/

/-- The names that follow the word `fun`. -/
def funNames : List Token → List String
  | [] => []
  | t :: rest => if t.kind = .funWord then (rest.head?.map (·.lexeme)).toList ++ funNames rest else funNames rest

/-- An operator is not the word `fun`. -/
theorem ne_funWord_of_operator {k : TokenKind} (h : (unaryOp? k).isSome ∨ (binaryOp? k).isSome) : k ≠ .funWord := by
  rintro rfl
  rcases h with h | h <;> cases h

mutual

/-- No function is declared within an expression. -/
theorem Expr.Reads.funNames_append {p : Precedence} {ts : List Token} {e : Expr} :
    Expr.Reads p ts e → ∀ us, funNames (ts ++ us) = funNames us
  | .looser _ h, us => h.funNames_append us
  | .nil ht, us | .yes ht, us | .no ht, us | .number ht _, us | .text ht _, us | .variable ht, us => by
      simp [funNames, ht]
  | .grouping ht h hu, us => by simp [funNames, ht, hu, h.funNames_append]
  | .assign ht hu h, us => by simp [funNames, ht, hu, h.funNames_append]
  | .unary ht h, us => by
      have hne := ne_funWord_of_operator (.inl (Option.isSome_of_eq_some ht))
      simp [funNames, hne, h.funNames_append]
  | .binary ht hl hr, us => by
      have hne := ne_funWord_of_operator (.inr (Option.isSome_of_eq_some ht))
      simp [funNames, hne, hl.funNames_append, hr.funNames_append]
  | .and ht hl hr, us | .or ht hl hr, us => by simp [funNames, ht, hl.funNames_append, hr.funNames_append]
  | .call ht hl hr hu, us => by simp [funNames, ht, hu, hl.funNames_append, hr.funNames_append]

theorem Args.Reads.funNames_append {ts : List Token} {args : Args} :
    Args.Reads ts args → ∀ us, funNames (ts ++ us) = funNames us
  | .nil, us => rfl
  | .last h, us => h.funNames_append us
  | .cons h ht hr, us => by simp [funNames, ht, h.funNames_append, hr.funNames_append]

end

theorem ParamsRead.funNames_append {ts : List Token} {names : List String} (h : ParamsRead ts names) (us : List Token) :
    funNames (ts ++ us) = funNames us := by
  induction h with
  | nil => rfl
  | last ht => simp [funNames, ht]
  | cons ht hu _ ih => simp [funNames, ht, hu, ih]

theorem ClauseReads.funNames_append {ts : List Token} {e : Option Expr} (h : ClauseReads ts e) (us : List Token) :
    funNames (ts ++ us) = funNames us := by
  cases h with
  | none => rfl
  | some h => exact h.funNames_append us

theorem VarReads.funNames_append {ts : List Token} {s : Stmt} (h : VarReads ts s) (us : List Token) :
    funNames (ts ++ us) = funNames us ∧ s.declared = [] := by
  cases h with
  | bare ht hu hv => exact ⟨by simp [funNames, ht, hu, hv], rfl⟩
  | value ht hu hv h hw => exact ⟨by simp [funNames, ht, hu, hv, hw, h.funNames_append], rfl⟩

theorem InitializerReads.funNames_append {ts : List Token} {rest body : Block} (h : InitializerReads ts rest body)
    (us : List Token) : funNames (ts ++ us) = funNames us ∧ body.declared = rest.declared := by
  cases h with
  | none ht => exact ⟨by simp [funNames, ht], rfl⟩
  | var h =>
      obtain ⟨hnames, hnone⟩ := h.funNames_append us
      exact ⟨hnames, by rw [Block.declared, hnone, List.nil_append]⟩
  | expression h ht => exact ⟨by simp [funNames, ht, h.funNames_append], rfl⟩

mutual

theorem Stmt.Reads.funNames_append {o : Bool} {ts : List Token} {s : Stmt} : Stmt.Reads o ts s → ∀ us,
    (funNames (ts ++ us)).map some = s.declared.map (·.2.name) ++ (funNames us).map some
  | .expression h ht, us => by simp [funNames, Stmt.declared, ht, h.funNames_append]
  | .print ht h hu, us | .ret ht h hu, us => by simp [funNames, Stmt.declared, ht, hu, h.funNames_append]
  | .leave ht hu, us => by simp [funNames, Stmt.declared, ht, hu]
  | .block ht h hu, us => by simp [funNames, Stmt.declared, ht, hu, h.funNames_append]
  | .ifAlone ht hu hc hv hy, us => by
      simp [funNames, Stmt.declared, Block.declared, ht, hu, hv, hc.funNames_append, hy.funNames_append]
  | .ifElse ht hu hc hv hy hw hn, us => by
      simp [funNames, Stmt.declared, ht, hu, hv, hw, hc.funNames_append, hy.funNames_append, hn.funNames_append]
  | .while ht hu hc hv hb, us => by
      simp [funNames, Stmt.declared, ht, hu, hv, hc.funNames_append, hb.funNames_append]
  | .for ht hu hi hc hv hn hw hb, us => by
      simp [funNames, Stmt.declared, Block.declared, ht, hu, hv, hw, (hi.funNames_append _).1,
        (hi.funNames_append []).2, hc.funNames_append, hn.funNames_append, hb.funNames_append]

/-- The functions of a sequence, in the order of their declarations, have the names that follow the word `fun`. -/
theorem Block.Reads.funNames_append {ts : List Token} {b : Block} : Block.Reads ts b → ∀ us,
    (funNames (ts ++ us)).map some = b.declared.map (·.2.name) ++ (funNames us).map some
  | .nil, us => rfl
  | .function ht hu hv hp hw hx hb hy hr, us => by
      simp [funNames, Stmt.declared, Block.declared, ht, hu, hv, hw, hx, hy, hp.funNames_append, hb.funNames_append,
        hr.funNames_append]
  | .var h hr, us => by
      simp [Block.declared, (h.funNames_append _).1, (h.funNames_append []).2, hr.funNames_append]
  | .statement h hr, us => by simp [Block.declared, h.funNames_append, hr.funNames_append]

end

/-- The functions of a source have the names that follow the word `fun`. -/
theorem Block.ReadsAll.funNames_eq {tokens : List Token} {p : Block} (h : Block.ReadsAll tokens p) :
    (funNames tokens).map some = p.declared.map (·.2.name) := by
  obtain ⟨ts, last, rfl, hlast, hreads⟩ := h
  rw [hreads.funNames_append, funNames, if_neg (by rw [hlast]; decide), funNames, List.map_nil, List.append_nil]

end Lox
