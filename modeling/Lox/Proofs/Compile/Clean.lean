import Lox.Proofs.Compile.Written
import Lox.Proofs.Token

/-! Compiling without a complaint. As long as nothing is wrong with the source, each step of the compiler
takes the tokens it looks at, appends code to the innermost function, and lets the heap grow; what it adds
is recorded step by step and composes. A state without findings has only such states before it, so the
steps are read backwards from the end of an accepted source. -/

namespace Lox

namespace Heap

/-- The functions made between two heaps, in the order in which they are made: each of them is the code of its
routine, and there are no others. -/
structure Makes (h h' : Heap) (fs : List (Handle × Routine)) : Prop where
  grows : h.Grows h'
  coded : ∀ k r, (k, r) ∈ fs → ∃ f code, Coded h' k r f code
  fresh : ∀ k r, (k, r) ∈ fs → h.cells.size ≤ k.index ∧ k.index < h'.cells.size
  ordered : fs.Pairwise fun a b => a.1.index < b.1.index
  made : ∀ k f, h.cells.size ≤ k.index → h'.function? k = some f → ∃ r, (k, r) ∈ fs

namespace Makes

variable {h h' h'' : Heap} {fs gs : List (Handle × Routine)}

/-- Nothing is made if every function was there before. -/
theorem of_same_functions (hg : h.Grows h')
    (hf : ∀ k f, h'.function? k = some f → h.function? k = some f) : Makes h h' [] := by
  refine ⟨hg, nofun, nofun, .nil, fun k f hk hf' => ?_⟩
  have := lt_size_of_get? (function?_eq_some_iff.mp (hf k f hf'))
  omega

theorem refl (h : Heap) : Makes h h [] := of_same_functions (.refl h) fun _ _ hf => hf

theorem trans (hm : Makes h h' fs) (hm' : Makes h' h'' gs) : Makes h h'' (fs ++ gs) where
  grows := hm.grows.trans hm'.grows
  coded k r hr := by
    rcases List.mem_append.mp hr with hr | hr
    · obtain ⟨f, code, hc⟩ := hm.coded k r hr
      exact ⟨f, code, hc.grow hm'.grows.keeps⟩
    · exact hm'.coded k r hr
  fresh k r hr := by
    have hle := hm.grows.size_le
    have hle' := hm'.grows.size_le
    rcases List.mem_append.mp hr with hr | hr
    · have := hm.fresh k r hr
      omega
    · have := hm'.fresh k r hr
      omega
  ordered := by
    refine List.pairwise_append.mpr ⟨hm.ordered, hm'.ordered, fun a ha b hb => ?_⟩
    have h₁ := hm.fresh a.1 a.2 ha
    have h₂ := hm'.fresh b.1 b.2 hb
    omega
  made k f hi hf := by
    -- a function that is new at the end was made in the first part or in the second
    by_cases hk : k.index < h'.cells.size
    · obtain ⟨o, hget⟩ := exists_get? hk
      have hobj := hm'.grows.keeps _ _ hget
      rw [function?_eq_some_iff, hobj] at hf
      obtain ⟨r, hr⟩ := hm.made k f hi (function?_eq_some_iff.mpr (hf ▸ hget))
      exact ⟨r, List.mem_append_left _ hr⟩
    · obtain ⟨r, hr⟩ := hm'.made k f (by omega) hf
      exact ⟨r, List.mem_append_right _ hr⟩

theorem nodup (hm : Makes h h' fs) : (fs.map (·.1)).Nodup := by
  rw [List.Nodup, List.pairwise_map]
  exact hm.ordered.imp fun hlt heq => absurd (congrArg Handle.index heq) (Nat.ne_of_lt hlt)

end Makes

/-- A function object that is the code of a routine is made. -/
theorem makes_allocate {h : Heap} {f : FunctionObject} {r : Routine} {code : List Spot}
    (hc : Coded (h.allocate (.function f)).1 ⟨h.cells.size⟩ r f code) :
    Makes h (h.allocate (.function f)).1 [(⟨h.cells.size⟩, r)] where
  grows := grows_allocate h fun _ => nofun
  coded k r' hr := by
    cases List.mem_singleton.mp hr
    exact ⟨f, code, hc⟩
  fresh k r' hr := by
    cases List.mem_singleton.mp hr
    simp [allocate]
  ordered := List.pairwise_singleton _ _
  made k g hk hg := by
    rw [function?_eq_some_iff, get?_allocate] at hg
    split at hg
    · next heq => exact ⟨r, by rw [heq]; exact List.mem_singleton_self _⟩
    · have := lt_size_of_get? hg
      omega

end Heap

namespace CompileState

/-- Nothing has been found, and nothing is suppressed. -/
def Clean (s : CompileState) : Prop := s.findings = [] ∧ s.panicking = false

/-- The tokens still to be read, up to the end of the source. -/
inductive Ahead (s : CompileState) : List Token → Prop where
  | done (h : s.current.kind = .eof) (hr : s.rest = [s.current]) : Ahead s []
  | more {us : List Token} {last : Token} (hr : s.rest = us ++ [last]) (hlast : last.kind = .eof)
      (hp : ∀ t ∈ s.current :: us, t.Proper) : Ahead s (s.current :: us)

/-- The tokens end in order, and strings are found by their characters. -/
structure Ready (s : CompileState) : Prop where
  ahead : ∃ us, s.Ahead us
  heap : s.heap.Interned

/-- The current token, unless it is the end, is a proper one. -/
theorem Ready.proper {s : CompileState} (h : s.Ready) (hne : s.current.kind ≠ .eof) : s.current.Proper := by
  obtain ⟨us, ha⟩ := h.ahead
  cases ha with
  | done hk => exact absurd hk hne
  | more hr hlast hp => exact hp _ (List.mem_cons_self ..)

/-- The tokens are taken between two states. -/
def Takes (s s' : CompileState) (ts : List Token) : Prop :=
  ∀ us, s.Ahead us → ∃ us', us = ts ++ us' ∧ s'.Ahead us'

theorem Takes.trans {s s' s'' : CompileState} {ts us : List Token} (h : Takes s s' ts) (h' : Takes s' s'' us) :
    Takes s s'' (ts ++ us) := by
  intro vs hv
  obtain ⟨vs', rfl, hv'⟩ := h vs hv
  obtain ⟨vs'', rfl, hv''⟩ := h' vs' hv'
  exact ⟨vs'', by rw [List.append_assoc], hv''⟩

/-- What is added between two states: tokens are taken, spots are written, functions are made. -/
structure Adds (s s' : CompileState) (ts : List Token) (sp : List Spot) (fs : List (Handle × Routine)) :
    Prop where
  tokens : Takes s s' ts
  chunk : s.body.chunk.Grows s'.body.chunk
  makes : s.heap.Makes s'.heap fs
  name : s'.body.name = s.body.name
  arity : s'.body.arity = s.body.arity
  enclosing : s'.enclosing = s.enclosing
  holds : ∀ p ∈ sp, p.Holds s'.heap s'.body.chunk

namespace Adds

variable {s s' s'' : CompileState} {ts us : List Token} {sp sq : List Spot} {fs gs : List (Handle × Routine)}

theorem heap (h : Adds s s' ts sp fs) : s.heap.Grows s'.heap := h.makes.grows

theorem ready (h : Adds s s' ts sp fs) (hr : s.Ready) : s'.Ready := by
  obtain ⟨us, ha⟩ := hr.ahead
  obtain ⟨us', -, ha'⟩ := h.tokens us ha
  exact ⟨⟨us', ha'⟩, h.heap.interned hr.heap⟩

/-- Nothing new is made by a step that leaves the heap as it is. -/
theorem of_same_heap (ht : Takes s s' ts) (hc : s.body.chunk.Grows s'.body.chunk) (hh : s'.heap = s.heap)
    (hn : s'.body.name = s.body.name) (ha : s'.body.arity = s.body.arity) (he : s'.enclosing = s.enclosing)
    (hp : ∀ p ∈ sp, p.Holds s'.heap s'.body.chunk) : Adds s s' ts sp [] :=
  ⟨ht, hc, hh ▸ .refl _, hn, ha, he, hp⟩

theorem refl (s : CompileState) : Adds s s [] [] [] :=
  of_same_heap (fun us ha => ⟨us, rfl, ha⟩) (.refl _) rfl rfl rfl rfl nofun

theorem trans (h : Adds s s' ts sp fs) (h' : Adds s' s'' us sq gs) :
    Adds s s'' (ts ++ us) (sp ++ sq) (fs ++ gs) where
  tokens := h.tokens.trans h'.tokens
  chunk := h.chunk.trans h'.chunk
  makes := h.makes.trans h'.makes
  name := h'.name.trans h.name
  arity := h'.arity.trans h.arity
  enclosing := h'.enclosing.trans h.enclosing
  holds p hp := by
    rcases List.mem_append.mp hp with hp | hp
    · exact (h.holds p hp).grow h'.chunk h'.heap.keeps
    · exact h'.holds p hp

end Adds

/-! ### Taking tokens -/

theorem not_clean_complainAt (token : Token) (complaint : Complaint) (s : CompileState) :
    ¬ (s.complainAt token complaint).Clean := by
  intro h
  have hp := h.2
  unfold complainAt at hp
  split at hp
  · next hpan =>
      rw [hpan] at hp
      cases hp
  · cases hp

theorem complainAt_frame (token : Token) (complaint : Complaint) (s : CompileState) :
    (s.complainAt token complaint).body = s.body ∧
      (s.complainAt token complaint).enclosing = s.enclosing ∧
      (s.complainAt token complaint).previous = s.previous := by
  unfold complainAt
  split <;> exact ⟨rfl, rfl, rfl⟩

theorem pull_frame (tokens : List Token) (s : CompileState) :
    (pull tokens s).body = s.body ∧ (pull tokens s).enclosing = s.enclosing ∧
      (pull tokens s).previous = s.previous ∧ ((pull tokens s).Clean → s.Clean) := by
  fun_induction pull tokens s with
  | case1 s => exact ⟨rfl, rfl, rfl, id⟩
  | case2 last s => exact ⟨rfl, rfl, rfl, id⟩
  | case4 token next rest s t h => exact ⟨rfl, rfl, rfl, id⟩
  | case3 token next rest s t h ih =>
      obtain ⟨hb, he, hp, hc⟩ := ih
      obtain ⟨hb', he', hp'⟩ := complainAt_frame token (.badToken token.lexeme) t
      exact ⟨hb.trans hb', he.trans he', hp.trans hp', fun h => absurd (hc h) (not_clean_complainAt _ _ _)⟩

theorem advance_frame (s : CompileState) :
    s.advance.body = s.body ∧ s.advance.enclosing = s.enclosing ∧ s.advance.heap = s.heap ∧
      s.advance.previous = s.current ∧ (s.advance.Clean → s.Clean) := by
  obtain ⟨hb, he, hp, hc⟩ := pull_frame s.rest { s with previous := s.current }
  exact ⟨hb, he, pull_heap _ _, hp, hc⟩

/-- The next token is complained about, or it becomes the current one. -/
theorem pull_cons_append (u : Token) (us : List Token) (last : Token) (s : CompileState) :
    pull (u :: (us ++ [last])) s =
      if u.kind = .error then pull (us ++ [last]) ((s.record (.token u)).complainAt u (.badToken u.lexeme))
      else { s.record (.token u) with current := u, rest := us ++ [last] } := by
  cases us with
  | nil => rfl
  | cons v vs => rfl

/-- After taking a token, the tokens that follow it are ahead. -/
theorem ahead_advance {s : CompileState} {us : List Token} {last : Token} (hr : s.rest = us ++ [last])
    (hlast : last.kind = .eof) (hp : ∀ t ∈ us, t.Proper) (hc : s.advance.Clean) : s.advance.Ahead us := by
  unfold CompileState.advance at hc ⊢
  rw [hr] at hc ⊢
  cases us with
  | nil => exact .done hlast rfl
  | cons u us =>
      rw [List.cons_append, pull_cons_append] at hc ⊢
      by_cases hk : u.kind = .error
      · rw [if_pos hk] at hc
        exact absurd ((pull_frame _ _).2.2.2 hc) (not_clean_complainAt _ _ _)
      · rw [if_neg hk]
        exact .more rfl hlast hp

/-- Taking a token that is not the end. -/
theorem adds_advance {s : CompileState} (hne : s.current.kind ≠ .eof) (hc : s.advance.Clean) :
    Adds s s.advance [s.current] [] [] := by
  obtain ⟨hb, he, hh, -, -⟩ := s.advance_frame
  refine .of_same_heap (fun us ha => ?_) (hb ▸ .refl _) hh (hb ▸ rfl) (hb ▸ rfl) he nofun
  cases ha with
  | done hk => exact absurd hk hne
  | more hr hlast hp =>
      exact ⟨_, rfl, ahead_advance hr hlast (fun t ht => hp t (List.mem_cons_of_mem _ ht)) hc⟩

end CompileState

end Lox
