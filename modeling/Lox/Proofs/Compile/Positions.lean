import Lox.Proofs.Compile.Course
import Lox.Proofs.Token.Joined
import Lox.Proofs.Token.Coverage

/-! Where the compiler is in its source. The lines of the tokens do not go back, and along its course the compiler only
goes on: the findings lie in order, none of them behind the token looked at, and a finding about the token taken last is
made only when no other one lies behind that token. -/

namespace Lox

namespace Cursor

/-- The lines of the tokens do not go back, and lie between the current line and the last one. -/
theorem tokens_lines (c : Cursor) : c.tokens.Pairwise (·.line ≤ ·.line) ∧
    ∀ t ∈ c.tokens, c.line ≤ t.line ∧ t.line ≤ c.line + c.rest.count '\n' := by
  induction hn : c.rest.length using Nat.strong_induction_on generalizing c with
  | _ n ih =>
      obtain ⟨gap, text, hahead, -, -, hline, htoken, hend⟩ := next_reads c.rest c.line
      have hcount : c.rest.count '\n' = (gap ++ text).count '\n' + c.next.2.rest.count '\n' := by
        conv_lhs => rw [hahead]
        rw [← List.append_assoc, List.count_append]
      have hline : c.next.2.line = c.line + (gap ++ text).count '\n' := hline
      have htoken : c.next.1.line = c.next.2.line := htoken
      rw [tokens_eq]
      split
      · refine ⟨List.pairwise_singleton .., List.forall_mem_singleton.mpr ?_⟩
        omega
      · next hkind =>
          obtain ⟨hsorted, hbounds⟩ := ih _ (hn ▸ (next_spec c hkind).1) c.next.2 rfl
          refine ⟨List.pairwise_cons.mpr ⟨fun t ht => ?_, hsorted⟩,
            List.forall_mem_cons.mpr ⟨by omega, fun t ht => ?_⟩⟩
          · have := (hbounds t ht).1
            omega
          · have := hbounds t ht
            omega

end Cursor

/-- The lines of a source's tokens do not go back, and lie between the first line and the last one. -/
theorem tokenize_lines (source : String) : (tokenize source).Pairwise (·.line ≤ ·.line) ∧
    ∀ t ∈ tokenize source, 1 ≤ t.line ∧ t.line ≤ 1 + source.toList.count '\n' :=
  (Cursor.ofSource source).tokens_lines

/-- There is always the token for the end. -/
theorem tokenize_ne_nil (source : String) : tokenize source ≠ [] := by
  obtain ⟨us, last, htokens, -⟩ := tokenize_spec source
  simp [htokens]

namespace CompileState

variable {tokens : List Token} {b c : Footing} {s t : CompileState}

/-- The tokens still to be read lie in order, and so do the findings. -/
structure InOrder (tokens : List Token) (b : Footing) (s : CompileState) : Prop where
  more : s.rest ≠ []
  current : s.current ∈ tokens
  rest : ∀ t ∈ s.rest, t ∈ tokens
  ordered : (s.current :: s.rest).Pairwise (·.line ≤ ·.line)
  previous : .ahead ≤ b → s.previous ∈ tokens ∧ s.previous.line ≤ s.current.line
  /-- Each finding is about a token. -/
  about : ∀ d ∈ s.findings, ∃ t ∈ tokens, d.line = t.line ∧ d.place = placeOf t
  /-- The latest finding comes first. -/
  found : s.findings.Pairwise fun d d' => d'.line ≤ d.line
  behind : ∀ d ∈ s.findings, d.line ≤ s.current.line
  settled : b = .firm → s.panicking = false → ∀ d ∈ s.findings, d.line ≤ s.previous.line

/-- Tokens are about to be looked at that lie in order, behind all findings. -/
structure Facing (tokens ahead : List Token) (b : Footing) (s : CompileState) : Prop where
  more : ahead ≠ []
  rest : ∀ t ∈ ahead, t ∈ tokens
  ordered : ahead.Pairwise (·.line ≤ ·.line)
  previous : .ahead ≤ b → s.previous ∈ tokens ∧ ∀ t ∈ ahead, s.previous.line ≤ t.line
  about : ∀ d ∈ s.findings, ∃ t ∈ tokens, d.line = t.line ∧ d.place = placeOf t
  found : s.findings.Pairwise fun d d' => d'.line ≤ d.line
  behind : ∀ d ∈ s.findings, ∀ t ∈ ahead, d.line ≤ t.line
  settled : b = .firm → s.panicking = false → ∀ d ∈ s.findings, d.line ≤ s.previous.line

/-- A stretch that is no token is complained about and dropped. -/
theorem Facing.drop {token next : Token} {rest : List Token} (h : Facing tokens (token :: next :: rest) b s)
    (complaint : Complaint) : Facing tokens (next :: rest) b (s.complainAt token complaint) := by
  have hordered := List.pairwise_cons.mp h.ordered
  have hrest : ∀ t ∈ next :: rest, t ∈ token :: next :: rest := fun t ht => List.mem_cons_of_mem _ ht
  unfold complainAt
  split
  · exact ⟨List.cons_ne_nil _ _, fun t ht => h.rest t (hrest t ht), hordered.2,
      fun hb => ⟨(h.previous hb).1, fun t ht => (h.previous hb).2 t (hrest t ht)⟩, h.about, h.found,
      fun d hd t ht => h.behind d hd t (hrest t ht), h.settled⟩
  · refine ⟨List.cons_ne_nil _ _, fun t ht => h.rest t (hrest t ht), hordered.2,
      fun hb => ⟨(h.previous hb).1, fun t ht => (h.previous hb).2 t (hrest t ht)⟩, ?_, ?_, ?_, fun _ => nofun⟩
    · exact List.forall_mem_cons.mpr ⟨⟨token, h.rest token (List.mem_cons_self ..), rfl, rfl⟩, h.about⟩
    · exact List.pairwise_cons.mpr ⟨fun d hd => h.behind d hd token (List.mem_cons_self ..), h.found⟩
    · exact List.forall_mem_cons.mpr ⟨hordered.1, fun d hd t ht => h.behind d hd t (hrest t ht)⟩

theorem Facing.pull {ahead : List Token} (h : Facing tokens ahead b s) : InOrder tokens b (pull ahead s) := by
  fun_induction CompileState.pull ahead s with
  | case1 s => exact absurd rfl h.more
  | case2 last s =>
      have hlast : last ∈ [last] := List.mem_singleton_self last
      exact ⟨List.cons_ne_nil _ _, h.rest last hlast, h.rest, by simp,
        fun hb => ⟨(h.previous hb).1, (h.previous hb).2 last hlast⟩, h.about, h.found,
        fun d hd => h.behind d hd last hlast, h.settled⟩
  | case3 token next rest s t hkind ih =>
      have hrecord : Facing tokens (token :: next :: rest) b t := { h with }
      exact ih (hrecord.drop _)
  | case4 token next rest s t hkind =>
      have hfirst : token ∈ token :: next :: rest := List.mem_cons_self ..
      exact ⟨List.cons_ne_nil _ _, h.rest token hfirst, fun u hu => h.rest u (List.mem_cons_of_mem _ hu), h.ordered,
        fun hb => ⟨(h.previous hb).1, (h.previous hb).2 token hfirst⟩, h.about, h.found,
        fun d hd => h.behind d hd token hfirst, h.settled⟩

namespace InOrder

/-- The first look at a source. -/
theorem of_start {heap : Heap} {printCode : Bool} {journal : Journal} (hmore : tokens ≠ [])
    (hordered : tokens.Pairwise (·.line ≤ ·.line)) :
    InOrder tokens .start (advance { rest := tokens, heap, printCode, journal }) :=
  Facing.pull ⟨hmore, fun _ => id, hordered, fun hb => absurd hb (by decide), nofun, .nil, nofun, nofun⟩

theorem of_source (source : String) (heap : Heap) (printCode : Bool) (journal : Journal) :
    InOrder (tokenize source) .start (CompileState.advance { rest := tokenize source, heap, printCode, journal }) :=
  .of_start (tokenize_ne_nil source) (tokenize_lines source).1

/-- It matters only what is read and found. -/
theorem of_reading (h : InOrder tokens b s) (hcurrent : t.current = s.current) (hprevious : t.previous = s.previous)
    (hrest : t.rest = s.rest) (hfindings : t.findings = s.findings) (hpanicking : t.panicking = s.panicking) :
    InOrder tokens b t := by
  refine ⟨hrest ▸ h.more, hcurrent ▸ h.current, hrest ▸ h.rest, ?_, ?_, hfindings ▸ h.about,
    hfindings ▸ h.found, ?_, ?_⟩
  · rw [hcurrent, hrest]
    exact h.ordered
  · rw [hcurrent, hprevious]
    exact h.previous
  · rw [hcurrent, hfindings]
    exact h.behind
  · rw [hprevious, hfindings, hpanicking]
    exact h.settled

theorem yield (h : InOrder tokens b s) (hc : c ≤ b) : InOrder tokens c s where
  more := h.more
  current := h.current
  rest := h.rest
  ordered := h.ordered
  previous hb := h.previous (Footing.le_trans hb hc)
  about := h.about
  found := h.found
  behind := h.behind
  settled hb := h.settled (by subst hb; cases b <;> first | rfl | exact absurd hc (by decide))

theorem advance (h : InOrder tokens b s) : InOrder tokens .firm s.advance := by
  have hordered := List.pairwise_cons.mp h.ordered
  refine Facing.pull (s := { s with previous := s.current }) ⟨h.more, h.rest, hordered.2,
    fun _ => ⟨h.current, hordered.1⟩, h.about, h.found, fun d hd t ht => ?_, fun _ _ => h.behind⟩
  exact Nat.le_trans (h.behind d hd) (hordered.1 t ht)

/-- A complaint about a token behind which nothing has been found. -/
theorem complainAt (h : InOrder tokens b s) (hb : .ahead ≤ b) {token : Token} (htoken : token ∈ tokens)
    (hle : token.line ≤ s.current.line) (hlast : s.panicking = false → ∀ d ∈ s.findings, d.line ≤ token.line)
    (complaint : Complaint) : InOrder tokens .firm (s.complainAt token complaint) := by
  unfold CompileState.complainAt
  split
  · next hpanic => exact { h with previous := fun _ => h.previous hb, settled := fun _ => by simp [hpanic] }
  · next hcalm =>
      refine { h with
        previous := fun _ => h.previous hb, about := ?_, found := ?_, behind := ?_, settled := fun _ => nofun }
      · exact List.forall_mem_cons.mpr ⟨⟨token, htoken, rfl, rfl⟩, h.about⟩
      · exact List.pairwise_cons.mpr ⟨hlast (by simpa using hcalm), h.found⟩
      · exact List.forall_mem_cons.mpr ⟨hle, h.behind⟩

/-- Along its course the compiler stays in order. -/
theorem course (hst : Course s b t c) (h : InOrder tokens b s) : InOrder tokens c t := by
  induction hst with
  | yield hc => exact h.yield hc
  | trans _ _ ih ih' => exact ih' (ih h)
  | advance => exact h.advance
  | complain complaint =>
      obtain ⟨hprevious, hle⟩ := h.previous (by decide)
      exact h.complainAt (by decide) hprevious hle (h.settled rfl) complaint
  | complainHere hb complaint => exact h.complainAt hb h.current (Nat.le_refl _) (fun _ => h.behind) complaint
  | calm hb => exact { h with previous := fun _ => h.previous hb, settled := nofun }
  | write => exact { h with }
  | patch => exact { h with }
  | quiet hq => exact h.of_reading hq.current hq.previous hq.rest hq.findings hq.panicking
  | @function s t b c name _ ih =>
      have hopen : InOrder tokens b (s.openFunction name) := { h with }
      have hclose := ih hopen
      obtain ⟨journal, heq⟩ := t.closeFunction_turn
      rw [heq]
      exact { hclose with }

end InOrder

end CompileState

end Lox
