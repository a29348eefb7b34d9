import Lox.Proofs.Token.Bytes

/-! Two sources with a newline between them. No word but a string goes on beyond a newline, and a string that does is
not the last word of a source, so the tokens of the two together are those of the first source, up to its end, and
then those of the second one, so many lines further down. -/

namespace Lox

/-- The token so many lines further down. -/
def Token.below (lines : Nat) (t : Token) : Token := { t with line := t.line + lines }

/-- What is passed is the same if more text follows that is not passed, or if something is left anyway. -/
theorem span_append {p : Char → Bool} {cs ds : List Char} (h : cs.dropWhile p ≠ [] ∨ ds.takeWhile p = []) :
    (cs ++ ds).takeWhile p = cs.takeWhile p ∧ (cs ++ ds).dropWhile p = cs.dropWhile p ++ ds := by
  induction cs with
  | nil =>
      have hds : ds.takeWhile p = [] := h.resolve_left (absurd rfl)
      refine ⟨hds, ?_⟩
      have := List.takeWhile_append_dropWhile (p := p) (l := ds)
      rwa [hds] at this
  | cons c cs ih =>
      by_cases hc : p c = true
      · rw [List.dropWhile_cons_of_pos hc] at h
        obtain ⟨htake, hdrop⟩ := ih h
        rw [List.cons_append, List.takeWhile_cons_of_pos hc, List.dropWhile_cons_of_pos hc,
          List.takeWhile_cons_of_pos hc, List.dropWhile_cons_of_pos hc, htake, hdrop]
        exact ⟨rfl, rfl⟩
      · rw [List.cons_append, List.takeWhile_cons_of_neg hc, List.dropWhile_cons_of_neg hc,
          List.takeWhile_cons_of_neg hc, List.dropWhile_cons_of_neg hc]
        exact ⟨rfl, rfl⟩

theorem span_newline {p : Char → Bool} (hp : p '\n' = false) (cs more : List Char) :
    (cs ++ '\n' :: more).takeWhile p = cs.takeWhile p ∧
      (cs ++ '\n' :: more).dropWhile p = cs.dropWhile p ++ '\n' :: more :=
  span_append (.inr (List.takeWhile_cons_of_neg (by simp [hp])))

namespace Cursor

/-- The place so many lines further down. -/
def below (lines : Nat) (c : Cursor) : Cursor := { c with line := c.line + lines }

/-- The place with more text on the lines behind it. -/
def followedBy (more : List Char) (c : Cursor) : Cursor := { c with rest := c.rest ++ '\n' :: more }

/-- What is read does not depend on the number of the line, and a word ends before the newline behind it. -/
structure Steady (f : List Char → Nat → Token × Cursor) : Prop where
  lower : ∀ rest line n, f rest (line + n) = (f rest line).map (Token.below n) (below n)
  joined : ∀ rest line more, (f rest line).1.kind ≠ .error →
    f (rest ++ '\n' :: more) line = (f rest line).map id (followedBy more)

theorem steady_take (kind : TokenKind) (text : List Char) : Steady (take kind text) :=
  ⟨fun _ _ _ => rfl, fun _ _ _ _ => rfl⟩

theorem steady_refuse (message : String) : Steady (refuse message) :=
  ⟨fun _ _ _ => rfl, fun _ _ _ h => absurd rfl h⟩

theorem steady_takeOperator (alone withEqual : TokenKind) (c : Char) : Steady (takeOperator alone withEqual c) where
  lower rest line n := by
    unfold takeOperator
    split <;> rfl
  joined rest line more _ := by
    cases rest with
    | nil => rfl
    | cons d rest =>
        rw [List.cons_append]
        unfold takeOperator
        split
        · next heq =>
            obtain ⟨rfl, rfl⟩ := List.cons.inj heq
            rfl
        · next hne =>
            split
            · next heq =>
                obtain ⟨rfl, -⟩ := List.cons.inj heq
                exact absurd rfl (hne _)
            · rfl

theorem steady_takeString : Steady takeString where
  lower rest line n := by
    unfold takeString
    rw [List.span_eq_takeWhile_dropWhile]
    simp only [Nat.add_right_comm line n]
    split <;> rfl
  joined rest line more h := by
    unfold takeString at h ⊢
    rw [List.span_eq_takeWhile_dropWhile] at h ⊢
    simp only at h ⊢
    cases hrest : rest.dropWhile (· != '"') with
    | nil =>
        rw [hrest] at h
        exact absurd rfl h
    | cons d after =>
        have hd := List.head?_dropWhile_not (· != '"') rest
        rw [hrest] at hd
        obtain rfl : d = '"' := by simpa using hd
        have hleft : rest.dropWhile (· != '"') ≠ [] ∨ ('\n' :: more).takeWhile (· != '"') = [] :=
          .inl (by simp [hrest])
        obtain ⟨htake, hdrop⟩ := span_append hleft
        rw [List.span_eq_takeWhile_dropWhile]
        simp only [htake, hdrop, hrest]
        rfl

theorem steady_takeNumber (c : Char) : Steady fun rest line => takeNumber (c :: rest) line where
  lower rest line n := by
    unfold takeNumber
    simp only
    split
    · split <;> rfl
    · rfl
  joined rest line more _ := by
    have hnewline : Number.isDigit '\n' = false := by decide
    unfold takeNumber
    rw [← List.cons_append, List.span_eq_takeWhile_dropWhile, List.span_eq_takeWhile_dropWhile,
      (span_newline hnewline (c :: rest) more).1, (span_newline hnewline (c :: rest) more).2]
    simp only
    cases hrest : (c :: rest).dropWhile Number.isDigit with
    | nil => rfl
    | cons d after =>
        by_cases hd : d = '.'
        · subst hd
          simp only [List.cons_append]
          rw [List.span_eq_takeWhile_dropWhile, List.span_eq_takeWhile_dropWhile, (span_newline hnewline after more).1,
            (span_newline hnewline after more).2]
          simp only
          split <;> rfl
        · rw [List.cons_append]
          split
          · next heq => exact absurd (List.cons.inj heq).1 hd
          · split
            · next heq => exact absurd (List.cons.inj heq).1 hd
            · rfl

theorem steady_takeWord (c : Char) : Steady fun rest line => takeWord (c :: rest) line where
  lower rest line n := rfl
  joined rest line more _ := by
    have hnewline : isWordPart '\n' = false := by decide
    unfold takeWord
    rw [← List.cons_append, List.span_eq_takeWhile_dropWhile, List.span_eq_takeWhile_dropWhile,
      (span_newline hnewline (c :: rest) more).1, (span_newline hnewline (c :: rest) more).2]
    rfl

theorem steady_read (c : Char) : Steady (read c) := by
  unfold read
  split
  case h_16 => exact steady_takeString
  case h_17 =>
    split
    · exact steady_takeNumber _
    split
    · exact steady_takeWord _
    · exact steady_refuse _
  all_goals first
    | exact steady_take _ _
    | exact steady_takeOperator _ _ _

/-- Blanks and comments are dropped alike on every line, and on beyond the newline behind them. -/
theorem skip_steady (cs : List Char) (line : Nat) :
    (∀ n, skip false cs (line + n) = (skip false cs line).below n) ∧
      ∀ more, skip false (cs ++ '\n' :: more) line =
        if (skip false cs line).rest = [] then skip false more ((skip false cs line).line + 1)
        else (skip false cs line).followedBy more := by
  induction hn : cs.length using Nat.strong_induction_on generalizing cs line with
  | h n ih =>
      subst hn
      cases cs with
      | nil => exact ⟨fun n => rfl, fun more => rfl⟩
      | cons c cs =>
          by_cases hblank : Scanner.isBlank c = true
          · obtain ⟨hlower, hjoined⟩ := ih cs.length (Nat.lt_succ_self _) cs (if c = '\n' then line + 1 else line) rfl
            refine ⟨fun n => ?_, fun more => ?_⟩
            · rw [Scanner.skip_blank hblank, Scanner.skip_blank hblank, ← hlower]
              split
              · rw [Nat.add_right_comm]
              · rfl
            · rw [List.cons_append, Scanner.skip_blank hblank, Scanner.skip_blank hblank, hjoined]
          by_cases hcomment : c = '/' ∧ cs.head? = some '/'
          · obtain ⟨rfl, hhead⟩ := hcomment
            obtain ⟨ds, rfl⟩ := List.head?_eq_some_iff.mp hhead
            have hskip : ∀ ds line, skip false ('/' :: '/' :: ds) line = skip false (ds.dropWhile (· != '\n')) line :=
              fun ds line => Scanner.skip_comment ds line
            have hle := (List.dropWhile_suffix (l := ds) (· != '\n')).length_le
            obtain ⟨hlower, hjoined⟩ := ih (ds.dropWhile (· != '\n')).length
              (by simp only [List.length_cons]; omega) (ds.dropWhile (· != '\n')) line rfl
            refine ⟨fun n => ?_, fun more => ?_⟩
            · rw [hskip, hskip, hlower]
            · rw [List.cons_append, List.cons_append, hskip, hskip, (span_newline (by decide) ds more).2, hjoined]
          · have hblank : Scanner.isBlank c = false := by simpa using hblank
            have hword : ∀ more, ¬ (c = '/' ∧ (cs ++ '\n' :: more).head? = some '/') := by
              rintro more ⟨rfl, hhead⟩
              cases cs with
              | nil => cases hhead
              | cons d cs => exact hcomment ⟨rfl, hhead⟩
            refine ⟨fun n => ?_, fun more => ?_⟩
            · rw [Scanner.skip_word hblank hcomment, Scanner.skip_word hblank hcomment]
              rfl
            · rw [List.cons_append, Scanner.skip_word hblank hcomment, Scanner.skip_word hblank (hword more)]
              rfl

theorem next_below (c : Cursor) (n : Nat) : (c.below n).next = c.next.map (Token.below n) (below n) := by
  unfold next skipBlank
  have hskip : skip false (c.below n).rest (c.below n).line = (skip false c.rest c.line).below n :=
    (skip_steady c.rest c.line).1 n
  rw [hskip]
  generalize skip false c.rest c.line = d
  obtain ⟨rest, line⟩ := d
  cases rest with
  | nil => rfl
  | cons d rest => exact (steady_read d).lower rest line n

/-- A word is read as if nothing followed, and where the text ends the text behind the newline begins. -/
theorem next_followedBy {c : Cursor} (hword : c.next.1.kind ≠ .error) (more : List Char) :
    (c.followedBy more).next =
      if c.next.1.kind = .eof then next ⟨more, c.next.2.line + 1⟩ else c.next.map id (followedBy more) := by
  unfold next skipBlank at hword ⊢
  have hskip : skip false (c.followedBy more).rest (c.followedBy more).line = _ := (skip_steady c.rest c.line).2 more
  rw [hskip]
  generalize skip false c.rest c.line = d at hword ⊢
  obtain ⟨rest, line⟩ := d
  cases rest with
  | nil => rfl
  | cons d rest =>
      rw [if_neg (List.cons_ne_nil _ _), if_neg (read_spec d rest line).2.not_end]
      exact (steady_read d).joined rest line more hword

/-! ### All tokens -/

theorem tokens_eq (c : Cursor) :
    c.tokens = if c.next.1.kind = .eof then [c.next.1] else c.next.1 :: c.next.2.tokens := by
  unfold tokens
  rw [collect]
  simp only
  split
  · rfl
  · next h =>
      have hlt := (next_spec c h).1
      rw [collect_reversed, collect_stable hlt (Nat.lt_succ_self c.next.2.rest.length)]
      rfl

theorem tokens_below (c : Cursor) (n : Nat) : (c.below n).tokens = c.tokens.map (Token.below n) := by
  induction hn : c.rest.length using Nat.strong_induction_on generalizing c with
  | h length ih =>
      subst hn
      have hlower : (c.below n).next = (c.next.1.below n, c.next.2.below n) := next_below c n
      have hkind : (c.next.1.below n).kind = c.next.1.kind := rfl
      rw [tokens_eq, tokens_eq c, hlower, hkind]
      split
      · rfl
      · next hend => exact congrArg _ (ih _ (next_spec c hend).1 c.next.2 rfl)

/-- The tokens of a text that has only words, and of the text on the lines behind it. -/
theorem tokens_followedBy (c : Cursor) (hwords : ∀ t ∈ c.tokens, t.kind ≠ .error) (more : List Char) :
    ∃ us last n, c.tokens = us ++ [last] ∧ last.kind = .eof ∧
      (c.followedBy more).tokens = us ++ tokens ⟨more, n + 1⟩ := by
  induction hn : c.rest.length using Nat.strong_induction_on generalizing c with
  | h length ih =>
      subst hn
      have hnext : c.next.1.kind ≠ .error := by
        refine hwords _ ?_
        rw [tokens_eq]
        split <;> exact List.mem_cons_self
      have hjoined := next_followedBy hnext more
      rw [tokens_eq] at hwords
      rw [tokens_eq]
      by_cases hend : c.next.1.kind = .eof
      · rw [if_pos hend] at hjoined ⊢
        refine ⟨[], c.next.1, c.next.2.line, rfl, hend, ?_⟩
        rw [List.nil_append, tokens_eq, hjoined, ← tokens_eq]
      · rw [if_neg hend] at hjoined hwords ⊢
        obtain ⟨us, last, n, htokens, hlast, hmore⟩ :=
          ih _ (next_spec c hend).1 c.next.2 (fun t ht => hwords t (List.mem_cons_of_mem _ ht)) rfl
        refine ⟨c.next.1 :: us, last, n, by rw [htokens]; rfl, hlast, ?_⟩
        rw [tokens_eq, hjoined, if_neg (show (c.next.map id (followedBy more)).1.kind ≠ .eof from hend),
          List.cons_append, ← hmore]
        rfl

end Cursor

/-- **Joined sources.** The tokens of two sources with a newline between them are those of the first, which has only
words, up to its end, and then those of the second one so many lines further down. -/
theorem tokenize_joined {a : String} (hwords : ∀ t ∈ tokenize a, t.kind ≠ .error) (b : String) :
    ∃ us last n, tokenize a = us ++ [last] ∧ last.kind = .eof ∧
      tokenize (a ++ "\n" ++ b) = us ++ (tokenize b).map (Token.below n) := by
  obtain ⟨us, last, n, htokens, hlast, hmore⟩ := (Cursor.ofSource a).tokens_followedBy hwords b.toList
  have hsource : Cursor.ofSource (a ++ "\n" ++ b) = (Cursor.ofSource a).followedBy b.toList := by
    simp [Cursor.ofSource, Cursor.followedBy]
  have hsecond : (⟨b.toList, n + 1⟩ : Cursor) = (Cursor.ofSource b).below n := by
    simp [Cursor.ofSource, Cursor.below, Nat.add_comm]
  refine ⟨us, last, n, htokens, hlast, ?_⟩
  unfold tokenize
  rw [hsource, hmore, hsecond, Cursor.tokens_below]

end Lox
