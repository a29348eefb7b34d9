import Lox.Token.Lexer
import Mathlib.Data.List.TakeDrop
import Mathlib.Data.List.TakeWhile

/-! What the tokens of a source look like: the end token stands at the end and nowhere else, a name has at
least one character, a string has its two quotes, a number can be read as one, and what is no token carries one of
two messages. -/

namespace Lox

/-- A token that a rule of the grammar may take: not the end, a name only with characters, a string only with
quotes, and a number only with digits. -/
structure Token.Proper (t : Token) : Prop where
  not_end : t.kind ≠ .eof
  named : t.kind = .identifier → t.lexeme ≠ ""
  quoted : t.kind = .string → ∃ chars, t.lexeme.toList = '"' :: (chars ++ ['"'])
  numeric : t.kind = .number → ∃ x, Number.ofLiteral? t.lexeme.toList = some x
  refused : t.kind = .error → t.lexeme = "Unexpected character." ∨ t.lexeme = "Unterminated string."

/-- Digits are a number. -/
theorem Number.ofLiteral?_digits {whole : List Char} (hne : whole ≠ []) (h : ∀ c ∈ whole, isDigit c) :
    ∃ x, ofLiteral? whole = some x := by
  unfold ofLiteral?
  rw [List.span_eq_takeWhile_dropWhile, List.takeWhile_eq_self_iff.mpr h, List.dropWhile_eq_nil_iff.mpr h]
  cases whole with
  | nil => exact absurd rfl hne
  | cons c cs => exact ⟨_, rfl⟩

/-- Digits, a point and digits are a number. -/
theorem Number.ofLiteral?_point {whole places : List Char} (hne : whole ≠ []) (h : ∀ c ∈ whole, isDigit c)
    (hne' : places ≠ []) (h' : ∀ c ∈ places, isDigit c) : ∃ x, ofLiteral? (whole ++ '.' :: places) = some x := by
  have hdot : ¬ isDigit '.' = true := by decide
  unfold ofLiteral?
  rw [List.span_eq_takeWhile_dropWhile, List.takeWhile_append_of_pos h, List.dropWhile_append_of_pos h,
    List.takeWhile_cons_of_neg hdot, List.dropWhile_cons_of_neg hdot, List.append_nil]
  have hplaces : (places.isEmpty || !places.all isDigit) = false := by
    rw [Bool.or_eq_false_iff, List.isEmpty_eq_false_iff, Bool.not_eq_false', List.all_eq_true]
    exact ⟨hne', h'⟩
  cases whole with
  | nil => exact absurd rfl hne
  | cons c cs =>
      simp only [hplaces]
      exact ⟨_, rfl⟩

theorem TokenKind.ofWord_ne (word : String) :
    ofWord word ≠ .eof ∧ ofWord word ≠ .string ∧ ofWord word ≠ .number ∧ ofWord word ≠ .error := by
  unfold ofWord
  cases h : keywords.lookup word with
  | none => simp
  | some kind =>
      rw [Option.getD_some]
      obtain ⟨l₁, l₂, hl, -⟩ := List.lookup_eq_some_iff.mp h
      have hmem : (word, kind) ∈ keywords := hl ▸ List.mem_append_right _ (List.mem_cons_self ..)
      refine ⟨?_, ?_, ?_, ?_⟩ <;>
      · intro heq
        rw [heq] at hmem
        simp [keywords] at hmem

namespace Cursor

theorem length_skip (inComment : Bool) (cs : List Char) (line : Nat) :
    (skip inComment cs line).rest.length ≤ cs.length := by
  fun_induction skip inComment cs line <;> simp only [List.length_cons, List.length_nil] at * <;> omega

/-- Reading a number takes at least its first digit. -/
theorem takeNumber_spec {c : Char} (hd : Number.isDigit c = true) (rest : List Char) (line : Nat) :
    (takeNumber (c :: rest) line).2.rest.length ≤ rest.length ∧ (takeNumber (c :: rest) line).1.kind = .number ∧
      ∃ x, Number.ofLiteral? (takeNumber (c :: rest) line).1.lexeme.toList = some x := by
  unfold takeNumber
  rw [List.span_eq_takeWhile_dropWhile, List.takeWhile_cons_of_pos hd, List.dropWhile_cons_of_pos hd]
  have hlen := (List.dropWhile_suffix (l := rest) Number.isDigit).length_le
  have hne : c :: rest.takeWhile Number.isDigit ≠ [] := List.cons_ne_nil _ _
  have hall : ∀ d ∈ c :: rest.takeWhile Number.isDigit, Number.isDigit d = true :=
    List.forall_mem_cons.mpr ⟨hd, fun d h => List.mem_takeWhile_imp h⟩
  simp only
  split
  · next after heq =>
      rw [heq, List.length_cons] at hlen
      rw [List.span_eq_takeWhile_dropWhile]
      split
      · refine ⟨?_, rfl, by simpa only [take, String.toList_ofList] using Number.ofLiteral?_digits hne hall⟩
        simp only [take, heq, List.length_cons]
        exact hlen
      · next hplaces =>
          have := (List.dropWhile_suffix (l := after) Number.isDigit).length_le
          refine ⟨by simp only [take]; omega, rfl, ?_⟩
          simpa only [take, String.toList_ofList] using Number.ofLiteral?_point hne hall
            (fun h => hplaces (by simp [h])) fun d h => List.mem_takeWhile_imp h
  · exact ⟨hlen, rfl, by simpa only [take, String.toList_ofList] using Number.ofLiteral?_digits hne hall⟩

/-- A token of any other kind than these has nothing to show. -/
theorem proper_of_plain {t : Token} (h : t.kind ∉ [.eof, .identifier, .string, .number, .error]) : t.Proper := by
  simp only [List.mem_cons, List.not_mem_nil, or_false, not_or] at h
  obtain ⟨heof, hid, hstr, hnum, herr⟩ := h
  exact ⟨heof, fun h => absurd h hid, fun h => absurd h hstr, fun h => absurd h hnum, fun h => absurd h herr⟩

theorem proper_refuse {message : String} (hm : message = "Unexpected character." ∨ message = "Unterminated string.")
    (rest : List Char) (line : Nat) : (refuse message rest line).1.Proper := ⟨nofun, nofun, nofun, nofun, fun _ => hm⟩

/-- A string ends behind its second quote, or the source ends. -/
theorem takeString_spec (rest : List Char) (line : Nat) :
    (takeString rest line).2.rest.length ≤ rest.length ∧ (takeString rest line).1.Proper := by
  have h : (rest.span (· != '"')).2.length ≤ rest.length := by
    rw [List.span_eq_takeWhile_dropWhile]
    exact (List.dropWhile_suffix _).length_le
  unfold takeString
  simp only
  split
  · next after heq =>
      rw [heq, List.length_cons] at h
      exact ⟨by simp only [take]; omega, nofun, nofun, fun _ => ⟨_, String.toList_ofList⟩, nofun, nofun⟩
  · exact ⟨h, proper_refuse (.inr rfl) _ _⟩

/-- Reading a word takes at least its first character. -/
theorem takeWord_spec {c : Char} (hc : isWordPart c = true) (rest : List Char) (line : Nat) :
    (takeWord (c :: rest) line).2.rest.length ≤ rest.length ∧ (takeWord (c :: rest) line).1.Proper := by
  unfold takeWord
  rw [List.span_eq_takeWhile_dropWhile, List.dropWhile_cons_of_pos hc, List.takeWhile_cons_of_pos hc]
  obtain ⟨heof, hstr, hnum, herr⟩ := TokenKind.ofWord_ne (String.ofList (c :: rest.takeWhile isWordPart))
  refine ⟨(List.dropWhile_suffix _).length_le, heof, fun _ h => ?_, fun h => absurd h hstr,
    fun h => absurd h hnum, fun h => absurd h herr⟩
  simp [take] at h

/-- Reading takes at least the character it starts with, and gives a proper token. -/
theorem read_spec (c : Char) (rest : List Char) (line : Nat) :
    (read c rest line).2.rest.length ≤ rest.length ∧ (read c rest line).1.Proper := by
  have htake : ∀ kind text, kind ∉ [.eof, .identifier, .string, .number, .error] →
      (take kind text rest line).2.rest.length ≤ rest.length ∧ (take kind text rest line).1.Proper :=
    fun kind text h => ⟨Nat.le_refl _, proper_of_plain h⟩
  have hoperator : ∀ alone withEqual c, alone ∉ [.eof, .identifier, .string, .number, .error] →
      withEqual ∉ [.eof, .identifier, .string, .number, .error] →
      (takeOperator alone withEqual c rest line).2.rest.length ≤ rest.length ∧
        (takeOperator alone withEqual c rest line).1.Proper := by
    intro alone withEqual c halone hwith
    unfold takeOperator
    split
    · exact ⟨by simp [take], proper_of_plain hwith⟩
    · exact ⟨Nat.le_refl _, proper_of_plain halone⟩
  unfold read
  split
  case h_16 => exact takeString_spec rest line
  case h_17 =>
    split
    · next hd =>
        obtain ⟨hlen, hkind, hnum⟩ := takeNumber_spec hd rest line
        exact ⟨hlen, by simp [hkind], by simp [hkind], by simp [hkind], fun _ => hnum, by simp [hkind]⟩
    · split
      · next hw => exact takeWord_spec (by rw [isWordPart, hw, Bool.true_or]) rest line
      · exact ⟨Nat.le_refl _, proper_refuse (.inl rfl) rest line⟩
  all_goals first
    | exact htake _ _ (by decide)
    | exact hoperator _ _ _ (by decide) (by decide)

theorem next_spec (c : Cursor) :
    (c.next.1.kind ≠ .eof → c.next.2.rest.length < c.rest.length ∧ c.next.1.Proper) := by
  intro h
  have hlen := length_skip false c.rest c.line
  unfold next at h ⊢
  split at h
  · exact absurd rfl h
  · next ch rest line heq =>
      rw [skipBlank] at heq
      rw [heq, List.length_cons] at hlen
      obtain ⟨hr, hp⟩ := read_spec ch rest line
      exact ⟨by omega, hp⟩

theorem collect_spec (count : Nat) (c : Cursor) (reversed : List Token) (hc : c.rest.length < count)
    (hr : ∀ t ∈ reversed, t.Proper) :
    ∃ us last, collect count c reversed = us ++ [last] ∧ last.kind = .eof ∧ ∀ t ∈ us, t.Proper := by
  induction count generalizing c reversed with
  | zero => omega
  | succ count ih =>
      rw [collect]
      simp only
      split
      · next h => exact ⟨reversed.reverse, c.next.1, by simp, h, by simpa using hr⟩
      · next h =>
          obtain ⟨hlt, hp⟩ := next_spec c h
          refine ih c.next.2 _ (by omega) fun t ht => ?_
          rcases List.mem_cons.mp ht with rfl | ht
          · exact hp
          · exact hr t ht

/-- The tokens found before are the first ones. -/
theorem collect_reversed (count : Nat) (c : Cursor) (reversed : List Token) :
    collect count c reversed = reversed.reverse ++ collect count c [] := by
  induction count generalizing c reversed with
  | zero => exact (List.append_nil _).symm
  | succ count ih =>
      rw [collect, collect]
      simp only
      split
      · simp
      · rw [ih, ih c.next.2 [c.next.1]]
        simp

/-- The end of the source is found only where nothing is left, and it is found there again and again. -/
theorem next_of_eof {c : Cursor} (h : c.next.1.kind = .eof) : c.next.2.rest = [] ∧ c.next.2.next = c.next := by
  unfold next at h ⊢
  cases hskip : c.skipBlank with
  | mk rest line =>
      cases rest with
      | nil => exact ⟨rfl, rfl⟩
      | cons ch rest =>
          rw [hskip] at h
          exact absurd h (read_spec ch rest line).2.not_end

/-- A count above the number of characters is enough, and any larger one gives the same tokens. -/
theorem collect_stable {count count' : Nat} {c : Cursor} (hc : c.rest.length < count) (hc' : c.rest.length < count')
    (reversed : List Token) : collect count c reversed = collect count' c reversed := by
  induction count generalizing count' c reversed with
  | zero => omega
  | succ count ih =>
      obtain ⟨count', rfl⟩ := Nat.exists_eq_succ_of_ne_zero (Nat.ne_of_gt (Nat.lt_of_le_of_lt (Nat.zero_le _) hc'))
      rw [collect, collect]
      simp only
      split
      · rfl
      · next h =>
          have hlt := (next_spec c h).1
          exact ih (by omega) (by omega) _

end Cursor

/-- A source is a list of proper tokens and the end token. -/
theorem tokenize_spec (source : String) :
    ∃ us last, tokenize source = us ++ [last] ∧ last.kind = .eof ∧ ∀ t ∈ us, t.Proper :=
  Cursor.collect_spec _ _ _ (Nat.lt_succ_self _) nofun

end Lox
