import Lox.Proofs.Token.Joined

/-! Words written down and read again. Each kind of token has its spellings; words that are written one after the
other, with a blank and whatever else may be dropped behind each of them, are read as they were written. The blank is
what ends a word: no word goes on beyond it but a string, and a string ends with its quote. -/

namespace Lox

/-- The operators and marks of punctuation. -/
def TokenKind.signs : List (String × TokenKind) :=
  [("(", .leftParen), (")", .rightParen), ("\x7b", .leftBrace), ("\x7d", .rightBrace), (",", .comma), (".", .dot),
   ("-", .minus), ("+", .plus), (";", .semicolon), ("/", .slash), ("*", .star), ("!", .bang), ("!=", .bangEqual),
   ("=", .equal), ("==", .equalEqual), (">", .greater), (">=", .greaterEqual), ("<", .less), ("<=", .lessEqual)]

/-- The words that cannot be names. -/
def TokenKind.words : List (String × TokenKind) :=
  [("and", .andWord), ("class", .classWord), ("else", .elseWord), ("false", .falseWord), ("for", .forWord),
   ("fun", .funWord), ("if", .ifWord), ("nil", .nilWord), ("or", .orWord), ("print", .printWord),
   ("return", .returnWord), ("super", .superWord), ("this", .thisWord), ("true", .trueWord), ("var", .varWord),
   ("while", .whileWord)]

/-- The ways in which a token of a kind can be written. -/
inductive TokenKind.Spells : TokenKind → List Char → Prop where
  | sign {text : String} {kind : TokenKind} (h : (text, kind) ∈ signs) : Spells kind text.toList
  | reserved {text : String} {kind : TokenKind} (h : (text, kind) ∈ words) : Spells kind text.toList
  | name {c : Char} {cs : List Char} (hc : Cursor.isWordStart c = true) (hcs : ∀ d ∈ cs, Cursor.isWordPart d = true)
      (hfree : ∀ kind, (String.ofList (c :: cs), kind) ∉ words) : Spells .identifier (c :: cs)
  | whole {digits : List Char} (hne : digits ≠ []) (h : ∀ d ∈ digits, Number.isDigit d = true) : Spells .number digits
  | decimal {digits places : List Char} (hne : digits ≠ []) (h : ∀ d ∈ digits, Number.isDigit d = true)
      (hne' : places ≠ []) (h' : ∀ d ∈ places, Number.isDigit d = true) : Spells .number (digits ++ '.' :: places)
  | text {body : List Char} (h : '"' ∉ body) : Spells .string ('"' :: (body ++ ['"']))

/-- Blanks and comments, each comment with the newline behind it. -/
inductive Cursor.Filler : List Char → Prop where
  | nil : Filler []
  | blank {c : Char} {gap : List Char} (hc : Scanner.isBlank c = true) (h : Filler gap) : Filler (c :: gap)
  | comment {text gap : List Char} (htext : '\n' ∉ text) (h : Filler gap) : Filler ('/' :: '/' :: (text ++ '\n' :: gap))

/-- A word as it is written. -/
structure WrittenWord where
  kind : TokenKind
  chars : List Char
  spelled : kind.Spells chars

/-- What may stand between two words: a blank, and then blanks and comments. -/
structure Gap where
  blank : Char
  filler : List Char
  isBlank : Scanner.isBlank blank = true
  fills : Cursor.Filler filler

/-- The characters of a gap. -/
def Gap.chars (g : Gap) : List Char := g.blank :: g.filler

/-- Words, each with the gap behind it. -/
def WrittenWord.render : List (WrittenWord × Gap) → List Char
  | [] => []
  | (word, gap) :: rest => word.chars ++ (gap.chars ++ render rest)

namespace Cursor

/-- Whatever fills a gap is dropped. -/
theorem Filler.skip {gap : List Char} (h : Filler gap) (after : List Char) (line : Nat) :
    ∃ line', Cursor.skip false (gap ++ after) line = Cursor.skip false after line' := by
  induction h generalizing line with
  | nil => exact ⟨line, rfl⟩
  | blank hc _ ih =>
      rw [List.cons_append, Scanner.skip_blank hc]
      exact ih _
  | @comment text gap htext _ ih =>
      have hpass : ∀ d ∈ text, (d != '\n') = true := fun d hd => bne_iff_ne.mpr fun heq => htext (heq ▸ hd)
      have hskip : Cursor.skip false ('/' :: '/' :: (text ++ '\n' :: gap) ++ after) line =
          Cursor.skip false ('\n' :: (gap ++ after)) line := by
        show Cursor.skip true ((text ++ '\n' :: gap) ++ after) line = _
        rw [Scanner.skip_comment, List.append_assoc, List.dropWhile_append_of_pos hpass]
        rfl
      rw [hskip]
      exact ih _

theorem skip_gap (g : Gap) (after : List Char) (line : Nat) :
    ∃ line', skip false (g.chars ++ after) line = skip false after line' :=
    (Filler.blank g.isBlank g.fills).skip after line

/-- A blank is no part of a word. -/
theorem of_isBlank {c : Char} (hc : Scanner.isBlank c = true) :
    isWordPart c = false ∧ Number.isDigit c = false ∧ c ≠ '=' ∧ c ≠ '.' ∧ c ≠ '/' := by
  simp only [Scanner.isBlank, Bool.or_eq_true, decide_eq_true_eq] at hc
  rcases hc with ((rfl | rfl) | rfl) | rfl <;> decide

/-! ### One word -/

section OneWord

variable {b c : Char} {cs after : List Char}

/-- What begins with no blank and no comment is read at once. -/
theorem next_of_word (hc : Scanner.isBlank c = false) (hcomment : ¬ (c = '/' ∧ cs.head? = some '/')) (line : Nat) :
    next ⟨c :: cs, line⟩ = read c cs line := by
  unfold next skipBlank
  rw [Scanner.skip_word hc hcomment]

theorem read_digit (hc : Number.isDigit c = true) (line : Nat) : read c cs line = takeNumber (c :: cs) line := by
  unfold read
  split
  case h_17 => rw [if_pos hc]
  all_goals exact absurd hc (by decide)

theorem isDigit_of_isWordStart (hc : isWordStart c = true) : Number.isDigit c = false := by
  have hparts : ((decide ('A' ≤ c ∧ c ≤ 'Z') || (decide ('a' ≤ c) && decide (c ≤ 'z'))) || c == '_') = true := hc
  refine Bool.eq_false_iff.mpr fun hdigit => ?_
  have hrange : '0' ≤ c ∧ c ≤ '9' := by simpa [Number.isDigit] using hdigit
  have hle : c.toNat ≤ '9'.toNat := hrange.2
  simp only [Bool.or_eq_true, Bool.and_eq_true, decide_eq_true_eq, beq_iff_eq] at hparts
  rcases hparts with (⟨ha, -⟩ | ⟨ha, -⟩) | rfl
  · exact absurd (Nat.le_trans ha hle) (by decide)
  · exact absurd (Nat.le_trans ha hle) (by decide)
  · exact absurd hle (by decide)

theorem read_word (hc : isWordStart c = true) (line : Nat) : read c cs line = takeWord (c :: cs) line := by
  have hdigit := isDigit_of_isWordStart hc
  unfold read
  split
  case h_17 => rw [hdigit, if_neg (by decide), if_pos hc]
  all_goals exact absurd hc (by decide)

/-- What passes a test is taken up to a blank that does not. -/
theorem span_blank {p : Char → Bool} {text : List Char} (htext : ∀ d ∈ text, p d = true) (hb : p b = false) :
    (text ++ b :: after).span p = (text, b :: after) := by
  have hstop : ¬ p b = true := by simp [hb]
  rw [List.span_eq_takeWhile_dropWhile, List.takeWhile_append_of_pos htext, List.dropWhile_append_of_pos htext,
    List.takeWhile_cons_of_neg hstop, List.dropWhile_cons_of_neg hstop, List.append_nil]

theorem takeWord_blank (hcs : ∀ d ∈ cs, isWordPart d = true) (hb : Scanner.isBlank b = true) (line : Nat) :
    takeWord (cs ++ b :: after) line = take (.ofWord (String.ofList cs)) cs (b :: after) line := by
  unfold takeWord
  rw [span_blank hcs (of_isBlank hb).1]

theorem takeNumber_whole (hcs : ∀ d ∈ cs, Number.isDigit d = true) (hb : Scanner.isBlank b = true) (line : Nat) :
    takeNumber (cs ++ b :: after) line = take .number cs (b :: after) line := by
  unfold takeNumber
  rw [span_blank hcs (of_isBlank hb).2.1]
  simp only
  split
  · next heq => exact absurd (List.cons.inj heq).1 (of_isBlank hb).2.2.2.1
  · rfl

theorem takeNumber_decimal {places : List Char} (hcs : ∀ d ∈ cs, Number.isDigit d = true) (hne : places ≠ [])
    (hplaces : ∀ d ∈ places, Number.isDigit d = true) (hb : Scanner.isBlank b = true) (line : Nat) :
    takeNumber (cs ++ '.' :: (places ++ b :: after)) line = take .number (cs ++ '.' :: places) (b :: after) line := by
  unfold takeNumber
  rw [span_blank hcs (by decide)]
  simp only
  rw [span_blank hplaces (of_isBlank hb).2.1, List.isEmpty_eq_false_iff.mpr hne]
  rfl

theorem takeString_body (hcs : '"' ∉ cs) (after : List Char) (line : Nat) :
    ∃ line', takeString (cs ++ '"' :: after) line = take .string ('"' :: (cs ++ ['"'])) after line' := by
  have hpass : ∀ d ∈ cs, (d != '"') = true := fun d hd => bne_iff_ne.mpr fun heq => hcs (heq ▸ hd)
  unfold takeString
  rw [span_blank hpass (by decide)]
  exact ⟨_, rfl⟩

theorem takeOperator_alone (alone withEqual : TokenKind) (hb : b ≠ '=') (line : Nat) :
    takeOperator alone withEqual c (b :: after) line = take alone [c] (b :: after) line := by
  unfold takeOperator
  split
  · next heq => exact absurd (List.cons.inj heq).1 hb
  · rfl

/-- Letters and digits are neither blanks nor the beginning of a comment. -/
theorem next_of_letter (hc : isWordPart c = true) (line : Nat) : next ⟨c :: cs, line⟩ = read c cs line := by
  refine next_of_word (Bool.eq_false_iff.mpr fun hblank => ?_) ?_ line
  · exact absurd (hc.symm.trans (of_isBlank hblank).1) (by decide)
  · rintro ⟨rfl, -⟩
    exact absurd hc (by decide)

theorem next_letters (hc : isWordStart c = true) (hcs : ∀ d ∈ cs, isWordPart d = true) (hb : Scanner.isBlank b = true)
    (line : Nat) : next ⟨c :: cs ++ b :: after, line⟩ =
      take (.ofWord (String.ofList (c :: cs))) (c :: cs) (b :: after) line := by
  have hpart : isWordPart c = true := by rw [isWordPart, hc, Bool.true_or]
  rw [List.cons_append, next_of_letter hpart, read_word hc]
  exact takeWord_blank (List.forall_mem_cons.mpr ⟨hpart, hcs⟩) hb line

end OneWord

end Cursor

open Cursor

/-- A reserved word is made of letters. -/
theorem TokenKind.words_spec {text : String} {kind : TokenKind} (h : (text, kind) ∈ words) :
    ofWord text = kind ∧ ∃ c cs, text.toList = c :: cs ∧ isWordStart c = true ∧ ∀ d ∈ cs, isWordPart d = true := by
  have hall : ∀ entry ∈ words, ofWord entry.1 = entry.2 ∧
      (entry.1.toList.head?.any isWordStart && entry.1.toList.tail.all isWordPart) = true := by decide
  obtain ⟨hkind, hchars⟩ := hall _ h
  refine ⟨hkind, ?_⟩
  cases htext : text.toList with
  | nil => simp [htext] at hchars
  | cons c cs =>
      simp only [htext, List.head?_cons, List.tail_cons, Option.any_some, Bool.and_eq_true, List.all_eq_true] at hchars
      exact ⟨c, cs, rfl, hchars⟩

theorem TokenKind.ofWord_free {text : String} (h : ∀ kind, (text, kind) ∉ words) : ofWord text = .identifier := by
  have hwords : ∀ entry ∈ keywords, entry ∈ words := by decide
  unfold ofWord
  cases hlook : keywords.lookup text with
  | none => rfl
  | some kind =>
      obtain ⟨l₁, l₂, hl, -⟩ := List.lookup_eq_some_iff.mp hlook
      have hmem : (text, kind) ∈ keywords := hl ▸ List.mem_append_right _ (List.mem_cons_self ..)
      exact absurd (hwords _ hmem) (h kind)

/-- **One word.** A word with a blank behind it is read as it was written, up to the blank. -/
theorem TokenKind.Spells.next {kind : TokenKind} {text : List Char} (h : kind.Spells text) {b : Char}
    (hb : Scanner.isBlank b = true) (after : List Char) (line : Nat) :
    ∃ line', Cursor.next ⟨text ++ b :: after, line⟩ = take kind text (b :: after) line' := by
  cases h with
  | @sign text _ h =>
      have halone : ∀ (alone withEqual : TokenKind) c, takeOperator alone withEqual c (b :: after) line =
          take alone [c] (b :: after) line :=
        fun alone withEqual c => takeOperator_alone alone withEqual (of_isBlank hb).2.2.1 line
      have hslash : ¬ ('/' = '/' ∧ (b :: after).head? = some '/') :=
        fun h => (of_isBlank hb).2.2.2.2 (Option.some.inj h.2)
      simp only [signs, List.mem_cons, List.not_mem_nil, or_false, Prod.mk.injEq] at h
      refine ⟨line, ?_⟩
      rcases h with ⟨rfl, rfl⟩ | ⟨rfl, rfl⟩ | ⟨rfl, rfl⟩ | ⟨rfl, rfl⟩ | ⟨rfl, rfl⟩ | ⟨rfl, rfl⟩ |
        ⟨rfl, rfl⟩ | ⟨rfl, rfl⟩ | ⟨rfl, rfl⟩ | ⟨rfl, rfl⟩ | ⟨rfl, rfl⟩ | ⟨rfl, rfl⟩ | ⟨rfl, rfl⟩ |
        ⟨rfl, rfl⟩ | ⟨rfl, rfl⟩ | ⟨rfl, rfl⟩ | ⟨rfl, rfl⟩ | ⟨rfl, rfl⟩ | ⟨rfl, rfl⟩
      all_goals first
        | exact next_of_word (by decide) (fun h => absurd h.1 (by decide)) line
        | exact next_of_word (by decide) hslash line
        | exact (next_of_word (by decide) (fun h => absurd h.1 (by decide)) line).trans (halone _ _ _)
  | reserved h =>
      obtain ⟨hkind, c, cs, htext, hc, hcs⟩ := words_spec h
      rw [htext]
      refine ⟨line, ?_⟩
      rw [next_letters hc hcs hb, ← htext, String.ofList_toList, hkind]
  | name hc hcs hfree => exact ⟨line, by rw [next_letters hc hcs hb, ofWord_free hfree]⟩
  | @whole digits hne h =>
      obtain ⟨c, cs, rfl⟩ := List.exists_cons_of_ne_nil hne
      have hc := (List.forall_mem_cons.mp h).1
      refine ⟨line, ?_⟩
      rw [List.cons_append, next_of_letter (Scanner.isWordPart_of_isDigit hc), read_digit hc]
      exact takeNumber_whole h hb line
  | @decimal digits places hne h hne' h' =>
      obtain ⟨c, cs, rfl⟩ := List.exists_cons_of_ne_nil hne
      have hc := (List.forall_mem_cons.mp h).1
      refine ⟨line, ?_⟩
      rw [List.append_assoc, List.cons_append, List.cons_append, next_of_letter (Scanner.isWordPart_of_isDigit hc),
        read_digit hc]
      exact takeNumber_decimal h hne' h' hb line
  | @text body h =>
      obtain ⟨line', hstring⟩ := takeString_body h (b :: after) line
      refine ⟨line', ?_⟩
      rw [List.cons_append, List.append_assoc, next_of_word (by decide) fun h => absurd h.1 (by decide)]
      exact hstring

/-! ### All words -/

theorem TokenKind.Spells.kind_ne {kind : TokenKind} {text : List Char} (h : kind.Spells text) :
    kind ≠ .eof ∧ kind ≠ .error := by
  have hsigns : ∀ entry ∈ signs, entry.2 ≠ .eof ∧ entry.2 ≠ .error := by decide
  have hwords : ∀ entry ∈ words, entry.2 ≠ .eof ∧ entry.2 ≠ .error := by decide
  cases h with
  | sign h => exact hsigns _ h
  | reserved h => exact hwords _ h
  | name | whole | decimal | text => decide

namespace Cursor

theorem next_gap (g : Gap) (after : List Char) (line : Nat) :
    ∃ line', next ⟨g.chars ++ after, line⟩ = next ⟨after, line'⟩ := by
  obtain ⟨line', hskip⟩ := skip_gap g after line
  refine ⟨line', ?_⟩
  unfold next skipBlank
  simp only [hskip]

/-- Words are read one after the other, each behind its gap. -/
theorem tokens_render (words : List (WrittenWord × Gap)) (g : Gap) (line : Nat) :
    (tokens ⟨g.chars ++ WrittenWord.render words, line⟩).map (fun t => (t.kind, t.lexeme)) =
      words.map (fun w => (w.1.kind, String.ofList w.1.chars)) ++ [(.eof, "")] := by
  induction words generalizing g line with
  | nil =>
      obtain ⟨line', hnext⟩ := next_gap g [] line
      rw [tokens_eq, WrittenWord.render, hnext]
      rfl
  | cons first words ih =>
      obtain ⟨word, gap⟩ := first
      obtain ⟨line₁, hgap⟩ := next_gap g (WrittenWord.render ((word, gap) :: words)) line
      obtain ⟨line₂, hword⟩ := word.spelled.next gap.isBlank (gap.filler ++ WrittenWord.render words) line₁
      have hnext : next ⟨g.chars ++ WrittenWord.render ((word, gap) :: words), line⟩ =
          take word.kind word.chars (gap.chars ++ WrittenWord.render words) line₂ := hgap.trans hword
      rw [tokens_eq, hnext, if_neg (show (take word.kind word.chars _ line₂).1.kind ≠ .eof from word.spelled.kind_ne.1),
        List.map_cons, List.map_cons, List.cons_append]
      exact congrArg _ (ih gap line₂)

end Cursor

/-- A source that consists of words, with gaps around and between them. -/
def WrittenWord.source (gap : Gap) (words : List (WrittenWord × Gap)) : String :=
  String.ofList (gap.chars ++ WrittenWord.render words)

/-- **Scanning undoes writing.** Whatever words are written down, and whatever blanks and comments stand around and
between them, a source is read as these words and the end, and nothing in it is refused; the scanner cuts the same
words out of its bytes. -/
theorem tokenize_render (gap : Gap) (words : List (WrittenWord × Gap)) :
    (tokenize (WrittenWord.source gap words)).map (fun t => (t.kind, t.lexeme)) =
        words.map (fun w => (w.1.kind, String.ofList w.1.chars)) ++ [(.eof, "")] ∧
      (∀ t ∈ tokenize (WrittenWord.source gap words), t.kind ≠ .error) ∧
      (Scanner.ofSource (WrittenWord.source gap words)).scan (words.length + 1) =
        .ok (tokenize (WrittenWord.source gap words)) := by
  have hread : (tokenize (WrittenWord.source gap words)).map (fun t => (t.kind, t.lexeme)) =
      words.map (fun w => (w.1.kind, String.ofList w.1.chars)) ++ [(.eof, "")] := by
    have hsource : Cursor.ofSource (WrittenWord.source gap words) = ⟨gap.chars ++ WrittenWord.render words, 1⟩ := by
      rw [Cursor.ofSource, WrittenWord.source, String.toList_ofList]
    unfold tokenize
    rw [hsource]
    exact Cursor.tokens_render words gap 1
  refine ⟨hread, fun t ht => ?_, ?_⟩
  · have hmem : (t.kind, t.lexeme) ∈ words.map (fun w => (w.1.kind, String.ofList w.1.chars)) ++ [(.eof, "")] :=
      hread ▸ List.mem_map_of_mem ht
    rcases List.mem_append.mp hmem with hmem | hmem
    · obtain ⟨w, -, heq⟩ := List.mem_map.mp hmem
      rw [← (Prod.mk.inj heq).1]
      exact w.1.spelled.kind_ne.2
    · rw [(Prod.mk.inj (List.mem_singleton.mp hmem)).1]
      decide
  · obtain ⟨us, last, htokens, -, hscan⟩ := Scanner.scan_ofSource (WrittenWord.source gap words)
    have hlength : us.length = words.length := by
      have := congrArg List.length hread
      rw [htokens] at this
      simpa using this
    have hall : us ++ List.replicate (words.length + 1) last = us ++ [last] ++ List.replicate words.length last := by
      rw [List.replicate_succ, List.append_assoc]
      rfl
    rw [hscan, htokens, hall, List.take_left' (by simp [hlength])]

end Lox
