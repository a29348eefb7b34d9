import Lox.Proofs.Token.Bytes

/-! How the tokens cover a source. The bytes of a source fall into spans, one for each token, and gaps between them.
A gap holds blanks and comments only; a span holds the lexeme of its token, or, where the token is an error, one
character that no word can begin with or a string whose end is missing. Spans begin and end between characters, and
the line of a token counts the newlines before the end of its span. -/

namespace Lox

/-! ### Among the characters -/

/-- A character that may stand outside of strings and comments. -/
def Cursor.isKnown (c : Char) : Bool :=
  Scanner.isBlank c || isWordPart c || "(){};,.-+/*!=<>\"".toList.contains c

/-- Characters that stand between words: blanks, and comments up to the end of a line or of the source. -/
inductive Separates : (gap after : List Char) → Prop where
  | nil (after : List Char) : Separates [] after
  | blank {c : Char} {gap after : List Char} (hc : Scanner.isBlank c = true) (h : Separates gap after) :
      Separates (c :: gap) after
  | comment {text gap after : List Char} (htext : '\n' ∉ text) (hend : (gap ++ after).head?.all (· == '\n'))
      (h : Separates gap after) : Separates ('/' :: '/' :: (text ++ gap)) after

/-- What a token says about the characters of its span and those behind it. -/
inductive Token.Covers (t : Token) (text after : List Char) : Prop where
  | word (hkind : t.kind ≠ .error) (hlexeme : t.lexeme = String.ofList text)
      (hknown : (t.kind = .string ∧ ∃ body, '"' ∉ body ∧ text = '"' :: (body ++ ['"'])) ∨
        ∀ c ∈ text, Cursor.isKnown c = true)
  | unexpected {c : Char} (hkind : t.kind = .error) (hlexeme : t.lexeme = "Unexpected character.")
      (htext : text = [c]) (hunknown : Cursor.isKnown c = false)
  | unterminated {body : List Char} (hkind : t.kind = .error) (hlexeme : t.lexeme = "Unterminated string.")
      (htext : text = '"' :: body) (hbody : '"' ∉ body) (hafter : after = [])

namespace Cursor

/-- What is dropped before a word separates it from the one before, and the word begins with no blank. -/
theorem skip_separates (cs : List Char) (line : Nat) :
    ∃ gap, cs = gap ++ (skip false cs line).rest ∧ (skip false cs line).line = line + gap.count '\n' ∧
      Separates gap (skip false cs line).rest ∧
      ∀ c rest, (skip false cs line).rest = c :: rest → Scanner.isBlank c = false := by
  induction hn : cs.length using Nat.strong_induction_on generalizing cs line with
  | h n ih =>
      subst hn
      cases cs with
      | nil => exact ⟨[], rfl, rfl, .nil _, nofun⟩
      | cons c cs =>
          by_cases hblank : Scanner.isBlank c = true
          · obtain ⟨gap, hcs, hline, hsep, hhead⟩ :=
              ih cs.length (Nat.lt_succ_self _) cs (if c = '\n' then line + 1 else line) rfl
            rw [Scanner.skip_blank hblank]
            refine ⟨c :: gap, congrArg (c :: ·) hcs, ?_, .blank hblank hsep, hhead⟩
            rw [hline, List.count_cons]
            by_cases hc : c = '\n'
            · rw [if_pos hc, if_pos (beq_iff_eq.mpr hc)]
              omega
            · rw [if_neg hc, if_neg (by simpa using hc)]
              rfl
          by_cases hcomment : c = '/' ∧ cs.head? = some '/'
          · obtain ⟨rfl, hhead⟩ := hcomment
            obtain ⟨ds, rfl⟩ := List.head?_eq_some_iff.mp hhead
            have hskip : skip false ('/' :: '/' :: ds) line = skip false (ds.dropWhile (· != '\n')) line :=
              Scanner.skip_comment ds line
            have hle := (List.dropWhile_suffix (l := ds) (· != '\n')).length_le
            obtain ⟨gap, hds, hline, hsep, hhead⟩ := ih (ds.dropWhile (· != '\n')).length
              (by simp only [List.length_cons]; omega) (ds.dropWhile (· != '\n')) line rfl
            have htext : '\n' ∉ ds.takeWhile (· != '\n') := fun hmem => absurd (List.mem_takeWhile_imp hmem) (by decide)
            rw [hskip]
            refine ⟨'/' :: '/' :: (ds.takeWhile (· != '\n') ++ gap), ?_, ?_, .comment htext ?_ hsep, hhead⟩
            · rw [List.cons_append, List.cons_append, List.append_assoc, ← hds, List.takeWhile_append_dropWhile]
            · rw [hline, List.count_cons_of_ne (by decide), List.count_cons_of_ne (by decide), List.count_append,
                List.count_eq_zero_of_not_mem htext, Nat.zero_add]
            · rw [← hds]
              have := List.head?_dropWhile_not (· != '\n') ds
              cases hd : (ds.dropWhile (· != '\n')).head? with
              | none => rfl
              | some d =>
                  rw [hd] at this
                  simpa using this
          · rw [Scanner.skip_word (by simpa using hblank) hcomment]
            refine ⟨[], rfl, rfl, .nil _, ?_⟩
            rintro _ _ ⟨⟩
            simpa using hblank

/-- Reading a token that begins with `c` takes some characters, and says the truth about them. -/
def Reads (c : Char) (rest : List Char) (line : Nat) (r : Token × Cursor) : Prop :=
  ∃ text, text ≠ [] ∧ c :: rest = text ++ r.2.rest ∧ r.2.line = line + text.count '\n' ∧ r.1.line = r.2.line ∧
    r.1.kind ≠ .eof ∧ r.1.Covers text r.2.rest

/-- A word without newlines and unknown characters. -/
theorem reads_take {c : Char} {rest text after : List Char} {kind : TokenKind} (htext : c :: rest = text ++ after)
    (hne : text ≠ []) (hkind : kind ≠ .error ∧ kind ≠ .eof) (hknown : ∀ d ∈ text, isKnown d = true)
    (hnewline : '\n' ∉ text) (line : Nat) : Reads c rest line (take kind text after line) :=
  ⟨text, hne, htext, by rw [List.count_eq_zero_of_not_mem hnewline]; rfl, rfl, hkind.2,
    .word hkind.1 rfl (.inr hknown)⟩

theorem isKnown_of_isWordPart {c : Char} (h : isWordPart c = true) : isKnown c = true := by
  rw [isKnown, h, Bool.or_true, Bool.true_or]

theorem reads_takeOperator {alone withEqual : TokenKind} {c : Char} (hc : isKnown c = true) (hne : c ≠ '\n')
    (halone : alone ≠ .error ∧ alone ≠ .eof) (hwith : withEqual ≠ .error ∧ withEqual ≠ .eof) (rest : List Char)
    (line : Nat) : Reads c rest line (takeOperator alone withEqual c rest line) := by
  unfold takeOperator
  split
  · refine reads_take rfl (List.cons_ne_nil _ _) hwith ?_ ?_ line
    · exact List.forall_mem_cons.mpr ⟨hc, List.forall_mem_singleton.mpr (by decide)⟩
    · simp [hne.symm]
  · refine reads_take rfl (List.cons_ne_nil _ _) halone (List.forall_mem_singleton.mpr hc) ?_ line
    simpa using hne.symm

theorem reads_takeString (rest : List Char) (line : Nat) : Reads '"' rest line (takeString rest line) := by
  have hbody : '"' ∉ rest.takeWhile (· != '"') := fun hmem => absurd (List.mem_takeWhile_imp hmem) (by decide)
  have hsplit := List.takeWhile_append_dropWhile (p := (· != '"')) (l := rest)
  have hhead := List.head?_dropWhile_not (· != '"') rest
  unfold takeString
  rw [List.span_eq_takeWhile_dropWhile]
  simp only
  generalize rest.takeWhile (· != '"') = body at hbody hsplit ⊢
  generalize rest.dropWhile (· != '"') = after at hsplit hhead ⊢
  subst hsplit
  cases after with
  | nil =>
      refine ⟨'"' :: body, List.cons_ne_nil _ _, rfl, ?_, rfl, nofun, .unterminated rfl rfl rfl hbody rfl⟩
      rw [List.count_cons_of_ne (by decide)]
      rfl
  | cons d after =>
      obtain rfl : d = '"' := by simpa using hhead
      have hcovers : ∀ line, (Token.mk .string (String.ofList ('"' :: body ++ ['"'])) line).Covers
          ('"' :: body ++ ['"']) after := fun _ => .word nofun rfl (.inl ⟨rfl, body, hbody, rfl⟩)
      refine ⟨'"' :: body ++ ['"'], by simp, by simp [take], ?_, rfl, nofun, hcovers _⟩
      rw [List.count_append, List.count_cons_of_ne (by decide), List.count_singleton]
      rfl

theorem reads_takeNumber {c : Char} (hc : Number.isDigit c = true) (rest : List Char) (line : Nat) :
    Reads c rest line (takeNumber (c :: rest) line) := by
  have hdigit : ∀ {d : Char}, Number.isDigit d = true → isKnown d = true ∧ d ≠ '\n' := fun hd =>
    have hpart := Scanner.isWordPart_of_isDigit hd
    ⟨isKnown_of_isWordPart hpart, (Scanner.isWordPart_low hpart).2⟩
  have hwhole : ∀ d ∈ c :: rest.takeWhile Number.isDigit, isKnown d = true ∧ d ≠ '\n' :=
    List.forall_mem_cons.mpr ⟨hdigit hc, fun d hd => hdigit (List.mem_takeWhile_imp hd)⟩
  have hsplit : c :: rest = c :: rest.takeWhile Number.isDigit ++ rest.dropWhile Number.isDigit :=
    congrArg (c :: ·) List.takeWhile_append_dropWhile.symm
  have halone : ∀ line, Reads c rest line
      (take .number (c :: rest.takeWhile Number.isDigit) (rest.dropWhile Number.isDigit) line) :=
    reads_take hsplit (List.cons_ne_nil _ _) (by decide) (fun d hd => (hwhole d hd).1) fun hmem => (hwhole _ hmem).2 rfl
  unfold takeNumber
  rw [List.span_eq_takeWhile_dropWhile, List.takeWhile_cons_of_pos hc, List.dropWhile_cons_of_pos hc]
  simp only
  split
  · next after hafter =>
      rw [List.span_eq_takeWhile_dropWhile]
      split
      · exact halone line
      · have hpoint : ∀ d ∈ '.' :: after.takeWhile Number.isDigit, isKnown d = true ∧ d ≠ '\n' :=
          List.forall_mem_cons.mpr ⟨by decide, fun d hd => hdigit (List.mem_takeWhile_imp hd)⟩
        have hall : ∀ d ∈ c :: rest.takeWhile Number.isDigit ++ '.' :: after.takeWhile Number.isDigit,
            isKnown d = true ∧ d ≠ '\n' := fun d hd => (List.mem_append.mp hd).elim (hwhole d) (hpoint d)
        refine reads_take ?_ (List.append_ne_nil_of_left_ne_nil (List.cons_ne_nil _ _) _) (by decide)
          (fun d hd => (hall d hd).1) (fun hmem => (hall _ hmem).2 rfl) line
        rw [hsplit, hafter, List.append_assoc]
        exact congrArg (c :: rest.takeWhile Number.isDigit ++ '.' :: ·) List.takeWhile_append_dropWhile.symm
  · exact halone line

theorem reads_takeWord {c : Char} (hc : isWordStart c = true) (rest : List Char) (line : Nat) :
    Reads c rest line (takeWord (c :: rest) line) := by
  have hpart : isWordPart c = true := by rw [isWordPart, hc, Bool.true_or]
  have hall : ∀ d ∈ c :: rest.takeWhile isWordPart, isWordPart d = true :=
    List.forall_mem_cons.mpr ⟨hpart, fun d hd => List.mem_takeWhile_imp hd⟩
  unfold takeWord
  rw [List.span_eq_takeWhile_dropWhile, List.takeWhile_cons_of_pos hpart, List.dropWhile_cons_of_pos hpart]
  obtain ⟨heof, -, -, herror⟩ := TokenKind.ofWord_ne (String.ofList (c :: rest.takeWhile isWordPart))
  exact reads_take (congrArg (c :: ·) List.takeWhile_append_dropWhile.symm) (List.cons_ne_nil _ _) ⟨herror, heof⟩
    (fun d hd => isKnown_of_isWordPart (hall d hd)) (fun hmem => (Scanner.isWordPart_low (hall _ hmem)).2 rfl) line

theorem reads_read {c : Char} (hc : Scanner.isBlank c = false) (rest : List Char) (line : Nat) :
    Reads c rest line (read c rest line) := by
  have hone : ∀ {c : Char} (kind : TokenKind), kind ≠ .error ∧ kind ≠ .eof → isKnown c = true → c ≠ '\n' →
      Reads c rest line (take kind [c] rest line) := fun kind hkind hknown hne =>
    reads_take rfl (List.cons_ne_nil _ _) hkind (List.forall_mem_singleton.mpr hknown) (by simpa using hne.symm) line
  unfold read
  split
  case h_16 => exact reads_takeString rest line
  case h_17 =>
    split
    · next hdigit => exact reads_takeNumber hdigit rest line
    split
    · next hstart => exact reads_takeWord hstart rest line
    · next hdigit hstart =>
        have hunknown : isKnown c = false := by
          simp only [isKnown, isWordPart, hc, Bool.eq_false_iff.mpr hdigit, Bool.eq_false_iff.mpr hstart, Bool.false_or]
          refine Bool.eq_false_iff.mpr fun hmem => ?_
          simp at hmem
          rcases hmem with
            rfl | rfl | rfl | rfl | rfl | rfl | rfl | rfl | rfl | rfl | rfl | rfl | rfl | rfl | rfl | rfl <;>
              contradiction
        have hne : c ≠ '\n' := by
          rintro rfl
          cases hc
        refine ⟨[c], List.cons_ne_nil _ _, rfl, ?_, rfl, (fun h => by cases h), .unexpected rfl rfl rfl hunknown⟩
        rw [List.count_singleton, if_neg (by simpa using hne)]
        rfl
  all_goals first
    | exact hone _ (by decide) (by decide) (by decide)
    | exact reads_takeOperator (by decide) (by decide) (by decide) (by decide) rest line

/-- The next token stands behind a gap; at the end of the source it takes no character. -/
theorem next_reads (ahead : List Char) (line : Nat) :
    ∃ gap text, ahead = gap ++ (text ++ (next ⟨ahead, line⟩).2.rest) ∧
      Separates gap (text ++ (next ⟨ahead, line⟩).2.rest) ∧
      (skip false ahead line).rest = text ++ (next ⟨ahead, line⟩).2.rest ∧
      (next ⟨ahead, line⟩).2.line = line + (gap ++ text).count '\n' ∧
      (next ⟨ahead, line⟩).1.line = (next ⟨ahead, line⟩).2.line ∧
      ((next ⟨ahead, line⟩).1.kind = .eof ∧ (next ⟨ahead, line⟩).1.lexeme = "" ∧ text = [] ∧
          (next ⟨ahead, line⟩).2.rest = [] ∨
        (next ⟨ahead, line⟩).1.kind ≠ .eof ∧ text ≠ [] ∧
          (next ⟨ahead, line⟩).1.Covers text (next ⟨ahead, line⟩).2.rest) := by
  obtain ⟨gap, hahead, hline, hsep, hhead⟩ := skip_separates ahead line
  unfold next skipBlank
  simp only
  generalize skip false ahead line = c at hahead hline hsep hhead ⊢
  obtain ⟨rest, line'⟩ := c
  cases rest with
  | nil =>
      refine ⟨gap, [], hahead, hsep, rfl, ?_, rfl, .inl ⟨rfl, rfl, rfl, rfl⟩⟩
      rw [List.append_nil]
      exact hline
  | cons c rest =>
      obtain ⟨text, hne, htext, hline', htoken, hkind, hcovers⟩ := reads_read (hhead c rest rfl) rest line'
      refine ⟨gap, text, by rw [← htext]; exact hahead, by rw [← htext]; exact hsep, htext, ?_, htoken,
        .inr ⟨hkind, hne, hcovers⟩⟩
      have hline : line' = line + gap.count '\n' := hline
      rw [hline', hline, List.count_append, Nat.add_assoc]

end Cursor

/-- A character that is not known is the whole of a span, if it begins one. -/
theorem Token.Covers.of_unknown {t : Token} {text after : List Char} (h : t.Covers text after) {c : Char}
    (hhead : text.head? = some c) (hc : Cursor.isKnown c = false) :
    t.kind = .error ∧ t.lexeme = "Unexpected character." ∧ text = [c] := by
  have hmem : c ∈ text := List.mem_of_mem_head? hhead
  have hquote : Cursor.isKnown '"' = true := by decide
  cases h with
  | word _ _ hknown =>
      rcases hknown with ⟨-, body, -, rfl⟩ | hknown
      · cases hhead
        exact absurd (hquote.symm.trans hc) nofun
      · exact absurd ((hknown c hmem).symm.trans hc) nofun
  | unexpected hkind hlexeme htext =>
      subst htext
      cases hhead
      exact ⟨hkind, hlexeme, rfl⟩
  | unterminated _ _ htext =>
      subst htext
      cases hhead
      exact absurd (hquote.symm.trans hc) nofun

/-! ### Among the bytes -/

/-- A token and the offsets between which it stands. -/
structure Span where
  token : Token
  start : Nat
  stop : Nat

namespace Scanner

/-- The tokens of a source up to the end token, which is the last one to be asked for. -/
def spans : Nat → Scanner → Except Fault (List Span)
  | 0, _ => .error .exhausted
  | budget + 1, s => do
    let (token, s) ← s.next
    let span : Span := ⟨token, s.start, s.current⟩
    if token.kind = .eof then return [span]
    else return span :: (← spans budget s)

/-- The source stays the same, and so does the place where the token began. -/
def Stays (s : Scanner) (x : Except Fault (Token × Scanner)) : Prop :=
  ∀ t s', x = .ok (t, s') → s'.source = s.source ∧ s'.start = s.start

variable {s s' : Scanner} {before ahead : List Char} {line : Nat}

theorem Stays.of_eq {x : Except Fault (Token × Scanner)} (h : s.Stays x) (hsource : s.source = s'.source)
    (hstart : s.start = s'.start) : s'.Stays x :=
  fun t u hx => ⟨(h t u hx).1.trans hsource, (h t u hx).2.trans hstart⟩

theorem stays_finish (kind : TokenKind) (s : Scanner) : s.Stays (s.finish kind) := by
  intro t s' h
  unfold finish at h
  cases hslice : Text.slice s.source s.start s.current with
  | error fault =>
      rw [hslice] at h
      cases h
  | ok lexeme =>
      rw [hslice] at h
      cases h
      exact ⟨rfl, rfl⟩

theorem stays_refuse (message : String) (s : Scanner) : s.Stays (s.refuse message) := by
  rintro _ _ ⟨⟩
  exact ⟨rfl, rfl⟩

theorem source_passWhile (q : Char → Bool) (s : Scanner) : (s.passWhile q).source = s.source := by rw [passWhile_eq]

theorem stays_operator (alone withEqual : TokenKind) (s : Scanner) : s.Stays (s.operator alone withEqual) := by
  unfold operator
  split
  · exact (stays_finish _ _).of_eq rfl rfl
  · exact stays_finish _ _

theorem stays_string (s : Scanner) : s.Stays s.string := by
  have hpassed : ∀ x, (s.passWhile (· != '"')).Stays x → s.Stays x := fun x h =>
    h.of_eq (source_passWhile _ _) (start_passWhile _ _)
  unfold string
  simp only
  split
  · exact hpassed _ (stays_refuse _ _)
  · exact hpassed _ ((stays_finish _ _).of_eq rfl rfl)

theorem stays_number (s : Scanner) : s.Stays s.number := by
  have hpassed : ∀ x, (s.passWhile Number.isDigit).Stays x → s.Stays x := fun x h =>
    h.of_eq (source_passWhile _ _) (start_passWhile _ _)
  unfold number
  simp only
  split
  · exact hpassed _ ((stays_finish _ _).of_eq (source_passWhile _ _) (start_passWhile _ _))
  · exact hpassed _ (stays_finish _ _)

theorem stays_word (s : Scanner) : s.Stays s.word := by
  intro t s' h
  unfold word at h
  simp only at h
  cases hslice : Text.slice (s.passWhile Cursor.isWordPart).source (s.passWhile Cursor.isWordPart).start
      (s.passWhile Cursor.isWordPart).current with
  | error fault =>
      rw [hslice] at h
      cases h
  | ok text =>
      rw [hslice] at h
      exact (stays_finish _ _).of_eq (source_passWhile _ _) (start_passWhile _ _) t s' h

theorem stays_read (c : Char) (s : Scanner) : s.Stays (s.read c) := by
  unfold read
  split
  case h_16 => exact stays_string s
  case h_17 =>
    split
    · exact stays_number s
    split
    · exact stays_word s
    · exact (stays_refuse _ _).of_eq (source_passWhile _ _) (start_passWhile _ _)
  all_goals first
    | exact stays_finish _ _
    | exact stays_operator _ _ _

theorem source_skipBlank (s : Scanner) : s.skipBlank.source = s.source := by
  fun_induction skipBlank s with
  | case1 s hend => rfl
  | case2 s hend hblank ih => exact ih
  | case3 s hend hblank hcomment ih => exact ih.trans (source_passWhile _ _)
  | case4 s hend hblank hcomment => rfl

/-- A token begins where the gap before it ends. -/
theorem next_frame {t : Token} (h : s.next = .ok (t, s')) : s'.source = s.source ∧ s'.start = s.skipBlank.current := by
  have hstays : ({ s.skipBlank with start := s.skipBlank.current } : Scanner).Stays s.next := by
    unfold next
    simp only
    split
    · exact stays_finish _ _
    · intro t s' h
      unfold advance at h
      split at h
      · next b _ =>
          exact (stays_read (Text.latin b) { s.skipBlank with
            start := s.skipBlank.current
            current := s.skipBlank.current + 1 }).of_eq rfl rfl t s' h
      · cases h
  obtain ⟨hsource, hstart⟩ := hstays t s' h
  exact ⟨hsource.trans s.source_skipBlank, hstart⟩

/-- Which characters have been passed can be told from those ahead. -/
theorem Faces.rebase {before' : List Char} (h : s.Faces before ahead line)
    (hsource : s.source = Text.encode (before' ++ ahead)) : s.Faces before' ahead line := by
  refine ⟨hsource, ?_, h.line⟩
  have hlength := congrArg List.length (h.source.symm.trans hsource)
  rw [Text.encode_append, Text.encode_append, List.length_append, List.length_append] at hlength
  rw [h.current]
  omega

/-- The scanner passes a gap, which ends where the token begins, and then the characters of the token. -/
theorem next_span (h : s.Faces before ahead line) :
    ∃ s' gap text rest, s.next = .ok ((Cursor.next ⟨ahead, line⟩).1, s') ∧ ahead = gap ++ (text ++ rest) ∧
      (Cursor.next ⟨ahead, line⟩).2.rest = rest ∧ Separates gap (text ++ rest) ∧
      s'.start = (Text.encode (before ++ gap)).length ∧
      s'.Faces (before ++ gap ++ text) rest (Cursor.next ⟨ahead, line⟩).2.line ∧
      (Cursor.next ⟨ahead, line⟩).2.line = line + (gap ++ text).count '\n' ∧
      (Cursor.next ⟨ahead, line⟩).1.line = (Cursor.next ⟨ahead, line⟩).2.line ∧
      ((Cursor.next ⟨ahead, line⟩).1.kind = .eof ∧ (Cursor.next ⟨ahead, line⟩).1.lexeme = "" ∧
          text = [] ∧ rest = [] ∨
        (Cursor.next ⟨ahead, line⟩).1.kind ≠ .eof ∧ text ≠ [] ∧
          (Cursor.next ⟨ahead, line⟩).1.Covers text rest) := by
  obtain ⟨gap, text, hahead, hsep, hskip, hline, htoken, hcases⟩ := Cursor.next_reads ahead line
  obtain ⟨s', before', hnext, hfaces⟩ := finds_next h
  obtain ⟨hsource, hstart⟩ := next_frame hnext
  obtain ⟨before'', hblank⟩ := faces_skipBlank h
  have hfirst : s.skipBlank.Faces (before ++ gap) (text ++ (Cursor.next ⟨ahead, line⟩).2.rest)
      (Cursor.skip false ahead line).line := by
    rw [hskip] at hblank
    refine hblank.rebase ?_
    rw [source_skipBlank, h.source, List.append_assoc, ← hahead]
  refine ⟨s', gap, text, _, hnext, hahead, rfl, hsep, ?_, hfaces.rebase ?_, hline, htoken, hcases⟩
  · rw [hstart, hfirst.current]
  · rw [hsource, h.source, List.append_assoc, List.append_assoc, ← hahead]

end Scanner

/-! ### The whole source -/

namespace Span

/-- Between the spans there are blanks and comments only. -/
def Follows (bytes : List UInt8) (a b : Span) : Prop :=
  a.stop ≤ b.start ∧ ∃ gap after, Text.slice bytes a.stop b.start = .ok (String.ofList gap) ∧
    Text.slice bytes b.start bytes.length = .ok (String.ofList after) ∧ Separates gap after

/-- The ends of the span lie between characters, and its token tells how many newlines there are before its end. -/
structure Placed (bytes : List UInt8) (u : Span) : Prop where
  start : Text.isBoundary bytes u.start = true
  stop : Text.isBoundary bytes u.stop = true
  line : u.token.line = 1 + (bytes.take u.stop).count '\n'.toNat.toUInt8

/-- The token is not the end, and it tells what the bytes of the span are. -/
def Filled (bytes : List UInt8) (u : Span) : Prop :=
  u.token.kind ≠ .eof ∧ u.start < u.stop ∧ ∃ text after, Text.slice bytes u.start u.stop = .ok (String.ofList text) ∧
    Text.slice bytes u.stop bytes.length = .ok (String.ofList after) ∧ u.token.Covers text after

/-- The token is the end, and stands behind the last byte. -/
structure Final (bytes : List UInt8) (u : Span) : Prop where
  kind : u.token.kind = .eof
  lexeme : u.token.lexeme = ""
  start : u.start = bytes.length
  stop : u.stop = bytes.length

end Span

namespace Text

theorem length_encode_lt (before : List Char) {text : List Char} (hne : text ≠ []) :
    (encode before).length < (encode (before ++ text)).length := by
  obtain ⟨c, cs, rfl⟩ := List.exists_cons_of_ne_nil hne
  obtain ⟨first, more, hbytes, -⟩ := first_byte c
  rw [encode_append, List.length_append, encode_cons, hbytes]
  simp

/-- What lies behind some characters can be cut out. -/
theorem slice_rest (before after : List Char) :
    slice (encode (before ++ after)) (encode before).length (encode (before ++ after)).length =
      .ok (String.ofList after) := by
  have h := slice_encode before after []
  rwa [List.append_nil] at h

/-- The characters before an offset, and the newlines among them. -/
theorem count_take (before after : List Char) :
    ((encode (before ++ after)).take (encode before).length).count '\n'.toNat.toUInt8 = before.count '\n' := by
  rw [encode_append, List.take_left' rfl, count_encode (by decide)]

end Text

namespace Span

/-- The span takes a text out of the source, behind what came before and a gap. -/
structure Cuts (bytes : List UInt8) (u : Span) (before gap text rest : List Char) : Prop where
  bytes : bytes = Text.encode (before ++ gap ++ text ++ rest)
  start : u.start = (Text.encode (before ++ gap)).length
  stop : u.stop = (Text.encode (before ++ gap ++ text)).length

namespace Cuts

variable {bytes : List UInt8} {u previous : Span} {before gap text rest : List Char}

theorem placed (h : u.Cuts bytes before gap text rest) (hline : u.token.line = 1 + (before ++ gap ++ text).count '\n') :
    u.Placed bytes := by
  refine ⟨?_, ?_, ?_⟩
  · rw [h.start, h.bytes, List.append_assoc (before ++ gap)]
    exact Text.isBoundary_encode _ _
  · rw [h.stop, h.bytes]
    exact Text.isBoundary_encode _ _
  · rw [hline, h.stop, h.bytes, Text.count_take]

theorem follows (h : u.Cuts bytes before gap text rest) (hprevious : previous.stop = (Text.encode before).length)
    (hsep : Separates gap (text ++ rest)) : Follows bytes previous u := by
  refine ⟨?_, gap, text ++ rest, ?_, ?_, hsep⟩
  · rw [hprevious, h.start, Text.encode_append, List.length_append]
    exact Nat.le_add_right _ _
  · rw [hprevious, h.start, h.bytes, List.append_assoc (before ++ gap)]
    exact Text.slice_encode before gap (text ++ rest)
  · rw [h.start, h.bytes, List.append_assoc (before ++ gap)]
    exact Text.slice_rest (before ++ gap) (text ++ rest)

theorem filled (h : u.Cuts bytes before gap text rest) (hkind : u.token.kind ≠ .eof) (hne : text ≠ [])
    (hcovers : u.token.Covers text rest) : u.Filled bytes := by
  refine ⟨hkind, ?_, text, rest, ?_, ?_, hcovers⟩
  · rw [h.start, h.stop]
    exact Text.length_encode_lt _ hne
  · rw [h.start, h.stop, h.bytes]
    exact Text.slice_encode _ _ _
  · rw [h.stop, h.bytes]
    exact Text.slice_rest _ _

theorem final (h : u.Cuts bytes before gap [] []) (hkind : u.token.kind = .eof) (hlexeme : u.token.lexeme = "") :
    u.Final bytes := by
  have hlength : bytes.length = (Text.encode (before ++ gap)).length := by
    rw [h.bytes, List.append_nil, List.append_nil]
  refine ⟨hkind, hlexeme, ?_, ?_⟩
  · rw [h.start, hlength]
  · rw [h.stop, List.append_nil, hlength]

end Cuts

end Span

namespace Scanner

variable {s : Scanner} {before ahead : List Char} {line : Nat}

/-- The next token is the first of the spans, and the only one when it is the end. -/
theorem spans_succ {s' : Scanner} {token : Token} (h : s.next = .ok (token, s')) (budget : Nat) :
    s.spans (budget + 1) =
      if token.kind = .eof then .ok [⟨token, s'.start, s'.current⟩]
      else (s'.spans budget).map (⟨token, s'.start, s'.current⟩ :: ·) := by
  rw [spans, h]
  change (if token.kind = .eof then _ else _) = _
  split
  · rfl
  · cases s'.spans budget <;> rfl

/-- More than enough steps find the same. -/
theorem spans_mono {us : List Span} {budget budget' : Nat} (h : s.spans budget = .ok us) (hle : budget ≤ budget') :
    s.spans budget' = .ok us := by
  induction budget generalizing s us budget' with
  | zero => cases h
  | succ budget ih =>
      obtain ⟨more, rfl⟩ : ∃ more, budget' = more + 1 := ⟨budget' - 1, by omega⟩
      cases hnext : s.next with
      | error fault =>
          rw [spans, hnext] at h
          cases h
      | ok r =>
          obtain ⟨token, s'⟩ := r
          rw [spans_succ hnext] at h ⊢
          split
          · next hend => rwa [if_pos hend] at h
          · next hend =>
              rw [if_neg hend] at h
              cases hrest : s'.spans budget with
              | error fault =>
                  rw [hrest] at h
                  cases h
              | ok rest =>
                  rw [hrest] at h
                  rw [ih hrest (Nat.le_of_succ_le_succ hle)]
                  exact h

/-- What holds of one token holds of all, one after the other. -/
theorem spans_collect {budget : Nat} (h : s.Faces before ahead line) (hline : line = 1 + before.count '\n')
    (hbudget : ahead.length < budget) (previous : Span) (hprevious : previous.stop = (Text.encode before).length) :
    ∃ us last, s.spans budget = .ok (us ++ [last]) ∧
      Cursor.collect budget ⟨ahead, line⟩ [] = (us ++ [last]).map Span.token ∧ last.Final s.source ∧
      (∀ u ∈ us, u.Filled s.source) ∧ (previous :: (us ++ [last])).IsChain (Span.Follows s.source) ∧
      ∀ u ∈ us ++ [last], u.Placed s.source := by
  induction budget generalizing s before ahead line previous with
  | zero => omega
  | succ budget ih =>
      obtain ⟨s', gap, text, rest, hnext, hahead, hrest, hsep, hstart, hfaces, hlines, htoken, hcases⟩ := next_span h
      have hsource : s.source = Text.encode (before ++ gap ++ text ++ rest) := by
        rw [h.source, hahead]
        simp only [List.append_assoc]
      have hsame : s'.source = s.source := hfaces.source.trans hsource.symm
      have hcount : (Cursor.next ⟨ahead, line⟩).2.line = 1 + (before ++ gap ++ text).count '\n' := by
        have happend : (before ++ (gap ++ text)).count '\n' = before.count '\n' + (gap ++ text).count '\n' :=
          List.count_append
        rw [hlines, hline, List.append_assoc, happend, Nat.add_assoc]
      let span : Span := ⟨(Cursor.next ⟨ahead, line⟩).1, s'.start, s'.current⟩
      have hcuts : span.Cuts s.source before gap text rest := ⟨hsource, hstart, hfaces.current⟩
      have hplaced : span.Placed s.source := hcuts.placed (htoken.trans hcount)
      have hfollows : Span.Follows s.source previous span := hcuts.follows hprevious hsep
      have hmore : Cursor.collect (budget + 1) ⟨ahead, line⟩ [] =
          if span.token.kind = .eof then [span.token]
          else Cursor.collect budget (Cursor.next ⟨ahead, line⟩).2 [span.token] := rfl
      rw [spans_succ hnext, hmore]
      rcases hcases with ⟨hend, hlexeme, rfl, rfl⟩ | ⟨hkind, hne, hcovers⟩
      · rw [if_pos hend, if_pos hend]
        refine ⟨[], span, rfl, rfl, hcuts.final hend hlexeme, nofun, ?_, ?_⟩
        · exact .cons_cons hfollows (.singleton _)
        · exact List.forall_mem_singleton.mpr hplaced
      · rw [if_neg hkind, if_neg hkind]
        have hlt : rest.length < budget := by
          have hpos := List.length_pos_iff.mpr hne
          rw [hahead, List.length_append, List.length_append] at hbudget
          omega
        obtain ⟨us, last, hspans, hcollect, hfinal, hfilled, hchain, hall⟩ :=
          ih hfaces hcount hlt span hfaces.current
        rw [hsame] at hfinal hfilled hchain hall
        rw [← hrest] at hcollect
        refine ⟨span :: us, last, ?_, ?_, hfinal, ?_, .cons_cons hfollows hchain, ?_⟩
        · rw [hspans]
          rfl
        · rw [Cursor.collect_reversed, hcollect]
          rfl
        · exact List.forall_mem_cons.mpr ⟨hcuts.filled hkind hne hcovers, hfilled⟩
        · exact List.forall_mem_cons.mpr ⟨hplaced, hall⟩

/-- **The tokens cover the source.** A scanner that is asked for tokens until the end comes to one after finitely many,
exactly once. Every span before it takes at least one byte and holds the lexeme of its token; an error is either one
unknown character, whatever its length is, or a string that is not ended. Spans follow each other in order with only
blanks and comments in between, they begin and end between characters, and a token's line is that of its last
character. -/
theorem spans_cover (source : String) : ∃ us last,
    (∀ budget, source.length < budget → (ofSource source).spans budget = .ok (us ++ [last])) ∧
      tokenize source = (us ++ [last]).map Span.token ∧ last.Final source.toUTF8.data.toList ∧
      (∀ u ∈ us, u.Filled source.toUTF8.data.toList) ∧
      (⟨.start, 0, 0⟩ :: (us ++ [last])).IsChain (Span.Follows source.toUTF8.data.toList) ∧
      (∀ u ∈ us ++ [last], u.Placed source.toUTF8.data.toList) ∧
      ∀ u ∈ us, ∀ c text, Text.slice source.toUTF8.data.toList u.start u.stop = .ok (String.ofList (c :: text)) →
        Cursor.isKnown c = false →
          u.token.kind = .error ∧ u.token.lexeme = "Unexpected character." ∧ text = [] := by
  have hfaces : (ofSource source).Faces [] source.toList 1 := ⟨Text.toList_toUTF8 source, rfl, rfl⟩
  obtain ⟨us, last, hspans, htokens, hfinal, hfilled, hchain, hplaced⟩ :=
    spans_collect hfaces rfl (Nat.lt_succ_self _) ⟨.start, 0, 0⟩ rfl
  refine ⟨us, last, fun budget hbudget => spans_mono hspans ?_, htokens, hfinal, hfilled, hchain, hplaced, ?_⟩
  · rw [String.length_toList]
    exact hbudget
  · intro u hu c text hslice hc
    obtain ⟨_, _, text', after, hslice', _, hcovers⟩ := hfilled u hu
    obtain rfl : text' = c :: text := String.ofList_injective (Except.ok.inj (hslice'.symm.trans hslice))
    obtain ⟨hkind, hlexeme, htext⟩ := hcovers.of_unknown rfl hc
    exact ⟨hkind, hlexeme, (List.cons.inj htext).2⟩

end Scanner

end Lox
