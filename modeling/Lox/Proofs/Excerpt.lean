import Lox.Proofs.Compile.Pointing
import Lox.Proofs.Token.Spelling
import Lox.Report

/-! The excerpt shows the line that the scanner meant. The scanner counts newlines, also within strings and comments,
and the excerpt divides the source into lines, which end in one of two ways and may lack their end. Both notions agree
on each token but the end of the source and a string whose end is missing: its line is the one around its last
character. -/

namespace Lox

/-! ### The lines of a text -/

namespace Text

/-- A line without the carriage return of its end. -/
def withoutReturn (line : List Char) : List Char := if line.getLast? = some '\r' then line.dropLast else line

/-- The lines among the pieces between newlines. Every piece but the last is a line, of which a carriage return right
before the newline is not a part; the last one is a line if there is anything in it. -/
def linesOf : List (List Char) → List (List Char)
  | [] => []
  | [last] => if last = [] then [] else [last]
  | piece :: next :: more => withoutReturn piece :: linesOf (next :: more)

/-- The line around a place between two characters, which reaches from the newline before it to the one behind it. -/
def lineAround (before ahead : List Char) : List Char :=
  let line := (before.reverse.takeWhile (· != '\n')).reverse ++ ahead.takeWhile (· != '\n')
  if '\n' ∈ ahead then withoutReturn line else line

variable {reversed before cs : List Char}

theorem closeLine_eq (reversed : List Char) : closeLine reversed = String.ofList (withoutReturn reversed.reverse) := by
  unfold withoutReturn
  rw [List.getLast?_reverse, List.dropLast_reverse]
  unfold closeLine
  split
  · rfl
  · next hne =>
      cases reversed with
      | nil => rfl
      | cons c rest =>
          rw [if_neg]
          rintro ⟨⟩
          exact hne rest rfl

theorem linesFrom_eq (reversed cs : List Char) : (linesFrom reversed cs).map String.toList =
    linesOf ((cs.splitOn '\n').modifyHead (reversed.reverse ++ ·)) := by
  fun_induction linesFrom reversed cs with
  | case1 reversed hempty => simp_all [linesOf]
  | case2 reversed hmore => simp_all [linesOf]
  | case3 reversed rest ih =>
      obtain ⟨next, more, hsplit⟩ := List.exists_cons_of_ne_nil (List.splitOn_ne_nil '\n' rest)
      rw [hsplit] at ih
      rw [List.splitOn_cons_eq_if_modifyHead, if_pos (by decide), hsplit, List.map_cons, ih, closeLine_eq]
      simp [linesOf]
  | case4 reversed c rest hc ih =>
      rw [List.splitOn_cons_eq_if_modifyHead, if_neg (by simpa using hc), ih, List.modifyHead_modifyHead]
      congr 2
      funext piece
      simp

/-- The lines of a text are those among its pieces between newlines. -/
theorem lines_eq (text : String) : (lines text).map String.toList = linesOf (text.toList.splitOn '\n') := by
  rw [lines, linesFrom_eq]
  cases text.toList.splitOn '\n' <;> rfl

/-- No line has a newline in it. -/
theorem newline_not_mem_linesFrom (h : '\n' ∉ reversed) : ∀ line ∈ linesFrom reversed cs, '\n' ∉ line.toList := by
  fun_induction linesFrom reversed cs with
  | case1 reversed hempty => nofun
  | case2 reversed hmore => simpa using h
  | case3 reversed rest ih =>
      refine List.forall_mem_cons.mpr ⟨?_, ih nofun⟩
      rw [closeLine_eq, String.toList_ofList]
      unfold withoutReturn
      split
      · exact fun hmem => h (List.mem_reverse.mp (List.mem_of_mem_dropLast hmem))
      · exact fun hmem => h (List.mem_reverse.mp hmem)
  | case4 reversed c rest hc ih => exact ih (by simpa using ⟨fun heq => hc heq.symm, h⟩)

/-- The line that is being read ends at the next newline. -/
theorem linesFrom_zero (h : reversed ++ cs ≠ []) : (linesFrom reversed cs)[0]? =
    some (String.ofList (if '\n' ∈ cs then withoutReturn (reversed.reverse ++ cs.takeWhile (· != '\n'))
      else reversed.reverse ++ cs.takeWhile (· != '\n'))) := by
  fun_induction linesFrom reversed cs with
  | case1 reversed hempty => simp_all
  | case2 reversed hmore => simp
  | case3 reversed rest ih => simp [closeLine_eq]
  | case4 reversed c rest hc ih =>
      have hne : (c != '\n') = true := by simpa using hc
      rw [ih (by simp), List.takeWhile_cons, if_pos hne]
      simp [Ne.symm hc]

/-- Nothing before a newline belongs to a line behind it. -/
theorem lineAround_newline (earlier before ahead : List Char) :
    lineAround (earlier ++ '\n' :: before) ahead = lineAround before ahead := by
  have hstop : ∀ cs : List Char, (cs ++ '\n' :: earlier.reverse).takeWhile (· != '\n') = cs.takeWhile (· != '\n') := by
    intro cs
    induction cs with
    | nil => rfl
    | cons c cs ih => rw [List.cons_append, List.takeWhile_cons, List.takeWhile_cons, ih]
  unfold lineAround
  rw [List.reverse_append, List.reverse_cons, List.append_assoc, List.singleton_append, hstop]

/-- As many lines end before a place as there are newlines before it. -/
theorem linesFrom_around (h : '\n' ∉ reversed) (hcs : cs ≠ []) :
    (linesFrom reversed (before ++ cs))[before.count '\n']? = some
    (String.ofList (lineAround (reversed.reverse ++ before) cs)) := by
  induction before generalizing reversed with
  | nil =>
      have hall : reversed.takeWhile (· != '\n') = reversed :=
        List.takeWhile_eq_self_iff.mpr fun c hc => by simpa using fun heq : c = '\n' => h (heq ▸ hc)
      rw [List.nil_append, List.count_nil, linesFrom_zero (by simp [hcs]), lineAround, List.append_nil,
        List.reverse_reverse, hall]
  | cons c before ih =>
      by_cases hc : c = '\n'
      · subst hc
        rw [List.cons_append, linesFrom, List.count_cons_self, List.getElem?_cons_succ, ih List.not_mem_nil,
          lineAround_newline]
        rfl
      · rw [List.cons_append, linesFrom, List.count_cons_of_ne hc, ih (by simpa using ⟨fun heq => hc heq.symm, h⟩)]
        · simp
        · exact hc

/-- What is neither a newline nor a carriage return is in the line around it. -/
theorem mem_lineAround {c : Char} (hc : Scanner.isBlank c = false) (before after : List Char) :
    c ∈ lineAround before (c :: after) := by
  have hnewline : (c != '\n') = true := by
    rw [bne_iff_ne]
    rintro rfl
    cases hc
  unfold lineAround withoutReturn
  rw [List.takeWhile_cons, if_pos hnewline]
  generalize (before.reverse.takeWhile (· != '\n')).reverse = front
  generalize after.takeWhile (· != '\n') = more
  simp only
  split
  · split
    · next hreturn =>
        -- the carriage return that is taken away stands behind the character
        have hmore : more ≠ [] := by
          rintro rfl
          rw [List.getLast?_append, List.getLast?_singleton, Option.some_or] at hreturn
          cases hreturn
          cases hc
        rw [List.dropLast_append_of_ne_nil (List.cons_ne_nil _ _), List.dropLast_cons_of_ne_nil hmore]
        simp
    · simp
  · simp

theorem lines_around (text : String) (hcs : cs ≠ []) (htext : text.toList = before ++ cs) :
    (lines text)[before.count '\n']? = some (String.ofList (lineAround before cs)) := by
  rw [lines, htext]
  exact linesFrom_around List.not_mem_nil hcs

end Text

/-! ### The rows of an excerpt -/

/-- A row of an excerpt: the mark of the failing line, the number of the line at the right end of a column, and the
line. -/
def excerptRow (failing width number : Nat) (line : List Char) : List Char :=
  (if number = failing then '>' else ' ') :: ' ' :: ((toString number).toList.leftpad width ' ' ++ " | ".toList ++ line)

/-- The numbers of the lines that are shown around a failing one, of so many. -/
def excerptNumbers (failing count : Nat) : List Nat :=
  List.range' (max 1 (failing - 2)) (min (failing + 2) count + 1 - max 1 (failing - 2))

/-- A text shows the lines of a source around a failing one, each in a row. Their numbers all fill one column, and
only the row of the failing line, which is given, begins with the mark. -/
structure ShowsAround (source : String) (failing : Nat) (line : List Char) (text : String) : Prop where
  one_le : 1 ≤ failing
  nth : (Text.linesOf (source.toList.splitOn '\n'))[failing - 1]? = some line
  rows : ∃ width,
    (∀ i ∈ excerptNumbers failing (Text.linesOf (source.toList.splitOn '\n')).length,
      ((toString i).toList.leftpad width ' ').length = width) ∧
    text.toList.splitOn '\n' =
      (excerptNumbers failing (Text.linesOf (source.toList.splitOn '\n')).length).map (fun i =>
        excerptRow failing width i (((Text.linesOf (source.toList.splitOn '\n'))[i - 1]?).getD [])) ++ [[]] ∧
    (text.toList.splitOn '\n').filter (·.head? == some '>') = [excerptRow failing width failing line]

theorem toList_excerptLine (failing width number : Nat) (text : String) :
    (excerptLine failing width number text).toList = excerptRow failing width number text.toList ++ ['\n'] := by
  unfold excerptLine excerptRow Text.alignRight List.leftpad
  generalize toString number = digits
  by_cases h : number = failing <;> simp [h, String.toList_append, String.length_toList]

theorem newline_not_mem_excerptRow {line : List Char} (h : '\n' ∉ line) (failing width number : Nat) :
    '\n' ∉ excerptRow failing width number line := by
  have hdigits : '\n' ∉ (toString number).toList := by
    have hlist : (toString number).toList = Nat.toDigits 10 number := Nat.toList_repr
    rw [hlist]
    intro hmem
    exact absurd (Nat.isDigit_of_mem_toDigits (by omega) (Nat.le_refl _) hmem) (by decide)
  unfold excerptRow List.leftpad
  by_cases hmark : number = failing <;> simp_all

/-- Rows that are written one after the other are found again between the newlines. -/
theorem splitOn_rows {rows : List (List Char)} (h : ∀ row ∈ rows, '\n' ∉ row) :
    (rows.flatMap (· ++ ['\n'])).splitOn '\n' = rows ++ [[]] := by
  induction rows with
  | nil => rfl
  | cons row rows ih =>
      obtain ⟨hrow, hrows⟩ := List.forall_mem_cons.mp h
      have hfirst : ∀ c ∈ row, (c == '\n') = false := fun c hc => by simpa using fun heq : c = '\n' => hrow (heq ▸ hc)
      rw [List.flatMap_cons, List.append_assoc, List.singleton_append, List.splitOn,
        List.splitOnP_append_cons_of_forall_mem hfirst _ (by decide), List.cons_append, ← ih hrows]
      rfl

theorem zipIdx_window (lines : List String) (first count : Nat) (hfirst : 1 ≤ first)
    (hcount : first + count ≤ lines.length + 1) : ((lines.drop (first - 1)).take count).zipIdx first =
      (List.range' first count).map fun i => ((lines[i - 1]?).getD "", i) := by
  refine List.ext_getElem ?_ fun k hk hk' => ?_
  · simp only [List.length_zipIdx, List.length_take, List.length_drop, List.length_map, List.length_range']
    omega
  · have hlt : first + k - 1 < lines.length := by
      simp only [List.length_map, List.length_range'] at hk'
      omega
    have hplace : first - 1 + k = first + k - 1 := by omega
    simp [hplace, List.getElem?_eq_getElem hlt]

/-- A smaller number has no more digits. -/
theorem length_toString_le {i j : Nat} (h : i ≤ j) : (toString i).length ≤ (toString j).length := by
  have hpos : 0 < (toString j).length := by
    have hlist : (toString j).toList = Nat.toDigits 10 j := Nat.toList_repr
    rw [← String.length_toList, hlist]
    exact List.length_pos_iff.mpr Nat.toDigits_ne_nil
  exact (Nat.length_repr_le_iff hpos).mpr (Nat.lt_of_le_of_lt h ((Nat.length_repr_le_iff hpos).mp (Nat.le_refl _)))

/-- The failing line is shown once. -/
theorem filter_excerptNumbers {failing count : Nat} (h : 1 ≤ failing) (hle : failing ≤ count) :
    (excerptNumbers failing count).filter (· == failing) = [failing] := by
  unfold excerptNumbers
  rw [List.filter_beq, List.count_eq_one_of_mem List.nodup_range' (List.mem_range'_1.mpr (by omega)),
    List.replicate_one]

/-- The excerpt around a line that there is consists of the rows of the lines around it. -/
theorem excerpt?_rows {source : String} {failing : Nat} (h : 1 ≤ failing) (hle : failing ≤ (Text.lines source).length) :
    ∃ text, excerpt? source failing = some text ∧
      text.toList = ((excerptNumbers failing (Text.lines source).length).map fun i =>
        excerptRow failing (toString (min (failing + 2) (Text.lines source).length)).length i
          (((Text.lines source)[i - 1]?).getD "").toList).flatMap (· ++ ['\n']) := by
  have hwindow := zipIdx_window (Text.lines source) (max (failing - excerptMargin) 1)
    (min (failing + excerptMargin) (Text.lines source).length + 1 - max (failing - excerptMargin) 1)
    (by omega) (by simp only [excerptMargin]; omega)
  unfold excerpt?
  simp only
  rw [if_neg (by omega), hwindow]
  refine ⟨_, rfl, ?_⟩
  rw [String.toList_join, List.map_map, List.flatMap_map, List.flatMap_map, excerptNumbers, Nat.max_comm]
  refine congrArg (List.flatMap · _) (funext fun i => ?_)
  exact toList_excerptLine _ _ _ _

/-- The row of the failing line is the one with the mark. -/
theorem head?_excerptRow (failing width i : Nat) (line : List Char) :
    ((excerptRow failing width i line).head? == some '>') = (i == failing) := by
  unfold excerptRow
  by_cases hi : i = failing <;> simp [hi]

/-- The excerpt around a line that there is. -/
theorem excerpt?_showsAround {source : String} {failing : Nat} (h : 1 ≤ failing) {line : List Char}
    (hline : (Text.lines source)[failing - 1]? = some (String.ofList line)) :
    ∃ text, excerpt? source failing = some text ∧ ShowsAround source failing line text := by
  have hlines := Text.lines_eq source
  have hcount : (Text.linesOf (source.toList.splitOn '\n')).length = (Text.lines source).length := by
    rw [← hlines, List.length_map]
  have hget : ∀ i, (((Text.linesOf (source.toList.splitOn '\n'))[i - 1]?).getD []) =
      (((Text.lines source)[i - 1]?).getD "").toList := by
    intro i
    rw [← hlines, List.getElem?_map]
    cases (Text.lines source)[i - 1]? <;> rfl
  have hnth : (Text.linesOf (source.toList.splitOn '\n'))[failing - 1]? = some line := by
    rw [← hlines, List.getElem?_map, hline, Option.map_some, String.toList_ofList]
  have hle : failing ≤ (Text.lines source).length := by
    have := (List.getElem?_eq_some_iff.mp hline).1
    omega
  let width := (toString (min (failing + 2) (Text.lines source).length)).length
  let rows := (excerptNumbers failing (Text.lines source).length).map fun i =>
    excerptRow failing width i (((Text.lines source)[i - 1]?).getD "").toList
  have hrows : ∀ row ∈ rows, '\n' ∉ row := by
    intro row hrow
    obtain ⟨i, -, rfl⟩ := List.mem_map.mp hrow
    refine newline_not_mem_excerptRow ?_ _ _ _
    cases hi : (Text.lines source)[i - 1]? with
    | none => exact List.not_mem_nil
    | some text => exact Text.newline_not_mem_linesFrom List.not_mem_nil text (List.mem_of_getElem? hi)
  obtain ⟨text, hsome, htext⟩ := excerpt?_rows h hle
  have hsplit : text.toList.splitOn '\n' = rows ++ [[]] := by rw [htext, splitOn_rows hrows]
  refine ⟨text, hsome, h, hnth, width, fun i hi => ?_, ?_, ?_⟩
  · rw [hcount, excerptNumbers, List.mem_range'_1] at hi
    rw [List.length_leftpad, String.length_toList]
    exact Nat.max_eq_left (length_toString_le (by omega))
  · rw [hsplit, hcount]
    simp only [hget]
    rfl
  · have hempty : ([[]] : List (List Char)).filter (·.head? == some '>') = [] := rfl
    rw [hsplit, List.filter_append, hempty, List.append_nil, List.filter_map]
    have hfilter : (excerptNumbers failing (Text.lines source).length).filter
        ((·.head? == some '>') ∘ fun i => excerptRow failing width i (((Text.lines source)[i - 1]?).getD "").toList) =
        [failing] := by
      rw [← filter_excerptNumbers h hle]
      exact List.filter_congr fun i _ => head?_excerptRow failing width i _
    rw [hfilter, List.map_singleton, hline, Option.getD_some, String.toList_ofList]

/-! ### The last character of a token -/

/-- A token that stands for a string whose end is missing. -/
def Token.Unterminated (t : Token) : Prop := t.kind = .error ∧ t.lexeme = "Unterminated string."

namespace Cursor

/-- Reading from the characters takes some of them, the last of which is no blank, or finds a string without its end. -/
def TakesLast (cs : List Char) (r : Token × Cursor) : Prop :=
  r.1.Unterminated ∨ ∃ front last, cs = front ++ last :: r.2.rest ∧ Scanner.isBlank last = false

variable {c : Char} {cs rest : List Char} {line : Nat}

theorem not_isBlank_of_isWordPart {d : Char} (h : isWordPart d = true) : Scanner.isBlank d = false := by
  by_contra hblank
  rw [Bool.not_eq_false] at hblank
  obtain ⟨hpart, -⟩ := of_isBlank hblank
  rw [hpart] at h
  cases h

theorem takesLast_take {text after : List Char} (kind : TokenKind) (htext : cs = text ++ after) (hne : text ≠ [])
    (hlast : ∀ d ∈ text, Scanner.isBlank d = false) (line : Nat) : TakesLast cs (take kind text after line) := by
  refine .inr ⟨text.dropLast, text.getLast hne, ?_, hlast _ (List.getLast_mem hne)⟩
  rw [htext, ← List.singleton_append, ← List.append_assoc, List.dropLast_append_getLast]
  rfl

theorem takesLast_takeOperator (alone withEqual : TokenKind) (hc : Scanner.isBlank c = false) (rest : List Char)
    (line : Nat) : TakesLast (c :: rest) (takeOperator alone withEqual c rest line) := by
  unfold takeOperator
  split
  · next rest => exact .inr ⟨[c], '=', rfl, by decide⟩
  · exact .inr ⟨[], c, rfl, hc⟩

theorem takesLast_takeString (rest : List Char) (line : Nat) : TakesLast ('"' :: rest) (takeString rest line) := by
  unfold takeString
  rw [List.span_eq_takeWhile_dropWhile]
  simp only
  split
  · next after hafter =>
      refine .inr ⟨'"' :: rest.takeWhile (· != '"'), '"', ?_, by decide⟩
      have hsplit := List.takeWhile_append_dropWhile (p := (· != '"')) (l := rest)
      rw [hafter] at hsplit
      exact congrArg ('"' :: ·) hsplit.symm
  · exact .inl ⟨rfl, rfl⟩

theorem takesLast_takeNumber (hc : Number.isDigit c = true) (rest : List Char) (line : Nat) :
    TakesLast (c :: rest) (takeNumber (c :: rest) line) := by
  have hdigit : ∀ {d : Char}, Number.isDigit d = true → Scanner.isBlank d = false := fun hd =>
    not_isBlank_of_isWordPart (Scanner.isWordPart_of_isDigit hd)
  have hwhole : ∀ cs : List Char, ∀ d ∈ cs.takeWhile Number.isDigit, Scanner.isBlank d = false := fun cs d hd =>
    hdigit (List.mem_takeWhile_imp hd)
  have hne : (c :: rest).takeWhile Number.isDigit ≠ [] := by
    rw [List.takeWhile_cons_of_pos hc]
    exact List.cons_ne_nil _ _
  have halone := takesLast_take .number List.takeWhile_append_dropWhile.symm hne (hwhole _) line
  unfold takeNumber
  rw [List.span_eq_takeWhile_dropWhile]
  simp only
  split
  · next after hafter =>
      rw [List.span_eq_takeWhile_dropWhile]
      split
      · exact halone
      · refine takesLast_take .number ?_ (List.append_ne_nil_of_left_ne_nil hne _) ?_ line
        · have hsplit := List.takeWhile_append_dropWhile (p := Number.isDigit) (l := c :: rest)
          rw [hafter] at hsplit
          rw [List.append_assoc, List.cons_append, List.takeWhile_append_dropWhile, hsplit]
        · exact List.forall_mem_append.mpr ⟨hwhole _, List.forall_mem_cons.mpr ⟨by decide, hwhole _⟩⟩
  · exact halone

theorem takesLast_takeWord (hc : isWordStart c = true) (rest : List Char) (line : Nat) :
    TakesLast (c :: rest) (takeWord (c :: rest) line) := by
  have hpart : isWordPart c = true := by rw [isWordPart, hc, Bool.true_or]
  unfold takeWord
  rw [List.span_eq_takeWhile_dropWhile]
  refine takesLast_take _ List.takeWhile_append_dropWhile.symm ?_ (fun d hd => ?_) line
  · rw [List.takeWhile_cons_of_pos hpart]
    exact List.cons_ne_nil _ _
  · exact not_isBlank_of_isWordPart (List.mem_takeWhile_imp hd)

theorem takesLast_read (hc : Scanner.isBlank c = false) (rest : List Char) (line : Nat) :
    TakesLast (c :: rest) (read c rest line) := by
  unfold read
  split
  case h_16 => exact takesLast_takeString rest line
  case h_17 =>
    split
    · next hdigit => exact takesLast_takeNumber hdigit rest line
    split
    · next hstart => exact takesLast_takeWord hstart rest line
    · exact .inr ⟨[], _, rfl, hc⟩
  all_goals first
    | exact .inr ⟨[], _, rfl, hc⟩
    | exact takesLast_takeOperator _ _ hc rest line

/-- The next token is the end, or its last character is no blank, or it is a string without its end. -/
theorem next_takesLast (ahead : List Char) (line : Nat) :
    (next ⟨ahead, line⟩).1.kind = .eof ∨ TakesLast ahead (next ⟨ahead, line⟩) := by
  obtain ⟨gap, hahead, -, -, hhead⟩ := skip_separates ahead line
  unfold next skipBlank
  simp only
  generalize skip false ahead line = c at hahead hhead ⊢
  obtain ⟨rest, line'⟩ := c
  cases rest with
  | nil => exact .inl rfl
  | cons c rest =>
      refine .inr ((takesLast_read (hhead c rest rfl) rest line').imp_right fun ⟨front, last, hrest, hlast⟩ => ?_)
      exact ⟨gap ++ front, last, by rw [hahead, List.append_assoc, ← hrest], hlast⟩

end Cursor

/-- The last character of a token's span. It is no blank, and the token tells how many newlines there are before it. -/
def Span.LastAt (chars : List Char) (u : Span) : Prop :=
  ∃ before last after, chars = before ++ last :: after ∧ Scanner.isBlank last = false ∧
    u.stop = (Text.encode (before ++ [last])).length ∧ u.token.line = 1 + before.count '\n'

/-- Each token has a last character, unless it is the end or a string without its end. -/
theorem Scanner.spans_last {budget : Nat} {s : Scanner} {before ahead : List Char} {line : Nat} {us : List Span}
    (h : s.Faces before ahead line) (hline : line = 1 + before.count '\n') (hus : s.spans budget = .ok us) :
    ∀ u ∈ us, u.token.kind = .eof ∨ u.token.Unterminated ∨ u.LastAt (before ++ ahead) := by
  induction budget generalizing s before ahead line us with
  | zero => cases hus
  | succ budget ih =>
      obtain ⟨s', gap, text, rest, hnext, hahead, hrest, -, -, hfaces, hlines, htoken, hcases⟩ := next_span h
      have hcount : (Cursor.next ⟨ahead, line⟩).2.line = 1 + (before ++ gap ++ text).count '\n' := by
        have happend : (before ++ (gap ++ text)).count '\n' = before.count '\n' + (gap ++ text).count '\n' :=
          List.count_append
        rw [hlines, hline, List.append_assoc, happend, Nat.add_assoc]
      have hfirst : (Cursor.next ⟨ahead, line⟩).1.kind = .eof ∨ (Cursor.next ⟨ahead, line⟩).1.Unterminated ∨
          Span.LastAt (before ++ ahead) ⟨(Cursor.next ⟨ahead, line⟩).1, s'.start, s'.current⟩ := by
        rcases Cursor.next_takesLast ahead line with hend | hopen | ⟨front, last, hfront, hlast⟩
        · exact .inl hend
        · exact .inr (.inl hopen)
        · have htaken : gap ++ text = front ++ [last] := by
            rw [hrest, hahead, ← List.append_assoc, ← List.singleton_append, ← List.append_assoc] at hfront
            exact List.append_cancel_right hfront
          refine .inr (.inr ⟨before ++ front, last, rest, ?_, hlast, ?_, ?_⟩)
          · rw [hfront, hrest, List.append_assoc]
          · show s'.current = _
            rw [hfaces.current, List.append_assoc, htaken, List.append_assoc]
          · have hne : last ≠ '\n' := by
              rintro rfl
              cases hlast
            rw [htoken, hcount, List.append_assoc, htaken, ← List.append_assoc, List.count_append,
              List.count_singleton, if_neg (by simpa using hne), Nat.add_zero]
      rw [spans_succ hnext] at hus
      split at hus
      · cases hus
        exact List.forall_mem_singleton.mpr hfirst
      · cases hmore : s'.spans budget with
        | error fault =>
            rw [hmore] at hus
            cases hus
        | ok more =>
            rw [hmore] at hus
            cases hus
            refine List.forall_mem_cons.mpr ⟨hfirst, ?_⟩
            have hall := ih hfaces hcount hmore
            rwa [List.append_assoc, List.append_assoc, ← hahead] at hall

/-- The scanner comes to the end of a source. Each token before the end has a last character, unless it is a string
without its end. -/
theorem Scanner.spans_lastAt (source : String) : ∃ us last,
    (∀ budget, source.length < budget → (ofSource source).spans budget = .ok (us ++ [last])) ∧
      tokenize source = (us ++ [last]).map Span.token ∧ last.token.kind = .eof ∧
      ∀ u ∈ us, ¬ u.token.Unterminated → u.LastAt source.toList := by
  have hfaces : (ofSource source).Faces [] source.toList 1 := ⟨Text.toList_toUTF8 source, rfl, rfl⟩
  obtain ⟨us, last, hspans, htokens, hfinal, hfilled, -⟩ :=
    spans_collect hfaces rfl (Nat.lt_succ_self _) ⟨.start, 0, 0⟩ rfl
  refine ⟨us, last, fun budget hbudget => spans_mono hspans ?_, htokens, hfinal.kind, fun u hu hopen => ?_⟩
  · rw [String.length_toList]
    exact hbudget
  · rcases spans_last hfaces rfl hspans u (List.mem_append_left _ hu) with hend | hunterminated | hlast
    · exact absurd hend (hfilled u hu).1
    · exact absurd hunterminated hopen
    · exact hlast

/-! ### The excerpt -/

/-- The excerpt around the last character of a token. -/
theorem Span.LastAt.showsAround {source : String} {u : Span} (h : u.LastAt source.toList) :
    ∃ before last after text, source.toList = before ++ last :: after ∧
      u.stop = (Text.encode (before ++ [last])).length ∧ last ∈ Text.lineAround before (last :: after) ∧
      excerpt? source u.token.line = some text ∧
      ShowsAround source u.token.line (Text.lineAround before (last :: after)) text := by
  obtain ⟨before, last, after, hsource, hlast, hstop, hline⟩ := h
  have hnth : (Text.lines source)[u.token.line - 1]? =
      some (String.ofList (Text.lineAround before (last :: after))) := by
    rw [hline, Nat.add_sub_cancel_left]
    exact Text.lines_around source (List.cons_ne_nil _ _) hsource
  obtain ⟨text, hsome, hshows⟩ := excerpt?_showsAround (by omega) hnth
  exact ⟨before, last, after, text, hsource, hstop, Text.mem_lineAround hlast before after, hsome, hshows⟩

/-- The excerpt around a token. -/
theorem exists_excerpt {source : String} {t : Token} (ht : t ∈ tokenize source) (hend : t.kind ≠ .eof)
    (hopen : ¬ t.Unterminated) :
    ∃ line text, excerpt? source t.line = some text ∧ ShowsAround source t.line line text := by
  obtain ⟨us, last, -, htokens, hlast, hshown⟩ := Scanner.spans_lastAt source
  rw [htokens, List.map_append, List.mem_append] at ht
  rcases ht with ht | ht
  · obtain ⟨u, hu, rfl⟩ := List.mem_map.mp ht
    obtain ⟨before, c, after, text, -, -, -, hsome, hshows⟩ := (hshown u hu hopen).showsAround
    exact ⟨_, text, hsome, hshows⟩
  · obtain rfl : t = last.token := List.mem_singleton.mp ht
    exact absurd hlast hend

/-- What points at a word or at an unexpected character is about neither the end nor a string without its end. -/
theorem Token.shown_of_place {t : Token} {d : Diagnostic} (hat : d.place = CompileState.placeOf t)
    (hwords : t.kind = .error → d.message = t.lexeme)
    (hplace : (∃ word, d.place = .lexeme word) ∨ d.place = .unnamed ∧ d.message = "Unexpected character.") :
    t.kind ≠ .eof ∧ ¬ t.Unterminated := by
  rcases hplace with ⟨word, hword⟩ | ⟨hunnamed, hmessage⟩
  · rw [hat] at hword
    refine ⟨fun hend => ?_, fun hopen => ?_⟩
    · rw [CompileState.placeOf, hend] at hword
      cases hword
    · rw [CompileState.placeOf, hopen.1] at hword
      cases hword
  · have herror : t.kind = .error := CompileState.placeOf_eq_unnamed.mp (hat.symm.trans hunnamed)
    refine ⟨fun hend => ?_, fun hopen => ?_⟩
    · rw [hend] at herror
      cases herror
    · exact absurd (hopen.2.symm.trans ((hwords herror).symm.trans hmessage)) (by decide)

/-- **The excerpt shows the line of a token.** For each token of a source but the end and a string without its end
there is an excerpt around the token's line. It shows the two lines before and the two lines behind it, as far as
there are any, each as it stands in the source, and marks one line only: the one that the last character of the token
is in. So a source that is refused is shown with the line of the first diagnostic marked, if that points at a word or
at an unexpected character. -/
theorem excerpt_marks_line (source : String) :
    (∃ us last, (∀ budget, source.length < budget → (Scanner.ofSource source).spans budget = .ok (us ++ [last])) ∧
      last.token.kind = .eof ∧ ∀ u ∈ us, ¬ u.token.Unterminated → ∃ before c after text,
        source.toList = before ++ c :: after ∧ u.stop = (Text.encode (before ++ [c])).length ∧
        c ∈ Text.lineAround before (c :: after) ∧ excerpt? source u.token.line = some text ∧
        ShowsAround source u.token.line (Text.lineAround before (c :: after)) text) ∧
    ∀ heap printCode journal c e, compile source heap printCode journal = .ok c → c.result = .error e →
      ∀ d, e.diagnostics.head? = some d →
        (∃ word, d.place = .lexeme word) ∨ d.place = .unnamed ∧ d.message = "Unexpected character." →
        ∃ line text, (LoxError.compile e).render source .text = (LoxError.compile e).text ++ "\n" ++ text ∧
          ShowsAround source d.line line text := by
  obtain ⟨us, last, hspans, -, hlast, hshown⟩ := Scanner.spans_lastAt source
  refine ⟨⟨us, last, hspans, hlast, fun u hu hopen => (hshown u hu hopen).showsAround⟩, ?_⟩
  intro heap printCode journal c e hc he d hd hplace
  obtain ⟨t, ht, hline, hat, hwords⟩ := diagnostic_token hc he d (List.mem_of_mem_head? hd)
  obtain ⟨hend, hopen⟩ := Token.shown_of_place hat hwords hplace
  obtain ⟨line, text, hsome, hshows⟩ := exists_excerpt ht hend hopen
  have hfirst : (LoxError.compile e).line? = some t.line := by
    rw [LoxError.line?, CompileError.line?, hd, Option.map_some, hline]
  refine ⟨line, text, ?_, hline ▸ hshows⟩
  rw [LoxError.render, hfirst, Option.bind_some, hsome, Option.getD_some]

/-- A string over two lines, whose first line ends in a carriage return and a newline. -/
example : excerpt? "print \"one\r\ntwo\" +\r\nnil;" 2 = some "  1 | print \"one\n> 2 | two\" +\n  3 | nil;\n" := by
  decide +kernel

end Lox
