import Lox.Fault
import Lox.Proofs.Token
import Lox.Text.Utf8

/-! The scanner, byte by byte. A source is a sequence of bytes here, with two offsets into it: where the token began
and how far the scanner has come. A lexeme is cut out of the bytes, which makes no sense unless both ends lie between
characters. They always do, and what is found this way is what `Cursor` finds among the characters: the tests that
the scanner applies to a byte come to the same on all bytes of a longer character. -/

namespace Lox

namespace Text

/-- The bytes of characters. -/
def encode (cs : List Char) : List UInt8 := cs.flatMap String.utf8EncodeChar

/-- The character whose number is a byte. -/
def latin (b : UInt8) : Char := Char.ofNat b.toNat

/-- Whether an offset lies between two characters, or at one of the ends. -/
def isBoundary (bytes : List UInt8) (offset : Nat) : Bool :=
  offset == 0 || offset == bytes.length || (bytes[offset]?).any (!continues ·)

/-- The text between two offsets, which must be in order and lie between characters. -/
def slice (bytes : List UInt8) (start stop : Nat) : Except Fault String :=
  if start ≤ stop && isBoundary bytes start && isBoundary bytes stop then
    match ofUtf8? ((bytes.take stop).drop start).toByteArray with
    | some text => .ok text
    | none => .error .outOfRange
  else .error .outOfRange

/-! ### Bytes and characters -/

@[simp] theorem encode_nil : encode [] = [] := rfl

theorem encode_append (cs ds : List Char) : encode (cs ++ ds) = encode cs ++ encode ds := List.flatMap_append

theorem encode_cons (c : Char) (cs : List Char) : encode (c :: cs) = String.utf8EncodeChar c ++ encode cs :=
  List.flatMap_cons

/-- The bytes of a text are those of its characters. -/
theorem toList_toUTF8 (text : String) : text.toUTF8.data.toList = encode text.toList := by
  conv => lhs; rw [← String.ofList_toList (s := text)]
  exact List.toList_data_toByteArray

/-- A character with a small number is its own byte. -/
theorem bytes_low {c : Char} (h : c.toNat < 128) :
    String.utf8EncodeChar c = [c.toNat.toUInt8] ∧ c.toNat.toUInt8.toNat = c.toNat := by
  refine ⟨?_, ?_⟩
  · rw [String.utf8EncodeChar, if_pos (show c.val.toNat ≤ 127 from Nat.le_of_lt_succ h)]
    rfl
  · rw [Nat.toUInt8_eq, UInt8.toNat_ofNat']
    omega

theorem latin_low {c : Char} (h : c.toNat < 128) : latin c.toNat.toUInt8 = c := by
  rw [latin, (bytes_low h).2, Char.ofNat_toNat]

theorem toNat_latin (b : UInt8) : (latin b).toNat = b.toNat := by
  have hvalid : b.toNat.isValidChar := .inl (Nat.lt_trans b.toNat_lt (by decide))
  rw [latin, Char.ofNat, dif_pos hvalid]
  exact UInt32.toNat_ofNatLT

/-- Where a character with a larger number begins and goes on can be told from its bytes. -/
theorem bytes_high {c : Char} (h : 128 ≤ c.toNat) : ∃ first more, String.utf8EncodeChar c = first :: more ∧
    continues first = false ∧ 128 ≤ first.toNat ∧ ∀ b ∈ more, continues b = true := by
  have hv : ¬ c.val.toNat ≤ 127 := Nat.not_le_of_lt h
  have hnext : ∀ k, continues (UInt8.ofNat (k % 64 + 128)) = true := by
    intro k
    have : (UInt8.ofNat (k % 64 + 128)).toNat = k % 64 + 128 := by
      rw [UInt8.toNat_ofNat']
      omega
    simp only [continues, within, Bool.and_eq_true, decide_eq_true_eq, UInt8.le_iff_toNat_le, this]
    exact ⟨Nat.le_add_left _ _, Nat.add_le_add_right (Nat.le_of_lt_succ (Nat.mod_lt k (by decide))) 128⟩
  have hlead : ∀ k low size, 192 ≤ low → 0 < size → low + size ≤ 256 →
      continues (UInt8.ofNat (k % size + low)) = false ∧ 128 ≤ (UInt8.ofNat (k % size + low)).toNat := by
    intro k low size hlow hpos hsize
    have hlt := Nat.mod_lt k hpos
    have : (UInt8.ofNat (k % size + low)).toNat = k % size + low := by
      rw [UInt8.toNat_ofNat']
      omega
    simp only [continues, within, Bool.and_eq_false_iff, decide_eq_false_iff_not, UInt8.le_iff_toNat_le, this]
    refine ⟨.inr fun hle => ?_, by omega⟩
    have : k % size + low ≤ 191 := hle
    omega
  have hnone : ∀ b ∈ ([] : List UInt8), continues b = true := fun b hb => absurd hb List.not_mem_nil
  rw [String.utf8EncodeChar]
  simp only [if_neg hv]
  split
  · obtain ⟨h₁, h₂⟩ := hlead (c.val.toNat / 64) 192 32 (by omega) (by omega) (by omega)
    exact ⟨_, _, rfl, h₁, h₂, List.forall_mem_cons.mpr ⟨hnext _, hnone⟩⟩
  split
  · obtain ⟨h₁, h₂⟩ := hlead (c.val.toNat / 4096) 224 16 (by omega) (by omega) (by omega)
    exact ⟨_, _, rfl, h₁, h₂, List.forall_mem_cons.mpr ⟨hnext _, List.forall_mem_cons.mpr ⟨hnext _, hnone⟩⟩⟩
  · obtain ⟨h₁, h₂⟩ := hlead (c.val.toNat / 262144) 240 8 (by omega) (by omega) (by omega)
    exact ⟨_, _, rfl, h₁, h₂, List.forall_mem_cons.mpr ⟨hnext _, List.forall_mem_cons.mpr ⟨hnext _,
      List.forall_mem_cons.mpr ⟨hnext _, hnone⟩⟩⟩⟩

theorem toNat_of_continues {b : UInt8} (h : continues b = true) : 128 ≤ b.toNat := by
  simp only [continues, within, Bool.and_eq_true, decide_eq_true_eq, UInt8.le_iff_toNat_le] at h
  exact h.1

/-- No byte of a character with a small number, and no first byte of any other, continues a character. -/
theorem first_byte (c : Char) : ∃ first more, String.utf8EncodeChar c = first :: more ∧ continues first = false ∧
    ∀ b ∈ more, continues b = true := by
  by_cases hc : c.toNat < 128
  · obtain ⟨hbytes, hnat⟩ := bytes_low hc
    refine ⟨_, [], hbytes, ?_, fun b hb => absurd hb List.not_mem_nil⟩
    refine Bool.eq_false_iff.mpr fun hcont => ?_
    have := toNat_of_continues hcont
    omega
  · obtain ⟨first, more, hbytes, hcont, -, hmore⟩ := bytes_high (Nat.le_of_not_lt hc)
    exact ⟨first, more, hbytes, hcont, hmore⟩

/-- Between two characters there is a boundary. -/
theorem isBoundary_encode (cs ds : List Char) : isBoundary (encode (cs ++ ds)) (encode cs).length = true := by
  unfold isBoundary
  rw [encode_append]
  cases ds with
  | nil => simp
  | cons d ds =>
      obtain ⟨first, more, hbytes, hcont, -⟩ := first_byte d
      rw [encode_cons, hbytes]
      simp [hcont]

/-- What lies between two characters can be cut out. -/
theorem slice_encode (before text after : List Char) :
    slice (encode (before ++ text ++ after)) (encode before).length (encode (before ++ text)).length =
      .ok (String.ofList text) := by
  have hle : (encode before).length ≤ (encode (before ++ text)).length := by
    rw [encode_append, List.length_append]
    exact Nat.le_add_right _ _
  have hcut : ((encode (before ++ text ++ after)).take (encode (before ++ text)).length).drop (encode before).length =
      encode text := by
    rw [encode_append (before ++ text), List.take_left' rfl, encode_append before, List.drop_left' rfl]
  have hread : ofUtf8? (encode text).toByteArray = some (String.ofList text) := dif_pos (String.ofList text).isValidUTF8
  have hbound : isBoundary (encode (before ++ text ++ after)) (encode before).length = true := by
    rw [List.append_assoc]
    exact isBoundary_encode before (text ++ after)
  unfold slice
  rw [hcut, hread, hbound, isBoundary_encode, decide_eq_true hle]
  rfl

/-- A test that comes to the same for all characters with large numbers. -/
def Uniform (q : Char → Bool) : Prop := ∃ v, ∀ c : Char, 128 ≤ c.toNat → q c = v

/-- Such a test can be applied to the bytes. -/
theorem takeWhile_encode {q : Char → Bool} (hq : Uniform q) (cs : List Char) :
    (encode cs).takeWhile (fun b => q (latin b)) = encode (cs.takeWhile q) := by
  obtain ⟨v, hv⟩ := hq
  induction cs with
  | nil => rfl
  | cons c cs ih =>
      rw [encode_cons]
      by_cases hc : c.toNat < 128
      · rw [(bytes_low hc).1]
        simp only [List.singleton_append, List.takeWhile_cons, latin_low hc]
        split
        · rw [ih, encode_cons, (bytes_low hc).1, List.singleton_append]
        · rfl
      · obtain ⟨first, more, hbytes, -, hfirst, hmore⟩ := bytes_high (Nat.le_of_not_lt hc)
        have hall : ∀ b ∈ first :: more, q (latin b) = v := by
          intro b hb
          refine hv _ ?_
          rw [toNat_latin]
          rcases List.mem_cons.mp hb with rfl | hb
          · exact hfirst
          · exact toNat_of_continues (hmore b hb)
        have hqc : q c = v := hv c (Nat.le_of_not_lt hc)
        rw [hbytes, List.takeWhile_cons, hqc]
        cases v with
        | true =>
            rw [List.takeWhile_append_of_pos hall, ih, if_pos rfl, encode_cons, hbytes]
        | false =>
            rw [List.cons_append, List.takeWhile_cons, hall first (List.mem_cons_self ..)]
            rfl

/-- A character with a small number is found among the bytes. -/
theorem count_encode {d : Char} (hd : d.toNat < 128) (cs : List Char) :
    (encode cs).count d.toNat.toUInt8 = cs.count d := by
  induction cs with
  | nil => rfl
  | cons c cs ih =>
      have hself := (bytes_low hd).2
      rw [encode_cons, List.count_append, ih, List.count_cons]
      by_cases hc : c.toNat < 128
      · obtain ⟨hbytes, hnat⟩ := bytes_low hc
        rw [hbytes, List.count_singleton]
        by_cases hcd : c = d
        · simp [hcd, Nat.add_comm]
        · have hne : c.toNat.toUInt8 ≠ d.toNat.toUInt8 := by
            intro heq
            have : c.toNat = d.toNat := by rw [← hnat, heq, hself]
            exact hcd (Char.toNat_inj.mp this)
          simp [hcd, hne]
      · obtain ⟨first, more, hbytes, -, hfirst, hmore⟩ := bytes_high (Nat.le_of_not_lt hc)
        have hnot : d.toNat.toUInt8 ∉ first :: more := by
          intro hmem
          rcases List.mem_cons.mp hmem with rfl | hmem
          · omega
          · have := toNat_of_continues (hmore _ hmem)
            omega
        have hcd : c ≠ d := fun heq => hc (heq ▸ hd)
        rw [hbytes, List.count_eq_zero_of_not_mem hnot]
        simp [hcd]

end Text

/-- The bytes of a source with the two offsets. -/
structure Scanner where
  source : List UInt8
  /-- Where the token begins. -/
  start : Nat := 0
  /-- The offset of the next byte. -/
  current : Nat := 0
  line : Nat := 1

namespace Scanner

/-- The scanner at the beginning of a source. -/
def ofSource (source : String) : Scanner := { source := source.toUTF8.data.toList }

/-- Whether all bytes have been passed. -/
def atEnd (s : Scanner) : Bool := s.source.length ≤ s.current

/-- The byte so far ahead, which is zero behind the end. -/
def look (s : Scanner) (ahead : Nat) : Char := Text.latin ((s.source[s.current + ahead]?).getD 0)

/-- Takes the next byte, which must be there. -/
def advance (s : Scanner) : Except Fault (Char × Scanner) :=
  match s.source[s.current]? with
  | some b => .ok (Text.latin b, { s with current := s.current + 1 })
  | none => .error .outOfRange

/-- Passes a byte, and counts it if it is a newline. -/
def pass (s : Scanner) : Scanner :=
  { s with current := s.current + 1, line := if s.look 0 = '\n' then s.line + 1 else s.line }

/-- Passes all bytes of one kind. -/
def passWhile (q : Char → Bool) (s : Scanner) : Scanner :=
  if s.current < s.source.length ∧ q (s.look 0) then passWhile q s.pass else s
termination_by s.source.length - s.current
decreasing_by simp only [pass]; omega

theorem passWhile_eq (q : Char → Bool) (s : Scanner) :
    s.passWhile q = { s with
      current := s.current + ((s.source.drop s.current).takeWhile fun b => q (Text.latin b)).length
      line := s.line + ((s.source.drop s.current).takeWhile fun b => q (Text.latin b)).count '\n'.toNat.toUInt8 } := by
  fun_induction passWhile q s with
  | case1 s h ih =>
      obtain ⟨hlt, hq⟩ := h
      have hlook : s.look 0 = Text.latin s.source[s.current] := by simp [look, hlt]
      have hnewline : Text.latin s.source[s.current] = '\n' ↔ s.source[s.current] = '\n'.toNat.toUInt8 := by
        refine ⟨fun heq => UInt8.toNat_inj.mp ?_, fun heq => by rw [heq]; rfl⟩
        rw [← Text.toNat_latin, heq]
        rfl
      rw [hlook] at hq
      rw [ih, List.drop_eq_getElem_cons hlt, List.takeWhile_cons_of_pos (p := fun b => q (Text.latin b)) hq]
      simp only [pass, hlook, hnewline, List.length_cons, List.count_cons, beq_iff_eq]
      split <;> simp only [mk.injEq, true_and] <;> omega
  | case2 s h =>
      have hnil : (s.source.drop s.current).takeWhile (fun b => q (Text.latin b)) = [] := by
        by_cases hlt : s.current < s.source.length
        · rw [List.drop_eq_getElem_cons hlt, List.takeWhile_cons_of_neg]
          intro hq
          exact h ⟨hlt, by simpa [look, hlt] using hq⟩
        · rw [List.drop_eq_nil_of_le (Nat.le_of_not_lt hlt)]
          rfl
      rw [hnil]
      rfl

/-- Whether a character separates words. -/
def isBlank (c : Char) : Bool := c = ' ' || c = '\r' || c = '\t' || c = '\n'

/-- Passes blanks and comments. -/
def skipBlank (s : Scanner) : Scanner :=
  if s.atEnd then s
  else if isBlank (s.look 0) then skipBlank s.pass
  else if s.look 0 = '/' ∧ s.look 1 = '/' then skipBlank (s.pass.passWhile (· != '\n'))
  else s
termination_by s.source.length - s.current
decreasing_by
  · next hend _ =>
    simp only [atEnd, decide_eq_true_eq] at hend
    simp only [pass]
    omega
  · next hend _ _ =>
    simp only [atEnd, decide_eq_true_eq] at hend
    simp only [passWhile_eq, pass]
    omega

/-- The token that ends here. -/
def finish (kind : TokenKind) (s : Scanner) : Except Fault (Token × Scanner) := do
  let lexeme ← Text.slice s.source s.start s.current
  return (⟨kind, lexeme, s.line⟩, s)

/-- A message in place of a token. -/
def refuse (message : String) (s : Scanner) : Except Fault (Token × Scanner) := .ok (⟨.error, message, s.line⟩, s)

/-- An operator that may be followed by an equals sign. -/
def operator (alone withEqual : TokenKind) (s : Scanner) : Except Fault (Token × Scanner) :=
  if s.look 0 = '=' then s.pass.finish withEqual else s.finish alone

/-- A string behind its opening quote. -/
def string (s : Scanner) : Except Fault (Token × Scanner) :=
  let s := s.passWhile (· != '"')
  if s.atEnd then s.refuse "Unterminated string." else s.pass.finish .string

/-- A number behind its first digit. -/
def number (s : Scanner) : Except Fault (Token × Scanner) :=
  let s := s.passWhile Number.isDigit
  if s.look 0 = '.' ∧ Number.isDigit (s.look 1) then (s.pass.passWhile Number.isDigit).finish .number
  else s.finish .number

/-- A name or a reserved word behind its first letter. -/
def word (s : Scanner) : Except Fault (Token × Scanner) := do
  let s := s.passWhile Cursor.isWordPart
  let text ← Text.slice s.source s.start s.current
  s.finish (.ofWord text)

/-- The token behind its first byte. -/
def read (c : Char) (s : Scanner) : Except Fault (Token × Scanner) :=
  match c with
  | '(' => s.finish .leftParen
  | ')' => s.finish .rightParen
  | '{' => s.finish .leftBrace
  | '}' => s.finish .rightBrace
  | ';' => s.finish .semicolon
  | ',' => s.finish .comma
  | '.' => s.finish .dot
  | '-' => s.finish .minus
  | '+' => s.finish .plus
  | '/' => s.finish .slash
  | '*' => s.finish .star
  | '!' => s.operator .bang .bangEqual
  | '=' => s.operator .equal .equalEqual
  | '<' => s.operator .less .lessEqual
  | '>' => s.operator .greater .greaterEqual
  | '"' => s.string
  | c =>
    if Number.isDigit c then s.number
    else if Cursor.isWordStart c then s.word
    else (s.passWhile fun c => Text.continues c.toNat.toUInt8).refuse "Unexpected character."

/-- The next token, and the scanner behind it. -/
def next (s : Scanner) : Except Fault (Token × Scanner) := do
  let s := s.skipBlank
  let s := { s with start := s.current }
  if s.atEnd then s.finish .eof
  else
    let (c, s) ← s.advance
    s.read c

/-- So many tokens in a row. -/
def scan : Nat → Scanner → Except Fault (List Token)
  | 0, _ => return []
  | count + 1, s => do
    let (token, s) ← s.next
    return token :: (← scan count s)

/-! ### Among the characters -/

/-- The scanner has passed the bytes of some characters and faces those of the others. -/
structure Faces (s : Scanner) (before ahead : List Char) (line : Nat) : Prop where
  source : s.source = Text.encode (before ++ ahead)
  current : s.current = (Text.encode before).length
  line : s.line = line

namespace Faces

variable {s : Scanner} {before ahead : List Char} {line : Nat}

theorem drop (h : s.Faces before ahead line) : s.source.drop s.current = Text.encode ahead := by
  rw [h.source, h.current, Text.encode_append, List.drop_left' rfl]

theorem look (h : s.Faces before ahead line) (k : Nat) :
    s.look k = Text.latin (((Text.encode ahead)[k]?).getD 0) := by
  rw [Scanner.look, ← h.drop, List.getElem?_drop]

theorem atEnd (h : s.Faces before ahead line) : s.atEnd = ahead.isEmpty := by
  rw [Scanner.atEnd, h.source, h.current, Text.encode_append, List.length_append]
  cases ahead with
  | nil => simp
  | cons c cs =>
      obtain ⟨first, more, hbytes, -⟩ := Text.first_byte c
      simp [Text.encode_cons, hbytes]

/-- A test that no large number and not zero passes can be applied to the byte ahead. -/
theorem look_zero {q : Char → Bool} (h : s.Faces before ahead line) (hhigh : ∀ c : Char, 128 ≤ c.toNat → q c = false)
    (hzero : q (Text.latin 0) = false) : q (s.look 0) = ahead.head?.any q := by
  rw [h.look]
  cases ahead with
  | nil => exact hzero
  | cons c cs =>
      rw [Text.encode_cons]
      by_cases hc : c.toNat < 128
      · rw [(Text.bytes_low hc).1]
        simp [Text.latin_low hc]
      · obtain ⟨first, more, hbytes, -, hfirst, -⟩ := Text.bytes_high (Nat.le_of_not_lt hc)
        rw [hbytes]
        simp only [List.cons_append, List.getElem?_cons_zero, Option.getD_some, List.head?_cons, Option.any_some]
        rw [hhigh _ (by rw [Text.toNat_latin]; exact hfirst), hhigh c (Nat.le_of_not_lt hc)]

/-- A plain character can be looked for in the byte ahead. -/
theorem look_zero_iff (h : s.Faces before ahead line) {d : Char} (hd : d.toNat < 128) (hpos : d ≠ Text.latin 0) :
    s.look 0 = d ↔ ahead.head? = some d := by
  have htest : (s.look 0 == d) = ahead.head?.any (· == d) := h.look_zero (q := (· == d))
    (fun c hc => beq_eq_false_iff_ne.mpr fun heq => by rw [heq] at hc; omega) (beq_eq_false_iff_ne.mpr hpos.symm)
  rw [← beq_iff_eq, htest, Option.any_eq_true]
  simp

theorem pass {c : Char} {cs : List Char} (h : s.Faces before (c :: cs) line) (hc : c.toNat < 128) :
    s.pass.Faces (before ++ [c]) cs (if c = '\n' then line + 1 else line) := by
  refine ⟨?_, ?_, ?_⟩
  · rw [List.append_assoc]
    exact h.source
  · rw [Text.encode_append, List.length_append, ← h.current, Text.encode_cons, (Text.bytes_low hc).1]
    rfl
  · have hlook : s.look 0 = c := by
      rw [h.look, Text.encode_cons, (Text.bytes_low hc).1]
      exact Text.latin_low hc
    rw [Scanner.pass, hlook, h.line]

theorem passWhile {q : Char → Bool} (h : s.Faces before ahead line) (hq : Text.Uniform q) :
    (s.passWhile q).Faces (before ++ ahead.takeWhile q) (ahead.dropWhile q)
      (line + (ahead.takeWhile q).count '\n') := by
  rw [passWhile_eq, h.drop, Text.takeWhile_encode hq, Text.count_encode (by decide)]
  refine ⟨?_, ?_, ?_⟩
  · rw [List.append_assoc, List.takeWhile_append_dropWhile]
    exact h.source
  · rw [Text.encode_append, List.length_append, ← h.current]
  · rw [h.line]

end Faces

theorem start_passWhile (q : Char → Bool) (s : Scanner) : (s.passWhile q).start = s.start := by rw [passWhile_eq]

/-- The scanner finds the same token, and faces the same characters behind it. -/
def Finds (x : Except Fault (Token × Scanner)) (r : Token × Cursor) : Prop :=
  ∃ s before, x = .ok (r.1, s) ∧ s.Faces before r.2.rest r.2.line

variable {s : Scanner} {before text ahead : List Char} {line : Nat}

/-- What has been passed since the start is the lexeme. -/
theorem finish_eq (h : s.Faces (before ++ text) ahead line) (hs : s.start = (Text.encode before).length)
    (kind : TokenKind) : s.finish kind = .ok (⟨kind, String.ofList text, line⟩, s) := by
  rw [finish, h.source, hs, h.current, Text.slice_encode, h.line]
  rfl

theorem finds_finish (h : s.Faces (before ++ text) ahead line) (hs : s.start = (Text.encode before).length)
    (kind : TokenKind) : Finds (s.finish kind) (Cursor.take kind text ahead line) :=
  ⟨s, _, finish_eq h hs kind, h⟩

theorem finds_refuse (h : s.Faces before ahead line) (message : String) :
    Finds (s.refuse message) (Cursor.refuse message ahead line) :=
  ⟨s, _, by rw [refuse, h.line]; rfl, h⟩

theorem finds_operator {c : Char} (h : s.Faces (before ++ [c]) ahead line)
    (hs : s.start = (Text.encode before).length) (alone withEqual : TokenKind) :
    Finds (s.operator alone withEqual) (Cursor.takeOperator alone withEqual c ahead line) := by
  have hlook := h.look_zero_iff (d := '=') (by decide) (by decide)
  unfold operator
  by_cases hhead : ahead.head? = some '='
  · obtain ⟨rest, rfl⟩ := List.head?_eq_some_iff.mp hhead
    rw [if_pos (hlook.mpr hhead)]
    have hpass := h.pass (by decide)
    rw [List.append_assoc] at hpass
    exact finds_finish hpass hs withEqual
  · rw [if_neg fun heq => hhead (hlook.mp heq)]
    have halone : Cursor.takeOperator alone withEqual c ahead line = Cursor.take alone [c] ahead line := by
      unfold Cursor.takeOperator
      split
      · exact absurd rfl hhead
      · rfl
    rw [halone]
    exact finds_finish h hs alone

theorem finds_string (h : s.Faces (before ++ ['"']) ahead line) (hs : s.start = (Text.encode before).length) :
    Finds s.string (Cursor.takeString ahead line) := by
  have hbody := h.passWhile (q := (· != '"'))
    ⟨true, fun c hc => bne_iff_ne.mpr fun heq => by rw [heq] at hc; exact absurd hc (by decide)⟩
  unfold string Cursor.takeString
  rw [List.span_eq_takeWhile_dropWhile]
  simp only [hbody.atEnd]
  cases hafter : ahead.dropWhile (· != '"') with
  | nil =>
      rw [hafter] at hbody
      exact finds_refuse hbody _
  | cons d ds =>
      have hquote : d = '"' := by
        have := List.head?_dropWhile_not (· != '"') ahead
        simpa [hafter] using this
      subst hquote
      rw [hafter] at hbody
      have hpass := hbody.pass (by decide)
      rw [List.append_assoc, List.append_assoc] at hpass
      exact finds_finish hpass (by rw [← hs]; exact start_passWhile _ s) .string

/-- Digits and letters have small numbers, and are no newlines. -/
theorem isWordPart_low {c : Char} (h : Cursor.isWordPart c = true) : c.toNat < 128 ∧ c ≠ '\n' := by
  suffices hrange : 32 < c.toNat ∧ c.toNat < 128 from
    ⟨hrange.2, fun heq => absurd hrange.1 (by rw [heq]; decide)⟩
  have hbetween : ∀ {a b : Char}, a ≤ c → c ≤ b → 32 < a.toNat → b.toNat < 128 → 32 < c.toNat ∧ c.toNat < 128 :=
    fun ha hb ha' hb' => ⟨Nat.lt_of_lt_of_le ha' ha, Nat.lt_of_le_of_lt hb hb'⟩
  have hparts : ((decide ('A' ≤ c ∧ c ≤ 'Z') || (decide ('a' ≤ c) && decide (c ≤ 'z'))) || c == '_' ||
      (decide ('0' ≤ c) && decide (c ≤ '9'))) = true := h
  simp only [Bool.or_eq_true, Bool.and_eq_true, decide_eq_true_eq, beq_iff_eq] at hparts
  rcases hparts with ((⟨ha, hb⟩ | ⟨ha, hb⟩) | rfl) | ⟨ha, hb⟩
  · exact hbetween (a := 'A') (b := 'Z') ha hb (by decide) (by decide)
  · exact hbetween (a := 'a') (b := 'z') ha hb (by decide) (by decide)
  · decide
  · exact hbetween ha hb (by decide) (by decide)

theorem not_isWordPart {c : Char} (h : 128 ≤ c.toNat) : Cursor.isWordPart c = false :=
  Bool.eq_false_iff.mpr fun hpart => absurd (isWordPart_low hpart).1 (Nat.not_lt_of_le h)

theorem not_isDigit {c : Char} (h : 128 ≤ c.toNat) : Number.isDigit c = false := by
  have := not_isWordPart h
  rw [Cursor.isWordPart, Bool.or_eq_false_iff] at this
  exact this.2

theorem isWordPart_of_isDigit {c : Char} (h : Number.isDigit c = true) : Cursor.isWordPart c = true := by
  rw [Cursor.isWordPart, h, Bool.or_true]

/-- A run of digits or of letters has no newline in it. -/
theorem Faces.passWord {q : Char → Bool} (h : s.Faces before ahead line)
    (hq : ∀ c, q c = true → Cursor.isWordPart c = true) :
    (s.passWhile q).Faces (before ++ ahead.takeWhile q) (ahead.dropWhile q) line := by
  have huniform : Text.Uniform q := ⟨false, fun c hc => Bool.eq_false_iff.mpr fun hqc =>
    absurd ((not_isWordPart hc).symm.trans (hq c hqc)) (by decide)⟩
  have hcount : (ahead.takeWhile q).count '\n' = 0 :=
    List.count_eq_zero_of_not_mem fun hmem => (isWordPart_low (hq _ (List.mem_takeWhile_imp hmem))).2 rfl
  have hpass := h.passWhile huniform
  rwa [hcount] at hpass

theorem finds_number {c : Char} (hc : Number.isDigit c = true) (h : s.Faces (before ++ [c]) ahead line)
    (hs : s.start = (Text.encode before).length) : Finds s.number (Cursor.takeNumber (c :: ahead) line) := by
  have hwhole := h.passWord (q := Number.isDigit) fun d => isWordPart_of_isDigit
  have hstart : (s.passWhile Number.isDigit).start = (Text.encode before).length := by rw [start_passWhile, hs]
  rw [List.append_assoc] at hwhole
  unfold number Cursor.takeNumber
  rw [List.span_eq_takeWhile_dropWhile, List.takeWhile_cons_of_pos hc, List.dropWhile_cons_of_pos hc]
  simp only
  generalize ahead.takeWhile Number.isDigit = whole at hwhole ⊢
  generalize ahead.dropWhile Number.isDigit = rest at hwhole ⊢
  have halone : Finds ((s.passWhile Number.isDigit).finish .number) (Cursor.take .number (c :: whole) rest line) :=
    finds_finish hwhole hstart .number
  have hdot := hwhole.look_zero_iff (d := '.') (by decide) (by decide)
  by_cases hhead : rest.head? = some '.'
  · obtain ⟨after, rfl⟩ := List.head?_eq_some_iff.mp hhead
    have hpoint := hwhole.pass (by decide)
    have hplaces := hpoint.passWord (q := Number.isDigit) fun d => isWordPart_of_isDigit
    have hdigit : Number.isDigit ((s.passWhile Number.isDigit).look 1) = after.head?.any Number.isDigit :=
      hpoint.look_zero (fun _ => not_isDigit) (by decide)
    simp only [List.span_eq_takeWhile_dropWhile, hdigit, hdot.mpr hhead, true_and]
    cases after with
    | nil => exact halone
    | cons d ds =>
        by_cases hd : Number.isDigit d = true
        · rw [List.takeWhile_cons_of_pos hd] at hplaces ⊢
          rw [List.head?_cons, Option.any_some, if_pos hd]
          rw [List.append_assoc, List.append_assoc] at hplaces
          exact finds_finish hplaces (by rw [start_passWhile]; exact hstart) .number
        · rw [List.head?_cons, Option.any_some, if_neg hd, List.takeWhile_cons_of_neg hd]
          exact halone
  · rw [if_neg fun hp => hhead (hdot.mp hp.1)]
    split
    · exact absurd rfl hhead
    · exact halone

theorem finds_word {c : Char} (hc : Cursor.isWordStart c = true) (h : s.Faces (before ++ [c]) ahead line)
    (hs : s.start = (Text.encode before).length) : Finds s.word (Cursor.takeWord (c :: ahead) line) := by
  have hwhole := h.passWord fun d hd => hd
  have hstart : (s.passWhile Cursor.isWordPart).start = (Text.encode before).length := by rw [start_passWhile, hs]
  have hpart : Cursor.isWordPart c = true := by rw [Cursor.isWordPart, hc, Bool.true_or]
  rw [List.append_assoc] at hwhole
  unfold word Cursor.takeWord
  rw [List.span_eq_takeWhile_dropWhile, List.takeWhile_cons_of_pos hpart, List.dropWhile_cons_of_pos hpart]
  simp only
  rw [hwhole.source, hstart, hwhole.current, Text.slice_encode]
  exact finds_finish hwhole hstart _

/-- Nothing but the first byte of an unknown character has been passed, and the bytes that continue it are next. -/
theorem finds_unexpected {c : Char} (hsource : s.source = Text.encode (before ++ c :: ahead))
    (hcurrent : s.current = (Text.encode before).length + 1) (hline : s.line = line) :
    Finds ((s.passWhile fun c => Text.continues c.toNat.toUInt8).refuse "Unexpected character.")
      (Cursor.refuse "Unexpected character." ahead line) := by
  obtain ⟨first, more, hbytes, hcont, hmore⟩ := Text.first_byte c
  have hdrop : s.source.drop s.current = more ++ Text.encode ahead := by
    rw [hsource, hcurrent, Text.encode_append, Text.encode_cons, hbytes, ← List.drop_drop, List.drop_left' rfl]
    rfl
  have htest : ∀ b : UInt8, Text.continues (Text.latin b).toNat.toUInt8 = Text.continues b := by
    intro b
    rw [Text.toNat_latin, Nat.toUInt8_eq, UInt8.ofNat_toNat]
  have hrun : (s.source.drop s.current).takeWhile (fun b => Text.continues (Text.latin b).toNat.toUInt8) = more := by
    rw [hdrop]
    simp only [htest]
    rw [List.takeWhile_append_of_pos hmore]
    cases ahead with
    | nil => exact List.append_nil _
    | cons d ds =>
        obtain ⟨first', more', hbytes', hcont', -⟩ := Text.first_byte d
        rw [Text.encode_cons, hbytes', List.cons_append, List.takeWhile_cons, hcont']
        exact List.append_nil _
  have hcount : more.count '\n'.toNat.toUInt8 = 0 :=
    List.count_eq_zero_of_not_mem fun hmem => absurd (hmore _ hmem) (by decide)
  have hfaces : (s.passWhile fun c => Text.continues c.toNat.toUInt8).Faces (before ++ [c]) ahead line := by
    rw [passWhile_eq, hrun, hcount]
    refine ⟨?_, ?_, hline⟩
    · rw [List.append_assoc]
      exact hsource
    · rw [hcurrent, Text.encode_append, Text.encode_cons, hbytes, List.length_append]
      simp only [List.length_append, List.length_cons, Text.encode_nil, List.length_nil]
      omega
  exact finds_refuse hfaces _

/-- Reading goes on alike behind a plain character. -/
theorem finds_read {c : Char} (hc : c.toNat < 128) (h : s.Faces (before ++ [c]) ahead line)
    (hs : s.start = (Text.encode before).length) : Finds (s.read c) (Cursor.read c ahead line) := by
  unfold read Cursor.read
  split <;> try simp only
  case h_16 => exact finds_string h hs
  case h_17 =>
    by_cases hdigit : Number.isDigit c = true
    · rw [if_pos hdigit, if_pos hdigit]
      exact finds_number hdigit h hs
    rw [if_neg hdigit, if_neg hdigit]
    by_cases hword : Cursor.isWordStart c = true
    · rw [if_pos hword, if_pos hword]
      exact finds_word hword h hs
    rw [if_neg hword, if_neg hword]
    have hsource := h.source
    have hcurrent := h.current
    rw [List.append_assoc] at hsource
    rw [Text.encode_append, List.length_append, Text.encode_cons, (Text.bytes_low hc).1] at hcurrent
    exact finds_unexpected hsource hcurrent h.line
  all_goals first
    | exact finds_finish h hs _
    | exact finds_operator h hs _ _

/-- No token begins with any other character. -/
theorem read_high {c : Char} (h : 128 ≤ c.toNat) (s : Scanner) :
    s.read c = (s.passWhile fun c => Text.continues c.toNat.toUInt8).refuse "Unexpected character." := by
  have hpart := not_isWordPart h
  rw [Cursor.isWordPart, Bool.or_eq_false_iff] at hpart
  unfold read
  split
  case h_17 =>
    rw [hpart.1, hpart.2]
    rfl
  all_goals exact absurd h (by decide)

theorem cursor_read_high {c : Char} (h : 128 ≤ c.toNat) (ahead : List Char) (line : Nat) :
    Cursor.read c ahead line = Cursor.refuse "Unexpected character." ahead line := by
  have hpart := not_isWordPart h
  rw [Cursor.isWordPart, Bool.or_eq_false_iff] at hpart
  unfold Cursor.read
  split
  case h_17 =>
    rw [hpart.1, hpart.2]
    rfl
  all_goals exact absurd h (by decide)

/-- A comment is dropped up to the newline that ends it. -/
theorem skip_comment (cs : List Char) (line : Nat) :
    Cursor.skip true cs line = Cursor.skip false (cs.dropWhile (· != '\n')) line := by
  induction cs with
  | nil => rfl
  | cons c cs ih =>
      by_cases hc : c = '\n'
      · subst hc
        rfl
      · have hpass : Cursor.skip true (c :: cs) line = Cursor.skip true cs line := by
          rw [Cursor.skip.eq_def]
          split
          · next heq => cases heq
          · next heq =>
              cases heq
              exact absurd rfl hc
          · next heq =>
              cases heq
              rfl
        rw [hpass, ih, List.dropWhile_cons_of_pos (p := (· != '\n')) (bne_iff_ne.mpr hc)]

theorem skip_blank {c : Char} (hc : isBlank c = true) (cs : List Char) (line : Nat) :
    Cursor.skip false (c :: cs) line = Cursor.skip false cs (if c = '\n' then line + 1 else line) := by
  simp only [isBlank, Bool.or_eq_true, decide_eq_true_eq] at hc
  rcases hc with ((rfl | rfl) | rfl) | rfl <;> rfl

theorem isBlank_low {c : Char} (hc : isBlank c = true) : c.toNat < 128 := by
  simp only [isBlank, Bool.or_eq_true, decide_eq_true_eq] at hc
  rcases hc with ((rfl | rfl) | rfl) | rfl <;> decide

/-- Where nothing can be dropped, nothing is. -/
theorem skip_word {c : Char} {cs : List Char} (hc : isBlank c = false) (hcomment : ¬ (c = '/' ∧ cs.head? = some '/'))
    (line : Nat) : Cursor.skip false (c :: cs) line = ⟨c :: cs, line⟩ := by
  simp only [isBlank, Bool.or_eq_false_iff, decide_eq_false_iff_not] at hc
  obtain ⟨⟨⟨hspace, hreturn⟩, htab⟩, hnewline⟩ := hc
  rw [Cursor.skip.eq_4 _ _ _ _ hnewline (fun rest h h' => hcomment ⟨h, by rw [h']; rfl⟩), if_neg (by decide),
    if_neg (by simp [hspace, hreturn, htab])]

/-- Blanks and comments are passed alike. -/
theorem faces_skipBlank (h : s.Faces before ahead line) :
    ∃ before', s.skipBlank.Faces before' (Cursor.skip false ahead line).rest (Cursor.skip false ahead line).line := by
  fun_induction skipBlank s generalizing before ahead line with
  | case1 s hend =>
      rw [h.atEnd, List.isEmpty_iff] at hend
      subst hend
      exact ⟨before, h⟩
  | case2 s hend hblank ih =>
      rw [h.look_zero (fun c hc => Bool.eq_false_iff.mpr fun hb => absurd (isBlank_low hb) (Nat.not_lt_of_le hc))
        (by decide)] at hblank
      obtain ⟨c, hhead, hc⟩ := Option.any_eq_true _ _ |>.mp hblank
      obtain ⟨cs, rfl⟩ := List.head?_eq_some_iff.mp hhead
      rw [skip_blank hc]
      exact ih (h.pass (isBlank_low hc))
  | case3 s hend hblank hcomment ih =>
      obtain ⟨hfirst, hsecond⟩ := hcomment
      obtain ⟨cs, rfl⟩ := List.head?_eq_some_iff.mp ((h.look_zero_iff (by decide) (by decide)).mp hfirst)
      have hpass := h.pass (by decide)
      obtain ⟨ds, rfl⟩ := List.head?_eq_some_iff.mp
        ((hpass.look_zero_iff (d := '/') (by decide) (by decide)).mp hsecond)
      have hrest := hpass.passWhile (q := (· != '\n'))
        ⟨true, fun c hc => bne_iff_ne.mpr fun heq => absurd hc (by rw [heq]; decide)⟩
      have hcount : (('/' :: ds).takeWhile (· != '\n')).count '\n' = 0 :=
        List.count_eq_zero_of_not_mem fun hmem => absurd (List.mem_takeWhile_imp hmem) (by decide)
      rw [hcount] at hrest
      have hskip : Cursor.skip false ('/' :: '/' :: ds) line =
          Cursor.skip false (('/' :: ds).dropWhile (· != '\n')) line := skip_comment ds line
      rw [hskip]
      exact ih hrest
  | case4 s hend hblank hcomment =>
      cases ahead with
      | nil => exact ⟨before, h⟩
      | cons c cs =>
          have hblank' := h.look_zero (q := isBlank)
            (fun c hc => Bool.eq_false_iff.mpr fun hb => absurd (isBlank_low hb) (Nat.not_lt_of_le hc)) (by decide)
          rw [Bool.eq_false_iff.mpr hblank, List.head?_cons, Option.any_some] at hblank'
          rw [skip_word hblank'.symm]
          · exact ⟨before, h⟩
          · rintro ⟨rfl, hhead⟩
            refine hcomment ⟨(h.look_zero_iff (by decide) (by decide)).mpr rfl, ?_⟩
            exact ((h.pass (by decide)).look_zero_iff (by decide) (by decide)).mpr hhead

/-- **One token.** What the scanner finds among the bytes is what is found among the characters. -/
theorem finds_next (h : s.Faces before ahead line) : Finds s.next (Cursor.next ⟨ahead, line⟩) := by
  obtain ⟨before', hskip⟩ := faces_skipBlank h
  unfold next Cursor.next Cursor.skipBlank
  simp only
  generalize Cursor.skip false ahead line = c at hskip ⊢
  obtain ⟨rest, line'⟩ := c
  have hstart : ({ s.skipBlank with start := s.skipBlank.current } : Scanner).start = (Text.encode before').length :=
    hskip.current
  have hfaces : ({ s.skipBlank with start := s.skipBlank.current } : Scanner).Faces before' rest line' :=
    ⟨hskip.source, hskip.current, hskip.line⟩
  generalize ({ s.skipBlank with start := s.skipBlank.current } : Scanner) = s' at hstart hfaces ⊢
  rw [hfaces.atEnd]
  cases rest with
  | nil =>
      rw [← List.append_nil before'] at hfaces
      exact finds_finish hfaces hstart .eof
  | cons c cs =>
      simp only [List.isEmpty_cons, Bool.false_eq_true, if_false]
      obtain ⟨first, more, hbytes, -⟩ := Text.first_byte c
      have hget : s'.source[s'.current]? = some first := by
        have := hfaces.drop
        rw [Text.encode_cons, hbytes] at this
        rw [← Nat.add_zero s'.current, ← List.getElem?_drop, this]
        rfl
      have hadvance : s'.advance = .ok (Text.latin first, { s' with current := s'.current + 1 }) := by
        rw [advance, hget]
      rw [hadvance]
      show Finds (read (Text.latin first) { s' with current := s'.current + 1 }) _
      by_cases hc : c.toNat < 128
      · obtain ⟨hlow, -⟩ := Text.bytes_low hc
        obtain ⟨rfl, rfl⟩ : first = c.toNat.toUInt8 ∧ more = [] := by simpa [hbytes] using hlow
        rw [Text.latin_low hc]
        refine finds_read hc ⟨?_, ?_, hfaces.line⟩ hstart
        · rw [List.append_assoc]
          exact hfaces.source
        · rw [Text.encode_append, List.length_append, ← hfaces.current, Text.encode_cons, hbytes]
          rfl
      · have hhigh := Nat.le_of_not_lt hc
        obtain ⟨first', more', hbytes', -, hfirst, -⟩ := Text.bytes_high hhigh
        obtain ⟨rfl, rfl⟩ : first = first' ∧ more = more' := by simpa [hbytes] using hbytes'
        rw [read_high (by rw [Text.toNat_latin]; exact hfirst), cursor_read_high hhigh]
        exact finds_unexpected hfaces.source (congrArg (· + 1) hfaces.current) hfaces.line

/-- Behind the end the scanner stays there. -/
theorem scan_end {c : Cursor} (h : s.Faces before c.rest c.line) (hend : c.next.1.kind = .eof) (count : Nat) :
    s.scan count = .ok (List.replicate count c.next.1) := by
  induction count generalizing s before c with
  | zero => rfl
  | succ count ih =>
      obtain ⟨s', before', hnext, hfaces⟩ := finds_next h
      have hstay := (Cursor.next_of_eof hend).2
      have hrest := ih hfaces (by rw [hstay]; exact hend)
      rw [hstay] at hrest
      rw [scan, hnext]
      show (do let ts ← s'.scan count; return c.next.1 :: ts) = _
      rw [hrest]
      rfl

theorem scan_collect {budget : Nat} {c : Cursor} (h : s.Faces before c.rest c.line) (hbudget : c.rest.length < budget) :
    ∃ us last, Cursor.collect budget c [] = us ++ [last] ∧ last.kind = .eof ∧
      ∀ count, s.scan count = .ok ((us ++ List.replicate count last).take count) := by
  induction budget generalizing s before c with
  | zero => omega
  | succ budget ih =>
      obtain ⟨s', before', hnext, hfaces⟩ := finds_next h
      have hfaces : s'.Faces before' c.next.2.rest c.next.2.line := hfaces
      rw [Cursor.collect]
      simp only
      by_cases hend : c.next.1.kind = .eof
      · rw [if_pos hend]
        exact ⟨[], c.next.1, rfl, hend, fun count => by simpa using scan_end h hend count⟩
      · have hlt := (Cursor.next_spec c hend).1
        obtain ⟨us, last, hus, hlast, hscan⟩ := ih hfaces (by omega)
        rw [if_neg hend, Cursor.collect_reversed, hus]
        refine ⟨c.next.1 :: us, last, rfl, hlast, fun count => ?_⟩
        cases count with
        | zero => rfl
        | succ count =>
            rw [scan, hnext]
            show (do let ts ← s'.scan count; return c.next.1 :: ts) = _
            have hlen : count ≤ (us ++ List.replicate count last).length := by simp
            rw [hscan, List.cons_append, List.take_succ_cons, List.replicate_succ', ← List.append_assoc,
              List.take_append_of_le_length hlen]
            rfl

/-- **All tokens.** However often the scanner is asked, it cuts out the tokens of the source one by one, and after
them the end again and again. -/
theorem scan_ofSource (source : String) : ∃ us last, tokenize source = us ++ [last] ∧ last.kind = .eof ∧
    ∀ count, (ofSource source).scan count = .ok ((us ++ List.replicate count last).take count) := by
  have hfaces : (ofSource source).Faces [] (Cursor.ofSource source).rest (Cursor.ofSource source).line :=
    ⟨Text.toList_toUTF8 source, rfl, rfl⟩
  exact scan_collect hfaces (Nat.lt_succ_self _)

end Scanner

end Lox
