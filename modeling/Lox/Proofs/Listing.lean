import Lox.Code.Listing
import Lox.Proofs.Compile.Boundaries

/-! Listings read code as it is meant to be read. Whatever bytes a chunk holds, the listing of an instruction names it
with its operand, or says what is wrong with it, and goes on behind it, or at the end if it is cut off. So a walk from
one instruction to the next goes through all bytes and ends at the end of the chunk. -/

namespace Lox

/-! ### Texts -/

namespace Text

/-- The last character of a text. -/
def EndsWith (text : String) (x : Char) : Prop := text.toList.getLast? = some x

theorem EndsWith.append {text : String} {x : Char} (front : String) (h : EndsWith text x) :
    EndsWith (front ++ text) x := by
  rw [EndsWith, String.toList_append, List.getLast?_append, h]
  rfl

theorem EndsWith.unique {text : String} {x y : Char} (hx : EndsWith text x) (hy : EndsWith text y) : x = y :=
  Option.some.inj (hx.symm.trans hy)

/-- Numbers are told apart by their digits. -/
theorem toString_injective {n k : Nat} (h : toString n = toString k) : n = k := by
  have hdigits : Nat.toDigits 10 n = Nat.toDigits 10 k := by
    rw [← Nat.toList_repr, ← Nat.toList_repr]
    exact congrArg String.toList h
  have hvalue := congrArg (Nat.ofDigitChars 10 · 0) hdigits
  simpa only [Nat.ofDigitChars_toDigits (b := 10) (by omega) (Nat.le_refl _)] using hvalue

/-- A number ends in a digit. -/
theorem endsWith_toString (n : Nat) : ∃ x, EndsWith (toString n) x ∧ x.isDigit := by
  have hlist : (toString n).toList = Nat.toDigits 10 n := Nat.toList_repr
  refine ⟨(Nat.toDigits 10 n).getLast Nat.toDigits_ne_nil, ?_, ?_⟩
  · rw [EndsWith, hlist, List.getLast?_eq_some_getLast]
  · exact Nat.isDigit_of_mem_toDigits (by omega) (Nat.le_refl _) (List.getLast_mem _)

theorem ne_of_isDigit {x : Char} (h : x.isDigit) : x ≠ '>' := by
  rintro rfl
  cases h

theorem exists_foldl_append {α : Type} {f : String → α → String} (hf : ∀ text a, ∃ more, f text a = text ++ more)
    (items : List α) (text : String) : ∃ more, items.foldl f text = text ++ more := by
  induction items generalizing text with
  | nil => exact ⟨"", String.append_empty.symm⟩
  | cons a items ih =>
      obtain ⟨more, hmore⟩ := hf text a
      obtain ⟨rest, hrest⟩ := ih (f text a)
      exact ⟨more ++ rest, by rw [List.foldl_cons, hrest, hmore, String.append_assoc]⟩

end Text

namespace Chunk

open Text

variable {c : Chunk} {h : Heap} {offset i w next : Nat} {op : Opcode} {body : String}

/-! ### Bytes and words -/

theorem byteAt?_eq_none_iff : c.byteAt? i = none ↔ c.size ≤ i := Array.getElem?_eq_none_iff

theorem exists_byteAt? (hlt : i < c.size) : ∃ byte, c.byteAt? i = some byte := ⟨_, Array.getElem?_eq_getElem hlt⟩

theorem wordAt?_eq_some_iff : c.wordAt? i = some w ↔
    ∃ low high, c.byteAt? i = some low ∧ c.byteAt? (i + 1) = some high ∧ wordOf low high = w := by
  constructor
  · intro hw
    obtain ⟨low, hl, hw⟩ := Option.bind_eq_some_iff.mp hw
    obtain ⟨high, hh, hw⟩ := Option.bind_eq_some_iff.mp hw
    exact ⟨low, high, hl, hh, Option.some.inj hw⟩
  · rintro ⟨low, high, hl, hh, rfl⟩
    exact wordAt?_eq_some hl hh

theorem exists_wordAt? (hlt : i + 1 < c.size) : ∃ w, c.wordAt? i = some w := by
  obtain ⟨low, hl⟩ := exists_byteAt? (Nat.lt_of_succ_lt hlt)
  obtain ⟨high, hh⟩ := exists_byteAt? hlt
  exact ⟨_, wordAt?_eq_some hl hh⟩

theorem wordAt?_eq_none_iff : c.wordAt? i = none ↔ c.size ≤ i + 1 := by
  constructor
  · intro hw
    by_contra hlt
    obtain ⟨w, hsome⟩ := exists_wordAt? (Nat.lt_of_not_le hlt)
    cases hw.symm.trans hsome
  · intro hle
    rw [Option.eq_none_iff_forall_ne_some]
    intro w hw
    obtain ⟨low, high, -, hh, -⟩ := wordAt?_eq_some_iff.mp hw
    have := lt_size_of_byteAt? hh
    omega

theorem signedAt?_eq_some_iff {distance : Int} : c.signedAt? i = some distance ↔
    ∃ w, c.wordAt? i = some w ∧ signedOf w = distance := Option.map_eq_some_iff

theorem signedOf_bounds (hw : c.wordAt? i = some w) : -32768 ≤ signedOf w ∧ signedOf w ≤ 32767 := by
  obtain ⟨low, high, -, -, rfl⟩ := wordAt?_eq_some_iff.mp hw
  have hlow := low.toNat_lt
  have hhigh := high.toNat_lt
  unfold signedOf wordOf maxJump
  split <;> omega

/-! ### One instruction -/

/-- The instruction refers to a constant. -/
inductive Refers (c : Chunk) (offset : Nat) : Opcode → Nat → Prop where
  | wide {index : Nat} (hw : c.wordAt? (offset + 1) = some index) : Refers c offset .constantWide index
  | short {op : Opcode} {byte : UInt8} (hop : op = .constant ∨ op = .getGlobal ∨ op = .defineGlobal ∨ op = .setGlobal)
      (hb : c.byteAt? (offset + 1) = some byte) : Refers c offset op byte.toNat

/-- What a listing shows behind the place of an instruction, and where it goes on. -/
inductive Shows (c : Chunk) (h : Heap) (offset : Nat) : String → Nat → Prop where
  | unknown {byte : UInt8} (hb : c.byteAt? offset = some byte) (hop : Opcode.ofByte? byte = none) :
      Shows c h offset ("Unknown opcode " ++ toString byte.toNat) (offset + 1)
  | truncated {op : Opcode} (hop : c.opcodeAt? offset = some op) (hcut : c.size ≤ offset + op.operandSize) :
      Shows c h offset (op.mnemonic ++ " <truncated>") c.size
  | plain {op : Opcode} (hop : c.opcodeAt? offset = some op) (hsize : op.operandSize = 0) :
      Shows c h offset op.mnemonic (offset + 1)
  | operand {op : Opcode} {byte : UInt8} (hop : c.opcodeAt? offset = some op)
      (hkind : op = .getLocal ∨ op = .setLocal ∨ op = .call) (hb : c.byteAt? (offset + 1) = some byte) :
      Shows c h offset (listOperand op byte.toNat) (offset + 2)
  | constant {op : Opcode} {index : Nat} {value : Value} (hop : c.opcodeAt? offset = some op)
      (hindex : c.Refers offset op index) (hvalue : c.constant? index = some value) :
      Shows c h offset (listOperand op index ++ " " ++ ("'" ++ h.display value ++ "'")) (offset + 1 + op.operandSize)
  | badConstant {op : Opcode} {index : Nat} (hop : c.opcodeAt? offset = some op) (hindex : c.Refers offset op index)
      (hnone : c.constant? index = none) :
      Shows c h offset (listOperand op index ++ " " ++ "<bad constant>") (offset + 1 + op.operandSize)
  | jump {op : Opcode} {distance : Int} (hop : c.opcodeAt? offset = some op)
      (hkind : op = .jump ∨ op = .jumpIfFalse ∨ op = .loop) (hd : c.signedAt? (offset + 1) = some distance) :
      Shows c h offset (listOperand op offset ++ " -> " ++ toString (jumpTarget offset distance)) (offset + 3)

theorem shows_constant {index : Nat} (hop : c.opcodeAt? offset = some op) (hindex : c.Refers offset op index) :
    Shows c h offset (c.listConstant h op index) (offset + 1 + op.operandSize) := by
  unfold listConstant
  cases hvalue : c.constant? index with
  | some value => exact .constant hop hindex hvalue
  | none => exact .badConstant hop hindex hvalue

/-- What the listing says about a known instruction that is not cut off. -/
theorem shows_listBody? (hop : c.opcodeAt? offset = some op) (hbody : c.listBody? h op offset = some (body, next)) :
    Shows c h offset body next := by
  cases op with
  | constant | getGlobal | defineGlobal | setGlobal =>
      obtain ⟨byte, hb, heq⟩ := Option.map_eq_some_iff.mp hbody
      cases heq
      exact shows_constant hop (.short (by simp) hb)
  | constantWide =>
      obtain ⟨index, hw, heq⟩ := Option.map_eq_some_iff.mp hbody
      cases heq
      exact shows_constant hop (.wide hw)
  | getLocal | setLocal | call =>
      obtain ⟨byte, hb, heq⟩ := Option.map_eq_some_iff.mp hbody
      cases heq
      exact .operand hop (by simp) hb
  | jump | jumpIfFalse | loop =>
      obtain ⟨distance, hd, heq⟩ := Option.map_eq_some_iff.mp hbody
      cases heq
      exact .jump hop (by simp) hd
  | pushNil | pushTrue | pushFalse | pop | add | subtract | multiply | divide | negate | equal | notEqual | greater
    | greaterEqual | less | lessEqual | not | ret | print =>
      cases hbody
      exact .plain hop rfl

/-- An operand is cut off only by the end of the chunk. -/
theorem cut_of_listBody? (hbody : c.listBody? h op offset = none) : c.size ≤ offset + op.operandSize := by
  cases op with
  | constant | getGlobal | defineGlobal | setGlobal | getLocal | setLocal | call =>
      exact byteAt?_eq_none_iff.mp (Option.map_eq_none_iff.mp hbody)
  | constantWide => exact wordAt?_eq_none_iff.mp (Option.map_eq_none_iff.mp hbody)
  | jump | jumpIfFalse | loop =>
      exact wordAt?_eq_none_iff.mp (Option.map_eq_none_iff.mp (Option.map_eq_none_iff.mp hbody))
  | pushNil | pushTrue | pushFalse | pop | add | subtract | multiply | divide | negate | equal | notEqual | greater
    | greaterEqual | less | lessEqual | not | ret | print => cases hbody

theorem listInstruction_shows (hlt : offset < c.size) : ∃ body, Shows c h offset body (c.listInstruction h offset).2 ∧
    (c.listInstruction h offset).1 = c.listPlace offset ++ body ++ "\n" := by
  obtain ⟨byte, hb⟩ := exists_byteAt? hlt
  unfold listInstruction
  simp only [hb, Option.getD_some]
  cases hop : Opcode.ofByte? byte with
  | none => exact ⟨_, .unknown hb hop, by simp only [String.append_assoc]⟩
  | some op =>
      have hat : c.opcodeAt? offset = some op := by rw [opcodeAt?, hb, Option.bind_some, hop]
      cases hbody : c.listBody? h op offset with
      | none =>
          have hline : " <truncated>\n" = " <truncated>" ++ "\n" := rfl
          simp only [hbody]
          exact ⟨_, .truncated hat (cut_of_listBody? hbody), by rw [hline]; simp only [String.append_assoc]⟩
      | some shown =>
          simp only [hbody]
          exact ⟨_, shows_listBody? hat hbody, rfl⟩

theorem Refers.whole {index : Nat} (h : c.Refers offset op index) : offset + op.operandSize < c.size := by
  cases h with
  | wide hw =>
      obtain ⟨_, _, -, hh, -⟩ := wordAt?_eq_some_iff.mp hw
      exact lt_size_of_byteAt? hh
  | short hop hb =>
      have hsize : op.operandSize = 1 := by rcases hop with rfl | rfl | rfl | rfl <;> rfl
      exact hsize ▸ lt_size_of_byteAt? hb

namespace Shows

theorem bounds (hs : Shows c h offset body next) : offset < next ∧ next ≤ c.size := by
  cases hs with
  | unknown hb _ => exact ⟨by omega, lt_size_of_byteAt? hb⟩
  | truncated hop _ => exact ⟨lt_size_of_opcodeAt? hop, Nat.le_refl _⟩
  | plain hop _ => exact ⟨by omega, lt_size_of_opcodeAt? hop⟩
  | operand _ _ hb => exact ⟨by omega, lt_size_of_byteAt? hb⟩
  | constant _ hindex _ =>
      have := hindex.whole
      exact ⟨by omega, by omega⟩
  | badConstant _ hindex _ =>
      have := hindex.whole
      exact ⟨by omega, by omega⟩
  | jump _ _ hd =>
      obtain ⟨w, hw, -⟩ := signedAt?_eq_some_iff.mp hd
      obtain ⟨_, _, -, hh, -⟩ := wordAt?_eq_some_iff.mp hw
      exact ⟨by omega, lt_size_of_byteAt? hh⟩

/-- A known instruction that is not cut off takes its opcode and its operand. -/
theorem next_eq (hs : Shows c h offset body next) (hop : c.opcodeAt? offset = some op)
    (hwhole : offset + op.operandSize < c.size) : next = offset + 1 + op.operandSize := by
  cases hs with
  | unknown hb hnone =>
      rw [opcodeAt?, hb, Option.bind_some, hnone] at hop
      cases hop
  | truncated hop' hcut =>
      cases hop'.symm.trans hop
      omega
  | plain hop' hsize =>
      cases hop'.symm.trans hop
      rw [hsize]
  | operand hop' hkind _ =>
      cases hop'.symm.trans hop
      rcases hkind with rfl | rfl | rfl <;> rfl
  | constant hop' _ _ | badConstant hop' _ _ =>
      cases hop'.symm.trans hop
      rfl
  | jump hop' hkind _ =>
      cases hop'.symm.trans hop
      rcases hkind with rfl | rfl | rfl <;> rfl

end Shows

/-- The line of a jump says where it leads. -/
theorem listInstruction_jump {distance : Int} (hop : c.opcodeAt? offset = some op)
    (hkind : op = .jump ∨ op = .jumpIfFalse ∨ op = .loop) (hd : c.signedAt? (offset + 1) = some distance) :
    c.listInstruction h offset =
      (c.listPlace offset ++ listOperand op offset ++ " -> " ++ toString (jumpTarget offset distance) ++ "\n",
      offset + 3) := by
  obtain ⟨byte, hb, hop⟩ := Option.bind_eq_some_iff.mp hop
  have hbody : c.listBody? h op offset =
      some (listOperand op offset ++ " -> " ++ toString (jumpTarget offset distance), offset + 3) := by
    rcases hkind with rfl | rfl | rfl <;> simp only [listBody?, hd, Option.map_some]
  simp only [listInstruction, hb, Option.getD_some, hop, hbody, String.append_assoc]

/-- A place that fits a word is its own remainder. -/
theorem jumpTarget_eq {distance : Int} {target : Nat} (htarget : (offset : Int) + 3 + distance = target)
    (hlt : target < wordLimit) : jumpTarget offset distance = target := by
  have hplace : ((offset + 3 : Nat) : Int) + distance = target := by omega
  have hmod : (target : Int).emod wordLimit = target := Int.emod_eq_of_lt (Int.natCast_nonneg _) (Int.ofNat_lt.mpr hlt)
  rw [jumpTarget, hplace, hmod, Int.toNat_natCast]

/-- The place that is shown is the one where the jump leads. -/
theorem line_of_jump {distance : Int} (target : Nat) (hsize : c.size < allocationLimit)
    (hop : c.opcodeAt? offset = some op) (hkind : op = .jump ∨ op = .jumpIfFalse ∨ op = .loop)
    (hd : c.signedAt? (offset + 1) = some distance)
    (htarget : (offset : Int) + 3 + distance = target) :
    (c.listInstruction h offset).1 =
      c.listPlace offset ++ listOperand op offset ++ " -> " ++ toString target ++ "\n" := by
  have hlt := lt_size_of_opcodeAt? hop
  have hle : distance ≤ 32767 := by
    obtain ⟨w, hw, rfl⟩ := signedAt?_eq_some_iff.mp hd
    exact (signedOf_bounds hw).2
  have hword : target < wordLimit := by
    have hlimit : allocationLimit + 65536 ≤ wordLimit := by decide
    omega
  rw [listInstruction_jump hop hkind hd, jumpTarget_eq htarget hword]

/-! ### What a line says -/

theorem endsWith_listOperand (op : Opcode) (n : Nat) : ∃ x, EndsWith (listOperand op n) x ∧ x.isDigit := by
  obtain ⟨x, hx, hdigit⟩ := endsWith_toString n
  exact ⟨x, (hx.append _).append _, hdigit⟩

theorem endsWith_mnemonic (op : Opcode) : ∃ x, EndsWith op.mnemonic x ∧ x ≠ '>' := by
  cases op <;> exact ⟨_, rfl, by decide⟩

theorem head?_mnemonic (op : Opcode) : op.mnemonic.toList.head? = some 'O' := by cases op <;> rfl

namespace Shows

/-- Only what is said about a defect ends in a bracket. -/
theorem ending (hs : Shows c h offset body next) : (∃ x, EndsWith body x ∧ x ≠ '>') ∨
    (∃ op, c.opcodeAt? offset = some op ∧ c.size ≤ offset + op.operandSize ∧
    body = op.mnemonic ++ " <truncated" ++ ">") ∨
    ∃ op index, c.opcodeAt? offset = some op ∧ c.Refers offset op index ∧ c.constant? index = none ∧
      body = listOperand op index ++ " <bad constant" ++ ">" := by
  cases hs with
  | unknown hb _ =>
      obtain ⟨x, hx, hdigit⟩ := endsWith_toString _
      exact .inl ⟨x, hx.append _, ne_of_isDigit hdigit⟩
  | truncated hop hcut =>
      refine .inr (.inl ⟨_, hop, hcut, ?_⟩)
      rw [String.append_assoc]
      rfl
  | plain _ _ => exact .inl (endsWith_mnemonic _)
  | operand _ _ _ =>
      obtain ⟨x, hx, hdigit⟩ := endsWith_listOperand _ _
      exact .inl ⟨x, hx, ne_of_isDigit hdigit⟩
  | constant _ _ _ =>
      have hquote : EndsWith "'" '\'' := rfl
      exact .inl ⟨'\'', (hquote.append _).append _, by decide⟩
  | badConstant hop hindex hnone =>
      refine .inr (.inr ⟨_, _, hop, hindex, hnone, ?_⟩)
      rw [String.append_assoc, String.append_assoc]
      rfl
  | jump _ _ _ =>
      obtain ⟨x, hx, hdigit⟩ := endsWith_toString _
      exact .inl ⟨x, hx.append _, ne_of_isDigit hdigit⟩

/-- A line that says that an instruction is truncated. -/
theorem of_truncated {place before : String} (hs : Shows c h offset body next)
    (hline : place ++ body ++ "\n" = before ++ " <truncated>\n") :
    ∃ op, c.opcodeAt? offset = some op ∧ c.size ≤ offset + op.operandSize := by
  have hline : place ++ body = before ++ " <truncated" ++ ">" := by
    refine (String.append_left_inj "\n").mp (hline.trans ?_)
    simp only [String.append_assoc]
    rfl
  have hbracket : EndsWith ">" '>' := rfl
  rcases hs.ending with ⟨x, hx, hne⟩ | ⟨op, hop, hcut, -⟩ | ⟨op, index, -, -, -, rfl⟩
  · exact absurd ((hx.append place).unique (hline ▸ hbracket.append _)) hne
  · exact ⟨op, hop, hcut⟩
  · rw [← String.append_assoc] at hline
    have hfront := (String.append_left_inj ">").mp hline
    have hd : EndsWith " <truncated" 'd' := rfl
    have ht : EndsWith " <bad constant" 't' := rfl
    exact absurd (((ht.append _).append _).unique (hfront ▸ hd.append _)) (by decide)

/-- A line that says that there is no such constant. -/
theorem of_badConstant {place before : String} (hs : Shows c h offset body next)
    (hline : place ++ body ++ "\n" = before ++ "<bad constant>\n") :
    ∃ op index, c.opcodeAt? offset = some op ∧ c.Refers offset op index ∧ c.constant? index = none := by
  have hline : place ++ body = before ++ "<bad constant" ++ ">" := by
    refine (String.append_left_inj "\n").mp (hline.trans ?_)
    simp only [String.append_assoc]
    rfl
  have hbracket : EndsWith ">" '>' := rfl
  rcases hs.ending with ⟨x, hx, hne⟩ | ⟨op, -, -, rfl⟩ | ⟨op, index, hop, hindex, hnone, -⟩
  · exact absurd ((hx.append place).unique (hline ▸ hbracket.append _)) hne
  · rw [← String.append_assoc] at hline
    have hfront := (String.append_left_inj ">").mp hline
    have hd : EndsWith " <truncated" 'd' := rfl
    have ht : EndsWith "<bad constant" 't' := rfl
    exact absurd (((hd.append _).append _).unique (hfront ▸ ht.append _)) (by decide)
  · exact ⟨op, index, hop, hindex, hnone⟩

/-- All else begins with the name of an opcode. -/
theorem beginning (hs : Shows c h offset body next) :
    (∃ byte, c.byteAt? offset = some byte ∧ Opcode.ofByte? byte = none ∧
    body = "Unknown opcode " ++ toString byte.toNat) ∨
    ∃ op : Opcode, ∃ rest, body = op.mnemonic ++ rest := by
  have hoperand : ∀ (op : Opcode) n, ∃ rest, listOperand op n = op.mnemonic ++ rest := by
    intro op n
    unfold listOperand Text.alignLeft
    rw [String.append_assoc, String.append_assoc]
    exact ⟨_, rfl⟩
  cases hs with
  | unknown hb hop => exact .inl ⟨_, hb, hop, rfl⟩
  | truncated _ _ => exact .inr ⟨_, _, rfl⟩
  | plain _ _ => exact .inr ⟨_, "", String.append_empty.symm⟩
  | @operand op byte _ _ _ =>
      obtain ⟨rest, hrest⟩ := hoperand op byte.toNat
      exact .inr ⟨op, rest, hrest⟩
  | @constant op index _ _ _ _ | @badConstant op index _ _ _ =>
      obtain ⟨rest, hrest⟩ := hoperand op index
      exact .inr ⟨op, _, by rw [hrest, String.append_assoc, String.append_assoc]⟩
  | @jump op _ _ _ _ =>
      obtain ⟨rest, hrest⟩ := hoperand op offset
      exact .inr ⟨op, _, by rw [hrest, String.append_assoc, String.append_assoc]⟩

/-- A line that says that no opcode is known. -/
theorem of_unknown {place : String} {n : Nat} (hs : Shows c h offset body next)
    (hline : place ++ body ++ "\n" = place ++ "Unknown opcode " ++ toString n ++ "\n") :
    ∃ byte, c.byteAt? offset = some byte ∧ Opcode.ofByte? byte = none ∧ n = byte.toNat := by
  have hbody : body = "Unknown opcode " ++ toString n := by
    refine (String.append_right_inj place).mp ((String.append_left_inj "\n").mp (hline.trans ?_))
    simp only [String.append_assoc]
  rcases hs.beginning with ⟨byte, hb, hop, rfl⟩ | ⟨op, rest, rfl⟩
  · exact ⟨byte, hb, hop, (toString_injective ((String.append_right_inj _).mp hbody)).symm⟩
  · have hhead := congrArg (·.toList.head?) hbody
    simp only [String.toList_append, List.head?_append, head?_mnemonic] at hhead
    exact absurd (Option.some.inj hhead) (by decide)

end Shows

/-! ### The walk -/

/-- The offsets at which a walk stops on its way to the end of the chunk, as each listed instruction leads to the
next. -/
inductive Walk (c : Chunk) (h : Heap) : Nat → List Nat → Prop where
  | done : Walk c h c.size []
  | step {offset : Nat} {rest : List Nat} (hlt : offset < c.size)
      (hw : Walk c h (c.listInstruction h offset).2 rest) : Walk c h offset (offset :: rest)

/-- The lines of the instructions at the offsets. -/
def listed (c : Chunk) (h : Heap) (offsets : List Nat) : String :=
  String.join (offsets.map fun o => (c.listInstruction h o).1)

theorem listed_cons (c : Chunk) (h : Heap) (offset : Nat) (offsets : List Nat) :
    c.listed h (offset :: offsets) = (c.listInstruction h offset).1 ++ c.listed h offsets := by
  rw [listed, List.map_cons, String.join_cons]
  rfl

/-- The walk stops at the end of the chunk, and each of its steps is listed. -/
theorem exists_walk (count : Nat) (hle : offset ≤ c.size) (hcount : c.size ≤ offset + count) (text : String) :
    ∃ offsets, c.Walk h offset offsets ∧ c.listCode h count offset text = text ++ c.listed h offsets := by
  induction count generalizing offset text with
  | zero =>
      obtain rfl : offset = c.size := by omega
      exact ⟨[], .done, String.append_empty.symm⟩
  | succ count ih =>
      rw [listCode]
      by_cases hlt : offset < c.size
      · obtain ⟨body, hshows, -⟩ := listInstruction_shows (h := h) hlt
        obtain ⟨hadvance, hend⟩ := hshows.bounds
        obtain ⟨offsets, hwalk, hlisted⟩ := ih hend (by omega) (text ++ (c.listInstruction h offset).1)
        refine ⟨offset :: offsets, .step hlt hwalk, ?_⟩
        rw [if_pos hlt, listed_cons, ← String.append_assoc]
        exact hlisted
      · obtain rfl : offset = c.size := by omega
        rw [if_neg hlt]
        exact ⟨[], .done, String.append_empty.symm⟩

theorem Walk.le_of_mem {offsets : List Nat} (hw : c.Walk h offset offsets) : ∀ o ∈ offsets, offset ≤ o := by
  induction hw with
  | done => exact nofun
  | @step offset rest hlt _ ih =>
      obtain ⟨body, hshows, -⟩ := listInstruction_shows (h := h) hlt
      have := hshows.bounds.1
      intro o hmem
      rcases List.mem_cons.mp hmem with rfl | hmem
      · exact Nat.le_refl _
      · exact Nat.le_trans (by omega) (ih o hmem)

/-- Each byte belongs to the instruction at exactly one of the offsets. -/
theorem Walk.existsUnique {offsets : List Nat} (hw : c.Walk h offset offsets) {i : Nat} (hle : offset ≤ i)
    (hlt : i < c.size) :
    ∃! o, o ∈ offsets ∧ o ≤ i ∧ i < (c.listInstruction h o).2 := by
  induction hw with
  | done => omega
  | @step offset rest _ hrest ih =>
      by_cases hnext : i < (c.listInstruction h offset).2
      · refine ⟨offset, ⟨List.mem_cons_self, hle, hnext⟩, ?_⟩
        rintro o ⟨hmem, hoi, -⟩
        rcases List.mem_cons.mp hmem with rfl | hmem
        · rfl
        · have := hrest.le_of_mem o hmem
          omega
      · obtain ⟨o, ⟨hmem, hoi, hio⟩, hunique⟩ := ih (by omega)
        refine ⟨o, ⟨List.mem_cons_of_mem _ hmem, hoi, hio⟩, ?_⟩
        rintro o' ⟨hmem', hoi', hio'⟩
        rcases List.mem_cons.mp hmem' with rfl | hmem'
        · exact absurd hio' hnext
        · exact hunique o' ⟨hmem', hoi', hio'⟩

/-- The listing of a chunk begins with its own instructions, up to the end of the chunk. -/
theorem exists_listing (c : Chunk) (h : Heap) (title : String) : ∃ offsets nested, c.Walk h 0 offsets ∧
    c.listing h title = "== " ++ title ++ " ==\n" ++ c.listed h offsets ++ nested := by
  obtain ⟨offsets, hwalk, hlisted⟩ : ∃ offsets, c.Walk h 0 offsets ∧
      c.listCode h c.size 0 ("== " ++ title ++ " ==\n") = "== " ++ title ++ " ==\n" ++ c.listed h offsets :=
    exists_walk c.size (Nat.zero_le _) (by omega) _
  have hnested : ∃ nested, c.listing h title = "== " ++ title ++ " ==\n" ++ c.listed h offsets ++ nested := by
    rw [listing, listNested, hlisted, ← Array.foldl_toList]
    refine exists_foldl_append (fun text value => ?_) _ _
    split
    · exact ⟨_, rfl⟩
    · exact ⟨"", String.append_empty.symm⟩
  obtain ⟨nested, hnested⟩ := hnested
  exact ⟨offsets, nested, hwalk, hnested⟩

end Chunk

end Lox
