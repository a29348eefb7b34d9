import Lox.Storage.Heap
import Lox.Text.Column

/-! Listings: the instructions of a chunk as text, one per line, with offset, source line, name and
operand. The functions among the constants follow, each under its own title, in the order of the
constants. Bytes that are no instruction are listed as such, and an instruction whose operand is cut
off ends the listing. -/

namespace Lox

namespace Chunk

/-- The first two columns: the offset, and the source line unless the byte before has the same. -/
def listPlace (c : Chunk) (offset : Nat) : String :=
  let line := (c.lineAt? offset).getD 0
  let place := Text.alignRight 4 '0' (toString offset) ++ " "
  if 0 < offset ∧ c.lineAt? (offset - 1) = some line then place ++ "   | "
  else place ++ Text.alignRight 4 ' ' (toString line) ++ " "

/-- A name and a numeric operand, in columns. -/
def listOperand (op : Opcode) (operand : Nat) : String :=
  Text.alignLeft 16 op.mnemonic ++ " " ++ Text.alignRight 4 ' ' (toString operand)

/-- An instruction that refers to a constant. -/
def listConstant (c : Chunk) (h : Heap) (op : Opcode) (index : Nat) : String :=
  let value :=
    match c.constant? index with
    | some value => "'" ++ h.display value ++ "'"
    | none => "<bad constant>"
  listOperand op index ++ " " ++ value

/-- The place where a jump at `offset` lands, modulo `2 ^ 64`. -/
def jumpTarget (offset : Nat) (distance : Int) : Nat :=
  (((offset + 3 : Nat) : Int) + distance).emod wordLimit |>.toNat

/-- What an instruction's operand says, and where the next instruction starts; `none` if the operand
is cut off. -/
def listBody? (c : Chunk) (h : Heap) (op : Opcode) (offset : Nat) : Option (String × Nat) :=
  match op with
  | .constant | .getGlobal | .defineGlobal | .setGlobal =>
    (c.byteAt? (offset + 1)).map fun index => (c.listConstant h op index.toNat, offset + 2)
  | .constantWide =>
    (c.wordAt? (offset + 1)).map fun index => (c.listConstant h op index, offset + 3)
  | .getLocal | .setLocal | .call =>
    (c.byteAt? (offset + 1)).map fun operand => (listOperand op operand.toNat, offset + 2)
  | .jump | .jumpIfFalse | .loop =>
    (c.signedAt? (offset + 1)).map fun distance =>
      (listOperand op offset ++ " -> " ++ toString (jumpTarget offset distance), offset + 3)
  | _ => some (op.mnemonic, offset + 1)

/-- The instruction at an offset as one line of text, and the offset of the next one. -/
def listInstruction (c : Chunk) (h : Heap) (offset : Nat) : String × Nat :=
  let place := c.listPlace offset
  let byte := (c.byteAt? offset).getD 0
  match Opcode.ofByte? byte with
  | none => (place ++ "Unknown opcode " ++ toString byte.toNat ++ "\n", offset + 1)
  | some op =>
    match c.listBody? h op offset with
    | some (text, next) => (place ++ text ++ "\n", next)
    | none => (place ++ op.mnemonic ++ " <truncated>\n", c.size)

/-- The instruction at an offset that the caller chose. Reading an instruction takes at least the step
to the next offset, so that one must fit a word, whether or not the chunk reaches so far. -/
def instructionAt (c : Chunk) (h : Heap) (offset : Nat) : Except Fault (String × Nat) :=
  (nextWord offset).map fun _ => c.listInstruction h offset

/-- The instructions from an offset on, after the text so far. Each one takes at least one byte, so
the size of the chunk bounds their number. -/
def listCode (c : Chunk) (h : Heap) : Nat → Nat → String → String
  | 0, _, text => text
  | count + 1, offset, text =>
    if offset < c.size then
      let (line, next) := c.listInstruction h offset
      c.listCode h count next (text ++ line)
    else text

/-- The listing of a chunk and of the functions nested in it, `depth` levels of them. -/
def listNested (h : Heap) : Nat → Chunk → String → String
  | 0, _, _ => ""
  | depth + 1, c, title =>
    let code := c.listCode h c.size 0 ("== " ++ title ++ " ==\n")
    c.constants.items.foldl (fun text value =>
      match value.handle?.bind h.function? with
      | some f => text ++ listNested h depth f.chunk (h.functionText f)
      | none => text) code

/-- The listing of a chunk under a title. A function is allocated after the functions among its
constants, so the number of cells bounds the nesting. -/
def listing (c : Chunk) (h : Heap) (title : String) : String :=
  listNested h (h.cells.size + 1) c title

end Chunk

/-- The listing of a function object, and the empty text for anything else. -/
def Heap.listing (h : Heap) (handle : Handle) : String :=
  match h.function? handle with
  | some f => f.chunk.listing h (h.functionText f)
  | none => ""

end Lox
