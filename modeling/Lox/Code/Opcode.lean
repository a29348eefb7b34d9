/-! Instructions of the stack machine and their byte encoding. An instruction is one opcode byte
and zero, one or two operand bytes; two-byte operands are little-endian. -/

namespace Lox

/-- What an instruction does. -/
inductive Opcode where
  /-- Push the constant with a one-byte index. -/
  | constant
  /-- Push the constant with a two-byte index. -/
  | constantWide
  | pushNil
  | pushTrue
  | pushFalse
  | pop
  /-- Push the local variable in a slot of the current frame. -/
  | getLocal
  /-- Store the top of the stack in a slot of the current frame, and leave it there. -/
  | setLocal
  | getGlobal
  | defineGlobal
  | setGlobal
  | add
  | subtract
  | multiply
  | divide
  | negate
  | equal
  | notEqual
  | greater
  | greaterEqual
  | less
  | lessEqual
  | not
  | jump
  /-- Jump if the top of the stack counts as false, and leave it there. -/
  | jumpIfFalse
  /-- Jump backwards. -/
  | loop
  /-- Call the value below the given number of arguments. -/
  | call
  | ret
  | print
  deriving DecidableEq, Repr, Inhabited

namespace Opcode

/-- The byte that stands for an opcode. -/
def toByte : Opcode → UInt8
  | .constant => 0x00
  | .constantWide => 0x01
  | .pushNil => 0x08
  | .pushTrue => 0x09
  | .pushFalse => 0x0A
  | .pop => 0x10
  | .getLocal => 0x18
  | .setLocal => 0x19
  | .getGlobal => 0x20
  | .defineGlobal => 0x21
  | .setGlobal => 0x22
  | .add => 0x30
  | .subtract => 0x31
  | .multiply => 0x32
  | .divide => 0x33
  | .negate => 0x38
  | .equal => 0x40
  | .notEqual => 0x41
  | .greater => 0x42
  | .greaterEqual => 0x43
  | .less => 0x44
  | .lessEqual => 0x45
  | .not => 0x48
  | .jump => 0x50
  | .jumpIfFalse => 0x51
  | .loop => 0x52
  | .call => 0x60
  | .ret => 0x61
  | .print => 0x70

/-- The opcode that a byte stands for, if any. -/
def ofByte? (byte : UInt8) : Option Opcode :=
  match byte.toNat with
  | 0x00 => some .constant
  | 0x01 => some .constantWide
  | 0x08 => some .pushNil
  | 0x09 => some .pushTrue
  | 0x0A => some .pushFalse
  | 0x10 => some .pop
  | 0x18 => some .getLocal
  | 0x19 => some .setLocal
  | 0x20 => some .getGlobal
  | 0x21 => some .defineGlobal
  | 0x22 => some .setGlobal
  | 0x30 => some .add
  | 0x31 => some .subtract
  | 0x32 => some .multiply
  | 0x33 => some .divide
  | 0x38 => some .negate
  | 0x40 => some .equal
  | 0x41 => some .notEqual
  | 0x42 => some .greater
  | 0x43 => some .greaterEqual
  | 0x44 => some .less
  | 0x45 => some .lessEqual
  | 0x48 => some .not
  | 0x50 => some .jump
  | 0x51 => some .jumpIfFalse
  | 0x52 => some .loop
  | 0x60 => some .call
  | 0x61 => some .ret
  | 0x70 => some .print
  | _ => none

/-- The name of an opcode in a listing. -/
def mnemonic : Opcode → String
  | .constant => "OP_CONSTANT"
  | .constantWide => "OP_CONSTANT_WIDE"
  | .pushNil => "OP_NIL"
  | .pushTrue => "OP_TRUE"
  | .pushFalse => "OP_FALSE"
  | .pop => "OP_POP"
  | .getLocal => "OP_GET_LOCAL"
  | .setLocal => "OP_SET_LOCAL"
  | .getGlobal => "OP_GET_GLOBAL"
  | .defineGlobal => "OP_DEFINE_GLOBAL"
  | .setGlobal => "OP_SET_GLOBAL"
  | .add => "OP_ADD"
  | .subtract => "OP_SUBTRACT"
  | .multiply => "OP_MULTIPLY"
  | .divide => "OP_DIVIDE"
  | .negate => "OP_NEGATE"
  | .equal => "OP_EQUAL"
  | .notEqual => "OP_NOT_EQUAL"
  | .greater => "OP_GREATER"
  | .greaterEqual => "OP_GREATER_EQUAL"
  | .less => "OP_LESS"
  | .lessEqual => "OP_LESS_EQUAL"
  | .not => "OP_NOT"
  | .jump => "OP_JUMP"
  | .jumpIfFalse => "OP_JUMP_IF_FALSE"
  | .loop => "OP_LOOP"
  | .call => "OP_CALL"
  | .ret => "OP_RETURN"
  | .print => "OP_PRINT"

/-- The number of operand bytes after the opcode. -/
def operandSize : Opcode → Nat
  | .constant | .getLocal | .setLocal | .getGlobal | .defineGlobal | .setGlobal | .call => 1
  | .constantWide | .jump | .jumpIfFalse | .loop => 2
  | _ => 0

/-- Every opcode is read back from its byte. -/
@[simp] theorem ofByte?_toByte (op : Opcode) : ofByte? op.toByte = some op := by
  cases op <;> rfl

end Opcode

end Lox
