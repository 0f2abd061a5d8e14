set_option autoImplicit false

namespace ProcLowering

/-- Listed in the order of their byte codes, from zero. -/
inductive Opcode where
  | pushNull
  | pushConstant
  | pop
  | getLocal
  | getLocalWide
  | setLocal
  | setLocalWide
  | pushSelf
  | pushSrc
  | dereferenceField
  | negate
  | bitNot
  | not
  | add
  | subtract
  | multiply
  | divide
  | modulus
  | bitAnd
  | bitOr
  | bitXor
  | bitShiftLeft
  | bitShiftRight
  | pushArguments
  | pushProcArguments
  | call
  | jumpIfNullDereference
  | ret
deriving DecidableEq, Repr, Inhabited

namespace Opcode

def all : List Opcode :=
  [.pushNull, .pushConstant, .pop, .getLocal, .getLocalWide, .setLocal, .setLocalWide, .pushSelf,
    .pushSrc, .dereferenceField, .negate, .bitNot, .not, .add, .subtract, .multiply, .divide,
    .modulus, .bitAnd, .bitOr, .bitXor, .bitShiftLeft, .bitShiftRight, .pushArguments,
    .pushProcArguments, .call, .jumpIfNullDereference, .ret]

def byte (op : Opcode) : UInt8 := UInt8.ofNat op.ctorIdx

def ofByte? (byte : UInt8) : Option Opcode := all[byte.toNat]?

@[simp] theorem ofByte?_byte (op : Opcode) : ofByte? op.byte = some op := by
  cases op <;> rfl

def name : Opcode → String
  | .pushNull => "PushNull"
  | .pushConstant => "PushConstant"
  | .pop => "Pop"
  | .getLocal => "GetLocal"
  | .getLocalWide => "GetLocalWide"
  | .setLocal => "SetLocal"
  | .setLocalWide => "SetLocalWide"
  | .pushSelf => "PushSelf"
  | .pushSrc => "PushSrc"
  | .dereferenceField => "DereferenceField"
  | .negate => "Negate"
  | .bitNot => "BitNot"
  | .not => "Not"
  | .add => "Add"
  | .subtract => "Subtract"
  | .multiply => "Multiply"
  | .divide => "Divide"
  | .modulus => "Modulus"
  | .bitAnd => "BitAnd"
  | .bitOr => "BitOr"
  | .bitXor => "BitXor"
  | .bitShiftLeft => "BitShiftLeft"
  | .bitShiftRight => "BitShiftRight"
  | .pushArguments => "PushArguments"
  | .pushProcArguments => "PushProcArguments"
  | .call => "Call"
  | .jumpIfNullDereference => "JumpIfNullDereference"
  | .ret => "Return"

def ofName? (name : String) : Option Opcode := all.find? (·.name == name)

/-- The bytes of the operand; for argument lists and calls, those that are always there. -/
def operandSize : Opcode → Nat
  | .getLocal | .setLocal | .pushArguments | .call => 1
  | .pushConstant | .getLocalWide | .setLocalWide | .dereferenceField
  | .jumpIfNullDereference => 2
  | _ => 0

def plainEffect? : Opcode → Option Int
  | .pushNull | .pushSelf | .pushSrc | .pushProcArguments => some 1
  | .negate | .bitNot | .not => some 0
  | .pop | .ret | .add | .subtract | .multiply | .divide | .modulus | .bitAnd | .bitOr | .bitXor
  | .bitShiftLeft | .bitShiftRight => some (-1)
  | _ => none

end Opcode

end ProcLowering
