import ProcLowering.Fault
import ProcLowering.Code.Reference

set_option autoImplicit false

namespace ProcLowering

structure CodeByte where
  value : UInt8
  line : UInt32
deriving DecidableEq, Repr, Inhabited

structure Chunk where
  bytes : Array CodeByte := #[]
deriving DecidableEq, Repr, Inhabited

def wordBytes (word : UInt16) : List UInt8 :=
  [UInt8.ofNat (word.toNat / 0x100), UInt8.ofNat word.toNat]

def doubleBytes (double : UInt32) : List UInt8 :=
  [UInt8.ofNat (double.toNat / 0x1000000), UInt8.ofNat (double.toNat / 0x10000),
    UInt8.ofNat (double.toNat / 0x100), UInt8.ofNat double.toNat]

def wordOf (high low : UInt8) : UInt16 := UInt16.ofNat (high.toNat * 0x100 + low.toNat)

def doubleOf (a b c d : UInt8) : UInt32 :=
  UInt32.ofNat (((a.toNat * 0x100 + b.toNat) * 0x100 + c.toNat) * 0x100 + d.toNat)

namespace Chunk

def size (chunk : Chunk) : Nat := chunk.bytes.size

def isEmpty (chunk : Chunk) : Bool := chunk.bytes.isEmpty

def code (chunk : Chunk) : List UInt8 := chunk.bytes.toList.map (·.value)

def lines (chunk : Chunk) : List UInt32 := chunk.bytes.toList.map (·.line)

def lineRuns (chunk : Chunk) : List (UInt32 × Nat) :=
  (chunk.bytes.foldl (fun runs byte =>
    match runs with
    | (line, count) :: rest =>
      if line = byte.line then (line, count + 1) :: rest else (byte.line, 1) :: runs
    | [] => [(byte.line, 1)]) []).reverse

def write (chunk : Chunk) (values : List UInt8) (line : UInt32) : Chunk :=
  ⟨chunk.bytes ++ values.map (CodeByte.mk · line)⟩

@[simp] theorem code_write (chunk : Chunk) (values : List UInt8) (line : UInt32) :
    (chunk.write values line).code = chunk.code ++ values := by
  simp [code, write, Function.comp_def]

@[simp] theorem lines_write (chunk : Chunk) (values : List UInt8) (line : UInt32) :
    (chunk.write values line).lines = chunk.lines ++ List.replicate values.length line := by
  simp [lines, write, Function.comp_def, List.map_const']

@[simp] theorem size_write (chunk : Chunk) (values : List UInt8) (line : UInt32) :
    (chunk.write values line).size = chunk.size + values.length := by
  simp [size, write, ← Array.length_toList]

def byte? (chunk : Chunk) (offset : Nat) : Option UInt8 := chunk.bytes[offset]?.map (·.value)

def line? (chunk : Chunk) (offset : Nat) : Option UInt32 := chunk.bytes[offset]?.map (·.line)

def word? (chunk : Chunk) (offset : Nat) : Option UInt16 := do
  return wordOf (← chunk.byte? offset) (← chunk.byte? (offset + 1))

def double? (chunk : Chunk) (offset : Nat) : Option UInt32 := do
  return doubleOf (← chunk.byte? offset) (← chunk.byte? (offset + 1)) (← chunk.byte? (offset + 2))
    (← chunk.byte? (offset + 3))

def opcode? (chunk : Chunk) (offset : Nat) : Option Opcode := do
  Opcode.ofByte? (← chunk.byte? offset)

def setByte (chunk : Chunk) (offset : Nat) (value : UInt8) : Chunk :=
  ⟨chunk.bytes.modify offset fun old => { old with value }⟩

def openJump : UInt16 := 0xFFFF

def writeJump (chunk : Chunk) (op : Opcode) (line : UInt32) : Chunk :=
  chunk.write (op.byte :: wordBytes openJump) line

def patchByte (place : Nat) (value : UInt8) : EStateM Fault Chunk Unit := do
  if (← get).size ≤ place then throw (.outsideCode place)
  modify fun chunk => chunk.setByte place value

/-- Makes the jump with the given operand land on `target`. The distance is counted from behind the
operand, which must be a 64-bit offset as well. -/
def patchJump (operand target : Nat) : EStateM Fault Chunk Unit := do
  if UInt64.size ≤ operand + 2 then throw (.outsideCode operand)
  if target < operand + 2 then throw (.backwardJump operand target)
  let distance := target - (operand + 2)
  if 0xFFFF < distance then throw (.jumpTooFar distance)
  patchByte operand (UInt8.ofNat (distance / 0x100))
  patchByte (operand + 1) (UInt8.ofNat distance)

def instructionLength? (chunk : Chunk) (offset : Nat) : Option Nat := do
  let op ← chunk.opcode? offset
  match op with
  | .pushArguments => return 2 + 2 * (← chunk.byte? (offset + 1)).toNat
  | .call => return 2 + (← ReferenceKind.ofByte? (← chunk.byte? (offset + 1))).payloadSize
  | _ => return 1 + op.operandSize

structure Reading where
  byte : Option UInt8
  word : Option UInt16
  double : Option UInt32
  opcode : Option Opcode
  line : Option UInt32
  length : Option Nat
deriving DecidableEq, Repr, Inhabited

/-- Reads at an offset, which need not lie within the code; but offsets are 64-bit, and the one
behind the widest read must be among them. -/
def read (chunk : Chunk) (offset : Nat) : Except Fault Reading :=
  if offset + 4 < UInt64.size then
    .ok {
      byte := chunk.byte? offset
      word := chunk.word? offset
      double := chunk.double? offset
      opcode := chunk.opcode? offset
      line := chunk.line? offset
      length := chunk.instructionLength? offset }
  else .error (.outsideCode offset)

def opcodesFrom (chunk : Chunk) : Nat → Nat → Array Opcode → Array Opcode
  | 0, _, found => found
  | fuel + 1, offset, found =>
    match chunk.opcode? offset, chunk.instructionLength? offset with
    | some op, some length => chunk.opcodesFrom fuel (offset + length) (found.push op)
    | _, _ => found

def opcodes (chunk : Chunk) : List Opcode := (chunk.opcodesFrom chunk.size 0 #[]).toList

def containsOpcodes (chunk : Chunk) (expected : List Opcode) : Bool :=
  expected.isSublist chunk.opcodes

end Chunk

end ProcLowering
