import ProcLowering.Code.Constant
import ProcLowering.Code.Chunk

set_option autoImplicit false

namespace ProcLowering

inductive Instruction where
  | pushNull
  | pushConstant (constant : Constant)
  | pop
  | getLocal (slot : UInt16)
  | setLocal (slot : UInt16)
  | pushSelf
  | pushSrc
  | dereferenceField (name : String)
  | operator (op : Opcode)
  | pushArguments (names : List (Option String))
  | pushProcArguments
  | call (reference : Reference)
  | jumpIfNullDereference (target : Nat)
  | ret
deriving DecidableEq, Repr, Inhabited

inductive DecodeError where
  | invalidOpcode (offset : Nat) (byte : UInt8)
  | invalidReferenceKind (offset : Nat) (byte : UInt8)
  | invalidReceiver (offset : Nat) (byte : UInt8)
  | truncated (offset : Nat)
  | badConstant (place : Nat)
deriving DecidableEq, Repr

def hexByte (byte : UInt8) : String :=
  String.ofList [Nat.digitChar (byte.toNat / 16), Nat.digitChar (byte.toNat % 16)]

def DecodeError.message : DecodeError → String
  | .invalidOpcode offset byte =>
    let hex := hexByte byte
    s!"invalid opcode 0x{hex} at offset {offset}"
  | .invalidReferenceKind offset byte =>
    let hex := hexByte byte
    s!"invalid reference kind 0x{hex} at offset {offset}"
  | .invalidReceiver offset byte =>
    let hex := hexByte byte
    s!"invalid receiver 0x{hex} at offset {offset}"
  | .truncated offset => s!"truncated operand at offset {offset}"
  | .badConstant place => s!"constant {place} is missing or not a string"

/-- In an argument list, stands for an argument without a name. -/
def positionalArgument : UInt16 := 0xFFFF

abbrev Decoder := StateT Nat (Except DecodeError)

namespace Decoder

def take {α : Type} (width : Nat) (read? : Nat → Option α) : Decoder α := do
  let offset ← get
  match read? offset with
  | none => throw (.truncated offset)
  | some value =>
    set (offset + width)
    return value

def byte (chunk : Chunk) : Decoder UInt8 := take 1 chunk.byte?

def word (chunk : Chunk) : Decoder UInt16 := take 2 chunk.word?

def double (chunk : Chunk) : Decoder UInt32 := take 4 chunk.double?

def constant (chunk : Chunk) (pool : Pool) : Decoder Constant := do
  let place := (← word chunk).toNat
  match pool.get? place with
  | none => throw (.badConstant place)
  | some constant => return constant

def nameAt (pool : Pool) (place : UInt16) : Decoder String :=
  match pool.string? place.toNat with
  | none => throw (.badConstant place.toNat)
  | some name => return name

def name (chunk : Chunk) (pool : Pool) : Decoder String := do nameAt pool (← word chunk)

def argumentNames (chunk : Chunk) (pool : Pool) : Nat → Decoder (List (Option String))
  | 0 => return []
  | count + 1 => do
    let place ← word chunk
    let name ← if place = positionalArgument then pure none else some <$> nameAt pool place
    return name :: (← argumentNames chunk pool count)

def coded {α : Type} (chunk : Chunk) (ofByte? : UInt8 → Option α)
    (refuse : Nat → UInt8 → DecodeError) : Decoder α := do
  let offset ← get
  let code ← byte chunk
  match ofByte? code with
  | none => throw (refuse offset code)
  | some value => return value

def reference (chunk : Chunk) (pool : Pool) : Decoder Reference := do
  match ← coded chunk ReferenceKind.ofByte? .invalidReferenceKind with
  | .instanceProc =>
    let name ← name chunk pool
    return .instanceProc name (← coded chunk Receiver.ofByte? .invalidReceiver)
  | .globalProc => return .globalProc ⟨← double chunk⟩
  | .selfSlot => return .selfSlot
  | .superProc => return .superProc

def jumpTarget (chunk : Chunk) : Decoder Nat := do
  let distance ← word chunk
  return (← get) + distance.toNat

def instruction (chunk : Chunk) (pool : Pool) : Decoder Instruction := do
  let op ← coded chunk Opcode.ofByte? .invalidOpcode
  match op with
  | .pushNull => return .pushNull
  | .pushConstant => return .pushConstant (← constant chunk pool)
  | .pop => return .pop
  | .getLocal => return .getLocal (← byte chunk).toUInt16
  | .getLocalWide => return .getLocal (← word chunk)
  | .setLocal => return .setLocal (← byte chunk).toUInt16
  | .setLocalWide => return .setLocal (← word chunk)
  | .pushSelf => return .pushSelf
  | .pushSrc => return .pushSrc
  | .dereferenceField => return .dereferenceField (← name chunk pool)
  | .pushArguments => return .pushArguments (← argumentNames chunk pool (← byte chunk).toNat)
  | .pushProcArguments => return .pushProcArguments
  | .call => return .call (← reference chunk pool)
  | .jumpIfNullDereference => return .jumpIfNullDereference (← jumpTarget chunk)
  | .ret => return .ret
  | .negate | .bitNot | .not | .add | .subtract | .multiply | .divide | .modulus | .bitAnd
  | .bitOr | .bitXor | .bitShiftLeft | .bitShiftRight => return .operator op

end Decoder

structure Listing where
  instructions : Array (Nat × Instruction) := #[]
  stopped : Option DecodeError := none

namespace Chunk

def listingFrom (chunk : Chunk) (pool : Pool) : Nat → Nat → Array (Nat × Instruction) → Listing
  | 0, _, found => { instructions := found }
  | fuel + 1, offset, found =>
    if chunk.size ≤ offset then { instructions := found }
    else match (Decoder.instruction chunk pool).run offset with
      | .error error => { instructions := found, stopped := some error }
      | .ok (instruction, next) =>
        chunk.listingFrom pool fuel next (found.push (offset, instruction))

/-- Every instruction takes at least one byte, so the size of the code bounds their number. -/
def listing (chunk : Chunk) (pool : Pool) : Listing := chunk.listingFrom pool chunk.size 0 #[]

def decode (chunk : Chunk) (pool : Pool) : Except DecodeError (List (Nat × Instruction)) :=
  let listing := chunk.listing pool
  match listing.stopped with
  | some error => .error error
  | none => .ok listing.instructions.toList

end Chunk

end ProcLowering
