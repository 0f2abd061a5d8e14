import ProcLowering.Code.Instruction
import ProcLowering.Emit.Label

set_option autoImplicit false

namespace ProcLowering

structure Emitter where
  chunk : Chunk := {}
  pool : Pool := {}
  labels : Labels := {}
  line : UInt32 := 1
  -- Steps of a body with fewer than 2^31 nodes keep both depths within 32 bits.
  depth : Int := 0
  maxDepth : Int := 0
  reachable : Bool := true

instance : Inhabited Emitter := ⟨{}⟩

abbrev Emission := EStateM Fault Emitter

namespace Emitter

def poolLimit : Nat := 0xFFFF

def adjusted (emitter : Emitter) (effect : Int) : Emitter :=
  { emitter with
    depth := emitter.depth + effect
    maxDepth := max emitter.maxDepth (emitter.depth + effect) }

def write (values : List UInt8) (effect : Int) : Emission Unit :=
  modify fun emitter =>
    { emitter with chunk := emitter.chunk.write values emitter.line }.adjusted effect

def setLine (line : UInt32) : Emission Unit := modify fun emitter => { emitter with line }

def addConstant (constant : Constant) : Emission Nat :=
  modifyGet fun emitter =>
    let (place, pool) := emitter.pool.add constant
    (place, { emitter with pool })

/-- The operand for a constant, which is in the pool from now on even
if its place does not fit an operand. -/
def constantOperand (constant : Constant) : Emission UInt16 := do
  let place ← addConstant constant
  if place < poolLimit then return UInt16.ofNat place
  throw (.constantPoolFull poolLimit)

def nameOperand (name : String) : Emission UInt16 := constantOperand (.string name)

def plain (op : Opcode) : Emission Unit := do
  match op.plainEffect? with
  | none => throw (.needsOperands op)
  | some effect =>
    write [op.byte] effect
    if op = .ret then modify fun emitter => { emitter with reachable := false }

def pushNull : Emission Unit := write [Opcode.pushNull.byte] 1

def pushSelf : Emission Unit := write [Opcode.pushSelf.byte] 1

def pushSrc : Emission Unit := write [Opcode.pushSrc.byte] 1

def pop : Emission Unit := write [Opcode.pop.byte] (-1)

def pushConstant (constant : Constant) : Emission Unit := do
  let operand ← constantOperand constant
  write (Opcode.pushConstant.byte :: wordBytes operand) 1

def slotBytes (narrow wide : Opcode) (slot : UInt16) : List UInt8 :=
  if slot.toNat < 0x100 then [narrow.byte, UInt8.ofNat slot.toNat] else wide.byte :: wordBytes slot

def getLocal (slot : UInt16) : Emission Unit := write (slotBytes .getLocal .getLocalWide slot) 1

def setLocal (slot : UInt16) : Emission Unit := write (slotBytes .setLocal .setLocalWide slot) (-1)

def dereferenceField (name : String) : Emission Unit := do
  let operand ← nameOperand name
  write (Opcode.dereferenceField.byte :: wordBytes operand) 0

def argumentOperands : List (Option String) → Emission (List UInt16)
  | [] => return []
  | none :: rest => return positionalArgument :: (← argumentOperands rest)
  | some name :: rest => do
    let operand ← nameOperand name
    return operand :: (← argumentOperands rest)

def pushArguments (names : List (Option String)) : Emission Unit := do
  if 0xFF < names.length then throw (.argumentCount names.length)
  let operands ← argumentOperands names
  write (Opcode.pushArguments.byte :: UInt8.ofNat names.length :: operands.flatMap wordBytes)
    (1 - names.length)

def pushCallerArguments : Emission Unit := write [Opcode.pushProcArguments.byte] 1

def referencePayload : Reference → Emission (List UInt8)
  | .instanceProc name receiver => do
    let operand ← nameOperand name
    return wordBytes operand ++ [receiver.byte]
  | .globalProc proc => return doubleBytes proc.raw
  | .selfSlot | .superProc => return []

/-- A call replaces the argument list, and the receiver below it if there is one, by the result. -/
def call (reference : Reference) : Emission Unit := do
  let payload ← referencePayload reference
  write (Opcode.call.byte :: reference.kind.byte :: payload)
    (if reference.takesReceiver then -1 else 0)

def allocateLabel : Emission Label :=
  modifyGet fun emitter =>
    let (label, labels) := emitter.labels.allocate
    (label, { emitter with labels })

def onLabels {α : Type} (step : EStateM Fault Labels α) : Emission α
  | ⟨chunk, pool, labels, line, depth, maxDepth, reachable⟩ =>
    match step labels with
    | .ok value labels => .ok value ⟨chunk, pool, labels, line, depth, maxDepth, reachable⟩
    | .error fault labels => .error fault ⟨chunk, pool, labels, line, depth, maxDepth, reachable⟩

def skipIfNull (label : Label) : Emission Unit := do
  modify fun emitter =>
    { emitter with chunk := emitter.chunk.writeJump .jumpIfNullDereference emitter.line }
  let emitter ← get
  onLabels (Labels.addJump label (emitter.chunk.size - 2) emitter.depth)

def onChunk {α : Type} (step : EStateM Fault Chunk α) : Emission α
  | ⟨chunk, pool, labels, line, depth, maxDepth, reachable⟩ =>
    match step chunk with
    | .ok value chunk => .ok value ⟨chunk, pool, labels, line, depth, maxDepth, reachable⟩
    | .error fault chunk => .error fault ⟨chunk, pool, labels, line, depth, maxDepth, reachable⟩

/-- The depth with which the code before the current offset runs into it, if it does. -/
def fallthrough (emitter : Emitter) : Option Int :=
  if emitter.reachable then some emitter.depth else none

def bindLabel (label : Label) : Emission Unit := do
  let emitter ← get
  let target := emitter.chunk.size
  let state ← onLabels (Labels.bind label target emitter.fallthrough)
  onChunk (state.pending.reverse.forM fun operand => Chunk.patchJump operand target)
  if let some depth := state.depth then
    modify fun emitter => { emitter with depth, reachable := true }

def finish (emitter : Emitter) : Except Fault (Chunk × Pool) := do
  emitter.labels.checkBound
  return (emitter.chunk, emitter.pool)

end Emitter

end ProcLowering
