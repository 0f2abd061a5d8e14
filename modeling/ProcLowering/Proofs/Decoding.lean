import ProcLowering.Emit.Emitter
import ProcLowering.Proofs.General
import ProcLowering.Proofs.Pool

set_option autoImplicit false

namespace ProcLowering

theorem wordOf_bytes (word : UInt16) :
    wordOf (UInt8.ofNat (word.toNat / 0x100)) (UInt8.ofNat word.toNat) = word := by
  have bound := word.toNat_lt
  apply UInt16.toNat_inj.mp
  simp [wordOf]
  omega

theorem doubleOf_bytes (double : UInt32) :
    doubleOf (UInt8.ofNat (double.toNat / 0x1000000)) (UInt8.ofNat (double.toNat / 0x10000))
      (UInt8.ofNat (double.toNat / 0x100)) (UInt8.ofNat double.toNat) = double := by
  have bound := double.toNat_lt
  apply UInt32.toNat_inj.mp
  simp [doubleOf]
  omega

@[simp] theorem wordBytes_length (word : UInt16) : (wordBytes word).length = 2 := rfl

namespace Chunk

def Holds (chunk : Chunk) : Nat → List UInt8 → Prop
  | _, [] => True
  | offset, byte :: rest => chunk.byte? offset = some byte ∧ chunk.Holds (offset + 1) rest

theorem holds_append (chunk : Chunk) (offset : Nat) (first second : List UInt8) :
    chunk.Holds offset (first ++ second) ↔
      chunk.Holds offset first ∧ chunk.Holds (offset + first.length) second := by
  induction first generalizing offset with
  | nil => simp [Holds]
  | cons byte rest ih =>
    have shift : offset + 1 + rest.length = offset + (rest.length + 1) := by omega
    simp [Holds, ih, shift, and_assoc]

theorem byte?_eq (chunk : Chunk) (offset : Nat) : chunk.byte? offset = chunk.code[offset]? := by
  simp [byte?, code]

theorem holds_of_code {chunk : Chunk} {before bytes after : List UInt8}
    (code : chunk.code = before ++ (bytes ++ after)) : chunk.Holds before.length bytes := by
  induction bytes generalizing before with
  | nil => trivial
  | cons byte rest ih =>
    refine ⟨?_, ?_⟩
    · rw [byte?_eq, code]
      simp
    · have moved : chunk.code = (before ++ [byte]) ++ (rest ++ after) := by simp [code]
      simpa using ih moved

theorem Holds.word? {chunk : Chunk} {offset : Nat} {word : UInt16}
    (holds : chunk.Holds offset (wordBytes word)) : chunk.word? offset = some word := by
  simp only [Holds, wordBytes] at holds
  obtain ⟨high, low, -⟩ := holds
  simp only [Chunk.word?, high, low, Option.bind_eq_bind, Option.bind_some, wordOf_bytes]
  rfl

theorem Holds.double? {chunk : Chunk} {offset : Nat} {double : UInt32}
    (holds : chunk.Holds offset (doubleBytes double)) : chunk.double? offset = some double := by
  simp only [Holds, doubleBytes] at holds
  obtain ⟨a, b, c, d, -⟩ := holds
  simp only [Chunk.double?, a, b, c, d, Option.bind_eq_bind, Option.bind_some, doubleOf_bytes]
  rfl

end Chunk

namespace Decoder

theorem run_bind_ok {α β : Type} {first : Decoder α} {next : α → Decoder β}
    {offset middle : Nat} {value : α} (ran : first.run offset = .ok (value, middle)) :
    (first >>= next).run offset = (next value).run middle := by
  rw [StateT.run_bind, ran]
  rfl

theorem take_run {α : Type} {width offset : Nat} {read? : Nat → Option α} {value : α}
    (found : read? offset = some value) : (take width read?).run offset =
      .ok (value, offset + width) := by
  unfold take
  rw [StateT.run_bind, StateT.run_get, pure_bind, found]
  rfl

theorem coded_run {α : Type} {chunk : Chunk} {offset : Nat} {code : UInt8} {value : α}
    {ofByte? : UInt8 → Option α} (refuse : Nat → UInt8 → DecodeError)
    (found : chunk.byte? offset = some code) (known : ofByte? code = some value) :
    (coded chunk ofByte? refuse).run offset = .ok (value, offset + 1) := by
  have read : (byte chunk).run offset = .ok (code, offset + 1) := take_run found
  unfold coded
  rw [StateT.run_bind, StateT.run_get, pure_bind, run_bind_ok read, known]
  rfl

theorem word_run {chunk : Chunk} {offset : Nat} {value : UInt16}
    (holds : chunk.Holds offset (wordBytes value)) :
    (word chunk).run offset = .ok (value, offset + 2) :=
  take_run holds.word?

theorem nameAt_run {pool : Pool} {place : UInt16} {text : String} (offset : Nat)
    (named : pool.string? place.toNat = some text) : (nameAt pool place).run offset =
      .ok (text, offset) := by
  simp only [nameAt, named]
  rfl

theorem name_run {chunk : Chunk} {pool : Pool} {offset : Nat} {place : UInt16} {text : String}
    (holds : chunk.Holds offset (wordBytes place)) (named : pool.string? place.toNat = some text) :
    (name chunk pool).run offset = .ok (text, offset + 2) := by
  rw [name, run_bind_ok (word_run holds), nameAt_run _ named]

end Decoder

def Pool.Names (pool : Pool) (operand : UInt16) : Option String → Prop
  | none => operand = positionalArgument
  | some name => operand ≠ positionalArgument ∧ pool.string? operand.toNat = some name

theorem Pool.Extends.string? {pool later : Pool} (grown : pool.Extends later) {place : Nat}
    {text : String} (named : pool.string? place = some text) : later.string? place = some text := by
  obtain ⟨held, found, read⟩ := Option.bind_eq_some_iff.mp named
  exact Option.bind_eq_some_iff.mpr ⟨held, grown.get? found, read⟩

theorem Pool.Extends.names {pool later : Pool} (grown : pool.Extends later) {operand : UInt16}
    {name : Option String} (named : pool.Names operand name) : later.Names operand name := by
  cases name with
  | none => exact named
  | some text => exact ⟨named.1, grown.string? named.2⟩

theorem Decoder.argumentNames_run {chunk : Chunk} {pool : Pool} {operands : List UInt16}
    {names : List (Option String)} (named : List.Forall₂ pool.Names operands names) (offset : Nat)
    (holds : chunk.Holds offset (operands.flatMap wordBytes)) :
    (argumentNames chunk pool names.length).run offset =
      .ok (names, offset + 2 * names.length) := by
  induction named generalizing offset with
  | nil => rfl
  | @cons operand name operands names head tail ih =>
    rw [List.flatMap_cons, Chunk.holds_append, wordBytes_length] at holds
    have rest := ih (offset + 2) holds.2
    have last : offset + 2 + 2 * names.length = offset + 2 * (names.length + 1) := by omega
    rw [last] at rest
    rw [List.length_cons, argumentNames, run_bind_ok (word_run holds.1)]
    cases name with
    | none =>
      have positional : operand = positionalArgument := head
      have read : (pure none : Decoder (Option String)).run (offset + 2) =
        .ok (none, offset + 2) := rfl
      simp only [positional, if_true]
      rw [run_bind_ok read, run_bind_ok rest]
      rfl
    | some text =>
      have read : (some <$> nameAt pool operand : Decoder (Option String)).run (offset + 2) =
          .ok (some text, offset + 2) := by
        rw [StateT.run_map, nameAt_run _ head.2]
        rfl
      simp only [head.1, if_false]
      rw [run_bind_ok read, run_bind_ok rest]
      rfl

/-- Written at the given offset, the bytes read as the instruction, with any later pool. -/
def Encodes (pool : Pool) (offset : Nat) (bytes : List UInt8) (instruction : Instruction) : Prop :=
  ∀ (chunk : Chunk) (later : Pool), pool.Extends later → chunk.Holds offset bytes →
    (Decoder.instruction chunk later).run offset = .ok (instruction, offset + bytes.length)

theorem Encodes.later {pool later : Pool} {offset : Nat} {bytes : List UInt8}
    {instruction : Instruction} (encodes : Encodes pool offset bytes instruction)
    (grown : pool.Extends later) :
    Encodes later offset bytes instruction :=
  fun chunk last more => encodes chunk last (grown.trans more)

def Opcode.plainInstruction : Opcode → Instruction
  | .pushNull => .pushNull
  | .pop => .pop
  | .pushSelf => .pushSelf
  | .pushSrc => .pushSrc
  | .pushProcArguments => .pushProcArguments
  | .ret => .ret
  | op => .operator op

namespace Encodes

theorem opcode_run {chunk : Chunk} {offset : Nat} {op : Opcode} {rest : List UInt8}
    (holds : chunk.Holds offset (op.byte :: rest)) :
    (Decoder.coded chunk Opcode.ofByte? .invalidOpcode).run offset = .ok (op, offset + 1) :=
  Decoder.coded_run _ holds.1 op.ofByte?_byte

theorem plain (pool : Pool) (offset : Nat) {op : Opcode} {effect : Int}
    (complete : op.plainEffect? = some effect) :
    Encodes pool offset [op.byte] op.plainInstruction := by
  intro chunk later _ holds
  rw [Decoder.instruction, Decoder.run_bind_ok (opcode_run holds)]
  cases op <;> first | rfl | simp [Opcode.plainEffect?] at complete

theorem constant {pool : Pool} (offset : Nat) {place : UInt16} {held : Constant}
    (found : pool.get? place.toNat = some held) :
    Encodes pool offset (Opcode.pushConstant.byte :: wordBytes place) (.pushConstant held) := by
  intro chunk later grown holds
  have read : (Decoder.constant chunk later).run (offset + 1) = .ok (held, offset + 3) := by
    rw [Decoder.constant, Decoder.run_bind_ok (Decoder.word_run holds.2)]
    simp only [grown.get? found]
    rfl
  rw [Decoder.instruction, Decoder.run_bind_ok (opcode_run holds), Decoder.run_bind_ok read]
  rfl

theorem slot {narrow wide : Opcode} {make : UInt16 → Instruction} (pool : Pool) (offset : Nat)
    (place : UInt16) (narrowly : ∀ (chunk : Chunk) (later : Pool) (start : Nat),
      (Decoder.coded chunk Opcode.ofByte? .invalidOpcode).run start = .ok (narrow, start + 1) →
        (Decoder.instruction chunk later).run start =
          (do return make (← Decoder.byte chunk).toUInt16 : Decoder Instruction).run (start + 1))
    (widely : ∀ (chunk : Chunk) (later : Pool) (start : Nat),
      (Decoder.coded chunk Opcode.ofByte? .invalidOpcode).run start = .ok (wide, start + 1) →
        (Decoder.instruction chunk later).run start =
          (do return make (← Decoder.word chunk) : Decoder Instruction).run (start + 1)) :
    Encodes pool offset (Emitter.slotBytes narrow wide place) (make place) := by
  intro chunk later _ holds
  unfold Emitter.slotBytes at holds ⊢
  split at holds
  · next small =>
    have same : (UInt8.ofNat place.toNat).toUInt16 = place := by
      apply UInt16.toNat_inj.mp
      simp
      omega
    have read : (Decoder.byte chunk).run (offset + 1) = .ok (UInt8.ofNat place.toNat, offset + 2) :=
      Decoder.take_run holds.2.1
    rw [if_pos small, narrowly chunk later offset (opcode_run holds),
      Decoder.run_bind_ok read, same]
    rfl
  · next large =>
    rw [if_neg large, widely chunk later offset (opcode_run holds),
      Decoder.run_bind_ok (Decoder.word_run holds.2)]
    rfl

theorem getLocal (pool : Pool) (offset : Nat) (place : UInt16) :
    Encodes pool offset (Emitter.slotBytes .getLocal .getLocalWide place) (.getLocal place) := by
  apply slot
  all_goals
    intro chunk later start read
    rw [Decoder.instruction, Decoder.run_bind_ok read]

theorem setLocal (pool : Pool) (offset : Nat) (place : UInt16) :
    Encodes pool offset (Emitter.slotBytes .setLocal .setLocalWide place) (.setLocal place) := by
  apply slot
  all_goals
    intro chunk later start read
    rw [Decoder.instruction, Decoder.run_bind_ok read]

theorem field {pool : Pool} (offset : Nat) {place : UInt16} {text : String}
    (named : pool.string? place.toNat = some text) :
    Encodes pool offset (Opcode.dereferenceField.byte :: wordBytes place)
      (.dereferenceField text) := by
  intro chunk later grown holds
  rw [Decoder.instruction, Decoder.run_bind_ok (opcode_run holds),
    Decoder.run_bind_ok (Decoder.name_run holds.2 (grown.string? named))]
  rfl

theorem arguments {pool : Pool} (offset : Nat) {operands : List UInt16}
    {names : List (Option String)} (named : List.Forall₂ pool.Names operands names)
    (few : names.length ≤ 0xFF) :
    Encodes pool offset
      (Opcode.pushArguments.byte :: UInt8.ofNat names.length :: operands.flatMap wordBytes)
      (.pushArguments names) := by
  intro chunk later grown holds
  have count : (UInt8.ofNat names.length).toNat = names.length := by
    simp
    omega
  have read : (Decoder.byte chunk).run (offset + 1) = .ok (UInt8.ofNat names.length, offset + 2) :=
    Decoder.take_run holds.2.1
  have names := Decoder.argumentNames_run (named.imp fun _ _ => grown.names) (offset + 2) holds.2.2
  rw [Decoder.instruction, Decoder.run_bind_ok (opcode_run holds)]
  simp only
  rw [Decoder.run_bind_ok read, count, Decoder.run_bind_ok names]
  have width : (operands.flatMap wordBytes).length = 2 * operands.length := by
    simp [List.length_flatMap, Nat.mul_comm]
  simp only [List.length_cons, width, named.length_eq]
  show Except.ok _ = Except.ok _
  congr 2
  omega

theorem call_run {chunk : Chunk} {pool : Pool} {offset next : Nat} {reference : Reference}
    {rest : List UInt8} (holds : chunk.Holds offset (Opcode.call.byte :: rest))
    (read : (Decoder.reference chunk pool).run (offset + 1) = .ok (reference, next)) :
    (Decoder.instruction chunk pool).run offset = .ok (.call reference, next) := by
  rw [Decoder.instruction, Decoder.run_bind_ok (opcode_run holds), Decoder.run_bind_ok read]
  rfl

theorem kind_run {chunk : Chunk} {offset : Nat} {kind : ReferenceKind} {rest : List UInt8}
    (holds : chunk.Holds offset (kind.byte :: rest)) :
    (Decoder.coded chunk ReferenceKind.ofByte? .invalidReferenceKind).run offset =
      .ok (kind, offset + 1) :=
  Decoder.coded_run _ holds.1 kind.ofByte?_byte

theorem callInstance {pool : Pool} (offset : Nat) {place : UInt16} {text : String}
    (receiver : Receiver) (named : pool.string? place.toNat = some text) :
    Encodes pool offset
      (Opcode.call.byte :: ReferenceKind.instanceProc.byte :: (wordBytes place ++ [receiver.byte]))
      (.call (.instanceProc text receiver)) := by
  intro chunk later grown holds
  have payload := (chunk.holds_append _ _ _).mp holds.2.2
  have side : (Decoder.coded chunk Receiver.ofByte? .invalidReceiver).run (offset + 4) =
      .ok (receiver, offset + 5) :=
    Decoder.coded_run _ payload.2.1 receiver.ofByte?_byte
  apply call_run holds
  rw [Decoder.reference, Decoder.run_bind_ok (kind_run holds.2)]
  simp only
  rw [Decoder.run_bind_ok (Decoder.name_run payload.1 (grown.string? named)),
    Decoder.run_bind_ok side]
  rfl

theorem callGlobal (pool : Pool) (offset : Nat) (proc : ProcId) :
    Encodes pool offset (Opcode.call.byte :: ReferenceKind.globalProc.byte :: doubleBytes proc.raw)
      (.call (.globalProc proc)) := by
  intro chunk later _ holds
  have read : (Decoder.double chunk).run (offset + 2) = .ok (proc.raw, offset + 6) :=
    Decoder.take_run (Chunk.Holds.double? holds.2.2)
  apply call_run holds
  rw [Decoder.reference, Decoder.run_bind_ok (kind_run holds.2)]
  simp only
  rw [Decoder.run_bind_ok read]
  rfl

theorem callSelf (pool : Pool) (offset : Nat) :
    Encodes pool offset [Opcode.call.byte, ReferenceKind.selfSlot.byte] (.call .selfSlot) := by
  intro chunk later _ holds
  apply call_run holds
  rw [Decoder.reference, Decoder.run_bind_ok (kind_run holds.2)]
  rfl

theorem callSuper (pool : Pool) (offset : Nat) :
    Encodes pool offset [Opcode.call.byte, ReferenceKind.superProc.byte] (.call .superProc) := by
  intro chunk later _ holds
  apply call_run holds
  rw [Decoder.reference, Decoder.run_bind_ok (kind_run holds.2)]
  rfl

theorem jump (pool : Pool) (offset : Nat) (distance : UInt16) :
    Encodes pool offset (Opcode.jumpIfNullDereference.byte :: wordBytes distance)
      (.jumpIfNullDereference (offset + 3 + distance.toNat)) := by
  intro chunk later _ holds
  have read : (Decoder.jumpTarget chunk).run (offset + 1) =
    .ok (offset + 3 + distance.toNat, offset + 3) := by
    rw [Decoder.jumpTarget, Decoder.run_bind_ok (Decoder.word_run holds.2)]
    rfl
  rw [Decoder.instruction, Decoder.run_bind_ok (opcode_run holds), Decoder.run_bind_ok read]
  rfl

end Encodes

inductive Listed (chunk : Chunk) (pool : Pool) : Nat → List (Nat × Instruction) → Nat → Prop
  | nil (offset : Nat) : Listed chunk pool offset [] offset
  | cons {offset next last : Nat} {instruction : Instruction} {rest : List (Nat × Instruction)}
      (read : (Decoder.instruction chunk pool).run offset = .ok (instruction, next))
      (moves : offset < next) (tail : Listed chunk pool next rest last) :
      Listed chunk pool offset ((offset, instruction) :: rest) last

namespace Listed

variable {chunk : Chunk} {pool : Pool} {first middle last : Nat}
    {listing : List (Nat × Instruction)}

theorem append {more : List (Nat × Instruction)} (head : Listed chunk pool first listing middle)
    (tail : Listed chunk pool middle more last) :
      Listed chunk pool first (listing ++ more) last := by
  induction head with
  | nil => exact tail
  | cons read moves _ ih => exact .cons read moves (ih tail)

theorem length_le (listed : Listed chunk pool first listing last) :
    first + listing.length ≤ last := by
  induction listed with
  | nil => simp
  | cons _ moves _ ih =>
    rw [List.length_cons]
    omega

theorem listingFrom_eq (listed : Listed chunk pool first listing chunk.size) (fuel : Nat)
    (enough : listing.length ≤ fuel) (found : Array (Nat × Instruction)) :
    chunk.listingFrom pool fuel first found = { instructions := found ++ listing } := by
  generalize atEnd : chunk.size = last at listed
  induction listed generalizing fuel found with
  | nil offset => cases fuel <;> simp [Chunk.listingFrom, atEnd]
  | @cons offset next last instruction rest read moves tail ih =>
    cases fuel with
    | zero => simp at enough
    | succ fuel =>
      have inside : ¬ chunk.size ≤ offset := by
        have := tail.length_le
        omega
      have more := ih fuel (by simpa using enough) (found.push (offset, instruction)) atEnd
      simp [Chunk.listingFrom, inside, read, more]

theorem decode_eq (listed : Listed chunk pool 0 listing chunk.size) :
    chunk.decode pool = .ok listing := by
  have enough : listing.length ≤ chunk.size := by simpa using listed.length_le
  simp [Chunk.decode, Chunk.listing, listed.listingFrom_eq chunk.size enough]

end Listed

end ProcLowering
