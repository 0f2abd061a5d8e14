import ProcLowering.Proofs.Emission
import ProcLowering.Proofs.Label

set_option autoImplicit false

namespace ProcLowering.Emitter

inductive Op where
  | setLine (number : UInt32)
  | plain (op : Opcode)
  | null
  | constant (value : Constant)
  | getLocal (slot : UInt16)
  | setLocal (slot : UInt16)
  | pushSelf
  | pushSrc
  | field (name : String)
  | pop
  | arguments (names : List (Option String))
  | callerArguments
  | call (reference : Reference)
  | allocateLabel
  | skipIfNull (label : Label)
  | bindLabel (label : Label)
deriving DecidableEq, Repr

namespace Op

def run : Op → Emission Unit
  | .setLine number => Emitter.setLine number
  | .plain op => Emitter.plain op
  | .null => pushNull
  | .constant value => pushConstant value
  | .getLocal slot => Emitter.getLocal slot
  | .setLocal slot => Emitter.setLocal slot
  | .pushSelf => Emitter.pushSelf
  | .pushSrc => Emitter.pushSrc
  | .field name => dereferenceField name
  | .pop => Emitter.pop
  | .arguments names => pushArguments names
  | .callerArguments => pushCallerArguments
  | .call reference => Emitter.call reference
  | .allocateLabel => discard Emitter.allocateLabel
  | .skipIfNull label => Emitter.skipIfNull label
  | .bindLabel label => Emitter.bindLabel label

def runAll : List Op → Emission Unit
  | [] => return ()
  | op :: rest => do
    op.run
    runAll rest

def writes : Op → Bool
  | .setLine _ | .allocateLabel | .bindLabel _ => false
  | _ => true

def lineAfter (line : UInt32) : Op → UInt32
  | .setLine number => number
  | _ => line

/-- For each operation the line that was set last before it, which is `line` if none was. -/
def lines (line : UInt32) : List Op → List UInt32
  | [] => []
  | op :: rest => line :: lines (op.lineAfter line) rest

def instruction? : Op → Option Instruction
  | .plain op => some op.plainInstruction
  | .null => some .pushNull
  | .constant value => some (.pushConstant value)
  | .getLocal slot => some (.getLocal slot)
  | .setLocal slot => some (.setLocal slot)
  | .pushSelf => some .pushSelf
  | .pushSrc => some .pushSrc
  | .field name => some (.dereferenceField name)
  | .pop => some .pop
  | .arguments names => some (.pushArguments names)
  | .callerArguments => some .pushProcArguments
  | .call reference => some (.call reference)
  | .setLine _ | .allocateLabel | .skipIfNull _ | .bindLabel _ => none

theorem writes_of_instruction? {op : Op} {instruction : Instruction}
    (given : op.instruction? = some instruction) :
    op.writes = true := by
  cases op with
  | setLine | allocateLabel | bindLabel => cases given
  | _ => rfl

theorem lineAfter_of_instruction? {op : Op} {instruction : Instruction}
    (given : op.instruction? = some instruction) (line : UInt32) : op.lineAfter line = line := by
  cases op with
  | setLine => cases given
  | _ => rfl

theorem emits_or_refused {op : Op} {instruction : Instruction}
    (straight : op.instruction? = some instruction) :
    Emits op.run instruction ∨ ∃ fault, ∀ emitter, op.run.run emitter = .error fault emitter := by
  cases op with
  | plain op =>
    cases straight
    cases complete : op.plainEffect? with
    | none =>
      refine Or.inr ⟨.needsOperands op, fun emitter => ?_⟩
      simp only [run, Emitter.plain, complete]
      rfl
    | some effect => exact Or.inl (plain_emits complete)
  | arguments names =>
    cases straight
    by_cases few : names.length ≤ 0xFF
    · exact Or.inl (pushArguments_emits few)
    · have many : 0xFF < names.length := by omega
      refine Or.inr ⟨.argumentCount names.length, fun emitter => ?_⟩
      simp only [run, pushArguments, many, if_true]
      rfl
  | null =>
    cases straight
    exact Or.inl (@opcode_emits .pushNull 1 rfl (by simp))
  | pushSelf =>
    cases straight
    exact Or.inl (@opcode_emits .pushSelf 1 rfl (by simp))
  | pushSrc =>
    cases straight
    exact Or.inl (@opcode_emits .pushSrc 1 rfl (by simp))
  | pop =>
    cases straight
    exact Or.inl (@opcode_emits .pop (-1) rfl (by simp))
  | callerArguments =>
    cases straight
    exact Or.inl (@opcode_emits .pushProcArguments 1 rfl (by simp))
  | constant c => cases straight; exact Or.inl (pushConstant_emits c)
  | getLocal slot => cases straight; exact Or.inl (getLocal_emits slot)
  | setLocal slot => cases straight; exact Or.inl (setLocal_emits slot)
  | field name => cases straight; exact Or.inl (dereferenceField_emits name)
  | call reference => cases straight; exact Or.inl (call_emits reference)
  | setLine _ | allocateLabel | skipIfNull _ | bindLabel _ => simp [instruction?] at straight

theorem emits_of_ok {op : Op} {instruction : Instruction} {emitter after : Emitter}
    (straight : op.instruction? = some instruction) (ran : op.run.run emitter = .ok () after) :
    Emits op.run instruction := by
  obtain emits | ⟨fault, refused⟩ := emits_or_refused straight
  · exact emits
  · cases ran.symm.trans (refused emitter)

theorem line_of_ok {op : Op} {emitter after : Emitter} (sound : emitter.pool.Sound)
    (ran : op.run.run emitter = .ok () after) : after.line = op.lineAfter emitter.line ∧
      after.pool.Sound := by
  cases given : op.instruction? with
  | some instruction =>
    obtain ⟨pool, grown, ⟨bytes, held, wrote, -⟩ | ⟨failed, -⟩⟩ :=
      emits_of_ok given ran emitter sound
    · rw [wrote] at ran
      cases ran
      exact ⟨(lineAfter_of_instruction? given _).symm, grown.sound⟩
    · rw [failed] at ran
      cases ran
  | none =>
    cases op with
    | setLine number | allocateLabel =>
      cases ran
      exact ⟨rfl, sound⟩
    | skipIfNull label =>
      have ran : (Emitter.skipIfNull label).run emitter = .ok () after := ran
      rw [skipIfNull_run] at ran
      split at ran <;> cases ran
      exact ⟨rfl, sound⟩
    | bindLabel label =>
      obtain ⟨_, -, -, pool, line, -⟩ := bindLabel_ok ran
      exact ⟨line, pool ▸ sound⟩
    | _ => cases given

end Op

structure Moment where
  op : Op
  before : Emitter
  after : Emitter

namespace Op

/-- The operations that are carried out before one fails. -/
def moments : List Op → Emitter → List Moment
  | [], _ => []
  | op :: rest, emitter =>
    match op.run.run emitter with
    | .ok _ after => ⟨op, emitter, after⟩ :: moments rest after
    | .error _ _ => []

theorem moments_map_op {ops : List Op} {emitter after : Emitter}
    (ran : (runAll ops).run emitter = .ok () after) :
    (moments ops emitter).map (·.op) = ops := by
  induction ops generalizing emitter with
  | nil => rfl
  | cons op rest ih =>
    rw [runAll] at ran
    obtain ⟨_, next, first, others⟩ := run_bind_eq_ok ran
    simp [moments, first, ih others]

theorem moments_map_line {ops : List Op} {emitter after : Emitter} (sound : emitter.pool.Sound)
    (ran : (runAll ops).run emitter = .ok () after) :
    (moments ops emitter).map (·.before.line) = lines emitter.line ops := by
  induction ops generalizing emitter with
  | nil => rfl
  | cons op rest ih =>
    rw [runAll] at ran
    obtain ⟨_, next, first, others⟩ := run_bind_eq_ok ran
    obtain ⟨line, sound'⟩ := line_of_ok sound first
    simp [moments, first, lines, ih sound' others, line]

end Op

def BoundAt (moments : List Moment) (label : Label) (target : Nat) : Prop :=
  ∃ moment ∈ moments, moment.op = .bindLabel label ∧ moment.before.chunk.size = target

inductive Piece where
  | code (bytes : List UInt8) (held : Instruction)
  | jump (label : Label)

def Piece.bytes (operand : UInt16) : Piece → List UInt8
  | .code bytes _ => bytes
  | .jump _ => Opcode.jumpIfNullDereference.byte :: wordBytes operand

structure Item where
  offset : Nat
  line : UInt32
  piece : Piece

namespace Item

def size (item : Item) : Nat := (item.piece.bytes 0).length

def bytes (word : Nat → UInt16) (item : Item) : List UInt8 :=
  item.piece.bytes (word (item.offset + 1))

def code (word : Nat → UInt16) (item : Item) : List CodeByte :=
  (item.bytes word).map (CodeByte.mk · item.line)

@[simp] theorem bytes_length (word : Nat → UInt16) (item : Item) :
    (item.bytes word).length = item.size := by
  unfold bytes size
  cases item.piece <;> rfl

@[simp] theorem code_length (word : Nat → UInt16) (item : Item) :
    (item.code word).length = item.size := by
  simp [code]

theorem code_update {word : Nat → UInt16} {item : Item} {place : Nat}
    (apart : item.offset + 1 ≠ place) (value : UInt16) :
    item.code (Function.update word place value) = item.code word := by
  simp [code, bytes, Function.update_of_ne apart]

end Item

inductive Tiled : Nat → List Item → Nat → Prop
  | nil (offset : Nat) : Tiled offset [] offset
  | cons {item : Item} {rest : List Item} {last : Nat} (filled : 0 < item.size)
      (more : Tiled (item.offset + item.size) rest last) : Tiled item.offset (item :: rest) last

namespace Tiled

variable {first middle last : Nat} {items more : List Item}

theorem append (head : Tiled first items middle) (tail : Tiled middle more last) :
    Tiled first (items ++ more) last := by
  induction head with
  | nil => exact tail
  | cons filled _ ih => exact .cons filled (ih tail)

theorem code_length (tiled : Tiled first items last) (word : Nat → UInt16) :
    first + (items.flatMap (·.code word)).length = last := by
  induction tiled with
  | nil => simp
  | cons _ _ ih =>
    simp only [List.flatMap_cons, List.length_append, Item.code_length]
    omega

theorem le (tiled : Tiled first items last) : first ≤ last := by
  have := tiled.code_length fun _ => 0
  omega

theorem within (tiled : Tiled first items last) {item : Item} (member : item ∈ items) :
    first ≤ item.offset ∧ item.offset + item.size ≤ last ∧ 0 < item.size := by
  induction tiled with
  | nil => simp at member
  | cons filled more ih =>
    rcases List.mem_cons.mp member with rfl | member
    · exact ⟨le_refl _, more.le, filled⟩
    · have := ih member
      omega

theorem split (tiled : Tiled first items last) {item : Item} (member : item ∈ items) :
    ∃ before after, items = before ++ item :: after ∧ Tiled first before item.offset ∧
      Tiled (item.offset + item.size) after last := by
  induction tiled with
  | nil => simp at member
  | @cons head rest last filled more ih =>
    rcases List.mem_cons.mp member with rfl | member
    · exact ⟨[], rest, rfl, .nil _, more⟩
    · obtain ⟨before, after, parts, left, right⟩ := ih member
      exact ⟨head :: before, after, by rw [parts]; rfl, .cons filled left, right⟩

theorem unique (tiled : Tiled first items last) {a b : Item} (left : a ∈ items) (right : b ∈ items)
    (same : a.offset = b.offset) : a = b := by
  induction tiled with
  | nil => simp at left
  | cons filled more ih =>
    rcases List.mem_cons.mp left with rfl | later <;> rcases List.mem_cons.mp
      right with rfl | later'
    · rfl
    · have := more.within later'
      omega
    · have := more.within later
      omega
    · exact ih later later'

end Tiled

end ProcLowering.Emitter
