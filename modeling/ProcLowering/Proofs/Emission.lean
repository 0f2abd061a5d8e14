import ProcLowering.Proofs.Decoding

set_option autoImplicit false

namespace ProcLowering

def Opcode.isUnary : Opcode → Bool
  | .negate | .bitNot | .not => true
  | _ => false

namespace Instruction

def pops : Instruction → Nat
  | .pop | .setLocal _ | .dereferenceField _ | .jumpIfNullDereference _ | .ret => 1
  | .operator op => if op.isUnary then 1 else 2
  | .pushArguments names => names.length
  | .call reference => if reference.takesReceiver then 2 else 1
  | .pushNull | .pushConstant _ | .getLocal _ | .pushSelf | .pushSrc | .pushProcArguments => 0

def pushes : Instruction → Nat
  | .pop | .setLocal _ | .ret => 0
  | .pushNull | .pushConstant _ | .getLocal _ | .pushSelf | .pushSrc | .dereferenceField _
  | .operator _
  | .pushArguments _ | .pushProcArguments | .call _ | .jumpIfNullDereference _ => 1

def effect (instruction : Instruction) : Int := (instruction.pushes : Int) - instruction.pops

def size : Instruction → Nat
  | .getLocal slot | .setLocal slot => if slot.toNat < 0x100 then 2 else 3
  | .pushConstant _ | .dereferenceField _ | .jumpIfNullDereference _ => 3
  | .pushArguments names => 2 + 2 * names.length
  | .call reference => 2 + reference.kind.payloadSize
  | .pushNull | .pop | .pushSelf | .pushSrc | .operator _ | .pushProcArguments | .ret => 1

def constants : Instruction → List Constant
  | .pushConstant constant => [constant]
  | .dereferenceField name => [.string name]
  | .pushArguments names => names.filterMap fun name => name.map .string
  | .call (.instanceProc name _) => [.string name]
  | _ => []

/-- Instructions that differ at most in how a pool writes their constant. -/
inductive Same : Instruction → Instruction → Prop
  | refl (instruction : Instruction) : Same instruction instruction
  | constant {a b : Constant} (same : a.Same b) : Same (.pushConstant a) (.pushConstant b)

theorem size_pos (instruction : Instruction) : 0 < instruction.size := by
  cases instruction <;> simp only [size] <;> (try split) <;> omega

end Instruction

theorem Opcode.plainEffect?_eq {op : Opcode} {effect : Int}
    (complete : op.plainEffect? = some effect) :
    op.plainInstruction.effect = effect ∧ op.plainInstruction.size = 1 ∧
      op.plainInstruction.constants = [] ∧ (op.plainInstruction = .ret ↔ op = .ret) := by
  cases op <;> simp [plainEffect?] at complete <;> subst complete <;> decide

namespace Emitter

def wrote (emitter : Emitter) (bytes : List UInt8) (pool : Pool) (instruction : Instruction) :
    Emitter :=
  { emitter with
    chunk := emitter.chunk.write bytes emitter.line
    pool
    depth := emitter.depth + instruction.effect
    maxDepth := max emitter.maxDepth (emitter.depth + instruction.effect)
    reachable := emitter.reachable && decide (instruction ≠ .ret) }

/-- A step that only adds constants to the pool, and gives a result unless the pool is full. -/
def Interns {α : Type} (step : Emission α) (constants : List Constant) (good : Pool → α → Prop) :
    Prop :=
  ∀ emitter : Emitter, emitter.pool.Sound → ∃ pool, emitter.pool.Grown pool constants ∧
    ((∃ value, step.run emitter = .ok value { emitter with pool } ∧ good pool value) ∨
      (step.run emitter = .error (.constantPoolFull poolLimit) { emitter with pool } ∧
        poolLimit < pool.size))

theorem constantOperand_run (c : Constant) (emitter : Emitter) :
    (constantOperand c).run emitter =
      if (emitter.pool.add c).1 < poolLimit then
        .ok (UInt16.ofNat (emitter.pool.add c).1) { emitter with pool := (emitter.pool.add c).2 }
      else .error (.constantPoolFull poolLimit)
        { emitter with pool := (emitter.pool.add c).2 } := by
  show EStateM.run (if (emitter.pool.add c).1 < poolLimit then
    (return UInt16.ofNat (emitter.pool.add c).1 : Emission UInt16)
    else throw (.constantPoolFull poolLimit)) { emitter with pool := (emitter.pool.add c).2 } = _
  split <;> rfl

theorem constantOperand_interns (c : Constant) :
    Interns (constantOperand c) [c] fun pool operand =>
      operand ≠ positionalArgument ∧ ∃ held, pool.get? operand.toNat = some held ∧ held.Same c := by
  intro emitter sound
  obtain ⟨held, found, same⟩ := sound.add_get? c
  refine ⟨_, sound.grown_add c, ?_⟩
  rw [constantOperand_run]
  by_cases fits : (emitter.pool.add c).1 < poolLimit
  · have bound : (emitter.pool.add c).1 < 0xFFFF := fits
    have place : (UInt16.ofNat (emitter.pool.add c).1).toNat = (emitter.pool.add c).1 := by
      simp
      omega
    have unmarked : UInt16.ofNat (emitter.pool.add c).1 ≠ positionalArgument := by
      intro marked
      have := congrArg UInt16.toNat marked
      rw [place] at this
      simp [positionalArgument] at this
      omega
    left
    exact ⟨_, if_pos fits, unmarked, held, by rw [place]; exact found, same⟩
  · right
    have inside := Pool.get?_lt found
    exact ⟨if_neg fits, by omega⟩

theorem nameOperand_interns (name : String) :
    Interns (nameOperand name) [.string name] fun pool operand =>
      pool.Names operand (some name) := by
  intro emitter sound
  obtain ⟨pool, grown, result⟩ := constantOperand_interns (.string name) emitter sound
  refine ⟨pool, grown, result.imp_left ?_⟩
  rintro ⟨operand, ran, unmarked, held, found, same⟩
  refine ⟨operand, ran, unmarked, ?_⟩
  simp [Pool.string?, found, same.eq_string, Constant.string?]

section Interns

variable {α β : Type} {first : Emission α} {before : List Constant} {good : Pool → α → Prop}
    {better : Pool → β → Prop}

theorem Interns.bind {next : α → Emission β} {after : List Constant} {others : α → Pool → β → Prop}
    (head : Interns first before good) (tail : ∀ value, Interns (next value) after (others value))
    (both : ∀ pool later value result, good pool value → pool.Extends later →
      others value later result →
      better later result) : Interns (first >>= next) (before ++ after) better := by
  intro emitter sound
  rw [EStateM.run_bind]
  obtain ⟨pool, grown, ⟨value, ran, holds⟩ | ⟨ran, full⟩⟩ := head emitter sound
  · obtain ⟨later, more, result⟩ := tail value { emitter with pool } grown.sound
    refine ⟨later, grown.trans more, ?_⟩
    rw [ran]
    refine result.imp_left ?_
    rintro ⟨result, ran, holds'⟩
    exact ⟨result, ran, both pool later value result holds more.grown holds'⟩
  · refine ⟨pool, grown.widen after, Or.inr ⟨?_, full⟩⟩
    rw [ran]

theorem Interns.map {f : α → β} (interns : Interns first before good)
    (maps : ∀ pool value, good pool value → better pool (f value)) :
    Interns (do return f (← first)) before better := by
  intro emitter sound
  rw [EStateM.run_bind]
  obtain ⟨pool, grown, ⟨value, ran, holds⟩ | ⟨ran, full⟩⟩ := interns emitter sound
  · rw [ran]
    exact ⟨pool, grown, Or.inl ⟨f value, rfl, maps pool value holds⟩⟩
  · rw [ran]
    exact ⟨pool, grown, Or.inr ⟨rfl, full⟩⟩

theorem interns_pure {value : β} (holds : ∀ pool, better pool value) :
    Interns (pure value) [] better := by
  intro emitter sound
  exact ⟨emitter.pool, sound.grown_refl, Or.inl ⟨value, rfl, holds _⟩⟩

end Interns

theorem argumentOperands_interns (names : List (Option String)) :
    Interns (argumentOperands names) (names.filterMap fun name => name.map .string)
      fun pool operands => List.Forall₂ pool.Names operands names := by
  induction names with
  | nil => exact interns_pure fun _ => .nil
  | cons name rest ih =>
    cases name with
    | none => exact ih.map fun _ _ named => .cons rfl named
    | some text =>
      have others (operand : UInt16) : Interns (do return operand :: (← argumentOperands rest))
          (rest.filterMap fun name => name.map .string)
            fun pool operands => ∃ more, operands = operand :: more ∧
              List.Forall₂ pool.Names more rest :=
        ih.map fun _ more named => ⟨more, rfl, named⟩
      refine (nameOperand_interns text).bind others ?_
      rintro pool later operand _ named grown ⟨more, rfl, rest⟩
      exact .cons (grown.names named) rest

def Emits (step : Emission Unit) (instruction : Instruction) : Prop :=
  ∀ emitter : Emitter, emitter.pool.Sound → ∃ pool, emitter.pool.Grown pool instruction.constants ∧
    ((∃ bytes held, step.run emitter = .ok () (emitter.wrote bytes pool instruction) ∧
        bytes.length = instruction.size ∧ Encodes pool emitter.chunk.size bytes held ∧
          held.Same instruction) ∨
      (step.run emitter = .error (.constantPoolFull poolLimit) { emitter with pool } ∧
        poolLimit < pool.size))

theorem write_run {instruction : Instruction} {effect : Int} (bytes : List UInt8)
    (runsOn : instruction ≠ .ret) (effects : instruction.effect = effect) (emitter : Emitter) :
    (write bytes effect).run emitter = .ok () (emitter.wrote bytes emitter.pool instruction) := by
  subst effects
  show EStateM.Result.ok () _ = _
  simp [wrote, adjusted, runsOn]

theorem emits_write {instruction : Instruction} {effect : Int} {bytes : List UInt8}
    (runsOn : instruction ≠ .ret) (effects : instruction.effect = effect)
    (length : bytes.length = instruction.size) (plain : instruction.constants = [])
    (encodes : ∀ pool offset, Encodes pool offset bytes instruction) :
    Emits (write bytes effect) instruction := by
  intro emitter sound
  refine ⟨emitter.pool, plain ▸ sound.grown_refl,
    Or.inl ⟨bytes, instruction, ?_, length, encodes _ _, .refl _⟩⟩
  exact write_run bytes runsOn effects emitter

theorem opcode_emits {op : Opcode} {effect : Int} (complete : op.plainEffect? = some effect)
    (runsOn : op ≠ .ret) :
    Emits (write [op.byte] effect) op.plainInstruction := by
  obtain ⟨effects, size, constants, returns⟩ := Opcode.plainEffect?_eq complete
  exact emits_write (fun last => runsOn (returns.mp last)) effects size.symm constants
    fun pool offset => Encodes.plain pool offset complete

theorem Interns.emits {α : Type} {operands : Emission α} {instruction : Instruction} {effect : Int}
    {bytes : α → List UInt8} {good : Pool → α → Prop}
    (interns : Interns operands instruction.constants good) (runsOn : instruction ≠ .ret)
    (effects : instruction.effect = effect) (encodes : ∀ pool value offset, good pool value →
    (bytes value).length = instruction.size ∧
      ∃ held, Encodes pool offset (bytes value) held ∧ held.Same instruction) :
    Emits (operands >>= fun value => write (bytes value) effect) instruction := by
  intro emitter sound
  obtain ⟨pool, grown, result⟩ := interns emitter sound
  refine ⟨pool, grown, ?_⟩
  rw [EStateM.run_bind]
  obtain ⟨value, ran, holds⟩ | ⟨ran, full⟩ := result
  · obtain ⟨length, held, reads, same⟩ := encodes pool value emitter.chunk.size holds
    rw [ran]
    exact Or.inl ⟨bytes value, held, write_run _ runsOn effects _, length, reads, same⟩
  · rw [ran]
    exact Or.inr ⟨rfl, full⟩

theorem plain_emits {op : Opcode} {effect : Int} (complete : op.plainEffect? = some effect) :
    Emits (plain op) op.plainInstruction := by
  obtain ⟨effects, size, constants, returns⟩ := Opcode.plainEffect?_eq complete
  intro emitter sound
  refine ⟨emitter.pool, constants ▸ sound.grown_refl,
    Or.inl ⟨[op.byte], op.plainInstruction, ?_, size.symm, Encodes.plain _ _ complete, .refl _⟩⟩
  unfold plain
  rw [complete]
  by_cases last : op = .ret
  · subst last
    cases complete
    have dead : (emitter.reachable && decide (Opcode.ret.plainInstruction ≠ .ret)) = false := by
      simp [Opcode.plainInstruction]
    rw [wrote, dead]
    rfl
  · have runsOn : op.plainInstruction ≠ .ret := fun same => last (returns.mp same)
    simp only [last, if_false]
    rw [EStateM.run_bind, write_run _ runsOn effects]
    rfl

theorem pushConstant_emits (c : Constant) : Emits (pushConstant c) (.pushConstant c) := by
  refine (constantOperand_interns c).emits (by simp) rfl ?_
  rintro pool operand offset ⟨-, held, found, same⟩
  exact ⟨rfl, .pushConstant held, Encodes.constant offset found, .constant same⟩

theorem slotBytes_length (narrow wide : Opcode) (slot : UInt16) :
    (slotBytes narrow wide slot).length = if slot.toNat < 0x100 then 2 else 3 := by
  unfold slotBytes
  split <;> rfl

theorem getLocal_emits (slot : UInt16) : Emits (getLocal slot) (.getLocal slot) :=
  emits_write (by simp) rfl (slotBytes_length _ _ slot) rfl fun pool offset =>
    Encodes.getLocal pool offset slot

theorem setLocal_emits (slot : UInt16) : Emits (setLocal slot) (.setLocal slot) :=
  emits_write (by simp) rfl (slotBytes_length _ _ slot) rfl fun pool offset =>
    Encodes.setLocal pool offset slot

theorem dereferenceField_emits (name : String) :
    Emits (dereferenceField name) (.dereferenceField name) := by
  refine (nameOperand_interns name).emits (by simp) rfl ?_
  rintro pool operand offset ⟨-, named⟩
  exact ⟨rfl, .dereferenceField name, Encodes.field offset named, .refl _⟩

theorem pushArguments_emits {names : List (Option String)} (few : names.length ≤ 0xFF) :
    Emits (pushArguments names) (.pushArguments names) := by
  have fits : ¬ 0xFF < names.length := by omega
  unfold pushArguments
  simp only [fits, if_false]
  refine (argumentOperands_interns names).emits (by simp) rfl ?_
  intro pool operands offset named
  refine ⟨?_, .pushArguments names, Encodes.arguments offset named few, .refl _⟩
  have width : (operands.flatMap wordBytes).length = 2 * operands.length := by
    simp [List.length_flatMap, Nat.mul_comm]
  simp only [List.length_cons, width, named.length_eq, Instruction.size]
  omega

theorem call_emits (reference : Reference) : Emits (call reference) (.call reference) := by
  have effects : (Instruction.call reference).effect = if reference.takesReceiver then -1
    else 0 := by
    simp only [Instruction.effect, Instruction.pops, Instruction.pushes]
    split <;> rfl
  have payload : Interns (referencePayload reference) (Instruction.call reference).constants
      fun pool payload => payload.length = reference.kind.payloadSize ∧ ∀ offset,
        Encodes pool offset (Opcode.call.byte :: reference.kind.byte :: payload)
          (.call reference) := by
    cases reference with
    | instanceProc name receiver =>
      refine (nameOperand_interns name).map ?_
      rintro pool operand ⟨-, named⟩
      exact ⟨rfl, fun offset => Encodes.callInstance offset receiver named⟩
    | globalProc proc =>
      exact interns_pure fun pool => ⟨rfl, fun offset => Encodes.callGlobal pool offset proc⟩
    | selfSlot => exact interns_pure fun pool => ⟨rfl, Encodes.callSelf pool⟩
    | superProc => exact interns_pure fun pool => ⟨rfl, Encodes.callSuper pool⟩
  refine payload.emits (by simp) effects ?_
  rintro pool bytes offset ⟨length, encodes⟩
  refine ⟨?_, .call reference, encodes offset, .refl _⟩
  simp only [List.length_cons, length, Instruction.size]
  omega

end Emitter

end ProcLowering
