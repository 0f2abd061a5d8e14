import ProcLowering.Lower.Step
import ProcLowering.Proofs.Emission

set_option autoImplicit false

namespace ProcLowering.Step

def instruction? : Step → Option Instruction
  | .null => some .pushNull
  | .constant value => some (.pushConstant value)
  | .self => some .pushSelf
  | .src => some .pushSrc
  | .getLocal slot => some (.getLocal slot)
  | .setLocal slot => some (.setLocal slot)
  | .field name => some (.dereferenceField name)
  | .operator op => some (.operator op)
  | .arguments names => some (.pushArguments names)
  | .callerArguments => some .pushProcArguments
  | .call reference => some (.call reference)
  | .pop => some .pop
  | .ret => some .ret
  | .line _ | .unlessNull _ | .fault _ => none

def Ready : Step → Prop
  | .operator op => op.plainInstruction = .operator op ∧ ∃ effect, op.plainEffect? = some effect
  | .arguments names => names.length ≤ 0xFF
  | _ => True

mutual

def size : Step → Nat
  | .unlessNull guarded => 3 + sizeAll guarded
  | step => (step.instruction?.map (·.size)).getD 0

def sizeAll : List Step → Nat
  | [] => 0
  | step :: rest => step.size + sizeAll rest

end

mutual

def constants : Step → List Constant
  | .unlessNull guarded => constantsAll guarded
  | step => (step.instruction?.map (·.constants)).getD []

def constantsAll : List Step → List Constant
  | [] => []
  | step :: rest => step.constants ++ constantsAll rest

end

inductive Occurs (step : Step) : List Step → Prop
  | here (rest : List Step) : Occurs step (step :: rest)
  | later {other : Step} {rest : List Step} (inside : Occurs step rest) :
      Occurs step (other :: rest)
  | guarded {guarded rest : List Step} (inside : Occurs step guarded) :
      Occurs step (.unlessNull guarded :: rest)

theorem Occurs.append_left {step : Step} {steps : List Step} (occurs : Occurs step steps)
    (rest : List Step) :
    Occurs step (steps ++ rest) := by
  induction occurs with
  | here _ => exact .here _
  | later _ ih => exact .later ih
  | guarded inside _ => exact .guarded inside

theorem Occurs.append_right {step : Step} {steps : List Step} (first : List Step)
    (occurs : Occurs step steps) :
    Occurs step (first ++ steps) := by
  induction first with
  | nil => exact occurs
  | cons _ _ ih => exact .later ih

theorem occurs_append {step : Step} {first second : List Step} :
    Occurs step (first ++ second) ↔ Occurs step first ∨ Occurs step second := by
  constructor
  · intro occurs
    induction first with
    | nil => exact Or.inr occurs
    | cons head rest ih =>
      rw [List.cons_append] at occurs
      cases occurs with
      | here => exact Or.inl (.here _)
      | later inside => exact (ih inside).imp_left .later
      | guarded inside => exact Or.inl (.guarded inside)
  · rintro (left | right)
    · exact left.append_left second
    · exact right.append_right first

@[simp] theorem not_occurs_nil (step : Step) : ¬ Occurs step [] := by
  intro occurs
  cases occurs

theorem occurs_cons {step first : Step} {rest : List Step} :
    Occurs step (first :: rest) ↔
      step = first ∨ Occurs step rest ∨ ∃ guarded, first = .unlessNull guarded ∧
        Occurs step guarded := by
  constructor
  · intro occurs
    cases occurs with
    | here => exact Or.inl rfl
    | later inside => exact Or.inr (Or.inl inside)
    | guarded inside => exact Or.inr (Or.inr ⟨_, rfl, inside⟩)
  · rintro (rfl | inside | ⟨guarded, rfl, inside⟩)
    · exact .here rest
    · exact .later inside
    · exact .guarded inside

def Faultless (steps : List Step) : Prop := ∀ cause, ¬ Occurs (.fault cause) steps

@[simp] theorem faultless_nil : Faultless [] := by
  simp [Faultless]

@[simp] theorem faultless_append (first second : List Step) :
    Faultless (first ++ second) ↔ Faultless first ∧ Faultless second := by
  simp [Faultless, occurs_append, forall_and]

@[simp] theorem faultless_unlessNull (guarded rest : List Step) :
    Faultless (.unlessNull guarded :: rest) ↔ Faultless guarded ∧ Faultless rest := by
  simp [Faultless, occurs_cons, forall_and, and_comm]

@[simp] theorem faultless_line (number : UInt32) (rest : List Step) :
    Faultless (.line number :: rest) ↔ Faultless rest := by
  simp [Faultless, occurs_cons]

theorem faultless_cons {step : Step} {instruction : Instruction}
    (written : step.instruction? = some instruction) (rest : List Step) : Faultless (step :: rest) ↔
    Faultless rest := by
  cases step <;> cases written <;> simp [Faultless, occurs_cons]

theorem faultless_singleton (step : Step) {instruction : Instruction}
    (written : step.instruction? = some instruction) :
    Faultless [step] :=
  (faultless_cons written []).mpr faultless_nil

theorem sizeAll_append (first second : List Step) : sizeAll (first ++ second) = sizeAll first +
    sizeAll second := by
  induction first with
  | nil => simp [sizeAll]
  | cons step rest ih =>
    simp only [List.cons_append, sizeAll, ih]
    omega

theorem constantsAll_append (first second : List Step) :
    constantsAll (first ++ second) = constantsAll first ++ constantsAll second := by
  induction first with
  | nil => rfl
  | cons step rest ih => simp only [List.cons_append, constantsAll, ih, List.append_assoc]

theorem instruction?_straight {step : Step} {instruction : Instruction}
    (written : step.instruction? = some instruction) (target : Nat) :
    instruction ≠ .jumpIfNullDereference target := by
  rintro rfl
  cases step <;> cases written

theorem size_eq {step : Step} {instruction : Instruction}
    (written : step.instruction? = some instruction) :
    step.size = instruction.size := by
  cases step <;> cases written <;> rfl

theorem constants_eq {step : Step} {instruction : Instruction}
    (written : step.instruction? = some instruction) :
    step.constants = instruction.constants := by
  cases step <;> cases written <;> rfl

/-- The steps stand as the listed instructions from one offset up to another. -/
inductive Lowered : Nat → List Step → List (Nat × Instruction) → Nat → Prop
  | nil (offset : Nat) : Lowered offset [] [] offset
  | line {offset last : Nat} {number : UInt32} {rest : List Step}
      {listing : List (Nat × Instruction)} (tail : Lowered offset rest listing last) :
      Lowered offset (.line number :: rest) listing last
  | straight {offset last : Nat} {step : Step} {instruction held : Instruction} {rest : List Step}
      {listing : List (Nat × Instruction)} (written : step.instruction? = some instruction)
      (same : held.Same instruction)
      (tail : Lowered (offset + instruction.size) rest listing last) :
      Lowered offset (step :: rest) ((offset, held) :: listing) last
  | unlessNull {offset join last : Nat} {guarded rest : List Step}
      {inner listing : List (Nat × Instruction)} (inside : Lowered (offset + 3) guarded inner join)
      (tail : Lowered join rest listing last) :
      Lowered offset (.unlessNull guarded :: rest) ((offset, .jumpIfNullDereference join) ::
        (inner ++ listing)) last

theorem Lowered.append {first middle last : Nat} {steps more : List Step}
    {listing rest : List (Nat × Instruction)} (head : Lowered first steps listing middle)
    (tail : Lowered middle more rest last) :
    Lowered first (steps ++ more) (listing ++ rest) last := by
  induction head with
  | nil => exact tail
  | line _ ih => exact .line (ih tail)
  | straight written same _ ih => exact .straight written same (ih tail)
  | unlessNull inside _ _ ih =>
    rw [List.cons_append, List.cons_append, List.append_assoc]
    exact .unlessNull inside (ih tail)

theorem Lowered.within {first last : Nat} {steps : List Step} {listing : List (Nat × Instruction)}
    (lowered : Lowered first steps listing last) : first ≤ last ∧ ∀ entry ∈ listing,
      entry.1 < last := by
  induction lowered with
  | nil => simp
  | line _ ih => exact ih
  | @straight offset last step instruction _ _ _ _ _ _ ih =>
    have positive := instruction.size_pos
    refine ⟨by omega, ?_⟩
    intro entry member
    rcases List.mem_cons.mp member with rfl | member
    · show offset < last
      omega
    · exact ih.2 entry member
  | @unlessNull offset join last _ _ _ _ _ _ ihInside ihTail =>
    refine ⟨by omega, ?_⟩
    intro entry member
    rcases List.mem_cons.mp member with rfl | member
    · show offset < last
      omega
    · rcases List.mem_append.mp member with inside | after
      · have := ihInside.2 entry inside
        omega
      · exact ihTail.2 entry after

theorem Lowered.faultless {first last : Nat} {steps : List Step}
    {listing : List (Nat × Instruction)} (lowered : Lowered first steps listing last) :
    Faultless steps := by
  induction lowered with
  | nil => simp
  | line _ ih => simpa using ih
  | straight written _ _ ih => exact (faultless_cons written _).mpr ih
  | unlessNull _ _ ihInside ihTail => exact (faultless_unlessNull _ _).mpr ⟨ihInside, ihTail⟩

/-- From one depth of the stack the steps lead to another, and never above the limit. They find what
they take, and a return finds its value alone. Behind a fault nothing is reached. -/
inductive Balanced (limit : Nat) : Nat → List Step → Nat → Prop
  | nil (depth : Nat) : Balanced limit depth [] depth
  | line {depth last : Nat} {number : UInt32} {rest : List Step}
      (tail : Balanced limit depth rest last) :
      Balanced limit depth (.line number :: rest) last
  | straight {depth last : Nat} {step : Step} {instruction : Instruction} {rest : List Step}
      (written : step.instruction? = some instruction) (ready : step.Ready)
      (enough : instruction.pops ≤ depth) (alone : instruction = .ret → depth = 1)
      (bounded : depth - instruction.pops + instruction.pushes ≤ limit)
      (tail : Balanced limit (depth - instruction.pops + instruction.pushes) rest last) :
      Balanced limit depth (step :: rest) last
  | unlessNull {depth last : Nat} {guarded rest : List Step} (tested : 1 ≤ depth)
      (inside : Balanced limit depth guarded depth) (tail : Balanced limit depth rest last) :
      Balanced limit depth (.unlessNull guarded :: rest) last
  | fault {depth last : Nat} {cause : Fault} {rest : List Step} :
      Balanced limit depth (.fault cause :: rest) last

theorem Balanced.append {limit first middle last : Nat} {steps more : List Step}
    (head : Balanced limit first steps middle) (tail : Balanced limit middle more last) :
    Balanced limit first (steps ++ more) last := by
  induction head with
  | nil => exact tail
  | line _ ih => exact .line (ih tail)
  | straight written ready enough alone bounded _ ih =>
    exact .straight written ready enough alone bounded (ih tail)
  | unlessNull tested inside _ _ ih => exact .unlessNull tested inside (ih tail)
  | fault => exact .fault

end ProcLowering.Step
