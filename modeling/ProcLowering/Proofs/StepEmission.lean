import ProcLowering.Proofs.Label
import ProcLowering.Proofs.Layout

set_option autoImplicit false

namespace ProcLowering

structure Emitter.Bounded (limit : Nat) (emitter : Emitter) : Prop where
  low : 0 ≤ emitter.depth
  high : emitter.depth ≤ limit
  most : emitter.maxDepth ≤ limit

namespace Step

structure Emitted (emitter : Emitter) (steps : List Step) (after : Emitter) : Prop where
  grown : emitter.pool.Grown after.pool (constantsAll steps)
  size : after.chunk.size = emitter.chunk.size + sizeAll steps
  code : ∃ code listing, after.chunk.bytes.toList = emitter.chunk.bytes.toList ++ code ∧
    Lowered emitter.chunk.size steps listing after.chunk.size ∧
      ∀ chunk later, after.pool.Extends later →
        chunk.Holds emitter.chunk.size (code.map (·.value)) →
        Listed chunk later emitter.chunk.size listing after.chunk.size
  labels : ∃ more, after.labels.states.toList = emitter.labels.states.toList ++ more ∧
    ∀ state ∈ more, state.offset.isSome

inductive Cause (pool : Pool) (last : Nat) (steps : List Step) : Fault → Prop
  | full (many : Emitter.poolLimit < pool.size) :
      Cause pool last steps (.constantPoolFull Emitter.poolLimit)
  | far {guarded : List Step} (occurs : Occurs (.unlessNull guarded) steps)
      (long : 0xFFFF < sizeAll guarded) :
      Cause pool last steps (.jumpTooFar (sizeAll guarded))
  | fault {cause : Fault} (occurs : Occurs (.fault cause) steps) : Cause pool last steps cause
  | huge {operand : Nat} (long : UInt64.size ≤ last) : Cause pool last steps (.outsideCode operand)

structure Failed (emitter : Emitter) (steps : List Step) (fault : Fault) (stopped : Emitter) :
    Prop where
  grown : emitter.pool.Grown stopped.pool (constantsAll steps)
  cause : Cause stopped.pool (emitter.chunk.size + sizeAll steps) steps fault

theorem Cause.widen {pool : Pool} {last last' : Nat} {steps steps' : List Step} {fault : Fault}
    (cause : Cause pool last steps fault) (longer : last ≤ last')
    (more : ∀ step, Occurs step steps → Occurs step steps') : Cause pool last' steps' fault := by
  cases cause with
  | full many => exact .full many
  | far occurs long => exact .far (more _ occurs) long
  | fault occurs => exact .fault (more _ occurs)
  | huge long => exact .huge (long.trans longer)

/-- What emission makes of steps between two depths, whatever was emitted before. -/
def Emitting (limit first : Nat) (steps : List Step) (last : Nat) : Prop :=
  ∀ emitter : Emitter, emitter.pool.Sound → emitter.depth = first → emitter.Bounded limit →
    (∃ after, (emitAll steps).run emitter = .ok () after ∧ Emitted emitter steps after ∧
      after.depth = last ∧
        after.Bounded limit) ∨
      ∃ fault stopped, (emitAll steps).run emitter = .error fault stopped ∧
        Failed emitter steps fault stopped ∧
        stopped.Bounded limit

section Emitting

variable {limit first last : Nat} {steps : List Step} {emitter : Emitter}

theorem Emitting.of_ok (emitting : Emitting limit first steps last) (sound : emitter.pool.Sound)
    (depth : emitter.depth = first) (bounded : emitter.Bounded limit) {after : Emitter}
    (ran : (emitAll steps).run emitter = .ok () after) :
    Emitted emitter steps after ∧ after.Bounded limit := by
  rcases emitting emitter sound depth bounded with ⟨after, same, emitted, -, bounded⟩ | ⟨fault,
    stopped, same, -⟩
  · rw [ran] at same
    cases same
    exact ⟨emitted, bounded⟩
  · rw [ran] at same
    cases same

theorem Emitting.of_error (emitting : Emitting limit first steps last) (sound : emitter.pool.Sound)
    (depth : emitter.depth = first) (bounded : emitter.Bounded limit) {fault : Fault}
    {stopped : Emitter} (ran : (emitAll steps).run emitter = .error fault stopped) :
    Failed emitter steps fault stopped ∧ stopped.Bounded limit := by
  rcases emitting emitter sound depth bounded with ⟨after, same, -⟩ | ⟨fault, stopped, same,
    failed, bounded⟩
  · rw [ran] at same
    cases same
  · rw [ran] at same
    cases same
    exact ⟨failed, bounded⟩

end Emitting

theorem Emitted.trans {a b c : Emitter} {first second : List Step} (head : Emitted a first b)
    (tail : Emitted b second c) : Emitted a (first ++ second) c := by
  obtain ⟨code, listing, written, lowered, reads⟩ := head.code
  obtain ⟨code', listing', written', lowered', reads'⟩ := tail.code
  obtain ⟨more, states, bound⟩ := head.labels
  obtain ⟨more', states', bound'⟩ := tail.labels
  refine ⟨?_, ?_, ⟨code ++ code', listing ++ listing', ?_, lowered.append lowered', ?_⟩,
    more ++ more', ?_, ?_⟩
  · rw [constantsAll_append]
    exact head.grown.trans tail.grown
  · rw [tail.size, head.size, sizeAll_append, Nat.add_assoc]
  · rw [written', written, List.append_assoc]
  · intro chunk later extends' holds
    rw [List.map_append, Chunk.holds_append] at holds
    have place : a.chunk.size + (code.map (·.value)).length = b.chunk.size := by
      have lengths := congrArg List.length written
      simpa [Chunk.size, eq_comm] using lengths
    rw [place] at holds
    exact (reads chunk later (tail.grown.grown.trans extends') holds.1).append
      (reads' chunk later extends' holds.2)
  · rw [states', states, List.append_assoc]
  · intro state member
    rcases List.mem_append.mp member with left | right
    · exact bound state left
    · exact bound' state right

theorem emitAll_append (first second : List Step) :
    emitAll (first ++ second) = (do emitAll first; emitAll second) := by
  induction first with
  | nil => rfl
  | cons step rest ih =>
    rw [List.cons_append, emitAll, ih, emitAll, bind_assoc]

theorem Emitting.append {limit a b c : Nat} {first second : List Step}
    (head : Emitting limit a first b) (tail : Emitting limit b second c) :
    Emitting limit a (first ++ second) c := by
  intro emitter sound depth bounded
  rw [emitAll_append, EStateM.run_bind]
  rcases head emitter sound depth bounded with ⟨middle, ran, emitted, depth', bounded'⟩ | ⟨fault,
    stopped, ran, failed, low⟩
  · rw [ran]
    rcases tail middle emitted.grown.sound depth' bounded' with
      ⟨after, ran', emitted', done⟩ | ⟨fault, stopped, ran', failed, low⟩
    · exact Or.inl ⟨after, ran', emitted.trans emitted', done⟩
    · refine Or.inr ⟨fault, stopped, ran', ⟨?_, ?_⟩, low⟩
      · rw [constantsAll_append]
        exact emitted.grown.trans failed.grown
      · refine failed.cause.widen ?_ fun _ => Occurs.append_right first
        rw [emitted.size, sizeAll_append, Nat.add_assoc]
  · rw [ran]
    refine Or.inr ⟨fault, stopped, rfl, ⟨?_, ?_⟩, low⟩
    · rw [constantsAll_append]
      exact failed.grown.widen _
    · refine failed.cause.widen ?_ fun _ occurs => occurs.append_left second
      rw [sizeAll_append]
      omega

theorem emitAll_singleton (step : Step) : emitAll [step] = step.emit := by
  simp [emitAll]

theorem sizeAll_singleton (step : Step) : sizeAll [step] = step.size := by
  simp [sizeAll]

theorem constantsAll_singleton (step : Step) : constantsAll [step] = step.constants := by
  simp [constantsAll]

theorem emits {step : Step} {instruction : Instruction}
    (written : step.instruction? = some instruction) (ready : step.Ready) :
    Emitter.Emits step.emit instruction := by
  cases step with
  | null =>
    cases written
    exact @Emitter.opcode_emits .pushNull 1 rfl (by simp)
  | self =>
    cases written
    exact @Emitter.opcode_emits .pushSelf 1 rfl (by simp)
  | src =>
    cases written
    exact @Emitter.opcode_emits .pushSrc 1 rfl (by simp)
  | pop =>
    cases written
    exact @Emitter.opcode_emits .pop (-1) rfl (by simp)
  | callerArguments =>
    cases written
    exact @Emitter.opcode_emits .pushProcArguments 1 rfl (by simp)
  | ret =>
    cases written
    exact @Emitter.plain_emits .ret (-1) rfl
  | operator op =>
    cases written
    obtain ⟨plain, effect, complete⟩ := ready
    exact plain ▸ Emitter.plain_emits complete
  | arguments names => cases written; exact Emitter.pushArguments_emits ready
  | constant value => cases written; exact Emitter.pushConstant_emits value
  | getLocal slot => cases written; exact Emitter.getLocal_emits slot
  | setLocal slot => cases written; exact Emitter.setLocal_emits slot
  | field name => cases written; exact Emitter.dereferenceField_emits name
  | call reference => cases written; exact Emitter.call_emits reference
  | line _ | unlessNull _ | fault _ => cases written

theorem emitting_nil (limit depth : Nat) : Emitting limit depth [] depth := by
  intro emitter sound same bounded
  refine Or.inl ⟨emitter, rfl, ⟨sound.grown_refl, rfl, ?_, [], by simp, by simp⟩, same, bounded⟩
  exact ⟨[], [], by simp, .nil _, fun _ _ _ _ => .nil _⟩

theorem emitting_line (limit depth : Nat) (number : UInt32) :
    Emitting limit depth [.line number] depth := by
  intro emitter sound same bounded
  refine Or.inl ⟨{ emitter with line := number }, rfl,
    ⟨sound.grown_refl, rfl, ?_, [], by simp, by simp⟩, same,
    ⟨bounded.low, bounded.high, bounded.most⟩⟩
  exact ⟨[], [], by simp, .line (.nil _), fun _ _ _ _ => .nil _⟩

theorem emitting_fault (limit first last : Nat) (cause : Fault) (rest : List Step) :
    Emitting limit first (.fault cause :: rest) last := by
  intro emitter sound _ bounded
  exact Or.inr ⟨cause, emitter, rfl, ⟨sound.grown_refl.widen _, .fault (.here rest)⟩, bounded⟩

theorem emitting_straight {limit depth : Nat} {step : Step} {instruction : Instruction}
    (written : step.instruction? = some instruction) (ready : step.Ready)
    (enough : instruction.pops ≤ depth)
    (fits : depth - instruction.pops + instruction.pushes ≤ limit) :
    Emitting limit depth [step] (depth - instruction.pops + instruction.pushes) := by
  intro emitter sound same bounded
  rw [emitAll_singleton]
  have effect : emitter.depth + instruction.effect =
    (depth - instruction.pops + instruction.pushes : Nat) := by
    unfold Instruction.effect
    omega
  obtain ⟨pool, grown, ⟨bytes, held, ran, length, encodes, agrees⟩ | ⟨ran, many⟩⟩ :=
    emits written ready emitter sound
  · have size : (emitter.wrote bytes pool instruction).chunk.size = emitter.chunk.size +
      sizeAll [step] := by
      rw [sizeAll_singleton, size_eq written, ← length]
      exact Chunk.size_write _ _ _
    refine Or.inl ⟨_, ran, ⟨?_, size, ?_, [], by simp [Emitter.wrote], by simp⟩, effect, ?_⟩
    · rw [constantsAll_singleton, constants_eq written]
      exact grown
    · refine ⟨bytes.map (CodeByte.mk · emitter.line), [(emitter.chunk.size, held)], ?_, ?_, ?_⟩
      · simp [Emitter.wrote, Chunk.write]
      · refine .straight written agrees ?_
        rw [size, sizeAll_singleton, size_eq written]
        exact .nil _
      · intro chunk later extends' holds
        have values : (bytes.map (CodeByte.mk · emitter.line)).map (·.value) = bytes := by
          simp [Function.comp_def]
        rw [values] at holds
        have positive := instruction.size_pos
        rw [size, sizeAll_singleton, size_eq written, ← length]
        exact .cons (encodes chunk later extends' holds) (by omega) (.nil _)
    · refine ⟨?_, ?_, ?_⟩
      · show 0 ≤ emitter.depth + instruction.effect
        omega
      · show emitter.depth + instruction.effect ≤ limit
        omega
      · show max emitter.maxDepth (emitter.depth + instruction.effect) ≤ limit
        have := bounded.most
        omega
  · refine Or.inr ⟨_, _, ran, ⟨?_, .full many⟩, ⟨bounded.low, bounded.high, bounded.most⟩⟩
    rw [constantsAll_singleton, constants_eq written]
    exact grown

def jumping (emitter : Emitter) : Emitter :=
  { emitter with
    chunk := emitter.chunk.writeJump .jumpIfNullDereference emitter.line
    labels := ⟨emitter.labels.states.push
      { depth := some emitter.depth, pending := [emitter.chunk.size + 1] }⟩ }

theorem emit_unlessNull_run (guarded : List Step) (emitter : Emitter) :
    (emit (.unlessNull guarded)).run emitter =
      EStateM.run (do emitAll guarded; Emitter.bindLabel ⟨emitter.labels.states.size⟩)
        (jumping emitter) := by
  let opened : Emitter := { emitter with labels := ⟨emitter.labels.states.push {}⟩ }
  have allocated : Emitter.allocateLabel.run emitter = .ok ⟨emitter.labels.states.size⟩ opened :=
    rfl
  have jumped :
      opened.labels.jumped ⟨emitter.labels.states.size⟩ (opened.chunk.size + 1) opened.depth =
      .ok { depth := some emitter.depth, pending := [emitter.chunk.size + 1] } := by
    refine (Labels.jumped_eq_ok_iff _ _ _ _ _).mpr ⟨{}, ?_, rfl, by simp, rfl⟩
    simp [opened]
  have skipped : (Emitter.skipIfNull ⟨emitter.labels.states.size⟩).run opened =
    .ok () (jumping emitter) := by
    have last : (emitter.labels.states.push {}).setIfInBounds emitter.labels.states.size
        { depth := some emitter.depth, pending := [emitter.chunk.size + 1] } =
          emitter.labels.states.push
            { depth := some emitter.depth, pending := [emitter.chunk.size + 1] } := by
      apply Array.toList_inj.mp
      simp
    rw [Emitter.skipIfNull_run, jumped]
    simp [jumping, opened, Labels.setState, last]
  rw [emit, EStateM.run_bind, allocated]
  dsimp only
  rw [EStateM.run_bind, skipped]

def landed (emitter after : Emitter) : Emitter :=
  { after with
    chunk := after.chunk.patched (emitter.chunk.size + 1) (after.chunk.size -
      (emitter.chunk.size + 1 + 2))
    labels := after.labels.setState ⟨emitter.labels.states.size⟩
      { offset := some after.chunk.size, depth := some after.depth }
    reachable := true }

theorem size_jumping (emitter : Emitter) : (jumping emitter).chunk.size =
    emitter.chunk.size + 3 := by
  simp [jumping, Chunk.writeJump]

theorem size_landed (emitter after : Emitter) : (landed emitter after).chunk.size =
    after.chunk.size := by
  simp [landed, Chunk.size_patched]

theorem sizeAll_unlessNull (guarded : List Step) : sizeAll [.unlessNull guarded] =
    3 + sizeAll guarded := by
  rw [sizeAll_singleton, size]

theorem constantsAll_unlessNull (guarded : List Step) :
    constantsAll [.unlessNull guarded] = constantsAll guarded := by
  rw [constantsAll_singleton, Step.constants]

theorem Emitted.landed {emitter after : Emitter} {guarded : List Step}
    (emitted : Emitted (jumping emitter) guarded after) (near : sizeAll guarded ≤ 0xFFFF) :
    Emitted emitter [.unlessNull guarded] (landed emitter after) := by
  obtain ⟨code, listing, written, lowered, reads⟩ := emitted.code
  obtain ⟨more, states, bound⟩ := emitted.labels
  have size : after.chunk.size = emitter.chunk.size + 3 + sizeAll guarded := by
    rw [emitted.size, size_jumping]
  have distance : after.chunk.size - (emitter.chunk.size + 1 + 2) = sizeAll guarded := by omega
  let jump : List UInt8 :=
    Opcode.jumpIfNullDereference.byte :: wordBytes (UInt16.ofNat (sizeAll guarded))
  have patched : (Step.landed emitter after).chunk.bytes.toList =
      emitter.chunk.bytes.toList ++ (jump.map (CodeByte.mk · emitter.line) ++ code) := by
    have opened : after.chunk.bytes.toList =
        (emitter.chunk.bytes.toList ++ [⟨Opcode.jumpIfNullDereference.byte, emitter.line⟩]) ++
          ((wordBytes Chunk.openJump).map (CodeByte.mk · emitter.line) ++ code) := by
      rw [written]
      simp [jumping, Chunk.writeJump, Chunk.write]
    have replaced := Chunk.toList_patched near opened
    have place :
        (emitter.chunk.bytes.toList ++
        [CodeByte.mk Opcode.jumpIfNullDereference.byte emitter.line]).length =
        emitter.chunk.size + 1 := by
      simp [Chunk.size]
    rw [place] at replaced
    unfold Step.landed
    rw [distance]
    simpa [jump] using replaced
  refine ⟨?_, ?_, ⟨jump.map (CodeByte.mk · emitter.line) ++ code,
    (emitter.chunk.size, .jumpIfNullDereference after.chunk.size) :: (listing ++ []),
      patched, ?_, ?_⟩,
    { offset := some after.chunk.size, depth := some after.depth } :: more, ?_, ?_⟩
  · rw [constantsAll_unlessNull]
    exact emitted.grown
  · rw [size_landed, sizeAll_unlessNull]
    omega
  · rw [size_landed]
    exact .unlessNull (size_jumping emitter ▸ lowered) (.nil _)
  · intro chunk later extends' holds
    have values : (jump.map (CodeByte.mk · emitter.line)).map (·.value) = jump := by
      simp [Function.comp_def]
    rw [List.map_append, values, Chunk.holds_append] at holds
    have read := Encodes.jump after.pool emitter.chunk.size (UInt16.ofNat (sizeAll guarded)) chunk
      later extends' holds.1
    have lands : emitter.chunk.size + 3 + (UInt16.ofNat (sizeAll guarded)).toNat =
      after.chunk.size := by
      simp
      omega
    rw [lands] at read
    rw [List.append_nil, size_landed]
    refine .cons read (by simp) ?_
    have body := reads chunk later extends'
    rw [size_jumping] at body
    exact body holds.2
  · simp [Step.landed, Labels.setState, states, jumping]
  · intro state member
    rcases List.mem_cons.mp member with rfl | member
    · rfl
    · exact bound state member

theorem emitting_unlessNull {limit depth : Nat} {guarded : List Step}
    (inside : Emitting limit depth guarded depth) :
    Emitting limit depth [.unlessNull guarded] depth := by
  intro emitter sound same bounded
  rw [emitAll_singleton, emit_unlessNull_run, EStateM.run_bind]
  have width := size_jumping emitter
  have length := sizeAll_unlessNull guarded
  have constants := constantsAll_unlessNull guarded
  rcases inside (jumping emitter) sound same ⟨bounded.low, bounded.high, bounded.most⟩ with
    ⟨after, ran, emitted, depth', bounded'⟩ | ⟨fault, stopped, ran, failed, low⟩
  case inr =>
    rw [ran]
    refine Or.inr ⟨fault, stopped, rfl,
      ⟨constants ▸ failed.grown, failed.cause.widen ?_ fun _ => .guarded⟩, low⟩
    omega
  -- What is left is to bind the label, which fails only if the jump cannot reach it.
  obtain ⟨more, states, -⟩ := emitted.labels
  have held : after.labels.states[emitter.labels.states.size]? =
      some { depth := some after.depth, pending := [emitter.chunk.size + 1] } := by
    rw [← Array.getElem?_toList, states, depth', ← same]
    simp [jumping]
  have size := emitted.size
  have low : after.Bounded limit := bounded'
  rw [ran]
  dsimp only
  rw [Emitter.bindLabel_run_of_waiting ⟨emitter.labels.states.size⟩ held (by omega)]
  dsimp only
  by_cases huge : UInt64.size ≤ emitter.chunk.size + 1 + 2
  · rw [if_pos huge]
    refine Or.inr ⟨_, _, rfl, ⟨constants ▸ emitted.grown, .huge (huge.trans ?_)⟩,
      ⟨low.low, low.high, low.most⟩⟩
    omega
  by_cases far : 0xFFFF < after.chunk.size - (emitter.chunk.size + 1 + 2)
  · have distance : after.chunk.size - (emitter.chunk.size + 1 + 2) = sizeAll guarded := by omega
    rw [if_neg huge, if_pos far]
    rw [distance] at far ⊢
    exact Or.inr ⟨_, _, rfl, ⟨constants ▸ emitted.grown, .far (.here []) far⟩,
      ⟨low.low, low.high, low.most⟩⟩
  · rw [if_neg huge, if_neg far]
    exact Or.inl ⟨landed emitter after, rfl, emitted.landed (by omega), depth',
      ⟨low.low, low.high, low.most⟩⟩

theorem Balanced.emitting {limit first last : Nat} {steps : List Step}
    (balanced : Balanced limit first steps last) :
    Emitting limit first steps last := by
  induction balanced with
  | nil depth => exact emitting_nil limit depth
  | @line depth last number rest _ ih => exact (emitting_line limit depth number).append ih
  | straight written ready enough _ fits _ ih =>
    exact (emitting_straight written ready enough fits).append ih
  | unlessNull _ _ _ inside ih => exact (emitting_unlessNull inside).append ih
  | @fault depth last cause rest => exact emitting_fault limit depth last cause rest

end Step

end ProcLowering
