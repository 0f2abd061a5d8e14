import ProcLowering.Proofs.CallSites

set_option autoImplicit false

namespace ProcLowering

namespace Chunk

theorem line?_eq (chunk : Chunk) (offset : Nat) : chunk.line? offset = chunk.lines[offset]? := by
  simp [line?, lines]

theorem lines_setByte (chunk : Chunk) (place : Nat) (value : UInt8) :
    (chunk.setByte place value).lines = chunk.lines := by
  apply List.ext_getElem?
  intro i
  rw [← line?_eq, ← line?_eq, line?, line?, setByte, Array.getElem?_modify]
  split <;> simp [Function.comp_def]

theorem lines_patched (chunk : Chunk) (operand distance : Nat) :
    (chunk.patched operand distance).lines = chunk.lines := by
  rw [patched, lines_setByte, lines_setByte]

theorem lines_patchJumps {operands : List Nat} {target : Nat} {chunk after : Chunk}
    (ran : EStateM.run (operands.forM fun operand => patchJump operand target) chunk =
      .ok () after) :
    after.lines = chunk.lines := by
  induction operands generalizing chunk with
  | nil =>
    cases ran
    rfl
  | cons operand rest ih =>
    obtain ⟨_, middle, first, others⟩ := run_bind_eq_ok ran
    obtain ⟨-, -, rfl⟩ := patchJump_eq_ok first
    rw [ih others, lines_patched]

/-- All bytes of a listed instruction come from one line. -/
def Marks (chunk : Chunk) (entry : Nat × Instruction) (line : UInt32) : Prop :=
  ∀ place < entry.2.size, chunk.line? (entry.1 + place) = some line

theorem Marks.unique {chunk : Chunk} {entry : Nat × Instruction} {line other : UInt32}
    (marks : chunk.Marks entry line) (marks' : chunk.Marks entry other) : line = other := by
  have first := marks 0 entry.2.size_pos
  have second := marks' 0 entry.2.size_pos
  exact Option.some.inj (first.symm.trans second)

theorem marks_of_lines {chunk : Chunk} {before after : List UInt32} {instruction : Instruction}
    {line : UInt32}
    (lines : chunk.lines = before ++ (List.replicate instruction.size line ++ after)) :
    chunk.Marks (before.length, instruction) line := by
  intro place inside
  rw [line?_eq, lines, List.getElem?_append_right (Nat.le_add_right _ _), Nat.add_sub_cancel_left,
    List.getElem?_append_left (by simpa using inside), List.getElem?_replicate, if_pos inside]

end Chunk

theorem Emitter.lines_bindLabel {label : Label} {emitter after : Emitter}
    (ran : (bindLabel label).run emitter = .ok () after) :
    after.chunk.lines = emitter.chunk.lines ∧ after.line = emitter.line := by
  obtain ⟨state, bound, patches, -⟩ := bindLabel_ok ran
  refine ⟨Chunk.lines_patchJumps patches, ?_⟩
  rw [bindLabel_run, bound] at ran
  dsimp only at ran
  rw [patches] at ran
  dsimp only at ran
  split at ran <;> exact (congrArg Emitter.line (EStateM.Result.ok.inj ran).2).symm

namespace Step

mutual

def lineAfter (line : UInt32) : Step → UInt32
  | .line number => number
  | .unlessNull guarded => lineAfterAll line guarded
  | _ => line

def lineAfterAll (line : UInt32) : List Step → UInt32
  | [] => line
  | step :: rest => lineAfterAll (step.lineAfter line) rest

end

mutual

def byteLines (line : UInt32) : Step → List UInt32
  | .unlessNull guarded => List.replicate 3 line ++ byteLinesAll line guarded
  | step => List.replicate step.size line

def byteLinesAll (line : UInt32) : List Step → List UInt32
  | [] => []
  | step :: rest => step.byteLines line ++ byteLinesAll (step.lineAfter line) rest

end

mutual

def callLines (line : UInt32) : Step → List (Reference × UInt32)
  | .call reference => [(reference, line)]
  | .unlessNull guarded => callLinesAll line guarded
  | _ => []

def callLinesAll (line : UInt32) : List Step → List (Reference × UInt32)
  | [] => []
  | step :: rest => step.callLines line ++ callLinesAll (step.lineAfter line) rest

end

theorem lineAfter_straight {step : Step} {instruction : Instruction}
    (written : step.instruction? = some instruction) (line : UInt32) :
    step.lineAfter line = line := by
  cases step <;> cases written <;> rfl

theorem byteLines_straight {step : Step} {instruction : Instruction}
    (written : step.instruction? = some instruction) (line : UInt32) :
    step.byteLines line = List.replicate instruction.size line := by
  rw [← size_eq written]
  cases step <;> cases written <;> rfl

theorem callLines_straight {step : Step} {instruction : Instruction}
    (written : step.instruction? = some instruction) (line : UInt32) :
    step.callLines line = (instruction.reference?.map (·, line)).toList := by
  cases step <;> cases written <;> rfl

theorem lineAfterAll_append (line : UInt32) (first second : List Step) :
    lineAfterAll line (first ++ second) = lineAfterAll (lineAfterAll line first) second := by
  induction first generalizing line with
  | nil => rfl
  | cons step rest ih => simp only [List.cons_append, lineAfterAll, ih]

theorem callLinesAll_append (line : UInt32) (first second : List Step) :
    callLinesAll line (first ++ second) = callLinesAll line first ++
      callLinesAll (lineAfterAll line first) second := by
  induction first generalizing line with
  | nil => rfl
  | cons step rest ih =>
    simp only [List.cons_append, callLinesAll, lineAfterAll, ih, List.append_assoc]

structure Traced (emitter : Emitter) (steps : List Step) (after : Emitter) : Prop where
  lines : after.chunk.lines = emitter.chunk.lines ++ byteLinesAll emitter.line steps
  line : after.line = lineAfterAll emitter.line steps

theorem Balanced.traced {limit first last : Nat} {steps : List Step}
    (balanced : Balanced limit first steps last) {emitter after : Emitter}
    (sound : emitter.pool.Sound) (depth : emitter.depth = first) (bounded : emitter.Bounded limit)
    (ran : (emitAll steps).run emitter = .ok () after) :
    Traced emitter steps after := by
  induction balanced generalizing emitter after with
  | nil =>
    cases ran
    exact ⟨by simp [byteLinesAll], rfl⟩
  | @line _ _ number _ _ ih =>
    obtain ⟨_, _, begun, rest⟩ := run_bind_eq_ok ran
    cases begun
    obtain ⟨lines, line⟩ :=
      @ih { emitter with line := number } _ sound depth
        ⟨bounded.low, bounded.high, bounded.most⟩ rest
    exact ⟨lines, line⟩
  | @straight _ _ step instruction others written ready enough _ fits _ ih =>
    obtain ⟨_, _, begun, rest⟩ := run_bind_eq_ok ran
    obtain ⟨pool, -, ⟨bytes, held, wrote, length, -⟩ | ⟨full, -⟩⟩ :=
      emits written ready emitter sound
    -- The step went through, so the pool had room for its constant.
    case inr => cases begun.symm.trans full
    cases begun.symm.trans wrote
    rcases emitting_straight written ready enough fits emitter sound depth bounded with
      ⟨_, same, emitted, depth', bounded'⟩ | ⟨_, _, same, -⟩
    all_goals
      rw [emitAll_singleton, wrote] at same
      cases same
    obtain ⟨lines, line⟩ := ih emitted.grown.sound depth' bounded' rest
    have straight := lineAfter_straight written emitter.line
    -- All bytes are written on the line that is current before and stays so.
    refine ⟨?_, ?_⟩
    · rw [lines, byteLinesAll, byteLines_straight written, straight, ← List.append_assoc]
      simp [Emitter.wrote, length]
    · rw [line, lineAfterAll, straight]
      rfl
  | @unlessNull _ _ guarded others _ inside _ ihInside ihTail =>
    obtain ⟨_, _, begun, rest⟩ := run_bind_eq_ok ran
    rcases emitting_unlessNull inside.emitting emitter sound depth bounded with
      ⟨_, same, emitted, depth', bounded'⟩ | ⟨_, _, same, -⟩
    all_goals
      rw [emitAll_singleton, begun] at same
      cases same
    obtain ⟨lines, line⟩ := ihTail emitted.grown.sound depth' bounded' rest
    -- The jump is written on the line before the guarded steps, and patched behind them.
    rw [emit_unlessNull_run] at begun
    obtain ⟨_, inner, guards, bound⟩ := run_bind_eq_ok begun
    obtain ⟨linesInside, lineInside⟩ :=
      @ihInside (jumping emitter) _ sound depth ⟨bounded.low, bounded.high, bounded.most⟩ guards
    obtain ⟨linesBound, lineBound⟩ := Emitter.lines_bindLabel bound
    have jumped : (jumping emitter).chunk.lines = emitter.chunk.lines ++
      List.replicate 3 emitter.line := by
      simp [jumping, Chunk.writeJump]
    have kept : (jumping emitter).line = emitter.line := rfl
    rw [kept] at linesInside lineInside
    rw [linesBound, linesInside, jumped, lineBound, lineInside] at lines
    rw [lineBound, lineInside] at line
    refine ⟨?_, ?_⟩
    · rw [lines, byteLinesAll, byteLines, lineAfter]
      simp only [List.append_assoc]
    · rw [line, lineAfterAll, lineAfter]
  | fault => cases ran

theorem Lowered.length_byteLinesAll {first last : Nat} {steps : List Step}
    {listing : List (Nat × Instruction)} (lowered : Lowered first steps listing last)
    (line : UInt32) : first + (byteLinesAll line steps).length = last := by
  induction lowered generalizing line with
  | nil => rfl
  | line _ ih => exact ih _
  | straight written _ _ ih =>
    rw [byteLinesAll, byteLines_straight written, lineAfter_straight written, List.length_append,
      List.length_replicate, ← Nat.add_assoc, ih]
  | @unlessNull _ _ _ guarded _ _ _ _ _ ihInside ihTail =>
    have inside := ihInside line
    have tail := ihTail (lineAfterAll line guarded)
    rw [byteLinesAll, byteLines, lineAfter]
    simp only [List.length_append, List.length_replicate]
    omega

/-- Where the lines of some code are those of its steps, every call
stands on the line it is made from. -/
theorem Lowered.marks {first last : Nat} {steps : List Step} {listing : List (Nat × Instruction)}
    (lowered : Lowered first steps listing last) {chunk : Chunk} {line : UInt32}
    {before after : List UInt32}
    (lines : chunk.lines = before ++ (byteLinesAll line steps ++ after))
    (place : before.length = first) :
    List.Forall₂ (fun call entry => entry.2 = .call call.1 ∧ chunk.Marks entry call.2)
      (callLinesAll line steps)
      (listing.filter (·.2.reference?.isSome)) := by
  induction lowered generalizing line before after with
  | nil => exact .nil
  | line _ ih => exact ih lines place
  | @straight _ _ step instruction held rest listing written same _ ih =>
    subst place
    rw [byteLinesAll, byteLines_straight written, lineAfter_straight written,
      List.append_assoc] at lines
    have others := @ih line (before ++ List.replicate instruction.size line) after
      (by rw [lines, List.append_assoc]) (by simp)
    rw [callLinesAll, callLines_straight written, lineAfter_straight written]
    cases called : instruction.reference? with
    | none =>
      -- What holds a constant in another form is no call either.
      have plain : held.reference? = none := by cases same <;> exact called
      rw [List.filter_cons_of_neg (by simp [plain])]
      exact others
    | some reference =>
      obtain rfl : instruction = .call reference := by cases instruction <;> cases called; rfl
      cases same
      rw [List.filter_cons_of_pos rfl]
      exact .cons ⟨rfl, Chunk.marks_of_lines lines⟩ others
  | @unlessNull _ _ _ guarded rest inner listing inside _ ihInside ihTail =>
    subst place
    have length := inside.length_byteLinesAll line
    rw [byteLinesAll, byteLines, lineAfter, List.append_assoc, List.append_assoc] at lines
    rw [callLinesAll, callLines, lineAfter,
      List.filter_cons_of_neg (by simp [Instruction.reference?]), List.filter_append]
    have first := @ihInside line (before ++ List.replicate 3 line) _
      (by rw [lines, List.append_assoc]) (by simp)
    have second :=
      @ihTail (lineAfterAll line guarded)
        (before ++ (List.replicate 3 line ++ byteLinesAll line guarded)) after
      (by simp only [lines, List.append_assoc]) (by simp; omega)
    exact List.rel_append first second

end Step

theorem Body.compile_lines {tree : ObjectTree} {options : Options} {body : Body}
    {compiled : CompiledProc} (done : body.compile tree options = .ok compiled) {proc : Proc}
    {scope : Scope} (found : tree.proc body.proc = .ok proc)
    (opened : ({} : Scope).declareAll (body.declared proc) = .ok scope) :
    compiled.chunk.lines = Step.byteLinesAll 1 (body.steps tree options proc scope) := by
  obtain ⟨_, _, emitter, found', opened', ran, chunk, -⟩ := compile_emits done
  cases found.symm.trans found'
  cases opened.symm.trans opened'
  rw [chunk]
  exact ((body.balanced tree options proc scope).traced Pool.sound_empty rfl
    (Emitter.bounded_start _) ran).lines

end ProcLowering
