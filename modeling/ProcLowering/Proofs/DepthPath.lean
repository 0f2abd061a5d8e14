import ProcLowering.Proofs.RoundTrip

set_option autoImplicit false

namespace ProcLowering

/-- Control comes to this part of a program, and the effects on the
way there add up to the depth. -/
inductive Arrives (program : List (Nat × Instruction)) : List (Nat × Instruction) → Int → Prop
  | start : Arrives program program 0
  | falls {offset : Nat} {instruction : Instruction} {rest : List (Nat × Instruction)} {depth : Int}
      (arrives : Arrives program ((offset, instruction) :: rest) depth)
      (onward : instruction ≠ .ret) :
      Arrives program rest (depth + instruction.effect)
  | jumps {offset target : Nat} {rest : List (Nat × Instruction)} {depth : Int}
      (arrives : Arrives program ((offset, .jumpIfNullDereference target) :: rest) depth) :
      Arrives program (program.dropWhile (·.1 != target))
        (depth + (Instruction.jumpIfNullDereference target).effect)

-- Another spelling of a constant changes neither what an instruction
-- does to the depth nor where it goes.
theorem Instruction.Same.simulated {held instruction : Instruction} (same : held.Same instruction) :
    held.effect = instruction.effect ∧ (held = .ret ↔ instruction = .ret) := by
  cases same <;> simp [effect, pushes, pops]

namespace Emitter

def depthOf? (emitter : Emitter) (label : Label) : Option Int :=
  emitter.labels.states[label.id]?.bind (·.depth)

def boundTo? (emitter : Emitter) (label : Label) : Option Nat :=
  emitter.labels.states[label.id]?.bind (·.offset)

def arrival? (emitter : Emitter) (label : Label) : Option Int :=
  (emitter.depthOf? label).or emitter.fallthrough

inductive Moves (emitter after : Emitter) : Op → Prop
  | straight {op : Op} {instruction : Instruction} (given : op.instruction? = some instruction)
      (grows : emitter.chunk.size < after.chunk.size)
      (depth : after.depth = emitter.depth + instruction.effect)
      (most : after.maxDepth = max emitter.maxDepth after.depth)
      (reachable : after.reachable = (emitter.reachable && decide (instruction ≠ .ret)))
      (labels : after.labels = emitter.labels) : Moves emitter after op
  | skip {label : Label} (unbound : emitter.boundTo? label = none)
      (agrees : ∀ expected, emitter.depthOf? label = some expected → expected = emitter.depth)
      (grows : emitter.chunk.size < after.chunk.size) (depth : after.depth = emitter.depth)
      (most : after.maxDepth = emitter.maxDepth) (reachable : after.reachable = emitter.reachable)
      (depths : ∀ other, after.depthOf? other = if other = label then some emitter.depth
        else emitter.depthOf? other)
      (bindings : ∀ other, after.boundTo? other = emitter.boundTo? other) :
        Moves emitter after (.skipIfNull label)
  | silent {op : Op} (quiet : op.writes = false) (unbinding : ∀ label, op ≠ .bindLabel label)
      (size : after.chunk.size = emitter.chunk.size) (depth : after.depth = emitter.depth)
      (most : after.maxDepth = emitter.maxDepth) (reachable : after.reachable = emitter.reachable)
      (depths : ∀ other, after.depthOf? other = emitter.depthOf? other)
      (bindings : ∀ other, after.boundTo? other = emitter.boundTo? other) : Moves emitter after op
  | bind {label : Label} (unbound : emitter.boundTo? label = none)
      (agrees : ∀ expected found, emitter.depthOf? label = some expected →
        emitter.fallthrough = some found →
        expected = found)
      (size : after.chunk.size = emitter.chunk.size)
      (depth : after.depth = (emitter.arrival? label).getD emitter.depth)
      (most : after.maxDepth = emitter.maxDepth)
      (reachable : after.reachable = (emitter.arrival? label).isSome)
      (depths : ∀ other, after.depthOf? other = if other = label then emitter.arrival? label
        else emitter.depthOf? other)
      (bindings : ∀ other, after.boundTo? other =
        if other = label then some emitter.chunk.size else emitter.boundTo? other) :
      Moves emitter after (.bindLabel label)

theorem bind_setState {β : Type} (view : LabelState → Option β) {labels : Labels} {label : Label}
    {state : LabelState} (held : labels.states[label.id]? = some state) (next : LabelState)
    (other : Label) :
    (labels.setState label next).states[other.id]?.bind view =
      if other = label then view next else labels.states[other.id]?.bind view := by
  rw [Labels.getElem?_setState]
  by_cases same : other = label
  · simp [same, held]
  · have apart : label.id ≠ other.id :=
      fun equal => same (by cases other; cases label; exact congrArg Label.mk equal.symm)
    simp [same, apart]

theorem fallthrough_of_reachable {emitter : Emitter} (reached : emitter.reachable = true) :
    emitter.fallthrough = some emitter.depth := by
  simp [fallthrough, reached]

theorem moves_bindLabel {label : Label} {emitter after : Emitter}
    (ran : (bindLabel label).run emitter = .ok () after) :
      Moves emitter after (.bindLabel label) := by
  rw [bindLabel_run] at ran
  cases bound : emitter.labels.bound label emitter.chunk.size emitter.fallthrough with
  | error fault =>
    rw [bound] at ran
    cases ran
  | ok next =>
    obtain ⟨state, held, unbound, agrees, rfl⟩ := (Labels.bound_eq_ok_iff _ _ _ _ _).mp bound
    have waits : emitter.depthOf? label = state.depth := by simp [depthOf?, held]
    have meets : emitter.arrival? label = state.depth.or emitter.fallthrough := by
      rw [arrival?, waits]
    rw [bound] at ran
    dsimp only at ran
    rw [← meets] at ran
    cases patches : EStateM.run
        (state.pending.reverse.forM fun operand => Chunk.patchJump operand emitter.chunk.size)
          emitter.chunk with
    | error fault chunk =>
      rw [patches] at ran
      cases ran
    | ok _ chunk =>
      have size := Chunk.size_patchJumps _ patches
      have depths := bind_setState (·.depth) held
        { offset := some emitter.chunk.size, depth := emitter.arrival? label, pending := [] }
      have bindings := bind_setState (·.offset) held
        { offset := some emitter.chunk.size, depth := emitter.arrival? label, pending := [] }
      rw [patches] at ran
      dsimp only at ran
      cases arrives : emitter.arrival? label with
      | none =>
        -- Nothing arrives at the label, so the code before it is not reached either.
        have dead : emitter.reachable = false := by
          rw [← Bool.not_eq_true]
          intro reached
          simp [arrival?, fallthrough_of_reachable reached] at arrives
        rw [arrives] at ran depths bindings
        cases ran
        refine .bind (by simp [boundTo?, held, unbound]) (waits ▸ agrees) size
          (by rw [arrives]; rfl) rfl
          (by rw [arrives]; exact dead) (arrives ▸ depths) bindings
      | some depth =>
        rw [arrives] at ran depths bindings
        cases ran
        exact .bind (by simp [boundTo?, held, unbound]) (waits ▸ agrees) size
          (by rw [arrives]; rfl) rfl
          (by rw [arrives]; rfl) (arrives ▸ depths) bindings

theorem moves_skipIfNull {label : Label} {emitter after : Emitter}
    (ran : (skipIfNull label).run emitter = .ok () after) :
      Moves emitter after (.skipIfNull label) := by
  rw [skipIfNull_run] at ran
  cases jumped : emitter.labels.jumped label (emitter.chunk.size + 1) emitter.depth with
  | error fault =>
    rw [jumped] at ran
    cases ran
  | ok next =>
    obtain ⟨state, held, unbound, agrees, rfl⟩ := (Labels.jumped_eq_ok_iff _ _ _ _ _).mp jumped
    have waits : emitter.depthOf? label = state.depth := by simp [depthOf?, held]
    have open' : emitter.boundTo? label = none := by simp [boundTo?, held, unbound]
    rw [jumped] at ran
    cases ran
    refine .skip open' (waits ▸ agrees) (by simp [Chunk.writeJump]) rfl rfl rfl
      (bind_setState (·.depth) held _) fun other => ?_
    have kept := bind_setState (·.offset) held
      { state with
        depth := some emitter.depth, pending := (emitter.chunk.size + 1) :: state.pending } other
    refine kept.trans ?_
    split
    · next same => rw [same, open', unbound]
    · rfl

theorem Op.moves {op : Op} {emitter after : Emitter} (sound : emitter.pool.Sound)
    (ran : op.run.run emitter = .ok () after) : Moves emitter after op := by
  cases given : op.instruction? with
  | some instruction =>
    obtain ⟨pool, grown, ⟨bytes, held, wrote, length, -⟩ | ⟨failed, -⟩⟩ :=
      Op.emits_of_ok given ran emitter sound
    · rw [wrote] at ran
      cases ran
      have filled := instruction.size_pos
      refine .straight given ?_ rfl rfl rfl rfl
      show emitter.chunk.size < (emitter.chunk.write bytes emitter.line).size
      rw [Chunk.size_write]
      omega
    · rw [failed] at ran
      cases ran
  | none =>
    cases op with
    | setLine number =>
      cases ran
      exact .silent rfl (by simp) rfl rfl rfl rfl (fun _ => rfl) fun _ => rfl
    | allocateLabel =>
      cases ran
      -- The new label has neither a depth nor an offset.
      have pushed {β : Type} (view : LabelState → Option β) (fresh : view {} = none)
          (other : Label) :
          (emitter.labels.states.push {})[other.id]?.bind view =
            emitter.labels.states[other.id]?.bind view := by
        rw [Array.getElem?_push]
        split
        · next last => simp [last, fresh]
        · rfl
      exact .silent rfl (by simp) rfl rfl rfl rfl (pushed (·.depth) rfl) (pushed (·.offset) rfl)
    | skipIfNull label => exact moves_skipIfNull ran
    | bindLabel label => exact moves_bindLabel ran
    | _ => cases given

theorem Op.instruction_or_skip {op : Op} (writes : op.writes = true) :
    (∃ instruction, op.instruction? = some instruction) ∨ ∃ label, op = .skipIfNull label := by
  cases op with
  | setLine | allocateLabel | bindLabel => cases writes
  | skipIfNull label => exact Or.inr ⟨label, rfl⟩
  | _ => exact Or.inl ⟨_, rfl⟩

theorem Op.not_jump {op : Op} {instruction : Instruction}
    (given : op.instruction? = some instruction) (target : Nat) :
    instruction ≠ .jumpIfNullDereference target := by
  rintro rfl
  cases op with
  | plain op => cases op <;> cases given
  | _ => cases given

/-- What operations never take back. As long as nothing is written, a place that is reached stays
reached, with the same depth. -/
structure Later (emitter after : Emitter) : Prop where
  size : emitter.chunk.size ≤ after.chunk.size
  most : emitter.maxDepth ≤ after.maxDepth
  depths : ∀ label depth, emitter.depthOf? label = some depth → after.depthOf? label = some depth
  bindings : ∀ label target, emitter.boundTo? label = some target →
    after.boundTo? label = some target
  settled : after.chunk.size = emitter.chunk.size → emitter.reachable = true →
    after.reachable = true ∧ after.depth = emitter.depth

theorem Later.refl (emitter : Emitter) : Later emitter emitter :=
  ⟨Nat.le_refl _, Int.le_refl _, fun _ _ known => known, fun _ _ known => known, fun _ reached =>
    ⟨reached, rfl⟩⟩

theorem Later.trans {a b c : Emitter} (head : Later a b) (tail : Later b c) : Later a c where
  size := Nat.le_trans head.size tail.size
  most := Int.le_trans head.most tail.most
  depths label depth known := tail.depths label depth (head.depths label depth known)
  bindings label target known := tail.bindings label target (head.bindings label target known)
  settled same reached := by
    have first := head.size
    have second := tail.size
    obtain ⟨middle, depth⟩ := head.settled (by omega) reached
    obtain ⟨last, depth'⟩ := tail.settled (by omega) middle
    exact ⟨last, depth'.trans depth⟩

structure Tall (emitter : Emitter) : Prop where
  depth : emitter.depth ≤ emitter.maxDepth
  labels : ∀ label depth, emitter.depthOf? label = some depth → depth ≤ emitter.maxDepth

theorem Tall.arrival {emitter : Emitter} (tall : emitter.Tall) {label : Label} {depth : Int}
    (arrives : emitter.arrival? label = some depth) : depth ≤ emitter.maxDepth := by
  rcases Option.or_eq_some_iff.mp arrives with waits | ⟨-, falls⟩
  · exact tall.labels label depth waits
  · unfold fallthrough at falls
    split at falls <;> cases falls
    exact tall.depth

theorem tall_start : Tall {} := ⟨Int.le_refl _, by simp [depthOf?]⟩

namespace Moves

variable {emitter after : Emitter} {op : Op}

theorem later (moves : Moves emitter after op) : Later emitter after := by
  cases moves with
  | straight given grows depth most reachable labels =>
    refine ⟨Nat.le_of_lt grows, most ▸ Int.le_max_left _ _, ?_, ?_, fun same => by omega⟩
    · simp [depthOf?, labels]
    · simp [boundTo?, labels]
  | @skip label unbound agrees grows depth most reachable depths bindings =>
    refine ⟨Nat.le_of_lt grows, Int.le_of_eq most.symm, ?_, fun other _ known =>
      (bindings other).trans known,
      fun same => by omega⟩
    intro other expected known
    rw [depths]
    split
    · next same => rw [agrees expected (same ▸ known)]
    · exact known
  | silent quiet unbinding size depth most reachable depths bindings =>
    exact ⟨Nat.le_of_eq size.symm, Int.le_of_eq most.symm, fun other _ known =>
      (depths other).trans known,
      fun other _ known => (bindings other).trans known, fun _ reached =>
        ⟨reachable.trans reached, depth⟩⟩
  | @bind label unbound agrees size depth most reachable depths bindings =>
    refine ⟨Nat.le_of_eq size.symm, Int.le_of_eq most.symm, ?_, ?_, ?_⟩
    · intro other expected known
      rw [depths]
      split
      · next same =>
        rw [← same, arrival?, known]
        rfl
      · exact known
    · intro other target known
      rw [bindings]
      split
      · next same => simp [same, unbound] at known
      · exact known
    · intro _ reached
      have falls := fallthrough_of_reachable reached
      cases waits : emitter.depthOf? label with
      | none => simp [reachable, depth, arrival?, waits, falls]
      | some expected => simp [reachable, depth, arrival?, waits, agrees expected _ waits falls]

theorem tall (moves : Moves emitter after op) (tall : emitter.Tall) : after.Tall := by
  cases moves with
  | straight given grows depth most reachable labels =>
    refine ⟨most ▸ Int.le_max_right _ _, ?_⟩
    intro label expected known
    have before := tall.labels label expected (by simpa [depthOf?, labels] using known)
    exact Int.le_trans before (most ▸ Int.le_max_left _ _)
  | @skip label unbound agrees grows depth most reachable depths bindings =>
    refine ⟨by rw [depth, most]; exact tall.depth, ?_⟩
    intro other expected known
    rw [depths] at known
    rw [most]
    split at known
    · cases known
      exact tall.depth
    · exact tall.labels other expected known
  | silent quiet unbinding size depth most reachable depths bindings =>
    refine ⟨by rw [depth, most]; exact tall.depth, ?_⟩
    intro other expected known
    rw [most]
    exact tall.labels other expected ((depths other).symm.trans known)
  | @bind label unbound agrees size depth most reachable depths bindings =>
    refine ⟨?_, ?_⟩
    · rw [depth, most]
      cases arrives : emitter.arrival? label with
      | none => exact tall.depth
      | some expected => exact tall.arrival arrives
    · intro other expected known
      rw [depths] at known
      rw [most]
      split at known
      · exact tall.arrival known
      · exact tall.labels other expected known

end Moves

inductive History : Emitter → List Moment → Emitter → Prop
  | nil (emitter : Emitter) : History emitter [] emitter
  | cons {op : Op} {emitter after last : Emitter} {rest : List Moment}
      (moves : Moves emitter after op) (more : History after rest last) :
      History emitter (⟨op, emitter, after⟩ :: rest) last

theorem history_moments {ops : List Op} {emitter last : Emitter} (sound : emitter.pool.Sound)
    (ran : (Op.runAll ops).run emitter = .ok () last) :
      History emitter (Op.moments ops emitter) last := by
  induction ops generalizing emitter with
  | nil =>
    cases ran
    exact .nil _
  | cons op rest ih =>
    rw [Op.runAll] at ran
    obtain ⟨_, next, first, others⟩ := run_bind_eq_ok ran
    simp only [Op.moments, first]
    exact .cons (Op.moves sound first) (ih (Op.line_of_ok sound first).2 others)

namespace History

variable {first last : Emitter} {moments : List Moment}

theorem split {before after : List Moment} (history : History first (before ++ after) last) :
    ∃ middle, History first before middle ∧ History middle after last := by
  induction before generalizing first with
  | nil => exact ⟨first, .nil _, history⟩
  | cons moment rest ih =>
    cases history with
    | cons moves more =>
      obtain ⟨middle, head, tail⟩ := ih more
      exact ⟨middle, .cons moves head, tail⟩

theorem append {middle : Emitter} {before after : List Moment} (head : History first before middle)
    (tail : History middle after last) : History first (before ++ after) last := by
  induction head with
  | nil => exact tail
  | cons moves _ ih => exact .cons moves (ih tail)

theorem splitAt {before after : List Moment} {moment : Moment}
    (history : History first (before ++ moment :: after) last) :
    History first before moment.before ∧ Moves moment.before moment.after moment.op ∧
      History moment.after after last := by
  obtain ⟨middle, head, tail⟩ := history.split
  cases tail with
  | cons moves more => exact ⟨head, moves, more⟩

theorem later (history : History first moments last) : Later first last := by
  induction history with
  | nil => exact .refl _
  | cons moves _ ih => exact moves.later.trans ih

theorem tall (history : History first moments last) (tall : first.Tall) : last.Tall := by
  induction history with
  | nil => exact tall
  | cons moves _ ih => exact ih (moves.tall tall)

theorem quiet (history : History first moments last)
    (silent : ∀ moment ∈ moments, ¬ moment.op.writes = true) :
    last.chunk.size = first.chunk.size := by
  induction history with
  | nil => rfl
  | @cons op emitter after last rest moves _ ih =>
    rw [ih fun moment member => silent moment (by simp [member])]
    have here : ¬ op.writes = true := silent ⟨op, emitter, after⟩ (by simp)
    cases moves with
    | straight given => exact absurd (Op.writes_of_instruction? given) here
    | skip => exact absurd rfl here
    | silent _ _ size => exact size
    | bind _ _ size => exact size

end History

namespace Moves

variable {emitter after : Emitter} {op : Op} {label : Label}

theorem of_straight {instruction : Instruction} (moves : Moves emitter after op)
    (given : op.instruction? = some instruction) :
    emitter.chunk.size < after.chunk.size ∧ after.depth = emitter.depth + instruction.effect ∧
      after.reachable = (emitter.reachable && decide (instruction ≠ .ret)) := by
  cases moves with
  | straight given' grows depth most reachable =>
    obtain rfl : _ = instruction := Option.some.inj (given'.symm.trans given)
    exact ⟨grows, depth, reachable⟩
  | silent quiet =>
    rw [Op.writes_of_instruction? given] at quiet
    cases quiet
  | skip => cases given
  | bind => cases given

theorem of_skip (moves : Moves emitter after (.skipIfNull label)) :
    emitter.boundTo? label = none ∧ emitter.chunk.size < after.chunk.size ∧
      after.depth = emitter.depth ∧
      after.reachable = emitter.reachable ∧ after.depthOf? label = some emitter.depth := by
  cases moves with
  | straight given => cases given
  | silent quiet => cases quiet
  | skip unbound agrees grows depth most reachable depths =>
    exact ⟨unbound, grows, depth, reachable, by simp [depths]⟩

theorem grows (moves : Moves emitter after op) (writes : op.writes = true) :
    emitter.chunk.size < after.chunk.size := by
  obtain ⟨instruction, given⟩ | ⟨label, rfl⟩ := Op.instruction_or_skip writes
  · exact (moves.of_straight given).1
  · exact moves.of_skip.2.1

theorem of_bind (moves : Moves emitter after (.bindLabel label)) :
    after.chunk.size = emitter.chunk.size ∧ after.boundTo? label = some emitter.chunk.size ∧
      ∀ depth, emitter.depthOf? label = some depth → after.reachable = true ∧
        after.depth = depth := by
  cases moves with
  | straight given => cases given
  | silent quiet unbinding => exact absurd rfl (unbinding label)
  | bind unbound agrees size depth most reachable depths bindings =>
    refine ⟨size, by simp [bindings], ?_⟩
    intro expected waits
    simp [reachable, depth, arrival?, waits]

end Moves

section

variable {moments : List Moment} {final : Emitter} {chunk : Chunk} {pool : Pool}

theorem Yields.simulated {moment : Moment} {entry : Nat × Instruction}
    (yields : Yields moments chunk pool moment entry)
    (moves : Moves moment.before moment.after moment.op) (writes : moment.op.writes = true) :
    moment.after.depth = moment.before.depth + entry.2.effect ∧
      moment.after.reachable = (moment.before.reachable && decide (entry.2 ≠ .ret)) := by
  obtain ⟨instruction, given⟩ | ⟨label, skips⟩ := Op.instruction_or_skip writes
  · obtain ⟨-, depth, reachable⟩ := moves.of_straight given
    obtain ⟨effect, returns⟩ := (yields.given instruction given).simulated
    exact ⟨effect ▸ depth, by rw [reachable, decide_eq_decide.mpr (not_congr returns)]⟩
  · obtain ⟨-, -, depth, reachable, -⟩ := (skips ▸ moves).of_skip
    obtain ⟨target, jump, -⟩ := yields.jump label skips
    simp [depth, reachable, jump, Instruction.effect, Instruction.pushes, Instruction.pops]

structure Writing (moments : List Moment) (final : Emitter)
    (yields : Moment → Nat × Instruction → Prop) (done : List Moment) (moment : Moment)
    (todo : List Moment) (entry : Nat × Instruction) (rest : List (Nat × Instruction)) : Prop where
  parts : moments = done ++ moment :: todo
  before : History {} done moment.before
  moves : Moves moment.before moment.after moment.op
  after : History moment.after todo final
  writes : moment.op.writes = true
  entry : yields moment entry
  rest : List.Forall₂ yields (todo.filter (·.op.writes)) rest

structure Divided (moments : List Moment) (final : Emitter)
    (yields : Moment → Nat × Instruction → Prop) (emitter : Emitter)
    (code : List (Nat × Instruction)) : Prop where
  parts : ∃ done todo, moments = done ++ todo ∧ History {} done emitter ∧
    History emitter todo final ∧
    List.Forall₂ yields (todo.filter (·.op.writes)) code

theorem Writing.divided {yields : Moment → Nat × Instruction → Prop} {done todo : List Moment}
    {moment : Moment} {entry : Nat × Instruction} {rest : List (Nat × Instruction)}
    (writing : Writing moments final yields done moment todo entry rest) :
    Divided moments final yields moment.after rest := by
  refine ⟨done ++ [moment], todo, by simp [writing.parts], ?_, writing.after, writing.rest⟩
  exact writing.before.append (.cons writing.moves (.nil _))

/-- Up to the next moment that writes, nothing happens to a place that is reached. -/
theorem Divided.writing {yields : Moment → Nat × Instruction → Prop} {emitter : Emitter}
    {entry : Nat × Instruction} {rest : List (Nat × Instruction)}
    (divided : Divided moments final yields emitter (entry :: rest)) :
    ∃ done moment todo, Writing moments final yields done moment todo entry rest ∧
      moment.before.chunk.size = emitter.chunk.size ∧
        (emitter.reachable = true → moment.before.reachable = true ∧
          moment.before.depth = emitter.depth) := by
  obtain ⟨done, todo, rfl, before, after, written⟩ := divided.parts
  obtain ⟨moment, others, yield, more, first⟩ := List.forall₂_cons_right_iff.mp written
  obtain ⟨quiet, later, rfl, silent, writes, rfl⟩ := List.filter_eq_cons_iff.mp first
  obtain ⟨waits, moves, goes⟩ := after.splitAt
  have size := waits.quiet silent
  refine ⟨done ++ quiet, moment, later,
    ⟨by simp, before.append waits, moves, goes, writes, yield, more⟩, size, ?_⟩
  exact waits.later.settled size

theorem divided_dropWhile {listing : List (Nat × Instruction)} {done todo : List Moment}
    {emitter : Emitter} (parts : moments = done ++ todo) (before : History {} done emitter)
    (after : History emitter todo final)
    (written : List.Forall₂ (Yields moments chunk pool) (moments.filter (·.op.writes)) listing) :
    Divided moments final (Yields moments chunk pool) emitter
      (listing.dropWhile (·.1 != emitter.chunk.size)) := by
  have both := written.flip
  rw [parts, List.filter_append, ← parts] at both
  have first := (List.forall₂_take_append _ _ _ both).flip
  have second := (List.forall₂_drop_append _ _ _ both).flip
  rw [← List.take_append_drop (done.filter (·.op.writes)).length listing]
  generalize listing.take _ = left at first ⊢
  generalize listing.drop _ = right at second ⊢
  -- Whatever was written before lies below the offset.
  have below : ∀ entry ∈ left, (entry.1 != emitter.chunk.size) = true := by
    intro entry member
    obtain ⟨moment, here, yields⟩ := forall₂_mem first member
    obtain ⟨inside, writes⟩ := List.mem_filter.mp here
    obtain ⟨earlier, later, rfl⟩ := List.append_of_mem inside
    obtain ⟨-, moves, goes⟩ := before.splitAt
    have grows := moves.grows writes
    have least := goes.later.size
    have place := yields.offset
    simp only [bne_iff_ne]
    omega
  have divided : Divided moments final (Yields moments chunk pool) emitter right :=
    ⟨done, todo, parts, before, after, second⟩
  rw [List.dropWhile_append_of_pos below]
  cases right with
  | nil => exact divided
  | cons entry rest =>
    obtain ⟨_, moment, _, writing, size, -⟩ := divided.writing
    have place : entry.1 = emitter.chunk.size := writing.entry.offset.trans size
    simpa [place] using divided

theorem reached_of_arrives {listing code : List (Nat × Instruction)} {depth : Int}
    (history : History {} moments final)
    (written : List.Forall₂ (Yields moments chunk pool) (moments.filter (·.op.writes)) listing)
    (arrives : Arrives listing code depth) :
    ∃ emitter, emitter.reachable = true ∧ emitter.depth = depth ∧
      Divided moments final (Yields moments chunk pool) emitter code := by
  induction arrives with
  | start => exact ⟨{}, rfl, rfl, [], moments, rfl, .nil _, history, written⟩
  | @falls offset instruction rest depth _ onward ih =>
    obtain ⟨emitter, reached, rfl, divided⟩ := ih
    obtain ⟨_, moment, _, writing, -, settled⟩ := divided.writing
    obtain ⟨reached', depth⟩ := settled reached
    obtain ⟨effect, reachable⟩ := writing.entry.simulated writing.moves writing.writes
    refine ⟨moment.after, ?_, effect.trans (by rw [depth]), writing.divided⟩
    simpa [reached', onward] using reachable
  | @jumps offset target rest depth _ ih =>
    obtain ⟨emitter, reached, rfl, divided⟩ := ih
    obtain ⟨done, moment, todo, writing, -, settled⟩ := divided.writing
    obtain ⟨-, depth⟩ := settled reached
    obtain ⟨label, skips⟩ : ∃ label, moment.op = .skipIfNull label := by
      obtain ⟨instruction, given⟩ | skips := Op.instruction_or_skip writing.writes
      · have same : (Instruction.jumpIfNullDereference target).Same instruction :=
          writing.entry.given instruction given
        cases same
        exact absurd rfl (Op.not_jump given target)
      · exact skips
    obtain ⟨unbound, -, -, -, waits⟩ := (skips ▸ writing.moves).of_skip
    obtain ⟨place, jump, lands⟩ := writing.entry.jump label skips
    cases jump
    obtain ⟨bound, member, binds, here⟩ := (lands target).mpr rfl
    -- A label that is jumped to is not yet bound, so the binding comes later.
    obtain ⟨between, later, rfl⟩ : ∃ between later, todo = between ++ bound :: later := by
      rw [writing.parts, List.mem_append, List.mem_cons] at member
      rcases member with earlier | rfl | later
      · obtain ⟨first, second, rfl⟩ := List.append_of_mem earlier
        obtain ⟨-, moves, goes⟩ := writing.before.splitAt
        rw [goes.later.bindings label _ (binds ▸ moves).of_bind.2.1] at unbound
        cases unbound
      · rw [skips] at binds
        cases binds
      · exact List.append_of_mem later
    obtain ⟨before, moves, after⟩ := writing.after.splitAt
    obtain ⟨size, -, arrives⟩ := (binds ▸ moves).of_bind
    obtain ⟨reached', depth'⟩ := arrives _ (before.later.depths label _ waits)
    refine ⟨bound.after, reached', ?_, ?_⟩
    · rw [depth', depth]
      simp [Instruction.effect, Instruction.pushes, Instruction.pops]
    · have parts : moments = (done ++ moment :: (between ++ [bound])) ++ later := by
        simp [writing.parts]
      rw [← here, ← size]
      refine divided_dropWhile parts ?_ after written
      exact writing.before.append (.cons writing.moves (before.append (.cons moves (.nil _))))

theorem History.size_lt {first : Emitter} {moment other : Moment} {done todo : List Moment}
    (history : History first (done ++ moment :: todo) final) (writes : moment.op.writes = true)
    (later : other ∈ todo) :
    moment.before.chunk.size < other.before.chunk.size := by
  obtain ⟨between, rest, rfl⟩ := List.append_of_mem later
  obtain ⟨-, moves, goes⟩ := history.splitAt
  have least := goes.splitAt.1.later.size
  have grows := moves.grows writes
  omega

theorem depth_of_arrives {listing rest : List (Nat × Instruction)} {moment : Moment}
    {instruction : Instruction} {depth : Int} (history : History {} moments final)
    (written : List.Forall₂ (Yields moments chunk pool) (moments.filter (·.op.writes)) listing)
    (member : moment ∈ moments) (writes : moment.op.writes = true)
    (arrives : Arrives listing ((moment.before.chunk.size, instruction) :: rest) depth) :
    depth = moment.before.depth := by
  obtain ⟨emitter, reached, rfl, divided⟩ := reached_of_arrives history written arrives
  obtain ⟨done, found, todo, writing, -, settled⟩ := divided.writing
  have place : moment.before.chunk.size = found.before.chunk.size := writing.entry.offset
  obtain ⟨-, depth⟩ := settled reached
  rw [writing.parts] at history member
  rcases List.mem_append.mp member with earlier | here
  · obtain ⟨first, second, rfl⟩ := List.append_of_mem earlier
    rw [List.append_assoc] at history
    have apart := history.size_lt writes (by simp : found ∈ second ++ found :: todo)
    omega
  · rcases List.mem_cons.mp here with rfl | later
    · exact depth.symm
    · have apart := history.size_lt writing.writes later
      omega

end

namespace Divided

variable {moments : List Moment} {final emitter : Emitter}
    {yields : Moment → Nat × Instruction → Prop}
  {code : List (Nat × Instruction)}

theorem bounded (divided : Divided moments final yields emitter code) :
    emitter.depth ≤ final.maxDepth := by
  obtain ⟨done, todo, -, before, after, -⟩ := divided.parts
  exact Int.le_trans (before.tall tall_start).depth after.later.most

theorem ends (divided : Divided moments final yields emitter [])
    (reached : emitter.reachable = true) :
    emitter.depth = final.depth := by
  obtain ⟨done, todo, -, -, after, written⟩ := divided.parts
  have silent := List.filter_eq_nil_iff.mp (List.forall₂_nil_right_iff.mp written)
  exact (after.later.settled (after.quiet silent) reached).2.symm

end Divided

/-- The depth of the emitter is that of every path to what it emits,
and its greatest depth bounds them all. -/
theorem depth_runAll {ops : List Op} {final : Emitter} {chunk : Chunk} {pool : Pool}
    (ran : (Op.runAll ops).run {} = .ok () final) (finished : final.finish = .ok (chunk, pool)) :
    ∃ listing, chunk.decode pool = .ok listing ∧
      List.Forall₂ (Yields (Op.moments ops {}) chunk pool)
        ((Op.moments ops {}).filter (·.op.writes)) listing ∧
      (∀ moment ∈ Op.moments ops {}, moment.op.writes = true → ∀ instruction rest depth,
        Arrives listing ((moment.before.chunk.size, instruction) :: rest) depth →
          depth = moment.before.depth) ∧
      (∀ code depth other, Arrives listing code depth → Arrives listing code other →
        depth = other) ∧
      ∀ code depth, Arrives listing code depth → depth ≤ final.maxDepth ∧
        ∀ entry rest, code = entry :: rest → depth + entry.2.effect ≤ final.maxDepth := by
  obtain ⟨listing, decoded, written⟩ := decode_finished ran finished
  have history := history_moments Pool.sound_empty ran
  refine ⟨listing, decoded, written, ?_, ?_, ?_⟩
  · intro moment member writes instruction rest depth arrives
    exact depth_of_arrives history written member writes arrives
  · intro code depth other arrives arrives'
    obtain ⟨emitter, reached, rfl, divided⟩ := reached_of_arrives history written arrives
    obtain ⟨emitter', reached', rfl, divided'⟩ := reached_of_arrives history written arrives'
    cases code with
    | nil => rw [divided.ends reached, divided'.ends reached']
    | cons entry rest =>
      obtain ⟨done, moment, todo, writing, -, settled⟩ := divided.writing
      have member : moment ∈ Op.moments ops {} := by simp [writing.parts]
      have place : entry = (moment.before.chunk.size, entry.2) := by rw [← writing.entry.offset]
      rw [place] at arrives arrives'
      rw [depth_of_arrives history written member writing.writes arrives,
        depth_of_arrives history written member writing.writes arrives']
  · intro code depth arrives
    obtain ⟨emitter, reached, rfl, divided⟩ := reached_of_arrives history written arrives
    refine ⟨divided.bounded, ?_⟩
    rintro entry rest rfl
    obtain ⟨_, moment, _, writing, -, settled⟩ := divided.writing
    obtain ⟨effect, -⟩ := writing.entry.simulated writing.moves writing.writes
    rw [← (settled reached).2, ← effect]
    exact writing.divided.bounded

def earlyReturn : List Op :=
  [.allocateLabel, .allocateLabel, .pushSrc, .skipIfNull ⟨0⟩, .field "name", .plain .ret, .pushSrc,
    .skipIfNull ⟨1⟩, .bindLabel ⟨0⟩, .bindLabel ⟨1⟩, .plain .ret]

theorem depth_earlyReturn :
    ∃ final chunk pool, (Op.runAll earlyReturn).run {} = .ok () final ∧
      final.finish = .ok (chunk, pool) ∧
      ∃ listing, chunk.decode pool = .ok listing ∧
        List.Forall₂ (Yields (Op.moments earlyReturn {}) chunk pool)
          ((Op.moments earlyReturn {}).filter (·.op.writes)) listing ∧
        (∀ moment ∈ Op.moments earlyReturn {}, moment.op.writes = true → ∀ instruction rest depth,
          Arrives listing ((moment.before.chunk.size, instruction) :: rest) depth →
            depth = moment.before.depth) ∧
        (∀ code depth other, Arrives listing code depth → Arrives listing code other →
          depth = other) ∧
        ∀ code depth, Arrives listing code depth → depth ≤ final.maxDepth ∧
          ∀ entry rest, code = entry :: rest → depth + entry.2.effect ≤ final.maxDepth := by
  have complete :
      (EStateM.run' (do Op.runAll earlyReturn; get) {}).any (·.finish.toBool) = true := by
    decide +kernel
  obtain ⟨final, code, ran, finished⟩ := finish_of_run' complete
  exact ⟨final, code.1, code.2, ran, finished, depth_runAll ran finished⟩

end Emitter

end ProcLowering
