import ProcLowering.Proofs.Operation

set_option autoImplicit false

namespace ProcLowering

theorem Labels.bound_eq_error {labels : Labels} {label : Label} {offset : Nat}
    {fallthrough : Option Int} {fault : Fault} (refused : labels.bound label offset fallthrough =
    .error fault) :
    fault = .labelNotAllocated label.id ∨ fault = .labelRebound label.id ∨
      ∃ expected found, fault = .stackMismatch label.id expected found := by
  unfold bound Labels.state at refused
  cases held : labels.states[label.id]? with
  | none =>
    rw [held] at refused
    cases refused
    exact Or.inl rfl
  | some state =>
    obtain ⟨earlier, arrival, pending⟩ := state
    rw [held] at refused
    cases earlier with
    | some place =>
      cases refused
      exact Or.inr (Or.inl rfl)
    | none =>
      cases fallthrough with
      | none => cases refused
      | some found =>
        cases arrival with
        | none => cases refused
        | some expected =>
          by_cases same : expected = found
          · simp [Bind.bind, Except.bind, LabelState.meet, same, pure, Except.pure] at refused
          · simp [Bind.bind, Except.bind, LabelState.meet, same] at refused
            exact Or.inr (Or.inr ⟨expected, found, refused.symm⟩)

namespace Chunk

theorem patchJumps_of_near {operands : List Nat} {target : Nat} {chunk after : Chunk}
    {fault : Fault} (inside : target = chunk.size)
    (behind : ∀ operand ∈ operands, operand + 2 ≤ target)
    (near : ∀ operand ∈ operands, target - (operand + 2) ≤ 0xFFFF)
    (failed : EStateM.run (operands.forM fun operand => patchJump operand target) chunk =
      .error fault after) :
    ∃ place, fault = .outsideCode place := by
  induction operands generalizing chunk with
  | nil => cases failed
  | cons operand rest ih =>
    rw [List.forall_mem_cons] at behind near
    rw [List.forM, EStateM.run_bind, patchJump_run_of_behind behind.1 (Nat.le_of_eq inside),
      if_neg (Nat.not_lt.mpr near.1)] at failed
    split at failed
    · next stopped =>
      split at stopped
      · cases stopped
      · cases stopped
        exact ih (inside.trans (size_patched _ _ _).symm) behind.2 near.2 failed
    · next stopped =>
      split at stopped
      · cases stopped
        cases failed
        exact ⟨operand, rfl⟩
      · cases stopped

/-- The farthest jump comes first, so nothing is patched if one of
them does not reach its target. -/
theorem patchJumps_of_ascending {operands : List Nat} {chunk after : Chunk} {fault : Fault}
    (behind : ∀ operand ∈ operands, operand + 2 ≤ chunk.size)
    (ascending : operands.Pairwise (· < ·))
    (failed : EStateM.run (operands.forM fun operand => patchJump operand chunk.size) chunk =
      .error fault after)
    (survives : ∀ place, fault ≠ .outsideCode place) :
    after = chunk ∧ ∃ distance, fault = .jumpTooFar distance := by
  cases operands with
  | nil => cases failed
  | cons operand rest =>
    have whole := failed
    rw [List.forall_mem_cons] at behind
    rw [List.pairwise_cons] at ascending
    rw [List.forM, EStateM.run_bind, patchJump_run_of_behind behind.1 (Nat.le_refl _)] at failed
    by_cases huge : UInt64.size ≤ operand + 2
    · rw [if_pos huge] at failed
      cases failed
      exact absurd rfl (survives operand)
    · by_cases far : 0xFFFF < chunk.size - (operand + 2)
      · rw [if_neg huge, if_pos far] at failed
        cases failed
        exact ⟨rfl, _, rfl⟩
      · obtain ⟨place, stopped⟩ := patchJumps_of_near rfl (List.forall_mem_cons.mpr behind)
          (List.forall_mem_cons.mpr ⟨by omega, fun later member => by
            have := ascending.1 later member
            omega⟩) whole
        exact absurd stopped (survives place)

end Chunk

namespace Emitter

inductive Reachable : Emitter → Prop
  | start : Reachable {}
  | done {emitter after : Emitter} {op : Op} (reached : Reachable emitter)
      (ran : op.run.run emitter = .ok () after) :
      Reachable after
  | failed {emitter after : Emitter} {op : Op} {fault : Fault} (reached : Reachable emitter)
      (ran : op.run.run emitter = .error fault after)
      (survives : ∀ place, fault ≠ .outsideCode place) : Reachable after

structure Orderly (emitter : Emitter) : Prop where
  sound : emitter.pool.Sound
  behind : ∀ (id : Nat) (state : LabelState), emitter.labels.states[id]? = some state →
    ∀ operand ∈ state.pending, operand + 2 ≤ emitter.chunk.size
  descending : ∀ (id : Nat) (state : LabelState), emitter.labels.states[id]? = some state →
    state.pending.Pairwise (· > ·)

theorem orderly_start : Orderly {} := ⟨Pool.sound_empty, by simp, by simp⟩

namespace Orderly

variable {emitter after : Emitter}

theorem grown (orderly : Orderly emitter) (sound : after.pool.Sound)
    (size : emitter.chunk.size ≤ after.chunk.size) (labels : after.labels = emitter.labels) :
    Orderly after where
  sound := sound
  behind := by
    intro id state held operand waiting
    have := orderly.behind id state (labels ▸ held) operand waiting
    omega
  descending := by
    intro id state held
    exact orderly.descending id state (labels ▸ held)

theorem settled (orderly : Orderly emitter) {label : Label} {state : LabelState}
    (sound : after.pool.Sound) (size : emitter.chunk.size ≤ after.chunk.size)
    (labels : after.labels = emitter.labels.setState label state)
    (behind : ∀ operand ∈ state.pending, operand + 2 ≤ after.chunk.size)
    (descending : state.pending.Pairwise (· > ·)) :
    Orderly after where
  sound := sound
  behind := by
    intro id other held operand waiting
    rw [labels, Labels.getElem?_setState] at held
    split at held
    · obtain ⟨_, -, rfl⟩ := Option.map_eq_some_iff.mp held
      exact behind operand waiting
    · have := orderly.behind id other held operand waiting
      omega
  descending := by
    intro id other held
    rw [labels, Labels.getElem?_setState] at held
    split at held
    · obtain ⟨_, -, rfl⟩ := Option.map_eq_some_iff.mp held
      exact descending
    · exact orderly.descending id other held

theorem done (orderly : Orderly emitter) {op : Op} (ran : op.run.run emitter = .ok () after) :
    Orderly after := by
  cases straight : op.instruction? with
  | some instruction =>
    obtain ⟨pool, grown, ⟨bytes, held, wrote, -⟩ | ⟨full, -⟩⟩ :=
      Op.emits_of_ok straight ran emitter orderly.sound
    · cases ran.symm.trans wrote
      exact orderly.grown grown.sound (by simp [Emitter.wrote]) rfl
    · cases ran.symm.trans full
  | none =>
    cases op with
    | setLine number =>
      cases ran
      exact orderly.grown orderly.sound (Nat.le_refl _) rfl
    | allocateLabel =>
      cases ran
      -- The new label is the only one that was not there, and nothing waits for it.
      have known {id : Nat} {state : LabelState}
          (held : emitter.labels.allocate.2.states[id]? = some state) :
          emitter.labels.states[id]? = some state ∨ state.pending = [] := by
        rw [Labels.allocate, Array.getElem?_push] at held
        split at held
        · cases held
          exact Or.inr rfl
        · exact Or.inl held
      refine ⟨orderly.sound, ?_, ?_⟩
      · intro id state held operand waiting
        rcases known held with old | idle
        · exact orderly.behind id state old operand waiting
        · rw [idle] at waiting
          cases waiting
      · intro id state held
        rcases known held with old | idle
        · exact orderly.descending id state old
        · rw [idle]
          exact .nil
    | skipIfNull label =>
      rw [Op.run, skipIfNull_run] at ran
      dsimp only at ran
      split at ran
      · cases ran
      · next state jumped =>
        cases ran
        obtain ⟨old, held, -, -, rfl⟩ := (Labels.jumped_eq_ok_iff _ _ _ _ _).mp jumped
        have size : (emitter.chunk.writeJump .jumpIfNullDereference emitter.line).size =
          emitter.chunk.size + 3 := by
          simp [Chunk.writeJump, wordBytes]
        have behind := orderly.behind label.id old held
        refine orderly.settled orderly.sound (by simp [size]) rfl ?_ ?_
        · intro operand waiting
          rcases List.mem_cons.mp waiting with rfl | earlier
          · simp [size]
          · have := behind operand earlier
            simp only [size]
            omega
        · refine List.pairwise_cons.mpr ⟨?_, orderly.descending label.id old held⟩
          intro operand earlier
          have := behind operand earlier
          omega
    | bindLabel label =>
      obtain ⟨state, -, patches, pool, -, labels⟩ := bindLabel_ok ran
      exact orderly.settled (pool ▸ orderly.sound)
        (Nat.le_of_eq (Chunk.size_patchJumps _ patches).symm) labels
        (by simp) .nil
    | _ => cases straight

end Orderly

/-- What an operation leaves behind when it fails. -/
inductive Leaves (emitter : Emitter) : Op → Fault → Emitter → Prop
  | constants {op : Op} {fault : Fault} {pool : Pool} (sound : pool.Sound)
      (grown : emitter.pool.Extends pool) (unwritten : ∀ label, op ≠ .skipIfNull label)
      (unbound : ∀ label distance, op = .bindLabel label → fault ≠ .jumpTooFar distance) :
      Leaves emitter op fault { emitter with pool }
  | jump (label : Label) (fault : Fault) :
      Leaves emitter (.skipIfNull label) fault
        { emitter with chunk := emitter.chunk.writeJump .jumpIfNullDereference emitter.line }
  | binding {label : Label} {state : LabelState}
      (held : emitter.labels.states[label.id]? = some state) (unbound : state.offset = none)
      (distance : Nat) :
      Leaves emitter (.bindLabel label) (.jumpTooFar distance)
        { emitter with
          labels := emitter.labels.setState label
            { offset := some emitter.chunk.size, depth := state.depth.or emitter.fallthrough } }

theorem Orderly.leaves {emitter after : Emitter} (orderly : Orderly emitter) {op : Op}
    {fault : Fault} (ran : op.run.run emitter = .error fault after)
    (survives : ∀ place, fault ≠ .outsideCode place) :
    Leaves emitter op fault after := by
  cases straight : op.instruction? with
  | some instruction =>
    have silent (label : Label) : op ≠ .skipIfNull label ∧ op ≠ .bindLabel label := by
      constructor <;> rintro rfl <;> cases straight
    have leaves {pool : Pool} (sound : pool.Sound) (grown : emitter.pool.Extends pool) :
        Leaves emitter op fault { emitter with pool } :=
      .constants sound grown (fun label => (silent label).1) fun label _ same =>
        absurd same (silent label).2
    obtain emits | ⟨refusal, refused⟩ := Op.emits_or_refused straight
    · obtain ⟨pool, grown, ⟨bytes, held, wrote, -⟩ | ⟨full, -⟩⟩ := emits emitter orderly.sound
      · cases ran.symm.trans wrote
      · cases ran.symm.trans full
        exact leaves grown.sound grown.grown
    · cases ran.symm.trans (refused emitter)
      exact leaves orderly.sound (Pool.extends_refl _)
  | none =>
    cases op with
    | setLine number => cases ran
    | allocateLabel => cases ran
    | skipIfNull label =>
      rw [Op.run, skipIfNull_run] at ran
      dsimp only at ran
      split at ran
      · cases ran
        exact .jump label fault
      · cases ran
    | bindLabel label =>
      rw [Op.run, bindLabel_run] at ran
      cases bound : emitter.labels.bound label emitter.chunk.size emitter.fallthrough with
      | error refusal =>
        rw [bound] at ran
        cases ran
        refine .constants orderly.sound (Pool.extends_refl _) (by simp) fun _ distance _ => ?_
        obtain rfl | rfl | ⟨_, _, rfl⟩ := Labels.bound_eq_error bound <;> simp
      | ok bound' =>
        obtain ⟨state, held, unbound, -, rfl⟩ := (Labels.bound_eq_ok_iff _ _ _ _ _).mp bound
        rw [bound] at ran
        dsimp only at ran
        split at ran
        · next stopped chunk patches =>
          cases ran
          obtain ⟨rfl, distance, rfl⟩ := Chunk.patchJumps_of_ascending
            (fun operand waiting => orderly.behind label.id state held operand
              (List.mem_reverse.mp waiting))
            (List.pairwise_reverse.mpr (orderly.descending label.id state held)) patches survives
          exact .binding held unbound distance
        · split at ran <;> cases ran
    | _ => cases straight

theorem Leaves.orderly {emitter after : Emitter} {op : Op} {fault : Fault}
    (leaves : Leaves emitter op fault after) (orderly : Orderly emitter) : Orderly after := by
  cases leaves with
  | constants sound => exact orderly.grown sound (Nat.le_refl _) rfl
  | jump => exact orderly.grown orderly.sound (by simp [Chunk.writeJump]) rfl
  | binding => exact orderly.settled orderly.sound (Nat.le_refl _) rfl (by simp) .nil

theorem Reachable.orderly {emitter : Emitter} (reached : Reachable emitter) : Orderly emitter := by
  induction reached with
  | start => exact orderly_start
  | done _ ran orderly => exact orderly.done ran
  | failed _ ran survives orderly => exact (orderly.leaves ran survives).orderly orderly

structure Untouched (emitter after : Emitter) : Prop where
  code : after.chunk.code = emitter.chunk.code
  lines : after.chunk.lines = emitter.chunk.lines
  depth : after.depth = emitter.depth
  reachable : after.reachable = emitter.reachable
  labels : after.labels = emitter.labels
  pool : emitter.pool.Extends after.pool

namespace Op

/-- A failed operation leaves constants behind, and nothing else unless
it is a jump, which stands in the code by then, or the binding of a
label that a jump does not reach, which counts as bound by then. -/
theorem failure_leaves {emitter after : Emitter} {op : Op} {fault : Fault}
    (reached : Reachable emitter) (failed : op.run.run emitter = .error fault after)
    (survives : ∀ place, fault ≠ .outsideCode place) :
    Leaves emitter op fault after ∧
      (Untouched emitter after ↔ (∀ label, op ≠ .skipIfNull label) ∧
        ∀ label distance, op = .bindLabel label → fault ≠ .jumpTooFar distance) := by
  have leaves := reached.orderly.leaves failed survives
  refine ⟨leaves, ?_⟩
  cases leaves with
  | constants sound grown unwritten unbound =>
    exact ⟨fun _ => ⟨unwritten, unbound⟩, fun _ => ⟨rfl, rfl, rfl, rfl, rfl, grown⟩⟩
  | jump label =>
    refine ⟨fun untouched => ?_, fun whole => absurd rfl (whole.1 label)⟩
    have longer := congrArg List.length untouched.code
    simp [Chunk.writeJump] at longer
  | @binding label state held unbound distance =>
    refine ⟨fun untouched => ?_, fun whole => absurd rfl (whole.2 label distance rfl)⟩
    have same := congrArg (·.states[label.id]?) untouched.labels
    simp only [Labels.getElem?_setState, if_true, held, Option.map_some, Option.some.injEq] at same
    rw [← same] at unbound
    cases unbound

theorem reachable_runAll {ops : List Op} {emitter after : Emitter} (reached : Reachable emitter)
    (ran : (runAll ops).run emitter = .ok () after) : Reachable after := by
  induction ops generalizing emitter with
  | nil =>
    cases ran
    exact reached
  | cons op rest ih =>
    obtain ⟨_, middle, first, others⟩ := run_bind_eq_ok ran
    exact ih (reached.done first) others

def stranded : Emitter where
  chunk := { bytes := #[⟨8, 1⟩, ⟨26, 1⟩, ⟨255, 1⟩, ⟨255, 1⟩, ⟨2, 1⟩] }
  labels := { states := #[{ depth := some 1, pending := [2] }] }
  maxDepth := 1

theorem failure_leaves_stranded :
    Reachable stranded ∧
      (bindLabel ⟨0⟩).run.run stranded = .error (.stackMismatch 0 1 0) stranded ∧
        Untouched stranded stranded ∧
      (skipIfNull ⟨0⟩).run.run stranded =
        .error (.stackMismatch 0 1 0)
          { stranded with chunk := stranded.chunk.writeJump .jumpIfNullDereference 1 } ∧
      ¬ Untouched stranded
        { stranded with chunk := stranded.chunk.writeJump .jumpIfNullDereference 1 } := by
  have ran : (runAll [.allocateLabel, .pushSrc, .skipIfNull ⟨0⟩, .pop]).run {} =
    .ok () stranded := rfl
  have reached := reachable_runAll .start ran
  have refused : (bindLabel ⟨0⟩).run.run stranded = .error (.stackMismatch 0 1 0) stranded := rfl
  have torn : (skipIfNull ⟨0⟩).run.run stranded =
      .error (.stackMismatch 0 1 0)
        { stranded with chunk := stranded.chunk.writeJump .jumpIfNullDereference 1 } := rfl
  refine ⟨reached, refused, ?_, torn, ?_⟩
  · exact (failure_leaves reached refused (by simp)).2.mpr ⟨by simp, by simp⟩
  · intro untouched
    exact ((failure_leaves reached torn (by simp)).2.mp untouched).1 ⟨0⟩ rfl

def settled : Emitter where
  labels := { states := #[{ offset := some 0, depth := some 0 }] }

/-- A jump to a label that is bound already is refused, but its bytes stay. -/
theorem refused_jump_stays :
    Reachable settled ∧
      ∃ after, (skipIfNull ⟨0⟩).run.run settled = .error (.backwardJumpToLabel 0) after ∧
      settled.chunk.code = [] ∧ after.chunk.code = [26, 255, 255] ∧ ¬ Untouched settled after := by
  have ran : (runAll [.allocateLabel, .bindLabel ⟨0⟩]).run {} = .ok () settled := rfl
  refine ⟨reachable_runAll .start ran, _, rfl, rfl, rfl, fun untouched => ?_⟩
  cases untouched.code

end Op

end Emitter

end ProcLowering
