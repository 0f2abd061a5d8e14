import ProcLowering.Emit.Emitter
import ProcLowering.Proofs.General

set_option autoImplicit false

namespace ProcLowering

namespace Labels

theorem getElem?_setState (labels : Labels) (label : Label) (state : LabelState) (id : Nat) :
    (labels.setState label state).states[id]? =
      if label.id = id then labels.states[id]?.map fun _ => state else labels.states[id]? := by
  unfold setState
  rw [Array.getElem?_setIfInBounds]
  split
  · next same =>
    subst same
    by_cases inside : label.id < labels.states.size <;> simp [inside]
  · rfl

theorem jumped_eq_ok_iff (labels : Labels) (label : Label) (operand : Nat) (depth : Int)
    (result : LabelState) :
    labels.jumped label operand depth = .ok result ↔
      ∃ state, labels.states[label.id]? = some state ∧ state.offset = none ∧
        (∀ expected, state.depth = some expected → expected = depth) ∧
          { state with depth := some depth, pending := operand :: state.pending } = result := by
  unfold jumped Labels.state
  cases labels.states[label.id]? with
  | none => simp [Bind.bind, Except.bind]
  | some state =>
    obtain ⟨offset, arrival, pending⟩ := state
    cases offset <;> cases arrival <;>
      simp [Bind.bind, Except.bind, LabelState.meet, throw, throwThe, MonadExceptOf.throw, pure,
        Except.pure]
    next expected =>
      by_cases same : expected = depth <;> simp [same]

theorem bound_eq_ok_iff (labels : Labels) (label : Label) (offset : Nat) (fallthrough : Option Int)
    (result : LabelState) :
    labels.bound label offset fallthrough = .ok result ↔
      ∃ state, labels.states[label.id]? = some state ∧ state.offset = none ∧
        (∀ expected found, state.depth = some expected → fallthrough = some found →
          expected = found) ∧
          { state with offset := some offset, depth := state.depth.or fallthrough } = result := by
  unfold bound Labels.state
  cases labels.states[label.id]? with
  | none => simp [Bind.bind, Except.bind]
  | some state =>
    obtain ⟨earlier, arrival, pending⟩ := state
    cases earlier <;> cases arrival <;> cases fallthrough <;>
      simp [Bind.bind, Except.bind, LabelState.meet, throw, throwThe, MonadExceptOf.throw, pure,
        Except.pure]
    next expected found =>
      by_cases same : expected = found <;> simp [same]

theorem checkBound_eq_ok_iff (labels : Labels) :
    labels.checkBound = .ok () ↔
      ∀ (id : Nat) (state : LabelState), labels.states[id]? = some state → state.offset = none →
        state.pending = [] := by
  unfold checkBound
  cases found : labels.states.findIdx? fun state => state.offset.isNone &&
    !state.pending.isEmpty with
  | none =>
    simp only [true_iff]
    intro id state held unbound
    have settled := Array.findIdx?_eq_none_iff.mp found state (Array.mem_of_getElem? held)
    simpa [unbound] using settled
  | some id =>
    obtain ⟨inside, waiting, -⟩ := Array.findIdx?_eq_some_iff_getElem.mp found
    simp only [Bool.and_eq_true, Option.isNone_iff_eq_none] at waiting
    simp only [reduceCtorEq, false_iff]
    intro settled
    have empty := settled id labels.states[id] (Array.getElem?_eq_getElem inside) waiting.1
    simp [empty] at waiting

end Labels

namespace Chunk

def patched (chunk : Chunk) (operand distance : Nat) : Chunk :=
  (chunk.setByte operand (UInt8.ofNat (distance / 0x100))).setByte (operand + 1)
  (UInt8.ofNat distance)

theorem size_setByte (chunk : Chunk) (place : Nat) (value : UInt8) :
    (chunk.setByte place value).size = chunk.size := by
  simp [size, setByte]

theorem size_patched (chunk : Chunk) (operand distance : Nat) :
    (chunk.patched operand distance).size = chunk.size := by
  rw [patched, size_setByte, size_setByte]

theorem patchByte_run (place : Nat) (value : UInt8) (chunk : Chunk) :
    (patchByte place value).run chunk =
      if chunk.size ≤ place then .error (.outsideCode place) chunk
        else .ok () (chunk.setByte place value) := by
  by_cases outside : chunk.size ≤ place
  · simp [patchByte, EStateM.run_bind, EStateM.run_get, EStateM.run_throw, outside]
  · simp [patchByte, EStateM.run_bind, EStateM.run_get, EStateM.run_modify, outside]

theorem patchJump_run (operand target : Nat) (chunk : Chunk) :
    (patchJump operand target).run chunk =
      if UInt64.size ≤ operand + 2 then .error (.outsideCode operand) chunk
      else if target < operand + 2 then .error (.backwardJump operand target) chunk
      else if 0xFFFF < target - (operand + 2) then
        .error (.jumpTooFar (target - (operand + 2))) chunk
      else if chunk.size ≤ operand then .error (.outsideCode operand) chunk
      else if chunk.size ≤ operand + 1 then
        .error (.outsideCode (operand + 1))
          (chunk.setByte operand (UInt8.ofNat ((target - (operand + 2)) / 0x100)))
      else .ok () (chunk.patched operand (target - (operand + 2))) := by
  unfold patchJump patched
  generalize UInt64.size = limit
  by_cases huge : limit ≤ operand + 2
  · simp only [huge, if_true, EStateM.run_bind, EStateM.run_throw]
  by_cases backward : target < operand + 2
  · simp only [huge, backward, if_true, if_false, EStateM.run_bind, EStateM.run_throw]
  by_cases far : 0xFFFF < target - (operand + 2)
  · simp only [huge, backward, far, if_true, if_false, EStateM.run_bind, EStateM.run_throw]
  by_cases outside : chunk.size ≤ operand
  · simp only [huge, backward, far, outside, if_true, if_false, EStateM.run_bind, patchByte_run]
  by_cases cut : chunk.size ≤ operand + 1 <;>
    simp only [huge, backward, far, outside, cut, if_true, if_false, EStateM.run_bind,
      patchByte_run, size_setByte]

theorem patchJump_run_of_behind {operand target : Nat} {chunk : Chunk}
    (behind : operand + 2 ≤ target) (inside : target ≤ chunk.size) :
    (patchJump operand target).run chunk =
      if UInt64.size ≤ operand + 2 then .error (.outsideCode operand) chunk
      else if 0xFFFF < target - (operand + 2) then
        .error (.jumpTooFar (target - (operand + 2))) chunk
      else .ok () (chunk.patched operand (target - (operand + 2))) := by
  have forward : ¬ target < operand + 2 := by omega
  have high : ¬ chunk.size ≤ operand := by omega
  have low : ¬ chunk.size ≤ operand + 1 := by omega
  rw [patchJump_run, if_neg forward, if_neg high, if_neg low]

theorem patchJump_eq_ok {operand target : Nat} {chunk after : Chunk}
    (ran : (patchJump operand target).run chunk = .ok () after) :
    operand + 2 ≤ target ∧ target - (operand + 2) ≤ 0xFFFF ∧
      after = chunk.patched operand (target - (operand + 2)) := by
  rw [patchJump_run] at ran
  repeat (split at ran; cases ran)
  next forward near _ _ =>
  cases ran
  exact ⟨by omega, by omega, rfl⟩

theorem size_patchJumps {target : Nat} {chunk after : Chunk} (operands : List Nat)
    (ran : EStateM.run (operands.forM fun operand => patchJump operand target) chunk =
      .ok () after) :
    after.size = chunk.size := by
  induction operands generalizing chunk with
  | nil =>
    cases ran
    rfl
  | cons operand rest ih =>
    rw [List.forM] at ran
    obtain ⟨_, next, first, others⟩ := run_bind_eq_ok ran
    obtain ⟨-, -, rfl⟩ := patchJump_eq_ok first
    rw [ih others, size_patched]

theorem toList_setByte {chunk : Chunk} {before after : List CodeByte} {byte : CodeByte}
    (code : chunk.bytes.toList = before ++ byte :: after) (value : UInt8) :
    (chunk.setByte before.length value).bytes.toList = before ++ { byte with value } :: after := by
  simp only [setByte, Array.toList_modify, code]
  clear code
  induction before with
  | nil => rfl
  | cons _ _ ih => simp [List.modify_succ_cons, ih]

theorem toList_patched {chunk : Chunk} {before after : List CodeByte} {word : UInt16}
    {line : UInt32} {distance : Nat} (near : distance ≤ 0xFFFF)
    (code : chunk.bytes.toList = before ++ ((wordBytes word).map (CodeByte.mk · line) ++ after)) :
    (chunk.patched before.length distance).bytes.toList =
      before ++ ((wordBytes (UInt16.ofNat distance)).map (CodeByte.mk · line) ++ after) := by
  have high := toList_setByte code (UInt8.ofNat (distance / 0x100))
  have shifted : (chunk.setByte before.length (UInt8.ofNat (distance / 0x100))).bytes.toList =
      (before ++ [⟨UInt8.ofNat (distance / 0x100), line⟩]) ++
        ⟨UInt8.ofNat word.toNat, line⟩ :: after := by
    simpa [wordBytes] using high
  have low := toList_setByte shifted (UInt8.ofNat distance)
  have exact : (UInt16.ofNat distance).toNat = distance := by
    simp
    omega
  rw [List.length_append] at low
  rw [patched, wordBytes, exact]
  simpa using low

end Chunk

namespace Emitter

theorem onLabels_ok {α : Type} {step : EStateM Fault Labels α} {emitter : Emitter} {value : α}
    {labels : Labels} (ran : step.run emitter.labels = .ok value labels) :
    (onLabels step).run emitter = .ok value { emitter with labels } := by
  rw [EStateM.run] at ran
  simp only [EStateM.run, onLabels, ran]

theorem onLabels_error {α : Type} {step : EStateM Fault Labels α} {emitter : Emitter}
    {fault : Fault} (ran : step.run emitter.labels = .error fault emitter.labels) :
    (onLabels step).run emitter = .error fault emitter := by
  rw [EStateM.run] at ran
  simp only [EStateM.run, onLabels, ran]

theorem onLabels_addJump_run (label : Label) (operand : Nat) (depth : Int) (emitter : Emitter) :
    (onLabels (Labels.addJump label operand depth)).run emitter =
      match emitter.labels.jumped label operand depth with
      | .error fault => .error fault emitter
      | .ok state => .ok () { emitter with labels := emitter.labels.setState label state } := by
  cases jumped : emitter.labels.jumped label operand depth with
  | error fault =>
    apply onLabels_error
    simp only [Labels.addJump, EStateM.run_bind, EStateM.run_get, jumped, EStateM.run_throw]
  | ok state =>
    apply onLabels_ok
    simp only [Labels.addJump, EStateM.run_bind, EStateM.run_get, jumped, EStateM.run_modify]

theorem onLabels_bind_run (label : Label) (offset : Nat) (fallthrough : Option Int)
    (emitter : Emitter) :
    (onLabels (Labels.bind label offset fallthrough)).run emitter =
      match emitter.labels.bound label offset fallthrough with
      | .error fault => .error fault emitter
      | .ok state => .ok state
        { emitter with labels := emitter.labels.setState label { state with pending := [] } } := by
  cases bound : emitter.labels.bound label offset fallthrough with
  | error fault =>
    apply onLabels_error
    simp only [Labels.bind, EStateM.run_bind, EStateM.run_get, bound]
    rfl
  | ok state =>
    apply onLabels_ok
    simp only [Labels.bind, EStateM.run_bind, EStateM.run_get, bound, EStateM.run_modify,
      EStateM.run_pure]

theorem skipIfNull_run (label : Label) (emitter : Emitter) :
    (skipIfNull label).run emitter =
      let chunk := emitter.chunk.writeJump .jumpIfNullDereference emitter.line
      match emitter.labels.jumped label (emitter.chunk.size + 1) emitter.depth with
      | .error fault => .error fault { emitter with chunk }
      | .ok state =>
        .ok () { emitter with chunk, labels := emitter.labels.setState label state } := by
  have place : (emitter.chunk.writeJump .jumpIfNullDereference emitter.line).size - 2 =
    emitter.chunk.size + 1 := by
    simp [Chunk.writeJump, wordBytes]
  simp only [skipIfNull, EStateM.run_bind, EStateM.run_modify, EStateM.run_get, place,
    onLabels_addJump_run]

-- The patches are a parameter here: only their outcome matters, and they are costly to unfold.
theorem binding_run (patches : LabelState → Nat → EStateM Fault Chunk PUnit) (label : Label)
    (emitter : Emitter) :
    EStateM.run (do
      let emitter ← get
      let target := emitter.chunk.size
      let state ← onLabels (Labels.bind label target emitter.fallthrough)
      onChunk (patches state target)
      if let some depth := state.depth then
        modify fun emitter => { emitter with depth, reachable := true } : Emission Unit) emitter =
      match emitter.labels.bound label emitter.chunk.size emitter.fallthrough with
      | .error fault => .error fault emitter
      | .ok state =>
        let labels := emitter.labels.setState label { state with pending := [] }
        match EStateM.run (patches state emitter.chunk.size) emitter.chunk with
        | .error fault chunk => .error fault { emitter with labels, chunk }
        | .ok _ chunk =>
          match state.depth with
          | none => .ok () { emitter with labels, chunk }
          | some depth => .ok () { emitter with labels, chunk, depth, reachable := true } := by
  simp only [EStateM.run_bind, EStateM.run_get, onLabels_bind_run]
  cases emitter.labels.bound label emitter.chunk.size emitter.fallthrough with
  | error fault => rfl
  | ok state =>
    simp only [EStateM.run, onChunk]
    cases patches state emitter.chunk.size emitter.chunk with
    | error fault chunk => rfl
    | ok _ chunk => cases state.depth <;> rfl

theorem bindLabel_run (label : Label) (emitter : Emitter) :
    (bindLabel label).run emitter =
      match emitter.labels.bound label emitter.chunk.size emitter.fallthrough with
      | .error fault => .error fault emitter
      | .ok state =>
        let labels := emitter.labels.setState label { state with pending := [] }
        match EStateM.run (state.pending.reverse.forM fun operand =>
          Chunk.patchJump operand emitter.chunk.size)
            emitter.chunk with
        | .error fault chunk => .error fault { emitter with labels, chunk }
        | .ok _ chunk =>
          match state.depth with
          | none => .ok () { emitter with labels, chunk }
          | some depth => .ok () { emitter with labels, chunk, depth, reachable := true } := by
  unfold bindLabel
  exact binding_run (fun state target => state.pending.reverse.forM fun operand =>
    Chunk.patchJump operand target)
    label emitter

theorem bindLabel_ok {label : Label} {emitter after : Emitter}
    (ran : (bindLabel label).run emitter = .ok () after) :
    ∃ state, emitter.labels.bound label emitter.chunk.size emitter.fallthrough = .ok state ∧
      EStateM.run (state.pending.reverse.forM fun operand =>
        Chunk.patchJump operand emitter.chunk.size)
        emitter.chunk = .ok () after.chunk ∧
      after.pool = emitter.pool ∧ after.line = emitter.line ∧
        after.labels = emitter.labels.setState label { state with pending := [] } := by
  rw [bindLabel_run] at ran
  cases bound : emitter.labels.bound label emitter.chunk.size emitter.fallthrough with
  | error fault =>
    rw [bound] at ran
    cases ran
  | ok state =>
    rw [bound] at ran
    refine ⟨state, rfl, ?_⟩
    dsimp only at ran
    generalize EStateM.run (state.pending.reverse.forM fun operand =>
      Chunk.patchJump operand emitter.chunk.size)
      emitter.chunk = patches at ran ⊢
    cases patches with
    | error fault chunk => cases ran
    | ok _ chunk =>
      dsimp only at ran
      cases arrives : state.depth with
      | none =>
        rw [arrives] at ran
        cases ran
        exact ⟨rfl, rfl, rfl, by rw [← arrives]⟩
      | some depth =>
        rw [arrives] at ran
        cases ran
        exact ⟨rfl, rfl, rfl, by rw [← arrives]⟩

theorem bindLabel_run_of_waiting (label : Label) {emitter : Emitter} {operand : Nat}
    (held : emitter.labels.states[label.id]? =
      some { depth := some emitter.depth, pending := [operand] })
    (behind : operand + 2 ≤ emitter.chunk.size) :
    (bindLabel label).run emitter =
      let labels :=
        emitter.labels.setState label
          { offset := some emitter.chunk.size, depth := some emitter.depth }
      if UInt64.size ≤ operand + 2 then .error (.outsideCode operand) { emitter with labels }
      else if 0xFFFF < emitter.chunk.size - (operand + 2) then
        .error (.jumpTooFar (emitter.chunk.size - (operand + 2))) { emitter with labels }
      else .ok ()
        { emitter with
          labels, chunk := emitter.chunk.patched operand (emitter.chunk.size - (operand + 2)),
          reachable := true } := by
  have bound : emitter.labels.bound label emitter.chunk.size emitter.fallthrough =
      .ok ⟨some emitter.chunk.size, some emitter.depth, [operand]⟩ := by
    refine (Labels.bound_eq_ok_iff _ _ _ _ _).mpr ⟨_, held, rfl, ?_, rfl⟩
    intro expected found arrives falls
    unfold fallthrough at falls
    split at falls
    · cases arrives
      cases falls
      rfl
    · cases falls
  have one : EStateM.run ([operand].reverse.forM fun operand =>
    Chunk.patchJump operand emitter.chunk.size)
      emitter.chunk = (Chunk.patchJump operand emitter.chunk.size).run emitter.chunk := by
    rw [List.reverse_singleton, List.forM, EStateM.run_bind]
    cases (Chunk.patchJump operand emitter.chunk.size).run emitter.chunk <;> rfl
  rw [bindLabel_run, bound]
  dsimp only
  rw [one, Chunk.patchJump_run_of_behind behind (Nat.le_refl _)]
  by_cases huge : UInt64.size ≤ operand + 2
  · simp only [huge, if_true]
  by_cases far : 0xFFFF < emitter.chunk.size - (operand + 2)
  · simp only [huge, far, if_true, if_false]
  · simp only [huge, far, if_false]

theorem finish_eq_ok_iff (emitter : Emitter) (code : Chunk × Pool) :
    emitter.finish = .ok code ↔ emitter.labels.checkBound = .ok () ∧
      code = (emitter.chunk, emitter.pool) := by
  unfold finish
  cases emitter.labels.checkBound <;> simp [Bind.bind, Except.bind, pure, Except.pure, eq_comm]

end Emitter

end ProcLowering
