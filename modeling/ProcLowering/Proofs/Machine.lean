import ProcLowering.Proofs.Evaluation
import ProcLowering.Proofs.Layout

set_option autoImplicit false

namespace ProcLowering

inductive Entry (V : Type) where
  | value (value : V)
  | arguments (passed : Passed V)

structure Store (V : Type) where
  stack : List (Entry V)
  slots : Nat → V
  events : List (Event V)

inductive Halt (V ε : Type) where
  | done (outcome : Outcome V ε)
  | stuck

inductive Operator where
  | unary (op : UnaryOp)
  | binary (op : BinaryOp)

def Opcode.operator? : Opcode → Option Operator
  | .negate => some (.unary .negate)
  | .bitNot => some (.unary .bitNot)
  | .not => some (.unary .not)
  | .add => some (.binary .add)
  | .subtract => some (.binary .subtract)
  | .multiply => some (.binary .multiply)
  | .divide => some (.binary .divide)
  | .modulus => some (.binary .modulus)
  | .bitAnd => some (.binary .bitAnd)
  | .bitOr => some (.binary .bitOr)
  | .bitXor => some (.binary .bitXor)
  | .bitShiftLeft => some (.binary .shiftLeft)
  | .bitShiftRight => some (.binary .shiftRight)
  | _ => none

theorem Opcode.isUnary_of_operator? {op : Opcode} {found : Operator}
    (known : op.operator? = some found) :
    op.isUnary = match found with
      | .unary _ => true
      | .binary _ => false := by
  cases op <;> cases known <;> rfl

variable {V ε α β : Type}

/-- Takes one value off the stack for each of the names, which are in reverse order, and puts them
in front of the arguments that there are. -/
def Entry.gather : List (Option String) → List (Entry V) → Passed V →
    Option (Passed V × List (Entry V))
  | [], stack, passed => some (passed, stack)
  | name :: names, .value last :: stack, passed => gather names stack ((name, last) :: passed)
  | _ :: _, _, _ => none

theorem Entry.length_gather {names : List (Option String)} {stack rest : List (Entry V)}
    {passed all : Passed V} (gathered : gather names stack passed = some (all, rest)) :
    stack.length = names.length + rest.length := by
  induction names generalizing stack passed with
  | nil =>
    cases gathered
    simp
  | cons name names ih =>
    match stack, gathered with
    | .value _ :: _, gathered =>
      have := ih gathered
      simp only [List.length_cons]
      omega

namespace Store

def pushAs (entries : α → List (Entry V)) (store : Store V) (evaluation : Evaluation V ε α) :
    Except (Halt V ε) (Store V) :=
  match evaluation.run store.events with
  | .ok value events => .ok { store with stack := entries value ++ store.stack, events }
  | .error error events => .error (.done ⟨.error error, events⟩)

def popValue (store : Store V) : Except (Halt V ε) (V × Store V) :=
  match store.stack with
  | .value value :: rest => .ok (value, { store with stack := rest })
  | _ => .error .stuck

def popArguments (store : Store V) : Except (Halt V ε) (Passed V × Store V) :=
  match store.stack with
  | .arguments passed :: rest => .ok (passed, { store with stack := rest })
  | _ => .error .stuck

def push (store : Store V) (evaluation : Evaluation V ε V) : Except (Halt V ε) (Store V) :=
  store.pushAs (fun value => [.value value]) evaluation

theorem length_push {store after : Store V} {evaluation : Evaluation V ε V}
    (pushed : store.push evaluation = .ok after) :
    after.stack.length = store.stack.length + 1 := by
  unfold push pushAs at pushed
  split at pushed <;> cases pushed
  rfl

theorem popValue_bind {store after : Store V} {next : V × Store V → Except (Halt V ε) (Store V)}
    (ran : (store.popValue >>= next) = .ok after) :
    ∃ value rest, store.stack.length = rest.stack.length + 1 ∧ next (value, rest) = .ok after := by
  unfold popValue at ran
  split at ran
  · next value rest top => exact ⟨value, { store with stack := rest }, by rw [top]; rfl, ran⟩
  · cases ran

theorem popArguments_bind {store after : Store V}
    {next : Passed V × Store V → Except (Halt V ε) (Store V)}
    (ran : (store.popArguments >>= next) = .ok after) :
    ∃ passed rest, store.stack.length = rest.stack.length + 1 ∧
      next (passed, rest) = .ok after := by
  unfold popArguments at ran
  split at ran
  · next passed rest top => exact ⟨passed, { store with stack := rest }, by rw [top]; rfl, ran⟩
  · cases ran

end Store

namespace Frame

def start (frame : Frame V ε) : Store V := { stack := [], slots := frame.fresh, events := [] }

def execute (frame : Frame V ε) (instruction : Instruction) (store : Store V) :
    Except (Halt V ε) (Store V) :=
  match instruction with
  | .pushNull => store.push (pure frame.null)
  | .pushConstant constant => store.push (pure (frame.constant constant))
  | .pop => do return (← store.popValue).2
  | .getLocal slot => store.push (pure (store.slots slot.toNat))
  | .setLocal slot => do
    let (value, rest) ← store.popValue
    return { rest with slots := Function.update rest.slots slot.toNat value }
  | .pushSelf => store.push frame.selfValue
  | .pushSrc => store.push (pure frame.src)
  | .dereferenceField field => do
    let (object, rest) ← store.popValue
    rest.push (frame.perform (.read object field))
  | .operator op =>
    match op.operator? with
    | some (.unary op) => do
      let (value, rest) ← store.popValue
      rest.push (MonadExcept.ofExcept (frame.unary op value))
    | some (.binary op) => do
      let (second, rest) ← store.popValue
      let (first, rest) ← rest.popValue
      rest.push (MonadExcept.ofExcept (frame.binary op first second))
    | none => .error .stuck
  | .pushArguments names =>
    match Entry.gather names.reverse store.stack [] with
    | some (passed, rest) => .ok { store with stack := .arguments passed :: rest }
    | none => .error .stuck
  | .pushProcArguments => .ok { store with stack := .arguments frame.passed :: store.stack }
  | .call reference => do
    let (passed, rest) ← store.popArguments
    if reference.takesReceiver then
      let (receiver, rest) ← rest.popValue
      rest.push (frame.perform (.call reference (some receiver) passed))
    else rest.push (frame.perform (.call reference none passed))
  | .ret => do .error (.done ⟨.ok (← store.popValue).1, store.events⟩)
  | .jumpIfNullDereference _ => .error .stuck

theorem length_execute {frame : Frame V ε} {instruction : Instruction} {store after : Store V}
    (ran : frame.execute instruction store = .ok after) : instruction.pops ≤ store.stack.length ∧
      after.stack.length = store.stack.length - instruction.pops + instruction.pushes := by
  cases instruction with
  | pushNull | pushSelf | pushSrc | pushConstant _ | getLocal _ =>
    exact ⟨Nat.zero_le _, Store.length_push ran⟩
  | pushProcArguments =>
    cases ran
    exact ⟨Nat.zero_le _, rfl⟩
  | pop | setLocal _ =>
    obtain ⟨value, rest, length, ran⟩ := Store.popValue_bind ran
    cases ran
    rw [length]
    exact ⟨Nat.succ_pos _, rfl⟩
  | dereferenceField field =>
    obtain ⟨object, rest, length, ran⟩ := Store.popValue_bind ran
    rw [length, Store.length_push ran]
    exact ⟨Nat.succ_pos _, rfl⟩
  | operator op =>
    rw [execute] at ran
    split at ran
    · next known =>
      obtain ⟨value, rest, length, ran⟩ := Store.popValue_bind ran
      rw [Instruction.pops, Opcode.isUnary_of_operator? known, length, Store.length_push ran]
      exact ⟨Nat.succ_pos _, rfl⟩
    · next known =>
      obtain ⟨second, rest, length, ran⟩ := Store.popValue_bind ran
      obtain ⟨first, rest, length', ran⟩ := Store.popValue_bind ran
      rw [Instruction.pops, Opcode.isUnary_of_operator? known, length, length',
        Store.length_push ran]
      exact ⟨Nat.le_add_left _ _, rfl⟩
    · cases ran
  | pushArguments names =>
    rw [execute] at ran
    split at ran
    · next gathered =>
      cases ran
      have := Entry.length_gather gathered
      rw [List.length_reverse] at this
      simp only [Instruction.pops, Instruction.pushes, List.length_cons]
      omega
    · cases ran
  | call reference =>
    obtain ⟨passed, rest, length, ran⟩ := Store.popArguments_bind ran
    rw [Instruction.pops, length]
    cases takes : reference.takesReceiver with
    | true =>
      rw [takes] at ran
      obtain ⟨receiver, rest, length', ran⟩ := Store.popValue_bind ran
      rw [length', Store.length_push ran]
      exact ⟨Nat.le_add_left _ _, rfl⟩
    | false =>
      rw [takes] at ran
      rw [Store.length_push ran]
      exact ⟨Nat.le_add_left _ _, rfl⟩
  | jumpIfNullDereference target => cases ran
  | ret =>
    obtain ⟨value, rest, -, ran⟩ := Store.popValue_bind ran
    cases ran

structure State (V : Type) where
  code : List (Nat × Instruction)
  store : Store V

variable [DecidableEq V]

def step (frame : Frame V ε) (program : List (Nat × Instruction)) (state : State V) :
    Except (Halt V ε) (State V) :=
  match state.code, state.store.stack with
  | [], _ => .error .stuck
  | (_, .jumpIfNullDereference target) :: rest, .value value :: _ =>
    .ok { state with
      code := if value = frame.null then program.dropWhile (·.1 != target) else rest }
  | (_, instruction) :: rest, _ =>
    match frame.execute instruction state.store with
    | .ok store => .ok { code := rest, store }
    | .error halt => .error halt

inductive Halts (frame : Frame V ε) (program : List (Nat × Instruction)) :
    State V → Outcome V ε → Prop
  | last {state : State V} {outcome : Outcome V ε}
      (ends : frame.step program state = .error (.done outcome)) :
      Halts frame program state outcome
  | next {state after : State V} {outcome : Outcome V ε}
      (goes : frame.step program state = .ok after) (more : Halts frame program after outcome) :
      Halts frame program state outcome

theorem Halts.unique {frame : Frame V ε} {program : List (Nat × Instruction)} {state : State V}
    {first second : Outcome V ε} (halts : frame.Halts program state first)
    (again : frame.Halts program state second) :
    first = second := by
  induction halts with
  | last ends =>
    cases again with
    | last ends' =>
      rw [ends] at ends'
      cases ends'
      rfl
    | next goes' =>
      rw [ends] at goes'
      cases goes'
  | next goes _ ih =>
    cases again with
    | last ends' =>
      rw [goes] at ends'
      cases ends'
    | next goes' more' =>
      rw [goes] at goes'
      cases goes'
      exact ih more'

/-- From a state the program comes to the code behind it as the result
says, unless that is stuck. -/
def Continues (frame : Frame V ε) (program : List (Nat × Instruction)) (state : State V)
    (after : List (Nat × Instruction)) : Except (Halt V ε) (Store V) → Prop
  | .ok store =>
    ∀ outcome, frame.Halts program ⟨after, store⟩ outcome → frame.Halts program state outcome
  | .error (.done outcome) => frame.Halts program state outcome
  | .error .stuck => True

theorem Continues.next {frame : Frame V ε} {program after : List (Nat × Instruction)}
    {state middle : State V} {result : Except (Halt V ε) (Store V)}
    (goes : frame.step program state = .ok middle)
    (more : frame.Continues program middle after result) :
      frame.Continues program state after result := by
  match result with
  | .error .stuck => trivial
  | .error (.done _) => exact Halts.next goes more
  | .ok _ => exact fun outcome halts => Halts.next goes (more outcome halts)

theorem Continues.bind {frame : Frame V ε} {program middle after : List (Nat × Instruction)}
    {state : State V} {result : Except (Halt V ε) (Store V)}
    {next : Store V → Except (Halt V ε) (Store V)}
    (first : frame.Continues program state middle result)
    (second : ∀ store, frame.Continues program ⟨middle, store⟩ after (next store)) :
    frame.Continues program state after (result >>= next) := by
  match result with
  | .error (.done _) => exact first
  | .error .stuck => trivial
  | .ok store =>
    have onward := second store
    show frame.Continues program state after (next store)
    match reached : next store with
    | .error .stuck => trivial
    | .error (.done outcome) =>
      rw [reached] at onward
      exact first outcome onward
    | .ok last =>
      rw [reached] at onward
      exact fun outcome halts => first outcome (onward outcome halts)

end Frame

namespace Step

variable [DecidableEq V]

mutual

def exec (frame : Frame V ε) : Step → Store V → Except (Halt V ε) (Store V)
  | .line _, store => .ok store
  | .unlessNull guarded, store =>
    match store.stack with
    | .value value :: _ => if value = frame.null then .ok store else execAll frame guarded store
    | _ => .error .stuck
  | step, store =>
    match step.instruction? with
    | some instruction => frame.execute instruction store
    | none => .error .stuck

def execAll (frame : Frame V ε) : List Step → Store V → Except (Halt V ε) (Store V)
  | [], store => .ok store
  | step :: rest, store => step.exec frame store >>= execAll frame rest

end

def Joins (offset : Nat) (after : List (Nat × Instruction)) : Prop := ∀ entry ∈ after.head?,
    entry.1 = offset

theorem Lowered.joins {first last : Nat} {steps : List Step}
    {listing after : List (Nat × Instruction)} (lowered : Lowered first steps listing last)
    (joins : Joins last after) : Joins first (listing ++ after) := by
  induction lowered with
  | nil => exact joins
  | line _ ih => exact ih joins
  | straight => simp [Joins]
  | unlessNull => simp [Joins]

theorem Joins.dropWhile {offset : Nat} {before after : List (Nat × Instruction)}
    (joins : Joins offset after) (earlier : ∀ entry ∈ before, entry.1 < offset) :
    (before ++ after).dropWhile (·.1 != offset) = after := by
  rw [List.dropWhile_append_of_pos]
  · cases after with
    | nil => rfl
    | cons entry rest =>
      have here : entry.1 = offset := joins entry rfl
      simp [here]
  · intro entry member
    have := earlier entry member
    simp
    omega

end Step

end ProcLowering
