import ProcLowering.Fault

set_option autoImplicit false

namespace ProcLowering

structure Label where
  -- Every null test takes one label and three bytes of code, so 32
  -- bits hold the ids of any code whose offsets they hold.
  id : Nat
deriving DecidableEq, Repr, Inhabited

/-- What is known of a label: where it was bound, the depth it is reached with, and the operands of
the jumps that wait for it, the latest first. -/
structure LabelState where
  offset : Option Nat := none
  depth : Option Int := none
  pending : List Nat := []
deriving DecidableEq, Repr, Inhabited

structure Labels where
  states : Array LabelState := #[]
deriving DecidableEq, Repr, Inhabited

def LabelState.meet (state : LabelState) (label : Label) (found : Int) :
    Except Fault LabelState :=
  match state.depth with
  | none => .ok { state with depth := some found }
  | some expected =>
    if expected = found then .ok state else .error (.stackMismatch label.id expected found)

namespace Labels

def allocate (labels : Labels) : Label × Labels :=
  (⟨labels.states.size⟩, ⟨labels.states.push {}⟩)

def state (labels : Labels) (label : Label) : Except Fault LabelState :=
  match labels.states[label.id]? with
  | none => .error (.labelNotAllocated label.id)
  | some state => .ok state

def setState (labels : Labels) (label : Label) (state : LabelState) : Labels :=
  ⟨labels.states.setIfInBounds label.id state⟩

def jumped (labels : Labels) (label : Label) (operand : Nat) (depth : Int) :
    Except Fault LabelState := do
  let state ← labels.state label
  if state.offset.isSome then throw (.backwardJumpToLabel label.id)
  let state ← state.meet label depth
  return { state with pending := operand :: state.pending }

def addJump (label : Label) (operand : Nat) (depth : Int) : EStateM Fault Labels Unit := do
  match (← get).jumped label operand depth with
  | .error fault => throw fault
  | .ok state => modify (·.setState label state)

/-- The state of a label once it is bound to an offset, which `fallthrough` reaches unless it is
none. Its jumps still wait. -/
def bound (labels : Labels) (label : Label) (offset : Nat) (fallthrough : Option Int) :
    Except Fault LabelState := do
  let state ← labels.state label
  if state.offset.isSome then throw (.labelRebound label.id)
  let state ← match fallthrough with
    | none => pure state
    | some depth => state.meet label depth
  return { state with offset := some offset }

def bind (label : Label) (offset : Nat) (fallthrough : Option Int) :
    EStateM Fault Labels LabelState := do
  match (← get).bound label offset fallthrough with
  | .error fault => throw fault
  | .ok state =>
    modify (·.setState label { state with pending := [] })
    return state

def checkBound (labels : Labels) : Except Fault Unit :=
  match labels.states.findIdx? fun state => state.offset.isNone && !state.pending.isEmpty with
  | none => .ok ()
  | some label => .error (.unboundLabel label)

end Labels

end ProcLowering
