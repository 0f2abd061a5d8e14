import ProcLowering.Path
import ProcLowering.Tree.Proc
import ProcLowering.Code.Opcode

set_option autoImplicit false

namespace ProcLowering

inductive Fault where
  | unresolvedProcedure (path : TypePath) (name : String)
  | unknownType (id : TypeId)
  | unknownProc (id : ProcId)
  | stackMismatch (label : Nat) (expected found : Int)
  | labelRebound (label : Nat)
  | unboundLabel (label : Nat)
  | jumpTooFar (distance : Nat)
  | constantPoolFull (limit : Nat)
  | needsOperands (op : Opcode)
  | labelNotAllocated (label : Nat)
  | backwardJumpToLabel (label : Nat)
  | backwardJump (operand target : Nat)
  | argumentCount (count : Nat)
  | tooManyLocals (name : String)
  | outsideCode (operand : Nat)
deriving DecidableEq, Repr

namespace Fault

def cause : Fault → String
  | .unresolvedProcedure path name =>
    let pathText := path.text
    s!"procedure '{name}' does not resolve on {pathText}"
  | .unknownType id => "no type record for " ++ id.text
  | .unknownProc id => "no procedure metadata for " ++ id.text
  | .stackMismatch label expected found =>
    s!"label {label} reached with stack depth {found}, expected {expected}"
  | .labelRebound label => s!"label {label} bound twice"
  | .unboundLabel label => s!"label {label} was jumped to but never bound"
  | .jumpTooFar distance => s!"jump distance {distance} exceeds u16::MAX"
  | .constantPoolFull limit => s!"constant pool exceeds {limit} entries"
  | .needsOperands op => op.name ++ " needs operands"
  | .labelNotAllocated label => s!"label {label} was never allocated"
  | .backwardJumpToLabel label => s!"backward jump to label {label}"
  | .backwardJump operand target => s!"backward jump from {operand} to {target}"
  | .argumentCount count => s!"{count} arguments do not fit the argument count operand"
  | .tooManyLocals name => s!"too many locals declaring '{name}'"
  | .outsideCode operand => s!"operand {operand} lies outside the code"

def message (fault : Fault) : String := "internal error: " ++ fault.cause

end Fault

end ProcLowering
