import ProcLowering.Expr

set_option autoImplicit false

namespace ProcLowering

def Single.word (n : Single) : BitVec 32 := BitVec.ofInt 32 n.truncate

def Single.ofWord (word : BitVec 32) : Single := .ofNat (word &&& 0xFFFFFF#32).toNat

/-- A shift count is the integer part of a number; there is none outside 0 to 31. -/
def Single.shiftCount? (n : Single) : Option Nat :=
  let count := n.truncate
  if 0 ≤ count ∧ count < 32 then some count.toNat else none

/-- The remainder of the integer parts, with the sign of the left one. There is none for a zero
divisor, nor where the quotient would not be a 32-bit integer. -/
def Single.remainder? (left right : Single) : Option Single :=
  let dividend := left.truncate
  let divisor := right.truncate
  if divisor = 0 ∨ (dividend = -0x80000000 ∧ divisor = -1) then none
  else some (.ofInt (dividend.tmod divisor))

namespace UnaryOp

def fold? : UnaryOp → Value → Option Value
  | .not, value => some (.number (if value.isTruthy then .zero else .one))
  | .negate, value => value.number?.map fun n => .number n.neg
  | .bitNot, value => value.number?.map fun n => .number (.ofWord (~~~n.word))

end UnaryOp

namespace BinaryOp

def foldNumbers? (op : BinaryOp) (left right : Single) : Option Single :=
  match op with
  | .add => some (left.add right)
  | .subtract => some (left.sub right)
  | .multiply => some (left.mul right)
  | .divide => if right.isZero then none else some (left.div right)
  | .modulus => left.remainder? right
  | .bitAnd => some (.ofWord (left.word &&& right.word))
  | .bitOr => some (.ofWord (left.word ||| right.word))
  | .bitXor => some (.ofWord (left.word ^^^ right.word))
  | .shiftLeft => right.shiftCount?.map fun count => .ofWord (left.word <<< count)
  | .shiftRight => right.shiftCount?.map fun count => .ofWord (left.word.sshiftRight count)

def fold? : BinaryOp → Value → Value → Option Value
  | .add, .string left, .string right => some (.string (left ++ right))
  | op, .number left, .number right => (op.foldNumbers? left right).map .number
  | _, _, _ => none

end BinaryOp

def Expr.fold? : Expr → Option Value
  | .literal value _ => some value
  | .paren inner _ => inner.fold?
  | .unary op operand _ => do op.fold? (← operand.fold?)
  | .binary op left right _ => do op.fold? (← left.fold?) (← right.fold?)
  | _ => none

end ProcLowering
