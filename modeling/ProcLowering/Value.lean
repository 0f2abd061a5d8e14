import ProcLowering.Number.Single

set_option autoImplicit false

namespace ProcLowering

inductive Value where
  | null
  | number (n : Single)
  | string (s : String)
deriving DecidableEq, Repr, Inhabited

namespace Value

def number? : Value → Option Single
  | .number n => some n
  | _ => none

/-- Null, zero and the empty string are false; a NaN is true. -/
def isTruthy : Value → Bool
  | .null => false
  | .number n => !n.isZero
  | .string s => !s.isEmpty

end Value

end ProcLowering
