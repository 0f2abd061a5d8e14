/-!
Single precision numbers, with exact arithmetic underneath. Every finite magnitude is a whole number
of units of 2^-149, so an operation computes its result as a ratio of natural numbers and rounds
once, to the nearest magnitude, a tie going to the one of even rank.
-/

set_option autoImplicit false

namespace ProcLowering

/-- A finite number is a sign and the rank of its magnitude among all finite magnitudes, from zero
up. There is one value that is not a number. -/
inductive Single where
  | nan
  | infinite (negative : Bool)
  | finite (negative : Bool) (rank : Fin 0x7F800000)
deriving DecidableEq, Repr

namespace Single

def binade : Nat := 0x800000

def unitsPerOne : Nat := 1 <<< 149

def units (rank : Nat) : Nat :=
  if rank < binade then rank
  else (binade + rank % binade) <<< (rank / binade - 1)

/-- The rank nearest to `num / den` units, the even one of two equally near. -/
def nearestRank (num den : Nat) : Nat :=
  let shift := (num / den).log2 - 23
  let step := den <<< shift
  let kept := num / step
  let lost := num % step
  let up := step < 2 * lost || (step == 2 * lost && kept % 2 == 1)
  shift * binade + kept + (if up then 1 else 0)

def ofUnits (negative : Bool) (num den : Nat) : Single :=
  let rank := nearestRank num den
  if small : rank < 0x7F800000 then .finite negative ⟨rank, small⟩ else .infinite negative

def zero : Single := .finite false 0

def ofInt (n : Int) : Single := ofUnits (n < 0) (n.natAbs * unitsPerOne) 1

def ofNat (n : Nat) : Single := ofUnits false (n * unitsPerOne) 1

def one : Single := ofNat 1

def isZero : Single → Bool
  | .finite _ rank => rank.val == 0
  | _ => false

def equals : Single → Single → Bool
  | .nan, _ | _, .nan => false
  | a, b => (a.isZero && b.isZero) || a == b

def neg : Single → Single
  | .nan => .nan
  | .infinite s => .infinite !s
  | .finite s rank => .finite (!s) rank

def signedUnits (negative : Bool) (rank : Nat) : Int :=
  if negative then -(units rank : Int) else units rank

/-- A sum of exactly zero is negative only when both terms are. -/
def add : Single → Single → Single
  | .nan, _ | _, .nan => .nan
  | .infinite s, .infinite t => if s = t then .infinite s else .nan
  | .infinite s, .finite _ _ => .infinite s
  | .finite _ _, .infinite t => .infinite t
  | .finite s a, .finite t b =>
    let sum := signedUnits s a + signedUnits t b
    if sum = 0 then .finite (s && t) 0 else ofUnits (sum < 0) sum.natAbs 1

def sub (a b : Single) : Single := a.add b.neg

def mul : Single → Single → Single
  | .nan, _ | _, .nan => .nan
  | .infinite s, .infinite t => .infinite (s != t)
  | .infinite s, .finite t b => if b.val = 0 then .nan else .infinite (s != t)
  | .finite s a, .infinite t => if a.val = 0 then .nan else .infinite (s != t)
  | .finite s a, .finite t b => ofUnits (s != t) (units a * units b) unitsPerOne

def div : Single → Single → Single
  | .nan, _ | _, .nan => .nan
  | .infinite _, .infinite _ => .nan
  | .infinite s, .finite t _ => .infinite (s != t)
  | .finite s _, .infinite t => .finite (s != t) 0
  | .finite s a, .finite t b =>
    if b.val = 0 then
      if a.val = 0 then .nan else .infinite (s != t)
    else ofUnits (s != t) (units a * unitsPerOne) (units b)

/-- The integer part, kept within the 32-bit integers; a NaN counts as zero. -/
def truncate : Single → Int
  | .nan => 0
  | .infinite negative => if negative then -0x80000000 else 0x7FFFFFFF
  | .finite negative rank =>
    let whole : Int := (units rank / unitsPerOne : Nat)
    max (-0x80000000) (min 0x7FFFFFFF (if negative then -whole else whole))

def ofBits (bits : UInt32) : Single :=
  let negative := decide (0x80000000 ≤ bits.toNat)
  let low := bits.toNat % 0x80000000
  if small : low < 0x7F800000 then .finite negative ⟨low, small⟩
  else if low = 0x7F800000 then .infinite negative
  else .nan

def toBits : Single → UInt32
  | .nan => 0x7FC00000
  | .infinite negative => UInt32.ofNat (0x7F800000 + if negative then 0x80000000 else 0)
  | .finite negative rank => UInt32.ofNat (rank.val + if negative then 0x80000000 else 0)

end Single

end ProcLowering
