import ProcLowering.Number.Single

set_option autoImplicit false

namespace ProcLowering

namespace Single

/-- A unit of 2^-149 is this many units of 10^-149, in which every finite magnitude is whole. -/
def decimalScale : Nat := Nat.pow 5 149

/-- Twice the bounds between which decimals read back as the magnitude of the given rank: halfway to
its neighbours. A bound itself reads back only when the rank is even. -/
def readsBack (rank candidate : Nat) : Bool :=
  let low := (units (rank - 1) + units rank) * decimalScale
  let high := (units rank + units (rank + 1)) * decimalScale
  let twice := 2 * candidate
  if rank % 2 = 0 then low ≤ twice && twice ≤ high else low < twice && twice < high

/-- The multiple of `grid` to write, if one reads back: the nearer of the two neighbours, and the
upper one when they are equally near. -/
def onGrid? (rank grid : Nat) : Option Nat :=
  let exact := units rank * decimalScale
  let below := exact / grid * grid
  let above := below + grid
  match readsBack rank below, readsBack rank above with
  | true, true => some (if exact - below < above - exact then below else above)
  | true, false => some below
  | false, true => some above
  | false, false => none

def shortestFrom (rank : Nat) : Nat → Nat
  | 0 => (onGrid? rank 1).getD (units rank * decimalScale)
  | places + 1 => (onGrid? rank (Nat.pow 10 (places + 1))).getD (shortestFrom rank places)

def shortest (rank : Nat) : Nat :=
  if rank = 0 then 0 else shortestFrom rank 188

def decimalOne : Nat := Nat.pow 10 149

def fractionDigits (decimal : Nat) : List Char :=
  let digits := Nat.toDigits 10 (decimal % decimalOne)
  let padded := List.replicate (149 - digits.length) '0' ++ digits
  (padded.reverse.dropWhile (· == '0')).reverse

def magnitudeText (rank : Nat) : String :=
  let decimal := shortest rank
  let whole := String.ofList (Nat.toDigits 10 (decimal / decimalOne))
  match fractionDigits decimal with
  | [] => whole
  | digits => whole ++ "." ++ String.ofList digits

def text : Single → String
  | .nan => "NaN"
  | .infinite negative => if negative then "-inf" else "inf"
  | .finite negative rank => (if negative then "-" else "") ++ magnitudeText rank

end Single

end ProcLowering
