import Std.Data.TreeMap
import ProcLowering.Number.Decimal
import ProcLowering.Text.Quoted
import ProcLowering.Value

set_option autoImplicit false

namespace ProcLowering

inductive Constant where
  | number (n : Single)
  | string (s : String)
deriving DecidableEq, Repr, Inhabited

namespace Constant

def string? : Constant → Option String
  | .string s => some s
  | .number _ => none

def text : Constant → String
  | .number n => n.text
  | .string s => Text.quoted s

end Constant

def Value.constant? : Value → Option Constant
  | .null => none
  | .number n => some (.number n)
  | .string s => some (.string s)

/-- The two zeros are one number to the pool. -/
def Single.poolKey (n : Single) : Nat := if n.isZero then 0 else n.toBits.toNat

structure Pool where
  constants : Array Constant := #[]
  numbers : Std.TreeMap Nat Nat := ∅
  strings : Std.TreeMap String Nat := ∅

namespace Pool

instance : Inhabited Pool := ⟨{}⟩

def size (pool : Pool) : Nat := pool.constants.size

def find? (pool : Pool) : Constant → Option Nat
  | .number n => pool.numbers[n.poolKey]?
  | .string s => pool.strings[s]?

def push (pool : Pool) (constant : Constant) : Pool :=
  let place := pool.constants.size
  match constant with
  | .number n =>
    { pool with
      constants := pool.constants.push constant
      numbers := pool.numbers.insert n.poolKey place }
  | .string s =>
    { pool with
      constants := pool.constants.push constant
      strings := pool.strings.insert s place }

def add (pool : Pool) (constant : Constant) : Nat × Pool :=
  match pool.find? constant with
  | some place => (place, pool)
  | none => (pool.constants.size, pool.push constant)

def get? (pool : Pool) (place : Nat) : Option Constant := pool.constants[place]?

def string? (pool : Pool) (place : Nat) : Option String := do (← pool.get? place).string?

end Pool

end ProcLowering
