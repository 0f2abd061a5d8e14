import ProcLowering.Proofs.BitwiseFolding
import ProcLowering.Proofs.Evaluation

set_option autoImplicit false

namespace ProcLowering

namespace Single

theorem isZero_iff {n : Single} : n.isZero = true ↔ ∃ s, n = .finite s 0 := by
  constructor
  · intro zero
    cases n with
    | finite s rank =>
      have lowest : rank = 0 := Fin.ext (beq_iff_eq.mp zero)
      exact ⟨s, by rw [lowest]⟩
    | nan => cases zero
    | infinite _ => cases zero
  · rintro ⟨s, rfl⟩
    rfl

theorem same_iff {a b : Single} : a.Same b ↔ a = b ∨ ∃ s t, a = .finite s 0 ∧ b = .finite t 0 := by
  simp [Same, isZero_iff]

theorem same_refl (a : Single) : a.Same a := Or.inl rfl

theorem same_zero (s t : Bool) : Same (.finite s 0) (.finite t 0) := Or.inr ⟨rfl, rfl⟩

theorem Same.trans {a b c : Single} (first : a.Same b) (second : b.Same c) : a.Same c :=
  (poolKey_eq_iff a c).mp (((poolKey_eq_iff a b).mpr first).trans ((poolKey_eq_iff b c).mpr second))

theorem Same.neg {a b : Single} (same : a.Same b) : a.neg.Same b.neg := by
  obtain rfl | ⟨s, t, rfl, rfl⟩ := same_iff.mp same
  · exact same_refl _
  · exact same_zero _ _

theorem Same.congr {op : Single → Single → Single} (comm : ∀ a b, op a b = op b a)
    (left : ∀ s t b, (op (.finite s 0) b).Same (op (.finite t 0) b)) {a a' b b' : Single}
    (first : a.Same a') (second : b.Same b') : (op a b).Same (op a' b') := by
  have move {c c' : Single} (same : c.Same c') (d : Single) : (op c d).Same (op c' d) := by
    obtain rfl | ⟨s, t, rfl, rfl⟩ := same_iff.mp same
    · exact same_refl _
    · exact left s t d
  refine (move first b).trans ?_
  rw [comm a' b, comm a' b']
  exact move second a'

theorem mul_comm (a b : Single) : a.mul b = b.mul a := by
  cases a <;> cases b <;> simp only [mul, Nat.mul_comm, bne_comm]

theorem Same.isZero {a b : Single} (same : a.Same b) : a.isZero = b.isZero := by
  obtain rfl | ⟨s, t, rfl, rfl⟩ := same_iff.mp same <;> rfl

theorem Same.truncate {a b : Single} (same : a.Same b) : a.truncate = b.truncate := by
  have zero (s : Bool) : Single.truncate (.finite s 0) = 0 := by cases s <;> rfl
  obtain rfl | ⟨s, t, rfl, rfl⟩ := same_iff.mp same
  · rfl
  · rw [zero, zero]

theorem Same.low {a b : Single} (same : a.Same b) : a.low = b.low := by
  rw [Single.low, Single.low, same.truncate]

theorem Same.word {a b : Single} (same : a.Same b) : a.word = b.word := by
  rw [Single.word, Single.word, same.truncate]

end Single

namespace Value

inductive Same : Value → Value → Prop
  | null : Same .null .null
  | number {a b : Single} (same : a.Same b) : Same (.number a) (.number b)
  | string (s : String) : Same (.string s) (.string s)

theorem same_refl (value : Value) : value.Same value := by
  cases value with
  | null => exact .null
  | number n => exact .number (Single.same_refl n)
  | string s => exact .string s

theorem Same.isTruthy {a b : Value} (same : a.Same b) : a.isTruthy = b.isTruthy := by
  cases same with
  | null => rfl
  | string => rfl
  | number same => rw [Value.isTruthy, Value.isTruthy, same.isZero]

end Value

namespace BinaryOp

end BinaryOp

def Folding.SeesLow : Folding → Prop
  | .binary op (.number left) (.number right) => op.SeesLow left right
  | _ => True

namespace Runtime

end Runtime

end ProcLowering
