import Mathlib.Data.Rat.Floor
import ProcLowering.Matrix
import ProcLowering.Proofs.BitwiseFolding

set_option autoImplicit false

namespace ProcLowering

namespace Single

/-- The integer part of a number, or the end of the 32-bit integers that it lies beyond. That of a
NaN is zero. -/
def Truncates : Single → Int → Prop
  | .nan, i => i = 0
  | .infinite negative, i => i = if negative then -0x80000000 else 0x7FFFFFFF
  | .finite negative rank, i =>
    let exact : ℚ := signedUnits negative rank / unitsPerOne
    i = max (-0x80000000) (min 0x7FFFFFFF (if exact < 0 then ⌈exact⌉ else ⌊exact⌋))

theorem truncates_iff (n : Single) (i : Int) : n.Truncates i ↔ i = n.truncate := by
  cases n with
  | nan => rfl
  | infinite negative => rfl
  | finite negative rank =>
    have floor : ⌊(units rank : ℚ) / (unitsPerOne : ℚ)⌋ = (units rank / unitsPerOne : Nat) := by
      exact_mod_cast Rat.floor_natCast_div_natCast (units rank) unitsPerOne
    have whole : 0 ≤ (units rank : ℚ) / (unitsPerOne : ℚ) := by positivity
    cases negative with
    | false => simp [Truncates, truncate, signedUnits, not_lt.mpr whole, floor]
    | true =>
      have exact : ((signedUnits true rank : Int) : ℚ) / unitsPerOne =
          -((units rank : ℚ) / (unitsPerOne : ℚ)) := by
        simp [signedUnits, neg_div]
      simp only [Truncates, truncate, exact, Int.ceil_neg, floor, if_true]
      split
      · rfl
      · next least =>
        -- Only the negative zero is not below zero.
        have zero : (units rank : ℚ) / (unitsPerOne : ℚ) = 0 :=
          le_antisymm (by simpa using least) whole
        rw [zero, Int.floor_zero] at floor
        rw [zero, neg_zero, Int.floor_zero, ← floor, neg_zero]

end Single

namespace Matrix

theorem toNat_masked (word mask : BitVec 32) : (word &&& ~~~mask).toNat + (word &&& mask).toNat =
    word.toNat := by
  have disjoint : (word &&& ~~~mask) &&& (word &&& mask) = 0 := by
    ext i inside
    simp only [BitVec.ofNat_eq_ofNat, BitVec.getElem_zero, BitVec.getElem_and, BitVec.getElem_not]
    cases word[i] <;> cases mask[i] <;> rfl
  have whole : (word &&& ~~~mask) ||| (word &&& mask) = word := by
    ext i inside
    simp only [BitVec.getElem_or, BitVec.getElem_and, BitVec.getElem_not]
    cases word[i] <;> cases mask[i] <;> rfl
  rw [← BitVec.toNat_add_of_and_eq_zero disjoint,
    BitVec.add_eq_or_of_and_eq_zero _ _ disjoint, whole]

theorem toNat_clear (word : BitVec 32) :
    (word &&& ~~~128#32).toNat = word.toNat - word.toNat / 128 % 2 * 128 := by
  have bit : (word &&& 128#32).toNat = word.toNat / 128 % 2 * 128 := by
    have power : 128#32 = BitVec.twoPow 32 7 := rfl
    rw [power, BitVec.and_twoPow, BitVec.getLsbD, Nat.testBit_eq_decide_div_mod_eq]
    split
    · next set =>
      have one : word.toNat / 128 % 2 = 1 := by simpa using set
      simp [one]
    · next clear =>
      have zero : word.toNat / 128 % 2 = 0 := by simpa using clear
      simp [zero]
  have sum := toNat_masked word 128#32
  omega

theorem isSome_ofNumber? (n : Single) :
    (Operation.ofNumber? n).isSome = true ↔
      (0 ≤ n.truncate ∧ n.truncate ≤ 8) ∨ (128 ≤ n.truncate ∧ n.truncate ≤ 136) := by
  have bounds := n.truncate_bounds
  have known : (Operation.ofNumber? n).isSome = true ↔ (n.word &&& ~~~128#32).toNat < 9 := by
    simp [Operation.ofNumber?, Operation.all]
  rw [known, toNat_clear, Single.word, BitVec.toNat_ofInt]
  omega

/-- What there is to report about the arguments of a matrix builder. -/
inductive Flawed (arguments : List Argument) (span : Span) : Diagnostic → Prop
  | operation {last : Argument} {n : Single} {i : Int} (two : 2 ≤ arguments.length)
      (four : arguments.length ≤ 4) (ends : arguments.getLast? = some last)
      (folds : last.value.fold? = some (.number n)) (part : n.Truncates i)
      (unknown : ¬ (0 ≤ i ∧ i ≤ 8)) (unmodified : ¬ (128 ≤ i ∧ i ≤ 136)) :
      Flawed arguments span
        (.ofKind .suspiciousCall last.span ("invalid matrix operation " ++ n.text))
  | five (five : arguments.length = 5) :
      Flawed arguments span
        (.ofKind .suspiciousCall span "matrix called with 5 arguments always fails at run time")
  | many (seven : 7 ≤ arguments.length) :
      Flawed arguments span
        (.ofKind .tooManyArguments span
          s!"matrix takes at most 6 arguments, got {arguments.length}")

theorem shapeProblem?_selecting {arguments : List Argument} (two : 2 ≤ arguments.length)
    (four : arguments.length ≤ 4) (span : Span) :
    shapeProblem? arguments span =
      arguments.getLast?.bind fun last => last.value.fold?.bind fun value =>
        value.number?.bind fun n =>
        if (Operation.ofNumber? n).isSome then none
        else some (.ofKind .suspiciousCall last.span ("invalid matrix operation " ++ n.text)) := by
  unfold shapeProblem?
  obtain count | count | count : arguments.length = 2 ∨ arguments.length = 3 ∨
    arguments.length = 4 := by
    omega
  all_goals
    rw [count]
    rfl

theorem shapeProblem?_many {arguments : List Argument} (seven : 7 ≤ arguments.length)
    (span : Span) :
    shapeProblem? arguments span =
      some (.ofKind .tooManyArguments span
        s!"matrix takes at most 6 arguments, got {arguments.length}") := by
  unfold shapeProblem?
  split
  case h_8 => rfl
  all_goals omega

theorem shapeProblem?_quiet {arguments : List Argument}
    (quiet : arguments.length = 0 ∨ arguments.length = 1 ∨ arguments.length = 6) (span : Span) :
    shapeProblem? arguments span = none := by
  unfold shapeProblem?
  obtain count | count | count := quiet
  all_goals
    rw [count]
    rfl

theorem shapeProblem?_five {arguments : List Argument} (five : arguments.length = 5) (span : Span) :
    shapeProblem? arguments span =
      some (.ofKind .suspiciousCall span
        "matrix called with 5 arguments always fails at run time") := by
  unfold shapeProblem?
  rw [five]
  rfl

theorem number?_eq_some_iff (value : Value) (n : Single) : value.number? = some n ↔
    value = .number n := by
  cases value <;> simp [Value.number?]

theorem shapeProblem?_eq_some_iff (arguments : List Argument) (span : Span) (problem : Diagnostic) :
    shapeProblem? arguments span = some problem ↔ Flawed arguments span problem := by
  constructor
  · intro reported
    obtain quiet | ⟨two, four⟩ | five | seven :
        (arguments.length = 0 ∨ arguments.length = 1 ∨ arguments.length = 6) ∨
          (2 ≤ arguments.length ∧ arguments.length ≤ 4) ∨ arguments.length = 5 ∨
            7 ≤ arguments.length := by
            omega
    · rw [shapeProblem?_quiet quiet] at reported
      cases reported
    · simp only [shapeProblem?_selecting two four, Option.bind_eq_some_iff, number?_eq_some_iff,
        Option.ite_none_left_eq_some] at reported
      obtain ⟨last, ends, _, folds, n, rfl, unknown, ⟨⟩⟩ := reported
      rw [isSome_ofNumber?, not_or] at unknown
      exact .operation two four ends folds ((n.truncates_iff _).mpr rfl) unknown.1 unknown.2
    · rw [shapeProblem?_five five] at reported
      cases reported
      exact .five five
    · rw [shapeProblem?_many seven] at reported
      cases reported
      exact .many seven
  · intro flawed
    cases flawed with
    | @operation last n i two four ends folds part unknown unmodified =>
      obtain rfl := (n.truncates_iff i).mp part
      have missing : ¬ (Operation.ofNumber? n).isSome = true := by
        rw [isSome_ofNumber?, not_or]
        exact ⟨unknown, unmodified⟩
      rw [shapeProblem?_selecting two four, ends, Option.bind_some, folds, Option.bind_some,
        Value.number?, Option.bind_some, if_neg missing]
    | five five => exact shapeProblem?_five five span
    | many seven => exact shapeProblem?_many seven span

end Matrix

end ProcLowering
