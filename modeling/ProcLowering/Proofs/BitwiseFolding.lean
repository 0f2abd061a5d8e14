import ProcLowering.Fold

set_option autoImplicit false

namespace ProcLowering

namespace Single

def IsWhole (n : Single) (whole : Nat) : Prop :=
  ∃ rank : Fin 0x7F800000, n = .finite false rank ∧ units rank = whole * unitsPerOne

def low (n : Single) : Nat := (n.truncate % 0x1000000).toNat

theorem low_lt (n : Single) : n.low < 0x1000000 := by
  unfold low
  omega

theorem shiftLeft_pos {n : Nat} (positive : 0 < n) (k : Nat) : 0 < n <<< k := by
  rw [Nat.shiftLeft_eq]
  exact Nat.mul_pos positive (Nat.two_pow_pos k)

theorem log2_shiftLeft {n : Nat} (positive : 0 < n) (k : Nat) : (n <<< k).log2 = n.log2 + k := by
  induction k with
  | zero => rfl
  | succ k ih =>
    rw [Nat.shiftLeft_succ, Nat.log2_two_mul (Nat.ne_of_gt (shiftLeft_pos positive k)), ih]
    rfl

theorem units_rank {kept : Nat} (shift : Nat) (least : binade ≤ kept) (small : kept < 2 * binade) :
    units (shift * binade + kept) = kept <<< shift := by
  have spacing : (shift * binade + kept) / binade = shift + 1 := by
    rw [Nat.mul_comm, Nat.mul_add_div (by decide),
      Nat.div_eq_of_lt_le (k := 1) (by omega) (by omega)]
  have offset : (shift * binade + kept) % binade = kept - binade := by
    rw [Nat.mul_comm, Nat.mul_add_mod, Nat.mod_eq_sub_mod least, Nat.mod_eq_of_lt (by omega)]
  have behind : ¬ shift * binade + kept < binade := by
    omega
  rw [units, if_neg behind, spacing, offset, Nat.add_sub_cancel' least, Nat.add_sub_cancel]

theorem nearestRank_exact {kept : Nat} (shift : Nat) (least : binade ≤ kept)
    (small : kept < 2 * binade) :
    nearestRank (kept <<< shift) 1 = shift * binade + kept := by
  have length : kept.log2 = 23 :=
    (Nat.log2_eq_iff (by unfold binade at least; omega)).mpr ⟨least, small⟩
  have spacing : (kept <<< shift / 1).log2 - 23 = shift := by
    rw [Nat.div_one, log2_shiftLeft (by unfold binade at least; omega), length]
    omega
  have step : 0 < 1 <<< shift := shiftLeft_pos Nat.one_pos shift
  have whole : kept <<< shift = kept * 1 <<< shift := by rw [Nat.one_shiftLeft, Nat.shiftLeft_eq]
  have lost : kept <<< shift % 1 <<< shift = 0 := by rw [whole, Nat.mul_mod_left]
  have down : ¬ (decide (1 <<< shift < 2 * 0) || (1 <<< shift == 2 * 0 && kept % 2 == 1)) =
    true := by
    simp
  unfold nearestRank
  rw [spacing]
  dsimp only
  rw [lost, whole, Nat.mul_div_cancel _ step, if_neg down, Nat.add_zero]

theorem isWhole_ofNat {n : Nat} (small : n < 0x1000000) : (ofNat n).IsWhole n := by
  by_cases zero : n = 0
  · subst zero
    exact ⟨0, by decide, rfl⟩
  · have length : n.log2 < 24 := (Nat.log2_lt zero).mpr small
    -- The digits of the number, moved up to the highest of the places that a magnitude has.
    have top : (n <<< (23 - n.log2)).log2 = 23 := by
      rw [log2_shiftLeft (Nat.pos_of_ne_zero zero)]
      omega
    have filled := Nat.ne_of_gt (shiftLeft_pos (Nat.pos_of_ne_zero zero) (23 - n.log2))
    obtain ⟨least, few⟩ : binade ≤ n <<< (23 - n.log2) ∧ n <<< (23 - n.log2) < 2 * binade :=
      (Nat.log2_eq_iff filled).mp top
    have whole : n * unitsPerOne = (n <<< (23 - n.log2)) <<< (n.log2 + 126) := by
      rw [← Nat.shiftLeft_add, show 23 - n.log2 + (n.log2 + 126) = 149 by omega, Nat.shiftLeft_eq]
      rfl
    have inside : (n.log2 + 126) * binade + n <<< (23 - n.log2) < 0x7F800000 := by
      unfold binade at *
      omega
    refine ⟨⟨_, inside⟩, ?_, ?_⟩
    · have rank := nearestRank_exact (n.log2 + 126) least few
      rw [← whole] at rank
      simp only [ofNat, ofUnits, rank, inside, dif_pos]
    · rw [whole]
      exact units_rank _ least few

theorem IsWhole.truncate {n : Single} {whole : Nat} (exact : n.IsWhole whole)
    (small : whole < 0x1000000) :
    n.truncate = whole := by
  obtain ⟨rank, rfl, magnitude⟩ := exact
  have floor : units rank / unitsPerOne = whole := by
    have positive : 0 < unitsPerOne := shiftLeft_pos Nat.one_pos 149
    rw [magnitude, Nat.mul_div_cancel _ positive]
  simp only [Single.truncate, floor, Bool.false_eq_true, if_false]
  omega

theorem truncate_bounds (n : Single) : -0x80000000 ≤ n.truncate ∧ n.truncate ≤ 0x7FFFFFFF := by
  unfold truncate
  split
  · decide
  · split <;> decide
  · dsimp only
    omega

theorem toInt_word (n : Single) : n.word.toInt = n.truncate := by
  have := n.truncate_bounds
  rw [word, BitVec.toInt_ofInt, Int.bmod_def]
  omega

theorem toNat_masked (n : Single) : (n.word &&& 0xFFFFFF#32).toNat = n.low := by
  have mask := Nat.and_two_pow_sub_one_eq_mod n.word.toNat 24
  rw [BitVec.toNat_and]
  refine mask.trans ?_
  rw [word, BitVec.toNat_ofInt, low]
  omega

theorem mask_getLsbD (i : Nat) : (0xFFFFFF#32).getLsbD i = decide (i < 24) := by
  rw [BitVec.getLsbD, BitVec.toNat_ofNat]
  exact Nat.testBit_two_pow_sub_one 24 i

theorem masked_lt (word : BitVec 32) : (word &&& 0xFFFFFF#32).toNat < 0x1000000 := by
  rw [BitVec.toNat_and]
  exact Nat.lt_of_le_of_lt Nat.and_le_right (by decide)

theorem isWhole_ofWord (word : BitVec 32) : (ofWord word).IsWhole (word &&& 0xFFFFFF#32).toNat :=
  isWhole_ofNat (masked_lt word)

theorem ofWord_eq_iff (first second : BitVec 32) :
    ofWord first = ofWord second ↔ first &&& 0xFFFFFF#32 = second &&& 0xFFFFFF#32 := by
  refine ⟨fun same => ?_, fun same => by rw [ofWord, same, ofWord]⟩
  have left := (isWhole_ofWord first).truncate (masked_lt first)
  rw [same, (isWhole_ofWord second).truncate (masked_lt second)] at left
  exact BitVec.eq_of_toNat_eq (Int.ofNat.inj left.symm)

theorem truncate_ofNat_low (n : Single) : (ofNat n.low).truncate = n.low :=
  (isWhole_ofNat n.low_lt).truncate n.low_lt

theorem word_ofNat_low (n : Single) : (ofNat n.low).word = n.word &&& 0xFFFFFF#32 := by
  refine BitVec.eq_of_toNat_eq ?_
  have := n.low_lt
  rw [toNat_masked, word, truncate_ofNat_low, BitVec.toNat_ofInt]
  omega

theorem sshiftRight_getLsbD (n : Single) (i : Nat) :
    (n.word.sshiftRight i).getLsbD 0 = false ↔ (n.truncate >>> i) % 2 = 0 := by
  rw [BitVec.sshiftRight, toInt_word, BitVec.getLsbD, BitVec.toNat_ofInt, Nat.testBit_zero]
  simp only [decide_eq_false_iff_not]
  omega

/-- A shift to the right sees only the low bits if those that it brings down from above are zero. -/
theorem masked_sshiftRight_iff (word : BitVec 32) (count : Nat) :
    (word &&& 0xFFFFFF#32).sshiftRight count &&& 0xFFFFFF#32 =
      word.sshiftRight count &&& 0xFFFFFF#32 ↔
      ∀ i, 24 ≤ i → count ≤ i → i < count + 24 → (word.sshiftRight i).getLsbD 0 = false := by
  have top : (0xFFFFFF#32).msb = false := by decide
  have masked {j : Nat} (small : j < 24) :
      ((word &&& 0xFFFFFF#32).sshiftRight count &&& 0xFFFFFF#32).getLsbD j =
      (decide (count + j < 24) && (word.sshiftRight (count + j)).getLsbD 0) := by
    simp only [BitVec.getLsbD_and, BitVec.getLsbD_sshiftRight, mask_getLsbD, BitVec.msb_and, top]
    grind
  have full {j : Nat} (small : j < 24) : (word.sshiftRight count &&& 0xFFFFFF#32).getLsbD j =
      (word.sshiftRight (count + j)).getLsbD 0 := by
    simp only [BitVec.getLsbD_and, BitVec.getLsbD_sshiftRight, mask_getLsbD]
    grind
  constructor
  · intro same i high above below
    have bit := congrArg (·.getLsbD (i - count)) same
    have place : count + (i - count) = i := by omega
    simp only [masked (j := i - count) (by omega), full (j := i - count) (by omega), place] at bit
    rw [← bit, decide_eq_false (by omega), Bool.false_and]
  · intro zero
    refine BitVec.eq_of_getLsbD_eq fun j _ => ?_
    by_cases small : j < 24
    · rw [masked small, full small]
      by_cases inside : count + j < 24
      · rw [decide_eq_true inside, Bool.true_and]
      · rw [zero (count + j) (by omega) (by omega) (by omega), Bool.and_false]
    · rw [BitVec.getLsbD_and, BitVec.getLsbD_and, mask_getLsbD, decide_eq_false small,
        Bool.and_false, Bool.and_false]

theorem masked_shiftLeft (word : BitVec 32) (count : Nat) :
    (word &&& 0xFFFFFF#32) <<< count &&& 0xFFFFFF#32 = word <<< count &&& 0xFFFFFF#32 := by
  refine BitVec.eq_of_getLsbD_eq fun j _ => ?_
  simp only [BitVec.getLsbD_and, BitVec.getLsbD_shiftLeft, mask_getLsbD]
  grind

end Single

/-- When an operator does the same on the low parts of its operands: always, but for shifts only if
the count is not cut, and to the right only if the bits that come down from above are zero. -/
def BinaryOp.SeesLow (left right : Single) : BinaryOp → Prop
  | .shiftLeft => right.low < 32 → right.truncate = right.low
  | .shiftRight => right.low < 32 → right.truncate = right.low ∧
      ∀ i, 24 ≤ i → right.low ≤ i → i < right.low + 24 → (left.truncate >>> i) % 2 = 0
  | _ => True

namespace Single

theorem shiftCount?_ofNat_low (n : Single) :
    (ofNat n.low).shiftCount? = if n.low < 32 then some n.low else none := by
  simp only [shiftCount?, truncate_ofNat_low]
  by_cases small : n.low < 32
  · rw [if_pos (by omega), if_pos small]
    rfl
  · rw [if_neg (by omega), if_neg small]

theorem shiftCount?_eq (n : Single) :
    n.shiftCount? = if n.low < 32 ∧ n.truncate = n.low then some n.low else none := by
  unfold shiftCount? low
  by_cases count : 0 ≤ n.truncate ∧ n.truncate < 32
  · rw [if_pos count, if_pos (by omega)]
    exact congrArg some (by omega)
  · rw [if_neg count, if_neg (by omega)]

theorem shift_low_iff (shift : BitVec 32 → Nat → BitVec 32) (left right : Single) :
    ((ofNat right.low).shiftCount?.map fun count => ofWord (shift (ofNat left.low).word count)) =
        (right.shiftCount?.map fun count => ofWord (shift left.word count)) ↔
      (right.low < 32 → right.truncate = right.low ∧
        shift (left.word &&& 0xFFFFFF#32) right.low &&& 0xFFFFFF#32 =
          shift left.word right.low &&& 0xFFFFFF#32) := by
  rw [shiftCount?_ofNat_low, shiftCount?_eq right, word_ofNat_low]
  by_cases small : right.low < 32
  · by_cases uncut : right.truncate = right.low
    · simp [small, uncut, ofWord_eq_iff]
    · simp [small, uncut]
  · simp [small]

end Single

namespace BinaryOp

theorem fold?_numbers (op : BinaryOp) (left right : Single) :
    op.fold? (.number left) (.number right) = (op.foldNumbers? left right).map .number := by
  cases op <;> rfl

theorem foldNumbers?_eq_ofWord {op : BinaryOp} (bitwise : op.isBitwise = true)
    {left right folded : Single} (done : op.foldNumbers? left right = some folded) :
    ∃ word, folded = .ofWord word := by
  cases op with
  | add | subtract | multiply | divide | modulus => cases bitwise
  | bitAnd | bitOr | bitXor =>
    cases done
    exact ⟨_, rfl⟩
  | shiftLeft | shiftRight =>
    obtain ⟨count, -, rfl⟩ := Option.map_eq_some_iff.mp done
    exact ⟨_, rfl⟩

theorem foldNumbers?_low_iff {op : BinaryOp} (bitwise : op.isBitwise = true) (left right : Single) :
    op.foldNumbers? (.ofNat left.low) (.ofNat right.low) = op.foldNumbers? left right ↔
      op.SeesLow left right := by
  cases op with
  | add | subtract | multiply | divide | modulus => cases bitwise
  | bitAnd | bitOr | bitXor =>
    simp only [foldNumbers?, SeesLow, iff_true, Option.some.injEq, Single.ofWord_eq_iff,
      Single.word_ofNat_low]
    refine BitVec.eq_of_getLsbD_eq fun i _ => ?_
    simp only [BitVec.getLsbD_and, BitVec.getLsbD_or, BitVec.getLsbD_xor]
    grind
  | shiftLeft =>
    simp only [foldNumbers?, SeesLow]
    rw [Single.shift_low_iff fun word count => word <<< count]
    simp only [Single.masked_shiftLeft, and_true]
  | shiftRight =>
    simp only [foldNumbers?, SeesLow]
    rw [Single.shift_low_iff BitVec.sshiftRight]
    simp only [Single.masked_sshiftRight_iff, Single.sshiftRight_getLsbD]

end BinaryOp

theorem UnaryOp.bitNot_low (n : Single) :
    UnaryOp.bitNot.fold? (.number (.ofNat n.low)) = UnaryOp.bitNot.fold? (.number n) := by
  have same : ~~~(n.word &&& 0xFFFFFF#32) &&& 0xFFFFFF#32 = ~~~n.word &&& 0xFFFFFF#32 := by
    refine BitVec.eq_of_getLsbD_eq fun i _ => ?_
    simp only [BitVec.getLsbD_and, BitVec.getLsbD_not]
    grind
  simp only [fold?, Value.number?, Option.map_some, Single.word_ofNat_low]
  rw [(Single.ofWord_eq_iff _ _).mpr same]

def Value.IsLow (value : Value) : Prop := ∃ n whole, value = .number n ∧ n.IsWhole whole ∧
    whole < 0x1000000

theorem Value.isLow_ofWord (word : BitVec 32) : (Value.number (.ofWord word)).IsLow :=
  ⟨.ofWord word, _, rfl, Single.isWhole_ofWord word, Single.masked_lt word⟩

/-- Bitwise operators make whole numbers of 24 bits, and on the low parts of numbers they do what
they do on the numbers, up to what a shift sees of a count and of the bits above. -/
theorem BinaryOp.fold?_bitwise {op : BinaryOp} (bitwise : op.isBitwise = true)
    (left right : Single) :
    (∀ value, op.fold? (.number left) (.number right) = some value → value.IsLow) ∧
    (∀ value, UnaryOp.bitNot.fold? (.number left) = some value → value.IsLow) ∧
    UnaryOp.bitNot.fold? (.number (.ofNat left.low)) = UnaryOp.bitNot.fold? (.number left) ∧
    (op.fold? (.number (.ofNat left.low)) (.number (.ofNat right.low)) =
      op.fold? (.number left) (.number right) ↔
      op.SeesLow left right) := by
  refine ⟨?_, ?_, UnaryOp.bitNot_low left, ?_⟩
  · intro value done
    rw [fold?_numbers] at done
    obtain ⟨folded, found, rfl⟩ := Option.map_eq_some_iff.mp done
    obtain ⟨word, rfl⟩ := foldNumbers?_eq_ofWord bitwise found
    exact Value.isLow_ofWord word
  · intro value done
    cases done
    exact Value.isLow_ofWord _
  · rw [fold?_numbers, fold?_numbers, ← foldNumbers?_low_iff bitwise]
    exact (Option.map_injective fun _ _ => Value.number.inj).eq_iff

namespace BinaryOp

/-- A negative number with two zeros above its low bits, just as many as the shift brings down. -/
theorem fold?_bitwise_negative :
    isBitwise .shiftRight = true ∧ shiftRight.SeesLow (.ofInt (-67108800)) (.ofInt 2) ∧
      shiftRight.fold?
        (.number (.ofNat (Single.ofInt (-67108800)).low)) (.number (.ofNat (Single.ofInt 2).low)) =
        shiftRight.fold? (.number (.ofInt (-67108800))) (.number (.ofInt 2)) := by
  have sees : shiftRight.SeesLow (.ofInt (-67108800)) (.ofInt 2) := by
    have count : (Single.ofInt 2).low = 2 := by decide +kernel
    have above : (Single.ofInt (-67108800)).truncate = -67108800 := by decide +kernel
    intro _
    refine ⟨by decide +kernel, fun i high _ below => ?_⟩
    rw [count] at below
    obtain rfl | rfl : i = 24 ∨ i = 25 := by omega
    all_goals rw [above]; rfl
  exact ⟨rfl, sees, (fold?_bitwise rfl _ _).2.2.2.mpr sees⟩

/-- A shift to the right fills the low bits from the sign, which the
low part of a number does not have. -/
theorem shiftRight_brings_sign_down :
    shiftRight.fold? (.number (.ofInt (-1))) (.number (.ofInt 1)) =
      some (.number (.ofNat 0xFFFFFF)) ∧
      shiftRight.fold?
        (.number (.ofNat (Single.ofInt (-1)).low)) (.number (.ofNat (Single.ofInt 1).low)) =
        some (.number (.ofNat 0x7FFFFF)) ∧
      shiftRight.fold?
        (.number (.ofNat (Single.ofInt (-1)).low)) (.number (.ofNat (Single.ofInt 1).low)) ≠
        shiftRight.fold? (.number (.ofInt (-1))) (.number (.ofInt 1)) := by
  decide +kernel

end BinaryOp

end ProcLowering
