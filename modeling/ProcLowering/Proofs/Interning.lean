import Mathlib.Data.List.Forall2
import Mathlib.Data.Set.Card
import ProcLowering.Proofs.Decoding

set_option autoImplicit false

namespace ProcLowering

namespace Single

theorem ofBits_eq_nan_iff (bits : UInt32) : ofBits bits = .nan ↔
    0x7F800000 < bits.toNat % 0x80000000 := by
  simp only [ofBits]
  split
  · simp
    omega
  · split
    · simp
      omega
    · simp
      omega

theorem isZero_ofBits (bits : UInt32) : (ofBits bits).isZero = true ↔
    bits.toNat % 0x80000000 = 0 := by
  simp only [ofBits]
  split
  · simp [isZero]
  · split
    · simp [isZero]
      omega
    · simp [isZero]
      omega

theorem toBits_ofBits {bits : UInt32} (number : ofBits bits ≠ .nan) :
    (ofBits bits).toBits = bits := by
  rw [ne_eq, ofBits_eq_nan_iff] at number
  have bound := bits.toNat_lt
  apply UInt32.toNat_inj.mp
  simp only [ofBits]
  by_cases negative : 0x80000000 ≤ bits.toNat
  all_goals
    split
    · simp [toBits, negative]
      omega
    · split
      · simp [toBits, negative]
        omega
      · omega

theorem same_ofBits_iff (a b : UInt32) :
    (ofBits a).Same (ofBits b) ↔ a = b ∨ (a.toNat % 0x80000000 = 0 ∧ b.toNat % 0x80000000 = 0) ∨
      (0x7F800000 < a.toNat % 0x80000000 ∧ 0x7F800000 < b.toNat % 0x80000000) := by
  rw [Same, isZero_ofBits, isZero_ofBits, ← ofBits_eq_nan_iff, ← ofBits_eq_nan_iff]
  have equal : ofBits a = ofBits b ↔ a = b ∨ (ofBits a = .nan ∧ ofBits b = .nan) := by
    constructor
    · intro same
      by_cases number : ofBits a = .nan
      · exact .inr ⟨number, same ▸ number⟩
      · left
        rw [← toBits_ofBits number, same, toBits_ofBits (same ▸ number)]
    · rintro (rfl | ⟨left, right⟩)
      · rfl
      · rw [left, right]
  rw [equal]
  tauto

end Single

namespace Constant

instance (a b : Constant) : Decidable (a.Same b) :=
  decidable_of_iff (a.key = b.key) (key_eq_iff a b)

def setoid : Setoid Constant where
  r := Same
  iseqv :=
    { refl := same_refl
      symm := fun {a b} same => (key_eq_iff b a).mp ((key_eq_iff a b).mpr same).symm
      trans := fun {a b c} first second =>
        (key_eq_iff a c).mp (((key_eq_iff a b).mpr first).trans ((key_eq_iff b c).mpr second)) }

end Constant

namespace Pool

def addAll (pool : Pool) : List Constant → List Nat × Pool
  | [] => ([], pool)
  | c :: rest => ((pool.add c).1 :: ((pool.add c).2.addAll rest).1, ((pool.add c).2.addAll rest).2)

theorem addAll_append (pool : Pool) (first second : List Constant) :
    pool.addAll (first ++ second) =
      ((pool.addAll first).1 ++ ((pool.addAll first).2.addAll second).1,
        ((pool.addAll first).2.addAll second).2) := by
  induction first generalizing pool with
  | nil => rfl
  | cons c rest ih => simp only [List.cons_append, addAll, ih]

theorem Sound.grown_addAll {pool : Pool} (sound : pool.Sound) (constants : List Constant) :
    pool.Grown (pool.addAll constants).2 constants := by
  induction constants generalizing pool with
  | nil => exact sound.grown_refl
  | cons c rest ih => exact (sound.grown_add c).trans (ih (sound.add c))

theorem Sound.addAll_found {pool : Pool} (sound : pool.Sound) (constants : List Constant) :
    List.Forall₂ (fun c place => ∃ held, (pool.addAll constants).2.get? place = some held ∧
      held.Same c) constants
      (pool.addAll constants).1 := by
  induction constants generalizing pool with
  | nil => exact .nil
  | cons c rest ih =>
    obtain ⟨held, found, same⟩ := sound.add_get? c
    exact .cons ⟨held, ((sound.add c).grown_addAll rest).grown.get? found, same⟩ (ih (sound.add c))

def Tight (pool : Pool) : Prop := pool.numbers.size + pool.strings.size = pool.size

theorem Tight.add {pool : Pool} (tight : pool.Tight) (c : Constant) : (pool.add c).2.Tight := by
  unfold Pool.add
  cases absent : pool.find? c with
  | some place => exact tight
  | none =>
    -- The constant is in no table yet, so its own one grows with the list.
    cases c with
    | number n =>
      have missing : pool.numbers.contains n.poolKey = false := by
        rwa [← Std.TreeMap.isSome_getElem?_eq_contains, Option.isSome_eq_false_iff,
          Option.isNone_iff_eq_none]
      simp only [Tight, push, size, Std.TreeMap.size_insert, missing, Bool.false_eq_true, if_false,
        Array.size_push] at tight ⊢
      omega
    | string s =>
      have missing : pool.strings.contains s = false := by
        rwa [← Std.TreeMap.isSome_getElem?_eq_contains, Option.isSome_eq_false_iff,
          Option.isNone_iff_eq_none]
      simp only [Tight, push, size, Std.TreeMap.size_insert, missing, Bool.false_eq_true, if_false,
        Array.size_push] at tight ⊢
      omega

theorem Tight.addAll {pool : Pool} (tight : pool.Tight) (constants : List Constant) :
    (pool.addAll constants).2.Tight := by
  induction constants generalizing pool with
  | nil => exact tight
  | cons c rest ih => exact ih (tight.add c)

/-- A pool takes in what it lacks, each constant at its first appearance. -/
theorem constants_addAll (pool : Pool) (constants : List Constant) :
    (pool.addAll constants).2.constants.toList = pool.constants.toList ++
      (constants.filter fun c => (pool.find? c).isNone).eraseDupsBy fun a b =>
        decide (a.Same b) := by
  induction constants generalizing pool with
  | nil => simp [addAll]
  | cons c rest ih =>
    rw [addAll, ih]
    cases found : pool.find? c with
    | some place => simp [Pool.add, found]
    | none =>
      have lacking : (fun d => ((pool.push c).find? d).isNone) =
          fun d => decide (decide (d.Same c) = false) && (pool.find? d).isNone := by
        funext d
        rw [push_find?]
        by_cases same : c.key = d.key
        · simp [same, (Constant.key_eq_iff d c).mp same.symm]
        · have differ : ¬ d.Same c := fun alike => same ((Constant.key_eq_iff d c).mpr alike).symm
          simp [same, differ]
      have pushed : (pool.push c).constants.toList = pool.constants.toList ++ [c] := by
        cases c <;> simp [push]
      simp [Pool.add, found, lacking, pushed, List.eraseDupsBy_cons, List.filter_filter]

theorem eraseDups_addAll (constants : List Constant) :
    (addAll {} constants).1.eraseDups = List.range (addAll {} constants).2.size := by
  induction constants using List.reverseRecOn with
  | nil => rfl
  | append_singleton before c ih =>
    have sound := (sound_empty.grown_addAll before).sound
    simp only [addAll_append, addAll]
    rw [List.eraseDups_append, ih]
    -- The places that came back so far are those below the size.
    have listed (place : Nat) : place ∈ (addAll {} before).1 ↔
      place < (addAll {} before).2.size := by
      rw [← List.mem_eraseDups, ih, List.mem_range]
    unfold Pool.add
    cases found : (addAll {} before).2.find? c with
    | some place =>
      obtain ⟨held, there, -⟩ := (sound c place).mp found
      simp [List.removeAll, (listed place).mpr (get?_lt there)]
    | none =>
      have fresh : (addAll {} before).2.constants.size ∉ (addAll {} before).1 := by
        rw [listed, size]
        exact Nat.lt_irrefl _
      have grown : ((addAll {} before).2.push c).size = (addAll {} before).2.size + 1 := by
        cases c <;> simp [push, size]
      rw [grown, List.range_succ]
      simp [List.removeAll, fresh, List.eraseDups_cons, size]

theorem mem_places_iff (constants : List Constant) (place : Nat) :
    place ∈ (addAll {} constants).1 ↔ place < (addAll {} constants).2.size := by
  rw [← List.mem_eraseDups, eraseDups_addAll, List.mem_range]

theorem keys_addAll (constants : List Constant) : (addAll {} constants).2.keys =
    keysOf constants := by
  have grown := sound_empty.grown_addAll constants
  apply Finset.Subset.antisymm
  · simpa [keys] using grown.keys_subset
  · intro key member
    simp only [keysOf, List.mem_toFinset, List.mem_map] at member
    obtain ⟨c, added, rfl⟩ := member
    obtain ⟨place, -, held, found, same⟩ :=
      forall₂_mem (sound_empty.addAll_found constants).flip added
    rw [get?_eq] at found
    simp only [keys, List.mem_toFinset, List.mem_map]
    exact ⟨held, List.mem_of_getElem? found, (Constant.key_eq_iff held c).mpr same⟩

theorem ncard_classes (constants : List Constant) :
    {kind | ∃ c ∈ constants, Quotient.mk Constant.setoid c = kind}.ncard =
      (keysOf constants).card := by
  let key : Quotient Constant.setoid → Nat ⊕ String :=
    Quotient.lift Constant.key fun a b same => (Constant.key_eq_iff a b).mpr same
  have injective : Function.Injective key := by
    intro first second
    induction first using Quotient.inductionOn
    induction second using Quotient.inductionOn
    intro same
    exact Quotient.sound ((Constant.key_eq_iff _ _).mp same)
  have image : key '' {kind | ∃ c ∈ constants, Quotient.mk Constant.setoid c = kind} =
    keysOf constants := by
    ext found
    simp [keysOf, key]
  rw [← Set.ncard_image_of_injective _ injective, image, Set.ncard_coe_finset]

structure Interned (constants : List Constant) (places : List Nat) (pool : Pool) : Prop where
  inverse : ∀ c place, pool.find? c = some place ↔ ∃ held, pool.get? place = some held ∧ held.Same c
  tight : pool.numbers.size + pool.strings.size = pool.size
  stable : ∀ more place c, pool.get? place = some c → (pool.addAll more).2.get? place = some c
  found : List.Forall₂ (fun c place => ∃ held, pool.get? place = some held ∧ held.Same c)
    constants places
  shared : ∀ c place d other, (c, place) ∈ constants.zip places →
    (d, other) ∈ constants.zip places →
    (place = other ↔ c.Same d)
  counted : places.eraseDups = List.range pool.size
  kept : pool.constants.toList = constants.eraseDupsBy fun a b => decide (a.Same b)
  distinct : pool.size = {kind | ∃ c ∈ constants, Quotient.mk Constant.setoid c = kind}.ncard
  -- A word of 32 bits holds every place, unless there are more distinct constants than words.
  fits : pool.size ≤ UInt32.size → ∀ place ∈ places, (UInt32.ofNat place).toNat = place

theorem Sound.place_eq_iff {pool : Pool} (sound : pool.Sound) {c d held kept : Constant}
    {place other : Nat} (found : pool.get? place = some held) (same : held.Same c)
    (found' : pool.get? other = some kept) (same' : kept.Same d) : place = other ↔ c.Same d := by
  constructor
  · rintro rfl
    rw [found] at found'
    cases found'
    exact Constant.setoid.trans (Constant.setoid.symm same) same'
  · intro equal
    have first := (sound d place).mpr ⟨held, found, Constant.setoid.trans same equal⟩
    have second := (sound d other).mpr ⟨kept, found', same'⟩
    rw [first] at second
    exact Option.some.inj second

/-- Whatever constants are added, tables and list of the pool say the same, a place once given keeps
its constant, and places number the distinct constants as they first appear. -/
theorem addAll_lawful (constants : List Constant) :
    Interned constants (addAll {} constants).1 (addAll {} constants).2 ∧
    (∀ a b : UInt32, Constant.Same (.number (.ofBits a)) (.number (.ofBits b)) ↔
      a = b ∨ (a.toNat % 0x80000000 = 0 ∧ b.toNat % 0x80000000 = 0) ∨
        (0x7F800000 < a.toNat % 0x80000000 ∧ 0x7F800000 < b.toNat % 0x80000000)) ∧
    (∀ s t, Constant.Same (.string s) (.string t) ↔ s = t) ∧
    ∀ n s, ¬ Constant.Same (.number n) (.string s) ∧ ¬ Constant.Same (.string s) (.number n) := by
  have grown := sound_empty.grown_addAll constants
  have found := sound_empty.addAll_found constants
  have tight : Tight {} := rfl
  refine ⟨?_, Single.same_ofBits_iff, fun _ _ => Iff.rfl, fun _ _ => ⟨id, id⟩⟩
  refine
    { inverse := grown.sound, tight := tight.addAll constants, stable := ?_, found, shared := ?_,
      counted := eraseDups_addAll constants, kept := ?_, distinct := ?_, fits := ?_ }
  · intro more place c held
    exact (grown.sound.grown_addAll more).grown.get? held
  · intro c place d other here there
    obtain ⟨-, pairs⟩ := List.forall₂_iff_zip.mp found
    obtain ⟨held, stands, same⟩ := pairs here
    obtain ⟨kept, stands', same'⟩ := pairs there
    exact grown.sound.place_eq_iff stands same stands' same'
  · have lacking : (fun c => (find? {} c).isNone) = fun _ => true := by
      funext c
      cases c <;> simp [find?]
    rw [constants_addAll, lacking, List.filter_true]
    rfl
  · rw [ncard_classes, ← keys_addAll, grown.sound.card_keys]
  · intro few place given
    exact UInt32.toNat_ofNat_of_lt'
      (Nat.lt_of_lt_of_le ((mem_places_iff constants place).mp given) few)

end Pool

end ProcLowering
