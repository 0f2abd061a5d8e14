import Mathlib.Data.Finset.Card
import Mathlib.Data.List.Nodup
import ProcLowering.Code.Constant

set_option autoImplicit false

namespace ProcLowering

def Single.Same (a b : Single) : Prop := a = b ∨ (a.isZero = true ∧ b.isZero = true)

theorem Single.toBits_injective {a b : Single} (same : a.toBits = b.toBits) : a = b := by
  have bits := congrArg UInt32.toNat same
  cases a with
  | nan =>
    cases b with
    | nan => rfl
    | infinite t => cases t <;> simp [toBits] at bits
    | finite t rank =>
      have bound := rank.isLt
      cases t <;> simp [toBits] at bits <;> omega
  | infinite s =>
    cases b with
    | nan => cases s <;> simp [toBits] at bits
    | infinite t => cases s <;> cases t <;> simp [toBits] at bits <;> rfl
    | finite t rank =>
      have bound := rank.isLt
      cases s <;> cases t <;> simp [toBits] at bits <;> omega
  | finite s rank =>
    have left := rank.isLt
    cases b with
    | nan => cases s <;> simp [toBits] at bits <;> omega
    | infinite t => cases s <;> cases t <;> simp [toBits] at bits <;> omega
    | finite t other =>
      have right := other.isLt
      have equal : s = t ∧ rank.val = other.val := by
        cases s <;> cases t <;> simp [toBits] at bits <;> simp <;> omega
      rw [equal.1, Fin.ext equal.2]

theorem Single.toBits_eq_zero {n : Single} (zero : n.toBits.toNat = 0) : n.isZero = true := by
  cases n with
  | nan => simp [toBits] at zero
  | infinite s => cases s <;> simp [toBits] at zero
  | finite s rank =>
    have bound := rank.isLt
    cases s <;> simp [toBits] at zero <;> simp [isZero] <;> omega

theorem Single.poolKey_eq_iff (a b : Single) : a.poolKey = b.poolKey ↔ a.Same b := by
  unfold poolKey Same
  by_cases left : a.isZero = true <;> by_cases right : b.isZero = true
  · simp [left, right]
  · have nonzero : b.toBits.toNat ≠ 0 := fun zero => right (toBits_eq_zero zero)
    have differ : a ≠ b := fun same => right (same ▸ left)
    simp [left, right, differ, nonzero.symm]
  · have nonzero : a.toBits.toNat ≠ 0 := fun zero => left (toBits_eq_zero zero)
    have differ : a ≠ b := fun same => left (same ▸ right)
    simp [left, right, differ, nonzero]
  · simp only [left, right, Bool.false_eq_true, if_false, and_self, or_false]
    exact ⟨fun same => toBits_injective (UInt32.toNat_inj.mp same), fun same => by rw [same]⟩

namespace Constant

def Same : Constant → Constant → Prop
  | .number a, .number b => a.Same b
  | .string a, .string b => a = b
  | _, _ => False

def key : Constant → Nat ⊕ String
  | .number n => .inl n.poolKey
  | .string s => .inr s

theorem key_eq_iff (a b : Constant) : a.key = b.key ↔ a.Same b := by
  cases a <;> cases b <;> simp [key, Same, Single.poolKey_eq_iff]

theorem same_refl (c : Constant) : c.Same c := (key_eq_iff c c).mp rfl

theorem Same.eq_string {c : Constant} {s : String} (same : c.Same (.string s)) : c = .string s := by
  cases c <;> simp_all [Same]

end Constant

namespace Pool

/-- The place of every constant is where the pool finds it, and nowhere else. -/
def Sound (pool : Pool) : Prop :=
  ∀ c place, pool.find? c = some place ↔ ∃ held, pool.get? place = some held ∧ held.Same c

def Extends (pool later : Pool) : Prop := ∃ more, later.constants.toList =
    pool.constants.toList ++ more

theorem extends_refl (pool : Pool) : pool.Extends pool := ⟨[], by simp⟩

theorem Extends.trans {a b c : Pool} (first : a.Extends b) (second : b.Extends c) :
    a.Extends c := by
  obtain ⟨x, hx⟩ := first
  obtain ⟨y, hy⟩ := second
  exact ⟨x ++ y, by rw [hy, hx, List.append_assoc]⟩

theorem get?_eq (pool : Pool) (place : Nat) : pool.get? place = pool.constants.toList[place]? := by
  simp [get?]

theorem Extends.get? {pool later : Pool} (grown : pool.Extends later) {place : Nat} {c : Constant}
    (held : pool.get? place = some c) : later.get? place = some c := by
  obtain ⟨more, grown⟩ := grown
  rw [get?_eq] at held ⊢
  rw [grown, List.getElem?_append_left (List.getElem?_eq_some_iff.mp held).1, held]

theorem get?_lt {pool : Pool} {place : Nat} {c : Constant} (held : pool.get? place = some c) :
    place < pool.size := by
  simpa [size] using (Array.getElem?_eq_some_iff.mp held).1

theorem sound_empty : Sound {} := by
  intro c place
  cases c <;> simp [find?, get?]

theorem push_get? (pool : Pool) (c : Constant) (place : Nat) :
    (pool.push c).get? place = if place = pool.size then some c else pool.get? place := by
  cases c <;> simp only [push, get?, size, Array.getElem?_push] <;> rfl

theorem push_find? (pool : Pool) (c other : Constant) :
    (pool.push c).find? other = if c.key = other.key then some pool.size else pool.find? other := by
  cases c <;> cases other <;>
    simp [push, find?, size, Constant.key, Std.TreeMap.getElem?_insert]

theorem Sound.push {pool : Pool} (sound : pool.Sound) {c : Constant}
    (absent : pool.find? c = none) :
    (pool.push c).Sound := by
  have fresh (place : Nat) (held : Constant) (found : pool.get? place = some held) :
      held.key ≠ c.key := by
    intro same
    have present := (sound c place).mpr ⟨held, found, (Constant.key_eq_iff _ _).mp same⟩
    simp [absent] at present
  intro other place
  rw [push_find?, push_get?]
  by_cases same : c.key = other.key
  · by_cases last : place = pool.size
    · simp [same, last, (Constant.key_eq_iff c other).mp same]
    · simp only [same, if_true, last, if_false, Option.some.injEq]
      constructor
      · intro equal
        exact absurd equal.symm last
      · rintro ⟨held, found, alike⟩
        exact absurd (((Constant.key_eq_iff _ _).mpr alike).trans same.symm)
          (fresh place held found)
  · by_cases last : place = pool.size
    · subst last
      have outside : pool.find? other ≠ some pool.size := by
        intro found
        obtain ⟨held, present, -⟩ := (sound other pool.size).mp found
        exact Nat.lt_irrefl _ (get?_lt present)
      have differ : ¬ c.Same other := fun alike => same ((Constant.key_eq_iff _ _).mpr alike)
      simp [same, outside, differ]
    · simpa [same, last] using sound other place

theorem push_extends (pool : Pool) (c : Constant) : pool.Extends (pool.push c) :=
  ⟨[c], by cases c <;> simp [push]⟩

theorem add_extends (pool : Pool) (c : Constant) : pool.Extends (pool.add c).2 := by
  unfold add
  cases pool.find? c with
  | some place => exact extends_refl pool
  | none => exact push_extends pool c

theorem Sound.add {pool : Pool} (sound : pool.Sound) (c : Constant) : (pool.add c).2.Sound := by
  unfold Pool.add
  cases found : pool.find? c with
  | some place => exact sound
  | none => exact sound.push found

theorem Sound.add_get? {pool : Pool} (sound : pool.Sound) (c : Constant) :
    ∃ held, (pool.add c).2.get? (pool.add c).1 = some held ∧ held.Same c := by
  unfold Pool.add
  cases found : pool.find? c with
  | some place => exact (sound c place).mp found
  | none => exact ⟨c, by simp [push_get?, size], c.same_refl⟩

def keys (pool : Pool) : Finset (Nat ⊕ String) := (pool.constants.toList.map Constant.key).toFinset

theorem Sound.card_keys {pool : Pool} (sound : pool.Sound) : pool.keys.card = pool.size := by
  have distinct : (pool.constants.toList.map Constant.key).Nodup := by
    rw [List.nodup_iff_getElem?_ne_getElem?]
    intro i j less inside equal
    rw [List.length_map] at inside
    have later : pool.get? j = some (pool.constants.toList[j]) := by
      rw [get?_eq, List.getElem?_eq_getElem inside]
    have earlier : pool.get? i = some (pool.constants.toList[i]) := by
      rw [get?_eq, List.getElem?_eq_getElem (by omega)]
    have key : (pool.constants.toList[i]).key = (pool.constants.toList[j]).key := by
      simpa [List.getElem?_map, List.getElem?_eq_getElem inside,
        List.getElem?_eq_getElem (show i < pool.constants.toList.length by omega)] using equal
    have first := (sound _ i).mpr ⟨_, earlier, Constant.same_refl _⟩
    have second := (sound _ j).mpr ⟨_, later, (Constant.key_eq_iff _ _).mp key.symm⟩
    rw [first] at second
    exact absurd (Option.some.inj second) (by omega)
  rw [keys, List.toFinset_card_of_nodup distinct]
  simp [size]

def keysOf (constants : List Constant) : Finset (Nat ⊕ String) :=
  (constants.map Constant.key).toFinset

/-- A pool to which at most the given constants were added. -/
structure Grown (pool later : Pool) (constants : List Constant) : Prop where
  sound : later.Sound
  grown : pool.Extends later
  keys_subset : later.keys ⊆ pool.keys ∪ keysOf constants

theorem Sound.grown_refl {pool : Pool} (sound : pool.Sound) : pool.Grown pool [] :=
  ⟨sound, extends_refl pool, Finset.subset_union_left⟩

theorem Grown.trans {a b c : Pool} {first second : List Constant} (head : a.Grown b first)
    (tail : b.Grown c second) : a.Grown c (first ++ second) := by
  refine ⟨tail.sound, head.grown.trans tail.grown, ?_⟩
  intro key member
  have later := tail.keys_subset member
  have earlier := @head.keys_subset key
  simp only [Finset.mem_union, keysOf, List.map_append, List.toFinset_append] at later earlier ⊢
  tauto

theorem Grown.widen {pool later : Pool} {constants : List Constant}
    (grown : pool.Grown later constants) (more : List Constant) :
    pool.Grown later (constants ++ more) := by
  refine ⟨grown.sound, grown.grown, grown.keys_subset.trans (Finset.union_subset_union_right ?_)⟩
  intro key member
  simp only [keysOf, List.map_append, List.toFinset_append, Finset.mem_union]
  exact Or.inl member

theorem Sound.grown_add {pool : Pool} (sound : pool.Sound) (c : Constant) :
    pool.Grown (pool.add c).2 [c] := by
  refine ⟨sound.add c, pool.add_extends c, ?_⟩
  unfold Pool.add
  cases pool.find? c with
  | some place => exact Finset.subset_union_left
  | none => cases c <;> simp [keys, keysOf, Pool.push]

end Pool

end ProcLowering
