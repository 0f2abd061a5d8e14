import Mathlib.Data.List.Forall2

set_option autoImplicit false

namespace ProcLowering

variable {α β : Type}

theorem forall₂_mem {related : α → β → Prop} {first : List α} {second : List β}
    (pairs : List.Forall₂ related first second) {entry : β} (member : entry ∈ second) :
    ∃ partner ∈ first, related partner entry := by
  induction pairs with
  | nil => cases member
  | cons here _ ih =>
    rcases List.mem_cons.mp member with rfl | later
    · exact ⟨_, by simp, here⟩
    · obtain ⟨partner, inside, pair⟩ := ih later
      exact ⟨partner, by simp [inside], pair⟩

theorem forall₂_pairwise {related : α → β → Prop} {ordered : α → α → Prop} {sorted : β → β → Prop}
    (carries : ∀ {one other first second}, related one first → related other second →
      ordered one other →
      sorted first second) {left : List α} {right : List β}
        (pairs : List.Forall₂ related left right)
    (order : left.Pairwise ordered) : right.Pairwise sorted := by
  induction pairs with
  | nil => exact .nil
  | cons here others ih =>
    obtain ⟨front, behind⟩ := List.pairwise_cons.mp order
    refine List.pairwise_cons.mpr ⟨fun entry member => ?_, ih behind⟩
    obtain ⟨partner, inside, pair⟩ := forall₂_mem others member
    exact carries here pair (front partner inside)

theorem rel_getElem? {related : α → β → Prop} {first : List α} {second : List β}
    (pairs : List.Forall₂ related first second) (i : Nat) :
      Option.Rel related first[i]? second[i]? := by
  induction pairs generalizing i with
  | nil => simp
  | cons here _ ih =>
    cases i with
    | zero => exact .some here
    | succ i => simpa using ih i

theorem forall₂_filterMap {related : α → β → Prop} {first : List α} {second : List β}
    (pairs : List.Forall₂ related first second) (order : List Nat) :
    List.Forall₂ related (order.filterMap (first[·]?)) (order.filterMap (second[·]?)) := by
  have same : List.Forall₂ Eq order order := List.forall₂_refl order
  refine List.rel_filterMap (fun i j equal => ?_) same
  subst equal
  exact rel_getElem? pairs i

theorem filterMap_range (entries : List α) : (List.range entries.length).filterMap (entries[·]?) =
    entries := by
  induction entries with
  | nil => rfl
  | cons first rest ih =>
    simpa [List.range_succ_eq_map, List.filterMap_map, Function.comp_def] using ih

theorem perm_append_append {a b kept kept' rest rest' : List α} (first : a.Perm (kept ++ rest))
    (second : b.Perm (kept' ++ rest')) : (a ++ b).Perm ((kept ++ kept') ++ (rest ++ rest')) := by
  refine (first.append second).trans ?_
  rw [List.append_assoc, List.append_assoc]
  exact (List.perm_append_comm_assoc rest kept' rest').append_left kept

theorem getElem?_take (entries : Array α) (size i : Nat) :
    (entries.take size)[i]? = if i < size then entries[i]? else none := by
  simp only [Array.take_eq_extract, Array.getElem?_extract]
  grind

theorem take_modify (entries : Array α) (size i : Nat) (change : α → α) :
    (entries.modify i change).take size = (entries.take size).modify i change := by
  apply Array.ext_getElem?
  intro j
  simp only [getElem?_take, Array.getElem?_modify]
  split <;> split <;> simp

theorem map_modify {view : α → β} {change : α → α}
    (keeps : ∀ entry, view (change entry) = view entry) (entries : Array α) (i : Nat) :
    (entries.modify i change).map view = entries.map view := by
  ext j
  · simp
  · rw [Array.getElem_map, Array.getElem_map, Array.getElem_modify]
    split <;> simp [keeps]

theorem exists_of_map_eq {view : α → β} {before after : Array α}
    (same : after.map view = before.map view) {i : Nat} {entry : α}
    (found : after[i]? = some entry) : ∃ old, before[i]? = some old ∧ view old = view entry := by
  have there : (before.map view)[i]? = some (view entry) := by
    rw [← same, Array.getElem?_map, found, Option.map_some]
  rw [Array.getElem?_map] at there
  exact Option.map_eq_some_iff.mp there

theorem run_bind_eq_ok {σ ε : Type} {first : EStateM ε σ α} {next : α → EStateM ε σ β}
    {before after : σ} {result : β} (ran : (first >>= next).run before = .ok result after) :
    ∃ value middle, first.run before = .ok value middle ∧
      (next value).run middle = .ok result after := by
  rw [EStateM.run_bind] at ran
  cases done : first.run before with
  | error _ _ =>
    rw [done] at ran
    cases ran
  | ok value middle =>
    rw [done] at ran
    exact ⟨value, middle, rfl, ran⟩

theorem except_bind_ok {ε : Type} {first : Except ε α} {next : α → Except ε β} {result : β}
    (done : first >>= next = .ok result) : ∃ middle, first = .ok middle ∧
      next middle = .ok result := by
  cases first with
  | error _ => cases done
  | ok middle => exact ⟨middle, rfl, done⟩

theorem map_bind_congr {ε γ δ : Type} {view : α → γ} {look : β → δ} {a b : Except ε α}
    {next after : α → Except ε β} (same : a.map view = b.map view)
    (keeps : ∀ x y, view x = view y → (next x).map look = (after y).map look) :
    (a >>= next).map look = (b >>= after).map look := by
  cases a with
  | error fault =>
    cases b with
    | error other =>
      cases same
      rfl
    | ok y => cases same
  | ok x =>
    cases b with
    | error other => cases same
    | ok y => exact keeps x y (Except.ok.inj same)

end ProcLowering
