import Mathlib.Data.Fintype.Card
import ProcLowering.Proofs.Outcome

set_option autoImplicit false

namespace ProcLowering

theorem TypeId.index_injective {a b : TypeId} (same : a.index = b.index) : a = b := by
  cases a
  cases b
  exact congrArg TypeId.mk (UInt32.toNat_inj.mp same)

theorem TypeId.getElem?_modify (types : Array TypeRecord) (change : TypeRecord → TypeRecord)
    (type id : TypeId) :
    (types.modify type.index change)[id.index]? =
      types[id.index]?.map fun record => if id = type then change record else record := by
  rw [Array.getElem?_modify]
  by_cases same : id = type
  · simp [same]
  · have apart : type.index ≠ id.index := fun equal => same (TypeId.index_injective equal.symm)
    simp [same, apart]

namespace ObjectTree

def parent? (tree : ObjectTree) (id : TypeId) : Option TypeId := (tree.type? id).bind (·.parent)

/-- Zero or more links to parents lead from the first type to the second. -/
def Descends (tree : ObjectTree) : TypeId → TypeId → Prop :=
  Relation.ReflTransGen fun id above => tree.parent? id = some above

inductive Depth (tree : ObjectTree) : TypeId → Nat → Prop
  | root (known : TypeId.root.index < tree.types.size) (top : tree.parent? .root = none) :
      Depth tree .root 0
  | under {id parent : TypeId} {depth : Nat} (link : tree.parent? id = some parent)
      (above : Depth tree parent depth) :
      Depth tree id (depth + 1)

structure Rooted (tree : ObjectTree) : Prop where
  ids : ∀ (i : Nat) (record : TypeRecord), tree.types[i]? = some record → record.id.index = i
  depth : ∀ id : TypeId, id.index < tree.types.size → ∃ depth, tree.Depth id depth

theorem known_of_type? {tree : ObjectTree} {id : TypeId} {record : TypeRecord}
    (found : tree.type? id = some record) :
    id.index < tree.types.size := (Array.getElem?_eq_some_iff.mp found).1

theorem exists_type? {tree : ObjectTree} {id : TypeId} (known : id.index < tree.types.size) :
    ∃ record, tree.type? id = some record := ⟨_, Array.getElem?_eq_getElem known⟩

theorem known_of_parent? {tree : ObjectTree} {id parent : TypeId}
    (link : tree.parent? id = some parent) :
    id.index < tree.types.size := by
  obtain ⟨record, found, -⟩ := Option.bind_eq_some_iff.mp link
  exact known_of_type? found

theorem isSubtype_iff_of_known {tree : ObjectTree} {type ancestor : TypeId} {above : Prop}
    (known : ∀ record upper, tree.type? type = some record → tree.type? ancestor = some upper →
      (tree.isSubtype type ancestor = true ↔ above)) :
    tree.isSubtype type ancestor = true ↔
      type.index < tree.types.size ∧ ancestor.index < tree.types.size ∧ above := by
  have unknown (id : TypeId) (missing : tree.type? id = none) : ¬ id.index < tree.types.size := by
    simpa [type?] using missing
  cases found : tree.type? type with
  | none => simp [isSubtype, found, unknown type found]
  | some record =>
    cases found' : tree.type? ancestor with
    | none => simp [isSubtype, found, found', unknown ancestor found']
    | some upper =>
      simp [known record upper found found', known_of_type? found, known_of_type? found']

section

variable {tree : ObjectTree} {id : TypeId} {depth : Nat}

theorem Depth.known (here : tree.Depth id depth) : id.index < tree.types.size := by
  cases here with
  | root known => exact known
  | under link => exact known_of_parent? link

theorem Depth.unique (here : tree.Depth id depth) {other : Nat} (there : tree.Depth id other) :
    depth = other := by
  induction here generalizing other with
  | root known top =>
    cases there with
    | root => rfl
    | under link => rw [top] at link; cases link
  | under link above ih =>
    cases there with
    | root known top => rw [top] at link; cases link
    | under link' above' =>
      rw [link] at link'
      cases link'
      exact congrArg (· + 1) (ih above')

theorem Depth.up (here : tree.Depth id depth) {less : Nat} (le : less ≤ depth) :
    ∃ above, tree.Depth above less := by
  induction here with
  | root known top =>
    obtain rfl : less = 0 := by omega
    exact ⟨_, .root known top⟩
  | @under _ _ depth link above ih =>
    by_cases last : less = depth + 1
    · exact ⟨_, last ▸ Depth.under link above⟩
    · exact ih (by omega)

theorem Depth.lt_size (here : tree.Depth id depth) : depth < tree.types.size := by
  -- Along the chain of parents all depths differ, so there are as many types.
  have ancestor (i : Fin (depth + 1)) : ∃ above, tree.Depth above i.val := here.up (by omega)
  choose above reached using ancestor
  have injective :
      Function.Injective fun i => (⟨(above i).index, (reached i).known⟩ : Fin tree.types.size) := by
    intro i j same
    have together : above i = above j := TypeId.index_injective (Fin.mk.inj same)
    exact Fin.ext ((reached i).unique (together ▸ reached j))
  have count := Fintype.card_le_of_injective _ injective
  rwa [Fintype.card_fin, Fintype.card_fin] at count

theorem Descends.depth_le {above : TypeId} (descends : tree.Descends id above)
    (here : tree.Depth id depth) :
    ∃ less, tree.Depth above less ∧ less ≤ depth ∧ (less = depth → id = above) := by
  induction descends with
  | refl => exact ⟨depth, here, Nat.le_refl _, fun _ => rfl⟩
  | tail _ link ih =>
    obtain ⟨less, there, le, -⟩ := ih
    cases there with
    | root known top => rw [top] at link; cases link
    | @under _ _ less link' above' =>
      rw [link] at link'
      cases link'
      exact ⟨less, above', by omega, by omega⟩

theorem Depth.descends_root (here : tree.Depth id depth) : tree.Descends id .root := by
  induction here with
  | root => exact .refl
  | under link _ ih => exact .head link ih

theorem Depth.mono {later : ObjectTree} (here : tree.Depth id depth)
    (size : tree.types.size ≤ later.types.size) (same : ∀ id : TypeId, id.index < tree.types.size →
    later.parent? id = tree.parent? id) :
    later.Depth id depth := by
  induction here with
  | root known top => exact .root (Nat.lt_of_lt_of_le known size) ((same _ known).trans top)
  | under link _ ih => exact .under ((same _ (known_of_parent? link)).trans link) ih

theorem climb_none (fuel : Nat) : tree.climb fuel none = [] := by
  cases fuel <;> rfl

theorem climb_cons {record : TypeRecord} (found : tree.type? id = some record) (fuel : Nat) :
    tree.climb (fuel + 1) (some id) = record :: tree.climb fuel record.parent := by
  rw [climb, found]

theorem Depth.climb_stable (here : tree.Depth id depth) {fuel more : Nat} (enough : depth < fuel)
    (ample : depth < more) :
    tree.climb fuel (some id) = tree.climb more (some id) := by
  obtain ⟨fuel, rfl⟩ : ∃ less, fuel = less + 1 := ⟨fuel - 1, by omega⟩
  obtain ⟨more, rfl⟩ : ∃ less, more = less + 1 := ⟨more - 1, by omega⟩
  obtain ⟨record, found⟩ := exists_type? here.known
  rw [climb_cons found, climb_cons found]
  induction here generalizing fuel more record with
  | root known top =>
    have none : record.parent = none := by simpa [parent?, found] using top
    rw [none, climb_none, climb_none]
  | @under id parent depth link above ih =>
    have some : record.parent = some parent := by simpa [parent?, found] using link
    obtain ⟨fuel, rfl⟩ : ∃ less, fuel = less + 1 := ⟨fuel - 1, by omega⟩
    obtain ⟨more, rfl⟩ : ∃ less, more = less + 1 := ⟨more - 1, by omega⟩
    obtain ⟨next, there⟩ := exists_type? above.known
    rw [some, climb_cons there, climb_cons there, ih fuel (by omega) more (by omega) next there]

end

namespace Rooted

variable {tree : ObjectTree} {id : TypeId} {record : TypeRecord}

theorem id_eq (rooted : tree.Rooted) (found : tree.type? id = some record) : record.id = id :=
  TypeId.index_injective (rooted.ids id.index record found)

theorem lineage_eq (rooted : tree.Rooted) (found : tree.type? id = some record) :
    tree.lineage id = record :: record.parent.elim [] tree.lineage := by
  obtain ⟨depth, here⟩ := rooted.depth id (known_of_type? found)
  have bound := here.lt_size
  have steps : tree.lineage id = tree.climb (tree.types.size + 1) (some id) :=
    here.climb_stable bound (by omega)
  rw [steps, climb_cons found]
  cases record.parent with
  | none => rw [climb_none, Option.elim_none]
  | some parent => rfl

theorem lineageOf_eq (rooted : tree.Rooted) (found : tree.type? id = some record) :
    tree.lineageOf record = tree.lineage id := by
  rw [rooted.lineage_eq found, lineageOf]
  cases record.parent with
  | none => rw [climb_none, Option.elim_none]
  | some parent => rfl

theorem mem_lineage_step (rooted : tree.Rooted) (known : id.index < tree.types.size) :
    record ∈ tree.lineage id ↔ (id = record.id ∧ tree.type? record.id = some record) ∨
      ∃ parent, tree.parent? id = some parent ∧ record ∈ tree.lineage parent := by
  obtain ⟨first, found⟩ := exists_type? known
  have itself : record = first ↔ id = record.id ∧ tree.type? record.id = some record := by
    constructor
    · rintro rfl
      exact ⟨(rooted.id_eq found).symm, (rooted.id_eq found).symm ▸ found⟩
    · rintro ⟨rfl, there⟩
      exact Option.some.inj (there.symm.trans found)
  rw [rooted.lineage_eq found, List.mem_cons, itself, parent?, found, Option.bind_some]
  cases first.parent <;> simp

theorem mem_lineage (rooted : tree.Rooted) (known : id.index < tree.types.size) :
    record ∈ tree.lineage id ↔ tree.Descends id record.id ∧ tree.type? record.id = some record := by
  obtain ⟨depth, here⟩ := rooted.depth id known
  induction here with
  | root known top =>
    rw [rooted.mem_lineage_step known, Descends, Relation.ReflTransGen.cases_head_iff, top]
    simp
  | under link above ih =>
    rw [rooted.mem_lineage_step known, Descends, Relation.ReflTransGen.cases_head_iff, link]
    simp [ih above.known, Descends, or_and_right]

theorem descends_known (rooted : tree.Rooted) {above : TypeId} (known : id.index < tree.types.size)
    (descends : tree.Descends id above) : above.index < tree.types.size := by
  obtain ⟨depth, here⟩ := rooted.depth id known
  obtain ⟨_, there, -⟩ := descends.depth_le here
  exact there.known

theorem isSubtype_iff (rooted : tree.Rooted) (unfinished : tree.finalized = false)
    (type ancestor : TypeId) :
    tree.isSubtype type ancestor = true ↔
      type.index < tree.types.size ∧ ancestor.index < tree.types.size ∧
        tree.Descends type ancestor := by
  apply isSubtype_iff_of_known
  intro record upper found found'
  simp only [isSubtype, found, found', unfinished, Bool.false_eq_true, if_false,
    List.any_eq_true, beq_iff_eq]
  constructor
  · rintro ⟨member, inside, rfl⟩
    exact ((rooted.mem_lineage (known_of_type? found)).mp inside).1
  · intro descends
    have same := rooted.id_eq found'
    exact ⟨upper, (rooted.mem_lineage (known_of_type? found)).mpr
      ⟨same.symm ▸ descends, same.symm ▸ found'⟩, same⟩

end Rooted

def skeleton (tree : ObjectTree) : Array (TypeId × Option TypeId) :=
  tree.types.map fun record => (record.id, record.parent)

section

variable {tree later : ObjectTree} {type : TypeId}

theorem size_skeleton (tree : ObjectTree) : tree.skeleton.size = tree.types.size :=
  Array.size_map ..

theorem parent?_congr (same : later.skeleton = tree.skeleton) (id : TypeId) :
    later.parent? id = tree.parent? id := by
  have links (tree : ObjectTree) : tree.parent? id = tree.skeleton[id.index]?.bind (·.2) := by
    simp [skeleton, parent?, type?, Option.bind_map]
  rw [links, links, same]

theorem ids_congr (same : later.types.map (·.id) = tree.types.map (·.id))
    (rooted : tree.Rooted) (i : Nat) (record : TypeRecord) (found : later.types[i]? = some record) :
    record.id.index = i := by
  have there : (tree.types.map (·.id))[i]? = some record.id := by
    rw [← same, Array.getElem?_map, found, Option.map_some]
  rw [Array.getElem?_map] at there
  obtain ⟨old, found', same'⟩ := Option.map_eq_some_iff.mp there
  exact same' ▸ rooted.ids i old found'

theorem Rooted.congr (rooted : tree.Rooted) (same : later.skeleton = tree.skeleton) :
    later.Rooted := by
  have size : later.types.size = tree.types.size := by rw [← size_skeleton, same, size_skeleton]
  refine ⟨ids_congr ?_ rooted, ?_⟩
  · simpa [skeleton, Function.comp_def] using congrArg (·.map Prod.fst) same
  · intro id known
    obtain ⟨depth, here⟩ := rooted.depth id (size ▸ known)
    exact ⟨depth, here.mono (Nat.le_of_eq size.symm) fun id _ => parent?_congr same id⟩

theorem rooted_empty : Rooted .empty := by
  have only (i : Nat) (inside : i < empty.types.size) : i = 0 := by simpa [empty] using inside
  refine ⟨?_, ?_⟩
  · intro i record found
    obtain rfl := only i (Array.getElem?_eq_some_iff.mp found).1
    cases found
    rfl
  · intro id known
    obtain rfl : id = .root := TypeId.index_injective (only id.index known)
    exact ⟨0, .root known rfl⟩

theorem Rooted.withType (rooted : tree.Rooted) {parent : TypeId} {record : TypeRecord}
    (path : TypePath) (found : tree.type? parent = some record)
    (few : tree.types.size < UInt32.size) :
    (tree.withType record path).Rooted := by
  have place : (TypeId.ofIndex tree.types.size).index = tree.types.size := by
    rw [TypeId.ofIndex, TypeId.index, UInt32.toNat_ofNat_of_lt' few]
  have old (id : TypeId) (known : id.index < tree.types.size) :
      (tree.withType record path).parent? id = tree.parent? id := by
    simp [parent?, type?, ObjectTree.withType, Array.getElem?_push, Nat.ne_of_lt known]
  have new : (tree.withType record path).parent? (.ofIndex tree.types.size) = some parent := by
    simp [parent?, type?, ObjectTree.withType, place, TypeRecord.under, rooted.id_eq found]
  have grown : tree.types.size ≤ (tree.withType record path).types.size := by
    simp [ObjectTree.withType]
  refine ⟨?_, ?_⟩
  · intro i other there
    rw [ObjectTree.withType, Array.getElem?_push] at there
    split at there
    · rename_i last
      cases there
      exact place.trans last.symm
    · exact rooted.ids i other there
  · intro id known
    by_cases before : id.index < tree.types.size
    · obtain ⟨depth, here⟩ := rooted.depth id before
      exact ⟨depth, here.mono grown old⟩
    · have last : id = .ofIndex tree.types.size := by
        apply TypeId.index_injective
        simp [ObjectTree.withType] at known
        omega
      obtain ⟨depth, above⟩ := rooted.depth parent (known_of_type? found)
      exact ⟨depth + 1, last ▸ .under new (above.mono grown old)⟩

theorem parent?_reparented (known : type.index < tree.types.size) (parent id : TypeId) :
    (tree.reparented type parent).parent? id = if id = type then some parent
      else tree.parent? id := by
  simp only [parent?, type?, reparented, Array.getElem?_modify]
  by_cases same : id = type
  · subst same
    simp [known]
  · have apart : type.index ≠ id.index := fun equal => same (TypeId.index_injective equal.symm)
    simp [same, apart]

theorem Rooted.reparented (rooted : tree.Rooted) {parent : TypeId}
    (movable : tree.Movable type parent) :
    (tree.reparented type parent).Rooted := by
  obtain ⟨unfinished, inner, known, above, apart⟩ := movable
  have size : (tree.reparented type parent).types.size = tree.types.size := by
    simp [ObjectTree.reparented]
  have other (id : TypeId) (different : id ≠ type) : (tree.reparented type parent).parent? id =
    tree.parent? id := by
    rw [parent?_reparented known, if_neg different]
  have moved : (tree.reparented type parent).parent? type = some parent := by
    rw [parent?_reparented known, if_pos rfl]
  -- The new parent is not below the type, so its chain to the root is as before.
  have outside (id : TypeId) (depth : Nat) (here : tree.Depth id depth)
      (free : ¬ tree.Descends id type) :
      (tree.reparented type parent).Depth id depth := by
    induction here with
    | root known top => exact .root (size ▸ known) ((other _ inner.symm).trans top)
    | @under id _ _ link _ ih =>
      have different : id ≠ type := fun same => free (same ▸ .refl)
      exact .under ((other id different).trans link) (ih fun descends => free (.head link descends))
  have free : ¬ tree.Descends parent type := by
    intro descends
    have below := (rooted.isSubtype_iff unfinished parent type).mpr ⟨above, known, descends⟩
    rw [apart] at below
    cases below
  obtain ⟨height, there⟩ := rooted.depth parent above
  have top := Depth.under moved (outside parent height there free)
  have ids : (tree.reparented type parent).types.map (·.id) = tree.types.map (·.id) := by
    rw [ObjectTree.reparented, map_modify]
    intro record
    rfl
  refine ⟨ids_congr ids rooted, ?_⟩
  -- What is below the type reaches the root through it, and the rest as before.
  intro id inside
  obtain ⟨depth, here⟩ := rooted.depth id (size ▸ inside)
  induction here with
  | root known rootless => exact ⟨0, .root (size ▸ known) ((other _ inner.symm).trans rootless)⟩
  | @under id _ _ link above ih =>
    by_cases same : id = type
    · rw [same]
      exact ⟨_, top⟩
    · obtain ⟨depth, there⟩ := ih (size ▸ above.known)
      exact ⟨depth + 1, .under ((other id same).trans link) there⟩

theorem Change.rooted (change : Change tree later) (rooted : tree.Rooted)
    (few : later.types.size < UInt32.size) :
    later.Rooted := by
  obtain ⟨op, change⟩ := change
  cases change with
  | declare _ gains =>
    obtain ⟨unfinished, fresh, named, found⟩ := gains
    refine rooted.withType _ found ?_
    simp only [withType, Array.size_push] at few
    omega
  | reparent movable => exact rooted.reparented movable
  | finish =>
    exact rooted.congr
      (map_finished _ (fun _ _ => rfl) (fun _ _ => rfl) (fun _ _ => rfl) (fun _ _ => rfl) tree)
  | register => exact rooted.congr (map_linked _ (fun _ _ => rfl) (fun _ _ => rfl) _ _)
  | assign => exact rooted.congr (map_withVariable _ (fun _ _ => rfl) _ _ _ _)
  | static => exact rooted.congr (map_withStatic _ (fun _ _ => rfl) _ _ _)
  | verb => exact rooted.congr (map_withVerb _ (fun _ _ => rfl) _ _ _)
  | allocate | publish | params | mark => exact rooted.congr rfl

end

theorem Reachable.rooted {tree : ObjectTree} (reachable : tree.Reachable)
    (few : tree.types.size < UInt32.size) :
    tree.Rooted := by
  have step (tree later : ObjectTree) (change : Change tree later)
      (rooted : tree.types.size < UInt32.size → tree.Rooted)
      (few : later.types.size < UInt32.size) : later.Rooted :=
    change.rooted (rooted (Nat.lt_of_le_of_lt change.grows.types few)) few
  exact reachable.changes.invariant step (fun _ => rooted_empty) few

end ObjectTree

end ProcLowering
