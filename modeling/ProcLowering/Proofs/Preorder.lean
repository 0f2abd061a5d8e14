import Mathlib.Data.List.Nodup
import Mathlib.Data.Set.Card
import ProcLowering.Proofs.Hierarchy

set_option autoImplicit false

namespace ProcLowering

namespace ObjectTree

def visits (tree : ObjectTree) : Nat → TypeId → List TypeId
  | 0, _ => []
  | fuel + 1, id => id :: (tree.children id).toList.flatMap (tree.visits fuel)

def subtree (tree : ObjectTree) (id : TypeId) : List TypeId := tree.visits tree.types.size id

def number (tree : ObjectTree) : Nat → TypeId → Numbering → Numbering
  | 0, _, numbering => numbering
  | fuel + 1, id, { types, next } =>
    let entered := types.modify id.index fun record => { record with index := UInt32.ofNat next }
    let below := (tree.children id).foldl (fun numbering child => tree.number fuel child numbering)
      { types := entered, next := next + 1 }
    let descendants := UInt32.ofNat (below.next - next - 1)
    { below with types := below.types.modify id.index fun record => { record with descendants } }

def numberAll (tree : ObjectTree) (id : TypeId) (numbering : Numbering) : Numbering :=
  tree.number tree.types.size id numbering

theorem mem_children_of_record {tree : ObjectTree} {id : TypeId} {record : TypeRecord}
    (member : record ∈ tree.types) (parent : record.parent = some id) :
    record.id ∈ (tree.children id).toList := by
  simp only [children, Array.toList_filterMap, List.mem_filterMap, Array.mem_toList_iff]
  exact ⟨record, member, if_pos parent⟩

namespace Rooted

variable {tree : ObjectTree} {id : TypeId}

theorem index_ids (rooted : tree.Rooted) :
    (tree.types.toList.map (·.id)).map TypeId.index = List.range tree.types.size := by
  apply List.ext_getElem
  · simp
  · intro i inside _
    have known : i < tree.types.size := by simpa using inside
    simpa using rooted.ids i tree.types[i] (Array.getElem?_eq_getElem known)

theorem nodup_ids (rooted : tree.Rooted) : (tree.types.toList.map (·.id)).Nodup :=
  List.Nodup.of_map TypeId.index (rooted.index_ids ▸ List.nodup_range)

theorem mem_ids (rooted : tree.Rooted) : id ∈ tree.types.toList.map (·.id) ↔
    id.index < tree.types.size := by
  rw [← List.mem_range, ← rooted.index_ids]
  exact (List.mem_map_of_injective fun _ _ => TypeId.index_injective).symm

theorem type?_of_mem (rooted : tree.Rooted) {record : TypeRecord} (member : record ∈ tree.types) :
    tree.type? record.id = some record := by
  obtain ⟨i, found⟩ := Array.mem_iff_getElem?.mp member
  rw [type?, rooted.ids i record found, found]

theorem mem_children (rooted : tree.Rooted) {child : TypeId} :
    child ∈ (tree.children id).toList ↔ tree.parent? child = some id := by
  constructor
  · intro member
    simp only [children, Array.toList_filterMap, List.mem_filterMap, Array.mem_toList_iff,
      Option.ite_none_right_eq_some, Option.some.injEq] at member
    obtain ⟨record, member, parent, rfl⟩ := member
    rw [parent?, rooted.type?_of_mem member, Option.bind_some, parent]
  · intro link
    obtain ⟨record, found, parent⟩ := Option.bind_eq_some_iff.mp link
    exact rooted.id_eq found ▸ mem_children_of_record (Array.mem_of_getElem? found) parent

theorem nodup_children (rooted : tree.Rooted) (id : TypeId) : (tree.children id).toList.Nodup := by
  have distinct := List.pairwise_map.mp rooted.nodup_ids
  rw [children, Array.toList_filterMap, List.Nodup, List.pairwise_filterMap]
  apply distinct.imp
  intro a b apart c here d there
  obtain ⟨-, ⟨⟩⟩ := Option.ite_none_right_eq_some.mp here
  obtain ⟨-, ⟨⟩⟩ := Option.ite_none_right_eq_some.mp there
  exact apart

/-- Induction from the leaves: a property of a type may use it of the types directly below. -/
theorem leafward (rooted : tree.Rooted) {motive : TypeId → Prop}
    (step : ∀ id : TypeId, id.index < tree.types.size →
      (∀ child, tree.parent? child = some id → motive child) →
      motive id) (known : id.index < tree.types.size) : motive id := by
  -- The deeper a type, the fewer levels are left below it.
  have levels (left : Nat) : ∀ (id : TypeId) (depth : Nat), tree.Depth id depth →
    tree.types.size ≤ depth + left →
      motive id := by
    induction left with
    | zero =>
      intro id depth here none
      have := here.lt_size
      omega
    | succ left ih =>
      intro id depth here some
      apply step id here.known
      intro child link
      exact ih child (depth + 1) (.under link here) (by omega)
  obtain ⟨depth, here⟩ := rooted.depth id known
  exact levels tree.types.size id depth here (by omega)

end Rooted

theorem Depth.visits_stable {tree : ObjectTree} (rooted : tree.Rooted) {fuel more depth : Nat}
    {id : TypeId} (here : tree.Depth id depth) (enough : tree.types.size ≤ fuel + depth)
    (ample : tree.types.size ≤ more + depth) :
    tree.visits fuel id = tree.visits more id := by
  have bound := here.lt_size
  induction fuel generalizing more depth id with
  | zero => omega
  | succ fuel ih =>
    obtain ⟨more, rfl⟩ : ∃ less, more = less + 1 := ⟨more - 1, by omega⟩
    rw [visits, visits]
    congr 1
    -- The types below are one level deeper, which makes up for the step taken.
    apply List.flatMap_congr
    intro child member
    have deeper := Depth.under (rooted.mem_children.mp member) here
    exact ih deeper (by omega) (by omega) deeper.lt_size

theorem Depth.number_stable {tree : ObjectTree} (rooted : tree.Rooted) {fuel more depth : Nat}
    {id : TypeId} (here : tree.Depth id depth) (enough : tree.types.size ≤ fuel + depth)
    (ample : tree.types.size ≤ more + depth) (numbering : Numbering) :
    tree.number fuel id numbering = tree.number more id numbering := by
  have bound := here.lt_size
  induction fuel generalizing more depth id numbering with
  | zero => omega
  | succ fuel ih =>
    obtain ⟨more, rfl⟩ : ∃ less, more = less + 1 := ⟨more - 1, by omega⟩
    have same (start : Numbering) :
        (tree.children id).foldl (fun numbering child => tree.number fuel child numbering) start =
          (tree.children id).foldl
          (fun numbering child => tree.number more child numbering) start := by
      rw [← Array.foldl_toList, ← Array.foldl_toList]
      apply List.foldl_ext
      intro numbering child member
      have deeper := Depth.under (rooted.mem_children.mp member) here
      exact ih deeper (by omega) (by omega) numbering deeper.lt_size
    rw [number, number, same]

namespace Rooted

variable {tree : ObjectTree} {id : TypeId}

theorem subtree_eq (rooted : tree.Rooted) (known : id.index < tree.types.size) :
    tree.subtree id = id :: (tree.children id).toList.flatMap tree.subtree := by
  obtain ⟨depth, here⟩ := rooted.depth id known
  have steps : tree.subtree id = tree.visits (tree.types.size + 1) id :=
    here.visits_stable rooted (by omega) (by omega)
  rw [steps, visits]
  rfl

theorem numberAll_eq (rooted : tree.Rooted) (known : id.index < tree.types.size)
    (numbering : Numbering) :
    tree.numberAll id numbering = tree.number (tree.types.size + 1) id numbering := by
  obtain ⟨depth, here⟩ := rooted.depth id known
  exact here.number_stable rooted (by omega) (by omega) numbering

theorem mem_subtree (rooted : tree.Rooted) (known : id.index < tree.types.size) {other : TypeId} :
    other ∈ tree.subtree id ↔ tree.Descends other id := by
  apply rooted.leafward (motive := fun id => other ∈ tree.subtree id ↔
    tree.Descends other id) _ known
  intro id known ih
  rw [rooted.subtree_eq known, List.mem_cons, List.mem_flatMap, Descends,
    Relation.ReflTransGen.cases_tail_iff]
  apply or_congr eq_comm
  apply exists_congr
  intro child
  rw [rooted.mem_children, and_comm]
  exact and_congr_left fun link => ih child link

theorem eq_of_siblings (rooted : tree.Rooted) {parent left right other : TypeId}
    (known : parent.index < tree.types.size) (link : tree.parent? left = some parent)
    (link' : tree.parent? right = some parent)
    (descends : tree.Descends other left) (descends' : tree.Descends other right) :
      left = right := by
  obtain ⟨depth, above⟩ := rooted.depth parent known
  -- Both are above the same type, hence one above the other, and they are equally deep.
  have equal (a b : TypeId) (up : tree.parent? a = some parent) (up' : tree.parent? b = some parent)
      (order : tree.Descends a b) : a = b := by
    obtain ⟨less, there, -, last⟩ := order.depth_le (.under up above)
    exact last (there.unique (.under up' above))
  have functional : Relator.RightUnique fun id above => tree.parent? id = some above := by
    intro a b c up up'
    exact Option.some.inj (up.symm.trans up')
  obtain order | order := Relation.ReflTransGen.total_of_right_unique functional descends descends'
  · exact equal left right link link' order
  · exact (equal right left link' link order).symm

theorem nodup_subtree (rooted : tree.Rooted) (known : id.index < tree.types.size) :
    (tree.subtree id).Nodup := by
  apply rooted.leafward (motive := fun id => (tree.subtree id).Nodup) _ known
  intro id known ih
  rw [rooted.subtree_eq known, List.nodup_cons, List.nodup_flatMap]
  obtain ⟨depth, here⟩ := rooted.depth id known
  refine ⟨?_, fun child member => ih child (rooted.mem_children.mp member), ?_⟩
  · intro member
    obtain ⟨child, member, inside⟩ := List.mem_flatMap.mp member
    have link := rooted.mem_children.mp member
    have descends := (rooted.mem_subtree (known_of_parent? link)).mp inside
    obtain ⟨less, there, deeper, -⟩ := descends.depth_le here
    have := there.unique (.under link here)
    omega
  · apply (rooted.nodup_children id).imp_of_mem
    intro left right member member' apart other inside inside'
    have link := rooted.mem_children.mp member
    have link' := rooted.mem_children.mp member'
    rw [rooted.mem_subtree (known_of_parent? link)] at inside
    rw [rooted.mem_subtree (known_of_parent? link')] at inside'
    exact apart (rooted.eq_of_siblings known link link' inside inside')

theorem subtree_unbroken (rooted : tree.Rooted) {other : TypeId}
    (descends : tree.Descends other id) :
    tree.subtree other <:+: tree.subtree id := by
  induction descends using Relation.ReflTransGen.head_induction_on with
  | refl => exact List.infix_rfl
  | @head child parent link descends ih =>
    have known := rooted.descends_known (known_of_parent? link) (.single link)
    -- What is below the child is one of the parts that make up what is below the parent.
    have inside := List.infix_flatMap_of_mem (rooted.mem_children.mpr link) tree.subtree
    have suffix : (tree.children parent).toList.flatMap tree.subtree <:+ tree.subtree parent := by
      rw [rooted.subtree_eq known]
      exact List.suffix_cons ..
    exact (inside.trans suffix.isInfix).trans ih

theorem subtree_root (rooted : tree.Rooted) (known : TypeId.root.index < tree.types.size) :
    (tree.subtree .root).Perm (tree.types.toList.map (·.id)) := by
  rw [List.perm_ext_iff_of_nodup (rooted.nodup_subtree known) rooted.nodup_ids]
  intro id
  rw [rooted.mem_ids, rooted.mem_subtree known]
  constructor
  · intro descends
    obtain rfl | ⟨_, link, -⟩ := descends.cases_head
    · exact known
    · exact known_of_parent? link
  · intro known
    obtain ⟨depth, here⟩ := rooted.depth id known
    exact here.descends_root

end Rooted

structure Placed (tree : ObjectTree) (order : List TypeId) (before after : Numbering) : Prop where
  next : after.next = before.next + order.length
  entered : ∀ id ∈ order, after.types[id.index]? = before.types[id.index]?.map fun record =>
    { record with
      index := UInt32.ofNat (before.next + order.idxOf id)
      descendants := UInt32.ofNat ((tree.subtree id).length - 1) }
  others : ∀ id ∉ order, after.types[id.index]? = before.types[id.index]?

theorem Placed.nil {tree : ObjectTree} (numbering : Numbering) :
    tree.Placed [] numbering numbering :=
  ⟨rfl, nofun, fun _ _ => rfl⟩

theorem Placed.append {tree : ObjectTree} {left right : List TypeId}
    {before middle after : Numbering} (first : tree.Placed left before middle)
    (second : tree.Placed right middle after) (apart : left.Disjoint right) :
    tree.Placed (left ++ right) before after := by
  refine ⟨?_, ?_, ?_⟩
  · rw [second.next, first.next, List.length_append, Nat.add_assoc]
  · intro id member
    by_cases inside : id ∈ left
    · rw [second.others id (apart inside), first.entered id inside, List.idxOf_append_of_mem inside]
    · have rest : id ∈ right := (List.mem_append.mp member).resolve_left inside
      rw [second.entered id rest, first.others id inside, first.next,
        List.idxOf_append_of_notMem inside, Nat.add_assoc]
  · intro id outside
    rw [List.mem_append, not_or] at outside
    rw [second.others id outside.2, first.others id outside.1]

theorem Placed.foldl {tree : ObjectTree} {ids : List TypeId}
    (distinct : (ids.flatMap tree.subtree).Nodup) (each : ∀ id ∈ ids, ∀ numbering,
    tree.Placed (tree.subtree id) numbering (tree.numberAll id numbering))
    (numbering : Numbering) :
    tree.Placed (ids.flatMap tree.subtree) numbering
      (ids.foldl (fun numbering id => tree.numberAll id numbering) numbering) := by
  induction ids generalizing numbering with
  | nil => exact .nil numbering
  | cons id ids ih =>
    rw [List.flatMap_cons] at distinct ⊢
    obtain ⟨-, rest, apart⟩ := List.nodup_append'.mp distinct
    exact (each id (by simp) numbering).append
      (ih rest (fun id member => each id (by simp [member])) _) apart

theorem Placed.enclose {tree : ObjectTree} {id : TypeId} {below : List TypeId}
    {types : Array TypeRecord} {next : Nat} {after : Numbering}
    (whole : tree.subtree id = id :: below) (apart : id ∉ below) (inner : tree.Placed below
      { types := types.modify id.index fun record => { record with
        index := UInt32.ofNat next }, next := next + 1 }
      after) :
    tree.Placed (id :: below) { types, next }
      { after with
        types := after.types.modify id.index fun record =>
          { record with descendants := UInt32.ofNat (after.next - next - 1) } } := by
  have count : after.next - next - 1 = below.length := by
    have := inner.next
    simp only at this
    omega
  -- Before and after the types below it, only the record of the type itself is written.
  have elsewhere (other : TypeId) (different : other ≠ id) : id.index ≠ other.index := by
    intro same
    exact different (TypeId.index_injective same.symm)
  refine ⟨?_, ?_, ?_⟩
  · simp only [inner.next, List.length_cons]
    omega
  · intro other member
    by_cases same : other = id
    · subst same
      simp [Array.getElem?_modify, inner.others other apart, count, whole, Function.comp_def]
    · have inside := (List.mem_cons.mp member).resolve_left same
      have position : next + (below.idxOf other).succ = next + 1 + below.idxOf other := by omega
      simp only [Array.getElem?_modify, if_neg (elsewhere other same), inner.entered other inside,
        List.idxOf_cons_ne _ (Ne.symm same), position]
  · intro other outside
    obtain ⟨different, outside⟩ := not_or.mp (List.mem_cons.not.mp outside)
    simp only [Array.getElem?_modify, if_neg (elsewhere other different),
      inner.others other outside]

theorem Rooted.numberAll_placed {tree : ObjectTree} (rooted : tree.Rooted) {id : TypeId}
    (known : id.index < tree.types.size) (numbering : Numbering) :
    tree.Placed (tree.subtree id) numbering (tree.numberAll id numbering) := by
  apply rooted.leafward
    (motive := fun id => ∀ numbering,
      tree.Placed (tree.subtree id) numbering (tree.numberAll id numbering)) _ known
  intro id known ih ⟨types, next⟩
  have whole := rooted.subtree_eq known
  have distinct := rooted.nodup_subtree known
  rw [whole, List.nodup_cons] at distinct
  have inner :=
    Placed.foldl distinct.2 (fun child member => ih child (rooted.mem_children.mp member))
    { types := types.modify id.index fun record => { record with
      index := UInt32.ofNat next }, next := next + 1 }
  rw [Array.foldl_toList] at inner
  rw [rooted.numberAll_eq known, number, whole]
  exact inner.enclose whole distinct.1

theorem walk_enter (tree : ObjectTree) (turns : Nat) (id : TypeId) (rest : List Visit)
    {numbering : Numbering} (room : numbering.next + 1 < UInt32.size) :
    tree.walk (turns + 1) (.enter id :: rest) numbering =
      tree.walk turns ((tree.children id).toList.map .enter ++ .leave id :: rest)
        (numbering.enter id) := by
  rw [walk, if_pos room]

theorem leave_eq {id : TypeId} {before after : Numbering} (room : before.next < UInt32.size)
    (kept : after.types[id.index]? = (before.enter id).types[id.index]?) :
    after.leave id =
      { after with
        types := after.types.modify id.index fun record =>
          { record with descendants := UInt32.ofNat (after.next - before.next - 1) } } := by
  have types : (after.leave id).types = after.types.modify id.index fun record =>
      { record with descendants := UInt32.ofNat (after.next - before.next - 1) } := by
    apply Array.ext_getElem?
    intro i
    simp only [Numbering.leave, Array.getElem?_modify]
    split
    · next here =>
      subst here
      simp only [kept, Numbering.enter, Array.getElem?_modify, if_true, Option.map_map]
      congr 1
      funext record
      simp [UInt32.toNat_ofNat_of_lt' room]
    · rfl
  exact congrArg (fun types => Numbering.mk types after.next) types

theorem walk_foldl {tree : ObjectTree} {ids : List TypeId} (rooted : tree.Rooted)
    (known : ∀ id ∈ ids, id.index < tree.types.size)
    (each : ∀ id ∈ ids, ∀ turns rest numbering, numbering.next + (tree.subtree id).length <
      UInt32.size →
      tree.walk (turns + 2 * (tree.subtree id).length) (.enter id :: rest) numbering =
        tree.walk turns rest (tree.numberAll id numbering))
    (turns : Nat) (rest : List Visit) {numbering : Numbering}
    (room : numbering.next + (ids.flatMap tree.subtree).length < UInt32.size) :
    tree.walk (turns + 2 * (ids.flatMap tree.subtree).length) (ids.map .enter ++ rest) numbering =
      tree.walk turns rest
        (ids.foldl (fun numbering id => tree.numberAll id numbering) numbering) := by
  induction ids generalizing numbering with
  | nil => rfl
  | cons id ids ih =>
    simp only [List.flatMap_cons, List.length_append] at room ⊢
    have first := (rooted.numberAll_placed (known id (by simp)) numbering).next
    have split : turns + 2 * ((tree.subtree id).length + (ids.flatMap tree.subtree).length) =
        turns + 2 * (ids.flatMap tree.subtree).length + 2 * (tree.subtree id).length := by omega
    rw [split, List.map_cons, List.cons_append, each id (by simp) _ _ _ (by omega)]
    exact ih (fun id member => known id (by simp [member])) (fun id member =>
      each id (by simp [member])) (by omega)

/-- Where positions do not run out, the loop numbers a type and everything below it, with two turns
for each, and goes on with the rest. -/
theorem Rooted.walk_eq {tree : ObjectTree} (rooted : tree.Rooted) {id : TypeId}
    (known : id.index < tree.types.size) (turns : Nat) (rest : List Visit) (numbering : Numbering)
    (room : numbering.next + (tree.subtree id).length < UInt32.size) :
    tree.walk (turns + 2 * (tree.subtree id).length) (.enter id :: rest) numbering =
      tree.walk turns rest (tree.numberAll id numbering) := by
  revert turns rest numbering
  apply rooted.leafward (motive := fun id => ∀ turns rest numbering,
    numbering.next + (tree.subtree id).length < UInt32.size →
      tree.walk (turns + 2 * (tree.subtree id).length) (.enter id :: rest) numbering =
        tree.walk turns rest (tree.numberAll id numbering)) _ known
  intro id known ih turns rest ⟨types, next⟩ room
  have whole := rooted.subtree_eq known
  have distinct := rooted.nodup_subtree known
  rw [whole, List.nodup_cons] at distinct
  have below : ∀ child ∈ (tree.children id).toList, child.index < tree.types.size :=
    fun child member => known_of_parent? (rooted.mem_children.mp member)
  have inner :=
    Placed.foldl distinct.2 (fun child member => rooted.numberAll_placed (below child member))
    (Numbering.enter ⟨types, next⟩ id)
  simp only [whole, List.length_cons] at room ⊢
  have split : turns + 2 * (((tree.children id).toList.flatMap tree.subtree).length + 1) =
      turns + 1 + 2 * ((tree.children id).toList.flatMap tree.subtree).length + 1 := by omega
  have later : (Numbering.enter ⟨types, next⟩ id).next +
    ((tree.children id).toList.flatMap tree.subtree).length <
      UInt32.size := by
    simp only [Numbering.enter]
    omega
  rw [split, walk_enter tree _ id rest (by simp only; omega),
    walk_foldl rooted below (fun child member => ih child (rooted.mem_children.mp member)) _ _
      later, walk,
    leave_eq (by simp only; omega) (inner.others id distinct.1), rooted.numberAll_eq known, number,
    Array.foldl_toList]
  rfl

structure Entered (tree : ObjectTree) (visits : List Visit) (before after : Numbering)
    (entered : List TypeId) :
    Prop where
  next : after.next = before.next + entered.length
  bound : before.next < UInt32.size → after.next < UInt32.size
  start : ∀ id, .enter id ∈ visits → id ∈ entered
  below : ∀ id ∈ entered, ∀ child ∈ (tree.children id).toList, child ∈ entered

theorem exists_entered {tree : ObjectTree} {turns : Nat} {visits : List Visit}
    {before after : Numbering} (walked : tree.walk turns visits before = some after) :
    ∃ entered, tree.Entered visits before after entered := by
  fun_induction walk tree turns visits before with
  | case1 =>
    cases walked
    exact ⟨[], rfl, id, by simp, by simp⟩
  | case2 => cases walked
  | case3 turns id rest before ih =>
    obtain ⟨entered, next, bound, start, below⟩ := ih walked
    refine ⟨entered, next, bound, ?_, below⟩
    intro other member
    exact start other (by simpa using member)
  | case4 turns id rest before room ih =>
    obtain ⟨entered, next, bound, start, below⟩ := ih walked
    simp only [Numbering.enter] at next bound
    refine ⟨id :: entered, ?_, fun _ => bound room, ?_, ?_⟩
    · simp only [next, List.length_cons]
      omega
    · intro other member
      rcases List.mem_cons.mp member with same | later
      · cases same
        exact List.mem_cons_self
      · exact List.mem_cons_of_mem _ (start other (by simp [later]))
    · intro other member child under
      apply List.mem_cons_of_mem
      rcases List.mem_cons.mp member with rfl | inside
      · exact start child (List.mem_append_left _ (List.mem_map_of_mem under))
      · exact below other inside child under
  | case5 => cases walked

namespace Rooted

variable {tree : ObjectTree} {id : TypeId} {record : TypeRecord}

theorem root_known (rooted : tree.Rooted) (known : id.index < tree.types.size) :
    TypeId.root.index < tree.types.size := by
  obtain ⟨depth, here⟩ := rooted.depth id known
  exact rooted.descends_known known here.descends_root

theorem length_root (rooted : tree.Rooted) (known : TypeId.root.index < tree.types.size) :
    (tree.subtree .root).length = tree.types.size := by
  simpa using (rooted.subtree_root known).length_eq

theorem mem_root (rooted : tree.Rooted) (known : id.index < tree.types.size) :
    id ∈ tree.subtree .root :=
  (rooted.subtree_root (rooted.root_known known)).mem_iff.mpr (rooted.mem_ids.mpr known)

theorem split_root (rooted : tree.Rooted) (known : id.index < tree.types.size) :
    ∃ before after, tree.subtree .root = before ++ tree.subtree id ++ after := by
  obtain ⟨depth, here⟩ := rooted.depth id known
  obtain ⟨before, after, whole⟩ := rooted.subtree_unbroken here.descends_root
  exact ⟨before, after, whole.symm⟩

theorem numbering?_eq (rooted : tree.Rooted) (few : tree.types.size < UInt32.size)
    (known : TypeId.root.index < tree.types.size) :
    tree.numbering? = some (tree.numberAll .root { types := tree.types, next := 0 }) := by
  have count := rooted.length_root known
  have split : 2 * UInt32.size = 2 * (UInt32.size - tree.types.size) + 2 *
    (tree.subtree .root).length := by
    omega
  rw [numbering?, split, rooted.walk_eq known _ _ _ (by simp only; omega), walk]

theorem numbered_eq (rooted : tree.Rooted) (few : tree.types.size < UInt32.size)
    (known : TypeId.root.index < tree.types.size) :
    tree.numbered.types = (tree.numberAll .root { types := tree.types, next := 0 }).types := by
  rw [numbered, rooted.numbering?_eq few known]
  rfl

theorem position (rooted : tree.Rooted) (few : tree.types.size < UInt32.size)
    (found : tree.finished.type? id = some record) :
    record.index.toNat = (tree.subtree .root).idxOf id ∧
      record.descendants.toNat = (tree.subtree id).length - 1 := by
  have known : id.index < tree.types.size := by simpa using known_of_type? found
  have root := rooted.root_known known
  have count := rooted.length_root root
  have inside := List.idxOf_lt_length_iff.mpr (rooted.mem_root known)
  obtain ⟨before, after, whole⟩ := rooted.split_root known
  have part : (tree.subtree id).length ≤ (tree.subtree .root).length := by
    simp only [whole, List.length_append]
    omega
  -- Linking anew keeps positions, so they are those of the walk.
  have kept := congrArg (·[id.index]?)
    (map_relinked (fun record => (record.index, record.descendants)) (fun _ _ => rfl) (fun _ _ =>
      rfl) tree.numbered)
  have placed := (rooted.numberAll_placed root { types := tree.types, next := 0 }).entered id
    (rooted.mem_root known)
  have here : tree.numbered.relinked.types[id.index]? = some record := found
  simp only [Array.getElem?_map, here, rooted.numbered_eq few root, placed,
    Array.getElem?_eq_getElem known, Option.map_some, Option.some.injEq, Prod.mk.injEq,
    Nat.zero_add] at kept
  rw [kept.1, kept.2, UInt32.toNat_ofNat_of_lt' (by omega), UInt32.toNat_ofNat_of_lt' (by omega)]
  exact ⟨rfl, rfl⟩

theorem mem_middle_iff {before middle after : List TypeId}
    (distinct : (before ++ middle ++ after).Nodup) (id : TypeId) :
    id ∈ middle ↔ before.length ≤ (before ++ middle ++ after).idxOf id ∧
      (before ++ middle ++ after).idxOf id < before.length + middle.length := by
  rw [List.append_assoc] at distinct ⊢
  by_cases first : id ∈ before
  · have apart : id ∉ middle := by
      intro second
      exact (List.nodup_append'.mp distinct).2.2 first (List.mem_append_left _ second)
    have := List.idxOf_lt_length_iff.mpr first
    rw [List.idxOf_append_of_mem first]
    simp only [apart, false_iff]
    omega
  · rw [List.idxOf_append_of_notMem first]
    by_cases second : id ∈ middle
    · have := List.idxOf_lt_length_iff.mpr second
      rw [List.idxOf_append_of_mem second]
      simp only [second, true_iff]
      omega
    · rw [List.idxOf_append_of_notMem second]
      simp only [second, false_iff]
      omega

theorem sub_le_iff {position start below size : Nat} (few : size < UInt32.size)
    (inside : position < size) (fits : start + below < size) {index first descendants : UInt32}
    (index_eq : index.toNat = position) (first_eq : first.toNat = start)
    (descendants_eq : descendants.toNat = below) :
    index - first ≤ descendants ↔ start ≤ position ∧ position ≤ start + below := by
  rw [UInt32.le_iff_toNat_le, UInt32.toNat_sub, index_eq, first_eq, descendants_eq]
  simp only [UInt32.size] at few
  -- If the difference wraps around, it is more than all positions from the start on.
  omega

theorem descends_iff_position (rooted : tree.Rooted) (known : id.index < tree.types.size) :
    (tree.subtree .root).idxOf id + ((tree.subtree id).length - 1) < tree.types.size ∧
      ∀ other, tree.Descends other id ↔ (tree.subtree .root).idxOf id ≤
        (tree.subtree .root).idxOf other ∧
        (tree.subtree .root).idxOf other ≤ (tree.subtree .root).idxOf id +
        ((tree.subtree id).length - 1) := by
  have root := rooted.root_known known
  have count := rooted.length_root root
  have distinct := rooted.nodup_subtree root
  have first := rooted.subtree_eq known
  have nonempty : 0 < (tree.subtree id).length := by simp [first]
  obtain ⟨before, after, whole⟩ := rooted.split_root known
  rw [whole] at count distinct ⊢
  have start : (before ++ tree.subtree id ++ after).idxOf id = before.length := by
    have outside : id ∉ before := by
      intro member
      rw [List.append_assoc] at distinct
      exact (List.nodup_append'.mp distinct).2.2 member (by simp [first])
    rw [List.append_assoc, List.idxOf_append_of_notMem outside, first, List.cons_append,
      List.idxOf_cons_self, Nat.add_zero]
  rw [start]
  simp only [List.length_append] at count
  refine ⟨by omega, ?_⟩
  intro other
  -- What descends from the type stands between what is entered before and after.
  rw [← rooted.mem_subtree known, mem_middle_iff distinct]
  omega

theorem within_iff (rooted : tree.Rooted) (few : tree.types.size < UInt32.size) {ancestor : TypeId}
    {above : TypeRecord} (found : tree.finished.type? id = some record)
    (found' : tree.finished.type? ancestor = some above) : record.within above = true ↔
      tree.Descends id ancestor := by
  have known : id.index < tree.types.size := by simpa using known_of_type? found
  have known' : ancestor.index < tree.types.size := by simpa using known_of_type? found'
  obtain ⟨index, -⟩ := rooted.position few found
  obtain ⟨first, descendants⟩ := rooted.position few found'
  obtain ⟨fits, interval⟩ := rooted.descends_iff_position known'
  have inside : (tree.subtree .root).idxOf id < tree.types.size := by
    rw [← rooted.length_root (rooted.root_known known)]
    exact List.idxOf_lt_length_iff.mpr (rooted.mem_root known)
  rw [TypeRecord.within, decide_eq_true_iff,
    sub_le_iff few inside fits index first descendants, interval]

theorem isSubtype_finished (rooted : tree.Rooted) (few : tree.types.size < UInt32.size)
    (type ancestor : TypeId) :
    tree.finished.isSubtype type ancestor = true ↔
      type.index < tree.types.size ∧ ancestor.index < tree.types.size ∧
        tree.Descends type ancestor := by
  rw [← size_types_finished tree]
  apply isSubtype_iff_of_known
  intro record upper found found'
  have finalized : tree.finished.finalized = true := rfl
  simp only [isSubtype, found, found', finalized, if_true]
  exact rooted.within_iff few found found'

theorem ncard_descendants (rooted : tree.Rooted) (known : id.index < tree.types.size) :
    {other | other ≠ id ∧ tree.Descends other id}.ncard = (tree.subtree id).length - 1 := by
  have self : id ∈ (tree.subtree id).toFinset :=
    List.mem_toFinset.mpr ((rooted.mem_subtree known).mpr .refl)
  have strict : {other | other ≠ id ∧ tree.Descends other id} =
    ((tree.subtree id).toFinset.erase id : Set TypeId) := by
    ext other
    simp [rooted.mem_subtree known, and_comm]
  rw [strict, Set.ncard_coe_finset, Finset.card_erase_of_mem self,
    List.toFinset_card_of_nodup (rooted.nodup_subtree known)]

theorem indices_perm (rooted : tree.Rooted) (few : tree.types.size < UInt32.size)
    (known : TypeId.root.index < tree.types.size) :
    (tree.finished.types.toList.map (·.index.toNat)).Perm (List.range tree.types.size) := by
  have finished : tree.finished.Rooted :=
    rooted.congr
      (map_finished _ (fun _ _ => rfl) (fun _ _ => rfl) (fun _ _ => rfl) (fun _ _ => rfl) tree)
  have ids : tree.finished.types.toList.map (·.id) = tree.types.toList.map (·.id) := by
    simpa using congrArg Array.toList
      (map_finished (·.id) (fun _ _ => rfl) (fun _ _ => rfl) (fun _ _ => rfl) (fun _ _ => rfl) tree)
  have positions : tree.finished.types.toList.map (·.index.toNat) =
      (tree.finished.types.toList.map (·.id)).map (tree.subtree .root).idxOf := by
    rw [List.map_map]
    apply List.map_congr_left
    intro record member
    exact (rooted.position few (finished.type?_of_mem (Array.mem_toList_iff.mp member))).1
  -- The walk has every type at its own position.
  have order : (tree.subtree .root).map (tree.subtree .root).idxOf =
    List.range tree.types.size := by
    rw [← rooted.length_root known]
    apply List.ext_getElem
    · simp
    · intro i _ _
      simp [(rooted.nodup_subtree known).idxOf_getElem]
  rw [positions, ids, ← order]
  exact (rooted.subtree_root known).symm.map _

end Rooted

/-- Finalizing enters every type once, with any number of steps that is enough for all types. Then
positions decide, by one comparison, what a walk along the parents decided before. -/
theorem finalize_numbers {tree : ObjectTree} (reachable : tree.Reachable)
    (unfinished : tree.finalized = false) (few : tree.types.size < UInt32.size) :
    ∃ later, TreeUpdate.finalize.run tree = .ok () later ∧
      (∀ fuel, tree.types.size ≤ fuel →
        tree.numbering? = some (tree.number fuel .root { types := tree.types, next := 0 }) ∧
          (tree.visits fuel .root).Nodup ∧
            ∀ id, id ∈ tree.visits fuel .root ↔ id.index < tree.types.size) ∧
      (later.types.toList.map (·.index.toNat)).Perm (List.range tree.types.size) ∧
      (∀ id record, later.type? id = some record →
        (tree.subtree .root)[record.index.toNat]? = some id ∧
          record.descendants.toNat = {other | other ≠ id ∧ tree.Descends other id}.ncard) ∧
      ∀ type ancestor, later.isSubtype type ancestor = tree.isSubtype type ancestor ∧
        (tree.isSubtype type ancestor = true ↔
          type.index < tree.types.size ∧ ancestor.index < tree.types.size ∧
            tree.Descends type ancestor) := by
  have rooted := reachable.rooted few
  have coherent := reachable.coherent
  have root : TypeId.root.index < tree.types.size := coherent.paths _ _ coherent.root
  have numbering := rooted.numbering?_eq few root
  have room : tree.numbering?.isSome = true := by rw [numbering, Option.isSome_some]
  refine ⟨tree.finished, TreeUpdate.run_finalize coherent unfinished room, ?_,
    rooted.indices_perm few root, ?_, ?_⟩
  · intro fuel enough
    obtain ⟨depth, here⟩ := rooted.depth .root root
    rw [numbering, numberAll, here.number_stable rooted (by omega) (Nat.le_add_right_of_le enough)]
    refine ⟨rfl, ?_⟩
    rw [here.visits_stable rooted (by omega) (Nat.le_add_right tree.types.size depth)]
    refine ⟨rooted.nodup_subtree root, ?_⟩
    intro id
    rw [← rooted.mem_ids]
    exact (rooted.subtree_root root).mem_iff
  · intro id record found
    have known : id.index < tree.types.size := by simpa using known_of_type? found
    obtain ⟨index, descendants⟩ := rooted.position few found
    rw [index, descendants, rooted.ncard_descendants known]
    exact ⟨List.getElem?_idxOf (rooted.mem_root known), rfl⟩
  · intro type ancestor
    have before := rooted.isSubtype_iff unfinished type ancestor
    refine ⟨?_, before⟩
    rw [Bool.eq_iff_iff, before, rooted.isSubtype_finished few]

theorem finalize_numbers_moved :
    ∃ later, TreeUpdate.finalize.run
      (TreeOp.build [.declare ⟨["mob"]⟩, .declare ⟨["thing"]⟩, .setParent ⟨1⟩ ⟨2⟩]) =
        .ok () later ∧
      (later.types.toList.map (·.index.toNat)).Perm (List.range 3) ∧
        later.isSubtype ⟨1⟩ ⟨2⟩ = true := by
  obtain ⟨later, ran, -, indices, -, same⟩ := finalize_numbers
    (TreeOp.reachable_build [.declare ⟨["mob"]⟩, .declare ⟨["thing"]⟩, .setParent ⟨1⟩ ⟨2⟩])
    (by decide +kernel)
    (by decide +kernel)
  refine ⟨later, ran, indices, ?_⟩
  rw [(same ⟨1⟩ ⟨2⟩).1]
  decide +kernel

end ObjectTree

end ProcLowering
