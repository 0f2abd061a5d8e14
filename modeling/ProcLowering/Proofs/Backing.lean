import ProcLowering.Proofs.OverrideChain

set_option autoImplicit false

namespace ProcLowering

theorem TypeId.index_lt (id : TypeId) : id.index < UInt32.size := id.raw.toNat_lt

namespace ObjectTree

/-- The tree without the types that no identity addresses. -/
def addressed (tree : ObjectTree) : ObjectTree := { tree with types := tree.types.take UInt32.size }

section

variable {tree later : ObjectTree}

theorem size_addressed (tree : ObjectTree) :
    tree.addressed.types.size = min UInt32.size tree.types.size := by
  simp [addressed]

theorem type?_addressed (tree : ObjectTree) (id : TypeId) :
    tree.addressed.type? id = tree.type? id := by
  rw [type?, addressed, getElem?_take, if_pos id.index_lt, type?]

theorem parent?_addressed (tree : ObjectTree) (id : TypeId) :
    tree.addressed.parent? id = tree.parent? id := by
  rw [parent?, parent?, type?_addressed]

theorem known_addressed (tree : ObjectTree) (id : TypeId) :
    id.index < tree.addressed.types.size ↔ id.index < tree.types.size := by
  have inside := id.index_lt
  rw [size_addressed]
  omega

theorem addressed_eq (few : tree.types.size ≤ UInt32.size) : tree.addressed = tree := by
  have whole : tree.types.take UInt32.size = tree.types := by simp [few]
  rw [addressed, whole]

theorem skeleton_addressed (same : later.skeleton = tree.skeleton) :
    later.addressed.skeleton = tree.addressed.skeleton := by
  have window (tree : ObjectTree) : tree.addressed.skeleton = tree.skeleton.take UInt32.size := by
    simp [skeleton, addressed]
  rw [window, window, same]

theorem lineage_eq_nil {id : TypeId} (missing : tree.type? id = none) : tree.lineage id = [] := by
  rw [lineage]
  cases tree.types.size <;> simp [climb, missing]

theorem lineage_addressed (rooted : tree.addressed.Rooted) (id : TypeId) :
    tree.addressed.lineage id = tree.lineage id := by
  cases found : tree.type? id with
  | none => rw [lineage_eq_nil found, lineage_eq_nil ((type?_addressed tree id).trans found)]
  | some record =>
    -- The walk needs no more steps than there are types with an address.
    obtain ⟨depth, here⟩ := rooted.depth id ((known_addressed tree id).mpr (known_of_type? found))
    have bound := here.lt_size
    have ample : depth < tree.types.size := by
      rw [size_addressed] at bound
      omega
    rw [lineage, here.climb_stable bound ample, climb_congr (type?_addressed tree), lineage]

theorem lineageOf_addressed (rooted : tree.addressed.Rooted) (record : TypeRecord) :
    tree.addressed.lineageOf record = tree.lineageOf record := by
  rw [lineageOf, lineageOf]
  cases record.parent with
  | none => rw [climb_none, climb_none]
  | some parent => exact congrArg (record :: ·) (lineage_addressed rooted parent)

theorem hasProc_addressed (rooted : tree.addressed.Rooted) (id : TypeId) (name : String) :
    tree.addressed.hasProc id name = tree.hasProc id name := by
  rw [hasProc, hasProc, lineage_addressed rooted]

theorem findProc?_addressed (rooted : tree.addressed.Rooted) (id : TypeId) (name : String) :
    tree.addressed.findProc? id name = tree.findProc? id name := by
  rw [findProc?, findProc?, lineage_addressed rooted]

theorem redefined?_addressed (rooted : tree.addressed.Rooted) (id : TypeId) (name : String) :
    tree.addressed.redefined? id name = tree.redefined? id name := by
  simp only [redefined?, type?_addressed, lineageOf_addressed rooted]

theorem isSubtype_addressed (rooted : tree.addressed.Rooted) (type ancestor : TypeId) :
    tree.addressed.isSubtype type ancestor = tree.isSubtype type ancestor := by
  simp only [isSubtype, type?_addressed, lineage_addressed rooted]
  rfl

theorem linked_addressed (rooted : tree.addressed.Rooted) (entry : Registration) :
    (tree.linked entry).addressed = tree.addressed.linked entry := by
  simp only [addressed, linked, take_modify]
  -- What the entry redefines is looked up by address only.
  have same := redefined?_addressed rooted entry.type entry.name
  rw [addressed] at same
  rw [same]

theorem Change.rooted_addressed (change : Change tree later) (rooted : tree.addressed.Rooted) :
    later.addressed.Rooted := by
  obtain ⟨op, change⟩ := change
  cases change with
  | declare _ gains =>
    obtain @⟨segment, above, parent, record, unfinished, fresh, named, found⟩ := gains
    by_cases full : UInt32.size ≤ tree.types.size
    · -- The new type has no address.
      have window :
          (tree.types.push (record.under (.ofIndex tree.types.size)
          ⟨(segment :: above).reverse⟩)).take UInt32.size =
          tree.types.take UInt32.size := by
        apply Array.ext_getElem?
        intro i
        simp only [getElem?_take, Array.getElem?_push]
        grind
      exact rooted.congr (congrArg (·.map fun record => (record.id, record.parent)) window)
    · rw [addressed_eq (by omega)] at rooted
      rw [addressed_eq (by simp [withType]; omega)]
      exact rooted.withType _ found (by omega)
  | @reparent _ type parent movable =>
    -- The guard speaks of types with an address, so it lets the same move through.
    obtain ⟨unfinished, inner, known, above, apart⟩ := movable
    have window : (tree.reparented type parent).addressed =
      tree.addressed.reparented type parent := by
      simp only [addressed, reparented, take_modify]
    rw [window]
    exact rooted.reparented ⟨unfinished, inner, (known_addressed tree type).mpr known,
      (known_addressed tree parent).mpr above, (isSubtype_addressed rooted parent type).trans apart⟩
  | finish =>
    exact rooted.congr (skeleton_addressed
      (map_finished _ (fun _ _ => rfl) (fun _ _ => rfl) (fun _ _ => rfl) (fun _ _ => rfl) tree))
  | register =>
    exact rooted.congr (skeleton_addressed (map_linked _ (fun _ _ => rfl) (fun _ _ => rfl) _ _))
  | assign => exact rooted.congr (skeleton_addressed (map_withVariable _ (fun _ _ => rfl) _ _ _ _))
  | static => exact rooted.congr (skeleton_addressed (map_withStatic _ (fun _ _ => rfl) _ _ _))
  | verb => exact rooted.congr (skeleton_addressed (map_withVerb _ (fun _ _ => rfl) _ _ _))
  | allocate | publish | params | mark => exact rooted.congr rfl

theorem Changes.rooted_addressed (changes : Changes .empty tree) : tree.addressed.Rooted := by
  refine changes.invariant (fun _ _ change => change.rooted_addressed) ?_
  rw [addressed_eq (by decide)]
  exact rooted_empty

theorem Reachable.rooted_addressed (reachable : tree.Reachable) : tree.addressed.Rooted :=
  reachable.changes.rooted_addressed

theorem backed_addressed (rooted : tree.addressed.Rooted) : tree.addressed.Backed ↔
    tree.Backed := by
  simp only [Backed, type?_addressed, hasProc_addressed rooted]

theorem hasProc_eq_isSome (rooted : tree.addressed.Rooted) (backed : tree.Backed) (id : TypeId)
    (name : String) :
    tree.hasProc id name = (tree.findProc? id name).isSome := by
  cases found : tree.type? id with
  | none => simp [hasProc, findProc?, lineage_eq_nil found, declares, visible?]
  | some record =>
    have known := (known_addressed tree id).mpr (known_of_type? found)
    have same := ((backed_addressed rooted).mpr backed).hasProc_eq rooted known name
    rwa [hasProc_addressed rooted, findProc?_addressed rooted] at same

theorem rooted_linked (rooted : tree.addressed.Rooted) (entry : Registration) :
    (tree.linked entry).addressed.Rooted := by
  rw [linked_addressed rooted]
  exact rooted.linked entry

theorem backed_linked (rooted : tree.addressed.Rooted) (backed : tree.Backed)
    (entry : Registration) :
    (tree.linked entry).Backed := by
  rw [← backed_addressed (rooted_linked rooted entry), linked_addressed rooted]
  exact ((backed_addressed rooted).mpr backed).linked rooted entry

theorem backed_foldl_linked (rooted : tree.addressed.Rooted) (backed : tree.Backed)
    (entries : List Registration) :
    (entries.foldl linked tree).Backed := by
  induction entries generalizing tree with
  | nil => exact backed
  | cons entry rest ih => exact ih (rooted_linked rooted entry) (backed_linked rooted backed entry)

def tables (tree : ObjectTree) (id : TypeId) :
    Option (Option TypeId × NameMap ProcId × NameMap ProcId) :=
  (tree.type? id).map fun record => (record.parent, record.own, record.overriding)

theorem climb_own_congr (same : ∀ id, later.tables id = tree.tables id) (fuel : Nat)
    (start : Option TypeId) :
    (later.climb fuel start).map (·.own) = (tree.climb fuel start).map (·.own) := by
  induction fuel generalizing start with
  | zero => rfl
  | succ fuel ih =>
    cases start with
    | none => rfl
    | some id =>
      have here := same id
      rw [tables, tables] at here
      rw [climb, climb]
      cases found : tree.type? id with
      | none =>
        rw [found] at here
        rw [Option.map_eq_none_iff.mp here]
      | some record =>
        rw [found] at here
        obtain ⟨record', found', equal⟩ := Option.map_eq_some_iff.mp here
        rw [Prod.mk.injEq, Prod.mk.injEq] at equal
        simp [found', equal.1, equal.2.1, ih]

theorem Backed.congr (backed : tree.Backed)
    (alike : later.types.map (fun record => (record.parent, record.own, record.overriding)) =
      tree.types.map fun record =>
        (record.parent, record.own, record.overriding)) : later.Backed := by
  have same (id : TypeId) : later.tables id = tree.tables id := by
    simpa [tables, type?] using congrArg (·[id.index]?) alike
  have size : later.types.size = tree.types.size := by simpa using congrArg Array.size alike
  intro id record name found overrides
  have here := same id
  rw [tables, tables, found] at here
  obtain ⟨old, there, equal⟩ := Option.map_eq_some_iff.mp here.symm
  rw [Prod.mk.injEq, Prod.mk.injEq] at equal
  have declared := backed id old name there (by rwa [equal.2.2])
  -- Whether a name is declared depends on the own tables of the lineage alone.
  have own := climb_own_congr same tree.types.size (some id)
  have any (lineage : List TypeRecord) :
      declares lineage name = (lineage.map (·.own)).any (·.contains name) := by
    rw [List.any_map]
    rfl
  rwa [hasProc, any, lineage, size, own, ← lineage, ← any]

/-- Linking starts from empty tables, so it does not matter how they were. -/
theorem backed_finished (rooted : tree.addressed.Rooted) : tree.finished.Backed := by
  have start : tree.numbered.cleared.Backed := (replayed_cleared tree.numbered).declared
  have window := rooted.congr (skeleton_addressed (skeleton_cleared tree))
  exact (backed_foldl_linked window start tree.registrations.toList).congr rfl

theorem Backed.withType (backed : tree.Backed) (rooted : tree.addressed.Rooted)
    {record : TypeRecord} {path : TypePath}
    (rooted' : (tree.withType record path).addressed.Rooted) :
      (tree.withType record path).Backed := by
  have keeps (id : TypeId) (old : TypeRecord) (found : tree.type? id = some old) :
      (tree.withType record path).type? id = some old := by
    have known := known_of_type? found
    rw [type?] at found
    simp [type?, ObjectTree.withType, Array.getElem?_push, Nat.ne_of_lt known, found]
  intro id other name found overrides
  rw [type?, ObjectTree.withType, Array.getElem?_push] at found
  split at found
  · cases found
    simp [TypeRecord.under] at overrides
  · -- What was declared above an old type still is.
    have declared := backed id other name found overrides
    rw [← hasProc_addressed rooted] at declared
    rw [← hasProc_addressed rooted']
    have known := (known_addressed tree id).mpr (known_of_type? found)
    obtain ⟨above, owner, descends, there, owns⟩ := (rooted.hasProc_iff known).mp declared
    rw [type?_addressed] at there
    refine (rooted'.hasProc_iff ?_).mpr ⟨above, owner, ?_, ?_, owns⟩
    · exact (known_addressed _ id).mpr (known_of_type? (keeps id other found))
    · refine Relation.ReflTransGen.mono (fun id above link => ?_) _ _ descends
      rw [parent?_addressed] at link ⊢
      obtain ⟨old, found, under⟩ := Option.bind_eq_some_iff.mp link
      exact Option.bind_eq_some_iff.mpr ⟨old, keeps id old found, under⟩
    · rw [type?_addressed]
      exact keeps above owner there

theorem backed_of_does {op : TreeOp} (does : op.Does tree later) (rooted : tree.addressed.Rooted)
    (backed : tree.Backed) :
    later.Backed ∨ ∃ type parent, op = .setParent type parent ∧ tree.Movable type parent := by
  have rooted' := Change.rooted_addressed ⟨op, does⟩ rooted
  cases does with
  | declare _ gains =>
    cases gains
    exact .inl (backed.withType rooted rooted')
  | reparent movable => exact .inr ⟨_, _, rfl, movable⟩
  | register => exact .inl ((backed_linked rooted backed _).congr rfl)
  | finish => exact .inl (backed_finished rooted)
  | assign => exact .inl (backed.congr (map_withVariable _ (fun _ _ => rfl) _ _ _ _))
  | static => exact .inl (backed.congr (map_withStatic _ (fun _ _ => rfl) _ _ _))
  | verb => exact .inl (backed.congr (map_withVerb _ (fun _ _ => rfl) _ _ _))
  | allocate | publish | params | mark => exact .inl (backed.congr rfl)

theorem Reachable.backed (reachable : tree.Reachable) (finalized : tree.finalized = true) :
    tree.Backed := by
  have step (tree later : ObjectTree) (change : Change tree later)
      (sound : tree.addressed.Rooted ∧ (tree.finalized = true → tree.Backed)) :
      later.addressed.Rooted ∧ (later.finalized = true → later.Backed) := by
    obtain ⟨rooted, backed⟩ := sound
    refine ⟨change.rooted_addressed rooted, fun finalized => ?_⟩
    obtain ⟨op, does⟩ := change
    cases before : tree.finalized with
    | true =>
      rcases backed_of_does does rooted (backed before) with after | ⟨type, parent, -, movable⟩
      · exact after
      · exact (Bool.false_ne_true (movable.1.symm.trans before)).elim
    | false =>
      obtain ⟨-, rfl⟩ := does.finishes before finalized
      exact backed_finished rooted
  refine (reachable.changes.invariant step
    ⟨Reachable.empty.rooted_addressed, fun finalized => ?_⟩).2 finalized
  cases finalized

end

end ObjectTree

end ProcLowering
