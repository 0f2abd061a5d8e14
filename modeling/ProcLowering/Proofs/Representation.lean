import ProcLowering.Proofs.OverrideChain

set_option autoImplicit false

namespace ProcLowering

theorem TypePath.parent?_eq_some {path above : TypePath} (found : path.parent? = some above) :
    ∃ segment, path = ⟨(segment :: above.segments.reverse).reverse⟩ := by
  unfold parent? isRoot at found
  split at found
  · cases found
  · next inner =>
    cases found
    have nonempty : path.segments ≠ [] := by simpa using inner
    refine ⟨path.segments.getLast nonempty, TypePath.ext ?_⟩
    simp [List.dropLast_append_getLast]

namespace ObjectTree

section

variable {tree later : ObjectTree}

-- Of the records, what only new types, new statics and new verbs change.
def traits (tree : ObjectTree) : Array (TypePath × Array ProcId × NameMap UInt32) :=
  tree.types.map fun record => (record.path, record.verbs, record.statics)

theorem Change.traits_cases (change : Change tree later) :
    (later.traits = tree.traits ∧ later.paths = tree.paths ∧ later.statics = tree.statics) ∨
      (∃ segment above parent record, tree.findPath? ⟨(segment :: above).reverse⟩ = none ∧
        tree.findPath? ⟨above.reverse⟩ = some parent ∧ tree.type? parent = some record ∧
          later = tree.withType record ⟨(segment :: above).reverse⟩) ∨
      (∃ type name, later = tree.withStatic type name) ∨
      ∃ type proc, proc.index < tree.procs.size ∧ later = tree.withVerb type proc := by
  obtain ⟨op, change⟩ := change
  cases change with
  | declare _ gains =>
    obtain ⟨-, fresh, named, found⟩ := gains
    exact .inr (.inl ⟨_, _, _, _, fresh, named, found, rfl⟩)
  | static => exact .inr (.inr (.inl ⟨_, _, rfl⟩))
  | verb _ listed => exact .inr (.inr (.inr ⟨_, _, listed, rfl⟩))
  | reparent =>
    refine .inl ⟨?_, rfl, rfl⟩
    rw [traits, reparented, map_modify (by intro _; rfl)]
    rfl
  | register => exact .inl ⟨map_linked _ (fun _ _ => rfl) (fun _ _ => rfl) _ _, rfl, rfl⟩
  | finish =>
    refine .inl ⟨map_finished _ (fun _ _ => rfl) (fun _ _ => rfl) (fun _ _ => rfl) (fun _ _ =>
      rfl) tree, ?_, ?_⟩
    · exact paths_finished tree
    · exact foldl_linked (·.statics) (fun _ _ => rfl) _ _
  | assign => exact .inl ⟨map_withVariable _ (fun _ _ => rfl) _ _ _ _, rfl, rfl⟩
  | allocate | publish | params | mark => exact .inl ⟨rfl, rfl, rfl⟩

structure Mapped (tree : ObjectTree) : Prop where
  paths : ∀ path id, tree.findPath? path = some id ↔ ∃ record, tree.type? id = some record ∧
    record.path = path
  above : ∀ segment above, (tree.findPath? ⟨(segment :: above).reverse⟩).isSome →
    (tree.findPath? ⟨above.reverse⟩).isSome

theorem mapped_empty : Mapped .empty := by
  have only (path : TypePath) : empty.findPath? path = if path = .root then some .root
    else none := by
    simp only [findPath?, empty, Std.TreeMap.getElem?_insert]
    by_cases root : path = .root
    · simp [root]
    · simp [root, Ne.symm root]
  refine ⟨?_, ?_⟩
  · intro path id
    rw [only]
    constructor
    · intro found
      obtain ⟨rfl, same⟩ := Option.ite_none_right_eq_some.mp found
      cases same
      exact ⟨_, rfl, rfl⟩
    · rintro ⟨record, found, rfl⟩
      have first : id.index = 0 := by simpa [empty] using known_of_type? found
      obtain rfl : id = .root := TypeId.index_injective first
      cases found
      rfl
  · intro segment above declared
    rw [only] at declared
    simp [TypePath.root] at declared

theorem Mapped.congr (mapped : tree.Mapped) (paths : later.paths = tree.paths)
    (same : later.types.map (·.path) = tree.types.map (·.path)) : later.Mapped := by
  have lookup (path : TypePath) : later.findPath? path = tree.findPath? path := by
    rw [findPath?, paths, findPath?]
  refine ⟨?_, ?_⟩
  · intro path id
    rw [lookup, mapped.paths]
    constructor
    · rintro ⟨old, found, rfl⟩
      exact exists_of_map_eq same.symm found
    · rintro ⟨record, found, rfl⟩
      exact exists_of_map_eq same found
  · intro segment above
    rw [lookup, lookup]
    exact mapped.above segment above

theorem type?_withType (few : tree.types.size < UInt32.size) (above : TypeRecord) (path : TypePath)
    (id : TypeId) :
    (tree.withType above path).type? id =
      if id = .ofIndex tree.types.size then some (above.under (.ofIndex tree.types.size) path)
        else tree.type? id := by
  have place : (TypeId.ofIndex tree.types.size).index = tree.types.size := by
    rw [TypeId.ofIndex, TypeId.index, UInt32.toNat_ofNat_of_lt' few]
  rw [type?, withType, Array.getElem?_push]
  by_cases same : id = .ofIndex tree.types.size
  · simp [same, place]
  · have apart : id.index ≠ tree.types.size :=
      fun equal => same (TypeId.index_injective (equal.trans place.symm))
    simp [same, apart, type?]

theorem Mapped.withType (mapped : tree.Mapped) (few : tree.types.size < UInt32.size)
    {segment : String} {above : List String} {parent : TypeId} (record : TypeRecord)
    (fresh : tree.findPath? ⟨(segment :: above).reverse⟩ = none)
    (named : tree.findPath? ⟨above.reverse⟩ = some parent) :
    (tree.withType record ⟨(segment :: above).reverse⟩).Mapped := by
  have unused : tree.type? (.ofIndex tree.types.size) = none := by
    rw [type?, TypeId.ofIndex, TypeId.index, UInt32.toNat_ofNat_of_lt' few]
    simp
  have kept (path : TypePath) (declared : (tree.findPath? path).isSome) :
      ((tree.withType record ⟨(segment :: above).reverse⟩).findPath? path).isSome := by
    rw [findPath?_withType]
    split
    · rfl
    · exact declared
  refine ⟨?_, ?_⟩
  · intro path id
    rw [findPath?_withType, type?_withType few]
    generalize (⟨(segment :: above).reverse⟩ : TypePath) = new at fresh ⊢
    by_cases newPath : new = path <;> by_cases newId : id = .ofIndex tree.types.size
    · simp [newPath, newId, TypeRecord.under]
    · -- No older type has the new path.
      rw [if_pos newPath, if_neg newId, ← mapped.paths, ← newPath, fresh]
      simp [Ne.symm newId]
    · -- No older path leads to the new type.
      rw [if_neg newPath, if_pos newId, mapped.paths, newId, unused]
      simp [TypeRecord.under, newPath]
    · rw [if_neg newPath, if_neg newId, mapped.paths]
  · intro other higher declared
    rw [findPath?_withType] at declared
    split at declared
    · next same =>
      have same' : (segment :: above).reverse = (other :: higher).reverse :=
        congrArg TypePath.segments same
      obtain ⟨-, rfl⟩ := List.cons.inj (List.reverse_injective same')
      exact kept _ (Option.isSome_of_eq_some named)
    · exact kept _ (mapped.above other higher declared)

theorem Change.mapped (change : Change tree later) (mapped : tree.Mapped)
    (few : later.types.size < UInt32.size) :
    later.Mapped := by
  rcases change.traits_cases with ⟨same, paths, -⟩ | ⟨segment, above, parent, record, fresh,
    named, -, rfl⟩ |
    ⟨type, name, rfl⟩ | ⟨type, proc, -, rfl⟩
  · exact mapped.congr paths
      (by simpa [traits, Function.comp_def] using congrArg (·.map Prod.fst) same)
  · simp only [withType, Array.size_push] at few
    exact mapped.withType (by omega) record fresh named
  · exact mapped.congr rfl (map_withStatic _ (fun _ _ => rfl) _ _ _)
  · exact mapped.congr rfl (map_withVerb _ (fun _ _ => rfl) _ _ _)

def VerbsKnown (tree : ObjectTree) : Prop :=
  ∀ (i : Nat) (record : TypeRecord), tree.types[i]? = some record → ∀ proc ∈ record.verbs,
    proc.index < tree.procs.size

theorem verbsKnown_empty : VerbsKnown .empty := by
  intro i record found
  obtain ⟨inside, rfl⟩ := Array.getElem?_eq_some_iff.mp found
  obtain rfl : i = 0 := by simpa [empty] using inside
  simp [empty]

theorem VerbsKnown.congr (known : tree.VerbsKnown) (procs : tree.procs.size ≤ later.procs.size)
    (same : later.types.map (·.verbs) = tree.types.map (·.verbs)) : later.VerbsKnown := by
  intro i record found proc listed
  obtain ⟨old, found', equal⟩ := exists_of_map_eq same found
  exact Nat.lt_of_lt_of_le (known i old found' proc (equal ▸ listed)) procs

theorem Change.verbsKnown (change : Change tree later) (known : tree.VerbsKnown) :
    later.VerbsKnown := by
  have procs := change.grows.procs
  rcases change.traits_cases with ⟨same, -⟩ | ⟨segment, above, parent, record, -, -, -,
    rfl⟩ | ⟨type, name, rfl⟩ |
    ⟨type, proc, allocated, rfl⟩
  · exact known.congr procs
      (by simpa [traits, Function.comp_def] using congrArg (·.map (·.2.1)) same)
  · intro i other found
    rw [withType, Array.getElem?_push] at found
    split at found
    · cases found
      simp [TypeRecord.under]
    · exact known i other found
  · exact known.congr procs (map_withStatic _ (fun _ _ => rfl) _ _ _)
  · intro i record found other listed
    rw [withVerb, Array.getElem?_modify] at found
    split at found
    · obtain ⟨old, there, rfl⟩ := Option.map_eq_some_iff.mp found
      rcases Array.mem_push.mp listed with before | rfl
      · exact known i old there other before
      · exact allocated
    · exact known i record found other listed

/-- A slot is the place at which its variable stands, as far as 32 bits hold it. -/
def Slotted (tree : ObjectTree) : Prop :=
  ∀ (i : Nat) (record : TypeRecord) (name : String) (slot : UInt32), tree.types[i]? = some record →
    record.statics[name]? = some slot → ∃ place, tree.statics[place]? = some name ∧
      slot = UInt32.ofNat place

theorem slotted_empty : Slotted .empty := by
  intro i record name slot found has
  obtain ⟨inside, rfl⟩ := Array.getElem?_eq_some_iff.mp found
  obtain rfl : i = 0 := by simpa [empty] using inside
  simp [empty] at has

theorem Slotted.congr (slotted : tree.Slotted) (names : later.statics = tree.statics)
    (same : later.types.map (·.statics) = tree.types.map (·.statics)) : later.Slotted := by
  intro i record name slot found has
  obtain ⟨old, found', equal⟩ := exists_of_map_eq same found
  rw [names]
  exact slotted i old name slot found' (equal ▸ has)

theorem Change.slotted (change : Change tree later) (slotted : tree.Slotted) : later.Slotted := by
  rcases change.traits_cases with ⟨same, -, names⟩ | ⟨segment, above, parent, record, -, -,
    inherited, rfl⟩ |
    ⟨type, name, rfl⟩ | ⟨type, proc, -, rfl⟩
  · exact slotted.congr names
      (by simpa [traits, Function.comp_def] using congrArg (·.map (·.2.2)) same)
  · -- A new type has the slots of the type above it.
    intro i other name slot found has
    rw [withType, Array.getElem?_push] at found
    split at found
    · cases found
      exact slotted parent.index record name slot inherited has
    · exact slotted i other name slot found has
  · -- Places of other variables stay when one is added at the end.
    have older {place : Nat} {other : String} (stands : tree.statics[place]? = some other) :
        (tree.withStatic type name).statics[place]? = some other := by
      have inside := (Array.getElem?_eq_some_iff.mp stands).1
      rw [withStatic, Array.getElem?_push, if_neg (Nat.ne_of_lt inside), stands]
    have before (i : Nat) (old : TypeRecord) (other : String) (slot : UInt32)
        (found : tree.types[i]? = some old) (has : old.statics[other]? = some slot) :
        ∃ place, (tree.withStatic type name).statics[place]? = some other ∧
          slot = UInt32.ofNat place := by
      obtain ⟨place, stands, same⟩ := slotted i old other slot found has
      exact ⟨place, older stands, same⟩
    intro i record other slot found has
    rw [withStatic, Array.getElem?_modify] at found
    split at found
    · obtain ⟨old, there, rfl⟩ := Option.map_eq_some_iff.mp found
      rw [Std.TreeMap.getElem?_insert] at has
      split at has
      · next same =>
        cases has
        have new : (tree.withStatic type name).statics[tree.statics.size]? = some name := by
          simp [withStatic]
        exact ⟨tree.statics.size, Std.LawfulEqCmp.eq_of_compare same ▸ new, rfl⟩
      · exact before i old other slot there has
    · exact before i record other slot found has
  · exact slotted.congr rfl (map_withVerb _ (fun _ _ => rfl) _ _ _)

-- Who a proc is, which is settled when it is allocated.
def identities (tree : ObjectTree) : Array (ProcId × Option TypeId × String) :=
  tree.procs.map fun proc => (proc.id, proc.owner, proc.name)

theorem identities_linked (tree : ObjectTree) (registration : Registration) :
    (tree.linked registration).identities = tree.identities := by
  rw [identities, linked, map_modify (by intro _; rfl)]
  rfl

theorem Change.identities_cases (change : Change tree later) :
    (later.identities = tree.identities ∧ later.globals = tree.globals) ∨
      (∃ name owner flags, later = tree.withProc name owner flags) ∨
      ∃ name flags, tree.globals.contains name = false ∧ later = tree.published name flags := by
  obtain ⟨op, change⟩ := change
  cases change with
  | allocate => exact .inr (.inl ⟨_, _, _, rfl⟩)
  | publish fresh => exact .inr (.inr ⟨_, _, fresh, rfl⟩)
  | register => exact .inl ⟨identities_linked _ _, rfl⟩
  | finish =>
    refine .inl ⟨?_, ?_⟩
    · exact foldl_linked identities identities_linked _ _
    · exact foldl_linked (·.globals) (fun _ _ => rfl) _ _
  | params =>
    refine .inl ⟨?_, rfl⟩
    rw [identities, withParams, map_modify (by intro _; rfl)]
    rfl
  | mark =>
    refine .inl ⟨?_, rfl⟩
    rw [identities, marked, map_modify (by intro _; rfl)]
    rfl
  | declare _ gains =>
    cases gains
    exact .inl ⟨rfl, rfl⟩
  | reparent | assign | static | verb => exact .inl ⟨rfl, rfl⟩

structure Published (tree : ObjectTree) : Prop where
  init : 0 < tree.procs.size
  ids : ∀ (i : Nat) (proc : Proc), tree.procs[i]? = some proc → proc.id = .ofIndex i
  globals : ∀ name proc, tree.globalProc? name = some proc → proc ≠ .globalInit ∧
    ∃ entry, tree.proc? proc = some entry ∧ entry.owner = none ∧ entry.name = name

theorem published_empty : Published .empty := by
  refine ⟨by simp [empty], ?_, ?_⟩
  · intro i proc found
    obtain ⟨inside, rfl⟩ := Array.getElem?_eq_some_iff.mp found
    obtain rfl : i = 0 := by simpa [empty] using inside
    rfl
  · intro name proc found
    simp [globalProc?, empty] at found

theorem proc?_withProc (tree : ObjectTree) (name : String) (owner : Option TypeId)
    (flags : ProcFlags) {id : ProcId} {proc : Proc} (found : tree.proc? id = some proc) :
    (tree.withProc name owner flags).proc? id = some proc := by
  have inside := (Array.getElem?_eq_some_iff.mp found).1
  rw [proc?, withProc, Array.getElem?_push, if_neg (Nat.ne_of_lt inside)]
  exact found

theorem Published.withProc (published : tree.Published) (name : String) (owner : Option TypeId)
    (flags : ProcFlags) :
    (tree.withProc name owner flags).Published := by
  refine ⟨by simp [ObjectTree.withProc], ?_, ?_⟩
  · intro i proc found
    rw [ObjectTree.withProc, Array.getElem?_push] at found
    split at found
    · next last =>
      cases found
      rw [last]
    · exact published.ids i proc found
  · intro other proc there
    obtain ⟨apart, entry, found, same⟩ := published.globals other proc there
    exact ⟨apart, entry, proc?_withProc tree name owner flags found, same⟩

theorem Change.published (change : Change tree later) (published : tree.Published)
    (few : later.procs.size < UInt32.size) : later.Published := by
  rcases change.identities_cases with ⟨same, globals⟩ | ⟨name, owner, flags, rfl⟩ | ⟨name,
    flags, -, rfl⟩
  · refine ⟨Nat.lt_of_lt_of_le published.init change.grows.procs, ?_, ?_⟩
    · intro i proc found
      obtain ⟨old, found', equal⟩ := exists_of_map_eq same found
      exact (Prod.mk.inj equal).1 ▸ published.ids i old found'
    · intro name proc there
      rw [globalProc?, globals] at there
      obtain ⟨apart, old, found', free, named⟩ := published.globals name proc there
      obtain ⟨entry, found, equal⟩ := exists_of_map_eq same.symm found'
      obtain ⟨-, equal⟩ := Prod.mk.inj equal
      obtain ⟨owner, own⟩ := Prod.mk.inj equal
      exact ⟨apart, entry, found, owner.trans free, own.trans named⟩
  · exact published.withProc name owner flags
  · have before := published.withProc name none flags
    refine ⟨before.init, before.ids, ?_⟩
    intro other proc there
    rw [globalProc?, ObjectTree.published, Std.TreeMap.getElem?_insert] at there
    split at there
    · next same =>
      cases there
      obtain rfl : name = other := Std.LawfulEqCmp.eq_of_compare same
      simp only [ObjectTree.published, ObjectTree.withProc, Array.size_push] at few
      have place : (ProcId.ofIndex tree.procs.size).index = tree.procs.size := by
        rw [ProcId.ofIndex, ProcId.index, UInt32.toNat_ofNat_of_lt' (by omega)]
      refine ⟨?_, ?_⟩
      · -- The first place is taken.
        intro first
        have zero : (ProcId.ofIndex tree.procs.size).index = 0 := congrArg ProcId.index first
        have := published.init
        omega
      · rw [proc?, place, ObjectTree.published, ObjectTree.withProc, Array.getElem?_push_size]
        exact ⟨_, rfl, rfl, rfl⟩
    · exact before.globals other proc there

def Flagged (tree : ObjectTree) : Prop := ∀ id, (tree.standing id).2 = (tree.standing id).1.isSome

theorem Flagged.linked (flagged : tree.Flagged) {entry : Registration}
    (known : entry.proc.index < tree.procs.size) :
    (tree.linked entry).Flagged := by
  intro id
  by_cases same : entry.proc = id
  · rw [← same, standing_linked_self known]
  · rw [standing_linked_of_ne same]
    exact flagged id

theorem Flagged.run (flagged : tree.Flagged) {entries : List Registration}
    (known : ∀ entry ∈ entries, entry.proc.index < tree.procs.size) :
      (entries.foldl ObjectTree.linked tree).Flagged := by
  induction entries generalizing tree with
  | nil => exact flagged
  | cons entry rest ih =>
    refine ih (flagged.linked (known entry (by simp))) ?_
    intro other member
    simpa using known other (by simp [member])

theorem flagged_empty : Flagged .empty := by
  intro id
  rw [idle_empty id (by simp [empty])]
  rfl

theorem Change.flagged (change : Change tree later) (coherent : tree.Coherent)
    (flagged : tree.Flagged) :
    later.Flagged := by
  have keep (same : ∀ id, later.standing id = tree.standing id) : later.Flagged := by
    intro id
    rw [same]
    exact flagged id
  obtain ⟨op, change⟩ := change
  cases change with
  | register _ registrable => exact flagged.linked registrable.2.2
  | finish =>
    have cleared : tree.numbered.cleared.Flagged := flagged
    exact cleared.run fun entry member =>
      (coherent.registrations entry (Array.mem_toList_iff.mp member)).2
  | allocate | publish => exact keep fun id => standing_withProc ..
  | params => exact keep fun id => standing_withParams ..
  | mark => exact keep fun id => standing_marked ..
  | declare _ gains =>
    cases gains
    exact keep fun _ => rfl
  | reparent | assign | static | verb => exact keep fun _ => rfl

end

section

variable {tree : ObjectTree}

/-- A proc is held in some table of the tree, or is what another redefines. -/
inductive Holds (tree : ObjectTree) (proc : ProcId) : Prop
  | table {id : TypeId} {record : TypeRecord} (found : tree.type? id = some record)
      (lists : record.Lists proc)
  | verb {id : TypeId} {record : TypeRecord} (found : tree.type? id = some record)
      (listed : proc ∈ record.verbs)
  | super {id : ProcId} {entry : Proc} (found : tree.proc? id = some entry)
      (redefines : entry.super = some proc)
  | global {name : String} (published : tree.globalProc? name = some proc)

structure Represented (tree : ObjectTree) : Prop where
  ids : ∀ (i : Nat) (record : TypeRecord), tree.types[i]? = some record → record.id = .ofIndex i
  paths : ∀ path id, tree.findPath? path = some id ↔ ∃ record, tree.type? id = some record ∧
    record.path = path
  declared : ∀ path above, (tree.findPath? path).isSome → path.parent? = some above →
    (tree.findPath? above).isSome
  root : tree.findPath? .root = some .root
  parentless : ∀ id record, tree.type? id = some record → (record.parent = none ↔ id = .root)
  parents : ∀ id record parent, tree.type? id = some record → record.parent = some parent →
    parent.index < tree.types.size
  chains : ∀ id : TypeId, id.index < tree.types.size → tree.Descends id .root
  acyclic : ∀ id, ¬ Relation.TransGen (fun id above => tree.parent? id = some above) id id
  held : ∀ proc, tree.Holds proc → proc.index < tree.procs.size
  procIds : ∀ (i : Nat) (proc : Proc), tree.procs[i]? = some proc → proc.id = .ofIndex i
  globals : ∀ name proc, tree.globalProc? name = some proc → proc ≠ .globalInit ∧
    ∃ entry, tree.proc? proc = some entry ∧ entry.owner = none ∧ entry.name = name
  distinct : ∀ name other proc, tree.globalProc? name = some proc →
    tree.globalProc? other = some proc → name = other
  flags : ∀ id entry, tree.proc? id = some entry →
    (entry.flags.overriding = true ↔ entry.super.isSome)

theorem Slotted.staticName? (slotted : tree.Slotted) (few : tree.statics.size ≤ UInt32.size)
    {id : TypeId} {record : TypeRecord} {name : String} {slot : UInt32}
    (found : tree.type? id = some record) (has : record.statics[name]? = some slot) :
    tree.staticName? slot = some name := by
  obtain ⟨place, stands, rfl⟩ := slotted id.index record name slot found has
  have inside := (Array.getElem?_eq_some_iff.mp stands).1
  rw [ObjectTree.staticName?, UInt32.toNat_ofNat_of_lt' (by omega)]
  exact stands

theorem Depth.top {id : TypeId} {depth : Nat} (here : tree.Depth id depth) :
    tree.parent? .root = none := by
  induction here with
  | root _ top => exact top
  | under _ _ ih => exact ih

theorem parent?_of_type? {id : TypeId} {record : TypeRecord} (found : tree.type? id = some record) :
    tree.parent? id = record.parent := by
  rw [parent?, found, Option.bind_some]

theorem Rooted.parentless (rooted : tree.Rooted) {id : TypeId} {record : TypeRecord}
    (found : tree.type? id = some record) :
    record.parent = none ↔ id = .root := by
  obtain ⟨depth, here⟩ := rooted.depth id (known_of_type? found)
  rw [← parent?_of_type? found]
  constructor
  · intro none
    cases here with
    | root => rfl
    | under link =>
      rw [none] at link
      cases link
  · rintro rfl
    exact here.top

theorem Rooted.parent_known (rooted : tree.Rooted) {id parent : TypeId}
    (link : tree.parent? id = some parent) :
    parent.index < tree.types.size :=
  rooted.descends_known (known_of_parent? link) (.single link)

theorem Rooted.acyclic (rooted : tree.Rooted) (id : TypeId) :
    ¬ Relation.TransGen (fun id above => tree.parent? id = some above) id id := by
  intro loop
  obtain ⟨parent, link, back⟩ := Relation.TransGen.head'_iff.mp loop
  -- Around the loop the depth would fall below itself.
  obtain ⟨depth, above⟩ := rooted.depth parent (rooted.parent_known link)
  obtain ⟨less, here, le, -⟩ := Descends.depth_le back above
  have same := here.unique (.under link above)
  omega

theorem Holds.known {proc : ProcId} (holds : tree.Holds proc) (closed : tree.Closed)
    (coherent : tree.Coherent)
    (dated : tree.Dated tree.registrations.toList tree.registrations.toList)
    (verbs : tree.VerbsKnown) :
    proc.index < tree.procs.size := by
  cases holds with
  | table found lists => exact closed.listed _ _ proc found lists
  | verb found listed => exact verbs _ _ found proc listed
  | super found redefines =>
    -- What is redefined was registered, and only procs that exist are.
    obtain ⟨before, entry, after, split, -, earlier, member, rfl⟩ :=
      dated.links _ proc ⟨_, found, redefines⟩
    refine (coherent.registrations earlier (Array.mem_toList_iff.mp ?_)).2
    rw [split]
    exact List.mem_append_left _ member
  | global published => exact closed.global _ proc published

theorem Reachable.mapped (reachable : tree.Reachable) (few : tree.types.size < UInt32.size) :
    tree.Mapped := by
  have step (tree later : ObjectTree) (change : Change tree later)
      (mapped : tree.types.size < UInt32.size → tree.Mapped)
      (few : later.types.size < UInt32.size) : later.Mapped :=
    change.mapped (mapped (Nat.lt_of_le_of_lt change.grows.types few)) few
  exact reachable.changes.invariant step (fun _ => mapped_empty) few

theorem Reachable.published (reachable : tree.Reachable) (few : tree.procs.size < UInt32.size) :
    tree.Published := by
  have step (tree later : ObjectTree) (change : Change tree later)
      (published : tree.procs.size < UInt32.size → tree.Published)
      (few : later.procs.size < UInt32.size) :
      later.Published :=
    change.published (published (Nat.lt_of_le_of_lt change.grows.procs few)) few
  exact reachable.changes.invariant step (fun _ => published_empty) few

theorem Reachable.verbsKnown (reachable : tree.Reachable) : tree.VerbsKnown :=
  reachable.changes.invariant (fun _ _ change => change.verbsKnown) verbsKnown_empty

theorem Reachable.slotted (reachable : tree.Reachable) : tree.Slotted :=
  reachable.changes.invariant (fun _ _ change => change.slotted) slotted_empty

theorem Reachable.flagged (reachable : tree.Reachable) : tree.Flagged := by
  have both := reachable.changes.invariant
    (fun _ _ change (both : _ ∧ _) => And.intro (change.coherent both.1)
      (change.flagged both.1 both.2))
    (And.intro coherent_empty flagged_empty)
  exact both.2

theorem Reachable.represents (reachable : tree.Reachable) (types : tree.types.size < UInt32.size)
    (procs : tree.procs.size < UInt32.size) : tree.Represented := by
  have rooted := reachable.rooted types
  have mapped := reachable.mapped types
  have published := reachable.published procs
  refine
    { ids := ?_, paths := mapped.paths, declared := ?_, root := reachable.coherent.root,
      parentless := ?_, parents := ?_, chains := ?_, acyclic := rooted.acyclic, held := ?_,
      procIds := published.ids, globals := published.globals, distinct := ?_, flags := ?_ }
  · intro i record found
    rw [← rooted.ids i record found]
    simp [TypeId.ofIndex, TypeId.index]
  · intro path above declared found
    obtain ⟨segment, rfl⟩ := TypePath.parent?_eq_some found
    simpa using mapped.above segment above.segments.reverse declared
  · intro id record found
    exact rooted.parentless found
  · intro id record parent found own
    exact rooted.parent_known ((parent?_of_type? found).trans own)
  · intro id known
    obtain ⟨depth, here⟩ := rooted.depth id known
    exact here.descends_root
  · intro proc holds
    exact holds.known reachable.closed reachable.coherent reachable.dated reachable.verbsKnown
  · intro name other proc here there
    obtain ⟨-, entry, found, -, rfl⟩ := published.globals name proc here
    obtain ⟨-, entry', found', -, rfl⟩ := published.globals other proc there
    rw [found] at found'
    cases found'
    rfl
  · intro id entry found
    have flag := reachable.flagged id
    rw [standing_of_proc? found] at flag
    exact Bool.eq_iff_iff.mp flag

/-- Whatever history led to it, a tree is represented well. A slot has 32 bits, so it names its
variable as long as there are no more variables than slots. -/
theorem Reachable.represented (reachable : tree.Reachable) (types : tree.types.size < UInt32.size)
    (procs : tree.procs.size < UInt32.size) :
    tree.Represented ∧
      (tree.statics.size ≤ UInt32.size → ∀ id record name slot, tree.type? id = some record →
        record.statics[name]? = some slot → tree.staticName? slot = some name) :=
  ⟨reachable.represents types procs, fun few _ _ _ _ found has =>
    reachable.slotted.staticName? few found has⟩

def eventful : List TreeOp :=
  [.declare ⟨["mob", "player"]⟩, .declare ⟨["thing"]⟩, .newProc ⟨1⟩ "Act" {},
    .newProc ⟨2⟩ "Act" { verb := true }, .newGlobalProc "log" {}, .newGlobalProc "log" {},
    .addStatic ⟨1⟩ "count", .addStatic ⟨2⟩ "total", .addVerb ⟨2⟩ ⟨2⟩, .addVerb ⟨9⟩ ⟨1⟩,
    .setParent ⟨1⟩ ⟨2⟩, .setParent ⟨1⟩ ⟨3⟩, .declare ⟨["mob", "player", "guest"]⟩, .finalize,
    .declare ⟨["turf"]⟩]

theorem represented_eventful :
    (TreeOp.build eventful).types.size < UInt32.size ∧
      (TreeOp.build eventful).procs.size < UInt32.size ∧
      (TreeOp.build eventful).Represented ∧
      (TreeOp.build eventful).staticName? 1 = some "total" ∧
        (TreeOp.build eventful).standing ⟨2⟩ = (some ⟨1⟩, true) ∧
      (TreeOp.build eventful).globalProc? "log" = some ⟨3⟩ ∧
        (TreeOp.build eventful).Descends ⟨4⟩ .root := by
  have types : (TreeOp.build eventful).types.size < UInt32.size := by decide +kernel
  have procs : (TreeOp.build eventful).procs.size < UInt32.size := by decide +kernel
  obtain ⟨represented, statics⟩ := (TreeOp.reachable_build eventful).represented types procs
  have inherits : ((TreeOp.build eventful).type? ⟨4⟩).bind (·.statics["total"]?) = some 1 := by
    decide +kernel
  obtain ⟨record, found, has⟩ := Option.bind_eq_some_iff.mp inherits
  exact ⟨types, procs, represented, statics (by decide +kernel) ⟨4⟩ record "total" 1 found has,
    by decide +kernel, by decide +kernel, represented.chains ⟨4⟩ (by decide +kernel)⟩

-- What bounds on types and procs do not give: slots wrap around, and
-- the text of a path does not tell its segments.

theorem after_addStatic {type : TypeId} (known : type.index < tree.types.size) (name : String) :
    (TreeOp.addStatic type name).run.after tree = tree.withStatic type name := by
  have added :
      (TreeOp.addStatic type name).run.Leads tree (fun _ later => later = tree.withStatic type name)
      (· = tree.withStatic type name) := by
    rw [TreeOp.run, TreeUpdate.leads_discard, TreeUpdate.leads_addStatic]
    exact ⟨fun _ => rfl, fun unknown => absurd known unknown⟩
  exact added.after

def crowded (count : Nat) : List TreeOp := .replicate count (.addStatic .root "a") ++
    [.addStatic .root "b"]

theorem build_replicate_addStatic (count : Nat) (name : String) :
    (TreeOp.build (.replicate count (.addStatic .root name))).types.size = 1 ∧
      (TreeOp.build (.replicate count (.addStatic .root name))).procs.size = 1 ∧
        (TreeOp.build (.replicate count (.addStatic .root name))).statics =
          .replicate count name := by
  induction count with
  | zero => exact ⟨rfl, rfl, rfl⟩
  | succ count ih =>
    obtain ⟨types, procs, statics⟩ := ih
    rw [List.replicate_succ', TreeOp.build_concat, after_addStatic (by rw [types]; decide)]
    exact ⟨by simp [withStatic, types], procs, by simp [withStatic, statics, Array.replicate_succ]⟩

theorem build_crowded {count : Nat} (nonempty : 0 < count) :
    (TreeOp.build (crowded count)).types.size = 1 ∧ (TreeOp.build (crowded count)).procs.size = 1 ∧
      (TreeOp.build (crowded count)).staticName? 0 = some "a" ∧
        ∃ record, (TreeOp.build (crowded count)).type? .root = some record ∧
          record.statics["b"]? = some (.ofNat count) := by
  obtain ⟨types, procs, statics⟩ := build_replicate_addStatic count "a"
  have root :
      TypeId.root.index < (TreeOp.build (.replicate count (.addStatic .root "a"))).types.size := by
    rw [types]
    decide
  rw [crowded, TreeOp.build_concat, after_addStatic root]
  refine ⟨by simp [withStatic, types], procs, ?_, ?_⟩
  · have first : (0 : UInt32).toNat ≠ (Array.replicate count "a").size := by
      simpa using Nat.ne_of_lt nonempty
    rw [ObjectTree.staticName?, withStatic, statics, Array.getElem?_push, if_neg first]
    simp [nonempty]
  · have held := Array.getElem?_eq_getElem root
    refine ⟨_, (TypeId.getElem?_modify ..).trans (congrArg _ held), ?_⟩
    simp [statics]

theorem represented_limits :
    ((TreeOp.build (crowded UInt32.size)).types.size = 1 ∧
      (TreeOp.build (crowded UInt32.size)).procs.size = 1 ∧
      (TreeOp.build (crowded UInt32.size)).staticName? 0 = some "a" ∧
        ∃ record, (TreeOp.build (crowded UInt32.size)).type? .root = some record ∧
          record.statics["b"]? = some 0) ∧
    (TypePath.text ⟨["a/b"]⟩ = "/a/b" ∧
      (TreeOp.build [.declare ⟨["a/b"]⟩]).findPath? ⟨["a/b"]⟩ = some ⟨1⟩ ∧
      (TreeOp.build [.declare ⟨["a/b"]⟩]).find? "/a" = none) :=
  ⟨build_crowded (by decide), by decide +kernel, by decide +kernel, by decide +kernel⟩

end

end ObjectTree

end ProcLowering
