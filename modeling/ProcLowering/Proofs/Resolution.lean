import ProcLowering.Proofs.Hierarchy

set_option autoImplicit false

namespace ProcLowering

theorem ProcId.index_injective {a b : ProcId} (same : a.index = b.index) : a = b := by
  cases a
  cases b
  exact congrArg ProcId.mk (UInt32.toNat_inj.mp same)

def Registration.last? (entries : List Registration) (type : TypeId) (name : String) :
    Option ProcId :=
  (entries.filter fun entry => entry.type = type ∧ entry.name = name).getLast?.map (·.proc)

theorem Registration.last?_append (entries : List Registration) (entry : Registration)
    (type : TypeId) (name : String) :
    last? (entries ++ [entry]) type name =
      if entry.type = type ∧ entry.name = name then some entry.proc
        else last? entries type name := by
  unfold last?
  rw [List.filter_append, List.filter_singleton]
  by_cases same : entry.type = type ∧ entry.name = name <;> simp [same]

theorem Registration.last?_eq_none {entries : List Registration} {type : TypeId}
    (other : ∀ entry ∈ entries, entry.type ≠ type) (name : String) :
      last? entries type name = none := by
  have empty : (entries.filter fun entry => entry.type = type ∧ entry.name = name) = [] := by
    rw [List.filter_eq_nil_iff]
    intro entry member
    simp [other entry member]
  rw [last?, empty]
  rfl

theorem Registration.exists_final {entries : List Registration} {id : ProcId}
    (registered : ∃ entry ∈ entries, entry.proc = id) :
    ∃ before entry after, entries = before ++ entry :: after ∧ entry.proc = id ∧ ∀ other ∈ after,
      other.proc ≠ id := by
  induction entries with
  | nil => simp at registered
  | cons first rest ih =>
    by_cases again : ∃ entry ∈ rest, entry.proc = id
    · obtain ⟨before, entry, after, split, own, alone⟩ := ih again
      exact ⟨first :: before, entry, after, by rw [split, List.cons_append], own, alone⟩
    · obtain ⟨entry, member, own⟩ := registered
      rcases List.mem_cons.mp member with rfl | later
      · exact ⟨[], entry, rest, rfl, own, fun other inside same => again ⟨other, inside, same⟩⟩
      · exact (again ⟨entry, later, own⟩).elim

namespace TypeRecord

variable {record : TypeRecord} {name : String}

theorem contains_of_proc? {proc : ProcId} (found : record.proc? name = some proc) :
    record.own.contains name = true ∨ record.overriding.contains name = true := by
  rw [proc?, Option.or_eq_some_iff] at found
  rcases found with overrides | ⟨-, owns⟩
  · exact .inr (by simp [← Std.TreeMap.isSome_getElem?_eq_contains, overrides])
  · exact .inl (by simp [← Std.TreeMap.isSome_getElem?_eq_contains, owns])

theorem contains_own_insertProc (owns : record.own.contains name = true) {other : String}
    {proc : ProcId} {overrides : Bool} :
    (record.insertProc other proc overrides).own.contains name = true := by
  cases overrides <;> simp [insertProc, Std.TreeMap.contains_insert, owns]

theorem proc?_insertProc {proc : ProcId} {overrides : Bool}
    (free : overrides = false → record.overriding.contains name = false) (other : String) :
    (record.insertProc name proc overrides).proc? other = if name = other then some proc
      else record.proc? other := by
  by_cases same : name = other
  · subst same
    cases overrides with
    | true => simp [insertProc, proc?]
    | false =>
      -- The table of redefinitions comes first, so it must not have the name.
      have none : record.overriding[name]? = none :=
        Std.TreeMap.getElem?_eq_none_of_contains_eq_false (free rfl)
      simp [insertProc, proc?, none]
  · cases overrides <;> simp [insertProc, proc?, Std.TreeMap.getElem?_insert, same]

end TypeRecord

namespace ObjectTree

/-- What a name denotes on a type, given the parents and a list of registrations. -/
inductive Denotes (tree : ObjectTree) (entries : List Registration) (name : String) :
    TypeId → Option ProcId → Prop
  | here {type : TypeId} {proc : ProcId} (last : Registration.last? entries type name = some proc) :
      Denotes tree entries name type (some proc)
  | inherited {type parent : TypeId} {found : Option ProcId}
      (silent : Registration.last? entries type name = none)
      (link : tree.parent? type = some parent) (above : Denotes tree entries name parent found) :
      Denotes tree entries name type found
  | nowhere {type : TypeId} (silent : Registration.last? entries type name = none)
      (top : tree.parent? type = none) :
      Denotes tree entries name type none

section

variable {tree later : ObjectTree} {entries : List Registration} {name : String} {type : TypeId}

theorem Denotes.unique {found other : Option ProcId}
    (denotes : tree.Denotes entries name type found)
    (denotes' : tree.Denotes entries name type other) : found = other := by
  induction denotes with
  | here last =>
    cases denotes' with
    | here last' => exact last.symm.trans last'
    | inherited silent | nowhere silent =>
      rw [silent] at last
      cases last
  | inherited silent link above ih =>
    cases denotes' with
    | here last =>
      rw [silent] at last
      cases last
    | inherited _ link' above' =>
      rw [link] at link'
      cases link'
      exact ih above'
    | nowhere _ top =>
      rw [link] at top
      cases top
  | nowhere silent top =>
    cases denotes' with
    | here last =>
      rw [silent] at last
      cases last
    | inherited _ link =>
      rw [top] at link
      cases link
    | nowhere => rfl

theorem Denotes.congr (same : ∀ id, later.parent? id = tree.parent? id) {found : Option ProcId}
    (denotes : tree.Denotes entries name type found) : later.Denotes entries name type found := by
  induction denotes with
  | here last => exact .here last
  | inherited silent link _ ih => exact .inherited silent ((same _).trans link) ih
  | nowhere silent top => exact .nowhere silent ((same _).trans top)

end

theorem climb_congr {tree later : ObjectTree} (same : ∀ id, later.type? id = tree.type? id)
    (fuel : Nat) (start : Option TypeId) : later.climb fuel start = tree.climb fuel start := by
  induction fuel generalizing start with
  | zero => rfl
  | succ fuel ih =>
    cases start with
    | none => rfl
    | some id => simp [climb, same, ih]

theorem type?_linked (tree : ObjectTree) (entry : Registration) (id : TypeId) :
    (tree.linked entry).type? id = (tree.type? id).map fun record =>
      if id = entry.type then
        record.insertProc entry.name entry.proc (tree.redefined? entry.type entry.name).isSome
      else record := by
  rw [type?, linked, TypeId.getElem?_modify, type?]

theorem proc?_linked (tree : ObjectTree) (entry : Registration) (id : ProcId) :
    (tree.linked entry).proc? id = (tree.proc? id).map fun proc =>
      if id = entry.proc then proc.linkedTo (tree.redefined? entry.type entry.name) else proc := by
  rw [proc?, linked, Array.getElem?_modify]
  by_cases same : id = entry.proc
  · simp [same, proc?]
  · have apart : entry.proc.index ≠ id.index :=
      fun equal => same (ProcId.index_injective equal.symm)
    simp [same, apart, proc?]

theorem parent?_linked (tree : ObjectTree) (entry : Registration) (id : TypeId) :
    (tree.linked entry).parent? id = tree.parent? id :=
  parent?_congr (map_linked _ (fun _ _ => rfl) (fun _ _ => rfl) tree entry) id

theorem Rooted.linked {tree : ObjectTree} (rooted : tree.Rooted) (entry : Registration) :
    (tree.linked entry).Rooted :=
  rooted.congr (map_linked _ (fun _ _ => rfl) (fun _ _ => rfl) tree entry)

namespace Rooted

variable {tree : ObjectTree} {id : TypeId} {record : TypeRecord} {name : String}

theorem findProc?_eq (rooted : tree.Rooted) (found : tree.type? id = some record) (name : String) :
    tree.findProc? id name =
      (record.proc? name).or ((tree.parent? id).bind (tree.findProc? · name)) := by
  rw [findProc?, visible?, rooted.lineage_eq found, List.findSome?_cons, parent?, found,
    Option.bind_some]
  cases record.proc? name with
  | some proc => rfl
  | none => cases record.parent <;> rfl

theorem hasProc_iff (rooted : tree.Rooted) (known : id.index < tree.types.size) :
    tree.hasProc id name = true ↔
      ∃ above record, tree.Descends id above ∧ tree.type? above = some record ∧
        record.own.contains name = true := by
  rw [hasProc, declares, List.any_eq_true]
  constructor
  · rintro ⟨record, member, owns⟩
    obtain ⟨descends, found⟩ := (rooted.mem_lineage known).mp member
    exact ⟨record.id, record, descends, found, owns⟩
  · rintro ⟨above, record, descends, found, owns⟩
    obtain rfl := rooted.id_eq found
    exact ⟨record, (rooted.mem_lineage known).mpr ⟨descends, found⟩, owns⟩

theorem hasProc_below (rooted : tree.Rooted) (known : id.index < tree.types.size) {above : TypeId}
    (descends : tree.Descends id above) (declared : tree.hasProc above name = true) :
      tree.hasProc id name = true := by
  obtain ⟨top, record, more, found, owns⟩ :=
    (rooted.hasProc_iff (rooted.descends_known known descends)).mp declared
  exact (rooted.hasProc_iff known).mpr ⟨top, record, descends.trans more, found, owns⟩

theorem hasProc_of_redefined? (rooted : tree.Rooted) {proc : ProcId}
    (found : tree.redefined? id name = some proc) :
    tree.hasProc id name = true := by
  obtain ⟨record, there, redefines⟩ := Option.bind_eq_some_iff.mp found
  obtain ⟨declared, -⟩ := Option.ite_none_right_eq_some.mp redefines
  rwa [rooted.lineageOf_eq there] at declared

theorem hasProc_linked (rooted : tree.Rooted) (known : id.index < tree.types.size)
    (entry : Registration) (declared : tree.hasProc id name = true) :
    (tree.linked entry).hasProc id name = true := by
  -- Linking keeps the parents and takes no declaration away.
  obtain ⟨above, record, descends, found, owns⟩ := (rooted.hasProc_iff known).mp declared
  have descends' : (tree.linked entry).Descends id above :=
    Relation.ReflTransGen.mono (fun id above link => (parent?_linked tree entry id).trans link)
      _ _ descends
  have found' := type?_linked tree entry above
  rw [found, Option.map_some] at found'
  refine ((rooted.linked entry).hasProc_iff (by simpa using known)).mpr ⟨above, _,
    descends', found', ?_⟩
  split
  · exact record.contains_own_insertProc owns
  · exact owns

end Rooted

/-- Every name that is redefined on a type was first declared there or above it. -/
def Backed (tree : ObjectTree) : Prop :=
  ∀ id record name, tree.type? id = some record → record.overriding.contains name = true →
    tree.hasProc id name = true

namespace Backed

variable {tree : ObjectTree}

theorem hasProc_eq (backed : tree.Backed) (rooted : tree.Rooted) {id : TypeId}
    (known : id.index < tree.types.size) (name : String) :
    tree.hasProc id name = (tree.findProc? id name).isSome := by
  rw [Bool.eq_iff_iff]
  constructor
  · intro declared
    exact Option.isSome_iff_exists.mpr (TreeUpdate.visible?_of_declares declared)
  · intro visible
    obtain ⟨proc, visible⟩ := Option.isSome_iff_exists.mp visible
    obtain ⟨above, member, denotes⟩ := List.exists_of_findSome?_eq_some visible
    obtain ⟨descends, there⟩ := (rooted.mem_lineage known).mp member
    rcases TypeRecord.contains_of_proc? denotes with owns | overrides
    · exact (rooted.hasProc_iff known).mpr ⟨above.id, above, descends, there, owns⟩
    · exact rooted.hasProc_below known descends (backed _ above name there overrides)

theorem linked (backed : tree.Backed) (rooted : tree.Rooted) (entry : Registration) :
    (tree.linked entry).Backed := by
  intro id record name found overrides
  rw [type?_linked] at found
  obtain ⟨old, there, rfl⟩ := Option.map_eq_some_iff.mp found
  apply rooted.hasProc_linked (known_of_type? there)
  by_cases before : old.overriding.contains name = true
  · exact backed id old name there before
  -- The redefinition is new, so it is the one that was registered, and its name was declared.
  split at overrides
  case isFalse => exact (before overrides).elim
  rename_i same
  subst same
  cases super : tree.redefined? entry.type entry.name with
  | none => simp [super, TypeRecord.insertProc, before] at overrides
  | some proc =>
    have renamed : entry.name = name := by
      simpa [super, TypeRecord.insertProc, Std.TreeMap.contains_insert, before] using overrides
    exact renamed ▸ rooted.hasProc_of_redefined? super

end Backed

structure Replayed (tree : ObjectTree) (entries : List Registration) : Prop where
  known : ∀ entry ∈ entries, entry.type.index < tree.types.size
  last : ∀ id record name, tree.type? id = some record →
    record.proc? name = Registration.last? entries id name
  declared : ∀ id record name, tree.type? id = some record →
    record.overriding.contains name = true →
    tree.hasProc id name = true
  super : ∀ before entry after proc, entries = before ++ entry :: after →
    (∀ other ∈ after, other.proc ≠ entry.proc) →
    tree.proc? entry.proc = some proc →
      tree.Denotes before entry.name entry.type proc.super ∧
        proc.flags.overriding = proc.super.isSome

namespace Replayed

variable {tree : ObjectTree} {entries : List Registration}

theorem denotes (replayed : tree.Replayed entries) (rooted : tree.Rooted) (id : TypeId)
    (name : String) :
    tree.Denotes entries name id (tree.findProc? id name) := by
  by_cases known : id.index < tree.types.size
  case neg =>
    -- Nothing is registered on a type that does not exist.
    have missing : tree.type? id = none := by simpa [type?] using known
    have empty : tree.findProc? id name = none := by
      rw [findProc?, lineage]
      cases tree.types.size <;> simp [climb, missing, visible?]
    rw [empty]
    apply Denotes.nowhere
    · apply Registration.last?_eq_none
      rintro entry member rfl
      exact known (replayed.known entry member)
    · rw [parent?, missing, Option.bind_none]
  obtain ⟨depth, here⟩ := rooted.depth id known
  clear known
  induction here with
  | root known top =>
    obtain ⟨record, found⟩ := exists_type? known
    have own := replayed.last _ record name found
    rw [rooted.findProc?_eq found, top]
    cases last : record.proc? name with
    | some proc => exact .here (own.symm.trans last)
    | none => exact .nowhere (own.symm.trans last) top
  | @under id parent _ link above ih =>
    obtain ⟨record, found⟩ := exists_type? (known_of_parent? link)
    have own := replayed.last _ record name found
    rw [rooted.findProc?_eq found, link]
    cases last : record.proc? name with
    | some proc => exact .here (own.symm.trans last)
    | none => exact .inherited (own.symm.trans last) link ih

theorem redefined?_eq (replayed : tree.Replayed entries) (rooted : tree.Rooted) (id : TypeId)
    (name : String) (known : id.index < tree.types.size) :
    tree.redefined? id name = tree.findProc? id name := by
  have backed : tree.Backed := replayed.declared
  obtain ⟨record, found⟩ := exists_type? known
  rw [redefined?, found, Option.bind_some, rooted.lineageOf_eq found, ← hasProc, ← findProc?,
    backed.hasProc_eq rooted known]
  cases tree.findProc? id name <;> rfl

-- What one more registration does to the tables of a type and of procs.

theorem last_linked (replayed : tree.Replayed entries) (rooted : tree.Rooted) {entry : Registration}
    (known : entry.type.index < tree.types.size) {id : TypeId} {record : TypeRecord}
    (found : (tree.linked entry).type? id = some record) (name : String) :
    record.proc? name = Registration.last? (entries ++ [entry]) id name := by
  rw [type?_linked] at found
  obtain ⟨old, there, rfl⟩ := Option.map_eq_some_iff.mp found
  have last := replayed.last id old name there
  rw [Registration.last?_append]
  by_cases same : id = entry.type
  case neg => rw [if_neg same, if_neg (fun both => same both.1.symm), last]
  subst same
  rw [if_pos rfl, TypeRecord.proc?_insertProc, last]
  · simp
  · -- A name that is not redefined denotes nothing yet, so no older redefinition is in the way.
    intro fresh
    rw [replayed.redefined?_eq rooted _ _ known, rooted.findProc?_eq there, Option.isSome_or,
      Bool.or_eq_false_iff, TypeRecord.proc?, Option.isSome_or, Bool.or_eq_false_iff,
      Std.TreeMap.isSome_getElem?_eq_contains] at fresh
    exact fresh.1.1

theorem super_linked (replayed : tree.Replayed entries) (rooted : tree.Rooted)
    {entry : Registration} (known : entry.type.index < tree.types.size)
    {before after : List Registration} {last : Registration} {proc : Proc}
    (split : entries ++ [entry] = before ++ last :: after)
    (alone : ∀ other ∈ after, other.proc ≠ last.proc)
    (found : (tree.linked entry).proc? last.proc = some proc) :
    (tree.linked entry).Denotes before last.name last.type proc.super ∧
      proc.flags.overriding = proc.super.isSome := by
  rw [proc?_linked] at found
  obtain ⟨old, there, rfl⟩ := Option.map_eq_some_iff.mp found
  -- The last registration of the proc is the new one, or an old one of another proc.
  rcases List.eq_nil_or_concat after with rfl | ⟨rest, final, rfl⟩
  · obtain ⟨rfl, ⟨⟩⟩ := List.append_inj' split rfl
    rw [if_pos rfl, Proc.linkedTo, replayed.redefined?_eq rooted _ _ known]
    exact ⟨(replayed.denotes rooted entry.type entry.name).congr (parent?_linked tree entry), rfl⟩
  · rw [List.concat_eq_append] at split alone
    rw [← List.cons_append, ← List.append_assoc] at split
    obtain ⟨rfl, ⟨⟩⟩ := List.append_inj' split rfl
    have apart : last.proc ≠ entry.proc := (alone entry (by simp)).symm
    rw [if_neg apart]
    obtain ⟨denotes, flag⟩ :=
      replayed.super before last rest old rfl
        (fun other member => alone other (by simp [member])) there
    exact ⟨denotes.congr (parent?_linked tree entry), flag⟩

theorem step (replayed : tree.Replayed entries) (rooted : tree.Rooted) {entry : Registration}
    (known : entry.type.index < tree.types.size) :
      (tree.linked entry).Replayed (entries ++ [entry]) := by
  refine ⟨?_, ?_, ?_, ?_⟩
  · intro other member
    rw [size_types_linked]
    rcases List.mem_append.mp member with before | last
    · exact replayed.known other before
    · rw [List.mem_singleton.mp last]
      exact known
  · intro id record name found
    exact replayed.last_linked rooted known found name
  · exact Backed.linked replayed.declared rooted entry
  · intro before last after proc split alone found
    exact replayed.super_linked rooted known split alone found

theorem run (replayed : tree.Replayed entries) (rooted : tree.Rooted) (rest : List Registration)
    (known : ∀ entry ∈ rest, entry.type.index < tree.types.size) :
    (rest.foldl linked tree).Replayed (entries ++ rest) := by
  induction rest generalizing tree entries with
  | nil => simpa using replayed
  | cons entry rest ih =>
    have first := replayed.step rooted (known entry (by simp))
    have more :=
      ih first (rooted.linked entry)
        fun other member => by simpa using known other (by simp [member])
    rwa [List.append_assoc, List.singleton_append] at more

theorem congr {later : ObjectTree} (replayed : tree.Replayed entries)
    (types : later.types = tree.types) (procs : later.procs = tree.procs) :
    later.Replayed entries := by
  have found (id : TypeId) : later.type? id = tree.type? id := by rw [type?, type?, types]
  have parents (id : TypeId) : later.parent? id = tree.parent? id := by rw [parent?, parent?, found]
  refine ⟨?_, ?_, ?_, ?_⟩
  · rw [types]
    exact replayed.known
  · intro id record name there
    exact replayed.last id record name ((found id).symm.trans there)
  · intro id record name there overrides
    rw [hasProc, lineage, climb_congr found, types]
    exact replayed.declared id record name ((found id).symm.trans there) overrides
  · intro before entry after proc split alone there
    rw [proc?, procs] at there
    obtain ⟨denotes, flag⟩ := replayed.super before entry after proc split alone there
    exact ⟨denotes.congr parents, flag⟩

end Replayed

theorem replayed_cleared (tree : ObjectTree) : tree.cleared.Replayed [] := by
  have empty (id : TypeId) (record : TypeRecord) (found : tree.cleared.type? id = some record) :
      record.own = ∅ ∧ record.overriding = ∅ := by
    rw [type?, cleared, Array.getElem?_map] at found
    obtain ⟨old, -, rfl⟩ := Option.map_eq_some_iff.mp found
    exact ⟨rfl, rfl⟩
  refine ⟨by simp, ?_, ?_, ?_⟩
  · intro id record name found
    obtain ⟨own, overriding⟩ := empty id record found
    simp [TypeRecord.proc?, own, overriding, Registration.last?]
  · intro id record name found overrides
    rw [(empty id record found).2] at overrides
    simp at overrides
  · intro before entry after proc split
    simp at split

section

variable {tree : ObjectTree}

-- Registrations are linked anew in the tree with its positions and without its tables.

theorem skeleton_cleared (tree : ObjectTree) : tree.numbered.cleared.skeleton = tree.skeleton := by
  have positions : tree.numbered.skeleton = tree.skeleton :=
    map_numbered (fun record => (record.id, record.parent)) (fun _ _ => rfl) (fun _ _ => rfl) tree
  rw [← positions]
  simp [skeleton, cleared, Function.comp_def, TypeRecord.clearProcs]

theorem Coherent.known_cleared (coherent : tree.Coherent) :
    ∀ entry ∈ tree.registrations.toList, entry.type.index < tree.numbered.cleared.types.size := by
  intro entry member
  rw [← size_skeleton, skeleton_cleared, size_skeleton]
  exact (coherent.registrations entry (Array.mem_toList_iff.mp member)).1

theorem Rooted.replayed (rooted : tree.Rooted) (coherent : tree.Coherent) :
    tree.finished.Replayed tree.registrations.toList := by
  have done := (replayed_cleared tree.numbered).run (rooted.congr (skeleton_cleared tree))
    tree.registrations.toList
    coherent.known_cleared
  exact done.congr rfl rfl

end

def standing (tree : ObjectTree) (id : ProcId) : Option ProcId × Bool :=
  (tree.proc? id).elim (none, false) fun proc => (proc.super, proc.flags.overriding)

section

variable {tree later : ObjectTree}

theorem standing_of_proc? {id : ProcId} {proc : Proc} (found : tree.proc? id = some proc) :
    tree.standing id = (proc.super, proc.flags.overriding) := by
  rw [standing, found, Option.elim_some]

theorem standing_withProc (tree : ObjectTree) (name : String) (owner : Option TypeId)
    (flags : ProcFlags) (id : ProcId) : (tree.withProc name owner flags).standing id =
    tree.standing id := by
  simp only [standing, proc?, withProc, Array.getElem?_push]
  split
  · rename_i last
    simp [last]
  · rfl

theorem standing_modify {change : Proc → Proc} (super : ∀ proc, (change proc).super = proc.super)
    (flag : ∀ proc, (change proc).flags.overriding = proc.flags.overriding)
    (tree : ObjectTree) (i : Nat) (id : ProcId) :
    standing { tree with procs := tree.procs.modify i change } id = tree.standing id := by
  simp only [standing, proc?, Array.getElem?_modify]
  split
  · cases tree.procs[id.index]? <;> simp [super, flag]
  · rfl

theorem standing_withParams (tree : ObjectTree) (proc : ProcId) (params : List String)
    (id : ProcId) :
    (tree.withParams proc params).standing id = tree.standing id := by
  apply standing_modify <;> intro <;> rfl

theorem standing_marked (tree : ObjectTree) (proc id : ProcId) : (tree.marked proc).standing id =
    tree.standing id := by
  apply standing_modify <;> intro <;> rfl

theorem standing_linked_of_ne {entry : Registration} {id : ProcId} (apart : entry.proc ≠ id)
    (tree : ObjectTree) :
    (tree.linked entry).standing id = tree.standing id := by
  rw [standing, standing, proc?_linked]
  simp [apart.symm]

theorem standing_linked_self {entry : Registration} (known : entry.proc.index < tree.procs.size) :
    (tree.linked entry).standing entry.proc =
      (tree.redefined? entry.type entry.name, (tree.redefined? entry.type entry.name).isSome) := by
  rw [standing, proc?_linked, proc?, Array.getElem?_eq_getElem known]
  simp [Proc.linkedTo]

theorem standing_foldl_linked {entries : List Registration} {id : ProcId}
    (free : ∀ entry ∈ entries, entry.proc ≠ id) (tree : ObjectTree) :
    (entries.foldl linked tree).standing id = tree.standing id := by
  induction entries generalizing tree with
  | nil => rfl
  | cons entry rest ih =>
    rw [List.foldl_cons, ih (fun other member => free other (by simp [member]))]
    exact standing_linked_of_ne (free entry (by simp)) tree

def Idle (tree : ObjectTree) : Prop :=
  ∀ id, (∀ entry ∈ tree.registrations, entry.proc ≠ id) → tree.standing id = (none, false)

theorem idle_empty : Idle .empty := by
  intro id _
  cases found : empty.proc? id with
  | none => rw [standing, found, Option.elim_none]
  | some proc =>
    obtain ⟨inside, rfl⟩ := Array.getElem?_eq_some_iff.mp found
    have first : id.index = 0 := by simpa [empty] using inside
    rw [standing_of_proc? found]
    simp [empty, first]

theorem Change.idle (change : Change tree later) (idle : tree.Idle) : later.Idle := by
  obtain ⟨op, change⟩ := change
  cases change with
  | allocate | publish =>
    intro id free
    exact (standing_withProc ..).trans (idle id free)
  | @register _ _ entry _ registrable =>
    intro id free
    have apart := free entry (by simp [registered])
    exact (standing_linked_of_ne apart tree).trans
      (idle id fun other member => free other (by simp [registered, member]))
  | finish =>
    intro id free
    rw [registrations_finished] at free
    exact (standing_foldl_linked (fun entry member => free entry (Array.mem_toList_iff.mp member))
      _).trans
      (idle id free)
  | params =>
    intro id free
    exact (standing_withParams ..).trans (idle id free)
  | mark =>
    intro id free
    exact (standing_marked ..).trans (idle id free)
  | declare _ gains =>
    cases gains
    exact idle
  | reparent | assign | static | verb => exact idle

end

def SameProcs (tree other : ObjectTree) : Prop :=
  ∀ id record record', tree.type? id = some record → other.type? id = some record' →
    record'.own = record.own ∧ record'.overriding = record.overriding

theorem SameProcs.linked {tree other : ObjectTree} (same : SameProcs tree other)
    {entry : Registration} (redefined : other.redefined? entry.type entry.name =
    tree.redefined? entry.type entry.name) :
    SameProcs (tree.linked entry) (other.linked entry) := by
  intro id record record' found found'
  rw [type?_linked] at found found'
  obtain ⟨old, there, rfl⟩ := Option.map_eq_some_iff.mp found
  obtain ⟨old', there', rfl⟩ := Option.map_eq_some_iff.mp found'
  obtain ⟨own, overriding⟩ := same id old old' there there'
  rw [redefined]
  split
  · unfold TypeRecord.insertProc
    split <;> simp [own, overriding]
  · exact ⟨own, overriding⟩

theorem SameProcs.run {tree other : ObjectTree} {entries : List Registration}
    (same : SameProcs tree other) (replayed : tree.Replayed entries)
    (replayed' : other.Replayed entries) (rooted : tree.Rooted) (rooted' : other.Rooted)
    (parents : ∀ id, other.parent? id = tree.parent? id) (rest : List Registration)
    (known : ∀ entry ∈ rest, entry.type.index < tree.types.size)
    (known' : ∀ entry ∈ rest, entry.type.index < other.types.size) :
    SameProcs (rest.foldl ObjectTree.linked tree) (rest.foldl ObjectTree.linked other) := by
  induction rest generalizing tree other entries with
  | nil => exact same
  | cons entry rest ih =>
    have here := known entry (by simp)
    have here' := known' entry (by simp)
    -- What the name denotes so far is fixed by the parents and the entries so far.
    have redefined : other.redefined? entry.type entry.name =
      tree.redefined? entry.type entry.name := by
      rw [replayed.redefined?_eq rooted _ _ here, replayed'.redefined?_eq rooted' _ _ here']
      exact (replayed'.denotes rooted' _ _).unique ((replayed.denotes rooted _ _).congr parents)
    apply ih (same.linked redefined) (replayed.step rooted here) (replayed'.step rooted' here')
      (rooted.linked entry)
      (rooted'.linked entry)
    · intro id
      rw [parent?_linked, parent?_linked, parents]
    · intro other member
      simpa using known other (by simp [member])
    · intro other member
      simpa using known' other (by simp [member])

theorem sameProcs_cleared (tree other : ObjectTree) : SameProcs tree.cleared other.cleared := by
  intro id record record' found found'
  rw [type?, cleared, Array.getElem?_map] at found found'
  obtain ⟨old, -, rfl⟩ := Option.map_eq_some_iff.mp found
  obtain ⟨old', -, rfl⟩ := Option.map_eq_some_iff.mp found'
  exact ⟨rfl, rfl⟩

theorem SameProcs.finished {tree other : ObjectTree} (rooted : tree.Rooted) (rooted' : other.Rooted)
    (coherent : tree.Coherent) (coherent' : other.Coherent)
    (parents : ∀ id, other.parent? id = tree.parent? id) (entries : other.registrations.toList =
    tree.registrations.toList) : SameProcs tree.finished other.finished := by
  have known' := coherent'.known_cleared
  rw [entries] at known'
  have cleared (id : TypeId) :
      other.numbered.cleared.parent? id = tree.numbered.cleared.parent? id := by
    rw [parent?_congr (skeleton_cleared tree), parent?_congr (skeleton_cleared other), parents]
  have same := (sameProcs_cleared tree.numbered other.numbered).run (replayed_cleared _)
    (replayed_cleared _) (rooted.congr (skeleton_cleared tree))
    (rooted'.congr (skeleton_cleared other)) cleared tree.registrations.toList
    coherent.known_cleared known'
  have there : other.numbered.relinked =
    tree.registrations.toList.foldl ObjectTree.linked other.numbered.cleared :=
    congrArg (·.foldl ObjectTree.linked other.numbered.cleared) entries
  intro id record record' found found'
  have last : other.numbered.relinked.type? id = some record' := found'
  rw [there] at last
  exact same id record record' found last

theorem Replayed.procs_agree {tree other : ObjectTree} {entries : List Registration}
    (replayed : tree.Replayed entries) (replayed' : other.Replayed entries)
    (parents : ∀ id, other.parent? id = tree.parent? id) {id : ProcId}
    (registered : ∃ entry ∈ entries, entry.proc = id) {proc proc' : Proc}
    (found : tree.proc? id = some proc) (found' : other.proc? id = some proc') :
    proc'.super = proc.super ∧ proc'.flags.overriding = proc.flags.overriding := by
  obtain ⟨before, entry, after, split, rfl, alone⟩ := Registration.exists_final registered
  obtain ⟨denotes, flag⟩ := replayed.super before entry after proc split alone found
  obtain ⟨denotes', flag'⟩ := replayed'.super before entry after proc' split alone found'
  have same := denotes'.unique (denotes.congr parents)
  exact ⟨same, by rw [flag, flag', same]⟩

structure Resolved (history : List TreeOp) (later : ObjectTree) : Prop where
  rooted : later.Rooted
  replayed : later.Replayed (TreeOp.log history)
  allocated : ∀ entry ∈ TreeOp.log history, entry.proc.index < later.procs.size
  idle : ∀ id proc, later.proc? id = some proc → (∀ entry ∈ TreeOp.log history, entry.proc ≠ id) →
    proc.super = none ∧ proc.flags.overriding = false

section

variable {history : List TreeOp} {later : ObjectTree}

theorem build_of_finalize (ran : TreeUpdate.finalize.run (TreeOp.build history) = .ok () later) :
    ((TreeOp.build history).finalized = false ∧ (TreeOp.build history).numbering?.isSome = true) ∧
      later = (TreeOp.build history).finished := by
  have coherent := (TreeOp.reachable_build history).coherent
  have outcome : TreeUpdate.Leads TreeUpdate.finalize (TreeOp.build history)
      (fun _ later =>
        ((TreeOp.build history).finalized = false ∧
          (TreeOp.build history).numbering?.isSome = true) ∧
          later = (TreeOp.build history).finished)
      fun _ => True :=
    (TreeUpdate.leads_finalize coherent _).mpr ⟨fun guard => ⟨guard, rfl⟩, fun _ => trivial⟩
  exact outcome.1 () later ran

theorem resolved_of_finalize (ran : TreeUpdate.finalize.run (TreeOp.build history) = .ok () later)
    (few : later.types.size < UInt32.size) : Resolved history later := by
  obtain ⟨⟨unfinished, room⟩, rfl⟩ := build_of_finalize ran
  have reachable := TreeOp.reachable_build history
  have rooted := reachable.rooted (by simpa using few)
  have finish : Change _ _ := ⟨_, .finish unfinished room⟩
  have idle := finish.idle (reachable.changes.invariant (fun _ _ change => change.idle) idle_empty)
  have entries := TreeOp.registrations_build history
  have member {entry : Registration} (logged : entry ∈ TreeOp.log history) :
      entry ∈ (TreeOp.build history).registrations := by
    rwa [← entries, Array.mem_toList_iff] at logged
  refine ⟨finish.rooted rooted few, entries ▸ rooted.replayed reachable.coherent, ?_, ?_⟩
  · intro entry logged
    rw [size_procs_finished]
    exact (reachable.coherent.registrations entry (member logged)).2
  · intro id proc found free
    have none := idle id fun entry listed =>
      free entry (by rwa [← entries, Array.mem_toList_iff, ← registrations_finished])
    rwa [standing_of_proc? found, Prod.mk.injEq] at none

theorem parents_of_finalize (ran : TreeUpdate.finalize.run (TreeOp.build history) = .ok () later)
    (id : TypeId) :
    later.parent? id = (TreeOp.build history).parent? id := by
  obtain ⟨-, rfl⟩ := build_of_finalize ran
  exact parent?_congr
    (map_finished _ (fun _ _ => rfl) (fun _ _ => rfl) (fun _ _ => rfl) (fun _ _ => rfl)
      (TreeOp.build history)) id

end

/-- Finalizing makes what names denote depend on the parents and on
the order of registrations alone. -/
theorem finalize_resolves {history : List TreeOp} {later : ObjectTree}
    (ran : TreeUpdate.finalize.run (TreeOp.build history) = .ok () later)
    (few : later.types.size < UInt32.size) :
    (∀ type name, later.Denotes (TreeOp.log history) name type (later.findProc? type name)) ∧
    (∀ before entry after, TreeOp.log history = before ++ entry :: after →
      (∀ other ∈ after, other.proc ≠ entry.proc) →
        ∃ proc, later.proc? entry.proc = some proc ∧
          later.Denotes before entry.name entry.type proc.super ∧
          (proc.flags.overriding = true ↔ proc.super.isSome)) ∧
    (∀ id proc, later.proc? id = some proc → (∀ entry ∈ TreeOp.log history, entry.proc ≠ id) →
      proc.super = none ∧ proc.flags.overriding = false) ∧
    ∀ other later', TreeUpdate.finalize.run (TreeOp.build other) = .ok () later' →
      later'.types.size < UInt32.size → (∀ id, later'.parent? id = later.parent? id) →
      TreeOp.log other = TreeOp.log history →
        (∀ id record record', later.type? id = some record → later'.type? id = some record' →
          record'.own = record.own ∧ record'.overriding = record.overriding) ∧
        (∀ type name, later'.findProc? type name = later.findProc? type name) ∧
        ∀ id proc proc', later.proc? id = some proc → later'.proc? id = some proc' →
          proc'.super = proc.super ∧ proc'.flags.overriding = proc.flags.overriding := by
  have resolved := resolved_of_finalize ran few
  refine ⟨resolved.replayed.denotes resolved.rooted, ?_, resolved.idle, ?_⟩
  · intro before entry after split alone
    have known := resolved.allocated entry (by simp [split])
    obtain ⟨proc, found⟩ : ∃ proc, later.proc? entry.proc = some proc :=
      ⟨_, Array.getElem?_eq_getElem known⟩
    obtain ⟨denotes, flag⟩ := resolved.replayed.super before entry after proc split alone found
    exact ⟨proc, found, denotes, by rw [flag]⟩
  · intro other later' ran' few' parents entries
    have resolved' := resolved_of_finalize ran' few'
    have replayed' := entries ▸ resolved'.replayed
    refine ⟨?_, ?_, ?_⟩
    · obtain ⟨-, rfl⟩ := build_of_finalize ran
      obtain ⟨-, rfl⟩ := build_of_finalize ran'
      have reachable := TreeOp.reachable_build history
      have reachable' := TreeOp.reachable_build other
      apply SameProcs.finished (reachable.rooted (by simpa using few))
        (reachable'.rooted (by simpa using few'))
        reachable.coherent reachable'.coherent
      · intro id
        rw [← parents_of_finalize ran, ← parents_of_finalize ran', parents]
      · rw [TreeOp.registrations_build, TreeOp.registrations_build, entries]
    · intro type name
      exact (replayed'.denotes resolved'.rooted type name).unique
        ((resolved.replayed.denotes resolved.rooted type name).congr parents)
    · intro id proc proc' found found'
      by_cases registered : ∃ entry ∈ TreeOp.log history, entry.proc = id
      · exact resolved.replayed.procs_agree replayed' parents registered found found'
      · have free : ∀ entry ∈ TreeOp.log history, entry.proc ≠ id :=
          fun entry member same => registered ⟨entry, member, same⟩
        obtain ⟨super, flag⟩ := resolved.idle id proc found free
        obtain ⟨super', flag'⟩ := resolved'.idle id proc' found' (entries ▸ free)
        rw [super, super', flag, flag']
        exact ⟨rfl, rfl⟩

def movedLast : List TreeOp :=
  [.declare ⟨["mob"]⟩, .declare ⟨["imp"]⟩, .newProc ⟨1⟩ "Act" {}, .newProc ⟨2⟩ "Act" {},
    .setParent ⟨2⟩ ⟨1⟩]

def movedFirst : List TreeOp :=
  [.declare ⟨["mob"]⟩, .declare ⟨["imp"]⟩, .setParent ⟨2⟩ ⟨1⟩, .newProc ⟨1⟩ "Act" {},
    .newProc ⟨2⟩ "Act" {}]

theorem finalize_resolves_moved :
    ∃ later later', TreeUpdate.finalize.run (TreeOp.build movedLast) = .ok () later ∧
      TreeUpdate.finalize.run (TreeOp.build movedFirst) = .ok () later' ∧
      (∃ proc, later.proc? ⟨2⟩ = some proc ∧
        later.Denotes [⟨⟨1⟩, "Act", ⟨1⟩⟩] "Act" ⟨2⟩ proc.super ∧
        (proc.flags.overriding = true ↔ proc.super.isSome)) ∧
      ∀ id proc proc', later.proc? id = some proc → later'.proc? id = some proc' →
        proc'.super = proc.super := by
  have ran := TreeUpdate.run_finalize (TreeOp.reachable_build movedLast).coherent
    (by decide +kernel) (by decide +kernel)
  have ran' := TreeUpdate.run_finalize (TreeOp.reachable_build movedFirst).coherent
    (by decide +kernel) (by decide +kernel)
  obtain ⟨-, super, -, agree⟩ := finalize_resolves ran (by decide +kernel)
  have logged : TreeOp.log movedLast = [⟨⟨1⟩, "Act", ⟨1⟩⟩] ++ ⟨⟨2⟩, "Act", ⟨2⟩⟩ :: [] := by
    decide +kernel
  have parents (id : TypeId) :
      (TreeOp.build movedFirst).finished.parent? id =
        (TreeOp.build movedLast).finished.parent? id :=
    parent?_congr (by decide +kernel) id
  obtain ⟨-, -, same⟩ := agree movedFirst _ ran' (by decide +kernel) parents (by decide +kernel)
  refine ⟨_, _, ran, ran', super _ _ _ logged (by simp), ?_⟩
  intro id proc proc' found found'
  exact (same id proc proc' found found').1

end ObjectTree

end ProcLowering
