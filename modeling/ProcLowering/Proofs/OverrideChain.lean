import ProcLowering.Proofs.Resolution

set_option autoImplicit false

namespace ProcLowering

/-- The second proc was registered before a registration of the first,
and again with it or after it. -/
def Registration.Returns (entries : List Registration) (id below : ProcId) : Prop :=
  ∃ before entry after, entries = before ++ entry :: after ∧ entry.proc = id ∧
    (∃ earlier ∈ before, earlier.proc = below) ∧ ∃ again ∈ entry :: after, again.proc = below

theorem Registration.not_returns {entries : List Registration} (once : (entries.map (·.proc)).Nodup)
    (id below : ProcId) : ¬ Returns entries id below := by
  rintro ⟨before, entry, after, rfl, -, ⟨earlier, first, rfl⟩, again, second, same⟩
  rw [List.map_append, List.nodup_append'] at once
  exact once.2.2 (List.mem_map_of_mem first) (same ▸ List.mem_map_of_mem second)

def Registration.Within (entries : List Registration) (place : Nat) (id : ProcId) : Prop :=
  ∀ entry ∈ entries.drop place, entry.proc ≠ id

namespace ObjectTree

def Redefines (tree : ObjectTree) (id below : ProcId) : Prop :=
  ∃ proc, tree.proc? id = some proc ∧ proc.super = some below

def Chain (tree : ObjectTree) : ProcId → ProcId → Prop := Relation.ReflTransGen tree.Redefines

def Loops (tree : ObjectTree) (id : ProcId) : Prop :=
  ∃ met, tree.Chain id met ∧ Relation.TransGen tree.Redefines met met

theorem redefines_iff {tree : ObjectTree} {id below : ProcId} :
    tree.Redefines id below ↔ (tree.standing id).1 = some below := by
  rw [Redefines, standing]
  cases tree.proc? id <;> simp

/-- Of the registrations those in `done` are linked. Every link was made by a registration, and
leads to a proc that was registered before. -/
structure Dated (tree : ObjectTree) (done entries : List Registration) : Prop where
  listed : ∀ (i : Nat) (record : TypeRecord) (proc : ProcId), tree.types[i]? = some record →
    record.Lists proc →
    ∃ entry ∈ done, entry.proc = proc
  links : ∀ id below, tree.Redefines id below →
    ∃ before entry after, entries = before ++ entry :: after ∧
    entry.proc = id ∧ ∃ earlier ∈ before, earlier.proc = below

section

variable {tree later : ObjectTree} {done entries : List Registration}

theorem lists_of_redefined? {type : TypeId} {name : String} {proc : ProcId}
    (found : tree.redefined? type name = some proc) :
    ∃ (i : Nat) (record : TypeRecord), tree.types[i]? = some record ∧ record.Lists proc := by
  obtain ⟨record, there, redefines⟩ := Option.bind_eq_some_iff.mp found
  obtain ⟨-, visible⟩ := Option.ite_none_right_eq_some.mp redefines
  obtain ⟨above, member, denotes⟩ := List.exists_of_findSome?_eq_some visible
  rcases List.mem_cons.mp member with rfl | climbed
  · exact ⟨type.index, above, there, TypeRecord.lists_of_proc? denotes⟩
  · obtain ⟨i, found⟩ := mem_climb climbed
    exact ⟨i, above, found, TypeRecord.lists_of_proc? denotes⟩

theorem redefines_linked {entry : Registration} (known : entry.proc.index < tree.procs.size)
    (id below : ProcId) :
    (tree.linked entry).Redefines id below ↔
      if id = entry.proc then tree.redefined? entry.type entry.name = some below
        else tree.Redefines id below := by
  by_cases same : id = entry.proc
  · rw [if_pos same, redefines_iff, same, standing_linked_self known]
  · rw [if_neg same, redefines_iff, redefines_iff, standing_linked_of_ne (Ne.symm same)]

theorem Dated.linked (dated : tree.Dated done entries) {entry : Registration}
    {rest : List Registration} (split : entries = done ++ entry :: rest)
    (known : entry.proc.index < tree.procs.size) :
    (tree.linked entry).Dated (done ++ [entry]) entries := by
  refine ⟨?_, ?_⟩
  · intro i record proc found lists
    have before (old : TypeRecord) (there : tree.types[i]? = some old) (lists : old.Lists proc) :
        ∃ other ∈ done ++ [entry], other.proc = proc := by
      obtain ⟨other, member, own⟩ := dated.listed i old proc there lists
      exact ⟨other, List.mem_append_left _ member, own⟩
    rw [ObjectTree.linked, Array.getElem?_modify] at found
    split at found
    · obtain ⟨old, there, rfl⟩ := Option.map_eq_some_iff.mp found
      rcases TypeRecord.lists_insertProc lists with lists | rfl
      · exact before old there lists
      · exact ⟨entry, by simp, rfl⟩
    · exact before record found lists
  · intro id below redefines
    rw [redefines_linked known] at redefines
    by_cases same : id = entry.proc
    · rw [if_pos same] at redefines
      -- What is redefined is in some table, hence linked, hence registered before.
      obtain ⟨i, record, found, lists⟩ := lists_of_redefined? redefines
      exact ⟨done, entry, rest, split, same.symm, dated.listed i record below found lists⟩
    · rw [if_neg same] at redefines
      exact dated.links id below redefines

theorem Dated.run (dated : tree.Dated done entries) {rest : List Registration}
    (split : entries = done ++ rest) (known : ∀ entry ∈ rest, entry.proc.index < tree.procs.size) :
    (rest.foldl ObjectTree.linked tree).Dated entries entries := by
  induction rest generalizing tree done with
  | nil =>
    rw [List.append_nil] at split
    exact split ▸ dated
  | cons entry rest ih =>
    apply ih (dated.linked split (known entry (by simp)))
    · rw [split, List.append_assoc, List.singleton_append]
    · intro other member
      simpa using known other (by simp [member])

theorem Dated.widen (dated : tree.Dated done entries) (more : List Registration) :
    tree.Dated done (entries ++ more) := by
  refine ⟨dated.listed, ?_⟩
  intro id below redefines
  obtain ⟨before, entry, after, split, own, earlier⟩ := dated.links id below redefines
  exact ⟨before, entry, after ++ more,
    by rw [split, List.append_assoc, List.cons_append], own, earlier⟩

theorem Dated.congr (dated : tree.Dated done entries)
    (tables : later.types.map (fun record => (record.own, record.overriding)) =
      tree.types.map fun record => (record.own, record.overriding))
    (links : ∀ id, later.standing id = tree.standing id) : later.Dated done entries := by
  refine ⟨?_, ?_⟩
  · intro i record proc found lists
    have same := congrArg (·[i]?) tables
    simp only [Array.getElem?_map, found, Option.map_some] at same
    obtain ⟨old, there, equal⟩ := Option.map_eq_some_iff.mp same.symm
    rw [Prod.mk.injEq] at equal
    apply dated.listed i old proc there
    rwa [TypeRecord.Lists, equal.1, equal.2]
  · intro id below redefines
    rw [redefines_iff, links, ← redefines_iff] at redefines
    exact dated.links id below redefines

theorem not_lists {record : TypeRecord} (own : record.own = ∅) (overriding : record.overriding = ∅)
    (proc : ProcId) :
    ¬ record.Lists proc := by
  rintro ⟨name, found | found⟩
  · simp [own] at found
  · simp [overriding] at found

theorem dated_empty : Dated .empty [] [] := by
  refine ⟨?_, ?_⟩
  · intro i record proc found lists
    obtain ⟨inside, rfl⟩ := Array.getElem?_eq_some_iff.mp found
    obtain rfl : i = 0 := by simpa [empty] using inside
    exact (not_lists rfl rfl proc lists).elim
  · intro id below redefines
    rw [redefines_iff, idle_empty id (by simp [empty])] at redefines
    cases redefines

theorem Dated.cleared (dated : tree.Dated done entries) :
    tree.numbered.cleared.Dated [] entries := by
  refine ⟨?_, dated.links⟩
  intro i record proc found lists
  rw [ObjectTree.cleared, Array.getElem?_map] at found
  obtain ⟨old, -, rfl⟩ := Option.map_eq_some_iff.mp found
  exact (not_lists rfl rfl proc lists).elim

theorem Change.dated (change : Change tree later) (coherent : tree.Coherent)
    (dated : tree.Dated tree.registrations.toList tree.registrations.toList) :
    later.Dated later.registrations.toList later.registrations.toList := by
  obtain ⟨op, change⟩ := change
  cases change with
  | declare _ gains =>
    cases gains
    refine ⟨?_, dated.links⟩
    intro i record proc found lists
    rw [withType, Array.getElem?_push] at found
    split at found
    · cases found
      exact (not_lists rfl rfl proc lists).elim
    · exact dated.listed i record proc found lists
  | register _ registrable =>
    rw [registered, Array.toList_push]
    exact ((dated.widen _).linked rfl registrable.2.2).congr rfl fun _ => rfl
  | finish =>
    rw [registrations_finished]
    have known : ∀ entry ∈ tree.registrations.toList, entry.proc.index <
      tree.numbered.cleared.procs.size :=
      fun entry member => (coherent.registrations entry (Array.mem_toList_iff.mp member)).2
    exact (dated.cleared.run rfl known).congr rfl fun _ => rfl
  | allocate | publish => exact dated.congr rfl fun id => standing_withProc ..
  | params => exact dated.congr rfl fun id => standing_withParams ..
  | mark => exact dated.congr rfl fun id => standing_marked ..
  | reparent => exact dated.congr (by rw [reparented, map_modify]; intro; rfl) fun _ => rfl
  | assign => exact dated.congr (map_withVariable _ (fun _ _ => rfl) _ _ _ _) fun _ => rfl
  | static => exact dated.congr (map_withStatic _ (fun _ _ => rfl) _ _ _) fun _ => rfl
  | verb => exact dated.congr (map_withVerb _ (fun _ _ => rfl) _ _ _) fun _ => rfl

end

section

variable {tree : ObjectTree} {done entries : List Registration} {id : ProcId}

theorem Dated.descend (dated : tree.Dated done entries) {below : ProcId}
    (redefines : tree.Redefines id below) (once : ¬ Registration.Returns entries id below)
    {place : Nat} (within : Registration.Within entries place id) :
    ∃ less < place, Registration.Within entries less below := by
  -- The redefined proc has no registration from the one that made the link on.
  obtain ⟨before, entry, after, rfl, own, earlier⟩ := dated.links id below redefines
  refine ⟨before.length, ?_, ?_⟩
  · by_contra behind
    apply within entry _ own
    rw [List.drop_append_of_le_length (by omega)]
    simp
  · intro again member same
    rw [List.drop_left] at member
    exact once ⟨before, entry, after, rfl, own, earlier, again, member, same⟩

theorem Dated.descend_chain (dated : tree.Dated done entries) {below : ProcId}
    (links : Relation.TransGen tree.Redefines id below)
    (once : ∀ upper lower, tree.Chain id upper → tree.Redefines upper lower →
      ¬ Registration.Returns entries upper lower) {place : Nat}
        (within : Registration.Within entries place id) :
    ∃ less < place, Registration.Within entries less below := by
  induction links with
  | single link => exact dated.descend link (once _ _ .refl link) within
  | tail links link ih =>
    obtain ⟨middle, nearer, inside⟩ := ih
    obtain ⟨less, nearest, there⟩ := dated.descend link (once _ _ links.to_reflTransGen link) inside
    exact ⟨less, by omega, there⟩

theorem Dated.not_loops (dated : tree.Dated done entries)
    (once : ∀ upper lower, tree.Chain id upper → tree.Redefines upper lower →
      ¬ Registration.Returns entries upper lower) : ¬ tree.Loops id := by
  rintro ⟨met, chain, loop⟩
  -- Once around the loop, the registrations of the proc would lie before themselves.
  have endless (place : Nat) : ¬ Registration.Within entries place met := by
    induction place using Nat.strong_induction_on with
    | _ place ih =>
      intro within
      obtain ⟨less, nearer, inside⟩ :=
        dated.descend_chain loop
          (fun upper lower more => once upper lower (chain.trans more)) within
      exact ih less nearer inside
  exact endless entries.length (by simp [Registration.Within])

theorem Dated.ends (dated : tree.Dated done entries)
    (known : ∀ entry ∈ entries, entry.proc.index < tree.procs.size)
    (once : ∀ upper lower, tree.Chain id upper → tree.Redefines upper lower →
      ¬ Registration.Returns entries upper lower) {proc : Proc}
        (found : tree.proc? id = some proc) :
    ∃ last final, tree.Chain id last ∧ tree.proc? last = some final ∧ final.super = none := by
  -- Each link leads to a proc whose registrations end earlier, so there are finitely many.
  have from_place (place : Nat) : ∀ (upper : ProcId) (proc : Proc), tree.Chain id upper →
      tree.proc? upper = some proc → Registration.Within entries place upper →
        ∃ last final, tree.Chain id last ∧ tree.proc? last = some final ∧ final.super = none := by
    induction place using Nat.strong_induction_on with
    | _ place ih =>
      intro upper proc chain found within
      cases link : proc.super with
      | none => exact ⟨upper, proc, chain, found, link⟩
      | some lower =>
        have redefines : tree.Redefines upper lower := ⟨proc, found, link⟩
        obtain ⟨less, nearer, inside⟩ :=
          dated.descend redefines (once upper lower chain redefines) within
        obtain ⟨before, entry, after, split, -, earlier, member, rfl⟩ :=
          dated.links upper lower redefines
        have allocated := known earlier (by simp [split, member])
        exact ih less nearer earlier.proc _ (chain.tail redefines)
          (Array.getElem?_eq_getElem allocated) inside
  exact from_place entries.length id proc .refl found (by simp [Registration.Within])

end

section

variable {tree later : ObjectTree} {id proc : ProcId}

theorem Reachable.dated (reachable : tree.Reachable) :
    tree.Dated tree.registrations.toList tree.registrations.toList := by
  have both := reachable.changes.invariant
    (fun _ _ change (both : _ ∧ _) => And.intro (change.coherent both.1)
      (change.dated both.1 both.2))
    (And.intro coherent_empty dated_empty)
  exact both.2

theorem Chain.transfer (same : ∀ id below, id ≠ proc → tree.Redefines id below →
    later.Redefines id below)
    (chain : tree.Chain id proc) : later.Chain id proc := by
  induction chain using Relation.ReflTransGen.head_induction_on with
  | refl => exact .refl
  | @head id below link _ ih =>
    -- What the last proc redefines does not matter: the chain may stop when it is first met.
    by_cases arrived : id = proc
    · rw [arrived]
      exact .refl
    · exact .head (same id below arrived link) ih

variable {entry : Registration}

theorem links_linked (known : entry.proc.index < tree.procs.size) {below : ProcId}
    (links : Relation.TransGen (tree.linked entry).Redefines id below) :
    Relation.TransGen tree.Redefines id below ∨ (tree.linked entry).Chain id entry.proc ∧
      ∃ redefined, tree.redefined? entry.type entry.name = some redefined ∧
        (tree.linked entry).Chain redefined below := by
  -- Links that are new start at the registered proc.
  induction links with
  | @single below link =>
    have made := (redefines_linked known id below).mp link
    by_cases same : id = entry.proc
    · rw [if_pos same] at made
      exact .inr ⟨same ▸ .refl, below, made, .refl⟩
    · rw [if_neg same] at made
      exact .inl (.single made)
  | @tail middle below links link ih =>
    have made := (redefines_linked known middle below).mp link
    rcases ih with old | ⟨chain, redefined, found, more⟩
    · by_cases same : middle = entry.proc
      · rw [if_pos same] at made
        exact .inr ⟨same ▸ links.to_reflTransGen, below, made, .refl⟩
      · rw [if_neg same] at made
        exact .inl (old.tail made)
    · exact .inr ⟨chain, redefined, found, more.tail link⟩

theorem loops_linked_iff (known : entry.proc.index < tree.procs.size)
    (free : ∀ id, ¬ tree.Loops id) :
    (∃ id, (tree.linked entry).Loops id) ↔
      ∃ redefined, tree.redefined? entry.type entry.name = some redefined ∧
        tree.Chain redefined entry.proc := by
  have same (id below : ProcId) (apart : id ≠ entry.proc) :
      (tree.linked entry).Redefines id below ↔ tree.Redefines id below := by
    rw [redefines_linked known, if_neg apart]
  constructor
  · rintro ⟨id, met, -, loop⟩
    rcases links_linked known loop with old | ⟨chain, redefined, found, more⟩
    · exact (free met ⟨met, .refl, old⟩).elim
    · have around : (tree.linked entry).Chain redefined entry.proc := more.trans chain
      exact ⟨redefined, found, around.transfer fun id below apart => (same id below apart).mp⟩
  · rintro ⟨redefined, found, chain⟩
    have link : (tree.linked entry).Redefines entry.proc redefined := by
      rw [redefines_linked known, if_pos rfl, found]
    have back := chain.transfer fun id below apart => (same id below apart).mpr
    exact ⟨entry.proc, entry.proc, .refl, .head' link back⟩

/-- A chain of redefined procs ends if no proc on it was registered
again after one that redefines it. A single registration closes a loop
just when its proc is on the chain that it is put in front of. -/
theorem chain_ends (history : List TreeOp) :
    (∀ id, (∀ upper lower, (TreeOp.build history).Chain id upper →
      (TreeOp.build history).Redefines upper lower →
        ¬ Registration.Returns (TreeOp.log history) upper lower) →
      ¬ (TreeOp.build history).Loops id ∧
        ∀ proc, (TreeOp.build history).proc? id = some proc →
          ∃ last final, (TreeOp.build history).Chain id last ∧
            (TreeOp.build history).proc? last = some final ∧
            final.super = none) ∧
    ∀ type name proc later, (TreeUpdate.setProc type name proc).run (TreeOp.build history) =
      .ok () later →
      (∀ id, ¬ (TreeOp.build history).Loops id) →
        ((∃ id, later.Loops id) ↔ ∃ redefined, (TreeOp.build history).redefined? type name =
          some redefined ∧
          (TreeOp.build history).Chain redefined proc) := by
  have reachable := TreeOp.reachable_build history
  have dated := reachable.dated
  have entries := TreeOp.registrations_build history
  have known : ∀ entry ∈ TreeOp.log history, entry.proc.index <
    (TreeOp.build history).procs.size := by
    intro entry logged
    rw [← entries, Array.mem_toList_iff] at logged
    exact (reachable.coherent.registrations entry logged).2
  rw [entries] at dated
  refine ⟨?_, ?_⟩
  · intro id once
    exact ⟨dated.not_loops once, fun proc found => dated.ends known once found⟩
  · intro type name proc later ran free
    have outcome : TreeUpdate.Leads (TreeUpdate.setProc type name proc) (TreeOp.build history)
        (fun _ later => (TreeOp.build history).Registrable ⟨type, name, proc⟩ ∧
          later = (TreeOp.build history).registered ⟨type, name, proc⟩) fun _ => True :=
      (TreeUpdate.leads_setProc type name proc _).mpr
        ⟨fun registrable => ⟨registrable, rfl⟩, fun _ => trivial⟩
    obtain ⟨registrable, rfl⟩ := outcome.1 () later ran
    exact loops_linked_iff registrable.2.2 free

end

def redefinedOnce : List TreeOp :=
  [.declare ⟨["mob"]⟩, .newProc ⟨1⟩ "Act" {}, .newProc ⟨1⟩ "Act" {}]

theorem chain_ends_redefinedOnce :
    ¬ (TreeOp.build redefinedOnce).Loops ⟨2⟩ ∧
      (∃ last final, (TreeOp.build redefinedOnce).Chain ⟨2⟩ last ∧
        (TreeOp.build redefinedOnce).proc? last = some final ∧ final.super = none) ∧
      ∃ later, (TreeUpdate.setProc ⟨1⟩ "Act" ⟨1⟩).run (TreeOp.build redefinedOnce) = .ok () later ∧
        ∃ id, later.Loops id := by
  have once : ∀ id below, ¬ Registration.Returns (TreeOp.log redefinedOnce) id below :=
    Registration.not_returns (by decide +kernel)
  obtain ⟨ends, closes⟩ := chain_ends redefinedOnce
  obtain ⟨free, final⟩ := ends ⟨2⟩ fun upper lower _ _ => once upper lower
  have registrable : (TreeOp.build redefinedOnce).Registrable ⟨⟨1⟩, "Act", ⟨1⟩⟩ :=
    ⟨by decide +kernel, by decide +kernel, by decide +kernel⟩
  have ran := TreeUpdate.run_setProc registrable
  refine ⟨free, final _ rfl, _, ran, ?_⟩
  refine (closes _ _ _ _ ran fun id => (ends id fun upper lower _ _ => once upper lower).1).mpr
    ⟨⟨2⟩, by decide +kernel, .single ?_⟩
  exact redefines_iff.mpr (by decide +kernel)

theorem chain_loops_registered_again :
    (TreeOp.build [.declare ⟨["mob"]⟩, .newProc ⟨1⟩ "Act" {}, .setProc ⟨1⟩ "Act" ⟨1⟩]).Loops ⟨1⟩ ∧
      (TreeOp.build [.declare ⟨["mob"]⟩, .newProc ⟨1⟩ "Act" {}, .setProc ⟨1⟩ "Act" ⟨1⟩,
        .finalize]).Loops ⟨1⟩ :=
  ⟨⟨⟨1⟩, .refl, .single (redefines_iff.mpr (by decide +kernel))⟩,
    ⟨⟨1⟩, .refl, .single (redefines_iff.mpr (by decide +kernel))⟩⟩

end ObjectTree

end ProcLowering
