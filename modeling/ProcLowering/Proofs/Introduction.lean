import ProcLowering.Proofs.Backing

set_option autoImplicit false

namespace ProcLowering

namespace TreeUpdate

variable {tree : ObjectTree}

theorem run_setParent {type parent : TypeId} (movable : tree.Movable type parent) :
    (setParent type parent).run tree = .ok () (tree.reparented type parent) := by
  apply Leads.run_eq
  rw [leads_setParent]
  exact ⟨fun _ => ⟨rfl, rfl⟩, fun stuck => stuck movable⟩

theorem run_newProc {owner : TypeId}
    (guard : tree.finalized = false ∧ owner.index < tree.types.size) (name : String)
    (flags : ProcFlags) : (newProc owner name flags).run tree = .ok (.ofIndex tree.procs.size)
      ((tree.withProc name (some owner) flags).registered
        ⟨owner, name, .ofIndex tree.procs.size⟩) := by
  apply Leads.run_eq
  rw [leads_newProc]
  exact ⟨fun _ => ⟨rfl, rfl⟩, fun stuck => stuck guard⟩

end TreeUpdate

namespace ObjectTree

structure Introduced (before after : ObjectTree) (owner : TypeId) (name : String) (id : ProcId) :
    Prop where
  visible : after.findProc? owner name = some id
  redefines : ∃ proc, after.proc? id = some proc ∧ proc.super = before.findProc? owner name ∧
    (proc.flags.overriding = true ↔ (before.findProc? owner name).isSome)

section

variable {tree later : ObjectTree} {owner : TypeId} {name : String} {id : ProcId}
    {flags : ProcFlags}

theorem redefined?_eq_ite (rooted : tree.addressed.Rooted) (known : owner.index < tree.types.size)
    (name : String) :
    tree.redefined? owner name = if tree.hasProc owner name then tree.findProc? owner name
      else none := by
  obtain ⟨record, found⟩ := exists_type? known
  have found' := (type?_addressed tree owner).trans found
  rw [← redefined?_addressed rooted, redefined?, found', Option.bind_some,
    rooted.lineageOf_eq found', lineage_addressed rooted]
  rfl

/-- What the name denotes after a proc is linked, and what the proc redefines. An older redefinition
on the very type is in the way if the name is not declared. -/
theorem linked_outcome (rooted : tree.addressed.Rooted) {record : TypeRecord}
    (found : tree.type? owner = some record) (place : id.index < tree.procs.size) (name : String) :
    (tree.linked ⟨owner, name, id⟩).findProc? owner name =
        (if tree.hasProc owner name then some id else record.overriding[name]?.or (some id)) ∧
      ∃ proc, (tree.linked ⟨owner, name, id⟩).proc? id = some proc ∧
        proc.super = (if tree.hasProc owner name then tree.findProc? owner name else none) ∧
        proc.flags.overriding = proc.super.isSome := by
  have super := redefined?_eq_ite rooted (known_of_type? found) name
  refine ⟨?_, ?_⟩
  · have found' := type?_linked tree ⟨owner, name, id⟩ owner
    rw [found, Option.map_some, if_pos rfl, super] at found'
    have rooted' := rooted_linked rooted ⟨owner, name, id⟩
    rw [← findProc?_addressed rooted',
      rooted'.findProc?_eq ((type?_addressed _ owner).trans found')]
    -- A redefinition replaces the one on the type, and a declaration lies behind it.
    by_cases declared : tree.hasProc owner name = true
    · have visible : (tree.findProc? owner name).isSome :=
        Option.isSome_iff_exists.mpr (TreeUpdate.visible?_of_declares declared)
      simp [declared, visible, TypeRecord.insertProc, TypeRecord.proc?]
    · simp [declared, TypeRecord.insertProc, TypeRecord.proc?]
  · rw [proc?_linked, proc?, Array.getElem?_eq_getElem place, Option.map_some, if_pos rfl, super]
    exact ⟨_, rfl, rfl, rfl⟩

theorem lineage_congr (same : later.types = tree.types) (id : TypeId) :
    later.lineage id = tree.lineage id := by
  have found (id : TypeId) : later.type? id = tree.type? id := by rw [type?, type?, same]
  rw [lineage, lineage, same, climb_congr found]

theorem newProc_outcome (rooted : tree.addressed.Rooted)
    (ran : (TreeUpdate.newProc owner name flags).run tree = .ok id later) :
    ∃ record, tree.type? owner = some record ∧
      later.findProc? owner name =
        (if tree.hasProc owner name then some id else record.overriding[name]?.or (some id)) ∧
      ∃ proc, later.proc? id = some proc ∧
        proc.super = (if tree.hasProc owner name then tree.findProc? owner name else none) ∧
        proc.flags.overriding = proc.super.isSome := by
  have outcome : (TreeUpdate.newProc owner name flags).Leads tree
      (fun got after => owner.index < tree.types.size ∧ got = .ofIndex tree.procs.size ∧
        after = (tree.withProc name (some owner) flags).registered
          ⟨owner, name, .ofIndex tree.procs.size⟩)
      fun _ => True :=
    (TreeUpdate.leads_newProc owner name flags _).mpr
      ⟨fun guard => ⟨guard.2, rfl, rfl⟩, fun _ => trivial⟩
  obtain ⟨known, rfl, rfl⟩ := outcome.1 id later ran
  obtain ⟨record, found⟩ := exists_type? known
  -- The proc is allocated first, which touches no table of a type.
  have before : (tree.withProc name (some owner) flags).lineage owner = tree.lineage owner :=
    lineage_congr (by rfl) owner
  have after :
      ((tree.withProc name (some owner) flags).registered
      ⟨owner, name, .ofIndex tree.procs.size⟩).lineage owner =
      ((tree.withProc name (some owner) flags).linked
        ⟨owner, name, .ofIndex tree.procs.size⟩).lineage owner :=
    lineage_congr (by rfl) owner
  have window : (tree.withProc name (some owner) flags).addressed.Rooted := rooted.congr rfl
  have linked :=
    linked_outcome window found (index_ofIndex_withProc tree name (some owner) flags) name
  simp only [hasProc, findProc?, before, ← after] at linked
  exact ⟨record, found, linked⟩

theorem introduced_iff (rooted : tree.addressed.Rooted)
    (ran : (TreeUpdate.newProc owner name flags).run tree = .ok id later) :
    Introduced tree later owner name id ↔
      ((tree.findProc? owner name).isSome → tree.hasProc owner name = true) := by
  obtain ⟨record, found, visible, proc, there, super, flag⟩ := newProc_outcome rooted ran
  by_cases declared : tree.hasProc owner name = true
  · rw [if_pos declared] at visible super
    exact iff_of_true ⟨visible, proc, there, super, by rw [flag, super]⟩ fun _ => declared
  · rw [if_neg declared] at visible super
    have nearest := rooted.findProc?_eq ((type?_addressed tree owner).trans found) name
    rw [findProc?_addressed rooted] at nearest
    constructor
    · -- The proc redefines nothing, so nothing was to be redefined.
      rintro ⟨-, _, there', super', -⟩
      rw [there] at there'
      cases there'
      rw [← super', super]
      simp
    · -- Where the name denoted nothing, no redefinition on the type is in the way.
      intro only
      have none : tree.findProc? owner name = none := by simpa [declared] using only
      rw [none] at nearest
      have silent : record.proc? name = .none := (Option.or_eq_none_iff.mp nearest.symm).1
      rw [(Option.or_eq_none_iff.mp silent).1, Option.none_or] at visible
      exact ⟨visible, proc, there, by rw [super, none], by rw [flag, super, none]⟩

theorem backed_of_unregistered (dated : tree.Dated [] []) : tree.Backed := by
  intro id record name found overrides
  rw [← Std.TreeMap.isSome_getElem?_eq_contains, Option.isSome_iff_exists] at overrides
  obtain ⟨proc, listed⟩ := overrides
  obtain ⟨_, member, -⟩ := dated.listed id.index record proc found ⟨name, .inr listed⟩
  cases member

end

end ObjectTree

namespace TreeOp

/-- Types were moved only as long as nothing was registered. -/
def MovedFirst (history : List TreeOp) : Prop :=
  ∀ before type parent after moved, history = before ++ .setParent type parent :: after →
    (TreeUpdate.setParent type parent).run (build before) = .ok () moved → log before = []

theorem backed_after {tree : ObjectTree} (reachable : tree.Reachable) (backed : tree.Backed)
    (op : TreeOp) (first : ∀ type parent, op = .setParent type parent → tree.Movable type parent →
    tree.registrations.toList = []) :
    (op.run.after tree).Backed := by
  by_cases moves : ∃ type parent, op = .setParent type parent
  · obtain ⟨type, parent, rfl⟩ := moves
    apply TreeUpdate.Leads.after
    rw [run, TreeUpdate.leads_setParent]
    refine ⟨fun movable => ?_, fun _ => backed⟩
    have change : ObjectTree.Change tree (tree.reparented type parent) := ⟨_, .reparent movable⟩
    have dated := change.dated reachable.coherent reachable.dated
    have none : (tree.reparented type parent).registrations.toList = [] :=
      first type parent rfl movable
    rw [none] at dated
    exact ObjectTree.backed_of_unregistered dated
  · have step (tree later : ObjectTree) (does : op.Does tree later)
        (sound : tree.addressed.Rooted ∧ tree.Backed) :
        later.addressed.Rooted ∧ later.Backed := by
      have change : ObjectTree.Change tree later := ⟨op, does⟩
      refine ⟨change.rooted_addressed sound.1, ?_⟩
      rcases ObjectTree.backed_of_does does sound.1 sound.2 with after | ⟨type, parent, same, -⟩
      · exact after
      · exact (moves ⟨type, parent, same⟩).elim
    exact (ObjectTree.invariant_of_steps step (op.does_after reachable.coherent)
      ⟨reachable.rooted_addressed, backed⟩).2

theorem backed_build {history : List TreeOp} (first : MovedFirst history) :
    (build history).Backed := by
  induction history using List.reverseRecOn with
  | nil => exact ObjectTree.backed_of_unregistered ObjectTree.dated_empty
  | append_singleton history op ih =>
    have before : MovedFirst history := by
      intro early type parent after moved split
      exact first early type parent (after ++ [op]) moved (by simp [split])
    rw [build_concat]
    apply backed_after (reachable_build history) (ih before)
    rintro type parent rfl movable
    rw [registrations_build]
    exact first history type parent [] _ rfl (TreeUpdate.run_setParent movable)

end TreeOp

namespace ObjectTree

/-- The name of a new proc denotes it and it redefines what the name
denoted, just if the name was declared wherever it denoted something.
That is so if types were moved before anything was registered. -/
theorem newProc_introduces {history : List TreeOp} {owner : TypeId} {name : String}
    {flags : ProcFlags} {id : ProcId} {later : ObjectTree}
    (ran : (TreeUpdate.newProc owner name flags).run (TreeOp.build history) = .ok id later) :
    (∃ record, (TreeOp.build history).type? owner = some record ∧
      later.findProc? owner name = (if (TreeOp.build history).hasProc owner name then some id
        else record.overriding[name]?.or (some id)) ∧
      ∃ proc, later.proc? id = some proc ∧
        proc.super =
          (if (TreeOp.build history).hasProc owner name then
            (TreeOp.build history).findProc? owner name
          else none) ∧
        proc.flags.overriding = proc.super.isSome) ∧
    (Introduced (TreeOp.build history) later owner name id ↔
      (((TreeOp.build history).findProc? owner name).isSome →
        (TreeOp.build history).hasProc owner name = true)) ∧
    (TreeOp.MovedFirst history → Introduced (TreeOp.build history) later owner name id) := by
  have rooted := (TreeOp.reachable_build history).rooted_addressed
  refine ⟨newProc_outcome rooted ran, introduced_iff rooted ran, fun first =>
    (introduced_iff rooted ran).mpr ?_⟩
  rw [hasProc_eq_isSome rooted (TreeOp.backed_build first)]
  exact fun visible => visible

theorem newProc_introduces_moved :
    TreeOp.MovedFirst movedFirst ∧
      ∃ later, (TreeUpdate.newProc ⟨2⟩ "Act" {}).run (TreeOp.build movedFirst) = .ok ⟨3⟩ later ∧
        later.findProc? ⟨2⟩ "Act" = some ⟨3⟩ ∧
        ∃ proc, later.proc? ⟨3⟩ = some proc ∧ proc.super = some ⟨2⟩ ∧
          proc.flags.overriding = true := by
  have ran : (TreeUpdate.newProc ⟨2⟩ "Act" {}).run (TreeOp.build movedFirst) = .ok ⟨3⟩ _ :=
    TreeUpdate.run_newProc (by decide +kernel) "Act" {}
  have first : TreeOp.MovedFirst movedFirst := by
    intro before type parent after moved split _
    rcases before with _ | ⟨_, _ | ⟨_, _ | ⟨_, _ | ⟨_, _ | ⟨_, _⟩⟩⟩⟩⟩ <;> simp [movedFirst] at split
    obtain ⟨rfl, rfl, -⟩ := split
    decide +kernel
  obtain ⟨visible, proc, there, super, flag⟩ := (newProc_introduces ran).2.2 first
  have denoted : (TreeOp.build movedFirst).findProc? ⟨2⟩ "Act" = some ⟨2⟩ := by decide +kernel
  rw [denoted] at super flag
  exact ⟨first, _, ran, visible, proc, there, super, flag.mpr rfl⟩

def stranded : List TreeOp :=
  [.declare ⟨["mob"]⟩, .declare ⟨["mob", "imp"]⟩, .newProc ⟨1⟩ "Act" {}, .newProc ⟨2⟩ "Act" {},
    .setParent ⟨2⟩ .root]

theorem newProc_behind_stranded :
    ∃ later, (TreeUpdate.newProc ⟨2⟩ "Act" {}).run (TreeOp.build stranded) = .ok ⟨3⟩ later ∧
      (TreeOp.build stranded).findProc? ⟨2⟩ "Act" = some ⟨2⟩ ∧
        later.findProc? ⟨2⟩ "Act" = some ⟨2⟩ ∧
      ∃ proc, later.proc? ⟨3⟩ = some proc ∧ proc.super = none ∧ proc.flags.overriding = false := by
  refine ⟨_, TreeUpdate.run_newProc (by decide +kernel) "Act" {},
    by decide +kernel, by decide +kernel, _, rfl, by decide +kernel, by decide +kernel⟩

end ObjectTree

end ProcLowering
