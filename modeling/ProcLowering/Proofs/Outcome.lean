import ProcLowering.Proofs.Change

set_option autoImplicit false

namespace ProcLowering

namespace TreeUpdate

open ObjectTree (Changes Coherent)

def Leads {α : Type} (update : TreeUpdate α) (tree : ObjectTree) (done : α → ObjectTree → Prop)
    (failed : ObjectTree → Prop) : Prop :=
  (∀ value later, update.run tree = .ok value later → done value later) ∧
    ∀ error later, update.run tree = .error error later → failed later

section

variable {α β : Type} {tree : ObjectTree} {failed : ObjectTree → Prop}

theorem leads_of_ok {update : TreeUpdate α} {value : α} {later : ObjectTree}
    {done : α → ObjectTree → Prop} (ran : update.run tree = .ok value later) :
    Leads update tree done failed ↔ done value later := by
  simp [Leads, ran]

theorem leads_of_error {update : TreeUpdate α} {error : TreeError} {later : ObjectTree}
    {done : α → ObjectTree → Prop} (ran : update.run tree = .error error later) :
    Leads update tree done failed ↔ failed later := by
  simp [Leads, ran]

@[simp] theorem leads_pure (value : α) (done : α → ObjectTree → Prop) :
    Leads (pure value) tree done failed ↔ done value tree := leads_of_ok rfl

@[simp] theorem leads_throw (error : TreeError) (done : α → ObjectTree → Prop) :
    Leads (throw error) tree done failed ↔ failed tree := leads_of_error rfl

@[simp] theorem leads_get (done : ObjectTree → ObjectTree → Prop) :
    Leads get tree done failed ↔ done tree tree := leads_of_ok rfl

@[simp] theorem leads_modify (change : ObjectTree → ObjectTree) (done : Unit → ObjectTree → Prop) :
    Leads (modify change) tree done failed ↔ done () (change tree) := leads_of_ok rfl

@[simp] theorem leads_bind (update : TreeUpdate α) (next : α → TreeUpdate β)
    (done : β → ObjectTree → Prop) :
    Leads (update >>= next) tree done failed ↔
      Leads update tree (fun value middle => Leads (next value) middle done failed) failed := by
  cases ran : update.run tree with
  | ok value middle =>
    rw [leads_of_ok ran]
    simp only [Leads, EStateM.run_bind, ran]
  | error error middle =>
    have stopped : (update >>= next).run tree = .error error middle := by rw [EStateM.run_bind, ran]
    rw [leads_of_error ran, leads_of_error stopped]

@[simp] theorem leads_map (update : TreeUpdate α) (change : α → β) (done : β → ObjectTree → Prop) :
    Leads (change <$> update) tree done failed ↔
      Leads update tree (fun value => done (change value)) failed := by
  rw [map_eq_pure_bind, leads_bind]
  simp only [leads_pure]

@[simp] theorem leads_discard (update : TreeUpdate α) (done : Unit → ObjectTree → Prop) :
    Leads (discard update) tree done failed ↔ Leads update tree (fun _ => done ()) failed :=
  leads_map update (fun _ => ()) done

theorem Leads.imp {update : TreeUpdate α} {done gets : α → ObjectTree → Prop}
    {left : ObjectTree → Prop} (leads : Leads update tree done failed)
    (more : ∀ value later, done value later → gets value later)
    (less : ∀ later, failed later → left later) : Leads update tree gets left :=
  ⟨fun value later ran => more value later (leads.1 value later ran),
    fun error later ran => less later (leads.2 error later ran)⟩

theorem Leads.run_eq {update : TreeUpdate α} {value : α} {later : ObjectTree}
    (leads : Leads update tree (fun got after => got = value ∧ after = later) fun _ => False) :
    update.run tree = .ok value later := by
  cases ran : update.run tree with
  | ok got after =>
    obtain ⟨rfl, rfl⟩ := leads.1 got after ran
    rfl
  | error error after => exact (leads.2 error after ran).elim

theorem Leads.after {update : TreeUpdate α} {holds : ObjectTree → Prop}
    (leads : Leads update tree (fun _ => holds) holds) : holds (update.after tree) := by
  unfold TreeUpdate.after
  cases ran : update.run tree with
  | ok value later => exact leads.1 value later ran
  | error error later => exact leads.2 error later ran

@[simp] theorem leads_requireOpen (done : Unit → ObjectTree → Prop) :
    Leads requireOpen tree done failed ↔
      (tree.finalized = false → done () tree) ∧ (tree.finalized = true → failed tree) := by
  unfold requireOpen
  cases finalized : tree.finalized <;> simp [finalized]

theorem leads_typeRecord (id : TypeId) (done : TypeRecord → ObjectTree → Prop) :
    Leads (typeRecord id) tree done failed ↔
      (∀ record, tree.type? id = some record → done record tree) ∧
        (¬ id.index < tree.types.size → failed tree) := by
  unfold typeRecord
  cases found : tree.type? id with
  | none =>
    have unknown : ¬ id.index < tree.types.size := by simpa [ObjectTree.type?] using found
    simp [ObjectTree.type, ofExcept, found, unknown]
  | some record =>
    have known := (Array.getElem?_eq_some_iff.mp found).1
    simp [ObjectTree.type, ofExcept, found, known]

theorem leads_procEntry (id : ProcId) (done : Proc → ObjectTree → Prop) :
    Leads (procEntry id) tree done failed ↔
      (∀ entry, tree.proc? id = some entry → done entry tree) ∧
        (¬ id.index < tree.procs.size → failed tree) := by
  unfold procEntry
  cases found : tree.proc? id with
  | none =>
    have unknown : ¬ id.index < tree.procs.size := by simpa [ObjectTree.proc?] using found
    simp [ObjectTree.proc, ofExcept, found, unknown]
  | some entry =>
    have known := (Array.getElem?_eq_some_iff.mp found).1
    simp [ObjectTree.proc, ofExcept, found, known]

theorem leads_modifyType (id : TypeId) (change : TypeRecord → TypeRecord)
    (done : Unit → ObjectTree → Prop) :
    Leads (modifyType id change) tree done failed ↔
      (id.index < tree.types.size →
        done () { tree with types := tree.types.modify id.index change }) ∧
        (¬ id.index < tree.types.size → failed tree) := by
  unfold modifyType
  rw [leads_bind, leads_typeRecord]
  simp [ObjectTree.type?, Array.getElem?_eq_some_iff]

theorem leads_modifyProc (id : ProcId) (change : Proc → Proc) (done : Unit → ObjectTree → Prop) :
    Leads (modifyProc id change) tree done failed ↔
      (id.index < tree.procs.size →
        done () { tree with procs := tree.procs.modify id.index change }) ∧
        (¬ id.index < tree.procs.size → failed tree) := by
  unfold modifyProc
  rw [leads_bind, leads_procEntry]
  simp [ObjectTree.proc?, Array.getElem?_eq_some_iff]

theorem leads_ite {cond : Prop} [Decidable cond] (yes no : TreeUpdate α)
    (done : α → ObjectTree → Prop) :
    Leads (if cond then yes else no) tree done failed ↔
      (cond → Leads yes tree done failed) ∧ (¬ cond → Leads no tree done failed) := by
  by_cases holds : cond <;> simp [holds]

theorem forall_type? {id : TypeId} {claim : Prop} :
    (∀ record, tree.type? id = some record → claim) ↔ (id.index < tree.types.size → claim) := by
  simp [ObjectTree.type?, Array.getElem?_eq_some_iff]

theorem forall_proc? {id : ProcId} {claim : Prop} :
    (∀ entry, tree.proc? id = some entry → claim) ↔ (id.index < tree.procs.size → claim) := by
  simp [ObjectTree.proc?, Array.getElem?_eq_some_iff]

theorem leads_setParent (type parent : TypeId) (done : Unit → ObjectTree → Prop) :
    Leads (setParent type parent) tree done failed ↔
      (tree.Movable type parent → done () (tree.reparented type parent)) ∧
        (¬ tree.Movable type parent → failed tree) := by
  unfold setParent ObjectTree.Movable
  simp only [leads_bind, leads_requireOpen, leads_ite, leads_throw, leads_typeRecord, leads_get,
    leads_modifyType, forall_type?, ← Bool.not_eq_true, ObjectTree.reparented]
  grind

theorem visible?_of_declares {lineage : List TypeRecord} {name : String}
    (declares : ObjectTree.declares lineage name = true) :
    ∃ proc, ObjectTree.visible? lineage name = some proc := by
  obtain ⟨record, member, owns⟩ := List.any_eq_true.mp declares
  rw [← Option.isSome_iff_exists, ObjectTree.visible?, List.findSome?_isSome_iff]
  refine ⟨record, member, ?_⟩
  simp [TypeRecord.proc?, Std.TreeMap.isSome_getElem?_eq_contains, owns]

theorem leads_overridden (type : TypeId) (name : String)
    (done : Option ProcId → ObjectTree → Prop) :
    Leads (overridden type name) tree done failed ↔
      (type.index < tree.types.size → done (tree.redefined? type name) tree) ∧
        (¬ type.index < tree.types.size → failed tree) := by
  unfold overridden
  rw [leads_bind, leads_typeRecord, ← forall_type?]
  refine and_congr_left fun _ => forall_congr' fun record => imp_congr_right fun found => ?_
  rw [leads_bind, leads_get]
  by_cases declares : ObjectTree.declares (tree.lineageOf record) name = true
  · obtain ⟨proc, visible⟩ := visible?_of_declares declares
    simp [ObjectTree.redefined?, found, declares, visible, ObjectTree.procOn, ofExcept]
  · simp [ObjectTree.redefined?, found, declares]

theorem leads_link (registration : Registration) (proc : registration.proc.index < tree.procs.size)
    (done : Unit → ObjectTree → Prop) :
    Leads (link registration) tree done failed ↔
      (registration.type.index < tree.types.size → done () (tree.linked registration)) ∧
        (¬ registration.type.index < tree.types.size → failed tree) := by
  unfold link ObjectTree.linked
  simp only [leads_bind, leads_overridden, leads_modifyType, leads_modifyProc]
  grind

theorem leads_setProc (type : TypeId) (name : String) (proc : ProcId)
    (done : Unit → ObjectTree → Prop) :
    Leads (setProc type name proc) tree done failed ↔
      (tree.Registrable ⟨type, name, proc⟩ → done () (tree.registered ⟨type, name, proc⟩)) ∧
        (¬ tree.Registrable ⟨type, name, proc⟩ → failed tree) := by
  unfold setProc ObjectTree.Registrable
  rw [leads_bind, leads_requireOpen, leads_bind, leads_procEntry, forall_proc?]
  simp only [← Bool.not_eq_true]
  by_cases known : proc.index < tree.procs.size
  · rw [leads_bind, leads_link ⟨type, name, proc⟩ known]
    simp only [leads_modify, ObjectTree.registered, ObjectTree.registrations_linked]
    grind
  · grind

theorem run_setProc {type : TypeId} {name : String} {proc : ProcId}
    (registrable : tree.Registrable ⟨type, name, proc⟩) :
    (setProc type name proc).run tree = .ok () (tree.registered ⟨type, name, proc⟩) := by
  apply Leads.run_eq
  rw [leads_setProc]
  exact ⟨fun _ => ⟨rfl, rfl⟩, fun guarded => guarded registrable⟩

theorem leads_newProc (owner : TypeId) (name : String) (flags : ProcFlags)
    (done : ProcId → ObjectTree → Prop) :
    Leads (newProc owner name flags) tree done failed ↔
      (tree.finalized = false ∧ owner.index < tree.types.size →
        done (.ofIndex tree.procs.size)
          ((tree.withProc name (some owner) flags).registered
            ⟨owner, name, .ofIndex tree.procs.size⟩)) ∧
        (¬ (tree.finalized = false ∧ owner.index < tree.types.size) → failed tree) := by
  have setting :
      (tree.withProc name (some owner) flags).Registrable ⟨owner, name, .ofIndex tree.procs.size⟩ ↔
      tree.finalized = false ∧ owner.index < tree.types.size :=
    ⟨fun guard => ⟨guard.1, guard.2.1⟩, fun guard =>
      ⟨guard.1, guard.2, ObjectTree.index_ofIndex_withProc tree name (some owner) flags⟩⟩
  unfold newProc allocateProc
  simp only [leads_bind, leads_requireOpen, leads_typeRecord, forall_type?, leads_get,
    leads_modify, leads_pure, leads_setProc]
  rw [← ObjectTree.withProc, setting]
  simp only [← Bool.not_eq_true]
  grind

theorem leads_newGlobalProc (name : String) (flags : ProcFlags)
    (done : ProcId → ObjectTree → Prop) :
    Leads (newGlobalProc name flags) tree done failed ↔
      (tree.globals.contains name = false →
        done (.ofIndex tree.procs.size) (tree.published name flags)) ∧
        (¬ tree.globals.contains name = false → failed tree) := by
  unfold newGlobalProc allocateProc ObjectTree.published ObjectTree.withProc
  simp only [leads_bind, leads_get, leads_ite, leads_throw, leads_modify, leads_pure,
    ← Bool.not_eq_true]
  grind

theorem leads_addStatic (type : TypeId) (name : String) (done : UInt32 → ObjectTree → Prop) :
    Leads (addStatic type name) tree done failed ↔
      (type.index < tree.types.size →
        done (UInt32.ofNat tree.statics.size) (tree.withStatic type name)) ∧
        (¬ type.index < tree.types.size → failed tree) := by
  unfold addStatic ObjectTree.withStatic
  simp only [leads_bind, leads_get, leads_modifyType, leads_modify, leads_pure]

theorem leads_addVerb (type : TypeId) (proc : ProcId) (done : Unit → ObjectTree → Prop) :
    Leads (addVerb type proc) tree done failed ↔
      (proc.index < tree.procs.size → type.index < tree.types.size →
        done () ((tree.marked proc).withVerb type proc)) ∧
        (proc.index < tree.procs.size → ¬ type.index < tree.types.size →
          failed (tree.marked proc)) ∧
          (¬ proc.index < tree.procs.size → failed tree) := by
  unfold addVerb ObjectTree.withVerb ObjectTree.marked
  simp only [leads_bind, leads_modifyProc, leads_modifyType]
  grind

theorem leads_addType (path : TypePath) {parent : TypeId} {above : TypeRecord}
    (found : tree.type? parent = some above) (done : TypeId → ObjectTree → Prop) :
    Leads (addType path parent) tree done failed ↔
      done (.ofIndex tree.types.size) (tree.withType above path) := by
  have known := (Array.getElem?_eq_some_iff.mp found).1
  unfold addType ObjectTree.withType
  simp [leads_typeRecord, found, known]

theorem leads_forM_link (registrations : List Registration) (done : Unit → ObjectTree → Prop)
    (known : ∀ registration ∈ registrations,
      registration.type.index < tree.types.size ∧ registration.proc.index < tree.procs.size) :
    Leads (forM registrations link) tree done failed ↔
      done () (registrations.foldl ObjectTree.linked tree) := by
  induction registrations generalizing tree with
  | nil => exact leads_pure () done
  | cons first rest ih =>
    obtain ⟨type, proc⟩ := known first (by simp)
    -- Linking takes no type and no proc away, so the rest stay known.
    have later : ∀ registration ∈ rest, registration.type.index < (tree.linked first).types.size ∧
        registration.proc.index < (tree.linked first).procs.size := by
      intro registration member
      simpa [ObjectTree.linked] using known registration (by simp [member])
    rw [List.forM_cons, leads_bind, leads_link first proc, ih later]
    simp [type]

theorem leads_relink (done : Unit → ObjectTree → Prop)
    (known : ∀ registration ∈ tree.registrations,
      registration.type.index < tree.types.size ∧ registration.proc.index < tree.procs.size) :
    Leads relink tree done failed ↔ done () tree.relinked := by
  have listed : tree.cleared.registrations.forM link = forM tree.registrations.toList link := by
    rw [← List.forM_eq_forM, ← List.forM_toArray' tree.registrations.toList link rfl,
      Array.toArray_toList]
    rfl
  unfold relink
  rw [leads_bind, leads_modify, leads_bind, leads_get, ← ObjectTree.cleared, listed]
  apply leads_forM_link
  intro registration member
  simpa [ObjectTree.cleared] using known registration (Array.mem_def.mpr member)

theorem leads_finalize (coherent : tree.Coherent) (done : Unit → ObjectTree → Prop) :
    Leads finalize tree done failed ↔
      (tree.finalized = false ∧ tree.numbering?.isSome = true → done () tree.finished) ∧
        (¬ (tree.finalized = false ∧ tree.numbering?.isSome = true) → failed tree) := by
  unfold finalize
  simp only [leads_bind, leads_requireOpen, leads_get, ← Bool.not_eq_true]
  cases walked : tree.numbering? with
  | none =>
    simp only [leads_throw, Option.isSome_none]
    grind
  | some numbering =>
    have numbered : { tree with types := numbering.types } = tree.numbered := by
      simp [ObjectTree.numbered, walked]
    have sizes : tree.numbered.types.size = tree.types.size := by
      simpa using congrArg Array.size
        (ObjectTree.map_numbered (fun _ => ()) (fun _ _ => rfl) (fun _ _ => rfl) tree)
    have relinks :
        Leads relink tree.numbered
            (fun _ => (Leads (modify fun tree => { tree with finalized := true }) · done failed))
            failed ↔
          done () tree.finished := by
      rw [leads_relink, leads_modify]
      · rfl
      · intro registration member
        rw [sizes]
        exact coherent.registrations registration member
    simp only [leads_bind, leads_modify, numbered, Option.isSome_some, and_true]
    simp only [leads_modify] at relinks
    rw [relinks]
    grind

theorem run_finalize (coherent : tree.Coherent) (unfinished : tree.finalized = false)
    (room : tree.numbering?.isSome = true) : finalize.run tree = .ok () tree.finished := by
  apply Leads.run_eq
  rw [leads_finalize coherent]
  exact ⟨fun _ => ⟨rfl, rfl⟩, fun refused => refused ⟨unfinished, room⟩⟩

theorem leads_declareReversed (coherent : tree.Coherent) (segments : List String) :
    Leads (declareReversed segments) tree
      (fun id later => Relation.ReflTransGen ObjectTree.Gains tree later ∧
        later.findPath? ⟨segments.reverse⟩ = some id ∧
        later.finalized = tree.finalized ∧ later.registrations = tree.registrations ∧
        ∀ path, segments.length < path.segments.length → later.findPath? path = tree.findPath? path)
      fun later => later = tree ∧ tree.finalized = true := by
  induction segments with
  | nil =>
    rw [declareReversed, leads_pure]
    exact ⟨.refl, coherent.root, rfl, rfl, fun _ _ => rfl⟩
  | cons segment above ih =>
    rw [declareReversed, leads_bind, leads_get]
    cases found : tree.findPath? ⟨(segment :: above).reverse⟩ with
    | some id =>
      rw [leads_pure]
      exact ⟨.refl, found, rfl, rfl, fun _ _ => rfl⟩
    | none =>
      rw [leads_bind, leads_requireOpen]
      refine ⟨fun unfinished => ?_, fun finalized => ⟨rfl, finalized⟩⟩
      rw [leads_bind]
      refine ih.imp ?_ ?_
      · rintro parent middle ⟨gains, named, same, logged, longer⟩
        have changes : Changes tree middle := ObjectTree.changes_of_gains gains
        have coherent' := changes.invariant (fun _ _ change => change.coherent) coherent
        obtain ⟨record, found'⟩ : ∃ record, middle.type? parent = some record :=
          ⟨_, Array.getElem?_eq_getElem (coherent'.paths _ _ named)⟩
        have fresh : middle.findPath? ⟨(segment :: above).reverse⟩ = none := by
          rw [longer _ (by simp), found]
        rw [leads_addType _ found']
        refine ⟨gains.tail ⟨same.trans unfinished, fresh, named, found'⟩, ?_, same, logged, ?_⟩
        · simp [ObjectTree.findPath?_withType]
        · intro path long
          rw [ObjectTree.findPath?_withType, if_neg, longer path (by simp at long; omega)]
          rintro rfl
          simp at long
      · rintro later ⟨-, finalized⟩
        simp [unfinished] at finalized

theorem Leads.and {update : TreeUpdate α} {done gets : α → ObjectTree → Prop}
    {left : ObjectTree → Prop} (one : Leads update tree done failed)
    (two : Leads update tree gets left) :
    Leads update tree (fun value later => done value later ∧ gets value later) fun later =>
      failed later ∧ left later :=
  ⟨fun value later ran => ⟨one.1 value later ran, two.1 value later ran⟩,
    fun error later ran => ⟨one.2 error later ran, two.2 error later ran⟩⟩

end

end TreeUpdate

namespace TreeOp

open ObjectTree (Changes Coherent)

/-- What a failed update leaves of a tree. Only a verb is marked before all is checked. -/
def residue : TreeOp → ObjectTree → ObjectTree
  | .addVerb _ proc, tree => tree.marked proc
  | _, tree => tree

def registrations (tree : ObjectTree) : TreeOp → List Registration
  | .newProc owner name flags =>
    match (TreeUpdate.newProc owner name flags).run tree with
    | .ok proc _ => [{ type := owner, name, proc }]
    | .error _ _ => []
  | .setProc type name proc =>
    match (TreeUpdate.setProc type name proc).run tree with
    | .ok _ _ => [{ type, name, proc }]
    | .error _ _ => []
  | _ => []

theorem marked_eq_iff {tree : ObjectTree} {proc : ProcId} :
    tree.marked proc = tree ↔ ∀ entry, tree.proc? proc = some entry → entry.flags.verb = true := by
  constructor
  · intro same entry found
    have there : (tree.marked proc).proc? proc = tree.proc? proc := congrArg (·.proc? proc) same
    simp only [ObjectTree.marked, ObjectTree.proc?, Array.getElem?_modify, if_true] at there
    rw [ObjectTree.proc?] at found
    rw [found, Option.map_some, Option.some.injEq] at there
    exact (congrArg (·.flags.verb) there).symm
  · intro already
    have procs : (tree.marked proc).procs = tree.procs := by
      apply Array.ext_getElem?
      intro i
      simp only [ObjectTree.marked, Array.getElem?_modify]
      split
      · rename_i here
        subst here
        cases found : tree.procs[proc.index]? with
        | none => rfl
        | some entry =>
          have verb := already entry found
          obtain ⟨id, name, owner, ⟨overriding, unimplemented, marked⟩, params, super⟩ := entry
          simp only at verb
          simp [verb]
      · rfl
    exact congrArg (fun procs => { tree with procs }) procs

theorem leads {tree : ObjectTree} (coherent : tree.Coherent) (op : TreeOp) :
    op.run.Leads tree
      (fun _ later => Relation.ReflTransGen op.Does tree later ∧
        later.registrations.toList = tree.registrations.toList ++ op.registrations tree)
      fun later => later = op.residue tree ∧ op.registrations tree = [] := by
  have declares {op : TreeOp} (declares : op.declares = true) (segments : List String) :
      (TreeUpdate.declareReversed segments).Leads tree
        (fun _ later => Relation.ReflTransGen op.Does tree later ∧
          later.registrations.toList = tree.registrations.toList ++ [])
        fun later => later = tree ∧ ([] : List Registration) = [] := by
    refine (TreeUpdate.leads_declareReversed coherent segments).imp ?_ ?_
    · rintro _ later ⟨gains, -, -, logged, -⟩
      exact ⟨ObjectTree.does_of_gains declares gains, by simp [logged]⟩
    · rintro later ⟨same, -⟩
      exact ⟨same, rfl⟩
  cases op with
  | declare path => exact (TreeUpdate.leads_discard _ _).mpr (declares rfl _)
  | declareText text =>
    rw [run, TreeUpdate.leads_discard, TreeUpdate.declareText, TreeUpdate.leads_bind]
    cases TypePath.parse text with
    | error error => exact (TreeUpdate.leads_throw _ _).mpr ⟨rfl, rfl⟩
    | ok path => exact (TreeUpdate.leads_pure _ _).mpr (declares rfl _)
  | setParent type parent =>
    rw [run, TreeUpdate.leads_setParent]
    refine ⟨fun movable => ⟨.single (.reparent movable), ?_⟩, fun _ => ⟨rfl, rfl⟩⟩
    simp [registrations, ObjectTree.reparented]
  | finalize =>
    rw [run, TreeUpdate.leads_finalize coherent]
    refine ⟨fun guard => ⟨.single (.finish guard.1 guard.2), ?_⟩, fun _ => ⟨rfl, rfl⟩⟩
    simp [registrations]
  | newProc owner name flags =>
    -- The log is read off the outcome, so the outcome is kept beside what the guards say.
    have logged : (TreeUpdate.newProc owner name flags).Leads tree
        (fun proc _ => registrations tree (.newProc owner name flags) = [⟨owner, name, proc⟩])
        fun _ => registrations tree (.newProc owner name flags) = [] :=
      ⟨fun _ _ ran => by simp [registrations, ran], fun _ _ ran => by simp [registrations, ran]⟩
    have made : (TreeUpdate.newProc owner name flags).Leads tree
        (fun proc later => Relation.ReflTransGen (Does (.newProc owner name flags)) tree later ∧
          later.registrations = tree.registrations.push ⟨owner, name, proc⟩)
        (· = tree) := by
      rw [TreeUpdate.leads_newProc]
      refine ⟨fun guard => ⟨?_, rfl⟩, fun _ => rfl⟩
      have allocated :
          Does (.newProc owner name flags) tree (tree.withProc name (some owner) flags) :=
        .allocate guard.1 guard.2
      exact .tail (.single allocated) (.register ⟨rfl, rfl⟩
        ⟨guard.1, guard.2, ObjectTree.index_ofIndex_withProc tree name (some owner) flags⟩)
    rw [run, TreeUpdate.leads_discard]
    refine (made.and logged).imp ?_ fun later left => left
    rintro proc later ⟨⟨changes, pushed⟩, log⟩
    exact ⟨changes, by simp [pushed, log]⟩
  | setProc type name proc =>
    have logged : (TreeUpdate.setProc type name proc).Leads tree
        (fun _ _ => registrations tree (.setProc type name proc) = [⟨type, name, proc⟩])
        fun _ => registrations tree (.setProc type name proc) = [] :=
      ⟨fun _ _ ran => by simp [registrations, ran], fun _ _ ran => by simp [registrations, ran]⟩
    have made : (TreeUpdate.setProc type name proc).Leads tree
        (fun _ later => Relation.ReflTransGen (Does (.setProc type name proc)) tree later ∧
          later.registrations = tree.registrations.push ⟨type, name, proc⟩)
        (· = tree) := by
      rw [TreeUpdate.leads_setProc]
      exact ⟨fun registrable => ⟨.single (.register rfl registrable), rfl⟩, fun _ => rfl⟩
    refine (made.and logged).imp ?_ fun later left => left
    rintro _ later ⟨⟨changes, pushed⟩, log⟩
    exact ⟨changes, by simp [pushed, log]⟩
  | newGlobalProc name flags =>
    rw [run, TreeUpdate.leads_discard, TreeUpdate.leads_newGlobalProc]
    refine ⟨fun fresh => ⟨.single (.publish fresh), ?_⟩, fun _ => ⟨rfl, rfl⟩⟩
    simp [registrations, ObjectTree.published, ObjectTree.withProc]
  | setParams proc params =>
    rw [run, TreeUpdate.setParams, TreeUpdate.leads_modifyProc]
    exact ⟨fun known => ⟨.single (.params known), by simp [registrations]⟩, fun _ => ⟨rfl, rfl⟩⟩
  | setVariable type name value =>
    rw [run, TreeUpdate.setVariable, TreeUpdate.leads_modifyType]
    exact ⟨fun known => ⟨.single (.assign known), by simp [registrations]⟩, fun _ => ⟨rfl, rfl⟩⟩
  | addStatic type name =>
    rw [run, TreeUpdate.leads_discard, TreeUpdate.leads_addStatic]
    refine ⟨fun known => ⟨.single (.static known), ?_⟩, fun _ => ⟨rfl, rfl⟩⟩
    simp [registrations, ObjectTree.withStatic]
  | addVerb type proc =>
    rw [run, TreeUpdate.leads_addVerb]
    refine ⟨fun marks known => ⟨?_, ?_⟩, fun _ _ => ⟨rfl, rfl⟩, fun unknown => ⟨?_, rfl⟩⟩
    · have marked : Does (.addVerb type proc) tree (tree.marked proc) := .mark marks
      exact .tail (.single marked) (.verb known (by simpa [ObjectTree.marked] using marks))
    · simp [registrations, ObjectTree.withVerb, ObjectTree.marked]
    · refine (marked_eq_iff.mpr fun entry found => ?_).symm
      exact absurd (Array.getElem?_eq_some_iff.mp found).1 unknown

theorem does_residue (op : TreeOp) (tree : ObjectTree) :
    Relation.ReflTransGen op.Does tree (op.residue tree) := by
  cases op with
  | addVerb type proc =>
    by_cases known : proc.index < tree.procs.size
    · exact .single (.mark known)
    · rw [residue, marked_eq_iff.mpr fun entry found =>
        absurd (Array.getElem?_eq_some_iff.mp found).1 known]
  | declare | declareText | setParent | finalize | newProc | setProc | newGlobalProc | setParams
  | setVariable
  | addStatic => exact .refl

theorem does_after {tree : ObjectTree} (coherent : tree.Coherent) (op : TreeOp) :
    Relation.ReflTransGen op.Does tree (op.run.after tree) := by
  unfold TreeUpdate.after
  cases ran : op.run.run tree with
  | ok value later => exact ((op.leads coherent).1 value later ran).1
  | error error later =>
    obtain ⟨rfl, -⟩ := (op.leads coherent).2 error later ran
    exact op.does_residue tree

theorem registrations_after {tree : ObjectTree} (coherent : tree.Coherent) (op : TreeOp) :
    (op.run.after tree).registrations.toList = tree.registrations.toList ++
      op.registrations tree := by
  unfold TreeUpdate.after
  cases ran : op.run.run tree with
  | ok value later => exact ((op.leads coherent).1 value later ran).2
  | error error later =>
    obtain ⟨rfl, none⟩ := (op.leads coherent).2 error later ran
    cases op <;> simp [residue, none, ObjectTree.marked]

end TreeOp

theorem ObjectTree.Reachable.changes {tree : ObjectTree} (reachable : tree.Reachable) :
    Changes .empty tree := by
  induction reachable with
  | empty => exact .refl
  | @after tree _ op ih =>
    exact ih.trans
      (changes_of_does
      (op.does_after (ih.invariant (fun _ _ change => change.coherent) coherent_empty)))

theorem ObjectTree.Reachable.coherent {tree : ObjectTree} (reachable : tree.Reachable) :
    tree.Coherent :=
  reachable.changes.invariant (fun _ _ change => change.coherent) coherent_empty

theorem ObjectTree.Reachable.closed {tree : ObjectTree} (reachable : tree.Reachable) :
    tree.Closed :=
  reachable.changes.invariant (fun _ _ change => change.closed) closed_empty

namespace TreeOp

/-- A failed update changes the tree only by marking a verb, if the proc was not one before. -/
theorem failed_leaves {tree later : ObjectTree} {error : TreeError} (reachable : tree.Reachable)
    (op : TreeOp) (failed : op.run.run tree = .error error later) :
    later = op.residue tree ∧
      (later = tree ↔ ∀ type proc entry, op = .addVerb type proc → tree.proc? proc = some entry →
        entry.flags.verb = true) := by
  obtain ⟨rfl, -⟩ := (op.leads reachable.coherent).2 error later failed
  refine ⟨rfl, ?_⟩
  cases op with
  | addVerb type proc =>
    rw [residue, marked_eq_iff]
    constructor
    · rintro already _ _ entry ⟨⟩ found
      exact already entry found
    · intro already entry found
      exact already type proc entry rfl found
  | declare | declareText | setParent | finalize | newProc | setProc | newGlobalProc | setParams
  | setVariable
  | addStatic => simp [residue]

theorem failed_leaves_globalInit :
    (addVerb ⟨7⟩ .globalInit).run.run .empty =
        .error (.internal (.unknownType ⟨7⟩)) (ObjectTree.marked .empty .globalInit) ∧
      (ObjectTree.marked .empty .globalInit = .empty ↔
        ∀ type proc entry, addVerb ⟨7⟩ .globalInit = .addVerb type proc →
          ObjectTree.empty.proc? proc = some entry → entry.flags.verb = true) :=
  ⟨rfl, (failed_leaves .empty (addVerb ⟨7⟩ .globalInit) rfl).2⟩

theorem failed_changes :
    ObjectTree.Reachable .empty ∧ ∃ op error later, run op .empty = .error error later ∧
      later ≠ .empty := by
  refine ⟨.empty, addVerb ⟨7⟩ .globalInit, .internal (.unknownType ⟨7⟩),
    ObjectTree.marked .empty .globalInit, rfl, ?_⟩
  intro same
  have verb := marked_eq_iff.mp same _ rfl
  cases verb

def build (history : List TreeOp) : ObjectTree :=
  history.foldl (fun tree op => op.run.after tree) .empty

theorem build_concat (history : List TreeOp) (op : TreeOp) :
    build (history ++ [op]) = op.run.after (build history) := by
  simp only [build, List.foldl_append, List.foldl_cons, List.foldl_nil]

def logFrom (tree : ObjectTree) : List TreeOp → List Registration
  | [] => []
  | op :: rest => op.registrations tree ++ logFrom (op.run.after tree) rest

def log (history : List TreeOp) : List Registration := logFrom .empty history

theorem invariant_run {motive : ObjectTree → Prop} {history : List TreeOp}
    (step : ∀ op ∈ history, ∀ tree later, op.Does tree later → motive tree → motive later)
    {tree : ObjectTree} (reachable : tree.Reachable) (holds : motive tree) :
    (history.foldl (fun tree op => op.run.after tree) tree).Reachable ∧
      motive (history.foldl (fun tree op => op.run.after tree) tree) := by
  induction history generalizing tree with
  | nil => exact ⟨reachable, holds⟩
  | cons op rest ih =>
    have here :=
      ObjectTree.invariant_of_steps (step op (by simp)) (op.does_after reachable.coherent) holds
    exact ih (fun other member => step other (by simp [member])) (reachable.after op) here

theorem reachable_build (history : List TreeOp) : (build history).Reachable :=
  (invariant_run (motive := fun _ => True) (fun _ _ _ _ _ => id) .empty trivial).1

theorem registrations_build (history : List TreeOp) : (build history).registrations.toList =
    log history := by
  have after (tree : ObjectTree) (reachable : tree.Reachable) :
      (history.foldl (fun tree op => op.run.after tree) tree).registrations.toList =
        tree.registrations.toList ++ logFrom tree history := by
    induction history generalizing tree with
    | nil => simp [logFrom]
    | cons op rest ih =>
      rw [List.foldl_cons, ih _ (reachable.after op),
        op.registrations_after reachable.coherent, logFrom, List.append_assoc]
  exact after .empty .empty

end TreeOp

end ProcLowering
