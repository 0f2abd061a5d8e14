import ProcLowering.Proofs.Backing
import ProcLowering.Proofs.Representation

set_option autoImplicit false

namespace ProcLowering

namespace TreeOp

def assigned (id : TypeId) : TreeOp → List (String × InitialValue)
  | .setVariable type name value => if type = id then [(name, value)] else []
  | _ => []

-- The slot of a new static is the first that no static has yet.
def allotted (id : TypeId) (tree : ObjectTree) : TreeOp → List (String × UInt32)
  | .addStatic type name => if type = id then [(name, .ofNat tree.statics.size)] else []
  | _ => []

def writes : TreeOp → Bool
  | .setVariable _ _ _ | .addStatic _ _ => true
  | _ => false

theorem assigned_eq_nil {id : TypeId} {op : TreeOp}
    (unassigned : ∀ name value, op ≠ .setVariable id name value) :
    op.assigned id = [] := by
  cases op with
  | setVariable type name value =>
    have apart : type ≠ id := fun same => unassigned name value (same ▸ rfl)
    rw [assigned, if_neg apart]
  | declare | declareText | setParent | finalize | newProc | setProc | newGlobalProc | setParams
  | addStatic
  | addVerb => rfl

theorem allotted_eq_nil {id : TypeId} {op : TreeOp} (unallotted : ∀ name, op ≠ .addStatic id name)
    (tree : ObjectTree) :
    op.allotted id tree = [] := by
  cases op with
  | addStatic type name =>
    have apart : type ≠ id := fun same => unallotted name (same ▸ rfl)
    rw [allotted, if_neg apart]
  | declare | declareText | setParent | finalize | newProc | setProc | newGlobalProc | setParams
  | setVariable
  | addVerb => rfl

def resume (tree : ObjectTree) (ops : List TreeOp) : ObjectTree :=
  ops.foldl (fun tree op => op.run.after tree) tree

def allottedFrom (id : TypeId) (tree : ObjectTree) : List TreeOp → List (String × UInt32)
  | [] => []
  | op :: rest => op.allotted id tree ++ allottedFrom id (op.run.after tree) rest

end TreeOp

def TypeRecord.estate (record : TypeRecord) : TypePath × NameMap InitialValue × NameMap UInt32 :=
  (record.path, record.vars, record.statics)

namespace ObjectTree

variable {tree later : ObjectTree} {id : TypeId} {record : TypeRecord}

theorem type?_withType_known {above : TypeRecord} {path : TypePath}
    (known : id.index < tree.types.size) :
    (tree.withType above path).type? id = tree.type? id := by
  rw [type?, withType, Array.getElem?_push, if_neg (Nat.ne_of_lt known), type?]

theorem type?_of_gains (gains : Relation.ReflTransGen Gains tree later)
    (found : tree.type? id = some record) :
    later.type? id = some record := by
  induction gains with
  | refl => exact found
  | tail _ gain ih =>
    cases gain
    rw [type?_withType_known (known_of_type? ih), ih]

/-- A type holds what the type of the path above it holds, and hangs from it. -/
structure Heir (tree : ObjectTree) (record : TypeRecord) (parent : TypeId) (above : TypeRecord) :
    Prop where
  named : ∃ path, record.path.parent? = some path ∧ tree.findPath? path = some parent
  found : tree.type? parent = some above
  parent : record.parent = some parent
  vars : record.vars = above.vars
  statics : record.statics = above.statics

theorem Heir.withType {parent : TypeId} {above other : TypeRecord} {path : TypePath}
    (heir : tree.Heir record parent above) (fresh : tree.findPath? path = none) :
    (tree.withType other path).Heir record parent above := by
  obtain ⟨upper, textual, named⟩ := heir.named
  have apart : path ≠ upper := by
    rintro rfl
    rw [fresh] at named
    cases named
  refine { heir with named := ⟨upper, textual, ?_⟩, found := ?_ }
  · rw [findPath?_withType, if_neg apart, named]
  · rw [type?_withType_known (known_of_type? heir.found), heir.found]

theorem heir_withType {segment : String} {above : List String} {parent : TypeId}
    (rooted : tree.addressed.Rooted) (named : tree.findPath? ⟨above.reverse⟩ = some parent)
    (found : tree.type? parent = some record) :
    (tree.withType record ⟨(segment :: above).reverse⟩).Heir
      (record.under (.ofIndex tree.types.size) ⟨(segment :: above).reverse⟩) parent record := by
  have longer : (⟨(segment :: above).reverse⟩ : TypePath) ≠ ⟨above.reverse⟩ := by simp
  have same : record.id = parent := rooted.id_eq ((type?_addressed tree parent).trans found)
  refine
    { named := ⟨⟨above.reverse⟩, ?_, ?_⟩, found := ?_, parent := congrArg some same, vars := rfl,
      statics := rfl }
  · simp [TypeRecord.under, TypePath.parent?, TypePath.isRoot]
  · rw [findPath?_withType, if_neg longer, named]
  · rw [type?_withType_known (known_of_type? found), found]

theorem heir_of_gains (gains : Relation.ReflTransGen Gains tree later)
    (rooted : tree.addressed.Rooted) (absent : tree.type? id = none)
    (found : later.type? id = some record) :
    ∃ parent above, later.Heir record parent above := by
  induction gains with
  | refl =>
    rw [absent] at found
    cases found
  | @tail middle last earlier gain ih =>
    have rooted' :=
      (changes_of_gains earlier).invariant (fun _ _ change => change.rooted_addressed) rooted
    obtain @⟨segment, path, parent, above, -, fresh, named, there⟩ := gain
    by_cases older : id.index < middle.types.size
    · rw [type?_withType_known older] at found
      obtain ⟨parent, above, heir⟩ := ih found
      exact ⟨parent, above, heir.withType fresh⟩
    · have inside := known_of_type? found
      have newest : id.index = middle.types.size := by
        simp only [withType, Array.size_push] at inside
        omega
      rw [type?, withType, Array.getElem?_push, if_pos newest] at found
      cases found
      exact ⟨parent, above, heir_withType rooted' named there⟩

end ObjectTree

namespace TreeOp

variable {tree : ObjectTree} {id : TypeId} {record : TypeRecord}

theorem Registers.declares_eq {op : TreeOp} {registration : Registration}
    (registers : op.Registers registration) :
    op.declares = false := by
  cases op with
  | newProc | setProc => rfl
  | declare | declareText | setParent | finalize | newGlobalProc | setParams | setVariable
  | addStatic | addVerb =>
    exact registers.elim

theorem gains_of_does {op : TreeOp} (declares : op.declares = true) {later : ObjectTree}
    (does : Relation.ReflTransGen op.Does tree later) :
      Relation.ReflTransGen ObjectTree.Gains tree later := by
  refine Relation.ReflTransGen.mono (fun tree later step => ?_) _ _ does
  cases step with
  | declare _ gains => exact gains
  | register registers => simp [registers.declares_eq] at declares
  | reparent | finish | allocate | publish | params | assign | static | mark | verb =>
    cases declares

theorem size_of_does {op : TreeOp} (declares : op.declares = false) {later : ObjectTree}
    (does : op.Does tree later) :
    later.types.size = tree.types.size := by
  cases does with
  | declare declares' => simp [declares] at declares'
  | register => exact ObjectTree.size_types_linked ..
  | finish => exact ObjectTree.size_types_finished _
  | reparent | assign | static | verb => exact Array.size_modify
  | allocate | publish | params | mark => rfl

theorem estates_of_does {op : TreeOp} (declares : op.declares = false) (writes : op.writes = false)
    {later : ObjectTree} (does : op.Does tree later) : later.types.map TypeRecord.estate =
    tree.types.map TypeRecord.estate := by
  cases does with
  | declare declares' => simp [declares] at declares'
  | reparent =>
    rw [ObjectTree.reparented, map_modify]
    exact fun _ => rfl
  | register => exact ObjectTree.map_linked _ (fun _ _ => rfl) (fun _ _ => rfl) _ _
  | finish =>
    exact ObjectTree.map_finished _
      (fun _ _ => rfl) (fun _ _ => rfl) (fun _ _ => rfl) (fun _ _ => rfl) _
  | verb => exact ObjectTree.map_withVerb _ (fun _ _ => rfl) _ _ _
  | assign | static => cases writes
  | allocate | publish | params | mark => rfl

theorem type?_of_unknown {type : TypeId} (found : tree.type? id = some record)
    (unknown : ¬ type.index < tree.types.size) (other : TypeRecord) :
    tree.type? id = some (if id = type then other else record) := by
  rw [if_neg, found]
  rintro rfl
  exact unknown (ObjectTree.known_of_type? found)

theorem type?_after_setVariable (found : tree.type? id = some record) (type : TypeId)
    (name : String) (value : InitialValue) :
    ((TreeOp.setVariable type name value).run.after tree).type? id =
      some (if id = type then record.setVariable name value else record) := by
  have outcome : (TreeOp.setVariable type name value).run.Leads tree
      (fun _ later => later.type? id =
        some (if id = type then record.setVariable name value else record))
      fun later => later.type? id =
        some (if id = type then record.setVariable name value else record) := by
    rw [run, TreeUpdate.setVariable, TreeUpdate.leads_modifyType]
    exact ⟨fun _ => (TypeId.getElem?_modify ..).trans (congrArg _ found), fun unknown =>
      type?_of_unknown found unknown _⟩
  exact outcome.after

theorem type?_after_addStatic (found : tree.type? id = some record) (type : TypeId)
    (name : String) :
    ((TreeOp.addStatic type name).run.after tree).type? id =
      some (if id = type then
        { record with statics := record.statics.insert name (.ofNat tree.statics.size) }
        else record) := by
  let grown : TypeRecord :=
    { record with statics := record.statics.insert name (.ofNat tree.statics.size) }
  have outcome : (TreeOp.addStatic type name).run.Leads tree
      (fun _ later => later.type? id = some (if id = type then grown else record))
      fun later => later.type? id = some (if id = type then grown else record) := by
    rw [run, TreeUpdate.leads_discard, TreeUpdate.leads_addStatic]
    exact ⟨fun _ => (TypeId.getElem?_modify ..).trans (congrArg _ found), fun unknown =>
      type?_of_unknown found unknown _⟩
  exact outcome.after

theorem after_keeps (coherent : tree.Coherent) {op : TreeOp} (writes : op.writes = false)
    (found : tree.type? id = some record) :
    ∃ later, (op.run.after tree).type? id = some later ∧ later.estate = record.estate := by
  have does := op.does_after coherent
  cases declares : op.declares with
  | true => exact ⟨record, ObjectTree.type?_of_gains (gains_of_does declares does) found, rfl⟩
  | false =>
    have step (middle later : ObjectTree) (does : op.Does middle later)
        (same : middle.types.map TypeRecord.estate = tree.types.map TypeRecord.estate) :
        later.types.map TypeRecord.estate = tree.types.map TypeRecord.estate :=
      (estates_of_does declares writes does).trans same
    exact exists_of_map_eq (ObjectTree.invariant_of_steps step does rfl).symm found

theorem after_holds (coherent : tree.Coherent) (op : TreeOp) (found : tree.type? id = some record) :
    ∃ later, (op.run.after tree).type? id = some later ∧ later.path = record.path ∧
      later.vars = record.vars.insertMany (op.assigned id) ∧
      later.statics = record.statics.insertMany (op.allotted id tree) := by
  cases writes : op.writes with
  | false =>
    obtain ⟨later, found', estate⟩ := after_keeps coherent writes found
    obtain ⟨path, vars, statics⟩ :
        later.path = record.path ∧ later.vars = record.vars ∧ later.statics = record.statics := by
      simpa [TypeRecord.estate] using estate
    have assigned : op.assigned id = [] := assigned_eq_nil (by rintro _ _ rfl; cases writes)
    have allotted : op.allotted id tree = [] := allotted_eq_nil (by rintro _ rfl; cases writes) tree
    refine ⟨later, found', path, ?_, ?_⟩
    · rw [assigned, vars, Std.TreeMap.insertMany_nil]
    · rw [allotted, statics, Std.TreeMap.insertMany_nil]
  | true =>
    cases op with
    | setVariable type name value =>
      refine ⟨_, type?_after_setVariable found type name value, ?_⟩
      by_cases same : id = type
      · simp [assigned, allotted, same, TypeRecord.setVariable, Std.TreeMap.insertMany_nil,
          Std.TreeMap.insertMany_cons]
      · simp [assigned, allotted, same, Ne.symm same, Std.TreeMap.insertMany_nil]
    | addStatic type name =>
      refine ⟨_, type?_after_addStatic found type name, ?_⟩
      by_cases same : id = type
      · simp [assigned, allotted, same, Std.TreeMap.insertMany_nil, Std.TreeMap.insertMany_cons]
      · simp [assigned, allotted, same, Ne.symm same, Std.TreeMap.insertMany_nil]
    | declare | declareText | setParent | finalize | newProc | setProc | newGlobalProc | setParams
    | addVerb =>
      cases writes

theorem resume_holds (reachable : tree.Reachable) (ops : List TreeOp)
    (found : tree.type? id = some record) :
    ∃ later, (resume tree ops).type? id = some later ∧ later.path = record.path ∧
      later.vars = record.vars.insertMany (ops.flatMap (assigned id)) ∧
      later.statics = record.statics.insertMany (allottedFrom id tree ops) := by
  induction ops generalizing tree record with
  | nil =>
    exact ⟨record, found, rfl, Std.TreeMap.insertMany_nil.symm, Std.TreeMap.insertMany_nil.symm⟩
  | cons op rest ih =>
    obtain ⟨middle, found', path, vars, statics⟩ := op.after_holds reachable.coherent found
    obtain ⟨later, found'', path', vars', statics'⟩ := ih (reachable.after op) found'
    refine ⟨later, found'', path'.trans path, ?_, ?_⟩
    · rw [vars', vars, List.flatMap_cons, Std.TreeMap.insertMany_append]
    · rw [statics', statics, allottedFrom, Std.TreeMap.insertMany_append]

theorem heir_of_new (reachable : tree.Reachable) (op : TreeOp) (absent : tree.type? id = none)
    (found : (op.run.after tree).type? id = some record) :
    ∃ parent above, (op.run.after tree).Heir record parent above ∧
      ∀ older, tree.type? parent = some older → older = above := by
  have does := op.does_after reachable.coherent
  cases declares : op.declares with
  | true =>
    have gains := gains_of_does declares does
    obtain ⟨parent, above, heir⟩ :=
      ObjectTree.heir_of_gains gains reachable.rooted_addressed absent found
    refine ⟨parent, above, heir, fun older there => ?_⟩
    exact Option.some.inj ((ObjectTree.type?_of_gains gains there).symm.trans heir.found)
  | false =>
    -- Only a declaration adds a type.
    have unknown : ¬ id.index < tree.types.size := by simpa [ObjectTree.type?] using absent
    have step (middle later : ObjectTree) (does : op.Does middle later)
        (same : middle.types.size = tree.types.size) :
        later.types.size = tree.types.size :=
      (size_of_does declares does).trans same
    have size := ObjectTree.invariant_of_steps step does rfl
    exact absurd (size ▸ ObjectTree.known_of_type? found) unknown

theorem exists_declaration {history : List TreeOp} (absent : ObjectTree.empty.type? id = none)
    (found : (build history).type? id = some record) :
    ∃ before op after fresh, history = before ++ op :: after ∧ (build before).type? id = none ∧
      (op.run.after (build before)).type? id = some fresh := by
  induction history using List.reverseRecOn generalizing record with
  | nil =>
    rw [build, List.foldl_nil, absent] at found
    cases found
  | append_singleton history op ih =>
    cases earlier : (build history).type? id with
    | none =>
      rw [build_concat] at found
      exact ⟨history, op, [], record, rfl, earlier, found⟩
    | some fresh =>
      obtain ⟨before, first, after, fresh, split, rest⟩ := ih earlier
      exact ⟨before, first, after ++ [op], fresh, by simp [split], rest⟩

/-- Where variables and statics of a type come from after a history of updates: from nothing at the
root, and else from the type above it at the update that declared it. -/
inductive Provenance (history : List TreeOp) (id : TypeId) (record : TypeRecord) : Prop
  | root (top : id = .root)
      (vars : record.vars = (∅ : NameMap InitialValue).insertMany (history.flatMap (assigned id)))
      (statics : record.statics = (∅ : NameMap UInt32).insertMany (allottedFrom id .empty history))
  | declared {before after : List TreeOp} {op : TreeOp} {fresh above : TypeRecord} {parent : TypeId}
      (split : history = before ++ op :: after) (absent : (build before).type? id = none)
      (made : (build (before ++ [op])).type? id = some fresh) (path : record.path = fresh.path)
      (heir : (build (before ++ [op])).Heir fresh parent above)
      -- A parent that is older than the update is not touched by it.
      (kept : ∀ older, (build before).type? parent = some older → older = above)
      (vars : record.vars = above.vars.insertMany (after.flatMap (assigned id)))
      (statics : record.statics =
        above.statics.insertMany (allottedFrom id (build (before ++ [op])) after))

theorem provenance_of_declared {before after : List TreeOp} {op : TreeOp} {fresh : TypeRecord}
    (absent : (build before).type? id = none)
    (made : (op.run.after (build before)).type? id = some fresh)
    (found : (build (before ++ op :: after)).type? id = some record) :
    Provenance (before ++ op :: after) id record := by
  have reachable := reachable_build before
  have first := build_concat before op
  have rest : build (before ++ op :: after) = resume (op.run.after (build before)) after := by
    simp [build, resume]
  obtain ⟨parent, above, heir, kept⟩ := heir_of_new reachable op absent made
  obtain ⟨later, found', path, vars, statics⟩ := resume_holds (reachable.after op) after made
  rw [rest, found'] at found
  cases found
  rw [heir.vars] at vars
  rw [heir.statics] at statics
  refine .declared rfl absent (first ▸ made) path (first ▸ heir) kept vars ?_
  rw [first, statics]

theorem provenance_of_root {history : List TreeOp} {top : TypeRecord}
    (start : ObjectTree.empty.type? id = some top)
    (found : (build history).type? id = some record) : Provenance history id record := by
  have only : id.index < 1 := ObjectTree.known_of_type? start
  obtain rfl : id = .root := TypeId.index_injective (Nat.lt_one_iff.mp only)
  obtain ⟨later, found', -, vars, statics⟩ := resume_holds .empty history start
  rw [build, ← resume, found'] at found
  cases found
  cases start
  exact .root rfl vars statics

/-- Variables and statics are copied when a type is declared, from the type of the path above it,
and afterwards change only by what is written to the type itself. -/
theorem build_inherits {history : List TreeOp} (found : (build history).type? id = some record) :
    Provenance history id record ∧
      ∀ op : TreeOp, ∃ later, (op.run.after (build history)).type? id = some later ∧
        ((∀ name value, op ≠ .setVariable id name value) → later.vars = record.vars) ∧
        ((∀ name, op ≠ .addStatic id name) → later.statics = record.statics) := by
  refine ⟨?_, fun op => ?_⟩
  · cases start : ObjectTree.empty.type? id with
    | none =>
      obtain ⟨before, op, after, fresh, rfl, absent, made⟩ := exists_declaration start found
      exact provenance_of_declared absent made found
    | some top => exact provenance_of_root start found
  · obtain ⟨later, found', -, vars, statics⟩ :=
      op.after_holds (reachable_build history).coherent found
    refine ⟨later, found', fun unassigned => ?_, fun unallotted => ?_⟩
    · rw [vars, assigned_eq_nil unassigned, Std.TreeMap.insertMany_nil]
    · rw [statics, allotted_eq_nil unallotted, Std.TreeMap.insertMany_nil]

def imps : List TreeOp :=
  [.declare ⟨["mob"]⟩, .setVariable ⟨1⟩ "hp" (.number (.ofNat 10)), .addStatic ⟨1⟩ "count",
    .declare ⟨["mob", "imp"]⟩, .setVariable ⟨1⟩ "hp" (.number (.ofNat 20)),
    .setVariable ⟨2⟩ "hp" (.number (.ofNat 5)), .setParent ⟨2⟩ .root,
    .declare ⟨["mob", "imp", "red", "runt"]⟩, .setVariable ⟨2⟩ "hp" .null, .addStatic ⟨4⟩ "count",
    .declare ⟨["mob", "imp"]⟩, .finalize]

theorem build_inherits_runt :
    ∃ record, (build imps).type? ⟨4⟩ = some record ∧ Provenance imps ⟨4⟩ record ∧
      record.vars["hp"]? = some (.number (.ofNat 5)) ∧ record.statics["count"]? = some 1 ∧
      (build imps).findPath? ⟨["mob", "imp", "red", "runt"]⟩ = some ⟨4⟩ := by
  have held : ((build imps).type? ⟨4⟩).map (fun record =>
    (record.vars["hp"]?, record.statics["count"]?)) =
      some (some (.number (.ofNat 5)), some 1) := by decide +kernel
  obtain ⟨record, found, values⟩ := Option.map_eq_some_iff.mp held
  obtain ⟨vars, statics⟩ := Prod.mk.inj values
  exact ⟨record, found, (build_inherits found).1, vars, statics, by decide +kernel⟩

end TreeOp

end ProcLowering
