import ProcLowering.Proofs.Backing
import ProcLowering.Proofs.Frozen
import ProcLowering.Proofs.MatrixShape
import ProcLowering.Proofs.Preorder

set_option autoImplicit false

namespace ProcLowering

namespace ObjectTree

variable {tree later : ObjectTree}

theorem Frozen.parent?_eq (frozen : tree.Frozen later) (id : TypeId) :
    later.parent? id = tree.parent? id := by
  apply parent?_congr
  simpa [skeleton, Function.comp_def, TypeRecord.fixed] using
    congrArg (·.map fun record => (record.id, record.parent)) frozen.types

theorem Changes.since_finished (changes : Changes .empty tree) (finalized : tree.finalized = true) :
    ∃ before, Changes .empty before ∧ before.numbering?.isSome = true ∧
      before.finished.Frozen tree := by
  induction changes with
  | refl => cases finalized
  | @tail middle later earlier change ih =>
    obtain ⟨op, does⟩ := change
    cases already : middle.finalized with
    | true =>
      have frozen := does.frozen already
      obtain ⟨before, made, room, since⟩ := ih already
      exact ⟨before, made, room, since.trans frozen⟩
    | false =>
      obtain ⟨room, rfl⟩ := does.finishes already finalized
      exact ⟨middle, earlier, room, .refl _⟩

theorem Descends.known {id above : TypeId} (descends : tree.Descends id above)
    (known : above.index < tree.types.size) :
    id.index < tree.types.size := by
  rcases Relation.ReflTransGen.cases_head descends with rfl | ⟨next, link, -⟩
  · exact known
  · exact known_of_parent? link

theorem Entered.mem_of_descends {visits : List Visit} {before after : Numbering}
    {entered : List TypeId} (covers : tree.Entered visits before after entered)
    (rooted : tree.addressed.Rooted) {id above : TypeId} (start : above ∈ entered)
    (descends : tree.addressed.Descends id above) : id ∈ entered := by
  induction descends using Relation.ReflTransGen.head_induction_on with
  | refl => exact start
  | @head child parent link _ ih =>
    obtain ⟨record, found, parent⟩ := Option.bind_eq_some_iff.mp link
    rw [← rooted.id_eq found]
    rw [type?_addressed] at found
    exact covers.below _ ih _ (mem_children_of_record (Array.mem_of_getElem? found) parent)

theorem Changes.few_of_numbering (made : Changes .empty tree)
    (room : tree.numbering?.isSome = true) :
    tree.types.size < UInt32.size := by
  have rooted := made.rooted_addressed
  obtain ⟨after, walked⟩ := Option.isSome_iff_exists.mp room
  obtain ⟨entered, covers⟩ := exists_entered walked
  have all : tree.addressed.types.toList.map (·.id) ⊆ entered := by
    intro id member
    obtain ⟨depth, here⟩ := rooted.depth id (rooted.mem_ids.mp member)
    exact covers.mem_of_descends rooted (covers.start .root (by simp)) here.descends_root
  have count := (List.subperm_of_subset rooted.nodup_ids all).length_le
  have next := covers.next
  have bound := covers.bound (show 0 < UInt32.size by decide)
  simp only [List.length_map, Array.length_toList, size_addressed] at count
  simp only at next
  omega

theorem Reachable.isSubtype_iff (reachable : tree.Reachable) (finalized : tree.finalized = true)
    (type ancestor : TypeId) :
    tree.isSubtype type ancestor = true ↔
      type.index < tree.types.size ∧ ancestor.index < tree.types.size ∧
        tree.Descends type ancestor := by
  obtain ⟨before, made, room, frozen⟩ := reachable.changes.since_finished finalized
  have few := made.few_of_numbering room
  have size : before.types.size = tree.types.size := by
    simpa using (congrArg Array.size frozen.types).symm
  have rooted : before.Rooted := by
    have whole : before.addressed = before := addressed_eq (by omega)
    exact whole ▸ made.rooted_addressed
  have links (id : TypeId) : tree.parent? id = before.parent? id :=
    (frozen.parent?_eq id).trans (parent?_congr
      (map_finished _ (fun _ _ => rfl) (fun _ _ => rfl) (fun _ _ => rfl) (fun _ _ => rfl) before)
        id)
  rw [frozen.isSubtype_eq rfl, rooted.isSubtype_finished few, size]
  simp only [Descends, links]

end ObjectTree

namespace Matrix

/-- The proc builds matrices when it is called on the given type, or
on its own one if there is none. -/
inductive Builds (tree : ObjectTree) (owner : Option TypeId) : Option ProcId → Prop
  | global {id : ProcId} {entry : Proc} (found : tree.proc? id = some entry)
      (ownerless : entry.owner = none) (named : entry.name = "matrix") : Builds tree owner (some id)
  | new {id : ProcId} {entry : Proc} {declaring matrix : TypeId}
      (found : tree.proc? id = some entry) (owned : entry.owner = some declaring)
      (named : entry.name = "New") (declared : tree.findPath? ⟨["matrix"]⟩ = some matrix)
      (below : tree.Descends (owner.getD declaring) matrix) :
      Builds tree owner (some id)

theorem isBuilder_of_owned {tree : ObjectTree} (owner : Option TypeId) {id : ProcId} {entry : Proc}
    {declaring : TypeId} (found : tree.proc? id = some entry)
    (owned : entry.owner = some declaring) :
    isBuilder tree owner (some id) = true ↔ entry.name = "New" ∧
      ∃ matrix, tree.findPath? ⟨["matrix"]⟩ = some matrix ∧
        tree.isSubtype (owner.getD declaring) matrix = true := by
  have path : TypePath.parse "/matrix" = .ok ⟨["matrix"]⟩ := by decide +kernel
  simp only [isBuilder, Option.bind_some, found, Proc.isGlobal, owned, Option.isNone_some,
    Bool.false_eq_true, if_false, Bool.and_eq_true, beq_iff_eq, Option.or_some,
    ObjectTree.find?, path]
  cases tree.findPath? ⟨["matrix"]⟩ <;> simp

theorem isBuilder_iff {tree : ObjectTree} (reachable : tree.Reachable)
    (finalized : tree.finalized = true) (owner : Option TypeId) (proc : Option ProcId) :
    isBuilder tree owner proc = true ↔ Builds tree owner proc := by
  have reaches (type matrix : TypeId) (declared : tree.findPath? ⟨["matrix"]⟩ = some matrix) :
      tree.isSubtype type matrix = true ↔ tree.Descends type matrix := by
    have known := reachable.coherent.paths _ _ declared
    rw [reachable.isSubtype_iff finalized]
    exact ⟨fun below => below.2.2, fun below => ⟨below.known known, known, below⟩⟩
  constructor
  · intro builds
    cases found : proc.bind tree.proc? with
    | none => simp [isBuilder, found] at builds
    | some entry =>
      obtain ⟨id, rfl, found⟩ := Option.bind_eq_some_iff.mp found
      cases owned : entry.owner with
      | none =>
        exact .global found owned (by simpa [isBuilder, found, Proc.isGlobal, owned] using builds)
      | some declaring =>
        obtain ⟨named, matrix, declared, below⟩ := (isBuilder_of_owned owner found owned).mp builds
        exact .new found owned named declared ((reaches _ matrix declared).mp below)
  · intro builds
    cases builds with
    | global found ownerless named => simp [isBuilder, found, Proc.isGlobal, ownerless, named]
    | new found owned named declared below =>
      exact (isBuilder_of_owned owner found owned).mpr
        ⟨named, _, declared, (reaches _ _ declared).mpr below⟩

/-- A call is reported just if it builds a matrix and its arguments
are flawed, and then for that flaw. -/
theorem callProblem?_eq_some_iff {tree : ObjectTree} (reachable : tree.Reachable)
    (finalized : tree.finalized = true) (owner : Option TypeId) (proc : Option ProcId)
    (arguments : List Argument) (span : Span) (problem : Diagnostic) :
    callProblem? tree owner proc arguments span = some problem ↔
      Builds tree owner proc ∧ Flawed arguments span problem := by
  rw [← isBuilder_iff reachable finalized, ← shapeProblem?_eq_some_iff, callProblem?]
  exact Option.ite_none_right_eq_some

def optics : List TreeOp :=
  [.declare ⟨["matrix"]⟩, .declare ⟨["thing", "lens"]⟩, .newProc ⟨3⟩ "New" {},
    .setParent ⟨3⟩ ⟨1⟩, .finalize]

def turnedBack : List Argument :=
  [.ofValue none (.name ⟨"m", .point 1 5⟩),
    .mk (some ⟨"op", .point 1 8⟩)
      (.unary .negate (.binary .bitOr (.literal (.number (.ofNat 128)) (.point 1 15))
        (.literal (.number (.ofNat 5)) (.point 1 21)) (.point 1 15)) (.point 1 13))
      (.point 1 8)]

def noSuchOperation : Diagnostic :=
  .ofKind .suspiciousCall (.point 1 8) "invalid matrix operation -133"

theorem callProblem?_lens :
    (TreeOp.build optics).finalized = true ∧
      callProblem? (TreeOp.build optics) none (some ⟨1⟩) turnedBack (.point 1 1) =
        some noSuchOperation ∧
      Builds (TreeOp.build optics) none (some ⟨1⟩) ∧
        Flawed turnedBack (.point 1 1) noSuchOperation := by
  have finalized : (TreeOp.build optics).finalized = true := by decide +kernel
  have reported :
      callProblem? (TreeOp.build optics) none (some ⟨1⟩) turnedBack (.point 1 1) =
        some noSuchOperation := by
    decide +kernel
  exact ⟨finalized, reported,
    (callProblem?_eq_some_iff (TreeOp.reachable_build optics) finalized _ _ _ _ _).mp reported⟩

end Matrix

end ProcLowering
