import Mathlib.Logic.Relation
import ProcLowering.Proofs.General
import ProcLowering.Proofs.Reachable

/-!
The elementary changes of a tree. Whatever updates do is a sequence of them, so an invariant of
trees is what each of them keeps.
-/

set_option autoImplicit false

namespace ProcLowering

namespace ObjectTree

def withType (tree : ObjectTree) (above : TypeRecord) (path : TypePath) : ObjectTree :=
  { tree with
    types := tree.types.push (above.under (.ofIndex tree.types.size) path)
    paths := tree.paths.insert path (.ofIndex tree.types.size) }

def reparented (tree : ObjectTree) (type parent : TypeId) : ObjectTree :=
  { tree with types := tree.types.modify type.index fun record => { record with
    parent := some parent } }

def withProc (tree : ObjectTree) (name : String) (owner : Option TypeId) (flags : ProcFlags) :
    ObjectTree :=
  { tree with
    procs := tree.procs.push
      { id := .ofIndex tree.procs.size, name, owner, flags := { flags with overriding := false } } }

def redefined? (tree : ObjectTree) (type : TypeId) (name : String) : Option ProcId :=
  (tree.type? type).bind fun record =>
    if declares (tree.lineageOf record) name then visible? (tree.lineageOf record) name else none

def linked (tree : ObjectTree) (registration : Registration) : ObjectTree :=
  let super := tree.redefined? registration.type registration.name
  { tree with
    types := tree.types.modify registration.type.index
      (·.insertProc registration.name registration.proc super.isSome)
    procs := tree.procs.modify registration.proc.index (·.linkedTo super) }

def registered (tree : ObjectTree) (registration : Registration) : ObjectTree :=
  { tree.linked registration with registrations := tree.registrations.push registration }

def published (tree : ObjectTree) (name : String) (flags : ProcFlags) : ObjectTree :=
  { tree.withProc name none flags with
    globals := tree.globals.insert name (.ofIndex tree.procs.size) }

def cleared (tree : ObjectTree) : ObjectTree :=
  { tree with types := tree.types.map TypeRecord.clearProcs }

def relinked (tree : ObjectTree) : ObjectTree := tree.registrations.toList.foldl linked tree.cleared

def numbered (tree : ObjectTree) : ObjectTree :=
  { tree with types := (tree.numbering?.map (·.types)).getD tree.types }

def finished (tree : ObjectTree) : ObjectTree := { tree.numbered.relinked with finalized := true }

def withParams (tree : ObjectTree) (proc : ProcId) (params : List String) : ObjectTree :=
  { tree with procs := tree.procs.modify proc.index ({ · with params }) }

def withVariable (tree : ObjectTree) (type : TypeId) (name : String) (value : InitialValue) :
    ObjectTree :=
  { tree with types := tree.types.modify type.index (·.setVariable name value) }

def withStatic (tree : ObjectTree) (type : TypeId) (name : String) : ObjectTree :=
  { tree with
    types := tree.types.modify type.index fun record =>
      { record with statics := record.statics.insert name (UInt32.ofNat tree.statics.size) }
    statics := tree.statics.push name }

def marked (tree : ObjectTree) (proc : ProcId) : ObjectTree :=
  { tree with
    procs := tree.procs.modify proc.index fun entry =>
      { entry with flags := { entry.flags with verb := true } } }

def withVerb (tree : ObjectTree) (type : TypeId) (proc : ProcId) : ObjectTree :=
  { tree with
    types := tree.types.modify type.index fun record =>
      { record with verbs := record.verbs.push proc } }

-- The guards of the two updates that check more than one thing.

def Movable (tree : ObjectTree) (type parent : TypeId) : Prop :=
  tree.finalized = false ∧ type ≠ .root ∧ type.index < tree.types.size ∧
    parent.index < tree.types.size ∧
    tree.isSubtype parent type = false

def Registrable (tree : ObjectTree) (registration : Registration) : Prop :=
  tree.finalized = false ∧ registration.type.index < tree.types.size ∧
    registration.proc.index < tree.procs.size

inductive Gains (tree : ObjectTree) : ObjectTree → Prop
  | withType {segment : String} {above : List String} {parent : TypeId} {record : TypeRecord}
      (unfinished : tree.finalized = false)
      (fresh : tree.findPath? ⟨(segment :: above).reverse⟩ = none)
      (named : tree.findPath? ⟨above.reverse⟩ = some parent)
      (found : tree.type? parent = some record) :
      Gains tree (tree.withType record ⟨(segment :: above).reverse⟩)

end ObjectTree

namespace TreeOp

open ObjectTree (Gains)

def declares : TreeOp → Bool
  | .declare _ | .declareText _ => true
  | _ => false

def Registers (registration : Registration) : TreeOp → Prop
  | .newProc owner name _ => registration.type = owner ∧ registration.name = name
  | .setProc type name proc => registration = { type, name, proc }
  | _ => False

/-- All that one step of an update can do to a tree. -/
inductive Does : TreeOp → ObjectTree → ObjectTree → Prop
  | declare {op : TreeOp} {tree later : ObjectTree} (declares : op.declares = true)
      (gains : Gains tree later) :
      Does op tree later
  | reparent {tree : ObjectTree} {type parent : TypeId} (movable : tree.Movable type parent) :
      Does (.setParent type parent) tree (tree.reparented type parent)
  | allocate {tree : ObjectTree} {name : String} {owner : TypeId} {flags : ProcFlags}
      (unfinished : tree.finalized = false) (known : owner.index < tree.types.size) :
      Does (.newProc owner name flags) tree (tree.withProc name (some owner) flags)
  | register {op : TreeOp} {tree : ObjectTree} {registration : Registration}
      (registers : op.Registers registration) (registrable : tree.Registrable registration) :
      Does op tree (tree.registered registration)
  | publish {tree : ObjectTree} {name : String} {flags : ProcFlags}
      (fresh : tree.globals.contains name = false) :
      Does (.newGlobalProc name flags) tree (tree.published name flags)
  | finish {tree : ObjectTree} (unfinished : tree.finalized = false)
      (room : tree.numbering?.isSome = true) :
      Does .finalize tree tree.finished
  | params {tree : ObjectTree} {proc : ProcId} {params : List String}
      (known : proc.index < tree.procs.size) :
      Does (.setParams proc params) tree (tree.withParams proc params)
  | assign {tree : ObjectTree} {type : TypeId} {name : String} {value : InitialValue}
      (known : type.index < tree.types.size) :
      Does (.setVariable type name value) tree (tree.withVariable type name value)
  | static {tree : ObjectTree} {type : TypeId} {name : String}
      (known : type.index < tree.types.size) :
      Does (.addStatic type name) tree (tree.withStatic type name)
  | mark {tree : ObjectTree} {type : TypeId} {proc : ProcId}
      (known : proc.index < tree.procs.size) :
      Does (.addVerb type proc) tree (tree.marked proc)
  | verb {tree : ObjectTree} {type : TypeId} {proc : ProcId} (known : type.index < tree.types.size)
      (listed : proc.index < tree.procs.size) :
        Does (.addVerb type proc) tree (tree.withVerb type proc)

theorem Does.finishes {op : TreeOp} {tree later : ObjectTree} (does : op.Does tree later)
    (unfinished : tree.finalized = false) (finalized : later.finalized = true) :
    tree.numbering?.isSome = true ∧ later = tree.finished := by
  have unclosed : tree.finalized ≠ true := by simp [unfinished]
  cases does with
  | finish _ room => exact ⟨room, rfl⟩
  | declare _ gains =>
    cases gains
    exact (unclosed finalized).elim
  | reparent | allocate | register | publish | params | assign | static | mark | verb =>
    exact (unclosed finalized).elim

end TreeOp

namespace ObjectTree

def Change (tree later : ObjectTree) : Prop := ∃ op : TreeOp, op.Does tree later

abbrev Changes : ObjectTree → ObjectTree → Prop := Relation.ReflTransGen Change

theorem changes_of_does {op : TreeOp} {tree later : ObjectTree}
    (does : Relation.ReflTransGen op.Does tree later) :
    Changes tree later :=
  Relation.ReflTransGen.mono (fun _ _ step => ⟨op, step⟩) _ _ does

theorem does_of_gains {op : TreeOp} (declares : op.declares = true) {tree later : ObjectTree}
    (gains : Relation.ReflTransGen Gains tree later) : Relation.ReflTransGen op.Does tree later :=
  Relation.ReflTransGen.mono (fun _ _ gain => .declare declares gain) _ _ gains

theorem changes_of_gains {tree later : ObjectTree}
    (gains : Relation.ReflTransGen Gains tree later) :
    Changes tree later :=
  Relation.ReflTransGen.mono (fun _ _ gain => ⟨.declare .root, .declare rfl gain⟩) _ _ gains

theorem foldl_linked {β : Type} (view : ObjectTree → β)
    (keeps : ∀ tree registration, view (tree.linked registration) = view tree)
    (registrations : List Registration) (tree : ObjectTree) :
    view (registrations.foldl linked tree) = view tree := by
  induction registrations generalizing tree with
  | nil => rfl
  | cons first rest ih => exact (ih _).trans (keeps tree first)

section

variable {β : Type} (view : TypeRecord → β)

theorem map_walk (index : ∀ record index, view { record with index } = view record)
    (descendants : ∀ record descendants, view { record with descendants } = view record)
    (tree : ObjectTree) {turns : Nat} {visits : List Visit} {before after : Numbering}
    (walked : tree.walk turns visits before = some after) :
      after.types.map view = before.types.map view := by
  fun_induction walk tree turns visits before with
  | case1 =>
    cases walked
    rfl
  | case2 => cases walked
  | case3 turns id rest before ih =>
    simp only [ih walked, Numbering.leave]
    exact map_modify (fun record => descendants record _) _ _
  | case4 turns id rest before room ih =>
    simp only [ih walked, Numbering.enter]
    exact map_modify (fun record => index record _) _ _
  | case5 => cases walked

theorem map_numbered (index : ∀ record index, view { record with index } = view record)
    (descendants : ∀ record descendants, view { record with descendants } = view record)
    (tree : ObjectTree) :
    tree.numbered.types.map view = tree.types.map view := by
  unfold numbered
  cases walked : tree.numbering? with
  | none => rfl
  | some numbering => exact map_walk view index descendants tree walked

theorem map_linked (own : ∀ record own, view { record with own } = view record)
    (overriding : ∀ record overriding, view { record with overriding } = view record)
    (tree : ObjectTree) (registration : Registration) : (tree.linked registration).types.map view =
    tree.types.map view := by
  rw [linked, map_modify]
  intro record
  unfold TypeRecord.insertProc
  split
  · exact overriding record _
  · exact own record _

theorem map_relinked (own : ∀ record own, view { record with own } = view record)
    (overriding : ∀ record overriding, view { record with overriding } = view record)
    (tree : ObjectTree) :
    tree.relinked.types.map view = tree.types.map view := by
  have emptied : view ∘ TypeRecord.clearProcs = view := by
    funext record
    exact (overriding { record with own := ∅ } ∅).trans (own record ∅)
  have linked : tree.relinked.types.map view = tree.cleared.types.map view :=
    foldl_linked (·.types.map view) (map_linked view own overriding) _ _
  rw [linked, cleared, Array.map_map, emptied]

theorem map_finished (index : ∀ record index, view { record with index } = view record)
    (descendants : ∀ record descendants, view { record with descendants } = view record)
    (own : ∀ record own, view { record with own } = view record)
    (overriding : ∀ record overriding, view { record with overriding } = view record)
    (tree : ObjectTree) :
    tree.finished.types.map view = tree.types.map view :=
  (map_relinked view own overriding tree.numbered).trans (map_numbered view index descendants tree)

theorem map_withVariable (vars : ∀ record vars, view { record with vars } = view record)
    (tree : ObjectTree) (type : TypeId) (name : String) (value : InitialValue) :
    (tree.withVariable type name value).types.map view = tree.types.map view := by
  rw [withVariable, map_modify]
  exact fun record => vars record _

theorem map_withStatic (statics : ∀ record statics, view { record with statics } = view record)
    (tree : ObjectTree) (type : TypeId) (name : String) :
    (tree.withStatic type name).types.map view = tree.types.map view := by
  rw [withStatic, map_modify]
  exact fun record => statics record _

theorem map_withVerb (verbs : ∀ record verbs, view { record with verbs } = view record)
    (tree : ObjectTree) (type : TypeId) (proc : ProcId) : (tree.withVerb type proc).types.map view =
    tree.types.map view := by
  rw [withVerb, map_modify]
  exact fun record => verbs record _

end

@[simp] theorem size_types_linked (tree : ObjectTree) (registration : Registration) :
    (tree.linked registration).types.size = tree.types.size := by
  simp [linked]

@[simp] theorem size_procs_linked (tree : ObjectTree) (registration : Registration) :
    (tree.linked registration).procs.size = tree.procs.size := by
  simp [linked]

@[simp] theorem registrations_linked (tree : ObjectTree) (registration : Registration) :
    (tree.linked registration).registrations = tree.registrations := rfl

@[simp] theorem size_types_finished (tree : ObjectTree) :
    tree.finished.types.size = tree.types.size := by
  simpa using congrArg Array.size
    (map_finished (fun _ => ()) (fun _ _ => rfl) (fun _ _ => rfl) (fun _ _ => rfl)
      (fun _ _ => rfl) tree)

@[simp] theorem size_procs_finished (tree : ObjectTree) :
    tree.finished.procs.size = tree.procs.size :=
  foldl_linked (·.procs.size) size_procs_linked _ _

@[simp] theorem paths_finished (tree : ObjectTree) : tree.finished.paths = tree.paths :=
  foldl_linked (·.paths) (fun _ _ => rfl) _ _

@[simp] theorem registrations_finished (tree : ObjectTree) : tree.finished.registrations =
    tree.registrations :=
  foldl_linked (·.registrations) registrations_linked _ _

theorem Change.grows {tree later : ObjectTree} (change : Change tree later) : Grows tree later := by
  obtain ⟨op, change⟩ := change
  cases change with
  | declare _ gains =>
    cases gains
    exact ⟨by simp [withType], Nat.le_refl _⟩
  | reparent => exact ⟨by simp [reparented], Nat.le_refl _⟩
  | allocate => exact ⟨Nat.le_refl _, by simp [withProc]⟩
  | register => exact ⟨by simp [registered], by simp [registered]⟩
  | publish => exact ⟨Nat.le_refl _, by simp [published, withProc]⟩
  | finish => exact ⟨by simp, by simp⟩
  | params => exact ⟨Nat.le_refl _, by simp [withParams]⟩
  | assign => exact ⟨by simp [withVariable], Nat.le_refl _⟩
  | static => exact ⟨by simp [withStatic], Nat.le_refl _⟩
  | mark => exact ⟨Nat.le_refl _, by simp [marked]⟩
  | verb => exact ⟨by simp [withVerb], Nat.le_refl _⟩

structure Coherent (tree : ObjectTree) : Prop where
  root : tree.findPath? .root = some .root
  paths : ∀ path id, tree.findPath? path = some id → id.index < tree.types.size
  registrations : ∀ registration ∈ tree.registrations,
    registration.type.index < tree.types.size ∧ registration.proc.index < tree.procs.size

theorem coherent_empty : Coherent .empty := by
  refine ⟨?_, ?_, ?_⟩
  · simp [findPath?, empty]
  · intro path id found
    simp only [findPath?, empty, Std.TreeMap.getElem?_insert] at found
    split at found
    · cases found
      simp [TypeId.root, TypeId.index, empty]
    · simp at found
  · simp [empty]

theorem Coherent.of_grows {tree later : ObjectTree} (coherent : tree.Coherent)
    (grows : Grows tree later) (paths : later.paths = tree.paths)
    (registrations : later.registrations = tree.registrations) :
    later.Coherent := by
  refine ⟨?_, ?_, ?_⟩
  · rw [findPath?, paths]
    exact coherent.root
  · intro path id found
    rw [findPath?, paths] at found
    exact Nat.lt_of_lt_of_le (coherent.paths path id found) grows.types
  · intro registration member
    rw [registrations] at member
    obtain ⟨type, proc⟩ := coherent.registrations registration member
    exact ⟨Nat.lt_of_lt_of_le type grows.types, Nat.lt_of_lt_of_le proc grows.procs⟩

theorem findPath?_withType (tree : ObjectTree) (above : TypeRecord) (path other : TypePath) :
    (tree.withType above path).findPath? other =
      if path = other then some (.ofIndex tree.types.size) else tree.findPath? other := by
  simp [findPath?, withType, Std.TreeMap.getElem?_insert]

theorem index_ofIndex_lt (size : Nat) : (TypeId.ofIndex size).index < size + 1 := by
  simp only [TypeId.ofIndex, TypeId.index, UInt32.toNat_ofNat']
  omega

theorem index_ofIndex_withProc (tree : ObjectTree) (name : String) (owner : Option TypeId)
    (flags : ProcFlags) :
    (ProcId.ofIndex tree.procs.size).index < (tree.withProc name owner flags).procs.size := by
  simp only [ProcId.ofIndex, ProcId.index, withProc, Array.size_push, UInt32.toNat_ofNat']
  omega

theorem Change.coherent {tree later : ObjectTree} (change : Change tree later)
    (coherent : tree.Coherent) :
    later.Coherent := by
  have grows := change.grows
  obtain ⟨op, change⟩ := change
  cases change with
  | declare _ gains =>
    obtain @⟨segment, above, parent, record, unfinished, fresh, named, found⟩ := gains
    -- A new path is not that of the root, which has one already.
    have inner : ¬ (⟨(segment :: above).reverse⟩ : TypePath) = .root := by
      intro same
      rw [same, coherent.root] at fresh
      cases fresh
    refine ⟨?_, ?_, ?_⟩
    · rw [findPath?_withType, if_neg inner]
      exact coherent.root
    · intro path id there
      rw [findPath?_withType] at there
      split at there
      · cases there
        simpa [withType] using index_ofIndex_lt tree.types.size
      · exact Nat.lt_of_lt_of_le (coherent.paths path id there) grows.types
    · intro registration member
      obtain ⟨type, proc⟩ := coherent.registrations registration member
      exact ⟨Nat.lt_of_lt_of_le type grows.types, proc⟩
  | @register _ _ registration _ registrable =>
    refine ⟨coherent.root, ?_, ?_⟩
    · intro path id there
      exact Nat.lt_of_lt_of_le (coherent.paths path id there) grows.types
    · intro other member
      rcases Array.mem_push.mp member with before | rfl
      · obtain ⟨type, proc⟩ := coherent.registrations other before
        exact ⟨Nat.lt_of_lt_of_le type grows.types, Nat.lt_of_lt_of_le proc grows.procs⟩
      · exact ⟨Nat.lt_of_lt_of_le registrable.2.1 grows.types,
          Nat.lt_of_lt_of_le registrable.2.2 grows.procs⟩
  | finish => exact coherent.of_grows grows (paths_finished tree) (registrations_finished tree)
  | reparent | allocate | publish | params | assign | static | mark | verb =>
    exact coherent.of_grows grows rfl rfl

theorem Closed.linked {tree : ObjectTree} (closed : tree.Closed) {registration : Registration}
    (inside : registration.proc.index < tree.procs.size) : (tree.linked registration).Closed := by
  have listed : Closed { tree with types := (tree.linked registration).types } := by
    simp only [ObjectTree.linked]
    apply closed.modifyType
    intro record proc lists
    rcases TypeRecord.lists_insertProc lists with before | rfl
    · exact Or.inl before
    · exact Or.inr inside
  apply listed.modifyProc
  intro proc
  rfl

theorem Closed.foldl_linked {registrations : List Registration} {tree : ObjectTree}
    (closed : tree.Closed) (inside : ∀ registration ∈ registrations, registration.proc.index <
    tree.procs.size) :
    (registrations.foldl ObjectTree.linked tree).Closed := by
  induction registrations generalizing tree with
  | nil => exact closed
  | cons first rest ih =>
    apply ih (closed.linked (inside first (by simp)))
    intro registration member
    rw [size_procs_linked]
    exact inside registration (by simp [member])

theorem Closed.finished {tree : ObjectTree} (closed : tree.Closed) : tree.finished.Closed := by
  have numbered : tree.numbered.Closed :=
    closed.retable (map_numbered _ (fun _ _ => rfl) (fun _ _ => rfl) tree)
  have relinked : tree.numbered.relinked.Closed :=
    numbered.cleared.foldl_linked fun registration member =>
      numbered.registered registration (Array.mem_toList_iff.mp member)
  exact ⟨relinked.owned, relinked.listed, relinked.global, relinked.registered⟩

theorem Change.closed {tree later : ObjectTree} (change : Change tree later)
    (closed : tree.Closed) :
    later.Closed := by
  obtain ⟨op, change⟩ := change
  cases change with
  | declare _ gains =>
    cases gains
    apply closed.pushType
    simp [TypeRecord.under, TypeRecord.Lists]
  | reparent | assign | verb => exact closed.modifyType _ fun _ _ lists => Or.inl lists
  | @static _ type name known =>
    have kept : Closed { tree with types := (tree.withStatic type name).types } := by
      simp only [withStatic]
      apply closed.modifyType
      exact fun _ _ lists => Or.inl lists
    exact ⟨kept.owned, kept.listed, kept.global, kept.registered⟩
  | allocate unfinished known =>
    apply closed.pushProc
    rintro _ ⟨⟩
    exact known
  | @register _ _ registration _ registrable =>
    apply (closed.linked registrable.2.2).pushRegistration
    rw [size_procs_linked]
    exact registrable.2.2
  | @publish _ name flags fresh =>
    have allocated : (tree.withProc name none flags).Closed := closed.pushProc (by simp)
    exact allocated.insertGlobal name (index_ofIndex_withProc tree name none flags)
  | finish => exact closed.finished
  | params | mark => exact closed.modifyProc _ fun _ => rfl

theorem invariant_of_steps {step : ObjectTree → ObjectTree → Prop} {holds : ObjectTree → Prop}
    (keeps : ∀ tree later, step tree later → holds tree → holds later) {tree later : ObjectTree}
    (steps : Relation.ReflTransGen step tree later) (start : holds tree) : holds later := by
  induction steps with
  | refl => exact start
  | tail _ step ih => exact keeps _ _ step ih

theorem Changes.invariant {holds : ObjectTree → Prop}
    (step : ∀ tree later, Change tree later → holds tree → holds later) {tree later : ObjectTree}
    (changes : Changes tree later) (start : holds tree) : holds later :=
  invariant_of_steps step changes start

end ObjectTree

end ProcLowering
