import ProcLowering.Tree.Finalize

set_option autoImplicit false

namespace ProcLowering

inductive TreeOp where
  | declare (path : TypePath)
  | declareText (text : String)
  | setParent (type parent : TypeId)
  | finalize
  | newProc (owner : TypeId) (name : String) (flags : ProcFlags)
  | setProc (type : TypeId) (name : String) (proc : ProcId)
  | newGlobalProc (name : String) (flags : ProcFlags)
  | setParams (proc : ProcId) (params : List String)
  | setVariable (type : TypeId) (name : String) (value : InitialValue)
  | addStatic (type : TypeId) (name : String)
  | addVerb (type : TypeId) (proc : ProcId)

def TreeOp.run : TreeOp → TreeUpdate Unit
  | .declare path => discard (TreeUpdate.declare path)
  | .declareText text => discard (TreeUpdate.declareText text)
  | .setParent type parent => TreeUpdate.setParent type parent
  | .finalize => TreeUpdate.finalize
  | .newProc owner name flags => discard (TreeUpdate.newProc owner name flags)
  | .setProc type name proc => TreeUpdate.setProc type name proc
  | .newGlobalProc name flags => discard (TreeUpdate.newGlobalProc name flags)
  | .setParams proc params => TreeUpdate.setParams proc params
  | .setVariable type name value => TreeUpdate.setVariable type name value
  | .addStatic type name => discard (TreeUpdate.addStatic type name)
  | .addVerb type proc => TreeUpdate.addVerb type proc

/-- The tree after an update, which keeps what a failing one did. -/
def TreeUpdate.after {α : Type} (update : TreeUpdate α) (tree : ObjectTree) : ObjectTree :=
  match update.run tree with
  | .ok _ later => later
  | .error _ later => later

inductive ObjectTree.Reachable : ObjectTree → Prop
  | empty : Reachable .empty
  | after {tree : ObjectTree} (reachable : Reachable tree) (op : TreeOp) :
      Reachable (op.run.after tree)

def TypeRecord.Lists (record : TypeRecord) (proc : ProcId) : Prop :=
  ∃ name : String, record.own[name]? = some proc ∨ record.overriding[name]? = some proc

theorem TypeRecord.lists_of_proc? {record : TypeRecord} {name : String} {proc : ProcId}
    (denotes : record.proc? name = some proc) : record.Lists proc := by
  rw [proc?, Option.or_eq_some_iff] at denotes
  rcases denotes with overriding | ⟨-, own⟩
  · exact ⟨name, Or.inr overriding⟩
  · exact ⟨name, Or.inl own⟩

theorem TypeRecord.lists_insertProc {record : TypeRecord} {name : String} {added proc : ProcId}
    {overrides : Bool} (lists : (record.insertProc name added overrides).Lists proc) :
    record.Lists proc ∨ proc = added := by
  obtain ⟨other, own | overriding⟩ := lists
  · unfold insertProc at own
    split at own
    · exact Or.inl ⟨other, Or.inl own⟩
    · rw [Std.TreeMap.getElem?_insert] at own
      split at own
      · exact Or.inr (Option.some.inj own).symm
      · exact Or.inl ⟨other, Or.inl own⟩
  · unfold insertProc at overriding
    split at overriding
    · rw [Std.TreeMap.getElem?_insert] at overriding
      split at overriding
      · exact Or.inr (Option.some.inj overriding).symm
      · exact Or.inl ⟨other, Or.inr overriding⟩
    · exact Or.inl ⟨other, Or.inr overriding⟩

namespace ObjectTree

theorem mem_climb {tree : ObjectTree} {fuel : Nat} {start : Option TypeId} {record : TypeRecord}
    (member : record ∈ tree.climb fuel start) : ∃ i : Nat, tree.types[i]? = some record := by
  induction fuel generalizing start with
  | zero => simp [climb] at member
  | succ fuel ih =>
    cases start with
    | none => simp [climb] at member
    | some id =>
      rw [climb] at member
      cases found : tree.type? id with
      | none =>
        rw [found] at member
        simp at member
      | some first =>
        rw [found] at member
        rcases List.mem_cons.mp member with rfl | above
        · exact ⟨id.index, found⟩
        · exact ih above

structure Closed (tree : ObjectTree) : Prop where
  owned : ∀ (i : Nat) (proc : Proc) (owner : TypeId), tree.procs[i]? = some proc →
    proc.owner = some owner →
    owner.index < tree.types.size
  listed : ∀ (i : Nat) (record : TypeRecord) (proc : ProcId), tree.types[i]? = some record →
    record.Lists proc →
    proc.index < tree.procs.size
  global : ∀ (name : String) (proc : ProcId), tree.globals[name]? = some proc →
    proc.index < tree.procs.size
  registered : ∀ registration ∈ tree.registrations, registration.proc.index < tree.procs.size

structure Grows (tree later : ObjectTree) : Prop where
  types : tree.types.size ≤ later.types.size
  procs : tree.procs.size ≤ later.procs.size

theorem closed_empty : Closed .empty := by
  refine ⟨?_, ?_, ?_, ?_⟩
  · intro i proc owner found
    rcases i with _ | i <;> simp [empty] at found
    subst found
    simp
  · intro i record proc found
    rcases i with _ | i <;> simp [empty] at found
    subst found
    simp [TypeRecord.Lists]
  · simp [empty]
  · simp [empty]

namespace Closed

variable {tree : ObjectTree}

theorem modifyType (closed : tree.Closed) (id : Nat) {change : TypeRecord → TypeRecord}
    (listed : ∀ record proc, (change record).Lists proc → record.Lists proc ∨
      proc.index < tree.procs.size) :
    Closed { tree with types := tree.types.modify id change } := by
  refine ⟨?_, ?_, closed.global, closed.registered⟩
  · intro i proc owner found owns
    simpa using closed.owned i proc owner found owns
  · intro i record proc found lists
    rw [Array.getElem?_modify] at found
    split at found
    · obtain ⟨old, there, rfl⟩ := Option.map_eq_some_iff.mp found
      rcases listed old proc lists with before | inside
      · exact closed.listed i old proc there before
      · exact inside
    · exact closed.listed i record proc found lists

theorem modifyProc (closed : tree.Closed) (id : Nat) {change : Proc → Proc}
    (owner : ∀ proc, (change proc).owner = proc.owner) :
    Closed { tree with procs := tree.procs.modify id change } := by
  refine ⟨?_, ?_, ?_, ?_⟩
  · intro i proc owns found same
    rw [Array.getElem?_modify] at found
    split at found
    · obtain ⟨old, there, rfl⟩ := Option.map_eq_some_iff.mp found
      exact closed.owned i old owns there (owner old ▸ same)
    · exact closed.owned i proc owns found same
  · intro i record proc found lists
    simpa using closed.listed i record proc found lists
  · intro name proc found
    simpa using closed.global name proc found
  · intro registration member
    simpa using closed.registered registration member

theorem pushProc (closed : tree.Closed) {proc : Proc}
    (owned : ∀ owner, proc.owner = some owner → owner.index < tree.types.size) :
    Closed { tree with procs := tree.procs.push proc } := by
  refine ⟨?_, ?_, ?_, ?_⟩
  · intro i other owner found owns
    rw [Array.getElem?_push] at found
    split at found
    · cases found
      exact owned owner owns
    · exact closed.owned i other owner found owns
  · intro i record other found lists
    have := closed.listed i record other found lists
    simp only [Array.size_push]
    omega
  · intro name other found
    have := closed.global name other found
    simp only [Array.size_push]
    omega
  · intro registration member
    have := closed.registered registration member
    simp only [Array.size_push]
    omega

theorem pushType (closed : tree.Closed) {record : TypeRecord} (paths : Std.TreeMap TypePath TypeId)
    (bare : ∀ proc, ¬ record.Lists proc) :
    Closed { tree with types := tree.types.push record, paths } := by
  refine ⟨?_, ?_, closed.global, closed.registered⟩
  · intro i proc owner found owns
    have := closed.owned i proc owner found owns
    simp only [Array.size_push]
    omega
  · intro i other proc found lists
    rw [Array.getElem?_push] at found
    split at found
    · cases found
      exact absurd lists (bare proc)
    · exact closed.listed i other proc found lists

theorem insertGlobal (closed : tree.Closed) (name : String) {proc : ProcId}
    (inside : proc.index < tree.procs.size) :
    Closed { tree with globals := tree.globals.insert name proc } := by
  refine ⟨closed.owned, closed.listed, ?_, closed.registered⟩
  intro other found there
  rw [Std.TreeMap.getElem?_insert] at there
  split at there
  · cases there
    exact inside
  · exact closed.global other found there

theorem pushRegistration (closed : tree.Closed) {registration : Registration}
    (inside : registration.proc.index < tree.procs.size) :
    Closed { tree with registrations := tree.registrations.push registration } := by
  refine ⟨closed.owned, closed.listed, closed.global, ?_⟩
  intro other member
  rcases Array.mem_push.mp member with before | rfl
  · exact closed.registered other before
  · exact inside

end Closed

theorem Closed.retable {tree : ObjectTree} (closed : tree.Closed) {types : Array TypeRecord}
    (same : types.map (fun record => (record.own, record.overriding)) =
      tree.types.map fun record => (record.own, record.overriding)) : Closed
        { tree with types } := by
  refine ⟨?_, ?_, closed.global, closed.registered⟩
  · intro i proc owner found owns
    have size : types.size = tree.types.size := by simpa using congrArg Array.size same
    exact size ▸ closed.owned i proc owner found owns
  · rintro i record proc found ⟨name, lists⟩
    have entry := congrArg (·[i]?) same
    simp only [Array.getElem?_map, found, Option.map_some] at entry
    obtain ⟨old, there, tables⟩ := Option.map_eq_some_iff.mp entry.symm
    obtain ⟨own, overriding⟩ := Prod.mk.inj tables
    rw [← own, ← overriding] at lists
    exact closed.listed i old proc there ⟨name, lists⟩

theorem Closed.cleared {tree : ObjectTree} (closed : tree.Closed) :
    Closed { tree with types := tree.types.map TypeRecord.clearProcs } := by
  refine ⟨?_, ?_, closed.global, closed.registered⟩
  · intro i proc owner found owns
    simpa using closed.owned i proc owner found owns
  · rintro i record proc found ⟨name, lists⟩
    rw [Array.getElem?_map] at found
    obtain ⟨old, -, rfl⟩ := Option.map_eq_some_iff.mp found
    simp [TypeRecord.clearProcs] at lists

end ObjectTree

end ProcLowering
