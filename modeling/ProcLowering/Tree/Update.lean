import ProcLowering.Tree.Basic

set_option autoImplicit false

namespace ProcLowering

inductive TreeError where
  | duplicateGlobalProc (name : String)
  | circularInheritance (path : TypePath)
  | alreadyFinalized
  | notFinalized
  | rootHasParent
  | tooManyTypes
  | invalidPath (error : PathError)
  | internal (fault : Fault)
deriving DecidableEq, Repr

def TreeError.message : TreeError → String
  | .duplicateGlobalProc name => s!"global proc '{name}' is already defined"
  | .circularInheritance path => "circular inheritance involving " ++ path.text
  | .alreadyFinalized => "object tree is already finalized"
  | .notFinalized => "object tree must be finalized before compiling proc bodies"
  | .rootHasParent => "the root type cannot have a parent"
  | .tooManyTypes => "too many types to number"
  | .invalidPath error => error.message
  | .internal fault => fault.message

abbrev TreeUpdate := EStateM TreeError ObjectTree

namespace TreeUpdate

def ofExcept {ε α : Type} (wrap : ε → TreeError) : Except ε α → TreeUpdate α
  | .error error => throw (wrap error)
  | .ok value => return value

def requireOpen : TreeUpdate Unit := do
  if (← get).finalized then throw .alreadyFinalized

def typeRecord (id : TypeId) : TreeUpdate TypeRecord := do
  ofExcept .internal ((← get).type id)

def procEntry (id : ProcId) : TreeUpdate Proc := do
  ofExcept .internal ((← get).proc id)

def modifyType (id : TypeId) (change : TypeRecord → TypeRecord) : TreeUpdate Unit := do
  let _ ← typeRecord id
  modify fun tree => { tree with types := tree.types.modify id.index change }

def modifyProc (id : ProcId) (change : Proc → Proc) : TreeUpdate Unit := do
  let _ ← procEntry id
  modify fun tree => { tree with procs := tree.procs.modify id.index change }

def addType (path : TypePath) (parent : TypeId) : TreeUpdate TypeId := do
  let above ← typeRecord parent
  let id := TypeId.ofIndex (← get).types.size
  modify fun tree =>
    { tree with
      types := tree.types.push (above.under id path)
      paths := tree.paths.insert path id }
  return id

/-- The type of a path given by its segments, the last one first.
Ancestors that are missing are declared too. -/
def declareReversed : List String → TreeUpdate TypeId
  | [] => return .root
  | segment :: above => do
    let path : TypePath := ⟨(segment :: above).reverse⟩
    match (← get).findPath? path with
    | some id => return id
    | none =>
      requireOpen
      addType path (← declareReversed above)

def declare (path : TypePath) : TreeUpdate TypeId := declareReversed path.segments.reverse

def declareText (text : String) : TreeUpdate TypeId := do
  declare (← ofExcept .invalidPath (TypePath.parse text))

def setParent (type parent : TypeId) : TreeUpdate Unit := do
  requireOpen
  if type = .root then throw .rootHasParent
  let record ← typeRecord type
  let _ ← typeRecord parent
  if (← get).isSubtype parent type then throw (.circularInheritance record.path)
  modifyType type fun record => { record with parent := some parent }

def allocateProc (name : String) (owner : Option TypeId) (flags : ProcFlags) :
    TreeUpdate ProcId := do
  let id := ProcId.ofIndex (← get).procs.size
  let proc : Proc := { id, name, owner, flags := { flags with overriding := false } }
  modify fun tree => { tree with procs := tree.procs.push proc }
  return id

def overridden (type : TypeId) (name : String) : TreeUpdate (Option ProcId) := do
  let record ← typeRecord type
  let tree ← get
  if ObjectTree.declares (tree.lineageOf record) name then
    some <$> ofExcept .internal (tree.procOn record name)
  else return none

/-- Makes a proc the one a name denotes on a type, and links it to the
one that the name denoted before. -/
def link (registration : Registration) : TreeUpdate Unit := do
  let super ← overridden registration.type registration.name
  modifyType registration.type (·.insertProc registration.name registration.proc super.isSome)
  modifyProc registration.proc (·.linkedTo super)

def setProc (type : TypeId) (name : String) (proc : ProcId) : TreeUpdate Unit := do
  requireOpen
  let _ ← procEntry proc
  let registration : Registration := { type, name, proc }
  link registration
  modify fun tree => { tree with registrations := tree.registrations.push registration }

def newProc (owner : TypeId) (name : String) (flags : ProcFlags) : TreeUpdate ProcId := do
  requireOpen
  let _ ← typeRecord owner
  let id ← allocateProc name (some owner) flags
  setProc owner name id
  return id

def newGlobalProc (name : String) (flags : ProcFlags) : TreeUpdate ProcId := do
  if (← get).globals.contains name then throw (.duplicateGlobalProc name)
  let id ← allocateProc name none flags
  modify fun tree => { tree with globals := tree.globals.insert name id }
  return id

def setParams (proc : ProcId) (params : List String) : TreeUpdate Unit :=
  modifyProc proc ({ · with params })

def setVariable (type : TypeId) (name : String) (value : InitialValue) : TreeUpdate Unit :=
  modifyType type (·.setVariable name value)

def addStatic (type : TypeId) (name : String) : TreeUpdate UInt32 := do
  let slot := UInt32.ofNat (← get).statics.size
  modifyType type fun record => { record with statics := record.statics.insert name slot }
  modify fun tree => { tree with statics := tree.statics.push name }
  return slot

/-- The proc is marked as a verb before the type is looked up. -/
def addVerb (type : TypeId) (proc : ProcId) : TreeUpdate Unit := do
  modifyProc proc fun entry => { entry with flags := { entry.flags with verb := true } }
  modifyType type fun record => { record with verbs := record.verbs.push proc }

end TreeUpdate

end ProcLowering
