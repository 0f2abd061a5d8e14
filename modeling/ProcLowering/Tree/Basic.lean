import ProcLowering.Fault
import ProcLowering.Tree.Record

set_option autoImplicit false

namespace ProcLowering

structure Registration where
  type : TypeId
  name : String
  proc : ProcId
deriving DecidableEq, Repr, Inhabited

structure ObjectTree where
  types : Array TypeRecord
  paths : Std.TreeMap TypePath TypeId
  procs : Array Proc
  globals : NameMap ProcId
  statics : Array String
  registrations : Array Registration
  finalized : Bool

namespace ObjectTree

def empty : ObjectTree where
  types := #[{ id := .root, path := .root, parent := none }]
  paths := (∅ : Std.TreeMap TypePath TypeId).insert .root .root
  procs := #[{ id := .globalInit, name := "<global init>", owner := none, flags := {} }]
  globals := ∅
  statics := #[]
  registrations := #[]
  finalized := false

instance : Inhabited ObjectTree := ⟨empty⟩

def type? (tree : ObjectTree) (id : TypeId) : Option TypeRecord := tree.types[id.index]?

def proc? (tree : ObjectTree) (id : ProcId) : Option Proc := tree.procs[id.index]?

def type (tree : ObjectTree) (id : TypeId) : Except Fault TypeRecord :=
  match tree.type? id with
  | none => .error (.unknownType id)
  | some record => .ok record

def proc (tree : ObjectTree) (id : ProcId) : Except Fault Proc :=
  match tree.proc? id with
  | none => .error (.unknownProc id)
  | some proc => .ok proc

def findPath? (tree : ObjectTree) (path : TypePath) : Option TypeId := tree.paths[path]?

def find? (tree : ObjectTree) (text : String) : Option TypeId :=
  match TypePath.parse text with
  | .error _ => none
  | .ok path => tree.findPath? path

def climb (tree : ObjectTree) : Nat → Option TypeId → List TypeRecord
  | 0, _ => []
  | _, none => []
  | fuel + 1, some id =>
    match tree.type? id with
    | none => []
    | some record => record :: tree.climb fuel record.parent

/-- A type and its ancestors, the nearest first. No chain of parents is longer than the tree. -/
def lineage (tree : ObjectTree) (id : TypeId) : List TypeRecord :=
  tree.climb tree.types.size (some id)

def lineageOf (tree : ObjectTree) (record : TypeRecord) : List TypeRecord :=
  record :: tree.climb tree.types.size record.parent

/-- Before the tree is finalized ancestors are searched; afterwards positions are compared. -/
def isSubtype (tree : ObjectTree) (type ancestor : TypeId) : Bool :=
  match tree.type? type, tree.type? ancestor with
  | some record, some above =>
    if tree.finalized then record.within above
    else (tree.lineage type).any (·.id == ancestor)
  | _, _ => false

/-- The proc that a name denotes, given a type and its ancestors: the nearest type with a proc of
that name decides. -/
def visible? (lineage : List TypeRecord) (name : String) : Option ProcId :=
  lineage.findSome? (·.proc? name)

/-- Whether a proc of that name was first declared on one of the types. -/
def declares (lineage : List TypeRecord) (name : String) : Bool :=
  lineage.any (·.own.contains name)

def findProc? (tree : ObjectTree) (type : TypeId) (name : String) : Option ProcId :=
  visible? (tree.lineage type) name

def hasProc (tree : ObjectTree) (type : TypeId) (name : String) : Bool :=
  declares (tree.lineage type) name

def procOn (tree : ObjectTree) (record : TypeRecord) (name : String) : Except Fault ProcId :=
  match visible? (tree.lineageOf record) name with
  | none => .error (.unresolvedProcedure record.path name)
  | some proc => .ok proc

def procNamed (tree : ObjectTree) (type : TypeId) (name : String) : Except Fault ProcId := do
  tree.procOn (← tree.type type) name

def globalProc? (tree : ObjectTree) (name : String) : Option ProcId := tree.globals[name]?

def staticName? (tree : ObjectTree) (slot : UInt32) : Option String := tree.statics[slot.toNat]?

end ObjectTree

end ProcLowering
