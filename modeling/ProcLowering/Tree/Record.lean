import Std.Data.TreeMap
import ProcLowering.Number.Decimal
import ProcLowering.Text.Quoted
import ProcLowering.Path
import ProcLowering.Tree.Proc

set_option autoImplicit false

namespace ProcLowering

inductive InitialValue where
  | null
  | number (n : Single)
  | string (s : String)
  | path (p : TypePath)
deriving DecidableEq, Repr, Inhabited

namespace InitialValue

def text : InitialValue → String
  | .null => "null"
  | .number n => n.text
  | .string s => Text.quoted s
  | .path p => p.text

def equals : InitialValue → InitialValue → Bool
  | .number a, .number b => a.equals b
  | a, b => a == b

end InitialValue

abbrev NameMap (α : Type) := Std.TreeMap String α

structure TypeRecord where
  id : TypeId
  path : TypePath
  parent : Option TypeId
  own : NameMap ProcId := ∅
  overriding : NameMap ProcId := ∅
  vars : NameMap InitialValue := ∅
  statics : NameMap UInt32 := ∅
  verbs : Array ProcId := #[]
  index : UInt32 := 0
  descendants : UInt32 := 0

namespace TypeRecord

def proc? (record : TypeRecord) (name : String) : Option ProcId :=
  record.overriding[name]?.or record.own[name]?

def insertProc (record : TypeRecord) (name : String) (proc : ProcId) (overrides : Bool) :
    TypeRecord :=
  if overrides then { record with overriding := record.overriding.insert name proc }
  else { record with own := record.own.insert name proc }

def clearProcs (record : TypeRecord) : TypeRecord := { record with own := ∅, overriding := ∅ }

def setVariable (record : TypeRecord) (name : String) (value : InitialValue) : TypeRecord :=
  { record with vars := record.vars.insert name value }

/-- A new type starts with a copy of the variables and statics of the type above it. -/
def under (parent : TypeRecord) (id : TypeId) (path : TypePath) : TypeRecord :=
  { id, path, parent := some parent.id, vars := parent.vars, statics := parent.statics }

/-- In a finalized tree the descendants of a type, with the type itself, are an interval of the
pre-order; the difference wraps around for types before it. -/
def within (record ancestor : TypeRecord) : Bool :=
  record.index - ancestor.index ≤ ancestor.descendants

def equals (a b : TypeRecord) : Bool :=
  a.id == b.id && a.path == b.path && a.parent == b.parent &&
    a.own.toList == b.own.toList && a.overriding.toList == b.overriding.toList &&
    (a.vars.keys == b.vars.keys &&
      (a.vars.values.zip b.vars.values).all fun (x, y) => x.equals y) &&
    a.statics.toList == b.statics.toList && a.verbs == b.verbs &&
    a.index == b.index && a.descendants == b.descendants

end TypeRecord

end ProcLowering
