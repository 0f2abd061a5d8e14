import ProcLowering.Tree.Update

set_option autoImplicit false

namespace ProcLowering

structure Numbering where
  types : Array TypeRecord
  next : Nat

namespace Numbering

def enter (numbering : Numbering) (id : TypeId) : Numbering :=
  let next := numbering.next
  { types := numbering.types.modify id.index fun record => { record with
    index := UInt32.ofNat next }
    next := next + 1 }

def leave (numbering : Numbering) (id : TypeId) : Numbering :=
  let next := numbering.next
  { types := numbering.types.modify id.index fun record =>
      { record with descendants := UInt32.ofNat (next - record.index.toNat - 1) }
    next }

end Numbering

-- A type is left after all types below it.
inductive Visit where
  | enter (id : TypeId)
  | leave (id : TypeId)
deriving DecidableEq, Repr

namespace ObjectTree

def children (tree : ObjectTree) (id : TypeId) : Array TypeId :=
  tree.types.filterMap fun record => if record.parent = some id then some record.id else none

/-- Works off a stack of visits. Fails when positions run out, which are 32-bit numbers. -/
def walk (tree : ObjectTree) : Nat → List Visit → Numbering → Option Numbering
  | _, [], numbering => some numbering
  | 0, _ :: _, _ => none
  | turns + 1, .leave id :: rest, numbering => tree.walk turns rest (numbering.leave id)
  | turns + 1, .enter id :: rest, numbering =>
    if numbering.next + 1 < UInt32.size then
      tree.walk turns ((tree.children id).toList.map .enter ++ .leave id :: rest)
        (numbering.enter id)
    else
      none

-- No walk takes more turns: each position is entered once and left once.
def numbering? (tree : ObjectTree) : Option Numbering :=
  tree.walk (2 * UInt32.size) [.enter .root] { types := tree.types, next := 0 }

end ObjectTree

namespace TreeUpdate

def relink : TreeUpdate Unit := do
  modify fun tree => { tree with types := tree.types.map TypeRecord.clearProcs }
  (← get).registrations.forM link

def finalize : TreeUpdate Unit := do
  requireOpen
  match (← get).numbering? with
  | none => throw .tooManyTypes
  | some numbering =>
    modify fun tree => { tree with types := numbering.types }
    relink
    modify fun tree => { tree with finalized := true }

end TreeUpdate

end ProcLowering
