set_option autoImplicit false

namespace ProcLowering

structure TypeId where
  raw : UInt32
deriving DecidableEq, Repr, Inhabited

structure ProcId where
  raw : UInt32
deriving DecidableEq, Repr, Inhabited

namespace TypeId

def root : TypeId := ⟨0⟩

def ofIndex (index : Nat) : TypeId := ⟨UInt32.ofNat index⟩

def index (id : TypeId) : Nat := id.raw.toNat

def text (id : TypeId) : String := s!"type#{id.raw}"

end TypeId

namespace ProcId

def globalInit : ProcId := ⟨0⟩

def ofIndex (index : Nat) : ProcId := ⟨UInt32.ofNat index⟩

def index (id : ProcId) : Nat := id.raw.toNat

def text (id : ProcId) : String := s!"proc#{id.raw}"

end ProcId

structure ProcFlags where
  overriding : Bool := false
  unimplemented : Bool := false
  verb : Bool := false
deriving DecidableEq, Repr, Inhabited

namespace ProcFlags

def ofBits (bits : Nat) : ProcFlags :=
  { overriding := bits.testBit 0, unimplemented := bits.testBit 1, verb := bits.testBit 2 }

def bits (flags : ProcFlags) : Nat :=
  flags.overriding.toNat + 2 * flags.unimplemented.toNat + 4 * flags.verb.toNat

def isEmpty (flags : ProcFlags) : Bool := flags == {}

end ProcFlags

structure Proc where
  id : ProcId
  name : String
  owner : Option TypeId
  flags : ProcFlags
  params : List String := []
  super : Option ProcId := none
deriving DecidableEq, Repr, Inhabited

namespace Proc

def isGlobal (proc : Proc) : Bool := proc.owner.isNone

def linkedTo (proc : Proc) (super : Option ProcId) : Proc :=
  { proc with super, flags := { proc.flags with overriding := super.isSome } }

end Proc

end ProcLowering
