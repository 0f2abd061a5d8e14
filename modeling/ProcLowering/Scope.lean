import Std.Data.TreeMap
import ProcLowering.Fault

set_option autoImplicit false

namespace ProcLowering

structure Local where
  name : String
  slot : UInt16
  type : Option TypeId
deriving DecidableEq, Repr, Inhabited

structure Scope where
  size : Nat := 0
  visible : Std.TreeMap String Local := ∅

namespace Scope

instance : Inhabited Scope := ⟨{}⟩

def declare (scope : Scope) (name : String) (type : Option TypeId) :
    Except Fault (Local × Scope) :=
  if scope.size < 0x10000 then
    let declared : Local := { name, slot := UInt16.ofNat scope.size, type }
    .ok (declared, { size := scope.size + 1, visible := scope.visible.insert name declared })
  else .error (.tooManyLocals name)

def find? (scope : Scope) (name : String) : Option Local := scope.visible[name]?

end Scope

end ProcLowering
