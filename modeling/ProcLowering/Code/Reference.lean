import ProcLowering.Tree.Proc

set_option autoImplicit false

namespace ProcLowering

/-- The object on which a proc is looked up by name: the one the
caller runs on, or the one on the stack. -/
inductive Receiver where
  | src
  | stack
deriving DecidableEq, Repr, Inhabited

inductive ReferenceKind where
  | instanceProc
  | globalProc
  | selfSlot
  | superProc
deriving DecidableEq, Repr, Inhabited

inductive Reference where
  | instanceProc (name : String) (receiver : Receiver)
  | globalProc (proc : ProcId)
  | selfSlot
  | superProc
deriving DecidableEq, Repr, Inhabited

namespace Receiver

def all : List Receiver := [.src, .stack]

def byte (receiver : Receiver) : UInt8 := UInt8.ofNat receiver.ctorIdx

def ofByte? (byte : UInt8) : Option Receiver := all[byte.toNat]?

@[simp] theorem ofByte?_byte (receiver : Receiver) : ofByte? receiver.byte = some receiver := by
  cases receiver <;> rfl

def name : Receiver → String
  | .src => "Src"
  | .stack => "Stack"

end Receiver

namespace ReferenceKind

def all : List ReferenceKind := [.instanceProc, .globalProc, .selfSlot, .superProc]

def byte (kind : ReferenceKind) : UInt8 := UInt8.ofNat kind.ctorIdx

def ofByte? (byte : UInt8) : Option ReferenceKind := all[byte.toNat]?

@[simp] theorem ofByte?_byte (kind : ReferenceKind) : ofByte? kind.byte = some kind := by
  cases kind <;> rfl

def name : ReferenceKind → String
  | .instanceProc => "InstanceProc"
  | .globalProc => "GlobalProc"
  | .selfSlot => "SelfSlot"
  | .superProc => "SuperProc"

def payloadSize : ReferenceKind → Nat
  | .instanceProc => 3
  | .globalProc => 4
  | .selfSlot | .superProc => 0

end ReferenceKind

namespace Reference

def kind : Reference → ReferenceKind
  | .instanceProc _ _ => .instanceProc
  | .globalProc _ => .globalProc
  | .selfSlot => .selfSlot
  | .superProc => .superProc

def takesReceiver : Reference → Bool
  | .instanceProc _ .stack => true
  | _ => false

def text : Reference → String
  | .instanceProc name .src => name
  | .instanceProc name .stack => "<stack>." ++ name
  | .globalProc proc => "global " ++ proc.text
  | .selfSlot => "."
  | .superProc => ".."

end Reference

structure ResolvedReference where
  reference : Reference
  conditional : Bool
deriving DecidableEq, Repr, Inhabited

namespace ResolvedReference

def unconditional (reference : Reference) : ResolvedReference := { reference, conditional := false }

def whenReceived (reference : Reference) : ResolvedReference := { reference, conditional := true }

end ResolvedReference

end ProcLowering
