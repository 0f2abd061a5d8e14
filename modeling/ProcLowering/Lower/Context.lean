import ProcLowering.Expr
import ProcLowering.Options
import ProcLowering.Scope
import ProcLowering.Tree.Basic

set_option autoImplicit false

namespace ProcLowering

structure Context where
  tree : ObjectTree
  options : Options
  proc : Proc
  scope : Scope

inductive Meaning where
  | localVar (slot : UInt16)
  | src
  | field
  | proc
  | unknown
  | fault (cause : Fault)
deriving DecidableEq, Repr

namespace Context

def instanceProc? (context : Context) (name : String) : Option ProcId := do
  context.tree.findProc? (← context.proc.owner) name

def globalProc? (context : Context) (name : String) : Option ProcId :=
  context.tree.globalProc? name

def hasField (context : Context) (name : String) : Except Fault Bool :=
  match context.proc.owner with
  | none => .ok false
  | some owner => (context.tree.type owner).map (·.vars.contains name)

/-- Locals come first, then `src`, then variables of the type, then procs. -/
def meaning (context : Context) (name : String) : Meaning :=
  match context.scope.find? name with
  | some found => .localVar found.slot
  | none =>
    if name = "src" then .src
    else match context.hasField name with
      | .error fault => .fault fault
      | .ok true => .field
      | .ok false =>
        if (context.instanceProc? name).isSome || (context.globalProc? name).isSome then .proc
        else .unknown

def staticType? (context : Context) (expr : Expr) : Option TypeId :=
  match expr.stripped with
  | .name identifier =>
    match context.scope.find? identifier.name with
    | some found => found.type
    | none => if identifier.name = "src" then context.proc.owner else none
  | _ => none

end Context

end ProcLowering
