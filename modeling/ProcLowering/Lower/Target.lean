import ProcLowering.Code.Reference
import ProcLowering.Diagnostic.Sink
import ProcLowering.Lower.Context

set_option autoImplicit false

namespace ProcLowering

inductive Target where
  | name (identifier : Identifier)
  | globalName (identifier : Identifier)
  | self (span : Span)
  | super (span : Span)
  | member (receiver : Expr) (field : Identifier) (safe : Bool) (span : Span)

namespace Target

def ofExpr? (expr : Expr) : Option Target :=
  match expr.stripped with
  | .name identifier => some (.name identifier)
  | .globalName identifier => some (.globalName identifier)
  | .self span => some (.self span)
  | .super span => some (.super span)
  | .member receiver field safe span => some (.member receiver field safe span)
  | _ => none

def span : Target → Span
  | .name identifier | .globalName identifier => identifier.span
  | .self span | .super span | .member _ _ _ span => span

def isSuper : Target → Bool
  | .super _ => true
  | _ => false

def isConditional : Target → Bool
  | .member _ _ safe _ => safe
  | _ => false

/-- A name that denotes nothing is left to be found at run time; an unknown global becomes the proc
that initializes globals. -/
def reference (context : Context) : Target → Reference
  | .name identifier =>
    if (context.instanceProc? identifier.name).isSome then .instanceProc identifier.name .src
    else match context.globalProc? identifier.name with
      | some proc => .globalProc proc
      | none => .instanceProc identifier.name .src
  | .globalName identifier =>
    .globalProc ((context.globalProc? identifier.name).getD .globalInit)
  | .self _ => .selfSlot
  | .super _ => .superProc
  | .member _ field _ _ => .instanceProc field.name .stack

def resolved (context : Context) : Target → ResolvedReference
  | .member _ field safe _ => { reference := .instanceProc field.name .stack, conditional := safe }
  | target => .unconditional (target.reference context)

@[simp] theorem reference_resolved (context : Context) (target : Target) :
    (target.resolved context).reference = target.reference context := by
  cases target <;> rfl

@[simp] theorem conditional_resolved (context : Context) (target : Target) :
    (target.resolved context).conditional = target.isConditional := by
  cases target <;> rfl

def memberProblem? (context : Context) (receiver : Expr) (field : Identifier) :
    Option Diagnostic := do
  let type ← context.staticType? receiver
  if context.tree.hasProc type field.name then none
  else
    let path := match context.tree.type? type with
      | some record => record.path.text
      | none => ""
    some (.ofKind .unknownProcedure field.span s!"undefined proc: '{field.name}' on {path}")

def problem? (context : Context) : Target → Option Diagnostic
  | .name identifier =>
    if (context.instanceProc? identifier.name).isSome ||
        (context.globalProc? identifier.name).isSome then none
    else some (.ofKind .unknownProcedure identifier.span s!"undefined proc: '{identifier.name}'")
  | .globalName identifier =>
    if (context.globalProc? identifier.name).isSome then none
    else some (.ofKind .unknownGlobalProcedure identifier.span
      s!"undefined global proc: '{identifier.name}'")
  | .self _ => none
  | .super span =>
    if context.proc.flags.overriding then none
    else some (.ofKind .pointlessParentCall span
      s!"proc '{context.proc.name}' overrides nothing, '..()' does nothing")
  | .member receiver field _ _ => memberProblem? context receiver field

def staticProc (context : Context) : Target → Option TypeId × Option ProcId
  | .name identifier =>
    match context.instanceProc? identifier.name with
    | some proc => (context.proc.owner, some proc)
    | none => (none, context.globalProc? identifier.name)
  | .globalName identifier => (none, context.globalProc? identifier.name)
  | .member receiver field _ _ =>
    match context.staticType? receiver with
    | some type => (some type, context.tree.findProc? type field.name)
    | none => (none, none)
  | .self _ | .super _ => (none, none)

end Target

end ProcLowering
