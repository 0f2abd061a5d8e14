import ProcLowering.Lower.Value
import ProcLowering.Lower.Problem

set_option autoImplicit false

namespace ProcLowering

structure LocalDecl where
  name : String
  type : Option TypeId
deriving DecidableEq, Repr, Inhabited

structure Body where
  proc : ProcId
  locals : List LocalDecl := []
  statements : List Stmt

structure CompiledProc where
  proc : ProcId
  chunk : Chunk
  pool : Pool
  diagnostics : Diagnostics

structure Draft where
  scope : Scope
  emitter : Emitter
  diagnostics : Diagnostics

def Scope.declareAll (scope : Scope) (locals : List LocalDecl) : Except Fault Scope :=
  locals.foldlM (fun scope declared => do
    return (← scope.declare declared.name declared.type).2) scope

namespace Draft

def start (options : Options) (scope : Scope) : Draft :=
  { scope, emitter := {}, diagnostics := { levels := options.levels } }

def emit (steps : List Step) : Draft → Except Fault Draft
  | ⟨scope, emitter, diagnostics⟩ =>
    match (Step.emitAll steps).run emitter with
    | .ok _ emitter => .ok ⟨scope, emitter, diagnostics⟩
    | .error fault _ => .error fault

def report (draft : Draft) (problems : List Diagnostic) : Draft :=
  { draft with diagnostics := problems.foldl Diagnostics.report draft.diagnostics }

def value (context : Context) (expr : Expr) (draft : Draft) : Except Fault Draft := do
  return (← draft.emit (expr.steps context)).report (expr.problems context)

/-- An initializer does not see the variable that it initializes. -/
def statement (tree : ObjectTree) (options : Options) (proc : Proc) (draft : Draft)
    (stmt : Stmt) : Except Fault Draft := do
  let context : Context := { tree, options, proc, scope := draft.scope }
  let draft ← draft.emit [.line stmt.span.line]
  match stmt with
  | .expr value => (← draft.value context value).emit [.pop]
  | .ret none _ => draft.emit [.self, .ret]
  | .ret (some value) _ => (← draft.value context value).emit [.ret]
  | .var name typePath init _ =>
    let draft ← match init with
      | some value => draft.value context value
      | none => pure draft
    let (declared, scope) ← draft.scope.declare name.name (typePath.bind tree.find?)
    let draft := { draft with scope }
    if init.isSome then draft.emit [.setLocal declared.slot] else return draft

end Draft

/-- Compiles a body. One that does not end in a return returns its own value slot. -/
def Body.compile (tree : ObjectTree) (options : Options) (body : Body) :
    Except Fault CompiledProc := do
  let proc ← tree.proc body.proc
  let scope ← ({} : Scope).declareAll (proc.params.map (⟨·, none⟩) ++ body.locals)
  let draft ← body.statements.foldlM (Draft.statement tree options proc) (.start options scope)
  let draft ←
    if (body.statements.getLast?.map Stmt.isReturn).getD false then pure draft
    else draft.emit [.self, .ret]
  let (chunk, pool) ← draft.emitter.finish
  return { proc := body.proc, chunk, pool, diagnostics := draft.diagnostics }

structure CompiledUnit where
  procs : Array CompiledProc := #[]
  diagnostics : Diagnostics

namespace CompiledUnit

def isSuccess (unit : CompiledUnit) : Bool := !unit.diagnostics.hasErrors

def find? (unit : CompiledUnit) (proc : ProcId) : Option CompiledProc :=
  unit.procs.find? (·.proc == proc)

def add (unit : CompiledUnit) (compiled : CompiledProc) : CompiledUnit :=
  { procs := unit.procs.push compiled
    diagnostics := unit.diagnostics.merge compiled.diagnostics }

def compile (tree : ObjectTree) (options : Options) (bodies : List Body) :
    Except Fault CompiledUnit :=
  bodies.foldlM (fun unit body => do return unit.add (← body.compile tree options))
    { diagnostics := { levels := options.levels } }

end CompiledUnit

end ProcLowering
