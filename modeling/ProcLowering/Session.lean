import ProcLowering.Tree.Finalize
import ProcLowering.Lower.Proc

set_option autoImplicit false

namespace ProcLowering

inductive BuildError where
  | tree (error : TreeError)
  | config (error : ConfigError)
  | internal (fault : Fault)
deriving DecidableEq, Repr

def BuildError.message : BuildError → String
  | .tree error => error.message
  | .config error => error.message
  | .internal fault => fault.message

structure Session where
  tree : ObjectTree := .empty
  options : Options := default

namespace Session

instance : Inhabited Session := ⟨{}⟩

/-- Applies an update to the tree, which keeps what a failing update did. -/
def update {α : Type} (session : Session) (change : TreeUpdate α) : Except TreeError α × Session :=
  match session with
  | ⟨tree, options⟩ =>
    match change.run tree with
    | .ok value tree => (.ok value, ⟨tree, options⟩)
    | .error error tree => (.error error, ⟨tree, options⟩)

def applyPragma (session : Session) (text : String) : Except BuildError Session :=
  match session.options.withPragma text with
  | .ok options => .ok { session with options }
  | .error error => .error (.config error)

def requireFinalized (session : Session) : Except BuildError Unit :=
  if session.tree.finalized then .ok () else .error (.tree .notFinalized)

def compileProc (session : Session) (proc : ProcId) (statements : List Stmt) :
    Except BuildError CompiledProc := do
  session.requireFinalized
  ({ proc, statements } : Body).compile session.tree session.options |>.mapError .internal

def compile (session : Session) (bodies : List Body) : Except BuildError CompiledUnit := do
  session.requireFinalized
  CompiledUnit.compile session.tree session.options bodies |>.mapError .internal

end Session

end ProcLowering
