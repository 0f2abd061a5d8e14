import ProcLowering.Fold
import ProcLowering.Diagnostic.Sink
import ProcLowering.Tree.Basic

set_option autoImplicit false

namespace ProcLowering.Matrix

inductive Operation where
  | copy
  | multiply
  | add
  | subtract
  | invert
  | rotate
  | scale
  | translate
  | interpolate
deriving DecidableEq, Repr, Inhabited

namespace Operation

def all : List Operation :=
  [.copy, .multiply, .add, .subtract, .invert, .rotate, .scale, .translate, .interpolate]

def name : Operation → String
  | .copy => "Copy"
  | .multiply => "Multiply"
  | .add => "Add"
  | .subtract => "Subtract"
  | .invert => "Invert"
  | .rotate => "Rotate"
  | .scale => "Scale"
  | .translate => "Translate"
  | .interpolate => "Interpolate"

/-- The operation that a number selects. The bit of value 128 asks to modify the matrix in place and
does not count. -/
def ofNumber? (n : Single) : Option Operation := all[(n.word &&& ~~~128#32).toNat]?

end Operation

/-- A matrix is built by the global proc `matrix`, and by `New` on the
type `/matrix` or below it. -/
def isBuilder (tree : ObjectTree) (owner : Option TypeId) (proc : Option ProcId) : Bool :=
  match proc.bind tree.proc? with
  | none => false
  | some entry =>
    if entry.isGlobal then entry.name == "matrix"
    else entry.name == "New" &&
      match owner.or entry.owner, tree.find? "/matrix" with
      | some type, some matrix => tree.isSubtype type matrix
      | _, _ => false

def shapeProblem? (arguments : List Argument) (span : Span) : Option Diagnostic :=
  match arguments.length with
  | 0 | 1 | 6 => none
  | 2 | 3 | 4 => do
    let last ← arguments.getLast?
    let n ← (← last.value.fold?).number?
    let text := n.text
    if (Operation.ofNumber? n).isSome then none
    else some (.ofKind .suspiciousCall last.span s!"invalid matrix operation {text}")
  | 5 =>
    some (.ofKind .suspiciousCall span "matrix called with 5 arguments always fails at run time")
  | count =>
    some (.ofKind .tooManyArguments span s!"matrix takes at most 6 arguments, got {count}")

def callProblem? (tree : ObjectTree) (owner : Option TypeId) (proc : Option ProcId)
    (arguments : List Argument) (span : Span) : Option Diagnostic :=
  if isBuilder tree owner proc then shapeProblem? arguments span else none

end ProcLowering.Matrix
