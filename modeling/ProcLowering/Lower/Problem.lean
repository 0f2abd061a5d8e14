import ProcLowering.Matrix
import ProcLowering.Lower.Target

set_option autoImplicit false

namespace ProcLowering

def Meaning.problem? (identifier : Identifier) : Meaning → Option Diagnostic
  | .localVar _ | .src | .field | .fault _ => none
  | .proc =>
    some (.ofKind .procUsedAsValue identifier.span
      s!"attempt to use proc '{identifier.name}' as value")
  | .unknown =>
    some (.ofKind .unknownIdentifier identifier.span s!"unknown identifier '{identifier.name}'")

/-- What there is to report about a call apart from its target and its parts: the shape of its
arguments, their number, and a proc without implementation. -/
def Target.callProblems (context : Context) (target : Target) (arguments : List Argument)
    (span : Span) : List Diagnostic :=
  let (owner, proc) := target.staticProc context
  let shape :=
    if context.options.lintMatrixCalls then
      (Matrix.callProblem? context.tree owner proc arguments span).toList
    else []
  let limit := context.options.maxArguments
  let count := arguments.length
  let number :=
    if limit < count then
      [.ofKind .tooManyArguments span
        s!"call passes {count} arguments, at most {limit} are allowed"]
    else []
  let missing :=
    match proc.bind context.tree.proc? with
    | some entry =>
      if context.options.reportUnimplemented && entry.flags.unimplemented then
        [.ofKind .unimplementedFeature span s!"{entry.name} is not implemented"]
      else []
    | none => []
  shape ++ number ++ missing

def Target.globalValueProblem (identifier : Identifier) : Diagnostic :=
  .ofKind .invalidProcReference identifier.span
    s!"attempt to use global proc '{identifier.name}' as value"

def Target.superValueProblem (span : Span) : Diagnostic :=
  .ofKind .invalidProcReference span "attempt to use '..' as value"

namespace Expr

mutual

def problems (context : Context) : Expr → List Diagnostic
  | .literal _ _ | .self _ => []
  | .name identifier => ((context.meaning identifier.name).problem? identifier).toList
  | .globalName identifier => [Target.globalValueProblem identifier]
  | .super span => [Target.superValueProblem span]
  | .member receiver _ _ _ => receiver.problems context
  | .call callee arguments span =>
    match Target.ofExpr? callee with
    | none => [.ofKind .invalidCallTarget callee.span "expression cannot be called"]
    | some target =>
      target.callProblems context arguments span ++
        (receiverProblems context callee ++ ((target.problem? context).toList ++
          argumentProblems context context.options.maxArguments arguments))
  | .paren inner _ => inner.problems context
  | .unary _ operand _ => operand.problems context
  | .binary _ left right _ => left.problems context ++ right.problems context

def receiverProblems (context : Context) : Expr → List Diagnostic
  | .paren inner _ => receiverProblems context inner
  | .member receiver _ _ _ => receiver.problems context
  | _ => []

def argumentProblems (context : Context) : Nat → List Argument → List Diagnostic
  | _, [] => []
  | 0, _ => []
  | limit + 1, .mk _ value _ :: rest =>
    value.problems context ++ argumentProblems context limit rest

end

end Expr

def Target.valueProblems (context : Context) : Target → List Diagnostic
  | .name identifier => (Meaning.proc.problem? identifier).toList
  | .globalName identifier => [globalValueProblem identifier]
  | .self _ => []
  | .super span => [superValueProblem span]
  | .member receiver field safe span => (Expr.member receiver field safe span).problems context

end ProcLowering
