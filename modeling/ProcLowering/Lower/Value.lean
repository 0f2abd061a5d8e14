import ProcLowering.Fold
import ProcLowering.Lower.Step
import ProcLowering.Lower.Target

set_option autoImplicit false

namespace ProcLowering

def UnaryOp.opcode : UnaryOp → Opcode
  | .negate => .negate
  | .bitNot => .bitNot
  | .not => .not

def BinaryOp.opcode : BinaryOp → Opcode
  | .add => .add
  | .subtract => .subtract
  | .multiply => .multiply
  | .divide => .divide
  | .modulus => .modulus
  | .bitAnd => .bitAnd
  | .bitOr => .bitOr
  | .bitXor => .bitXor
  | .shiftLeft => .bitShiftLeft
  | .shiftRight => .bitShiftRight

def Value.step (value : Value) : Step :=
  match value.constant? with
  | some constant => .constant constant
  | none => .null

def Meaning.steps (name : String) : Meaning → List Step
  | .localVar slot => [.getLocal slot]
  | .src => [.src]
  | .field => [.src, .field name]
  | .proc | .unknown => [.null]
  | .fault cause => [.fault cause]

def Step.guardedIf (safe : Bool) (steps : List Step) : List Step :=
  if safe then [.unlessNull steps] else steps

/-- A report of a proc without implementation looks up the proc that a
call denotes, which must exist. -/
def Target.lookupSteps (context : Context) (target : Target) : List Step :=
  match (target.staticProc context).2 with
  | none => []
  | some proc =>
    match context.options.reportUnimplemented, context.tree.proc proc with
    | true, .error fault => [.fault fault]
    | _, _ => []

def Argument.names (limit : Nat) (arguments : List Argument) : List (Option String) :=
  (arguments.take limit).map fun argument => argument.name?.map (·.name)

namespace Expr

mutual

def steps (context : Context) : Expr → List Step
  | .literal value span => [.line span.line, value.step]
  | .name identifier =>
    .line identifier.span.line :: (context.meaning identifier.name).steps identifier.name
  | .globalName identifier => [.line identifier.span.line, .null]
  | .self span => [.line span.line, .self]
  | .super span => [.line span.line, .null]
  | .member receiver field safe _ =>
    receiver.steps context ++ Step.guardedIf safe [.field field.name]
  | .call callee arguments span =>
    match Target.ofExpr? callee with
    | none => [.line span.line, .null]
    | some target =>
      let limit := context.options.maxArguments
      let passed :=
        if target.isSuper && arguments.isEmpty then [.callerArguments]
        else argumentSteps context limit arguments ++ [.arguments (Argument.names limit arguments)]
      let resolved := target.resolved context
      target.lookupSteps context ++ (receiverSteps context callee ++ .line span.line ::
        Step.guardedIf resolved.conditional (passed ++ [.call resolved.reference]))
  | .paren inner _ => inner.steps context
  | .unary op operand span =>
    match (Expr.unary op operand span).fold? with
    | some value => [.line span.line, value.step]
    | none => operand.steps context ++ [.operator op.opcode]
  | .binary op left right span =>
    match (Expr.binary op left right span).fold? with
    | some value => [.line span.line, value.step]
    | none => left.steps context ++ (right.steps context ++ [.operator op.opcode])

def receiverSteps (context : Context) : Expr → List Step
  | .paren inner _ => receiverSteps context inner
  | .member receiver _ _ _ => receiver.steps context
  | _ => []

def argumentSteps (context : Context) : Nat → List Argument → List Step
  | _, [] => []
  | 0, _ => []
  | limit + 1, .mk _ value _ :: rest =>
    value.steps context ++ argumentSteps context limit rest

end

end Expr

/-- The steps for a call target in the place of a value; what is no
member access keeps the current line. -/
def Target.valueSteps (context : Context) : Target → List Step
  | .name _ | .globalName _ | .super _ => [.null]
  | .self _ => [.self]
  | .member receiver field safe span => (Expr.member receiver field safe span).steps context

end ProcLowering
