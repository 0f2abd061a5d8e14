import ProcLowering.Lower.Problem
import ProcLowering.Lower.Value

/-!
How the steps and the reports of an expression are put together from those of its parts. What holds
of all steps, or of all reports, is proved along this relation.
-/

set_option autoImplicit false

namespace ProcLowering

theorem Target.ofExpr?_paren (inner : Expr) (span : Span) : ofExpr? (.paren inner span) =
    ofExpr? inner := by
  simp [ofExpr?, Expr.stripped]

/-- What is lowered: the value of an expression, the receiver of a callee, or the first `count`
arguments of a call. -/
inductive Part where
  | value (expr : Expr)
  | receiver (callee : Expr)
  | passed (count : Nat) (arguments : List Argument)

def Expr.isUnqualified : Expr → Bool
  | .name _ | .globalName _ | .self _ | .super _ => true
  | _ => false

namespace Part

inductive Lowers (context : Context) : Part → List Step → List Diagnostic → Prop
  | literal (value : Value) (span : Span) :
      Lowers context (.value (.literal value span)) [.line span.line, value.step] []
  | name (identifier : Identifier) :
      Lowers context (.value (.name identifier))
        (.line identifier.span.line :: (context.meaning identifier.name).steps identifier.name)
        ((context.meaning identifier.name).problem? identifier).toList
  | globalName (identifier : Identifier) :
      Lowers context (.value (.globalName identifier)) [.line identifier.span.line, .null]
        [Target.globalValueProblem identifier]
  | self (span : Span) : Lowers context (.value (.self span)) [.line span.line, .self] []
  | super (span : Span) :
      Lowers context (.value (.super span)) [.line span.line, .null] [Target.superValueProblem span]
  | member {receiver : Expr} {steps : List Step} {problems : List Diagnostic} (field : Identifier)
      (safe : Bool) (span : Span) (receives : Lowers context (.value receiver) steps problems) :
      Lowers context (.value (.member receiver field safe span))
        (steps ++ Step.guardedIf safe [.field field.name])
        problems
  | uncallable {callee : Expr} (uncallable : Target.ofExpr? callee = none)
      (arguments : List Argument) (span : Span) :
      Lowers context (.value (.call callee arguments span)) [.line span.line, .null]
        [.ofKind .invalidCallTarget callee.span "expression cannot be called"]
  -- What the caller was passed is passed on.
  | forward {callee : Expr} {place : Span} {received : List Step} {problems : List Diagnostic}
      (called : Target.ofExpr? callee = some (.super place)) (span : Span)
      (receives : Lowers context (.receiver callee) received problems) :
      Lowers context (.value (.call callee [] span))
        (received ++ [.line span.line, .callerArguments, .call .superProc])
        ((Target.super place).callProblems context [] span ++
          (problems ++ ((Target.super place).problem? context).toList))
  | call {callee : Expr} {target : Target} {arguments : List Argument} {received given : List Step}
      {problems others : List Diagnostic} (called : Target.ofExpr? callee = some target)
      (gathered : (target.isSuper && arguments.isEmpty) = false) (span : Span)
      (receives : Lowers context (.receiver callee) received problems)
      (passes : Lowers context (.passed context.options.maxArguments arguments) given others) :
      Lowers context (.value (.call callee arguments span))
        (target.lookupSteps context ++
          (received ++ .line span.line :: Step.guardedIf target.isConditional
          (given ++ [.arguments (Argument.names context.options.maxArguments arguments),
            .call (target.reference context)])))
        (target.callProblems context arguments span ++
          (problems ++ ((target.problem? context).toList ++ others)))
  | paren {inner : Expr} {steps : List Step} {problems : List Diagnostic} (span : Span)
      (inside : Lowers context (.value inner) steps problems) :
      Lowers context (.value (.paren inner span)) steps problems
  | foldedUnary {op : UnaryOp} {operand : Expr} {span : Span} {value : Value} {steps : List Step}
      {problems : List Diagnostic} (folds : (Expr.unary op operand span).fold? = some value)
      (inside : Lowers context (.value operand) steps problems) :
      Lowers context (.value (.unary op operand span)) [.line span.line, value.step] problems
  | unary {op : UnaryOp} {operand : Expr} {span : Span} {steps : List Step}
      {problems : List Diagnostic} (unfolded : (Expr.unary op operand span).fold? = none)
      (inside : Lowers context (.value operand) steps problems) :
      Lowers context (.value (.unary op operand span)) (steps ++ [.operator op.opcode]) problems
  | foldedBinary {op : BinaryOp} {left right : Expr} {span : Span} {value : Value}
      {steps more : List Step} {problems others : List Diagnostic}
      (folds : (Expr.binary op left right span).fold? = some value)
      (first : Lowers context (.value left) steps problems)
      (second : Lowers context (.value right) more others) :
      Lowers context (.value (.binary op left right span))
      [.line span.line, value.step] (problems ++ others)
  | binary {op : BinaryOp} {left right : Expr} {span : Span} {steps more : List Step}
      {problems others : List Diagnostic} (unfolded : (Expr.binary op left right span).fold? = none)
      (first : Lowers context (.value left) steps problems)
      (second : Lowers context (.value right) more others) :
      Lowers context (.value (.binary op left right span))
        (steps ++ (more ++ [.operator op.opcode]))
        (problems ++ others)
  | receiverParen {callee : Expr} {steps : List Step} {problems : List Diagnostic} (span : Span)
      (inside : Lowers context (.receiver callee) steps problems) :
      Lowers context (.receiver (.paren callee span)) steps problems
  | receiverMember {receiver : Expr} {steps : List Step} {problems : List Diagnostic}
      (field : Identifier) (safe : Bool) (span : Span)
      (receives : Lowers context (.value receiver) steps problems) :
      Lowers context (.receiver (.member receiver field safe span)) steps problems
  | unqualified {callee : Expr} (bare : callee.isUnqualified = true) :
      Lowers context (.receiver callee) [] []
  | noArguments {count : Nat} {arguments : List Argument} (none : count = 0 ∨ arguments = []) :
      Lowers context (.passed count arguments) [] []
  | argument {count : Nat} {value : Expr} {rest : List Argument} {steps more : List Step}
      {problems others : List Diagnostic} (name : Option Identifier) (span : Span)
      (first : Lowers context (.value value) steps problems)
      (next : Lowers context (.passed count rest) more others) :
      Lowers context (.passed (count + 1) (.mk name value span :: rest)) (steps ++ more)
        (problems ++ others)

end Part

namespace Expr

mutual

theorem lowers (context : Context) :
    (expr : Expr) → Part.Lowers context (.value expr) (expr.steps context) (expr.problems context)
  | .literal value span => by
    rw [steps, problems]
    exact .literal value span
  | .name identifier => by
    rw [steps, problems]
    exact .name identifier
  | .globalName identifier => by
    rw [steps, problems]
    exact .globalName identifier
  | .self span => by
    rw [steps, problems]
    exact .self span
  | .super span => by
    rw [steps, problems]
    exact .super span
  | .member receiver field safe span => by
    rw [steps, problems]
    exact .member field safe span (lowers context receiver)
  | .call callee arguments span => by
    rw [steps, problems]
    cases called : Target.ofExpr? callee with
    | none => exact .uncallable called arguments span
    | some target =>
      simp only [Target.reference_resolved, Target.conditional_resolved]
      by_cases forwards : (target.isSuper && arguments.isEmpty) = true
      · obtain ⟨parent, none⟩ := Bool.and_eq_true_iff.mp forwards
        obtain rfl : arguments = [] := by simpa using none
        obtain ⟨place, rfl⟩ : ∃ place, target = .super place := by
          cases target <;> first | exact ⟨_, rfl⟩ | cases parent
        rw [argumentProblems, List.append_nil]
        exact .forward called span (lowers_receiver context callee called)
      · rw [if_neg forwards, List.append_assoc]
        exact .call called (Bool.eq_false_iff.mpr forwards) span
          (lowers_receiver context callee called)
          (lowers_arguments context _ arguments)
  | .paren inner span => by
    rw [steps, problems]
    exact .paren span (lowers context inner)
  | .unary op operand span => by
    rw [steps, problems]
    cases folds : (Expr.unary op operand span).fold? with
    | some value => exact .foldedUnary folds (lowers context operand)
    | none => exact .unary folds (lowers context operand)
  | .binary op left right span => by
    rw [steps, problems]
    cases folds : (Expr.binary op left right span).fold? with
    | some value => exact .foldedBinary folds (lowers context left) (lowers context right)
    | none => exact .binary folds (lowers context left) (lowers context right)

theorem lowers_receiver (context : Context) {target : Target} : (callee : Expr) →
    Target.ofExpr? callee = some target →
    Part.Lowers context (.receiver callee) (receiverSteps context callee)
      (receiverProblems context callee)
  | .paren inner span, called => by
    rw [receiverSteps, receiverProblems]
    exact .receiverParen span
      (lowers_receiver context inner ((Target.ofExpr?_paren inner span).symm.trans called))
  | .member receiver field safe span, _ => by
    rw [receiverSteps, receiverProblems]
    exact .receiverMember field safe span (lowers context receiver)
  | .name _, _ | .globalName _, _ | .self _, _ | .super _, _ => .unqualified rfl

theorem lowers_arguments (context : Context) : (count : Nat) → (arguments : List Argument) →
    Part.Lowers context (.passed count arguments) (argumentSteps context count arguments)
      (argumentProblems context count arguments)
  | 0, [] | _ + 1, [] => .noArguments (.inr rfl)
  | 0, _ :: _ => .noArguments (.inl rfl)
  | count + 1, .mk identifier value span :: rest => by
    rw [argumentSteps, argumentProblems]
    exact .argument identifier span (lowers context value) (lowers_arguments context count rest)

end

end Expr

namespace Part

@[simp] def steps (context : Context) : Part → List Step
  | .value expr => expr.steps context
  | .receiver callee => Expr.receiverSteps context callee
  | .passed count arguments => Expr.argumentSteps context count arguments

@[simp] def problems (context : Context) : Part → List Diagnostic
  | .value expr => expr.problems context
  | .receiver callee => Expr.receiverProblems context callee
  | .passed count arguments => Expr.argumentProblems context count arguments

theorem Lowers.eq {context : Context} {part : Part} {steps : List Step} {problems : List Diagnostic}
    (lowers : part.Lowers context steps problems) : part.steps context = steps ∧
      part.problems context = problems := by
  induction lowers with
  | literal | name | globalName | self | super => simp [Expr.steps, Expr.problems]
  | member _ _ _ _ ih | paren _ _ ih => simpa [Expr.steps, Expr.problems] using ih
  | uncallable uncallable => simp [Expr.steps, Expr.problems, uncallable]
  | forward called _ _ receives =>
    simp only [Part.steps, Part.problems] at receives
    simp [Expr.steps, Expr.problems, called, receives, Target.isSuper, Target.isConditional,
      Target.reference, Target.lookupSteps, Target.staticProc, Step.guardedIf,
      Expr.argumentProblems]
  | call called gathered _ _ _ receives passes =>
    simp only [Part.steps, Part.problems] at receives passes
    simp [Expr.steps, Expr.problems, called, gathered, receives, passes]
  | foldedUnary folds _ ih | unary folds _ ih => simp_all [Expr.steps, Expr.problems]
  | foldedBinary folds _ _ first second | binary folds _ _ first second =>
    simp_all [Expr.steps, Expr.problems]
  | receiverParen _ _ ih | receiverMember _ _ _ _ ih =>
    simpa [Expr.receiverSteps, Expr.receiverProblems] using ih
  | @unqualified callee bare => cases callee <;> first | exact ⟨rfl, rfl⟩ | cases bare
  | @noArguments count arguments none =>
    rcases none with rfl | rfl
    · cases arguments <;> exact ⟨rfl, rfl⟩
    · cases count <;> exact ⟨rfl, rfl⟩
  | argument _ _ _ _ first next => simp_all [Expr.argumentSteps, Expr.argumentProblems]

end Part

end ProcLowering
