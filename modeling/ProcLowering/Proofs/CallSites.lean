import ProcLowering.Proofs.CallNodes
import ProcLowering.Proofs.MatrixShape
import ProcLowering.Proofs.Outcome
import ProcLowering.Proofs.Valued
import ProcLowering.Proofs.Verifiable

set_option autoImplicit false

namespace ProcLowering

namespace Instruction

def reference? : Instruction → Option Reference
  | .call reference => some reference
  | .pushNull | .pushConstant _ | .pop | .getLocal _ | .setLocal _ | .pushSelf | .pushSrc
  | .dereferenceField _ | .operator _
  | .pushArguments _ | .pushProcArguments | .jumpIfNullDereference _ | .ret => none

def calls : Option Instruction → List Instruction → List (Option Instruction × Reference)
  | _, [] => []
  | before, instruction :: rest =>
    (instruction.reference?.map (before, ·)).toList ++ calls (some instruction) rest

theorem calls_append (before : Option Instruction) (first second : List Instruction) :
    calls before (first ++ second) = calls before first ++
      calls (first.getLast?.or before) second := by
  induction first generalizing before with
  | nil => rfl
  | cons instruction rest ih =>
    have last : (instruction :: rest).getLast?.or before = rest.getLast?.or (some instruction) := by
      rw [List.getLast?_cons]
      cases rest.getLast? <;> rfl
    rw [List.cons_append, calls, calls, ih, last, List.append_assoc]

end Instruction

namespace Step

/-- Starting on one line, the steps make the given calls, in order, and end on another line. A call
stands right behind what pushes its arguments. -/
inductive Calls {α : Type} (makes : α → Instruction → Reference → UInt32 → Prop) :
    UInt32 → List Step → List α → UInt32 → Prop
  | nil (line : UInt32) : Calls makes line [] [] line
  | append {first middle last : UInt32} {steps more : List Step} {nodes others : List α}
      (head : Calls makes first steps nodes middle) (tail : Calls makes middle more others last) :
      Calls makes first (steps ++ more) (nodes ++ others) last
  | line {number last : UInt32} {steps : List Step} {nodes : List α} (line : UInt32)
      (tail : Calls makes number steps nodes last) :
        Calls makes line (.line number :: steps) nodes last
  | straight {step : Step} {instruction : Instruction} (line : UInt32)
      (written : step.instruction? = some instruction) (plain : instruction.reference? = none) :
      Calls makes line [step] [] line
  | fault (line : UInt32) (cause : Fault) : Calls makes line [.fault cause] [] line
  | guardedIf {first last : UInt32} {steps : List Step} {nodes : List α} (safe : Bool)
      (inside : Calls makes first steps nodes last) :
        Calls makes first (Step.guardedIf safe steps) nodes last
  | call {step : Step} {push : Instruction} {reference : Reference} {node : α} {line : UInt32}
      (written : step.instruction? = some push) (plain : push.reference? = none)
      (kept : ∀ constant, push ≠ .pushConstant constant) (made : makes node push reference line) :
      Calls makes line [step, .call reference] [node] line

section

variable {α : Type} {makes : α → Instruction → Reference → UInt32 → Prop}

theorem Calls.map {β : Type} (place : β → α) {first last : UInt32} {steps : List Step}
    {nodes : List β} (calls : Calls (fun node => makes (place node)) first steps nodes last) :
    Calls makes first steps (nodes.map place) last := by
  induction calls with
  | nil line => exact .nil line
  | append _ _ head tail =>
    rw [List.map_append]
    exact .append head tail
  | line line _ ih => exact .line line ih
  | straight line written plain => exact .straight line written plain
  | fault line cause => exact .fault line cause
  | guardedIf safe _ ih => exact .guardedIf safe ih
  | call written plain kept made => exact .call written plain kept made

theorem Calls.answers {first last : UInt32} {steps : List Step} {nodes : List α}
    (calls : Calls makes first steps nodes last) {start stop : Nat}
    {listing : List (Nat × Instruction)} (lowered : Lowered start steps listing stop)
    (before : Option Instruction) :
    List.Forall₂ (fun node found => ∃ push line, found.1 = some push ∧
      makes node push found.2 line) nodes
      (Instruction.calls before (listing.map (·.2))) := by
  induction calls generalizing start stop listing before with
  | nil =>
    cases lowered
    exact .nil
  | append _ _ head tail =>
    obtain ⟨left, middle, right, rfl, one, two⟩ := lowered.split
    rw [List.map_append, Instruction.calls_append]
    exact List.rel_append (head one before) (tail two _)
  | line _ _ ih =>
    cases lowered with
    | line rest => exact ih rest before
    | straight written _ _ => cases written
  | straight _ written plain =>
    cases lowered with
    | line _ => cases written
    | unlessNull _ _ => cases written
    | straight written' same tail =>
      cases written.symm.trans written'
      cases tail
      cases same with
      | refl => simp [Instruction.calls, plain]
      | constant => simp [Instruction.calls, Instruction.reference?]
  | fault =>
    cases lowered with
    | straight written _ _ => cases written
  | guardedIf safe _ ih =>
    cases safe with
    | false => exact ih lowered before
    | true =>
      cases lowered with
      | straight written _ _ => cases written
      | unlessNull guarded rest =>
        cases rest
        rw [List.append_nil]
        exact ih guarded _
  | @call _ push reference _ line written plain kept made =>
    cases lowered with
    | line _ => cases written
    | unlessNull _ _ => cases written
    | straight written' same tail =>
      cases written.symm.trans written'
      cases same with
      | constant => exact absurd rfl (kept _)
      | refl =>
        cases tail with
        | straight called same rest =>
          cases called
          cases same
          cases rest
          have code : Instruction.calls before [push, .call reference] =
              [(some push, reference)] := by
            rw [Instruction.calls, plain]
            rfl
          exact code ▸ .cons ⟨push, line, rfl, made⟩ .nil

theorem calls_value (line : UInt32) (value : Value) : Calls makes line [value.step] [] line := by
  unfold Value.step
  split
  · exact .straight line rfl rfl
  · exact .straight line rfl rfl

theorem calls_meaning (line : UInt32) (meaning : Meaning) (name : String) :
    Calls makes line (meaning.steps name) [] line := by
  cases meaning with
  | localVar | src | proc | unknown => exact .straight line rfl rfl
  | field =>
    have object : Calls makes line [.src] [] line := .straight line rfl rfl
    exact object.append (.straight line rfl rfl)
  | fault cause => exact .fault line cause

theorem calls_lookup (line : UInt32) (context : Context) (target : Target) :
    Calls makes line (target.lookupSteps context) [] line := by
  obtain none | ⟨_, cause, -, -, one⟩ := target.lookupSteps_cases context
  · rw [none]
    exact .nil line
  · rw [one]
    exact .fault line cause

end

end Step

inductive Refers (context : Context) : Expr → Reference → Prop
  | own {identifier : Identifier} {proc : ProcId}
      (found : context.instanceProc? identifier.name = some proc) :
      Refers context (.name identifier) (.instanceProc identifier.name .src)
  | bareGlobal {identifier : Identifier} {proc : ProcId}
      (foreign : context.instanceProc? identifier.name = none)
      (found : context.globalProc? identifier.name = some proc) :
        Refers context (.name identifier) (.globalProc proc)
  | unknown {identifier : Identifier} (foreign : context.instanceProc? identifier.name = none)
      (missing : context.globalProc? identifier.name = none) :
      Refers context (.name identifier) (.instanceProc identifier.name .src)
  | global {identifier : Identifier} {proc : ProcId}
      (found : context.globalProc? identifier.name = some proc) :
      Refers context (.globalName identifier) (.globalProc proc)
  | unknownGlobal {identifier : Identifier} (missing : context.globalProc? identifier.name = none) :
      Refers context (.globalName identifier) (.globalProc .globalInit)
  | self (span : Span) : Refers context (.self span) .selfSlot
  | super (span : Span) : Refers context (.super span) .superProc
  | member (receiver : Expr) (field : Identifier) (safe : Bool) (span : Span) :
      Refers context (.member receiver field safe span) (.instanceProc field.name .stack)
  | paren {inner : Expr} {reference : Reference} (inside : Refers context inner reference)
      (span : Span) :
      Refers context (.paren inner span) reference

theorem Target.refers (context : Context) {target : Target} :
    (callee : Expr) → ofExpr? callee = some target →
      Refers context callee (target.reference context)
  | .paren inner span, called =>
    .paren (Target.refers context inner ((ofExpr?_paren inner span).symm.trans called)) span
  | .name identifier, called => by
    cases called
    rw [reference]
    cases own : context.instanceProc? identifier.name with
    | some proc => exact .own own
    | none =>
      cases found : context.globalProc? identifier.name with
      | some proc => exact .bareGlobal own found
      | none => exact .unknown own found
  | .globalName identifier, called => by
    cases called
    rw [reference]
    cases found : context.globalProc? identifier.name with
    | some proc => exact .global found
    | none => exact .unknownGlobal found
  | .self span, called => by
    cases called
    exact .self span
  | .super span, called => by
    cases called
    exact .super span
  | .member receiver field safe span, called => by
    cases called
    exact .member receiver field safe span

namespace CallNode

def pushed (limit : Nat) (node : CallNode) : Instruction :=
  match node.callee.stripped, node.arguments with
  | .super _, [] => .pushProcArguments
  | _, arguments => .pushArguments (Argument.names limit arguments)

/-- A call in code, with the instruction right before it, is the one that the node asks for. -/
structure Answers (context : Context) (node : CallNode) (found : Option Instruction × Reference) :
    Prop where
  before : found.1 = some (node.pushed context.options.maxArguments)
  refers : Refers context node.callee found.2

theorem pushed_eq (limit : Nat) (node : CallNode) {target : Target}
    (called : Target.ofExpr? node.callee = some target) :
    node.pushed limit = if target.isSuper && node.arguments.isEmpty then .pushProcArguments
      else .pushArguments (Argument.names limit node.arguments) := by
  unfold Target.ofExpr? at called
  unfold pushed
  split at called
  all_goals cases called
  all_goals
    next callee =>
    cases node.arguments <;> simp [callee, Target.isSuper]

end CallNode

structure CallNode.Made (context : Context) (node : CallNode) (push : Instruction)
    (reference : Reference) (line : UInt32) : Prop where
  push : push = node.pushed context.options.maxArguments
  refers : Refers context node.callee reference
  line : line = node.line context.options.maxArguments

namespace Part

def calls (limit : Nat) : Part → List CallNode
  | .value expr | .receiver expr => expr.calls limit
  | .passed count arguments => Argument.callsAll limit count arguments

def endLine (limit : Nat) (line : UInt32) : Part → UInt32
  | .value expr => expr.endLine limit
  | .receiver callee => callee.receiverEnd limit line
  | .passed count arguments => Argument.endLine limit count line arguments

theorem Lowers.calls {context : Context} {part : Part} {steps : List Step}
    {problems : List Diagnostic} (lowers : part.Lowers context steps problems) (line : UInt32) :
    Step.Calls (CallNode.Made context) line steps (part.calls context.options.maxArguments)
      (part.endLine context.options.maxArguments line) := by
  induction lowers generalizing line with
  | literal value span =>
    rw [Part.calls, endLine, Expr.calls, Expr.endLine]
    exact .line line (Step.calls_value span.line value)
  | name identifier =>
    rw [Part.calls, endLine, Expr.calls, Expr.endLine]
    exact .line line (Step.calls_meaning identifier.span.line _ identifier.name)
  | globalName | self | super =>
    rw [Part.calls, endLine, Expr.calls, Expr.endLine]
    exact .line line (.straight _ rfl rfl)
  | @member receiver _ _ field safe _ _ ih =>
    rw [Part.calls, endLine, Expr.calls, Expr.endLine, ← List.append_nil (receiver.calls _)]
    exact (ih line).append (.guardedIf safe (.straight _ rfl rfl))
  | uncallable uncallable arguments span =>
    rw [Part.calls, endLine, Expr.calls, Expr.endLine, uncallable]
    exact .line line (.straight span.line rfl rfl)
  | @forward callee _ _ _ called span _ receives =>
    let node : CallNode := ⟨callee, [], span⟩
    have own : node.line context.options.maxArguments = span.line := by simp [CallNode.line, node]
    have pushes := node.pushed_eq context.options.maxArguments called
    have made : node.Made context .pushProcArguments .superProc span.line :=
      ⟨pushes.symm, Target.refers context callee called, own.symm⟩
    rw [Part.calls, endLine, Expr.calls, Expr.endLine, called, Option.isSome_some,
      if_pos rfl, if_pos rfl, Argument.callsAll, Argument.endLine, List.nil_append]
    exact (receives line).append (.line _ (.call rfl rfl (by simp) made))
  | @call callee target arguments _ _ _ _ called gathered span _ _ receives passes =>
    let node : CallNode := ⟨callee, arguments, span⟩
    have own : node.line context.options.maxArguments = Argument.endLine _ _ span.line arguments :=
      (Argument.endLine_eq _ _ span.line arguments).symm
    have pushes := node.pushed_eq context.options.maxArguments called
    rw [if_neg (by simp [node, gathered])] at pushes
    have made : node.Made context
        (.pushArguments (Argument.names context.options.maxArguments arguments))
        (target.reference context) (Argument.endLine _ _ span.line arguments) :=
      ⟨pushes.symm, Target.refers context callee called, own.symm⟩
    rw [Part.calls, endLine, Expr.calls, Expr.endLine, called, Option.isSome_some,
      if_pos rfl, if_pos rfl]
    -- The line is set behind the receiver, so it does not matter where that ended.
    refine (Step.calls_lookup line context target).append
      ((receives line).append (.line _ (.guardedIf _ ?_)))
    exact (passes span.line).append (.call rfl rfl (by simp) made)
  | paren _ _ ih =>
    rw [Part.calls, endLine, Expr.calls, Expr.endLine]
    exact ih line
  | @foldedUnary _ _ span _ _ _ folds | @foldedBinary _ _ _ span _ _ _ _ _ folds =>
    -- A constant stands on the line of the whole, and there is no call in it.
    rw [Part.calls, endLine, Expr.calls_of_fold? _ folds, Expr.endLine, folds]
    exact .line line (Step.calls_value span.line _)
  | @unary _ operand _ _ _ unfolded _ ih =>
    rw [Part.calls, endLine, Expr.calls, Expr.endLine, unfolded,
      ← List.append_nil (operand.calls _)]
    exact (ih line).append (.straight _ rfl rfl)
  | @binary _ _ right _ _ _ _ _ unfolded _ _ first second =>
    rw [Part.calls, endLine, Expr.calls, Expr.endLine, unfolded, ← List.append_nil (right.calls _)]
    exact (first line).append ((second _).append (.straight _ rfl rfl))
  | receiverParen _ _ ih =>
    rw [Part.calls, endLine, Expr.calls, Expr.receiverEnd]
    exact ih line
  | receiverMember _ _ _ _ ih =>
    rw [Part.calls, endLine, Expr.calls, Expr.receiverEnd]
    exact ih line
  | @unqualified callee bare =>
    rw [Part.calls, endLine]
    cases callee with
    | name | globalName | self | super =>
      rw [Expr.calls]
      exact .nil line
    | _ => cases bare
  | @noArguments count arguments none =>
    rcases none with rfl | rfl
    · cases arguments <;> exact .nil line
    · cases count <;> exact .nil line
  | argument _ _ _ _ first next =>
    rw [Part.calls, endLine, Argument.callsAll, Argument.endLine]
    exact (first line).append (next _)

end Part

def Body.calls (tree : ObjectTree) (options : Options) (proc : Proc) (scope : Scope) (body : Body) :
    List (Context × CallNode) :=
  (body.valued tree options proc scope).flatMap fun value =>
  (value.2.calls options.maxArguments).map (value.1, ·)

section

variable (tree : ObjectTree) (options : Options) (proc : Proc)

theorem Stmt.makes_calls (statements : List Stmt) (scope : Scope) (line : UInt32) :
    ∃ last, Step.Calls (fun call => call.2.Made call.1) line
      (stepsAll tree options proc scope statements)
      ((valued tree options proc scope statements).flatMap fun value =>
        (value.2.calls options.maxArguments).map (value.1, ·)) last := by
  have value (scope : Scope) (expr : Expr) (line : UInt32) :
      Step.Calls (fun call : Context × CallNode => call.2.Made call.1) line
        (expr.steps ⟨tree, options, proc, scope⟩)
        ((expr.calls options.maxArguments).map ((⟨tree, options, proc, scope⟩ : Context), ·))
        (expr.endLine options.maxArguments) :=
    Step.Calls.map ((⟨tree, options, proc, scope⟩ : Context), ·)
      ((expr.lowers ⟨tree, options, proc, scope⟩).calls line)
  induction statements generalizing scope line with
  | nil => exact ⟨line, .nil line⟩
  | cons stmt rest ih =>
    cases stmt with
    | expr expr =>
      obtain ⟨last, others⟩ := ih scope (expr.endLine options.maxArguments)
      exact ⟨last, .line line ((value scope expr _).append (.append (.straight _ rfl rfl) others))⟩
    | ret expr span =>
      cases expr with
      | none =>
        obtain ⟨last, others⟩ := ih scope span.line
        exact ⟨last,
          .line line (.append (.straight span.line rfl rfl) (.append (.straight _ rfl rfl) others))⟩
      | some expr =>
        obtain ⟨last, others⟩ := ih scope (expr.endLine options.maxArguments)
        exact ⟨last,
          .line line ((value scope expr _).append (.append (.straight _ rfl rfl) others))⟩
    | var name typePath init span =>
      obtain ⟨middle, initial⟩ :
          ∃ middle, Step.Calls (fun call : Context × CallNode => call.2.Made call.1) span.line
          ((init.map fun value => value.steps ⟨tree, options, proc, scope⟩).getD [])
          ((init.map fun value => ((⟨tree, options, proc, scope⟩ : Context), value)).toList.flatMap
            fun value =>
            (value.2.calls options.maxArguments).map (value.1, ·)) middle := by
        cases init with
        | none => exact ⟨_, .nil _⟩
        | some expr => exact ⟨_, by simpa using value scope expr span.line⟩
      rw [stepsAll, valued, List.flatMap_append, value?, opens]
      -- The name is declared behind its value. If it cannot be, nothing else is computed.
      suffices later :
          ∃ last, Step.Calls (fun call : Context × CallNode => call.2.Made call.1)
          middle _ _ last by
        obtain ⟨last, others⟩ := later
        exact ⟨last, .line line (initial.append others)⟩
      cases scope.declare name.name (typePath.bind tree.find?) with
      | error fault => exact ⟨middle, .fault middle fault⟩
      | ok both =>
        obtain ⟨last, others⟩ := ih both.2 middle
        dsimp only
        split
        · exact ⟨last, .append (.straight middle rfl rfl) others⟩
        · exact ⟨last, others⟩

end

def Kind.isUnknown (kind : Kind) : Bool :=
  kind == .unknownProcedure || kind == .unknownGlobalProcedure

def Diagnostic.unknowns (items : List Diagnostic) : List (Kind × Span) :=
  (items.filter (·.kind.isUnknown)).map fun item => (item.kind, item.span)

theorem Diagnostic.unknowns_append (first second : List Diagnostic) :
    unknowns (first ++ second) = unknowns first ++ unknowns second := by
  simp [unknowns]

/-- How it is reported if a call finds nothing: a bare name that
neither the type nor the globals have, a global name that these do not
have, or a member that the type of its receiver does not have. -/
def Context.unresolved? (context : Context) : Expr → Option (Kind × Span)
  | .name identifier =>
    if (context.instanceProc? identifier.name).isSome ||
      (context.globalProc? identifier.name).isSome then none
    else some (.unknownProcedure, identifier.span)
  | .globalName identifier =>
    if (context.globalProc? identifier.name).isSome then none
      else some (.unknownGlobalProcedure, identifier.span)
  | .member receiver field _ _ => do
    let type ← context.staticType? receiver
    if context.tree.hasProc type field.name then none else some (.unknownProcedure, field.span)
  | .paren inner _ => context.unresolved? inner
  | .literal _ _ | .self _ | .super _ | .call _ _ _ | .unary _ _ _ | .binary _ _ _ _ => none

theorem Target.unknowns_problem? (context : Context) {target : Target} : (callee : Expr) →
    ofExpr? callee = some target →
    Diagnostic.unknowns (target.problem? context).toList = (context.unresolved? callee).toList
  | .paren inner span, called => by
    rw [Context.unresolved?]
    exact Target.unknowns_problem? context inner ((ofExpr?_paren inner span).symm.trans called)
  | .name identifier, called => by
    cases called
    rw [problem?, Context.unresolved?]
    split <;> rfl
  | .globalName identifier, called => by
    cases called
    rw [problem?, Context.unresolved?]
    split <;> rfl
  | .self _, called => by
    cases called
    rfl
  | .super _, called => by
    cases called
    rw [problem?, Context.unresolved?]
    split <;> rfl
  | .member receiver field _ _, called => by
    cases called
    rw [problem?, Context.unresolved?, memberProblem?]
    cases context.staticType? receiver with
    | none => rfl
    | some type =>
      simp only [Option.bind_eq_bind, Option.bind_some]
      split <;> rfl

theorem Matrix.kind_of_shapeProblem? {arguments : List Argument} {span : Span}
    {problem : Diagnostic} (reported : shapeProblem? arguments span = some problem) :
    problem.kind = .suspiciousCall ∨ problem.kind = .tooManyArguments := by
  cases (shapeProblem?_eq_some_iff arguments span problem).mp reported with
  | operation | five => exact Or.inl rfl
  | many => exact Or.inr rfl

theorem Target.unknowns_callProblems (context : Context) (target : Target)
    (arguments : List Argument) (span : Span) :
    Diagnostic.unknowns (target.callProblems context arguments span) = [] := by
  have known (problem : Diagnostic)
      (reported : problem ∈ target.callProblems context arguments span) :
      problem.kind = .suspiciousCall ∨ problem.kind = .tooManyArguments ∨
        problem.kind = .unimplementedFeature := by
    unfold callProblems at reported
    simp only [List.mem_append] at reported
    obtain (shape | number) | missing := reported
    · split at shape
      · have called := Option.mem_toList.mp shape
        unfold Matrix.callProblem? at called
        split at called
        · exact (Matrix.kind_of_shapeProblem? called).imp_right Or.inl
        · cases called
      · cases shape
    · split at number
      · obtain rfl := List.mem_singleton.mp number
        exact Or.inr (Or.inl rfl)
      · cases number
    · split at missing
      · split at missing
        · obtain rfl := List.mem_singleton.mp missing
          exact Or.inr (Or.inr rfl)
        · cases missing
      · cases missing
  rw [Diagnostic.unknowns, List.map_eq_nil_iff, List.filter_eq_nil_iff]
  intro problem reported
  obtain kind | kind | kind := known problem reported <;> simp [kind, Kind.isUnknown]

theorem CallNode.filterMap_unresolved? (context : Context) (callee : Expr)
    (arguments : List Argument) (span : Span) :
    ([⟨callee, arguments, span⟩] : List CallNode).filterMap
    (fun node => context.unresolved? node.callee) =
      (context.unresolved? callee).toList := by
  cases unresolved : context.unresolved? callee <;> simp [unresolved]

theorem Part.Lowers.unknowns {context : Context} {part : Part} {steps : List Step}
    {problems : List Diagnostic} (lowers : part.Lowers context steps problems) :
    (Diagnostic.unknowns problems).Perm
      ((part.calls context.options.maxArguments).filterMap fun node =>
        context.unresolved? node.callee) := by
  induction lowers with
  | literal | globalName | self | super =>
    rw [Part.calls, Expr.calls]
    exact .nil
  | name identifier =>
    rw [Part.calls, Expr.calls]
    cases context.meaning identifier.name <;> exact .nil
  | member _ _ _ _ ih | paren _ _ ih | foldedUnary _ _ ih | unary _ _ ih =>
    rw [Part.calls, Expr.calls]
    exact ih
  | uncallable uncallable =>
    rw [Part.calls, Expr.calls, uncallable]
    exact .nil
  | @forward callee _ _ _ called span _ receives =>
    rw [Part.calls, Expr.calls, called, Option.isSome_some, if_pos rfl, Argument.callsAll,
      List.nil_append, List.filterMap_append, CallNode.filterMap_unresolved?,
      Diagnostic.unknowns_append, Target.unknowns_callProblems, List.nil_append,
      Diagnostic.unknowns_append, Target.unknowns_problem? context callee called]
    exact receives.append_right _
  | @call callee target arguments _ _ _ _ called _ span _ _ receives passes =>
    rw [Part.calls, Expr.calls, called, Option.isSome_some, if_pos rfl, List.filterMap_append,
      List.filterMap_append, CallNode.filterMap_unresolved?, Diagnostic.unknowns_append,
      target.unknowns_callProblems, List.nil_append, Diagnostic.unknowns_append,
      Diagnostic.unknowns_append, Target.unknowns_problem? context callee called]
    -- A call is reported before its arguments, but comes behind them.
    exact receives.append (List.perm_append_comm.trans (passes.append_right _))
  | foldedBinary _ _ _ first second | binary _ _ _ first second =>
    rw [Part.calls, Expr.calls, Diagnostic.unknowns_append, List.filterMap_append]
    exact first.append second
  | receiverParen _ _ ih | receiverMember _ _ _ _ ih =>
    rw [Part.calls, Expr.calls]
    exact ih
  | @unqualified callee bare =>
    rw [Part.calls]
    cases callee with
    | name | globalName | self | super =>
      rw [Expr.calls]
      exact .nil
    | _ => cases bare
  | @noArguments count arguments none =>
    rcases none with rfl | rfl
    · cases arguments <;> exact .nil
    · cases count <;> exact .nil
  | argument _ _ _ _ first next =>
    rw [Part.calls, Argument.callsAll, Diagnostic.unknowns_append, List.filterMap_append]
    exact first.append next

namespace Diagnostics

theorem report_eq {sink : Diagnostics} {problem : Diagnostic}
    (enabled : sink.levels.severityOf problem.kind ≠ .disabled) :
    sink.report problem =
      { sink with items := sink.items.push { problem with
        severity := sink.levels.severityOf problem.kind } } := by
  unfold report stamped?
  split
  · next none =>
    split at none
    · next disabled => exact absurd disabled enabled
    · cases none
  · next stamped some =>
    split at some
    · cases some
    · cases some
      rfl

theorem unknowns_foldl {sink : Diagnostics}
    (enabled : ∀ kind, sink.levels.severityOf kind ≠ .disabled) (problems : List Diagnostic) :
    Diagnostic.unknowns (problems.foldl report sink).items.toList =
      Diagnostic.unknowns sink.items.toList ++ Diagnostic.unknowns problems := by
  induction problems generalizing sink with
  | nil => simp [Diagnostic.unknowns]
  | cons problem rest ih =>
    rw [List.foldl_cons, report_eq (enabled problem.kind)]
    refine (ih ?_).trans ?_
    · exact enabled
    rw [Array.toList_push, Diagnostic.unknowns_append, List.append_assoc]
    -- A stamp changes the severity only.
    cases known : problem.kind.isUnknown <;> simp [Diagnostic.unknowns, known]

end Diagnostics

theorem Draft.map_valued {tree : ObjectTree} {options : Options} {proc : Proc} {draft after : Draft}
    {statements : List Stmt} (done : statements.foldlM (statement tree options proc) draft =
    .ok after) :
    (Stmt.valued tree options proc draft.scope statements).map (·.2) =
      statements.filterMap Stmt.value? := by
  induction statements generalizing draft with
  | nil => rfl
  | cons stmt rest ih =>
    rw [List.foldlM_cons] at done
    obtain ⟨middle, first, others⟩ := except_bind_ok done
    obtain ⟨opens, -⟩ := statement_ok first
    rw [Stmt.valued, opens, List.map_append, ih others, List.filterMap_cons]
    cases stmt.value? <;> rfl

namespace Body

theorem map_valued {tree : ObjectTree} {options : Options} {body : Body} {compiled : CompiledProc}
    (done : body.compile tree options = .ok compiled) {proc : Proc} {scope : Scope}
    (found : tree.proc body.proc = .ok proc)
    (opened : ({} : Scope).declareAll (body.declared proc) = .ok scope) :
    (body.valued tree options proc scope).map (·.2) = body.statements.filterMap Stmt.value? := by
  obtain ⟨_, statements⟩ := statements_of_compile done found opened
  exact Draft.map_valued statements

theorem makes_calls (tree : ObjectTree) (options : Options) (proc : Proc) (scope : Scope)
    (body : Body) :
    ∃ last, Step.Calls (fun call => call.2.Made call.1) 1 (body.steps tree options proc scope)
      (body.calls tree options proc scope) last := by
  obtain ⟨last, statements⟩ := Stmt.makes_calls tree options proc body.statements scope 1
  have closing : Step.Calls (fun call : Context × CallNode => call.2.Made call.1) last
    (Stmt.closing body.statements) []
      last := by
    unfold Stmt.closing
    split
    · exact .nil last
    · exact .append (.straight last rfl rfl) (.straight last rfl rfl)
  rw [steps, ← List.append_nil (body.calls tree options proc scope)]
  exact ⟨last, statements.append closing⟩

theorem unknowns_problems (tree : ObjectTree) (options : Options) (proc : Proc) (scope : Scope)
    (body : Body) :
    (Diagnostic.unknowns ((body.valued tree options proc scope).flatMap fun value =>
      value.2.problems value.1)).Perm
      ((body.calls tree options proc scope).filterMap fun call =>
        call.1.unresolved? call.2.callee) := by
  rw [Diagnostic.unknowns, List.filter_flatMap, List.map_flatMap, calls, List.filterMap_flatMap]
  refine List.Perm.flatMap_left _ fun value member => ?_
  obtain ⟨inner, here⟩ := Stmt.mem_valued member
  have problems := (value.2.lowers value.1).unknowns
  rw [here] at problems ⊢
  rwa [List.filterMap_map]

/-- Compiled code calls once for each call that is lowered, behind the calls
in its parts, and addresses what the callee denotes. Calls are left out only
with arguments beyond the limit, and where what is called cannot be. A call
is reported as unknown once if it finds nothing, and else not. -/
theorem compile_calls {tree : ObjectTree} {options : Options} {body : Body}
    {compiled : CompiledProc} (done : body.compile tree options = .ok compiled) :
    ∃ proc scope listing, tree.proc body.proc = .ok proc ∧
      ({} : Scope).declareAll (body.declared proc) = .ok scope ∧
      compiled.chunk.decode compiled.pool = .ok listing ∧
      (body.valued tree options proc scope).map (·.2) = body.statements.filterMap Stmt.value? ∧
      List.Forall₂ (fun call found => call.2.Answers call.1 found)
        (body.calls tree options proc scope)
        (Instruction.calls none (listing.map (·.2))) ∧
      (∀ value ∈ body.statements.filterMap Stmt.value?,
        (value.calls options.maxArguments).Sublist value.everyCall ∧
          ∃ omitted : List Expr, (∀ part ∈ omitted, value.Omits options.maxArguments part) ∧
            value.everyCall.Perm
              (value.calls options.maxArguments ++ omitted.flatMap Expr.everyCall)) ∧
      ((∀ kind, options.levels.severityOf kind ≠ .disabled) →
        (Diagnostic.unknowns compiled.diagnostics.items.toList).Perm
          ((body.calls tree options proc scope).filterMap fun call =>
            call.1.unresolved? call.2.callee)) := by
  obtain ⟨proc, scope, listing, found, opened, lowered, decoded⟩ := compile_listing done
  refine ⟨proc, scope, listing, found, opened, decoded, map_valued done found opened, ?_, ?_, ?_⟩
  · obtain ⟨_, calls⟩ := body.makes_calls tree options proc scope
    refine (calls.answers lowered none).imp fun call found answer => ?_
    obtain ⟨push, line, before, made⟩ := answer
    exact ⟨made.push ▸ before, made.refers⟩
  · intro value _
    exact ⟨value.calls_sublist _, value.omitted _, fun _ => Expr.omits_of_mem value,
      value.everyCall_perm _⟩
  · intro enabled
    rw [diagnostics_compile done found opened, Diagnostics.unknowns_foldl enabled]
    exact body.unknowns_problems tree options proc scope

def theatre : ObjectTree :=
  TreeOp.build [.newProc .root "act" {}, .newGlobalProc "cue" {}, .finalize]

def single : Options := (default : Options).withMaxArguments 1

def rehearsal : Body where
  proc := ⟨1⟩
  statements :=
    [.var ⟨"prop", .point 1 1⟩ (some "/")
      (some (.call (.paren (.super (.point 1 5)) (.point 1 4)) [] (.point 1 5))) (.point 1 1),
      .expr (.call (.member (.paren (.name ⟨"prop", .point 2 2⟩) (.point 2 1))
        ⟨"bow", .point 2 7⟩ true (.point 2 1))
        [.mk (some ⟨"to", .point 2 11⟩) (.call (.name ⟨"act", .point 2 14⟩)
            [.ofValue none (.call (.name ⟨"cue", .point 2 18⟩) [] (.point 2 18))] (.point 2 14))
              (.point 2 11),
          .ofValue none (.call (.name ⟨"lost", .point 2 25⟩) [] (.point 2 25))] (.point 2 1)),
      .ret (some (.call (.globalName ⟨"gone", .point 3 8⟩)
        [.ofValue none
          (.call (.call (.name ⟨"cue", .point 3 13⟩) [] (.point 3 13)) [] (.point 3 13))]
          (.point 3 8))) (.point 3 1)]

def rehearsed : List (Option Instruction × Reference) :=
  [(some .pushProcArguments, .superProc), (some (.pushArguments []), .globalProc ⟨2⟩),
    (some (.pushArguments [none]), .instanceProc "act" .src),
    (some (.pushArguments [some "to"]), .instanceProc "bow" .stack),
    (some (.pushArguments [none]), .globalProc .globalInit)]

theorem compile_calls_rehearsal :
    ∃ compiled proc scope listing, rehearsal.compile theatre single = .ok compiled ∧
      (∀ kind, single.levels.severityOf kind ≠ .disabled) ∧
      compiled.chunk.decode compiled.pool = .ok listing ∧
        Instruction.calls none (listing.map (·.2)) = rehearsed ∧
      List.Forall₂ (fun call found => call.2.Answers call.1 found)
        (rehearsal.calls theatre single proc scope) rehearsed ∧
      Diagnostic.unknowns compiled.diagnostics.items.toList =
        [(.unknownProcedure, .point 2 7), (.unknownGlobalProcedure, .point 3 8)] ∧
      (Diagnostic.unknowns compiled.diagnostics.items.toList).Perm
        ((rehearsal.calls theatre single proc scope).filterMap fun call =>
          call.1.unresolved? call.2.callee) := by
  have enabled (kind : Kind) : single.levels.severityOf kind ≠ .disabled := by cases kind <;> decide
  have code : (rehearsal.compile theatre single).toOption.map (fun compiled =>
      ((compiled.chunk.decode compiled.pool).toOption.map fun listing =>
        Instruction.calls none (listing.map (·.2)),
        Diagnostic.unknowns compiled.diagnostics.items.toList)) =
      some (some rehearsed,
        [(.unknownProcedure, .point 2 7), (.unknownGlobalProcedure, .point 3 8)]) := by
    decide +kernel
  cases done : rehearsal.compile theatre single with
  | error fault =>
    rw [done] at code
    cases code
  | ok compiled =>
    obtain ⟨proc, scope, listing, -, -, decoded, -, answers, -, unknowns⟩ := compile_calls done
    rw [done] at code
    obtain ⟨same, reported⟩ := Prod.mk.inj (Option.some.inj code)
    rw [decoded] at same
    have calls : Instruction.calls none (listing.map (·.2)) = rehearsed := Option.some.inj same
    exact ⟨compiled, proc, scope, listing, rfl, enabled, decoded, calls, calls ▸ answers, reported,
      unknowns enabled⟩

end Body

end ProcLowering
