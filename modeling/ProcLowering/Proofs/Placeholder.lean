import ProcLowering.Proofs.Agreement
import ProcLowering.Proofs.Valued

set_option autoImplicit false

namespace ProcLowering

def Instruction.isNullOrArguments : Instruction → Bool
  | .pushNull | .pushArguments _ | .pushProcArguments => true
  | .pushConstant _ | .pop | .getLocal _ | .setLocal _ | .pushSelf | .pushSrc | .dereferenceField _
  | .operator _ | .call _
  | .jumpIfNullDereference _ | .ret => false

theorem Instruction.inner_isNullOrArguments : Inner isNullOrArguments :=
  ⟨fun _ => rfl, fun _ => rfl, rfl, rfl, rfl, fun _ => rfl⟩

def Context.hasValue (context : Context) (name : String) : Bool :=
  (context.scope.find? name).isSome || name == "src" ||
    (context.proc.owner.bind context.tree.type?).any (·.vars.contains name)

def Expr.meant? : Expr → Option Instruction
  | .literal .null _ => some .pushNull
  | .call callee arguments _ =>
    (Target.ofExpr? callee).map fun target =>
      if target.isSuper && arguments.isEmpty then .pushProcArguments
      else .pushArguments (arguments.map fun argument => argument.name?.map (·.name))
  | _ => none

def Expr.pushed (limit : Nat) : Expr → Instruction
  | .call callee arguments _ =>
    match Target.ofExpr? callee with
    | none => .pushNull
    | some target =>
      if target.isSuper && arguments.isEmpty then .pushProcArguments
      else .pushArguments (Argument.names limit arguments)
  | _ => .pushNull

namespace Expr

mutual

/-- The parts of an expression at which null or arguments are pushed,
in the order in which that happens. -/
def sites (context : Context) : Expr → List Expr
  | .literal value span => if value = .null then [.literal value span] else []
  | .name identifier => if context.hasValue identifier.name then [] else [.name identifier]
  | .globalName identifier => [.globalName identifier]
  | .self _ => []
  | .super span => [.super span]
  | .member receiver _ _ _ => receiver.sites context
  | .call callee arguments span =>
    match Target.ofExpr? callee with
    | none => [.call callee arguments span]
    | some _ =>
      receiverSites context callee ++
        (argumentSites context context.options.maxArguments arguments ++
          [.call callee arguments span])
  | .paren inner _ => inner.sites context
  | .unary op operand span =>
    if (Expr.unary op operand span).fold?.isSome then [] else operand.sites context
  | .binary op left right span =>
    if (Expr.binary op left right span).fold?.isSome then [] else left.sites context ++
      right.sites context

def receiverSites (context : Context) : Expr → List Expr
  | .paren inner _ => receiverSites context inner
  | .member receiver _ _ _ => receiver.sites context
  | _ => []

def argumentSites (context : Context) : Nat → List Argument → List Expr
  | _, [] => []
  | 0, _ => []
  | limit + 1, .mk _ value _ :: rest => value.sites context ++ argumentSites context limit rest

end

end Expr

def Body.sites (tree : ObjectTree) (options : Options) (proc : Proc) (scope : Scope) (body : Body) :
    List Expr :=
  (body.valued tree options proc scope).flatMap fun value => value.2.sites value.1

theorem Context.Settled.hasField_eq {context : Context} (settled : context.Settled)
    (name : String) :
    context.hasField name =
      .ok ((context.proc.owner.bind context.tree.type?).any (·.vars.contains name)) := by
  obtain ⟨has, found⟩ := settled.field name
  rw [found]
  unfold hasField at found
  cases owns : context.proc.owner with
  | none =>
    rw [owns] at found
    cases found
    rfl
  | some owner =>
    rw [owns] at found
    dsimp only at found
    unfold ObjectTree.type at found
    rw [Option.bind_some]
    cases there : context.tree.type? owner with
    | none =>
      rw [there] at found
      cases found
    | some record =>
      rw [there] at found
      cases found
      rfl

theorem Context.Settled.meaning_cases {context : Context} (settled : context.Settled)
    (name : String) :
    (context.hasValue name = true ∧
        ((∃ slot, context.meaning name = .localVar slot) ∨ context.meaning name = .src ∨
          context.meaning name = .field)) ∨
      context.hasValue name = false ∧
        (context.meaning name = .proc ∨ context.meaning name = .unknown) := by
  unfold Context.meaning Context.hasValue
  rw [settled.hasField_eq name]
  cases context.scope.find? name with
  | some found => exact Or.inl ⟨rfl, Or.inl ⟨found.slot, rfl⟩⟩
  | none =>
    by_cases own : name = "src"
    · exact Or.inl (by simp [own])
    · cases (context.proc.owner.bind context.tree.type?).any (·.vars.contains name) with
      | true => exact Or.inl (by simp [own])
      | false =>
        refine Or.inr ⟨by simp [own], ?_⟩
        simp only [own, if_false]
        split
        · exact Or.inl rfl
        · exact Or.inr rfl

theorem Step.filter_value {value : Value} (computed : value ≠ .null) :
    (instructionsAll [value.step]).filter Instruction.isNullOrArguments = [] := by
  cases value with
  | null => exact absurd rfl computed
  | number n => rfl
  | string s => rfl

theorem UnaryOp.fold?_ne_null {op : UnaryOp} {operand result : Value}
    (folds : op.fold? operand = some result) :
    result ≠ .null := by
  cases op with
  | not => cases folds; simp
  | negate | bitNot =>
    obtain ⟨n, -, rfl⟩ := Option.map_eq_some_iff.mp folds
    simp

theorem BinaryOp.fold?_ne_null {op : BinaryOp} {left right result : Value}
    (folds : op.fold? left right = some result) :
    result ≠ .null := by
  unfold fold? at folds
  split at folds
  · cases folds; simp
  · obtain ⟨n, -, rfl⟩ := Option.map_eq_some_iff.mp folds
    simp
  · cases folds

theorem Target.hard_of_length_lt {context : Context} (target : Target) {arguments : List Argument}
    (many : context.options.maxArguments < arguments.length) (span : Span) :
    (target.callProblems context arguments span).any (·.kind.isHard) = true := by
  have number : Kind.isHard .tooManyArguments = true := rfl
  simp [Target.callProblems, many, number, Diagnostic.ofKind]

namespace Expr

theorem fold?_unary_ne_null {op : UnaryOp} {operand : Expr} {span : Span} {value : Value}
    (folds : (Expr.unary op operand span).fold? = some value) : value ≠ .null := by
  rw [fold?] at folds
  obtain ⟨_, -, folds⟩ := Option.bind_eq_some_iff.mp folds
  exact UnaryOp.fold?_ne_null folds

theorem fold?_binary_ne_null {op : BinaryOp} {left right : Expr} {span : Span} {value : Value}
    (folds : (Expr.binary op left right span).fold? = some value) : value ≠ .null := by
  rw [fold?] at folds
  obtain ⟨_, -, folds⟩ := Option.bind_eq_some_iff.mp folds
  obtain ⟨_, -, folds⟩ := Option.bind_eq_some_iff.mp folds
  exact BinaryOp.fold?_ne_null folds

theorem pushed_of_length_le {limit : Nat} {callee : Expr} {arguments : List Argument} {span : Span}
    {target : Target} (called : Target.ofExpr? callee = some target)
    (few : arguments.length ≤ limit) :
    (Expr.call callee arguments span).meant? =
      some ((Expr.call callee arguments span).pushed limit) := by
  simp [meant?, pushed, called, Argument.names, List.take_of_length_le few]

end Expr

namespace Part

def sites (context : Context) : Part → List Expr
  | .value expr => expr.sites context
  | .receiver callee => Expr.receiverSites context callee
  | .passed count arguments => Expr.argumentSites context count arguments

theorem Lowers.filter {context : Context} (settled : context.Settled) {part : Part}
    {steps : List Step} {problems : List Diagnostic} (lowers : part.Lowers context steps problems) :
    (Step.instructionsAll steps).filter Instruction.isNullOrArguments =
      (part.sites context).map (Expr.pushed context.options.maxArguments) := by
  induction lowers with
  | literal value =>
    rw [sites, Expr.sites]
    split
    · next null =>
      subst null
      rfl
    · next computed => exact Step.filter_value computed
  | name identifier =>
    rw [sites, Expr.sites]
    obtain ⟨has, ⟨slot, means⟩ | means | means⟩ | ⟨has, means | means⟩ :=
      settled.meaning_cases identifier.name
    all_goals
      rw [has, means]
      rfl
  | globalName | self | super =>
    rw [sites, Expr.sites]
    rfl
  | member _ _ _ _ ih =>
    rw [Step.instructionsAll_append, List.filter_append, ih, Step.instructionsAll_guardedIf, sites,
      sites, Expr.sites]
    exact List.append_nil _
  | uncallable uncallable =>
    rw [sites, Expr.sites, uncallable]
    simp [Expr.pushed, uncallable, Step.instructionsAll, Step.instructions, Step.instruction?,
      Instruction.isNullOrArguments]
  | @forward callee _ _ _ called span _ receives =>
    have one : (Expr.call callee [] span).pushed context.options.maxArguments =
      .pushProcArguments := by
      simp [Expr.pushed, called, Target.isSuper]
    rw [Step.instructionsAll_append, List.filter_append, receives, sites, sites, Expr.sites, called,
      List.map_append, Expr.argumentSites, List.nil_append, List.map_singleton, one]
    rfl
  | @call callee target arguments _ given _ _ called gathered span _ _ receives passes =>
    have one : (Expr.call callee arguments span).pushed context.options.maxArguments =
        .pushArguments (Argument.names context.options.maxArguments arguments) := by
      simp [Expr.pushed, called, gathered]
    have rest : (Step.instructionsAll (given ++
        [.arguments (Argument.names context.options.maxArguments arguments),
        .call (target.reference context)])).filter Instruction.isNullOrArguments =
          (Expr.argumentSites context context.options.maxArguments arguments ++
            [Expr.call callee arguments span]).map
            (Expr.pushed context.options.maxArguments) := by
      rw [Step.instructionsAll_append, List.filter_append, passes, List.map_append,
        List.map_singleton, one]
      rfl
    rw [settled.lookupSteps, List.nil_append, Step.instructionsAll_append,
      List.filter_append, receives, Step.instructionsAll, Step.instructionsAll_guardedIf, sites,
      sites, Expr.sites, called, List.map_append]
    exact congrArg _ rest
  | paren _ _ ih => rw [ih, sites, sites, Expr.sites]
  | foldedUnary folds => 
    rw [sites, Expr.sites, folds]
    exact Step.filter_value (Expr.fold?_unary_ne_null folds)
  | foldedBinary folds => 
    rw [sites, Expr.sites, folds]
    exact Step.filter_value (Expr.fold?_binary_ne_null folds)
  | unary unfolded _ ih =>
    rw [Step.instructionsAll_append, List.filter_append, ih, sites, sites, Expr.sites, unfolded]
    exact List.append_nil _
  | binary unfolded _ _ first second =>
    rw [Step.instructionsAll_append, Step.instructionsAll_append, List.filter_append,
      List.filter_append, first, second, sites, sites, sites, Expr.sites, unfolded,
      Option.isSome_none, if_neg (by simp), List.map_append]
    exact congrArg _ (List.append_nil _)
  | receiverParen _ _ ih | receiverMember _ _ _ _ ih => rw [ih, sites, sites, Expr.receiverSites]
  | @unqualified callee bare => cases callee <;> first | rfl | cases bare
  | @noArguments count arguments none =>
    rcases none with rfl | rfl
    · cases arguments <;> rfl
    · cases count <;> rfl
  | argument _ _ _ _ first next =>
    rw [Step.instructionsAll_append, List.filter_append, first, next, sites, sites, sites,
      Expr.argumentSites, List.map_append]

/-- Whatever is pushed in the place of something else is reported as an error. -/
theorem Lowers.hard_of_site {context : Context} (settled : context.Settled) {part : Part}
    {steps : List Step} {problems : List Diagnostic} (lowers : part.Lowers context steps problems)
    {site : Expr} (replaced : site.meant? ≠ some (site.pushed context.options.maxArguments))
    (here : site ∈ part.sites context) :
    problems.any (·.kind.isHard) = true := by
  induction lowers with
  | literal value =>
    rw [sites, Expr.sites] at here
    split at here
    · next null =>
      subst null
      obtain rfl : site = _ := List.mem_singleton.mp here
      exact absurd rfl replaced
    · cases here
  | name identifier =>
    rw [sites, Expr.sites] at here
    obtain ⟨has, -⟩ | ⟨-, means | means⟩ := settled.meaning_cases identifier.name
    · rw [has] at here
      cases here
    · rw [means]
      rfl
    · rw [means]
      rfl
  | self =>
    rw [sites, Expr.sites] at here
    cases here
  | globalName | super | uncallable => rfl
  | member _ _ _ _ ih | paren _ _ ih =>
    rw [sites, Expr.sites] at here
    exact ih here
  | @forward callee _ _ _ called span _ receives =>
    rw [sites, Expr.sites, called] at here
    simp only [List.any_append, Bool.or_eq_true, List.mem_append, List.mem_singleton,
      Expr.argumentSites] at here ⊢
    rcases here with received | none | rfl
    · exact Or.inr (Or.inl (receives received))
    · cases none
    · exact absurd (Expr.pushed_of_length_le called (Nat.zero_le _)) replaced
  | @call _ target arguments _ _ _ _ called _ span _ _ receives passes =>
    rw [sites, Expr.sites, called] at here
    simp only [List.any_append, Bool.or_eq_true, List.mem_append, List.mem_singleton] at here ⊢
    rcases here with received | passed | rfl
    · exact Or.inr (Or.inl (receives received))
    · exact Or.inr (Or.inr (Or.inr (passes passed)))
    · -- The call itself is replaced only if its arguments are cut off.
      have many : context.options.maxArguments < arguments.length := by
        by_contra few
        exact replaced (Expr.pushed_of_length_le called (Nat.le_of_not_lt few))
      exact Or.inl (Target.hard_of_length_lt target many span)
  | foldedUnary folds | foldedBinary folds =>
    rw [sites, Expr.sites, folds] at here
    cases here
  | unary unfolded _ ih =>
    rw [sites, Expr.sites, unfolded] at here
    exact ih here
  | binary unfolded _ _ first second =>
    rw [sites, Expr.sites, unfolded] at here
    rw [List.any_append, Bool.or_eq_true]
    exact (List.mem_append.mp here).imp first second
  | receiverParen _ _ ih | receiverMember _ _ _ _ ih =>
    rw [sites, Expr.receiverSites] at here
    exact ih here
  | @unqualified callee bare => cases callee <;> first | cases here | cases bare
  | @noArguments count arguments none =>
    rcases none with rfl | rfl
    · cases arguments <;> cases here
    · cases count <;> cases here
  | argument _ _ _ _ first next =>
    rw [sites, Expr.argumentSites] at here
    rw [List.any_append, Bool.or_eq_true]
    exact (List.mem_append.mp here).imp first next

end Part

namespace Diagnostics

theorem hasErrors_report_hard (sink : Diagnostics) {diagnostic : Diagnostic}
    (hard : diagnostic.kind.isHard = true) :
    (sink.report diagnostic).hasErrors = true := by
  have stamp := sink.levels.hard_error diagnostic.kind hard
  simp [report, stamped?, stamp, hasErrors, Diagnostic.isError]

theorem hasErrors_report {sink : Diagnostics} (errors : sink.hasErrors = true)
    (diagnostic : Diagnostic) :
    (sink.report diagnostic).hasErrors = true := by
  unfold report
  split
  · exact errors
  · rw [hasErrors, Array.toList_push, List.any_append, Bool.or_eq_true]
    exact Or.inl errors

theorem hasErrors_foldl {problems : List Diagnostic} {sink : Diagnostics}
    (bad : sink.hasErrors = true ∨ problems.any (·.kind.isHard) = true) :
    (problems.foldl report sink).hasErrors = true := by
  induction problems generalizing sink with
  | nil => exact bad.resolve_right (by simp)
  | cons first rest ih =>
    rw [List.any_cons, Bool.or_eq_true] at bad
    refine ih ?_
    rcases bad with errors | hard | later
    · exact Or.inl (hasErrors_report errors first)
    · exact Or.inl (sink.hasErrors_report_hard hard)
    · exact Or.inr later

theorem hasErrors_merge (sink other : Diagnostics) :
    (sink.merge other).hasErrors = (sink.hasErrors || other.hasErrors) := by
  rw [hasErrors, merge, List.toList_toArray, (List.mergeSort_perm _ _).any_eq, Array.toList_append,
    List.any_append]
  rfl

end Diagnostics

namespace CompiledUnit

variable {tree : ObjectTree} {options : Options} {bodies : List Body} {start unit : CompiledUnit}

theorem compile_from
    (done : bodies.foldlM (fun unit body => do return add unit (← body.compile tree options))
      start = .ok unit) :
    ∃ procs, unit.procs.toList = start.procs.toList ++ procs ∧
      (start.diagnostics.hasErrors = true → unit.diagnostics.hasErrors = true) ∧
        List.Forall₂ (fun body compiled => body.compile tree options = .ok compiled ∧
          (compiled.diagnostics.hasErrors = true → unit.diagnostics.hasErrors = true)) bodies
            procs := by
  induction bodies generalizing start with
  | nil =>
    cases done
    exact ⟨[], by simp, id, .nil⟩
  | cons body rest ih =>
    rw [List.foldlM_cons] at done
    obtain ⟨middle, first, others⟩ := except_bind_ok done
    obtain ⟨compiled, compiles, added⟩ := except_bind_ok first
    cases added
    obtain ⟨procs, listed, kept, pairs⟩ := ih others
    have merged := start.diagnostics.hasErrors_merge compiled.diagnostics
    refine ⟨compiled :: procs,
      by simp [listed, add], fun errors => kept ?_, .cons ⟨compiles, fun errors => kept ?_⟩ pairs⟩
    · rw [add, merged, errors, Bool.true_or]
    · rw [add, merged, errors, Bool.or_true]

end CompiledUnit

namespace Body

variable {tree : ObjectTree} {options : Options} {body : Body} {proc : Proc} {scope : Scope}

theorem filter_valued (closed : tree.Closed) (found : tree.proc body.proc = .ok proc) :
    ((body.valued tree options proc scope).flatMap fun value =>
        (Step.instructionsAll (value.2.steps value.1)).filter Instruction.isNullOrArguments) =
      (body.sites tree options proc scope).map (Expr.pushed options.maxArguments) := by
  rw [sites, List.map_flatMap]
  refine List.flatMap_congr fun value member => ?_
  obtain ⟨inner, context⟩ := Stmt.mem_valued member
  have settled := closed.settled found options inner
  rw [context]
  exact (value.2.lowers _).filter settled

theorem hasErrors_of_site (closed : tree.Closed) (found : tree.proc body.proc = .ok proc)
    (opened : ({} : Scope).declareAll (body.declared proc) = .ok scope) {compiled : CompiledProc}
    (done : body.compile tree options = .ok compiled) {site : Expr}
    (member : site ∈ body.sites tree options proc scope)
    (replaced : site.meant? ≠ some (site.pushed options.maxArguments)) :
      compiled.diagnostics.hasErrors = true := by
  rw [diagnostics_compile done found opened]
  refine Diagnostics.hasErrors_foldl (Or.inr ?_)
  obtain ⟨⟨context, expr⟩, listed, inside⟩ := List.mem_flatMap.mp member
  obtain ⟨inner, rfl⟩ := Stmt.mem_valued listed
  rw [List.any_flatMap, List.any_eq_true]
  exact ⟨_, listed,
    (expr.lowers _).hard_of_site (closed.settled found options inner) replaced inside⟩

end Body

namespace CompiledUnit

/-- The code of a body pushes null and arguments at the sites of the body. If something else was
written at one of them, the proc and the unit have errors; so in a unit without errors, what is
pushed is what was written. -/
def Genuine (unit : CompiledUnit) (tree : ObjectTree) (options : Options) (body : Body)
    (compiled : CompiledProc) : Prop :=
  ∃ proc scope listing, tree.proc body.proc = .ok proc ∧
    ({} : Scope).declareAll (body.declared proc) = .ok scope ∧
    compiled.chunk.decode compiled.pool = .ok listing ∧
    (listing.map (·.2)).filter Instruction.isNullOrArguments =
      (body.sites tree options proc scope).map (Expr.pushed options.maxArguments) ∧
    ((∃ site ∈ body.sites tree options proc scope, site.meant? ≠
      some (site.pushed options.maxArguments)) →
      compiled.diagnostics.hasErrors = true ∧ unit.diagnostics.hasErrors = true ∧
        unit.isSuccess = false) ∧
    (unit.isSuccess = true →
      ((listing.map (·.2)).filter Instruction.isNullOrArguments).map some =
        (body.sites tree options proc scope).map Expr.meant?)

/-- No options hide that null or fewer arguments stand for what was written. -/
theorem compile_genuine {tree : ObjectTree} {options : Options} {bodies : List Body}
    {unit : CompiledUnit} (reachable : tree.Reachable)
    (done : compile tree options bodies = .ok unit) :
    List.Forall₂ (unit.Genuine tree options) bodies unit.procs.toList := by
  obtain ⟨procs, listed, -, pairs⟩ := compile_from done
  have whole : unit.procs.toList = procs := listed
  rw [whole]
  refine pairs.imp ?_
  rintro body compiled ⟨compiles, merged⟩
  obtain ⟨proc, scope, listing, found, opened, decoded, picked⟩ :=
    Body.filter_compile Instruction.inner_isNullOrArguments compiles
  rw [Body.filter_valued reachable.closed found] at picked
  have errors :
      (∃ site ∈ body.sites tree options proc scope, site.meant? ≠
      some (site.pushed options.maxArguments)) →
      compiled.diagnostics.hasErrors = true ∧ unit.diagnostics.hasErrors = true ∧
        unit.isSuccess = false := by
    rintro ⟨site, member, replaced⟩
    have own := Body.hasErrors_of_site reachable.closed found opened compiles member replaced
    exact ⟨own, merged own, by rw [isSuccess, merged own]; rfl⟩
  refine ⟨proc, scope, listing, found, opened, decoded, picked, errors, fun success => ?_⟩
  rw [picked, List.map_map]
  refine List.map_congr_left fun site member => ?_
  by_contra replaced
  have failed := (errors ⟨site, member, Ne.symm replaced⟩).2.2
  rw [success] at failed
  cases failed

def workshop : ObjectTree :=
  TreeOp.build [.newProc .root "craft" {}, .newProc .root "mend" {},
    .newGlobalProc "join" {}, .finalize]

def craft : Body where
  proc := ⟨1⟩
  statements := [.expr (.call (.name ⟨"join", {}⟩)
    [.ofValue none (.literal .null {}), .ofValue (some ⟨"with", {}⟩) (.literal (.string "glue") {})]
      {})]

def mend : Body where
  proc := ⟨2⟩
  statements := [.ret (some (.call (.name ⟨"join", {}⟩)
    [.ofValue none (.name ⟨"glue", {}⟩), .ofValue none (.super {}),
      .ofValue none (.literal .null {})] {})) {}]

def lenient : Options := Body.silence.withMaxArguments 2

theorem compile_genuine_workshop : workshop.Reachable ∧
    ∃ unit, compile workshop lenient [craft, mend] = .ok unit ∧
      unit.procs.toList.map (·.diagnostics.hasErrors) = [false, true] ∧
        List.Forall₂ (unit.Genuine workshop lenient) [craft, mend] unit.procs.toList := by
  have reachable : workshop.Reachable := TreeOp.reachable_build _
  have reports : (compile workshop lenient [craft, mend]).toOption.map
      (fun unit => unit.procs.toList.map (·.diagnostics.hasErrors)) = some [false, true] := by
        decide +kernel
  cases done : compile workshop lenient [craft, mend] with
  | error fault =>
    rw [done] at reports
    cases reports
  | ok unit =>
    rw [done] at reports
    exact ⟨reachable, unit, rfl, Option.some.inj reports, compile_genuine reachable done⟩

end CompiledUnit

end ProcLowering
