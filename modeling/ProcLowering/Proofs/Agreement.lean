import ProcLowering.Proofs.Faultless
import ProcLowering.Proofs.Outcome

set_option autoImplicit false

namespace ProcLowering

mutual

def Expr.mentions : Expr → List String
  | .literal _ _ | .self _ | .super _ => []
  | .name identifier | .globalName identifier => [identifier.name]
  | .member receiver _ _ _ => receiver.mentions
  | .call callee arguments _ => callee.mentions ++ Argument.mentionsAll arguments
  | .unary _ operand _ => operand.mentions
  | .binary _ left right _ => left.mentions ++ right.mentions
  | .paren inner _ => inner.mentions

def Argument.mentionsAll : List Argument → List String
  | [] => []
  | .mk _ value _ :: rest => value.mentions ++ Argument.mentionsAll rest

end

def Stmt.mentions : Stmt → List String
  | .expr value => value.mentions
  | .var _ _ value _ | .ret value _ => (value.map Expr.mentions).getD []

def Body.mentions (body : Body) : List String := body.statements.flatMap Stmt.mentions

def Target.mentions : Target → List String
  | .name identifier | .globalName identifier => [identifier.name]
  | .self _ | .super _ | .member _ _ _ _ => []

theorem Expr.mentions_stripped (expr : Expr) : expr.stripped.mentions = expr.mentions := by
  induction expr using Expr.stripped.induct with
  | case1 inner span ih => rw [Expr.stripped, ih, Expr.mentions]
  | case2 expr bare => rw [Expr.stripped]; exact bare

theorem Target.mentions_subset {callee : Expr} {target : Target}
    (called : ofExpr? callee = some target) :
    target.mentions ⊆ callee.mentions := by
  rw [← callee.mentions_stripped]
  unfold ofExpr? at called
  split at called <;> cases called <;> simp_all [Target.mentions, Expr.mentions]

/-- Two contexts in which the given names, and all members, mean the same to the code. -/
structure Context.Agree (names : List String) (a b : Context) : Prop where
  limit : a.options.maxArguments = b.options.maxArguments
  scope : a.scope = b.scope
  procs : ∀ name, a.instanceProc? name = b.instanceProc? name
  fields : ∀ name ∈ names, a.hasField name = b.hasField name
  globals : ∀ name ∈ names, a.globalProc? name = b.globalProc? name
  lookups : ∀ target : Target, target.lookupSteps a = target.lookupSteps b

namespace Context.Agree

variable {names : List String} {a b : Context}

theorem meaning (agree : Agree names a b) {name : String} (listed : name ∈ names) :
    a.meaning name = b.meaning name := by
  unfold Context.meaning
  rw [agree.scope, agree.fields name listed, agree.procs, agree.globals name listed]

theorem reference (agree : Agree names a b) {target : Target} (listed : target.mentions ⊆ names) :
    target.reference a = target.reference b := by
  cases target with
  | name identifier =>
    rw [Target.reference, Target.reference, agree.procs,
      agree.globals _ (listed (by simp [Target.mentions]))]
  | globalName identifier =>
    rw [Target.reference, Target.reference, agree.globals _ (listed (by simp [Target.mentions]))]
  | self | super | member => rfl

end Context.Agree

structure Context.Alike (names : List String) (a b : Context) :
    Prop extends Context.Agree names a b where
  targets : ∀ target : Target, target.mentions ⊆ names → target.problem? a = target.problem? b
  calls : ∀ target : Target, target.mentions ⊆ names → ∀ arguments span,
    target.callProblems a arguments span = target.callProblems b arguments span

def Part.mentions : Part → List String
  | .value expr | .receiver expr => expr.mentions
  | .passed _ arguments => Argument.mentionsAll arguments

theorem Part.Lowers.congr {names : List String} {a b : Context} (agree : a.Agree names b)
    {part : Part} {steps : List Step} {problems : List Diagnostic}
    (lowers : part.Lowers a steps problems) (listed : part.mentions ⊆ names) :
    ∃ others, part.Lowers b steps others ∧ (a.Alike names b → others = problems) := by
  induction lowers with
  | literal value span => exact ⟨_, .literal value span, fun _ => rfl⟩
  | name identifier =>
    rw [agree.meaning (listed (by simp [mentions, Expr.mentions]))]
    exact ⟨_, .name identifier, fun _ => rfl⟩
  | globalName identifier => exact ⟨_, .globalName identifier, fun _ => rfl⟩
  | self span => exact ⟨_, .self span, fun _ => rfl⟩
  | super span => exact ⟨_, .super span, fun _ => rfl⟩
  | member field safe span _ ih =>
    obtain ⟨others, inside, same⟩ := ih listed
    exact ⟨others, .member field safe span inside, same⟩
  | uncallable uncallable arguments span =>
    exact ⟨_, .uncallable uncallable arguments span, fun _ => rfl⟩
  | @forward callee place _ _ called span _ receives =>
    have known : (Target.super place).mentions ⊆ names := List.nil_subset names
    obtain ⟨others, received, same⟩ := receives (List.append_subset.mp listed).1
    refine ⟨_, .forward called span received, fun alike => ?_⟩
    rw [alike.calls _ known, alike.targets _ known, same alike]
  | @call callee target arguments _ _ _ _ called gathered span _ _ receives passes =>
    obtain ⟨outer, inner⟩ := List.append_subset.mp listed
    have known : target.mentions ⊆ names := List.Subset.trans (Target.mentions_subset called) outer
    obtain ⟨problems, received, same⟩ := receives outer
    obtain ⟨others, passed, same'⟩ := passes inner
    rw [agree.limit] at passed
    rw [agree.lookups, agree.limit, agree.reference known]
    refine ⟨_, .call called gathered span received passed, fun alike => ?_⟩
    rw [alike.calls target known, alike.targets target known, same alike, same' alike]
  | paren span _ ih =>
    obtain ⟨others, inside, same⟩ := ih listed
    exact ⟨others, .paren span inside, same⟩
  | foldedUnary folds _ ih =>
    obtain ⟨others, inside, same⟩ := ih listed
    exact ⟨others, .foldedUnary folds inside, same⟩
  | unary unfolded _ ih =>
    obtain ⟨others, inside, same⟩ := ih listed
    exact ⟨others, .unary unfolded inside, same⟩
  | foldedBinary folds _ _ first second =>
    obtain ⟨left, right⟩ := List.append_subset.mp listed
    obtain ⟨problems, one, same⟩ := first left
    obtain ⟨others, two, same'⟩ := second right
    exact ⟨_, .foldedBinary folds one two, fun alike => by rw [same alike, same' alike]⟩
  | binary unfolded _ _ first second =>
    obtain ⟨left, right⟩ := List.append_subset.mp listed
    obtain ⟨problems, one, same⟩ := first left
    obtain ⟨others, two, same'⟩ := second right
    exact ⟨_, .binary unfolded one two, fun alike => by rw [same alike, same' alike]⟩
  | receiverParen span _ ih =>
    obtain ⟨others, inside, same⟩ := ih listed
    exact ⟨others, .receiverParen span inside, same⟩
  | receiverMember field safe span _ ih =>
    obtain ⟨others, inside, same⟩ := ih listed
    exact ⟨others, .receiverMember field safe span inside, same⟩
  | unqualified bare => exact ⟨_, .unqualified bare, fun _ => rfl⟩
  | noArguments none => exact ⟨_, .noArguments none, fun _ => rfl⟩
  | argument name span _ _ first next =>
    obtain ⟨here, rest⟩ := List.append_subset.mp listed
    obtain ⟨problems, one, same⟩ := first here
    obtain ⟨others, two, same'⟩ := next rest
    exact ⟨_, .argument name span one two, fun alike => by rw [same alike, same' alike]⟩

theorem Expr.steps_congr {names : List String} {a b : Context} (agree : a.Agree names b)
    {expr : Expr} (listed : expr.mentions ⊆ names) : expr.steps a = expr.steps b := by
  obtain ⟨_, lowers, -⟩ := (expr.lowers a).congr agree listed
  exact lowers.eq.1.symm

theorem Expr.problems_congr {names : List String} {a b : Context} (alike : a.Alike names b)
    {expr : Expr} (listed : expr.mentions ⊆ names) : expr.problems a = expr.problems b := by
  obtain ⟨_, lowers, same⟩ := (expr.lowers a).congr alike.toAgree listed
  exact (same alike).symm.trans lowers.eq.2.symm

section

variable {names : List String} {tree later : ObjectTree} {options other : Options}
    {proc proc' : Proc}

theorem Stmt.stepsAll_congr
    (agree : ∀ scope, Context.Agree names ⟨tree, options, proc, scope⟩ ⟨later, other, proc', scope⟩)
    (paths : tree.find? = later.find?) (statements : List Stmt) (scope : Scope)
    (listed : statements.flatMap mentions ⊆ names) :
    stepsAll tree options proc scope statements = stepsAll later other proc' scope statements := by
  induction statements generalizing scope with
  | nil => rfl
  | cons stmt rest ih =>
    rw [List.flatMap_cons, List.append_subset] at listed
    obtain ⟨here, more⟩ := listed
    cases stmt with
    | expr value => rw [stepsAll, stepsAll, Expr.steps_congr (agree scope) here, ih scope more]
    | ret value span =>
      cases value with
      | none => rw [stepsAll, stepsAll, ih scope more]
      | some value => rw [stepsAll, stepsAll, Expr.steps_congr (agree scope) here, ih scope more]
    | var name typePath init span =>
      have value : (init.map fun value => value.steps ⟨tree, options, proc, scope⟩).getD [] =
          (init.map fun value => value.steps ⟨later, other, proc', scope⟩).getD [] := by
        cases init with
        | none => rfl
        | some value => exact Expr.steps_congr (agree scope) here
      rw [stepsAll, stepsAll, value, paths]
      cases scope.declare name.name (typePath.bind later.find?) with
      | error fault => rfl
      | ok both => simp only [ih both.2 more]

end

def Body.emitted (tree : ObjectTree) (options : Options) (body : Body) :
    Except Fault (Chunk × Pool) := do
  let proc ← tree.proc body.proc
  let scope ← ({} : Scope).declareAll (body.declared proc)
  match (Step.emitAll (body.steps tree options proc scope)).run {} with
  | .ok _ emitter => emitter.finish
  | .error fault _ => .error fault

def CompiledProc.code (compiled : CompiledProc) : Chunk × Pool := (compiled.chunk, compiled.pool)

theorem Body.map_code_compile (tree : ObjectTree) (options : Options) (body : Body) :
    (body.compile tree options).map CompiledProc.code = body.emitted tree options := by
  unfold emitted
  have compiles := body.compiles tree options
  generalize body.compile tree options = result at compiles
  cases compiles with
  | unknown missing => simp [Bind.bind, Except.bind, Except.map, missing]
  | crowded found full => simp [Bind.bind, Except.bind, Except.map, found, full]
  | stopped found opened ran => simp [Bind.bind, Except.bind, Except.map, found, opened, ran]
  | @finished _ _ emitter _ found opened ran =>
    simp only [Bind.bind, Except.bind, found, opened, ran]
    cases emitter.finish <;> rfl

theorem ObjectTree.Closed.agree {tree : ObjectTree} (closed : tree.Closed) {id : ProcId}
    {proc : Proc} (found : tree.proc id = .ok proc) {a b : Options}
    (limit : a.maxArguments = b.maxArguments) (names : List String) (scope : Scope) :
    Context.Agree names ⟨tree, a, proc, scope⟩ ⟨tree, b, proc, scope⟩ where
  limit := limit
  scope := rfl
  procs _ := rfl
  fields _ _ := rfl
  globals _ _ := rfl
  lookups target := by
    rw [(closed.settled found a scope).lookupSteps, (closed.settled found b scope).lookupSteps]

namespace Body

/-- Options that allow the same number of arguments give the same code, whatever they report. -/
theorem compile_reporting {tree : ObjectTree} {a b : Options} (reachable : tree.Reachable)
    (limit : a.maxArguments = b.maxArguments) (body : Body) :
    (body.compile tree a).map CompiledProc.code = (body.compile tree b).map CompiledProc.code := by
  rw [map_code_compile, map_code_compile]
  unfold emitted
  cases found : tree.proc body.proc with
  | error fault => rfl
  | ok proc =>
    have steps (scope : Scope) : body.steps tree a proc scope = body.steps tree b proc scope := by
      unfold Body.steps
      rw [Stmt.stepsAll_congr (reachable.closed.agree found limit body.mentions) rfl
        body.statements scope
        (List.Subset.refl _)]
    simp only [Bind.bind, Except.bind, steps]

def canvas : ObjectTree :=
  TreeOp.build [.newProc .root "draw" {}, .newGlobalProc "matrix" {},
    .newGlobalProc "glow" { unimplemented := true }, .finalize]

def drawing : Body where
  proc := ⟨1⟩
  statements :=
    [.expr (.call (.name ⟨"matrix", {}⟩)
      (.replicate 5 (.ofValue none (.literal (.number (.ofNat 1)) {}))) {}),
      .expr (.call (.name ⟨"glow", {}⟩) [.ofValue none (.name ⟨"canvas", {}⟩)] {})]

def silence : Options :=
  { (default : Options) with
    levels := ⟨fun kind => if kind.isHard then .error else .disabled, fun _ hard => if_pos hard⟩
    lintMatrixCalls := false
    reportUnimplemented := false }

theorem compile_reporting_drawing :
    canvas.Reachable ∧ silence.maxArguments = (default : Options).maxArguments ∧
      (drawing.compile canvas silence).toOption.map (·.diagnostics.items.size) = some 1 ∧
      (drawing.compile canvas default).toOption.map (·.diagnostics.items.size) = some 3 ∧
      (drawing.compile canvas silence).map CompiledProc.code =
        (drawing.compile canvas default).map CompiledProc.code :=
  ⟨TreeOp.reachable_build _, rfl, by decide +kernel, by decide +kernel,
    compile_reporting (a := silence) (b := default) (TreeOp.reachable_build _) rfl drawing⟩

end Body

end ProcLowering
