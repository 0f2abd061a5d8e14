import ProcLowering.Proofs.Balance
import ProcLowering.Proofs.Outcome

set_option autoImplicit false

namespace ProcLowering

mutual

def Expr.bare : Expr → Expr
  | .literal value span => .literal value span
  | .name identifier => .name identifier
  | .globalName identifier => .globalName identifier
  | .self span => .self span
  | .super span => .super span
  | .member receiver field safe span => .member receiver.bare field safe span
  | .call callee arguments span => .call callee.bare (Argument.bareAll arguments) span
  | .unary op operand span => .unary op operand.bare span
  | .binary op left right span => .binary op left.bare right.bare span
  | .paren inner _ => inner.bare

def Argument.bareAll : List Argument → List Argument
  | [] => []
  | .mk name value _ :: rest => .ofValue name value.bare :: Argument.bareAll rest

end

def Stmt.bare : Stmt → Stmt
  | .expr value => .expr value.bare
  | .var name typePath init span => .var name typePath (init.map Expr.bare) span
  | .ret value span => .ret (value.map Expr.bare) span

def Body.bare (body : Body) : Body := { body with statements := body.statements.map Stmt.bare }

def Target.bare : Target → Target
  | .name identifier => .name identifier
  | .globalName identifier => .globalName identifier
  | .self span => .self span
  | .super span => .super span
  | .member receiver field safe span => .member receiver.bare field safe span

def Diagnostic.outline (diagnostic : Diagnostic) : Kind × Severity × String :=
  (diagnostic.kind, diagnostic.severity, diagnostic.message)

-- Every place that looks at an expression looks through parentheses.

theorem Target.ofExpr?_bare : (expr : Expr) → ofExpr? expr.bare = (ofExpr? expr).map Target.bare
  | .paren inner _ => by
    rw [Expr.bare, ofExpr?_bare inner]
    simp [ofExpr?, Expr.stripped]
  | .literal _ _ | .name _ | .globalName _ | .self _ | .super _ | .member _ _ _ _ | .call _ _ _
  | .unary _ _ _
  | .binary _ _ _ _ => by simp [Expr.bare, ofExpr?, Expr.stripped, Target.bare]

theorem Context.staticType?_bare (context : Context) : (expr : Expr) →
    context.staticType? expr.bare = context.staticType? expr
  | .paren inner _ => by
    rw [Expr.bare, staticType?_bare context inner]
    simp [staticType?, Expr.stripped]
  | .literal _ _ | .name _ | .globalName _ | .self _ | .super _ | .member _ _ _ _ | .call _ _ _
  | .unary _ _ _
  | .binary _ _ _ _ => by simp [Expr.bare, staticType?, Expr.stripped]

theorem Expr.fold?_bare : (expr : Expr) → expr.bare.fold? = expr.fold?
  | .paren inner _ => by rw [bare, fold?, fold?_bare inner]
  | .unary op operand _ => by rw [bare, fold?, fold?, fold?_bare operand]
  | .binary op left right _ => by rw [bare, fold?, fold?, fold?_bare left, fold?_bare right]
  | .literal _ _ | .name _ | .globalName _ | .self _ | .super _ => by rw [bare]
  | .member _ _ _ _ | .call _ _ _ => by simp only [bare, fold?]

namespace Argument

theorem bareAll_eq_map (arguments : List Argument) :
    bareAll arguments = arguments.map fun argument =>
      .ofValue argument.name? argument.value.bare := by
  induction arguments with
  | nil => rfl
  | cons first rest ih =>
    cases first
    rw [bareAll, ih]
    rfl

@[simp] theorem length_bareAll (arguments : List Argument) : (bareAll arguments).length =
    arguments.length := by
  simp [bareAll_eq_map]

@[simp] theorem isEmpty_bareAll (arguments : List Argument) : (bareAll arguments).isEmpty =
    arguments.isEmpty := by
  simp [bareAll_eq_map]

@[simp] theorem names_bareAll (limit : Nat) (arguments : List Argument) :
    names limit (bareAll arguments) = names limit arguments := by
  simp [names, bareAll_eq_map, ← List.map_take, ofValue, name?]

end Argument

namespace Target

@[simp] theorem isSuper_bare (target : Target) : target.bare.isSuper = target.isSuper := by
  cases target <;> rfl

@[simp] theorem isConditional_bare (target : Target) :
    target.bare.isConditional = target.isConditional := by
  cases target <;> rfl

@[simp] theorem reference_bare (context : Context) (target : Target) :
    target.bare.reference context = target.reference context := by
  cases target <;> rfl

@[simp] theorem staticProc_bare (context : Context) (target : Target) :
    target.bare.staticProc context = target.staticProc context := by
  cases target <;> simp [bare, staticProc, Context.staticType?_bare]

@[simp] theorem lookupSteps_bare (context : Context) (target : Target) :
    target.bare.lookupSteps context = target.lookupSteps context := by
  simp [lookupSteps]

@[simp] theorem problem?_bare (context : Context) (target : Target) : target.bare.problem? context =
    target.problem? context := by
  cases target <;> simp [bare, problem?, memberProblem?, Context.staticType?_bare]

end Target

-- An argument may stand elsewhere without parentheses, and so may what is reported about it.

theorem Matrix.shapeProblem?_bareAll (arguments : List Argument) (span : Span) :
    (shapeProblem? (Argument.bareAll arguments) span).map Diagnostic.outline =
      (shapeProblem? arguments span).map Diagnostic.outline := by
  have last : (Argument.bareAll arguments).getLast? =
      arguments.getLast?.map fun argument => .ofValue argument.name? argument.value.bare := by
    rw [Argument.bareAll_eq_map, List.getLast?_map]
  unfold shapeProblem?
  rw [Argument.length_bareAll, last]
  cases arguments.getLast? with
  | none => split <;> rfl
  | some argument =>
    obtain ⟨_, value, _⟩ := argument
    simp only [Option.map_some, Option.bind_eq_bind, Option.bind_some, Argument.ofValue,
      Argument.value, Argument.span, Expr.fold?_bare]
    cases value.fold? with
    | none => split <;> rfl
    | some folded =>
      simp only [Option.bind_some]
      cases folded.number? with
      | none => split <;> rfl
      | some n =>
        -- Only the span of an unknown operation is that of the argument.
        cases known :
            (Operation.ofNumber? n).isSome <;> simp only [Option.bind_some, known] <;> split <;> rfl

theorem Target.callProblems_bare (context : Context) (target : Target) (arguments : List Argument)
    (span : Span) :
    (target.bare.callProblems context (Argument.bareAll arguments) span).map Diagnostic.outline =
      (target.callProblems context arguments span).map Diagnostic.outline := by
  have shape (owner : Option TypeId) (proc : Option ProcId) :
      (Matrix.callProblem? context.tree owner proc (Argument.bareAll arguments) span).toList.map
        Diagnostic.outline =
        (Matrix.callProblem? context.tree owner proc arguments span).toList.map
          Diagnostic.outline := by
    unfold Matrix.callProblem?
    split
    · rw [← Option.toList_map, Matrix.shapeProblem?_bareAll, Option.toList_map]
    · rfl
  unfold callProblems
  rw [staticProc_bare, Argument.length_bareAll]
  simp only [List.map_append]
  congr 2
  split
  · exact shape _ _
  · rfl

def Part.bare : Part → Part
  | .value expr => .value expr.bare
  | .receiver callee => .receiver callee.bare
  | .passed count arguments => .passed count (Argument.bareAll arguments)

theorem Part.Lowers.bare {context : Context} {part : Part} {steps : List Step}
    {problems : List Diagnostic} (lowers : part.Lowers context steps problems) :
    ∃ others, part.bare.Lowers context steps others ∧
      others.map Diagnostic.outline = problems.map Diagnostic.outline := by
  induction lowers with
  | literal value span => exact ⟨_, .literal value span, rfl⟩
  | name identifier => exact ⟨_, .name identifier, rfl⟩
  | globalName identifier => exact ⟨_, .globalName identifier, rfl⟩
  | self span => exact ⟨_, .self span, rfl⟩
  | super span => exact ⟨_, .super span, rfl⟩
  | member field safe span _ ih =>
    obtain ⟨others, inside, same⟩ := ih
    exact ⟨others, .member field safe span inside, same⟩
  | @uncallable callee uncallable arguments span =>
    have none : Target.ofExpr? callee.bare = none := by
      rw [Target.ofExpr?_bare, uncallable, Option.map_none]
    -- What cannot be called is reported at the callee, so at its parentheses if it has any.
    exact ⟨_, .uncallable none (Argument.bareAll arguments) span, rfl⟩
  | @forward callee place _ _ called span _ receives =>
    have called' : Target.ofExpr? callee.bare = some (.super place) := by
      rw [Target.ofExpr?_bare, called, Option.map_some, Target.bare]
    obtain ⟨others, received, same⟩ := receives
    refine ⟨_, .forward called' span received, ?_⟩
    simp only [List.map_append, same]
  | @call callee target arguments _ _ _ _ called gathered span _ _ receives passes =>
    have called' : Target.ofExpr? callee.bare = some target.bare := by
      rw [Target.ofExpr?_bare, called, Option.map_some]
    have gathered' : (target.bare.isSuper && (Argument.bareAll arguments).isEmpty) = false := by
      simpa using gathered
    obtain ⟨problems, received, same⟩ := receives
    obtain ⟨others, passed, same'⟩ := passes
    have lowers := Lowers.call called' gathered' span received passed
    rw [Target.lookupSteps_bare, Target.isConditional_bare, Target.reference_bare,
      Argument.names_bareAll] at lowers
    refine ⟨_, lowers, ?_⟩
    simp only [List.map_append, Target.problem?_bare, Target.callProblems_bare, same, same']
  | paren _ _ ih => exact ih
  | @foldedUnary op operand span value _ _ folds _ ih =>
    obtain ⟨others, inside, same⟩ := ih
    have folds' : (Expr.unary op operand span).bare.fold? = some value :=
      (Expr.fold?_bare _).trans folds
    exact ⟨others, .foldedUnary folds' inside, same⟩
  | @unary op operand span _ _ unfolded _ ih =>
    obtain ⟨others, inside, same⟩ := ih
    have unfolded' : (Expr.unary op operand span).bare.fold? = none :=
      (Expr.fold?_bare _).trans unfolded
    exact ⟨others, .unary unfolded' inside, same⟩
  | @foldedBinary op left right span value _ _ _ _ folds _ _ first second =>
    obtain ⟨problems, one, same⟩ := first
    obtain ⟨others, two, same'⟩ := second
    have folds' : (Expr.binary op left right span).bare.fold? = some value :=
      (Expr.fold?_bare _).trans folds
    exact ⟨_, .foldedBinary folds' one two, by rw [List.map_append, List.map_append, same, same']⟩
  | @binary op left right span _ _ _ _ unfolded _ _ first second =>
    obtain ⟨problems, one, same⟩ := first
    obtain ⟨others, two, same'⟩ := second
    have unfolded' : (Expr.binary op left right span).bare.fold? = none :=
      (Expr.fold?_bare _).trans unfolded
    exact ⟨_, .binary unfolded' one two, by rw [List.map_append, List.map_append, same, same']⟩
  | receiverParen _ _ ih => exact ih
  | receiverMember field safe span _ ih =>
    obtain ⟨others, inside, same⟩ := ih
    exact ⟨others, .receiverMember field safe span inside, same⟩
  | @unqualified callee bare =>
    exact ⟨_, .unqualified (by cases callee <;> first | rfl | cases bare), rfl⟩
  | @noArguments count arguments none =>
    exact ⟨_, .noArguments (none.imp_right fun empty => by rw [empty]; rfl), rfl⟩
  | argument name _ _ _ first next =>
    obtain ⟨problems, one, same⟩ := first
    obtain ⟨others, two, same'⟩ := next
    exact ⟨_, .argument name _ one two, by rw [List.map_append, List.map_append, same, same']⟩

namespace Expr

theorem steps_bare (context : Context) (expr : Expr) :
    expr.bare.steps context = expr.steps context := by
  obtain ⟨_, lowers, -⟩ := (expr.lowers context).bare
  exact lowers.eq.1

theorem problems_bare (context : Context) (expr : Expr) :
    (expr.bare.problems context).map Diagnostic.outline =
      (expr.problems context).map Diagnostic.outline := by
  obtain ⟨_, lowers, same⟩ := (expr.lowers context).bare
  rw [← same]
  exact congrArg _ lowers.eq.2

end Expr

/-- Steps that do not depend on the current line: the first of them sets it, or ends them. -/
inductive Step.Resets : List Step → Prop
  | line (number : UInt32) (rest : List Step) : Resets (.line number :: rest)
  | fault (cause : Fault) (rest : List Step) : Resets (.fault cause :: rest)

theorem Step.Resets.append {steps : List Step} (resets : Resets steps) (rest : List Step) :
    Resets (steps ++ rest) := by
  cases resets with
  | line number others => exact .line number (others ++ rest)
  | fault cause others => exact .fault cause (others ++ rest)

def Part.isValue : Part → Bool
  | .value _ => true
  | .receiver _ | .passed _ _ => false

theorem Part.Lowers.resets {context : Context} {part : Part} {steps : List Step}
    {problems : List Diagnostic} (lowers : part.Lowers context steps problems) : Step.Resets steps ∨
    part.isValue = false ∧ steps = [] := by
  have value {expr : Expr} {steps : List Step}
      (ih : Step.Resets steps ∨ (Part.value expr).isValue = false ∧ steps = []) :
        Step.Resets steps :=
    ih.resolve_right (by simp [isValue])
  induction lowers with
  | literal | name | globalName | self | super | uncallable | foldedUnary | foldedBinary =>
    exact .inl (.line _ _)
  | member _ _ _ _ ih | unary _ _ ih | binary _ _ _ ih => exact .inl ((value ih).append _)
  | forward _ _ _ receives =>
    rcases receives with resets | ⟨-, rfl⟩
    · exact .inl (resets.append _)
    · exact .inl (.line _ _)
  | @call _ target _ _ _ _ _ _ _ _ _ _ receives =>
    rcases target.lookupSteps_cases context with none | ⟨_, cause, -, -, one⟩
    · rw [none, List.nil_append]
      rcases receives with resets | ⟨-, rfl⟩
      · exact .inl (resets.append _)
      · exact .inl (.line _ _)
    · rw [one]
      exact .inl (.fault _ _)
  | paren _ _ ih => exact .inl (value ih)
  | receiverParen _ _ ih => exact ih
  | receiverMember _ _ _ _ ih => exact .inl (value ih)
  | unqualified | noArguments => exact .inr ⟨rfl, rfl⟩
  | argument _ _ _ _ first => exact .inl ((value first).append _)

theorem Expr.resets_steps (context : Context) (expr : Expr) : Step.Resets (expr.steps context) :=
  (expr.lowers context).resets.resolve_right (by simp [Part.isValue])

namespace Diagnostics

def outline (sink : Diagnostics) : Levels × List (Kind × Severity × String) :=
  (sink.levels, sink.items.toList.map Diagnostic.outline)

variable {a b : Diagnostics}

theorem outline_report {one other : Diagnostic} (same : a.outline = b.outline)
    (alike : one.outline = other.outline) :
    (a.report one).outline = (b.report other).outline := by
  obtain ⟨levels, items⟩ := Prod.mk.inj same
  obtain ⟨kind, rest⟩ := Prod.mk.inj alike
  obtain ⟨-, message⟩ := Prod.mk.inj rest
  unfold report stamped?
  rw [levels, kind]
  cases b.levels.severityOf other.kind <;> simp [outline, Diagnostic.outline, levels,
    items, message]

theorem outline_foldl_report {problems others : List Diagnostic} (same : a.outline = b.outline)
    (alike : problems.map Diagnostic.outline = others.map Diagnostic.outline) :
    (problems.foldl report a).outline = (others.foldl report b).outline := by
  induction problems generalizing a b others with
  | nil =>
    cases others with
    | nil => exact same
    | cons _ _ => cases alike
  | cons first rest ih =>
    cases others with
    | nil => cases alike
    | cons other more =>
      obtain ⟨heads, tails⟩ := List.cons.inj alike
      rw [List.foldl_cons, List.foldl_cons]
      exact ih (outline_report same heads) tails

end Diagnostics

namespace Draft

def outline (draft : Draft) : Scope × Emitter × Levels × List (Kind × Severity × String) :=
  (draft.scope, draft.emitter, draft.diagnostics.outline)

variable {a b : Draft}

theorem outline_emit (same : a.outline = b.outline) (steps : List Step) :
    (a.emit steps).map outline = (b.emit steps).map outline := by
  obtain ⟨scope, emitter, diagnostics⟩ := a
  obtain ⟨_, _, others⟩ := b
  obtain ⟨rfl, rest⟩ := Prod.mk.inj same
  obtain ⟨rfl, reported⟩ := Prod.mk.inj rest
  unfold emit
  dsimp only
  cases (Step.emitAll steps).run emitter with
  | error fault _ => rfl
  | ok _ after => exact congrArg (fun reports => Except.ok (scope, after, reports)) reported

theorem outline_value_bare (same : a.outline = b.outline) (context : Context) (expr : Expr) :
    (a.value context expr.bare).map outline = (b.value context expr).map outline := by
  unfold value
  rw [expr.steps_bare]
  refine map_bind_congr (outline_emit same _) fun emitted others alike => ?_
  obtain ⟨scope, rest⟩ := Prod.mk.inj alike
  obtain ⟨emitter, diagnostics⟩ := Prod.mk.inj rest
  have reported := Diagnostics.outline_foldl_report diagnostics (expr.problems_bare context)
  exact congrArg Except.ok (by simp only [outline, report, scope, emitter, reported])

theorem emit_line {steps : List Step} (resets : Step.Resets steps) (number : UInt32)
    (draft : Draft) :
    (draft.emit [.line number] >>= fun lined => lined.emit steps) = draft.emit steps := by
  cases resets with
  | line later rest => rfl
  | fault cause rest => rfl

theorem value_line (number : UInt32) (context : Context) (expr : Expr) (draft : Draft) :
    (draft.emit [.line number] >>= fun lined => lined.value context expr) =
      draft.value context expr := by
  unfold value
  rw [← bind_assoc, emit_line (expr.resets_steps context)]

theorem outline_declared (same : a.outline = b.outline) (name : String) (type : Option TypeId)
    (stores : Bool) :
    (a.scope.declare name type >>= fun both =>
        if stores then emit [.setLocal both.1.slot] { a with scope := both.2 }
        else pure { a with scope := both.2 }).map outline =
      (b.scope.declare name type >>= fun both =>
        if stores then emit [.setLocal both.1.slot] { b with scope := both.2 }
        else pure { b with scope := both.2 }).map outline := by
  obtain ⟨scopes, rest⟩ := Prod.mk.inj same
  rw [scopes]
  cases b.scope.declare name type with
  | error fault => rfl
  | ok both =>
    have moved : outline { a with scope := both.2 } = outline { b with scope := both.2 } :=
      congrArg (both.2, ·) rest
    cases stores with
    | false => exact congrArg Except.ok moved
    | true => exact outline_emit moved [.setLocal both.1.slot]

theorem outline_statement_bare (tree : ObjectTree) (options : Options) (proc : Proc)
    (same : a.outline = b.outline) (stmt : Stmt) :
    (statement tree options proc a stmt.bare).map outline =
      (statement tree options proc b stmt).map outline := by
  have scopes : a.scope = b.scope := congrArg Prod.fst same
  unfold statement
  rw [scopes]
  cases stmt with
  | expr value =>
    -- Here alone the line of the statement is that of the value, parentheses and all.
    simp only [Stmt.bare, Stmt.span]
    rw [← bind_assoc, ← bind_assoc, value_line, value_line]
    exact map_bind_congr (outline_value_bare same _ value) fun _ _ alike =>
      outline_emit alike [.pop]
  | ret value span =>
    refine map_bind_congr (outline_emit same [.line span.line]) fun _ _ alike => ?_
    cases value with
    | none => exact outline_emit alike [.self, .ret]
    | some value =>
      exact map_bind_congr (outline_value_bare alike _ value) fun _ _ alike =>
        outline_emit alike [.ret]
  | var name typePath init span =>
    refine map_bind_congr (outline_emit same [.line span.line]) fun _ _ alike => ?_
    cases init with
    | none => exact outline_declared alike _ _ false
    | some value =>
      exact map_bind_congr (outline_value_bare alike _ value) fun _ _ alike =>
        outline_declared alike _ _ true

theorem outline_statements_bare (tree : ObjectTree) (options : Options) (proc : Proc)
    (statements : List Stmt) (same : a.outline = b.outline) :
    ((statements.map Stmt.bare).foldlM (statement tree options proc) a).map outline =
      (statements.foldlM (statement tree options proc) b).map outline := by
  induction statements generalizing a b with
  | nil => exact congrArg Except.ok same
  | cons stmt rest ih =>
    rw [List.map_cons, List.foldlM_cons, List.foldlM_cons]
    exact map_bind_congr (outline_statement_bare tree options proc same stmt) fun _ _ alike =>
      ih alike

end Draft

def CompiledProc.outline (compiled : CompiledProc) :
    ProcId × Chunk × Pool × Levels × List (Kind × Severity × String) :=
  (compiled.proc, compiled.chunk, compiled.pool, compiled.diagnostics.outline)

namespace Body

theorem isReturn_bare (statements : List Stmt) :
    (statements.map Stmt.bare).getLast?.map Stmt.isReturn =
      statements.getLast?.map Stmt.isReturn := by
  rw [List.getLast?_map, Option.map_map]
  congr
  funext stmt
  cases stmt <;> rfl

theorem outline_compile_bare (tree : ObjectTree) (options : Options) (body : Body) :
    (body.bare.compile tree options).map CompiledProc.outline =
      (body.compile tree options).map CompiledProc.outline := by
  have finished {a b : Draft} (same : a.outline = b.outline) :
      (a.emitter.finish >>= fun code => pure ⟨body.proc, code.1, code.2, a.diagnostics⟩).map
        CompiledProc.outline =
        (b.emitter.finish >>= fun code => pure ⟨body.proc, code.1, code.2, b.diagnostics⟩).map
          CompiledProc.outline := by
    obtain ⟨-, rest⟩ := Prod.mk.inj same
    obtain ⟨emitters, reported⟩ := Prod.mk.inj rest
    rw [emitters]
    cases b.emitter.finish with
    | error fault => rfl
    | ok code =>
      exact congrArg (fun reports => Except.ok (body.proc, code.1, code.2, reports)) reported
  have refl {α : Type} (result : Except Fault α) : result.map id = result.map id := rfl
  unfold compile
  -- The proc and the scope are found without looking at the statements.
  refine map_bind_congr (refl _) fun proc _ same => ?_
  cases same
  refine map_bind_congr (refl _) fun scope _ same => ?_
  cases same
  refine map_bind_congr (Draft.outline_statements_bare tree options proc body.statements rfl)
    fun a b same => ?_
  have closes : (body.bare.statements.getLast?.map Stmt.isReturn) =
    body.statements.getLast?.map Stmt.isReturn :=
    isReturn_bare body.statements
  dsimp only
  rw [closes]
  split
  · exact finished same
  · exact map_bind_congr (Draft.outline_emit same [.self, .ret]) fun _ _ alike => finished alike

/-- Parentheses have no influence on the code or on what is reported: bodies that are the same
without them fail alike, or differ in the spans of their diagnostics only. -/
theorem compile_parentheses {tree : ObjectTree} {options : Options} {body other : Body}
    (same : body.bare = other.bare) :
    (body.compile tree options).map CompiledProc.outline =
      (other.compile tree options).map CompiledProc.outline := by
  rw [← outline_compile_bare, same, outline_compile_bare]

def studio : ObjectTree :=
  TreeOp.build [.newProc .root "draw" {}, .newGlobalProc "matrix" {}, .finalize]

def wrapped (around : Expr → Expr) : Body where
  proc := ⟨1⟩
  statements :=
    [.expr (around (.call (around (.super (.point 1 1))) [] (.point 1 1))),
      .var ⟨"x", .point 2 1⟩ none (some (around (.call
        (around (.member (around (.name ⟨"src", .point 2 2⟩)) ⟨"ping", .point 2 3⟩ true
          (.point 2 2)))
        [.ofValue none (around (.super (.point 2 4)))] (.point 2 2)))) (.point 2 1),
      .expr (around (.call (around (.literal (.number (.ofNat 1)) (.point 3 1))) [] (.point 3 1))),
      .ret (some (around (.call (around (.name ⟨"matrix", .point 4 1⟩))
        [.ofValue none (around (.self (.point 4 2))),
          .ofValue none
            (around (.unary .negate (around (.literal (.number (.ofNat 9)) (.point 4 4)))
            (.point 4 3)))]
        (.point 4 1)))) (.point 4 1)]

def parenthesized : Body := wrapped fun expr => .paren expr (.point 9 9)

theorem compile_parentheses_wrapped :
    (wrapped id).bare = parenthesized.bare ∧
      ((wrapped id).compile studio default).toOption.map
          (fun compiled => compiled.diagnostics.items.toList.map (·.span)) =
        some [.point 1 1, .point 2 3, .point 2 4, .point 3 1, .point 4 3] ∧
      (parenthesized.compile studio default).toOption.map
          (fun compiled => compiled.diagnostics.items.toList.map (·.span)) =
        some [.point 1 1, .point 2 3, .point 2 4, .point 9 9, .point 9 9] ∧
      ((wrapped id).compile studio default).map CompiledProc.outline =
        (parenthesized.compile studio default).map CompiledProc.outline :=
  ⟨rfl, by decide +kernel, by decide +kernel, compile_parentheses rfl⟩

end Body

end ProcLowering
