import ProcLowering.Proofs.Balance

set_option autoImplicit false

namespace ProcLowering

namespace Step

mutual

def instructions : Step → List Instruction
  | .unlessNull guarded => instructionsAll guarded
  | step => step.instruction?.toList

def instructionsAll : List Step → List Instruction
  | [] => []
  | step :: rest => step.instructions ++ instructionsAll rest

end

theorem instructionsAll_append (first second : List Step) :
    instructionsAll (first ++ second) = instructionsAll first ++ instructionsAll second := by
  induction first with
  | nil => rfl
  | cons step rest ih => simp only [List.cons_append, instructionsAll, ih, List.append_assoc]

theorem instructions_eq {step : Step} {instruction : Instruction}
    (written : step.instruction? = some instruction) :
    step.instructions = [instruction] := by
  cases step <;> cases written <;> rfl

@[simp] theorem instructionsAll_guardedIf (safe : Bool) (steps : List Step) :
    instructionsAll (guardedIf safe steps) = instructionsAll steps := by
  cases safe <;> simp [guardedIf, instructionsAll, instructions]

end Step

/-- A choice of instructions that leaves out jumps, constants, and what statements add to the values
they are made of. -/
structure Instruction.Inner (picks : Instruction → Bool) : Prop where
  jump : ∀ target, picks (.jumpIfNullDereference target) = false
  constant : ∀ constant, picks (.pushConstant constant) = false
  self : picks .pushSelf = false
  pop : picks .pop = false
  ret : picks .ret = false
  store : ∀ slot, picks (.setLocal slot) = false

theorem Step.Lowered.filter {picks : Instruction → Bool}
    (jump : ∀ target, picks (.jumpIfNullDereference target) = false)
    (constant : ∀ constant, picks (.pushConstant constant) = false) {first last : Nat}
    {steps : List Step} {listing : List (Nat × Instruction)}
    (lowered : Lowered first steps listing last) :
    (listing.map (·.2)).filter picks = (instructionsAll steps).filter picks := by
  induction lowered with
  | nil => rfl
  | line _ ih => exact ih
  | straight written same _ ih =>
    rw [List.map_cons, instructionsAll, instructions_eq written, List.singleton_append]
    cases same with
    | refl => simp only [List.filter_cons, ih]
    | constant => simp [constant, ih]
  | @unlessNull _ join _ _ _ _ _ _ _ ihInside ihTail =>
    rw [List.map_cons, List.map_append, List.filter_cons_of_neg (by simp [jump]),
      List.filter_append, ihInside, ihTail, instructionsAll, instructions, List.filter_append]

def Stmt.value? : Stmt → Option Expr
  | .expr value => some value
  | .var _ _ init _ => init
  | .ret value _ => value

def Stmt.opens (tree : ObjectTree) (scope : Scope) : Stmt → Except Fault Scope
  | .var name typePath _ _ => (scope.declare name.name (typePath.bind tree.find?)).map (·.2)
  | .expr _ | .ret _ _ => .ok scope

def Stmt.valued (tree : ObjectTree) (options : Options) (proc : Proc) : Scope → List Stmt →
    List (Context × Expr)
  | _, [] => []
  | scope, stmt :: rest =>
    (stmt.value?.map fun value => (⟨tree, options, proc, scope⟩, value)).toList ++
      match stmt.opens tree scope with
      | .error _ => []
      | .ok inner => valued tree options proc inner rest

def Body.valued (tree : ObjectTree) (options : Options) (proc : Proc) (scope : Scope)
    (body : Body) :
    List (Context × Expr) :=
  Stmt.valued tree options proc scope body.statements

section

variable {tree : ObjectTree} {options : Options} {proc : Proc}

theorem Stmt.mem_valued {statements : List Stmt} {scope : Scope} {value : Context × Expr}
    (member : value ∈ valued tree options proc scope statements) :
      ∃ inner, value.1 = ⟨tree, options, proc, inner⟩ := by
  induction statements generalizing scope with
  | nil => cases member
  | cons stmt rest ih =>
    rw [valued, List.mem_append] at member
    rcases member with here | later
    · obtain ⟨_, -, rfl⟩ := Option.map_eq_some_iff.mp (Option.mem_toList.mp here)
      exact ⟨scope, rfl⟩
    · split at later
      · cases later
      · exact ih later

theorem Stmt.filter_stepsAll {picks : Instruction → Bool} (inner : Instruction.Inner picks)
    (statements : List Stmt) (scope : Scope) :
    (Step.instructionsAll (stepsAll tree options proc scope statements)).filter picks =
      (valued tree options proc scope statements).flatMap fun value =>
        (Step.instructionsAll (value.2.steps value.1)).filter picks := by
  induction statements generalizing scope with
  | nil => rfl
  | cons stmt rest ih =>
    cases stmt with
    | expr value =>
      simp [stepsAll, valued, value?, opens, Step.instructionsAll, Step.instructions,
        Step.instruction?, Step.instructionsAll_append, inner.pop, ih]
    | ret value span =>
      cases value with
      | none =>
        simp [stepsAll, valued, value?, opens, Step.instructionsAll, Step.instructions,
          Step.instruction?, inner.self, inner.ret, ih]
      | some value =>
        simp [stepsAll, valued, value?, opens, Step.instructionsAll, Step.instructions,
          Step.instruction?, Step.instructionsAll_append, inner.ret, ih]
    | var name typePath init span =>
      cases declares : scope.declare name.name (typePath.bind tree.find?) <;> cases init <;>
        simp [stepsAll, valued, value?, opens, declares, Except.map, Step.instructionsAll,
          Step.instructions, Step.instruction?, Step.instructionsAll_append, inner.store, ih]

theorem Body.filter_compile {picks : Instruction → Bool} (inner : Instruction.Inner picks)
    {body : Body} {compiled : CompiledProc} (done : body.compile tree options = .ok compiled) :
    ∃ proc scope listing, tree.proc body.proc = .ok proc ∧
      ({} : Scope).declareAll (body.declared proc) = .ok scope ∧
        compiled.chunk.decode compiled.pool = .ok listing ∧
          (listing.map (·.2)).filter picks =
            (body.valued tree options proc scope).flatMap fun value =>
            (Step.instructionsAll (value.2.steps value.1)).filter picks := by
  obtain ⟨proc, scope, listing, found, opened, lowered, decoded⟩ := Body.compile_listing done
  refine ⟨proc, scope, listing, found, opened, decoded, ?_⟩
  have closing : (Step.instructionsAll (Stmt.closing body.statements)).filter picks = [] := by
    unfold Stmt.closing
    split <;> simp [Step.instructionsAll, Step.instructions, Step.instruction?,
      inner.self, inner.ret]
  rw [lowered.filter inner.jump inner.constant, Body.steps, Step.instructionsAll_append,
    List.filter_append, closing, List.append_nil]
  exact Stmt.filter_stepsAll inner body.statements scope

end

namespace Draft

variable {tree : ObjectTree} {options : Options} {proc : Proc} {draft after : Draft}

structure Reports (draft after : Draft) (problems : List Diagnostic) : Prop where
  scope : after.scope = draft.scope
  diagnostics : after.diagnostics = problems.foldl Diagnostics.report draft.diagnostics

theorem Reports.trans {last : Draft} {problems more : List Diagnostic}
    (head : Reports draft after problems) (tail : Reports after last more) :
    Reports draft last (problems ++ more) where
  scope := tail.scope.trans head.scope
  diagnostics := by rw [tail.diagnostics, head.diagnostics, List.foldl_append]

theorem reports_emit {steps : List Step} (done : draft.emit steps = .ok after) :
    Reports draft after [] := by
  unfold emit at done
  split at done
  split at done <;> cases done
  exact ⟨rfl, rfl⟩

theorem reports_value {context : Context} {expr : Expr}
    (done : draft.value context expr = .ok after) :
    Reports draft after (expr.problems context) := by
  obtain ⟨middle, emitted, reported⟩ := except_bind_ok done
  cases reported
  have reports : Reports middle (middle.report (expr.problems context)) (expr.problems context) :=
    ⟨rfl, rfl⟩
  exact (reports_emit emitted).trans reports

theorem statement_ok {stmt : Stmt} (done : statement tree options proc draft stmt = .ok after) :
    stmt.opens tree draft.scope = .ok after.scope ∧
      after.diagnostics =
        ((stmt.value?.map fun value =>
          value.problems ⟨tree, options, proc, draft.scope⟩).getD []).foldl
            Diagnostics.report draft.diagnostics := by
  unfold statement at done
  obtain ⟨opened, lined, done⟩ := except_bind_ok done
  have line := reports_emit lined
  cases stmt with
  | expr value =>
    obtain ⟨valued, first, second⟩ := except_bind_ok done
    have whole := (line.trans (reports_value first)).trans (reports_emit second)
    exact ⟨congrArg Except.ok whole.scope.symm, by simpa [Stmt.value?] using whole.diagnostics⟩
  | ret value span =>
    cases value with
    | none =>
      have whole := line.trans (reports_emit done)
      exact ⟨congrArg Except.ok whole.scope.symm, whole.diagnostics⟩
    | some value =>
      obtain ⟨valued, first, second⟩ := except_bind_ok done
      have whole := (line.trans (reports_value first)).trans (reports_emit second)
      exact ⟨congrArg Except.ok whole.scope.symm, by simpa [Stmt.value?] using whole.diagnostics⟩
  | var name typePath init span =>
    -- The value, if there is one, is computed before its variable is declared.
    have declared {valued : Draft} (computed : Reports draft valued
          ((init.map fun value => value.problems ⟨tree, options, proc, draft.scope⟩).getD []))
        (done : (valued.scope.declare name.name (typePath.bind tree.find?) >>= fun both =>
          if init.isSome then emit [.setLocal both.1.slot] { valued with scope := both.2 }
          else pure { valued with scope := both.2 }) = .ok after) :
        (Stmt.var name typePath init span).opens tree draft.scope = .ok after.scope ∧
          after.diagnostics =
            ((init.map fun value =>
              value.problems ⟨tree, options, proc, draft.scope⟩).getD []).foldl
                Diagnostics.report draft.diagnostics := by
      obtain ⟨both, declares, done⟩ := except_bind_ok done
      have stored : Reports { valued with scope := both.2 } after [] := by
        split at done
        · exact reports_emit done
        · cases done
          exact ⟨rfl, rfl⟩
      rw [computed.scope] at declares
      refine ⟨?_, stored.diagnostics.trans computed.diagnostics⟩
      rw [Stmt.opens, declares, stored.scope]
      rfl
    cases init with
    | none => exact declared (by simpa using line) done
    | some value =>
      obtain ⟨valued, first, done⟩ := except_bind_ok done
      exact declared (line.trans (reports_value first)) done

theorem statements_ok {statements : List Stmt}
    (done : statements.foldlM (statement tree options proc) draft = .ok after) :
    after.diagnostics = ((Stmt.valued tree options proc draft.scope statements).flatMap fun value =>
      value.2.problems value.1).foldl Diagnostics.report draft.diagnostics := by
  induction statements generalizing draft with
  | nil =>
    cases done
    rfl
  | cons stmt rest ih =>
    rw [List.foldlM_cons] at done
    obtain ⟨middle, first, others⟩ := except_bind_ok done
    obtain ⟨opens, diagnostics⟩ := statement_ok first
    rw [ih others, diagnostics, Stmt.valued, opens, List.flatMap_append, List.foldl_append]
    cases stmt.value? <;> simp

end Draft

theorem Body.statements_of_compile {tree : ObjectTree} {options : Options} {body : Body}
    {compiled : CompiledProc} (done : body.compile tree options = .ok compiled) {proc : Proc}
    {scope : Scope} (found : tree.proc body.proc = .ok proc)
    (opened : ({} : Scope).declareAll (body.declared proc) = .ok scope) :
    ∃ draft, body.statements.foldlM (Draft.statement tree options proc) (.start options scope) =
      .ok draft := by
  unfold Body.compile at done
  obtain ⟨_, found', done⟩ := except_bind_ok done
  cases found'.symm.trans found
  obtain ⟨_, opened', done⟩ := except_bind_ok done
  cases opened'.symm.trans opened
  obtain ⟨draft, statements, -⟩ := except_bind_ok done
  exact ⟨draft, statements⟩

theorem Body.diagnostics_compile {tree : ObjectTree} {options : Options} {body : Body}
    {compiled : CompiledProc} (done : body.compile tree options = .ok compiled) {proc : Proc}
    {scope : Scope} (found : tree.proc body.proc = .ok proc)
    (opened : ({} : Scope).declareAll (body.declared proc) = .ok scope) :
    compiled.diagnostics =
      ((body.valued tree options proc scope).flatMap fun value => value.2.problems value.1).foldl
      Diagnostics.report { levels := options.levels } := by
  unfold Body.compile at done
  obtain ⟨_, found', done⟩ := except_bind_ok done
  cases found'.symm.trans found
  obtain ⟨_, opened', done⟩ := except_bind_ok done
  cases opened'.symm.trans opened
  obtain ⟨draft, statements, done⟩ := except_bind_ok done
  have finishes {last : Draft} (closing : Draft.Reports draft last [])
      (done : (last.emitter.finish >>= fun code =>
        pure ⟨body.proc, code.1, code.2, last.diagnostics⟩) = Except.ok compiled) :
      compiled.diagnostics = draft.diagnostics := by
    obtain ⟨code, -, done⟩ := except_bind_ok done
    cases done
    exact closing.diagnostics
  have reported : compiled.diagnostics = draft.diagnostics := by
    dsimp only at done
    split at done
    · exact finishes ⟨rfl, rfl⟩ done
    · obtain ⟨last, closed, done⟩ := except_bind_ok done
      exact finishes (Draft.reports_emit closed) done
  exact reported.trans (Draft.statements_ok statements)

end ProcLowering
