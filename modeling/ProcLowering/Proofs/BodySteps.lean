import ProcLowering.Lower.Proc
import ProcLowering.Proofs.StepEmission

set_option autoImplicit false

namespace ProcLowering

namespace Scope

variable {scope inner : Scope} {name : String} {type : Option TypeId} {declared : Local}

theorem slot_declare (done : scope.declare name type = .ok (declared, inner)) :
    declared.slot.toNat = scope.size := by
  unfold declare at done
  split at done <;> cases done
  simp
  omega

theorem size_declare (done : scope.declare name type = .ok (declared, inner)) :
    inner.size = scope.size + 1 := by
  unfold declare at done
  split at done <;> cases done
  rfl

theorem find?_declare (done : scope.declare name type = .ok (declared, inner)) (other : String) :
    inner.find? other = if other = name then some declared else scope.find? other := by
  unfold declare at done
  split at done <;> cases done
  rw [find?, Std.TreeMap.getElem?_insert]
  by_cases same : other = name
  · simp [same]
  · simp [same, Ne.symm same, find?]

theorem declareAll_cons_eq_ok {first : LocalDecl} {rest : List LocalDecl}
    (done : scope.declareAll (first :: rest) = .ok inner) :
    ∃ declared middle, scope.declare first.name first.type = .ok (declared, middle) ∧
      middle.declareAll rest = .ok inner := by
  unfold declareAll at done ⊢
  rw [List.foldlM_cons] at done
  cases declares : scope.declare first.name first.type with
  | error _ =>
    rw [declares] at done
    cases done
  | ok both =>
    rw [declares] at done
    exact ⟨both.1, both.2, rfl, done⟩

end Scope

/-- The steps of statements in a scope. A declaration for which no slot is left ends them. -/
def Stmt.stepsAll (tree : ObjectTree) (options : Options) (proc : Proc) :
    Scope → List Stmt → List Step
  | _, [] => []
  | scope, .expr value :: rest =>
    .line value.span.line ::
      (value.steps { tree, options, proc, scope } ++
        (.pop :: stepsAll tree options proc scope rest))
  | scope, .ret none span :: rest =>
    .line span.line :: .self :: .ret :: stepsAll tree options proc scope rest
  | scope, .ret (some value) span :: rest =>
    .line span.line ::
      (value.steps { tree, options, proc, scope } ++
        (.ret :: stepsAll tree options proc scope rest))
  | scope, .var name typePath init span :: rest =>
    let value := (init.map fun value => value.steps { tree, options, proc, scope }).getD []
    .line span.line :: (value ++
      match scope.declare name.name (typePath.bind tree.find?) with
      | .error fault => [.fault fault]
      | .ok (declared, inner) =>
        let store := if init.isSome then [.setLocal declared.slot] else []
        store ++ stepsAll tree options proc inner rest)

def Stmt.closing (statements : List Stmt) : List Step :=
  if (statements.getLast?.map Stmt.isReturn).getD false then [] else [.self, .ret]

def Body.steps (tree : ObjectTree) (options : Options) (proc : Proc) (scope : Scope) (body : Body) :
    List Step :=
  Stmt.stepsAll tree options proc scope body.statements ++ Stmt.closing body.statements

namespace Draft

def Runs (result : Except Fault Draft) (emitter : Emitter) (steps : List Step)
    (good : Scope → Prop) : Prop :=
  ∃ scope diagnostics, good scope ∧
    result = match (Step.emitAll steps).run emitter with
    | .ok _ after => .ok ⟨scope, after, diagnostics⟩
    | .error fault _ => .error fault

theorem runs_emit (steps : List Step) (draft : Draft) :
    Runs (draft.emit steps) draft.emitter steps (· = draft.scope) :=
  ⟨draft.scope, draft.diagnostics, rfl, rfl⟩

theorem runs_value (context : Context) (expr : Expr) (draft : Draft) :
    Runs (draft.value context expr) draft.emitter (expr.steps context) (· = draft.scope) := by
  refine ⟨draft.scope, (expr.problems context).foldl Diagnostics.report draft.diagnostics, rfl, ?_⟩
  obtain ⟨scope, emitter, diagnostics⟩ := draft
  simp only [value, emit]
  cases (Step.emitAll (expr.steps context)).run emitter <;> rfl

theorem Runs.bind {result : Except Fault Draft} {next : Draft → Except Fault Draft}
    {emitter : Emitter} {first second : List Step} {good better : Scope → Prop}
    (head : Runs result emitter first good) (tail : ∀ draft : Draft, good draft.scope →
    Runs (next draft) draft.emitter second better) :
    Runs (result >>= next) emitter (first ++ second) better := by
  obtain ⟨scope, diagnostics, holds, same⟩ := head
  rw [Runs, Step.emitAll_append, EStateM.run_bind, same]
  cases (Step.emitAll first).run emitter with
  | error fault stopped =>
    obtain ⟨inner, reports, fine, -⟩ := tail ⟨scope, emitter, diagnostics⟩ holds
    exact ⟨inner, reports, fine, rfl⟩
  | ok _ middle => exact tail ⟨scope, middle, diagnostics⟩ holds

theorem runs_fault (fault : Fault) (emitter : Emitter) :
    Runs (.error fault) emitter [.fault fault] fun _ => True :=
  ⟨{}, {}, trivial, rfl⟩

theorem runs_statements (tree : ObjectTree) (options : Options) (proc : Proc)
    (statements : List Stmt) (draft : Draft) :
    Runs (statements.foldlM (statement tree options proc) draft) draft.emitter
      (Stmt.stepsAll tree options proc draft.scope statements) fun _ => True := by
  induction statements generalizing draft with
  | nil => exact ⟨draft.scope, draft.diagnostics, trivial, rfl⟩
  | cons stmt rest ih =>
    rw [List.foldlM_cons]
    unfold statement
    rw [bind_assoc]
    cases stmt with
    | expr value =>
      refine (runs_emit [.line value.span.line] draft).bind fun opened same => ?_
      rw [← same]
      dsimp only
      rw [bind_assoc]
      refine (runs_value _ value opened).bind fun valued same => ?_
      rw [← same]
      exact (runs_emit [.pop] valued).bind fun done same => same ▸ ih done
    | ret value span =>
      cases value with
      | none =>
        refine (runs_emit [.line span.line] draft).bind fun opened same => ?_
        rw [← same]
        exact (runs_emit [.self, .ret] opened).bind fun done same => same ▸ ih done
      | some value =>
        refine (runs_emit [.line span.line] draft).bind fun opened same => ?_
        rw [← same]
        dsimp only
        rw [bind_assoc]
        refine (runs_value _ value opened).bind fun valued same => ?_
        rw [← same]
        exact (runs_emit [.ret] valued).bind fun done same => same ▸ ih done
    | var name typePath init span =>
      refine (runs_emit [.line span.line] draft).bind fun opened same => ?_
      rw [← same]
      dsimp only
      cases init with
      | none =>
        cases found : opened.scope.declare name.name (typePath.bind tree.find?) with
        | error fault =>
          simp only [pure_bind, found]
          exact runs_fault fault opened.emitter
        | ok both =>
          simp only [pure_bind, found]
          exact ih { opened with scope := both.2 }
      | some value =>
        simp only [bind_assoc]
        refine (runs_value _ value opened).bind fun valued same => ?_
        rw [← same]
        cases found : valued.scope.declare name.name (typePath.bind tree.find?) with
        | error fault => exact runs_fault fault valued.emitter
        | ok both =>
          exact (runs_emit [.setLocal both.1.slot] { valued with scope := both.2 }).bind
            fun done same => same ▸ ih done

end Draft

namespace Body

def declared (proc : Proc) (body : Body) : List LocalDecl :=
  proc.params.map (⟨·, none⟩) ++ body.locals

inductive Compiles (tree : ObjectTree) (options : Options) (body : Body) :
    Except Fault CompiledProc → Prop
  | unknown {fault : Fault} (missing : tree.proc body.proc = .error fault) :
      Compiles tree options body (.error fault)
  | crowded {fault : Fault} {proc : Proc} (found : tree.proc body.proc = .ok proc)
      (full : ({} : Scope).declareAll (body.declared proc) = .error fault) :
        Compiles tree options body (.error fault)
  | stopped {fault : Fault} {proc : Proc} {scope : Scope} {emitter : Emitter}
      (found : tree.proc body.proc = .ok proc)
      (opened : ({} : Scope).declareAll (body.declared proc) = .ok scope)
      (ran : (Step.emitAll (body.steps tree options proc scope)).run {} = .error fault emitter) :
      Compiles tree options body (.error fault)
  | finished {proc : Proc} {scope : Scope} {emitter : Emitter} {diagnostics : Diagnostics}
      (found : tree.proc body.proc = .ok proc)
      (opened : ({} : Scope).declareAll (body.declared proc) = .ok scope)
      (ran : (Step.emitAll (body.steps tree options proc scope)).run {} = .ok () emitter) :
      Compiles tree options body
        (emitter.finish.map fun code => ⟨body.proc, code.1, code.2, diagnostics⟩)

theorem compiles (tree : ObjectTree) (options : Options) (body : Body) :
    Compiles tree options body (body.compile tree options) := by
  cases found : tree.proc body.proc with
  | error fault =>
    unfold compile
    rw [found]
    exact .unknown found
  | ok proc =>
    cases opened : ({} : Scope).declareAll (body.declared proc) with
    | error fault =>
      have same : ({} : Scope).declareAll (proc.params.map (⟨·, none⟩) ++ body.locals) =
        .error fault := opened
      unfold compile
      simp only [Bind.bind, Except.bind, found, same]
      exact .crowded found opened
    | ok scope =>
      have same : ({} : Scope).declareAll (proc.params.map (⟨·, none⟩) ++ body.locals) =
        .ok scope := opened
      have closed (draft : Draft) : Draft.Runs
          (if (body.statements.getLast?.map Stmt.isReturn).getD false then pure draft
            else draft.emit [.self, .ret])
          draft.emitter (Stmt.closing body.statements) fun _ => True := by
        unfold Stmt.closing
        split
        · exact ⟨draft.scope, draft.diagnostics, trivial, rfl⟩
        · exact ⟨draft.scope, draft.diagnostics, trivial, rfl⟩
      obtain ⟨inner, diagnostics, -, runs⟩ :=
        (Draft.runs_statements tree options proc body.statements (.start options scope)).bind
          fun draft _ => closed draft
      let finishing (draft : Draft) : Except Fault CompiledProc :=
        draft.emitter.finish.map fun code => ⟨body.proc, code.1, code.2, draft.diagnostics⟩
      have whole : body.compile tree options =
          (body.statements.foldlM (Draft.statement tree options proc) (.start options scope) >>=
            fun draft =>
            if (body.statements.getLast?.map Stmt.isReturn).getD false then pure draft
            else draft.emit [.self, .ret]) >>= finishing := by
        unfold compile
        rw [found, bind_assoc]
        change Except.bind (({} : Scope).declareAll _) _ = _
        rw [same]
        change (body.statements.foldlM (Draft.statement tree options proc)
          (.start options scope) >>= _) = _
        refine bind_congr fun draft => ?_
        split <;> rfl
      rw [whole, runs]
      change Compiles tree options body
        ((match (Step.emitAll (body.steps tree options proc scope)).run {} with
          | .ok _ after => .ok ⟨inner, after, diagnostics⟩
          | .error fault _ => .error fault) >>= finishing)
      cases ran : (Step.emitAll (body.steps tree options proc scope)).run {} with
      | error fault stopped => exact .stopped found opened ran
      | ok _ emitter => exact .finished found opened ran

end Body

end ProcLowering
