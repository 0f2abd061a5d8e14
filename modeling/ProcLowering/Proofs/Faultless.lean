import ProcLowering.Proofs.Balance
import ProcLowering.Proofs.Reachable

set_option autoImplicit false

namespace ProcLowering

namespace ObjectTree

theorem Closed.proc_of_findProc? {tree : ObjectTree} (closed : tree.Closed) {type : TypeId}
    {name : String} {proc : ProcId} (found : tree.findProc? type name = some proc) :
    ∃ entry, tree.proc proc = .ok entry := by
  obtain ⟨record, member, denotes⟩ := List.exists_of_findSome?_eq_some found
  obtain ⟨i, there⟩ := mem_climb member
  have inside := closed.listed i record proc there (TypeRecord.lists_of_proc? denotes)
  refine ⟨tree.procs[proc.index], ?_⟩
  simp [ObjectTree.proc, proc?, inside]

theorem Closed.proc_of_globalProc? {tree : ObjectTree} (closed : tree.Closed) {name : String}
    {proc : ProcId} (found : tree.globalProc? name = some proc) :
    ∃ entry, tree.proc proc = .ok entry := by
  have inside := closed.global name proc found
  refine ⟨tree.procs[proc.index], ?_⟩
  simp [ObjectTree.proc, proc?, inside]

end ObjectTree

structure Context.Settled (context : Context) : Prop where
  field : ∀ name, ∃ has, context.hasField name = .ok has
  proc : ∀ (target : Target) (proc : ProcId), (target.staticProc context).2 = some proc →
    ∃ entry, context.tree.proc proc = .ok entry

theorem ObjectTree.Closed.settled {tree : ObjectTree} (closed : tree.Closed) {id : ProcId}
    {proc : Proc} (found : tree.proc id = .ok proc) (options : Options) (scope : Scope) :
    Context.Settled { tree, options, proc, scope } := by
  have there : tree.procs[id.index]? = some proc := by
    unfold ObjectTree.proc at found
    split at found
    · cases found
    · next entry held =>
      cases found
      exact held
  refine ⟨?_, ?_⟩
  · intro name
    unfold Context.hasField
    dsimp only
    cases owns : proc.owner with
    | none => exact ⟨false, rfl⟩
    | some owner =>
      have inside := closed.owned id.index proc owner there owns
      refine ⟨tree.types[owner.index].vars.contains name, ?_⟩
      simp [ObjectTree.type, type?, inside, Except.map]
  · intro target callee denotes
    cases target with
    | name identifier =>
      simp only [Target.staticProc] at denotes
      split at denotes
      · next found' =>
        cases denotes
        obtain ⟨owner, -, visible⟩ := Option.bind_eq_some_iff.mp found'
        exact closed.proc_of_findProc? visible
      · exact closed.proc_of_globalProc? denotes
    | globalName identifier => exact closed.proc_of_globalProc? denotes
    | self _ => cases denotes
    | super _ => cases denotes
    | member receiver field safe span =>
      simp only [Target.staticProc] at denotes
      split at denotes
      · exact closed.proc_of_findProc? denotes
      · cases denotes

theorem Context.Settled.lookupSteps {context : Context} (settled : context.Settled)
    (target : Target) :
    target.lookupSteps context = [] := by
  obtain none | ⟨proc, _, denotes, missing, -⟩ := target.lookupSteps_cases context
  · exact none
  · obtain ⟨_, found⟩ := settled.proc target proc denotes
    rw [found] at missing
    cases missing

theorem Context.Settled.meaning {context : Context} (settled : context.Settled) (name : String)
    (cause : Fault) :
    context.meaning name ≠ .fault cause := by
  obtain ⟨has, found⟩ := settled.field name
  unfold Context.meaning
  rw [found]
  cases context.scope.find? name with
  | some _ => simp
  | none =>
    by_cases own : name = "src"
    · simp [own]
    cases has with
    | true => simp [own]
    | false =>
      simp only [own, if_false]
      split <;> simp

namespace Step

theorem faultless_value (value : Value) : Faultless [value.step] := by
  unfold Value.step
  split
  · next constant _ => exact faultless_singleton (.constant constant) rfl
  · exact faultless_singleton .null rfl

theorem faultless_meaning {context : Context} (settled : context.Settled) (name : String) :
    Faultless ((context.meaning name).steps name) := by
  cases means : context.meaning name with
  | fault cause => exact absurd means (settled.meaning name cause)
  | localVar slot => exact faultless_singleton (.getLocal slot) rfl
  | src => exact faultless_singleton .src rfl
  | field =>
    exact (faultless_append [.src] [.field name]).mpr
      ⟨faultless_singleton .src rfl, faultless_singleton (.field name) rfl⟩
  | proc => exact faultless_singleton .null rfl
  | unknown => exact faultless_singleton .null rfl

end Step

theorem Part.Lowers.faultless {context : Context} {part : Part} {steps : List Step}
    {problems : List Diagnostic} (lowers : part.Lowers context steps problems)
    (settled : context.Settled) : Step.Faultless steps := by
  induction lowers with
  | literal | foldedUnary | foldedBinary =>
    exact (Step.faultless_line _ _).mpr (Step.faultless_value _)
  | name identifier =>
    exact (Step.faultless_line _ _).mpr (Step.faultless_meaning settled identifier.name)
  | globalName | super | uncallable =>
    exact (Step.faultless_line _ _).mpr (Step.faultless_singleton .null rfl)
  | self => exact (Step.faultless_line _ _).mpr (Step.faultless_singleton .self rfl)
  | member field safe _ _ ih =>
    have read :=
      (Step.faultless_guardedIf safe _).mpr (Step.faultless_singleton (.field field.name) rfl)
    exact (Step.faultless_append _ _).mpr ⟨ih, read⟩
  | forward _ _ _ receives =>
    rw [Step.faultless_append, Step.faultless_line, Step.faultless_cons rfl]
    exact ⟨receives, Step.faultless_singleton (.call .superProc) rfl⟩
  | call _ _ _ _ _ receives passes =>
    simp only [settled.lookupSteps, List.nil_append, Step.faultless_append, Step.faultless_line,
      Step.faultless_guardedIf]
    exact ⟨receives, passes,
      (Step.faultless_cons rfl _).mpr (Step.faultless_singleton (.call _) rfl)⟩
  | paren _ _ ih | receiverParen _ _ ih | receiverMember _ _ _ _ ih => exact ih
  | @unary op _ _ _ _ _ _ ih =>
    exact (Step.faultless_append _ _).mpr ⟨ih, Step.faultless_singleton (.operator op.opcode) rfl⟩
  | @binary op _ _ _ _ _ _ _ _ _ _ first second =>
    rw [Step.faultless_append, Step.faultless_append]
    exact ⟨first, second, Step.faultless_singleton (.operator op.opcode) rfl⟩
  | unqualified | noArguments => exact Step.faultless_nil
  | argument _ _ _ _ first next => exact (Step.faultless_append _ _).mpr ⟨first, next⟩

def Stmt.declares : Stmt → Bool
  | .var _ _ _ _ => true
  | _ => false

theorem Scope.declare_error {scope : Scope} {name : String} {type : Option TypeId} {fault : Fault}
    (full : scope.declare name type = .error fault) : fault = .tooManyLocals name ∧
      0x10000 ≤ scope.size := by
  unfold declare at full
  split at full
  · cases full
  · cases full
    exact ⟨rfl, by omega⟩

theorem Scope.declareAll_error {scope : Scope} {locals : List LocalDecl} {fault : Fault}
    (full : scope.declareAll locals = .error fault) :
    ∃ name, fault = .tooManyLocals name ∧ 0x10000 < scope.size + locals.length := by
  induction locals generalizing scope with
  | nil => cases full
  | cons first rest ih =>
    unfold declareAll at full
    rw [List.foldlM_cons] at full
    cases declared : scope.declare first.name first.type with
    | error _ =>
      obtain ⟨rfl, many⟩ := declare_error declared
      rw [declared] at full
      cases full
      exact ⟨first.name, rfl, by rw [List.length_cons]; omega⟩
    | ok both =>
      rw [declared] at full
      obtain ⟨name, same, many⟩ := ih (show both.2.declareAll rest = .error fault from full)
      have size := size_declare declared
      exact ⟨name, same, by rw [List.length_cons]; omega⟩

theorem Scope.declareAll_ok {scope inner : Scope} {locals : List LocalDecl}
    (fits : scope.declareAll locals = .ok inner) : inner.size = scope.size + locals.length := by
  induction locals generalizing scope with
  | nil =>
    cases fits
    rfl
  | cons first rest ih =>
    obtain ⟨declared, middle, declares, more⟩ := declareAll_cons_eq_ok fits
    rw [ih more, size_declare declares, List.length_cons]
    omega

theorem Stmt.fault_stepsAll {tree : ObjectTree} {options : Options} {proc : Proc}
    (settled : ∀ scope, Context.Settled { tree, options, proc, scope }) {statements : List Stmt}
    {scope : Scope} {cause : Fault}
    (occurs : Step.Occurs (.fault cause) (stepsAll tree options proc scope statements)) :
    ∃ name, cause = .tooManyLocals name ∧
      0x10000 < scope.size + statements.countP Stmt.declares := by
  induction statements generalizing scope with
  | nil => simp [stepsAll] at occurs
  | cons stmt rest ih =>
    have value (expr : Expr) :
        ¬ Step.Occurs (.fault cause) (expr.steps { tree, options, proc, scope }) :=
      (expr.lowers _).faultless (settled scope) cause
    cases stmt with
    | expr computed =>
      simp only [stepsAll, Step.occurs_cons, Step.occurs_append, value, reduceCtorEq, false_or,
        false_and, exists_false, or_false] at occurs
      simpa [List.countP_cons, declares] using ih occurs
    | ret returned span =>
      cases returned with
      | none =>
        simp only [stepsAll, Step.occurs_cons, reduceCtorEq, false_or, false_and, exists_false,
          or_false] at occurs
        simpa [List.countP_cons, declares] using ih occurs
      | some returned =>
        simp only [stepsAll, Step.occurs_cons, Step.occurs_append, value, reduceCtorEq,
          false_or, false_and, exists_false, or_false] at occurs
        simpa [List.countP_cons, declares] using ih occurs
    | var name typePath init span =>
      rw [stepsAll] at occurs
      have quiet : ¬ Step.Occurs (.fault cause)
          ((init.map fun value => value.steps { tree, options, proc, scope }).getD []) := by
        cases init with
        | none => simp
        | some computed => exact value computed
      simp only [Step.occurs_cons, Step.occurs_append, quiet, reduceCtorEq, false_or, false_and,
        exists_false, or_false] at occurs
      cases declared : scope.declare name.name (typePath.bind tree.find?) with
      | error fault =>
        obtain ⟨rfl, many⟩ := Scope.declare_error declared
        simp only [declared, Step.occurs_cons, Step.fault.injEq, Step.not_occurs_nil,
          reduceCtorEq, false_and, exists_false, or_false] at occurs
        refine ⟨name.name, occurs, ?_⟩
        rw [List.countP_cons_of_pos rfl]
        omega
      | ok both =>
        have size := Scope.size_declare declared
        have store : ¬ Step.Occurs (.fault cause) (if init.isSome then [Step.setLocal both.1.slot]
          else []) := by
          split <;> simp [Step.occurs_cons]
        simp only [declared, Step.occurs_append, store, false_or] at occurs
        obtain ⟨full, same, many⟩ := ih occurs
        refine ⟨full, same, ?_⟩
        rw [List.countP_cons_of_pos rfl]
        omega

theorem Body.fault_steps {tree : ObjectTree} (closed : tree.Closed) {options : Options}
    {body : Body} {proc : Proc} {scope : Scope} (found : tree.proc body.proc = .ok proc)
    (opened : ({} : Scope).declareAll (body.declared proc) = .ok scope) {cause : Fault}
    (occurs : Step.Occurs (.fault cause) (body.steps tree options proc scope)) :
    ∃ name, cause = .tooManyLocals name ∧
      0x10000 < proc.params.length + body.locals.length + body.statements.countP Stmt.declares := by
  have quiet : ¬ Step.Occurs (.fault cause) (Stmt.closing body.statements) := by
    unfold Stmt.closing
    split <;> simp [Step.occurs_cons]
  rw [Body.steps, Step.occurs_append, or_iff_left quiet] at occurs
  obtain ⟨name, same, many⟩ :=
    Stmt.fault_stepsAll (fun scope => closed.settled found options scope) occurs
  have size := Scope.declareAll_ok opened
  simp only [Body.declared, List.length_append, List.length_map] at size
  exact ⟨name, same, by omega⟩

end ProcLowering
