import ProcLowering.Proofs.Faultless
import ProcLowering.Proofs.Outcome

set_option autoImplicit false

namespace ProcLowering

namespace Step

theorem sizeAll_line (number : UInt32) (rest : List Step) : sizeAll (.line number :: rest) =
    sizeAll rest := by
  rw [sizeAll]
  exact Nat.zero_add _

theorem size_value (value : Value) : value.step.size ≤ 3 := by
  unfold Value.step
  split
  · exact Nat.le_refl 3
  · show 1 ≤ 3
    omega

theorem size_meaning (meaning : Meaning) (name : String) : sizeAll (meaning.steps name) ≤ 4 := by
  cases meaning with
  | localVar slot =>
    show (if slot.toNat < 0x100 then 2 else 3) + 0 ≤ 4
    split <;> omega
  | _ => simp [Meaning.steps, sizeAll, size, instruction?, Instruction.size]

theorem size_guardedIf (safe : Bool) (steps : List Step) : sizeAll (guardedIf safe steps) ≤
    3 + sizeAll steps := by
  unfold guardedIf
  split
  · simp [sizeAll, size]
  · omega

theorem size_call (reference : Reference) : (Step.call reference).size ≤ 6 := by
  show 2 + reference.kind.payloadSize ≤ 6
  cases reference.kind <;> simp [ReferenceKind.payloadSize]

theorem size_lookup (context : Context) (target : Target) :
    sizeAll (target.lookupSteps context) = 0 := by
  obtain none | ⟨_, _, -, -, fails⟩ := target.lookupSteps_cases context
  · rw [none]
    rfl
  · rw [fails]
    rfl

end Step

-- The two bytes to spare are for the name of a value that is an argument.
theorem Part.Lowers.size_le {context : Context} {part : Part} {steps : List Step}
    {problems : List Diagnostic} (lowers : part.Lowers context steps problems) :
    Step.sizeAll steps + 2 * part.pushes ≤ 13 * part.nodes := by
  induction lowers with
  | literal value =>
    have := Step.size_value value
    rw [pushes, nodes, Expr.nodes, Step.sizeAll_line, Step.sizeAll_singleton]
    omega
  | name identifier =>
    have := Step.size_meaning (context.meaning identifier.name) identifier.name
    rw [pushes, nodes, Expr.nodes, Step.sizeAll_line]
    omega
  | globalName | self | super =>
    rw [pushes, nodes, Expr.nodes, Step.sizeAll_line]
    exact Nat.le_of_ble_eq_true rfl
  | member field safe _ _ ih =>
    have guarded := Step.size_guardedIf safe [.field field.name]
    have read : Step.sizeAll [.field field.name] = 3 := rfl
    rw [pushes, nodes] at ih
    rw [pushes, nodes, Expr.nodes, Step.sizeAll_append]
    omega
  | @uncallable callee =>
    have null : Step.sizeAll [.null] = 1 := rfl
    have positive := callee.nodes_pos
    rw [pushes, nodes, Expr.nodes, Step.sizeAll_line, null]
    omega
  | forward _ _ _ receives =>
    have calls : Step.sizeAll [.callerArguments, .call .superProc] = 3 := rfl
    rw [nodes] at receives
    rw [pushes, nodes, Expr.nodes, Step.sizeAll_append, Step.sizeAll_line, calls]
    omega
  | @call callee target arguments _ given _ _ _ _ _ _ _ receives passes =>
    have gathered :
        Step.sizeAll [.arguments (Argument.names context.options.maxArguments arguments),
        .call (target.reference context)] =
          2 + 2 * min context.options.maxArguments arguments.length +
            (Step.call (target.reference context)).size := by
      rw [← Argument.length_names]
      rfl
    have called := Step.size_call (target.reference context)
    have guarded := Step.size_guardedIf target.isConditional
      (given ++ [.arguments (Argument.names context.options.maxArguments arguments),
        .call (target.reference context)])
    rw [Step.sizeAll_append, gathered] at guarded
    rw [nodes] at receives
    rw [pushes, nodes] at passes
    rw [pushes, nodes, Expr.nodes, Step.sizeAll_append, Step.size_lookup, Step.sizeAll_append,
      Step.sizeAll_line]
    omega
  | paren _ _ ih =>
    rw [pushes, nodes] at ih
    rw [pushes, nodes, Expr.nodes]
    omega
  | @foldedUnary _ _ _ value | @foldedBinary _ _ _ _ value =>
    have := Step.size_value value
    rw [pushes, nodes, Expr.nodes, Step.sizeAll_line, Step.sizeAll_singleton]
    omega
  | @unary op _ _ _ _ _ _ ih =>
    have operated : Step.sizeAll [.operator op.opcode] = 1 := rfl
    rw [pushes, nodes] at ih
    rw [pushes, nodes, Expr.nodes, Step.sizeAll_append]
    omega
  | @binary op _ _ _ _ _ _ _ _ _ _ first second =>
    have operated : Step.sizeAll [.operator op.opcode] = 1 := rfl
    rw [pushes, nodes] at first second
    rw [pushes, nodes, Expr.nodes, Step.sizeAll_append, Step.sizeAll_append]
    omega
  | receiverParen _ _ ih =>
    rw [pushes, nodes] at ih
    rw [pushes, nodes, Expr.nodes, Expr.receivers]
    omega
  | receiverMember _ _ _ _ ih =>
    rw [pushes, nodes] at ih
    rw [pushes, nodes, Expr.nodes, Expr.receivers]
    omega
  | @unqualified callee bare =>
    have few := callee.receivers_lt_nodes
    rw [pushes, nodes, Step.sizeAll]
    omega
  | @noArguments count arguments none =>
    have zero : min count arguments.length = 0 := by rcases none with rfl | rfl <;> simp
    rw [pushes, zero]
    exact Nat.zero_le _
  | argument _ _ _ _ first next =>
    rw [pushes, nodes] at first
    rw [pushes, nodes] at next
    rw [pushes, nodes, Argument.nodesAll, Step.sizeAll_append, List.length_cons]
    omega

theorem Expr.size_le (context : Context) (expr : Expr) : Step.sizeAll (expr.steps context) + 2 ≤
    13 * expr.nodes :=
  (expr.lowers context).size_le

theorem Stmt.size_le (tree : ObjectTree) (options : Options) (proc : Proc) (statements : List Stmt)
    (scope : Scope) :
    Step.sizeAll (stepsAll tree options proc scope statements) ≤ 13 * nodesAll statements := by
  induction statements generalizing scope with
  | nil => simp [stepsAll, Step.sizeAll]
  | cons stmt rest ih =>
    have later := ih scope
    rw [nodesAll]
    cases stmt with
    | expr computed =>
      have value := computed.size_le { tree, options, proc, scope }
      have pop : Step.pop.size = 1 := rfl
      rw [stepsAll, Step.sizeAll_line, Step.sizeAll_append, Step.sizeAll, Stmt.nodes]
      omega
    | ret returned span =>
      have ret : Step.ret.size = 1 := rfl
      have self : Step.self.size = 1 := rfl
      cases returned with
      | none =>
        rw [stepsAll, Step.sizeAll_line, Step.sizeAll, Step.sizeAll, Stmt.nodes]
        omega
      | some returned =>
        have value := returned.size_le { tree, options, proc, scope }
        rw [stepsAll, Step.sizeAll_line, Step.sizeAll_append, Step.sizeAll, Stmt.nodes,
          Option.map_some, Option.getD_some]
        omega
    | var name typePath init span =>
      have computed :
          Step.sizeAll
          ((init.map fun value => value.steps { tree, options, proc, scope }).getD []) ≤
          13 * (init.map Expr.nodes).getD 0 := by
        cases init with
        | none => exact Nat.le_refl 0
        | some value =>
          have := value.size_le { tree, options, proc, scope }
          rw [Option.map_some, Option.getD_some, Option.map_some, Option.getD_some]
          omega
      rw [stepsAll, Step.sizeAll_line, Step.sizeAll_append, Stmt.nodes]
      cases scope.declare name.name (typePath.bind tree.find?) with
      | error fault =>
        have nothing : Step.sizeAll [.fault fault] = 0 := rfl
        dsimp only
        omega
      | ok both =>
        have after := ih both.2
        have store : Step.sizeAll (if init.isSome then [.setLocal both.1.slot] else []) ≤ 3 := by
          split
          · show (if both.1.slot.toNat < 0x100 then 2 else 3) + 0 ≤ 3
            split <;> omega
          · exact Nat.zero_le 3
        dsimp only
        rw [Step.sizeAll_append]
        omega

theorem Body.size_le (tree : ObjectTree) (options : Options) (proc : Proc) (scope : Scope)
    (body : Body) :
    Step.sizeAll (body.steps tree options proc scope) ≤ 13 * body.nodes + 2 := by
  have statements := Stmt.size_le tree options proc body.statements scope
  have closing : Step.sizeAll (Stmt.closing body.statements) ≤ 2 := by
    unfold Stmt.closing
    split
    · exact Nat.zero_le 2
    · exact Nat.le_refl 2
  rw [Body.steps, Step.sizeAll_append, Body.nodes]
  omega

namespace Body

/-- A limit that a body exceeds, with the fault that tells of it. -/
inductive Exceeds (tree : ObjectTree) (options : Options) (body : Body) : Fault → Prop
  | procs (missing : tree.proc? body.proc = none) :
      Exceeds tree options body (.unknownProc body.proc)
  | slots {proc : Proc} (name : String) (found : tree.proc? body.proc = some proc)
      (many : 65536 < proc.params.length + body.locals.length +
        body.statements.countP Stmt.declares) :
      Exceeds tree options body (.tooManyLocals name)
  | constants {proc : Proc} {scope : Scope} (found : tree.proc? body.proc = some proc)
      (opened : ({} : Scope).declareAll (body.declared proc) = .ok scope)
      (many : 65535 < (Pool.keysOf (Step.constantsAll (body.steps tree options proc scope))).card) :
      Exceeds tree options body (.constantPoolFull 65535)
  | distance {proc : Proc} {scope : Scope} {guarded : List Step}
      (found : tree.proc? body.proc = some proc)
      (opened : ({} : Scope).declareAll (body.declared proc) = .ok scope)
      (occurs : Step.Occurs (.unlessNull guarded) (body.steps tree options proc scope))
      (long : 65535 < Step.sizeAll guarded) :
        Exceeds tree options body (.jumpTooFar (Step.sizeAll guarded))

end Body

theorem ObjectTree.proc_eq_ok_iff (tree : ObjectTree) (id : ProcId) (proc : Proc) :
    tree.proc id = .ok proc ↔ tree.proc? id = some proc := by
  unfold ObjectTree.proc
  cases tree.proc? id <;> simp

theorem ObjectTree.proc_eq_error_iff (tree : ObjectTree) (id : ProcId) (fault : Fault) :
    tree.proc id = .error fault ↔ tree.proc? id = none ∧ fault = .unknownProc id := by
  unfold ObjectTree.proc
  cases tree.proc? id <;> simp [eq_comm]

theorem Emitter.finish_eq_ok {emitter : Emitter} (bound : ∀ state ∈ emitter.labels.states.toList,
    state.offset.isSome) :
    emitter.finish = .ok (emitter.chunk, emitter.pool) := by
  have settled : emitter.labels.checkBound = .ok () := by
    refine (Labels.checkBound_eq_ok_iff _).mpr ?_
    intro id state held unbound
    have := bound state (Array.mem_toList_iff.mpr (Array.mem_of_getElem? held))
    simp [unbound] at this
  exact (finish_eq_ok_iff _ _).mpr ⟨settled, rfl⟩

theorem Step.Balanced.take {limit depth last : Nat} {taken more : List Step}
    (balanced : Balanced limit depth (taken ++ more) last) :
      ∃ middle, Balanced limit depth taken middle := by
  induction taken generalizing depth with
  | nil => exact ⟨depth, .nil _⟩
  | cons step rest ih =>
    cases balanced with
    | line tail =>
      obtain ⟨middle, head⟩ := ih tail
      exact ⟨middle, .line head⟩
    | straight written ready enough alone fits tail =>
      obtain ⟨middle, head⟩ := ih tail
      exact ⟨middle, .straight written ready enough alone fits head⟩
    | unlessNull tested inside tail =>
      obtain ⟨middle, head⟩ := ih tail
      exact ⟨middle, .unlessNull tested inside head⟩
    | fault => exact ⟨depth, .fault⟩

namespace Body

theorem exceeds_of_failed {tree : ObjectTree} (closed : tree.Closed) {options : Options}
    {body : Body} (small : body.nodes < 0x80000000) {proc : Proc} {scope : Scope}
    (found : tree.proc body.proc = .ok proc)
    (opened : ({} : Scope).declareAll (body.declared proc) = .ok scope) {fault : Fault}
    {stopped : Emitter}
    (failed : Step.Failed {} (body.steps tree options proc scope) fault stopped) :
      body.Exceeds tree options fault := by
  have there := (tree.proc_eq_ok_iff body.proc proc).mp found
  cases failed.cause with
  | full many =>
    refine .constants there opened (Nat.lt_of_lt_of_le many ?_)
    have subset := failed.grown.keys_subset
    have empty : Pool.keys ({} : Emitter).pool = ∅ := rfl
    rw [empty, Finset.empty_union] at subset
    rw [← failed.grown.sound.card_keys]
    exact Finset.card_le_card subset
  | far occurs long => exact .distance there opened occurs long
  | fault occurs =>
    obtain ⟨name, rfl, many⟩ := fault_steps closed found opened occurs
    exact .slots name there many
  | huge long =>
    -- A body of this size has no code that long.
    have size := body.size_le tree options proc scope
    have limit : UInt64.size = 18446744073709551616 := rfl
    have start : ({} : Emitter).chunk.size = 0 := rfl
    omega

theorem bounded_of_emitting (tree : ObjectTree) (options : Options) (proc : Proc) (scope : Scope)
    {body : Body} (small : body.nodes < 0x80000000) {taken : List Step}
    (first : taken <+: body.steps tree options proc scope) {left : Emitter}
    (leaves : (∃ done, (Step.emitAll taken).run {} = .ok done left) ∨
      ∃ fault, (Step.emitAll taken).run {} = .error fault left) :
    0 ≤ left.depth ∧ left.depth < 0x80000000 ∧ left.maxDepth < 0x80000000 := by
  obtain ⟨more, parts⟩ := first
  have balanced := body.balanced tree options proc scope
  rw [← parts] at balanced
  obtain ⟨depth, head⟩ := balanced.take
  have bounded : left.Bounded (max 1 body.nodes) := by
    rcases leaves with ⟨_, ran⟩ | ⟨_, ran⟩
    · exact (head.emitting.of_ok Pool.sound_empty rfl (Emitter.bounded_start _) ran).2
    · exact (head.emitting.of_error Pool.sound_empty rfl (Emitter.bounded_start _) ran).2
  have high := bounded.high
  have most := bounded.most
  exact ⟨bounded.low, by omega, by omega⟩

/-- No body is a fault except through a limit that it really exceeds. -/
theorem compile_fault {tree : ObjectTree} (reachable : tree.Reachable) (options : Options)
    (body : Body) (small : body.nodes < 0x80000000) :
    (∀ fault, body.compile tree options = .error fault → body.Exceeds tree options fault) ∧
      ∀ proc scope taken left, taken <+: body.steps tree options proc scope →
        ((∃ done, (Step.emitAll taken).run {} = .ok done left) ∨
          ∃ fault, (Step.emitAll taken).run {} = .error fault left) →
          0 ≤ left.depth ∧ left.depth < 0x80000000 ∧ left.maxDepth < 0x80000000 := by
  refine ⟨?_, fun proc scope _ _ first leaves =>
    bounded_of_emitting tree options proc scope small first leaves⟩
  intro fault failed
  have compiles := body.compiles tree options
  rw [failed] at compiles
  generalize result : (Except.error fault : Except Fault CompiledProc) = outcome at compiles
  cases compiles with
  | unknown missing =>
    cases result
    obtain ⟨none, rfl⟩ := (tree.proc_eq_error_iff _ _).mp missing
    exact .procs none
  | @crowded _ proc found full =>
    cases result
    obtain ⟨name, rfl, many⟩ := Scope.declareAll_error full
    refine .slots name ((tree.proc_eq_ok_iff _ _).mp found) ?_
    have empty : ({} : Scope).size = 0 := rfl
    simp only [declared, List.length_append, List.length_map] at many
    omega
  | @stopped _ proc scope emitter found opened ran =>
    cases result
    have emitting := (body.balanced tree options proc scope).emitting
    have failed := (emitting.of_error Pool.sound_empty rfl (Emitter.bounded_start _) ran).1
    exact exceeds_of_failed reachable.closed small found opened failed
  | @finished proc scope emitter diagnostics found opened ran =>
    -- Every label of an emitted step is bound, so code that is emitted can be finished.
    have emitting := (body.balanced tree options proc scope).emitting
    obtain ⟨more, states, bound⟩ :=
      (emitting.of_ok Pool.sound_empty rfl (Emitter.bounded_start _) ran).1.labels
    have finish : emitter.finish = .ok (emitter.chunk, emitter.pool) := by
      apply Emitter.finish_eq_ok
      rw [states]
      simpa using bound
    rw [finish] at result
    cases result

def smallTree : ObjectTree :=
  TreeOp.finalize.run.after ((TreeOp.newProc .root "step" {}).run.after .empty)

def strayBody : Body where
  proc := ⟨2⟩
  statements :=
    [.expr (.call (.member (.name ⟨"src", {}⟩) ⟨"step", {}⟩ true {}) [.ofValue none (.self {})] {})]

theorem compile_strayBody :
    smallTree.Reachable ∧ strayBody.nodes < 0x80000000 ∧
      strayBody.compile smallTree {} = .error (.unknownProc ⟨2⟩) ∧
      strayBody.Exceeds smallTree {} (.unknownProc ⟨2⟩) := by
  have reachable : smallTree.Reachable := (ObjectTree.Reachable.empty.after _).after _
  have small : strayBody.nodes < 0x80000000 := by decide +kernel
  have missing : (smallTree.proc? ⟨2⟩).isNone = true := by decide +kernel
  have failed : strayBody.compile smallTree {} = .error (.unknownProc ⟨2⟩) := by
    have unknown : smallTree.proc strayBody.proc = .error (.unknownProc ⟨2⟩) :=
      (smallTree.proc_eq_error_iff _ _).mpr ⟨Option.isNone_iff_eq_none.mp missing, rfl⟩
    unfold compile
    rw [unknown]
    rfl
  exact ⟨reachable, small, failed, (compile_fault reachable {} strayBody small).1 _ failed⟩

end Body

end ProcLowering
