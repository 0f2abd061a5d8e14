import ProcLowering.Proofs.BodySteps
import ProcLowering.Proofs.Parts

set_option autoImplicit false

namespace ProcLowering

mutual

def Expr.nodes : Expr → Nat
  | .literal _ _ | .name _ | .globalName _ | .self _ | .super _ => 1
  | .member receiver _ _ _ => receiver.nodes + 1
  | .call callee arguments _ => callee.nodes + Argument.nodesAll arguments + 1
  | .unary _ operand _ => operand.nodes + 1
  | .binary _ left right _ => left.nodes + right.nodes + 1
  | .paren inner _ => inner.nodes + 1

def Argument.nodesAll : List Argument → Nat
  | [] => 0
  | .mk _ value _ :: rest => value.nodes + Argument.nodesAll rest

end

def Stmt.nodes : Stmt → Nat
  | .expr value => value.nodes + 1
  | .var _ _ init _ => (init.map Expr.nodes).getD 0 + 1
  | .ret value _ => (value.map Expr.nodes).getD 0 + 1

def Stmt.nodesAll : List Stmt → Nat
  | [] => 0
  | stmt :: rest => stmt.nodes + nodesAll rest

def Body.nodes (body : Body) : Nat := Stmt.nodesAll body.statements

theorem Expr.nodes_pos (expr : Expr) : 0 < expr.nodes := by
  cases expr <;> simp [nodes]

def Expr.receivers : Expr → Nat
  | .paren inner _ => inner.receivers
  | .member _ _ _ _ => 1
  | _ => 0

theorem Expr.receivers_stripped (expr : Expr) : expr.stripped.receivers = expr.receivers := by
  induction expr using Expr.stripped.induct with
  | case1 inner span ih => rw [Expr.stripped, ih, Expr.receivers]
  | case2 expr bare => rw [Expr.stripped]; exact bare

theorem Expr.receivers_lt_nodes (expr : Expr) : expr.receivers < expr.nodes := by
  induction expr using Expr.receivers.induct with
  | case1 inner span ih =>
    rw [Expr.receivers, Expr.nodes]
    omega
  | case2 receiver field safe span =>
    rw [Expr.receivers, Expr.nodes]
    have := receiver.nodes_pos
    omega
  | case3 expr _ _ =>
    rw [Expr.receivers]
    · exact expr.nodes_pos
    all_goals assumption

namespace Target

theorem receivers_eq {callee : Expr} {target : Target} (context : Context)
    (called : ofExpr? callee = some target) :
    callee.receivers = if (target.reference context).takesReceiver then 1 else 0 := by
  rw [← callee.receivers_stripped]
  unfold ofExpr? at called
  split at called <;> cases called
  all_goals simp only [*, Expr.receivers, reference]
  · split
    · rfl
    · split <;> rfl
  all_goals rfl

theorem receivers_of_isConditional {callee : Expr} {target : Target}
    (called : ofExpr? callee = some target) (safe : target.isConditional = true) :
    callee.receivers = 1 := by
  rw [← callee.receivers_stripped]
  unfold ofExpr? at called
  split at called <;> cases called <;> simp_all [isConditional, Expr.receivers]

theorem lookupSteps_cases (context : Context) (target : Target) : target.lookupSteps context = [] ∨
    ∃ proc fault, (target.staticProc context).2 = some proc ∧
      context.tree.proc proc = .error fault ∧
      target.lookupSteps context = [.fault fault] := by
  unfold lookupSteps
  split
  · exact Or.inl rfl
  · next proc denotes =>
    split
    · next fault _ missing => exact Or.inr ⟨proc, fault, denotes, missing, rfl⟩
    · exact Or.inl rfl

end Target

namespace Step

variable {limit depth : Nat}

theorem balanced_step (step : Step) {instruction : Instruction}
    (written : step.instruction? = some instruction) (ready : step.Ready)
    (gives : instruction.pushes = 1) (fits : depth + 1 ≤ limit) :
    Balanced limit (depth + instruction.pops) [step] (depth + 1) := by
  have onward : depth + instruction.pops - instruction.pops + instruction.pushes = depth + 1 := by
    omega
  have running : instruction ≠ .ret := by
    rintro rfl
    cases gives
  refine .straight written ready (Nat.le_add_left _ _) (fun ret => absurd ret running) (by omega) ?_
  rw [onward]
  exact .nil _

theorem balanced_push (step : Step) {instruction : Instruction}
    (written : step.instruction? = some instruction) (ready : step.Ready)
    (takes : instruction.pops = 0) (gives : instruction.pushes = 1) (fits : depth + 1 ≤ limit) :
    Balanced limit depth [step] (depth + 1) := by
  have balanced := balanced_step step written ready gives fits
  rwa [takes] at balanced

theorem balanced_field (name : String) (fits : depth + 1 ≤ limit) :
    Balanced limit (depth + 1) [.field name] (depth + 1) :=
  balanced_step (.field name) rfl trivial rfl fits

theorem balanced_value (value : Value) (fits : depth + 1 ≤ limit) :
    Balanced limit depth [value.step] (depth + 1) := by
  unfold Value.step
  split
  · next constant _ => exact balanced_push (.constant constant) rfl trivial rfl rfl fits
  · exact balanced_push .null rfl trivial rfl rfl fits

theorem balanced_guardedIf {safe : Bool} {steps : List Step} {last : Nat}
    (tested : safe = true → 1 ≤ depth ∧ last = depth) (balanced : Balanced limit depth steps last) :
    Balanced limit depth (guardedIf safe steps) last := by
  unfold guardedIf
  split
  · next guarded =>
    obtain ⟨positive, rfl⟩ := tested guarded
    exact .unlessNull positive balanced (.nil _)
  · exact balanced

theorem balanced_meaning (meaning : Meaning) (name : String) (fits : depth + 1 ≤ limit) :
    Balanced limit depth (meaning.steps name) (depth + 1) := by
  cases meaning with
  | localVar slot => exact balanced_push (.getLocal slot) rfl trivial rfl rfl fits
  | src => exact balanced_push .src rfl trivial rfl rfl fits
  | field => exact (balanced_push .src rfl trivial rfl rfl fits).append (balanced_field name fits)
  | proc => exact balanced_push .null rfl trivial rfl rfl fits
  | unknown => exact balanced_push .null rfl trivial rfl rfl fits
  | fault cause => exact .fault

theorem balanced_unary (op : UnaryOp) (fits : depth + 1 ≤ limit) :
    Balanced limit (depth + 1) [.operator op.opcode] (depth + 1) := by
  have ready : Ready (.operator op.opcode) := by cases op <;> exact ⟨rfl, _, rfl⟩
  have takes : Instruction.pops (.operator op.opcode) = 1 := by cases op <;> rfl
  have balanced := balanced_step (.operator op.opcode) rfl ready rfl fits
  rwa [takes] at balanced

theorem balanced_binary (op : BinaryOp) (fits : depth + 1 ≤ limit) :
    Balanced limit (depth + 2) [.operator op.opcode] (depth + 1) := by
  have ready : Ready (.operator op.opcode) := by cases op <;> exact ⟨rfl, _, rfl⟩
  have takes : Instruction.pops (.operator op.opcode) = 2 := by cases op <;> rfl
  have balanced := balanced_step (.operator op.opcode) rfl ready rfl fits
  rwa [takes] at balanced

theorem balanced_call (reference : Reference) (fits : depth + 1 ≤ limit) :
    Balanced limit (depth + (if reference.takesReceiver then 1 else 0) + 1) [.call reference]
      (depth + 1) := by
  have takes : Instruction.pops (.call reference) =
    (if reference.takesReceiver then 1 else 0) + 1 := by
    simp only [Instruction.pops]
    split <;> rfl
  rw [Nat.add_assoc, ← takes]
  exact balanced_step (.call reference) rfl trivial rfl fits

theorem balanced_lookup (context : Context) (target : Target) (last : Nat) (same : last = depth) :
    Balanced limit depth (target.lookupSteps context) last := by
  subst same
  obtain none | ⟨_, _, -, -, fails⟩ := target.lookupSteps_cases context
  · rw [none]
    exact .nil _
  · rw [fails]
    exact .fault

@[simp] theorem faultless_guardedIf (safe : Bool) (steps : List Step) :
    Faultless (guardedIf safe steps) ↔ Faultless steps := by
  cases safe <;> simp [guardedIf]

end Step

namespace Argument

theorem length_names (limit : Nat) (arguments : List Argument) :
    (names limit arguments).length = min limit arguments.length := by
  simp [names]

end Argument

namespace Part

def nodes : Part → Nat
  | .value expr | .receiver expr => expr.nodes
  | .passed _ arguments => Argument.nodesAll arguments

def pushes : Part → Nat
  | .value _ => 1
  | .receiver callee => callee.receivers
  | .passed count arguments => min count arguments.length

theorem Lowers.balanced {context : Context} {part : Part} {steps : List Step}
    {problems : List Diagnostic} (lowers : part.Lowers context steps problems) {limit depth : Nat}
    (fits : depth + part.nodes ≤ limit) :
    Step.Balanced limit depth steps (depth + part.pushes) := by
  induction lowers generalizing depth with
  | literal value =>
    rw [nodes, Expr.nodes] at fits
    exact .line (Step.balanced_value value fits)
  | name =>
    rw [nodes, Expr.nodes] at fits
    exact .line (Step.balanced_meaning _ _ fits)
  | globalName | super =>
    rw [nodes, Expr.nodes] at fits
    exact .line (Step.balanced_push .null rfl trivial rfl rfl fits)
  | self =>
    rw [nodes, Expr.nodes] at fits
    exact .line (Step.balanced_push .self rfl trivial rfl rfl fits)
  | @member receiver _ _ field safe span _ ih =>
    rw [nodes, Expr.nodes] at fits
    have read := Step.balanced_field field.name (show depth + 1 ≤ limit by omega)
    exact (ih (show depth + receiver.nodes ≤ limit by omega)).append
      (Step.balanced_guardedIf (fun _ => ⟨Nat.le_add_left 1 depth, rfl⟩) read)
  | uncallable =>
    rw [nodes, Expr.nodes] at fits
    exact .line (Step.balanced_push .null rfl trivial rfl rfl (by omega))
  | @forward callee place _ _ called _ _ receives =>
    rw [nodes, Expr.nodes] at fits
    have receives := receives (show depth + callee.nodes ≤ limit by omega)
    rw [pushes, Target.receivers_eq context called] at receives
    have passes : Step.Balanced limit depth [.callerArguments] (depth + 1) :=
      Step.balanced_push .callerArguments rfl trivial rfl rfl (by omega)
    exact receives.append (.line (passes.append (Step.balanced_call .superProc (by omega))))
  | @call callee target arguments _ _ _ _ called _ span _ _ receives passes =>
    rw [nodes, Expr.nodes] at fits
    have taken := callee.receivers_lt_nodes
    have few : (Argument.names context.options.maxArguments arguments).length ≤ 0xFF := by
      have := context.options.maxArguments_le
      rw [Argument.length_names]
      omega
    have gathers :=
      Step.balanced_step
        (.arguments (Argument.names context.options.maxArguments arguments)) rfl few rfl
      (show depth + callee.receivers + 1 ≤ limit by omega)
    rw [Instruction.pops, Argument.length_names] at gathers
    have calls := Step.balanced_call (target.reference context) (show depth + 1 ≤ limit by omega)
    rw [← Target.receivers_eq context called] at calls
    -- The callee has a node of its own, so its receiver leaves room for the argument list.
    have receives := receives (show depth + callee.nodes ≤ limit by omega)
    have passes :=
      passes (show depth + callee.receivers + Argument.nodesAll arguments ≤ limit by omega)
    refine (Step.balanced_lookup context target depth rfl).append (receives.append (.line ?_))
    refine Step.balanced_guardedIf (fun safe => ?_) (passes.append (gathers.append calls))
    have one : callee.receivers = 1 := Target.receivers_of_isConditional called safe
    exact ⟨by rw [pushes, one]; exact Nat.le_add_left 1 depth, by rw [pushes, pushes, one]⟩
  | @paren inner _ _ _ _ ih =>
    rw [nodes, Expr.nodes] at fits
    exact ih (show depth + inner.nodes ≤ limit by omega)
  | foldedUnary | foldedBinary =>
    rw [nodes, Expr.nodes] at fits
    exact .line (Step.balanced_value _ (by omega))
  | @unary op operand _ _ _ _ _ ih =>
    rw [nodes, Expr.nodes] at fits
    exact (ih (show depth + operand.nodes ≤ limit by omega)).append
      (Step.balanced_unary op (by omega))
  | @binary op left right _ _ _ _ _ _ _ _ first second =>
    rw [nodes, Expr.nodes] at fits
    have first := first (show depth + left.nodes ≤ limit by omega)
    have second := second (show depth + 1 + right.nodes ≤ limit by omega)
    exact first.append (second.append (Step.balanced_binary op (by omega)))
  | @receiverParen callee _ _ _ _ ih =>
    rw [nodes, Expr.nodes] at fits
    rw [pushes, Expr.receivers]
    exact ih (show depth + callee.nodes ≤ limit by omega)
  | @receiverMember receiver _ _ _ _ _ _ ih =>
    rw [nodes, Expr.nodes] at fits
    exact ih (show depth + receiver.nodes ≤ limit by omega)
  | @unqualified callee bare =>
    have none : callee.receivers = 0 := by cases callee <;> first | rfl | cases bare
    rw [pushes, none]
    exact .nil depth
  | @noArguments count arguments none =>
    have zero : min count arguments.length = 0 := by rcases none with rfl | rfl <;> simp
    rw [pushes, zero]
    exact .nil depth
  | @argument count value rest _ _ _ _ _ _ _ _ first next =>
    rw [nodes, Argument.nodesAll] at fits
    have positive := value.nodes_pos
    have first := first (show depth + value.nodes ≤ limit by omega)
    have next := next (show depth + 1 + Argument.nodesAll rest ≤ limit by omega)
    have onward : depth + 1 + min count rest.length =
      depth + min (count + 1) (rest.length + 1) := by
      omega
    rw [pushes, List.length_cons, ← onward]
    exact first.append next

end Part

namespace Step

variable {limit : Nat} {rest : List Step} {last : Nat}

theorem Balanced.takes (step : Step) {instruction : Instruction}
    (written : step.instruction? = some instruction) (ready : step.Ready)
    (one : instruction.pops = 1) (none : instruction.pushes = 0)
    (tail : Balanced limit 0 rest last) : Balanced limit 1 (step :: rest) last := by
  refine .straight written ready (by omega) (fun _ => rfl) (by omega) ?_
  rw [one, none]
  exact tail

end Step

theorem Stmt.balanced (tree : ObjectTree) (options : Options) (proc : Proc) {limit : Nat}
    (positive : 1 ≤ limit) (statements : List Stmt) (scope : Scope)
    (fits : nodesAll statements ≤ limit) :
    Step.Balanced limit 0 (stepsAll tree options proc scope statements) 0 := by
  induction statements generalizing scope with
  | nil => exact .nil 0
  | cons stmt rest ih =>
    rw [nodesAll] at fits
    have later (scope : Scope) : Step.Balanced limit 0 (stepsAll tree options proc scope rest) 0 :=
      ih scope (by omega)
    have value (expr : Expr) (small : expr.nodes ≤ limit) :
        Step.Balanced limit 0 (expr.steps { tree, options, proc, scope }) 1 :=
      (expr.lowers _).balanced (show 0 + expr.nodes ≤ limit by omega)
    cases stmt with
    | expr computed =>
      rw [Stmt.nodes] at fits
      exact .line ((value computed (by omega)).append
        (.takes .pop rfl trivial rfl rfl (later scope)))
    | ret returned span =>
      cases returned with
      | none =>
        have pushed : Step.Balanced limit 0 [.self] 1 :=
          Step.balanced_push .self rfl trivial rfl rfl positive
        exact .line (pushed.append (.takes .ret rfl trivial rfl rfl (later scope)))
      | some returned =>
        simp only [Stmt.nodes, Option.map_some, Option.getD_some] at fits
        exact .line ((value returned (by omega)).append
          (.takes .ret rfl trivial rfl rfl (later scope)))
    | var name typePath init span =>
      rw [stepsAll]
      cases init with
      | none =>
        refine .line ?_
        cases scope.declare name.name (typePath.bind tree.find?) with
        | error fault => exact .fault
        | ok both => exact later both.2
      | some computed =>
        simp only [Stmt.nodes, Option.map_some, Option.getD_some] at fits
        refine .line ((value computed (by omega)).append ?_)
        cases scope.declare name.name (typePath.bind tree.find?) with
        | error fault => exact .fault
        | ok both => exact .takes (.setLocal both.1.slot) rfl trivial rfl rfl (later both.2)

theorem Stmt.closing_balanced {limit : Nat} (positive : 1 ≤ limit) (statements : List Stmt) :
    Step.Balanced limit 0 (closing statements) 0 := by
  unfold closing
  split
  · exact .nil 0
  · have pushed : Step.Balanced limit 0 [.self] 1 :=
      Step.balanced_push .self rfl trivial rfl rfl positive
    exact pushed.append (.takes .ret rfl trivial rfl rfl (.nil 0))

theorem Body.balanced (tree : ObjectTree) (options : Options) (proc : Proc) (scope : Scope)
    (body : Body) :
    Step.Balanced (max 1 body.nodes) 0 (body.steps tree options proc scope) 0 := by
  have positive : 1 ≤ max 1 body.nodes := Nat.le_max_left _ _
  have room : Stmt.nodesAll body.statements ≤ max 1 body.nodes := Nat.le_max_right _ _
  exact (Stmt.balanced tree options proc positive body.statements scope room).append
    (Stmt.closing_balanced positive body.statements)

theorem Emitter.bounded_start (limit : Nat) : Bounded limit {} := by
  refine ⟨le_refl _, ?_, ?_⟩ <;> exact Int.natCast_nonneg limit

theorem Body.compile_emits {tree : ObjectTree} {options : Options} {body : Body}
    {compiled : CompiledProc} (done : body.compile tree options = .ok compiled) :
    ∃ proc scope emitter, tree.proc body.proc = .ok proc ∧
      ({} : Scope).declareAll (body.declared proc) = .ok scope ∧
      (Step.emitAll (body.steps tree options proc scope)).run {} = .ok () emitter ∧
        compiled.chunk = emitter.chunk ∧ compiled.pool = emitter.pool := by
  have cases := body.compiles tree options
  rw [done] at cases
  generalize result : (Except.ok compiled : Except Fault CompiledProc) = outcome at cases
  cases cases with
  | unknown _ => cases result
  | crowded _ _ => cases result
  | stopped _ _ _ => cases result
  | @finished proc scope emitter diagnostics found opened ran =>
    refine ⟨proc, scope, emitter, found, opened, ran, ?_⟩
    cases finished : emitter.finish with
    | error fault =>
      rw [finished] at result
      cases result
    | ok both =>
      obtain ⟨-, rfl⟩ := (Emitter.finish_eq_ok_iff _ _).mp finished
      rw [finished] at result
      cases result
      exact ⟨rfl, rfl⟩

theorem Body.compile_listing {tree : ObjectTree} {options : Options} {body : Body}
    {compiled : CompiledProc} (done : body.compile tree options = .ok compiled) :
    ∃ proc scope listing, tree.proc body.proc = .ok proc ∧
      ({} : Scope).declareAll (body.declared proc) = .ok scope ∧
        Step.Lowered 0 (body.steps tree options proc scope) listing compiled.chunk.size ∧
          compiled.chunk.decode compiled.pool = .ok listing := by
  obtain ⟨proc, scope, emitter, found, opened, ran, chunk, pool⟩ := compile_emits done
  have emitting := (body.balanced tree options proc scope).emitting
  obtain ⟨code, listing, written, lowered, reads⟩ :=
    (emitting.of_ok Pool.sound_empty rfl (Emitter.bounded_start _) ran).1.code
  refine ⟨proc, scope, listing, found, opened, chunk ▸ lowered, ?_⟩
  rw [chunk, pool]
  apply Listed.decode_eq
  refine reads emitter.chunk emitter.pool (Pool.extends_refl _) ?_
  have whole : emitter.chunk.code = [] ++ (code.map (·.value) ++ []) := by
    simp [Chunk.code, written]
  exact Chunk.holds_of_code whole

end ProcLowering
