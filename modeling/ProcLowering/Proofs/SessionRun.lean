import ProcLowering.Session
import ProcLowering.Proofs.Frozen
import ProcLowering.Proofs.SourceOrder

set_option autoImplicit false

namespace ProcLowering

namespace Session

theorem update_eq {α : Type} (session : Session) (change : TreeUpdate α) :
    (session.update change).2 = { session with tree := change.after session.tree } := by
  obtain ⟨tree, options⟩ := session
  dsimp only [update, TreeUpdate.after]
  cases change.run tree <;> rfl

def updates (session : Session) (history : List TreeOp) : Session :=
  history.foldl (fun session op => (session.update op.run).2) session

theorem updates_eq (session : Session) (history : List TreeOp) :
    session.updates history =
      { session with tree := history.foldl (fun tree op => op.run.after tree) session.tree } := by
  induction history generalizing session with
  | nil => rfl
  | cons op rest ih =>
    rw [updates, List.foldl_cons, update_eq]
    exact ih _

inductive Reachable : Session → Prop
  | new (options : Options) : Reachable { options }
  | update {session : Session} (reachable : Reachable session) (op : TreeOp) :
      Reachable (session.update op.run).2
  | pragma {session later : Session} {text : String} (reachable : Reachable session)
      (accepted : session.applyPragma text = .ok later) : Reachable later

theorem applyPragma_tree {session later : Session} {text : String}
    (accepted : session.applyPragma text = .ok later) : later.tree = session.tree := by
  unfold applyPragma at accepted
  split at accepted
  · cases accepted
    rfl
  · cases accepted

theorem Reachable.tree {session : Session} (reachable : session.Reachable) :
    session.tree.Reachable := by
  induction reachable with
  | new => exact .empty
  | update _ op ih =>
    rw [update_eq]
    exact ih.after op
  | pragma _ accepted ih => exact applyPragma_tree accepted ▸ ih

theorem compile_of_finalized {session : Session} (finalized : session.tree.finalized = true)
    (bodies : List Body) : session.compile bodies =
      (CompiledUnit.compile session.tree session.options bodies).mapError .internal := by
  simp [compile, requireFinalized, finalized, Bind.bind, Except.bind]

theorem compileProc_of_finalized {session : Session} (finalized : session.tree.finalized = true)
    (proc : ProcId) (statements : List Stmt) : session.compileProc proc statements =
      (({ proc, statements } : Body).compile session.tree session.options).mapError .internal := by
  simp [compileProc, requireFinalized, finalized, Bind.bind, Except.bind]

theorem compile_eq_ok_iff {session : Session} {bodies : List Body} {unit : CompiledUnit} :
    session.compile bodies = .ok unit ↔ session.tree.finalized = true ∧
      CompiledUnit.compile session.tree session.options bodies = .ok unit := by
  by_cases finalized : session.tree.finalized = true
  · rw [compile_of_finalized finalized]
    cases CompiledUnit.compile session.tree session.options bodies <;>
      simp [Except.mapError, finalized]
  · simp [compile, requireFinalized, finalized, Bind.bind, Except.bind]

-- Only what a body is compiled to enters a unit, so bodies that two
-- trees compile alike make one unit.
theorem compile_congr {tree later : ObjectTree} {options : Options} {bodies : List Body}
    (same : ∀ body ∈ bodies, body.compile later options = body.compile tree options) :
    CompiledUnit.compile later options bodies = CompiledUnit.compile tree options bodies := by
  unfold CompiledUnit.compile
  generalize ({ diagnostics := { levels := options.levels } } : CompiledUnit) = start
  induction bodies generalizing start with
  | nil => rfl
  | cons body rest ih =>
    rw [List.foldlM_cons, List.foldlM_cons, same body (by simp)]
    exact bind_congr fun unit => ih (fun other member => same other (by simp [member])) unit

theorem compile_updates {session : Session} {bodies : List Body} {history : List TreeOp}
    (reachable : session.Reachable) (finalized : session.tree.finalized = true)
    (untouched : ∀ body ∈ bodies, ∃ proc, session.tree.proc body.proc = .ok proc ∧
      ∀ op ∈ history, ¬ op.Touches session.tree proc body) :
    (session.updates history).compile bodies = session.compile bodies := by
  have finalized' : (session.updates history).tree.finalized = true := by
    rw [updates_eq]
    exact TreeOp.run_finalized reachable.tree finalized history
  rw [compile_of_finalized finalized', compile_of_finalized finalized, updates_eq]
  refine congrArg (Except.mapError BuildError.internal) (compile_congr fun body member => ?_)
  obtain ⟨proc, found, kept⟩ := untouched body member
  exact Body.compile_of_untouched reachable.tree finalized found kept session.options rfl

theorem compile_ordered {session : Session} {bodies : List Body} {unit : CompiledUnit}
    (done : session.compile bodies = .ok unit) :
    SortedFrom Diagnostic.span (unit.procs.toList.flatMap (·.diagnostics.items.toList))
        unit.diagnostics.items.toList ∧
      ∀ order : List Nat, order.Perm (List.range bodies.length) →
        ∃ other, session.compile (order.filterMap (bodies[·]?)) = .ok other ∧
          unit.Reorders order other := by
  obtain ⟨finalized, compiles⟩ := compile_eq_ok_iff.mp done
  obtain ⟨procs, listed, -, sorts⟩ := CompiledUnit.compile_sorted compiles ⟨.refl [], .nil⟩
  obtain rfl : unit.procs.toList = procs := listed
  refine ⟨sorts, fun order permutes => ?_⟩
  obtain ⟨other, again, reorders⟩ := CompiledUnit.reorders_of_compile compiles permutes
  exact ⟨other, compile_eq_ok_iff.mpr ⟨finalized, again⟩, reorders⟩

-- A proc that is compiled alone comes without locals of its own.
theorem compileProc_of_compile {session : Session} {bodies : List Body} {unit : CompiledUnit}
    (done : session.compile bodies = .ok unit) (bare : ∀ body ∈ bodies, body.locals = []) :
    List.Forall₂ (fun body compiled => session.compileProc body.proc body.statements = .ok compiled)
      bodies unit.procs.toList := by
  obtain ⟨finalized, compiles⟩ := compile_eq_ok_iff.mp done
  obtain ⟨procs, listed, pairs, -⟩ := CompiledUnit.compile_sorted compiles ⟨.refl [], .nil⟩
  obtain rfl : unit.procs.toList = procs := listed
  have alone :
      ∀ body ∈ bodies, ({ proc := body.proc, statements := body.statements } : Body) = body := by
    rintro ⟨proc, locals, statements⟩ member
    obtain rfl : locals = [] := bare _ member
    rfl
  refine List.Forall₂.imp (fun body compiled both => ?_)
    ((List.forall₂_and_left _ _).mpr ⟨alone, pairs⟩)
  rw [compileProc_of_finalized finalized, both.1, both.2]
  rfl

end Session

end ProcLowering
