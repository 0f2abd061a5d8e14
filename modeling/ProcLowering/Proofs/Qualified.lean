import ProcLowering.Proofs.Backing
import ProcLowering.Proofs.CallSites

set_option autoImplicit false

namespace ProcLowering

namespace Expr

/-- Only a local and the object itself have a static type, and both are values. -/
theorem problems_of_staticType? (context : Context) {type : TypeId} :
    (expr : Expr) → context.staticType? expr = some type → expr.problems context = []
  | .paren inner span, typed => by
    have inside : context.staticType? inner = some type := by
      simpa [Context.staticType?, stripped] using typed
    rw [problems, problems_of_staticType? context inner inside]
  | .name identifier, typed => by
    simp only [Context.staticType?, stripped] at typed
    have value : (context.meaning identifier.name).problem? identifier = none := by
      rw [Context.meaning]
      cases found : context.scope.find? identifier.name with
      | some there => rfl
      | none =>
        simp only [found] at typed
        obtain ⟨itself, -⟩ := Option.ite_none_right_eq_some.mp typed
        simp only [itself, if_true, Meaning.problem?]
    rw [problems, value, Option.toList_none]
  | .literal _ _, typed | .globalName _, typed | .self _, typed | .super _, typed
  | .member _ _ _ _, typed
  | .call _ _ _, typed | .unary _ _ _, typed | .binary _ _ _ _, typed => by
    simp [Context.staticType?, stripped] at typed

theorem receiverProblems_of_member (context : Context) {receiver : Expr} {field : Identifier}
    {safe : Bool} {span : Span} :
    (callee : Expr) → Target.ofExpr? callee = some (.member receiver field safe span) →
      receiverProblems context callee = receiver.problems context
  | .paren inner outer, called => by
    rw [receiverProblems, receiverProblems_of_member context inner
      ((Target.ofExpr?_paren inner outer).symm.trans called)]
  | .member _ _ _ _, called => by
    cases called
    rw [receiverProblems]
  | .literal _ _, called | .name _, called | .globalName _, called | .self _, called
  | .super _, called
  | .call _ _ _, called | .unary _ _ _, called | .binary _ _ _ _, called => by
    simp [Target.ofExpr?, stripped] at called

end Expr

namespace ObjectTree

/-- In a finalized tree a name denotes a proc on a type just if it was
declared there or above. So what is reported about a call of a member
whose receiver has a static type tells whether it denotes a proc. -/
theorem finalized_lookups_agree {tree : ObjectTree} (reachable : tree.Reachable)
    (finalized : tree.finalized = true) :
    (∀ type name, tree.hasProc type name = (tree.findProc? type name).isSome) ∧
    ∀ context callee receiver field safe span type, context.tree = tree →
      Target.ofExpr? callee = some (.member receiver field safe span) →
        context.staticType? receiver = some type →
        ((∃ problem ∈ Expr.receiverProblems context callee ++
            ((Target.member receiver field safe span).problem? context).toList, problem.kind =
              .unknownProcedure) ↔
          ((Target.member receiver field safe span).staticProc context).2 = none) := by
  have agree (type : TypeId) (name : String) :
      tree.hasProc type name = (tree.findProc? type name).isSome :=
    hasProc_eq_isSome reachable.rooted_addressed (reachable.backed finalized) type name
  refine ⟨agree, ?_⟩
  rintro context callee receiver field safe span type rfl called typed
  rw [Expr.receiverProblems_of_member context callee called,
    Expr.problems_of_staticType? context receiver typed, List.nil_append, Target.problem?,
    Target.memberProblem?, Target.staticProc, typed]
  cases found : context.tree.findProc? type field.name with
  | some proc =>
    have declared : context.tree.hasProc type field.name = true := by
      rw [agree, found, Option.isSome_some]
    simp [declared, found]
  | none =>
    have undeclared : context.tree.hasProc type field.name = false := by
      rw [agree, found, Option.isSome_none]
    simp [undeclared, found, Diagnostic.ofKind]

def insideMoved : Context where
  tree := TreeOp.build (movedLast ++ [.finalize])
  options := default
  proc := { id := ⟨2⟩, name := "Act", owner := some ⟨2⟩, flags := {} }
  scope := {}

def parenthesizedSrc : Expr := .paren (.name ⟨"src", .point 1 3⟩) (.point 1 2)

theorem finalized_lookups_agree_moved :
    insideMoved.tree.hasProc ⟨2⟩ "Act" = (insideMoved.tree.findProc? ⟨2⟩ "Act").isSome ∧
      insideMoved.tree.hasProc ⟨2⟩ "Act" = true ∧
      ((∃ problem ∈
          Expr.receiverProblems insideMoved
            (.paren (.member parenthesizedSrc ⟨"Nap", .point 1 8⟩ true (.point 1 2))
            (.point 1 1)) ++
            ((Target.member parenthesizedSrc ⟨"Nap", .point 1 8⟩ true (.point 1 2)).problem?
              insideMoved).toList,
          problem.kind = .unknownProcedure) ↔
        ((Target.member parenthesizedSrc ⟨"Nap", .point 1 8⟩ true (.point 1 2)).staticProc
          insideMoved).2 = none) ∧
      ((Target.member parenthesizedSrc ⟨"Nap", .point 1 8⟩ true (.point 1 2)).staticProc
        insideMoved).2 = none := by
  obtain ⟨agree, reported⟩ :=
    finalized_lookups_agree (TreeOp.reachable_build (movedLast ++ [.finalize])) (by decide +kernel)
  exact ⟨agree ⟨2⟩ "Act",
    by decide +kernel, reported insideMoved _ _ _ _ _ ⟨2⟩ rfl rfl (by decide +kernel),
    by decide +kernel⟩

end ObjectTree

end ProcLowering
