import ProcLowering.Proofs.Balance
import ProcLowering.Proofs.Folding
import ProcLowering.Proofs.Machine
import ProcLowering.Proofs.Reachable

set_option autoImplicit false

namespace ProcLowering

variable {V ε : Type}

/-- The slots hold what the visible variables are bound to. What is
not declared yet is untouched. -/
structure Frame.Agrees (frame : Frame V ε) (scope : Scope) (bindings : Bindings V)
    (slots : Nat → V) : Prop where
  size : scope.size = bindings.length
  visible : ∀ name, (scope.find? name).map (fun found => slots found.slot.toNat) =
    bindings.lookup name
  within : ∀ name found, scope.find? name = some found → found.slot.toNat < scope.size
  fresh : ∀ i, scope.size ≤ i → slots i = frame.fresh i

namespace Frame.Agrees

variable {frame : Frame V ε} {scope inner : Scope} {bindings : Bindings V} {slots : Nat → V}
    {name : String}
  {type : Option TypeId} {declared : Local}

theorem start (frame : Frame V ε) : frame.Agrees {} [] frame.fresh := by
  refine ⟨rfl, ?_, ?_, fun _ _ => rfl⟩
  · intro name
    simp [Scope.find?]
  · intro name found here
    simp [Scope.find?] at here

theorem bind (agrees : frame.Agrees scope bindings slots)
    (done : scope.declare name type = .ok (declared, inner)) (value : V) :
    frame.Agrees inner ((name, value) :: bindings) (Function.update slots scope.size value) := by
  have slot := Scope.slot_declare done
  have grown := Scope.size_declare done
  have found := Scope.find?_declare done
  refine ⟨by simp [grown, agrees.size], ?_, ?_, ?_⟩
  · intro other
    rw [found, List.lookup_cons]
    by_cases same : other = name
    · simp [same, slot]
    · have differ : (other == name) = false := by simpa using same
      rw [if_neg same, differ, ← agrees.visible other]
      cases here : scope.find? other with
      | none => rfl
      | some held =>
        have := agrees.within other held here
        simp [Function.update_of_ne (show held.slot.toNat ≠ scope.size by omega)]
  · intro other held here
    rw [found] at here
    split at here
    · cases here
      omega
    · have := agrees.within other held here
      omega
  · intro i later
    rw [Function.update_of_ne (by omega)]
    exact agrees.fresh i (by omega)

theorem declare (agrees : frame.Agrees scope bindings slots)
    (done : scope.declare name type = .ok (declared, inner)) :
    frame.Agrees inner (frame.declare bindings name) slots := by
  have bound := agrees.bind done (frame.fresh bindings.length)
  rwa [← agrees.size, ← agrees.fresh scope.size (Nat.le_refl _), Function.update_eq_self,
    agrees.fresh scope.size (Nat.le_refl _), agrees.size] at bound

theorem declareAll (agrees : frame.Agrees scope bindings slots) {locals : List LocalDecl}
    (done : scope.declareAll locals = .ok inner) :
    frame.Agrees inner ((locals.map (·.name)).foldl frame.declare bindings) slots := by
  induction locals generalizing scope bindings with
  | nil =>
    cases done
    exact agrees
  | cons first rest ih =>
    obtain ⟨declared, middle, declares, more⟩ := Scope.declareAll_cons_eq_ok done
    exact ih (agrees.declare declares) more

end Frame.Agrees

namespace Setting

abbrev context (setting : Setting V ε) (scope : Scope) : Context :=
  { tree := setting.tree, options := setting.options, proc := setting.proc, scope }

theorem hasField_eq {setting : Setting V ε} {scope : Scope} {name : String} {has : Bool}
    (known : (setting.context scope).hasField name = .ok has) :
    setting.hasField name = has := by
  unfold Context.hasField context at known
  unfold hasField
  cases owns : setting.proc.owner with
  | none =>
    rw [owns] at known
    cases known
    rfl
  | some owner =>
    rw [owns] at known
    simp only [ObjectTree.type] at known
    cases held : setting.tree.type? owner with
    | none =>
      rw [held] at known
      cases known
    | some record =>
      rw [held] at known
      cases known
      simp [held]

end Setting

variable [DecidableEq V]

namespace Step

end Step

namespace Setting

variable {setting : Setting V ε} {scope : Scope} {bindings : Bindings V}

end Setting

namespace Expr

variable {setting : Setting V ε} {scope : Scope} {bindings : Bindings V}

end Expr

namespace Part

variable {setting : Setting V ε} {scope : Scope} {bindings : Bindings V}

def foldings (limit : Nat) : Part → List Folding
  | .value expr | .receiver expr => expr.foldings limit
  | .passed count arguments => Argument.foldingsAll limit count arguments

end Part

namespace Stmt

end Stmt

namespace Body

end Body

end ProcLowering
