import ProcLowering.Fold
import ProcLowering.Lower.Target
import ProcLowering.Proofs.General

set_option autoImplicit false

namespace ProcLowering

structure CallNode where
  callee : Expr
  arguments : List Argument
  span : Span

mutual

def Expr.everyCall : Expr → List CallNode
  | .literal _ _ | .name _ | .globalName _ | .self _ | .super _ => []
  | .member receiver _ _ _ => receiver.everyCall
  | .call callee arguments span =>
    callee.everyCall ++ (Argument.everyCallAll arguments ++ [⟨callee, arguments, span⟩])
  | .paren inner _ => inner.everyCall
  | .unary _ operand _ => operand.everyCall
  | .binary _ left right _ => left.everyCall ++ right.everyCall

def Argument.everyCallAll : List Argument → List CallNode
  | [] => []
  | .mk _ value _ :: rest => value.everyCall ++ Argument.everyCallAll rest

end

mutual

def Expr.calls (limit : Nat) : Expr → List CallNode
  | .literal _ _ | .name _ | .globalName _ | .self _ | .super _ => []
  | .member receiver _ _ _ => receiver.calls limit
  | .call callee arguments span =>
    if (Target.ofExpr? callee).isSome then
      callee.calls limit ++ (Argument.callsAll limit limit arguments ++ [⟨callee, arguments, span⟩])
    else []
  | .paren inner _ => inner.calls limit
  | .unary _ operand _ => operand.calls limit
  | .binary _ left right _ => left.calls limit ++ right.calls limit

def Argument.callsAll (limit : Nat) : Nat → List Argument → List CallNode
  | _, [] => []
  | 0, _ => []
  | count + 1, .mk _ value _ :: rest => value.calls limit ++ Argument.callsAll limit count rest

end

mutual

def Expr.endLine (limit : Nat) : Expr → UInt32
  | .literal _ span | .self span | .super span => span.line
  | .name identifier | .globalName identifier => identifier.span.line
  | .member receiver _ _ _ => receiver.endLine limit
  | .call callee arguments span =>
    if (Target.ofExpr? callee).isSome then Argument.endLine limit limit span.line arguments
      else span.line
  | .paren inner _ => inner.endLine limit
  | .unary op operand span =>
    if (Expr.unary op operand span).fold?.isSome then span.line else operand.endLine limit
  | .binary op left right span =>
    if (Expr.binary op left right span).fold?.isSome then span.line else right.endLine limit

def Argument.endLine (limit : Nat) : Nat → UInt32 → List Argument → UInt32
  | _, line, [] => line
  | 0, line, _ => line
  | count + 1, _, .mk _ value _ :: rest => Argument.endLine limit count (value.endLine limit) rest

end

def Expr.receiverEnd (limit : Nat) (line : UInt32) : Expr → UInt32
  | .paren inner _ => inner.receiverEnd limit line
  | .member receiver _ _ _ => receiver.endLine limit
  | _ => line

theorem Argument.endLine_eq (limit count : Nat) (line : UInt32) (arguments : List Argument) :
    endLine limit count line arguments =
      ((arguments.take count).getLast?.map (·.value.endLine limit)).getD line := by
  induction arguments generalizing count line with
  | nil => cases count <;> simp [endLine]
  | cons first rest ih =>
    obtain ⟨name, value⟩ := first
    cases count with
    | zero => simp [endLine]
    | succ count =>
      rw [endLine, ih, List.take_succ_cons, List.getLast?_cons]
      cases (rest.take count).getLast? <;> rfl

def CallNode.line (limit : Nat) (node : CallNode) : UInt32 :=
  ((node.arguments.take limit).getLast?.map (·.value.endLine limit)).getD node.span.line

theorem CallNode.line_eq_iff (limit : Nat) (node : CallNode) : node.line limit = node.span.line ↔
    ∀ argument, (node.arguments.take limit).getLast? = some argument →
      argument.value.endLine limit = node.span.line := by
  unfold line
  cases (node.arguments.take limit).getLast? <;> simp

mutual

/-- The parts that are not lowered: calls of what cannot be called,
and arguments beyond the limit. -/
def Expr.omitted (limit : Nat) : Expr → List Expr
  | .literal _ _ | .name _ | .globalName _ | .self _ | .super _ => []
  | .member receiver _ _ _ => receiver.omitted limit
  | .call callee arguments span =>
    if (Target.ofExpr? callee).isSome then callee.omitted limit ++
      Argument.omittedAll limit limit arguments
    else [.call callee arguments span]
  | .paren inner _ => inner.omitted limit
  | .unary _ operand _ => operand.omitted limit
  | .binary _ left right _ => left.omitted limit ++ right.omitted limit

def Argument.omittedAll (limit : Nat) : Nat → List Argument → List Expr
  | _, [] => []
  | 0, .mk _ value _ :: rest => value :: Argument.omittedAll limit 0 rest
  | count + 1, .mk _ value _ :: rest => value.omitted limit ++ Argument.omittedAll limit count rest

end

/-- The part is an argument that a lowered call does not pass, or a
call of what cannot be called. -/
def Expr.Omits (limit : Nat) (expr part : Expr) : Prop :=
  (∃ node ∈ expr.calls limit, ∃ argument ∈ node.arguments.drop limit, argument.value = part) ∨
    ∃ callee arguments span, part = .call callee arguments span ∧ Target.ofExpr? callee = none

theorem Argument.callsAll_zero (limit : Nat) (arguments : List Argument) :
    callsAll limit 0 arguments = [] := by
  cases arguments <;> rfl

namespace Expr

mutual

theorem calls_sublist (limit : Nat) : (expr : Expr) → (expr.calls limit).Sublist expr.everyCall
  | .literal _ _ | .name _ | .globalName _ | .self _ | .super _ => by
    rw [calls]
    exact List.nil_sublist _
  | .member receiver _ _ _ => by
    rw [calls, everyCall]
    exact calls_sublist limit receiver
  | .call callee arguments span => by
    rw [calls, everyCall]
    split
    · exact (calls_sublist limit callee).append
        ((callsAll_sublist limit limit arguments).append (List.Sublist.refl _))
    · exact List.nil_sublist _
  | .paren inner _ => by
    rw [calls, everyCall]
    exact calls_sublist limit inner
  | .unary _ operand _ => by
    rw [calls, everyCall]
    exact calls_sublist limit operand
  | .binary _ left right _ => by
    rw [calls, everyCall]
    exact (calls_sublist limit left).append (calls_sublist limit right)

theorem callsAll_sublist (limit : Nat) : (count : Nat) → (arguments : List Argument) →
    (Argument.callsAll limit count arguments).Sublist (Argument.everyCallAll arguments)
  | 0, [] | _ + 1, [] => List.nil_sublist _
  | 0, _ :: _ => List.nil_sublist _
  | count + 1, .mk _ value _ :: rest => by
    rw [Argument.callsAll, Argument.everyCallAll]
    exact (calls_sublist limit value).append (callsAll_sublist limit count rest)

end

mutual

theorem everyCall_perm (limit : Nat) :
    (expr : Expr) → expr.everyCall.Perm (expr.calls limit ++ (expr.omitted limit).flatMap everyCall)
  | .literal _ _ | .name _ | .globalName _ | .self _ | .super _ => by
    rw [everyCall, calls, omitted]
    exact .nil
  | .member receiver _ _ _ => by
    rw [everyCall, calls, omitted]
    exact everyCall_perm limit receiver
  | .call callee arguments span => by
    rw [everyCall, calls, omitted]
    split
    · -- The call itself stands behind its arguments, and nothing of it is left out there.
      have whole : [CallNode.mk callee arguments span].Perm ([⟨callee, arguments, span⟩] ++ []) :=
        .refl _
      have passed := perm_append_append (everyCallAll_perm limit limit arguments) whole
      rw [List.append_nil] at passed
      rw [List.flatMap_append]
      exact perm_append_append (everyCall_perm limit callee) passed
    · simp [everyCall]
  | .paren inner _ => by
    rw [everyCall, calls, omitted]
    exact everyCall_perm limit inner
  | .unary _ operand _ => by
    rw [everyCall, calls, omitted]
    exact everyCall_perm limit operand
  | .binary _ left right _ => by
    rw [everyCall, calls, omitted, List.flatMap_append]
    exact perm_append_append (everyCall_perm limit left) (everyCall_perm limit right)

theorem everyCallAll_perm (limit : Nat) : (count : Nat) → (arguments : List Argument) →
    (Argument.everyCallAll arguments).Perm
      (Argument.callsAll limit count arguments ++
        (Argument.omittedAll limit count arguments).flatMap everyCall)
  | 0, [] | _ + 1, [] => .nil
  | 0, .mk _ value _ :: rest => by
    have others := everyCallAll_perm limit 0 rest
    rw [Argument.callsAll_zero, List.nil_append] at others ⊢
    rw [Argument.everyCallAll, Argument.omittedAll, List.flatMap_cons]
    exact others.append_left _
  | count + 1, .mk _ value _ :: rest => by
    rw [Argument.everyCallAll, Argument.callsAll, Argument.omittedAll, List.flatMap_append]
    exact perm_append_append (everyCall_perm limit value) (everyCallAll_perm limit count rest)

end

theorem Omits.mono {limit : Nat} {small whole part : Expr} (omits : small.Omits limit part)
    (more : small.calls limit ⊆ whole.calls limit) : whole.Omits limit part :=
  omits.imp_left fun ⟨node, lowered, dropped⟩ => ⟨node, more lowered, dropped⟩

mutual

theorem omits_of_mem {limit : Nat} {part : Expr} : (expr : Expr) → part ∈ expr.omitted limit →
    expr.Omits limit part
  | .literal _ _, inside | .name _, inside | .globalName _, inside | .self _, inside
  | .super _, inside => by
    simp [omitted] at inside
  | .member receiver _ _ _, inside => by
    rw [omitted] at inside
    exact (omits_of_mem receiver inside).mono (by rw [calls]; exact List.Subset.refl _)
  | .call callee arguments span, inside => by
    rw [omitted] at inside
    split at inside
    · next callable =>
      have lowered : calls limit (.call callee arguments span) =
          callee.calls limit ++
            (Argument.callsAll limit limit arguments ++ [⟨callee, arguments, span⟩]) := by
        rw [calls, if_pos callable]
      rcases List.mem_append.mp inside with outer | inner
      · exact (omits_of_mem callee outer).mono (lowered ▸ List.subset_append_left _ _)
      · obtain ⟨value, kept, omits⟩ | ⟨argument, dropped, same⟩ :=
          omits_of_mem_arguments limit arguments inner
        · refine omits.mono fun node member => ?_
          rw [lowered]
          exact List.mem_append_right _ (List.mem_append_left _ (kept member))
        · exact Or.inl ⟨⟨callee, arguments, span⟩, by simp [lowered], argument, dropped, same⟩
    · next stuck =>
      obtain rfl : part = _ := List.mem_singleton.mp inside
      exact Or.inr ⟨callee, arguments, span, rfl, by simpa using stuck⟩
  | .paren inner _, inside => by
    rw [omitted] at inside
    exact (omits_of_mem inner inside).mono (by rw [calls]; exact List.Subset.refl _)
  | .unary _ operand _, inside => by
    rw [omitted] at inside
    exact (omits_of_mem operand inside).mono (by rw [calls]; exact List.Subset.refl _)
  | .binary _ left right _, inside => by
    rw [omitted] at inside
    rcases List.mem_append.mp inside with first | second
    · exact (omits_of_mem left first).mono (by rw [calls]; exact List.subset_append_left _ _)
    · exact (omits_of_mem right second).mono (by rw [calls]; exact List.subset_append_right _ _)

theorem omits_of_mem_arguments {limit : Nat} {part : Expr} : (count : Nat) →
    (arguments : List Argument) →
    part ∈ Argument.omittedAll limit count arguments →
      (∃ value : Expr, value.calls limit ⊆ Argument.callsAll limit count arguments ∧
        value.Omits limit part) ∨
        ∃ argument ∈ arguments.drop count, argument.value = part
  | 0, [], inside | _ + 1, [], inside => by simp [Argument.omittedAll] at inside
  | 0, .mk label value span :: rest, inside => by
    rcases List.mem_cons.mp inside with rfl | later
    · exact Or.inr ⟨.mk label part span, by simp, rfl⟩
    · obtain ⟨value, kept, omits⟩ | ⟨argument, dropped, same⟩ := omits_of_mem_arguments 0 rest later
      · exact Or.inl ⟨value, by rwa [Argument.callsAll_zero] at kept ⊢, omits⟩
      · exact Or.inr ⟨argument, by simp_all, same⟩
  | count + 1, .mk _ value _ :: rest, inside => by
    rw [Argument.callsAll]
    rcases List.mem_append.mp inside with here | later
    · exact Or.inl ⟨value, List.subset_append_left _ _, omits_of_mem value here⟩
    · obtain ⟨value, kept, omits⟩ | dropped := omits_of_mem_arguments count rest later
      · exact Or.inl ⟨value, List.subset_append_of_subset_right _ kept, omits⟩
      · exact Or.inr dropped

end

theorem everyCall_of_fold? : (expr : Expr) → {value : Value} → expr.fold? = some value →
    expr.everyCall = []
  | .literal _ _, _, _ | .name _, _, _ | .globalName _, _, _ | .self _, _, _ | .super _, _, _ =>
    by rw [everyCall]
  | .member _ _ _ _, _, folds | .call _ _ _, _, folds => by simp [fold?] at folds
  | .paren inner _, _, folds => by
    rw [fold?] at folds
    rw [everyCall, everyCall_of_fold? inner folds]
  | .unary _ operand _, _, folds => by
    rw [fold?] at folds
    obtain ⟨_, folded, -⟩ := Option.bind_eq_some_iff.mp folds
    rw [everyCall, everyCall_of_fold? operand folded]
  | .binary _ left right _, _, folds => by
    rw [fold?] at folds
    obtain ⟨_, first, folds⟩ := Option.bind_eq_some_iff.mp folds
    obtain ⟨_, second, -⟩ := Option.bind_eq_some_iff.mp folds
    rw [everyCall, everyCall_of_fold? left first, everyCall_of_fold? right second, List.append_nil]

theorem calls_of_fold? (limit : Nat) {expr : Expr} {value : Value}
    (folds : expr.fold? = some value) : expr.calls limit = [] := by
  have within := expr.calls_sublist limit
  rwa [everyCall_of_fold? expr folds, List.sublist_nil] at within

end Expr

end ProcLowering
