import ProcLowering.Lower.Proc
import ProcLowering.Proofs.Pool

/-!
The meaning of a body: its statements run one after the other, and every expression is evaluated
from left to right. What values are, and what calls and reads of fields answer, is left to a
runtime.
-/

set_option autoImplicit false

namespace ProcLowering

abbrev Passed (V : Type) := List (Option String × V)

inductive Event (V : Type) where
  | read (object : V) (field : String)
  | call (reference : Reference) (receiver : Option V) (passed : Passed V)
deriving DecidableEq, Repr

structure Outcome (V ε : Type) where
  result : Except ε V
  events : List (Event V)
deriving DecidableEq

abbrev Evaluation (V ε : Type) := EStateM ε (List (Event V))

def Evaluation.outcome {V ε : Type} (evaluation : Evaluation V ε V) (before : List (Event V)) :
    Outcome V ε :=
  match evaluation.run before with
  | .ok value events => ⟨.ok value, events⟩
  | .error error events => ⟨.error error, events⟩

inductive Folding where
  | unary (op : UnaryOp) (operand : Value)
  | binary (op : BinaryOp) (left right : Value)
deriving DecidableEq, Repr

mutual

def Expr.foldings (limit : Nat) : Expr → List Folding
  | .literal _ _ | .name _ | .globalName _ | .self _ | .super _ => []
  | .member receiver _ _ _ => receiver.foldings limit
  | .call callee arguments _ =>
    if (Target.ofExpr? callee).isSome then callee.foldings limit ++
      Argument.foldingsAll limit limit arguments else []
  | .paren inner _ => inner.foldings limit
  | .unary op operand _ => operand.foldings limit ++ (operand.fold?.map (.unary op)).toList
  | .binary op left right _ =>
    left.foldings limit ++
      (right.foldings limit ++
      (left.fold?.bind fun first => right.fold?.map (.binary op first)).toList)

def Argument.foldingsAll (limit : Nat) : Nat → List Argument → List Folding
  | _, [] => []
  | 0, _ => []
  | count + 1, .mk _ value _ :: rest =>
    value.foldings limit ++ Argument.foldingsAll limit count rest

end

def Stmt.foldings (limit : Nat) : Stmt → List Folding
  | .expr value => value.foldings limit
  | .var _ _ init _ => (init.map (Expr.foldings limit)).getD []
  | .ret value _ => (value.map (Expr.foldings limit)).getD []

def Body.foldings (limit : Nat) (body : Body) : List Folding :=
  body.statements.flatMap (Stmt.foldings limit)

structure Runtime (V ε : Type) where
  null : V
  constant : Constant → V
  unary : UnaryOp → V → Except ε V
  binary : BinaryOp → V → V → Except ε V
  -- The answer to an event may depend on all that happened before it.
  answer : List (Event V) → Event V → Except ε V

namespace Runtime

variable {V ε : Type}

def known (runtime : Runtime V ε) : Value → V
  | .null => runtime.null
  | .number n => runtime.constant (.number n)
  | .string s => runtime.constant (.string s)

def perform (runtime : Runtime V ε) (event : Event V) : Evaluation V ε V := fun before =>
  match runtime.answer before event with
  | .ok value => .ok value (before ++ [event])
  | .error error => .error error (before ++ [event])

end Runtime

structure Frame (V ε : Type) extends Runtime V ε where
  src : V
  passed : Passed V
  /-- What the own value slot holds after the given events. -/
  self : List (Event V) → V
  fresh : Nat → V

abbrev Bindings (V : Type) := List (String × V)

namespace Frame

variable {V ε : Type}

def selfValue (frame : Frame V ε) : Evaluation V ε V := do return frame.self (← get)

def declare (frame : Frame V ε) (bindings : Bindings V) (name : String) : Bindings V :=
  (name, frame.fresh bindings.length) :: bindings

end Frame

structure Setting (V ε : Type) where
  frame : Frame V ε
  tree : ObjectTree
  options : Options
  proc : Proc

namespace Setting

variable {V ε : Type}

def hasField (setting : Setting V ε) (name : String) : Bool :=
  (setting.proc.owner.bind setting.tree.type?).any (·.vars.contains name)

/-- A bare name that is called is a proc of the type, else a global one. The runtime looks for a
name that is neither. -/
def named (setting : Setting V ε) (name : String) : Reference :=
  match setting.proc.owner.bind (setting.tree.findProc? · name), setting.tree.globalProc? name with
  | none, some proc => .globalProc proc
  | _, _ => .instanceProc name .src

def nameValue (setting : Setting V ε) (bindings : Bindings V) (name : String) : Evaluation V ε V :=
  match bindings.lookup name with
  | some value => return value
  | none =>
    if name = "src" then return setting.frame.src
    else if setting.hasField name then setting.frame.perform (.read setting.frame.src name)
    else return setting.frame.null

end Setting

namespace Expr

variable {V ε : Type} [DecidableEq V]

mutual

def eval (setting : Setting V ε) (bindings : Bindings V) : Expr → Evaluation V ε V
  | .literal value _ => return setting.frame.known value
  | .name identifier => setting.nameValue bindings identifier.name
  | .self _ => setting.frame.selfValue
  | .globalName _ | .super _ => return setting.frame.null
  | .member receiver field safe _ => do
    let object ← receiver.eval setting bindings
    if safe ∧ object = setting.frame.null then return setting.frame.null
    else setting.frame.perform (.read object field.name)
  | .call callee arguments _ =>
    callee.evalCall setting bindings arguments.isEmpty
      (evalArguments setting bindings setting.options.maxArguments arguments)
  | .paren inner _ => inner.eval setting bindings
  | .unary op operand _ => do
    let value ← operand.eval setting bindings
    MonadExcept.ofExcept (setting.frame.unary op value)
  | .binary op left right _ => do
    let first ← left.eval setting bindings
    let second ← right.eval setting bindings
    MonadExcept.ofExcept (setting.frame.binary op first second)

/-- Calls the callee with arguments that are evaluated behind the receiver, if there is one. A call
of the redefined proc without arguments passes on those of the caller. -/
def evalCall (setting : Setting V ε) (bindings : Bindings V) (bare : Bool)
    (given : Evaluation V ε (Passed V)) :
    Expr → Evaluation V ε V
  | .paren inner _ => inner.evalCall setting bindings bare given
  | .member receiver field safe _ => do
    let object ← receiver.eval setting bindings
    if safe ∧ object = setting.frame.null then return setting.frame.null
    else setting.frame.perform (.call (.instanceProc field.name .stack) (some object) (← given))
  | .name identifier =>
    do setting.frame.perform (.call (setting.named identifier.name) none (← given))
  | .globalName identifier => do
    let proc := (setting.tree.globalProc? identifier.name).getD .globalInit
    setting.frame.perform (.call (.globalProc proc) none (← given))
  | .self _ => do setting.frame.perform (.call .selfSlot none (← given))
  | .super _ => do
    if bare then setting.frame.perform (.call .superProc none setting.frame.passed)
    else setting.frame.perform (.call .superProc none (← given))
  | _ => return setting.frame.null

def evalArguments (setting : Setting V ε) (bindings : Bindings V) : Nat → List Argument →
    Evaluation V ε (Passed V)
  | _, [] | 0, _ => return []
  | limit + 1, .mk identifier value _ :: rest => do
    let first ← value.eval setting bindings
    let others ← evalArguments setting bindings limit rest
    return (identifier.map (·.name), first) :: others

end

end Expr

variable {V ε : Type} [DecidableEq V]

/-- Runs statements up to the first return; without one the result is the own value slot. -/
def Stmt.evalAll (setting : Setting V ε) : Bindings V → List Stmt → Evaluation V ε V
  | _, [] => setting.frame.selfValue
  | bindings, .expr value :: rest => do
    let _ ← value.eval setting bindings
    evalAll setting bindings rest
  | bindings, .var name _ none _ :: rest =>
    evalAll setting (setting.frame.declare bindings name.name) rest
  | bindings, .var name _ (some init) _ :: rest => do
    let value ← init.eval setting bindings
    evalAll setting ((name.name, value) :: bindings) rest
  | _, .ret none _ :: _ => setting.frame.selfValue
  | bindings, .ret (some value) _ :: _ => value.eval setting bindings

def Body.eval (setting : Setting V ε) (body : Body) : Evaluation V ε V :=
  let names := setting.proc.params ++ body.locals.map (·.name)
  Stmt.evalAll setting (names.foldl setting.frame.declare []) body.statements

end ProcLowering
