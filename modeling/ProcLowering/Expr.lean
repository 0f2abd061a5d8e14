import ProcLowering.Span
import ProcLowering.Value

set_option autoImplicit false

namespace ProcLowering

inductive UnaryOp where
  | negate
  | bitNot
  | not
deriving DecidableEq, Repr

inductive BinaryOp where
  | add
  | subtract
  | multiply
  | divide
  | modulus
  | bitAnd
  | bitOr
  | bitXor
  | shiftLeft
  | shiftRight
deriving DecidableEq, Repr

namespace UnaryOp

def all : List UnaryOp := [.negate, .bitNot, .not]

def text : UnaryOp → String
  | .negate => "-"
  | .bitNot => "~"
  | .not => "!"

def ofText? (text : String) : Option UnaryOp := all.find? (·.text == text)

end UnaryOp

namespace BinaryOp

def all : List BinaryOp :=
  [.add, .subtract, .multiply, .divide, .modulus, .bitAnd, .bitOr, .bitXor, .shiftLeft, .shiftRight]

def text : BinaryOp → String
  | .add => "+"
  | .subtract => "-"
  | .multiply => "*"
  | .divide => "/"
  | .modulus => "%"
  | .bitAnd => "&"
  | .bitOr => "|"
  | .bitXor => "^"
  | .shiftLeft => "<<"
  | .shiftRight => ">>"

def ofText? (text : String) : Option BinaryOp := all.find? (·.text == text)

def isBitwise : BinaryOp → Bool
  | .bitAnd | .bitOr | .bitXor | .shiftLeft | .shiftRight => true
  | _ => false

end BinaryOp

structure Identifier where
  name : String
  span : Span
deriving DecidableEq, Repr, Inhabited

mutual

inductive Expr where
  | literal (value : Value) (span : Span)
  | name (identifier : Identifier)
  | globalName (identifier : Identifier)
  | self (span : Span)
  | super (span : Span)
  | member (receiver : Expr) (field : Identifier) (safe : Bool) (span : Span)
  | call (callee : Expr) (arguments : List Argument) (span : Span)
  | unary (op : UnaryOp) (operand : Expr) (span : Span)
  | binary (op : BinaryOp) (left right : Expr) (span : Span)
  | paren (inner : Expr) (span : Span)

inductive Argument where
  | mk (name : Option Identifier) (value : Expr) (span : Span)

end

instance : Inhabited Expr := ⟨.literal .null {}⟩

namespace Expr

def span : Expr → Span
  | .literal _ span | .self span | .super span | .member _ _ _ span | .call _ _ span
  | .unary _ _ span | .binary _ _ _ span | .paren _ span => span
  | .name identifier | .globalName identifier => identifier.span

def withSpan (span : Span) : Expr → Expr
  | .literal value _ => .literal value span
  | .name identifier => .name { identifier with span }
  | .globalName identifier => .globalName { identifier with span }
  | .self _ => .self span
  | .super _ => .super span
  | .member receiver field safe _ => .member receiver field safe span
  | .call callee arguments _ => .call callee arguments span
  | .unary op operand _ => .unary op operand span
  | .binary op left right _ => .binary op left right span
  | .paren inner _ => .paren inner span

def stripped : Expr → Expr
  | .paren inner _ => inner.stripped
  | expr => expr

end Expr

namespace Argument

def name? : Argument → Option Identifier
  | .mk name _ _ => name

def value : Argument → Expr
  | .mk _ value _ => value

def span : Argument → Span
  | .mk _ _ span => span

def ofValue (name : Option Identifier) (value : Expr) : Argument := .mk name value value.span

end Argument

inductive Stmt where
  | expr (value : Expr)
  | var (name : Identifier) (typePath : Option String) (init : Option Expr) (span : Span)
  | ret (value : Option Expr) (span : Span)

namespace Stmt

def span : Stmt → Span
  | .expr value => value.span
  | .var _ _ _ span | .ret _ span => span

def isReturn : Stmt → Bool
  | .ret _ _ => true
  | _ => false

end Stmt

end ProcLowering
