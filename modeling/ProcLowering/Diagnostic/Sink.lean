import ProcLowering.Span
import ProcLowering.Diagnostic.Kind

set_option autoImplicit false

namespace ProcLowering

structure Diagnostic where
  kind : Kind
  severity : Severity
  span : Span
  message : String
deriving DecidableEq, Repr

namespace Diagnostic

def ofKind (kind : Kind) (span : Span) (message : String) : Diagnostic :=
  { kind, severity := kind.defaultSeverity, span, message }

def isError (diagnostic : Diagnostic) : Bool := diagnostic.severity == .error

def text (diagnostic : Diagnostic) : String :=
  let position := diagnostic.span.text
  let severity := diagnostic.severity.name
  let kind := diagnostic.kind.name
  s!"{position}: {severity}: {diagnostic.message} [{kind}]"

end Diagnostic

structure Diagnostics where
  levels : Levels := .default
  items : Array Diagnostic := #[]

namespace Diagnostics

def stamped? (levels : Levels) (diagnostic : Diagnostic) : Option Diagnostic :=
  match levels.severityOf diagnostic.kind with
  | .disabled => none
  | severity => some { diagnostic with severity }

def report (sink : Diagnostics) (diagnostic : Diagnostic) : Diagnostics :=
  match stamped? sink.levels diagnostic with
  | none => sink
  | some stamped => { sink with items := sink.items.push stamped }

/-- Adds the items of `other` as they are, and sorts all by span;
items with equal spans keep their order. -/
def merge (sink other : Diagnostics) : Diagnostics :=
  { sink with
    items := ((sink.items ++ other.items).toList.mergeSort fun a b => a.span.le b.span).toArray }

def ofKind (sink : Diagnostics) (kind : Kind) : List Diagnostic :=
  sink.items.toList.filter (·.kind == kind)

def errorCount (sink : Diagnostics) : Nat := sink.items.toList.countP Diagnostic.isError

def warningCount (sink : Diagnostics) : Nat :=
  sink.items.toList.countP (·.severity == .warning)

def hasErrors (sink : Diagnostics) : Bool := sink.items.toList.any Diagnostic.isError

def text (sink : Diagnostics) : String :=
  String.join (sink.items.toList.map fun item => item.text ++ "\n")

end Diagnostics

end ProcLowering
