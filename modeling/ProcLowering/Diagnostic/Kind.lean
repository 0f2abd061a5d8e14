import ProcLowering.Text.Word

set_option autoImplicit false

namespace ProcLowering

inductive Severity where
  | disabled
  | notice
  | warning
  | error
deriving DecidableEq, Repr, Inhabited

inductive Kind where
  | procUsedAsValue
  | invalidProcReference
  | unknownProcedure
  | unknownGlobalProcedure
  | pointlessParentCall
  | unimplementedFeature
  | suspiciousCall
  | tooManyArguments
  | unknownIdentifier
  | invalidCallTarget
deriving DecidableEq, Repr, Inhabited

inductive ConfigError where
  | unknownKind (text : String)
  | unknownSeverity (text : String)
  | malformedPragma (text : String)
  | cannotDowngrade (kind : Kind) (requested : Severity)
deriving DecidableEq, Repr

namespace Severity

def all : List Severity := [.disabled, .notice, .warning, .error]

def name : Severity → String
  | .disabled => "disabled"
  | .notice => "notice"
  | .warning => "warning"
  | .error => "error"

def parse (text : String) : Except ConfigError Severity :=
  match all.find? fun severity => Text.sameIgnoringCase severity.name text with
  | some severity => .ok severity
  | none => .error (.unknownSeverity text)

end Severity

namespace Kind

def all : List Kind :=
  [.procUsedAsValue, .invalidProcReference, .unknownProcedure, .unknownGlobalProcedure,
    .pointlessParentCall, .unimplementedFeature, .suspiciousCall, .tooManyArguments,
    .unknownIdentifier, .invalidCallTarget]

def name : Kind → String
  | .procUsedAsValue => "ProcUsedAsValue"
  | .invalidProcReference => "InvalidProcReference"
  | .unknownProcedure => "UnknownProcedure"
  | .unknownGlobalProcedure => "UnknownGlobalProcedure"
  | .pointlessParentCall => "PointlessParentCall"
  | .unimplementedFeature => "UnimplementedFeature"
  | .suspiciousCall => "SuspiciousCall"
  | .tooManyArguments => "TooManyArguments"
  | .unknownIdentifier => "UnknownIdentifier"
  | .invalidCallTarget => "InvalidCallTarget"

def defaultSeverity : Kind → Severity
  | .procUsedAsValue | .invalidProcReference | .tooManyArguments | .unknownIdentifier
  | .invalidCallTarget => .error
  | .unknownProcedure | .unknownGlobalProcedure | .pointlessParentCall | .unimplementedFeature
  | .suspiciousCall => .warning

/-- A hard kind is an error by default and stays one. -/
def isHard (kind : Kind) : Bool := kind.defaultSeverity == .error

def parse (text : String) : Except ConfigError Kind :=
  match all.find? fun kind => Text.sameIgnoringCase kind.name text with
  | some kind => .ok kind
  | none => .error (.unknownKind text)

end Kind

def ConfigError.message : ConfigError → String
  | .unknownKind text => s!"unknown diagnostic kind '{text}'"
  | .unknownSeverity text =>
    s!"unknown severity '{text}' (expected error, warning, notice or disabled)"
  | .malformedPragma text => s!"malformed pragma '{text}': expected '<kind> <severity>'"
  | .cannotDowngrade kind requested =>
    s!"'{kind.name}' is always an error and cannot be set to {requested.name}"

/-- The severity in force for every kind. No hard kind is ever below an error. -/
structure Levels where
  severityOf : Kind → Severity
  hard_error : ∀ kind, kind.isHard = true → severityOf kind = .error

namespace Levels

def default : Levels where
  severityOf := Kind.defaultSeverity
  hard_error kind hard := by simpa [Kind.isHard] using hard

instance : Inhabited Levels := ⟨default⟩

def set (levels : Levels) (kind : Kind) (severity : Severity) : Except ConfigError Levels :=
  if refused : kind.isHard = true ∧ severity ≠ .error then .error (.cannotDowngrade kind severity)
  else .ok {
    severityOf := fun k => if k = kind then severity else levels.severityOf k
    hard_error := fun k hard => by
      by_cases same : k = kind
      · subst same
        simpa [hard] using refused
      · simpa [same] using levels.hard_error k hard }

def applyPragma (levels : Levels) (text : String) : Except ConfigError Levels :=
  match Text.words text with
  | [kindText, severityText] => do
    let kind ← Kind.parse kindText
    let severity ← Severity.parse severityText
    levels.set kind severity
  | _ => .error (.malformedPragma text)

end Levels

end ProcLowering
