import ProcLowering.Diagnostic.Kind

set_option autoImplicit false

namespace ProcLowering

structure Options where
  levels : Levels := .default
  lintMatrixCalls : Bool := true
  reportUnimplemented : Bool := true
  maxArguments : Nat := 255
  maxArguments_le : maxArguments ≤ 255 := by decide

namespace Options

instance : Inhabited Options := ⟨{}⟩

def withMaxArguments (options : Options) (count : Nat) : Options :=
  { options with maxArguments := min count 255, maxArguments_le := Nat.min_le_right count 255 }

def withPragma (options : Options) (text : String) : Except ConfigError Options := do
  return { options with levels := ← options.levels.applyPragma text }

def withSeverity (options : Options) (kind : Kind) (severity : Severity) :
    Except ConfigError Options := do
  return { options with levels := ← options.levels.set kind severity }

end Options

end ProcLowering
