set_option autoImplicit false

namespace ProcLowering

@[ext] structure Span where
  file : UInt16 := 0
  line : UInt32 := 0
  column : UInt32 := 0
  length : UInt32 := 0
deriving DecidableEq, Repr, Inhabited

namespace Span

def point (line column : UInt32) : Span := { line, column }

def inFile (span : Span) (file : UInt16) : Span := { span with file }

def isEmpty (span : Span) : Bool := span.length == 0

def text (span : Span) : String := s!"{span.line}:{span.column}"

def textWithFile (span : Span) : String := s!"{span.file}:{span.line}:{span.column}"

def sum? (a b : UInt32) : Option UInt32 :=
  if a.toNat + b.toNat < UInt32.size then some (a + b) else none

/-- The span from `a` through `b`. On one line it covers both; over lines it keeps the start of `a`
and adds the lengths. There is none when an end or a length exceeds what a coordinate can hold. -/
def through? (a b : Span) : Option Span :=
  if a.line = b.line then do
    let endA ← sum? a.column a.length
    let endB ← sum? b.column b.length
    let start := min a.column b.column
    return { a with column := start, length := max endA endB - start }
  else do
    return { a with length := ← sum? a.length b.length }

def le (a b : Span) : Bool :=
  if a.file ≠ b.file then a.file < b.file
  else if a.line ≠ b.line then a.line < b.line
  else if a.column ≠ b.column then a.column < b.column
  else a.length ≤ b.length

end Span

end ProcLowering
