import Std.Data.TreeMap
import ProcLowering.Text.Word

set_option autoImplicit false

namespace ProcLowering

inductive PathError where
  | notAbsolute (text : String)
  | emptySegment (text : String)
  | invalidSegment (text segment : String)
deriving DecidableEq, Repr

def PathError.message : PathError → String
  | .notAbsolute text => s!"type path '{text}' must start with '/'"
  | .emptySegment text => s!"type path '{text}' contains an empty segment"
  | .invalidSegment text segment => s!"type path '{text}' has invalid segment '{segment}'"

@[ext] structure TypePath where
  segments : List String
deriving DecidableEq, Repr, Inhabited

namespace TypePath

def root : TypePath := ⟨[]⟩

def isRoot (path : TypePath) : Bool := path.segments.isEmpty

def depth (path : TypePath) : Nat := path.segments.length

def last? (path : TypePath) : Option String := path.segments.getLast?

def parent? (path : TypePath) : Option TypePath :=
  if path.isRoot then none else some ⟨path.segments.dropLast⟩

/-- Any text may become a segment here; only reading a text is strict. -/
def join (path : TypePath) (segment : String) : TypePath := ⟨path.segments ++ [segment]⟩

def startsWith (path ancestor : TypePath) : Bool := ancestor.segments.isPrefixOf path.segments

def text (path : TypePath) : String :=
  match path.segments with
  | [] => "/"
  | segments => String.join (segments.map ("/" ++ ·))

def isSegmentChar (c : Char) : Bool := c.isAlphanum || c == '_'

def withoutTrailingSlash (chars : List Char) : List Char :=
  if chars.getLast? = some '/' then chars.dropLast else chars

def checkSegment (text : String) (segment : List Char) : Except PathError String :=
  if segment.isEmpty then .error (.emptySegment text)
  else if segment.all isSegmentChar then .ok (String.ofList segment)
  else .error (.invalidSegment text (String.ofList segment))

def parse (text : String) : Except PathError TypePath :=
  match text.toList with
  | '/' :: rest =>
    match withoutTrailingSlash rest with
    | [] => .ok root
    | body => do
      let segments ← (Text.pieces (· == '/') body).mapM (checkSegment text)
      return ⟨segments⟩
  | _ => .error (.notAbsolute text)

instance : Ord TypePath := ⟨fun a b => compare a.segments b.segments⟩

instance : Std.TransOrd TypePath where
  eq_swap {a b} := by
    show compare a.segments b.segments = (compare b.segments a.segments).swap
    exact Std.OrientedCmp.eq_swap
  isLE_trans {a b c} := by
    show (compare a.segments b.segments).isLE → (compare b.segments c.segments).isLE →
      (compare a.segments c.segments).isLE
    exact Std.TransCmp.isLE_trans

instance : Std.LawfulEqOrd TypePath where
  compare_self {a} := by
    show compare a.segments a.segments = .eq
    exact Std.ReflCmp.compare_self
  eq_of_compare {a b} same := by
    have segments : compare a.segments b.segments = .eq := same
    exact TypePath.ext (Std.LawfulEqCmp.eq_of_compare segments)

end TypePath

end ProcLowering
