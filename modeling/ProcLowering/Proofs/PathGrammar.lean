import ProcLowering.Path

set_option autoImplicit false

namespace ProcLowering

namespace Text

theorem pieces_eq_splitOn (cut : Char) (chars : List Char) :
    pieces (· == cut) chars = chars.splitOn cut := by
  induction chars with
  | nil => rfl
  | cons c rest ih =>
    rw [pieces, ih, List.splitOn_cons_eq_if_modifyHead]
    split
    · rfl
    · cases found : rest.splitOn cut with
      | nil => exact absurd found (List.splitOn_ne_nil cut rest)
      | cons piece others => rfl

theorem not_mem_of_mem_pieces {cut : Char} {chars piece : List Char}
    (member : piece ∈ pieces (· == cut) chars) :
    cut ∉ piece := by
  induction chars generalizing piece with
  | nil =>
    obtain rfl := List.mem_singleton.mp member
    exact List.not_mem_nil
  | cons c rest ih =>
    rw [pieces] at member
    split at member
    · rcases List.mem_cons.mp member with rfl | later
      · exact List.not_mem_nil
      · exact ih later
    · next other =>
      -- Only the first piece grows, by a character that is no cut.
      split at member <;> next found =>
        simp only [found, List.mem_cons, List.not_mem_nil, or_false, forall_eq_or_imp] at ih member
        grind

end Text

namespace TypePath

def Proper (segment : String) : Prop :=
  segment ≠ "" ∧ ∀ c ∈ segment.toList, ('A' ≤ c ∧ c ≤ 'Z') ∨ ('a' ≤ c ∧ c ≤ 'z') ∨
    ('0' ≤ c ∧ c ≤ '9') ∨ c = '_'

/-- The text says a path: it is how the path is written, or that with one more slash. -/
structure Spells (text : String) (path : TypePath) : Prop where
  proper : ∀ segment ∈ path.segments, Proper segment
  written : text = path.text ∨ text = path.text ++ "/"

def Encloses (text : String) (body : List Char) : Prop :=
  (text.toList = '/' :: body ∧ body.getLast? ≠ some '/') ∨ text.toList = '/' :: (body ++ ['/'])

structure Cuts (body : List Char) (segments : List String) : Prop where
  filled : segments ≠ []
  whole : ∀ segment ∈ segments, '/' ∉ segment.toList
  joined : ['/'].intercalate (segments.map String.toList) = body

/-- The leftmost segment of a text that is not proper. -/
def Offends (text segment : String) : Prop :=
  ∃ body before after, Encloses text body ∧ body ≠ [] ∧ Cuts body (before ++ segment :: after) ∧
    (∀ earlier ∈ before, Proper earlier) ∧ ¬ Proper segment

inductive Refuses (text : String) : PathError → Prop
  | relative (bare : text.toList.head? ≠ some '/') : Refuses text (.notAbsolute text)
  | empty (offends : Offends text "") : Refuses text (.emptySegment text)
  | invalid {segment : String} (filled : segment ≠ "") (offends : Offends text segment) :
      Refuses text (.invalidSegment text segment)

theorem isSegmentChar_iff (c : Char) : isSegmentChar c = true ↔
    ('A' ≤ c ∧ c ≤ 'Z') ∨ ('a' ≤ c ∧ c ≤ 'z') ∨ ('0' ≤ c ∧ c ≤ '9') ∨ c = '_' := by
  have classes :
      isSegmentChar c = (decide ('A' ≤ c ∧ c ≤ 'Z') || decide ('a' ≤ c) && decide (c ≤ 'z') ||
      decide ('0' ≤ c) && decide (c ≤ '9') || c == '_') := rfl
  simp only [classes, Bool.or_eq_true, Bool.and_eq_true, decide_eq_true_eq, beq_iff_eq, or_assoc]

theorem proper_iff (segment : String) :
    Proper segment ↔ segment ≠ "" ∧ segment.toList.all isSegmentChar = true := by
  simp [Proper, ← isSegmentChar_iff]

theorem Proper.no_slash {segment : String} (proper : Proper segment) : '/' ∉ segment.toList := by
  intro member
  have slash := proper.2 '/' member
  revert slash
  decide

theorem checkSegment_of_proper (text : String) {segment : String} (proper : Proper segment) :
    checkSegment text segment.toList = .ok segment := by
  obtain ⟨filled, known⟩ := (proper_iff segment).mp proper
  simp [checkSegment, filled, known]

def refusal (text segment : String) : PathError :=
  if segment = "" then .emptySegment text else .invalidSegment text segment

theorem checkSegment_of_not_proper (text : String) {segment : String} (bad : ¬ Proper segment) :
    checkSegment text segment.toList = .error (refusal text segment) := by
  rw [proper_iff] at bad
  by_cases empty : segment = ""
  · simp [checkSegment, refusal, empty]
  · have filled : ¬ segment.toList.isEmpty = true := by simpa using empty
    have strange : ¬ segment.toList.all isSegmentChar = true := fun known => bad ⟨empty, known⟩
    rw [checkSegment, if_neg filled, if_neg strange, refusal, if_neg empty, String.ofList_toList]

theorem mapM_checkSegment_of_proper (text : String) {segments : List String}
    (proper : ∀ segment ∈ segments, Proper segment) :
    (segments.map String.toList).mapM (checkSegment text) = .ok segments := by
  induction segments with
  | nil => rfl
  | cons segment rest ih =>
    rw [List.forall_mem_cons] at proper
    rw [List.map_cons, List.mapM_cons, checkSegment_of_proper text proper.1, ih proper.2]
    rfl

theorem mapM_checkSegment_of_leftmost (text : String) {before after : List String}
    {segment : String} (proper : ∀ earlier ∈ before, Proper earlier) (bad : ¬ Proper segment) :
    ((before ++ segment :: after).map String.toList).mapM (checkSegment text) =
      .error (refusal text segment) := by
  rw [List.map_append, List.mapM_append, mapM_checkSegment_of_proper text proper, List.map_cons,
    List.mapM_cons, checkSegment_of_not_proper text bad]
  rfl

theorem proper_or_leftmost (segments : List String) : (∀ segment ∈ segments, Proper segment) ∨
    ∃ before segment after, segments = before ++ segment :: after ∧
      (∀ earlier ∈ before, Proper earlier) ∧
      ¬ Proper segment := by
  induction segments with
  | nil => simp
  | cons segment rest ih =>
    by_cases proper : Proper segment
    · rcases ih with all | ⟨before, bad, after, rfl, earlier, offends⟩
      · exact Or.inl (List.forall_mem_cons.mpr ⟨proper, all⟩)
      · exact Or.inr ⟨segment :: before, bad, after, rfl,
          List.forall_mem_cons.mpr ⟨proper, earlier⟩, offends⟩
    · exact Or.inr ⟨[], segment, rest, rfl, by simp, proper⟩

theorem Cuts.pieces {body : List Char} {segments : List String} (cuts : Cuts body segments) :
    Text.pieces (· == '/') body = segments.map String.toList := by
  rw [Text.pieces_eq_splitOn, ← cuts.joined]
  refine List.splitOn_intercalate '/' ?_ (by simpa using cuts.filled)
  intro piece member
  obtain ⟨segment, inside, rfl⟩ := List.mem_map.mp member
  exact cuts.whole segment inside

theorem exists_cuts (body : List Char) : ∃ segments, Cuts body segments := by
  have same : ((Text.pieces (· == '/') body).map String.ofList).map String.toList =
    Text.pieces (· == '/') body := by
    simp [Function.comp_def]
  refine ⟨(Text.pieces (· == '/') body).map String.ofList, ⟨?_, ?_, ?_⟩⟩
  · rw [Text.pieces_eq_splitOn]
    simp
  · intro segment member
    obtain ⟨piece, inside, rfl⟩ := List.mem_map.mp member
    simpa using Text.not_mem_of_mem_pieces inside
  · rw [same, Text.pieces_eq_splitOn, List.intercalate_splitOn]

theorem parse_of_encloses {text : String} {body : List Char} (enclosed : Encloses text body) :
    parse text = if body = [] then .ok root
      else ((Text.pieces (· == '/') body).mapM (checkSegment text)).map TypePath.mk := by
  have enclosed : ∃ rest, text.toList = '/' :: rest ∧ withoutTrailingSlash rest = body := by
    rcases enclosed with ⟨whole, bare⟩ | whole
    · exact ⟨body, whole, if_neg bare⟩
    · exact ⟨body ++ ['/'], whole, by simp [withoutTrailingSlash]⟩
  obtain ⟨rest, whole, trimmed⟩ := enclosed
  unfold parse
  rw [whole]
  simp only [trimmed]
  cases body with
  | nil => rfl
  | cons c rest =>
    simp only [reduceCtorEq, if_false]
    cases (Text.pieces (· == '/') (c :: rest)).mapM (checkSegment text) <;> rfl

theorem exists_encloses {text : String} (absolute : text.toList.head? = some '/') :
    ∃ body, Encloses text body := by
  obtain ⟨rest, whole⟩ := List.head?_eq_some_iff.mp absolute
  by_cases ends : rest.getLast? = some '/'
  · obtain ⟨body, rfl⟩ := List.getLast?_eq_some_iff.mp ends
    exact ⟨body, Or.inr whole⟩
  · exact ⟨rest, Or.inl ⟨whole, ends⟩⟩

def joined (segments : List String) : List Char := ['/'].intercalate (segments.map String.toList)

theorem joined_cons_cons (first second : String) (rest : List String) :
    joined (first :: second :: rest) = first.toList ++ '/' :: joined (second :: rest) := by
  simp [joined, List.intercalate_cons_cons]

theorem toList_text (path : TypePath) : path.text.toList = '/' :: joined path.segments := by
  obtain ⟨segments⟩ := path
  cases segments with
  | nil => rfl
  | cons first rest =>
    show (String.join ((first :: rest).map ("/" ++ ·))).toList = _
    induction rest generalizing first with
    | nil => simp [joined]
    | cons second rest ih =>
      rw [joined_cons_cons, ← ih second]
      simp

theorem getLast?_joined {segments : List String} (filled : segments ≠ [])
    (proper : ∀ segment ∈ segments, Proper segment) : ∃ c, (joined segments).getLast? = some c ∧
      c ≠ '/' := by
  induction segments with
  | nil => exact absurd rfl filled
  | cons first rest ih =>
    rw [List.forall_mem_cons] at proper
    cases rest with
    | nil =>
      have some : first.toList ≠ [] := by simpa using proper.1.1
      refine ⟨first.toList.getLast some, by simp [joined, List.getLast?_eq_some_getLast some], ?_⟩
      intro slash
      exact proper.1.no_slash (slash ▸ List.getLast_mem some)
    | cons second rest =>
      obtain ⟨c, last, other⟩ := ih (by simp) proper.2
      refine ⟨c, ?_, other⟩
      rw [joined_cons_cons, List.getLast?_append, List.getLast?_cons, last]
      rfl

theorem Spells.encloses {text : String} {path : TypePath} (spells : Spells text path) :
    Encloses text (joined path.segments) := by
  rcases spells.written with rfl | rfl
  · refine Or.inl ⟨path.toList_text, ?_⟩
    by_cases filled : path.segments = []
    · simp [filled, joined]
    · obtain ⟨c, last, other⟩ := getLast?_joined filled spells.proper
      simpa [last] using other
  · exact Or.inr (by rw [String.toList_append, toList_text]; rfl)

theorem parse_of_spells {text : String} {path : TypePath} (spells : Spells text path) :
    parse text = .ok path := by
  rw [parse_of_encloses spells.encloses]
  by_cases filled : path.segments = []
  · rw [filled]
    exact congrArg Except.ok (TypePath.ext filled.symm)
  · have cuts : Cuts (joined path.segments) path.segments :=
      ⟨filled, fun segment member => (spells.proper segment member).no_slash, rfl⟩
    obtain ⟨c, last, -⟩ := getLast?_joined filled spells.proper
    have more : joined path.segments ≠ [] := by
      intro none
      simp [none] at last
    rw [if_neg more, cuts.pieces, mapM_checkSegment_of_proper text spells.proper]
    rfl

theorem parse_of_offends {text segment : String} (offends : Offends text segment) :
    parse text = .error (refusal text segment) := by
  obtain ⟨body, before, after, enclosed, filled, cuts, proper, bad⟩ := offends
  rw [parse_of_encloses enclosed, if_neg filled, cuts.pieces,
    mapM_checkSegment_of_leftmost text proper bad]
  rfl

theorem parse_of_refuses {text : String} {error : PathError} (refuses : Refuses text error) :
    parse text = .error error := by
  cases refuses with
  | relative bare =>
    unfold parse
    split
    · next rest whole =>
      rw [whole] at bare
      exact absurd rfl bare
    · rfl
  | empty offends => exact parse_of_offends offends
  | invalid filled offends =>
    rw [parse_of_offends offends, refusal, if_neg filled]

theorem spells_or_refuses (text : String) : (∃ path, Spells text path) ∨ ∃ error,
    Refuses text error := by
  by_cases absolute : text.toList.head? = some '/'
  · obtain ⟨body, enclosed⟩ := exists_encloses absolute
    have spelled {segments : List String} (proper : ∀ segment ∈ segments, Proper segment)
        (same : joined segments = body) : Spells text ⟨segments⟩ := by
      refine ⟨proper, ?_⟩
      rw [← String.toList_inj, ← String.toList_inj, String.toList_append, toList_text, same]
      exact enclosed.imp And.left id
    by_cases empty : body = []
    · exact Or.inl ⟨root, spelled (by simp) empty.symm⟩
    · obtain ⟨segments, cuts⟩ := exists_cuts body
      rcases proper_or_leftmost segments with proper | ⟨before, segment, after, rfl, proper, bad⟩
      · exact Or.inl ⟨⟨segments⟩, spelled proper cuts.joined⟩
      · have offends : Offends text segment :=
          ⟨body, before, after, enclosed, empty, cuts, proper, bad⟩
        by_cases blank : segment = ""
        · exact Or.inr ⟨_, .empty (blank ▸ offends)⟩
        · exact Or.inr ⟨_, .invalid blank offends⟩
  · exact Or.inr ⟨_, .relative absolute⟩

theorem parse_eq_ok_iff (text : String) (path : TypePath) : parse text = .ok path ↔
    Spells text path := by
  refine ⟨fun read => ?_, parse_of_spells⟩
  rcases spells_or_refuses text with ⟨other, spells⟩ | ⟨error, refuses⟩
  · cases read.symm.trans (parse_of_spells spells)
    exact spells
  · cases read.symm.trans (parse_of_refuses refuses)

theorem parse_eq_error_iff (text : String) (error : PathError) : parse text = .error error ↔
    Refuses text error := by
  refine ⟨fun refused => ?_, parse_of_refuses⟩
  rcases spells_or_refuses text with ⟨other, spells⟩ | ⟨other, refuses⟩
  · cases refused.symm.trans (parse_of_spells spells)
  · cases refused.symm.trans (parse_of_refuses refuses)
    exact refuses

theorem parse_text_of_parse {text : String} {path : TypePath} (read : parse text = .ok path) :
    parse path.text = .ok path :=
  parse_of_spells ⟨((parse_eq_ok_iff text path).mp read).proper, Or.inl rfl⟩

/-- Texts are read by the grammar of paths: what spells a path is read as it, and anything else is
refused for the reason that the grammar gives. Reading undoes writing, so that paths which can be
read are written differently. -/
theorem parse_grammar (text : String) :
    (∀ path, parse text = .ok path ↔ Spells text path) ∧
    (∀ error, parse text = .error error ↔ Refuses text error) ∧
    (∀ path, parse text = .ok path → parse path.text = .ok path) ∧
    ∀ path other, parse text = .ok path → (∃ more, parse more = .ok other) →
      path.text = other.text → path = other := by
  refine ⟨parse_eq_ok_iff text, parse_eq_error_iff text, fun path => parse_text_of_parse, ?_⟩
  rintro path other read ⟨more, also⟩ same
  have first := parse_text_of_parse read
  rw [same, parse_text_of_parse also] at first
  exact (Except.ok.inj first).symm

example : (parse "//").toOption = some root := by decide +kernel

example : parse "/obj//" = .error (.emptySegment "/obj//") := by rfl

end TypePath

end ProcLowering
