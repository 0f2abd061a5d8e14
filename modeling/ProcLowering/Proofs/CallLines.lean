import ProcLowering.Proofs.LineTable

set_option autoImplicit false

namespace ProcLowering

theorem Step.Calls.lines {α : Type} {makes : α → Instruction → Reference → UInt32 → Prop}
    {first last : UInt32} {steps : List Step} {nodes : List α}
    (calls : Calls makes first steps nodes last) :
    List.Forall₂ (fun node found => ∃ push, makes node push found.1 found.2) nodes
      (callLinesAll first steps) ∧
      lineAfterAll first steps = last := by
  induction calls with
  | nil => exact ⟨.nil, rfl⟩
  | append _ _ head tail =>
    rw [callLinesAll_append, lineAfterAll_append, head.2]
    exact ⟨List.rel_append head.1 tail.1, tail.2⟩
  | line _ _ ih => exact ih
  | straight line written plain =>
    rw [callLinesAll, callLines_straight written, plain, lineAfterAll, lineAfter_straight written]
    exact ⟨.nil, rfl⟩
  | fault => exact ⟨.nil, rfl⟩
  | guardedIf safe _ ih =>
    cases safe with
    | false => exact ih
    | true =>
      rw [Step.guardedIf, if_pos rfl, callLinesAll, callLines, callLinesAll, List.append_nil]
      exact ih
  | call written plain _ made =>
    rw [callLinesAll, callLines_straight written, plain, lineAfterAll, lineAfter_straight written]
    exact ⟨.cons ⟨_, made⟩ .nil, rfl⟩

/-- A listed instruction is the call of a node. All of it comes from one line, and from that of the
node just when the last argument that is passed ends there. -/
structure CallNode.Placed (chunk : Chunk) (context : Context) (node : CallNode)
    (entry : Nat × Instruction) : Prop where
  call : ∃ reference, entry.2 = .call reference ∧ Refers context node.callee reference
  marks : chunk.Marks entry (node.line context.options.maxArguments)
  own : chunk.Marks entry node.span.line ↔
    ∀ argument, (node.arguments.take context.options.maxArguments).getLast? = some argument →
      argument.value.endLine context.options.maxArguments = node.span.line

theorem CallNode.Made.placed {chunk : Chunk} {context : Context} {node : CallNode}
    {push : Instruction} {reference : Reference} {line : UInt32}
    (made : node.Made context push reference line) {entry : Nat × Instruction}
    (written : entry.2 = .call reference) (marks : chunk.Marks entry line) :
      node.Placed chunk context entry := by
  rw [made.line] at marks
  refine ⟨⟨reference, written, made.refers⟩, marks, ?_⟩
  rw [← node.line_eq_iff]
  exact ⟨fun own => marks.unique own, fun same => same ▸ marks⟩

theorem CallNode.forall₂_placed {chunk : Chunk} {calls : List (Context × CallNode)}
    {found : List (Reference × UInt32)} {entries : List (Nat × Instruction)}
    (made : List.Forall₂ (fun call found => ∃ push, call.2.Made call.1 push found.1 found.2)
      calls found)
    (marks : List.Forall₂ (fun call entry => entry.2 = .call call.1 ∧ chunk.Marks entry call.2)
      found entries) :
    List.Forall₂ (fun call => call.2.Placed chunk call.1) calls entries := by
  induction made generalizing entries with
  | nil =>
    cases marks
    exact .nil
  | cons here _ ih =>
    obtain ⟨_, made⟩ := here
    obtain _ | ⟨⟨written, marks⟩, rest⟩ := marks
    exact .cons (made.placed written marks) (ih rest)

namespace Body

/-- Each call that is lowered has its own call instruction, on one line: that of the call where it
passes no arguments, whatever its receiver is, and else the one where its last argument ends. -/
theorem compile_call_lines {tree : ObjectTree} {options : Options} {body : Body}
    {compiled : CompiledProc} (done : body.compile tree options = .ok compiled) :
    ∃ proc scope listing, tree.proc body.proc = .ok proc ∧
      ({} : Scope).declareAll (body.declared proc) = .ok scope ∧
      compiled.chunk.decode compiled.pool = .ok listing ∧
      (body.valued tree options proc scope).map (·.2) = body.statements.filterMap Stmt.value? ∧
      List.Forall₂ (fun call => call.2.Placed compiled.chunk call.1)
        (body.calls tree options proc scope)
        (listing.filter (·.2.reference?.isSome)) := by
  obtain ⟨proc, scope, listing, found, opened, lowered, decoded⟩ := compile_listing done
  refine ⟨proc, scope, listing, found, opened, decoded, map_valued done found opened, ?_⟩
  obtain ⟨_, calls⟩ := body.makes_calls tree options proc scope
  have lines : compiled.chunk.lines =
      [] ++ (Step.byteLinesAll 1 (body.steps tree options proc scope) ++ []) := by
    rw [compile_lines done found opened, List.append_nil, List.nil_append]
  exact CallNode.forall₂_placed calls.lines.1 (lowered.marks lines rfl)

def callLines? (tree : ObjectTree) (options : Options) (body : Body) :
    Option (List (Option UInt32)) :=
  (body.compile tree options).toOption.bind fun compiled =>
    (compiled.chunk.decode compiled.pool).toOption.map fun listing =>
      (listing.filter (·.2.reference?.isSome)).map fun entry => compiled.chunk.line? entry.1

theorem callLines?_eq_some {tree : ObjectTree} {options : Options} {body : Body}
    {lines : List (Option UInt32)} (starts : body.callLines? tree options = some lines) :
    ∃ compiled, body.compile tree options = .ok compiled ∧ ∀ listing,
      compiled.chunk.decode compiled.pool = .ok listing →
      (listing.filter (·.2.reference?.isSome)).map (fun entry => compiled.chunk.line? entry.1) =
        lines := by
  unfold callLines? at starts
  cases done : body.compile tree options with
  | error fault =>
    rw [done] at starts
    cases starts
  | ok compiled =>
    refine ⟨compiled, rfl, fun listing decoded => ?_⟩
    rw [done] at starts
    dsimp only [Except.toOption, Option.bind_some] at starts
    rw [decoded] at starts
    exact Option.some.inj starts

def dialogue : Body where
  proc := ⟨1⟩
  statements :=
    [.expr (.call (.name ⟨"act", .point 1 1⟩)
      [.ofValue none (.call (.name ⟨"cue", .point 2 3⟩) [] (.point 2 3))] (.point 1 1)),
      .expr (.call (.name ⟨"act", .point 3 1⟩)
        [.ofValue none (.call (.name ⟨"cue", .point 4 3⟩) [] (.point 4 3)),
          .ofValue none (.self (.point 3 9))] (.point 3 1)),
      .expr (.call (.member (.call (.name ⟨"cue", .point 5 1⟩) [] (.point 5 1))
        ⟨"bow", .point 6 2⟩ true (.point 5 1)) []
        (.point 6 2))]

theorem compile_call_lines_dialogue :
    ∃ compiled proc scope listing, dialogue.compile theatre default = .ok compiled ∧
      compiled.chunk.decode compiled.pool = .ok listing ∧
      (listing.filter (·.2.reference?.isSome)).map (fun entry => compiled.chunk.line? entry.1) =
        [some 2, some 2, some 4, some 3, some 5, some 6] ∧
      (dialogue.calls theatre default proc scope).map (·.2.span.line) = [2, 1, 4, 3, 5, 6] ∧
      List.Forall₂ (fun call => call.2.Placed compiled.chunk call.1)
        (dialogue.calls theatre default proc scope)
        (listing.filter (·.2.reference?.isSome)) := by
  have starts : dialogue.callLines? theatre default =
    some [some 2, some 2, some 4, some 3, some 5, some 6] := by
    decide +kernel
  obtain ⟨compiled, done, lines⟩ := callLines?_eq_some starts
  obtain ⟨proc, scope, listing, -, -, decoded, -, placed⟩ := compile_call_lines done
  exact ⟨compiled, proc, scope, listing, done, decoded, lines listing decoded, rfl, placed⟩

def mobs : ObjectTree := TreeOp.build [.declare ⟨["mob"]⟩, .newProc ⟨1⟩ "Act" {}, .finalize]

/-- A call on the first line, whose argument is on the second. -/
def broken : Body where
  proc := ⟨1⟩
  statements :=
    [.expr (.call (.name ⟨"Act", .point 1 1⟩)
      [.ofValue none (.literal (.number (.ofNat 5)) (.point 2 3))] (.point 1 1))]

theorem call_below_its_line :
    ∃ compiled proc scope listing, broken.compile mobs default = .ok compiled ∧
      mobs.proc broken.proc = .ok proc ∧
      ({} : Scope).declareAll (broken.declared proc) = .ok scope ∧
        compiled.chunk.decode compiled.pool = .ok listing ∧
      (broken.calls mobs default proc scope).map (·.2.span.line) = [1] ∧
      (listing.filter (·.2.reference?.isSome)).map (fun entry => compiled.chunk.line? entry.1) =
        [some 2] ∧
      ¬ List.Forall₂ (fun call entry => compiled.chunk.Marks entry call.2.span.line)
        (broken.calls mobs default proc scope)
        (listing.filter (·.2.reference?.isSome)) := by
  have starts : broken.callLines? mobs default = some [some 2] := by decide +kernel
  obtain ⟨compiled, done, lines⟩ := callLines?_eq_some starts
  obtain ⟨proc, scope, listing, found, opened, -, decoded⟩ := compile_listing done
  have below := lines listing decoded
  refine ⟨compiled, proc, scope, listing, done, found, opened, decoded, rfl, below, fun own => ?_⟩
  generalize listing.filter (·.2.reference?.isSome) = entries at own below
  obtain _ | ⟨marks, -⟩ := own
  have same : some 1 = some (2 : UInt32) :=
    (marks 0 (Instruction.size_pos _)).symm.trans (List.cons.inj below).1
  exact absurd same (by decide)

end Body

end ProcLowering
