import ProcLowering.Proofs.Balance

set_option autoImplicit false

namespace ProcLowering

structure Row where
  offset : Nat
  instruction : Instruction
  depth : Nat

namespace Row

def places (rows : List Row) (last : Nat × Nat) : List (Nat × Nat) :=
  rows.map (fun row => (row.offset, row.depth)) ++ [last]

/-- Each row finds what it takes and leads to a place further on with
the depth that is expected there. -/
inductive Flows (last : Nat × Nat) : List Row → Prop
  | nil : Flows last []
  | cons {row : Row} {rest : List Row} (enough : row.instruction.pops ≤ row.depth)
      (alone : row.instruction = .ret → row.depth = 1)
      (falls : row.instruction ≠ .ret →
        (places rest last).head?.map (·.2) =
          some (row.depth - row.instruction.pops + row.instruction.pushes))
      (jumps : ∀ target, row.instruction = .jumpIfNullDereference target →
        (target, row.depth) ∈ places rest last)
      (more : Flows last rest) : Flows last (row :: rest)

theorem head?_places_append (first second : List Row) {middle last : Nat × Nat}
    (starts : (places second last).head? = some middle) :
    (places (first ++ second) last).head? = (places first middle).head? := by
  cases first with
  | nil => exact starts
  | cons => rfl

theorem mem_places_append {first second : List Row} {middle last place : Nat × Nat}
    (starts : (places second last).head? = some middle) (member : place ∈ places first middle) :
    place ∈ places (first ++ second) last := by
  have start : middle ∈ places second last := List.mem_of_head? starts
  unfold places at member start ⊢
  rw [List.map_append, List.append_assoc]
  rcases List.mem_append.mp member with left | right
  · exact List.mem_append_left _ left
  · rw [List.mem_singleton.mp right]
    exact List.mem_append_right _ start

theorem Flows.append {first second : List Row} {middle last : Nat × Nat} (head : Flows middle first)
    (tail : Flows last second) (starts : (places second last).head? = some middle) :
      Flows last (first ++ second) := by
  induction head with
  | nil => exact tail
  | cons enough alone falls jumps _ ih =>
    rw [List.cons_append]
    refine .cons enough alone ?_ ?_ ih
    · intro onward
      rw [head?_places_append _ _ starts]
      exact falls onward
    · intro target jump
      exact mem_places_append starts (jumps target jump)

structure Fits (places : List (Nat × Nat)) (i : Nat) (row : Row) : Prop where
  enough : row.instruction.pops ≤ row.depth
  alone : row.instruction = .ret → row.depth = 1
  falls : row.instruction ≠ .ret →
    places[i + 1]?.map (·.2) = some (row.depth - row.instruction.pops + row.instruction.pushes)
  jumps : ∀ target, row.instruction = .jumpIfNullDereference target → (target, row.depth) ∈ places

theorem Flows.fits {rows : List Row} {last : Nat × Nat} (flows : Flows last rows)
    {i : Nat} {row : Row} (found : rows[i]? = some row) : Fits (places rows last) i row := by
  induction flows generalizing i with
  | nil => simp at found
  | cons enough alone falls jumps _ ih =>
    cases i with
    | zero =>
      cases found
      refine ⟨enough, alone, ?_, ?_⟩
      · intro onward
        rw [← falls onward, List.head?_eq_getElem?]
        rfl
      · intro target jump
        exact List.mem_cons_of_mem _ (jumps target jump)
    | succ i =>
      obtain ⟨enough', alone', falls', jumps'⟩ := ih found
      exact ⟨enough', alone', falls', fun target jump =>
        List.mem_cons_of_mem _ (jumps' target jump)⟩

theorem Flows.fits_returning {rows : List Row} {offset : Nat} (flows : Flows (offset, 1) rows)
    {i : Nat} {row : Row} (found : (rows ++ [⟨offset, .ret, 1⟩])[i]? = some row) :
    Fits (places rows (offset, 1)) i row := by
  by_cases before : i < rows.length
  · rw [List.getElem?_append_left before] at found
    exact flows.fits found
  · rw [List.getElem?_append_right (by omega), List.getElem?_singleton] at found
    split at found <;> cases found
    exact ⟨Nat.le_refl 1, fun _ => rfl, by simp, by simp⟩

end Row

/-- Depths of the stack, one for each instruction, under which code
can be trusted without running it. -/
structure Verified (size : Nat) (listing : List (Nat × Instruction)) (depths : List Nat) :
    Prop where
  length : depths.length = listing.length
  starts : depths[0]? = some 0
  enough : ∀ (i offset : Nat) (instruction : Instruction) (depth : Nat), listing[i]? =
    some (offset, instruction) →
    depths[i]? = some depth → instruction.pops ≤ depth
  alone : ∀ i offset depth : Nat, listing[i]? = some (offset, .ret) →
    depths[i]? = some depth → depth = 1
  falls : ∀ (i offset : Nat) (instruction : Instruction) (depth : Nat), listing[i]? =
    some (offset, instruction) →
    depths[i]? = some depth → instruction ≠ .ret →
      depths[i + 1]? = some (depth - instruction.pops + instruction.pushes)
  jumps : ∀ i offset target depth :
    Nat, listing[i]? = some (offset, .jumpIfNullDereference target) →
    depths[i]? = some depth → target < size ∧
      ∃ (j : Nat) (instruction : Instruction), listing[j]? = some (target, instruction) ∧
        depths[j]? = some depth

theorem Row.verified {rows : List Row} {size first : Nat}
    (starts : (rows.map fun row => (row.offset, row.depth)).head? = some (first, 0))
    (inside : ∀ row ∈ rows, row.offset < size)
    (fits : ∀ i row, rows[i]? = some row →
      Fits (rows.map fun row => (row.offset, row.depth)) i row) :
    Verified size (rows.map fun row => (row.offset, row.instruction)) (rows.map (·.depth)) := by
  have row_of (i offset : Nat) (instruction : Instruction) (depth : Nat)
      (found : (rows.map fun row => (row.offset, row.instruction))[i]? = some (offset, instruction))
      (deep : (rows.map (·.depth))[i]? = some depth) :
        rows[i]? = some ⟨offset, instruction, depth⟩ := by
    rw [List.getElem?_map] at found deep
    cases there : rows[i]? with
    | none =>
      rw [there] at found
      cases found
    | some row =>
      rw [there] at found deep
      cases found
      cases deep
      rfl
  refine ⟨by simp, ?_, ?_, ?_, ?_, ?_⟩
  · have shallow := congrArg (Option.map Prod.snd) starts
    rwa [← List.head?_map, List.map_map, List.head?_eq_getElem?] at shallow
  · intro i offset instruction depth found deep
    exact (fits i _ (row_of i offset instruction depth found deep)).enough
  · intro i offset depth found deep
    exact (fits i _ (row_of i offset .ret depth found deep)).alone rfl
  · intro i offset instruction depth found deep onward
    have next := (fits i _ (row_of i offset instruction depth found deep)).falls onward
    rwa [← List.getElem?_map, List.map_map] at next
  · intro i offset target depth found deep
    have reached := (fits i _ (row_of i offset _ depth found deep)).jumps target rfl
    obtain ⟨row, member, same⟩ := List.mem_map.mp reached
    cases same
    obtain ⟨j, found'⟩ := List.mem_iff_getElem?.mp member
    refine ⟨inside row member, j, row.instruction, ?_, ?_⟩
    · rw [List.getElem?_map, found']
      rfl
    · rw [List.getElem?_map, found']
      rfl

namespace Step

theorem Lowered.flows {limit first last depth depth' : Nat} {steps : List Step}
    {listing : List (Nat × Instruction)} (lowered : Lowered first steps listing last)
    (balanced : Balanced limit depth steps depth') :
    ∃ rows : List Row, rows.map (fun row => (row.offset, row.instruction)) = listing ∧
      Row.Flows (last, depth') rows ∧
        (Row.places rows (last, depth')).head? = some (first, depth) := by
  induction lowered generalizing depth depth' with
  | nil offset =>
    cases balanced
    exact ⟨[], rfl, .nil, rfl⟩
  | line _ ih =>
    cases balanced with
    | line tail => exact ih tail
    | straight written => cases written
  | @straight offset last step instruction held rest listing written same _ ih =>
    cases balanced with
    | line => cases written
    | unlessNull => cases written
    | fault => cases written
    | straight written' ready enough alone fits tail =>
      rw [written] at written'
      cases written'
      obtain ⟨rows, listed, flows, starts⟩ := ih tail
      refine ⟨⟨offset, held, depth⟩ :: rows, by rw [List.map_cons, listed], ?_, rfl⟩
      -- A pool may hold another spelling of the constant, which flows alike.
      cases same with
      | refl =>
        refine .cons enough alone ?_
          (fun target jump => absurd jump (instruction?_straight written target)) flows
        intro _
        rw [starts]
        rfl
      | constant =>
        refine .cons enough (by simp) ?_ (by simp) flows
        intro _
        rw [starts]
        rfl
  | @unlessNull offset join last guarded rest inner listing _ _ ihInside ihTail =>
    cases balanced with
    | straight written => cases written
    | unlessNull tested inside tail =>
      obtain ⟨rows, listed, flows, starts⟩ := ihInside inside
      obtain ⟨rows', listed', flows', starts'⟩ := ihTail tail
      refine ⟨⟨offset, .jumpIfNullDereference join, depth⟩ :: (rows ++ rows'), ?_, ?_, rfl⟩
      · rw [List.map_cons, List.map_append, listed, listed']
      · refine .cons tested (by simp) ?_ ?_ (flows.append flows' starts')
        · intro _
          rw [Row.head?_places_append _ _ starts', starts]
          show some depth = some (depth - 1 + 1)
          congr 1
          omega
        · intro target jump
          cases jump
          refine Row.mem_places_append starts' ?_
          simp [Row.places]

theorem Lowered.split {first last : Nat} {steps more : List Step}
    {listing : List (Nat × Instruction)} (lowered : Lowered first (steps ++ more) listing last) :
    ∃ left middle right, listing = left ++ right ∧ Lowered first steps left middle ∧
      Lowered middle more right last := by
  generalize whole : steps ++ more = all at lowered
  induction lowered generalizing steps with
  | nil offset =>
    obtain ⟨rfl, rfl⟩ := List.append_eq_nil_iff.mp whole
    exact ⟨[], offset, [], rfl, .nil _, .nil _⟩
  | @line offset last number rest listing tail ih =>
    cases steps with
    | nil =>
      cases whole
      exact ⟨[], offset, listing, rfl, .nil _, .line tail⟩
    | cons step steps =>
      cases whole
      obtain ⟨left, middle, right, parts, head, tail⟩ := ih rfl
      exact ⟨left, middle, right, parts, .line head, tail⟩
  | @straight offset last step instruction held rest listing written same tail ih =>
    cases steps with
    | nil =>
      cases whole
      exact ⟨[], offset, _, rfl, .nil _, .straight written same tail⟩
    | cons step steps =>
      cases whole
      obtain ⟨left, middle, right, rfl, head, tail⟩ := ih rfl
      exact ⟨(offset, held) :: left, middle, right, rfl, .straight written same head, tail⟩
  | @unlessNull offset join last guarded rest inner listing inside tail _ ih =>
    cases steps with
    | nil =>
      cases whole
      exact ⟨[], offset, _, rfl, .nil _, .unlessNull inside tail⟩
    | cons step steps =>
      cases whole
      obtain ⟨left, middle, right, rfl, head, tail⟩ := ih rfl
      refine ⟨(offset, .jumpIfNullDereference join) :: (inner ++ left), middle, right, ?_,
        .unlessNull inside head, tail⟩
      rw [List.cons_append, List.append_assoc]

theorem Balanced.split {limit depth last : Nat} {steps more : List Step}
    (balanced : Balanced limit depth (steps ++ more) last) (faultless : Faultless steps) :
    ∃ middle, Balanced limit depth steps middle ∧ Balanced limit middle more last := by
  induction steps generalizing depth with
  | nil => exact ⟨depth, .nil _, balanced⟩
  | cons step steps ih =>
    have later : Faultless steps := fun cause occurs => faultless cause (.later occurs)
    cases balanced with
    | line tail =>
      obtain ⟨middle, head, tail⟩ := ih tail later
      exact ⟨middle, .line head, tail⟩
    | straight written ready enough alone fits tail =>
      obtain ⟨middle, head, tail⟩ := ih tail later
      exact ⟨middle, .straight written ready enough alone fits head, tail⟩
    | unlessNull tested inside tail =>
      obtain ⟨middle, head, tail⟩ := ih tail later
      exact ⟨middle, .unlessNull tested inside head, tail⟩
    | fault => exact absurd (.here steps) (faultless _)

theorem Lowered.verified {limit size last : Nat} {steps : List Step}
    {listing : List (Nat × Instruction)} (lowered : Lowered 0 (steps ++ [.ret]) listing size)
    (balanced : Balanced limit 0 (steps ++ [.ret]) last) :
    ∃ depths, Verified size listing depths := by
  have inside := lowered.within.2
  obtain ⟨left, middle, right, rfl, head, tail⟩ := lowered.split
  obtain ⟨depth, head', tail'⟩ := balanced.split head.faultless
  have one : depth = 1 := by
    cases tail' with
    | straight written _ _ alone =>
      cases written
      exact alone rfl
  subst one
  have ending : right = [(middle, .ret)] := by
    cases tail with
    | straight written same more =>
      cases written
      cases same
      cases more
      rfl
  subst ending
  obtain ⟨rows, rfl, flows, starts⟩ := head.flows head'
  have listed : rows.map (fun row => (row.offset, row.instruction)) ++ [(middle, .ret)] =
      (rows ++ [Row.mk middle .ret 1]).map fun row => (row.offset, row.instruction) := by
    simp
  have placed : Row.places rows (middle, 1) =
      (rows ++ [Row.mk middle .ret 1]).map fun row => (row.offset, row.depth) := by
    simp [Row.places]
  rw [listed] at inside ⊢
  refine ⟨_, Row.verified (placed ▸ starts) ?_ fun i row found => placed ▸
    flows.fits_returning found⟩
  intro row member
  exact inside (row.offset, row.instruction) (List.mem_map.mpr ⟨row, member, rfl⟩)

end Step

namespace Stmt

variable (tree : ObjectTree) (options : Options) (proc : Proc)

theorem stepsAll_cons (scope : Scope) (stmt : Stmt) (rest : List Stmt) :
    (∃ steps inner, stepsAll tree options proc scope (stmt :: rest) =
      steps ++ stepsAll tree options proc inner rest) ∨
      ∃ cause, Step.Occurs (.fault cause) (stepsAll tree options proc scope (stmt :: rest)) := by
  cases stmt with
  | expr value =>
    refine Or.inl ⟨.line value.span.line :: (value.steps { tree, options, proc, scope } ++ [.pop]),
      scope, ?_⟩
    simp [stepsAll]
  | ret value span =>
    cases value with
    | none => exact Or.inl ⟨[.line span.line, .self, .ret], scope, rfl⟩
    | some value =>
      refine Or.inl ⟨.line span.line :: (value.steps { tree, options, proc, scope } ++ [.ret]),
        scope, ?_⟩
      simp [stepsAll]
  | var name typePath init span =>
    rw [stepsAll]
    cases scope.declare name.name (typePath.bind tree.find?) with
    | error fault => exact Or.inr ⟨fault, .later (.append_right _ (.here []))⟩
    | ok both =>
      left
      refine ⟨.line span.line ::
        ((init.map fun value => value.steps { tree, options, proc, scope }).getD [] ++
        if init.isSome then [.setLocal both.1.slot] else []), both.2, ?_⟩
      simp

theorem stepsAll_ends (statements : List Stmt) (scope : Scope)
    (returns : (statements.getLast?.map Stmt.isReturn).getD false = true) :
    (∃ steps, stepsAll tree options proc scope statements = steps ++ [.ret]) ∨
      ∃ cause, Step.Occurs (.fault cause) (stepsAll tree options proc scope statements) := by
  induction statements generalizing scope with
  | nil => cases returns
  | cons stmt rest ih =>
    cases rest with
    | nil =>
      left
      cases stmt with
      | expr _ => cases returns
      | var _ _ _ _ => cases returns
      | ret value span =>
        cases value with
        | none => exact ⟨[.line span.line, .self], rfl⟩
        | some value =>
          exact ⟨.line span.line :: value.steps { tree, options, proc, scope }, by simp [stepsAll]⟩
    | cons next rest =>
      rcases stepsAll_cons tree options proc scope stmt
        (next :: rest) with ⟨steps, inner, parts⟩ | faulty
      · rw [parts]
        rcases ih inner returns with ⟨more, ending⟩ | ⟨cause, occurs⟩
        · exact Or.inl ⟨steps ++ more, by rw [ending, List.append_assoc]⟩
        · exact Or.inr ⟨cause, occurs.append_right steps⟩
      · exact Or.inr faulty

end Stmt

namespace Body

theorem steps_end (tree : ObjectTree) (options : Options) (proc : Proc) (scope : Scope)
    (body : Body) :
    (∃ steps, body.steps tree options proc scope = steps ++ [.ret]) ∨
      ∃ cause, Step.Occurs (.fault cause) (body.steps tree options proc scope) := by
  unfold steps Stmt.closing
  split
  · next returns =>
    rw [List.append_nil]
    exact Stmt.stepsAll_ends tree options proc body.statements scope returns
  · exact Or.inl ⟨Stmt.stepsAll tree options proc scope body.statements ++ [.self], by simp⟩

theorem compile_verified (tree : ObjectTree) (options : Options) (body : Body)
    (compiled : CompiledProc) (done : body.compile tree options = .ok compiled) :
    ∃ listing depths, compiled.chunk.decode compiled.pool = .ok listing ∧
      Verified compiled.chunk.size listing depths := by
  obtain ⟨proc, scope, listing, -, -, lowered, decoded⟩ := compile_listing done
  have balanced := body.balanced tree options proc scope
  rcases body.steps_end tree options proc scope with ⟨steps, ending⟩ | ⟨cause, occurs⟩
  · rw [ending] at lowered balanced
    obtain ⟨depths, verified⟩ := lowered.verified balanced
    exact ⟨listing, depths, decoded, verified⟩
  · exact absurd occurs (lowered.faultless cause)

def guardedCall : Body where
  proc := .globalInit
  statements :=
    [.ret (some (.member
      (.call (.member (.member (.name ⟨"src", {}⟩) ⟨"next", {}⟩ true {}) ⟨"step", {}⟩ true {})
      [.ofValue none (.literal (.string "north") {}),
        .ofValue (some ⟨"by", {}⟩)
          (.binary .add (.name ⟨"dx", {}⟩) (.literal (.number .one) {}) {})] {})
      ⟨"owner", {}⟩ true {})) {},
    .expr (.call (.super {}) [] {})]

theorem compile_guardedCall :
    ∃ compiled, guardedCall.compile .empty {} = .ok compiled ∧
      ∃ listing depths, compiled.chunk.decode compiled.pool = .ok listing ∧
        Verified compiled.chunk.size listing depths := by
  have complete : (guardedCall.compile .empty {}).toBool = true := by decide +kernel
  cases done : guardedCall.compile .empty {} with
  | error fault =>
    rw [done] at complete
    cases complete
  | ok compiled => exact ⟨compiled, rfl, compile_verified _ _ _ compiled done⟩

end Body

end ProcLowering
