import ProcLowering.Proofs.Operation

/-!
Decoding undoes emission. While operations are carried out, the code is a row of items, one for each
operation that writes; a jump that still waits for its label is known by its operand. At the end no
jump waits, and the decoder reads the items one by one.
-/

set_option autoImplicit false

namespace ProcLowering.Emitter

theorem patchJump_items {items : List Item} {word : Nat → UInt16} {chunk patched : Chunk}
    {item : Item} {label : Label} {target : Nat} (tiled : Tiled 0 items chunk.size)
    (code : chunk.bytes.toList = items.flatMap (·.code word)) (member : item ∈ items)
    (jump : item.piece = .jump label)
    (ran : (Chunk.patchJump (item.offset + 1) target).run chunk = .ok () patched) :
    ∃ distance : UInt16, item.offset + 3 + distance.toNat = target ∧ patched.size = chunk.size ∧
      patched.bytes.toList =
        items.flatMap (·.code (Function.update word (item.offset + 1) distance)) := by
  obtain ⟨before, after, rfl, left, right⟩ := tiled.split member
  obtain ⟨forward, short, rfl⟩ := Chunk.patchJump_eq_ok ran
  refine ⟨UInt16.ofNat (target - (item.offset + 1 + 2)), ?_, ?_, ?_⟩
  · simp
    omega
  · exact Chunk.size_patched _ _ _
  · have place : item.offset = (before.flatMap (·.code word)).length := by
      have := left.code_length word
      omega
    have opcode : chunk.bytes.toList =
        (before.flatMap (·.code word) ++ [⟨Opcode.jumpIfNullDereference.byte, item.line⟩]) ++
          ((wordBytes (word (item.offset + 1))).map (CodeByte.mk · item.line) ++
            after.flatMap (·.code word)) := by
      rw [code]
      simp [Item.code, Item.bytes, jump, Piece.bytes]
    have replaced := Chunk.toList_patched short opcode
    rw [List.length_append, ← place] at replaced
    -- Every other item keeps its code, since its operand would stand elsewhere.
    have untouched (others : List Item)
        (apart : ∀ other ∈ others, other.offset + 1 ≠ item.offset + 1) (value : UInt16) :
        others.flatMap (·.code (Function.update word (item.offset + 1) value)) =
          others.flatMap (·.code word) := by
      simp only [List.flatMap_def]
      rw [List.map_congr_left fun other inside => Item.code_update (apart other inside) value]
    rw [List.flatMap_append, List.flatMap_cons, untouched before, untouched after]
    · simpa [Item.code, Item.bytes, jump, Piece.bytes] using replaced
    · intro other inside
      have := right.within inside
      have := (tiled.within member).2.2
      omega
    · intro other inside
      have := left.within inside
      omega

theorem patchJumps_items {items : List Item} {target : Nat} (operands : List Nat)
    {word : Nat → UInt16} {chunk patched : Chunk} (tiled : Tiled 0 items chunk.size)
    (code : chunk.bytes.toList = items.flatMap (·.code word))
    (jumps : ∀ operand ∈ operands, ∃ item ∈ items, ∃ label, item.piece = .jump label ∧
      item.offset + 1 = operand)
    (ran : EStateM.run (operands.forM fun operand => Chunk.patchJump operand target) chunk =
      .ok () patched) :
    ∃ word' : Nat → UInt16, patched.size = chunk.size ∧
      patched.bytes.toList = items.flatMap (·.code word') ∧
      (∀ operand ∈ operands, operand + 2 + (word' operand).toNat = target) ∧
        ∀ place, place ∉ operands → word' place = word place := by
  induction operands generalizing word chunk with
  | nil =>
    cases ran
    exact ⟨word, rfl, code, by simp, by simp⟩
  | cons operand rest ih =>
    rw [List.forM] at ran
    obtain ⟨_, next, first, others⟩ := run_bind_eq_ok ran
    obtain ⟨item, member, label, jump, rfl⟩ := jumps operand (by simp)
    obtain ⟨distance, lands, size, written⟩ := patchJump_items tiled code member jump first
    obtain ⟨word', size', written', land, kept⟩ :=
      ih (size ▸ tiled) written (fun other inside => jumps other (by simp [inside])) others
    refine ⟨word', size'.trans size, written', ?_, ?_⟩
    · intro other inside
      by_cases again : other ∈ rest
      · exact land other again
      · have same : other = item.offset + 1 := by simpa [again] using inside
        rw [same] at again ⊢
        rw [kept _ again, Function.update_self]
        omega
    · intro place outside
      rw [List.mem_cons, not_or] at outside
      rw [kept place outside.2, Function.update_of_ne outside.1]

theorem boundAt_append (moments : List Moment) (moment : Moment) (label : Label) (target : Nat) :
    BoundAt (moments ++ [moment]) label target ↔
      BoundAt moments label target ∨ moment.op = .bindLabel label ∧
        moment.before.chunk.size = target := by
  simp only [BoundAt, List.mem_append, List.mem_singleton, or_and_right, exists_or]
  simp

def Piece.Of (op : Op) : Piece → Prop
  | .code _ held => ∃ instruction, op.instruction? = some instruction ∧ held.Same instruction
  | .jump label => op = .skipIfNull label

structure Tells (moment : Moment) (item : Item) : Prop where
  offset : item.offset = moment.before.chunk.size
  line : item.line = moment.before.line
  ends : item.offset + item.size = moment.after.chunk.size
  piece : item.piece.Of moment.op

/-- The code consists of the items that the operations wrote, each
jump with the operand that `word` gives. -/
structure Laid (moments : List Moment) (items : List Item) (word : Nat → UInt16)
    (emitter : Emitter) : Prop where
  sound : emitter.pool.Sound
  tiled : Tiled 0 items emitter.chunk.size
  code : emitter.chunk.bytes.toList = items.flatMap (·.code word)
  encoded : ∀ item ∈ items, ∀ bytes held, item.piece = .code bytes held →
    Encodes emitter.pool item.offset bytes held
  jumps : ∀ item ∈ items, ∀ label, item.piece = .jump label →
    ∃ state, emitter.labels.states[label.id]? = some state ∧
      (state.offset = none → item.offset + 1 ∈ state.pending) ∧
        ∀ target, state.offset = some target →
          item.offset + 3 + (word (item.offset + 1)).toNat = target
  pending : ∀ id state, emitter.labels.states[id]? = some state → ∀ operand ∈ state.pending,
    ∃ item ∈ items, item.piece = .jump ⟨id⟩ ∧ item.offset + 1 = operand
  bound : ∀ label target, BoundAt moments label target ↔
    ∃ state, emitter.labels.states[label.id]? = some state ∧ state.offset = some target
  told : List.Forall₂ Tells (moments.filter (·.op.writes)) items

namespace Laid

variable {moments : List Moment} {items : List Item} {word : Nat → UInt16} {emitter : Emitter}

theorem start (word : Nat → UInt16) : Laid [] [] word {} where
  sound := Pool.sound_empty
  tiled := .nil 0
  code := rfl
  encoded := by simp
  jumps := by simp
  pending := by simp
  bound := by simp [BoundAt]
  told := .nil

theorem reword (laid : Laid moments items word emitter) {word' : Nat → UInt16}
    (same : ∀ item ∈ items, word' (item.offset + 1) = word (item.offset + 1)) :
    Laid moments items word' emitter where
  sound := laid.sound
  tiled := laid.tiled
  code := by
    rw [laid.code, List.flatMap_def, List.flatMap_def]
    congr 1
    apply List.map_congr_left
    intro item member
    simp only [Item.code, Item.bytes, same item member]
  encoded := laid.encoded
  jumps := by
    intro item member label jump
    rw [same item member]
    exact laid.jumps item member label jump
  pending := laid.pending
  bound := laid.bound
  told := laid.told

theorem silent (laid : Laid moments items word emitter) {op : Op} {after : Emitter}
    (quiet : op.writes = false) (unbinding : ∀ label, op ≠ .bindLabel label)
    (pool : after.pool = emitter.pool) (chunk : after.chunk = emitter.chunk)
    (labels : ∀ (id : Nat) (state : LabelState), state ≠ {} →
      (after.labels.states[id]? = some state ↔ emitter.labels.states[id]? = some state)) :
    Laid (moments ++ [⟨op, emitter, after⟩]) items word after where
  sound := pool ▸ laid.sound
  tiled := chunk ▸ laid.tiled
  code := chunk ▸ laid.code
  encoded := pool ▸ laid.encoded
  -- Only a label that nothing uses can be new, and each of these labels is jumped to or bound.
  jumps := by
    intro item member label jump
    obtain ⟨state, held, waits, lands⟩ := laid.jumps item member label jump
    have known : state ≠ {} := by
      rintro rfl
      simpa using waits rfl
    exact ⟨state, (labels _ _ known).mpr held, waits, lands⟩
  pending := by
    intro id state held operand waiting
    have known : state ≠ {} := by
      rintro rfl
      simp at waiting
    exact laid.pending id state ((labels _ _ known).mp held) operand waiting
  bound := by
    intro label target
    have other : ¬ (op = .bindLabel label ∧ emitter.chunk.size = target) :=
      fun both => unbinding label both.1
    rw [boundAt_append, laid.bound, or_iff_left other]
    apply exists_congr
    intro state
    apply and_congr_left
    intro bound
    have known : state ≠ {} := by
      rintro rfl
      simp at bound
    exact (labels _ _ known).symm
  told := by simpa [quiet] using laid.told

theorem extended (laid : Laid moments items word emitter) {op : Op} (after : Emitter) (item : Item)
    (writes : op.writes = true) (piece : item.piece.Of op) (filled : 0 < item.size)
    (atEnd : item.offset = emitter.chunk.size) (line : item.line = emitter.line)
    (chunk : after.chunk = emitter.chunk.write (item.bytes word) emitter.line) :
    Tiled 0 (items ++ [item]) after.chunk.size ∧
      after.chunk.bytes.toList = (items ++ [item]).flatMap (·.code word) ∧
        List.Forall₂ Tells ((moments ++ [Moment.mk op emitter after]).filter (·.op.writes))
          (items ++ [item]) := by
  have grown : after.chunk.size = item.offset + item.size := by
    rw [chunk, Chunk.size_write, Item.bytes_length, atEnd]
  refine ⟨?_, ?_, ?_⟩
  · rw [grown]
    exact Tiled.append (atEnd ▸ laid.tiled) (.cons filled (.nil _))
  · rw [chunk, List.flatMap_append, ← laid.code]
    simp [Chunk.write, Item.code, line]
  · rw [List.filter_append]
    refine List.rel_append laid.told ?_
    simp only [List.filter_cons, writes, if_true, List.filter_nil]
    exact .cons ⟨atEnd, line, grown.symm, piece⟩ .nil

theorem straight (laid : Laid moments items word emitter) {op : Op} {instruction : Instruction}
    {after : Emitter} (given : op.instruction? = some instruction)
    (ran : op.run.run emitter = .ok () after) :
    ∃ item, Laid (moments ++ [⟨op, emitter, after⟩]) (items ++ [item]) word after := by
  obtain ⟨pool, grown, result⟩ := Op.emits_of_ok given ran emitter laid.sound
  obtain ⟨bytes, held, same, length, encodes, agrees⟩ | ⟨failed, -⟩ := result
  case inr =>
    rw [failed] at ran
    cases ran
  rw [same] at ran
  cases ran
  have unbinding (label : Label) : op ≠ .bindLabel label := by
    rintro rfl
    cases given
  let item : Item := ⟨emitter.chunk.size, emitter.line, .code bytes held⟩
  have filled : 0 < item.size := by
    show 0 < bytes.length
    rw [length]
    exact instruction.size_pos
  obtain ⟨tiled, code, told⟩ := laid.extended (emitter.wrote bytes pool instruction) item
    (Op.writes_of_instruction? given) ⟨instruction, given, agrees⟩ filled rfl rfl rfl
  refine ⟨item, grown.sound, tiled, code, ?_, ?_, ?_, ?_, told⟩
  · intro other member code' held' piece
    rcases List.mem_append.mp member with member | member
    · exact (laid.encoded other member code' held' piece).later grown.grown
    · obtain rfl := List.mem_singleton.mp member
      cases piece
      exact encodes
  · intro other member label jump
    rcases List.mem_append.mp member with member | member
    · exact laid.jumps other member label jump
    · obtain rfl := List.mem_singleton.mp member
      cases jump
  · intro id state held operand waiting
    obtain ⟨other, member, found⟩ := laid.pending id state held operand waiting
    exact ⟨other, List.mem_append_left _ member, found⟩
  · intro label target
    have other : ¬ (op = .bindLabel label ∧ emitter.chunk.size = target) :=
      fun both => unbinding label both.1
    rw [boundAt_append, laid.bound, or_iff_left other]
    rfl

theorem skip (laid : Laid moments items word emitter) {label : Label} {after : Emitter}
    (ran : (Emitter.skipIfNull label).run emitter = .ok () after) :
    ∃ item word',
      Laid (moments ++ [⟨.skipIfNull label, emitter, after⟩]) (items ++ [item]) word' after := by
  rw [skipIfNull_run] at ran
  cases jumped : emitter.labels.jumped label (emitter.chunk.size + 1) emitter.depth with
  | error fault =>
    rw [jumped] at ran
    cases ran
  | ok next =>
    rw [jumped] at ran
    cases ran
    obtain ⟨state, held, unbound, -, rfl⟩ := (Labels.jumped_eq_ok_iff _ _ _ _ _).mp jumped
    let item : Item := ⟨emitter.chunk.size, emitter.line, .jump label⟩
    let word' := Function.update word (emitter.chunk.size + 1) Chunk.openJump
    have laid' : Laid moments items word' emitter := by
      apply laid.reword
      intro other member
      have := laid.tiled.within member
      exact Function.update_of_ne (by omega) _ _
    have written : emitter.chunk.writeJump .jumpIfNullDereference emitter.line =
        emitter.chunk.write (item.bytes word') emitter.line := by
      simp [Chunk.writeJump, item, Item.bytes, Piece.bytes, word']
    obtain ⟨tiled, code, told⟩ := laid'.extended
      { emitter with
        chunk := emitter.chunk.writeJump .jumpIfNullDereference emitter.line
        labels := emitter.labels.setState label
          { state with
            depth := some emitter.depth, pending := (emitter.chunk.size + 1) :: state.pending } }
      item rfl (rfl : item.piece.Of (.skipIfNull label))
        (by simp [item, Item.size, Piece.bytes]) rfl rfl written
    refine ⟨item, word', laid.sound, tiled, code, ?_, ?_, ?_, ?_, told⟩
    · intro other member bytes instruction piece
      rcases List.mem_append.mp member with member | member
      · exact laid.encoded other member bytes instruction piece
      · obtain rfl := List.mem_singleton.mp member
        cases piece
    · intro other member label' jump
      rw [Labels.getElem?_setState]
      rcases List.mem_append.mp member with member | member
      · obtain ⟨known, held', waits, lands⟩ := laid'.jumps other member label' jump
        by_cases same : label.id = label'.id
        · rw [← same, held] at held'
          cases held'
          rw [if_pos same, ← same, held]
          refine ⟨_, rfl, fun open' => ?_, lands⟩
          exact List.mem_cons_of_mem _ (waits open')
        · rw [if_neg same]
          exact ⟨known, held', waits, lands⟩
      · obtain rfl := List.mem_singleton.mp member
        cases jump
        rw [if_pos rfl, held]
        refine ⟨_, rfl, fun _ => by simp [item], fun target bound => ?_⟩
        simp [unbound] at bound
    · intro id known held' operand waiting
      rw [Labels.getElem?_setState] at held'
      split at held'
      · next same =>
        subst same
        rw [held] at held'
        cases held'
        rcases List.mem_cons.mp waiting with rfl | waiting
        · exact ⟨item, by simp, rfl, rfl⟩
        · obtain ⟨other, member, found⟩ := laid.pending _ state held operand waiting
          exact ⟨other, List.mem_append_left _ member, found⟩
      · obtain ⟨other, member, found⟩ := laid.pending id known held' operand waiting
        exact ⟨other, List.mem_append_left _ member, found⟩
    · intro label' target
      rw [boundAt_append, laid.bound, or_iff_left (by simp), Labels.getElem?_setState]
      split
      · next same => simp [← same, held, unbound]
      · rfl

theorem bind (laid : Laid moments items word emitter) {label : Label} {after : Emitter}
    (ran : (Emitter.bindLabel label).run emitter = .ok () after) :
    ∃ word', Laid (moments ++ [⟨.bindLabel label, emitter, after⟩]) items word' after := by
  obtain ⟨next, found, patches, pool, -, labels⟩ := bindLabel_ok ran
  obtain ⟨state, held, unbound, -, rfl⟩ := (Labels.bound_eq_ok_iff _ _ _ _ _).mp found
  have own (operand : Nat) (waiting : operand ∈ state.pending.reverse) :
      ∃ item ∈ items, item.piece = .jump ⟨label.id⟩ ∧ item.offset + 1 = operand :=
    laid.pending label.id state held operand (List.mem_reverse.mp waiting)
  obtain ⟨word', size, code, land, kept⟩ :=
    patchJumps_items state.pending.reverse laid.tiled laid.code
    (fun operand waiting => by
      obtain ⟨item, member, jump, place⟩ := own operand waiting
      exact ⟨item, member, _, jump, place⟩) patches
  refine ⟨word', pool ▸ laid.sound, size ▸ laid.tiled, code, pool ▸ laid.encoded, ?_, ?_, ?_, ?_⟩
  · intro item member label' jump
    rw [labels, Labels.getElem?_setState]
    obtain ⟨known, held', waits, lands⟩ := laid.jumps item member label' jump
    by_cases same : label.id = label'.id
    · rw [← same, held] at held'
      cases held'
      rw [if_pos same, ← same, held]
      refine ⟨_, rfl, by simp, ?_⟩
      intro target here
      cases here
      have := land (item.offset + 1) (List.mem_reverse.mpr (waits unbound))
      omega
    · rw [if_neg same]
      refine ⟨known, held', waits, ?_⟩
      -- No operand of the bound label stands where this jump has its own.
      have elsewhere : item.offset + 1 ∉ state.pending.reverse := by
        intro waiting
        obtain ⟨other, member', jump', place⟩ := own _ waiting
        obtain rfl := laid.tiled.unique member' member (by omega)
        rw [jump'] at jump
        cases jump
        exact same rfl
      rw [kept _ elsewhere]
      exact lands
  · intro id known held' operand waiting
    rw [labels, Labels.getElem?_setState] at held'
    split at held'
    · next same =>
      rw [← same, held] at held'
      cases held'
      simp at waiting
    · exact laid.pending id known held' operand waiting
  · intro label' target
    rw [boundAt_append, laid.bound, labels, Labels.getElem?_setState]
    by_cases same : label.id = label'.id
    · have equal : label = label' := by
        cases label
        cases label'
        exact congrArg Label.mk same
      subst equal
      simp [held, unbound]
    · have other : ¬ (Op.bindLabel label = .bindLabel label' ∧ emitter.chunk.size = target) := by
        rintro ⟨equal, -⟩
        cases equal
        exact same rfl
      rw [if_neg same, or_iff_left other]
  · have quiet : (Op.bindLabel label).writes = false := rfl
    simpa [quiet] using laid.told

theorem allocated (laid : Laid moments items word emitter) {after : Emitter}
    (ran : Op.allocateLabel.run.run emitter = .ok () after) :
    Laid (moments ++ [⟨.allocateLabel, emitter, after⟩]) items word after := by
  cases ran
  refine laid.silent rfl (by simp) rfl rfl ?_
  intro id state known
  show (emitter.labels.states.push {})[id]? = some state ↔ _
  rw [Array.getElem?_push]
  split
  · next last =>
    subst last
    simp [known.symm]
  · rfl

theorem step (laid : Laid moments items word emitter) {op : Op} {after : Emitter}
    (ran : op.run.run emitter = .ok () after) :
    ∃ items' word', Laid (moments ++ [⟨op, emitter, after⟩]) items' word' after := by
  cases given : op.instruction? with
  | some instruction =>
    obtain ⟨item, laid'⟩ := laid.straight given ran
    exact ⟨_, word, laid'⟩
  | none =>
    cases op with
    | setLine number =>
      cases ran
      exact ⟨items, word, laid.silent rfl (by simp) rfl rfl fun _ _ _ => Iff.rfl⟩
    | allocateLabel => exact ⟨items, word, laid.allocated ran⟩
    | skipIfNull label =>
      obtain ⟨item, word', laid'⟩ := laid.skip ran
      exact ⟨_, word', laid'⟩
    | bindLabel label =>
      obtain ⟨word', laid'⟩ := laid.bind ran
      exact ⟨items, word', laid'⟩
    | _ => simp [Op.instruction?] at given

theorem run (laid : Laid moments items word emitter) {ops : List Op} {after : Emitter}
    (ran : (Op.runAll ops).run emitter = .ok () after) :
    ∃ items' word', Laid (moments ++ Op.moments ops emitter) items' word' after := by
  induction ops generalizing moments items word emitter with
  | nil =>
    cases ran
    exact ⟨items, word, by simpa [Op.moments] using laid⟩
  | cons op rest ih =>
    rw [Op.runAll] at ran
    obtain ⟨_, next, first, others⟩ := run_bind_eq_ok ran
    obtain ⟨items', word', laid'⟩ := laid.step first
    have more := ih laid' others
    rw [List.append_assoc] at more
    simpa [Op.moments, first] using more

end Laid

def Item.entry (word : Nat → UInt16) (item : Item) : Nat × Instruction :=
  (item.offset,
    match item.piece with
    | .code _ held => held
    | .jump _ => .jumpIfNullDereference (item.offset + 3 + (word (item.offset + 1)).toNat))

theorem Item.encodes {pool : Pool} {item : Item} (word : Nat → UInt16)
    (encoded : ∀ bytes held, item.piece = .code bytes held → Encodes pool item.offset bytes held) :
    Encodes pool item.offset (item.bytes word) (item.entry word).2 := by
  unfold Item.bytes Item.entry
  cases piece : item.piece with
  | code bytes held => exact encoded bytes held piece
  | jump label => exact Encodes.jump pool item.offset _

/-- What an operation leaves in the finished code: the instruction it was asked for, at the offset
and with the line of that moment. -/
structure Yields (moments : List Moment) (chunk : Chunk) (pool : Pool) (moment : Moment)
    (entry : Nat × Instruction) : Prop where
  offset : entry.1 = moment.before.chunk.size
  given : ∀ instruction, moment.op.instruction? = some instruction → entry.2.Same instruction
  jump : ∀ label, moment.op = .skipIfNull label →
    ∃ target, entry.2 = .jumpIfNullDereference target ∧
      ∀ place, BoundAt moments label place ↔ place = target
  reads : (Decoder.instruction chunk pool).run entry.1 = .ok (entry.2, moment.after.chunk.size)
  line : ∀ place, moment.before.chunk.size ≤ place → place < moment.after.chunk.size →
    chunk.line? place = some moment.before.line

theorem Item.reads {items : List Item} {word : Nat → UInt16} {chunk : Chunk} {pool : Pool}
    {item : Item} (tiled : Tiled 0 items chunk.size)
    (code : chunk.bytes.toList = items.flatMap (·.code word)) (member : item ∈ items)
    (encoded : ∀ bytes held, item.piece = .code bytes held → Encodes pool item.offset bytes held) :
    (Decoder.instruction chunk pool).run item.offset =
      .ok ((item.entry word).2, item.offset + item.size) ∧
      ∀ place, item.offset ≤ place → place < item.offset + item.size →
        chunk.line? place = some item.line := by
  obtain ⟨before, after, rfl, left, right⟩ := tiled.split member
  have start : item.offset = (before.flatMap (·.code word)).length := by
    have := left.code_length word
    omega
  have parts : chunk.bytes.toList =
      before.flatMap (·.code word) ++ (item.code word ++ after.flatMap (·.code word)) := by
    rw [code, List.flatMap_append, List.flatMap_cons]
  refine ⟨?_, ?_⟩
  · have bytes : chunk.code = (before.flatMap (·.code word)).map (·.value) ++
        (item.bytes word ++ (after.flatMap (·.code word)).map (·.value)) := by
      simp [Chunk.code, parts, Item.code, Function.comp_def]
    have holds := Chunk.holds_of_code bytes
    rw [List.length_map, ← start] at holds
    have read := Item.encodes word encoded chunk pool (Pool.extends_refl pool) holds
    rwa [Item.bytes_length] at read
  · intro place low high
    have inside : place - item.offset < (item.code word).length := by
      rw [Item.code_length]
      omega
    rw [Chunk.line?, ← Array.getElem?_toList, parts, List.getElem?_append_right (by omega), ← start,
      List.getElem?_append_left inside, List.getElem?_eq_getElem inside]
    simp [Item.code]

theorem Tiled.listed {chunk : Chunk} {pool : Pool} {word : Nat → UInt16} {items : List Item}
    {first last : Nat} (tiled : Tiled first items last)
    (reads : ∀ item ∈ items,
      (Decoder.instruction chunk pool).run item.offset =
        .ok ((item.entry word).2, item.offset + item.size)) :
    Listed chunk pool first (items.map (·.entry word)) last := by
  induction tiled with
  | nil offset => exact .nil offset
  | cons filled _ ih =>
    exact .cons (reads _ (by simp)) (by omega) (ih fun item member => reads item (by simp [member]))

theorem Laid.lands {moments : List Moment} {items : List Item} {word : Nat → UInt16}
    {emitter : Emitter} (laid : Laid moments items word emitter)
    (settled : emitter.labels.checkBound = .ok ()) {item : Item} (member : item ∈ items)
    {label : Label} (jump : item.piece = .jump label) (place : Nat) :
    BoundAt moments label place ↔ place = item.offset + 3 + (word (item.offset + 1)).toNat := by
  obtain ⟨state, held, waits, lands⟩ := laid.jumps item member label jump
  rw [laid.bound, held]
  cases bound : state.offset with
  | none =>
    have empty := (Labels.checkBound_eq_ok_iff _).mp settled _ _ held bound
    have waiting := waits bound
    rw [empty] at waiting
    simp at waiting
  | some target =>
    rw [lands target bound]
    constructor
    · rintro ⟨_, same, found⟩
      cases same
      rw [bound] at found
      exact (Option.some.inj found).symm
    · rintro rfl
      exact ⟨state, rfl, bound⟩

theorem Laid.yields {moments : List Moment} {items : List Item} {word : Nat → UInt16}
    {emitter : Emitter} (laid : Laid moments items word emitter)
    (settled : emitter.labels.checkBound = .ok ()) {item : Item} (member : item ∈ items)
    {moment : Moment} (tells : Tells moment item) :
    Yields moments emitter.chunk emitter.pool moment (item.entry word) := by
  obtain ⟨read, lines⟩ := Item.reads laid.tiled laid.code member (laid.encoded item member)
  have piece := tells.piece
  refine ⟨tells.offset, ?_, ?_, ?_, ?_⟩
  · intro instruction given
    cases kind : item.piece with
    | code bytes held =>
      rw [kind] at piece
      obtain ⟨other, found, same⟩ := piece
      rw [given] at found
      cases found
      simpa [Item.entry, kind] using same
    | jump label =>
      rw [kind] at piece
      change moment.op = _ at piece
      rw [piece] at given
      cases given
  · intro label skips
    cases kind : item.piece with
    | code bytes held =>
      rw [kind] at piece
      obtain ⟨other, found, -⟩ := piece
      rw [skips] at found
      cases found
    | jump other =>
      rw [kind] at piece
      change moment.op = _ at piece
      rw [skips] at piece
      cases piece
      exact ⟨_, by simp only [Item.entry, kind], laid.lands settled member kind⟩
  · rw [← tells.ends]
    exact read
  · rw [← tells.offset, ← tells.ends, ← tells.line]
    exact lines

theorem Laid.written {moments : List Moment} {items : List Item} {word : Nat → UInt16}
    {emitter : Emitter} (laid : Laid moments items word emitter)
    (settled : emitter.labels.checkBound = .ok ()) :
    emitter.chunk.decode emitter.pool = .ok (items.map (·.entry word)) ∧
      List.Forall₂ (Yields moments emitter.chunk emitter.pool) (moments.filter (·.op.writes))
        (items.map (·.entry word)) := by
  refine ⟨?_, ?_⟩
  · exact (laid.tiled.listed fun item member =>
      (Item.reads laid.tiled laid.code member (laid.encoded item member)).1).decode_eq
  · rw [List.forall₂_map_right_iff]
    obtain ⟨length, told⟩ := List.forall₂_iff_get.mp laid.told
    refine List.forall₂_iff_get.mpr ⟨length, fun i left right => ?_⟩
    exact laid.yields settled (List.get_mem items ⟨i, right⟩) (told i left right)

theorem decode_finished {ops : List Op} {final : Emitter} {chunk : Chunk} {pool : Pool}
    (ran : (Op.runAll ops).run {} = .ok () final) (finished : final.finish = .ok (chunk, pool)) :
    ∃ listing, chunk.decode pool = .ok listing ∧
      List.Forall₂ (Yields (Op.moments ops {}) chunk pool)
        ((Op.moments ops {}).filter (·.op.writes)) listing := by
  obtain ⟨items, word, laid⟩ := (Laid.start fun _ => 0).run ran
  obtain ⟨check, whole⟩ := (finish_eq_ok_iff _ _).mp finished
  cases whole
  rw [List.nil_append] at laid
  exact ⟨_, laid.written check⟩

theorem decode_runAll {ops : List Op} {final : Emitter} {chunk : Chunk} {pool : Pool}
    (ran : (Op.runAll ops).run {} = .ok () final) (finished : final.finish = .ok (chunk, pool)) :
    (Op.moments ops {}).map (·.op) = ops ∧
      (Op.moments ops {}).map (·.before.line) = Op.lines 1 ops ∧
      ∃ listing, chunk.decode pool = .ok listing ∧
        List.Forall₂ (Yields (Op.moments ops {}) chunk pool)
          ((Op.moments ops {}).filter (·.op.writes)) listing :=
  ⟨Op.moments_map_op ran, Op.moments_map_line Pool.sound_empty ran, decode_finished ran finished⟩

def guardedField : List Op :=
  [.setLine 7, .pushSrc, .allocateLabel, .skipIfNull ⟨0⟩, .setLine 8, .field "name",
    .constant (.string "name"), .pop, .bindLabel ⟨0⟩, .plain .ret]

theorem finish_of_run' {step : Emission Unit} {emitter : Emitter}
    (complete : (EStateM.run' (do step; get) emitter).any (·.finish.toBool) = true) :
    ∃ final code, step.run emitter = .ok () final ∧ final.finish = .ok code := by
  unfold EStateM.run' at complete
  rw [EStateM.run_bind] at complete
  cases ran : step.run emitter with
  | error _ _ =>
    rw [ran] at complete
    cases complete
  | ok _ final =>
    rw [ran] at complete
    cases finished : final.finish with
    | ok code => exact ⟨final, code, rfl, finished⟩
    | error _ =>
      have failed : final.finish.toBool = true := complete
      rw [finished] at failed
      cases failed

theorem decode_guardedField :
    ∃ final chunk pool, (Op.runAll guardedField).run {} = .ok () final ∧
      final.finish = .ok (chunk, pool) ∧
      (Op.moments guardedField {}).map (·.op) = guardedField ∧
        (Op.moments guardedField {}).map (·.before.line) = [1, 7, 7, 7, 7, 8, 8, 8, 8, 8] ∧
        ∃ listing, chunk.decode pool = .ok listing ∧
          List.Forall₂ (Yields (Op.moments guardedField {}) chunk pool)
            ((Op.moments guardedField {}).filter (·.op.writes)) listing := by
  have complete :
      (EStateM.run' (do Op.runAll guardedField; get) {}).any (·.finish.toBool) = true := by
    decide +kernel
  obtain ⟨final, code, ran, finished⟩ := finish_of_run' complete
  exact ⟨final, code.1, code.2, ran, finished, decode_runAll ran finished⟩

end ProcLowering.Emitter
