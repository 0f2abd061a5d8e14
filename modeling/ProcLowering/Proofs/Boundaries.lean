import ProcLowering.Proofs.Decoding

set_option autoImplicit false

namespace ProcLowering

namespace Chunk

variable {chunk : Chunk} {offset : Nat}

theorem lt_of_byte? {byte : UInt8} (found : chunk.byte? offset = some byte) :
    offset < chunk.size := by
  obtain ⟨_, there, -⟩ := Option.map_eq_some_iff.mp found
  exact (Array.getElem?_eq_some_iff.mp there).1

theorem le_of_word? {word : UInt16} (found : chunk.word? offset = some word) :
    offset + 2 ≤ chunk.size := by
  obtain ⟨_, -, found⟩ := Option.bind_eq_some_iff.mp found
  obtain ⟨_, low, -⟩ := Option.bind_eq_some_iff.mp found
  have := lt_of_byte? low
  omega

theorem le_of_double? {double : UInt32} (found : chunk.double? offset = some double) :
    offset + 4 ≤ chunk.size := by
  obtain ⟨_, -, found⟩ := Option.bind_eq_some_iff.mp found
  obtain ⟨_, -, found⟩ := Option.bind_eq_some_iff.mp found
  obtain ⟨_, -, found⟩ := Option.bind_eq_some_iff.mp found
  obtain ⟨_, low, -⟩ := Option.bind_eq_some_iff.mp found
  have := lt_of_byte? low
  omega

theorem opcode?_of_instructionLength? {length : Nat}
    (long : chunk.instructionLength? offset = some length) :
    ∃ op, chunk.opcode? offset = some op := by
  obtain ⟨op, found, -⟩ := Option.bind_eq_some_iff.mp long
  exact ⟨op, found⟩

theorem instructionLength?_end (ended : chunk.size ≤ offset) :
    chunk.instructionLength? offset = none := by
  have missing : chunk.bytes[offset]? = none := Array.getElem?_eq_none ended
  simp [instructionLength?, opcode?, byte?, missing]

theorem instructionLength?_pos {length : Nat}
    (long : chunk.instructionLength? offset = some length) :
    0 < length := by
  obtain ⟨op, -, long⟩ := Option.bind_eq_some_iff.mp long
  cases op
  case pushArguments =>
    obtain ⟨count, -, long⟩ := Option.bind_eq_some_iff.mp long
    cases long
    omega
  case call =>
    obtain ⟨code, -, long⟩ := Option.bind_eq_some_iff.mp long
    obtain ⟨kind, -, long⟩ := Option.bind_eq_some_iff.mp long
    cases long
    omega
  all_goals
    cases long
    omega

end Chunk

namespace Decoder

variable {α β : Type} {chunk : Chunk} {pool : Pool} {offset last : Nat}

theorem of_run_bind {first : Decoder α} {next : α → Decoder β} {result : β}
    (ran : (first >>= next).run offset = .ok (result, last)) :
    ∃ value middle, first.run offset = .ok (value, middle) ∧
      (next value).run middle = .ok (result, last) := by
  rw [StateT.run_bind] at ran
  cases begun : first.run offset with
  | error error =>
    rw [begun] at ran
    cases ran
  | ok both =>
    rw [begun] at ran
    exact ⟨both.1, both.2, rfl, ran⟩

/-- Wherever the decoder succeeds, it has moved on by `width` bytes, and not beyond the code. -/
def Takes (chunk : Chunk) (decoder : Decoder α) (width : Nat) : Prop :=
  ∀ offset value next, decoder.run offset = .ok (value, next) →
    next = offset + width ∧ (offset ≤ chunk.size → next ≤ chunk.size)

theorem Takes.bind {first : Decoder α} {next : α → Decoder β} {width more : Nat}
    (head : Takes chunk first width) (tail : ∀ value, Takes chunk (next value) more) :
    Takes chunk (first >>= next) (width + more) := by
  intro offset result last ran
  obtain ⟨value, middle, begun, done⟩ := of_run_bind ran
  obtain ⟨moved, inside⟩ := head offset value middle begun
  obtain ⟨moved', inside'⟩ := tail value middle result last done
  exact ⟨by omega, fun start => inside' (inside start)⟩

theorem takes_pure (chunk : Chunk) (value : α) : Takes chunk (pure value) 0 := by
  intro offset result next ran
  cases ran
  exact ⟨rfl, id⟩

theorem takes_throw (error : DecodeError) (width : Nat) :
    Takes chunk (throw error : Decoder α) width := by
  intro offset result next ran
  cases ran

theorem take_ok {width : Nat} {read? : Nat → Option α} {value : α}
    (ran : (take width read?).run offset = .ok (value, last)) :
    read? offset = some value ∧ last = offset + width := by
  unfold take at ran
  rw [StateT.run_bind, StateT.run_get, pure_bind] at ran
  dsimp only at ran
  cases found : read? offset with
  | none =>
    rw [found] at ran
    cases ran
  | some found' =>
    rw [found] at ran
    cases ran
    exact ⟨rfl, rfl⟩

theorem takes_take {width : Nat} {read? : Nat → Option α}
    (inside : ∀ offset value, read? offset = some value → offset + width ≤ chunk.size) :
    Takes chunk (take width read?) width := by
  intro offset value next ran
  obtain ⟨found, rfl⟩ := take_ok ran
  exact ⟨rfl, fun _ => inside offset value found⟩

theorem takes_byte (chunk : Chunk) : Takes chunk (byte chunk) 1 :=
  takes_take fun _ _ => Chunk.lt_of_byte?

theorem takes_word (chunk : Chunk) : Takes chunk (word chunk) 2 :=
  takes_take fun _ _ => Chunk.le_of_word?

theorem takes_double (chunk : Chunk) : Takes chunk (double chunk) 4 :=
  takes_take fun _ _ => Chunk.le_of_double?

theorem takes_constant (chunk : Chunk) (pool : Pool) : Takes chunk (constant chunk pool) 2 := by
  unfold constant
  refine (takes_word chunk).bind fun place => (?_ : Takes chunk _ 0)
  dsimp only
  split
  · exact takes_throw _ 0
  · exact takes_pure chunk _

theorem takes_nameAt (chunk : Chunk) (pool : Pool) (place : UInt16) :
    Takes chunk (nameAt pool place) 0 := by
  unfold nameAt
  split
  · exact takes_throw _ 0
  · exact takes_pure chunk _

theorem takes_name (chunk : Chunk) (pool : Pool) : Takes chunk (name chunk pool) 2 :=
  (takes_word chunk).bind fun place => takes_nameAt chunk pool place

theorem takes_jumpTarget (chunk : Chunk) : Takes chunk (jumpTarget chunk) 2 := by
  unfold jumpTarget
  refine (takes_word chunk).bind fun distance => (?_ : Takes chunk _ 0)
  intro offset target next ran
  cases ran
  exact ⟨rfl, id⟩

theorem takes_argumentNames (chunk : Chunk) (pool : Pool) (count : Nat) :
    Takes chunk (argumentNames chunk pool count) (2 * count) := by
  induction count with
  | zero => exact takes_pure chunk []
  | succ count ih =>
    have width : 2 * (count + 1) = 2 + (0 + 2 * count) := by omega
    have rest (name : Option String) := ih.bind fun names => takes_pure chunk (name :: names)
    rw [width, argumentNames]
    refine (takes_word chunk).bind fun place => (?_ : Takes chunk _ (0 + 2 * count))
    dsimp only
    split
    · exact (takes_pure chunk none).bind rest
    · rw [map_eq_pure_bind]
      exact ((takes_nameAt chunk pool place).bind fun name => takes_pure chunk (some name)).bind
        rest

theorem coded_ok {ofByte? : UInt8 → Option α} {refuse : Nat → UInt8 → DecodeError} {value : α}
    (ran : (coded chunk ofByte? refuse).run offset = .ok (value, last)) :
    (∃ code, chunk.byte? offset = some code ∧ ofByte? code = some value) ∧ last = offset + 1 := by
  unfold coded at ran
  rw [StateT.run_bind, StateT.run_get, pure_bind] at ran
  obtain ⟨code, middle, read, ran⟩ := of_run_bind ran
  obtain ⟨found, rfl⟩ := take_ok read
  cases known : ofByte? code with
  | none =>
    rw [known] at ran
    cases ran
  | some value' =>
    rw [known] at ran
    cases ran
    exact ⟨⟨code, found, known⟩, rfl⟩

theorem takes_coded (chunk : Chunk) (ofByte? : UInt8 → Option α)
    (refuse : Nat → UInt8 → DecodeError) :
    Takes chunk (coded chunk ofByte? refuse) 1 := by
  intro offset value next ran
  obtain ⟨⟨code, found, -⟩, rfl⟩ := coded_ok ran
  exact ⟨rfl, fun _ => Chunk.lt_of_byte? found⟩

-- The two readers whose width depends on what they read first.

theorem reference_ok {reference : Reference} (ran : (Decoder.reference chunk pool).run offset =
    .ok (reference, last)) :
    ∃ code kind, chunk.byte? offset = some code ∧ ReferenceKind.ofByte? code = some kind ∧
      last = offset + 1 + kind.payloadSize ∧ last ≤ chunk.size := by
  obtain ⟨kind, middle, read, ran⟩ := of_run_bind ran
  obtain ⟨⟨code, found, known⟩, rfl⟩ := coded_ok read
  have payload : last = offset + 1 + kind.payloadSize ∧
    (offset + 1 ≤ chunk.size → last ≤ chunk.size) := by
    cases kind with
    | instanceProc =>
      have takes := (takes_name chunk pool).bind fun name =>
        (takes_coded chunk Receiver.ofByte? .invalidReceiver).bind fun receiver =>
          takes_pure chunk (Reference.instanceProc name receiver)
      exact takes _ _ _ ran
    | globalProc =>
      have takes := (takes_double chunk).bind fun raw =>
        takes_pure chunk (Reference.globalProc ⟨raw⟩)
      exact takes _ _ _ ran
    | selfSlot => exact takes_pure chunk Reference.selfSlot _ _ _ ran
    | superProc => exact takes_pure chunk Reference.superProc _ _ _ ran
  exact ⟨code, kind, found, known, payload.1, payload.2 (Chunk.lt_of_byte? found)⟩

theorem instruction_ok {instruction : Instruction}
    (ran : (Decoder.instruction chunk pool).run offset = .ok (instruction, last)) :
    ∃ length, chunk.instructionLength? offset = some length ∧ last = offset + length ∧
      last ≤ chunk.size := by
  obtain ⟨op, middle, read, ran⟩ := of_run_bind ran
  obtain ⟨⟨code, found, known⟩, rfl⟩ := coded_ok read
  have start := Chunk.lt_of_byte? found
  have named : chunk.opcode? offset = some op := by simp [Chunk.opcode?, found, known]
  rw [Chunk.instructionLength?, named, Option.bind_eq_bind, Option.bind_some]
  -- Most operands are as wide as the opcode says, whatever they hold.
  have fixed {α : Type} {operand : Decoder α} {make : α → Instruction}
      (takes : Takes chunk operand op.operandSize)
      (ran : (operand >>= fun value => pure (make value)).run (offset + 1) =
        .ok (instruction, last)) :
      ∃ length, some (1 + op.operandSize) = some length ∧ last = offset + length ∧
        last ≤ chunk.size := by
    obtain ⟨moved, inside⟩ := takes.bind (fun value => takes_pure chunk (make value)) _ _ _ ran
    exact ⟨_, rfl, by omega, inside start⟩
  cases op with
  | pushArguments =>
    obtain ⟨count, middle, counted, ran⟩ := of_run_bind ran
    obtain ⟨present, rfl⟩ := take_ok counted
    have takes := (takes_argumentNames chunk pool count.toNat).bind fun names =>
      takes_pure chunk (Instruction.pushArguments names)
    obtain ⟨moved, inside⟩ := takes _ _ _ ran
    exact ⟨2 + 2 * count.toNat, by simp [present], by omega, inside (Chunk.lt_of_byte? present)⟩
  | call =>
    obtain ⟨reference, middle, referred, ran⟩ := of_run_bind ran
    obtain ⟨byte, kind, present, known, moved, inside⟩ := reference_ok referred
    cases ran
    exact ⟨2 + kind.payloadSize, by simp [present, known], by omega, inside⟩
  | pushConstant => exact fixed (takes_constant chunk pool) ran
  | getLocal | setLocal => exact fixed (takes_byte chunk) ran
  | getLocalWide | setLocalWide => exact fixed (takes_word chunk) ran
  | dereferenceField => exact fixed (takes_name chunk pool) ran
  | jumpIfNullDereference => exact fixed (takes_jumpTarget chunk) ran
  | _ =>
    cases ran
    exact ⟨_, rfl, rfl, start⟩

end Decoder

namespace Chunk

variable {chunk : Chunk}

inductive Tiles (chunk : Chunk) : Nat → List Nat → Nat → Prop
  | nil (offset : Nat) : Tiles chunk offset [] offset
  | cons {offset length last : Nat} {rest : List Nat}
      (long : chunk.instructionLength? offset = some length)
      (tail : Tiles chunk (offset + length) rest last) : Tiles chunk offset (offset :: rest) last

theorem Tiles.continued {first middle last : Nat} {offsets all : List Nat}
    (tiles : chunk.Tiles first offsets middle) (whole : chunk.Tiles first all last)
    (stuck : chunk.instructionLength? last = none) :
    ∃ more, all = offsets ++ more ∧ chunk.Tiles middle more last := by
  induction tiles generalizing all with
  | nil => exact ⟨all, rfl, whole⟩
  | cons long _ ih =>
    cases whole with
    | nil =>
      rw [stuck] at long
      cases long
    | cons long' tail =>
      -- Both are at one offset, where only one length can be read.
      rw [long] at long'
      cases long'
      obtain ⟨more, rfl, rest⟩ := ih tail
      exact ⟨more, rfl, rest⟩

theorem Tiles.eq_nil {first last : Nat} {offsets : List Nat}
    (tiles : chunk.Tiles first offsets last) (stuck : chunk.instructionLength? first = none) :
    offsets = [] := by
  cases tiles with
  | nil => rfl
  | cons long =>
    rw [stuck] at long
    cases long

theorem opcodesFrom_tiles (chunk : Chunk) (fuel first : Nat) (enough : chunk.size ≤ first + fuel)
    (found : Array Opcode) :
    ∃ ops offsets last, (chunk.opcodesFrom fuel first found).toList = found.toList ++ ops ∧
      chunk.Tiles first offsets last ∧ offsets.map chunk.opcode? = ops.map some ∧
      chunk.instructionLength? last = none := by
  induction fuel generalizing first found with
  | zero =>
    -- No steps are left only at the end of the code.
    exact ⟨[], [], first, by simp [opcodesFrom], .nil first, rfl, instructionLength?_end enough⟩
  | succ fuel ih =>
    cases long : chunk.instructionLength? first with
    | none =>
      refine ⟨[], [], first, ?_, .nil first, rfl, long⟩
      simp [opcodesFrom, long]
    | some length =>
      obtain ⟨op, named⟩ := opcode?_of_instructionLength? long
      have positive := instructionLength?_pos long
      obtain ⟨ops, offsets, last, walked, tiles, same, stuck⟩ :=
        ih (first + length) (by omega) (found.push op)
      refine ⟨op :: ops, first :: offsets, last, ?_, .cons long tiles, ?_, stuck⟩
      · simp [opcodesFrom, named, long, walked]
      · rw [List.map_cons, named, same, List.map_cons]

theorem opcodes_tiles (chunk : Chunk) : ∃ offsets last, chunk.Tiles 0 offsets last ∧
    offsets.map chunk.opcode? = chunk.opcodes.map some ∧ chunk.instructionLength? last = none := by
  obtain ⟨ops, offsets, last, walked, tiles, same, stuck⟩ :=
    chunk.opcodesFrom_tiles chunk.size 0 (by omega) #[]
  refine ⟨offsets, last, tiles, ?_, stuck⟩
  rw [same, opcodes, walked]
  rfl

/-- How reading ends, having got to some offset. -/
inductive Ends (chunk : Chunk) (pool : Pool) : Nat → Option DecodeError → Prop
  | whole : Ends chunk pool chunk.size none
  | failed {offset : Nat} {error : DecodeError} (inside : offset < chunk.size)
      (stuck : (Decoder.instruction chunk pool).run offset = .error error) :
        Ends chunk pool offset (some error)

theorem listingFrom_listed (chunk : Chunk) (pool : Pool) (fuel first : Nat)
    (inside : first ≤ chunk.size) (enough : chunk.size ≤ first + fuel)
    (found : Array (Nat × Instruction)) :
    ∃ listing last, Listed chunk pool first listing last ∧
      (chunk.listingFrom pool fuel first found).instructions.toList = found.toList ++ listing ∧
      chunk.Ends pool last (chunk.listingFrom pool fuel first found).stopped := by
  induction fuel generalizing first found with
  | zero =>
    obtain rfl : first = chunk.size := by omega
    exact ⟨[], _, .nil _, by simp [listingFrom], .whole⟩
  | succ fuel ih =>
    by_cases ended : chunk.size ≤ first
    · obtain rfl : first = chunk.size := by omega
      refine ⟨[], _, .nil _, by simp [listingFrom], ?_⟩
      simpa [listingFrom] using Ends.whole
    cases read : (Decoder.instruction chunk pool).run first with
    | error error =>
      refine ⟨[], first, .nil first, by simp [listingFrom, ended, read], ?_⟩
      simpa [listingFrom, ended, read] using Ends.failed (by omega) read
    | ok both =>
      obtain ⟨instruction, next⟩ := both
      -- The decoder has moved on, so there is more fuel than code again.
      obtain ⟨length, long, rfl, bound⟩ := Decoder.instruction_ok read
      have positive := instructionLength?_pos long
      obtain ⟨listing, last, listed, same, ends⟩ :=
        ih (first + length) bound (by omega) (found.push (first, instruction))
      refine ⟨(first, instruction) :: listing, last, .cons read (by omega) listed, ?_, ?_⟩
      · simp [listingFrom, ended, read, same]
      · simpa [listingFrom, ended, read] using ends

end Chunk

theorem Listed.tiles {chunk : Chunk} {pool : Pool} {first last : Nat}
    {listing : List (Nat × Instruction)} (listed : Listed chunk pool first listing last) :
    chunk.Tiles first (listing.map (·.1)) last := by
  induction listed with
  | nil offset => exact .nil offset
  | cons read _ _ ih =>
    obtain ⟨length, long, rfl, -⟩ := Decoder.instruction_ok read
    exact .cons long ih

namespace Chunk

/-- Reading comes to the end of the code or to an instruction that cannot be read. Up to there the
instructions lie end to end, and the walk over opcodes meets just these; it goes on only past an
instruction that cannot be read, and stops where none begins. -/
theorem decode_boundaries (chunk : Chunk) (pool : Pool) :
    (∃ listing last, (chunk.listing pool).instructions.toList = listing ∧
      Listed chunk pool 0 listing last ∧
      chunk.Tiles 0 (listing.map (·.1)) last ∧
      ((chunk.decode pool = .ok listing ∧ last = chunk.size ∧
          (listing.map (·.1)).map chunk.opcode? = chunk.opcodes.map some) ∨
        ∃ error, chunk.decode pool = .error error ∧ last < chunk.size ∧
          (Decoder.instruction chunk pool).run last = .error error ∧
          (listing.map (·.1)).map chunk.opcode? <+: chunk.opcodes.map some)) ∧
    ∃ offsets last, chunk.Tiles 0 offsets last ∧
      offsets.map chunk.opcode? = chunk.opcodes.map some ∧
      chunk.instructionLength? last = none := by
  refine ⟨?_, chunk.opcodes_tiles⟩
  obtain ⟨listing, last, listed, same, ends⟩ :=
    chunk.listingFrom_listed pool chunk.size 0 (by omega) (by omega) #[]
  obtain ⟨offsets, stop, walk, named, stuck⟩ := chunk.opcodes_tiles
  obtain ⟨more, rfl, rest⟩ := listed.tiles.continued walk stuck
  have read : (chunk.listing pool).instructions.toList = listing := same
  have ends : chunk.Ends pool last (chunk.listing pool).stopped := ends
  refine ⟨listing, last, read, listed, listed.tiles, ?_⟩
  generalize stopped : (chunk.listing pool).stopped = reason at ends
  cases ends with
  | whole =>
    -- At the end of the code nothing begins, so the walk has stopped there too.
    obtain rfl := rest.eq_nil (instructionLength?_end (Nat.le_refl _))
    refine .inl ⟨by simp [decode, stopped, read], rfl, ?_⟩
    rw [← named, List.append_nil]
  | failed inside error =>
    refine .inr ⟨_, by simp [decode, stopped], inside, error, ?_⟩
    rw [← named, List.map_append]
    exact List.prefix_append _ _

end Chunk

end ProcLowering
