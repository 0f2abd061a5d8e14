import ProcLowering.Proofs.Outcome
import ProcLowering.Proofs.Valued

set_option autoImplicit false

namespace ProcLowering

def LastAt (names : List String) (name : String) (place : Nat) : Prop :=
  names[place]? = some name ∧ ∀ later, place < later → names[later]? ≠ some name

theorem LastAt.lt_length {names : List String} {name : String} {place : Nat}
    (last : LastAt names name place) :
    place < names.length :=
  (List.getElem?_eq_some_iff.mp last.1).1

theorem lastAt_concat (names : List String) (name : String) :
    LastAt (names ++ [name]) name names.length := by
  refine ⟨by simp, fun later behind => ?_⟩
  rw [List.getElem?_eq_none (by simp; omega)]
  simp

theorem LastAt.concat {names : List String} {name other : String} {place : Nat}
    (last : LastAt names name place) (apart : other ≠ name) :
    LastAt (names ++ [other]) name place := by
  refine ⟨by rw [List.getElem?_append_left last.lt_length, last.1], fun later behind => ?_⟩
  rw [List.getElem?_append]
  split
  · exact last.2 later behind
  · rw [List.getElem?_singleton]
    split <;> simp [apart]

structure Scope.Lists (scope : Scope) (names : List String) : Prop where
  size : scope.size = names.length
  last : ∀ {name : String} {found : Local}, scope.find? name = some found →
    LastAt names name found.slot.toNat
  absent : ∀ {name : String}, scope.find? name = none → name ∉ names

namespace Scope

variable {scope inner : Scope} {names : List String}

theorem lists_empty : Lists {} [] where
  size := rfl
  last := by simp [find?]
  absent := by simp

theorem Lists.declare (lists : scope.Lists names) {name : String} {type : Option TypeId}
    {declared : Local} (done : scope.declare name type = .ok (declared, inner)) :
    inner.Lists (names ++ [name]) where
  size := by rw [size_declare done, lists.size, List.length_append, List.length_singleton]
  last := by
    intro other found
    rw [find?_declare done]
    split
    · next same =>
      rintro ⟨⟩
      rw [same, slot_declare done, lists.size]
      exact lastAt_concat names name
    · next apart =>
      intro held
      exact (lists.last held).concat (Ne.symm apart)
  absent := by
    intro other
    rw [find?_declare done]
    split
    · simp
    · next apart =>
      intro missing
      simp [lists.absent missing, apart]

theorem Lists.declareAll {locals : List LocalDecl} (lists : scope.Lists names)
    (done : scope.declareAll locals = .ok inner) : inner.Lists (names ++ locals.map (·.name)) := by
  induction locals generalizing scope names with
  | nil =>
    cases done
    simpa using lists
  | cons first rest ih =>
    obtain ⟨declared, middle, head, tail⟩ := declareAll_cons_eq_ok done
    simpa using ih (lists.declare head) tail

end Scope

mutual

def Expr.reads (limit : Nat) : Expr → List Identifier
  | .name identifier => [identifier]
  | .literal _ _ | .globalName _ | .self _ | .super _ => []
  | .member receiver _ _ _ => receiver.reads limit
  | .call callee arguments _ =>
    if (Target.ofExpr? callee).isSome then callee.receiverReads limit ++
      Argument.readsAll limit limit arguments else []
  | .paren inner _ => inner.reads limit
  | .unary _ operand _ => operand.reads limit
  | .binary _ left right _ => left.reads limit ++ right.reads limit

def Expr.receiverReads (limit : Nat) : Expr → List Identifier
  | .paren inner _ => inner.receiverReads limit
  | .member receiver _ _ _ => receiver.reads limit
  | _ => []

def Argument.readsAll (limit : Nat) : Nat → List Argument → List Identifier
  | _, [] => []
  | 0, _ => []
  | count + 1, .mk _ value _ :: rest => value.reads limit ++ Argument.readsAll limit count rest

end

theorem Expr.reads_of_fold? (limit : Nat) : (expr : Expr) → {value : Value} →
    expr.fold? = some value →
    expr.reads limit = []
  | .literal _ _, _, _ => by rw [reads]
  | .name _, _, folds | .globalName _, _, folds | .self _, _, folds | .super _, _, folds
  | .member _ _ _ _, _, folds
  | .call _ _ _, _, folds => by simp [fold?] at folds
  | .paren inner _, _, folds => by
    rw [fold?] at folds
    rw [reads, reads_of_fold? limit inner folds]
  | .unary _ operand _, _, folds => by
    rw [fold?] at folds
    obtain ⟨_, folded, -⟩ := Option.bind_eq_some_iff.mp folds
    rw [reads, reads_of_fold? limit operand folded]
  | .binary _ left right _, _, folds => by
    rw [fold?] at folds
    obtain ⟨_, first, folds⟩ := Option.bind_eq_some_iff.mp folds
    obtain ⟨_, second, -⟩ := Option.bind_eq_some_iff.mp folds
    rw [reads, reads_of_fold? limit left first, reads_of_fold? limit right second, List.append_nil]

def Instruction.slot? : Instruction → Option UInt16
  | .getLocal slot | .setLocal slot => some slot
  | .pushNull | .pushConstant _ | .pop | .pushSelf | .pushSrc | .dereferenceField _ | .operator _
  | .pushArguments _
  | .pushProcArguments | .call _ | .jumpIfNullDereference _ | .ret => none

namespace Step

def locals (steps : List Step) : List Instruction := (instructionsAll steps).filter (·.slot?.isSome)

@[simp] theorem locals_append (first second : List Step) :
    locals (first ++ second) = locals first ++ locals second := by
  rw [locals, instructionsAll_append, List.filter_append]
  rfl

@[simp] theorem locals_guardedIf (safe : Bool) (steps : List Step) : locals (guardedIf safe steps) =
    locals steps := by
  rw [locals, instructionsAll_guardedIf]
  rfl

@[simp] theorem locals_line (number : UInt32) (steps : List Step) : locals (.line number :: steps) =
    locals steps := rfl

theorem locals_value (value : Value) : locals [value.step] = [] := by
  unfold Value.step
  split <;> rfl

theorem locals_lookup (context : Context) (target : Target) :
    locals (target.lookupSteps context) = [] := by
  obtain none | ⟨_, cause, -, -, one⟩ := target.lookupSteps_cases context
  · rw [none]
    rfl
  · rw [one]
    rfl

end Step

def Context.readLocal? (context : Context) (identifier : Identifier) : Option Instruction :=
  (context.scope.find? identifier.name).map fun found => .getLocal found.slot

theorem Context.locals_meaning (context : Context) (identifier : Identifier) :
    Step.locals ((context.meaning identifier.name).steps identifier.name) =
      (context.readLocal? identifier).toList := by
  unfold meaning readLocal?
  cases context.scope.find? identifier.name with
  | some found => rfl
  | none =>
    dsimp only
    split
    · rfl
    · split
      · rfl
      · rfl
      · split <;> rfl

namespace Part

def reads (limit : Nat) : Part → List Identifier
  | .value expr => expr.reads limit
  | .receiver callee => callee.receiverReads limit
  | .passed count arguments => Argument.readsAll limit count arguments

theorem Lowers.locals {context : Context} {part : Part} {steps : List Step}
    {problems : List Diagnostic} (lowers : part.Lowers context steps problems) :
    Step.locals steps = (part.reads context.options.maxArguments).filterMap context.readLocal? := by
  induction lowers with
  | literal =>
    rw [reads, Expr.reads, Step.locals_line, Step.locals_value]
    rfl
  | name identifier =>
    rw [reads, Expr.reads, Step.locals_line, context.locals_meaning]
    cases found : context.readLocal? identifier <;> simp [found]
  | globalName | self | super =>
    rw [reads, Expr.reads]
    rfl
  | member _ _ _ _ ih =>
    rw [Step.locals_append, Step.locals_guardedIf, ih, reads, reads, Expr.reads]
    exact List.append_nil _
  | uncallable uncallable =>
    rw [reads, Expr.reads, uncallable]
    rfl
  | forward called _ _ receives =>
    rw [reads, Expr.reads, called, Option.isSome_some, if_pos rfl, Step.locals_append,
      receives, reads, Argument.readsAll, List.append_nil]
    exact List.append_nil _
  | call called _ _ _ _ receives passes =>
    rw [reads, Expr.reads, called, Option.isSome_some, if_pos rfl, List.filterMap_append,
      Step.locals_append, Step.locals_lookup, List.nil_append, Step.locals_append, receives,
      Step.locals_line, Step.locals_guardedIf, Step.locals_append, passes]
    exact congrArg _ (List.append_nil _)
  | paren _ _ ih =>
    rw [ih, reads, reads, Expr.reads]
  | foldedUnary folds | foldedBinary folds =>
    rw [reads, Expr.reads_of_fold? _ _ folds, Step.locals_line, Step.locals_value]
    rfl
  | unary _ _ ih =>
    rw [Step.locals_append, ih, reads, reads, Expr.reads]
    exact List.append_nil _
  | binary _ _ _ first second =>
    rw [Step.locals_append, Step.locals_append, first, second, reads, reads, reads, Expr.reads,
      List.filterMap_append]
    exact congrArg _ (List.append_nil _)
  | receiverParen _ _ ih | receiverMember _ _ _ _ ih => rw [ih, reads, reads, Expr.receiverReads]
  | @unqualified callee bare => cases callee <;> first | rfl | cases bare
  | @noArguments count arguments none =>
    rcases none with rfl | rfl
    · cases arguments <;> rfl
    · cases count <;> rfl
  | argument _ _ _ _ first next =>
    rw [Step.locals_append, first, next, reads, reads, reads, Argument.readsAll,
      List.filterMap_append]

end Part

inductive Access
  | read (declared : List String) (name : String)
  | store (declared : List String) (name : String)

namespace Access

def known : Access → List String
  | .read declared _ => declared
  | .store declared name => declared ++ [name]

/-- The instruction that makes an access. A read is of the latest declaration of the name; a
variable is stored behind all that is declared before it. -/
inductive Answers : Access → Instruction → Prop
  | read {declared : List String} {name : String} {slot : UInt16}
      (last : LastAt declared name slot.toNat) :
    Answers (.read declared name) (.getLocal slot)
  | store {declared : List String} {name : String} {slot : UInt16}
      (next : slot.toNat = declared.length) :
    Answers (.store declared name) (.setLocal slot)

def read? (declared : List String) (identifier : Identifier) : Option Access :=
  if identifier.name ∈ declared then some (.read declared identifier.name) else none

theorem read?_eq_some {declared : List String} {identifier : Identifier} {access : Access}
    (reads : read? declared identifier = some access) :
      access = .read declared identifier.name := by
  unfold read? at reads
  split at reads <;> cases reads
  rfl

theorem Answers.slot_lt {access : Access} {instruction : Instruction} {slot : UInt16}
    (answers : access.Answers instruction) (addressed : instruction.slot? = some slot) :
    slot.toNat < access.known.length := by
  cases answers with
  | read last =>
    cases addressed
    exact last.lt_length
  | store next =>
    cases addressed
    simp [known, next]

end Access

namespace Stmt

def declares? : Stmt → Option String
  | .var name _ _ _ => some name.name
  | .expr _ | .ret _ _ => none

def stores? : Stmt → Option String
  | .var name _ init _ => init.map fun _ => name.name
  | .expr _ | .ret _ _ => none

def accesses (limit : Nat) (declared : List String) (stmt : Stmt) : List Access :=
  ((stmt.value?.map (Expr.reads limit)).getD []).filterMap (Access.read? declared) ++
    (stmt.stores?.map (Access.store declared)).toList

def accessesAll (limit : Nat) : List String → List Stmt → List Access
  | _, [] => []
  | declared, stmt :: rest =>
    stmt.accesses limit declared ++ accessesAll limit (declared ++ stmt.declares?.toList) rest

end Stmt

def Body.names (proc : Proc) (body : Body) : List String :=
  (body.declared proc).map (·.name) ++ body.statements.filterMap Stmt.declares?

def Body.accesses (limit : Nat) (proc : Proc) (body : Body) : List Access :=
  Stmt.accessesAll limit ((body.declared proc).map (·.name)) body.statements

namespace Stmt

variable {limit : Nat} {declared : List String} {access : Access}

theorem mem_accesses {stmt : Stmt} (member : access ∈ stmt.accesses limit declared) :
    (∃ name, access = .read declared name) ∨ ∃ name, stmt.declares? = some name ∧
      access = .store declared name := by
  rcases List.mem_append.mp member with reads | stores
  · obtain ⟨identifier, -, reads⟩ := List.mem_filterMap.mp reads
    exact .inl ⟨_, Access.read?_eq_some reads⟩
  · obtain ⟨name, stored, rfl⟩ := Option.map_eq_some_iff.mp (Option.mem_toList.mp stores)
    refine .inr ⟨name, ?_, rfl⟩
    cases stmt with
    | expr | ret => cases stored
    | var own _ init _ =>
      obtain ⟨_, -, rfl⟩ := Option.map_eq_some_iff.mp stored
      rfl

theorem known_of_mem_accesses {stmt : Stmt} (member : access ∈ stmt.accesses limit declared) :
    access.known <+: declared ++ stmt.declares?.toList := by
  obtain ⟨name, rfl⟩ | ⟨name, declares, rfl⟩ := mem_accesses member
  · exact List.prefix_append _ _
  · rw [declares]
    exact List.prefix_rfl

theorem known_prefix {statements : List Stmt}
    (member : access ∈ accessesAll limit declared statements) :
    access.known <+: declared ++ statements.filterMap declares? := by
  induction statements generalizing declared with
  | nil => cases member
  | cons stmt rest ih =>
    have split : declared ++ (stmt :: rest).filterMap declares? =
        declared ++ stmt.declares?.toList ++ rest.filterMap declares? := by
      cases declares : stmt.declares? <;> simp [declares]
    rw [split]
    rcases List.mem_append.mp member with here | later
    · exact (known_of_mem_accesses here).trans (List.prefix_append _ _)
    · exact ih later

theorem declared_of_mem_store {statements : List Stmt} {before : List String} {name : String}
    (member : .store before name ∈ accessesAll limit declared statements) :
      declared <+: before := by
  induction statements generalizing declared with
  | nil => cases member
  | cons stmt rest ih =>
    rcases List.mem_append.mp member with here | later
    · obtain ⟨_, reads⟩ | ⟨_, -, stores⟩ := mem_accesses here
      · cases reads
      · cases stores
        exact List.prefix_rfl
    · exact (List.prefix_append _ _).trans (ih later)

end Stmt

def Access.Before (earlier later : Access) : Prop :=
  ∀ declared name, later = .store declared name → earlier.known <+: declared

/-- A later store is to a slot above the one that is addressed here. -/
def Instruction.Below (earlier later : Instruction) : Prop :=
  ∀ taken slot, earlier.slot? = some taken → later = .setLocal slot → taken < slot

theorem Access.Before.below {one other : Access} (before : one.Before other)
    {first second : Instruction} (here : one.Answers first) (there : other.Answers second) :
    first.Below second := by
  rintro taken slot addressed rfl
  cases there with
  | store next =>
    have known := (before _ _ rfl).length_le
    have within := here.slot_lt addressed
    exact UInt16.lt_iff_toNat_lt.mpr (by omega)

theorem Stmt.accesses_before (limit : Nat) (declared : List String) (stmt : Stmt) :
    (stmt.accesses limit declared).Pairwise Access.Before := by
  refine List.pairwise_append.mpr ⟨?_, ?_, ?_⟩
  · refine List.pairwise_filterMap.mpr
      (List.pairwise_of_forall fun _ _ _ _ later reads _ _ stores => ?_)
    rw [Access.read?_eq_some reads] at stores
    cases stores
  · cases stmt.stores? <;> simp
  -- What a statement reads comes before what it stores.
  · intro earlier reads later stores before name store
    obtain ⟨_, -, reads⟩ := List.mem_filterMap.mp reads
    obtain ⟨_, -, rfl⟩ := Option.map_eq_some_iff.mp (Option.mem_toList.mp stores)
    cases store
    rw [Access.read?_eq_some reads]
    exact List.prefix_rfl

theorem Stmt.accessesAll_before (limit : Nat) (declared : List String) (statements : List Stmt) :
    (accessesAll limit declared statements).Pairwise Access.Before := by
  induction statements generalizing declared with
  | nil => exact .nil
  | cons stmt rest ih =>
    refine List.pairwise_append.mpr ⟨stmt.accesses_before limit declared, ih _, ?_⟩
    rintro earlier here later others before name rfl
    exact (known_of_mem_accesses here).trans (declared_of_mem_store others)

theorem Context.answers_reads (context : Context) {declared : List String}
    (lists : context.scope.Lists declared) (identifiers : List Identifier) :
    List.Forall₂ Access.Answers (identifiers.filterMap (Access.read? declared))
      (identifiers.filterMap context.readLocal?) := by
  induction identifiers with
  | nil => exact .nil
  | cons identifier rest ih =>
    cases found : context.scope.find? identifier.name with
    | none =>
      have hidden : Access.read? declared identifier = none := if_neg (lists.absent found)
      have passed : context.readLocal? identifier = none := by
        rw [readLocal?, found, Option.map_none]
      rwa [List.filterMap_cons_none hidden, List.filterMap_cons_none passed]
    | some held =>
      have last := lists.last found
      have read : Access.read? declared identifier = some (.read declared identifier.name) :=
        if_pos (List.mem_of_getElem? last.1)
      have passed : context.readLocal? identifier = some (.getLocal held.slot) := by
        rw [readLocal?, found, Option.map_some]
      rw [List.filterMap_cons_some read, List.filterMap_cons_some passed]
      exact .cons (.read last) ih

section

variable {tree : ObjectTree} {options : Options} {proc : Proc}

theorem Draft.statements_open {statements : List Stmt} {draft after : Draft}
    (done : statements.foldlM (statement tree options proc) draft = .ok after) :
    statements.foldlM (Stmt.opens tree) draft.scope = .ok after.scope := by
  induction statements generalizing draft with
  | nil =>
    cases done
    rfl
  | cons stmt rest ih =>
    rw [List.foldlM_cons] at done ⊢
    obtain ⟨middle, first, others⟩ := except_bind_ok done
    rw [(statement_ok first).1]
    exact ih others

theorem Stmt.opens_var_eq_ok {scope inner : Scope} {name : Identifier} {typePath : Option String}
    {init : Option Expr} {span : Span}
    (opened : (Stmt.var name typePath init span).opens tree scope = .ok inner) :
    ∃ declared, scope.declare name.name (typePath.bind tree.find?) = .ok (declared, inner) := by
  rw [opens] at opened
  cases declares : scope.declare name.name (typePath.bind tree.find?) with
  | error _ =>
    rw [declares] at opened
    cases opened
  | ok both =>
    rw [declares] at opened
    cases opened
    exact ⟨both.1, rfl⟩

theorem Scope.Lists.opens {scope inner : Scope} {declared : List String}
    (lists : scope.Lists declared) {stmt : Stmt} (opened : stmt.opens tree scope = .ok inner) :
    inner.Lists (declared ++ stmt.declares?.toList) := by
  cases stmt with
  | expr | ret =>
    cases opened
    rwa [Stmt.declares?, Option.toList_none, List.append_nil]
  | var name typePath init span =>
    obtain ⟨_, declares⟩ := Stmt.opens_var_eq_ok opened
    exact lists.declare declares

theorem Stmt.answers_cons {scope inner : Scope} {declared : List String}
    (lists : scope.Lists declared) {stmt : Stmt} (opened : stmt.opens tree scope = .ok inner)
    {others : List Access} {rest : List Stmt}
    (later : List.Forall₂ Access.Answers others
      (Step.locals (stepsAll tree options proc inner rest))) :
    List.Forall₂ Access.Answers (stmt.accesses options.maxArguments declared ++ others)
      (Step.locals (stepsAll tree options proc scope (stmt :: rest))) := by
  have reads (value : Expr) : List.Forall₂ Access.Answers
      ((value.reads options.maxArguments).filterMap (Access.read? declared))
      (Step.locals (value.steps ⟨tree, options, proc, scope⟩)) := by
    rw [(Expr.lowers _ _).locals]
    exact Context.answers_reads ⟨tree, options, proc, scope⟩ lists _
  cases stmt with
  | expr value =>
    cases opened
    rw [stepsAll, Step.locals_line, Step.locals_append, accesses, stores?, Option.map_none,
      Option.toList_none, List.append_nil]
    exact List.rel_append (reads value) later
  | ret value span =>
    cases opened
    cases value with
    | none => exact later
    | some value =>
      rw [stepsAll, Step.locals_line, Step.locals_append, accesses, stores?, Option.map_none,
        Option.toList_none, List.append_nil]
      exact List.rel_append (reads value) later
  | var name typePath init span =>
    -- The value is computed where its variable is not yet declared,
    -- so it is read in the outer scope.
    obtain ⟨_, declares⟩ := opens_var_eq_ok opened
    rw [stepsAll, Step.locals_line, Step.locals_append, accesses, stores?, List.append_assoc]
    simp only [declares]
    cases init with
    | none => exact later
    | some value =>
      refine List.rel_append (reads value) (.cons (.store ?_) later)
      rw [Scope.slot_declare declares, lists.size]

theorem Stmt.answers_stepsAll {statements : List Stmt} {scope last : Scope} {declared : List String}
    (lists : scope.Lists declared) (opens : statements.foldlM (Stmt.opens tree) scope = .ok last) :
    List.Forall₂ Access.Answers (accessesAll options.maxArguments declared statements)
      (Step.locals (stepsAll tree options proc scope statements)) := by
  induction statements generalizing scope declared with
  | nil => exact .nil
  | cons stmt rest ih =>
    rw [List.foldlM_cons] at opens
    obtain ⟨inner, opened, others⟩ := except_bind_ok opens
    exact answers_cons lists opened (ih (lists.opens opened) others)

end

namespace Body

/-- Locals of a compiled body. The instructions that address locals are, one for one and in order,
the names that its statements read and that are declared before, and its variables that are given a
value. A name is read from the latest declaration before the statement, and a variable is stored in
its own place among all declarations. So every slot is that of a declaration, and a store never is
to a slot that is taken before. -/
theorem compile_locals {tree : ObjectTree} {options : Options} {body : Body}
    {compiled : CompiledProc} (done : body.compile tree options = .ok compiled) :
    ∃ proc listing, tree.proc body.proc = .ok proc ∧
      compiled.chunk.decode compiled.pool = .ok listing ∧
      List.Forall₂ Access.Answers (body.accesses options.maxArguments proc)
        ((listing.map (·.2)).filter (·.slot?.isSome)) ∧
      (∀ access ∈ body.accesses options.maxArguments proc, access.known <+: body.names proc) ∧
      (∀ instruction ∈ listing.map (·.2), ∀ slot, instruction.slot? = some slot →
        slot.toNat < (body.names proc).length) ∧
      (∀ slot, .setLocal slot ∈ listing.map (·.2) → (body.declared proc).length ≤ slot.toNat) ∧
      (listing.map (·.2)).Pairwise Instruction.Below := by
  obtain ⟨proc, scope, listing, found, opened, lowered, decoded⟩ := compile_listing done
  obtain ⟨draft, statements⟩ := statements_of_compile done found opened
  have lists := Scope.lists_empty.declareAll opened
  have answers : List.Forall₂ Access.Answers (body.accesses options.maxArguments proc)
      ((listing.map (·.2)).filter (·.slot?.isSome)) := by
    have closing : Step.locals (Stmt.closing body.statements) = [] := by
      unfold Stmt.closing
      split <;> rfl
    have all : (listing.map (·.2)).filter (·.slot?.isSome) =
      Step.locals (body.steps tree options proc scope) :=
      lowered.filter (fun _ => rfl) fun _ => rfl
    rw [all, steps, Step.locals_append, closing, List.append_nil]
    exact Stmt.answers_stepsAll lists (Draft.statements_open statements)
  have known (access : Access) (member : access ∈ body.accesses options.maxArguments proc) :
      access.known <+: body.names proc := Stmt.known_prefix member
  refine ⟨proc, listing, found, decoded, answers, known, ?_, ?_, ?_⟩
  · intro instruction member slot addressed
    obtain ⟨access, made, answer⟩ :=
      forall₂_mem answers (List.mem_filter.mpr ⟨member, by simp [addressed]⟩)
    exact (answer.slot_lt addressed).trans_le (known access made).length_le
  · intro slot member
    obtain ⟨access, made, answer⟩ := forall₂_mem answers (List.mem_filter.mpr ⟨member, rfl⟩)
    cases answer with
    | store next =>
      rw [next, ← List.length_map (f := LocalDecl.name)]
      exact (Stmt.declared_of_mem_store made).length_le
  · have below : ((listing.map (·.2)).filter (·.slot?.isSome)).Pairwise Instruction.Below :=
      forall₂_pairwise (fun here there before => before.below here there) answers
        (Stmt.accessesAll_before _ _ _)
    refine (List.pairwise_filter.mp below).imp fun order taken slot addressed stored => ?_
    exact order (by simp [addressed]) (by simp [stored, Instruction.slot?]) taken slot
      addressed stored

def pantry : ObjectTree :=
  TreeOp.build [.newProc .root "stock" {}, .setParams ⟨1⟩ ["jar"], .finalize]

def shelves : Body where
  proc := ⟨1⟩
  locals := List.replicate 255 ⟨"shelf", none⟩
  statements :=
    [.var ⟨"top", .point 1 5⟩ none (some (.name ⟨"jar", .point 1 11⟩)) (.point 1 1),
      .var ⟨"top", .point 2 5⟩ none
        (some (.binary .add (.name ⟨"top", .point 2 11⟩) (.name ⟨"shelf", .point 2 17⟩)
          (.point 2 11))) (.point 2 1),
      .ret (some (.name ⟨"top", .point 3 8⟩)) (.point 3 1)]

def shelved : List Instruction :=
  [.getLocal 0, .setLocal 256, .getLocal 256, .getLocal 255, .setLocal 257, .getLocal 257]

theorem compile_locals_shelves :
    ∃ compiled proc listing, shelves.compile pantry default = .ok compiled ∧
      compiled.chunk.decode compiled.pool = .ok listing ∧
        (listing.map (·.2)).filter (·.slot?.isSome) = shelved ∧
      List.Forall₂ Access.Answers (shelves.accesses (default : Options).maxArguments proc) shelved ∧
      (∀ instruction ∈ listing.map (·.2), ∀ slot, instruction.slot? = some slot →
        slot.toNat < (shelves.names proc).length) ∧
      (listing.map (·.2)).Pairwise Instruction.Below := by
  have code : (shelves.compile pantry default).toOption.map (fun compiled =>
      (compiled.chunk.decode compiled.pool).toOption.map fun listing =>
        (listing.map (·.2)).filter (·.slot?.isSome)) = some (some shelved) := by
    decide +kernel
  cases done : shelves.compile pantry default with
  | error fault =>
    rw [done] at code
    cases code
  | ok compiled =>
    obtain ⟨proc, listing, -, decoded, answers, -, within, -, below⟩ := compile_locals done
    rw [done] at code
    have same := Option.some.inj code
    simp only [decoded] at same
    have accesses : (listing.map (·.2)).filter (·.slot?.isSome) = shelved := Option.some.inj same
    exact ⟨compiled, proc, listing, rfl, decoded, accesses, accesses ▸ answers, within, below⟩

end Body

end ProcLowering
