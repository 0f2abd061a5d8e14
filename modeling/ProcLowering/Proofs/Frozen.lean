import ProcLowering.Proofs.Agreement
import ProcLowering.Proofs.Limits
import ProcLowering.Proofs.Resolution

set_option autoImplicit false

namespace ProcLowering

namespace Draft

variable {names : List String} {tree later : ObjectTree} {options : Options} {proc proc' : Proc}

theorem value_congr {a b : Context} (alike : a.Alike names b) {expr : Expr}
    (listed : expr.mentions ⊆ names) (draft : Draft) :
    draft.value a expr = draft.value b expr := by
  rw [value, value, Expr.steps_congr alike.toAgree listed, Expr.problems_congr alike listed]

theorem statement_congr
    (alike : ∀ scope,
    Context.Alike names ⟨tree, options, proc, scope⟩ ⟨later, options, proc', scope⟩)
    (paths : tree.find? = later.find?) {stmt : Stmt} (listed : stmt.mentions ⊆ names)
    (draft : Draft) :
    statement tree options proc draft stmt = statement later options proc' draft stmt := by
  unfold statement
  cases stmt with
  | expr value => simp only [value_congr (alike _) listed]
  | ret value span =>
    cases value with
    | none => rfl
    | some value => simp only [value_congr (alike _) (show value.mentions ⊆ names from listed)]
  | var name typePath init span =>
    cases init with
    | none => simp only [paths]
    | some value =>
      simp only [value_congr (alike _) (show value.mentions ⊆ names from listed), paths]

theorem statements_congr
    (alike : ∀ scope,
    Context.Alike names ⟨tree, options, proc, scope⟩ ⟨later, options, proc', scope⟩)
    (paths : tree.find? = later.find?) {statements : List Stmt}
    (listed : statements.flatMap Stmt.mentions ⊆ names) (draft : Draft) :
    statements.foldlM (statement tree options proc) draft =
      statements.foldlM (statement later options proc') draft := by
  induction statements generalizing draft with
  | nil => rfl
  | cons stmt rest ih =>
    rw [List.flatMap_cons, List.append_subset] at listed
    rw [List.foldlM_cons, List.foldlM_cons, statement_congr alike paths listed.1]
    exact bind_congr fun draft => ih listed.2 draft

end Draft

def TypeRecord.fixed (record : TypeRecord) : TypeRecord :=
  { record with vars := ∅, statics := ∅, verbs := #[] }

def Proc.fixed (proc : Proc) : Proc :=
  { proc with params := [], flags := { proc.flags with verb := false } }

namespace ObjectTree

structure Frozen (tree later : ObjectTree) : Prop where
  finalized : later.finalized = tree.finalized
  paths : later.paths = tree.paths
  types : later.types.map TypeRecord.fixed = tree.types.map TypeRecord.fixed
  procs : ∀ id entry, tree.proc? id = some entry → ∃ entry', later.proc? id = some entry' ∧
    entry'.fixed = entry.fixed

theorem Frozen.refl (tree : ObjectTree) : Frozen tree tree :=
  ⟨rfl, rfl, rfl, fun _ entry found => ⟨entry, found, rfl⟩⟩

theorem Frozen.trans {a b c : ObjectTree} (head : Frozen a b) (tail : Frozen b c) : Frozen a c where
  finalized := tail.finalized.trans head.finalized
  paths := tail.paths.trans head.paths
  types := tail.types.trans head.types
  procs id entry found := by
    obtain ⟨middle, found', same⟩ := head.procs id entry found
    obtain ⟨last, found'', same'⟩ := tail.procs id middle found'
    exact ⟨last, found'', same'.trans same⟩

theorem frozen_modify {change : Proc → Proc} (tree : ObjectTree) (i : Nat)
    (keeps : ∀ proc, (change proc).fixed = proc.fixed) :
    Frozen tree { tree with procs := tree.procs.modify i change } := by
  refine ⟨rfl, rfl, rfl, fun id entry found => ?_⟩
  rw [proc?] at found
  rw [proc?, Array.getElem?_modify, found]
  split
  · exact ⟨change entry, rfl, keeps entry⟩
  · exact ⟨entry, rfl, rfl⟩

theorem proc?_published {tree : ObjectTree} {id : ProcId} {entry : Proc}
    (found : tree.proc? id = some entry) (name : String) (flags : ProcFlags) :
    (tree.published name flags).proc? id = some entry := by
  have inside := (Array.getElem?_eq_some_iff.mp found).1
  rw [proc?] at found ⊢
  rw [published, withProc, Array.getElem?_push, if_neg (Nat.ne_of_lt inside), found]

end ObjectTree

theorem TreeOp.Does.frozen {op : TreeOp} {tree later : ObjectTree} (does : op.Does tree later)
    (finalized : tree.finalized = true) : tree.Frozen later := by
  have kept (tree : ObjectTree) (id : ProcId) (entry : Proc) (found : tree.proc? id = some entry) :
      ∃ entry', tree.proc? id = some entry' ∧ entry'.fixed = entry.fixed := ⟨entry, found, rfl⟩
  cases does with
  | publish fresh =>
    exact ⟨rfl, rfl, rfl, fun id entry found => ⟨entry, ObjectTree.proc?_published found _ _, rfl⟩⟩
  | params => exact tree.frozen_modify _ fun _ => rfl
  | assign => exact ⟨rfl, rfl, ObjectTree.map_withVariable _ (fun _ _ => rfl) _ _ _ _, kept _⟩
  | static => exact ⟨rfl, rfl, ObjectTree.map_withStatic _ (fun _ _ => rfl) _ _ _, kept _⟩
  | mark => exact tree.frozen_modify _ fun _ => rfl
  | verb => exact ⟨rfl, rfl, ObjectTree.map_withVerb _ (fun _ _ => rfl) _ _ _, kept _⟩
  | declare _ gains =>
    obtain ⟨unfinished⟩ := gains
    simp [finalized] at unfinished
  | reparent movable => exact (Bool.false_ne_true (movable.1.symm.trans finalized)).elim
  | allocate unfinished | finish unfinished => simp [finalized] at unfinished
  | register _ registrable => exact (Bool.false_ne_true (registrable.1.symm.trans finalized)).elim

namespace ObjectTree

theorem visible?_fixed (lineage : List TypeRecord) (name : String) :
    visible? (lineage.map TypeRecord.fixed) name = visible? lineage name := by
  rw [visible?, List.findSome?_map]
  rfl

theorem declares_fixed (lineage : List TypeRecord) (name : String) :
    declares (lineage.map TypeRecord.fixed) name = declares lineage name := by
  rw [declares, List.any_map]
  rfl

namespace Frozen

variable {tree later : ObjectTree}

theorem type?_cases (frozen : tree.Frozen later) (id : TypeId) :
    tree.type? id = none ∧ later.type? id = none ∨
      ∃ record record', tree.type? id = some record ∧ later.type? id = some record' ∧
        record'.fixed = record.fixed := by
  have there : (later.types.map TypeRecord.fixed)[id.index]? =
    (tree.types.map TypeRecord.fixed)[id.index]? := by
    rw [frozen.types]
  rw [Array.getElem?_map, Array.getElem?_map] at there
  unfold type?
  cases found : tree.types[id.index]? with
  | none =>
    rw [found, Option.map_none, Option.map_eq_none_iff] at there
    exact Or.inl ⟨rfl, there⟩
  | some record =>
    obtain ⟨record', found', same⟩ := Option.map_eq_some_iff.mp (there.trans (congrArg _ found))
    exact Or.inr ⟨record, record', rfl, found', same⟩

theorem find?_eq (frozen : tree.Frozen later) : tree.find? = later.find? := by
  funext text
  unfold find? findPath?
  rw [frozen.paths]

theorem climb_eq (frozen : tree.Frozen later) (fuel : Nat) (start : Option TypeId) :
    (later.climb fuel start).map TypeRecord.fixed =
      (tree.climb fuel start).map TypeRecord.fixed := by
  induction fuel generalizing start with
  | zero => rfl
  | succ fuel ih =>
    cases start with
    | none => rfl
    | some id =>
      rw [climb, climb]
      obtain ⟨found, found'⟩ | ⟨record, record', found, found', same⟩ := frozen.type?_cases id
      · rw [found, found']
      · have parent : record'.parent = record.parent := congrArg (·.parent) same
        rw [found, found']
        dsimp only
        rw [List.map_cons, List.map_cons, same, parent, ih]

theorem lineage_eq (frozen : tree.Frozen later) (type : TypeId) :
    (later.lineage type).map TypeRecord.fixed = (tree.lineage type).map TypeRecord.fixed := by
  have size : later.types.size = tree.types.size := by simpa using congrArg Array.size frozen.types
  rw [lineage, lineage, size]
  exact frozen.climb_eq _ _

theorem findProc?_eq (frozen : tree.Frozen later) (type : TypeId) (name : String) :
    later.findProc? type name = tree.findProc? type name := by
  rw [findProc?, findProc?, ← visible?_fixed, frozen.lineage_eq, visible?_fixed]

theorem hasProc_eq (frozen : tree.Frozen later) (type : TypeId) (name : String) :
    later.hasProc type name = tree.hasProc type name := by
  rw [hasProc, hasProc, ← declares_fixed, frozen.lineage_eq, declares_fixed]

theorem isSubtype_eq (frozen : tree.Frozen later) (finalized : tree.finalized = true)
    (type ancestor : TypeId) :
    later.isSubtype type ancestor = tree.isSubtype type ancestor := by
  unfold isSubtype
  rw [frozen.finalized, finalized]
  obtain ⟨found, found'⟩ | ⟨record, record', found, found', same⟩ := frozen.type?_cases type
  · rw [found, found']
  · rw [found, found']
    obtain ⟨there, there'⟩ | ⟨above, above', there, there', same'⟩ := frozen.type?_cases ancestor
    · rw [there, there']
    · rw [there, there']
      change record'.fixed.within above'.fixed = record.fixed.within above.fixed
      rw [same, same']

theorem isBuilder_eq (frozen : tree.Frozen later) (finalized : tree.finalized = true)
    (owner : Option TypeId) {proc : Option ProcId}
    (known : ∀ id, proc = some id → ∃ entry, tree.proc id = .ok entry) :
    Matrix.isBuilder later owner proc = Matrix.isBuilder tree owner proc := by
  cases proc with
  | none => rfl
  | some id =>
    obtain ⟨entry, there⟩ := known id rfl
    have found := (tree.proc_eq_ok_iff _ _).mp there
    obtain ⟨entry', found', same⟩ := frozen.procs id entry found
    have name : entry'.name = entry.name := congrArg (·.name) same
    have belongs : entry'.owner = entry.owner := congrArg (·.owner) same
    simp only [Matrix.isBuilder, Option.bind_some, found, found', Proc.isGlobal, name, belongs,
      ← frozen.find?_eq, frozen.isSubtype_eq finalized]
    rfl

end Frozen

end ObjectTree

structure Body.Unmoved (body : Body) (proc : Proc) (tree later : ObjectTree) : Prop where
  params : ∃ proc', later.proc? body.proc = some proc' ∧ proc'.params = proc.params
  globals : ∀ name ∈ body.mentions, later.globalProc? name = tree.globalProc? name
  fields : ∀ name ∈ body.mentions, ∀ owner, proc.owner = some owner →
    (later.type? owner).map (·.vars.contains name) = (tree.type? owner).map (·.vars.contains name)

namespace ObjectTree.Frozen

variable {tree later : ObjectTree} {body : Body} {proc proc' : Proc} {scope : Scope}
    {options : Options}

theorem agree (frozen : tree.Frozen later) (closed : tree.Closed) (closed' : later.Closed)
    (found : tree.proc body.proc = .ok proc) (found' : later.proc body.proc = .ok proc')
    (owner : proc'.owner = proc.owner) (unmoved : body.Unmoved proc tree later) :
    Context.Agree body.mentions ⟨tree, options, proc, scope⟩ ⟨later, options, proc', scope⟩ where
  limit := rfl
  scope := rfl
  procs name := by simp only [Context.instanceProc?, owner, frozen.findProc?_eq]
  fields name listed := by
    unfold Context.hasField
    dsimp only
    rw [owner]
    cases owns : proc.owner with
    | none => rfl
    | some type =>
      have same := unmoved.fields name listed type owns
      dsimp only
      unfold ObjectTree.type
      obtain ⟨found, found'⟩ | ⟨record, record', found, found', -⟩ := frozen.type?_cases type
      · rw [found, found']
      · rw [found, found', Option.map_some, Option.map_some, Option.some.injEq] at same
        rw [found, found']
        exact congrArg Except.ok same.symm
  globals name listed := (unmoved.globals name listed).symm
  lookups target := by
    rw [(closed.settled found options scope).lookupSteps,
      (closed'.settled found' options scope).lookupSteps]

theorem staticType?_eq (tree later : ObjectTree) (owner : proc'.owner = proc.owner) (expr : Expr) :
    Context.staticType? ⟨tree, options, proc, scope⟩ expr =
      Context.staticType? ⟨later, options, proc', scope⟩ expr := by
  simp only [Context.staticType?, owner]

theorem staticProc_eq (frozen : tree.Frozen later) (owner : proc'.owner = proc.owner)
    {names : List String}
    (agree : Context.Agree names ⟨tree, options, proc, scope⟩ ⟨later, options, proc', scope⟩)
    {target : Target} (listed : target.mentions ⊆ names) :
    target.staticProc ⟨tree, options, proc, scope⟩ =
      target.staticProc ⟨later, options, proc', scope⟩ := by
  cases target with
  | name identifier =>
    rw [Target.staticProc, Target.staticProc, agree.procs,
      agree.globals _ (listed (by simp [Target.mentions])), owner]
  | globalName identifier =>
    rw [Target.staticProc, Target.staticProc, agree.globals _ (listed (by simp [Target.mentions]))]
  | self | super => rfl
  | member receiver field safe span =>
    rw [Target.staticProc, Target.staticProc, staticType?_eq tree later owner]
    simp only [frozen.findProc?_eq]

theorem memberProblem?_eq (frozen : tree.Frozen later) (owner : proc'.owner = proc.owner)
    (receiver : Expr) (field : Identifier) :
    Target.memberProblem? ⟨tree, options, proc, scope⟩ receiver field =
      Target.memberProblem? ⟨later, options, proc', scope⟩ receiver field := by
  unfold Target.memberProblem?
  rw [staticType?_eq tree later owner]
  refine bind_congr fun type => ?_
  dsimp only
  rw [frozen.hasProc_eq]
  obtain ⟨found, found'⟩ | ⟨record, record', found, found', same⟩ := frozen.type?_cases type
  · rw [found, found']
  · have path : record'.path = record.path := congrArg (·.path) same
    rw [found, found']
    dsimp only
    rw [path]

theorem problem?_eq (frozen : tree.Frozen later) (same : proc'.fixed = proc.fixed)
    {names : List String}
    (agree : Context.Agree names ⟨tree, options, proc, scope⟩ ⟨later, options, proc', scope⟩)
    {target : Target} (listed : target.mentions ⊆ names) :
    target.problem? ⟨tree, options, proc, scope⟩ =
      target.problem? ⟨later, options, proc', scope⟩ := by
  cases target with
  | name identifier =>
    rw [Target.problem?, Target.problem?, agree.procs,
      agree.globals _ (listed (by simp [Target.mentions]))]
  | globalName identifier =>
    rw [Target.problem?, Target.problem?, agree.globals _ (listed (by simp [Target.mentions]))]
  | self => rfl
  | super span =>
    have name : proc'.name = proc.name := congrArg (·.name) same
    have overriding : proc'.flags.overriding = proc.flags.overriding :=
      congrArg (·.flags.overriding) same
    rw [Target.problem?, Target.problem?, name, overriding]
  | member receiver field safe span =>
    exact frozen.memberProblem?_eq (congrArg (·.owner) same) receiver field

theorem callProblems_eq (frozen : tree.Frozen later) (finalized : tree.finalized = true)
    (owner : proc'.owner = proc.owner) (settled : Context.Settled ⟨tree, options, proc, scope⟩)
    {names : List String}
    (agree : Context.Agree names ⟨tree, options, proc, scope⟩ ⟨later, options, proc', scope⟩)
    {target : Target} (listed : target.mentions ⊆ names) (arguments : List Argument) (span : Span) :
    target.callProblems ⟨tree, options, proc, scope⟩ arguments span =
      target.callProblems ⟨later, options, proc', scope⟩ arguments span := by
  have known := settled.proc target
  unfold Target.callProblems
  rw [← frozen.staticProc_eq owner agree listed]
  generalize target.staticProc ⟨tree, options, proc, scope⟩ = static at known
  obtain ⟨owner, callee⟩ := static
  dsimp only
  rw [Matrix.callProblem?, Matrix.callProblem?, frozen.isBuilder_eq finalized owner known]
  cases callee with
  | none => rfl
  | some id =>
    obtain ⟨entry, there⟩ := known id rfl
    have found := (tree.proc_eq_ok_iff _ _).mp there
    obtain ⟨entry', found', same⟩ := frozen.procs id entry found
    have name : entry'.name = entry.name := congrArg (·.name) same
    have unimplemented : entry'.flags.unimplemented = entry.flags.unimplemented :=
      congrArg (·.flags.unimplemented) same
    rw [Option.bind_some, Option.bind_some, found, found']
    dsimp only
    rw [name, unimplemented]

theorem alike (frozen : tree.Frozen later) (finalized : tree.finalized = true)
    (closed : tree.Closed) (closed' : later.Closed) (found : tree.proc body.proc = .ok proc)
    (found' : later.proc body.proc = .ok proc') (same : proc'.fixed = proc.fixed)
    (unmoved : body.Unmoved proc tree later) :
    Context.Alike body.mentions ⟨tree, options, proc, scope⟩ ⟨later, options, proc', scope⟩ := by
  have owner : proc'.owner = proc.owner := congrArg (·.owner) same
  have agree :
      Context.Agree body.mentions ⟨tree, options, proc, scope⟩ ⟨later, options, proc', scope⟩ :=
    frozen.agree closed closed' found found' owner unmoved
  exact ⟨agree, fun _ listed => frozen.problem?_eq same agree listed, fun _ listed =>
    frozen.callProblems_eq finalized owner (closed.settled found options scope) agree listed⟩

end ObjectTree.Frozen

/-- An update that lets a body see something new of a finalized tree: a
global proc of a name that it mentions, other parameters of its proc,
or a variable of a name that it mentions on the type of its proc. -/
def TreeOp.Touches (tree : ObjectTree) (proc : Proc) (body : Body) : TreeOp → Prop
  | .newGlobalProc name _ => name ∈ body.mentions ∧ tree.globalProc? name = none
  | .setParams id params => id = body.proc ∧ params ≠ proc.params
  | .setVariable type name _ =>
    proc.owner = some type ∧ name ∈ body.mentions ∧
      (tree.type? type).map (·.vars.contains name) = some false
  | _ => False

instance (tree : ObjectTree) (proc : Proc) (body : Body) : (op : TreeOp) →
    Decidable (op.Touches tree proc body)
  | .newGlobalProc _ _ | .setParams _ _ => inferInstanceAs (Decidable (_ ∧ _))
  | .setVariable _ _ _ => inferInstanceAs (Decidable (_ ∧ _ ∧ _))
  | .declare _ | .declareText _ | .setParent _ _ | .finalize | .newProc _ _ _ | .setProc _ _ _
  | .addStatic _ _
  | .addVerb _ _ => inferInstanceAs (Decidable False)

namespace Body.Unmoved

variable {tree later middle : ObjectTree} {body : Body} {proc : Proc}

theorem refl (found : tree.proc? body.proc = some proc) : body.Unmoved proc tree tree :=
  ⟨⟨proc, found, rfl⟩, fun _ _ => rfl, fun _ _ _ _ => rfl⟩

theorem params_modify {change : Proc → Proc} {i : Nat} (unmoved : body.Unmoved proc tree middle)
    (keeps : ∀ entry : Proc, i = body.proc.index → entry.params = proc.params →
      (change entry).params = proc.params) :
    ∃ proc', (middle.procs.modify i change)[body.proc.index]? = some proc' ∧
      proc'.params = proc.params := by
  obtain ⟨entry, there, same⟩ := unmoved.params
  rw [ObjectTree.proc?] at there
  rw [Array.getElem?_modify, there]
  split
  · next here => exact ⟨change entry, rfl, keeps entry here same⟩
  · exact ⟨entry, rfl, same⟩

theorem fields_of_vars (unmoved : body.Unmoved proc tree middle)
    (same : later.types.map (·.vars) = middle.types.map (·.vars)) (name : String)
    (listed : name ∈ body.mentions) (owner : TypeId) (owns : proc.owner = some owner) :
    (later.type? owner).map (·.vars.contains name) =
      (tree.type? owner).map (·.vars.contains name) := by
  have there : (later.types.map (·.vars))[owner.index]? =
    (middle.types.map (·.vars))[owner.index]? := by
    rw [same]
  have contains := congrArg (Option.map fun vars : NameMap InitialValue => vars.contains name) there
  simp only [Array.getElem?_map, Option.map_map] at contains
  exact Eq.trans contains (unmoved.fields name listed owner owns)

theorem step {op : TreeOp} (unmoved : body.Unmoved proc tree middle)
    (finalized : middle.finalized = true) (does : op.Does middle later)
    (untouched : ¬ op.Touches tree proc body) : body.Unmoved proc tree later := by
  cases does with
  | @publish _ name flags fresh =>
    refine ⟨?_, ?_, unmoved.fields⟩
    · obtain ⟨entry, there, same⟩ := unmoved.params
      exact ⟨entry, ObjectTree.proc?_published there name flags, same⟩
    · intro other listed
      have before := unmoved.globals other listed
      rw [ObjectTree.globalProc?, ObjectTree.published, Std.TreeMap.getElem?_insert]
      split
      · next same =>
        -- The name was free before, and the body does not mention a free name that is taken.
        have here : name = other := by simpa using same
        subst here
        have free : middle.globalProc? name = none :=
          Std.TreeMap.getElem?_eq_none_of_contains_eq_false fresh
        exact absurd ⟨listed, before.symm.trans free⟩ untouched
      · exact before
  | @params _ id params =>
    refine ⟨unmoved.params_modify fun entry here _ => ?_, unmoved.globals, unmoved.fields⟩
    by_contra other
    exact untouched ⟨ProcId.index_injective here, other⟩
  | @assign _ type name value =>
    refine ⟨unmoved.params, unmoved.globals, ?_⟩
    intro other listed owner owns
    rw [← unmoved.fields other listed owner owns, ObjectTree.type?, ObjectTree.withVariable,
      Array.getElem?_modify]
    split
    · next here =>
      obtain rfl : type = owner := TypeId.index_injective here
      have before := unmoved.fields other listed type owns
      rw [ObjectTree.type?] at before ⊢
      cases held : middle.types[type.index]? with
      | none => rfl
      | some record =>
        rw [held, Option.map_some] at before
        simp only [Option.map_some, TypeRecord.setVariable, Std.TreeMap.contains_insert,
          Option.some.injEq]
        by_cases same : name = other
        · -- A variable that the body mentions was there before.
          subst same
          have there : record.vars.contains name = true := by
            rw [← Bool.not_eq_false]
            exact fun absent => untouched ⟨owns, listed, before.symm.trans (congrArg some absent)⟩
          simp [there]
        · simp [same]
    · rfl
  | static =>
    exact ⟨unmoved.params, unmoved.globals,
      unmoved.fields_of_vars (ObjectTree.map_withStatic _ (fun _ _ => rfl) _ _ _)⟩
  | mark => exact ⟨unmoved.params_modify fun _ _ same => same, unmoved.globals, unmoved.fields⟩
  | verb =>
    exact ⟨unmoved.params, unmoved.globals,
      unmoved.fields_of_vars (ObjectTree.map_withVerb _ (fun _ _ => rfl) _ _ _)⟩
  | declare _ gains =>
    obtain ⟨unfinished⟩ := gains
    simp [finalized] at unfinished
  | reparent movable => exact (Bool.false_ne_true (movable.1.symm.trans finalized)).elim
  | allocate unfinished | finish unfinished => simp [finalized] at unfinished
  | register _ registrable => exact (Bool.false_ne_true (registrable.1.symm.trans finalized)).elim

end Body.Unmoved

namespace TreeOp

variable {tree : ObjectTree} {history : List TreeOp}

theorem run_finalized (reachable : tree.Reachable) (finalized : tree.finalized = true)
    (history : List TreeOp) :
    (history.foldl (fun tree op => op.run.after tree) tree).finalized = true :=
  (invariant_run (motive := (·.finalized = true)) (fun _ _ _ _ does closed =>
    (does.frozen closed).finalized.trans closed)
    reachable finalized).2

theorem run_frozen {body : Body} {proc : Proc} (reachable : tree.Reachable)
    (finalized : tree.finalized = true) (found : tree.proc? body.proc = some proc)
    (untouched : ∀ op ∈ history, ¬ op.Touches tree proc body) :
    (history.foldl (fun tree op => op.run.after tree) tree).Reachable ∧
      tree.Frozen (history.foldl (fun tree op => op.run.after tree) tree) ∧
        body.Unmoved proc tree (history.foldl (fun tree op => op.run.after tree) tree) := by
  have step (op : TreeOp) (member : op ∈ history) (middle later : ObjectTree)
      (does : op.Does middle later) (kept : tree.Frozen middle ∧ body.Unmoved proc tree middle) :
      tree.Frozen later ∧ body.Unmoved proc tree later := by
    have closed := kept.1.finalized.trans finalized
    exact ⟨kept.1.trans (does.frozen closed), kept.2.step closed does (untouched op member)⟩
  exact invariant_run step reachable ⟨.refl tree, .refl found⟩

end TreeOp

namespace Body

theorem compile_of_untouched {tree : ObjectTree} {body : Body} {proc : Proc} {history : List TreeOp}
    (reachable : tree.Reachable) (finalized : tree.finalized = true)
    (found : tree.proc body.proc = .ok proc) (untouched : ∀ op ∈ history,
    ¬ op.Touches tree proc body) (options : Options) {later : ObjectTree}
    (runs : history.foldl (fun tree op => op.run.after tree) tree = later) :
    body.compile later options = body.compile tree options := by
  have there := (tree.proc_eq_ok_iff _ _).mp found
  obtain ⟨reachable', frozen, unmoved⟩ := TreeOp.run_frozen reachable finalized there untouched
  rw [runs] at reachable' frozen unmoved
  obtain ⟨proc', there', same⟩ := frozen.procs body.proc proc there
  have found' := (later.proc_eq_ok_iff _ _).mpr there'
  have params : proc'.params = proc.params := by
    obtain ⟨entry, here, params⟩ := unmoved.params
    obtain rfl : entry = proc' := Option.some.inj (here.symm.trans there')
    exact params
  have statements (draft : Draft) :
      body.statements.foldlM (Draft.statement later options proc') draft =
      body.statements.foldlM (Draft.statement tree options proc) draft := by
    symm
    refine Draft.statements_congr (fun scope => ?_) frozen.find?_eq
      (List.Subset.refl body.mentions) draft
    exact frozen.alike finalized reachable.closed reachable'.closed found found' same unmoved
  unfold compile
  rw [found, found']
  simp only [Bind.bind, Except.bind, params, statements]

/-- Updates of a finalized tree that let a body see nothing new leave what it is compiled to, be it
code, reports or a fault. -/
theorem compile_frozen {tree : ObjectTree} {body : Body} {proc : Proc} {history : List TreeOp}
    (reachable : tree.Reachable) (finalized : tree.finalized = true)
    (found : tree.proc body.proc = .ok proc)
    (untouched : ∀ op ∈ history, ¬ op.Touches tree proc body) (options : Options) :
    body.compile (history.foldl (fun tree op => op.run.after tree) tree) options =
      body.compile tree options := by
  exact compile_of_untouched reachable finalized found untouched options rfl

def village : ObjectTree :=
  TreeOp.build [.declare ⟨["mob"]⟩, .newProc ⟨1⟩ "plead" {},
    .setVariable ⟨1⟩ "mood" .null, .finalize]

def plea : Body where
  proc := ⟨1⟩
  statements :=
    [.expr (.call (.globalName ⟨"help", {}⟩) [.ofValue none (.name ⟨"mood", {}⟩)] {}),
      .ret (some (.name ⟨"hope", {}⟩)) {}]

def idleUpdates : List TreeOp :=
  [.declare ⟨["mob", "villager"]⟩, .newProc ⟨1⟩ "help" {}, .newGlobalProc "plead" {},
    .setVariable ⟨1⟩ "mood" (.string "grim"), .setVariable .root "hope" .null, .setParams ⟨1⟩ [],
    .setParams ⟨2⟩ ["hope"], .addVerb ⟨1⟩ ⟨1⟩, .addStatic ⟨1⟩ "hope", .finalize]

theorem compile_frozen_plea : village.Reachable ∧ village.finalized = true ∧
    ∃ proc, village.proc plea.proc = .ok proc ∧
      (∀ op ∈ idleUpdates, ¬ op.Touches village proc plea) ∧
      plea.compile (idleUpdates.foldl (fun tree op => op.run.after tree) village) default =
        plea.compile village default := by
  have reachable : village.Reachable := TreeOp.reachable_build _
  have finalized : village.finalized = true := by decide +kernel
  have found :
      village.proc plea.proc = .ok { id := ⟨1⟩, name := "plead", owner := some ⟨1⟩, flags := {} } :=
    (village.proc_eq_ok_iff _ _).mpr (by decide +kernel)
  have untouched : ∀ op ∈ idleUpdates,
      ¬ op.Touches village { id := ⟨1⟩, name := "plead", owner := some ⟨1⟩, flags := {} } plea := by
        decide +kernel
  exact ⟨reachable, finalized, _, found, untouched,
    compile_frozen reachable finalized found untouched default⟩

/-- Each of these is accepted by a finalized tree and changes the code of a body. -/
theorem compile_thaws : village.Reachable ∧ village.finalized = true ∧
    ∀ op ∈ [TreeOp.newGlobalProc "help" {}, .setParams ⟨1⟩ ["hope"], .setVariable ⟨1⟩ "hope" .null],
      plea.compile (op.run.after village) default ≠ plea.compile village default := by
  refine ⟨TreeOp.reachable_build _, by decide +kernel, ?_⟩
  have codes :
      ∀ op ∈ [TreeOp.newGlobalProc "help" {}, .setParams ⟨1⟩ ["hope"],
      .setVariable ⟨1⟩ "hope" .null],
      (plea.compile (op.run.after village) default).toOption.map (·.chunk) ≠
        (plea.compile village default).toOption.map (·.chunk) := by decide +kernel
  exact fun op member same =>
    codes op member (congrArg (fun outcome => outcome.toOption.map (·.chunk)) same)

end Body

end ProcLowering
