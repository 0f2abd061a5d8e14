import ProcLowering.Proofs.Outcome
import ProcLowering.Proofs.Valued

set_option autoImplicit false

namespace ProcLowering

namespace Span

theorem le_iff (a b : Span) : a.le b = true ↔
    a.file < b.file ∨ a.file = b.file ∧ (a.line < b.line ∨ a.line = b.line ∧
      (a.column < b.column ∨ a.column = b.column ∧ a.length ≤ b.length)) := by
  unfold le
  split
  · simp_all
  · split
    · simp_all
    · split <;> simp_all

theorem le_trans {a b c : Span} (first : a.le b = true) (second : b.le c = true) :
    a.le c = true := by
  rw [le_iff] at *
  grind

theorem le_total (a b : Span) : a.le b = true ∨ b.le a = true := by
  rw [le_iff, le_iff]
  grind

theorem le_antisymm {a b : Span} (first : a.le b = true) (second : b.le a = true) : a = b := by
  rw [le_iff] at first second
  ext <;> grind

end Span

section

variable {α β : Type} {place : α → Span}

structure Kept (place : α → Span) (queue kept : List α) : Prop where
  perm : kept.Perm queue
  stable : ∀ span, (kept.filter fun entry => place entry = span) = queue.filter fun entry =>
    place entry = span

/-- The result of sorting a queue by span without moving entries with
equal spans past each other. -/
structure SortedFrom (place : α → Span) (queue sorted : List α) :
    Prop extends Kept place queue sorted where
  ordered : sorted.Pairwise fun a b => (place a).le (place b) = true

theorem Kept.refl (queue : List α) : Kept place queue queue := ⟨.refl queue, fun _ => rfl⟩

theorem Kept.trans {first second third : List α} (head : Kept place first second)
    (tail : Kept place second third) :
    Kept place first third :=
  ⟨tail.perm.trans head.perm, fun span => (tail.stable span).trans (head.stable span)⟩

theorem Kept.append {first first' second second' : List α} (left : Kept place first first')
    (right : Kept place second second') : Kept place (first ++ second) (first' ++ second') := by
  refine ⟨left.perm.append right.perm, fun span => ?_⟩
  rw [List.filter_append, List.filter_append, left.stable, right.stable]

theorem SortedFrom.requeue {queue other sorted : List α} (sorts : SortedFrom place other sorted)
    (kept : Kept place queue other) : SortedFrom place queue sorted :=
  ⟨kept.trans sorts.toKept, sorts.ordered⟩

theorem SortedFrom.map {view : β → α} {queue sorted : List β}
    (sorts : SortedFrom (place ∘ view) queue sorted) :
    SortedFrom place (queue.map view) (sorted.map view) := by
  refine ⟨⟨sorts.perm.map view, fun span => ?_⟩, List.pairwise_map.mpr sorts.ordered⟩
  rw [List.filter_map, List.filter_map]
  exact congrArg (List.map view) (sorts.stable span)

theorem head_eq_of_stable {first second : α} {rest more : List α}
    (ordered : (first :: rest).Pairwise fun a b => (place a).le (place b) = true)
    (ordered' : (second :: more).Pairwise fun a b => (place a).le (place b) = true)
    (stable : ∀ span, ((first :: rest).filter fun entry => place entry = span) =
      (second :: more).filter fun entry => place entry = span) : first = second := by
  -- Each head stands in the other list, so neither comes later than the other.
  have member {here there : α} {tail : List α}
      (inside : here ∈ (there :: tail).filter fun entry => place entry = place here)
      (sorted : (there :: tail).Pairwise fun a b => (place a).le (place b) = true) :
        (place there).le (place here) = true := by
    rcases List.mem_cons.mp (List.mem_filter.mp inside).1 with rfl | later
    · exact (Span.le_total _ _).elim id id
    · exact List.rel_of_pairwise_cons sorted later
  have earlier : (place second).le (place first) = true := member (by rw [← stable]; simp) ordered'
  have later : (place first).le (place second) = true := member (by rw [stable]; simp) ordered
  have same := Span.le_antisymm later earlier
  have heads := stable (place first)
  rw [List.filter_cons_of_pos (by simp), List.filter_cons_of_pos (by simp [same])] at heads
  exact (List.cons.inj heads).1

theorem eq_of_stable {sorted other : List α}
    (ordered : sorted.Pairwise fun a b => (place a).le (place b) = true)
    (ordered' : other.Pairwise fun a b => (place a).le (place b) = true)
    (stable : ∀ span, (sorted.filter fun entry => place entry = span) = other.filter fun entry =>
      place entry = span) :
    sorted = other := by
  induction sorted generalizing other with
  | nil =>
    cases other with
    | nil => rfl
    | cons second more =>
      have empty := stable (place second)
      simp at empty
  | cons first rest ih =>
    cases other with
    | nil =>
      have empty := stable (place first)
      simp at empty
    | cons second more =>
      obtain rfl := head_eq_of_stable ordered ordered' stable
      refine congrArg (first :: ·) (ih ordered.of_cons ordered'.of_cons fun span => ?_)
      have whole := stable span
      rw [List.filter_cons, List.filter_cons] at whole
      split at whole
      · exact (List.cons.inj whole).2
      · exact whole

theorem SortedFrom.unique {queue sorted other : List α} (sorts : SortedFrom place queue sorted)
    (sorts' : SortedFrom place queue other) : sorted = other :=
  eq_of_stable sorts.ordered sorts'.ordered fun span =>
    (sorts.stable span).trans (sorts'.stable span).symm

theorem sortedFrom_mergeSort (place : α → Span) (queue : List α) :
    SortedFrom place queue (queue.mergeSort fun a b => (place a).le (place b)) := by
  have transitive (a b c : α) (first : (place a).le (place b) = true)
      (second : (place b).le (place c) = true) :
      (place a).le (place c) = true := Span.le_trans first second
  have total (a b : α) : ((place a).le (place b) || (place b).le (place a)) = true := by
    simpa using Span.le_total (place a) (place b)
  have perm := List.mergeSort_perm queue fun a b => (place a).le (place b)
  refine ⟨⟨perm, fun span => ?_⟩, List.pairwise_mergeSort transitive total queue⟩
  -- The entries at one span are sorted already, so they come out as they went in.
  have level : (queue.filter fun entry => place entry = span).Pairwise fun a b =>
    (place a).le (place b) = true := by
    refine List.pairwise_of_forall_mem_list fun a here b there => ?_
    have one : place a = span := by simpa using (List.mem_filter.mp here).2
    have two : place b = span := by simpa using (List.mem_filter.mp there).2
    rw [one, two]
    exact (Span.le_total span span).elim id id
  have inside := (List.sublist_mergeSort transitive total level List.filter_sublist).filter
    fun entry => place entry = span
  rw [List.filter_filter] at inside
  simp only [Bool.and_self] at inside
  exact (inside.eq_of_length (perm.filter _).length_eq.symm).symm

end

theorem Diagnostics.sortedFrom_merge (sink other : Diagnostics) :
    SortedFrom Diagnostic.span
      (sink.items.toList ++ other.items.toList) (sink.merge other).items.toList := by
  rw [merge, List.toList_toArray, Array.toList_append]
  exact sortedFrom_mergeSort _ _

inductive Merging where
  | queue (diagnostics : Diagnostics)
  | both (first second : Merging)

namespace Merging

def queues : Merging → List Diagnostics
  | .queue diagnostics => [diagnostics]
  | .both first second => first.queues ++ second.queues

def result : Merging → Diagnostics
  | .queue diagnostics => diagnostics
  | .both first second => first.result.merge second.result

theorem kept (merging : Merging) :
    Kept Diagnostic.span (merging.queues.flatMap (·.items.toList)) merging.result.items.toList := by
  induction merging with
  | queue diagnostics =>
    rw [queues, List.flatMap_singleton]
    exact .refl _
  | both first second ihFirst ihSecond =>
    rw [queues, List.flatMap_append]
    exact (ihFirst.append ihSecond).trans (Diagnostics.sortedFrom_merge _ _).toKept

theorem sortedFrom_both (first second : Merging) :
    SortedFrom Diagnostic.span ((both first second).queues.flatMap (·.items.toList))
      (both first second).result.items.toList :=
  ⟨(both first second).kept, (Diagnostics.sortedFrom_merge first.result second.result).ordered⟩

theorem length_queues_pos (merging : Merging) : 0 < merging.queues.length := by
  induction merging with
  | queue => simp [queues]
  | both first second ihFirst => simp [queues]; omega

theorem items_eq {left right : Merging} (same : left.queues = right.queues) :
    left.result.items = right.result.items := by
  -- A single queue is left unsorted, but then there is only one way to merge.
  have alone {first second : Merging} {diagnostics : Diagnostics} : first.queues ++ second.queues ≠
      [diagnostics] := by
    intro single
    have count := congrArg List.length single
    have := first.length_queues_pos
    have := second.length_queues_pos
    simp at count
    omega
  cases left with
  | queue diagnostics =>
    cases right with
    | queue other =>
      cases same
      rfl
    | both first second => exact absurd same.symm alone
  | both first second =>
    cases right with
    | queue diagnostics => exact absurd same alone
    | both first' second' =>
      have sorts := sortedFrom_both first second
      rw [same] at sorts
      exact Array.toList_inj.mp (sorts.unique (sortedFrom_both first' second'))

end Merging

namespace CompiledUnit

variable {tree : ObjectTree} {options : Options} {bodies : List Body} {start unit : CompiledUnit}

theorem compile_sorted {queue : List Diagnostic}
    (done : bodies.foldlM (fun unit body => do return add unit (← body.compile tree options))
      start = .ok unit)
    (sorts : SortedFrom Diagnostic.span queue start.diagnostics.items.toList) :
    ∃ procs, unit.procs.toList = start.procs.toList ++ procs ∧
      List.Forall₂ (fun body compiled => body.compile tree options = .ok compiled) bodies procs ∧
        SortedFrom Diagnostic.span (queue ++ procs.flatMap (·.diagnostics.items.toList))
          unit.diagnostics.items.toList := by
  induction bodies generalizing start queue with
  | nil =>
    cases done
    exact ⟨[], by simp, .nil, by simpa using sorts⟩
  | cons body rest ih =>
    rw [List.foldlM_cons] at done
    obtain ⟨middle, first, others⟩ := except_bind_ok done
    obtain ⟨compiled, compiles, added⟩ := except_bind_ok first
    cases added
    -- What is merged so far may stand unsorted in the queue.
    have merged := (start.diagnostics.sortedFrom_merge compiled.diagnostics).requeue
      (sorts.toKept.append (.refl compiled.diagnostics.items.toList))
    obtain ⟨procs, listed, pairs, sorted⟩ := ih others merged
    refine ⟨compiled :: procs, by simp [listed, add], .cons compiles pairs, ?_⟩
    simpa [List.flatMap_cons] using sorted

theorem compile_of_forall₂ {procs : List CompiledProc}
    (pairs : List.Forall₂ (fun body compiled => body.compile tree options = .ok compiled)
      bodies procs)
    (start : CompiledUnit) : ∃ unit,
      bodies.foldlM (fun unit body => do return add unit (← body.compile tree options)) start =
        .ok unit ∧
        unit.procs.toList = start.procs.toList ++ procs := by
  induction pairs generalizing start with
  | nil => exact ⟨start, rfl, by simp⟩
  | @cons body compiled bodies procs compiles _ ih =>
    obtain ⟨unit, done, listed⟩ := ih (start.add compiled)
    refine ⟨unit, ?_, by simp [listed, add]⟩
    rw [List.foldlM_cons, compiles]
    exact done

theorem count_flatMap (picks : Diagnostic → Bool) (procs : List CompiledProc) :
    (procs.flatMap (·.diagnostics.items.toList)).countP picks =
      (procs.map fun compiled => compiled.diagnostics.items.toList.countP picks).foldr
      (· + ·) 0 := by
  induction procs with
  | nil => rfl
  | cons compiled rest ih =>
    rw [List.flatMap_cons, List.countP_append, ih, List.map_cons, List.foldr_cons]

end CompiledUnit

structure Report where
  body : Nat
  place : Nat
  diagnostic : Diagnostic

namespace Report

def span (report : Report) : Span := report.diagnostic.span

def all (body : Nat) (diagnostics : Diagnostics) : List Report :=
  diagnostics.items.toList.zipIdx.map fun (diagnostic, place) => { body, place, diagnostic }

theorem map_diagnostic_all (body : Nat) (diagnostics : Diagnostics) :
    (all body diagnostics).map (·.diagnostic) = diagnostics.items.toList := by
  rw [all, List.map_map]
  exact List.zipIdx_map_fst 0 _

theorem pairwise_place_all (body : Nat) (diagnostics : Diagnostics) :
    (all body diagnostics).Pairwise fun a b => a.place < b.place := by
  have places : (all body diagnostics).map (·.place) =
    List.range' 0 diagnostics.items.toList.length := by
    rw [all, List.map_map]
    exact List.zipIdx_map_snd 0 _
  rw [← List.pairwise_map (f := Report.place) (R := (· < ·)), places]
  exact List.pairwise_lt_range'

theorem body_of_mem_all {body : Nat} {diagnostics : Diagnostics} {report : Report}
    (member : report ∈ all body diagnostics) : report.body = body := by
  obtain ⟨_, -, rfl⟩ := List.mem_map.mp member
  rfl

end Report

namespace CompiledUnit

def reports (unit : CompiledUnit) (body : Nat) : List Report :=
  (unit.procs[body]?.map fun compiled => Report.all body compiled.diagnostics).getD []

theorem body_of_mem_reports {unit : CompiledUnit} {body : Nat} {report : Report}
    (member : report ∈ unit.reports body) : report.body = body := by
  unfold reports at member
  cases found : unit.procs[body]? with
  | none => simp [found] at member
  | some compiled =>
    rw [found] at member
    exact Report.body_of_mem_all member

theorem pairwise_place_reports (unit : CompiledUnit) (body : Nat) :
    (unit.reports body).Pairwise fun a b => a.place < b.place := by
  unfold reports
  cases unit.procs[body]? with
  | none => exact .nil
  | some compiled => exact Report.pairwise_place_all body compiled.diagnostics

theorem map_diagnostic_reports (unit : CompiledUnit) (order : List Nat) :
    (order.flatMap unit.reports).map (·.diagnostic) =
      (order.filterMap (unit.procs[·]?)).flatMap (·.diagnostics.items.toList) := by
  induction order with
  | nil => rfl
  | cons body rest ih =>
    rw [List.flatMap_cons, List.map_append, List.filterMap_cons, ih, reports]
    cases unit.procs[body]? with
    | none => rfl
    | some compiled => simp [Report.map_diagnostic_all]

theorem filter_body_reports (unit : CompiledUnit) {order : List Nat} (once : order.Nodup)
    (body : Nat) :
    ((order.flatMap unit.reports).filter fun report => report.body = body).Sublist
    (unit.reports body) := by
  have others (ids : List Nat) (absent : body ∉ ids) :
      ((ids.flatMap unit.reports).filter fun report => report.body = body) = [] := by
    refine List.filter_eq_nil_iff.mpr fun report member => ?_
    obtain ⟨other, listed, inside⟩ := List.mem_flatMap.mp member
    have own := body_of_mem_reports inside
    simp only [decide_eq_true_eq]
    rintro rfl
    exact absent (own ▸ listed)
  induction order with
  | nil => simp
  | cons first rest ih =>
    obtain ⟨absent, once⟩ := List.nodup_cons.mp once
    rw [List.flatMap_cons, List.filter_append]
    by_cases same : first = body
    · subst same
      rw [others rest absent, List.append_nil]
      exact List.filter_sublist
    · have none := others [first] (by simpa using Ne.symm same)
      rw [List.flatMap_singleton] at none
      rw [none, List.nil_append]
      exact ih once

theorem sublist_reports {unit : CompiledUnit} {order : List Nat} {sorted : List Report}
    (once : order.Nodup) (sorts : SortedFrom Report.span (order.flatMap unit.reports) sorted)
    {a b : Report} (before : [a, b].Sublist sorted) (span : b.span = a.span)
    (body : b.body = a.body) : [a, b].Sublist (unit.reports a.body) := by
  have level : [a, b].Sublist (sorted.filter fun report => report.span = a.span) := by
    simpa [span] using before.filter fun report => report.span = a.span
  rw [sorts.stable] at level
  have own : [a, b].Sublist ((order.flatMap unit.reports).filter fun report => report.body =
    a.body) := by
    simpa [body] using (level.trans List.filter_sublist).filter fun report => report.body = a.body
  exact own.trans (unit.filter_body_reports once a.body)

/-- One unit has the bodies of another in the given order. The diagnostics of the two differ at most
in the order of those which stand at one span and come from different bodies. -/
structure Reorders (unit : CompiledUnit) (order : List Nat) (other : CompiledUnit) : Prop where
  procs : other.procs.toList = order.filterMap (unit.procs[·]?)
  moves : ∃ first second : List Report,
    first.map (·.diagnostic) = unit.diagnostics.items.toList ∧
    second.map (·.diagnostic) = other.diagnostics.items.toList ∧
    SortedFrom Report.span ((List.range unit.procs.size).flatMap unit.reports) first ∧
    SortedFrom Report.span (order.flatMap unit.reports) second ∧ second.Perm first ∧
    ∀ a b, [a, b].Sublist first → [b, a].Sublist second → a.span = b.span ∧ a.body ≠ b.body

theorem reorders_of_sorted {unit other : CompiledUnit} {order : List Nat}
    (permutes : order.Perm (List.range unit.procs.size))
    (procs : other.procs.toList = order.filterMap (unit.procs[·]?))
    (sorts : SortedFrom Diagnostic.span (unit.procs.toList.flatMap (·.diagnostics.items.toList))
      unit.diagnostics.items.toList)
    (sorts' : SortedFrom Diagnostic.span (other.procs.toList.flatMap (·.diagnostics.items.toList))
      other.diagnostics.items.toList) : unit.Reorders order other := by
  refine ⟨procs, ?_⟩
  have all : (List.range unit.procs.size).filterMap (unit.procs[·]?) = unit.procs.toList := by
    simpa using filterMap_range unit.procs.toList
  have once : order.Nodup := permutes.nodup_iff.mpr List.nodup_range
  have first := sortedFrom_mergeSort Report.span ((List.range unit.procs.size).flatMap unit.reports)
  have second := sortedFrom_mergeSort Report.span (order.flatMap unit.reports)
  have same : (order.flatMap unit.reports).Perm
    ((List.range unit.procs.size).flatMap unit.reports) :=
    permutes.flatMap_right _
  rw [← all, ← map_diagnostic_reports] at sorts
  rw [procs, ← map_diagnostic_reports] at sorts'
  refine ⟨_, _, (SortedFrom.map first).unique sorts, (SortedFrom.map second).unique sorts',
    first, second, second.perm.trans (same.trans first.perm.symm), ?_⟩
  intro a b before after
  have span : a.span = b.span :=
    Span.le_antisymm (List.pairwise_iff_forall_sublist.mp first.ordered before)
    (List.pairwise_iff_forall_sublist.mp second.ordered after)
  refine ⟨span, fun body => ?_⟩
  -- Both orders would be that of the reports of one body.
  have one := sublist_reports List.nodup_range first before span.symm body.symm
  have two := sublist_reports once second after span body
  rw [← body] at two
  have places := unit.pairwise_place_reports a.body
  have forth := List.pairwise_iff_forall_sublist.mp places one
  have back := List.pairwise_iff_forall_sublist.mp places two
  omega

theorem reorders_of_compile {tree : ObjectTree} {options : Options} {bodies : List Body}
    {unit : CompiledUnit} (done : compile tree options bodies = .ok unit) {order : List Nat}
    (permutes : order.Perm (List.range bodies.length)) :
    ∃ other, compile tree options (order.filterMap (bodies[·]?)) = .ok other ∧
      unit.Reorders order other := by
  have nothing : SortedFrom Diagnostic.span [] [] := ⟨.refl [], .nil⟩
  obtain ⟨procs, listed, pairs, sorts⟩ := compile_sorted done nothing
  obtain rfl : unit.procs.toList = procs := listed
  have size : bodies.length = unit.procs.size := by simpa using pairs.length_eq
  obtain ⟨other, compiles, listed'⟩ := compile_of_forall₂ (forall₂_filterMap pairs order)
    { diagnostics := { levels := options.levels } }
  obtain ⟨procs, listed, -, sorts'⟩ := compile_sorted compiles nothing
  obtain rfl : other.procs.toList = procs := listed
  rw [List.nil_append] at sorts sorts'
  refine ⟨other, compiles, reorders_of_sorted (size ▸ permutes) ?_ sorts sorts'⟩
  simpa using listed'

/-- All diagnostics of a unit stand in source order, and those at one
span in the order of the queue. Another order of the bodies moves only
some at one span, and the bracketing of merges nothing. -/
theorem compile_source_order :
    (∀ (tree : ObjectTree) (options : Options) (bodies : List Body) (unit : CompiledUnit),
      compile tree options bodies = .ok unit →
        List.Forall₂ (fun body compiled => body.compile tree options = .ok compiled) bodies
          unit.procs.toList ∧
        SortedFrom Diagnostic.span (unit.procs.toList.flatMap (·.diagnostics.items.toList))
          unit.diagnostics.items.toList ∧
        unit.diagnostics.errorCount =
          (unit.procs.toList.map (·.diagnostics.errorCount)).foldr (· + ·) 0 ∧
        unit.diagnostics.warningCount =
          (unit.procs.toList.map (·.diagnostics.warningCount)).foldr (· + ·) 0 ∧
        ∀ order : List Nat, order.Perm (List.range bodies.length) →
          ∃ other, compile tree options (order.filterMap (bodies[·]?)) = .ok other ∧
            unit.Reorders order other) ∧
      (∀ a b c : Diagnostics, ((a.merge b).merge c).items = (a.merge (b.merge c)).items) ∧
      ∀ left right : Merging, left.queues = right.queues →
        left.result.items = right.result.items := by
  refine ⟨?_, ?_, fun left right => Merging.items_eq⟩
  · intro tree options bodies unit done
    have nothing : SortedFrom Diagnostic.span [] [] := ⟨.refl [], .nil⟩
    obtain ⟨procs, listed, pairs, sorts⟩ := compile_sorted done nothing
    obtain rfl : unit.procs.toList = procs := listed
    rw [List.nil_append] at sorts
    refine ⟨pairs, sorts, ?_, ?_, fun order permutes => reorders_of_compile done permutes⟩
    · rw [Diagnostics.errorCount, sorts.perm.countP_eq, count_flatMap]
      rfl
    · rw [Diagnostics.warningCount, sorts.perm.countP_eq, count_flatMap]
      rfl
  · intro a b c
    have same : (Merging.both (.both (.queue a) (.queue b)) (.queue c)).queues =
        (Merging.both (.queue a) (.both (.queue b) (.queue c))).queues := rfl
    exact Merging.items_eq same

def stage : ObjectTree :=
  TreeOp.build [.newProc .root "enter" {}, .newProc .root "leave" {}, .finalize]

def entering : Body where
  proc := ⟨1⟩
  statements :=
    [.expr (.call (.name ⟨"bow", .point 4 1⟩) [] (.point 4 1)),
      .expr (.name ⟨"curtain", .point 2 7⟩)]

def leaving : Body where
  proc := ⟨2⟩
  statements :=
    [.expr (.call (.globalName ⟨"bow", .point 4 1⟩) [] (.point 4 1)), .expr (.super (.point 3 1))]

def clashes (items : List Diagnostic) : List Kind :=
  (items.filter fun diagnostic => diagnostic.span = .point 4 1).map (·.kind)

theorem compile_source_order_stage :
    ∃ unit other, compile stage default [entering, leaving] = .ok unit ∧
      compile stage default [leaving, entering] = .ok other ∧
      clashes unit.diagnostics.items.toList = [.unknownProcedure, .unknownGlobalProcedure] ∧
      clashes other.diagnostics.items.toList = [.unknownGlobalProcedure, .unknownProcedure] ∧
      unit.diagnostics.errorCount = 2 ∧ unit.Reorders [1, 0] other := by
  have ordered := compile_source_order.1 stage default
  -- Sorting does not evaluate, but what it keeps at one span is known from the queue.
  have compiles (bodies : List Body) (kinds : List Kind) (errors : List Nat)
      (queued : (compile stage default bodies).toOption.map (fun unit =>
        (clashes (unit.procs.toList.flatMap (·.diagnostics.items.toList)),
          unit.procs.toList.map (·.diagnostics.errorCount))) = some (kinds, errors)) :
      ∃ unit, compile stage default bodies = .ok unit ∧
        clashes unit.diagnostics.items.toList = kinds ∧
        unit.diagnostics.errorCount = errors.foldr (· + ·) 0 := by
    cases done : compile stage default bodies with
    | error fault =>
      rw [done] at queued
      cases queued
    | ok unit =>
      rw [done] at queued
      obtain ⟨same, counts⟩ := Prod.mk.inj (Option.some.inj queued)
      obtain ⟨-, sorts, count, -, -⟩ := ordered bodies unit done
      refine ⟨unit, rfl, ?_, ?_⟩
      · rw [clashes, sorts.stable]
        exact same
      · rw [count, counts]
  obtain ⟨unit, done, kinds, errors⟩ :=
    compiles [entering, leaving] [.unknownProcedure, .unknownGlobalProcedure] [1, 1]
    (by decide +kernel)
  obtain ⟨other, done', kinds', -⟩ :=
    compiles [leaving, entering] [.unknownGlobalProcedure, .unknownProcedure] [1, 1]
    (by decide +kernel)
  obtain ⟨-, -, -, -, permuted⟩ := ordered [entering, leaving] unit done
  obtain ⟨again, compiled, moved⟩ := permuted [1, 0] (by decide)
  cases compiled.symm.trans done'
  exact ⟨unit, other, done, done', kinds, kinds', errors, moved⟩

end CompiledUnit

end ProcLowering
