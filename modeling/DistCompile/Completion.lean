import DistCompile.Coordinator
import DistCompile.Effects
import DistCompile.Tables

/-!
The invariant of a completion, statement by statement.

`Consistent` is what holds of the committed tables: every dependency counter is
the number of unfinished dependencies, a task waits exactly while its counter is
positive, a finished task has its output, and a task that no longer waits has
the key and input columns that follow from its dependencies.

Inside a `CompleteTask` transaction this is false for a while: a task is marked
done before its dependents are counted down. `Mid com c` says what holds then,
relative to the committed tables `com` the transaction works on. The edges
leaving the tasks it finished are exactly those it has counted plus those it
still has to count (`edges`), and a counter differs from the committed one by
the counted edges (`counts`). So a counter that the transaction sees reach zero
belongs to a task whose dependencies are all finished, and when the stack is
empty the tables are consistent again.

`Mid` mentions other transactions nowhere: the atomic runs of `Coordinator` and
the interleaved ones of `ReadCommitted` both rest on `Mid.step`.
-/

namespace DistCompile

/-! ### Columns that follow from the dependencies -/

/-- The input names and digests of the task in slot `s`, in `pos` order. -/
def Db.inputNames (db : Db) (s : Nat × Nat) : List Str :=
  (db.inputsOf s.1 s.2).map fun t => flatName t.name

def Db.inputDigests (db : Db) (s : Nat × Nat) : List Str :=
  (db.inputsOf s.1 s.2).map fun t => t.output.getD []

/-- The key of the archive or link task `t`. -/
def Db.keyOf (H : Sha256) (db : Db) (t : TaskRow) : Str :=
  actionKey H t.kind t.toolchain t.args (db.inputNames t.slot) (db.inputDigests t.slot)

/-- A text column holds `text`: `submit` stores the empty text as NULL,
`make_ready` stores it as it is. -/
def Stores (column : Option Str) (text : Str) : Prop :=
  column = some text ∨ column = emptyIsNull text

/-- The derived columns of an archive or link task. The input columns are read
only while the task can be handed out. -/
structure Columns (H : Sha256) (db : Db) (t : TaskRow) : Prop where
  key : t.key = some (db.keyOf H t)
  inputs : t.state.open = true → Stores t.inputs (joinLines (db.inputDigests t.slot))
  names : t.state.open = true → Stores t.inputNames (joinLines (db.inputNames t.slot))

/-- What every finished row has. -/
def HasOutput (t : TaskRow) : Prop := ∃ o, t.output = some o ∧ validHash o = true

/-- The committed tables. -/
structure Consistent (H : Sha256) (db : Db) : Prop where
  keyed : db.Keyed
  fresh : db.Fresh
  linked : db.Linked
  edges : (db.deps.map TaskDep.primaryKey).Nodup
  shape : ∀ d ∈ db.deps, ¬ db.Finished d.source → ∀ t ∈ db.tasks, t.slot = d.target → t.kind ≠ COMPILE
  cache : ∀ c ∈ db.cache, validHash c.output = true
  pending : ∀ t ∈ db.tasks, t.pendingDeps = db.unfinishedDeps t.slot
  waiting : ∀ t ∈ db.tasks, t.state = .waiting ↔ 0 < t.pendingDeps
  output : ∀ t ∈ db.tasks, t.state.finished = true → HasOutput t
  columns : ∀ t ∈ db.tasks, t.state ≠ .waiting → t.kind ≠ COMPILE → Columns H db t

/-! ### Edges counted and due -/

/-- Edges as `(build, dep, task)`. -/
abbrev Edge := Nat × Nat × Nat

/-- The edges a transaction has counted down. -/
def countedEdges (trace : List Event) : List Edge :=
  trace.filterMap fun
    | .counted build dep task _ => some (build, dep, task)
    | _ => none

/-- The edges a statement will count down, itself or by what follows it. -/
def Stmt.due (db : Db) : Stmt → List Edge
  | .cachePut build id _ _ _ | .dependents build id =>
      (db.deps.filter fun d => d.source = (build, id)).map TaskDep.primaryKey
  | .countDown build id uid => [(build, id, ((db.task? uid).map (·.id)).getD 0)]
  | _ => []

def dueEdges (db : Db) (stack : List Stmt) : List Edge := stack.flatMap (Stmt.due db)

/-- The edges leaving the tasks finished in `db` but not in `com`. -/
def newEdges (com db : Db) : List Edge :=
  (com.deps.filter fun d => db.Finished d.source ∧ ¬ com.Finished d.source).map TaskDep.primaryKey

/-- How many of the edges enter slot `s`. -/
def entering (s : Nat × Nat) (edges : List Edge) : Nat := edges.countP fun e => (e.1, e.2.2) = s

/-- The task `make_ready` is working on: its counter is zero but it still waits. -/
def subject : List Stmt → Option (Nat × Nat)
  | .taskInfo build id :: _ | .depOutputs build id _ _ _ :: _ | .cacheHit build id _ _ _ :: _
  | .markCached build id _ _ :: _ | .markReady build id _ _ _ :: _ => some (build, id)
  | _ => none

/-- The statements that can stand below the top of the stack: what is left of the
loops of `finished`. -/
def Stmt.isLoop : Stmt → Bool
  | .lockRow _ | .countDown _ _ _ => true
  | _ => false

/-- What the values carried by a statement satisfy. -/
def Stmt.Ok (H : Sha256) (db : Db) : Stmt → Prop
  | .complete r _ => validHash r.output = true
  | .cachePut _ _ _ output _ => validHash output = true
  | .countDown build _ uid => ∃ t ∈ db.tasks, t.uid = uid ∧ t.buildId = build
  | .taskInfo build id => ∃ t ∈ db.tasks, t.slot = (build, id) ∧ t.kind ≠ COMPILE
  | .depOutputs build id kind args toolchain =>
      ∃ t ∈ db.tasks, t.slot = (build, id) ∧ t.kind ≠ COMPILE ∧
        t.kind = kind ∧ t.args = args ∧ t.toolchain = toolchain
  | .cacheHit build id key names digests | .markReady build id key names digests =>
      names = db.inputNames (build, id) ∧ digests = db.inputDigests (build, id) ∧
        ∃ t ∈ db.tasks, t.slot = (build, id) ∧ t.kind ≠ COMPILE ∧ key = db.keyOf H t
  | .markCached build id key output =>
      validHash output = true ∧
        ∃ t ∈ db.tasks, t.slot = (build, id) ∧ t.kind ≠ COMPILE ∧ key = db.keyOf H t
  | _ => True

/-- A transaction under way on top of the committed tables `com`. -/
structure Mid (H : Sha256) (com : Db) (c : Cfg) : Prop where
  grows : Db.Grows com c.db
  cache : ∀ r ∈ c.db.cache, validHash r.output = true
  waiting : ∀ t ∈ c.db.tasks,
    t.state = .waiting ↔ 0 < t.pendingDeps ∨ subject c.stack = some t.slot
  output : ∀ t ∈ c.db.tasks, t.state.finished = true → HasOutput t
  columns : ∀ t ∈ c.db.tasks, t.state ≠ .waiting → t.kind ≠ COMPILE → Columns H c.db t
  counts : ∀ t ∈ c.db.tasks, ∀ u ∈ com.tasks, t.uid = u.uid →
    t.pendingDeps + entering t.slot (countedEdges c.trace) = u.pendingDeps
  edges : (countedEdges c.trace ++ dueEdges com c.stack).Perm (newEdges com c.db)
  zero : ∀ t ∈ c.db.tasks, subject c.stack = some t.slot → t.pendingDeps = 0
  ok : ∀ s ∈ c.stack, s.Ok H c.db
  loops : ∀ s ∈ c.stack.tail, s.isLoop = true

/-! ### Counting edges -/

theorem entering_append (s : Nat × Nat) (es fs : List Edge) :
    entering s (es ++ fs) = entering s es + entering s fs := List.countP_append

/-- Edges into a slot, counted over the rows of `task_deps`. -/
theorem entering_map (s : Nat × Nat) (p : TaskDep → Prop) [DecidablePred p] (deps : List TaskDep) :
    entering s ((deps.filter p).map TaskDep.primaryKey) = deps.countP fun d => d.target = s ∧ p d := by
  rw [entering, List.countP_map, List.countP_filter]
  refine List.countP_congr fun d _ => ?_
  rw [Bool.and_eq_true, Function.comp_apply, decide_eq_true_iff, decide_eq_true_iff,
    decide_eq_true_iff]
  rfl

/-- Finishing tasks lowers the number of unfinished dependencies by the edges
from the newly finished ones. -/
theorem unfinishedDeps_eq {com db : Db} (g : Db.Grows com db) (s : Nat × Nat) :
    com.unfinishedDeps s = db.unfinishedDeps s + entering s (newEdges com db) := by
  rw [newEdges, entering_map, Db.unfinishedDeps, Db.unfinishedDeps, g.deps]
  induction com.deps with
  | nil => rfl
  | cons d deps ih =>
    simp only [List.countP_cons, ih]
    by_cases target : d.target = s
    · by_cases before : com.Finished d.source
      · simp [target, before, g.finished before]
      · by_cases after : db.Finished d.source
        · simp [target, before, after]; omega
        · simp [target, before, after]; omega
    · simp [target]

/-- The finished dependencies of a slot, from its count. -/
theorem unfinishedDeps_eq_zero {db : Db} {s : Nat × Nat} :
    db.unfinishedDeps s = 0 ↔ ∀ d ∈ db.deps, d.target = s → db.Finished d.source := by
  rw [Db.unfinishedDeps, List.countP_eq_zero]
  simp

namespace Mid

variable {H : Sha256} {com : Db} {c : Cfg}

theorem keyed (m : Mid H com c) (k : com.Keyed) : c.db.Keyed := m.grows.keyed k

/-- The counter of a task, in the middle of the transaction: its unfinished
dependencies and the edges still to be counted. -/
theorem pending (m : Mid H com c) (base : Consistent H com) {t : TaskRow} (ht : t ∈ c.db.tasks) :
    t.pendingDeps = c.db.unfinishedDeps t.slot + entering t.slot (dueEdges com c.stack) := by
  obtain ⟨u, hu, same⟩ := Db.mem_of_fixed m.grows.fixed.symm ht
  have counted := m.counts t ht u hu (uid_of_fixed same).symm
  have before := base.pending u hu
  rw [slot_of_fixed same, unfinishedDeps_eq m.grows] at before
  have all := m.edges.countP_eq fun e => decide ((e.1, e.2.2) = t.slot)
  change entering t.slot _ = entering t.slot _ at all
  rw [entering_append] at all
  omega

/-- Dependencies of a task that no longer waits, or whose counter is at zero, are
finished. -/
theorem ready (m : Mid H com c) (base : Consistent H com) {t : TaskRow} (ht : t ∈ c.db.tasks)
    (settled : ¬ 0 < t.pendingDeps) :
    ∀ d ∈ c.db.deps, d.target = t.slot → c.db.Finished d.source := by
  have count := m.pending base ht
  exact unfinishedDeps_eq_zero.mp (by omega)

theorem not_pending (m : Mid H com c) {t : TaskRow} (ht : t ∈ c.db.tasks)
    (settled : t.state ≠ .waiting) : ¬ 0 < t.pendingDeps :=
  fun positive => settled ((m.waiting t ht).mpr (Or.inl positive))

end Mid

/-! ### Columns only depend on finished rows -/

section Grow

variable {H : Sha256} {db db' : Db} {t : TaskRow}

theorem inputNames_grow (g : Db.Grows db db') (k : db.Keyed) {s : Nat × Nat}
    (ready : ∀ d ∈ db.deps, d.target = s → db.Finished d.source) :
    db'.inputNames s = db.inputNames s := by
  rw [Db.inputNames, Db.inputNames, g.inputsOf_eq k ready]

theorem inputDigests_grow (g : Db.Grows db db') (k : db.Keyed) {s : Nat × Nat}
    (ready : ∀ d ∈ db.deps, d.target = s → db.Finished d.source) :
    db'.inputDigests s = db.inputDigests s := by
  rw [Db.inputDigests, Db.inputDigests, g.inputsOf_eq k ready]

theorem keyOf_grow (g : Db.Grows db db') (k : db.Keyed)
    (ready : ∀ d ∈ db.deps, d.target = t.slot → db.Finished d.source) :
    db'.keyOf H t = db.keyOf H t := by
  rw [Db.keyOf, Db.keyOf, inputNames_grow g k ready, inputDigests_grow g k ready]

/-- The key of a task follows from its fixed columns and the tables. -/
theorem keyOf_of_fixed {row : TaskRow} (fixed : row.fixed = t.fixed) :
    db.keyOf H row = db.keyOf H t := by
  rw [Db.keyOf, Db.keyOf, slot_of_fixed fixed, kind_of_fixed fixed, toolchain_of_fixed fixed,
    args_of_fixed fixed]

theorem Columns.grow (g : Db.Grows db db') (k : db.Keyed)
    (ready : ∀ d ∈ db.deps, d.target = t.slot → db.Finished d.source) (cols : Columns H db t) :
    Columns H db' t where
  key := by rw [keyOf_grow g k ready]; exact cols.key
  inputs openState := by rw [inputDigests_grow g k ready]; exact cols.inputs openState
  names openState := by rw [inputNames_grow g k ready]; exact cols.names openState

end Grow

/-! ### Statements that write no task -/

theorem loop_ok_grow {H : Sha256} {db db' : Db} (g : Db.Grows db db') {s : Stmt}
    (loop : s.isLoop = true) (ok : s.Ok H db) : s.Ok H db' := by
  cases s with
  | lockRow uid => trivial
  | countDown build id uid =>
    obtain ⟨t, ht, rfl, rfl⟩ := ok
    obtain ⟨u, hu, same⟩ := Db.mem_of_fixed g.fixed ht
    exact ⟨u, hu, uid_of_fixed same, build_of_fixed same⟩
  | _ => cases loop

/-- Below the top of the stack there are loops, whose statements stay right. -/
theorem Mid.rest_ok {H : Sha256} {com db' : Db} {c : Cfg} {s : Stmt} {rest : List Stmt}
    (m : Mid H com c) (top : c.stack = s :: rest) (g : Db.Grows c.db db') :
    ∀ r ∈ rest, r.Ok H db' := fun r hr =>
  loop_ok_grow g (m.loops r (by simpa [top] using hr)) (m.ok r (by simp [top, hr]))

theorem grows_of_same {db db' : Db} (tasks : db'.tasks = db.tasks) (deps : db'.deps = db.deps)
    (serials : db'.serials = db.serials) : Db.Grows db db' :=
  ⟨deps, serials, by rw [tasks], fun t ht _ => tasks ▸ ht⟩

theorem inputsOf_same {db db' : Db} (tasks : db'.tasks = db.tasks) (deps : db'.deps = db.deps)
    (build id : Nat) : db'.inputsOf build id = db.inputsOf build id := by
  rw [Db.inputsOf, Db.inputsOf, tasks, deps]

theorem columns_same {H : Sha256} {db db' : Db} (tasks : db'.tasks = db.tasks)
    (deps : db'.deps = db.deps) {t : TaskRow} (cols : Columns H db t) : Columns H db' t := by
  have inputs := inputsOf_same tasks deps t.slot.1 t.slot.2
  have names : db'.inputNames t.slot = db.inputNames t.slot := by
    rw [Db.inputNames, inputs]; rfl
  have digests : db'.inputDigests t.slot = db.inputDigests t.slot := by
    rw [Db.inputDigests, inputs]; rfl
  constructor
  · rw [cols.key, Db.keyOf, Db.keyOf, names, digests]
  · rw [digests]; exact cols.inputs
  · rw [names]; exact cols.names

theorem finished_same {db db' : Db} (tasks : db'.tasks = db.tasks) (s : Nat × Nat) :
    db'.Finished s ↔ db.Finished s := by
  rw [Db.Finished, Db.Finished, tasks]

theorem newEdges_same {com db db' : Db} (tasks : db'.tasks = db.tasks) :
    newEdges com db' = newEdges com db := by
  unfold newEdges
  congr 1
  refine List.filter_congr fun d _ => ?_
  rw [decide_eq_decide, finished_same tasks]

/-- A statement that leaves `tasks` alone: the stack may only change in ways that
keep the due edges and the task being made ready. -/
theorem Mid.quiet {H : Sha256} {com : Db} {c c' : Cfg} (m : Mid H com c)
    (tasks : c'.db.tasks = c.db.tasks) (deps : c'.db.deps = c.db.deps)
    (serials : c'.db.serials = c.db.serials)
    (cache : ∀ r ∈ c'.db.cache, validHash r.output = true)
    (counted : countedEdges c'.trace = countedEdges c.trace)
    (due : (dueEdges com c'.stack).Perm (dueEdges com c.stack))
    (subj : subject c'.stack = subject c.stack)
    (ok : ∀ s ∈ c'.stack, s.Ok H c'.db) (loops : ∀ s ∈ c'.stack.tail, s.isLoop = true) :
    Mid H com c' where
  grows := m.grows.trans (grows_of_same tasks deps serials)
  cache := cache
  waiting t ht := by rw [subj]; exact m.waiting t (tasks ▸ ht)
  output t ht := m.output t (tasks ▸ ht)
  columns t ht settled action := columns_same tasks deps (m.columns t (tasks ▸ ht) settled action)
  counts t ht := by rw [counted]; exact m.counts t (tasks ▸ ht)
  edges := by
    rw [counted, newEdges_same tasks]
    exact (List.Perm.append_left _ due).trans m.edges
  zero t ht := by rw [subj]; exact m.zero t (tasks ▸ ht)
  ok := ok
  loops := loops

/-! ### Statements that write one task -/

/-- A statement that writes the unfinished row `t` as `row`: what has to be said
about the new row, and about the edges. -/
theorem Mid.write {H : Sha256} {com : Db} {c : Cfg} {t row : TaskRow} {stack : List Stmt}
    {trace : List Event} (m : Mid H com c) (base : Consistent H com) (ht : t ∈ c.db.tasks)
    (fixed : row.fixed = t.fixed) (unfinished : t.state.finished = false)
    (waiting : row.state = .waiting ↔ 0 < row.pendingDeps ∨ subject stack = some t.slot)
    (others : ∀ s, s ≠ t.slot → subject stack ≠ some s ∧ subject c.stack ≠ some s)
    (output : row.state.finished = true → HasOutput row)
    (columns : row.state ≠ .waiting → row.kind ≠ COMPILE →
      Columns H (c.db.apply (.task row)) row)
    (count : row.pendingDeps + entering t.slot (countedEdges trace) =
      t.pendingDeps + entering t.slot (countedEdges c.trace))
    (otherCount : ∀ s, s ≠ t.slot →
      entering s (countedEdges trace) = entering s (countedEdges c.trace))
    (edges : (countedEdges trace ++ dueEdges com stack).Perm
      (newEdges com (c.db.apply (.task row))))
    (zero : subject stack = some t.slot → row.pendingDeps = 0)
    (ok : ∀ s ∈ stack, s.Ok H (c.db.apply (.task row)))
    (loops : ∀ s ∈ stack.tail, s.isLoop = true) :
    Mid H com ⟨c.db.apply (.task row), stack, trace⟩ := by
  have k := m.keyed base.keyed
  have g := Db.grows_apply_task k ht fixed unfinished
  have slot := slot_of_fixed fixed
  have rows := fun u => (Db.mem_apply_task ht fixed (u := u)).mp
  -- the other rows keep their slots apart from `t`'s
  have apart : ∀ u ∈ c.db.tasks, u.uid ≠ row.uid → u.slot ≠ t.slot := fun u hu other same =>
    other (by rw [k.slot_inj hu ht same, uid_of_fixed fixed])
  refine ⟨m.grows.trans g, m.cache, ?_, ?_, ?_, ?_, edges, ?_, ok, loops⟩
  · intro u hu
    rcases rows u hu with rfl | ⟨old, other⟩
    · rw [slot]; exact waiting
    · have := others u.slot (apart u old other)
      simpa [this.1, this.2] using m.waiting u old
  · intro u hu done
    rcases rows u hu with rfl | ⟨old, -⟩
    · exact output done
    · exact m.output u old done
  · intro u hu settled action
    rcases rows u hu with rfl | ⟨old, -⟩
    · exact columns settled action
    · exact (m.columns u old settled action).grow g k
        (m.ready base old (m.not_pending old settled))
  · intro u hu v hv same
    rcases rows u hu with here | ⟨old, other⟩
    · subst here
      have := m.counts t ht v hv ((uid_of_fixed fixed).symm.trans same)
      change u.pendingDeps + (entering u.slot (countedEdges trace) : Int) = v.pendingDeps
      rw [slot]
      omega
    · rw [otherCount u.slot (apart u old other)]
      exact m.counts u old v hv same
  · intro u hu subj
    rcases rows u hu with rfl | ⟨old, other⟩
    · exact zero (slot ▸ subj)
    · exact absurd subj (others u.slot (apart u old other)).1

/-! ### How writes move edges -/

/-- Filtering by one of two exclusive conditions. -/
theorem filter_or_perm {α : Type} (p q : α → Prop) [DecidablePred p] [DecidablePred q]
    (apart : ∀ a, p a → ¬ q a) (l : List α) :
    (l.filter fun a => p a ∨ q a).Perm (l.filter (fun a => q a) ++ l.filter (fun a => p a)) := by
  induction l with
  | nil => exact .nil
  | cons a l ih =>
    by_cases hp : p a
    · have hq := apart a hp
      simp only [List.filter_cons, hp, hq, true_or, decide_true, decide_false, if_true,
        Bool.false_eq_true, if_false]
      exact (ih.cons a).trans List.perm_middle.symm
    · by_cases hq : q a
      · simp only [List.filter_cons, hp, hq, or_true, decide_true, decide_false, if_true,
          Bool.false_eq_true, if_false, List.cons_append]
        exact ih.cons a
      · simpa [List.filter_cons, hp, hq] using ih

/-- Finishing a task makes its outgoing edges new. -/
theorem newEdges_finish {com db : Db} (g : Db.Grows com db) (k : db.Keyed) {t row : TaskRow}
    (ht : t ∈ db.tasks) (fixed : row.fixed = t.fixed) (unfinished : t.state.finished = false)
    (done : row.state.finished = true) :
    (newEdges com (db.apply (.task row))).Perm
      ((com.deps.filter fun d => d.source = t.slot).map TaskDep.primaryKey ++ newEdges com db) := by
  have before := Db.not_finished_of_row k ht unfinished
  have split : (com.deps.filter fun d =>
        (db.apply (.task row)).Finished d.source ∧ ¬ com.Finished d.source) =
      com.deps.filter fun d =>
        (db.Finished d.source ∧ ¬ com.Finished d.source) ∨ d.source = t.slot := by
    refine List.filter_congr fun d _ => ?_
    rw [decide_eq_decide, Db.finished_apply_task k ht fixed unfinished]
    constructor
    · rintro ⟨old | ⟨here, -⟩, fresh⟩
      · exact Or.inl ⟨old, fresh⟩
      · exact Or.inr here
    · rintro (⟨old, fresh⟩ | here)
      · exact ⟨Or.inl old, fresh⟩
      · exact ⟨Or.inr ⟨here, done⟩, fun already => before (here ▸ g.finished already)⟩
  rw [newEdges, split, newEdges, ← List.map_append]
  refine (filter_or_perm (fun d : TaskDep => db.Finished d.source ∧ ¬ com.Finished d.source)
    (fun d => d.source = t.slot) (fun d old here => ?_) com.deps).map _
  exact before (here ▸ old.1)

/-- A write that leaves the row unfinished makes no edge new. -/
theorem newEdges_unfinished {com db : Db} (k : db.Keyed) {t row : TaskRow} (ht : t ∈ db.tasks)
    (fixed : row.fixed = t.fixed) (unfinished : t.state.finished = false)
    (still : row.state.finished = false) :
    newEdges com (db.apply (.task row)) = newEdges com db := by
  unfold newEdges
  congr 1
  refine List.filter_congr fun d _ => ?_
  rw [decide_eq_decide, Db.finished_apply_task k ht fixed unfinished]
  simp [still]

/-- `dependents` finds one row for each outgoing edge. -/
theorem dependents_edges {db : Db} (k : db.Keyed) (l : db.Linked) (build id : Nat) :
    ((db.dependents build id).map fun t => (build, id, t.id)).Perm
      ((db.deps.filter fun d => d.source = (build, id)).map TaskDep.primaryKey) := by
  have outgoing : (db.deps.filter fun d => d.build = build && d.dep = id) =
      db.deps.filter fun d => d.source = (build, id) := by
    refine List.filter_congr fun d _ => ?_
    simp [TaskDep.source, Prod.ext_iff]
  rw [Db.dependents, outgoing, List.map_flatMap]
  refine List.Perm.trans ?_ ((List.perm_insertionSort (fun d e => d.task ≤ e.task) _).map _)
  rw [List.map_eq_flatMap]
  refine List.Perm.of_eq (List.flatMap_congr fun d hd => ?_)
  rw [List.mem_insertionSort, List.mem_filter, decide_eq_true_eq] at hd
  obtain ⟨t, ht, slot⟩ := l.target d hd.1
  rw [Db.filter_slot k ht slot, List.map_singleton]
  have dep : d.build = build ∧ d.dep = id := by simpa [TaskDep.source] using hd.2
  have task : t.id = d.task := congrArg Prod.snd slot
  simp [TaskDep.primaryKey, dep.1, dep.2, task]

theorem mem_dependents {db : Db} {build id : Nat} {t : TaskRow} (ht : t ∈ db.dependents build id) :
    t ∈ db.tasks ∧ t.buildId = build ∧ ∃ d ∈ db.deps, d.source = (build, id) ∧ t.slot = d.target := by
  obtain ⟨d, hd, found⟩ := List.mem_flatMap.mp ht
  rw [List.mem_insertionSort, List.mem_filter] at hd
  obtain ⟨member, outgoing⟩ := hd
  obtain ⟨hmem, row⟩ := List.mem_filter.mp found
  simp only [Bool.and_eq_true, decide_eq_true_eq] at outgoing row
  exact ⟨hmem, row.1.trans outgoing.1, d, member, by simp [TaskDep.source, outgoing],
    by simp [TaskRow.slot, TaskDep.target, row]⟩

/-! ### One statement -/

theorem subject_of_loops {stack : List Stmt} (loops : ∀ s ∈ stack, s.isLoop = true) :
    subject stack = none := by
  cases stack with
  | nil => rfl
  | cons s rest =>
    have := loops s (by simp)
    cases s <;> first | rfl | cases this

theorem dueEdges_cons (com : Db) (s : Stmt) (rest : List Stmt) :
    dueEdges com (s :: rest) = s.due com ++ dueEdges com rest := by
  simp [dueEdges]

theorem open_unfinished {s : TaskState} (h : s.open = true) : s.finished = false := by
  cases s <;> first | rfl | cases h

theorem open_not_waiting {s : TaskState} (h : s.open = true) : s ≠ .waiting := by
  rintro rfl
  cases h

theorem requeue_unfinished (o : Options) (attempts : Nat) :
    (requeue o attempts).finished = false := by
  unfold requeue; split <;> rfl

theorem requeue_not_waiting (o : Options) (attempts : Nat) : requeue o attempts ≠ .waiting := by
  unfold requeue; split <;> simp

namespace Mid

variable {H : Sha256} {com : Db} {c : Cfg} {s : Stmt} {rest : List Stmt}

theorem rest_loops (m : Mid H com c) (top : c.stack = s :: rest) :
    ∀ r ∈ rest, r.isLoop = true := fun r hr => m.loops r (by simpa [top] using hr)

/-- A statement at the top that does nothing is dropped. -/
theorem drop (m : Mid H com c) (top : c.stack = s :: rest) (due : s.due com = [])
    (subj : subject c.stack = none) : Mid H com ⟨c.db, rest, c.trace⟩ := by
  refine m.quiet rfl rfl rfl m.cache rfl ?_ ?_ (m.rest_ok top (.refl _)) fun r hr => ?_
  · rw [top, dueEdges_cons, due]; exact .refl _
  · rw [subj]; exact subject_of_loops (m.rest_loops top)
  · exact m.rest_loops top r (List.mem_of_mem_tail hr)

/-- A row that stays unfinished and keeps its counter: `retry` and `fail`. -/
theorem rewrite (m : Mid H com c) (base : Consistent H com) (top : c.stack = s :: rest)
    (due : s.due com = []) (subj : subject c.stack = none) {t row : TaskRow} (ht : t ∈ c.db.tasks)
    (fixed : row.fixed = t.fixed) (wasOpen : t.state.open = true)
    (still : row.state.finished = false) (settled : row.state ≠ .waiting)
    (counter : row.pendingDeps = t.pendingDeps) (key : row.key = t.key)
    (inputs : row.inputs = t.inputs) (names : row.inputNames = t.inputNames) (next : List Stmt)
    (next_due : dueEdges com next = []) (next_subj : subject (next ++ rest) = none)
    (next_ok : ∀ r ∈ next, r.Ok H (c.db.apply (.task row))) (next_loops : next.tail = []) :
    Mid H com ⟨c.db.apply (.task row), next ++ rest, c.trace⟩ := by
  have k := m.keyed base.keyed
  have unfinished := open_unfinished wasOpen
  have g := Db.grows_apply_task k ht fixed unfinished
  have quiet := m.not_pending ht (open_not_waiting wasOpen)
  refine m.write base ht fixed unfinished ?_ (fun s _ => ?_) (fun done => ?_) (fun _ action => ?_) ?_
    (fun _ _ => rfl) ?_ (fun h => ?_) (fun r hr => ?_) (fun r hr => ?_)
  · rw [next_subj, counter]
    simp [settled, quiet]
  · rw [next_subj, subj]
    simp
  · rw [still] at done
    cases done
  · have cols := (m.columns t ht (open_not_waiting wasOpen) (kind_of_fixed fixed ▸ action)).grow g k
      (m.ready base ht quiet)
    have slot := slot_of_fixed fixed
    constructor
    · rw [key, keyOf_of_fixed fixed]; exact cols.key
    · intro _; rw [inputs, slot]; exact cols.inputs wasOpen
    · intro _; rw [names, slot]; exact cols.names wasOpen
  · rw [counter]
  · rw [newEdges_unfinished k ht fixed unfinished still]
    have edges := m.edges
    rw [top, dueEdges_cons, due, List.nil_append] at edges
    rw [dueEdges, List.flatMap_append]
    change (countedEdges c.trace ++ (dueEdges com next ++ dueEdges com rest)).Perm _
    rw [next_due]
    exact edges
  · rw [next_subj] at h
    cases h
  · rcases List.mem_append.mp hr with new | old
    · exact next_ok r new
    · exact m.rest_ok top g r old
  · cases next with
    | nil => exact m.rest_loops top r (List.mem_of_mem_tail hr)
    | cons n ns =>
      rw [List.tail_cons] at next_loops
      subst next_loops
      exact m.rest_loops top r hr

/-- A row that becomes finished: `complete` and `mark_cached`. The next statement
owes the edges leaving the task. -/
theorem finish (m : Mid H com c) (base : Consistent H com) (top : c.stack = s :: rest)
    (due : s.due com = []) {t row : TaskRow} (ht : t ∈ c.db.tasks)
    (subj : ∀ slot, subject c.stack = some slot → slot = t.slot) (fixed : row.fixed = t.fixed)
    (unfinished : t.state.finished = false) (done : row.state.finished = true)
    (counter : row.pendingDeps = t.pendingDeps) (quiet : ¬ 0 < t.pendingDeps)
    (output : HasOutput row) (columns : row.kind ≠ COMPILE → row.key = some (c.db.keyOf H t))
    {next : Stmt} (next_due : next.due com =
      (com.deps.filter fun d => d.source = t.slot).map TaskDep.primaryKey)
    (next_subj : subject (next :: rest) = none) (next_ok : next.Ok H (c.db.apply (.task row))) :
    Mid H com ⟨c.db.apply (.task row), next :: rest, c.trace⟩ := by
  have k := m.keyed base.keyed
  have g := Db.grows_apply_task k ht fixed unfinished
  have settled : row.state ≠ .waiting := fun h => by rw [h] at done; cases done
  have closed : row.state.open = false := by
    cases h : row.state <;> first | rfl | simp [h, TaskState.finished] at done
  refine m.write base ht fixed unfinished ?_ (fun s other => ?_) (fun _ => output)
    (fun _ action => ?_) ?_ (fun _ _ => rfl) ?_ (fun h => ?_) (fun r hr => ?_) (m.rest_loops top)
  · rw [next_subj, counter]
    simp [settled, quiet]
  · rw [next_subj]
    exact ⟨by simp, fun h => other (subj s h)⟩
  · have sameKey : (c.db.apply (.task row)).keyOf H row = c.db.keyOf H t := by
      rw [← keyOf_grow g k (m.ready base ht quiet), keyOf_of_fixed fixed]
    refine ⟨by rw [sameKey]; exact columns action, fun h => ?_, fun h => ?_⟩
    · rw [closed] at h; cases h
    · rw [closed] at h; cases h
  · rw [counter]
  · refine List.Perm.trans ?_ (newEdges_finish m.grows k ht fixed unfinished done).symm
    have edges := m.edges
    rw [top, dueEdges_cons, due, List.nil_append] at edges
    rw [dueEdges_cons, next_due]
    exact (List.perm_append_comm_assoc _ _ _).trans (edges.append_left _)
  · rw [next_subj] at h
    cases h
  · rcases List.mem_cons.mp hr with rfl | old
    · exact next_ok
    · exact m.rest_ok top g r old

/-- The edge a `count_down` is about to count is due, so its task waits. -/
theorem countDown_due (m : Mid H com c) (base : Consistent H com) {build id uid : Nat}
    (top : c.stack = .countDown build id uid :: rest) {t : TaskRow} (ht : t ∈ c.db.tasks)
    (uid_eq : t.uid = uid) (build_eq : t.buildId = build) :
    (Stmt.countDown build id uid).due com = [(build, id, t.id)] ∧ 0 < t.pendingDeps := by
  subst uid_eq build_eq
  obtain ⟨u, hu, same⟩ := Db.mem_of_fixed m.grows.fixed.symm ht
  have found : com.task? t.uid = some u :=
    (Db.task?_eq_some base.keyed).mpr ⟨hu, uid_of_fixed same⟩
  have task : u.id = t.id := id_of_fixed same
  have due : (Stmt.countDown t.buildId id t.uid).due com = [(t.buildId, id, t.id)] := by
    simp [Stmt.due, found, task]
  refine ⟨due, ?_⟩
  have := m.pending base ht
  rw [top, dueEdges_cons, due, entering_append] at this
  simp only [entering, List.countP_singleton, TaskRow.slot, decide_true, if_true] at this
  omega

/-- `count_down`: the edge moves from due to counted. A counter that reaches zero
hands its task to `make_ready`. -/
theorem countDown (m : Mid H com c) (base : Consistent H com) {build id uid : Nat}
    (top : c.stack = .countDown build id uid :: rest) {t : TaskRow} (ht : t ∈ c.db.tasks)
    (uid_eq : t.uid = uid) (build_eq : t.buildId = build) :
    Mid H com ⟨c.db.apply (.task { t with pendingDeps := t.pendingDeps - 1 }),
      (if t.pendingDeps - 1 = 0 then makeReady build t.id else []) ++ rest,
      c.trace ++ [.counted build id t.id (t.pendingDeps - 1)]⟩ := by
  obtain ⟨due, positive⟩ := m.countDown_due base top ht uid_eq build_eq
  subst uid_eq build_eq
  have k := m.keyed base.keyed
  have fixed : ({ t with pendingDeps := t.pendingDeps - 1 } : TaskRow).fixed = t.fixed := rfl
  obtain ⟨u, hu, same⟩ := Db.mem_of_fixed m.grows.fixed.symm ht
  have subj : subject c.stack = none := by rw [top]; rfl
  have waits : t.state = .waiting := (m.waiting t ht).mpr (Or.inl positive)
  have unfinished : t.state.finished = false := by rw [waits]; rfl
  -- the edge comes from a task that was not finished before, so the task is no compile
  have action : t.kind ≠ COMPILE := by
    have edge : (t.buildId, id, t.id) ∈ newEdges com c.db :=
      m.edges.mem_iff.mp (List.mem_append_right _ (by simp [top, dueEdges_cons, due]))
    obtain ⟨d, hd, same'⟩ := List.mem_map.mp edge
    have target : u.slot = d.target := by
      simp only [TaskDep.primaryKey, Prod.mk.injEq] at same'
      rw [slot_of_fixed same]
      simp [TaskRow.slot, TaskDep.target, same']
    obtain ⟨hd, fresh⟩ := List.mem_filter.mp hd
    rw [decide_eq_true_eq] at fresh
    rw [← kind_of_fixed same]
    exact base.shape d hd fresh.2 u hu target
  have g := Db.grows_apply_task k ht fixed unfinished
  have counted : countedEdges (c.trace ++ [.counted t.buildId id t.id (t.pendingDeps - 1)]) =
      countedEdges c.trace ++ [(t.buildId, id, t.id)] := by
    simp [countedEdges]
  have subj' : subject ((if t.pendingDeps - 1 = 0 then makeReady t.buildId t.id else []) ++ rest) =
      if t.pendingDeps - 1 = 0 then some t.slot else none := by
    split
    · rfl
    · exact subject_of_loops (m.rest_loops top)
  have due' : dueEdges com ((if t.pendingDeps - 1 = 0 then makeReady t.buildId t.id else []) ++ rest)
      = dueEdges com rest := by
    split
    · rfl
    · rfl
  refine m.write base ht fixed unfinished ?_ (fun s other => ?_) (fun done => ?_)
    (fun settled => absurd waits settled) ?_ (fun s other => ?_) ?_ (fun h => ?_) (fun r hr => ?_)
    (fun r hr => ?_)
  · rw [subj']
    simp only [waits, true_iff]
    by_cases last : t.pendingDeps - 1 = 0
    · simp [last]
    · left; omega
  · rw [subj, subj']
    refine ⟨?_, by simp⟩
    split
    · simpa using Ne.symm other
    · simp
  · rw [unfinished] at done
    cases done
  · rw [counted, entering_append]
    simp only [entering, TaskRow.slot, List.countP_singleton, decide_true, if_true, Int.natCast_add, Int.cast_ofNat_Int]
    omega
  · rw [counted, entering_append]
    simp [entering]
    exact fun h => absurd (by simp [TaskRow.slot, h]) (Ne.symm other)
  · rw [counted, due', newEdges_unfinished k ht fixed unfinished unfinished, List.append_assoc]
    have edges := m.edges
    rw [top, dueEdges_cons, due] at edges
    exact edges
  · rw [subj'] at h
    split at h
    · assumption
    · cases h
  · rcases List.mem_append.mp hr with new | old
    · split at new
      · obtain rfl := List.mem_singleton.mp new
        exact ⟨_, (Db.mem_apply_task ht fixed).mpr (Or.inl rfl), rfl, action⟩
      · cases new
    · exact m.rest_ok top g r old
  · split at hr
    · exact m.rest_loops top r hr
    · exact m.rest_loops top r (List.mem_of_mem_tail hr)

/-- `mark_ready`: the task being made ready gets its columns. -/
theorem markReady (m : Mid H com c) (base : Consistent H com) {build id : Nat} {key : Str}
    {names digests : List Str} (top : c.stack = .markReady build id key names digests :: rest)
    {t : TaskRow} (ht : t ∈ c.db.tasks) (slot : t.slot = (build, id)) :
    Mid H com ⟨c.db.apply (.task { t with state := .ready, key := some key,
                                          inputs := some (joinLines digests),
                                          inputNames := some (joinLines names) }),
      rest, c.trace⟩ := by
  have k := m.keyed base.keyed
  have subj : subject c.stack = some t.slot := by rw [top, slot]; rfl
  have zero := m.zero t ht subj
  have waits : t.state = .waiting := (m.waiting t ht).mpr (Or.inr subj)
  have unfinished : t.state.finished = false := by rw [waits]; rfl
  obtain ⟨names_eq, digests_eq, u, hu, uslot, action, key_eq⟩ :=
    m.ok (.markReady build id key names digests) (by simp [top])
  obtain rfl := k.slot_inj hu ht (uslot.trans slot.symm)
  have fixed : ({ u with state := .ready, key := some key, inputs := some (joinLines digests),
                         inputNames := some (joinLines names) } : TaskRow).fixed = u.fixed := by
    simp [TaskRow.fixed, action, TaskRow.slot]
  have g := Db.grows_apply_task k ht fixed unfinished
  have ready := m.ready base ht (by omega)
  have rest_subj := subject_of_loops (m.rest_loops top)
  rw [← slot] at names_eq digests_eq
  refine m.write base ht fixed unfinished ?_ (fun s other => ?_) (fun done => ?_)
    (fun _ _ => ?_) rfl (fun _ _ => rfl) ?_ (fun h => ?_) (m.rest_ok top g)
    fun r hr => m.rest_loops top r (List.mem_of_mem_tail hr)
  · rw [rest_subj]
    simp [zero]
  · rw [rest_subj, subj]
    exact ⟨by simp, by simpa using Ne.symm other⟩
  · cases done
  · refine ⟨?_, fun _ => Or.inl ?_, fun _ => Or.inl ?_⟩
    · rw [keyOf_of_fixed fixed, keyOf_grow g k ready, key_eq]
    · rw [slot_of_fixed fixed, inputDigests_grow g k ready, ← digests_eq]
    · rw [slot_of_fixed fixed, inputNames_grow g k ready, ← names_eq]
  · rw [newEdges_unfinished k ht fixed unfinished rfl]
    have edges := m.edges
    rw [top, dueEdges_cons] at edges
    exact edges
  · rw [rest_subj] at h
    cases h

end Mid

/-! ### Any statement -/

theorem Db.apply_cache_tasks (db : Db) (row : CacheRow) : (db.apply (.cache row)).tasks = db.tasks := by
  simp only [Db.apply]; split <;> rfl

theorem Db.apply_cache_deps (db : Db) (row : CacheRow) : (db.apply (.cache row)).deps = db.deps := by
  simp only [Db.apply]; split <;> rfl

theorem Db.apply_cache_serials (db : Db) (row : CacheRow) :
    (db.apply (.cache row)).serials = db.serials := by
  simp only [Db.apply]; split <;> rfl

theorem Db.mem_apply_cache {db : Db} {row r : CacheRow} (hr : r ∈ (db.apply (.cache row)).cache) :
    r = row ∨ r ∈ db.cache := by
  simp only [Db.apply] at hr
  split at hr
  · obtain ⟨old, hold, rfl⟩ := List.mem_map.mp hr
    split
    · exact Or.inl rfl
    · exact Or.inr hold
  · rcases List.mem_append.mp hr with old | new
    · exact Or.inr old
    · exact Or.inl (List.mem_singleton.mp new)

/-- An outcome that writes no task, and into the cache only what is valid. -/
structure Outcome.Quiet (out : Outcome) : Prop where
  task : ∀ row, out.write ≠ some (.task row)
  cache : ∀ row, out.write = some (.cache row) → validHash row.output = true

theorem Outcome.Quiet.tasks {out : Outcome} (q : out.Quiet) (db : Db) :
    (out.db db).tasks = db.tasks := by
  obtain ⟨write, next, event⟩ := out
  rcases write with _ | row | row | row
  · rfl
  · exact absurd rfl (q.task row)
  · rfl
  · exact db.apply_cache_tasks row

theorem Outcome.Quiet.deps {out : Outcome} (q : out.Quiet) (db : Db) :
    (out.db db).deps = db.deps := by
  obtain ⟨write, next, event⟩ := out
  rcases write with _ | row | row | row
  · rfl
  · exact absurd rfl (q.task row)
  · rfl
  · exact db.apply_cache_deps row

theorem Outcome.Quiet.serials {out : Outcome} (q : out.Quiet) (db : Db) :
    (out.db db).serials = db.serials := by
  obtain ⟨write, next, event⟩ := out
  rcases write with _ | row | row | row
  · rfl
  · exact absurd rfl (q.task row)
  · rfl
  · exact db.apply_cache_serials row

theorem Outcome.Quiet.valid {out : Outcome} (q : out.Quiet) {db : Db}
    (valid : ∀ r ∈ db.cache, validHash r.output = true) :
    ∀ r ∈ (out.db db).cache, validHash r.output = true := by
  obtain ⟨write, next, event⟩ := out
  rcases write with _ | row | row | row
  · exact valid
  · exact absurd rfl (q.task row)
  · exact valid
  · intro r hr
    rcases Db.mem_apply_cache hr with rfl | old
    · exact q.cache r rfl
    · exact valid r old

namespace Mid

variable {H : Sha256} {com : Db} {c : Cfg} {s : Stmt} {rest : List Stmt}

/-- A quiet statement, replaced on the stack by what it issues next. -/
theorem replace (m : Mid H com c) (top : c.stack = s :: rest) {out : Outcome} (q : out.Quiet)
    (event : countedEdges out.event.toList = [])
    (due : (dueEdges com out.next).Perm (s.due com))
    (subj : subject (out.next ++ rest) = subject c.stack)
    (ok : ∀ r ∈ out.next, r.Ok H (out.db c.db))
    (loops : ∀ r ∈ out.next.tail, r.isLoop = true) : Mid H com (c.after out rest) := by
  have g := grows_of_same (q.tasks c.db) (q.deps c.db) (q.serials c.db)
  refine m.quiet (q.tasks _) (q.deps _) (q.serials _) (q.valid m.cache) ?_ ?_ subj (fun r hr => ?_) fun r hr => ?_
  · change countedEdges (c.trace ++ out.event.toList) = _
    rw [countedEdges, List.filterMap_append]
    exact (congrArg _ event).trans (List.append_nil _)
  · change (dueEdges com (out.next ++ rest)).Perm _
    rw [top, dueEdges_cons, dueEdges, List.flatMap_append]
    exact due.append_right _
  · rcases List.mem_append.mp hr with new | old
    · exact ok r new
    · exact m.rest_ok top g r old
  · change r ∈ (out.next ++ rest).tail at hr
    cases next : out.next with
    | nil => exact m.rest_loops top r (List.mem_of_mem_tail (by simpa [next] using hr))
    | cons n ns =>
      rw [next, List.cons_append, List.tail_cons] at hr
      rcases List.mem_append.mp hr with new | old
      · exact loops r (by simpa [next] using new)
      · exact m.rest_loops top r old

/-- A statement whose `WHERE` finds nothing. -/
theorem idle (m : Mid H com c) (top : c.stack = s :: rest) (due : s.due com = [])
    (subj : subject c.stack = none) : Mid H com (c.after {} rest) := by
  have := m.drop top due subj
  simpa [Cfg.after, Outcome.db] using this

theorem complete (m : Mid H com c) (base : Consistent H com) (o : Options) {r : TaskResult}
    {size : Int} (top : c.stack = .complete r size :: rest) :
    Mid H com (c.after (exec H o c.db (.complete r size)) rest) := by
  have k := m.keyed base.keyed
  have subj : subject c.stack = none := by rw [top]; rfl
  simp only [exec]
  split
  · rename_i t found
    obtain ⟨ht, -⟩ := (Db.task?_eq_some k).mp found
    split
    · rename_i wasOpen
      have settled := open_not_waiting wasOpen
      have := m.finish base top rfl ht (by simp [subj])
        (rfl : ({ t with state := .done, output := some r.output, execMs := some r.execMs,
                         leaseOwner := some r.worker } : TaskRow).fixed = t.fixed)
        (open_unfinished wasOpen) rfl rfl (m.not_pending ht settled)
        ⟨r.output, rfl, m.ok (.complete r size) (by simp [top])⟩
        (fun action => (m.columns t ht settled action).key)
        (rfl : (Stmt.cachePut t.buildId t.id (t.key.getD []) r.output size).due com = _) rfl
        (m.ok (.complete r size) (by simp [top]))
      simpa [Cfg.after, Outcome.db] using this
    · exact m.idle top rfl subj
  · exact m.idle top rfl subj

theorem retry (m : Mid H com c) (base : Consistent H com) (o : Options) {r : TaskResult}
    {now : Int} (top : c.stack = .retry r now :: rest) :
    Mid H com (c.after (exec H o c.db (.retry r now)) rest) := by
  have k := m.keyed base.keyed
  have subj : subject c.stack = none := by rw [top]; rfl
  simp only [exec]
  split
  · rename_i t found
    obtain ⟨ht, -⟩ := (Db.task?_eq_some k).mp found
    split
    · rename_i running
      have this := m.rewrite base top rfl subj ht
        (rfl : ({ t with state := requeue o t.attempts, leaseOwner := none,
                         lastFailedBy := t.leaseOwner, readyAt := some now,
                         log := some r.log } : TaskRow).fixed = t.fixed)
        (by rw [running.1]; rfl) (requeue_unfinished o _) (requeue_not_waiting o _) rfl rfl rfl rfl
        (if requeue o t.attempts = .failed then maybeFinish t.buildId else [])
        (by split <;> rfl) ?_ (fun n hn => ?_) (by split <;> rfl)
      · simpa [Cfg.after, Outcome.db] using this
      · split
        · rfl
        · exact subject_of_loops (m.rest_loops top)
      · split at hn
        · obtain rfl := List.mem_singleton.mp hn
          trivial
        · cases hn
    · exact m.idle top rfl subj
  · exact m.idle top rfl subj

theorem fail (m : Mid H com c) (base : Consistent H com) (o : Options) {r : TaskResult}
    (top : c.stack = .fail r :: rest) :
    Mid H com (c.after (exec H o c.db (.fail r)) rest) := by
  have k := m.keyed base.keyed
  have subj : subject c.stack = none := by rw [top]; rfl
  simp only [exec]
  split
  · rename_i t found
    obtain ⟨ht, -⟩ := (Db.task?_eq_some k).mp found
    split
    · rename_i wasOpen
      have this := m.rewrite base top rfl subj ht
        (rfl : ({ t with state := .failed, log := some r.log,
                         execMs := some r.execMs } : TaskRow).fixed = t.fixed)
        wasOpen rfl (by simp) rfl rfl rfl rfl (maybeFinish t.buildId)
        rfl rfl (fun n hn => ?_) rfl
      · simpa [Cfg.after, Outcome.db] using this
      · obtain rfl := List.mem_singleton.mp hn
        trivial
    · exact m.idle top rfl subj
  · exact m.idle top rfl subj

/-- `dependents`: its loop owes exactly the outgoing edges. -/
theorem dependents (m : Mid H com c) (base : Consistent H com) (o : Options) {build id : Nat}
    (top : c.stack = .dependents build id :: rest) :
    Mid H com (c.after (exec H o c.db (.dependents build id)) rest) := by
  have k := m.keyed base.keyed
  have l := m.grows.linked base.linked
  have due : dueEdges com (exec H o c.db (.dependents build id)).next =
      (c.db.dependents build id).map fun t => (build, id, t.id) := by
    have locks : (((c.db.dependents build id).map fun t => Stmt.lockRow t.uid).flatMap
        (Stmt.due com)) = [] := by
      simp [List.flatMap_eq_nil_iff, Stmt.due]
    have last : (if (c.db.dependents build id).isEmpty then maybeFinish build else []).flatMap
        (Stmt.due com) = [] := by
      split <;> rfl
    simp only [exec, dueEdges, List.flatMap_append, locks, last, List.nil_append, List.append_nil]
    rw [List.flatMap_map, List.map_eq_flatMap]
    refine List.flatMap_congr fun t ht => ?_
    obtain ⟨u, hu, same⟩ := Db.mem_of_fixed m.grows.fixed.symm (mem_dependents ht).1
    have found : com.task? t.uid = some u :=
      (Db.task?_eq_some base.keyed).mpr ⟨hu, uid_of_fixed same⟩
    have task : u.id = t.id := id_of_fixed same
    simp [Stmt.due, found, task]
  have loop : (c.db.dependents build id).isEmpty = false →
      ∀ r ∈ (exec H o c.db (.dependents build id)).next, r.isLoop = true := by
    intro some_ r hr
    rcases mem_next_dependents hr with ⟨t, -, rfl | rfl⟩ | ⟨empty, -⟩
    · rfl
    · rfl
    · simp [empty] at some_
  have none_ : (c.db.dependents build id).isEmpty = true →
      (exec H o c.db (.dependents build id)).next = maybeFinish build := by
    intro empty
    simp [exec, List.isEmpty_iff.mp empty]
  refine m.replace top ⟨by simp [exec], by simp [exec]⟩ rfl ?_ ?_ (fun r hr => ?_) fun r hr => ?_
  · rw [due]
    refine (dependents_edges k l build id).trans (.of_eq ?_)
    rw [m.grows.deps]
    rfl
  · rw [top]
    cases empty : (c.db.dependents build id).isEmpty with
    | true => rw [none_ empty]; rfl
    | false =>
      exact subject_of_loops fun r hr => (List.mem_append.mp hr).elim (loop empty r)
        (m.rest_loops top r)
  · change r.Ok H c.db
    rcases mem_next_dependents hr with ⟨t, ht, rfl | rfl⟩ | ⟨-, rfl⟩
    · trivial
    · obtain ⟨member, build_eq, -⟩ := mem_dependents ht
      exact ⟨t, member, rfl, build_eq⟩
    · trivial
  · cases empty : (c.db.dependents build id).isEmpty with
    | true => rw [none_ empty] at hr; cases hr
    | false => exact loop empty r (List.mem_of_mem_tail hr)

theorem cacheHit (m : Mid H com c) (o : Options) {build id : Nat} {key : Str}
    {names digests : List Str} (top : c.stack = .cacheHit build id key names digests :: rest) :
    Mid H com (c.after (exec H o c.db (.cacheHit build id key names digests)) rest) := by
  have ok := m.ok (.cacheHit build id key names digests) (by simp [top])
  simp only [exec]
  split
  · rename_i row found
    have valid := m.cache row (List.mem_of_find?_eq_some found)
    have q : (Outcome.mk (some (.cache { row with hits := row.hits + 1 }))
        [.markCached build id key row.output] none).Quiet :=
      ⟨by simp, fun r hr => by cases hr; exact valid⟩
    refine m.replace top q rfl (.refl _) (by rw [top]; rfl) (fun r hr => ?_) (by simp)
    obtain rfl := List.mem_singleton.mp hr
    obtain ⟨-, -, t, ht, slot, action, key_eq⟩ := ok
    refine ⟨valid, t, (q.tasks c.db) ▸ ht, slot, action, key_eq.trans ?_⟩
    rw [Db.keyOf, Db.keyOf, Db.inputNames, Db.inputNames, Db.inputDigests, Db.inputDigests,
      inputsOf_same (q.tasks c.db) (q.deps c.db)]
  · refine m.replace top ⟨by simp, by simp⟩ rfl (.refl _) (by rw [top]; rfl) (fun r hr => ?_) (by simp)
    obtain rfl := List.mem_singleton.mp hr
    exact ok

theorem markCached (m : Mid H com c) (base : Consistent H com) (o : Options) {build id : Nat}
    {key output : Str} (top : c.stack = .markCached build id key output :: rest) :
    Mid H com (c.after (exec H o c.db (.markCached build id key output)) rest) := by
  have k := m.keyed base.keyed
  obtain ⟨valid, t, ht, slot, action, key_eq⟩ :=
    m.ok (.markCached build id key output) (by simp [top])
  have subj : subject c.stack = some t.slot := by rw [top, slot]; rfl
  have waits : t.state = .waiting := (m.waiting t ht).mpr (Or.inr subj)
  have zero := m.zero t ht subj
  have fixed : ({ t with state := .cached, key := some key,
                         output := some output } : TaskRow).fixed = t.fixed := by
    simp [TaskRow.fixed, action, TaskRow.slot]
  have next_due : (Stmt.dependents build id).due com =
      (com.deps.filter fun d => d.source = t.slot).map TaskDep.primaryKey := by
    rw [slot]; rfl
  have this := m.finish base top rfl ht (by simp [subj]) fixed (by rw [waits]; rfl) rfl rfl
    (by omega) ⟨output, rfl, valid⟩ (fun _ => congrArg some key_eq) next_due rfl trivial
  simp only [exec, (Db.taskAt?_eq_some k).mpr ⟨ht, slot⟩]
  simpa [Cfg.after, Outcome.db, finished] using this

/-- Every statement keeps the invariant. -/
theorem exec (m : Mid H com c) (base : Consistent H com) (o : Options) (top : c.stack = s :: rest) :
    Mid H com (c.after (exec H o c.db s) rest) := by
  have k := m.keyed base.keyed
  have ok := m.ok s (by simp [top])
  cases s with
  | complete r size => exact m.complete base o top
  | cachePut build id key output size =>
    refine m.replace top ⟨fun row => ?_, fun row hr => ?_⟩ rfl (.of_eq (List.append_nil _))
      (by rw [top]; rfl) (by simp [DistCompile.exec, finished, Stmt.Ok])
      (by simp [DistCompile.exec, finished])
    · simp only [DistCompile.exec]
      split <;> simp
    · simp only [DistCompile.exec] at hr
      split at hr
      · cases hr
      · cases hr
        exact ok
  | retry r now => exact m.retry base o top
  | fail r => exact m.fail base o top
  | dependents build id => exact m.dependents base o top
  | lockRow uid => exact m.idle top rfl (by rw [top]; rfl)
  | countDown build id uid =>
    obtain ⟨t, ht, uid_eq, build_eq⟩ := ok
    have := m.countDown base top ht uid_eq build_eq
    simpa [DistCompile.exec, (Db.task?_eq_some k).mpr ⟨ht, uid_eq⟩, Cfg.after, Outcome.db] using this
  | taskInfo build id =>
    obtain ⟨t, ht, slot, action⟩ := ok
    simp only [DistCompile.exec, (Db.taskAt?_eq_some k).mpr ⟨ht, slot⟩]
    refine m.replace top ⟨by simp, by simp⟩ rfl (.refl _) (by rw [top]; rfl) (fun r hr => ?_) (by simp)
    obtain rfl := List.mem_singleton.mp hr
    exact ⟨t, ht, slot, action, rfl, rfl, rfl⟩
  | depOutputs build id kind args toolchain =>
    obtain ⟨t, ht, slot, action, rfl, rfl, rfl⟩ := ok
    refine m.replace top ⟨by simp [DistCompile.exec], by simp [DistCompile.exec]⟩ rfl (.refl _)
      (by rw [top]; rfl) (fun r hr => ?_) (by simp [DistCompile.exec])
    obtain rfl := List.mem_singleton.mp hr
    exact ⟨rfl, rfl, t, ht, slot, action, by rw [Db.keyOf, slot]; rfl⟩
  | cacheHit build id key names digests => exact m.cacheHit o top
  | markCached build id key output => exact m.markCached base o top
  | markReady build id key names digests =>
    obtain ⟨-, -, t, ht, slot, -, -⟩ := ok
    have := m.markReady base top ht slot
    simpa [DistCompile.exec, (Db.taskAt?_eq_some k).mpr ⟨ht, slot⟩, Cfg.after, Outcome.db] using this
  | progress build =>
    refine m.replace top ⟨by simp [DistCompile.exec], by simp [DistCompile.exec]⟩ rfl ?_ ?_
      (fun r hr => ?_) ?_
    · simp only [DistCompile.exec]
      split_ifs <;> exact .refl _
    · rw [top]
      simp only [DistCompile.exec]
      split_ifs
      · rfl
      · rfl
      · exact subject_of_loops (m.rest_loops top)
    · simp only [DistCompile.exec] at hr
      split_ifs at hr
      · obtain rfl := List.mem_singleton.mp hr; trivial
      · obtain rfl := List.mem_singleton.mp hr; trivial
      · cases hr
    · simp only [DistCompile.exec]
      split_ifs <;> simp
  | buildFailed build | buildDone build =>
    simp only [DistCompile.exec]
    split
    · split
      · exact m.replace top ⟨by simp, by simp⟩ rfl (.refl _)
          (by rw [top]; exact subject_of_loops (m.rest_loops top)) (by simp) (by simp)
      · exact m.idle top rfl (by rw [top]; rfl)
    · exact m.idle top rfl (by rw [top]; rfl)

/-- The row a statement rewrites: ready, running or waiting before. A row becomes
finished only in front of the statement that looks for its dependents. -/
theorem written (m : Mid H com c) (base : Consistent H com) (o : Options) (top : c.stack = s :: rest)
    {row : TaskRow} (wrote : (DistCompile.exec H o c.db s).write = some (.task row)) :
    ∃ t ∈ c.db.tasks, row.fixed = t.fixed ∧ (t.state.open = true ∨ t.state = .waiting) ∧
      (row.state.finished = true →
        (∃ key output size, (DistCompile.exec H o c.db s).next =
          [.cachePut t.buildId t.id key output size]) ∨
        (DistCompile.exec H o c.db s).next = [.dependents t.buildId t.id]) := by
  have k := m.keyed base.keyed
  have ok := m.ok s (by simp [top])
  obtain ⟨t, ht, next, follows, rewrites⟩ := exec_rewrites wrote
  rw [follows]
  cases rewrites with
  | complete found isOpen => exact ⟨t, ht, rfl, Or.inl isOpen, fun _ => Or.inl ⟨_, _, _, rfl⟩⟩
  | retry found running attempt =>
    refine ⟨t, ht, rfl, Or.inl (by rw [running]; rfl), fun done => ?_⟩
    rw [requeue_unfinished] at done
    cases done
  | fail found isOpen => exact ⟨t, ht, rfl, Or.inl isOpen, fun done => by cases done⟩
  | countDown =>
    obtain ⟨u, hu, uid_eq, build_eq⟩ := ok
    obtain rfl := k.uid_inj hu ht uid_eq
    have waits := (m.waiting u ht).mpr (Or.inl (m.countDown_due base top ht uid_eq build_eq).2)
    refine ⟨u, ht, rfl, Or.inr waits, fun done => ?_⟩
    rw [waits] at done
    cases done
  | markCached =>
    obtain ⟨-, u, hu, slot, action, -⟩ := ok
    obtain rfl := k.slot_inj hu ht slot
    have waits := (m.waiting u ht).mpr (Or.inr (by rw [top]; rfl))
    exact ⟨u, ht, by simp [TaskRow.fixed, action, TaskRow.slot], Or.inr waits, fun _ => Or.inr rfl⟩
  | markReady =>
    obtain ⟨-, -, u, hu, slot, action, -⟩ := ok
    obtain rfl := k.slot_inj hu ht slot
    have waits := (m.waiting u ht).mpr (Or.inr (by rw [top]; rfl))
    exact ⟨u, ht, by simp [TaskRow.fixed, action, TaskRow.slot], Or.inr waits, fun done => by cases done⟩

/-- One statement on its own view. -/
theorem exec_grows (m : Mid H com c) (base : Consistent H com) (o : Options)
    (top : c.stack = s :: rest) :
    Db.Grows c.db ((DistCompile.exec H o c.db s).db c.db) := by
  rcases write : (DistCompile.exec H o c.db s).write with _ | row | row | row
  · rw [Outcome.db, write]
    exact .refl _
  · rw [Outcome.db, write]
    obtain ⟨t, ht, fixed, before, -⟩ := m.written base o top write
    refine Db.grows_apply_task (m.keyed base.keyed) ht fixed ?_
    rcases before with wasOpen | waits
    · exact open_unfinished wasOpen
    · rw [waits]; rfl
  · rw [Outcome.db, write]
    exact grows_of_same rfl rfl rfl
  · rw [Outcome.db, write]
    exact grows_of_same (c.db.apply_cache_tasks row) (c.db.apply_cache_deps row)
      (c.db.apply_cache_serials row)

end Mid

/-! ### A whole transaction -/

/-- A transaction that starts with one statement owing nothing. -/
theorem Mid.start {H : Sha256} {com : Db} (base : Consistent H com) {s : Stmt} (ok : s.Ok H com)
    (due : s.due com = []) (subj : subject [s] = none) : Mid H com ⟨com, [s], []⟩ where
  grows := .refl com
  cache := base.cache
  waiting t ht := by rw [subj]; simpa using base.waiting t ht
  output := base.output
  columns := base.columns
  counts t ht u hu same := by
    rw [base.keyed.uid_inj ht hu same]
    simp [countedEdges, entering]
  edges := by
    have none_new : newEdges com com = [] := by
      simp [newEdges]
    simp [none_new, countedEdges, due, dueEdges]
  zero t _ h := by rw [subj] at h; cases h
  ok := by simpa using ok
  loops := by simp

/-- A transaction that has issued all its statements. -/
theorem Mid.done {H : Sha256} {com : Db} {c : Cfg} (m : Mid H com c) (base : Consistent H com)
    (empty : c.stack = []) : Consistent H c.db where
  keyed := m.keyed base.keyed
  fresh := m.grows.fresh base.fresh
  linked := m.grows.linked base.linked
  edges := m.grows.deps ▸ base.edges
  shape d hd unfinished t ht target := by
    obtain ⟨u, hu, same⟩ := Db.mem_of_fixed m.grows.fixed.symm ht
    rw [← kind_of_fixed same]
    exact base.shape d (m.grows.deps ▸ hd) (fun done => unfinished (m.grows.finished done)) u hu
      ((slot_of_fixed same).trans target)
  cache := m.cache
  pending t ht := by
    have := m.pending base ht
    simpa [empty, dueEdges, entering] using this
  waiting t ht := by simpa [empty, subject] using m.waiting t ht
  output := m.output
  columns := m.columns

/-- A step executes the statement on top of the stack. -/
theorem Cfg.step_some {H : Sha256} {o : Options} {c c' : Cfg} (next : c.step H o = some c') :
    ∃ s rest, c.stack = s :: rest ∧ c' = c.after (exec H o c.db s) rest := by
  rw [Cfg.step] at next
  split at next
  · cases next
  · rename_i s rest top
    cases next
    exact ⟨s, rest, top, rfl⟩

/-- What every statement keeps, the whole transaction keeps. -/
theorem run_induction {H : Sha256} {o : Options} {P : Cfg → Prop}
    (keeps : ∀ {c : Cfg} {s : Stmt} {rest : List Stmt}, P c → c.stack = s :: rest →
      P (c.after (exec H o c.db s) rest)) {fuel : Nat} {c c' : Cfg}
    (ran : run H o fuel c = some c') (start : P c) : P c' ∧ c'.stack = [] := by
  induction fuel generalizing c with
  | zero =>
    simp only [run, Option.ite_none_right_eq_some, Option.some.injEq] at ran
    obtain ⟨empty, rfl⟩ := ran
    exact ⟨start, empty⟩
  | succ fuel ih =>
    simp only [run] at ran
    split at ran
    · rename_i stuck
      cases ran
      refine ⟨start, ?_⟩
      rw [Cfg.step] at stuck
      split at stuck
      · assumption
      · cases stuck
    · rename_i stepped
      obtain ⟨s, rest, top, rfl⟩ := Cfg.step_some stepped
      exact ih ran (keeps start top)

/-- What holds of the tables after whatever `maybe_finish` does. -/
theorem maybeFinish_induction {H : Sha256} {o : Options} {P : Db → Prop} {db : Db} {build : Nat} (start : P db)
    (keeps : ∀ {c : Cfg}, run H o 2 ⟨db, maybeFinish build, []⟩ = some c → P c.db) :
    P (db.maybeFinish H o build) := by
  unfold Db.maybeFinish
  cases ran : run H o 2 ⟨db, maybeFinish build, []⟩ with
  | none => exact start
  | some c => exact keeps ran

/-- What every `maybe_finish` keeps, the reaper keeps after its update. -/
theorem reap_induction {H : Sha256} {o : Options} {P : Db → Prop}
    (keeps : ∀ {db : Db} (build : Nat), P db → P (db.maybeFinish H o build)) {db : Db} {now : Int}
    (start : P { db with tasks := db.tasks.map (reapRow o now) }) : P (reap H o db now) := by
  have fold : ∀ (builds : List Nat) (db : Db), P db →
      P (builds.foldl (fun db build => db.maybeFinish H o build) db) := by
    intro builds
    induction builds with
    | nil => exact fun _ h => h
    | cons b builds ih => exact fun db h => ih _ (keeps b h)
  exact fold _ _ start

/-- The rows after a statement. -/
theorem forall_exec {H : Sha256} {o : Options} {db : Db} {P : TaskRow → Prop} {s : Stmt}
    (keeps : ∀ {t row next}, Rewrites o db s t row next → P t → P row)
    (all : ∀ t ∈ db.tasks, P t) : ∀ t ∈ ((exec H o db s).db db).tasks, P t := by
  intro u hu
  rcases write : (exec H o db s).write with _ | row | row | row
  · rw [Outcome.db, write] at hu
    exact all u hu
  · rw [Outcome.db, write] at hu
    obtain ⟨v, hv, rfl⟩ := List.mem_map.mp hu
    split
    · obtain ⟨t, ht, next, -, rewrites⟩ := exec_rewrites write
      exact keeps rewrites (all t ht)
    · exact all v hv
  · rw [Outcome.db, write] at hu
    exact all u hu
  · rw [Outcome.db, write, Option.elim_some, db.apply_cache_tasks row] at hu
    exact all u hu

/-- And after all of them. -/
theorem forall_run {H : Sha256} {o : Options} {db : Db} {P : TaskRow → Prop}
    (keeps : ∀ {db : Db} {s : Stmt} {t row : TaskRow} {next : List Stmt}, Rewrites o db s t row next → P t → P row)
    (all : ∀ t ∈ db.tasks, P t) {fuel : Nat} {stack : List Stmt} {c : Cfg}
    (ran : run H o fuel ⟨db, stack, []⟩ = some c) : ∀ t ∈ c.db.tasks, P t :=
  (run_induction (P := fun c => ∀ t ∈ c.db.tasks, P t) (fun all _ => forall_exec keeps all) ran all).1

/-! ### Working off a stack -/

/-- The statements `l` on the rows `db`, each with the outcome `ex` gives it, end on the
rows `db'`. -/
inductive Clears (ex : Db → Stmt → Outcome) : Db → List Stmt → Db → Prop where
  | nil {db : Db} : Clears ex db [] db
  | cons {db db' : Db} {s : Stmt} {rest : List Stmt} :
      Clears ex ((ex db s).db db) ((ex db s).next ++ rest) db' → Clears ex db (s :: rest) db'

theorem Clears.unique {ex : Db → Stmt → Outcome} {db x y : Db} {l : List Stmt} (first : Clears ex db l x)
    (second : Clears ex db l y) : x = y := by
  induction first with
  | nil =>
    cases second
    rfl
  | cons _ ih =>
    cases second with
    | cons later => exact ih later

/-- One stack on top of another is worked off first. -/
theorem Clears.append {ex : Db → Stmt → Outcome} {db db' db'' : Db} {l l' : List Stmt} (first : Clears ex db l db')
    (second : Clears ex db' l' db'') : Clears ex db (l ++ l') db'' := by
  induction first with
  | nil => exact second
  | @cons db db' s rest _ ih =>
    have later := ih second
    rw [List.append_assoc] at later
    exact .cons later

section Clears

variable {H : Sha256} {o : Options}

theorem run_clears {fuel : Nat} {c c' : Cfg} (ran : run H o fuel c = some c') :
    Clears (exec H o) c.db c.stack c'.db := by
  induction fuel generalizing c with
  | zero =>
    rw [run] at ran
    split at ran
    · rename_i empty
      cases ran
      rw [empty]
      exact .nil
    · cases ran
  | succ fuel ih =>
    rcases c with ⟨db, _ | ⟨s, rest⟩, trace⟩
    · cases ran
      exact .nil
    · exact .cons (ih ran)

theorem Clears.run {db db' : Db} {l : List Stmt} (clears : Clears (exec H o) db l db') (trace : List Event) :
    ∃ fuel c, run H o fuel ⟨db, l, trace⟩ = some c ∧ c.db = db' := by
  induction clears generalizing trace with
  | nil => exact ⟨0, _, rfl, rfl⟩
  | @cons db db' s rest _ ih =>
    obtain ⟨fuel, c, ran, same⟩ := ih (trace ++ (exec H o db s).event.toList)
    exact ⟨fuel + 1, c, ran, same⟩

end Clears

/-! ### What a transaction leaves -/

/-- A completed transaction leaves consistent tables. -/
theorem Consistent.run {H : Sha256} {o : Options} {com : Db} (base : Consistent H com) {s : Stmt}
    (ok : s.Ok H com) (due : s.due com = []) (subj : subject [s] = none) {fuel : Nat} {c : Cfg}
    (ran : run H o fuel ⟨com, [s], []⟩ = some c) : Db.Grows com c.db ∧ Consistent H c.db := by
  obtain ⟨m, empty⟩ := run_induction (P := Mid H com) (fun m => m.exec base o) ran
    (Mid.start base ok due subj)
  exact ⟨m.grows, m.done base empty⟩

/-- `maybe_finish` run in one go. -/
theorem Consistent.maybeFinish {H : Sha256} {o : Options} {db : Db} (base : Consistent H db)
    (build : Nat) :
    Db.Grows db (db.maybeFinish H o build) ∧ Consistent H (db.maybeFinish H o build) :=
  maybeFinish_induction (P := fun db' => Db.Grows db db' ∧ Consistent H db') ⟨.refl db, base⟩
    (base.run (s := .progress build) trivial rfl rfl)

end DistCompile
