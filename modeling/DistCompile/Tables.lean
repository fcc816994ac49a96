import DistCompile.Db

/-!
How the tables evolve.

A row is identified twice, by `uid` and by its slot `(build_id, id)`, and most of
its columns are fixed at the insert. `Db.Keyed` states the two unique keys.
`Db.Grows` is what every write of the coordinator respects between two inserts:
edges and fixed columns stay, and a finished row is never touched again.
Everything computed from finished dependencies (`inputsOf`) is therefore the same
before and after.
-/

namespace DistCompile

/-! ### Slots and fixed columns -/

/-- `UNIQUE (build_id, id)`. -/
def TaskRow.slot (t : TaskRow) : Nat × Nat := (t.buildId, t.id)

/-- The columns of a task that are given with it. -/
structure Fixed where
  uid : Nat
  slot : Nat × Nat
  kind : TaskKind
  name : Str
  input : Option Str
  args : Str
  toolchain : Str
  compile : Option (Option Str × Option Str × Option Str)
deriving DecidableEq

/-- The columns no statement updates; those of a compile task include its key and
its input. -/
def TaskRow.fixed (t : TaskRow) : Fixed :=
  ⟨t.uid, t.slot, t.kind, t.name, t.input, t.args, t.toolchain,
    if t.kind = COMPILE then some (t.key, t.inputs, t.inputNames) else none⟩

/-- The slot of the task an edge leaves, and of the task it enters. -/
def TaskDep.source (d : TaskDep) : Nat × Nat := (d.build, d.dep)
def TaskDep.target (d : TaskDep) : Nat × Nat := (d.build, d.task)

theorem uid_of_fixed {t u : TaskRow} (same : t.fixed = u.fixed) : t.uid = u.uid :=
  congrArg Fixed.uid same

theorem slot_of_fixed {t u : TaskRow} (same : t.fixed = u.fixed) : t.slot = u.slot :=
  congrArg Fixed.slot same

theorem build_of_fixed {t u : TaskRow} (same : t.fixed = u.fixed) : t.buildId = u.buildId :=
  congrArg Prod.fst (slot_of_fixed same)

theorem id_of_fixed {t u : TaskRow} (same : t.fixed = u.fixed) : t.id = u.id :=
  congrArg Prod.snd (slot_of_fixed same)

theorem kind_of_fixed {t u : TaskRow} (same : t.fixed = u.fixed) : t.kind = u.kind :=
  congrArg Fixed.kind same

theorem name_of_fixed {t u : TaskRow} (same : t.fixed = u.fixed) : t.name = u.name :=
  congrArg Fixed.name same

theorem args_of_fixed {t u : TaskRow} (same : t.fixed = u.fixed) : t.args = u.args :=
  congrArg Fixed.args same

theorem toolchain_of_fixed {t u : TaskRow} (same : t.fixed = u.fixed) :
    t.toolchain = u.toolchain :=
  congrArg Fixed.toolchain same

namespace Db

/-- The task in slot `s` is done or cached. -/
def Finished (db : Db) (s : Nat × Nat) : Prop :=
  ∃ t ∈ db.tasks, t.slot = s ∧ t.state.finished = true

instance (db : Db) (s : Nat × Nat) : Decidable (db.Finished s) := by
  unfold Finished; infer_instance

/-- The number of `task_deps` rows of the task in slot `s` whose dep is not done
or cached. -/
def unfinishedDeps (db : Db) (s : Nat × Nat) : Nat :=
  db.deps.countP fun d => d.target = s ∧ ¬ db.Finished d.source

/-- The two serial counters. -/
def serials (db : Db) : Nat × Nat := (db.nextBuild, db.nextUid)

/-- The counters are ahead of every row. -/
def Fresh (db : Db) : Prop := ∀ t ∈ db.tasks, t.buildId < db.serials.1 ∧ t.uid < db.serials.2

/-- The unique keys of `tasks`. -/
structure Keyed (db : Db) : Prop where
  uids : (db.tasks.map TaskRow.uid).Nodup
  slots : (db.tasks.map TaskRow.slot).Nodup

/-- Every edge joins two rows of its build. -/
structure Linked (db : Db) : Prop where
  source : ∀ d ∈ db.deps, ∃ t ∈ db.tasks, t.slot = d.source
  target : ∀ d ∈ db.deps, ∃ t ∈ db.tasks, t.slot = d.target

/-! ### Reading rows by key -/

theorem Keyed.uid_inj {db : Db} (k : db.Keyed) {t u : TaskRow} (ht : t ∈ db.tasks)
    (hu : u ∈ db.tasks) (same : t.uid = u.uid) : t = u :=
  List.inj_on_of_nodup_map k.uids ht hu same

theorem Keyed.slot_inj {db : Db} (k : db.Keyed) {t u : TaskRow} (ht : t ∈ db.tasks)
    (hu : u ∈ db.tasks) (same : t.slot = u.slot) : t = u :=
  List.inj_on_of_nodup_map k.slots ht hu same

/-- A row is written: what holds of it and its old version, and of a row and itself, holds of all
rows. -/
theorem Keyed.of_written {db : Db} (k : db.Keyed) {P : TaskRow → TaskRow → Prop} {t row u : TaskRow}
    (ht : t ∈ db.tasks) (uid : row.uid = t.uid) (new : P t row) (old : ∀ u, P u u) (hu : u ∈ db.tasks) :
    P u (if u.uid = row.uid then row else u) := by
  split
  · rename_i same
    rw [k.uid_inj hu ht (same.trans uid)]
    exact new
  · exact old u

theorem task?_eq_some {db : Db} (k : db.Keyed) {uid : Nat} {t : TaskRow} :
    db.task? uid = some t ↔ t ∈ db.tasks ∧ t.uid = uid := by
  constructor
  · intro found
    exact ⟨List.mem_of_find?_eq_some found, by simpa using List.find?_some found⟩
  · rintro ⟨member, rfl⟩
    cases found : db.task? t.uid with
    | none => exact absurd (List.find?_eq_none.mp found t member) (by simp)
    | some u =>
      have same : u.uid = t.uid := by simpa using List.find?_some found
      rw [k.uid_inj (List.mem_of_find?_eq_some found) member same]

theorem taskAt?_eq_some {db : Db} (k : db.Keyed) {build id : Nat} {t : TaskRow} :
    db.taskAt? build id = some t ↔ t ∈ db.tasks ∧ t.slot = (build, id) := by
  constructor
  · intro found
    exact ⟨List.mem_of_find?_eq_some found, by
      simpa [TaskRow.slot] using List.find?_some found⟩
  · rintro ⟨member, slot⟩
    cases found : db.taskAt? build id with
    | none =>
      have := List.find?_eq_none.mp found t member
      simp_all [TaskRow.slot]
    | some u =>
      have same : u.slot = (build, id) := by simpa [TaskRow.slot] using List.find?_some found
      rw [k.slot_inj (List.mem_of_find?_eq_some found) member (same.trans slot.symm)]

/-- The join on a slot finds exactly the row there. -/
theorem filter_slot {db : Db} (k : db.Keyed) {t : TaskRow} (member : t ∈ db.tasks) {build id : Nat}
    (slot : t.slot = (build, id)) :
    (db.tasks.filter fun u => u.buildId = build && u.id = id) = [t] := by
  have pred : (fun u : TaskRow => decide (u.buildId = build) && decide (u.id = id)) =
      fun u => decide (u.slot = t.slot) := by
    funext u
    rw [slot]
    simp [TaskRow.slot, Prod.ext_iff]
  rw [pred]
  have nodup := k.slots
  clear pred slot k
  generalize db.tasks = rows at member nodup
  induction rows with
  | nil => cases member
  | cons u rows ih =>
    rw [List.map_cons, List.nodup_cons] at nodup
    rcases List.mem_cons.mp member with rfl | later
    · rw [List.filter_cons_of_pos (by simp)]
      congr 1
      refine List.filter_eq_nil_iff.mpr fun v hv => ?_
      rw [decide_eq_true_eq]
      exact fun same => nodup.1 (List.mem_map.mpr ⟨v, hv, same⟩)
    · rw [List.filter_cons_of_neg, ih later nodup.2]
      rw [decide_eq_true_eq]
      exact fun same => nodup.1 (List.mem_map.mpr ⟨t, later, same.symm⟩)

/-! ### Writing one row -/

section Apply

variable {db : Db} {t row : TaskRow}

@[simp] theorem apply_task_deps : (db.apply (.task row)).deps = db.deps := rfl
@[simp] theorem apply_task_cache : (db.apply (.task row)).cache = db.cache := rfl
@[simp] theorem apply_task_builds : (db.apply (.task row)).builds = db.builds := rfl

/-- The rows after a write: the new version, and every other row as it was. -/
theorem mem_apply_task (ht : t ∈ db.tasks) (fixed : row.fixed = t.fixed) {u : TaskRow} :
    u ∈ (db.apply (.task row)).tasks ↔ u = row ∨ (u ∈ db.tasks ∧ u.uid ≠ row.uid) := by
  simp only [apply, List.mem_map]
  constructor
  · rintro ⟨v, hv, rfl⟩
    by_cases same : v.uid = row.uid
    · exact Or.inl (if_pos same)
    · rw [if_neg same]
      exact Or.inr ⟨hv, same⟩
  · rintro (rfl | ⟨hu, other⟩)
    · exact ⟨t, ht, if_pos (uid_of_fixed fixed).symm⟩
    · exact ⟨u, hu, if_neg other⟩

theorem apply_task_fixed (k : db.Keyed) (ht : t ∈ db.tasks) (fixed : row.fixed = t.fixed) :
    (db.apply (.task row)).tasks.map TaskRow.fixed = db.tasks.map TaskRow.fixed := by
  simp only [apply, List.map_map]
  exact List.map_congr_left fun u hu =>
    k.of_written (P := fun u v => v.fixed = u.fixed) ht (uid_of_fixed fixed) fixed (fun _ => rfl) hu

end Apply

/-- Fixed columns give the keys. -/
theorem Keyed.of_fixed {db db' : Db} (k : db.Keyed)
    (same : db'.tasks.map TaskRow.fixed = db.tasks.map TaskRow.fixed) : db'.Keyed where
  uids := by
    have := congrArg (List.map Fixed.uid) same
    rw [List.map_map, List.map_map] at this
    exact (show db'.tasks.map TaskRow.uid = db.tasks.map TaskRow.uid from this) ▸ k.uids
  slots := by
    have := congrArg (List.map Fixed.slot) same
    rw [List.map_map, List.map_map] at this
    exact (show db'.tasks.map TaskRow.slot = db.tasks.map TaskRow.slot from this) ▸ k.slots

/-- The row of `db'` with the fixed columns of a row of `db`. -/
theorem mem_of_fixed {db db' : Db}
    (same : db'.tasks.map TaskRow.fixed = db.tasks.map TaskRow.fixed) {t : TaskRow}
    (ht : t ∈ db.tasks) : ∃ u ∈ db'.tasks, u.fixed = t.fixed := by
  have : t.fixed ∈ db'.tasks.map TaskRow.fixed := same ▸ List.mem_map_of_mem ht
  exact List.mem_map.mp this

/-! ### Growth -/

/-- Edges, fixed columns and counters are the same and finished rows are untouched. -/
structure Grows (db db' : Db) : Prop where
  deps : db'.deps = db.deps
  serials : db'.serials = db.serials
  fixed : db'.tasks.map TaskRow.fixed = db.tasks.map TaskRow.fixed
  keeps : ∀ t ∈ db.tasks, t.state.finished = true → t ∈ db'.tasks

namespace Grows

variable {db db' db'' : Db}

theorem refl (db : Db) : Grows db db := ⟨rfl, rfl, rfl, fun _ h _ => h⟩

theorem trans (first : Grows db db') (second : Grows db' db'') : Grows db db'' :=
  ⟨second.deps.trans first.deps, second.serials.trans first.serials,
    second.fixed.trans first.fixed,
    fun t ht done => second.keeps t (first.keeps t ht done) done⟩

theorem finished (g : Grows db db') {s : Nat × Nat} : db.Finished s → db'.Finished s := by
  rintro ⟨t, ht, slot, done⟩
  exact ⟨t, g.keeps t ht done, slot, done⟩

theorem keyed (g : Grows db db') (k : db.Keyed) : db'.Keyed := k.of_fixed g.fixed

theorem fresh (g : Grows db db') (f : db.Fresh) : db'.Fresh := by
  intro u hu
  obtain ⟨t, ht, same⟩ := mem_of_fixed g.fixed.symm hu
  rw [g.serials, ← uid_of_fixed same, ← build_of_fixed same]
  exact f t ht

theorem linked (g : Grows db db') (l : db.Linked) : db'.Linked where
  source d hd := by
    obtain ⟨t, ht, slot⟩ := l.source d (g.deps ▸ hd)
    obtain ⟨u, hu, same⟩ := mem_of_fixed g.fixed ht
    exact ⟨u, hu, (slot_of_fixed same).trans slot⟩
  target d hd := by
    obtain ⟨t, ht, slot⟩ := l.target d (g.deps ▸ hd)
    obtain ⟨u, hu, same⟩ := mem_of_fixed g.fixed ht
    exact ⟨u, hu, (slot_of_fixed same).trans slot⟩

/-- The rows a task's inputs are read from do not change once its dependencies
are finished. -/
theorem inputsOf_eq (g : Grows db db') (k : db.Keyed) {build id : Nat}
    (ready : ∀ d ∈ db.deps, d.target = (build, id) → db.Finished d.source) :
    db'.inputsOf build id = db.inputsOf build id := by
  unfold inputsOf
  rw [g.deps]
  refine List.flatMap_congr fun d hd => ?_
  rw [List.mem_insertionSort, List.mem_filter] at hd
  obtain ⟨member, target⟩ := hd
  obtain ⟨t, ht, slot, done⟩ := ready d member (by
    simpa [TaskDep.target, Prod.ext_iff] using target)
  rw [filter_slot k ht slot, filter_slot (g.keyed k) (g.keeps t ht done) slot]

end Grows

/-- Writing a new version of an unfinished row is growth. -/
theorem grows_apply_task {db : Db} (k : db.Keyed) {t row : TaskRow} (ht : t ∈ db.tasks)
    (fixed : row.fixed = t.fixed) (unfinished : t.state.finished = false) :
    Grows db (db.apply (.task row)) where
  deps := rfl
  serials := rfl
  fixed := apply_task_fixed k ht fixed
  keeps u hu done := by
    refine (mem_apply_task ht fixed).mpr (Or.inr ⟨hu, fun same => ?_⟩)
    rw [k.uid_inj hu ht (same.trans (uid_of_fixed fixed)), unfinished] at done
    cases done

/-- What is finished after a write: what was, and the new version if it is. -/
theorem finished_apply_task {db : Db} (k : db.Keyed) {t row : TaskRow} (ht : t ∈ db.tasks)
    (fixed : row.fixed = t.fixed) (unfinished : t.state.finished = false) {s : Nat × Nat} :
    (db.apply (.task row)).Finished s ↔
      db.Finished s ∨ (s = t.slot ∧ row.state.finished = true) := by
  constructor
  · rintro ⟨u, hu, slot, done⟩
    rcases (mem_apply_task ht fixed).mp hu with rfl | ⟨old, -⟩
    · exact Or.inr ⟨slot.symm.trans (slot_of_fixed fixed), done⟩
    · exact Or.inl ⟨u, old, slot, done⟩
  · rintro (before | ⟨rfl, done⟩)
    · exact (grows_apply_task k ht fixed unfinished).finished before
    · exact ⟨row, (mem_apply_task ht fixed).mpr (Or.inl rfl), slot_of_fixed fixed, done⟩

/-- An unfinished row leaves its slot unfinished. -/
theorem not_finished_of_row {db : Db} (k : db.Keyed) {t : TaskRow} (ht : t ∈ db.tasks)
    (unfinished : t.state.finished = false) : ¬ db.Finished t.slot := by
  rintro ⟨u, hu, slot, done⟩
  rw [k.slot_inj hu ht slot, unfinished] at done
  cases done

end Db

end DistCompile
