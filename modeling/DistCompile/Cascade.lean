import DistCompile.Placed

/-!
Cascades of `finished` and `make_ready`.

A transaction ends: a counter only goes down, `make_ready` is called when a countdown brings it
to zero, and between two such calls there is a bounded number of statements (`Cfg.bound`, `run_ends`).

`finished` may also be called for several tasks of a build, one after the other, that are in
the cache from the start. While the cascade of the first runs, the others are
finished already and their edges are not yet counted. `Db.reopen` shows those
others as unfinished: in these rows the cascade is a transaction like any other
(`Cascading`), which makes it one in the rows as they are.
-/

namespace DistCompile

/-! ### Counters go down -/

/-- Rows keep their keys, and their counters do not rise. -/
structure Lowers (db db' : Db) (f : TaskRow → TaskRow) : Prop where
  tasks : db'.tasks = db.tasks.map f
  deps : db'.deps = db.deps
  uid : ∀ t ∈ db.tasks, (f t).uid = t.uid
  slot : ∀ t ∈ db.tasks, (f t).slot = t.slot
  pending : ∀ t ∈ db.tasks, (f t).pendingDeps ≤ t.pendingDeps

/-- The counters that are still positive. -/
def openCounters (db : Db) : Nat := db.tasks.countP fun t => 0 < t.pendingDeps

section Counters

variable {H : Sha256} {o : Options} {db db' : Db} {s : Stmt} {f : TaskRow → TaskRow}

theorem Lowers.refl (db : Db) : Lowers db db id :=
  ⟨(List.map_id _).symm, rfl, fun _ _ => rfl, fun _ _ => rfl, fun _ _ => le_rfl⟩

theorem Lowers.keyed (lowers : Lowers db db' f) (k : db.Keyed) : db'.Keyed := by
  have uids : db'.tasks.map TaskRow.uid = db.tasks.map TaskRow.uid := by
    rw [lowers.tasks, List.map_map]
    exact List.map_congr_left lowers.uid
  have slots : db'.tasks.map TaskRow.slot = db.tasks.map TaskRow.slot := by
    rw [lowers.tasks, List.map_map]
    exact List.map_congr_left lowers.slot
  exact ⟨uids ▸ k.uids, slots ▸ k.slots⟩

/-- A row that is written lowers the counters. -/
theorem lowers_task (k : db.Keyed) {t row : TaskRow} (ht : t ∈ db.tasks) (uid : row.uid = t.uid)
    (slot : row.slot = t.slot) (le : row.pendingDeps ≤ t.pendingDeps) :
    Lowers db (db.apply (.task row)) fun u => if u.uid = row.uid then row else u := by
  have rows : ∀ u ∈ db.tasks, (if u.uid = row.uid then row else u).uid = u.uid ∧
      (if u.uid = row.uid then row else u).slot = u.slot ∧
      (if u.uid = row.uid then row else u).pendingDeps ≤ u.pendingDeps := fun u hu =>
    k.of_written (P := fun u v => v.uid = u.uid ∧ v.slot = u.slot ∧ v.pendingDeps ≤ u.pendingDeps) ht uid
      ⟨uid, slot, le⟩ (fun _ => ⟨rfl, rfl, le_rfl⟩) hu
  exact ⟨rfl, rfl, fun u hu => (rows u hu).1, fun u hu => (rows u hu).2.1, fun u hu => (rows u hu).2.2⟩

theorem exec_lowers (k : db.Keyed) (s : Stmt) : ∃ f, Lowers db ((exec H o db s).db db) f := by
  rcases write : (exec H o db s).write with _ | row | row | row
  · rw [Outcome.db, write]
    exact ⟨id, .refl db⟩
  · rw [Outcome.db, write]
    obtain ⟨t, ht, next, -, rewrites⟩ := exec_rewrites write
    refine ⟨_, lowers_task k ht ?_ ?_ ?_⟩
    · cases rewrites <;> rfl
    · cases rewrites <;> rfl
    · cases rewrites with
      | countDown => exact Int.sub_le_self _ (by omega)
      | complete | retry | fail | markCached | markReady => exact le_rfl
  · rw [Outcome.db, write]
    exact ⟨id, (List.map_id _).symm, rfl, fun _ _ => rfl, fun _ _ => rfl, fun _ _ => le_rfl⟩
  · rw [Outcome.db, write, Option.elim_some]
    refine ⟨id, ?_, db.apply_cache_deps row, fun _ _ => rfl, fun _ _ => rfl, fun _ _ => le_rfl⟩
    rw [db.apply_cache_tasks row, List.map_id]

theorem Lowers.openCounters_le (lowers : Lowers db db' f) : openCounters db' ≤ openCounters db := by
  rw [openCounters, openCounters, lowers.tasks, List.countP_map]
  refine List.countP_mono_left fun t ht positive => ?_
  have le := lowers.pending t ht
  simp only [Function.comp_apply, decide_eq_true_eq] at positive ⊢
  omega

/-- A counter that is no longer positive leaves fewer of them. -/
theorem Lowers.openCounters_lt (lowers : Lowers db db' f) {t : TaskRow} (ht : t ∈ db.tasks)
    (before : 0 < t.pendingDeps) (after : (f t).pendingDeps ≤ 0) : openCounters db' < openCounters db := by
  obtain ⟨front, back, split⟩ := List.append_of_mem ht
  have le : ∀ l : List TaskRow, (∀ u ∈ l, u ∈ db.tasks) →
      (l.map f).countP (fun t => 0 < t.pendingDeps) ≤ l.countP fun t => 0 < t.pendingDeps := by
    intro l inside
    rw [List.countP_map]
    refine List.countP_mono_left fun u hu positive => ?_
    have le := lowers.pending u (inside u hu)
    simp only [Function.comp_apply, decide_eq_true_eq] at positive ⊢
    omega
  have first := le front fun u hu => by simp [split, hu]
  have last := le back fun u hu => by simp [split, hu]
  rw [openCounters, openCounters, lowers.tasks, split]
  simp only [List.map_append, List.map_cons, List.countP_append, List.countP_cons, before, decide_true, if_true,
    not_lt.mpr after, decide_false, Bool.false_eq_true, if_false]
  omega

/-- At most so many tasks wait for one. -/
def Db.fan (db : Db) : Nat := db.deps.length * db.tasks.length

theorem Lowers.fan (lowers : Lowers db db' f) : db'.fan = db.fan := by
  rw [Db.fan, Db.fan, lowers.deps, lowers.tasks, List.length_map]

theorem length_flatMap_le {α β : Type*} {f : α → List β} {n : Nat} {l : List α}
    (short : ∀ a ∈ l, (f a).length ≤ n) : (l.flatMap f).length ≤ l.length * n := by
  induction l with
  | nil => exact Nat.zero_le _
  | cons a l ih =>
    have first := short a List.mem_cons_self
    have later := ih fun b hb => short b (List.mem_cons_of_mem a hb)
    rw [List.flatMap_cons, List.length_append, List.length_cons, Nat.succ_mul]
    omega

theorem length_dependents_le (db : Db) (build id : Nat) : (db.dependents build id).length ≤ db.fan := by
  rw [Db.dependents]
  refine (length_flatMap_le fun d _ => List.length_filter_le _ _).trans ?_
  rw [List.length_insertionSort]
  exact Nat.mul_le_mul_right _ (List.length_filter_le _ _)

end Counters

/-! ### Every transaction ends -/

/-- More than the statements that `s` leads to before the next countdown, where a
task has at most `fan` dependents. -/
def Stmt.weight (fan : Nat) : Stmt → Nat
  | .lockRow _ | .countDown _ _ _ | .markReady _ _ _ _ _ | .buildFailed _ | .buildDone _ => 1
  | .progress _ => 2
  | .retry _ _ | .fail _ => 3
  | .dependents _ _ => 2 * fan + 3
  | .cachePut _ _ _ _ _ | .markCached _ _ _ _ => 2 * fan + 4
  | .complete _ _ | .cacheHit _ _ _ _ _ => 2 * fan + 5
  | .depOutputs _ _ _ _ _ => 2 * fan + 6
  | .taskInfo _ _ => 2 * fan + 7

def stackWeight (fan : Nat) (stack : List Stmt) : Nat := (stack.map (Stmt.weight fan)).sum

section Steps

variable {H : Sha256} {o : Options} {db : Db} {c : Cfg} {s : Stmt} {fan : Nat}

theorem stackWeight_append (l l' : List Stmt) :
    stackWeight fan (l ++ l') = stackWeight fan l + stackWeight fan l' := by
  simp [stackWeight]

theorem stackWeight_cons (s : Stmt) (l : List Stmt) :
    stackWeight fan (s :: l) = s.weight fan + stackWeight fan l := by
  simp [stackWeight]

/-- A statement other than a countdown leads to less than its weight. -/
theorem exec_lighter (few : ∀ build id, (db.dependents build id).length ≤ fan)
    (other : ∀ build id uid, s ≠ .countDown build id uid) :
    stackWeight fan (exec H o db s).next < s.weight fan := by
  cases s with
  | dependents build id =>
    have rows : stackWeight fan ((db.dependents build id).map fun t => .lockRow t.uid) =
        (db.dependents build id).length := by
      simp [stackWeight, Function.comp_def, Stmt.weight]
    have loops : stackWeight fan ((db.dependents build id).map fun t => .countDown build id t.uid) =
        (db.dependents build id).length := by
      simp [stackWeight, Function.comp_def, Stmt.weight]
    have := few build id
    simp only [exec, stackWeight_append, rows, loops]
    split
    · simp only [maybeFinish, stackWeight, List.map_cons, List.map_nil, List.sum_cons, List.sum_nil, Stmt.weight]
      omega
    · simp only [stackWeight, List.map_nil, List.sum_nil, Stmt.weight]
      omega
  | countDown build id uid => exact absurd rfl (other build id uid)
  | _ =>
    simp only [exec, finished, maybeFinish]
    grind [stackWeight, Stmt.weight]

/-- A stack is worked off when every statement keeps the invariant and takes the bound down. -/
theorem clears_of_steps {P : Cfg → Prop} {b : Cfg → Nat}
    (keeps : ∀ {c s rest}, P c → c.stack = s :: rest →
      P (c.after (exec H o c.db s) rest) ∧ b (c.after (exec H o c.db s) rest) < b c)
    (start : P c) : ∃ c', c'.stack = [] ∧ P c' ∧ Clears (exec H o) c.db c.stack c'.db := by
  induction size : b c using Nat.strong_induction_on generalizing c with
  | _ n ih =>
    cases top : c.stack with
    | nil => exact ⟨c, top, start, .nil⟩
    | cons s rest =>
      obtain ⟨kept, less⟩ := keeps start top
      obtain ⟨c', empty, holds, clears⟩ := ih _ (size ▸ less) kept rfl
      exact ⟨c', empty, holds, .cons clears⟩

end Steps

/-- More than the statements that are still to be issued: each positive counter can lead to one
call of `make_ready`. -/
def Cfg.bound (c : Cfg) : Nat := openCounters c.db * (2 * c.db.fan + 8) + stackWeight c.db.fan c.stack

section Ends

variable {H : Sha256} {o : Options} {c c' : Cfg} {s : Stmt} {rest : List Stmt}

/-- Every statement takes the bound down. -/
theorem bound_exec (k : c.db.Keyed) (top : c.stack = s :: rest) :
    (c.after (exec H o c.db s) rest).bound < c.bound := by
  obtain ⟨f, lowers⟩ := exec_lowers (H := H) (o := o) k s
  have counters := Nat.mul_le_mul_right (2 * c.db.fan + 8) lowers.openCounters_le
  simp only [Cfg.bound, Cfg.after, lowers.fan, top, stackWeight_append, stackWeight_cons]
  by_cases countdown : ∃ build id uid, s = .countDown build id uid
  · obtain ⟨build, id, uid, rfl⟩ := countdown
    cases found : c.db.task? uid with
    | none =>
      have light : stackWeight c.db.fan (exec H o c.db (.countDown build id uid)).next = 0 := by
        simp [exec, found, stackWeight]
      rw [light]
      simp only [Stmt.weight]
      omega
    | some t =>
      by_cases zero : t.pendingDeps - 1 = 0
      · -- one positive counter less, for the weight of `make_ready`
        obtain ⟨ht, -⟩ := mem_of_task? found
        have lowered : Lowers c.db (c.db.apply (.task { t with pendingDeps := t.pendingDeps - 1 })) _ :=
          lowers_task k ht rfl rfl (Int.sub_le_self _ (by omega))
        have less := lowered.openCounters_lt ht (by omega) (by simp [zero])
        have used := Nat.mul_le_mul_right (2 * c.db.fan + 8) (Nat.succ_le_of_lt less)
        simp only [exec, found, Outcome.db, Option.elim_some, zero, if_true, makeReady, stackWeight, List.map_cons,
          List.map_nil, List.sum_cons, List.sum_nil, Stmt.weight] at used ⊢
        rw [Nat.succ_mul] at used
        omega
      · have light : stackWeight c.db.fan (exec H o c.db (.countDown build id uid)).next = 0 := by
          simp [exec, found, zero, stackWeight]
        rw [light]
        simp only [Stmt.weight]
        omega
  · have lighter : stackWeight c.db.fan (exec H o c.db s).next < s.weight c.db.fan :=
      exec_lighter (length_dependents_le c.db) fun build id uid same => countdown ⟨build, id, uid, same⟩
    omega

/-- Every transaction ends, whatever is on its stack. -/
theorem run_ends (o : Options) (k : c.db.Keyed) : ∃ fuel c', run H o fuel c = some c' := by
  obtain ⟨_, -, -, clears⟩ := clears_of_steps (H := H) (o := o) (P := fun c => c.db.Keyed) (b := Cfg.bound)
    (fun k top => ⟨(exec_lowers k _).elim fun _ lowers => lowers.keyed k, bound_exec k top⟩) k
  obtain ⟨fuel, c', ran, -⟩ := clears.run c.trace
  exact ⟨fuel, c', ran⟩

end Ends

/-! ### Rows shown as unfinished -/

/-- The row with the tasks `ids` of the build as they are before they are finished. -/
def TaskRow.reopen (build : Nat) (ids : List Nat) (t : TaskRow) : TaskRow :=
  if t.buildId = build ∧ t.id ∈ ids then { t with state := .ready, output := none } else t

def Db.reopen (db : Db) (build : Nat) (ids : List Nat) : Db :=
  { db with tasks := db.tasks.map (TaskRow.reopen build ids) }

section Reopen

variable {H : Sha256} {o : Options} {com db : Db} {build : Nat} {ids : List Nat} {s : Stmt} {rest : List Stmt}
  {trace : List Event}

@[simp] theorem reopen_fixed (t : TaskRow) : (t.reopen build ids).fixed = t.fixed := by
  unfold TaskRow.reopen
  split <;> rfl

@[simp] theorem reopen_uid (t : TaskRow) : (t.reopen build ids).uid = t.uid := uid_of_fixed (reopen_fixed t)

@[simp] theorem reopen_slot (t : TaskRow) : (t.reopen build ids).slot = t.slot := slot_of_fixed (reopen_fixed t)

@[simp] theorem reopen_buildId (t : TaskRow) : (t.reopen build ids).buildId = t.buildId :=
  build_of_fixed (reopen_fixed t)

@[simp] theorem reopen_id (t : TaskRow) : (t.reopen build ids).id = t.id := id_of_fixed (reopen_fixed t)

@[simp] theorem reopen_kind (t : TaskRow) : (t.reopen build ids).kind = t.kind := kind_of_fixed (reopen_fixed t)

@[simp] theorem reopen_pendingDeps (t : TaskRow) : (t.reopen build ids).pendingDeps = t.pendingDeps := by
  unfold TaskRow.reopen
  split <;> rfl

/-- A row that is not shown as ready is shown as it is. -/
theorem reopen_of_state {t : TaskRow} (state : (t.reopen build ids).state ≠ .ready) : t.reopen build ids = t := by
  unfold TaskRow.reopen at state ⊢
  split
  · rename_i here
    rw [if_pos here] at state
    exact absurd rfl state
  · rfl

theorem reopen_nil (db : Db) (build : Nat) : db.reopen build [] = db := by
  have same : TaskRow.reopen build [] = id := funext fun t => by simp [TaskRow.reopen]
  rw [Db.reopen, same, List.map_id]

theorem Db.reopen_fixed (db : Db) (build : Nat) (ids : List Nat) :
    (db.reopen build ids).tasks.map TaskRow.fixed = db.tasks.map TaskRow.fixed := by
  simp [Db.reopen]

theorem task?_reopen (uid : Nat) : (db.reopen build ids).task? uid = (db.task? uid).map (TaskRow.reopen build ids) := by
  simp [Db.task?, Db.reopen, List.find?_map]

theorem taskAt?_reopen (b id : Nat) :
    (db.reopen build ids).taskAt? b id = (db.taskAt? b id).map (TaskRow.reopen build ids) := by
  simp [Db.taskAt?, Db.reopen, List.find?_map]

theorem dependents_reopen (b id : Nat) :
    (db.reopen build ids).dependents b id = (db.dependents b id).map (TaskRow.reopen build ids) := by
  simp [Db.dependents, Db.reopen, List.map_flatMap, List.filter_map, Function.comp_def]

theorem inputsOf_reopen (b id : Nat) :
    (db.reopen build ids).inputsOf b id = (db.inputsOf b id).map (TaskRow.reopen build ids) := by
  simp [Db.inputsOf, Db.reopen, List.map_flatMap, List.filter_map, Function.comp_def]

/-- A write to a row that is shown as it is, or to another table. -/
theorem apply_reopen (w : Write) (shown : ∀ row, w = .task row → row.reopen build ids = row) :
    (db.reopen build ids).apply w = (db.apply w).reopen build ids := by
  cases w with
  | task row =>
    simp only [Db.apply, Db.reopen, List.map_map, Db.mk.injEq, true_and, and_true]
    refine List.map_congr_left fun t _ => ?_
    simp only [Function.comp_apply, reopen_uid]
    split
    · exact (shown row rfl).symm
    · rfl
  | build row => rfl
  | cache row =>
    by_cases known : (db.cache.any fun c => c.key = row.key) = true
    · simp only [Db.apply, Db.reopen, known, if_true]
    · simp only [Db.apply, Db.reopen, known]
      rfl

/-- The tasks `ids` of the build are compile tasks. -/
def Db.Compiles (db : Db) (build : Nat) (ids : List Nat) : Prop :=
  ∀ t ∈ db.tasks, t.buildId = build → t.id ∈ ids → t.kind = COMPILE

theorem Db.Compiles.reopen {t : TaskRow} (compiles : db.Compiles build ids) (ht : t ∈ db.tasks)
    (action : t.kind ≠ COMPILE) : t.reopen build ids = t :=
  if_neg fun here => action (compiles t ht here.1 here.2)

/-- The statement counts the finished tasks of a build, or closes it. -/
def Stmt.isCount : Stmt → Bool
  | .progress _ | .buildFailed _ | .buildDone _ => true
  | _ => false

/-- The statement belongs to a cascade, and carries what the cache says. -/
def Stmt.FromCache (cache : Str → Option Str) : Stmt → Prop
  | .complete _ _ | .cachePut _ _ _ _ _ | .retry _ _ | .fail _ => False
  | .markCached _ _ key output => cache key = some output
  | .markReady _ _ key _ _ => cache key = none
  | _ => True

/-- A statement of a cascade does the same whether or not other tasks are shown as unfinished. -/
theorem exec_reopen {cache : Str → Option Str} (m : Mid H com ⟨db.reopen build ids, s :: rest, trace⟩)
    (base : Consistent H com) (compiles : db.Compiles build ids) (fromCache : s.FromCache cache)
    (noCount : s.isCount = false) : exec H o (db.reopen build ids) s = exec H o db s := by
  have kr := m.keyed base.keyed
  have ok := m.ok s (by simp)
  have shown : ∀ {u : TaskRow} {b id : Nat}, u ∈ (db.reopen build ids).tasks → u.slot = (b, id) →
      u.kind ≠ COMPILE → (db.reopen build ids).taskAt? b id = db.taskAt? b id := by
    intro u b id hu slot action
    obtain ⟨t, ht, rfl⟩ := List.mem_map.mp hu
    rw [reopen_slot] at slot
    rw [reopen_kind] at action
    have kd : db.Keyed := kr.of_fixed (db.reopen_fixed build ids).symm
    rw [taskAt?_reopen, (Db.taskAt?_eq_some kd).mpr ⟨ht, slot⟩, Option.map_some, compiles.reopen ht action]
  cases s with
  | complete r size => exact fromCache.elim
  | cachePut b id key output size => exact fromCache.elim
  | retry r now => exact fromCache.elim
  | fail r => exact fromCache.elim
  | progress b => cases noCount
  | buildFailed b => cases noCount
  | buildDone b => cases noCount
  | dependents b id =>
    simp only [exec, dependents_reopen, List.map_map, Function.comp_def, reopen_uid, List.isEmpty_map]
  | lockRow uid => rfl
  | countDown b id uid =>
    simp only [exec, task?_reopen]
    cases found : db.task? uid with
    | none => rfl
    | some t =>
      -- its task waits, so it is shown as it is
      have here : (db.reopen build ids).task? uid = some (t.reopen build ids) := by rw [task?_reopen, found]; rfl
      obtain ⟨ht, uid_eq⟩ := (Db.task?_eq_some kr).mp here
      obtain ⟨u, hu, same, build_eq⟩ := ok
      have row := kr.uid_inj hu ht (same.trans uid_eq.symm)
      have waits := (m.waiting _ ht).mpr (Or.inl (m.countDown_due base rfl ht uid_eq (row ▸ build_eq)).2)
      rw [Option.map_some, reopen_of_state (by rw [waits]; simp)]
  | taskInfo b id =>
    simp only [exec, taskAt?_reopen]
    cases found : db.taskAt? b id with
    | none => rfl
    | some t =>
      simp only [Option.map_some, reopen_kind, args_of_fixed (reopen_fixed t), toolchain_of_fixed (reopen_fixed t)]
  | depOutputs b id kind args toolchain =>
    -- the dependencies are finished, so none of them is shown as unfinished
    obtain ⟨u, hu, slot, -⟩ := ok
    have known := m.ready base hu (by rw [m.zero u hu (by rw [slot]; rfl)]; omega)
    have rows : (db.inputsOf b id).map (TaskRow.reopen build ids) = db.inputsOf b id := by
      refine (List.map_congr_left fun t ht => ?_).trans (List.map_id _)
      obtain ⟨member, d, hd, target, source⟩ := mem_inputsOf ht
      obtain ⟨v, hv, vslot, done⟩ := known d hd (by rw [slot, target])
      have row : v = t.reopen build ids :=
        kr.slot_inj hv (List.mem_map_of_mem member) (by rw [vslot, reopen_slot, source])
      refine reopen_of_state fun ready => ?_
      rw [row, ready] at done
      cases done
    simp only [exec, inputsOf_reopen, rows]
  | cacheHit b id key names digests => rfl
  | markCached b id key output =>
    obtain ⟨-, u, hu, slot, action, -⟩ := ok
    simp only [exec, shown hu slot action]
  | markReady b id key names digests =>
    obtain ⟨-, -, u, hu, slot, action, -⟩ := ok
    simp only [exec, shown hu slot action]

end Reopen

/-! ### A cascade -/

/-- The row of an archive or link task is what the cache says: it waits, it is cached with the
output of its key, or it is ready with a key that the cache does not know. -/
def TaskRow.ByCache (cache : Str → Option Str) (t : TaskRow) : Prop :=
  (t.state = .waiting ∧ t.key = none ∧ t.output = none) ∨
    (∃ key output, t.state = .cached ∧ t.key = some key ∧ t.output = some output ∧ cache key = some output) ∨
    ∃ key, t.state = .ready ∧ t.key = some key ∧ t.output = none ∧ cache key = none

/-- The columns a ready task is handed out with are filled. -/
def TaskRow.Supplied (t : TaskRow) : Prop :=
  t.state = .ready → (∃ text, t.inputs = some text) ∧ ∃ text, t.inputNames = some text

section Count

variable {H : Sha256} {o : Options} {db : Db} {s : Stmt} {cache : Str → Option Str}

/-- A count touches no task, and only counts follow it. -/
theorem exec_count (db : Db) (cache : Str → Option Str) (count : s.isCount = true) :
    ((exec H o db s).write = none ∨ ∃ row, (exec H o db s).write = some (.build row)) ∧
      (exec H o db s).next.filter (fun n => !n.isCount) = [] ∧
      (∀ n ∈ (exec H o db s).next, n.FromCache cache) ∧ countedEdges (exec H o db s).event.toList = [] := by
  cases s with
  | progress build =>
    refine ⟨Or.inl rfl, ?_, ?_, rfl⟩
    · simp only [exec]
      grind [Stmt.isCount]
    · simp only [exec]
      grind [Stmt.FromCache]
  | buildFailed build | buildDone build => simp only [exec]; grind [countedEdges]
  | _ => cases count

/-- A statement of a cascade is followed by statements that count nothing, or by `maybe_finish` alone. -/
theorem next_counts (db : Db) (fromCache : s.FromCache cache) (noCount : s.isCount = false) :
    (exec H o db s).next.filter (fun n => !n.isCount) = (exec H o db s).next ∨
      ∃ build id, s = .dependents build id ∧ (exec H o db s).next = [.progress build] := by
  cases s with
  | dependents build id =>
    by_cases sink : db.dependents build id = []
    · exact Or.inr ⟨build, id, rfl, by simp [exec, sink, maybeFinish]⟩
    · refine Or.inl (List.filter_eq_self.mpr fun n hn => ?_)
      simp only [exec, List.isEmpty_iff, sink, if_false, List.append_nil, List.mem_append, List.mem_map] at hn
      rcases hn with ⟨t, -, rfl⟩ | ⟨t, -, rfl⟩
      · rfl
      · rfl
  | complete r size => exact fromCache.elim
  | cachePut b id key output size => exact fromCache.elim
  | retry r now => exact fromCache.elim
  | fail r => exact fromCache.elim
  | progress b => cases noCount
  | buildFailed b => cases noCount
  | buildDone b => cases noCount
  | _ =>
    refine Or.inl (List.filter_eq_self.mpr fun n hn => ?_)
    simp only [exec, finished, makeReady] at hn
    grind [Stmt.isCount]

/-- What follows carries what the cache says. -/
theorem next_fromCache (outputs : db.outputs = cache) (fromCache : s.FromCache cache) :
    ∀ n ∈ (exec H o db s).next, n.FromCache cache := by
  intro n hn
  cases s with
  | dependents build id =>
    rcases mem_next_dependents hn with ⟨t, -, rfl | rfl⟩ | ⟨-, rfl⟩ <;> trivial
  | cacheHit build id key names digests =>
    have here : (db.cached? key).map (·.output) = cache key := congrFun outputs key
    simp only [exec] at hn
    split at hn
    · rename_i row found
      rw [List.mem_singleton.mp hn]
      rw [found] at here
      exact here.symm
    · rename_i missing
      rw [List.mem_singleton.mp hn]
      rw [missing] at here
      exact here.symm
  | complete r size => exact fromCache.elim
  | cachePut b id key output size => exact fromCache.elim
  | retry r now => exact fromCache.elim
  | fail r => exact fromCache.elim
  | _ =>
    simp only [exec, finished, makeReady] at hn
    grind [Stmt.FromCache]

/-- `cache_hit` counts a hit, and no more. -/
theorem outputs_apply_hit {key : Str} {c : CacheRow} (found : db.cached? key = some c) :
    (db.apply (.cache { c with hits := c.hits + 1 })).outputs = db.outputs := by
  funext asked
  have here : c.key = key := by simpa using List.find?_some found
  have known : (db.cache.any fun r => r.key = c.key) = true :=
    List.any_eq_true.mpr ⟨c, List.mem_of_find?_eq_some found, by simp⟩
  have keys : ∀ r : CacheRow, (if r.key = c.key then { c with hits := c.hits + 1 } else r).key = r.key := by
    intro r
    split
    · exact Eq.symm (by assumption)
    · rfl
  simp only [Db.outputs, Db.cached?, Db.apply, known, if_true, List.find?_map, Function.comp_def, keys,
    Option.map_map]
  cases first : db.cache.find? fun r => r.key = asked with
  | none => rfl
  | some r =>
    refine congrArg some ?_
    by_cases same : r.key = c.key
    · -- the first row with this key is the one that was found
      have asks : asked = key := by
        have : r.key = asked := by simpa using List.find?_some first
        rw [← this, same, here]
      rw [asks] at first
      dsimp only
      rw [if_pos same, Option.some.inj (first.symm.trans found)]
    · dsimp only
      rw [if_neg same]

/-- A cascade leaves the outputs in the cache alone. -/
theorem outputs_exec (fromCache : s.FromCache cache) : ((exec H o db s).db db).outputs = db.outputs := by
  rcases write : (exec H o db s).write with _ | row | row | row
  · rw [Outcome.db, write]
    rfl
  · rw [Outcome.db, write]
    rfl
  · rw [Outcome.db, write]
    rfl
  · rw [Outcome.db, write]
    cases exec_caches write with
    | put => exact fromCache.elim
    | hit found => exact outputs_apply_hit found

end Count

/-- A cascade in build `build`, in the middle: with the tasks `ids` shown as unfinished it is a
transaction on top of `com`. The compile tasks of `start` are as they were. -/
structure Cascading (H : Sha256) (com : Db) (cache : Str → Option Str) (build : Nat) (ids : List Nat)
    (start : Db) (c : Cfg) : Prop where
  mid : Mid H com ⟨c.db.reopen build ids, c.stack.filter fun s => !s.isCount, c.trace⟩
  compiles : c.db.Compiles build ids
  outputs : c.db.outputs = cache
  carried : ∀ s ∈ c.stack, s.FromCache cache
  rows : ∀ t ∈ c.db.tasks, t.buildId = build → t.kind ≠ COMPILE → t.ByCache cache ∧ t.Supplied
  kept : ∀ t ∈ start.tasks, t.kind = COMPILE → t ∈ c.db.tasks

section Cascading

variable {H : Sha256} {o : Options} {com start : Db} {cache : Str → Option Str} {build : Nat} {ids : List Nat}
  {c : Cfg} {s : Stmt} {rest : List Stmt}

/-- A task with dependencies to count is an archive or a link. -/
theorem Mid.action_of_pending (m : Mid H com c) (base : Consistent H com) {t : TaskRow} (ht : t ∈ c.db.tasks)
    (positive : 0 < t.pendingDeps) : t.kind ≠ COMPILE := by
  obtain ⟨u, hu, same⟩ := Db.mem_of_fixed m.grows.fixed.symm ht
  have counted := m.counts t ht u hu (uid_of_fixed same).symm
  have before := base.pending u hu
  have some_ : 0 < com.unfinishedDeps u.slot := by omega
  obtain ⟨d, hd, at_⟩ := List.countP_pos_iff.mp some_
  rw [decide_eq_true_eq] at at_
  rw [← kind_of_fixed same]
  exact base.shape d hd at_.2 u hu at_.1.symm

/-- The task row that a statement of a cascade writes. -/
theorem Cascading.written (cas : Cascading H com cache build ids start c) (base : Consistent H com)
    (top : c.stack = s :: rest) (noCount : s.isCount = false) {row : TaskRow}
    (wrote : (DistCompile.exec H o c.db s).write = some (.task row)) :
    ∃ t ∈ c.db.tasks, row.fixed = t.fixed ∧ t.kind ≠ COMPILE ∧
      (t.ByCache cache ∧ t.Supplied → row.ByCache cache ∧ row.Supplied) := by
  have fromCache := cas.carried s (by simp [top])
  have shown : Mid H com ⟨c.db.reopen build ids, s :: rest.filter fun s => !s.isCount, c.trace⟩ := by
    have m := cas.mid
    rwa [top, List.filter_cons_of_pos (by rw [noCount]; rfl)] at m
  have kd : c.db.Keyed := (cas.mid.keyed base.keyed).of_fixed (c.db.reopen_fixed build ids).symm
  have ok := shown.ok s (by simp)
  cases s with
  | countDown b id uid =>
    obtain ⟨u, hu, uid_eq, build_eq⟩ := ok
    have positive := (shown.countDown_due base rfl hu uid_eq build_eq).2
    have waits := (shown.waiting u hu).mpr (Or.inl positive)
    have action := shown.action_of_pending base hu positive
    obtain ⟨t, ht, rfl⟩ := List.mem_map.mp hu
    rw [reopen_kind] at action
    rw [cas.compiles.reopen ht action] at waits
    rw [reopen_uid] at uid_eq
    simp only [DistCompile.exec, (Db.task?_eq_some kd).mpr ⟨ht, uid_eq⟩] at wrote
    cases wrote
    exact ⟨t, ht, rfl, action, fun before => before⟩
  | markCached b id key output =>
    obtain ⟨-, u, hu, slot, action, -⟩ := ok
    obtain ⟨t, ht, rfl⟩ := List.mem_map.mp hu
    rw [reopen_kind] at action
    rw [reopen_slot] at slot
    simp only [DistCompile.exec, (Db.taskAt?_eq_some kd).mpr ⟨ht, slot⟩] at wrote
    cases wrote
    refine ⟨t, ht, by simp [TaskRow.fixed, action, TaskRow.slot], action, fun _ => ⟨?_, fun ready => ?_⟩⟩
    · exact Or.inr (Or.inl ⟨key, output, rfl, rfl, rfl, fromCache⟩)
    · cases ready
  | markReady b id key names digests =>
    obtain ⟨-, -, u, hu, slot, action, -⟩ := ok
    have waits := (shown.waiting u hu).mpr (Or.inr (by rw [slot]; rfl))
    obtain ⟨t, ht, rfl⟩ := List.mem_map.mp hu
    rw [reopen_kind] at action
    rw [reopen_slot] at slot
    rw [cas.compiles.reopen ht action] at waits
    simp only [DistCompile.exec, (Db.taskAt?_eq_some kd).mpr ⟨ht, slot⟩] at wrote
    cases wrote
    refine ⟨t, ht, by simp [TaskRow.fixed, action, TaskRow.slot], action, fun before => ⟨?_, fun _ => ⟨⟨_, rfl⟩, _, rfl⟩⟩⟩
    -- a task that waits has no output yet
    rcases before.1 with ⟨-, -, none_⟩ | ⟨_, _, cached, -⟩ | ⟨_, ready, -⟩
    · exact Or.inr (Or.inr ⟨key, rfl, rfl, none_, fromCache⟩)
    · rw [waits] at cached
      cases cached
    · rw [waits] at ready
      cases ready
  | complete r size => exact fromCache.elim
  | cachePut b id key output size => exact fromCache.elim
  | retry r now => exact fromCache.elim
  | fail r => exact fromCache.elim
  | _ => simp only [DistCompile.exec] at wrote; grind

/-- What a statement carries is about tasks and edges. -/
theorem ok_same {db db' : Db} (tasks : db'.tasks = db.tasks) (deps : db'.deps = db.deps) (ok : s.Ok H db) :
    s.Ok H db' := by
  have inputs := inputsOf_same tasks deps
  have names : ∀ slot, db'.inputNames slot = db.inputNames slot := fun slot => by
    rw [Db.inputNames, Db.inputNames, inputs]
  have digests : ∀ slot, db'.inputDigests slot = db.inputDigests slot := fun slot => by
    rw [Db.inputDigests, Db.inputDigests, inputs]
  have key : ∀ t, db'.keyOf H t = db.keyOf H t := fun t => by
    rw [Db.keyOf, Db.keyOf, names, digests]
  cases s <;> first | trivial | simpa only [Stmt.Ok, tasks, names, digests, key] using ok

/-- A count in the middle of a cascade. -/
theorem Cascading.mid_count (cas : Cascading H com cache build ids start c) (top : c.stack = s :: rest)
    (count : s.isCount = true) :
    Mid H com ⟨((exec H o c.db s).db c.db).reopen build ids,
      ((exec H o c.db s).next ++ rest).filter fun s => !s.isCount, c.trace ++ (exec H o c.db s).event.toList⟩ := by
  obtain ⟨write, next, -, counted⟩ := exec_count (H := H) (o := o) c.db cache count
  have same : ((exec H o c.db s).db c.db).tasks = c.db.tasks ∧ ((exec H o c.db s).db c.db).deps = c.db.deps ∧
      ((exec H o c.db s).db c.db).serials = c.db.serials ∧ ((exec H o c.db s).db c.db).cache = c.db.cache := by
    rcases write with none_ | ⟨row, wrote⟩
    · rw [Outcome.db, none_]
      exact ⟨rfl, rfl, rfl, rfl⟩
    · rw [Outcome.db, wrote]
      exact ⟨rfl, rfl, rfl, rfl⟩
  have tasks : (((exec H o c.db s).db c.db).reopen build ids).tasks = (c.db.reopen build ids).tasks := by
    rw [Db.reopen, Db.reopen, same.1]
  have stack : (((exec H o c.db s).next ++ rest).filter fun s => !s.isCount) =
      c.stack.filter fun s => !s.isCount := by
    rw [List.filter_append, next, List.nil_append, top, List.filter_cons_of_neg (by rw [count]; simp)]
  have m := cas.mid
  refine m.quiet tasks same.2.1 same.2.2.1 (fun r hr => ?_) ?_ (by rw [stack]) (by rw [stack])
    (fun r hr => ?_) (by rw [stack]; exact m.loops)
  · change r ∈ ((exec H o c.db s).db c.db).cache at hr
    rw [same.2.2.2] at hr
    exact m.cache r hr
  · simp only [countedEdges] at counted
    simp only [countedEdges, List.filterMap_append, counted, List.append_nil]
  · rw [stack] at hr
    exact ok_same tasks same.2.1 (m.ok r hr)

/-- Any other statement in the middle of a cascade. -/
theorem Cascading.mid_exec (cas : Cascading H com cache build ids start c) (base : Consistent H com)
    (top : c.stack = s :: rest) (noCount : s.isCount = false) :
    Mid H com ⟨((exec H o c.db s).db c.db).reopen build ids,
      ((exec H o c.db s).next ++ rest).filter fun s => !s.isCount, c.trace ++ (exec H o c.db s).event.toList⟩ := by
  have fromCache := cas.carried s (by simp [top])
  have stack : (c.stack.filter fun s => !s.isCount) = s :: rest.filter fun s => !s.isCount := by
    rw [top, List.filter_cons_of_pos (by rw [noCount]; rfl)]
  have shown : Mid H com ⟨c.db.reopen build ids, s :: rest.filter fun s => !s.isCount, c.trace⟩ :=
    stack ▸ cas.mid
  have after := shown.exec base o rfl
  rw [Cfg.after, exec_reopen shown base cas.compiles fromCache noCount] at after
  have tables : (exec H o c.db s).db (c.db.reopen build ids) = ((exec H o c.db s).db c.db).reopen build ids := by
    cases write : (exec H o c.db s).write with
    | none => rw [Outcome.db, Outcome.db, write]; rfl
    | some w =>
      rw [Outcome.db, Outcome.db, write]
      refine apply_reopen w fun row same => if_neg fun here => ?_
      obtain ⟨t, ht, fixed, action, -⟩ := cas.written (o := o) base top noCount (same ▸ write)
      exact action (cas.compiles t ht ((build_of_fixed fixed).symm.trans here.1) (id_of_fixed fixed ▸ here.2))
  rw [tables] at after
  rcases next_counts (H := H) (o := o) c.db fromCache noCount with plain | ⟨b, id, rfl, sink⟩
  · rw [List.filter_append, plain]
    exact after
  · -- `maybe_finish` is not shown
    rw [List.filter_append, sink]
    simp only [sink] at after
    exact after.drop rfl rfl rfl

/-- The task rows after a statement: the old ones, but for the one that was written. -/
theorem Cascading.tasks_exec (cas : Cascading H com cache build ids start c) (base : Consistent H com)
    (top : c.stack = s :: rest) :
    (∀ u ∈ ((exec H o c.db s).db c.db).tasks, u ∈ c.db.tasks ∨
      ∃ t ∈ c.db.tasks, u.fixed = t.fixed ∧ t.kind ≠ COMPILE ∧
        (t.ByCache cache ∧ t.Supplied → u.ByCache cache ∧ u.Supplied)) ∧
      ∀ t ∈ c.db.tasks, t.kind = COMPILE → t ∈ ((exec H o c.db s).db c.db).tasks := by
  rcases write : (exec H o c.db s).write with _ | row | row | row
  · rw [Outcome.db, write]
    exact ⟨fun u hu => Or.inl hu, fun t ht _ => ht⟩
  · have noCount : s.isCount = false := by
      cases count : s.isCount with
      | false => rfl
      | true =>
        rcases (exec_count (H := H) (o := o) c.db cache count).1 with none_ | ⟨b, build⟩
        · rw [none_] at write
          cases write
        · rw [build] at write
          cases write
    obtain ⟨t, ht, fixed, action, keeps⟩ := cas.written base top noCount write
    have kd : c.db.Keyed := (cas.mid.keyed base.keyed).of_fixed (c.db.reopen_fixed build ids).symm
    rw [Outcome.db, write]
    refine ⟨fun u hu => ?_, fun u hu compile => ?_⟩
    · rcases (Db.mem_apply_task ht fixed).mp hu with rfl | ⟨old, -⟩
      · exact Or.inr ⟨t, ht, fixed, action, keeps⟩
      · exact Or.inl old
    · refine (Db.mem_apply_task ht fixed).mpr (Or.inr ⟨hu, fun same => action ?_⟩)
      rw [← kd.uid_inj hu ht (same.trans (uid_of_fixed fixed)), compile]
  · rw [Outcome.db, write]
    exact ⟨fun u hu => Or.inl hu, fun t ht _ => ht⟩
  · rw [Outcome.db, write, Option.elim_some, c.db.apply_cache_tasks row]
    exact ⟨fun u hu => Or.inl hu, fun t ht _ => ht⟩

/-- Every statement of a cascade keeps it going. -/
theorem Cascading.exec (cas : Cascading H com cache build ids start c) (base : Consistent H com)
    (top : c.stack = s :: rest) :
    Cascading H com cache build ids start (c.after (exec H o c.db s) rest) := by
  have fromCache := cas.carried s (by simp [top])
  have mid : Mid H com ⟨((DistCompile.exec H o c.db s).db c.db).reopen build ids,
      ((DistCompile.exec H o c.db s).next ++ rest).filter fun s => !s.isCount,
      c.trace ++ (DistCompile.exec H o c.db s).event.toList⟩ := by
    cases count : s.isCount with
    | true => exact cas.mid_count top count
    | false => exact cas.mid_exec base top count
  obtain ⟨rows, kept⟩ := cas.tasks_exec (o := o) base top
  refine ⟨mid, fun u hu inBuild listed => ?_, (outputs_exec fromCache).trans cas.outputs, fun n hn => ?_,
    fun u hu inBuild action => ?_, fun t ht compile => kept t (cas.kept t ht compile) compile⟩
  · rcases rows u hu with old | ⟨t, ht, fixed, -, -⟩
    · exact cas.compiles u old inBuild listed
    · rw [kind_of_fixed fixed]
      exact cas.compiles t ht ((build_of_fixed fixed).symm.trans inBuild) (id_of_fixed fixed ▸ listed)
  · rcases List.mem_append.mp hn with next | later
    · exact next_fromCache cas.outputs fromCache n next
    · exact cas.carried n (by simp [top, later])
  · rcases rows u hu with old | ⟨t, ht, fixed, action, keeps⟩
    · exact cas.rows u old inBuild action
    · exact keeps (cas.rows t ht ((build_of_fixed fixed).symm.trans inBuild) action)

/-- A cascade comes to an end. -/
theorem Cascading.ends (o : Options) (cas : Cascading H com cache build ids start c) (base : Consistent H com) :
    ∃ c', c'.stack = [] ∧ Cascading H com cache build ids start c' ∧ Clears (DistCompile.exec H o) c.db c.stack c'.db := by
  refine clears_of_steps (b := Cfg.bound) (fun {c s rest} cas top => ⟨cas.exec base top, bound_exec ?_ top⟩) cas
  exact (cas.mid.keyed base.keyed).of_fixed (c.db.reopen_fixed build ids).symm

end Cascading

/-! ### Calls of `finished`, one after the other -/

/-- Between two calls: the tasks `ids` are compiled, but not yet counted down. -/
structure Uncounted (H : Sha256) (cache : Str → Option Str) (build : Nat) (ids : List Nat) (start db : Db) :
    Prop where
  base : Consistent H (db.reopen build ids)
  compiled : ∀ id ∈ ids, ∃ t ∈ db.tasks, t.slot = (build, id) ∧ t.kind = COMPILE ∧ t.state.finished = true ∧
    HasOutput t
  outputs : db.outputs = cache
  rows : ∀ t ∈ db.tasks, t.buildId = build → t.kind ≠ COMPILE → t.ByCache cache ∧ t.Supplied
  fixed : db.tasks.map TaskRow.fixed = start.tasks.map TaskRow.fixed
  deps : db.deps = start.deps
  kept : ∀ t ∈ start.tasks, t.kind = COMPILE → t ∈ db.tasks

section Uncounted

variable {H : Sha256} {start db : Db} {cache : Str → Option Str} {build id : Nat} {ids : List Nat}

theorem Uncounted.keyed (un : Uncounted H cache build ids start db) : db.Keyed :=
  un.base.keyed.of_fixed (db.reopen_fixed build ids).symm

theorem Uncounted.compiles (un : Uncounted H cache build ids start db) : db.Compiles build ids := by
  intro u hu inBuild listed
  obtain ⟨t, ht, slot, compile, -⟩ := un.compiled u.id listed
  rwa [un.keyed.slot_inj hu ht (by rw [slot, TaskRow.slot, inBuild])]

/-- The next task is finished: now it is shown as it is, with its edges due. -/
theorem Uncounted.finish (un : Uncounted H cache build (id :: ids) start db) (fresh : id ∉ ids) :
    Mid H (db.reopen build (id :: ids)) ⟨db.reopen build ids, [.dependents build id], []⟩ := by
  obtain ⟨t, ht, slot, compile, done, output⟩ := un.compiled id (by simp)
  have parts : t.buildId = build ∧ t.id = id := by simpa [TaskRow.slot] using slot
  have state : (t.reopen build (id :: ids)).state = .ready := by
    rw [TaskRow.reopen, if_pos ⟨parts.1, by simp [parts.2]⟩]
  have hr : t.reopen build (id :: ids) ∈ (db.reopen build (id :: ids)).tasks := List.mem_map_of_mem ht
  have tables : (db.reopen build (id :: ids)).apply (.task t) = db.reopen build ids := by
    simp only [Db.apply, Db.reopen, List.map_map, Db.mk.injEq, true_and, and_true]
    refine List.map_congr_left fun u hu => ?_
    rw [Function.comp_apply, reopen_uid]
    split
    · rename_i same
      rw [un.keyed.uid_inj hu ht same, TaskRow.reopen, if_neg fun here => fresh (parts.2 ▸ here.2)]
    · rename_i other
      have away : u.buildId = build → u.id ≠ id := fun b i => other (by
        rw [un.keyed.slot_inj hu ht (by rw [slot, TaskRow.slot, b, i])])
      simp only [TaskRow.reopen, List.mem_cons]
      by_cases inBuild : u.buildId = build
      · simp [inBuild, away inBuild]
      · simp [inBuild]
  rw [← tables]
  refine (Mid.start un.base (s := .progress build) trivial rfl rfl).finish un.base rfl rfl hr
    (fun s here => by cases here) (reopen_fixed t).symm (by rw [state]; rfl) done (reopen_pendingDeps t).symm ?_
    output (fun action => absurd compile action) ?_ rfl trivial
  · intro positive
    have waits := (un.base.waiting _ hr).mpr positive
    rw [state] at waits
    cases waits
  · rw [reopen_slot, slot]
    rfl

/-- One call of `finished`. -/
theorem Uncounted.call (o : Options) (un : Uncounted H cache build (id :: ids) start db) (fresh : id ∉ ids) :
    ∃ db', Clears (exec H o) db (finished build id) db' ∧ Uncounted H cache build ids start db' := by
  have cas : Cascading H (db.reopen build (id :: ids)) cache build ids db ⟨db, finished build id, []⟩ := by
    refine ⟨un.finish fresh, fun t ht b i => un.compiles t ht b (by simp [i]), un.outputs, fun s hs => ?_, un.rows,
      fun t ht _ => ht⟩
    rw [List.mem_singleton.mp hs]
    trivial
  obtain ⟨c, empty, cas', clears⟩ := cas.ends o un.base
  have mid := cas'.mid
  rw [empty, List.filter_nil] at mid
  refine ⟨c.db, clears, mid.done un.base rfl, fun i listed => ?_, cas'.outputs, cas'.rows, ?_, ?_,
    fun t ht compile => cas'.kept t (un.kept t ht compile) compile⟩
  · obtain ⟨t, ht, slot, compile, rest⟩ := un.compiled i (by simp [listed])
    exact ⟨t, cas'.kept t ht compile, slot, compile, rest⟩
  · have grown := mid.grows.fixed
    simp only [Db.reopen_fixed] at grown
    exact grown.trans un.fixed
  · exact mid.grows.deps.trans un.deps

/-- The calls for all of them, in the order given. -/
theorem Uncounted.calls (o : Options) (nodup : ids.Nodup) (un : Uncounted H cache build ids start db) :
    ∃ db', Clears (exec H o) db (ids.flatMap (finished build)) db' ∧ Uncounted H cache build [] start db' := by
  induction ids generalizing db with
  | nil => exact ⟨db, .nil, un⟩
  | cons id ids ih =>
    obtain ⟨fresh, nodup⟩ := List.nodup_cons.mp nodup
    obtain ⟨middle, first, un'⟩ := un.call o fresh
    obtain ⟨db', later, last⟩ := ih nodup un'
    exact ⟨db', first.append later, last⟩

end Uncounted

end DistCompile
