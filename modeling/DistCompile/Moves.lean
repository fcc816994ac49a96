import DistCompile.Counters
import DistCompile.Lease

/-!
What the calls can do to one row of the `tasks` table, for any submitted graph
(`src/coordinator.cpp`).

`Move` lists the changes: a result ends an open task, a retry or the reaper takes a
running one back, a countdown lowers the counter, `make_ready` queues a task or marks it
cached. The statements of `make_ready` have no guard of their own, but they only ever
reach a task whose counter has just come down to zero, and a task that still counts down
is as `submit` inserted it: its state and attempts satisfy the `Young` predicate of the
run (`Counting`).

`Ongoing` is the invariant of a transaction under way, and `Step.moves` says where each row
of the tables after a call comes from.
-/

namespace DistCompile

open DistCompile.Lib DistCompile.Graph

/-! ### Changes of a row -/

/-- The columns that no move touches. -/
structure TaskRow.Same (t t' : TaskRow) : Prop where
  uid : t'.uid = t.uid
  buildId : t'.buildId = t.buildId
  id : t'.id = t.id
  kind : t'.kind = t.kind
  attempts : t'.attempts = t.attempts

/-- What one statement can do to a row. `Young` says what a row that still counts down
looks like, `back` which running rows may be taken back. -/
inductive TaskRow.Move (o : Options) (Young : TaskState → Nat → Prop) (back : TaskRow → Prop) :
    TaskRow → TaskRow → Prop where
  | ended {t t' : TaskRow} (same : t.Same t') (pending : t'.pendingDeps = t.pendingDeps)
      (wasOpen : t.state.open = true) (closed : t'.state = .done ∨ t'.state = .failed) : Move o Young back t t'
  | requeued {t t' : TaskRow} (same : t.Same t') (pending : t'.pendingDeps = t.pendingDeps)
      (running : t.state = .running) (allowed : back t) (state : t'.state = requeue o t.attempts) :
      Move o Young back t t'
  | counted {t : TaskRow} : Move o Young back t { t with pendingDeps := t.pendingDeps - 1 }
  | made {t t' : TaskRow} (same : t.Same t') (pending : t'.pendingDeps = t.pendingDeps)
      (young : Young t.state t.attempts) (zero : t.pendingDeps ≤ 0)
      (state : t'.state = .ready ∨ t'.state = .cached) : Move o Young back t t'

theorem TaskRow.Same.refl (t : TaskRow) : t.Same t := ⟨rfl, rfl, rfl, rfl, rfl⟩

theorem TaskRow.Same.trans {t t' t'' : TaskRow} (first : t.Same t') (second : t'.Same t'') : t.Same t'' :=
  ⟨second.uid.trans first.uid, second.buildId.trans first.buildId, second.id.trans first.id,
    second.kind.trans first.kind, second.attempts.trans first.attempts⟩

theorem TaskRow.Same.slot {t t' : TaskRow} (same : t.Same t') : t'.slot = t.slot := by
  rw [TaskRow.slot, TaskRow.slot, same.buildId, same.id]

section Moves

variable {o : Options} {Young : TaskState → Nat → Prop} {back : TaskRow → Prop} {t t' : TaskRow}

theorem TaskRow.Move.same (move : t.Move o Young back t') : t.Same t' := by
  cases move with
  | ended same | requeued same | made same => exact same
  | counted => exact ⟨rfl, rfl, rfl, rfl, rfl⟩

/-- A row still counts down only if it did before, and it is still young. -/
theorem TaskRow.Move.young (closed : ∀ {s a}, Young s a → s.open = false) (move : t.Move o Young back t')
    (holds : 0 < t.pendingDeps → Young t.state t.attempts) (counts : 0 < t'.pendingDeps) :
    Young t'.state t'.attempts := by
  cases move with
  | ended same pending wasOpen =>
    rw [pending] at counts
    rw [closed (holds counts)] at wasOpen
    cases wasOpen
  | requeued same pending running =>
    rw [pending] at counts
    have shut := closed (holds counts)
    rw [running] at shut
    cases shut
  | counted =>
    change 0 < t.pendingDeps - 1 at counts
    exact holds (by omega)
  | made same pending young zero =>
    rw [pending] at counts
    omega

/-- No move makes a task wait. -/
theorem TaskRow.Move.waiting (move : t.Move o Young back t') (waits : t'.state = .waiting) :
    t.state = .waiting := by
  cases move with
  | ended same pending wasOpen closed => rcases closed with closed | closed <;> rw [closed] at waits <;> cases waits
  | requeued same pending running allowed state =>
    rw [state] at waits
    exact absurd waits (requeue_not_waiting o t.attempts)
  | counted => exact waits
  | made same pending young zero state => rcases state with state | state <;> rw [state] at waits <;> cases waits

/-- A move into the queue: `make_ready`, or the row was running. -/
theorem TaskRow.Move.ready (move : t.Move o Young back t') (queued : t'.state = .ready) :
    t.state = .ready ∨ Young t.state t.attempts ∨
      t.state = .running ∧ back t ∧ (t.attempts : Int) < o.maxAttempts := by
  cases move with
  | ended same pending wasOpen closed => rcases closed with closed | closed <;> rw [closed] at queued <;> cases queued
  | requeued same pending running allowed state =>
    rw [state, requeue] at queued
    split at queued
    · cases queued
    · rename_i few
      exact Or.inr (Or.inr ⟨running, allowed, by omega⟩)
  | counted => exact Or.inl queued
  | made same pending young zero state => exact Or.inr (Or.inl young)

/-- A row that runs after a move ran before. -/
theorem TaskRow.Move.running (move : t.Move o Young back t') (runs : t'.state = .running) :
    t' = { t with pendingDeps := t.pendingDeps - 1 } := by
  cases move with
  | ended same pending wasOpen closed => rcases closed with closed | closed <;> rw [closed] at runs <;> cases runs
  | requeued same pending running allowed state =>
    rw [state] at runs
    exact absurd runs (requeue_not_running o t.attempts)
  | counted => rfl
  | made same pending young zero state => rcases state with state | state <;> rw [state] at runs <;> cases runs

/-- Several moves. -/
abbrev TaskRow.Moves (o : Options) (Young : TaskState → Nat → Prop) (back : TaskRow → Prop) :
    TaskRow → TaskRow → Prop :=
  Relation.ReflTransGen (TaskRow.Move o Young back)

theorem TaskRow.Moves.same (moves : TaskRow.Moves o Young back t t') : t.Same t' := by
  induction moves with
  | refl => exact .refl t
  | tail _ move ih => exact ih.trans move.same

theorem TaskRow.Moves.waiting (moves : TaskRow.Moves o Young back t t') (waits : t'.state = .waiting) :
    t.state = .waiting := by
  induction moves with
  | refl => exact waits
  | tail _ move ih => exact ih (move.waiting waits)

theorem TaskRow.Moves.running (moves : TaskRow.Moves o Young back t t') (runs : t'.state = .running) :
    ∃ pendingDeps, t' = { t with pendingDeps } := by
  induction moves with
  | refl => exact ⟨t.pendingDeps, rfl⟩
  | @tail m t' _ move ih =>
    have same := move.running runs
    rw [same] at runs
    obtain ⟨pendingDeps, rfl⟩ := ih runs
    exact ⟨_, same⟩

/-- A claimed task that is in the queue after some moves was there before, or was running
and might be taken back. -/
theorem TaskRow.Moves.ready (unclaimed : ∀ {s a}, Young s a → a = 0)
    (counts : ∀ {t pendingDeps}, back { t with pendingDeps } → back t)
    (moves : TaskRow.Moves o Young back t t') (claimed : 0 < t.attempts) (queued : t'.state = .ready) :
    t.state = .ready ∨ t.state = .running ∧ back t ∧ (t.attempts : Int) < o.maxAttempts := by
  induction moves with
  | refl => exact Or.inl queued
  | @tail m t' before move ih =>
    have attempts : m.attempts = t.attempts := (show TaskRow.Moves o Young back t m from before).same.attempts
    rcases move.ready queued with ready | young | ⟨running, allowed, few⟩
    · exact ih ready
    · have := unclaimed young
      omega
    · obtain ⟨pendingDeps, rfl⟩ := TaskRow.Moves.running before running
      exact Or.inr ⟨running, counts allowed, few⟩

end Moves

/-! ### Tables -/

/-- Slots are keys, a task that waits has not been claimed, and one that still counts
down is young. -/
structure Counting (Young : TaskState → Nat → Prop) (db : Db) : Prop where
  uids : db.Uids
  slots : (db.tasks.map TaskRow.slot).Nodup
  builds : ∀ t ∈ db.tasks, t.buildId < db.nextBuild
  waiting : ∀ t ∈ db.tasks, t.state = .waiting → t.attempts = 0
  young : ∀ t ∈ db.tasks, 0 < t.pendingDeps → Young t.state t.attempts

/-- Every row of `db'` is a row of `db` after some moves, and none is missing. -/
structure Moved (o : Options) (Young : TaskState → Nat → Prop) (back : TaskRow → Prop) (db db' : Db) :
    Prop where
  serials : db'.serials = db.serials
  uids : db'.tasks.map TaskRow.uid = db.tasks.map TaskRow.uid
  rows : ∀ t' ∈ db'.tasks, ∃ t ∈ db.tasks, TaskRow.Moves o Young back t t'

section Tables

variable {o : Options} {Young : TaskState → Nat → Prop} {back : TaskRow → Prop} {db db' db'' : Db}

theorem Moved.refl (db : Db) : Moved o Young back db db := ⟨rfl, rfl, fun t ht => ⟨t, ht, .refl⟩⟩

theorem Moved.trans (first : Moved o Young back db db') (second : Moved o Young back db' db'') :
    Moved o Young back db db'' := by
  refine ⟨second.serials.trans first.serials, second.uids.trans first.uids, fun t'' ht'' => ?_⟩
  obtain ⟨t', ht', later⟩ := second.rows t'' ht''
  obtain ⟨t, ht, earlier⟩ := first.rows t' ht'
  exact ⟨t, ht, earlier.trans later⟩

/-- What becomes of a row. -/
theorem Moved.forward (moved : Moved o Young back db db') (uids : db.Uids) {t : TaskRow} (ht : t ∈ db.tasks) :
    ∃ t' ∈ db'.tasks, TaskRow.Moves o Young back t t' := by
  have member : t.uid ∈ db'.tasks.map TaskRow.uid := moved.uids ▸ List.mem_map_of_mem ht
  obtain ⟨t', ht', same⟩ := List.mem_map.mp member
  obtain ⟨u, hu, moves⟩ := moved.rows t' ht'
  rw [List.inj_on_of_nodup_map uids.unique ht hu (same.symm.trans moves.same.uid)]
  exact ⟨t', ht', moves⟩

/-- The rows are rewritten one by one. -/
theorem Moved.of_rows {f : TaskRow → TaskRow} (tasks : db'.tasks = db.tasks.map f)
    (serials : db'.serials = db.serials)
    (rows : ∀ t ∈ db.tasks, TaskRow.Moves o Young back t (f t)) : Moved o Young back db db' := by
  refine ⟨serials, ?_, ?_⟩
  · rw [tasks, List.map_map]
    exact List.map_congr_left fun t ht => (rows t ht).same.uid
  · intro t' ht'
    rw [tasks] at ht'
    obtain ⟨t, ht, rfl⟩ := List.mem_map.mp ht'
    exact ⟨t, ht, rows t ht⟩

theorem Counting.of_rows (closed : ∀ {s a}, Young s a → s.open = false) (counting : Counting Young db)
    {f : TaskRow → TaskRow} (tasks : db'.tasks = db.tasks.map f) (serials : db'.serials = db.serials)
    (rows : ∀ t ∈ db.tasks, TaskRow.Moves o Young back t (f t)) : Counting Young db' := by
  have young : ∀ {t t' : TaskRow}, TaskRow.Moves o Young back t t' →
      (0 < t.pendingDeps → Young t.state t.attempts) → 0 < t'.pendingDeps → Young t'.state t'.attempts := by
    intro t t' moves holds
    induction moves with
    | refl => exact holds
    | tail _ move ih => exact move.young closed ih
  refine ⟨counting.uids.of_rows tasks (congrArg Prod.snd serials) fun t ht => (rows t ht).same.uid, ?_, ?_, ?_, ?_⟩
  · have same : db'.tasks.map TaskRow.slot = db.tasks.map TaskRow.slot := by
      rw [tasks, List.map_map]
      exact List.map_congr_left fun t ht => (rows t ht).same.slot
    rw [same]
    exact counting.slots
  all_goals
    intro t' ht'
    rw [tasks] at ht'
    obtain ⟨t, ht, rfl⟩ := List.mem_map.mp ht'
  · rw [(rows t ht).same.buildId, show db'.nextBuild = db.nextBuild from congrArg Prod.fst serials]
    exact counting.builds t ht
  · intro waits
    rw [(rows t ht).same.attempts]
    exact counting.waiting t ht ((rows t ht).waiting waits)
  · exact young (rows t ht) (counting.young t ht)

/-- One row is rewritten. -/
theorem Counting.write (closed : ∀ {s a}, Young s a → s.open = false) (counting : Counting Young db)
    {t row : TaskRow} (ht : t ∈ db.tasks) (move : t.Move o Young back row) :
    Counting Young (db.apply (.task row)) ∧ Moved o Young back db (db.apply (.task row)) := by
  have rows : ∀ u ∈ db.tasks, TaskRow.Moves o Young back u (if u.uid = row.uid then row else u) := by
    intro u hu
    split
    · rename_i same
      rw [List.inj_on_of_nodup_map counting.uids.unique hu ht (same.trans move.same.uid)]
      exact .single move
    · exact .refl
  exact ⟨counting.of_rows closed rfl rfl rows, Moved.of_rows rfl rfl rows⟩

end Tables

/-! ### A transaction under way -/

/-- The task in the slot is young and has counted down. -/
def YoungAt (Young : TaskState → Nat → Prop) (db : Db) (s : Nat × Nat) : Prop :=
  ∀ t ∈ db.tasks, t.slot = s → Young t.state t.attempts ∧ t.pendingDeps ≤ 0

/-- What the values carried by a statement satisfy, for any graph. -/
def Stmt.Fits (Young : TaskState → Nat → Prop) (db : Db) : Stmt → Prop
  | .countDown build _ uid => ∃ t ∈ db.tasks, t.uid = uid ∧ t.buildId = build
  | .taskInfo build id | .depOutputs build id _ _ _ | .cacheHit build id _ _ _ | .markCached build id _ _
  | .markReady build id _ _ _ => YoungAt Young db (build, id)
  | _ => True

/-- The rows that a statement may take back. -/
def Stmt.takesBack : Stmt → TaskRow → Prop
  | .retry r _, t => t.uid = r.taskUid ∧ t.attempts = r.attempt
  | _, _ => False

structure Ongoing (o : Options) (Young : TaskState → Nat → Prop) (back : TaskRow → Prop) (com : Db) (c : Cfg) :
    Prop where
  counting : Counting Young c.db
  moved : Moved o Young back com c.db
  fits : ∀ s ∈ c.stack, s.Fits Young c.db
  loops : ∀ s ∈ c.stack.tail, s.isLoop = true
  back : ∀ s ∈ c.stack, ∀ t, s.takesBack t → back t

section Statements

variable {H : Sha256} {o : Options} {Young : TaskState → Nat → Prop} {back : TaskRow → Prop} {db com : Db}

/-- The row a statement writes is one it found, after a move. -/
theorem exec_moves {s : Stmt} (fits : s.Fits Young db) {row : TaskRow}
    (written : (exec H o db s).write = some (.task row)) :
    ∃ t ∈ db.tasks, t.Move o Young s.takesBack row := by
  obtain ⟨t, ht, next, -, rewrites⟩ := exec_rewrites written
  refine ⟨t, ht, ?_⟩
  cases rewrites with
  | complete found isOpen => exact .ended ⟨rfl, rfl, rfl, rfl, rfl⟩ rfl isOpen (Or.inl rfl)
  | retry found running attempt => exact .requeued ⟨rfl, rfl, rfl, rfl, rfl⟩ rfl running ⟨(mem_of_task? found).2, attempt⟩ rfl
  | fail found isOpen => exact .ended ⟨rfl, rfl, rfl, rfl, rfl⟩ rfl isOpen (Or.inr rfl)
  | countDown => exact .counted
  | markCached =>
    obtain ⟨young, zero⟩ := fits t ht rfl
    exact .made ⟨rfl, rfl, rfl, rfl, rfl⟩ rfl young zero (Or.inr rfl)
  | markReady =>
    obtain ⟨young, zero⟩ := fits t ht rfl
    exact .made ⟨rfl, rfl, rfl, rfl, rfl⟩ rfl young zero (Or.inl rfl)

theorem TaskRow.Move.mono {back' : TaskRow → Prop} (more : ∀ t, back t → back' t) {t t' : TaskRow}
    (move : t.Move o Young back t') : t.Move o Young back' t' := by
  cases move with
  | ended same pending wasOpen closed => exact .ended same pending wasOpen closed
  | requeued same pending running allowed state => exact .requeued same pending running (more t allowed) state
  | counted => exact .counted
  | made same pending young zero state => exact .made same pending young zero state

theorem TaskRow.Moves.allow {back' : TaskRow → Prop} {t t' : TaskRow} (moves : TaskRow.Moves o Young back t t')
    (more : ∀ t, back t → back' t) : TaskRow.Moves o Young back' t t' :=
  Relation.ReflTransGen.mono (fun _ _ move => TaskRow.Move.mono more move) _ _ moves

/-- The tables after a statement. -/
theorem exec_counting (closed : ∀ {s a}, Young s a → s.open = false) (counting : Counting Young db) {s : Stmt}
    (fits : s.Fits Young db) (allowed : ∀ t, s.takesBack t → back t) :
    Counting Young ((exec H o db s).db db) ∧ Moved o Young back db ((exec H o db s).db db) := by
  rcases write : (exec H o db s).write with _ | row | row | row
  · rw [Outcome.db, write]
    exact ⟨counting, .refl db⟩
  · rw [Outcome.db, write]
    obtain ⟨t, ht, move⟩ := exec_moves fits write
    exact counting.write closed ht (move.mono allowed)
  · rw [Outcome.db, write]
    exact ⟨⟨⟨counting.uids.unique, counting.uids.fresh⟩, counting.slots, counting.builds, counting.waiting,
      counting.young⟩, ⟨rfl, rfl, fun t ht => ⟨t, ht, .refl⟩⟩⟩
  · rw [Outcome.db, write, Option.elim_some]
    have tasks : (db.apply (.cache row)).tasks = db.tasks.map id := by
      rw [db.apply_cache_tasks row, List.map_id]
    have still : ∀ t ∈ db.tasks, TaskRow.Moves o Young back t (id t) := fun t _ => .refl
    exact ⟨counting.of_rows closed tasks (db.apply_cache_serials row) still,
      Moved.of_rows tasks (db.apply_cache_serials row) still⟩

/-- What a loop statement says of the tables stays true. -/
theorem Stmt.Fits.loop {db' : Db} {s : Stmt} (isLoop : s.isLoop = true) (fits : s.Fits Young db)
    (uids : db.Uids) (moved : Moved o Young back db db') : s.Fits Young db' := by
  cases s with
  | countDown build id uid =>
    obtain ⟨t, ht, rfl, rfl⟩ := fits
    obtain ⟨t', ht', moves⟩ := moved.forward uids ht
    exact ⟨t', ht', moves.same.uid, moves.same.buildId⟩
  | lockRow uid => trivial
  | _ => cases isLoop

/-- A countdown that comes to zero leaves a young task to `make_ready`. -/
theorem countDown_young (counting : Counting Young db) {build id uid : Nat} {t : TaskRow} (ht : t ∈ db.tasks)
    (uid_eq : t.uid = uid) (build_eq : t.buildId = build) (zero : t.pendingDeps - 1 = 0) :
    YoungAt Young ((exec H o db (.countDown build id uid)).db db) (build, t.id) := by
  have found : db.task? uid = some t := uid_eq ▸ counting.uids.task?_eq ht
  intro u hu slot
  simp only [exec, found, Outcome.db, Option.elim_some] at hu
  obtain ⟨v, hv, rfl⟩ := List.mem_map.mp hu
  have young := counting.young t ht (by omega)
  by_cases same : v.uid = t.uid
  · rw [if_pos same]
    exact ⟨young, by simp only; omega⟩
  · rw [if_neg same] at slot
    have here : t.slot = (build, t.id) := by rw [TaskRow.slot, build_eq]
    have := List.inj_on_of_nodup_map counting.slots hv ht (slot.trans here.symm)
    exact absurd (congrArg TaskRow.uid this) same

/-- The statements that follow one: what they carry fits, none of them takes a row
back, and all but the first are loops. -/
theorem exec_next (counting : Counting Young db) {s : Stmt} (fits : s.Fits Young db) :
    (∀ s' ∈ (exec H o db s).next, s'.Fits Young ((exec H o db s).db db) ∧ ∀ t, ¬ s'.takesBack t) ∧
      ∀ s' ∈ (exec H o db s).next.tail, s'.isLoop = true := by
  cases s with
  | complete r size =>
    simp only [exec]
    split
    · split
      · simp [Stmt.Fits, Stmt.takesBack]
      · simp
    · simp
  | cachePut build id key output size => simp [exec, finished, Stmt.Fits, Stmt.takesBack]
  | retry r now =>
    simp only [exec]
    split
    · split
      · dsimp only
        split <;> simp [maybeFinish, Stmt.Fits, Stmt.takesBack]
      · simp
    · simp
  | fail r =>
    simp only [exec]
    split
    · split
      · simp [maybeFinish, Stmt.Fits, Stmt.takesBack]
      · simp
    · simp
  | dependents build id =>
    constructor
    · intro s' member
      rcases mem_next_dependents member with ⟨t, ht, rfl | rfl⟩ | ⟨-, rfl⟩
      · exact ⟨trivial, fun _ takes => takes⟩
      · exact ⟨⟨t, (mem_dependents ht).1, rfl, (mem_dependents ht).2.1⟩, fun _ takes => takes⟩
      · exact ⟨trivial, fun _ takes => takes⟩
    · intro s' member
      rcases mem_next_dependents (List.mem_of_mem_tail member) with ⟨t, ht, rfl | rfl⟩ | ⟨empty, rfl⟩
      · rfl
      · rfl
      · simp [exec, empty, maybeFinish] at member
  | lockRow uid => simp [exec]
  | countDown build id uid =>
    obtain ⟨t, ht, uid_eq, build_eq⟩ := fits
    have found : db.task? uid = some t := uid_eq ▸ counting.uids.task?_eq ht
    have young : t.pendingDeps - 1 = 0 →
        YoungAt Young ((exec H o db (.countDown build id uid)).db db) (build, t.id) :=
      countDown_young counting ht uid_eq build_eq
    simp only [exec, found, Outcome.db, Option.elim_some] at young ⊢
    split
    · rename_i zero
      simpa [makeReady, Stmt.Fits, Stmt.takesBack] using young zero
    · simp
  | taskInfo build id =>
    simp only [exec]
    split
    · simpa [Stmt.Fits, Stmt.takesBack, Outcome.db] using fits
    · simp
  | depOutputs build id kind args toolchain =>
    simpa [exec, Stmt.Fits, Stmt.takesBack, Outcome.db] using fits
  | cacheHit build id key names digests =>
    simp only [exec]
    split
    · simp [Stmt.Fits, Stmt.takesBack, Outcome.db, YoungAt, Db.apply_cache_tasks]
      exact fits
    · simpa [Stmt.Fits, Stmt.takesBack, Outcome.db] using fits
  | markCached build id key output =>
    simp only [exec]
    split
    · simp [finished, Stmt.Fits, Stmt.takesBack]
    · simp
  | markReady build id key names digests =>
    simp only [exec]
    split <;> simp
  | progress build =>
    simp only [exec]
    split_ifs <;> simp [Stmt.Fits, Stmt.takesBack]
  | buildFailed build | buildDone build =>
    simp only [exec]
    split
    · split <;> simp
    · simp

/-- Every statement keeps the invariant. -/
theorem Ongoing.exec (closed : ∀ {s a}, Young s a → s.open = false) {c : Cfg} {s : Stmt} {rest : List Stmt}
    (tx : Ongoing o Young back com c) (top : c.stack = s :: rest) :
    Ongoing o Young back com (c.after (DistCompile.exec H o c.db s) rest) := by
  have loops : ∀ s' ∈ rest, s'.isLoop = true := fun s' member => tx.loops s' (by simp [top, member])
  have fits := tx.fits s (by simp [top])
  obtain ⟨counting, moved⟩ := exec_counting (H := H) (o := o) closed tx.counting fits
    (tx.back s (by simp [top]))
  obtain ⟨following, tail⟩ := exec_next (H := H) (o := o) tx.counting fits
  refine ⟨counting, tx.moved.trans moved, fun s' member => ?_, fun s' member => ?_, fun s' member => ?_⟩
  · rcases List.mem_append.mp member with new | old
    · exact (following s' new).1
    · exact (tx.fits s' (by simp [top, old])).loop (loops s' old) tx.counting.uids moved
  · simp only [Cfg.after] at member
    cases new : (DistCompile.exec H o c.db s).next with
    | nil =>
      rw [new, List.nil_append] at member
      exact loops s' (List.mem_of_mem_tail member)
    | cons first others =>
      rw [new, List.cons_append, List.tail_cons] at member
      rcases List.mem_append.mp member with other | old
      · exact tail s' (by rw [new]; exact other)
      · exact loops s' old
  · rcases List.mem_append.mp member with new | old
    · exact fun t takes => absurd takes ((following s' new).2 t)
    · exact tx.back s' (by simp [top, old])

theorem Ongoing.start (counting : Counting Young db) {s : Stmt} (fits : s.Fits Young db) {trace : List Event} :
    Ongoing o Young s.takesBack db ⟨db, [s], trace⟩ :=
  ⟨counting, .refl db, by simpa using fits, by simp, by simp⟩

/-- A transaction, seen from where it is. -/
theorem Ongoing.here {c : Cfg} (tx : Ongoing o Young back com c) : Ongoing o Young back c.db c :=
  ⟨tx.counting, .refl c.db, tx.fits, tx.loops, tx.back⟩

/-- A transaction run in one go, from one statement. -/
theorem run_moves (closed : ∀ {s a}, Young s a → s.open = false) (counting : Counting Young db) {s : Stmt}
    (fits : s.Fits Young db) {trace : List Event} {fuel : Nat} {c : Cfg}
    (ran : run H o fuel ⟨db, [s], trace⟩ = some c) :
    Counting Young c.db ∧ Moved o Young s.takesBack db c.db := by
  obtain ⟨tx, -⟩ := run_induction (P := Ongoing o Young s.takesBack db) (fun tx => tx.exec closed) ran
    (Ongoing.start counting fits)
  exact ⟨tx.counting, tx.moved⟩

theorem maybeFinish_moves (closed : ∀ {s a}, Young s a → s.open = false) (counting : Counting Young db)
    (build : Nat) : Counting Young (db.maybeFinish H o build) ∧
      Moved o Young back db (db.maybeFinish H o build) := by
  refine maybeFinish_induction (P := fun db' => Counting Young db' ∧ Moved o Young back db db')
    ⟨counting, .refl db⟩ fun {c} ran => ?_
  obtain ⟨counting', moved⟩ := run_moves (s := .progress build) closed counting trivial ran
  refine ⟨counting', moved.serials, moved.uids, fun t' ht' => ?_⟩
  obtain ⟨t, ht, moves⟩ := moved.rows t' ht'
  exact ⟨t, ht, moves.allow fun _ takes => absurd takes id⟩

end Statements

/-! ### Submits -/

section Submit

variable {H : Sha256} {o : Options} {Young : TaskState → Nat → Prop} {db : Db} {spec : BuildSpec}

/-- What the walk of `submit` makes of a row; those behind the last task stay empty. -/
structure WalkedRow (spec : BuildSpec) (id : Nat) (r : Resolved) : Prop where
  state : r.state = .waiting ∨ r.state = .cached ∨ r.state = .ready
  outside : spec.tasks[id]? = none → r.pending = 0

theorem WalkedRow.default (spec : BuildSpec) (id : Nat) : WalkedRow spec id {} := ⟨Or.inl rfl, fun _ => rfl⟩

theorem walk_rows {has : Str → Bool} {cache : Str → Option Str} {order : List Nat} {w : Walk}
    (ran : walk H has cache spec order = .ok w) (id : Nat) : WalkedRow spec id (w.row id) := by
  have kept : ∀ id, WalkedRow spec id (w.row id) := by
    refine foldlM_ok (P := fun w : Walk => ∀ id, WalkedRow spec id (w.row id)) (fun {v v' i} _ rows next => ?_)
      (.default spec) ran
    have updated {r : Resolved} := @Function.forall_update_iff _ _ _ v.row i r fun id r => WalkedRow spec id r
    cases walkTask_visits next with
    | outside => exact rows
    | cached found _ => exact updated.mpr ⟨⟨Or.inr (Or.inl rfl), fun none => by simp [found] at none⟩, fun id _ => rows id⟩
    | ready found _ _ _ => exact updated.mpr ⟨⟨Or.inr (Or.inr rfl), fun none => by simp [found] at none⟩, fun id _ => rows id⟩
    | waiting found _ _ => exact updated.mpr ⟨⟨Or.inl rfl, fun none => by simp [found] at none⟩, fun id _ => rows id⟩
  exact kept id

/-- A task that has a dependency without an output waits, or is a compile task whose key is in the
cache. -/
theorem walk_counts {has : Str → Bool} {cache : Str → Option Str} {order : List Nat} {w : Walk}
    (accepted : topoOrder spec.graph = .ok order) (ran : walk H has cache spec order = .ok w) {id : Nat}
    (counts : 0 < (w.row id).pending) : (w.row id).state = .waiting ∨ (w.row id).state = .cached ∧
      ∃ ts, spec.tasks[id]? = some ts ∧ ts.kind = COMPILE ∧ (∃ d ∈ ts.depIds, (w.row d).output = []) ∧
        cache ts.key ≠ none := by
  cases found : spec.tasks[id]? with
  | none => exact absurd ((walk_rows ran id).outside found) (Nat.ne_of_gt counts)
  | some ts =>
    have topo := topoOrder_ok accepted
    have settled := settled_of_walked topo (walk_walked topo ran) found
    have missing : 0 < ts.depIds.countP fun d => (w.row d).output = [] := by
      rw [settled.pending, resolveInputs_pending_eq] at counts
      exact counts
    obtain ⟨d, hd, unknown⟩ := List.countP_pos_iff.mp missing
    rcases settled.state with ⟨cached, complete, hit⟩ | ⟨-, zero, -⟩ | ⟨waits, -, -⟩
    · have compile : ts.kind = COMPILE := by
        by_contra action
        exact Nat.ne_of_gt counts (complete action)
      rw [settled.key, resolveInputs, if_pos compile] at hit
      exact Or.inr ⟨cached, ts, rfl, compile, ⟨d, hd, of_decide_eq_true unknown⟩, by rw [hit]; exact Option.some_ne_none _⟩
    · exact absurd zero (Nat.ne_of_gt counts)
    · exact Or.inl waits

theorem insertRows_counting (counting : Counting Young db) {rank part : Nat → Int} {w : Walk}
    (young : ∀ id, 0 < (w.row id).pending → Young (w.row id).state 0) :
    Counting Young (insertRows db spec rank part w) := by
  have rows : ∀ {P : TaskRow → Prop}, (∀ t ∈ db.tasks, P t) →
      (∀ id ts, P (insertedTask spec rank part db.nextBuild (db.nextUid + id) w.row ts id)) →
      ∀ t ∈ (insertRows db spec rank part w).tasks, P t := by
    intro P old new t ht
    rcases List.mem_append.mp ht with before | inserted
    · exact old t before
    · obtain ⟨id, ts, -, rfl⟩ := mem_insertedTasks.mp inserted
      exact new id ts
  refine ⟨⟨?_, ?_⟩, ?_, rows ?_ ?_, rows counting.waiting ?_, rows counting.young ?_⟩
  · refine nodup_insertRows _ counting.uids.unique (fun i ts j ts' same => Nat.add_left_cancel same)
      fun t ht i ts same => ?_
    have before := counting.uids.fresh t ht
    change t.uid = db.nextUid + i at same
    omega
  · intro t ht
    change t.uid < db.nextUid + spec.tasks.length
    rcases List.mem_append.mp ht with before | new
    · have := counting.uids.fresh t before
      omega
    · obtain ⟨id, ts, found, rfl⟩ := mem_insertedTasks.mp new
      exact Nat.add_lt_add_left (List.getElem?_eq_some_iff.mp found).1 _
  · refine nodup_insertRows _ counting.slots (fun i ts j ts' same => ?_) fun t ht i ts same => ?_
    · exact congrArg Prod.snd same
    · have before := counting.builds t ht
      have build : t.buildId = db.nextBuild := congrArg Prod.fst same
      omega
  · intro t ht
    exact Nat.lt_succ_of_lt (counting.builds t ht)
  · intro id ts
    exact Nat.lt_succ_self db.nextBuild
  · intro id ts _
    rfl
  · intro id ts counts
    change 0 < ((w.row id).pending : Int) at counts
    exact young id (by exact_mod_cast counts)

end Submit

/-! ### Calls -/

/-- The rows a call may take back: those whose lease has run out, or the attempt that
is reported as a transient failure. -/
def Call.takesBack (c : Coordinator) : Call → TaskRow → Prop
  | .completeTask r now _, t =>
      ∃ s, DistCompile.completeTask c.blobs.has c.blobs.sizeOf now r = [s] ∧ s.takesBack t
  | .reap now, t => leaseExpired now t = true
  | _, _ => False

/-- Where a row comes from. -/
inductive Origin (o : Options) (Young : TaskState → Nat → Prop) (c : Coordinator) (call : Call) (t' : TaskRow) :
    Prop where
  | moved (t : TaskRow) (ht : t ∈ c.db.tasks) (moves : TaskRow.Moves o Young (call.takesBack c) t t')
  | claimed (t : TaskRow) (worker toolchain : Str) (part now : Int) (ht : t ∈ c.db.tasks)
      (ready : t.state = .ready) (row : t' = claimedRow o worker now t)
      (reply : call = .claimTask worker toolchain part now (some (assignmentOf t')) ∧ kindName t.kind ≠ none ∨
        call = .claimCrash worker toolchain part now t.uid ∧ kindName t.kind = none)
  | beaten (t : TaskRow) (ht : t ∈ c.db.tasks) (worker : Str) (now : Int) (row : t' = heartbeatRow o worker now t)
  | new (uid : c.db.nextUid ≤ t'.uid) (unclaimed : t'.attempts = 0)

/-- What a call does to the rows. -/
structure Arises (o : Options) (Young : TaskState → Nat → Prop) (c : Coordinator) (call : Call)
    (c' : Coordinator) : Prop where
  counting : Counting Young c'.db
  origin : ∀ t' ∈ c'.db.tasks, Origin o Young c call t'
  kept : ∀ t ∈ c.db.tasks, ∃ t' ∈ c'.db.tasks, t'.uid = t.uid
  serial : c.db.nextUid ≤ c'.db.nextUid

section Calls

variable {H : Sha256} {o : Options} {Young : TaskState → Nat → Prop} {c c' : Coordinator} {call : Call}

theorem Arises.of_moved {db' : Db} {blobs : Blobs} (before : c.db.Uids) (counting : Counting Young db')
    (moved : Moved o Young (call.takesBack c) c.db db') : Arises o Young c call ⟨db', blobs⟩ := by
  refine ⟨counting, fun t' ht' => ?_, fun t ht => ?_, (congrArg Prod.snd moved.serials).ge⟩
  · obtain ⟨t, ht, moves⟩ := moved.rows t' ht'
    exact .moved t ht moves
  · obtain ⟨t', ht', moves⟩ := moved.forward before ht
    exact ⟨t', ht', moves.same.uid⟩

theorem reap_moves (closed : ∀ {s a}, Young s a → s.open = false) {db : Db} (counting : Counting Young db)
    (now : Int) : Counting Young (reap H o db now) ∧
      Moved o Young (fun t => leaseExpired now t = true) db (reap H o db now) := by
  have rows : ∀ t ∈ db.tasks, TaskRow.Moves o Young (fun t => leaseExpired now t = true) t (reapRow o now t) := by
    intro t _
    unfold reapRow
    split
    · exact .refl
    · rename_i expired
      simp only [Bool.not_eq_true', Bool.not_eq_false] at expired
      have running : t.state = .running := by
        simp only [leaseExpired, Bool.and_eq_true, decide_eq_true_eq] at expired
        exact expired.1
      exact .single (.requeued ⟨rfl, rfl, rfl, rfl, rfl⟩ rfl running expired rfl)
  refine reap_induction (P := fun db' => Counting Young db' ∧ Moved o Young _ db db') ?_
    ⟨counting.of_rows closed rfl rfl rows, Moved.of_rows rfl rfl rows⟩
  rintro db' build ⟨counting, moved⟩
  obtain ⟨counts, moves⟩ : Counting Young (db'.maybeFinish H o build) ∧
      Moved o Young (fun t => leaseExpired now t = true) db' (db'.maybeFinish H o build) :=
    maybeFinish_moves closed counting build
  exact ⟨counts, moved.trans moves⟩

theorem claim_arises (counting : Counting Young c.db) {worker toolchain : Str} {part now : Int} {t : TaskRow}
    (closed : ∀ {s a}, Young s a → s.open = false) (ht : t ∈ c.db.tasks) (ready : t.state = .ready)
    (reply : call = .claimTask worker toolchain part now (some (assignmentOf (claimedRow o worker now t))) ∧
        kindName t.kind ≠ none ∨ call = .claimCrash worker toolchain part now t.uid ∧ kindName t.kind = none) :
    Arises o Young c call { c with db := c.db.apply (.task (claimedRow o worker now t)) } := by
  have rows : ∀ u ∈ (c.db.apply (.task (claimedRow o worker now t))).tasks,
      u = claimedRow o worker now t ∨ u ∈ c.db.tasks := by
    intro u hu
    obtain ⟨v, hv, rfl⟩ := List.mem_map.mp hu
    split
    · exact Or.inl rfl
    · exact Or.inr hv
  have member : claimedRow o worker now t ∈ (c.db.apply (.task (claimedRow o worker now t))).tasks :=
    List.mem_map.mpr ⟨t, ht, if_pos rfl⟩
  have slots : (c.db.apply (.task (claimedRow o worker now t))).tasks.map TaskRow.slot =
      c.db.tasks.map TaskRow.slot := by
    rw [Db.apply, List.map_map]
    refine List.map_congr_left fun u hu => ?_
    simp only [Function.comp_apply]
    split
    · rename_i same
      rw [List.inj_on_of_nodup_map counting.uids.unique hu ht same]
      rfl
    · rfl
  -- a ready task does not count down
  have settled : ¬ 0 < t.pendingDeps := by
    intro counts
    have shut := closed (counting.young t ht counts)
    rw [ready] at shut
    cases shut
  refine ⟨⟨(claim_begins counting.uids ht worker now).1, slots ▸ counting.slots, ?_, ?_, ?_⟩, ?_, ?_, le_rfl⟩
  · intro u hu
    rcases rows u hu with rfl | old
    · exact counting.builds t ht
    · exact counting.builds u old
  · intro u hu waits
    rcases rows u hu with rfl | old
    · cases waits
    · exact counting.waiting u old waits
  · intro u hu counts
    rcases rows u hu with rfl | old
    · exact absurd counts settled
    · exact counting.young u old counts
  · intro u hu
    rcases rows u hu with rfl | old
    · exact .claimed t worker toolchain part now ht ready rfl reply
    · exact .moved u old .refl
  · intro u hu
    by_cases same : u.uid = t.uid
    · exact ⟨_, member, same.symm⟩
    · exact ⟨u, List.mem_map.mpr ⟨u, hu, if_neg same⟩, rfl⟩

theorem heartbeat_arises (counting : Counting Young c.db) (worker : Str) (now : Int) :
    Arises o Young c (.heartbeat worker now) { c with db := heartbeat o c.db worker now } := by
  have row : ∀ t, t.Same (heartbeatRow o worker now t) ∧ (heartbeatRow o worker now t).state = t.state ∧
      (heartbeatRow o worker now t).pendingDeps = t.pendingDeps := by
    intro t
    unfold heartbeatRow
    split
    · exact ⟨⟨rfl, rfl, rfl, rfl, rfl⟩, rfl, rfl⟩
    · exact ⟨.refl t, rfl, rfl⟩
  have slots : (heartbeat o c.db worker now).tasks.map TaskRow.slot = c.db.tasks.map TaskRow.slot := by
    rw [heartbeat, List.map_map]
    exact List.map_congr_left fun t _ => (row t).1.slot
  refine ⟨⟨counting.uids.of_rows rfl rfl fun t _ => (row t).1.uid, slots ▸ counting.slots, ?_, ?_, ?_⟩, ?_, ?_,
    le_rfl⟩
  · intro t' ht'
    obtain ⟨t, ht, rfl⟩ := List.mem_map.mp ht'
    rw [(row t).1.buildId]
    exact counting.builds t ht
  · intro t' ht' waits
    obtain ⟨t, ht, rfl⟩ := List.mem_map.mp ht'
    rw [(row t).1.attempts]
    exact counting.waiting t ht ((row t).2.1 ▸ waits)
  · intro t' ht' counts
    obtain ⟨t, ht, rfl⟩ := List.mem_map.mp ht'
    rw [(row t).2.1, (row t).1.attempts]
    exact counting.young t ht ((row t).2.2 ▸ counts)
  · intro t' ht'
    obtain ⟨t, ht, rfl⟩ := List.mem_map.mp ht'
    exact .beaten t ht worker now rfl
  · intro t ht
    exact ⟨_, List.mem_map_of_mem ht, (row t).1.uid⟩

/-- A call that submits only what keeps rows young while they count down. -/
theorem Step.arises (closed : ∀ {s a}, Young s a → s.open = false) (counting : Counting Young c.db)
    (step : Step H o c call c')
    (young : ∀ spec live reply, call = .submitBuild spec live reply → ∀ order w, topoOrder spec.graph = .ok order →
      walk H c.blobs.has c.db.outputs spec order = .ok w → ∀ id, 0 < (w.row id).pending → Young (w.row id).state 0) :
    Arises o Young c call c' := by
  cases step with
  | putBlob _ => exact .of_moved counting.uids counting (.refl _)
  | putRefused _ => exact .of_moved counting.uids counting (.refl _)
  | @submitBuild spec live =>
    rcases ran : DistCompile.submitBuild H o c.blobs.has c.db live spec with ⟨db', e | ⟨build, cached⟩⟩
    · obtain ⟨builds, uids, rfl⟩ := submitBuild_error ran
      refine ⟨⟨⟨counting.uids.unique, fun t ht => ?_⟩, counting.slots, fun t ht => ?_, counting.waiting,
        counting.young⟩, fun t ht => .moved t ht .refl, fun t ht => ⟨t, ht, rfl⟩, Nat.le_add_right _ _⟩
      · exact Nat.lt_add_right _ (counting.uids.fresh t ht)
      · exact Nat.lt_add_right _ (counting.builds t ht)
    · obtain ⟨-, -, order, rank, part, w, accepted, walked, -, rfl⟩ := submitBuild_ok ran
      have inserted : Counting Young (insertRows c.db spec rank part w) := insertRows_counting counting
        fun id counts => young spec live _ rfl order w accepted walked id counts
      obtain ⟨counting', moved⟩ : Counting Young ((insertRows c.db spec rank part w).maybeFinish H o c.db.nextBuild) ∧
          Moved o Young (fun _ => False) (insertRows c.db spec rank part w)
            ((insertRows c.db spec rank part w).maybeFinish H o c.db.nextBuild) :=
        maybeFinish_moves closed inserted c.db.nextBuild
      refine ⟨counting', fun t' ht' => ?_, fun t ht => ?_, ?_⟩
      · obtain ⟨t, ht, moves⟩ := moved.rows t' ht'
        rcases List.mem_append.mp ht with old | new
        · exact .moved t old (moves.allow fun _ => False.elim)
        · obtain ⟨id, ts, -, rfl⟩ := mem_insertedTasks.mp new
          refine .new ?_ moves.same.attempts
          rw [moves.same.uid]
          exact Nat.le_add_right _ _
      · obtain ⟨t', ht', moves⟩ := moved.forward inserted.uids (List.mem_append_left _ ht)
        exact ⟨t', ht', moves.same.uid⟩
      · exact (Nat.le_add_right _ _).trans (congrArg Prod.snd moved.serials).ge
  | claimTask picked named =>
    obtain ⟨ht, ready, -⟩ := mem_of_picked picked
    exact claim_arises counting closed ht ready (.inl ⟨rfl, named⟩)
  | claimCrash picked unnamed =>
    obtain ⟨ht, ready, -⟩ := mem_of_picked picked
    exact claim_arises counting closed ht ready (.inr ⟨rfl, unnamed⟩)
  | claimNothing _ => exact .of_moved counting.uids counting (.refl _)
  | @completeTask r now fuel cfg ran =>
    obtain ⟨s, r', stack, -, -, first⟩ := completeTask_first c.blobs.has c.blobs.sizeOf now r
    rw [stack] at ran
    have fits : s.Fits Young c.db := by rcases first with ⟨_, rfl⟩ | ⟨_, rfl⟩ | rfl <;> trivial
    obtain ⟨counting', moved⟩ := run_moves closed counting fits ran
    refine .of_moved counting.uids counting' ⟨moved.serials, moved.uids, fun t' ht' => ?_⟩
    obtain ⟨t, ht, moves⟩ := moved.rows t' ht'
    exact ⟨t, ht, moves.allow fun t takes => ⟨s, stack, takes⟩⟩
  | @heartbeat worker now => exact heartbeat_arises counting worker now
  | reap =>
    obtain ⟨counting', moved⟩ := reap_moves (H := H) (o := o) closed counting _
    exact .of_moved counting.uids counting' moved

theorem Counting.empty (Young : TaskState → Nat → Prop) : Counting Young {} :=
  ⟨⟨List.nodup_nil, by simp⟩, List.nodup_nil, by simp, by simp, by simp⟩

end Calls

end DistCompile
