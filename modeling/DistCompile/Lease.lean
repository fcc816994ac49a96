import DistCompile.Submit

/-!
Leases in the `tasks` table (`try_claim`, `heartbeat`, `CompleteTask` and
`reap_loop` in `src/coordinator.cpp`).

An attempt is a task and the value of `attempts` it was claimed with. Only a claim
makes an attempt run, and it raises the number, so an attempt that has stopped
running never runs again. All other calls leave a running row as it is or end its
attempt (`Ends`). A handled `CompleteTask` ends the attempt it reports, whatever
the result says (`completeTask_ends`).

Nothing here depends on the shape of the submitted graphs.
-/

namespace DistCompile

open DistCompile.Lib

namespace Db

/-- The attempt runs under the name of `worker`. -/
def Leased (db : Db) (worker : Str) (uid attempt : Nat) : Prop :=
  ∃ t ∈ db.tasks, t.uid = uid ∧ t.attempts = attempt ∧ leasedTo worker t = true

/-- The attempt runs. -/
def RunsAttempt (db : Db) (uid attempt : Nat) : Prop :=
  ∃ t ∈ db.tasks, t.uid = uid ∧ t.attempts = attempt ∧ t.state = .running

/-- The attempt has been handed out. -/
def Issued (db : Db) (uid attempt : Nat) : Prop :=
  ∃ t ∈ db.tasks, t.uid = uid ∧ attempt ≤ t.attempts

instance (db : Db) (worker : Str) (uid attempt : Nat) : Decidable (db.Leased worker uid attempt) := by
  unfold Leased; infer_instance

/-- `uid` is a key, drawn from its counter. -/
structure Uids (db : Db) : Prop where
  unique : (db.tasks.map TaskRow.uid).Nodup
  fresh : ∀ t ∈ db.tasks, t.uid < db.nextUid

theorem Leased.runs {db : Db} {worker : Str} {uid attempt : Nat}
    (leased : db.Leased worker uid attempt) : db.RunsAttempt uid attempt := by
  obtain ⟨t, ht, same, number, row⟩ := leased
  simp only [leasedTo, Bool.and_eq_true, decide_eq_true_eq] at row
  exact ⟨t, ht, same, number, row.2⟩

end Db

/-! ### Rows -/

/-- A row after a call that is no claim. -/
structure TaskRow.Ends (t t' : TaskRow) : Prop where
  uid : t'.uid = t.uid
  attempts : t'.attempts = t.attempts
  running : t'.state = .running → t.state = .running ∧ t'.leaseOwner = t.leaseOwner

theorem TaskRow.Ends.refl (t : TaskRow) : t.Ends t := ⟨rfl, rfl, fun h => ⟨h, rfl⟩⟩

theorem requeue_not_running (o : Options) (attempts : Nat) : requeue o attempts ≠ .running := by
  unfold requeue
  split <;> simp

theorem heartbeatRow_ends (o : Options) (worker : Str) (now : Int) (t : TaskRow) :
    t.Ends (heartbeatRow o worker now t) := by
  unfold heartbeatRow
  split
  · exact ⟨rfl, rfl, fun running => ⟨running, rfl⟩⟩
  · exact .refl t

theorem reapRow_ends (o : Options) (now : Int) (t : TaskRow) : t.Ends (reapRow o now t) := by
  unfold reapRow
  split
  · exact .refl t
  · exact ⟨rfl, rfl, fun running => absurd running (requeue_not_running o t.attempts)⟩

/-- The row a statement writes is a version of one it found. -/
theorem exec_ends {H : Sha256} {o : Options} {db : Db} {s : Stmt} {row : TaskRow}
    (written : (exec H o db s).write = some (.task row)) : ∃ t ∈ db.tasks, t.Ends row := by
  obtain ⟨t, ht, next, -, rewrites⟩ := exec_rewrites written
  refine ⟨t, ht, ?_⟩
  cases rewrites with
  | retry => exact ⟨rfl, rfl, fun running => absurd running (requeue_not_running o t.attempts)⟩
  | countDown => exact ⟨rfl, rfl, fun running => ⟨running, rfl⟩⟩
  | complete | fail | markCached | markReady => exact ⟨rfl, rfl, fun running => by cases running⟩

/-! ### Tables -/

/-- Between `db` and `db'` attempts may end and tasks may come, but no attempt
begins. -/
structure Ends (db db' : Db) : Prop where
  issued : ∀ uid attempt, db.Issued uid attempt → db'.Issued uid attempt
  runs : ∀ uid attempt, db'.RunsAttempt uid attempt → db.RunsAttempt uid attempt
  leased : ∀ worker uid attempt, db'.Leased worker uid attempt → db.Leased worker uid attempt

/-- A claim begins one attempt, which has not been handed out before. -/
structure Begins (db db' : Db) (worker : Str) (uid attempt : Nat) : Prop where
  issued : ∀ u a, db.Issued u a → db'.Issued u a
  new : db'.Issued uid attempt
  unissued : ¬ db.Issued uid attempt
  runs : ∀ u a, db'.RunsAttempt u a → db.RunsAttempt u a ∨ (u = uid ∧ a = attempt)
  leased : ∀ owner u a, db'.Leased owner u a →
    db.Leased owner u a ∨ (owner = worker ∧ u = uid ∧ a = attempt)

theorem Ends.refl (db : Db) : Ends db db := ⟨fun _ _ h => h, fun _ _ h => h, fun _ _ _ h => h⟩

theorem Ends.trans {db db' db'' : Db} (first : Ends db db') (second : Ends db' db'') : Ends db db'' where
  issued uid attempt h := second.issued uid attempt (first.issued uid attempt h)
  runs uid attempt h := first.runs uid attempt (second.runs uid attempt h)
  leased worker uid attempt h := first.leased worker uid attempt (second.leased worker uid attempt h)

section Tables

variable {H : Sha256} {o : Options} {db db' : Db}

/-- New versions of the rows. -/
theorem Ends.of_rows {f : TaskRow → TaskRow} (tasks : db'.tasks = db.tasks.map f)
    (rows : ∀ t ∈ db.tasks, t.Ends (f t)) : Ends db db' where
  issued := by
    rintro uid attempt ⟨t, ht, rfl, le⟩
    refine ⟨f t, tasks ▸ List.mem_map_of_mem ht, (rows t ht).uid, ?_⟩
    rw [(rows t ht).attempts]
    exact le
  runs := by
    rintro uid attempt ⟨t', ht', rfl, rfl, running⟩
    rw [tasks] at ht'
    obtain ⟨t, ht, rfl⟩ := List.mem_map.mp ht'
    exact ⟨t, ht, (rows t ht).uid.symm, (rows t ht).attempts.symm, ((rows t ht).running running).1⟩
  leased := by
    rintro worker uid attempt ⟨t', ht', rfl, rfl, row⟩
    rw [tasks] at ht'
    obtain ⟨t, ht, rfl⟩ := List.mem_map.mp ht'
    simp only [leasedTo, Bool.and_eq_true, decide_eq_true_eq] at row
    obtain ⟨running, owner⟩ := (rows t ht).running row.2
    refine ⟨t, ht, (rows t ht).uid.symm, (rows t ht).attempts.symm, ?_⟩
    rw [owner] at row
    simp [leasedTo, row.1, running]

theorem Db.Uids.of_rows (uids : db.Uids) {f : TaskRow → TaskRow} (tasks : db'.tasks = db.tasks.map f)
    (serial : db'.nextUid = db.nextUid) (rows : ∀ t ∈ db.tasks, (f t).uid = t.uid) : db'.Uids where
  unique := by
    have same : db'.tasks.map TaskRow.uid = db.tasks.map TaskRow.uid := by
      rw [tasks, List.map_map]
      exact List.map_congr_left fun t ht => rows t ht
    exact same ▸ uids.unique
  fresh t' ht' := by
    rw [tasks] at ht'
    obtain ⟨t, ht, rfl⟩ := List.mem_map.mp ht'
    rw [rows t ht, serial]
    exact uids.fresh t ht

/-- One statement. -/
theorem exec_tables (uids : db.Uids) (s : Stmt) :
    ((exec H o db s).db db).Uids ∧ Ends db ((exec H o db s).db db) := by
  rcases write : (exec H o db s).write with _ | row | row | row
  · rw [Outcome.db, write]
    exact ⟨uids, .refl db⟩
  · rw [Outcome.db, write]
    obtain ⟨t, ht, ends⟩ := exec_ends write
    have rows : ∀ u ∈ db.tasks, u.Ends (if u.uid = row.uid then row else u) := by
      intro u hu
      split
      · rename_i same
        rw [List.inj_on_of_nodup_map uids.unique hu ht (same.trans ends.uid)]
        exact ends
      · exact .refl u
    exact ⟨uids.of_rows rfl rfl fun u hu => (rows u hu).uid, Ends.of_rows rfl rows⟩
  · rw [Outcome.db, write]
    exact ⟨⟨uids.unique, uids.fresh⟩, ⟨fun _ _ h => h, fun _ _ h => h, fun _ _ _ h => h⟩⟩
  · rw [Outcome.db, write, Option.elim_some]
    have tasks : (db.apply (.cache row)).tasks = db.tasks.map id := by
      rw [db.apply_cache_tasks row, List.map_id]
    have serial : (db.apply (.cache row)).nextUid = db.nextUid :=
      congrArg Prod.snd (db.apply_cache_serials row)
    exact ⟨uids.of_rows tasks serial fun _ _ => rfl, Ends.of_rows tasks fun t _ => .refl t⟩

/-- A transaction run in one go. -/
theorem run_tables (uids : db.Uids) {fuel : Nat} {stack : List Stmt} {trace : List Event} {c : Cfg}
    (ran : run H o fuel ⟨db, stack, trace⟩ = some c) : c.db.Uids ∧ Ends db c.db := by
  refine (run_induction (P := fun c => c.db.Uids ∧ Ends db c.db) (fun {c s rest} holds top => ?_) ran
    ⟨uids, .refl db⟩).1
  obtain ⟨uids', ends⟩ := exec_tables (H := H) (o := o) holds.1 s
  exact ⟨uids', holds.2.trans ends⟩

theorem maybeFinish_tables (uids : db.Uids) (build : Nat) :
    (db.maybeFinish H o build).Uids ∧ Ends db (db.maybeFinish H o build) :=
  maybeFinish_induction (P := fun db' => db'.Uids ∧ Ends db db') ⟨uids, .refl db⟩ (run_tables uids)

theorem reap_tables (uids : db.Uids) (now : Int) :
    (reap H o db now).Uids ∧ Ends db (reap H o db now) := by
  refine reap_induction (P := fun db' => db'.Uids ∧ Ends db db') (fun build ⟨uids, ends⟩ => ?_)
    ⟨uids.of_rows rfl rfl fun t _ => (reapRow_ends o now t).uid, Ends.of_rows rfl fun t _ => reapRow_ends o now t⟩
  obtain ⟨uids', more⟩ := maybeFinish_tables (H := H) (o := o) uids build
  exact ⟨uids', ends.trans more⟩

/-! ### Submits -/

/-- The walk of `submit` marks no task as running. -/
theorem walk_not_running {has : Str → Bool} {cache : Str → Option Str} {spec : BuildSpec}
    {order : List Nat} {w : Walk} (ran : walk H has cache spec order = .ok w) (id : Nat) :
    (w.row id).state ≠ .running := by
  have one : ∀ {v v' : Walk} {i : Nat}, (∀ id, (v.row id).state ≠ .running) →
      walkTask H has cache spec v i = .ok v' → ∀ id, (v'.row id).state ≠ .running := by
    intro v v' i holds next id
    have updated : ∀ r : Resolved, r.state ≠ .running →
        (Function.update v.row i r id).state ≠ .running := by
      intro r idle
      by_cases here : id = i
      · rw [here, Function.update_self]; exact idle
      · rw [Function.update_of_ne here]; exact holds id
    simp only [walkTask] at next
    split at next
    · cases next
      exact holds id
    · split at next
      · cases next
        exact updated _ (by simp)
      · split at next
        · split at next
          · cases next
          · cases next
            exact updated _ (by simp)
        · cases next
          exact updated _ (by simp)
  have all : ∀ (order : List Nat) (v : Walk), (∀ id, (v.row id).state ≠ .running) →
      order.foldlM (walkTask H has cache spec) v = .ok w → ∀ id, (w.row id).state ≠ .running := by
    intro order
    induction order with
    | nil =>
      intro v holds done
      cases done
      exact holds
    | cons i order ih =>
      intro v holds done
      rw [List.foldlM_cons] at done
      cases first : walkTask H has cache spec v i with
      | error e =>
        rw [first] at done
        cases done
      | ok v' =>
        rw [first] at done
        exact ih v' (one holds first) done
  exact all order _ (by simp) ran id

theorem insertRows_tables (uids : db.Uids) {spec : BuildSpec} {rank part : Nat → Int} {w : Walk}
    (idle : ∀ id, (w.row id).state ≠ .running) :
    (insertRows db spec rank part w).Uids ∧ Ends db (insertRows db spec rank part w) := by
  have old : ∀ t ∈ (insertRows db spec rank part w).tasks, t.state = .running → t ∈ db.tasks := by
    intro t ht running
    rcases List.mem_append.mp ht with before | new
    · exact before
    · obtain ⟨id, ts, -, rfl⟩ := mem_insertedTasks.mp new
      exact absurd running (idle id)
  refine ⟨⟨?_, ?_⟩, ⟨?_, ?_, ?_⟩⟩
  · refine nodup_insertRows _ uids.unique (fun i ts j ts' same => Nat.add_left_cancel same)
      fun t ht i ts same => ?_
    have before := uids.fresh t ht
    change t.uid = db.nextUid + i at same
    omega
  · intro t ht
    change t.uid < db.nextUid + spec.tasks.length
    rcases List.mem_append.mp ht with before | new
    · have := uids.fresh t before
      omega
    · obtain ⟨id, ts, found, rfl⟩ := mem_insertedTasks.mp new
      exact Nat.add_lt_add_left (List.getElem?_eq_some_iff.mp found).1 _
  · rintro uid attempt ⟨t, ht, same, le⟩
    exact ⟨t, List.mem_append_left _ ht, same, le⟩
  · rintro uid attempt ⟨t, ht, same, number, running⟩
    exact ⟨t, old t ht running, same, number, running⟩
  · rintro worker uid attempt ⟨t, ht, same, number, row⟩
    have running : t.state = .running := by
      simp only [leasedTo, Bool.and_eq_true, decide_eq_true_eq] at row
      exact row.2
    exact ⟨t, old t ht running, same, number, row⟩

theorem submitBuild_tables (uids : db.Uids) {has : Str → Bool} {live : Int} {spec : BuildSpec} :
    (submitBuild H o has db live spec).1.Uids ∧ Ends db (submitBuild H o has db live spec).1 := by
  rcases ran : submitBuild H o has db live spec with ⟨db', e | ⟨build, cached⟩⟩
  · obtain ⟨builds, more, rfl⟩ := submitBuild_error ran
    refine ⟨⟨uids.unique, fun t ht => ?_⟩, ⟨fun _ _ h => h, fun _ _ h => h, fun _ _ _ h => h⟩⟩
    have := uids.fresh t ht
    change t.uid < db.nextUid + more
    omega
  · obtain ⟨-, -, order, rank, part, w, -, walked, -, rfl⟩ := submitBuild_ok ran
    obtain ⟨uids', ends⟩ : (insertRows db spec rank part w).Uids ∧
        Ends db (insertRows db spec rank part w) := insertRows_tables uids (walk_not_running walked)
    obtain ⟨uids'', rest⟩ := maybeFinish_tables (H := H) (o := o) uids' db.nextBuild
    exact ⟨uids'', ends.trans rest⟩

/-! ### Completions and claims -/

/-- The row with a uid is the one `task?` finds. -/
theorem Db.Uids.task?_eq (uids : db.Uids) {t : TaskRow} (ht : t ∈ db.tasks) :
    db.task? t.uid = some t := by
  cases found : db.task? t.uid with
  | none => exact absurd (List.find?_eq_none.mp found t ht) (by simp)
  | some u =>
    have same : u.uid = t.uid := by simpa using List.find?_some found
    rw [List.inj_on_of_nodup_map uids.unique (List.mem_of_find?_eq_some found) ht same]

/-- After the first statement of a completion the attempt it reports does not run. -/
theorem exec_first_ends (uids : db.Uids) {s : Stmt} {r : TaskResult}
    (first : (∃ size, s = .complete r size) ∨ (∃ now, s = .retry r now) ∨ s = .fail r) :
    ¬ ((exec H o db s).db db).RunsAttempt r.taskUid r.attempt := by
  rintro ⟨t', ht', uid, number, running⟩
  -- the row before: running, in that attempt, so the guard of the statement holds
  obtain ⟨t, ht, same, attempt, wasRunning⟩ :=
    (exec_tables (H := H) (o := o) uids s).2.runs r.taskUid r.attempt ⟨t', ht', uid, number, running⟩
  have found : db.task? r.taskUid = some t := same ▸ uids.task?_eq ht
  have isOpen : t.state.open = true := by rw [wasRunning]; rfl
  obtain ⟨row, written, rowUid, stopped⟩ : ∃ row, (exec H o db s).write = some (.task row) ∧
      row.uid = t.uid ∧ row.state ≠ .running := by
    rcases first with ⟨size, rfl⟩ | ⟨now, rfl⟩ | rfl
    · simp [exec, found, isOpen]
    · simp only [exec, found, wasRunning, attempt, and_self, if_true]
      exact ⟨_, rfl, rfl, requeue_not_running o _⟩
    · simp [exec, found, isOpen]
  rw [Outcome.db, written] at ht'
  obtain ⟨u, hu, rfl⟩ := List.mem_map.mp ht'
  split at running
  · exact stopped running
  · rename_i other
    rw [if_neg other] at uid
    exact other (uid.trans (same.symm.trans rowUid.symm))

theorem completeTask_first (has : Str → Bool) (sizeOf : Str → Int) (now : Int) (r : TaskResult) :
    ∃ s r', completeTask has sizeOf now r = [s] ∧ r'.taskUid = r.taskUid ∧ r'.attempt = r.attempt ∧
      ((∃ size, s = .complete r' size) ∨ (∃ now, s = .retry r' now) ∨ s = .fail r') := by
  unfold completeTask
  split_ifs
  · exact ⟨_, retryCopy r _, rfl, rfl, rfl, Or.inr (Or.inl ⟨now, rfl⟩)⟩
  · exact ⟨_, r, rfl, rfl, rfl, Or.inl ⟨_, rfl⟩⟩
  · exact ⟨_, r, rfl, rfl, rfl, Or.inr (Or.inl ⟨now, rfl⟩)⟩
  · exact ⟨_, r, rfl, rfl, rfl, Or.inr (Or.inr rfl)⟩

/-- A handled completion ends the attempt it reports. -/
theorem completeTask_ends (uids : db.Uids) {has : Str → Bool} {sizeOf : Str → Int} {now : Int}
    {r : TaskResult} {fuel : Nat} {c : Cfg}
    (ran : run H o fuel ⟨db, completeTask has sizeOf now r, []⟩ = some c) :
    ¬ c.db.RunsAttempt r.taskUid r.attempt := by
  obtain ⟨s, r', stack, uid, number, first⟩ := completeTask_first has sizeOf now r
  rw [stack] at ran
  cases fuel with
  | zero => simp [run] at ran
  | succ fuel =>
    simp only [run, Cfg.step] at ran
    obtain ⟨uids', -⟩ := exec_tables (H := H) (o := o) uids s
    have ended := exec_first_ends (H := H) (o := o) uids first
    rw [uid, number] at ended
    exact fun running => ended ((run_tables uids' ran).2.runs _ _ running)

theorem claim_begins (uids : db.Uids) {t : TaskRow} (ht : t ∈ db.tasks) (worker : Str) (now : Int) :
    (db.apply (.task (claimedRow o worker now t))).Uids ∧
      Begins db (db.apply (.task (claimedRow o worker now t))) worker t.uid (t.attempts + 1) := by
  have rows : ∀ u ∈ (db.apply (.task (claimedRow o worker now t))).tasks,
      u = claimedRow o worker now t ∨ u ∈ db.tasks := by
    intro u hu
    obtain ⟨v, hv, rfl⟩ := List.mem_map.mp hu
    split
    · exact Or.inl rfl
    · exact Or.inr hv
  have member : claimedRow o worker now t ∈ (db.apply (.task (claimedRow o worker now t))).tasks :=
    List.mem_map.mpr ⟨t, ht, if_pos rfl⟩
  refine ⟨uids.of_rows rfl rfl fun u _ => ?_, ?_, ⟨_, member, rfl, Nat.le_refl _⟩, ?_, ?_, ?_⟩
  · split
    · rename_i same
      exact same.symm
    · rfl
  · rintro uid attempt ⟨u, hu, same, le⟩
    by_cases here : u.uid = t.uid
    · refine ⟨_, member, here.symm.trans same, ?_⟩
      rw [List.inj_on_of_nodup_map uids.unique hu ht here] at le
      exact Nat.le_succ_of_le le
    · exact ⟨u, List.mem_map.mpr ⟨u, hu, if_neg here⟩, same, le⟩
  · rintro ⟨u, hu, same, le⟩
    rw [List.inj_on_of_nodup_map uids.unique hu ht same] at le
    omega
  · rintro uid attempt ⟨u, hu, rfl, rfl, running⟩
    rcases rows u hu with rfl | old
    · exact Or.inr ⟨rfl, rfl⟩
    · exact Or.inl ⟨u, old, rfl, rfl, running⟩
  · rintro owner uid attempt ⟨u, hu, rfl, rfl, row⟩
    rcases rows u hu with rfl | old
    · simp only [leasedTo, Bool.and_eq_true, decide_eq_true_eq] at row
      exact Or.inr ⟨(Option.some.inj row.1).symm, rfl, rfl⟩
    · exact Or.inl ⟨u, old, rfl, rfl, row⟩

end Tables

end DistCompile
