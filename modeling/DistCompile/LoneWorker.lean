import DistCompile.Deliveries
import DistCompile.Progress
import DistCompile.Retries

/-!
One worker is enough (`loop` in `src/worker.cpp`, `try_claim`, `CompleteTask` and `reap_loop` in
`src/coordinator.cpp`).

A round of the worker is a claim, the upload of the output and its report. Each round finishes a
task, and while a build of the worker's toolchain runs there is a next one: no task is with
another worker, so one is in the queue, and it is handed out once the worker's own failures are
more than three seconds old.
-/

namespace DistCompile

open DistCompile.Lib

/-! ### What holds of every row -/

/-- A property of rows that inserts establish and every update keeps. -/
structure RowInvariant (o : Options) (P : TaskRow → Prop) : Prop where
  inserted : ∀ {spec rank part build uid} {row : Nat → Resolved} {ts id}, (row id).state ≠ .running →
    P (insertedTask spec rank part build uid row ts id)
  rewrites : ∀ {db s t row next}, Rewrites o db s t row next → P t → P row
  claimed : ∀ {worker now t}, P t → P (claimedRow o worker now t)
  heartbeat : ∀ {worker now t}, P t → P (heartbeatRow o worker now t)
  reaped : ∀ {now t}, P t → P (reapRow o now t)

section Rows

variable {H : Sha256} {o : Options} {P : TaskRow → Prop} {db : Db} {c c' : Coordinator} {calls : List Call}

theorem RowInvariant.run (inv : RowInvariant o P) (all : ∀ t ∈ db.tasks, P t) {fuel : Nat} {stack : List Stmt}
    {cfg : Cfg} (ran : DistCompile.run H o fuel ⟨db, stack, []⟩ = some cfg) : ∀ t ∈ cfg.db.tasks, P t :=
  forall_run inv.rewrites all ran

theorem RowInvariant.maybeFinish (inv : RowInvariant o P) (all : ∀ t ∈ db.tasks, P t) (build : Nat) :
    ∀ t ∈ (db.maybeFinish H o build).tasks, P t :=
  maybeFinish_induction (P := fun db => ∀ t ∈ db.tasks, P t) all (inv.run all)

/-- Every call keeps it. -/
theorem RowInvariant.step (inv : RowInvariant o P) {call : Call} (step : Step H o c call c')
    (all : ∀ t ∈ c.db.tasks, P t) : ∀ t ∈ c'.db.tasks, P t := by
  cases step with
  | putBlob _ => exact all
  | putRefused _ => exact all
  | @submitBuild spec live =>
    rcases ran : DistCompile.submitBuild H o c.blobs.has c.db live spec with ⟨db', e | ⟨build, cached⟩⟩
    · obtain ⟨builds, uids, rfl⟩ := submitBuild_error ran
      exact all
    · obtain ⟨-, -, order, rank, part, w, -, walked, -, rfl⟩ := submitBuild_ok ran
      refine inv.maybeFinish (fun t ht => ?_) c.db.nextBuild
      rcases List.mem_append.mp ht with old | new
      · exact all t old
      · obtain ⟨id, ts, -, rfl⟩ := mem_insertedTasks.mp new
        exact inv.inserted (walk_not_running walked id)
  | claimTask picked _ | claimCrash picked _ =>
    intro u hu
    obtain ⟨v, hv, rfl⟩ := List.mem_map.mp hu
    split
    · exact inv.claimed (all _ (mem_of_picked picked).1)
    · exact all v hv
  | claimNothing _ => exact all
  | completeTask ran => exact inv.run all ran
  | heartbeat =>
    intro u hu
    obtain ⟨v, hv, rfl⟩ := List.mem_map.mp hu
    exact inv.heartbeat (all v hv)
  | reap =>
    refine reap_induction (P := fun db => ∀ t ∈ db.tasks, P t) (fun build all => inv.maybeFinish all build) ?_
    intro u hu
    obtain ⟨v, hv, rfl⟩ := List.mem_map.mp hu
    exact inv.reaped (all v hv)

theorem RowInvariant.runs (inv : RowInvariant o P) (run : Runs (Step H o) {} calls c) : ∀ t ∈ c.db.tasks, P t :=
  run.invariant (P := fun c => ∀ t ∈ c.db.tasks, P t) (by simp) fun step all => inv.step step all

end Rows

/-! ### Times -/

/-- A running task has a lease, and one that failed on a worker the time of it. -/
structure TaskRow.Timed (t : TaskRow) : Prop where
  leased : t.state = .running → t.leaseUntil ≠ none
  parked : t.lastFailedBy ≠ none → t.readyAt ≠ none

theorem timed_invariant (o : Options) : RowInvariant o TaskRow.Timed where
  inserted idle := ⟨fun running => absurd running idle, fun failed => absurd rfl failed⟩
  rewrites rewrites timed := by
    cases rewrites with
    | retry => exact ⟨fun running => absurd running (requeue_not_running o _), fun _ => by simp⟩
    | countDown => exact ⟨timed.leased, timed.parked⟩
    | complete | fail | markCached | markReady => exact ⟨fun running => (by cases running), timed.parked⟩
  claimed timed := ⟨fun _ => by simp [claimedRow], timed.parked⟩
  heartbeat timed := by
    unfold heartbeatRow
    split
    · exact ⟨fun _ => by simp, timed.parked⟩
    · exact timed
  reaped timed := by
    unfold reapRow
    split
    · exact timed
    · exact ⟨fun running => absurd running (requeue_not_running o _), fun _ => by simp⟩

/-- Times before `soon`. -/
def TaskRow.Before (soon : Int) (t : TaskRow) : Prop :=
  (∀ time, t.leaseUntil = some time → time < soon) ∧ ∀ time, t.readyAt = some time → time < soon

theorem exists_before (rows : List TaskRow) : ∃ soon, ∀ t ∈ rows, t.Before soon := by
  obtain ⟨top, bound⟩ := (rows.flatMap fun t => t.leaseUntil.toList ++ t.readyAt.toList).toFinset.exists_le
  have below : ∀ t ∈ rows, ∀ time, t.leaseUntil = some time ∨ t.readyAt = some time → time < top + 1 := by
    intro t ht time here
    refine Int.lt_add_one_of_le (bound time (List.mem_toFinset.mpr (List.mem_flatMap.mpr ⟨t, ht, ?_⟩)))
    rcases here with here | here <;> simp [here]
  exact ⟨top + 1, fun t ht => ⟨fun time here => below t ht time (Or.inl here),
    fun time here => below t ht time (Or.inr here)⟩⟩

/-! ### Rounds -/

/-- The worker claims a task more than three seconds after `later`, uploads what it made of it and
reports it. -/
inductive Round (H : Sha256) (o : Options) (worker toolchain : Str) (part later : Int) :
    Coordinator → Assignment × Str → Coordinator → Prop where
  | mk {c claimed stored c' : Coordinator} {a : Assignment} {data log : Str} {now now' execMs : Int} :
      later + 3 * second < now →
      Step H o c (.claimTask worker toolchain part now (some a)) claimed →
      Step H o claimed (.putBlob data [] true) stored →
      Step H o stored (.completeTask ⟨a.taskUid, a.attempt, worker, true, false, H.hex data, log, execMs⟩ now' true) c' →
      Round H o worker toolchain part later c (a, data) c'

/-- No task is with a worker, and what failed on this one did so until `later`. -/
structure Alone (worker : Str) (later : Int) (db : Db) : Prop where
  idle : ∀ t ∈ db.tasks, t.state ≠ .running
  rested : ∀ t ∈ db.tasks, t.lastFailedBy = some worker → ∃ time ≤ later, t.readyAt = some time

/-- The tasks for the toolchain that have no output yet and are not given up. -/
def Db.remaining (db : Db) (toolchain : Str) : List Nat :=
  (db.tasks.filter fun t => t.toolchain = toolchain && !t.state.settled).map TaskRow.uid

section Rounds

variable {H : Sha256} {o : Options} {worker toolchain : Str} {part later now : Int} {db db' : Db}
  {c c' c'' : Coordinator} {calls : List Call}

theorem mem_remaining {uid : Nat} : uid ∈ db.remaining toolchain ↔
    ∃ t ∈ db.tasks, t.uid = uid ∧ t.toolchain = toolchain ∧ t.state.settled = false := by
  simp only [Db.remaining, List.mem_map, List.mem_filter, Bool.and_eq_true, decide_eq_true_eq, Bool.not_eq_true']
  constructor
  · rintro ⟨t, ⟨ht, same, unsettled⟩, rfl⟩
    exact ⟨t, ht, rfl, same, unsettled⟩
  · rintro ⟨t, ht, rfl, same, unsettled⟩
    exact ⟨t, ⟨ht, same, unsettled⟩, rfl⟩

/-- A task that is finished leaves fewer of them. -/
theorem remaining_lt (g : Db.Grows db db') (k : db.Keyed)
    (keeps : ∀ t ∈ db.tasks, t.state.settled = true → ∃ t' ∈ db'.tasks, t.Kept t') {t u : TaskRow} (ht : t ∈ db.tasks)
    (hu : u ∈ db'.tasks) (uid : u.uid = t.uid) (same : t.toolchain = toolchain) (before : t.state.settled = false)
    (after : u.state.settled = true) : (db'.remaining toolchain).length < (db.remaining toolchain).length := by
  have here : t.uid ∈ db.remaining toolchain := mem_remaining.mpr ⟨t, ht, rfl, same, before⟩
  have k' := g.keyed k
  have less : db'.remaining toolchain ⊆ (db.remaining toolchain).erase t.uid := by
    intro v hv
    obtain ⟨x, hx, rfl, chain, unsettled⟩ := mem_remaining.mp hv
    obtain ⟨y, hy, fixed⟩ := Db.mem_of_fixed g.fixed.symm hx
    have other : x.uid ≠ t.uid := by
      intro equal
      rw [k'.uid_inj hx hu (equal.trans uid.symm), after] at unsettled
      cases unsettled
    refine (List.mem_erase_of_ne other).mpr (mem_remaining.mpr ⟨y, hy, uid_of_fixed fixed, ?_, ?_⟩)
    · rw [toolchain_of_fixed fixed, chain]
    · by_contra done
      obtain ⟨y', hy', kept⟩ := keeps y hy (by simpa using done)
      obtain rfl := k'.uid_inj hx hy' ((uid_of_fixed fixed).symm.trans kept.uid.symm)
      rw [kept.state] at unsettled
      exact done unsettled
  have nodup : (db'.remaining toolchain).Nodup := k'.uids.sublist ((List.filter_sublist).map TaskRow.uid)
  have bound := (nodup.subperm less).length_le
  have erased := List.length_erase_of_mem here
  have positive := List.length_pos_of_mem here
  omega

/-- No statement of a transaction that starts with `complete` takes a task back. -/
def Stmt.isRetry : Stmt → Bool
  | .retry .. => true
  | _ => false

theorem exec_next_not_retry {s n : Stmt} (member : n ∈ (exec H o db s).next) : n.isRetry = false := by
  cases s with
  | dependents build id => rcases mem_next_dependents member with ⟨t, -, rfl | rfl⟩ | ⟨-, rfl⟩ <;> rfl
  | _ =>
    simp only [exec, finished, makeReady, maybeFinish] at member
    grind [Stmt.isRetry]

/-- A report of success leaves the times of failures as they are. -/
theorem completed_rested {r : TaskResult} {size : Int} {fuel : Nat} {cfg : Cfg} {P : Option Str → Option Int → Prop}
    (all : ∀ t ∈ db.tasks, P t.lastFailedBy t.readyAt)
    (ran : run H o fuel ⟨db, [.complete r size], []⟩ = some cfg) :
    ∀ t ∈ cfg.db.tasks, P t.lastFailedBy t.readyAt := by
  refine (run_induction
    (P := fun c => (∀ t ∈ c.db.tasks, P t.lastFailedBy t.readyAt) ∧ ∀ s ∈ c.stack, s.isRetry = false)
    (fun {c s rest} kept top => ?_) ran ⟨all, by simp [Stmt.isRetry]⟩).1.1
  obtain ⟨rows, plain⟩ := kept
  have first := plain s (by simp [top])
  constructor
  · refine forall_exec (fun rewrites old => ?_) rows
    cases rewrites with
    | retry => cases first
    | complete | fail | countDown | markCached | markReady => exact old
  · intro n member
    rcases List.mem_append.mp member with new | below
    · exact exec_next_not_retry new
    · exact plain n (by simp [top, below])

theorem specOf_more {build : Nat} {spec : BuildSpec} (found : specOf calls build = some spec) (more : List Call) :
    specOf (calls ++ more) build = some spec := by
  rw [specOf] at found ⊢
  rw [List.findSome?_append, found]
  rfl

theorem uids_of_consistent (base : Consistent H db) : db.Uids := ⟨base.keyed.uids, fun t ht => (base.fresh t ht).2⟩

/-- A report of success of an open task finishes it. -/
theorem completed_finished {r : TaskResult} {size : Int} {fuel : Nat} {cfg : Cfg} (base : Consistent H db) {t : TaskRow}
    (ht : t ∈ db.tasks) (uid : t.uid = r.taskUid) (isOpen : t.state.open = true) (valid : validHash r.output = true)
    (ran : run H o fuel ⟨db, [.complete r size], []⟩ = some cfg) :
    ∃ u ∈ cfg.db.tasks, u.uid = t.uid ∧ u.state.finished = true := by
  have first : Mid H db ⟨db, [.complete r size], []⟩ := Mid.start base valid rfl rfl
  cases fuel with
  | zero => simp [run] at ran
  | succ fuel =>
    simp only [run, Cfg.step] at ran
    refine (run_induction (P := fun c => Mid H db c ∧ ∃ u ∈ c.db.tasks, u.uid = t.uid ∧ u.state.finished = true)
      (fun {c s rest} holds top => ?_) ran ⟨first.exec base o rfl, ?_⟩).1.2
    · obtain ⟨m, u, hu, same, done⟩ := holds
      exact ⟨m.exec base o top, u, (m.exec_grows base o top).keeps u hu done, same, done⟩
    · have found : db.task? r.taskUid = some t := uid ▸ (uids_of_consistent base).task?_eq ht
      refine ⟨{ t with state := .done, output := some r.output, execMs := some r.execMs, leaseOwner := some r.worker },
        ?_, rfl, rfl⟩
      simp only [Cfg.after, exec, found, isOpen, if_true, Outcome.db, Option.elim_some]
      exact List.mem_map.mpr ⟨t, ht, if_pos rfl⟩

/-- What was put is there. -/
theorem Blobs.has_put {blobs blobs' : Blobs} {data expect : Str} (valid : validHash (H.hex data) = true)
    (put : blobs.put H data expect = some blobs') : blobs'.has (H.hex data) = true := by
  unfold Blobs.put at put
  split at put
  · cases put
  · split at put
    · rename_i present
      rw [← Option.some.inj put]
      exact present
    · rw [← Option.some.inj put, Blobs.has, valid]
      simp

/-- What a claim replies and does. -/
theorem Step.claimed {now : Int} {a : Assignment} (claim : Step H o c (.claimTask worker toolchain part now (some a)) c') :
    ∃ t, Picked (claimCandidates c.db worker toolchain part now) t ∧ a = assignmentOf (claimedRow o worker now t) ∧
      c'.db = c.db.apply (.task (claimedRow o worker now t)) := by
  cases claim with
  | @claimTask _ _ _ _ t picked _ => exact ⟨t, picked, rfl, rfl⟩

theorem Step.stored {data : Str} (put : Step H o c (.putBlob data [] true) c') (digests : H.Digests) :
    c'.db = c.db ∧ c'.blobs.has (H.hex data) = true := by
  cases put with
  | putBlob stored => exact ⟨rfl, Blobs.has_put (digests data) stored⟩

/-- A result that has arrived is handled as a success. -/
theorem completeTask_ok {blobs : Blobs} {r : TaskResult} (ok : r.ok = true) (present : blobs.has r.output = true)
    (now : Int) : completeTask blobs.has blobs.sizeOf now r = [.complete r (blobs.sizeOf r.output)] := by
  simp [completeTask, ok, present]

/-- The completion of the attempt that a claim has just begun. -/
theorem claimed_completed {t : TaskRow} {r : TaskResult} {size : Int} {fuel : Nat} {cfg : Cfg}
    (base : Consistent H c.db) (alone : Alone worker later c.db)
    (picked : Picked (claimCandidates c.db worker toolchain part now) t)
    (answers : r.taskUid = t.uid ∧ r.attempt = t.attempts + 1) (valid : validHash r.output = true)
    (ran : run H o fuel ⟨c.db.apply (.task (claimedRow o worker now t)), [.complete r size], []⟩ = some cfg)
    (grows : Db.Grows c.db cfg.db)
    (keeps : ∀ u ∈ c.db.tasks, u.state.settled = true → ∃ u' ∈ cfg.db.tasks, u.Kept u') :
    Alone worker later cfg.db ∧ (cfg.db.remaining toolchain).length < (c.db.remaining toolchain).length := by
  obtain ⟨ht, ready, chain⟩ := mem_of_picked picked
  have row : claimedRow o worker now t ∈ (c.db.apply (.task (claimedRow o worker now t))).tasks :=
    List.mem_map.mpr ⟨t, ht, if_pos rfl⟩
  obtain ⟨uids', begins⟩ := claim_begins (o := o) (uids_of_consistent base) ht worker now
  have relabel : Relabel t (claimedRow o worker now t) := claimedRow_relabel ready
  have base' := base.relabel_row ht relabel
  obtain ⟨x, hx, same, done⟩ := completed_finished base' row answers.1.symm rfl valid ran
  have settled : x.state.settled = true := by
    cases state : x.state with
    | done | cached | failed => rfl
    | waiting | ready | running =>
      rw [state] at done
      cases done
  refine ⟨⟨?_, ?_⟩, remaining_lt grows base.keyed keeps ht hx same chain (by rw [ready]; rfl) settled⟩
  · intro u hu running
    -- the one attempt that the claim began has ended
    rcases begins.runs _ _ ((run_tables uids' ran).2.runs _ _ ⟨u, hu, rfl, rfl, running⟩) with old | ⟨uid, -⟩
    · obtain ⟨v, hv, -, -, before⟩ := old
      exact alone.idle v hv before
    · rw [(grows.keyed base.keyed).uid_inj hu hx (uid.trans same.symm)] at running
      rw [running] at done
      cases done
  · refine completed_rested (P := fun failed time => failed = some worker → ∃ at_ ≤ later, time = some at_) ?_ ran
    intro u hu
    obtain ⟨v, hv, rfl⟩ := List.mem_map.mp hu
    split
    · exact alone.rested t ht
    · exact alone.rested v hv

/-- A blob that comes without a digest is not turned down. -/
theorem Blobs.put_all (blobs : Blobs) (data : Str) : ∃ blobs', blobs.put H data [] = some blobs' := by
  unfold Blobs.put
  split
  · rename_i wrong
    exact absurd rfl wrong.1
  · split
    · exact ⟨_, rfl⟩
    · exact ⟨_, rfl⟩

/-- What a round does, in a state in which no task is with a worker. -/
theorem Round.spec {label : Assignment × Str} (round : Round H o worker toolchain part later c label c')
    (digests : H.Digests) (reached : Runs (Meets (Step H o) fun _ call => call.Flat) {} calls c)
    (alone : Alone worker later c.db) :
    Alone worker later c'.db ∧ (c'.db.remaining toolchain).length < (c.db.remaining toolchain).length ∧
      Db.Grows c.db c'.db ∧ ∃ more, Runs (Meets (Step H o) fun _ call => call.Flat) c more c' := by
  obtain ⟨after, claim, put, complete⟩ := round
  have base := Runs.consistent reached
  have counting := Runs.waits (reached.mono fun step => ⟨step.1.unforeseen, step.2⟩)
  have base' := claim.consistent trivial base
  have base'' := put.consistent trivial base'
  have g := (claim.grows base (by simp)).trans ((put.grows base' (by simp)).trans (complete.grows base'' (by simp)))
  have first : Runs (Meets (Step H o) fun _ call => call.Flat) _ _ _ := Runs.nil.snoc ⟨by exact trivial, claim⟩
  have second := first.snoc ⟨by exact trivial, put⟩
  have third := second.snoc ⟨by exact trivial, complete⟩
  have keeps := fun u (hu : u ∈ c.db.tasks) settled =>
    (Runs.keeps_settled counting (third.mono fun step => ⟨step.1.unforeseen, step.2⟩) hu settled).2
  obtain ⟨t, picked, rfl, db⟩ := claim.claimed
  obtain ⟨db', present⟩ := put.stored digests
  obtain ⟨-, -, fuel, cfg, ran, db''⟩ := complete.completed
  rw [completeTask_ok rfl present, db', db] at ran
  rw [db''] at g keeps ⊢
  obtain ⟨alone', less⟩ := claimed_completed base alone picked ⟨rfl, rfl⟩ (digests _) ran g keeps
  exact ⟨alone', less, g, _, third⟩

/-- A claim finds something when a task of the toolchain waits in the queue, and the failures
of the worker are old enough. -/
theorem exists_picked (alone : Alone worker later db) (waits : ∃ t ∈ db.tasks, t.toolchain = toolchain ∧ t.state.open = true)
    (part : Int) (rested : later + 3 * second < now) : ∃ t, Picked (claimCandidates db worker toolchain part now) t := by
  obtain ⟨t, ht, chain, isOpen⟩ := waits
  have ready : t.state = .ready := by
    cases state : t.state with
    | ready => rfl
    | running => exact absurd state (alone.idle t ht)
    | waiting | done | cached | failed =>
      rw [state] at isOpen
      cases isOpen
  have claims : claimable worker toolchain now t = true := by
    simp only [claimable, ready, chain, decide_true, Bool.and_self, Bool.true_and, Bool.or_eq_true]
    by_cases own : t.lastFailedBy = some worker
    · obtain ⟨time, early, readyAt⟩ := alone.rested t ht own
      refine Or.inr ?_
      simp only [readyAt, Option.any_some, decide_eq_true_eq]
      omega
    · exact Or.inl (decide_eq_true own)
  have some_ : claimCandidates db worker toolchain part now ≠ [] := by
    intro none_
    simp only [claimCandidates] at none_
    split at none_
    · exact List.filter_eq_nil_iff.mp none_ t ht claims
    · rename_i own
      rw [none_] at own
      exact own rfl
  obtain ⟨u, hu, greatest⟩ := Finset.exists_max_image _ TaskRow.priority ((List.toFinset_nonempty_iff _).mpr some_)
  exact ⟨u, List.mem_toFinset.mp hu, fun v hv => greatest v (List.mem_toFinset.mpr hv)⟩

theorem Step.of_run {now : Int} {r : TaskResult} {fuel : Nat} {cfg : Cfg} {accepted : Bool}
    (ran : run H o fuel ⟨c.db, DistCompile.completeTask c.blobs.has c.blobs.sizeOf now r, []⟩ = some cfg)
    (reply : accepts c.db (DistCompile.completeTask c.blobs.has c.blobs.sizeOf now r) = accepted) :
    Step H o c (.completeTask r now accepted) { c with db := cfg.db } := by
  subst reply
  exact .completeTask ran

/-- The worker's next round goes through, whatever its tool makes of the task. -/
theorem Round.next (digests : H.Digests) (base : Consistent H c.db) (alone : Alone worker later c.db)
    (named : ∀ t ∈ c.db.tasks, kindName t.kind ≠ none)
    (waits : ∃ t ∈ c.db.tasks, t.toolchain = toolchain ∧ t.state.open = true) (part : Int) (data : Str) :
    ∃ a c', Round H o worker toolchain part later c (a, data) c' := by
  have rested : later + 3 * second < later + 3 * second + 1 := lt_add_one _
  obtain ⟨t, picked⟩ := exists_picked alone waits part rested
  obtain ⟨ht, ready, -⟩ := mem_of_picked picked
  obtain ⟨blobs, stored⟩ := Blobs.put_all (H := H) c.blobs data
  let row := claimedRow o worker (later + 3 * second + 1) t
  let r : TaskResult := ⟨t.uid, t.attempts + 1, worker, true, false, H.hex data, [], 0⟩
  let ready_ : Coordinator := ⟨c.db.apply (.task row), blobs⟩
  have base' : Consistent H ready_.db := base.relabel_row ht (claimedRow_relabel ready)
  have body : completeTask blobs.has blobs.sizeOf 0 r = [.complete r (blobs.sizeOf r.output)] :=
    completeTask_ok rfl (Blobs.has_put (digests data) stored) 0
  obtain ⟨fuel, cfg, ran⟩ := run_ends (H := H) o
    (c := ⟨ready_.db, completeTask blobs.has blobs.sizeOf 0 r, []⟩) base'.keyed
  have accepted : accepts ready_.db (completeTask blobs.has blobs.sizeOf 0 r) = true := by
    have found : ready_.db.task? r.taskUid = some row :=
      (uids_of_consistent base').task?_eq (List.mem_map.mpr ⟨t, ht, if_pos rfl⟩)
    rw [body, accepts, found]
    rfl
  exact ⟨_, _, .mk rested (.claimTask picked (named t ht)) (.putBlob stored) (Step.of_run (c := ready_) ran accepted)⟩

end Rounds

/-! ### The worker alone -/

section Alone

variable {H : Sha256} {o : Options} {worker toolchain : Str} {part later : Int} {calls : List Call} {c c₀ c₁ : Coordinator}

/-- From a time on, a pass of the reaper leaves no task with a worker. -/
theorem reap_alone (timed : ∀ t ∈ c.db.tasks, t.Timed) {soon now : Int} (before : ∀ t ∈ c.db.tasks, t.Before soon)
    (late : soon ≤ now) (worker : Str) : Alone worker now (reap H o c.db now) := by
  have passed : ∀ t ∈ c.db.tasks, (reapRow o now t).state ≠ .running ∧
      ∀ time, (reapRow o now t).readyAt = some time → time ≤ now := by
    intro t ht
    obtain ⟨leases, failures⟩ := before t ht
    unfold reapRow
    split
    · rename_i held
      refine ⟨fun running => ?_, fun time here => (failures time here).le.trans late⟩
      obtain ⟨time, lease⟩ := Option.ne_none_iff_exists'.mp ((timed t ht).leased running)
      have past := (leases time lease).trans_le late
      simp [leaseExpired, running, lease, past] at held
    · refine ⟨requeue_not_running o _, fun time here => ?_⟩
      exact (Option.some.inj here).ge
  refine reap_induction (P := Alone worker now) (fun build alone => ?_) ⟨fun u hu => ?_, fun u hu failed => ?_⟩
  · constructor
    · intro t ht
      exact alone.idle t (maybeFinish_tasks build ▸ ht)
    · intro t ht
      exact alone.rested t (maybeFinish_tasks build ▸ ht)
  · obtain ⟨t, ht, rfl⟩ := List.mem_map.mp hu
    exact (passed t ht).1
  · obtain ⟨t, ht, rfl⟩ := List.mem_map.mp hu
    have timed' : (reapRow o now t).Timed := (timed_invariant o).reaped (timed t ht)
    have known := timed'.parked (by rw [failed]; simp)
    obtain ⟨time, here⟩ := Option.ne_none_iff_exists'.mp known
    exact ⟨time, (passed t ht).2 time here, here⟩

/-- Rounds, one after the other. -/
theorem rounds_spec {rounds : List (Assignment × Str)} (run : Runs (Round H o worker toolchain part later) c₀ rounds c₁)
    (digests : H.Digests) (reached : Runs (Meets (Step H o) fun _ call => call.Flat) {} calls c₀)
    (alone : Alone worker later c₀.db) :
    Alone worker later c₁.db ∧
      rounds.length + (c₁.db.remaining toolchain).length ≤ (c₀.db.remaining toolchain).length ∧
      Db.Grows c₀.db c₁.db ∧ ∃ more, Runs (Meets (Step H o) fun _ call => call.Flat) {} (calls ++ more) c₁ := by
  induction run with
  | nil => exact ⟨alone, by simp, .refl _, [], by simpa using reached⟩
  | snoc _ last ih =>
    obtain ⟨alone', bound, grows, more, before⟩ := ih
    obtain ⟨alone'', less, grows', final, after⟩ := last.spec digests before alone'
    refine ⟨alone'', ?_, grows.trans grows', more ++ final, by simpa using before.trans after⟩
    rw [List.length_append, List.length_singleton]
    omega

/-- In every reachable state, when the kinds of the submitted tasks have names: from some time on,
after a pass of the reaper one worker, on its own, ends the builds of its toolchain. It makes at most
as many rounds as there are tasks to finish that are not given up, and while a build of its toolchain
runs its next round goes through. -/
theorem lone_worker_finishes (digests : H.Digests)
    (run : Runs (Meets (Step H o) fun _ call => call.Flat) {} calls c)
    (named : ∀ spec ∈ submitted calls, ∀ ts ∈ spec.tasks, kindName ts.kind ≠ none) (worker toolchain : Str) (part : Int) :
    ∃ soon, ∀ now c₀, soon ≤ now → Step H o c (.reap now) c₀ →
      ∀ rounds c₁, Runs (Round H o worker toolchain part now) c₀ rounds c₁ →
        rounds.length ≤ (c₀.db.remaining toolchain).length ∧
        ∀ build spec, specOf calls build = some spec → spec.toolchain = toolchain → c₁.db.Running build →
          ∀ data, ∃ a c₂, Round H o worker toolchain part now c₁ (a, data) c₂ := by
  obtain ⟨soon, before⟩ := exists_before c.db.tasks
  refine ⟨soon, fun now c₀ late pass rounds c₁ made => ?_⟩
  have reached : Runs (Meets (Step H o) fun _ call => call.Flat) {} (calls ++ [.reap now]) c₀ :=
    run.snoc ⟨by exact trivial, pass⟩
  have alone : Alone worker now c₀.db := by
    cases pass with
    | reap => exact reap_alone ((timed_invariant o).runs run.forget) before late worker
  obtain ⟨alone', bound, grows, more, reached'⟩ := rounds_spec made digests reached alone
  have kinds : ∀ t ∈ c₀.db.tasks, kindName t.kind ≠ none := by
    intro t ht
    obtain ⟨spec, ts, known, member, built, -⟩ := (Runs.recorded reached).placed t ht
    rw [built.kind]
    refine named spec ?_ ts (List.mem_of_getElem? member)
    simpa [submitted] using mem_submitted known
  have kinds' : ∀ t ∈ c₁.db.tasks, kindName t.kind ≠ none := by
    intro t ht
    obtain ⟨u, hu, fixed⟩ := Db.mem_of_fixed grows.fixed.symm ht
    exact kind_of_fixed fixed ▸ kinds u hu
  refine ⟨by omega, fun build spec found chain running data => ?_⟩
  obtain ⟨base, noticed, closes⟩ := Runs.closes reached'
  obtain ⟨t, ht, rfl, isOpen⟩ := exists_open base noticed closes running
  obtain ⟨spec', ts, known, -, built, -⟩ := (Runs.recorded reached').placed t ht
  rw [specOf_more (specOf_more found _) _] at known
  cases known
  exact Round.next digests base alone' kinds' ⟨t, ht, built.toolchain.trans chain, isOpen⟩ part data

end Alone

/-- An object and its library, under digests of 64 digits. -/
def abandonedSpec : BuildSpec where
  toolchain := "gcc".toList
  tasks := [
    ⟨0, COMPILE, "obj/f.c.o".toList, [], Sha256.coarse.hex [], Sha256.coarse.hex [], ["cc".toList], 10⟩,
    ⟨1, ARCHIVE, "libf.a".toList, [0], [], [], [], 1000⟩]

/-- A worker claims the object and is not heard of again. -/
def abandonedRequests : List Request :=
  [.putBlob [] [], .submitBuild abandonedSpec 1, .claimTask "dead".toList "gcc".toList 0 0 1]

theorem abandonedRequests_served :
    (serveAll Sha256.coarse {} {} abandonedRequests).any (fun r =>
      decide ((∀ call ∈ r.1, call.Flat) ∧ submitted r.1 = [abandonedSpec] ∧ specOf r.1 1 = some abandonedSpec ∧
        r.2.db.Running 1 ∧ ∃ t ∈ r.2.db.tasks, t.state = .running)) = true := by
  decide +kernel

/-- Another worker finishes the build. -/
theorem lone_worker_finishes_abandoned : ∃ calls c,
    Runs (Meets (Step Sha256.coarse {}) fun _ call => call.Flat) {} calls c ∧ c.db.Running 1 ∧
      (∃ t ∈ c.db.tasks, t.state = .running) ∧
      ∃ soon, ∀ now c₀, soon ≤ now → Step Sha256.coarse {} c (.reap now) c₀ →
        ∀ rounds c₁, Runs (Round Sha256.coarse {} "w".toList "gcc".toList 0 now) c₀ rounds c₁ →
          rounds.length ≤ (c₀.db.remaining "gcc".toList).length ∧
          (c₁.db.Running 1 → ∀ data, ∃ a c₂, Round Sha256.coarse {} "w".toList "gcc".toList 0 now c₁ (a, data) c₂) := by
  obtain ⟨⟨calls, c⟩, served, facts⟩ := (Option.any_eq_true ..).mp abandonedRequests_served
  obtain ⟨flat, one, spec, running, held⟩ := of_decide_eq_true facts
  have run := (serveAll_runs served).meets flat
  have kinds : ∀ ts ∈ abandonedSpec.tasks, kindName ts.kind ≠ none := by decide
  obtain ⟨soon, ends⟩ := lone_worker_finishes Sha256.coarse_digests run (by simpa [one] using kinds) "w".toList
    "gcc".toList 0
  refine ⟨calls, c, run, running, held, soon, fun now c₀ late pass rounds c₁ made => ?_⟩
  obtain ⟨few, next⟩ := ends now c₀ late pass rounds c₁ made
  exact ⟨few, next 1 abandonedSpec spec rfl⟩

end DistCompile
