import DistCompile.Fleet
import DistCompile.LoneWorker

/-!
What a worker keeps by its heartbeats (`try_claim`, `Heartbeat` and `reap_loop` in
`src/coordinator.cpp`, the heartbeat thread in `src/worker.cpp`).

A claim sets the end of the lease and every heartbeat of the worker moves it. The reaper takes the
attempt back at its first pass after that end, and until a report of the task is accepted nothing
else does: whatever is submitted, claimed and reported meanwhile, the row of a running task changes
by these three calls only (`Step.lease`).
-/

namespace DistCompile

open DistCompile.Lib

/-! ### A running row and the statements of others -/

/-- The task whose report the statement handles. -/
def Stmt.reports : Stmt → Option Nat
  | .complete r _ | .retry r _ | .fail r => some r.taskUid
  | _ => none

/-- The row is in the table, its counter apart. -/
def Db.Shows (db : Db) (t : TaskRow) : Prop := ∃ pendingDeps, { t with pendingDeps } ∈ db.tasks

section Statements

variable {H : Sha256} {o : Options} {db : Db} {t : TaskRow}

theorem Db.Shows.of_mem (ht : t ∈ db.tasks) : db.Shows t := ⟨t.pendingDeps, ht⟩

/-- Statements that follow another handle no report. -/
theorem exec_next_silent {s n : Stmt} (member : n ∈ (exec H o db s).next) : n.reports = none := by
  cases s with
  | dependents build id => rcases mem_next_dependents member with ⟨t, -, rfl | rfl⟩ | ⟨-, rfl⟩ <;> rfl
  | _ =>
    simp only [exec, finished, makeReady, maybeFinish] at member
    grind [Stmt.reports]

/-- A write leaves the other rows. -/
theorem Db.Shows.write {row : TaskRow} (shows : db.Shows t) (other : t.uid ≠ row.uid) :
    (db.apply (.task row)).Shows t := by
  obtain ⟨pendingDeps, ht⟩ := shows
  exact ⟨pendingDeps, List.mem_map.mpr ⟨_, ht, if_neg other⟩⟩

/-- A statement that handles no report of a running task leaves its row. -/
theorem Db.Shows.exec (counting : Counting Unclaimed db) {s : Stmt} (fits : s.Fits Unclaimed db) (shows : db.Shows t)
    (running : t.state = .running) (other : s.reports ≠ some t.uid) :
    ((DistCompile.exec H o db s).db db).Shows t := by
  rcases write : (DistCompile.exec H o db s).write with _ | row | row | row
  · rw [Outcome.db, write]
    exact shows
  · rw [Outcome.db, write]
    obtain ⟨u, hu, next, -, rewrites⟩ := exec_rewrites write
    obtain ⟨pendingDeps, ht⟩ := shows
    by_cases same : u.uid = t.uid
    · obtain rfl := List.inj_on_of_nodup_map counting.uids.unique hu ht same
      cases rewrites with
      | complete found | retry found | fail found => exact absurd (congrArg some (mem_of_task? found).2.symm) other
      | countDown => exact ⟨pendingDeps - 1, List.mem_map.mpr ⟨_, ht, if_pos rfl⟩⟩
      | markCached | markReady =>
        -- `make_ready` reaches rows that have not been claimed
        have young := (fits _ ht rfl).1.closed
        rw [running] at young
        cases young
    · have uid : row.uid = u.uid := by cases rewrites <;> rfl
      exact Db.Shows.write ⟨pendingDeps, ht⟩ fun equal => same (uid.symm.trans equal.symm)
  · rw [Outcome.db, write]
    exact shows
  · rw [Outcome.db, write, Option.elim_some, Db.Shows, db.apply_cache_tasks row]
    exact shows

/-- Nor does a transaction that starts with such a statement. -/
theorem Db.Shows.run (counting : Counting Unclaimed db) {s : Stmt} (fits : s.Fits Unclaimed db) (shows : db.Shows t)
    (running : t.state = .running) (other : s.reports ≠ some t.uid) {fuel : Nat} {trace : List Event} {cfg : Cfg}
    (ran : DistCompile.run H o fuel ⟨db, [s], trace⟩ = some cfg) : cfg.db.Shows t := by
  refine (run_induction (P := fun c => Ongoing o Unclaimed s.takesBack db c ∧ c.db.Shows t ∧
    ∀ n ∈ c.stack, n.reports ≠ some t.uid) (fun {c n rest} holds top => ?_) ran
    ⟨.start counting fits, shows, by simpa using other⟩).1.2.1
  obtain ⟨tx, shows, others⟩ := holds
  refine ⟨tx.exec Unclaimed.closed top,
    shows.exec tx.counting (tx.fits n (by simp [top])) running (others n (by simp [top])), fun m member => ?_⟩
  rcases List.mem_append.mp member with new | below
  · rw [exec_next_silent new]
    simp
  · exact others m (by simp [top, below])

end Statements

/-! ### Calls -/

/-- What a call makes of the row of a running task, unless it reports it. -/
def Call.leaseRow (o : Options) : Call → TaskRow → TaskRow
  | .heartbeat worker now, t => heartbeatRow o worker now t
  | .reap now, t => reapRow o now t
  | _, t => t

/-- An accepted report of the task. -/
def Call.Answers (uid : Nat) : Call → Prop
  | .completeTask r _ accepted => accepted = true ∧ r.taskUid = uid
  | _ => False

section Calls

variable {H : Sha256} {o : Options} {c c' : Coordinator} {call : Call} {t : TaskRow}

theorem heartbeatRow_counter (worker : Str) (now : Int) (t : TaskRow) {pendingDeps : Int} :
    heartbeatRow o worker now { t with pendingDeps } = { heartbeatRow o worker now t with pendingDeps } := by
  by_cases leased : leasedTo worker t = true
  · rw [heartbeatRow, heartbeatRow, if_pos leased, if_pos (show leasedTo worker { t with pendingDeps } = true from leased)]
  · rw [heartbeatRow, heartbeatRow, if_neg leased,
      if_neg (show ¬ leasedTo worker { t with pendingDeps } = true from leased)]

theorem reapRow_counter (now : Int) (t : TaskRow) {pendingDeps : Int} :
    reapRow o now { t with pendingDeps } = { reapRow o now t with pendingDeps } := by
  cases expired : leaseExpired now t with
  | false => rw [reapRow, reapRow, expired, show leaseExpired now { t with pendingDeps } = false from expired]; rfl
  | true => rw [reapRow, reapRow, expired, show leaseExpired now { t with pendingDeps } = true from expired]; rfl

/-- Between its claim and its report the row of a task is changed by heartbeats and the reaper. -/
theorem Step.lease (step : Step H o c call c') (counting : Counting Unclaimed c.db) (shows : c.db.Shows t)
    (running : t.state = .running) (silent : ¬ call.Answers t.uid) : c'.db.Shows (call.leaseRow o t) := by
  cases step with
  | putBlob _ => exact shows
  | putRefused _ => exact shows
  | @submitBuild spec live =>
    obtain ⟨pendingDeps, ht⟩ := shows
    rcases ran : DistCompile.submitBuild H o c.blobs.has c.db live spec with ⟨db', e | ⟨build, cached⟩⟩
    · obtain ⟨builds, uids, rfl⟩ := submitBuild_error ran
      exact ⟨pendingDeps, ht⟩
    · obtain ⟨-, -, order, rank, part, w, -, -, -, rfl⟩ := submitBuild_ok ran
      refine ⟨pendingDeps, ?_⟩
      rw [maybeFinish_tasks]
      exact List.mem_append_left _ ht
  | @claimTask worker toolchain part now u picked _ | @claimCrash worker toolchain part now u picked _ =>
    obtain ⟨hu, ready, -⟩ := mem_of_picked picked
    refine shows.write fun same => ?_
    obtain ⟨pendingDeps, ht⟩ := shows
    obtain rfl := List.inj_on_of_nodup_map counting.uids.unique ht hu same
    rw [running] at ready
    cases ready
  | claimNothing _ => exact shows
  | @completeTask r now fuel cfg ran =>
    cases reply : accepts c.db (DistCompile.completeTask c.blobs.has c.blobs.sizeOf now r) with
    | false =>
      rw [rejected_unchanged reply ran]
      exact shows
    | true =>
      have other : r.taskUid ≠ t.uid := fun same => silent ⟨reply, same⟩
      obtain ⟨s, r', stack, uid, -, first⟩ := completeTask_first c.blobs.has c.blobs.sizeOf now r
      rw [stack] at ran
      have fits : s.Fits Unclaimed c.db := by rcases first with ⟨_, rfl⟩ | ⟨_, rfl⟩ | rfl <;> trivial
      have reports : s.reports = some r.taskUid := by
        rcases first with ⟨_, rfl⟩ | ⟨_, rfl⟩ | rfl <;> exact congrArg some uid
      refine Db.Shows.run counting fits shows running ?_ ran
      rw [reports]
      exact fun same => other (Option.some.inj same)
  | @heartbeat worker now =>
    obtain ⟨pendingDeps, ht⟩ := shows
    exact ⟨pendingDeps, List.mem_map.mpr ⟨_, ht, heartbeatRow_counter worker now t⟩⟩
  | @reap now =>
    obtain ⟨pendingDeps, ht⟩ := shows
    exact ⟨pendingDeps, reap_induction (P := fun db => _ ∈ db.tasks) (fun build here => by rwa [maybeFinish_tasks])
      (List.mem_map.mpr ⟨_, ht, reapRow_counter now t⟩)⟩

end Calls

/-! ### Leases -/

/-- The time of the last heartbeat of the worker, or of its claim. -/
def lastHeard (worker : Str) (claimed : Int) (calls : List Call) : Int :=
  calls.foldl (fun heard call => match call with
    | .heartbeat beating now => if beating = worker then now else heard
    | _ => heard) claimed

/-- No pass of the reaper comes after the lease that the claim and the heartbeats before the pass
have given the worker. -/
def InTime (o : Options) (worker : Str) (claimed : Int) (calls : List Call) : Prop :=
  ∀ before now after, calls = before ++ .reap now :: after → now ≤ lastHeard worker claimed before + o.leaseS * second

section Leases

variable {H : Sha256} {o : Options} {worker : Str} {claimed : Int} {calls : List Call} {call : Call}
  {c c' : Coordinator} {t : TaskRow}

theorem lastHeard_snoc (calls : List Call) (call : Call) : lastHeard worker claimed (calls ++ [call]) =
    match call with
    | .heartbeat beating now => if beating = worker then now else lastHeard worker claimed calls
    | _ => lastHeard worker claimed calls := by
  rw [lastHeard, List.foldl_append]
  rfl

theorem inTime_snoc : InTime o worker claimed (calls ++ [call]) ↔ InTime o worker claimed calls ∧
    ∀ now, call = .reap now → now ≤ lastHeard worker claimed calls + o.leaseS * second := by
  constructor
  · refine fun inTime => ⟨fun before now after split => inTime before now (after ++ [call]) (by simp [split]), ?_⟩
    rintro now rfl
    exact inTime calls now [] rfl
  · rintro ⟨earlier, last⟩ before now after split
    rcases List.eq_nil_or_concat after with rfl | ⟨init, final, rfl⟩
    · obtain ⟨rfl, same⟩ := List.append_inj' split rfl
      exact last now (List.singleton_inj.mp same)
    · have whole : calls ++ [call] = (before ++ .reap now :: init) ++ [final] := by simpa using split
      exact earlier before now init (List.append_inj' whole rfl).1

/-- The attempt runs under the name of the worker, and its lease is the one that the worker was last
given. -/
structure TaskRow.HeldBy (o : Options) (worker : Str) (claimed : Int) (calls : List Call) (t : TaskRow) : Prop where
  leased : leasedTo worker t = true
  lease : t.leaseUntil = some (lastHeard worker claimed calls + o.leaseS * second)

/-- What a call that keeps the lease makes of the row. -/
theorem TaskRow.HeldBy.keeps (held : t.HeldBy o worker claimed calls)
    (inTime : ∀ now, call = .reap now → now ≤ lastHeard worker claimed calls + o.leaseS * second) :
    (call.leaseRow o t).HeldBy o worker claimed (calls ++ [call]) ∧ (call.leaseRow o t).uid = t.uid ∧
      (call.leaseRow o t).attempts = t.attempts := by
  obtain ⟨leased, lease⟩ := held
  have owner : t.leaseOwner = some worker := by
    simp only [leasedTo, Bool.and_eq_true, decide_eq_true_eq] at leased
    exact leased.1
  cases call with
  | heartbeat beating now =>
    simp only [Call.leaseRow, heartbeatRow]
    by_cases own : beating = worker
    · subst own
      rw [if_pos leased]
      exact ⟨⟨leased, by rw [lastHeard_snoc]; simp⟩, rfl, rfl⟩
    · have other : ¬ leasedTo beating t = true := by
        simp [leasedTo, owner, Ne.symm own]
      rw [if_neg other]
      exact ⟨⟨leased, by rw [lastHeard_snoc]; simpa [own] using lease⟩, rfl, rfl⟩
  | reap now =>
    have live : leaseExpired now t = false := by
      simpa [leaseExpired, lease] using fun _ => inTime now rfl
    rw [Call.leaseRow, reapRow, live]
    exact ⟨⟨leased, by rw [lastHeard_snoc]; exact lease⟩, rfl, rfl⟩
  | _ => exact ⟨⟨leased, by rw [lastHeard_snoc]; exact lease⟩, rfl, rfl⟩

/-- A pass of the reaper after the end of the lease. -/
theorem TaskRow.HeldBy.lost (held : t.HeldBy o worker claimed calls) {now : Int}
    (late : lastHeard worker claimed calls + o.leaseS * second < now) :
    (reapRow o now t).uid = t.uid ∧ (reapRow o now t).attempts = t.attempts ∧
      (reapRow o now t).state ≠ .running := by
  have expired : leaseExpired now t = true := by
    have leased := held.leased
    simp only [leasedTo, Bool.and_eq_true, decide_eq_true_eq] at leased
    simpa [leaseExpired, held.lease, leased.2] using late
  rw [reapRow, expired]
  exact ⟨rfl, rfl, requeue_not_running o t.attempts⟩

/-- Where an attempt stands some calls after its claim. -/
structure Standing (o : Options) (worker : Str) (claimed : Int) (uid attempt : Nat) (calls : List Call)
    (c : Coordinator) : Prop where
  counting : Counting Unclaimed c.db
  issued : c.db.Issued uid attempt
  held : InTime o worker claimed calls →
    ∃ t ∈ c.db.tasks, t.uid = uid ∧ t.attempts = attempt ∧ t.HeldBy o worker claimed calls
  lost : ¬ InTime o worker claimed calls → ¬ c.db.RunsAttempt uid attempt
  own : InTime o worker claimed calls → ∀ call ∈ calls, ∀ attempt, call.hands ≠ some (uid, attempt)

/-- Every call keeps it, up to the report. -/
theorem Standing.step {uid attempt : Nat} (standing : Standing o worker claimed uid attempt calls c)
    (step : Step H o c call c') (silent : ¬ call.Answers uid) :
    Standing o worker claimed uid attempt (calls ++ [call]) c' := by
  have arises := step.unclaimed standing.counting
  have issued : c'.db.Issued uid attempt := by
    rcases step.ends_or_begins standing.counting.uids with ends | ⟨_, _, _, begins⟩
    · exact ends.issued uid attempt standing.issued
    · exact begins.issued uid attempt standing.issued
  refine ⟨arises.counting, issued, fun inTime => ?_, fun late => ?_, fun inTime => ?_⟩
  · obtain ⟨earlier, now⟩ := inTime_snoc.mp inTime
    obtain ⟨t, ht, rfl, rfl, held⟩ := standing.held earlier
    have running : t.state = .running := by
      have leased := held.leased
      simp only [leasedTo, Bool.and_eq_true, decide_eq_true_eq] at leased
      exact leased.2
    obtain ⟨pendingDeps, here⟩ := step.lease standing.counting (.of_mem ht) running silent
    obtain ⟨⟨leased, lease⟩, uid, attempts⟩ := held.keeps now
    exact ⟨_, here, uid, attempts, leased, lease⟩
  · by_cases earlier : InTime o worker claimed calls
    · -- this is the first late pass of the reaper
      obtain ⟨now, rfl, overdue⟩ : ∃ now, call = .reap now ∧
          lastHeard worker claimed calls + o.leaseS * second < now := by
        by_contra none_
        exact late (inTime_snoc.mpr ⟨earlier, fun now same => not_lt.mp fun over_ => none_ ⟨now, same, over_⟩⟩)
      obtain ⟨t, ht, rfl, rfl, held⟩ := standing.held earlier
      obtain ⟨uid, attempts, stopped⟩ := held.lost overdue
      have leased := held.leased
      simp only [leasedTo, Bool.and_eq_true, decide_eq_true_eq] at leased
      obtain ⟨pendingDeps, here⟩ := step.lease standing.counting (.of_mem ht) leased.2 silent
      rintro ⟨u, hu, same, -, running⟩
      rw [List.inj_on_of_nodup_map arises.counting.uids.unique hu here (same.trans uid.symm)] at running
      exact stopped running
    · exact (step.over_stays standing.counting.uids standing.issued (standing.lost earlier)).2
  · obtain ⟨earlier, now⟩ := inTime_snoc.mp inTime
    intro call' member number hands
    rcases List.mem_append.mp member with old | new
    · exact standing.own earlier call' old number hands
    · rw [List.mem_singleton.mp new] at hands
      obtain ⟨t, ht, uid, attempts, held⟩ := standing.held earlier
      obtain ⟨u, hu, ready, same, -⟩ := step.claims hands
      rw [List.inj_on_of_nodup_map standing.counting.uids.unique hu ht (same.trans uid.symm)] at ready
      have leased := held.leased
      simp only [leasedTo, Bool.and_eq_true, decide_eq_true_eq] at leased
      rw [ready] at leased
      cases leased.2

theorem Standing.run {uid attempt : Nat} (standing : Standing o worker claimed uid attempt [] c)
    (run : Runs (Step H o) c calls c') (silent : ∀ call ∈ calls, ¬ call.Answers uid) :
    Standing o worker claimed uid attempt calls c' := by
  induction run with
  | nil => exact standing
  | snoc _ last ih => exact (ih (fun call member => silent call (by simp [member]))).step last (silent _ (by simp))

/-- After the claim. -/
theorem Standing.start {toolchain : Str} {part : Int} {a : Assignment} (counting : Counting Unclaimed c.db)
    (claim : Step H o c (.claimTask worker toolchain part claimed (some a)) c') :
    Standing o worker claimed a.taskUid a.attempt [] c' := by
  have arises := claim.unclaimed counting
  obtain ⟨t, picked, rfl, db⟩ := claim.claimed
  have row : claimedRow o worker claimed t ∈ c'.db.tasks := by
    rw [db]
    exact List.mem_map.mpr ⟨t, (mem_of_picked picked).1, if_pos rfl⟩
  refine ⟨arises.counting, ⟨_, row, rfl, le_rfl⟩, fun _ => ⟨_, row, rfl, rfl, ?_, rfl⟩, fun late => ?_, by simp⟩
  · simp [leasedTo, claimedRow]
  · exact absurd (fun before now after split => by simp at split) late

/-- For every run of calls, the claim of a task by a worker, and the calls after it until a report of
the task is accepted: the attempt is still the worker's just when no pass of the reaper came more
than a lease after the last heartbeat before it, and as long as it is, the task has been handed to
nobody else. -/
theorem lease_kept_iff {past later : List Call} {c c' c'' : Coordinator} {toolchain : Str} {part now : Int}
    {a : Assignment} (run : Runs (Step H o) {} past c)
    (claim : Step H o c (.claimTask worker toolchain part now (some a)) c') (rest : Runs (Step H o) c' later c'')
    (silent : ∀ call ∈ later, ¬ call.Answers a.taskUid) :
    (c''.db.Leased worker a.taskUid a.attempt ↔ InTime o worker now later) ∧
      (InTime o worker now later → ∀ call ∈ later, ∀ attempt, call.hands ≠ some (a.taskUid, attempt)) := by
  have standing := (Standing.start (Runs.logged run).counting claim).run rest silent
  refine ⟨⟨fun leased => ?_, fun inTime => ?_⟩, standing.own⟩
  · by_contra late
    exact standing.lost late leased.runs
  · obtain ⟨t, ht, uid, attempts, held⟩ := standing.held inTime
    exact ⟨t, ht, uid, attempts, held.leased⟩

end Leases

/-- The sample after the claim of its compile task at 0. -/
def claimedSample : Coordinator :=
  { sampleCoordinator with db := sampleCoordinator.db.apply (.task (claimedRow {} sampleWorker 0 sampleRow)) }

/-- A pass of the reaper at 30 seconds takes the task back, unless a heartbeat at 15 has come before. -/
theorem lease_kept_iff_sample :
    (∃ c, Runs (Step sampleSha {}) claimedSample [.heartbeat sampleWorker (15 * second), .reap (30 * second)] c ∧
      c.db.Leased sampleWorker sampleAssignment.taskUid sampleAssignment.attempt) ∧
    ∃ c, Runs (Step sampleSha {}) claimedSample [.reap (30 * second)] c ∧
      ¬ c.db.Leased sampleWorker sampleAssignment.taskUid sampleAssignment.attempt := by
  obtain ⟨calls, run⟩ := sample_reached
  have picked : Picked (claimCandidates sampleCoordinator.db sampleWorker "gcc".toList 0 0) sampleRow := by
    unfold Picked
    decide +kernel
  have claim : Step sampleSha {} sampleCoordinator
      (.claimTask sampleWorker "gcc".toList 0 0 (some sampleAssignment)) claimedSample :=
    .claimTask picked (by decide +kernel)
  have beaten : Runs (Step sampleSha {}) claimedSample
      [.heartbeat sampleWorker (15 * second), .reap (30 * second)] _ := (Runs.nil.snoc .heartbeat).snoc .reap
  have missed : Runs (Step sampleSha {}) claimedSample [.reap (30 * second)] _ := Runs.nil.snoc .reap
  refine ⟨⟨_, beaten, (lease_kept_iff run.forget claim beaten (by simp [Call.Answers])).1.mpr ?_⟩,
    _, missed, fun leased => ?_⟩
  · have nothing : InTime {} sampleWorker 0 [] := fun before now after split => by simp at split
    have beat : InTime {} sampleWorker 0 ([] ++ [.heartbeat sampleWorker (15 * second)]) :=
      inTime_snoc.mpr ⟨nothing, by simp⟩
    refine inTime_snoc.mpr ⟨beat, fun now same => ?_⟩
    cases same
    decide +kernel
  · have inTime := (lease_kept_iff run.forget claim missed (by simp [Call.Answers])).1.mp leased [] _ [] rfl
    exact absurd inTime (by decide +kernel)

end DistCompile
