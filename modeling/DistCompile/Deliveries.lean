import DistCompile.Attempts
import DistCompile.Settled

/-!
Results that are delivered more than once (`CompleteTask` in `src/coordinator.cpp`).

A result answers an attempt that was handed out. A result with a terminal effect settles
its task, and a settled task accepts nothing (`settled_rejects`). A transient failure is
accepted only while its own attempt runs; every delivery ends that attempt, and an
attempt that has ended never runs again (`over_stays`). So the second delivery of a
result finds nothing to do, whatever happened in between.
-/

namespace DistCompile

open DistCompile.Lib

/-- The handler treats the result as a transient failure: it says so, or its blob is
missing. -/
def TaskResult.transient (r : TaskResult) (blobs : Blobs) : Bool :=
  if r.ok then !blobs.has r.output else r.retryable

section Stack

variable {H : Sha256} {o : Options} {db : Db} {blobs : Blobs} {now : Int} {r : TaskResult}

/-- The one statement a completion starts with. -/
theorem completeTask_cases (blobs : Blobs) (now : Int) (r : TaskResult) :
    (r.transient blobs = true ∧ ∃ r', completeTask blobs.has blobs.sizeOf now r = [.retry r' now] ∧
      r'.taskUid = r.taskUid ∧ r'.attempt = r.attempt) ∨
    (r.transient blobs = false ∧ (completeTask blobs.has blobs.sizeOf now r = [.complete r (blobs.sizeOf r.output)] ∨
      completeTask blobs.has blobs.sizeOf now r = [.fail r])) := by
  unfold completeTask TaskResult.transient
  cases ok : r.ok with
  | true =>
    cases held : blobs.has r.output with
    | true => simp
    | false => exact Or.inl ⟨rfl, retryCopy r _, rfl, rfl, rfl⟩
  | false =>
    cases retry : r.retryable with
    | true => exact Or.inl ⟨rfl, r, rfl, rfl, rfl⟩
    | false => exact Or.inr ⟨rfl, Or.inr rfl⟩

/-- A completion that is not accepted changes nothing. -/
theorem rejected_unchanged {fuel : Nat} {cfg : Cfg}
    (rejected : accepts db (completeTask blobs.has blobs.sizeOf now r) = false)
    (ran : run H o fuel ⟨db, completeTask blobs.has blobs.sizeOf now r, []⟩ = some cfg) : cfg.db = db := by
  have idle : ∀ s, completeTask blobs.has blobs.sizeOf now r = [s] → exec H o db s = {} → cfg.db = db := by
    intro s stack nothing
    rw [stack] at ran
    cases fuel with
    | zero => simp [run] at ran
    | succ fuel =>
      simp only [run, Cfg.step, nothing] at ran
      cases fuel with
      | zero =>
        cases ran
        rfl
      | succ fuel =>
        cases ran
        rfl
  rcases completeTask_cases blobs now r with ⟨-, r', stack, -⟩ | ⟨-, stack | stack⟩
  · refine idle _ stack ?_
    rw [stack, accepts] at rejected
    rw [exec]
    split
    · rename_i t found
      rw [found, Option.any_some] at rejected
      rw [if_neg (by simpa using rejected)]
    · rfl
  · refine idle _ stack ?_
    rw [stack, accepts] at rejected
    rw [exec]
    split
    · rename_i t found
      rw [found, Option.any_some] at rejected
      rw [if_neg (by simp [rejected])]
    · rfl
  · refine idle _ stack ?_
    rw [stack, accepts] at rejected
    rw [exec]
    split
    · rename_i t found
      rw [found, Option.any_some] at rejected
      rw [if_neg (by simp [rejected])]
    · rfl

/-- A settled task accepts no result. -/
theorem settled_rejects (uids : db.Uids) {t : TaskRow} (ht : t ∈ db.tasks) (uid : t.uid = r.taskUid)
    (settled : t.state.settled = true) : accepts db (completeTask blobs.has blobs.sizeOf now r) = false := by
  have found : db.task? r.taskUid = some t := uid ▸ uids.task?_eq ht
  rcases completeTask_cases blobs now r with ⟨-, r', stack, same, -⟩ | ⟨-, stack | stack⟩
  · rw [stack, accepts, same, found, Option.any_some]
    have idle : t.state ≠ .running := fun running => by rw [running] at settled; cases settled
    simp [idle]
  · rw [stack, accepts, found, Option.any_some, settled_not_open settled]
  · rw [stack, accepts, found, Option.any_some, settled_not_open settled]

/-- A transient failure is accepted exactly while its attempt runs. -/
theorem transient_accepted_iff (uids : db.Uids) (transient : r.transient blobs = true) :
    accepts db (completeTask blobs.has blobs.sizeOf now r) = true ↔ db.RunsAttempt r.taskUid r.attempt := by
  rcases completeTask_cases blobs now r with ⟨-, r', stack, uid, attempt⟩ | ⟨terminal, -⟩
  · rw [stack, accepts, uid, attempt, Option.any_eq_true]
    constructor
    · rintro ⟨t, found, guard⟩
      simp only [Bool.and_eq_true, decide_eq_true_eq] at guard
      exact ⟨t, List.mem_of_find?_eq_some found, by simpa using List.find?_some found, guard.2, guard.1⟩
    · rintro ⟨t, ht, same, number, running⟩
      exact ⟨t, same ▸ uids.task?_eq ht, by simp [running, number]⟩
  · rw [terminal] at transient
    cases transient

/-- A result with a terminal effect settles its task, if it was not settled before. -/
theorem terminal_settles (counting : Counting Waits db) (terminal : r.transient blobs = false) {t : TaskRow}
    (ht : t ∈ db.tasks) (uid : t.uid = r.taskUid) (isOpen : t.state.open = true) {fuel : Nat} {cfg : Cfg}
    (ran : run H o fuel ⟨db, completeTask blobs.has blobs.sizeOf now r, []⟩ = some cfg) :
    ∃ t' ∈ cfg.db.tasks, t'.uid = r.taskUid ∧ t'.state.settled = true := by
  have found : db.task? r.taskUid = some t := uid ▸ counting.uids.task?_eq ht
  -- the first statement writes the row, and the others leave it
  obtain ⟨s, stack, fits, row, written, rowUid, settled⟩ : ∃ s,
      completeTask blobs.has blobs.sizeOf now r = [s] ∧ s.Fits Waits db ∧ ∃ row,
        (exec H o db s).write = some (.task row) ∧ row.uid = t.uid ∧ row.state.settled = true := by
    rcases completeTask_cases blobs now r with ⟨transient, -⟩ | ⟨-, stack | stack⟩
    · rw [terminal] at transient
      cases transient
    · refine ⟨_, stack, trivial, ?_⟩
      simp [exec, found, isOpen, TaskState.settled]
    · refine ⟨_, stack, trivial, ?_⟩
      simp [exec, found, isOpen, TaskState.settled]
  rw [stack] at ran
  cases fuel with
  | zero => simp [run] at ran
  | succ fuel =>
    have start : Ongoing o Waits s.takesBack db ⟨db, [s], []⟩ := Ongoing.start counting fits
    simp only [run, Cfg.step] at ran
    have first := (start.exec (H := H) Waits.closed rfl).here
    obtain ⟨tx, -⟩ := run_induction (P := Ongoing o Waits s.takesBack _) (fun tx => tx.exec Waits.closed) ran first
    have member : row ∈ ((exec H o db s).db db).tasks := by
      rw [Outcome.db, written]
      exact List.mem_map.mpr ⟨t, ht, if_pos rowUid.symm⟩
    obtain ⟨t', ht', moves⟩ := tx.moved.forward first.counting.uids member
    have kept := moves.kept settled
    exact ⟨t', ht', kept.uid.trans (rowUid.trans uid), kept.state ▸ settled⟩

end Stack

section Runs

variable {H : Sha256} {o : Options} {calls : List Call} {call : Call} {c c' : Coordinator}

/-- What holds of every task that has been handed out. -/
theorem Logged.issued (logged : Logged H o calls c) {uid attempt : Nat}
    (handed : (uid, attempt) ∈ handedOut calls) :
    c.db.Issued uid attempt ∧ ∃ t ∈ c.db.tasks, t.uid = uid ∧ t.state ≠ .waiting := by
  have listed : attempt ∈ attemptsOf uid calls :=
    List.mem_map.mpr ⟨(uid, attempt), List.mem_filter.mpr ⟨handed, by simp⟩, rfl⟩
  by_cases known : ∃ t ∈ c.db.tasks, t.uid = uid
  · obtain ⟨t, ht, rfl⟩ := known
    rw [logged.attempts t ht, List.mem_range'_1] at listed
    have made := t.handed_le
    refine ⟨⟨t, ht, rfl, by omega⟩, t, ht, rfl, fun waits => ?_⟩
    have := logged.counting.waiting t ht waits
    omega
  · rw [logged.absent uid fun t ht same => known ⟨t, ht, same⟩] at listed
    cases listed

/-- What a call does to attempts. -/
theorem Step.ends_or_begins (step : Step H o c call c') (uids : c.db.Uids) :
    Ends c.db c'.db ∨ ∃ worker uid attempt, Begins c.db c'.db worker uid attempt := by
  cases step with
  | putBlob _ => exact Or.inl (.refl _)
  | putRefused _ => exact Or.inl (.refl _)
  | submitBuild => exact Or.inl (submitBuild_tables uids).2
  | claimTask picked _ | claimCrash picked _ => exact Or.inr ⟨_, _, _, (claim_begins uids (mem_of_picked picked).1 _ _).2⟩
  | claimNothing _ => exact Or.inl (.refl _)
  | completeTask ran => exact Or.inl (run_tables uids ran).2
  | heartbeat => exact Or.inl (Ends.of_rows rfl fun t _ => heartbeatRow_ends o _ _ t)
  | reap => exact Or.inl (reap_tables uids _).2

/-- An attempt that was handed out and does not run never runs again. -/
theorem Step.over_stays (step : Step H o c call c') (uids : c.db.Uids) {uid attempt : Nat}
    (issued : c.db.Issued uid attempt) (past : ¬ c.db.RunsAttempt uid attempt) :
    c'.db.Issued uid attempt ∧ ¬ c'.db.RunsAttempt uid attempt := by
  rcases step.ends_or_begins uids with ends | ⟨worker, u, a, begins⟩
  · exact ⟨ends.issued uid attempt issued, fun runs => past (ends.runs uid attempt runs)⟩
  · refine ⟨begins.issued uid attempt issued, fun runs => ?_⟩
    rcases begins.runs uid attempt runs with before | ⟨rfl, rfl⟩
    · exact past before
    · exact begins.unissued issued

theorem Runs.over_stays {d : Coordinator}
    (run : Runs (Meets (Step H o) fun c call => call.Unforeseen H c) c calls d) (counting : Counting Waits c.db)
    {uid attempt : Nat} (issued : c.db.Issued uid attempt) (past : ¬ c.db.RunsAttempt uid attempt) :
    Counting Waits d.db ∧ ¬ d.db.RunsAttempt uid attempt := by
  obtain ⟨counting', -, over'⟩ := run.invariant
    (P := fun d => Counting Waits d.db ∧ d.db.Issued uid attempt ∧ ¬ d.db.RunsAttempt uid attempt)
    ⟨counting, issued, past⟩ fun {a call b} step holds =>
      ⟨(step.2.waits holds.1 step.1).counting, step.2.over_stays holds.1.uids holds.2.1 holds.2.2⟩
  exact ⟨counting', over'⟩

/-- The task has its final state. -/
def Coordinator.Settles (c : Coordinator) (uid : Nat) : Prop :=
  ∃ t ∈ c.db.tasks, t.uid = uid ∧ t.state.settled = true

theorem state_cases (s : TaskState) : s = .waiting ∨ s.open = true ∨ s.settled = true := by
  cases s
  all_goals simp [TaskState.open, TaskState.settled]

/-- What a completion replies and does. -/
theorem Step.completed {r : TaskResult} {now : Int} {accepted : Bool}
    (delivered : Step H o c (.completeTask r now accepted) c') :
    accepted = accepts c.db (DistCompile.completeTask c.blobs.has c.blobs.sizeOf now r) ∧ c'.blobs = c.blobs ∧
      ∃ fuel cfg, run H o fuel ⟨c.db, DistCompile.completeTask c.blobs.has c.blobs.sizeOf now r, []⟩ = some cfg ∧
        c'.db = cfg.db := by
  cases delivered with
  | completeTask ran => exact ⟨rfl, rfl, _, _, ran, rfl⟩

theorem Step.rejected {r : TaskResult} {now : Int} {accepted : Bool}
    (delivered : Step H o c (.completeTask r now accepted) c')
    (refused : accepts c.db (DistCompile.completeTask c.blobs.has c.blobs.sizeOf now r) = false) :
    accepted = false ∧ c'.db = c.db := by
  obtain ⟨reply, -, fuel, cfg, ran, db⟩ := delivered.completed
  exact ⟨reply.trans refused, db.trans (rejected_unchanged refused ran)⟩

/-- A result that answers an attempt and has a terminal effect leaves its task settled. -/
theorem Step.settles {r : TaskResult} {now : Int} {accepted : Bool} (counting : Counting Waits c.db)
    (delivered : Step H o c (.completeTask r now accepted) c') (terminal : r.transient c.blobs = false) {t : TaskRow}
    (ht : t ∈ c.db.tasks) (uid : t.uid = r.taskUid) (handed : t.state ≠ .waiting) : c'.Settles r.taskUid := by
  obtain ⟨-, -, fuel, cfg, ran, db⟩ := delivered.completed
  rcases state_cases t.state with waits | isOpen | settled
  · exact absurd waits handed
  · rw [Coordinator.Settles, db]
    exact terminal_settles counting terminal ht uid isOpen ran
  · have refused : accepts c.db (DistCompile.completeTask c.blobs.has c.blobs.sizeOf now r) = false :=
      settled_rejects counting.uids ht uid settled
    rw [Coordinator.Settles, (delivered.rejected refused).2]
    exact ⟨t, ht, uid, settled⟩

/-- For every run of calls with the specs of `dcc`, and a result that answers an attempt
handed out in it. A transient failure is accepted, or changes anything, only while its own
attempt runs. After an accepted result with a terminal effect no result for the task is
accepted. A second delivery of the result, with the same answer of the blob store, is not
accepted and changes nothing. -/
theorem completions_exactly_once {r : TaskResult} {now : Int} {accepted : Bool}
    (run : Runs (Meets (Step H o) fun _ call => call.Flat) {} calls c)
    (answers : (r.taskUid, r.attempt) ∈ handedOut calls)
    (delivered : Step H o c (.completeTask r now accepted) c') :
    (r.transient c.blobs = true → accepted = true ∨ c'.db ≠ c.db → c.db.RunsAttempt r.taskUid r.attempt) ∧
    ∀ {between : List Call} {d d' : Coordinator} {r' : TaskResult} {now' : Int} {accepted' : Bool},
      Runs (Meets (Step H o) fun _ call => call.Flat) c' between d →
      Step H o d (.completeTask r' now' accepted') d' →
        (accepted = true → c'.Settles r.taskUid → r'.taskUid = r.taskUid → accepted' = false) ∧
        (r' = r → d.blobs.has r.output = c.blobs.has r.output → accepted' = false ∧ d'.db = d.db) := by
  have logged := Runs.logged run.forget
  obtain ⟨issued, t, ht, uid, handed⟩ := logged.issued answers
  have counting : Counting Waits c.db := Runs.waits (run.mono fun step => ⟨step.1.unforeseen, step.2⟩)
  have counting' : Counting Waits c'.db := (delivered.waits counting trivial).counting
  constructor
  · intro transient effect
    have accepted_iff : accepts c.db (DistCompile.completeTask c.blobs.has c.blobs.sizeOf now r) = true ↔ _ :=
      transient_accepted_iff counting.uids transient
    refine accepted_iff.mp ?_
    by_contra refused
    have nothing := delivered.rejected (Bool.not_eq_true _ ▸ refused)
    rcases effect with yes | changed
    · rw [nothing.1] at yes
      cases yes
    · exact changed nothing.2
  · intro between d d' r' now' accepted' rest again
    have rest' : Runs (Meets (Step H o) fun c call => call.Unforeseen H c) c' between d :=
      rest.mono fun step => ⟨step.1.unforeseen, step.2⟩
    -- once settled, the task refuses whatever comes
    have refuses : c'.Settles r.taskUid → r'.taskUid = r.taskUid →
        accepts d.db (completeTask d.blobs.has d.blobs.sizeOf now' r') = false := by
      rintro ⟨t', ht', same, settled⟩ target
      obtain ⟨later, u, hu, kept⟩ := Runs.keeps_settled counting' rest' ht' settled
      exact settled_rejects later.uids hu (kept.uid.trans (same.trans target.symm)) (kept.state ▸ settled)
    refine ⟨fun _ settles target => (again.rejected (refuses settles target)).1, ?_⟩
    rintro rfl held
    refine again.rejected ?_
    cases transient : r'.transient c.blobs with
    | false => exact refuses (delivered.settles counting transient ht uid handed) rfl
    | true =>
      have still : r'.transient d.blobs = true := by
        rw [TaskResult.transient, held]
        exact transient
      obtain ⟨-, -, fuel, cfg, ran, db⟩ := delivered.completed
      have past : ¬ c'.db.RunsAttempt r'.taskUid r'.attempt := by
        rw [db]
        exact completeTask_ends counting.uids ran
      have issued' : c'.db.Issued r'.taskUid r'.attempt := by
        rw [db]
        exact (run_tables counting.uids ran).2.issued _ _ issued
      obtain ⟨later, over'⟩ := Runs.over_stays rest' counting' issued' past
      rw [← Bool.not_eq_true, transient_accepted_iff later.uids still]
      exact over'

end Runs

/-- The source of the sample, handed out. -/
def handedRequests : List Request := compiledRequests.take 4

theorem handedRequests_served :
    (serveAll sampleSha {} {} handedRequests).any (fun p =>
      p.1.all (fun call => call.Flat) && decide ((1, 1) ∈ handedOut p.1) &&
      (serve sampleSha {} p.2 (.completeTask (compiledResult 1) 0 10)).any fun q =>
        (serve sampleSha {} q.2 (.completeTask (compiledResult 1) 0 10)).isSome) = true := by
  decide +kernel

/-- A request to complete a task is answered by such a call. -/
theorem serve_completeTask {H : Sha256} {o : Options} {c c' : Coordinator} {r : TaskResult} {now : Int}
    {fuel : Nat} {call : Call} (served : serve H o c (.completeTask r now fuel) = some (call, c')) :
    ∃ accepted, call = .completeTask r now accepted ∧ c'.blobs = c.blobs := by
  obtain ⟨cfg, -, same⟩ := Option.map_eq_some_iff.mp served
  cases same
  exact ⟨_, rfl, rfl⟩

/-- The result of a compile, delivered twice. -/
theorem completions_exactly_once_compiled :
    ∃ calls c c' d' accepted accepted',
      Runs (Meets (Step sampleSha {}) fun _ call => call.Flat) {} calls c ∧
      Step sampleSha {} c (.completeTask (compiledResult 1) 0 accepted) c' ∧
      Step sampleSha {} c' (.completeTask (compiledResult 1) 0 accepted') d' ∧
      accepted' = false ∧ d'.db = c'.db := by
  obtain ⟨⟨calls, c⟩, served, holds⟩ := (Option.any_eq_true _ _).mp handedRequests_served
  simp only [Bool.and_eq_true, List.all_eq_true, decide_eq_true_eq] at holds
  obtain ⟨⟨flat, handed⟩, completed⟩ := holds
  obtain ⟨⟨call, c'⟩, first, again⟩ := (Option.any_eq_true _ _).mp completed
  obtain ⟨⟨call', d'⟩, second⟩ := Option.isSome_iff_exists.mp again
  obtain ⟨accepted, rfl, blobs⟩ := serve_completeTask first
  obtain ⟨accepted', rfl, -⟩ := serve_completeTask second
  have run := (serveAll_runs served).meets flat
  have same := ((completions_exactly_once run handed (serve_step first)).2 .nil (serve_step second)).2 rfl
    (by rw [blobs])
  exact ⟨calls, c, c', d', accepted, accepted', run, serve_step first, serve_step second, same⟩

end DistCompile
