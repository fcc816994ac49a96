import DistCompile.Attempts
import DistCompile.Fleet
import DistCompile.Worker

/-!
How a task fails (`Worker::execute` in `src/worker.cpp`, `run_process` in `src/util.cpp`,
`CompleteTask` in `src/coordinator.cpp`).

A task fails at once when its worker reports a failure that is not retryable; a retryable one,
and a lease that runs out, fail it only when `attempts` has reached `max_attempts`. `execute`
reports the trouble around the tool as retryable (directory, fetch, disk, upload). The tool
itself is another matter: `run_process` folds a process that could not be started, was killed or
timed out into an exit code other than zero, and `execute` takes every such code for a tool
error (`timed_out_task_fails`). `Host.CarriesOut` is the condition under which what is left is
retryable.
-/

namespace DistCompile

open DistCompile.Lib

/-! ### Processes -/

/-- How a process that `run_process` was to start has ended. -/
inductive Ending where
  /-- no pipe, or `fork` failed -/
  | notForked
  /-- the child could not enter the directory or execute the program -/
  | notExecuted
  | exited (status : Fin 256) (output : Str)
  | killed (output : Str)
  | timedOut (output : Str)

/-- `run_process`. The exit code is -1 unless the child has exited. -/
def runProcess : Ending → ProcResult
  | .notForked => ⟨-1, []⟩
  | .notExecuted => ⟨127, []⟩
  | .exited status output => ⟨status.val, output⟩
  | .killed output => ⟨-1, output⟩
  | .timedOut output => ⟨-1, output ++ "\n[timed out]".toList⟩

/-- A machine whose tool is a process, and the time it takes. -/
structure Host where
  fetch : Str → Option Str
  mkdtemp : Bool
  writes : Str → Bool
  process : List Str → WorkDir → Ending × WorkDir
  keeps : Str → Bool
  upload : Str → Str → Option Str
  ms : Int

def Host.machine (host : Host) : Machine where
  fetch := host.fetch
  mkdtemp := host.mkdtemp
  writes := host.writes
  runProcess argv dir := (runProcess (host.process argv dir).1, (host.process argv dir).2)
  keeps := host.keeps
  upload := host.upload

/-- `exec_ms`, which is set after the process. -/
def Host.execMs (host : Host) (a : Assignment) : Int :=
  match writeInputs host.machine a, commandLine a with
  | .ok _, .ok _ => host.ms
  | _, _ => 0

/-- What `loop` reports of an execution. -/
def Host.result (H : Sha256) (host : Host) (worker : Str) (a : Assignment) : TaskResult :=
  match execute H host.machine a with
  | .ok done => ⟨a.taskUid, a.attempt, worker, true, false, done.output, done.log, host.execMs a⟩
  | .error f => ⟨a.taskUid, a.attempt, worker, false, f.retryable, [], f.log, host.execMs a⟩

/-- What `loop` reports under `fail_rate`. -/
def injectedFailure (worker : Str) (a : Assignment) : TaskResult :=
  ⟨a.taskUid, a.attempt, worker, false, true, [], "injected failure".toList, 0⟩

/-- The failure is a tool error, or the result is none: not retryable failures fail the task. -/
def TaskResult.soft (r : TaskResult) : Bool := r.ok || r.retryable

/-- The host carries the assignment out, trouble around the tool apart: the inputs have names
that can be written, the driver is allowed, and the process, if it comes to that, exits with zero
and leaves the output. -/
structure Host.CarriesOut (host : Host) (a : Assignment) : Prop where
  named : a.inputs.length = a.inputNames.length
  flat : ∀ name ∈ a.inputNames, '/' ∉ name
  allowed : ∃ argv, commandLine a = .ok argv
  exits : ∀ argv dir, commandLine a = .ok argv → writeInputs host.machine a = .ok dir →
    ∃ output, (host.process argv dir).1 = .exited 0 output ∧ ((host.process argv dir).2 "out".toList).isSome

section Execute

variable {H : Sha256} {host : Host} {a : Assignment}

/-- The write loop fails for good only at a name with a slash. -/
theorem writeInputs_retryable (named : a.inputs.length = a.inputNames.length)
    (flat : ∀ name ∈ a.inputNames, '/' ∉ name) {f : Failure} {m : Machine}
    (failed : writeInputs m a = .error f) : f.retryable = true := by
  have loop : ∀ (inputs : List (Str × Str)) (dir : WorkDir), (∀ input ∈ inputs, '/' ∉ input.2) →
      inputs.foldlM (writeInput m) dir = .error f → f.retryable = true := by
    intro inputs
    induction inputs with
    | nil =>
      intro dir _ failed
      cases failed
    | cons input inputs ih =>
      intro dir plain failed
      rw [List.foldlM_cons] at failed
      cases first : writeInput m dir input with
      | ok dir' =>
        rw [first] at failed
        exact ih dir' (fun other member => plain other (by simp [member])) failed
      | error f' =>
        rw [first] at failed
        obtain rfl : f' = f := Except.error.inj failed
        unfold writeInput at first
        split at first
        · cases first
          rfl
        · rw [if_neg (plain input (by simp))] at first
          split at first
          · cases first
          · cases first
            rfl
  unfold writeInputs at failed
  rw [if_neg (not_not.mpr named)] at failed
  split at failed
  · exact loop _ _ (fun input member => flat input.2 (List.of_mem_zip member).2) failed
  · cases failed
    rfl

/-- What such a host reports does not fail the task at once. -/
theorem Host.CarriesOut.soft (carries : host.CarriesOut a) (worker : Str) :
    (host.result H worker a).soft = true := by
  have retryable : ∀ f, execute H host.machine a = .error f → f.retryable = true := by
    intro f failed
    unfold execute at failed
    split at failed
    · rename_i f' wrote
      cases failed
      exact writeInputs_retryable carries.named carries.flat wrote
    · rename_i dir wrote
      obtain ⟨argv, line⟩ := carries.allowed
      obtain ⟨output, exited, left⟩ := carries.exits argv dir line wrote
      obtain ⟨out, found⟩ := Option.isSome_iff_exists.mp left
      have ran : host.machine.runProcess argv dir = (⟨0, output⟩, (host.process argv dir).2) := by
        simp only [Host.machine, exited, runProcess]
        rfl
      simp only [line, ran, ne_eq, not_true_eq_false, if_false, found] at failed
      split at failed
      · cases failed
        rfl
      · cases failed
  unfold Host.result
  cases ran : execute H host.machine a with
  | ok done => rfl
  | error f => exact retryable f ran

end Execute

/-! ### The coordinator -/

/-- Failed tasks have used up their attempts. -/
def Db.Spent (o : Options) (db : Db) : Prop :=
  ∀ t ∈ db.tasks, t.state = .failed → o.maxAttempts ≤ (t.attempts : Int)

/-- The statement of a failure that is not retryable. -/
def Stmt.isFail : Stmt → Bool
  | .fail _ => true
  | _ => false

/-- The call is not the report of a failure that is not retryable. -/
def Call.soft : Call → Bool
  | .completeTask r _ _ => r.soft
  | _ => true

section Coordinator

variable {H : Sha256} {o : Options} {db : Db}

theorem requeue_failed {attempts : Nat} (failed : requeue o attempts = .failed) :
    o.maxAttempts ≤ (attempts : Int) := by
  unfold requeue at failed
  split at failed
  · assumption
  · cases failed

/-- The statements other than `fail` write a failed row only where there was one, or where the
attempts are used up. -/
theorem exec_failed {s : Stmt} (soft : s.isFail = false) {row : TaskRow}
    (written : (exec H o db s).write = some (.task row)) (failed : row.state = .failed) :
    (∃ t ∈ db.tasks, t.state = .failed ∧ t.attempts = row.attempts) ∨ o.maxAttempts ≤ (row.attempts : Int) := by
  obtain ⟨t, ht, next, -, rewrites⟩ := exec_rewrites written
  cases rewrites with
  | fail => cases soft
  | retry => exact Or.inr (requeue_failed failed)
  | countDown => exact Or.inl ⟨t, ht, failed, rfl⟩
  | complete | markCached | markReady => cases failed

/-- No statement asks for a `fail`. -/
theorem exec_next_soft (s : Stmt) : ∀ s' ∈ (exec H o db s).next, s'.isFail = false := by
  cases s with
  | dependents build id =>
    intro s' member
    rcases mem_next_dependents member with ⟨t, -, rfl | rfl⟩ | ⟨-, rfl⟩ <;> rfl
  | _ => grind [exec, maybeFinish, finished, makeReady, Stmt.isFail]

/-- A row that is not written stays, and one that is written is the new one. -/
theorem Db.Spent.write (spent : db.Spent o) {w : Write}
    (rows : ∀ row, w = .task row → row.state = .failed → o.maxAttempts ≤ (row.attempts : Int)) :
    (db.apply w).Spent o := by
  cases w with
  | task row =>
    intro t ht failed
    obtain ⟨u, hu, rfl⟩ := List.mem_map.mp ht
    split at failed
    · rename_i same
      rw [if_pos same]
      exact rows row rfl failed
    · rename_i other
      rw [if_neg other]
      exact spent u hu failed
  | build row => exact spent
  | cache row =>
    simp only [Db.apply]
    split <;> exact spent

/-- A transaction without a `fail`. -/
theorem run_spent (spent : db.Spent o) {stack : List Stmt} (soft : ∀ s ∈ stack, s.isFail = false) {fuel : Nat}
    {trace : List Event} {c : Cfg} (ran : run H o fuel ⟨db, stack, trace⟩ = some c) : c.db.Spent o := by
  have kept := run_induction (P := fun c => c.db.Spent o ∧ ∀ s ∈ c.stack, s.isFail = false)
    (fun {c s rest} holds top => ?_) ran ⟨spent, soft⟩
  · exact kept.1.1
  · obtain ⟨spent, soft⟩ := holds
    rw [top] at soft
    constructor
    · change ((exec H o c.db s).db c.db).Spent o
      unfold Outcome.db
      cases written : (exec H o c.db s).write with
      | none => exact spent
      | some w =>
        refine spent.write fun row is failed => ?_
        subst is
        rcases exec_failed (soft s (by simp)) written failed with ⟨t, ht, before, attempts⟩ | enough
        · rw [← attempts]
          exact spent t ht before
        · exact enough
    · intro s' member
      rcases List.mem_append.mp member with new | old
      · exact exec_next_soft s s' new
      · exact soft s' (List.mem_cons_of_mem _ old)

theorem maybeFinish_spent (spent : db.Spent o) (build : Nat) : (db.maybeFinish H o build).Spent o :=
  maybeFinish_induction (P := fun db => db.Spent o) spent
    (run_spent spent (by simp [DistCompile.maybeFinish, Stmt.isFail]))

theorem completeTask_soft {has : Str → Bool} {sizeOf : Str → Int} {now : Int} {r : TaskResult}
    (soft : r.soft = true) : ∀ s ∈ completeTask has sizeOf now r, s.isFail = false := by
  intro s member
  unfold completeTask at member
  split_ifs at member with missing ok retryable
  · rw [List.mem_singleton.mp member]
    rfl
  · rw [List.mem_singleton.mp member]
    rfl
  · rw [List.mem_singleton.mp member]
    rfl
  · simp [TaskResult.soft, ok, retryable] at soft

/-- Every call but the report of a failure that is not retryable. -/
theorem Step.spent {c c' : Coordinator} {call : Call} (step : Step H o c call c') (soft : call.soft = true)
    (spent : c.db.Spent o) : c'.db.Spent o := by
  cases step with
  | putBlob _ => exact spent
  | putRefused _ => exact spent
  | claimNothing _ => exact spent
  | @submitBuild spec live =>
    rcases ran : DistCompile.submitBuild H o c.blobs.has c.db live spec with ⟨db', e | ⟨build, cached⟩⟩
    · obtain ⟨builds, uids, rfl⟩ := submitBuild_error ran
      exact spent
    · obtain ⟨-, -, order, rank, part, w, -, walked, -, rfl⟩ := submitBuild_ok ran
      refine maybeFinish_spent (fun t ht failed => ?_) _
      rcases List.mem_append.mp ht with old | new
      · exact spent t old failed
      · -- a new row is waiting, cached or ready
        obtain ⟨id, ts, -, rfl⟩ := mem_insertedTasks.mp new
        have state := (walk_rows walked id).state
        change (w.row id).state = .failed at failed
        simp [failed] at state
  | claimTask picked _ | claimCrash picked _ =>
    refine spent.write fun row is failed => ?_
    cases is
    cases failed
  | completeTask ran => exact run_spent spent (completeTask_soft soft) ran
  | @heartbeat worker now =>
    intro t' ht' failed
    obtain ⟨t, ht, rfl⟩ := List.mem_map.mp ht'
    unfold heartbeatRow at failed ⊢
    split at failed
    · rename_i leased
      rw [if_pos leased]
      exact spent t ht failed
    · rename_i other
      rw [if_neg other]
      exact spent t ht failed
  | @reap now =>
    refine reap_induction (P := fun db => db.Spent o) (fun build spent => maybeFinish_spent spent build)
      fun t' ht' failed => ?_
    obtain ⟨t, ht, rfl⟩ := List.mem_map.mp ht'
    unfold reapRow at failed ⊢
    split at failed
    · rename_i live
      rw [if_pos live]
      exact spent t ht failed
    · rename_i expired
      rw [if_neg expired]
      exact requeue_failed failed

end Coordinator

/-! ### Executions in the fleet -/

def FleetEvent.isReport : FleetEvent → Bool
  | .report _ _ _ => true
  | _ => false

/-- What can happen when the reports are those of executions. -/
inductive WorkEvent where
  | fleet (e : FleetEvent)
  | execute (worker : Str) (i : Nat) (host : Host)
  | inject (worker : Str) (i : Nat)

/-- A step of the fleet in which a slot reports what `execute` returned, or the failure that
`fail_rate` injects. -/
inductive Fleet.Work (H : Sha256) (o : Options) : Fleet → WorkEvent → Fleet → Prop where
  | fleet {s s' : Fleet} {e : FleetEvent} : e.isReport = false → Fleet.Step H o s e s' →
      Work H o s (.fleet e) s'
  | execute {s s' : Fleet} {worker : Str} {p : Proc} {i : Nat} {a : Assignment} {host : Host} :
      s.procs worker = some p → p.slots[i]? = some (.working a) →
      Fleet.Step H o s (.report worker i (host.result H worker a)) s' →
      Work H o s (.execute worker i host) s'
  | inject {s s' : Fleet} {worker : Str} {p : Proc} {i : Nat} {a : Assignment} :
      s.procs worker = some p → p.slots[i]? = some (.working a) →
      Fleet.Step H o s (.report worker i (injectedFailure worker a)) s' →
      Work H o s (.inject worker i) s'

/-- The call that the coordinator handles. -/
def FleetEvent.call? : FleetEvent → Option Call
  | .serveClaim _ worker toolchain part now reply => some (.claimTask worker toolchain part now reply)
  | .crashClaim _ worker toolchain part now taskUid => some (.claimCrash worker toolchain part now taskUid)
  | .serveComplete _ r now accepted => some (.completeTask r now accepted)
  | .serveBeat worker now => some (.heartbeat worker now)
  | .other call => some call
  | _ => none

def WorkEvent.call? : WorkEvent → Option Call
  | .fleet e => e.call?
  | _ => none

/-- What the coordinator has handled. -/
def callsOf (events : List WorkEvent) : List Call := events.filterMap WorkEvent.call?

/-- Hosts carry out what their slot works on, and the coordinator stays up. -/
def Fleet.Able (s : Fleet) : WorkEvent → Prop
  | .fleet e => ∀ call ∈ e.call?, call.crashes = false
  | .execute worker i host => ∀ p a, s.procs worker = some p → p.slots[i]? = some (.working a) →
      host.CarriesOut a
  | _ => True

section Fleet

variable {H : Sha256} {o : Options} {s s' : Fleet}

/-- The coordinator of a fleet makes the calls of its events. -/
theorem Fleet.Step.coord {e : FleetEvent} (taken : Fleet.Step H o s e s') :
    Runs (DistCompile.Step H o) s.coord e.call?.toList s'.coord := by
  cases taken with
  | serveClaim _ step | crashClaim _ step | serveComplete _ step | serveBeat _ step | other _ step =>
    exact Runs.nil.snoc step
  | _ => exact Runs.nil

theorem Fleet.Work.coord {e : WorkEvent} (taken : Fleet.Work H o s e s') :
    Runs (DistCompile.Step H o) s.coord e.call?.toList s'.coord := by
  cases taken with
  | fleet _ step => exact step.coord
  | execute _ _ step | inject _ _ step => exact step.coord

theorem callsOf_snoc (events : List WorkEvent) (e : WorkEvent) :
    callsOf (events ++ [e]) = callsOf events ++ e.call?.toList := by
  cases made : e.call? <;> simp [callsOf, made]

theorem Runs.coord {events : List WorkEvent} (run : Runs (Fleet.Work H o) {} events s) :
    Runs (DistCompile.Step H o) {} (callsOf events) s.coord := by
  induction run with
  | nil => exact .nil
  | @snoc t u events e before last ih =>
    rw [callsOf_snoc]
    exact ih.trans last.coord

theorem Runs.survives {events : List WorkEvent} (run : Runs (Meets (Fleet.Work H o) Fleet.Able) {} events s) :
    ∀ call ∈ callsOf events, call.crashes = false := by
  induction run with
  | nil => simp [callsOf]
  | @snoc t u events e before last ih =>
    rw [callsOf_snoc]
    refine List.forall_mem_append.mpr ⟨ih, fun call made => ?_⟩
    cases e with
    | fleet e => exact last.1 call (Option.mem_toList.mp made)
    | execute | inject => cases made

def Message.soft : Message → Bool
  | .completeRequest _ r => r.soft
  | _ => true

def Slot.soft : Slot → Bool
  | .reporting r _ _ => r.soft
  | _ => true

/-- No failure that is not retryable has been reported, and the failed tasks have used up their
attempts. -/
structure Fleet.Patient (o : Options) (s : Fleet) : Prop where
  spent : s.coord.db.Spent o
  sent : ∀ m ∈ s.net, m.soft = true
  slots : ∀ w p, s.procs w = some p → ∀ slot ∈ p.slots, slot.soft = true

namespace Fleet.Patient

theorem take (patient : s.Patient o) (m : Message) : (s.take m).Patient o :=
  ⟨patient.spent, fun m' member => patient.sent m' (List.mem_of_mem_erase member), patient.slots⟩

theorem append (patient : s.Patient o) {m : Message} (soft : m.soft = true) {nextCall : Nat} :
    Fleet.Patient o { s with net := s.net ++ [m], nextCall } := by
  refine ⟨patient.spent, fun m' member => ?_, patient.slots⟩
  rcases List.mem_append.mp member with old | new
  · exact patient.sent m' old
  · rw [List.mem_singleton.mp new]
    exact soft

theorem proc (patient : s.Patient o) {worker : Str} {new : Option Proc}
    (soft : ∀ p, new = some p → ∀ slot ∈ p.slots, slot.soft = true) : (s.setProc worker new).Patient o := by
  refine ⟨patient.spent, patient.sent, fun w p live => ?_⟩
  simp only [Fleet.setProc, Function.update_apply] at live
  split at live
  · exact soft p live
  · exact patient.slots w p live

theorem slot (patient : s.Patient o) {worker : Str} {p : Proc} (live : s.procs worker = some p) {i : Nat}
    {new : Slot} (soft : new.soft = true) : (s.setSlot worker p i new).Patient o := by
  refine patient.proc fun q is slot member => ?_
  cases is
  rcases List.mem_or_eq_of_mem_set member with old | rfl
  · exact patient.slots worker p live slot old
  · exact soft

theorem call (patient : s.Patient o) {call : Call} {coord : Coordinator}
    (taken : DistCompile.Step H o s.coord call coord) (soft : call.soft = true) :
    Fleet.Patient o { s with coord } :=
  ⟨taken.spent soft patient.spent, patient.sent, patient.slots⟩

/-- A slot sends its result under a new call. -/
theorem sends (patient : s.Patient o) {worker : Str} {p : Proc} (live : s.procs worker = some p) {i tries : Nat}
    {r : TaskResult} (soft : r.soft = true) :
    ((s.setSlot worker p i (.reporting r s.nextCall tries)).call fun call => .completeRequest call r).Patient o := by
  have reporting : Slot.soft (.reporting r s.nextCall tries) = true := soft
  have sent : Message.soft (.completeRequest s.nextCall r) = true := soft
  exact (patient.slot live reporting).append sent

theorem report (patient : s.Patient o) {worker : Str} {i : Nat} {r : TaskResult}
    (taken : Fleet.Step H o s (.report worker i r) s') (soft : r.soft = true) : s'.Patient o := by
  cases taken with
  | report live found _ _ _ => exact patient.sends live soft

theorem step {e : FleetEvent} (patient : s.Patient o) (quiet : e.isReport = false)
    (taken : Fleet.Step H o s e s') : s'.Patient o := by
  cases taken with
  | start _ =>
    refine patient.proc fun p is slot member => ?_
    cases is
    rw [List.eq_of_mem_replicate member]
    rfl
  | crash => exact patient.proc (by simp)
  | claim live _ => exact (patient.slot live rfl).append rfl
  | serveClaim _ step => exact ((patient.call step rfl).take _).append rfl
  | crashClaim _ step => exact (patient.call step rfl).take _
  | receiveTask live _ _ => exact (patient.slot live rfl).take _
  | receiveNothing live _ _ => exact (patient.slot live rfl).take _
  | abandonClaim live _ => exact patient.slot live rfl
  | report _ _ _ _ _ => cases quiet
  | @resend worker p i call tries r live found =>
    exact patient.sends live (patient.slots worker p live _ (List.mem_of_getElem? found))
  | @serveComplete call r now accepted coord asked step =>
    have soft : r.soft = true := patient.sent _ asked
    exact ((patient.call step soft).take _).append rfl
  | receiveComplete live _ _ => exact (patient.slot live rfl).take _
  | giveUp live _ => exact patient.slot live rfl
  | beat _ => exact patient.append rfl
  | serveBeat _ step => exact (patient.call step rfl).take _
  | lose _ => exact patient.take _
  | @other call coord isOther step =>
    have soft : call.soft = true := by
      cases call <;> first | rfl | cases isOther
    exact patient.call step soft

theorem work {e : WorkEvent} (patient : s.Patient o) (able : s.Able e) (taken : Fleet.Work H o s e s') :
    s'.Patient o := by
  cases taken with
  | fleet quiet step => exact patient.step quiet step
  | execute live found step => exact patient.report step ((able _ _ live found).soft _)
  | inject live found step => exact patient.report step rfl

end Fleet.Patient

/-- In every run in which the hosts carry out what they execute, trouble around the tool apart, and
no claim takes the coordinator down, a task is failed only after `max_attempts` attempts of it have
been handed out. -/
theorem only_exhausted_tasks_fail {events : List WorkEvent}
    (run : Runs (Meets (Fleet.Work H o) Fleet.Able) {} events s) :
    ∀ t ∈ s.coord.db.tasks, t.state = .failed →
      o.maxAttempts ≤ ((attemptsOf t.uid (callsOf events)).length : Int) := by
  have patient : s.Patient o := run.invariant (P := Fleet.Patient o) ⟨by simp [Db.Spent], by simp, by simp⟩
    fun taken patient => patient.work taken.1 taken.2
  have logged := Runs.logged (Runs.coord run.forget)
  intro t ht failed
  rw [logged.attempts t ht, List.length_range', Runs.handed (Runs.coord run.forget) (Runs.survives run) t ht]
  exact patient.spent t ht failed

end Fleet

/-! ### Runs by evaluation -/

/-- An event of the fleet before its outcome. `serve` handles the oldest message; a claim gets
the task named. -/
inductive Cue where
  | other (r : Request)
  | start (worker toolchain : Str) (slots : Nat)
  | claim (worker : Str) (i : Nat)
  | serve (now : Int) (uid fuel : Nat)
  | receive (worker : Str) (i : Nat)
  | execute (worker : Str) (i : Nat) (host : Host)

/-- The oldest message is handled by the coordinator. -/
def Fleet.answer (H : Sha256) (o : Options) (s : Fleet) (now : Int) (uid fuel : Nat) : Option (FleetEvent × Fleet) :=
  match s.net.head? with
  | some (.claimRequest call worker toolchain) =>
      match (claimCandidates s.coord.db worker toolchain 0 now).find? fun t => t.uid = uid with
      | some t =>
          if (∀ u ∈ claimCandidates s.coord.db worker toolchain 0 now, u.priority ≤ t.priority) ∧
              kindName t.kind ≠ none then
            let reply := some (assignmentOf (claimedRow o worker now t))
            some (.serveClaim call worker toolchain 0 now reply,
              { (s.take (.claimRequest call worker toolchain)).send (.claimReply call worker reply) with
                coord := { s.coord with db := s.coord.db.apply (.task (claimedRow o worker now t)) } })
          else none
      | none => none
  | some (.completeRequest call r) =>
      let body := completeTask s.coord.blobs.has s.coord.blobs.sizeOf now r
      (run H o fuel ⟨s.coord.db, body, []⟩).map fun cfg =>
        (.serveComplete call r now (accepts s.coord.db body),
          { (s.take (.completeRequest call r)).send (.completeReply call) with
            coord := { s.coord with db := cfg.db } })
  | _ => none

/-- The oldest message is the reply that the slot waits for. -/
def Fleet.receive (s : Fleet) (worker : Str) (p : Proc) (i : Nat) : Option (FleetEvent × Fleet) :=
  match p.slots[i]?, s.net.head? with
  | some (.claiming call), some (.claimReply call' worker' (some a)) =>
      if call' = call ∧ worker' = worker then
        some (.receiveClaim worker i (some a),
          (s.setSlot worker p i (.working a)).take (.claimReply call worker (some a)))
      else none
  | some (.reporting _ call _), some (.completeReply call') =>
      if call' = call then
        some (.receiveComplete worker i, (s.setSlot worker p i .idle).take (.completeReply call))
      else none
  | _, _ => none

/-- The event of a cue, and the fleet after it. Only fine assignments are executed. -/
def Fleet.play (H : Sha256) (o : Options) (fine : Assignment → Bool) (s : Fleet) :
    Cue → Option (WorkEvent × Fleet)
  | .other r => match DistCompile.serve H o s.coord r with
    | some (call, coord) => if call.isOther then some (.fleet (.other call), { s with coord }) else none
    | none => none
  | .start worker toolchain slots =>
      if s.procs worker = none then
        some (.fleet (.start worker toolchain slots),
          s.setProc worker (some ⟨toolchain, List.replicate slots .idle⟩))
      else none
  | .claim worker i => match s.procs worker with
    | some p =>
        if p.slots[i]? = some .idle then
          some (.fleet (.claim worker i), (s.setSlot worker p i (.claiming s.nextCall)).call
            fun call => .claimRequest call worker p.toolchain)
        else none
    | none => none
  | .serve now uid fuel => (s.answer H o now uid fuel).map fun next => (.fleet next.1, next.2)
  | .receive worker i => match s.procs worker with
    | some p => (s.receive worker p i).map fun next => (.fleet next.1, next.2)
    | none => none
  | .execute worker i host => match s.procs worker with
    | some p => match p.slots[i]? with
      | some (.working a) =>
          let r := host.result H worker a
          if fine a then
            some (.execute worker i host, (s.setSlot worker p i (.reporting r s.nextCall retries)).call
              fun call => .completeRequest call r)
          else none
      | _ => none
    | none => none

/-- The events of a list of cues, and the fleet after them. -/
def Fleet.playAll (H : Sha256) (o : Options) (fine : Assignment → Bool) :
    Fleet → List Cue → Option (List WorkEvent × Fleet)
  | s, [] => some ([], s)
  | s, cue :: cues => match s.play H o fine cue with
    | none => none
    | some (e, s') => (Fleet.playAll H o fine s' cues).map fun after => (e :: after.1, after.2)

section Play

variable {H : Sha256} {o : Options} {s s' : Fleet} {e : WorkEvent}

theorem Host.result_echoes (host : Host) (worker : Str) (a : Assignment) :
    (host.result H worker a).taskUid = a.taskUid ∧ (host.result H worker a).attempt = a.attempt ∧
      (host.result H worker a).worker = worker := by
  unfold Host.result
  split <;> exact ⟨rfl, rfl, rfl⟩

theorem Fleet.answer_step {e : FleetEvent} {now : Int} {uid fuel : Nat}
    (played : s.answer H o now uid fuel = some (e, s')) :
    e.isReport = false ∧ (∀ call ∈ e.call?, call.crashes = false) ∧ Fleet.Step H o s e s' := by
  unfold Fleet.answer at played
  split at played
  · rename_i call worker toolchain oldest
    split at played
    · rename_i t found
      split_ifs at played with first
      cases played
      exact ⟨rfl, by simp [FleetEvent.call?, Call.crashes], .serveClaim (List.mem_of_mem_head? oldest)
        (.claimTask ⟨List.mem_of_find?_eq_some found, first.1⟩ first.2)⟩
    · cases played
  · rename_i call r oldest
    obtain ⟨cfg, ran, same⟩ := Option.map_eq_some_iff.mp played
    cases same
    exact ⟨rfl, by simp [FleetEvent.call?, Call.crashes],
      .serveComplete (List.mem_of_mem_head? oldest) (.completeTask ran)⟩
  · cases played

theorem Fleet.receive_step {e : FleetEvent} {worker : Str} {p : Proc} {i : Nat} (live : s.procs worker = some p)
    (played : s.receive worker p i = some (e, s')) :
    e.isReport = false ∧ e.call? = none ∧ Fleet.Step H o s e s' := by
  unfold Fleet.receive at played
  split at played
  · rename_i call call' worker' a waits oldest
    split_ifs at played with same
    obtain ⟨rfl, rfl⟩ := same
    cases played
    exact ⟨rfl, rfl, .receiveTask live waits (List.mem_of_mem_head? oldest)⟩
  · rename_i r call tries call' waits oldest
    split_ifs at played with same
    subst same
    cases played
    exact ⟨rfl, rfl, .receiveComplete live waits (List.mem_of_mem_head? oldest)⟩
  · cases played

/-- A fine assignment is executed on one of the hosts. -/
def Fleet.Fine (hosts : Host → Prop) (fine : Assignment → Bool) (s : Fleet) : WorkEvent → Prop
  | .fleet e => ∀ call ∈ e.call?, call.crashes = false
  | .execute worker i host => hosts host ∧ ∀ p a, s.procs worker = some p →
      p.slots[i]? = some (.working a) → fine a = true
  | _ => True

theorem Fleet.play_work {fine : Assignment → Bool} {hosts : Host → Prop} {cue : Cue}
    (cast : ∀ worker i host, cue = .execute worker i host → hosts host)
    (played : s.play H o fine cue = some (e, s')) : s.Fine hosts fine e ∧ Fleet.Work H o s e s' := by
  cases cue with
  | other r =>
    simp only [Fleet.play] at played
    split at played
    · rename_i call coord served
      split_ifs at played with isOther
      cases played
      refine ⟨fun own same => ?_, .fleet rfl (.other isOther (serve_step served))⟩
      cases same
      cases call <;> first | rfl | cases isOther
    · cases played
  | start worker toolchain slots =>
    simp only [Fleet.play] at played
    split_ifs at played with dead
    cases played
    exact ⟨by simp [Fleet.Fine, FleetEvent.call?], .fleet rfl (.start dead)⟩
  | claim worker i =>
    simp only [Fleet.play] at played
    split at played
    · rename_i p live
      split_ifs at played with idle
      cases played
      exact ⟨by simp [Fleet.Fine, FleetEvent.call?], .fleet rfl (.claim live idle)⟩
    · cases played
  | serve now uid fuel =>
    obtain ⟨next, answered, same⟩ := Option.map_eq_some_iff.mp played
    cases same
    obtain ⟨quiet, up, step⟩ := answer_step answered
    exact ⟨up, .fleet quiet step⟩
  | receive worker i =>
    simp only [Fleet.play] at played
    split at played
    · rename_i p live
      obtain ⟨next, received, same⟩ := Option.map_eq_some_iff.mp played
      cases same
      obtain ⟨quiet, silent, step⟩ := receive_step (H := H) (o := o) live received
      exact ⟨by simp [Fleet.Fine, silent], .fleet quiet step⟩
    · cases played
  | execute worker i host =>
    simp only [Fleet.play] at played
    split at played
    · rename_i p live
      split at played
      · rename_i a working
        split_ifs at played with isFine
        cases played
        obtain ⟨uid, attempt, name⟩ := host.result_echoes (H := H) worker a
        refine ⟨⟨cast worker i host rfl, fun q b alive holds => ?_⟩,
          .execute live working (.report live working uid attempt name)⟩
        obtain rfl : p = q := Option.some.inj (live.symm.trans alive)
        obtain rfl : a = b := by simpa using working.symm.trans holds
        exact isFine
      · cases played
    · cases played

/-- What was played is a run. -/
theorem Fleet.playAll_runs {fine : Assignment → Bool} {hosts : Host → Prop} {cues : List Cue}
    {events : List WorkEvent} (cast : ∀ worker i host, .execute worker i host ∈ cues → hosts host)
    (played : s.playAll H o fine cues = some (events, s')) :
    Runs (Meets (Fleet.Work H o) (Fleet.Fine hosts fine)) s events s' := by
  induction cues generalizing s events with
  | nil =>
    cases played
    exact .nil
  | cons cue cues ih =>
    rw [Fleet.playAll] at played
    split at played
    · cases played
    · rename_i e middle first
      obtain ⟨after, rest, same⟩ := Option.map_eq_some_iff.mp played
      cases same
      have step : Meets (Fleet.Work H o) (Fleet.Fine hosts fine) s e middle :=
        play_work (fun worker i host is => cast worker i host (by simp [is])) first
      have later := ih (fun worker i host member => cast worker i host (List.mem_cons_of_mem _ member)) rest
      exact (Runs.nil.snoc step).trans later

end Play

/-- A host without a connection to the coordinator. -/
def brokenHost : Host where
  fetch _ := none
  mkdtemp := true
  writes _ := true
  process _ dir := (.exited 0 [], Function.update dir "out".toList (some []))
  keeps _ := true
  upload _ _ := some "unavailable".toList
  ms := 0

/-- A host on which the tool does not end. -/
def slowHost : Host where
  fetch _ := some "int f;".toList
  mkdtemp := true
  writes _ := true
  process _ dir := (.timedOut [], dir)
  keeps _ := true
  upload _ _ := none
  ms := 600000

/-- The sample is submitted, and one worker starts. -/
def startCues : List Cue :=
  [.other (.putBlob "int f;".toList []), .other (.submitBuild sampleSpec 1), .start sampleWorker "gcc".toList 1]

/-- The worker gets the compile task, executes it on the host and reports. -/
def attemptCues (host : Host) (now : Int) : List Cue :=
  [.claim sampleWorker 0, .serve now 1 0, .receive sampleWorker 0, .execute sampleWorker 0 host,
    .serve now 1 4, .receive sampleWorker 0]

/-- The assignments that no host refuses. -/
def Assignment.proper (a : Assignment) : Bool :=
  a.inputs.length = a.inputNames.length && a.inputNames.all (fun name => '/' ∉ name) &&
    (commandLine a).toOption.isSome

theorem brokenHost_carriesOut {a : Assignment} (proper : a.proper = true) : brokenHost.CarriesOut a := by
  simp only [Assignment.proper, Bool.and_eq_true, decide_eq_true_eq, List.all_eq_true] at proper
  obtain ⟨⟨named, flat⟩, line⟩ := proper
  refine ⟨named, flat, ?_, fun argv dir _ _ => ⟨[], rfl, by simp [brokenHost]⟩⟩
  cases given : commandLine a with
  | ok argv => exact ⟨argv, rfl⟩
  | error f =>
    rw [given] at line
    cases line

/-- Three attempts on the broken host. -/
def brokenCues : List Cue :=
  startCues ++ attemptCues brokenHost 0 ++ attemptCues brokenHost 4000000 ++ attemptCues brokenHost 8000000

theorem brokenCues_played :
    (Fleet.playAll sampleSha {} Assignment.proper {} brokenCues).any
      (fun r => decide (∃ t ∈ r.2.coord.db.tasks, t.state = .failed)) = true := by
  decide +kernel

theorem only_exhausted_tasks_fail_broken : ∃ events s,
    Runs (Meets (Fleet.Work sampleSha {}) Fleet.Able) {} events s ∧
    (∃ t ∈ s.coord.db.tasks, t.state = .failed) ∧
    ∀ t ∈ s.coord.db.tasks, t.state = .failed → 3 ≤ ((attemptsOf t.uid (callsOf events)).length : Int) := by
  obtain ⟨⟨events, s⟩, played, failed⟩ := (Option.any_eq_true _ _).mp brokenCues_played
  have run : Runs (Meets _ (Fleet.Fine (· = brokenHost) _)) _ _ _ :=
    Fleet.playAll_runs (by simp [brokenCues, startCues, attemptCues]) played
  have able : Runs (Meets (Fleet.Work sampleSha {}) Fleet.Able) {} events s := by
    refine run.mono fun {s e s'} taken => ⟨?_, taken.2⟩
    cases e with
    | execute worker i host =>
      obtain ⟨rfl, proper⟩ := taken.1
      exact fun p a live working => brokenHost_carriesOut (proper p a live working)
    | fleet e => exact taken.1
    | inject => trivial
  exact ⟨events, s, able, by simpa using failed, only_exhausted_tasks_fail able⟩

/-- No process that runs to completion exits with a status other than zero. -/
def Host.ToolsSucceed (host : Host) : Prop :=
  ∀ argv dir status output, (host.process argv dir).1 = .exited status output → status = 0

/-- One attempt on the slow host. -/
def slowCues : List Cue := startCues ++ attemptCues slowHost 0

theorem slowCues_played :
    (Fleet.playAll sampleSha {} (fun _ => true) {} slowCues).any (fun r =>
      decide (∃ t ∈ r.2.coord.db.tasks, t.state = .failed ∧ (attemptsOf t.uid (callsOf r.1)).length = 1)) = true := by
  decide +kernel

/-- A compiler that times out fails the task at the first of three attempts. -/
theorem timed_out_task_fails : ∃ events s,
    Runs (Meets (Fleet.Work sampleSha {}) fun _ e => ∀ worker i host, e = .execute worker i host →
      host.ToolsSucceed) {} events s ∧
    ∃ t ∈ s.coord.db.tasks, t.state = .failed ∧
      ¬ (Options.maxAttempts {} ≤ ((attemptsOf t.uid (callsOf events)).length : Int)) := by
  obtain ⟨⟨events, s⟩, played, failed⟩ := (Option.any_eq_true _ _).mp slowCues_played
  have succeeds : slowHost.ToolsSucceed := by
    intro argv dir status output exited
    cases exited
  have cast : ∀ worker i host, Cue.execute worker i host ∈ slowCues → host.ToolsSucceed := by
    intro worker i host member
    obtain ⟨-, -, rfl⟩ : worker = sampleWorker ∧ i = 0 ∧ host = slowHost := by
      simpa [slowCues, startCues, attemptCues] using member
    exact succeeds
  have run := Fleet.playAll_runs cast played
  simp only [decide_eq_true_eq] at failed
  obtain ⟨t, ht, isFailed, once⟩ := failed
  refine ⟨events, s, run.mono fun {s e s'} taken => ⟨?_, taken.2⟩, t, ht, isFailed, by rw [once]; decide⟩
  rintro worker i host rfl
  exact taken.1.1

end DistCompile
