import DistCompile.Verdicts

/-!
Failed tasks and their builds (`reap_loop`, `CompleteTask` and `maybe_finish` in
`src/coordinator.cpp`).

A hard failure and a last retry end the task and its build in one transaction. The reaper ends
the tasks in one statement and their builds in others, and each of them commits by itself: a
pass that throws or is stopped in between leaves a failed task in a running build, which nobody
looks at again (`reaper_cut_off`). As long as no pass is cut off while it owes a count of a
running build (`World.Spares`), the count of every failed task is behind it or owed: by the
transaction that failed the task, or by a reaper pass (`World.Accounted`).
-/

namespace DistCompile.Sessions

open DistCompile.Lib

/-! ### Counts that are owed -/

/-- The stack holds the count of the build, or the result of one. -/
def Owes (stack : List Stmt) (build : Nat) : Prop := .progress build ∈ stack ∨ .buildFailed build ∈ stack

instance (stack : List Stmt) (build : Nat) : Decidable (Owes stack build) := by
  unfold Owes; infer_instance

section Statements

variable {H : Sha256} {o : Options} {db com com' : Db} {tx : Tx} {s : Stmt} {rest stack : List Stmt} {build : Nat}

theorem Owes.right (owes : Owes rest build) : Owes (stack ++ rest) build :=
  owes.imp (List.mem_append_right _) (List.mem_append_right _)

theorem Owes.left (owes : Owes stack build) : Owes (stack ++ rest) build :=
  owes.imp (List.mem_append_left _) (List.mem_append_left _)

/-- A count that is owed is made, and its result written. -/
theorem Owes.exec (owes : Owes (s :: rest) build) (failed : db.HasFailed build)
    (ids : (db.builds.map BuildRow.id).Nodup) :
    Owes ((exec H o db s).next ++ rest) build ∨ ¬ ((exec H o db s).db db).Running build := by
  have cases_ : s = .progress build ∨ s = .buildFailed build ∨ Owes rest build := by
    rcases owes with count | result
    · rcases List.mem_cons.mp count with here | later
      · exact Or.inl here.symm
      · exact Or.inr (Or.inr (Or.inl later))
    · rcases List.mem_cons.mp result with here | later
      · exact Or.inr (Or.inl here.symm)
      · exact Or.inr (Or.inr (Or.inr later))
  rcases cases_ with rfl | rfl | later
  · have positive : 0 < db.failed build := Db.failed_pos.mpr failed
    exact Or.inl (Owes.left (Or.inr (by simp [DistCompile.exec, positive])))
  · exact Or.inr (not_running_closed ids (Or.inl rfl))
  · exact Or.inl later.right

/-- A statement that fails a task leads to the count. -/
theorem exec_failed {row : TaskRow} (written : (exec H o db s).write = some (.task row))
    (failed : row.state = .failed) :
    (∃ t ∈ db.tasks, SameTask t row ∧ t.state = .failed) ∨ Owes (exec H o db s).next row.buildId := by
  obtain ⟨t, ht, next, follows, rewrites⟩ := exec_rewrites written
  rw [follows]
  cases rewrites with
  | retry =>
    rw [if_pos failed]
    exact Or.inr (Or.inl List.mem_cons_self)
  | fail => exact Or.inr (Or.inl List.mem_cons_self)
  | countDown => exact Or.inl ⟨t, ht, ⟨rfl, rfl⟩, failed⟩
  | complete | markCached | markReady => cases failed

/-! ### A completion under way -/

/-- A task that the transaction sees as failed was so before, or its build is closed, or the
count is owed. -/
def Tx.Accounts (com : Db) (tx : Tx) : Prop :=
  ∀ t ∈ (tx.view com).tasks, t.state = .failed → (∃ r ∈ com.tasks, r.uid = t.uid ∧ r.state = .failed) ∨
    ¬ (tx.view com).Running t.buildId ∨ Owes tx.stack t.buildId

/-- The transaction executes a statement. -/
theorem Tx.Accounts.exec (accounts : Tx.Accounts com tx) (tables : Indexed (tx.view com))
    (top : tx.stack = s :: rest) :
    Tx.Accounts com (tx.after (s.target (tx.view com)) (exec H o (tx.view com) s) rest) := by
  have after := tx.view_after com (s.target (tx.view com)) (DistCompile.exec H o (tx.view com) s) rest
  -- what holds of a failed row of the view still holds of its build
  have passes : ∀ t ∈ (tx.view com).tasks, t.state = .failed →
      (∃ r ∈ com.tasks, r.uid = t.uid ∧ r.state = .failed) ∨
        ¬ ((DistCompile.exec H o (tx.view com) s).db (tx.view com)).Running t.buildId ∨
        Owes ((DistCompile.exec H o (tx.view com) s).next ++ rest) t.buildId := by
    intro t ht failed
    rcases accounts t ht failed with before | closed | owes
    · exact Or.inl before
    · exact Or.inr (Or.inl fun running => closed (running_exec running))
    · rw [top] at owes
      rcases owes.exec ⟨t, ht, rfl, failed⟩ tables.ids with still | closed
      · exact Or.inr (Or.inr still)
      · exact Or.inr (Or.inl closed)
  intro t ht failed
  rw [after] at ht ⊢
  rcases write : (DistCompile.exec H o (tx.view com) s).write with _ | row | row | row
  · rw [Outcome.db, write] at ht
    exact passes t ht failed
  · rw [Outcome.db, write] at ht
    obtain ⟨u, hu, is⟩ := List.mem_map.mp ht
    by_cases here : u.uid = row.uid
    · rw [if_pos here] at is
      subst is
      rcases exec_failed write failed with ⟨r, hr, same, before⟩ | owes
      · rw [same.buildId, same.uid]
        exact passes r hr before
      · exact Or.inr (Or.inr owes.left)
    · rw [if_neg here] at is
      subst is
      exact passes u hu failed
  · rw [Outcome.db, write] at ht
    exact passes t ht failed
  · rw [Outcome.db, write, Option.elim_some, Db.apply_cache_tasks] at ht
    exact passes t ht failed

/-- The tables move on around the transaction. -/
theorem Tx.Accounts.rebase (accounts : Tx.Accounts com tx) (tables : Indexed com) (written : Written SameTask com tx)
    (adv : Advance SameTask com com') (spared : ∀ l ∈ tx.locks, Untouched com com' l) : Tx.Accounts com' tx := by
  intro t ht failed
  by_cases locked : Lock.task t.uid ∈ tx.locks
  · have member := (view_locked (spared _ locked)).mp ht
    rcases accounts t member failed with ⟨r, hr, uid, before⟩ | closed | owes
    · exact Or.inl ⟨r, (spared _ locked r uid).mpr hr, uid, before⟩
    · refine Or.inr (Or.inl fun running => ?_)
      rcases (adv.view written spared SameTask.refl id).running running with before | unknown
      · exact closed before
      · exact unknown ((written.indexed tables).known t member)
    · exact Or.inr (Or.inr owes)
  · exact Or.inl ⟨t, ((written.rebase spared id).free locked).mp ht, rfl, failed⟩

end Statements

/-! ### The world -/

/-- The step does not cut a reaper pass off while it owes the count of a running build. -/
def World.Spares {n : Nat} (w : World n) (a : Act n) : Prop :=
  ∀ i stack, a = .abort i → w.sessions i = .reaping stack → ∀ build, Owes stack build → ¬ w.com.Running build

/-- The build of every failed task is closed or its count owed by a reaper pass, and the
transactions under way account for the tasks that they fail. -/
structure World.Accounted {n : Nat} (w : World n) : Prop where
  committed : ∀ build, w.com.Running build → w.com.HasFailed build →
    ∃ i stack, w.sessions i = .reaping stack ∧ Owes stack build
  txs : ∀ i tx, w.sessions i = .completing tx → Tx.Accounts w.com tx

section World

variable {H : Sha256} {o : Options} {has : Str → Bool} {taken : Lock → Prop} {com com' : Db} {s s' : Session}
  {n : Nat} {w w' : World n} {a : Act n}

/-- What one session does about the failed tasks of running builds: those in the new tables were
there before, or it owes their count now; what it owed before it still owes, or the build is
closed. -/
structure Settles (com com' : Db) (s s' : Session) : Prop where
  fresh : ∀ build, com'.Running build → com'.HasFailed build →
    (com.Running build ∧ com.HasFailed build) ∨ ∃ stack, s' = .reaping stack ∧ Owes stack build
  owed : ∀ build stack, s = .reaping stack → Owes stack build → com'.Running build → com.HasFailed build →
    ∃ stack', s' = .reaping stack' ∧ Owes stack' build
  txs : ∀ tx, s' = .completing tx → Tx.Accounts com' tx

theorem Settles.of_same (notReaping : ∀ stack, s ≠ .reaping stack) (txs : ∀ tx, s' = .completing tx →
    Tx.Accounts com tx) : Settles com com s s' :=
  ⟨fun _ running failed => Or.inl ⟨running, failed⟩, fun _ stack is => absurd is (notReaping stack), txs⟩

/-- The running builds and failed tasks are those before. -/
theorem Settles.of_submit {sub : Submission} {stage : Stage} (running : ∀ build, com'.Running build →
    com'.HasFailed build → com.Running build) (failed : ∀ t ∈ com'.tasks, t.state = .failed → t ∈ com.tasks)
    (notCompleting : ∀ tx, s' ≠ .completing tx) : Settles com com' (.submitting sub stage) s' := by
  refine ⟨fun build runs fails => Or.inl ⟨running build runs fails, ?_⟩, fun build stack is => (by cases is),
    fun tx is => absurd is (notCompleting tx)⟩
  obtain ⟨t, ht, is, state⟩ := fails
  exact ⟨t, failed t ht state, is, state⟩

/-- The next statement of a session, or its commit. -/
theorem Session.Move.settles (tables : Indexed com) (sound : s.Sound com) (lawful : s.Lawful com)
    (txs : ∀ tx, s = .completing tx → Tx.Accounts com tx) (move : Session.Move H o has taken com s com' s') :
    Settles com com' s s' := by
  cases move with
  | @statement tx s rest top isFree =>
    refine .of_same (by simp) fun tx' is => ?_
    cases is
    exact (txs tx rfl).exec (Written.indexed sound tables) top
  | @committed tx empty =>
    refine ⟨fun build running failed => ?_, fun build stack is => (by cases is), fun tx is => (by cases is)⟩
    obtain ⟨t, ht, rfl, state⟩ := failed
    rcases txs tx rfl t ht state with ⟨r, hr, uid, before⟩ | closed | owes
    · -- the failed row was committed before, so the build ran then
      obtain ⟨u, hu, same⟩ := Written.origin sound SameTask.refl ht
      have is : r = u := List.inj_on_of_nodup_map tables.uids.unique hr hu (uid.trans same.uid)
      subst is
      refine Or.inl ⟨?_, r, hr, same.buildId.symm, before⟩
      rcases (Written.advance sound SameTask.refl id tables).running running with runs | unknown
      · exact runs
      · exact absurd (same.buildId ▸ tables.known r hr) unknown
    · exact absurd running closed
    · rw [empty] at owes
      rcases owes with none | none <;> cases none
  | newBuild | insertTasks =>
    exact .of_submit (fun build running _ => running) (fun t ht _ => ht) (by simp)
  | cacheLookup | walk | walked | cacheHits | insertDeps | maybeFinish | rolledBack => exact .of_same (by simp) (by simp)
  | @inserted sub row uid w =>
    have walked : Walked w := lawful.1 w rfl
    have old : ∀ t ∈ (sub.inserted com row uid w).tasks, t.state = .failed → t ∈ com.tasks := by
      intro t ht failed
      rcases mem_inserted ht with old | ⟨-, id, state, -⟩
      · exact old
      · rw [failed] at state
        rcases walked.state id with is | is | is <;> rw [is] at state <;> cases state
    refine .of_submit (fun build running failed => ?_) old (by simp)
    obtain ⟨t, ht, rfl, state⟩ := failed
    rcases (inserted_advance (R := SameTask) SameTask.refl sound.1).running running with runs | unknown
    · exact runs
    · exact absurd (tables.known t (old t ht state)) unknown
  | @counted s rest isFree =>
    obtain ⟨build, counts, -⟩ := sound s (by simp)
    obtain ⟨noTask, noCache, -⟩ : (∀ row, (DistCompile.exec H o com s).write ≠ some (.task row)) ∧
        (∀ row, (DistCompile.exec H o com s).write ≠ some (.cache row)) ∧ _ := exec_countOf counts
    have tasks : ((DistCompile.exec H o com s).db com).tasks = com.tasks := by
      rcases write : (DistCompile.exec H o com s).write with _ | row | row | row
      · rw [Outcome.db, write]; rfl
      · exact absurd write (noTask row)
      · rw [Outcome.db, write]; rfl
      · exact absurd write (noCache row)
    refine ⟨fun b running failed => Or.inl ⟨running_exec running, ?_⟩, fun b stack is owes running failed => ?_,
      fun tx is => (by cases is)⟩
    · rwa [Db.HasFailed, tasks] at failed
    · cases is
      rcases owes.exec failed tables.ids with still | closed
      · exact ⟨_, rfl, still⟩
      · exact absurd running closed
  | passed =>
    refine ⟨fun build running failed => Or.inl ⟨running, failed⟩, fun build stack is owes => ?_,
      fun tx is => (by cases is)⟩
    cases is
    rcases owes with none | none <;> cases none

/-- One session acts. -/
theorem World.Accounted.set {i : Fin n} (acc : w.Accounted) (inv : w.Inv)
    (evolves : Evolves (some i) w (w.set i com s)) (settles : Settles w.com com (w.sessions i) s) :
    (w.set i com s).Accounted := by
  have others : ∀ j, j ≠ i → (w.set i com s).sessions j = w.sessions j := fun j other => by
    rw [set_sessions, if_neg other]
  have here : (w.set i com s).sessions i = s := by rw [set_sessions, if_pos rfl]
  refine ⟨fun build running failed => ?_, fun j tx is => ?_⟩
  · rcases settles.fresh build running failed with ⟨ran, before⟩ | ⟨stack, is, owes⟩
    · obtain ⟨j, stack, is, owes⟩ := acc.committed build ran before
      by_cases same : j = i
      · subst same
        obtain ⟨stack', is', owes'⟩ := settles.owed build stack is owes running before
        exact ⟨j, stack', here.trans is', owes'⟩
      · exact ⟨j, stack, (others j same).trans is, owes⟩
    · exact ⟨i, stack, here.trans is, owes⟩
  · by_cases same : j = i
    · subst same
      exact settles.txs tx (here.symm.trans is)
    · rw [others j same] at is
      have notActor : some i ≠ some j := fun equal => same (Option.some.inj equal).symm
      have sound : (w.sessions j).Sound w.com := inv.sound j
      have spared := evolves.spared j notActor
      rw [is] at sound spared
      exact (acc.txs j tx is).rebase inv.tables sound evolves.advance spared

/-- Rows are rewritten, and none is failed. -/
theorem World.Accounted.rows (acc : w.Accounted) (inv : w.Inv) {f : TaskRow → TaskRow}
    (evolves : Evolves none w { w with com := { w.com with tasks := w.com.tasks.map f } })
    (rows : ∀ t ∈ w.com.tasks, (f t).state = .failed → t.state = .failed ∧ (f t).buildId = t.buildId) :
    World.Accounted { w with com := { w.com with tasks := w.com.tasks.map f } } := by
  refine ⟨fun build running failed => acc.committed build running ?_, fun j tx is => ?_⟩
  · obtain ⟨t', ht', rfl, state⟩ := failed
    obtain ⟨t, ht, rfl⟩ := List.mem_map.mp ht'
    obtain ⟨before, build⟩ := rows t ht state
    exact ⟨t, ht, build.symm, before⟩
  · have sound : (w.sessions j).Sound w.com := inv.sound j
    have spared := evolves.spared j (by simp)
    change w.sessions j = .completing tx at is
    rw [is] at sound spared
    exact (acc.txs j tx is).rebase inv.tables sound evolves.advance spared

/-- A row after the reaper: failed before, or given up now. -/
theorem reapRow_failed {now : Int} {t : TaskRow} (failed : (reapRow o now t).state = .failed) :
    t.state = .failed ∨ leaseExpired now t = true ∧ requeue o t.attempts = .failed := by
  unfold reapRow at failed
  split at failed
  · exact Or.inl failed
  · rename_i expired
    simp only [Bool.not_eq_true', Bool.not_eq_false] at expired
    exact Or.inr ⟨expired, failed⟩

/-- The pass owes the count of every build of which it gave up a task. -/
theorem gaveUp_owes {now : Int} {uids : List Nat} {t : TaskRow} (ht : t ∈ w.com.tasks)
    (reached : w.reaches uids t = true) (expired : leaseExpired now t = true)
    (gaveUp : requeue o t.attempts = .failed) : Owes (w.gaveUp o now uids) t.buildId := by
  have member : t.uid ∈ uids := List.contains_iff_mem.mp (Bool.and_eq_true_iff.mp reached).1
  have found : t ∈ w.com.tasks.filter fun u => u.uid = t.uid && w.reaches uids u && leaseExpired now u &&
      requeue o u.attempts = .failed := by
    rw [List.mem_filter]
    exact ⟨ht, by simp only [reached, expired, gaveUp, decide_true, Bool.and_self]⟩
  exact Or.inl (List.mem_flatMap.mpr ⟨t.uid, member, List.mem_flatMap.mpr ⟨t, found, by simp [maybeFinish]⟩⟩)

/-- The reaper fails tasks and owes the counts of their builds. -/
theorem reap_settles {now : Int} {uids : List Nat} :
    Settles w.com (w.update uids (reapRow o now)) .idle (.reaping (w.gaveUp o now uids)) := by
  refine ⟨fun build running failed => ?_, fun build stack is => (by cases is), fun tx is => (by cases is)⟩
  obtain ⟨t', ht', here, state⟩ := failed
  obtain ⟨t, ht, is⟩ := List.mem_map.mp ht'
  have old : t.buildId = build → t.state = .failed → (w.com.Running build ∧ w.com.HasFailed build) := fun same failed =>
    ⟨running, t, ht, same, failed⟩
  split at is
  · rename_i reached
    subst is
    rw [(reapRow_sameTask o now t).buildId] at here
    rcases reapRow_failed state with before | ⟨expired, gaveUp⟩
    · exact Or.inl (old here before)
    · exact Or.inr ⟨_, rfl, here ▸ gaveUp_owes ht reached expired gaveUp⟩
  · subst is
    exact Or.inl (old here state)

/-- Every step that cuts no such pass off accounts for the failed tasks. -/
theorem World.Accounted.move (acc : w.Accounted) (fair : w.Fair) (spares : w.Spares a)
    (move : World.Move H o w a w') : w'.Accounted := by
  have kept := (fair.inv.move move).2
  cases move with
  | putBlob => exact ⟨acc.committed, acc.txs⟩
  | @complete i now r idle =>
    refine acc.set fair.inv kept (.of_same (by simp [idle]) fun tx is => ?_)
    cases is
    exact fun t ht failed => Or.inl ⟨t, ht, rfl, failed⟩
  | submit idle => exact acc.set fair.inv kept (.of_same (by simp [idle]) (by simp))
  | reap idle => exact acc.set fair.inv kept (idle ▸ reap_settles)
  | @session i a com s act move =>
    rw [actor_of_act act] at kept
    exact acc.set fair.inv kept (move.settles fair.inv.tables (fair.inv.sound i) (fair.lawful i) (acc.txs i))
  | @abort i =>
    refine acc.set fair.inv kept ⟨fun build running failed => Or.inl ⟨running, failed⟩,
      fun build stack is owes running _ => ?_, fun tx is => (by cases is)⟩
    exact absurd running (spares i stack rfl is build owes)
  | @claim worker toolchain part now uid t ht ready isFree =>
    refine acc.rows fair.inv kept fun u hu failed => ?_
    split at failed
    · cases failed
    · rename_i other
      rw [if_neg other]
      exact ⟨failed, rfl⟩
  | @heartbeat worker now uids =>
    refine acc.rows fair.inv kept fun t ht failed => ⟨?_, (update_sameTask (heartbeatRow_sameTask o worker now) t).buildId⟩
    have same : (if w.reaches uids t = true then heartbeatRow o worker now t else t).state = t.state := by
      unfold heartbeatRow
      split_ifs <;> rfl
    rwa [same] at failed

theorem World.Accounted.start : World.Accounted ({} : World n) where
  committed build running := by
    obtain ⟨b, member, -⟩ := running
    cases member
  txs i tx is := by cases is

/-- In every run in which no walk finds a compile task in the cache while a dependency of it is
unknown, and no reaper pass is cut off while it owes the count of a running build: whenever
nothing is in progress, the build of a failed task has failed. -/
theorem failed_tasks_fail_builds {acts : List (Act n)}
    (run : Runs (Meets (World.Step H o) fun w a => w.Unforeseen a ∧ w.Spares a) {} acts w) (quiet : w.Quiet) :
    ∀ t ∈ w.com.tasks, t.state = .failed →
      (∃ b ∈ w.com.builds, b.id = t.buildId) ∧ ∀ b ∈ w.com.builds, b.id = t.buildId → b.state = .failed := by
  have kept : w.Fair ∧ w.Accounted := run.invariant (P := fun w => w.Fair ∧ w.Accounted) ⟨.start, .start⟩
    fun step holds => ⟨(holds.1.move step.1.1 step.2.move).1, holds.2.move holds.1 step.1.2 step.2.move⟩
  obtain ⟨fair, acc⟩ := kept
  refine fun t ht failed => ⟨fair.inv.tables.known t ht, fun b hb build => ?_⟩
  cases state : b.state with
  | failed => rfl
  | running =>
    obtain ⟨i, stack, is, -⟩ := acc.committed t.buildId ⟨b, hb, build, state⟩ ⟨t, ht, rfl, failed⟩
    rw [quiet i] at is
    cases is
  | done =>
    have finished := (fair.judged.verdicts b hb).done state t ht build.symm
    rw [failed] at finished
    cases finished

end World

/-! ### A task whose lease runs out three times -/

/-- The source is submitted, and three workers in turn claim it and are not heard of again. The last
`reap` gives the task up. -/
def expiredActs : List (Act 2) :=
  [.putBlob "int f;".toList [], .submit 0 aloneSpec 1] ++ List.replicate 8 (.exec 0) ++ [.commit 0,
    .claim "u".toList "gcc".toList (some 0) 0 1, .reap 1 (30 * second) [1], .commit 1,
    .claim "v".toList "gcc".toList (some 0) (30 * second) 1, .reap 1 (60 * second) [1], .commit 1,
    .claim "w".toList "gcc".toList (some 0) (60 * second) 1, .reap 1 (90 * second) [1]]

/-- The pass goes on, or throws. -/
def passedActs : List (Act 2) := expiredActs ++ [.exec 1, .exec 1, .commit 1]

def cutOffActs : List (Act 2) := expiredActs ++ [.abort 1]

def World.idle {n : Nat} (w : World n) : Bool := (List.finRange n).all fun i => match w.sessions i with
  | .idle => true
  | _ => false

theorem World.quiet_of_idle {n : Nat} {w : World n} (idle : w.idle = true) : w.Quiet := by
  intro i
  have here := List.all_eq_true.mp idle i (List.mem_finRange i)
  cases is : w.sessions i with
  | idle => rfl
  | _ => rw [is] at here; cases here

def Act.carriesOn {n : Nat} : Act n → Bool
  | .abort _ => false
  | _ => true

/-- A run of flat builds in which nothing is cut off. -/
theorem Runs.spared {H : Sha256} {o : Options} {n : Nat} {w : World n} {acts : List (Act n)}
    (run : Runs (Meets (World.Step H o) fun _ a => a.Flat ∧ a.carriesOn = true) {} acts w) :
    Runs (Meets (World.Step H o) fun w a => w.Unforeseen a ∧ w.Spares a) {} acts w := by
  have both : Runs (Meets (World.Step H o) fun w a => w.Unforeseen a ∧ w.Spares a) {} acts w ∧
      ∀ i, (w.sessions i).Flat := by
    induction run with
    | nil => exact ⟨.nil, fun _ => trivial⟩
    | @snoc _ _ _ a _ step ih =>
      obtain ⟨before, flat⟩ := ih
      refine ⟨.snoc before ⟨⟨fun i _ => (flat i).unforeseen, fun i stack is => ?_⟩, step.2⟩,
        flat_sessions flat step.1.1 step.2.move⟩
      have carriesOn := step.1.2
      rw [is] at carriesOn
      cases carriesOn
  exact both.1

theorem passedActs_run :
    (passedActs.foldlM (World.step sampleSha {}) {}).any (fun w =>
      passedActs.all (fun a => decide a.Flat && a.carriesOn) && w.idle &&
        w.com.tasks.any fun t => t.state = .failed) = true := by
  decide +kernel

theorem failed_tasks_fail_builds_expired :
    ∃ acts w t, Runs (Meets (World.Step sampleSha {}) fun w a => w.Unforeseen a ∧ w.Spares a) ({} : World 2) acts w ∧
      w.Quiet ∧ t ∈ w.com.tasks ∧ t.state = .failed ∧ ∀ b ∈ w.com.builds, b.id = t.buildId → b.state = .failed := by
  obtain ⟨w, ran, holds⟩ := (Option.any_eq_true _ _).mp passedActs_run
  simp only [Bool.and_eq_true, List.all_eq_true, List.any_eq_true, decide_eq_true_eq] at holds
  obtain ⟨⟨calm, idle⟩, t, ht, failed⟩ := holds
  have run := Runs.spared ((Runs.of_foldlM ran).meets calm)
  have quiet := World.quiet_of_idle idle
  exact ⟨passedActs, w, t, run, quiet, ht, failed, (failed_tasks_fail_builds run quiet t ht failed).2⟩

theorem cutOffActs_run :
    (cutOffActs.foldlM (World.step sampleSha {}) {}).any (fun w => w.idle && w.com.tasks.any fun t =>
      t.state = .failed && w.com.builds.any fun b => b.id = t.buildId && b.state = .running) = true := by
  decide +kernel

/-- The pass throws after the update that gave the task up: the build stays running. -/
theorem reaper_cut_off :
    ∃ acts w t b, Runs (World.Step sampleSha {}) ({} : World 2) acts w ∧ w.Quiet ∧ t ∈ w.com.tasks ∧
      t.state = .failed ∧ b ∈ w.com.builds ∧ b.id = t.buildId ∧ b.state = .running := by
  obtain ⟨w, ran, holds⟩ := (Option.any_eq_true _ _).mp cutOffActs_run
  simp only [Bool.and_eq_true, List.any_eq_true, decide_eq_true_eq] at holds
  obtain ⟨idle, t, ht, failed, b, hb, build, running⟩ := holds
  exact ⟨cutOffActs, w, t, b, Runs.of_foldlM ran, World.quiet_of_idle idle, ht, failed, hb, build, running⟩

/-! ### A compile task with dependencies -/

/-- The library again, from a changed source, with a compile task that waits for the first one and
is in the cache. -/
def laterSpec : BuildSpec where
  toolchain := "gcc".toList
  tasks := [
    ⟨0, COMPILE, "obj/f.c.o".toList, [], sampleInput, sampleInput, ["cc".toList], 10⟩,
    ⟨1, ARCHIVE, "libf.a".toList, [0], [], [], [], 1000⟩,
    ⟨2, COMPILE, "obj/g.c.o".toList, [0], sampleKey, sampleInput, ["cc".toList], 10⟩]

/-- The statements of a handler and its commit. -/
def handled (a : Act 1) (statements : Nat) : List (Act 1) :=
  a :: List.replicate statements (.exec 0) ++ [.commit 0]

/-- The completion of the first task finds the library in the cache and closes the build; the
countdown that is left queues the third task again, and that fails. -/
def reopenedActs : List (Act 1) :=
  [.putBlob "int f;".toList [], .putBlob "o:int f;".toList []] ++ handled (.submit 0 sampleSpec 1) 9 ++
    [.claim "w".toList "gcc".toList none 0 1] ++ handled (.complete 0 5 (compiledResult 1)) 9 ++
    [.claim "w".toList "gcc".toList none 0 2] ++ handled (.complete 0 5 (compiledResult 2)) 5 ++
    handled (.submit 0 laterSpec 1) 10 ++
    [.claim "w".toList "gcc".toList none 0 3] ++ handled (.complete 0 5 (compiledResult 3)) 18 ++
    [.claim "w".toList "gcc".toList none 0 5] ++
    handled (.complete 0 5 ⟨5, 1, "w".toList, false, false, [], [], 1⟩) 3

theorem reopenedActs_run :
    (reopenedActs.foldlM (World.step sampleSha {}) {}).any (fun w => w.idle && w.com.tasks.any fun t =>
      t.state = .failed && w.com.builds.any fun b => b.id = t.buildId && b.state = .done) = true := by
  decide +kernel

/-- Without the condition on the walk a failed task can end up in a build that is done. -/
theorem failed_task_in_done_build :
    ∃ acts w t b, Runs (World.Step sampleSha {}) ({} : World 1) acts w ∧ w.Quiet ∧ t ∈ w.com.tasks ∧
      t.state = .failed ∧ b ∈ w.com.builds ∧ b.id = t.buildId ∧ b.state = .done := by
  obtain ⟨w, ran, holds⟩ := (Option.any_eq_true _ _).mp reopenedActs_run
  simp only [Bool.and_eq_true, List.any_eq_true, decide_eq_true_eq] at holds
  obtain ⟨idle, t, ht, failed, b, hb, build, closed⟩ := holds
  exact ⟨reopenedActs, w, t, b, Runs.of_foldlM ran, World.quiet_of_idle idle, ht, failed, hb, build, closed⟩

end DistCompile.Sessions
