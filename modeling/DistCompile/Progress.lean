import DistCompile.Cascade
import DistCompile.Finish
import DistCompile.Moves

/-!
No build gets stuck (`CompleteTask`, `maybe_finish`, `try_claim` and `reap_loop` in
`src/coordinator.cpp`).

A running build has an unfinished task, and a failed one closes its build (`Closes`), so some
task of it is in the queue or with a worker: below a task that waits there is one that does not.
Hence workers need not help each other. When the leases of the others have run out, one worker
whose tool succeeds ends every build of its toolchain, in as many rounds of claim, upload and
completion as there are tasks to finish (`Round`). The three seconds that a task is kept from
the worker it failed on only delay this.
-/

namespace DistCompile

open DistCompile.Lib DistCompile.Graph

/-! ### A failed task closes its build -/

/-- The build of every failed task is closed, but for those in `due`. -/
def Closes (db : Db) (due : Nat → Prop) : Prop := ∀ build, db.HasFailed build → db.Running build → due build

/-- The transaction still counts, or closes, the build. -/
def Tells (stack : List Stmt) (build : Nat) : Prop := .progress build ∈ stack ∨ .buildFailed build ∈ stack

section Statements

variable {H : Sha256} {o : Options} {db : Db} {c : Cfg} {s : Stmt} {rest : List Stmt} {due : Nat → Prop}

/-- A statement that fails a task is followed by a count of its build. -/
theorem exec_hasFailed {build : Nat} (failed : ((exec H o db s).db db).HasFailed build) :
    db.HasFailed build ∨ .progress build ∈ (exec H o db s).next := by
  obtain ⟨u, hu, rfl, state⟩ := failed
  rcases write : (exec H o db s).write with _ | row | row | row
  · rw [Outcome.db, write] at hu
    exact Or.inl ⟨u, hu, rfl, state⟩
  · rw [Outcome.db, write] at hu
    obtain ⟨v, hv, rfl⟩ := List.mem_map.mp hu
    by_cases same : v.uid = row.uid
    · rw [if_pos same] at state ⊢
      obtain ⟨t, ht, next, follows, rewrites⟩ := exec_rewrites write
      rw [follows]
      cases rewrites with
      | complete | markCached | markReady => cases state
      | retry => exact Or.inr (by rw [if_pos state]; exact List.mem_singleton_self _)
      | fail => exact Or.inr (List.mem_singleton_self _)
      | countDown => exact Or.inl ⟨t, ht, rfl, state⟩
    · rw [if_neg same] at state ⊢
      exact Or.inl ⟨v, hv, rfl, state⟩
  · rw [Outcome.db, write] at hu
    exact Or.inl ⟨u, hu, rfl, state⟩
  · rw [Outcome.db, write, Option.elim_some, db.apply_cache_tasks row] at hu
    exact Or.inl ⟨u, hu, rfl, state⟩

/-- A build that is told of stays so until it is closed. -/
theorem Closes.exec (ids : (c.db.builds.map BuildRow.id).Nodup) (top : c.stack = s :: rest)
    (closes : Closes c.db fun build => due build ∨ Tells c.stack build) :
    Closes (c.after (DistCompile.exec H o c.db s) rest).db fun build =>
      due build ∨ Tells (c.after (DistCompile.exec H o c.db s) rest).stack build := by
  intro build failed running
  have here : ∀ {r : Stmt}, r ∈ (DistCompile.exec H o c.db s).next →
      r ∈ (c.after (DistCompile.exec H o c.db s) rest).stack :=
    fun member => List.mem_append_left _ member
  rcases exec_hasFailed failed with before | counts
  · rcases closes build before (running_exec running) with later | told
    · exact Or.inl later
    · refine Or.inr ?_
      rw [Tells, top, List.mem_cons, List.mem_cons] at told
      rcases told with (rfl | below) | (rfl | below)
      · refine Or.inr (here ?_)
        simp [DistCompile.exec, Db.failed_pos.mpr before]
      · exact Or.inl (List.mem_append_right _ below)
      · exact absurd running (not_running_closed ids (Or.inl rfl))
      · exact Or.inr (List.mem_append_right _ below)
  · exact Or.inr (Or.inl (here counts))

theorem exec_build_ids (s : Stmt) :
    ((exec H o db s).db db).builds.map BuildRow.id = db.builds.map BuildRow.id := by
  rcases write : (exec H o db s).write with _ | row | row | row
  · rw [Outcome.db, write]; rfl
  · rw [Outcome.db, write]; rfl
  · rw [Outcome.db, write, Option.elim_some, Db.apply, List.map_map]
    refine List.map_congr_left fun b _ => ?_
    dsimp only [Function.comp_apply]
    split
    · rename_i same
      exact same.symm
    · rfl
  · rw [Outcome.db, write, Option.elim_some, apply_cache_builds]

/-- A transaction run in one go tells of every build it was to tell of. -/
theorem Closes.run {stack : List Stmt} {fuel : Nat} (ids : (db.builds.map BuildRow.id).Nodup)
    (closes : Closes db fun build => due build ∨ Tells stack build)
    (ran : DistCompile.run H o fuel ⟨db, stack, []⟩ = some c) :
    Closes c.db due ∧ c.db.builds.map BuildRow.id = db.builds.map BuildRow.id := by
  obtain ⟨⟨told, same⟩, empty⟩ := run_induction
    (P := fun c => Closes c.db (fun build => due build ∨ Tells c.stack build) ∧
      c.db.builds.map BuildRow.id = db.builds.map BuildRow.id)
    (fun {c s rest} holds top => ⟨holds.1.exec (holds.2 ▸ ids) top, (exec_build_ids s).trans holds.2⟩) ran ⟨closes, rfl⟩
  refine ⟨fun build failed running => ?_, same⟩
  rcases told build failed running with later | more | more
  · exact later
  · rw [empty] at more
    cases more
  · rw [empty] at more
    cases more

theorem Closes.maybeFinish (ids : (db.builds.map BuildRow.id).Nodup) {build : Nat}
    (closes : Closes db fun b => due b ∨ b = build) :
    Closes (db.maybeFinish H o build) due ∧
      (db.maybeFinish H o build).builds.map BuildRow.id = db.builds.map BuildRow.id := by
  obtain ⟨c, ran⟩ := run_maybeFinish H o db build
  rw [Db.maybeFinish, ran]
  refine Closes.run ids (fun b failed running => ?_) ran
  rcases closes b failed running with later | rfl
  · exact Or.inl later
  · exact Or.inr (Or.inl (List.mem_singleton_self _))

end Statements

section Calls

variable {H : Sha256} {o : Options} {db : Db} {c c' : Coordinator} {calls : List Call}

/-- Rows are rewritten, and those that fail belong to builds in `due`. -/
theorem Closes.rows {due : Nat → Prop} {f : TaskRow → TaskRow} (closes : Closes db fun _ => False)
    (rows : ∀ t ∈ db.tasks, (f t).buildId = t.buildId ∧ ((f t).state = .failed → t.state = .failed ∨ due t.buildId)) :
    Closes { db with tasks := db.tasks.map f } due := by
  rintro build ⟨u, hu, rfl, state⟩ running
  obtain ⟨t, ht, rfl⟩ := List.mem_map.mp hu
  obtain ⟨same, failed⟩ := rows t ht
  rw [same] at running ⊢
  rcases failed state with old | new
  · exact (closes t.buildId ⟨t, ht, rfl, old⟩ running).elim
  · exact new

theorem Closes.reap (ids : (db.builds.map BuildRow.id).Nodup) (closes : Closes db fun _ => False) (now : Int) :
    Closes (reap H o db now) fun _ => False := by
  have fold : ∀ (builds : List Nat) (db : Db), (db.builds.map BuildRow.id).Nodup → Closes db (· ∈ builds) →
      Closes (builds.foldl (fun db build => db.maybeFinish H o build) db) fun _ => False := by
    intro builds
    induction builds with
    | nil => exact fun db _ closes build failed running => by cases closes build failed running
    | cons b builds ih =>
      intro db ids closes
      have due : Closes db fun build => build ∈ builds ∨ build = b := fun build failed running =>
        (List.mem_cons.mp (closes build failed running)).symm
      obtain ⟨kept, same⟩ := Closes.maybeFinish (H := H) (o := o) ids due
      exact ih _ (same ▸ ids) kept
  refine fold _ { db with tasks := db.tasks.map (reapRow o now) } ids (closes.rows fun t ht => ?_)
  constructor
  · exact build_of_fixed (reapRow_relabel o now t).fixed
  · intro state
    unfold reapRow at state
    split at state
    · exact Or.inl state
    · rename_i expired
      simp only [Bool.not_eq_true', Bool.not_eq_false] at expired
      have gaveUp : requeue o t.attempts = .failed := state
      exact Or.inr (List.mem_map.mpr ⟨t, List.mem_filter.mpr ⟨ht, by simp [expired, gaveUp]⟩, rfl⟩)

theorem Closes.insertRows {spec : BuildSpec} {rank part : Nat → Int} {w : Walk} (fresh : db.Fresh)
    (closes : Closes db fun _ => False) (idle : ∀ id, (w.row id).state ≠ .failed) :
    Closes (insertRows db spec rank part w) fun _ => False := by
  rintro build ⟨t, ht, rfl, state⟩ ⟨row, member, same, running⟩
  rcases List.mem_append.mp ht with old | new
  · rcases List.mem_append.mp member with here | added
    · exact closes t.buildId ⟨t, old, rfl, state⟩ ⟨row, here, same, running⟩
    · rw [List.mem_singleton.mp added] at same
      exact (fresh t old).1.ne' same
  · obtain ⟨id, ts, -, rfl⟩ := mem_insertedTasks.mp new
    exact idle id state

theorem Closes.submitBuild {has : Str → Bool} {live : Int} {spec : BuildSpec} (noticed : Noticed db) (fresh : db.Fresh)
    (closes : Closes db fun _ => False) : Closes (submitBuild H o has db live spec).1 fun _ => False := by
  rcases ran : DistCompile.submitBuild H o has db live spec with ⟨db', e | ⟨build, cached⟩⟩
  · obtain ⟨builds, uids, rfl⟩ := submitBuild_error ran
    exact closes
  · obtain ⟨-, -, order, rank, part, w, -, walked, -, rfl⟩ := submitBuild_ok ran
    have ids : ((DistCompile.insertRows db spec rank part w).builds.map BuildRow.id).Nodup := by
      rw [DistCompile.insertRows, List.map_append, List.nodup_append]
      refine ⟨noticed.ids, by simp, fun a ha b hb same => ?_⟩
      obtain ⟨row, member, rfl⟩ := List.mem_map.mp ha
      have := noticed.fresh row member
      have : b = db.nextBuild := by simpa using hb
      omega
    have rows : Closes (DistCompile.insertRows db spec rank part w) fun _ => False :=
      closes.insertRows fresh fun id failed => by
        rcases (walk_rows walked id).state with state | state | state <;> rw [state] at failed <;> cases failed
    exact (Closes.maybeFinish ids fun b failed running => Or.inl (rows b failed running)).1

/-- Every call closes the builds whose tasks have failed. -/
theorem Step.closes {call : Call} (step : Step H o c call c') (base : Consistent H c.db) (noticed : Noticed c.db)
    (closes : Closes c.db fun _ => False) : Closes c'.db fun _ => False := by
  cases step with
  | putBlob _ => exact closes
  | putRefused _ => exact closes
  | submitBuild => exact closes.submitBuild noticed base.fresh
  | claimTask picked _ | claimCrash picked _ =>
    obtain ⟨ht, -, -⟩ := mem_of_picked picked
    refine closes.rows fun u hu => ?_
    exact base.keyed.of_written (P := fun u v => v.buildId = u.buildId ∧ (v.state = .failed → u.state = .failed ∨ False))
      ht rfl ⟨rfl, fun failed => by cases failed⟩ (fun _ => ⟨rfl, Or.inl⟩) hu
  | claimNothing _ => exact closes
  | completeTask ran =>
    exact (Closes.run noticed.ids (fun build failed running => Or.inl (closes build failed running)) ran).1
  | heartbeat =>
    refine closes.rows fun t _ => ⟨build_of_fixed (heartbeatRow_relabel o _ _ t).fixed, fun failed => Or.inl ?_⟩
    unfold heartbeatRow at failed
    split at failed <;> exact failed
  | reap => exact closes.reap noticed.ids _

theorem Runs.closes (run : Runs (Meets (Step H o) fun _ call => call.Flat) {} calls c) :
    Consistent H c.db ∧ Noticed c.db ∧ Closes c.db fun _ => False := by
  have start := Runs.noticed (H := H) (o := o) .nil
  refine run.invariant (P := fun c => Consistent H c.db ∧ Noticed c.db ∧ Closes c.db fun _ => False)
    ⟨start.1, start.2, fun build ⟨t, ht, _⟩ => by cases ht⟩ fun step holds => ?_
  obtain ⟨base, noticed, closes⟩ := holds
  exact ⟨step.2.consistent step.1 base, step.2.noticed step.1 base noticed, step.2.closes base noticed closes⟩

end Calls

/-! ### Open tasks -/

/-- Below an unfinished task there is one whose dependencies are finished. -/
theorem Db.exists_source {db : Db} (layered : db.Layered) (linked : db.Linked) {t : TaskRow}
    (ht : t ∈ db.tasks) (unfinished : t.state.finished = false) :
    ∃ u ∈ db.tasks, u.buildId = t.buildId ∧ u.state.finished = false ∧ db.unfinishedDeps u.slot = 0 := by
  obtain ⟨rank, up⟩ := layered
  -- an unfinished dependency has a smaller rank
  induction height : rank t.slot using Nat.strong_induction_on generalizing t with
  | _ n ih =>
    by_cases ready : db.unfinishedDeps t.slot = 0
    · exact ⟨t, ht, rfl, unfinished, ready⟩
    · rw [unfinishedDeps_eq_zero] at ready
      push Not at ready
      obtain ⟨d, hd, target, waits⟩ := ready
      obtain ⟨v, hv, source⟩ := linked.source d hd
      have lower : rank v.slot < n := by
        rw [source, ← height, ← target]
        exact up d hd
      have unfinished' : v.state.finished = false := by
        by_contra done
        exact waits ⟨v, hv, source, by simpa using done⟩
      obtain ⟨u, hu, build, rest⟩ := ih _ lower hv unfinished' rfl
      have same : v.buildId = t.buildId :=
        (congrArg Prod.fst source).trans ((congrArg Prod.fst target) : d.build = t.buildId)
      exact ⟨u, hu, build.trans same, rest⟩

theorem exists_open {H : Sha256} {db : Db} (base : Consistent H db) (noticed : Noticed db)
    (closes : Closes db fun _ => False) {build : Nat} (running : db.Running build) :
    ∃ t ∈ db.tasks, t.buildId = build ∧ t.state.open = true := by
  obtain ⟨t, ht, rfl, unfinished⟩ := noticed.running build running
  obtain ⟨u, hu, build, unfinished', ready⟩ := Db.exists_source noticed.layered base.linked ht unfinished
  refine ⟨u, hu, build, ?_⟩
  have settled : u.state ≠ .waiting := by
    intro waits
    have positive := (base.waiting u hu).mp waits
    rw [base.pending u hu, ready] at positive
    exact absurd positive (lt_irrefl _)
  have alive : u.state ≠ .failed := fun failed => closes t.buildId ⟨u, hu, build, failed⟩ running
  cases state : u.state with
  | waiting => exact absurd state settled
  | failed => exact absurd state alive
  | ready | running => rfl
  | done | cached =>
    rw [state] at unfinished'
    cases unfinished'

/-- In every reachable state a running build has a task in the queue or with a worker. -/
theorem running_builds_have_work {H : Sha256} {o : Options} {calls : List Call} {c : Coordinator}
    (run : Runs (Meets (Step H o) fun _ call => call.Flat) {} calls c) {build : Nat} (running : c.db.Running build) :
    ∃ t ∈ c.db.tasks, t.buildId = build ∧ t.state.open = true := by
  obtain ⟨base, noticed, closes⟩ := Runs.closes run
  exact exists_open base noticed closes running

/-- In the sample it is the object. -/
theorem running_builds_have_work_sample : ∃ t ∈ sampleCoordinator.db.tasks, t.buildId = 1 ∧ t.state.open = true := by
  obtain ⟨calls, run⟩ := sample_reached
  exact running_builds_have_work run (by decide +kernel)

end DistCompile
