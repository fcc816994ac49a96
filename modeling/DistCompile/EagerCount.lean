import DistCompile.FailedBuilds

/-!
Counting only at sinks (`finished` and `maybe_finish` in `src/coordinator.cpp`,
"Coordinator profiling" in `docs/performance.md`).

`finished` calls `maybe_finish` only for a task that nothing waits for. The variant
here calls it after every completion and every step of a cascade (`eagerExec`). While
completions run one at a time the variant does the same: at each of the additional counts
the build is closed already, or it has an unfinished task and no failed one. The first is
because the count of a sink comes before that of what it depends on, the second because a
failed task closes its build in the same transaction (`Calm`). So the additional counts
write nothing, and the two transactions run in step on equal tables (`Padded`).
-/

namespace DistCompile

open DistCompile.Lib DistCompile.Sessions

/-! ### The variant -/

/-- One statement of the variant: `finished` always ends with `maybe_finish`. -/
def eagerExec (H : Sha256) (o : Options) (db : Db) : Stmt → Outcome
  | .dependents build id =>
      { next := (db.dependents build id).map (fun t => .lockRow t.uid) ++
          (db.dependents build id).map (fun t => .countDown build id t.uid) ++ maybeFinish build }
  | s => exec H o db s

def Cfg.eagerStep (H : Sha256) (o : Options) (c : Cfg) : Option Cfg :=
  match c.stack with
  | [] => none
  | s :: rest => some (c.after (eagerExec H o c.db s) rest)

/-- `run` for the variant. -/
def eagerRun (H : Sha256) (o : Options) : Nat → Cfg → Option Cfg
  | 0, c => if c.stack = [] then some c else none
  | fuel + 1, c => match c.eagerStep H o with
    | none => some c
    | some c' => eagerRun H o fuel c'

/-- The calls of the variant. Only completions get to `finished`. -/
inductive EagerStep (H : Sha256) (o : Options) : Coordinator → Call → Coordinator → Prop where
  | completeTask {c : Coordinator} {r : TaskResult} {now : Int} {fuel : Nat} {cfg : Cfg} :
      eagerRun H o fuel ⟨c.db, completeTask c.blobs.has c.blobs.sizeOf now r, []⟩ = some cfg →
      EagerStep H o c (.completeTask r now
          (accepts c.db (completeTask c.blobs.has c.blobs.sizeOf now r)))
        { c with db := cfg.db }
  | other {c c' : Coordinator} {call : Call} : (∀ r now accepted, call ≠ .completeTask r now accepted) →
      Step H o c call c' → EagerStep H o c call c'

/-! ### Failed tasks and their builds -/

/-- A running build with a failed task is spared, or its count is owed. -/
def Calm (spared : List Nat) (c : Cfg) : Prop :=
  ∀ build, c.db.Running build → c.db.HasFailed build → build ∈ spared ∨ Owes c.stack build

section Calm

variable {H : Sha256} {o : Options} {db : Db} {c c' : Cfg} {s : Stmt} {rest : List Stmt} {spared : List Nat}

/-- A statement fails a task only where the count follows. -/
theorem hasFailed_exec {build : Nat} (failed : ((exec H o db s).db db).HasFailed build) :
    db.HasFailed build ∨ Owes (exec H o db s).next build := by
  obtain ⟨t, ht, rfl, state⟩ := failed
  rcases write : (exec H o db s).write with _ | row | row | row
  · rw [Outcome.db, write] at ht
    exact Or.inl ⟨t, ht, rfl, state⟩
  · rw [Outcome.db, write] at ht
    obtain ⟨u, hu, rfl⟩ := List.mem_map.mp ht
    split at state
    · rename_i here
      rw [if_pos here]
      rcases exec_failed write state with ⟨v, hv, same, before⟩ | owes
      · exact Or.inl ⟨v, hv, same.buildId.symm, before⟩
      · exact Or.inr owes
    · rename_i here
      rw [if_neg here]
      exact Or.inl ⟨u, hu, rfl, state⟩
  · rw [Outcome.db, write] at ht
    exact Or.inl ⟨t, ht, rfl, state⟩
  · rw [Outcome.db, write, Option.elim_some, db.apply_cache_tasks row] at ht
    exact Or.inl ⟨t, ht, rfl, state⟩

theorem Calm.exec (calm : Calm spared c) (ids : (c.db.builds.map BuildRow.id).Nodup)
    (top : c.stack = s :: rest) : Calm spared (c.after (exec H o c.db s) rest) := by
  intro build running failed
  rcases hasFailed_exec failed with before | owes
  · rcases calm build (running_exec running) before with listed | owes
    · exact Or.inl listed
    · rw [top] at owes
      rcases owes.exec before ids with owes | closed
      · exact Or.inr owes
      · exact absurd running closed
  · exact Or.inr owes.left

/-- What a transaction run alone leaves. -/
theorem run_calm (ids : (c.db.builds.map BuildRow.id).Nodup) (calm : Calm spared c) {fuel : Nat}
    (ran : run H o fuel c = some c') :
    (c'.db.builds.map BuildRow.id).Nodup ∧ ∀ build, c'.db.Running build → c'.db.HasFailed build →
      build ∈ spared := by
  obtain ⟨⟨ids', calm'⟩, empty⟩ := run_induction
    (P := fun c : Cfg => (c.db.builds.map BuildRow.id).Nodup ∧ Calm spared c)
    (fun {c s rest} ⟨ids, calm⟩ top => ⟨(exec_ids H o c.db s).symm ▸ ids, calm.exec ids top⟩) ran ⟨ids, calm⟩
  refine ⟨ids', fun build running failed => (calm' build running failed).resolve_right ?_⟩
  rw [empty]
  rintro (count | result)
  · cases count
  · cases result

theorem maybeFinish_calm {build : Nat} (ids : (db.builds.map BuildRow.id).Nodup)
    (spares : ∀ b, db.Running b → db.HasFailed b → b ∈ build :: spared) :
    ((db.maybeFinish H o build).builds.map BuildRow.id).Nodup ∧
      ∀ b, (db.maybeFinish H o build).Running b → (db.maybeFinish H o build).HasFailed b → b ∈ spared := by
  obtain ⟨c, ran⟩ := run_maybeFinish H o db build
  rw [Db.maybeFinish, ran]
  refine run_calm ids (fun b running failed => ?_) ran
  rcases List.mem_cons.mp (spares b running failed) with rfl | later
  · exact Or.inr (Or.inl (List.mem_singleton.mpr rfl))
  · exact Or.inl later

end Calm

/-- Between two calls a running build has no failed task. -/
def Settling (db : Db) : Prop := ∀ build, db.Running build → ¬ db.HasFailed build

section Calls

variable {H : Sha256} {o : Options} {db : Db}

theorem Settling.relabel (settling : Settling db) {f : TaskRow → TaskRow}
    (rows : ∀ t ∈ db.tasks, (f t).buildId = t.buildId ∧ ((f t).state = .failed → t.state = .failed)) :
    Settling { db with tasks := db.tasks.map f } := by
  rintro build running ⟨u, hu, rfl, failed⟩
  obtain ⟨t, ht, rfl⟩ := List.mem_map.mp hu
  exact settling _ running ⟨t, ht, (rows t ht).1.symm, (rows t ht).2 failed⟩

theorem Settling.reap (settling : Settling db) (ids : (db.builds.map BuildRow.id).Nodup) (now : Int) :
    Settling (reap H o db now) := by
  have fold : ∀ (builds : List Nat) (db : Db), (db.builds.map BuildRow.id).Nodup →
      (∀ b, db.Running b → db.HasFailed b → b ∈ builds) →
      Settling (builds.foldl (fun db build => db.maybeFinish H o build) db) := by
    intro builds
    induction builds with
    | nil => exact fun db _ spares build running failed => absurd (spares build running failed) (by simp)
    | cons b builds ih =>
      intro db ids spares
      obtain ⟨ids', spares'⟩ := maybeFinish_calm ids spares
      exact ih _ ids' spares'
  refine fold _ _ ids ?_
  rintro b running ⟨u, hu, rfl, failed⟩
  obtain ⟨t, ht, rfl⟩ := List.mem_map.mp hu
  have build : (reapRow o now t).buildId = t.buildId := build_of_fixed (reapRow_relabel o now t).fixed
  rw [build] at running ⊢
  refine List.mem_map.mpr ⟨t, List.mem_filter.mpr ⟨ht, ?_⟩, rfl⟩
  unfold reapRow at failed
  split at failed
  · exact absurd ⟨t, ht, rfl, failed⟩ (settling t.buildId running)
  · rename_i expired
    rw [Bool.and_eq_true, decide_eq_true_eq]
    exact ⟨by simpa using expired, failed⟩

theorem Settling.submitBuild {has : Str → Bool} {live : Int} {spec : BuildSpec} (settling : Settling db)
    (noticed : Noticed db) : Settling (submitBuild H o has db live spec).1 := by
  rcases ran : DistCompile.submitBuild H o has db live spec with ⟨db', e | ⟨build, cached⟩⟩
  · obtain ⟨builds, uids, rfl⟩ := submitBuild_error ran
    exact settling
  · obtain ⟨-, -, order, rank, part, w, -, walked, -, rfl⟩ := submitBuild_ok ran
    have ids : ((insertRows db spec rank part w).builds.map BuildRow.id).Nodup := by
      change ((db.builds ++ [_]).map BuildRow.id).Nodup
      rw [List.map_append, List.nodup_append]
      refine ⟨noticed.ids, by simp, fun a ha b hb same => ?_⟩
      obtain ⟨row, member, rfl⟩ := List.mem_map.mp ha
      have := noticed.fresh row member
      have : b = db.nextBuild := by simpa using hb
      omega
    suffices spares : ∀ b, (insertRows db spec rank part w).Running b →
        (insertRows db spec rank part w).HasFailed b → b ∈ [db.nextBuild] by
      intro b running failed
      exact absurd ((maybeFinish_calm ids spares).2 b running failed) (by simp)
    intro b running failed
    obtain ⟨t, ht, rfl, state⟩ := failed
    rcases List.mem_append.mp ht with old | new
    · obtain ⟨row, member, same, runs⟩ := running
      rcases List.mem_append.mp member with before | inserted
      · exact absurd ⟨t, old, rfl, state⟩ (settling t.buildId ⟨row, before, same, runs⟩)
      · obtain rfl := List.mem_singleton.mp inserted
        exact List.mem_singleton.mpr same.symm
    · obtain ⟨id, ts, -, rfl⟩ := mem_insertedTasks.mp new
      exact List.mem_singleton.mpr rfl

theorem Settling.completeTask {c : Cfg} {blobs : Blobs} {now : Int} {r : TaskResult} {fuel : Nat}
    (settling : Settling db) (ids : (db.builds.map BuildRow.id).Nodup)
    (ran : run H o fuel ⟨db, completeTask blobs.has blobs.sizeOf now r, []⟩ = some c) : Settling c.db := by
  have calm : Calm [] ⟨db, DistCompile.completeTask blobs.has blobs.sizeOf now r, []⟩ :=
    fun build running failed => absurd failed (settling build running)
  intro build running failed
  exact absurd ((run_calm ids calm ran).2 build running failed) (by simp)

/-- No call leaves a failed task in a running build. -/
theorem Step.settling {c c' : Coordinator} {call : Call} (step : Step H o c call c')
    (base : Consistent H c.db) (noticed : Noticed c.db) (settling : Settling c.db) : Settling c'.db := by
  cases step with
  | putBlob _ => exact settling
  | putRefused _ => exact settling
  | submitBuild => exact settling.submitBuild noticed
  | claimTask picked _ | claimCrash picked _ =>
    obtain ⟨ht, -, -⟩ := mem_of_picked picked
    exact settling.relabel fun u hu =>
      base.keyed.of_written (P := fun u v => v.buildId = u.buildId ∧ (v.state = .failed → u.state = .failed)) ht rfl
        ⟨rfl, fun failed => by cases failed⟩ (fun _ => ⟨rfl, id⟩) hu
  | claimNothing _ => exact settling
  | completeTask ran => exact settling.completeTask noticed.ids ran
  | heartbeat =>
    refine settling.relabel fun t _ => ⟨build_of_fixed (heartbeatRow_relabel o _ _ t).fixed, fun failed => ?_⟩
    unfold heartbeatRow at failed
    split at failed
    · exact failed
    · exact failed
  | reap => exact settling.reap noticed.ids _

theorem Runs.settling {calls : List Call} {c : Coordinator}
    (run : Runs (Meets (Step H o) fun _ call => call.Flat) {} calls c) :
    Consistent H c.db ∧ Noticed c.db ∧ Settling c.db := by
  induction run with
  | nil =>
    obtain ⟨base, noticed⟩ : Consistent H ({} : Coordinator).db ∧ Noticed ({} : Coordinator).db :=
      DistCompile.Runs.noticed (H := H) (o := o) .nil
    exact ⟨base, noticed, by simp [Settling, Db.Running]⟩
  | snoc front last ih =>
    obtain ⟨base, noticed, settling⟩ := ih
    obtain ⟨base', noticed'⟩ := DistCompile.Runs.noticed (front.snoc last)
    exact ⟨base', noticed', last.2.settling base noticed settling⟩

end Calls

/-! ### Working off a stack -/

section Clears

variable {H : Sha256} {o : Options}

theorem eagerRun_clears {fuel : Nat} {c c' : Cfg} (ran : eagerRun H o fuel c = some c') :
    Clears (eagerExec H o) c.db c.stack c'.db := by
  induction fuel generalizing c with
  | zero =>
    rw [eagerRun] at ran
    split at ran
    · rename_i empty
      cases ran
      rw [empty]
      exact .nil
    · cases ran
  | succ fuel ih =>
    rcases c with ⟨db, _ | ⟨s, rest⟩, trace⟩
    · cases ran
      exact .nil
    · exact .cons (ih ran)

theorem Clears.eagerRun {db db' : Db} {l : List Stmt} (clears : Clears (eagerExec H o) db l db')
    (trace : List Event) : ∃ fuel c, eagerRun H o fuel ⟨db, l, trace⟩ = some c ∧ c.db = db' := by
  induction clears generalizing trace with
  | nil => exact ⟨0, _, rfl, rfl⟩
  | @cons db db' s rest _ ih =>
    obtain ⟨fuel, c, ran, same⟩ := ih (trace ++ (eagerExec H o db s).event.toList)
    exact ⟨fuel + 1, c, ran, same⟩

end Clears

/-! ### The additional counts -/

/-- A count, or the result of one on a build that is closed. -/
def Idle (db : Db) (s : Stmt) : Prop :=
  ∃ build, s = .progress build ∨ ((s = .buildFailed build ∨ s = .buildDone build) ∧ ¬ db.Running build)

/-- The second stack is the first with additional counts, each of them above loops only. -/
inductive Padded (db : Db) : List Stmt → List Stmt → Prop where
  | nil : Padded db [] []
  | cons {l l' : List Stmt} (s : Stmt) : Padded db l l' → Padded db (s :: l) (s :: l')
  | extra {l l' : List Stmt} {s : Stmt} : (∀ r ∈ l, r.isLoop = true) → Idle db s → Padded db l l' →
      Padded db l (s :: l')

section Padded

variable {H : Sha256} {o : Options} {db : Db} {s : Stmt} {rest l l' : List Stmt}

theorem Padded.refl (l : List Stmt) : Padded db l l := by
  induction l with
  | nil => exact .nil
  | cons s l ih => exact .cons s ih

theorem Padded.append (padded : Padded db l l') (front : List Stmt) : Padded db (front ++ l) (front ++ l') := by
  induction front with
  | nil => exact padded
  | cons s front ih => exact .cons s ih

theorem Padded.extras (padded : Padded db l l') (loops : ∀ r ∈ l, r.isLoop = true) {front : List Stmt}
    (idle : ∀ r ∈ front, Idle db r) : Padded db l (front ++ l') := by
  induction front with
  | nil => exact padded
  | cons r front ih =>
    exact .extra loops (idle r (by simp)) (ih fun r hr => idle r (List.mem_cons_of_mem _ hr))

/-- A closed build stays closed. -/
theorem Padded.exec (padded : Padded db l l') (s : Stmt) : Padded ((exec H o db s).db db) l l' := by
  induction padded with
  | nil => exact .nil
  | cons r _ ih => exact .cons r ih
  | extra loops idle _ ih =>
    obtain ⟨build, count | ⟨result, closed⟩⟩ := idle
    · exact .extra loops ⟨build, Or.inl count⟩ ih
    · exact .extra loops ⟨build, Or.inr ⟨result, fun running => closed (running_exec running)⟩⟩ ih

/-- A running build has a task to wait for and none that failed: what a count at this point sees. -/
def Quiet (db : Db) : Prop := ∀ build, db.Running build → db.failed build = 0 ∧ db.left build ≠ 0

/-- A build that is closed is not closed again. -/
theorem eagerExec_closed {build : Nat} (closes : s = .buildFailed build ∨ s = .buildDone build)
    (closed : ¬ db.Running build) : eagerExec H o db s = {} := by
  have other : ∀ b, db.build? build = some b → b.state ≠ .running := fun b found running =>
    closed ⟨b, List.mem_of_find?_eq_some found, by simpa using List.find?_some found, running⟩
  rcases closes with rfl | rfl
  · simp only [eagerExec, DistCompile.exec]
    split
    · rename_i b found
      exact if_neg (other b found)
    · rfl
  · simp only [eagerExec, DistCompile.exec]
    split
    · rename_i b found
      exact if_neg (other b found)
    · rfl

/-- An additional count writes nothing. -/
theorem Idle.exec (idle : Idle db s) (quiet : Quiet db) :
    (eagerExec H o db s).db db = db ∧ ∀ r ∈ (eagerExec H o db s).next, Idle db r := by
  obtain ⟨build, rfl | ⟨closes, closed⟩⟩ := idle
  · refine ⟨rfl, fun r hr => ?_⟩
    simp only [eagerExec, DistCompile.exec] at hr
    split_ifs at hr with failed zero
    · obtain rfl := List.mem_singleton.mp hr
      exact ⟨build, Or.inr ⟨Or.inl rfl, fun running => by have := (quiet build running).1; omega⟩⟩
    · obtain rfl := List.mem_singleton.mp hr
      exact ⟨build, Or.inr ⟨Or.inr rfl, fun running => (quiet build running).2 zero⟩⟩
    · cases hr
  · rw [eagerExec_closed closes closed]
    exact ⟨rfl, fun r hr => by cases hr⟩

/-- After an additional count the rest is done. -/
theorem Clears.idle {db' : Db} (quiet : Quiet db) (idle : Idle db s)
    (clears : Clears (eagerExec H o) db l db') : Clears (eagerExec H o) db (s :: l) db' := by
  have closing : ∀ {r : Stmt} {build : Nat}, r = .buildFailed build ∨ r = .buildDone build →
      ¬ db.Running build → Clears (eagerExec H o) db (r :: l) db' := fun closes closed =>
    .cons (by rw [eagerExec_closed closes closed]; exact clears)
  obtain ⟨build, rfl | ⟨closes, closed⟩⟩ := idle
  · refine .cons ?_
    simp only [eagerExec, DistCompile.exec]
    split_ifs with failed zero
    · exact closing (Or.inl rfl) fun running => by have := (quiet build running).1; omega
    · exact closing (Or.inr rfl) fun running => (quiet build running).2 zero
    · exact clears
  · exact closing closes closed

/-- What both variants do for a statement, up to an additional count at the end. -/
theorem eagerExec_cases (H : Sha256) (o : Options) (db : Db) (s : Stmt) :
    eagerExec H o db s = exec H o db s ∨ ∃ build, eagerExec H o db s =
      { exec H o db s with next := (exec H o db s).next ++ maybeFinish build } := by
  cases s with
  | dependents build id =>
    cases sink : (db.dependents build id).isEmpty with
    | true => exact Or.inl (by simp [eagerExec, exec, sink])
    | false => exact Or.inr ⟨build, by simp [eagerExec, exec, sink]⟩
  | _ => exact Or.inl rfl

/-- The same statement on top of both stacks. -/
theorem Padded.after (padded : Padded db rest l') (loops : ∀ r ∈ rest, r.isLoop = true) :
    (eagerExec H o db s).db db = (DistCompile.exec H o db s).db db ∧
      Padded ((DistCompile.exec H o db s).db db) ((DistCompile.exec H o db s).next ++ rest)
        ((eagerExec H o db s).next ++ l') := by
  rcases eagerExec_cases H o db s with same | ⟨build, more⟩
  · rw [same]
    exact ⟨rfl, (padded.exec s).append _⟩
  · rw [more]
    refine ⟨rfl, ?_⟩
    rw [List.append_assoc]
    exact (Padded.extra loops ⟨build, Or.inl rfl⟩ (padded.exec s)).append _

end Padded

/-! ### The two transactions in step -/

section Simulation

variable {H : Sha256} {o : Options} {com : Db} {c : Cfg}

/-- Above loops only, the transaction owes no count. -/
theorem Guarded.quiet (g : Guarded H com c) (calm : Calm [] c) (loops : ∀ r ∈ c.stack, r.isLoop = true) :
    Quiet c.db := by
  intro build running
  constructor
  · by_contra some_
    rcases calm build running (Db.failed_pos.mp (Nat.pos_of_ne_zero some_)) with spared | count | result
    · cases spared
    · exact absurd (loops _ count) (by simp [Stmt.isLoop])
    · exact absurd (loops _ result) (by simp [Stmt.isLoop])
  · obtain ⟨x, rfl, -, due | closed | ⟨t, ht, slot, unfinished⟩⟩ := g.watch build running
    · obtain ⟨r, member, counts⟩ := List.any_eq_true.mp due
      have loop := loops r member
      cases r with
      | lockRow uid => cases counts
      | countDown build id uid => cases counts
      | _ => cases loop
    · exact absurd running closed
    · exact Db.left_ne_zero.mpr ⟨t, ht, congrArg Prod.fst slot, unfinished⟩

/-- What the variant leaves, the transaction leaves. -/
theorem Clears.of_eager (base : Consistent H com) (ids : (com.builds.map BuildRow.id).Nodup)
    (layered : com.Layered) {db db' : Db} {l' : List Stmt} (clears : Clears (eagerExec H o) db l' db')
    (g : Guarded H com c) (calm : Calm [] c) (same : db = c.db) (padded : Padded c.db c.stack l') :
    Clears (exec H o) c.db c.stack db' := by
  induction clears generalizing c with
  | nil =>
    rcases c with ⟨db, stack, trace⟩
    cases padded
    exact same ▸ .nil
  | @cons db db' s rest' _ ih =>
    subst same
    generalize stack : c.stack = l at padded
    cases padded with
    | @cons rest _ _ padded =>
      obtain ⟨db, pads⟩ := padded.after (H := H) (o := o) (s := s) (g.mid.rest_loops stack)
      exact .cons (ih (g.exec base ids layered stack) (calm.exec (g.steady.ids ▸ ids) stack) db pads)
    | extra loops idle padded =>
      obtain ⟨db, idle'⟩ := idle.exec (H := H) (o := o) (g.quiet calm (stack ▸ loops))
      rw [← stack]
      refine ih g calm db ?_
      rw [stack]
      exact padded.extras loops idle'

/-- What the transaction leaves, the variant leaves. -/
theorem Clears.to_eager (base : Consistent H com) (ids : (com.builds.map BuildRow.id).Nodup)
    (layered : com.Layered) {db db' : Db} {l l' : List Stmt} (clears : Clears (exec H o) db l db')
    (g : Guarded H com c) (calm : Calm [] c) (same : c.db = db) (stack : c.stack = l)
    (padded : Padded db l l') : Clears (eagerExec H o) db l' db' := by
  induction clears generalizing c l' with
  | nil =>
    subst same
    have quiet := g.quiet calm (by simp [stack])
    generalize empty : ([] : List Stmt) = l at padded
    induction padded with
    | nil => exact .nil
    | cons => cases empty
    | extra _ idle _ ih => exact .idle quiet idle (ih empty)
  | @cons db db' s rest _ ih =>
    subst same
    generalize top : s :: rest = l at padded
    induction padded with
    | nil => cases top
    | cons r padded =>
      cases top
      obtain ⟨db, pads⟩ := padded.after (H := H) (o := o) (s := s) (g.mid.rest_loops stack)
      refine .cons ?_
      rw [db]
      exact ih (g.exec base ids layered stack) (calm.exec (g.steady.ids ▸ ids) stack) rfl rfl pads
    | extra loops idle _ more => exact .idle (g.quiet calm (stack ▸ top ▸ loops)) idle (more top)

end Simulation

/-! ### Every run -/

section Runs

variable {H : Sha256} {o : Options} {c c' : Coordinator} {call : Call}

/-- Between the calls the two variants do the same. -/
theorem eagerStep_iff (base : Consistent H c.db) (noticed : Noticed c.db) (settling : Settling c.db) :
    EagerStep H o c call c' ↔ Step H o c call c' := by
  have calm : ∀ stack, Calm [] ⟨c.db, stack, []⟩ :=
    fun _ build running failed => absurd failed (settling build running)
  constructor
  · intro step
    cases step with
    | @completeTask r now fuel cfg ran =>
      have clears := (eagerRun_clears ran).of_eager base noticed.ids noticed.layered
        (noticed.guarded base c.blobs now r) (calm _) rfl (.refl _)
      obtain ⟨fuel', cfg', ran', same⟩ := clears.run []
      rw [← same]
      exact .completeTask ran'
    | other _ step => exact step
  · intro step
    cases step with
    | @completeTask r now fuel cfg ran =>
      have clears := (run_clears ran).to_eager base noticed.ids noticed.layered
        (noticed.guarded base c.blobs now r) (calm _) rfl rfl (.refl _)
      obtain ⟨fuel', cfg', ran', same⟩ := clears.eagerRun []
      rw [← same]
      exact .completeTask ran'
    | putBlob stored => exact .other (by simp) (.putBlob stored)
    | putRefused refused => exact .other (by simp) (.putRefused refused)
    | submitBuild => exact .other (by simp) .submitBuild
    | claimTask picked named => exact .other (by simp) (.claimTask picked named)
    | claimCrash picked unnamed => exact .other (by simp) (.claimCrash picked unnamed)
    | claimNothing none_ => exact .other (by simp) (.claimNothing none_)
    | heartbeat => exact .other (by simp) .heartbeat
    | reap => exact .other (by simp) .reap

/-- A call and its reply fix the state after it. -/
theorem Step.unique {d : Coordinator} (base : Consistent H c.db) (first : Step H o c call c')
    (second : Step H o c call d) : c' = d := by
  cases first with
  | putBlob stored =>
    cases second with
    | putBlob stored' => rw [Option.some.inj (stored.symm.trans stored')]
  | putRefused _ =>
    cases second with
    | putRefused _ => rfl
  | @submitBuild spec live =>
    generalize (DistCompile.submitBuild H o c.blobs.has c.db live spec).2 = reply at second
    cases second with
    | submitBuild => rfl
  | @claimTask worker toolchain part now t picked _ =>
    generalize reply : some (assignmentOf (claimedRow o worker now t)) = r at second
    cases second with
    | @claimTask _ _ _ _ u picked' _ =>
      have uid : t.uid = u.uid := congrArg Assignment.taskUid (Option.some.inj reply)
      rw [base.keyed.uid_inj (mem_of_picked picked).1 (mem_of_picked picked').1 uid]
    | claimNothing _ => cases reply
  | @claimCrash worker toolchain part now t picked _ =>
    generalize row : t.uid = uid at second
    cases second with
    | @claimCrash _ _ _ _ u picked' _ =>
      rw [base.keyed.uid_inj (mem_of_picked picked).1 (mem_of_picked picked').1 row]
  | claimNothing _ =>
    cases second with
    | claimNothing _ => rfl
  | @completeTask r now fuel cfg ran =>
    generalize accepts c.db (DistCompile.completeTask c.blobs.has c.blobs.sizeOf now r) = reply at second
    cases second with
    | completeTask ran' => rw [(run_clears ran).unique (run_clears ran')]
  | heartbeat =>
    cases second with
    | heartbeat => rfl
  | reap =>
    cases second with
    | reap => rfl

theorem Runs.unique {calls : List Call} {d : Coordinator}
    (first : Runs (Meets (Step H o) fun _ call => call.Flat) {} calls c)
    (second : Runs (Meets (Step H o) fun _ call => call.Flat) {} calls d) : c = d := by
  induction first generalizing d with
  | nil =>
    generalize none_ : ([] : List Call) = calls at second
    cases second with
    | nil => rfl
    | snoc => simp at none_
  | @snoc _ _ calls call front last ih =>
    generalize all : calls ++ [call] = calls' at second
    cases second with
    | nil => simp at all
    | snoc front' last' =>
      obtain ⟨rfl, same⟩ := List.append_inj' all rfl
      cases same
      obtain rfl := ih front'
      exact last.2.unique (Runs.settling front).1 last'.2

/-- For every sequence of calls with the specs of `dcc`, each one transaction: counting only
at sinks and counting after every completion and every step of a cascade have the same runs,
so after every call the builds have the same states. -/
theorem counting_at_sinks_suffices {calls : List Call} :
    (∀ c, Runs (Meets (Step H o) fun _ call => call.Flat) {} calls c ↔
      Runs (Meets (EagerStep H o) fun _ call => call.Flat) {} calls c) ∧
    ∀ c c', Runs (Meets (Step H o) fun _ call => call.Flat) {} calls c →
      Runs (Meets (EagerStep H o) fun _ call => call.Flat) {} calls c' → c'.db.builds = c.db.builds := by
  have same : ∀ c, Runs (Meets (Step H o) fun _ call => call.Flat) {} calls c ↔
      Runs (Meets (EagerStep H o) fun _ call => call.Flat) {} calls c := by
    intro c
    constructor
    · intro run
      induction run with
      | nil => exact .nil
      | snoc front last ih =>
        obtain ⟨base, noticed, settling⟩ := Runs.settling front
        exact .snoc ih ⟨last.1, (eagerStep_iff base noticed settling).mpr last.2⟩
    · intro run
      induction run with
      | nil => exact .nil
      | snoc _ last ih =>
        obtain ⟨base, noticed, settling⟩ := Runs.settling ih
        exact .snoc ih ⟨last.1, (eagerStep_iff base noticed settling).mp last.2⟩
  refine ⟨same, fun c c' sinks eager => ?_⟩
  rw [Runs.unique sinks ((same c').mpr eager)]

end Runs

/-- A library of one object, from the upload to its end. -/
def countedRequests : List Request :=
  [.putBlob "int f;".toList [], .putBlob "o:int f;".toList [], .submitBuild sampleSpec 1,
    .claimTask "w".toList "gcc".toList 0 0 1,
    .completeTask ⟨1, 1, "w".toList, true, false, sampleOutput, [], 5⟩ 0 10,
    .claimTask "w".toList "gcc".toList 0 0 2,
    .completeTask ⟨2, 1, "w".toList, true, false, sampleOutput, [], 5⟩ 0 10]

theorem countedRequests_served :
    (serveAll sampleSha {} {} countedRequests).any (fun r =>
      decide ((∀ call ∈ r.1, call.Flat) ∧ r.2.db.builds.map BuildRow.state = [.done])) = true := by
  decide +kernel

theorem counting_at_sinks_suffices_library :
    ∃ calls c, Runs (Meets (Step sampleSha {}) fun _ call => call.Flat) {} calls c ∧
      Runs (Meets (EagerStep sampleSha {}) fun _ call => call.Flat) {} calls c ∧
      c.db.builds.map BuildRow.state = [.done] := by
  obtain ⟨⟨calls, c⟩, served, facts⟩ := (Option.any_eq_true ..).mp countedRequests_served
  obtain ⟨flat, done⟩ := of_decide_eq_true facts
  have run := (serveAll_runs served).meets flat
  exact ⟨calls, c, run, (counting_at_sinks_suffices.1 c).mp run, done⟩

end DistCompile
