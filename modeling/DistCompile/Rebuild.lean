import DistCompile.Resubmit
import DistCompile.Stored
import DistCompile.Verdicts

/-!
Rebuilds (`submit`, `CompleteTask` and `make_ready` in `src/coordinator.cpp`,
steps 2 and 3 of `tests/e2e.sh`).

The cache is filled with `ON CONFLICT DO NOTHING`, so of two results for one key the first
stays. When what the workers report for a key is always the same (`Call.Determined`), that is
no difference: a finished task has the output that the cache has for its key (`Answers`). A build
that is done has only finished tasks. So the walk of a later `submit` of the same spec, which
finds the outputs in the cache and not in the rows of the first build, computes the keys the
first build had, one task after the other, and finds each of them.
-/

namespace DistCompile

open DistCompile.Lib DistCompile.Graph

/-! ### A walk that finds everything -/

section Walk

variable {H : Sha256} {has : Str → Bool} {cache : Str → Option Str} {spec : BuildSpec} {order : List Nat}
  {out : Nat → Str}

/-- The outputs `out` are in the cache, each under the key that follows from the others. -/
structure Known (H : Sha256) (cache : Str → Option Str) (spec : BuildSpec) (out : Nat → Str) : Prop where
  filled : ∀ id < spec.tasks.length, out id ≠ []
  compile : ∀ id ts, spec.tasks[id]? = some ts → ts.kind = COMPILE → ts.key ≠ [] ∧ cache ts.key = some (out id)
  action : ∀ id ts, spec.tasks[id]? = some ts → ts.kind ≠ COMPILE →
    cache (actionKey H ts.kind spec.toolchain (joinLines ts.args) (ts.depIds.map spec.flatNameOf)
      (ts.depIds.map out)) = some (out id)

/-- After the tasks `pre`, all of them found. -/
structure Found (cache : Str → Option Str) (spec : BuildSpec) (out : Nat → Str) (pre : List Nat) (w : Walk) :
    Prop where
  cached : w.cached = pre.length
  rows : ∀ id ∈ pre, (w.row id).state = .cached ∧ (w.row id).output = out id
  hits : ∀ key output, w.hits key = some output → cache key = some output
  looked : ∀ key output, lookupCompileKeys cache spec key = some output → (w.hits key).isSome = true

/-- The key that an iteration computes is known. -/
theorem Found.key {pre : List Nat} {w : Walk} (found : Found cache spec out pre w) (known : Known H cache spec out)
    {id : Nat} {ts : TaskSpec} (task : spec.tasks[id]? = some ts) (deps : ∀ d ∈ ts.depIds, d ∈ pre)
    (inRange : ∀ d ∈ pre, d < spec.tasks.length) :
    (resolveInputs H spec w.row ts).pending = 0 ∧ (resolveInputs H spec w.row ts).key ≠ [] ∧
      cache (resolveInputs H spec w.row ts).key = some (out id) := by
  have outputs : (ts.depIds.map fun d => (w.row d).output) = ts.depIds.map out :=
    List.map_congr_left fun d hd => (found.rows d (deps d hd)).2
  have pending : (resolveInputs H spec w.row ts).pending = 0 := by
    rw [resolveInputs_pending_eq, List.countP_eq_zero]
    intro d hd
    rw [(found.rows d (deps d hd)).2]
    simpa using known.filled d (inRange d (deps d hd))
  by_cases compile : ts.kind = COMPILE
  · have key : (resolveInputs H spec w.row ts).key = ts.key := by simp [resolveInputs, compile]
    rw [key]
    exact ⟨pending, known.compile id ts task compile⟩
  · rw [(resolveInputs_action compile pending).1, outputs]
    exact ⟨pending, actionKey_ne_nil H _ _ _ _ _, known.action id ts task compile⟩

/-- The hits after an iteration's look-up. -/
theorem Found.looked_up {pre : List Nat} {w : Walk} (found : Found cache spec out pre w) {id : Nat} {ts : TaskSpec}
    (task : spec.tasks[id]? = some ts) (pending : (resolveInputs H spec w.row ts).pending = 0)
    (here : cache (resolveInputs H spec w.row ts).key = some (out id)) :
    hitsAfter H cache spec w ts (resolveInputs H spec w.row ts).key = some (out id) ∧
      ∀ key output, lookupCompileKeys cache spec key = some output → (hitsAfter H cache spec w ts key).isSome = true := by
  have wide : ∀ key output, lookupCompileKeys cache spec key = some output →
      (hitsAfter H cache spec w ts key).isSome = true := fun key output hit =>
    (hitsAfter_keeps ts (found.looked key output hit)).symm ▸ found.looked key output hit
  refine ⟨?_, wide⟩
  cases before : w.hits (resolveInputs H spec w.row ts).key with
  | some output =>
    rw [hitsAfter_keeps ts (by rw [before]; rfl), before, ← here, found.hits _ _ before]
  | none =>
    by_cases compile : ts.kind = COMPILE
    · -- the key of a compile task has been looked up
      rw [resolveInputs_compile compile] at here before
      have there := found.looked ts.key (out id)
        ((lookupCompileKeys_compile (List.mem_of_getElem? task) compile).trans here)
      rw [before] at there
      cases there
    · rw [hitsAfter, if_pos ⟨compile, pending, by rw [before]; rfl⟩, Function.update_self, here]

/-- One iteration. -/
theorem Found.visit {pre : List Nat} {w : Walk} (found : Found cache spec out pre w) (known : Known H cache spec out)
    {id : Nat} {ts : TaskSpec} (task : spec.tasks[id]? = some ts) (fresh : id ∉ pre)
    (deps : ∀ d ∈ ts.depIds, d ∈ pre) (inRange : ∀ d ∈ pre, d < spec.tasks.length) :
    ∃ w', walkTask H has cache spec w id = .ok w' ∧ Found cache spec out (pre ++ [id]) w' := by
  obtain ⟨pending, filled, here⟩ := found.key known task deps inRange
  obtain ⟨hit, wide⟩ := found.looked_up task pending here
  rw [hitsAfter] at hit
  unfold walkTask
  rw [task]
  dsimp only
  rw [if_neg filled, hit]
  refine ⟨_, rfl, ?_, fun i hi => ?_, hitsAfter_sound found.hits ts, wide⟩
  · rw [found.cached, List.length_append]
    rfl
  · rcases List.mem_append.mp hi with old | new
    · have other : i ≠ id := fun same => fresh (same ▸ old)
      dsimp only
      rw [Function.update_of_ne other]
      exact found.rows i old
    · rw [List.mem_singleton.mp new]
      dsimp only
      rw [Function.update_self]
      exact ⟨rfl, rfl⟩

/-- Every task is found. -/
theorem walk_finds (has : Str → Bool) (topo : IsTopoOrder spec.graph order) (known : Known H cache spec out) :
    ∃ w, walk H has cache spec order = .ok w ∧ w.cached = spec.tasks.length ∧
      ∀ id < spec.tasks.length, (w.row id).state = .cached ∧ (w.row id).output = out id := by
  have member : ∀ id, id ∈ order ↔ id < spec.tasks.length := fun id => by
    rw [topo.perm.mem_iff, List.mem_range, BuildSpec.graph, List.length_map]
  have nodup : order.Nodup := topo.perm.nodup_iff.mpr List.nodup_range
  obtain ⟨w, ran, found⟩ := foldlM_total (l := order) (f := walkTask H has cache spec)
    (b := ⟨fun _ => {}, lookupCompileKeys cache spec, 0⟩) (P := Found cache spec out)
    (fun {pre id post w} split found => by
      have small : ∀ d ∈ pre, d < spec.tasks.length := fun d hd => (member d).mp (by simp [split, hd])
      have task := List.getElem?_eq_getElem ((member id).mp (by simp [split]))
      refine found.visit known task ?_ (fun d hd => ?_) small
      · rw [split, List.nodup_append] at nodup
        exact fun h => nodup.2.2 id h id (by simp) rfl
      · refine topo.before pre id post split d ?_
        simpa [depsOf, BuildSpec.graph, task, TaskSpec.depIds] using hd)
    ⟨rfl, by simp, fun _ _ => lookupCompileKeys_some, fun key output hit => Option.isSome_iff_exists.mpr ⟨output, hit⟩⟩
  refine ⟨w, ran, ?_, fun id small => found.rows id ((member id).mpr small)⟩
  rw [found.cached, topo.perm.length_eq, List.length_range, BuildSpec.graph, List.length_map]

end Walk

/-! ### Keys and their outputs -/

/-- The cache and the finished tasks have, for every key, the output that `digest` gives. -/
structure Answers (digest : Str → Str) (db : Db) : Prop where
  cache : ∀ row ∈ db.cache, row.output = digest row.key
  rows : ∀ t ∈ db.tasks, t.state.finished = true → t.output = some (digest (t.key.getD []))

/-- So has what a statement carries. -/
def Stmt.Answers (digest : Str → Str) (db : Db) : Stmt → Prop
  | .complete r _ => ∀ t, db.task? r.taskUid = some t → t.state.open = true → r.output = digest (t.key.getD [])
  | .cachePut _ _ key output _ | .markCached _ _ key output => output = digest key
  | _ => True

/-- In the middle of a transaction. -/
structure AnswersMid (digest : Str → Str) (c : Cfg) : Prop where
  answers : Answers digest c.db
  carried : ∀ s ∈ c.stack, s.Answers digest c.db

section Answers

variable {H : Sha256} {o : Options} {digest : Str → Str} {db com : Db} {c : Cfg} {s : Stmt} {rest : List Stmt}

theorem Answers.cached (answers : Answers digest db) {key : Str} {row : CacheRow}
    (found : db.cached? key = some row) : row.output = digest key := by
  have here : row.key = key := by simpa using List.find?_some found
  rw [← here]
  exact answers.cache row (List.mem_of_find?_eq_some found)

/-- The row that a statement finishes. -/
theorem exec_answers (answers : Answers digest db) (carried : s.Answers digest db) {row : TaskRow}
    (wrote : (exec H o db s).write = some (.task row)) (done : row.state.finished = true) :
    row.output = some (digest (row.key.getD [])) := by
  obtain ⟨t, ht, next, -, rewrites⟩ := exec_rewrites wrote
  cases rewrites with
  | complete found isOpen => exact congrArg some (carried t found isOpen)
  | retry =>
    rw [requeue_unfinished] at done
    cases done
  | fail | markReady => cases done
  | countDown => exact answers.rows t ht done
  | markCached => exact congrArg some carried

/-- The cache row that a statement writes. -/
theorem exec_answers_cache (answers : Answers digest db) (carried : s.Answers digest db) {row : CacheRow}
    (wrote : (exec H o db s).write = some (.cache row)) : row.output = digest row.key := by
  cases exec_caches wrote with
  | put => exact carried
  | @hit _ _ _ _ row found => exact answers.cache row (mem_of_cached? found).1

/-- What follows a statement. -/
theorem next_answers (answers : Answers digest db) (carried : s.Answers digest db) :
    ∀ n ∈ (exec H o db s).next, n.Answers digest ((exec H o db s).db db) := by
  intro n member
  rcases exec_hands member with plain | hands
  · cases n with
    | complete | cachePut | markCached => cases plain
    | _ => trivial
  · cases hands with
    | put found isOpen => exact carried _ found isOpen
    | @mark _ _ _ _ row found => exact answers.cached found

theorem AnswersMid.exec (f : AnswersMid digest c) (m : Mid H com c) (top : c.stack = s :: rest) :
    AnswersMid digest (c.after (exec H o c.db s) rest) := by
  have carried := f.carried s (by simp [top])
  refine ⟨⟨fun row hr => ?_, fun t ht done => ?_⟩, fun n hn => ?_⟩
  · rcases write : (DistCompile.exec H o c.db s).write with _ | r | r | r
    · rw [Cfg.after, Outcome.db, write] at hr
      exact f.answers.cache row hr
    · rw [Cfg.after, Outcome.db, write] at hr
      exact f.answers.cache row hr
    · rw [Cfg.after, Outcome.db, write] at hr
      exact f.answers.cache row hr
    · rw [Cfg.after, Outcome.db, write] at hr
      rcases Db.mem_apply_cache hr with rfl | old
      · exact exec_answers_cache f.answers carried write
      · exact f.answers.cache row old
  · rcases write : (DistCompile.exec H o c.db s).write with _ | r | r | r
    · rw [Cfg.after, Outcome.db, write] at ht
      exact f.answers.rows t ht done
    · rw [Cfg.after, Outcome.db, write] at ht
      obtain ⟨u, hu, rfl⟩ := List.mem_map.mp ht
      split at done
      · rename_i here
        rw [if_pos here]
        exact exec_answers f.answers carried write done
      · rename_i here
        rw [if_neg here]
        exact f.answers.rows u hu done
    · rw [Cfg.after, Outcome.db, write] at ht
      exact f.answers.rows t ht done
    · rw [Cfg.after, Outcome.db, write, Option.elim_some, c.db.apply_cache_tasks r] at ht
      exact f.answers.rows t ht done
  · rcases List.mem_append.mp hn with next | later
    · exact next_answers f.answers carried n next
    · have loop := m.rest_loops top n later
      cases n with
      | lockRow uid => trivial
      | countDown build id uid => trivial
      | _ => cases loop

end Answers

/-! ### Builds that are done -/

/-- A build that is done has only finished tasks. -/
def Db.Complete (db : Db) : Prop :=
  ∀ b ∈ db.builds, b.state = .done → ∀ t ∈ db.tasks, t.buildId = b.id → t.state.finished = true

section Complete

variable {H : Sha256} {o : Options} {db db' com : Db} {c : Cfg} {s : Stmt} {rest : List Stmt}

theorem Db.Grows.all_finished (g : Db.Grows db db') (k : db.Keyed) {build : Nat}
    (all : ∀ t ∈ db.tasks, t.buildId = build → t.state.finished = true) :
    ∀ t ∈ db'.tasks, t.buildId = build → t.state.finished = true := by
  rintro u hu rfl
  by_contra unfinished
  obtain ⟨t, ht, slot, open_⟩ := g.unfinished k ⟨u, hu, rfl, by simpa using unfinished⟩
  rw [all t ht (congrArg Prod.fst slot)] at open_
  cases open_

/-- A statement closes a build as done only when its count found nothing left. -/
theorem Db.Complete.exec (complete : c.db.Complete) (due : ∀ s ∈ c.stack, Sessions.Due c.db s)
    (m : Mid H com c) (base : Consistent H com) (top : c.stack = s :: rest) :
    ((exec H o c.db s).db c.db).Complete ∧
      ∀ n ∈ (exec H o c.db s).next ++ rest, Sessions.Due ((exec H o c.db s).db c.db) n := by
  have g := m.exec_grows base o top
  have k := m.keyed base.keyed
  constructor
  · intro b hb done
    rcases mem_exec_builds hb with ⟨old, -⟩ | written
    · exact g.all_finished k (complete b old done)
    · obtain ⟨old, -, -, id, ⟨-, failed⟩ | ⟨rfl, -⟩⟩ := exec_build written
      · rw [failed] at done
        cases done
      · have counted : Sessions.Due c.db (.buildDone old.id) := due _ (by simp [top])
        rw [id]
        exact g.all_finished k counted
  · intro n hn
    rcases List.mem_append.mp hn with next | later
    · exact Sessions.next_due n next
    · have loop := m.rest_loops top n later
      cases n with
      | lockRow uid => trivial
      | countDown build id uid => trivial
      | _ => cases loop

end Complete

/-! ### Every call -/

/-- An accepted result of a task is the one that belongs to its key. -/
def Call.Determined (digest : Str → Str) (c : Coordinator) : Call → Prop
  | .completeTask r _ accepted => accepted = true → r.ok = true →
      ∀ t ∈ c.db.tasks, t.uid = r.taskUid → r.output = digest (t.key.getD [])
  | _ => True

/-- What holds between the calls. -/
structure Repeatable (digest : Str → Str) (db : Db) : Prop where
  answers : Answers digest db
  complete : db.Complete

section Calls

variable {H : Sha256} {o : Options} {digest : Str → Str} {db : Db}

/-- A transaction that starts with one statement. -/
theorem Repeatable.run (r : Repeatable digest db) (base : Consistent H db) {s : Stmt}
    (start : Mid H db ⟨db, [s], []⟩) (carried : s.Answers digest db) (due : Sessions.Due db s) {fuel : Nat} {c : Cfg}
    (ran : DistCompile.run H o fuel ⟨db, [s], []⟩ = some c) : Repeatable digest c.db := by
  obtain ⟨⟨-, last, complete, -⟩, -⟩ := run_induction
    (P := fun c => Mid H db c ∧ AnswersMid digest c ∧ c.db.Complete ∧ ∀ s ∈ c.stack, Sessions.Due c.db s)
    (fun ⟨m, f, complete, due⟩ top => ⟨m.exec base o top, f.exec m top, complete.exec due m base top⟩) ran
    ⟨start, ⟨r.answers, by simpa using carried⟩, r.complete, by simpa using due⟩
  exact ⟨last.answers, complete⟩

theorem Repeatable.maybeFinish (r : Repeatable digest db) (base : Consistent H db) (build : Nat) :
    Repeatable digest (db.maybeFinish H o build) :=
  maybeFinish_induction (P := Repeatable digest) r
    (r.run base (Mid.start base (s := .progress build) trivial rfl rfl) trivial trivial)

theorem Repeatable.relabel (r : Repeatable digest db) {f : TaskRow → TaskRow}
    (rows : ∀ t ∈ db.tasks, Relabel t (f t)) : Repeatable digest { db with tasks := db.tasks.map f } := by
  refine ⟨⟨r.answers.cache, fun u hu done => ?_⟩, fun b hb done u hu build => ?_⟩
  · obtain ⟨t, ht, rfl⟩ := List.mem_map.mp hu
    rcases (rows t ht).state with same | ⟨-, -, unfinished⟩
    · rw [same] at done ⊢
      exact r.answers.rows t ht done
    · rw [unfinished] at done
      cases done
  · obtain ⟨t, ht, rfl⟩ := List.mem_map.mp hu
    rw [(rows t ht).finished]
    exact r.complete b hb done t ht ((build_of_fixed (rows t ht).fixed).symm.trans build)

theorem Repeatable.insertRows {spec : BuildSpec} {order : List Nat} {rank part : Nat → Int} {w : Walk}
    (r : Repeatable digest db) (base : Consistent H db) (noticed : Noticed db)
    (good : badCompileTask spec = none) (topo : IsTopoOrder spec.graph order)
    (walked : Walked H db.outputs spec order w) : Repeatable digest (insertRows db spec rank part w) := by
  refine ⟨⟨fun row hr => ?_, fun t ht done => ?_⟩, fun b hb done t ht build => ?_⟩
  · obtain ⟨old, hold, rfl⟩ := List.mem_map.mp hr
    split
    · exact r.answers.cache old hold
    · exact r.answers.cache old hold
  · rcases List.mem_append.mp ht with old | new
    · exact r.answers.rows t old done
    · obtain ⟨id, ts, found, rfl⟩ := mem_insertedTasks.mp new
      rcases (settled_of_walked topo walked found).state with ⟨-, zero, hit⟩ | ⟨state, -⟩ | ⟨state, -⟩
      · obtain ⟨row, cached, same⟩ := Option.map_eq_some_iff.mp hit
        simp only [insertedTask, emptyIsNull, if_neg (walked_key good topo walked found zero),
          if_neg (validHash_ne_nil (outputs_valid base _ _ hit)), Option.getD_some]
        rw [← same, r.answers.cached cached]
      · simp only [insertedTask, state] at done
        cases done
      · simp only [insertedTask, state] at done
        cases done
  · rcases List.mem_append.mp hb with old | new
    · rcases List.mem_append.mp ht with before | inserted
      · exact r.complete b old done t before build
      · obtain ⟨id, ts, -, rfl⟩ := mem_insertedTasks.mp inserted
        have := noticed.fresh b old
        have : db.nextBuild = b.id := build
        omega
    · obtain rfl := List.mem_singleton.mp new
      cases done

theorem Repeatable.submitBuild {has : Str → Bool} {live : Int} {spec : BuildSpec} (r : Repeatable digest db)
    (base : Consistent H db) (noticed : Noticed db) (flat : spec.Flat) :
    Repeatable digest (submitBuild H o has db live spec).1 := by
  rcases ran : DistCompile.submitBuild H o has db live spec with ⟨db', e | ⟨build, cached⟩⟩
  · obtain ⟨builds, uids, rfl⟩ := submitBuild_error ran
    exact ⟨⟨r.answers.cache, r.answers.rows⟩, r.complete⟩
  · obtain ⟨good, -, order, rank, part, w, accepted, walk, unique, rfl⟩ := submitBuild_ok ran
    have topo := topoOrder_ok accepted
    have walked := walk_walked topo walk
    exact (r.insertRows base noticed good topo walked).maybeFinish (base.insertRows (flat.supplies _) topo walked unique) _

theorem Repeatable.reap (r : Repeatable digest db) (base : Consistent H db) (now : Int) :
    Repeatable digest (reap H o db now) := by
  have rows := fun t (_ : t ∈ db.tasks) => reapRow_relabel o now t
  have both : Consistent H (DistCompile.reap H o db now) ∧ Repeatable digest (DistCompile.reap H o db now) :=
    reap_induction (P := fun db => Consistent H db ∧ Repeatable digest db)
      (fun build holds => ⟨(holds.1.maybeFinish build).2, holds.2.maybeFinish holds.1 build⟩)
      ⟨base.relabel rows, r.relabel rows⟩
  exact both.2

/-- The first statement of a completion. -/
theorem completeTask_answers {c : Coordinator} {r : TaskResult} {now : Int} {s : Stmt}
    (stack : completeTask c.blobs.has c.blobs.sizeOf now r = [s])
    (determined : Call.Determined digest c (.completeTask r now (accepts c.db [s]))) :
    s.Answers digest c.db ∧ Sessions.Due c.db s := by
  unfold completeTask at stack
  split_ifs at stack with missing ok retryable
  · cases stack
    exact ⟨trivial, trivial⟩
  · cases stack
    refine ⟨fun t found isOpen => ?_, trivial⟩
    have accepted : accepts c.db [.complete r (c.blobs.sizeOf r.output)] = true := by
      rw [accepts, found]
      exact isOpen
    have uid : t.uid = r.taskUid := by simpa using List.find?_some found
    exact determined accepted ok t (List.mem_of_find?_eq_some found) uid
  · cases stack
    exact ⟨trivial, trivial⟩
  · cases stack
    exact ⟨trivial, trivial⟩

theorem Step.repeatable {c c' : Coordinator} {call : Call} (step : Step H o c call c') (flat : call.Flat)
    (determined : call.Determined digest c) (base : Consistent H c.db) (noticed : Noticed c.db)
    (r : Repeatable digest c.db) : Repeatable digest c'.db := by
  cases step with
  | putBlob _ => exact r
  | putRefused _ => exact r
  | submitBuild => exact r.submitBuild base noticed flat
  | claimTask picked _ | claimCrash picked _ =>
    obtain ⟨ht, ready, -⟩ := mem_of_picked picked
    exact r.relabel fun _ hu => base.keyed.of_written ht rfl (claimedRow_relabel ready) .refl hu
  | claimNothing _ => exact r
  | @completeTask result now _ _ ran =>
    obtain ⟨s, stack, start⟩ := completeTask_start base c.blobs now result
    rw [stack] at ran determined
    obtain ⟨carried, due⟩ := completeTask_answers stack determined
    exact r.run base start carried due ran
  | heartbeat => exact r.relabel fun t _ => heartbeatRow_relabel o _ _ t
  | reap => exact r.reap base _

end Calls

section Runs

variable {H : Sha256} {o : Options} {digest : Str → Str} {calls later : List Call} {c c' : Coordinator}

theorem Runs.repeatable (run : Runs (Meets (Step H o) fun c call => call.Flat ∧ call.Determined digest c) {} calls c) :
    Repeatable digest c.db := by
  induction run with
  | nil => exact ⟨⟨by simp, by simp⟩, by simp [Db.Complete]⟩
  | snoc front last ih =>
    obtain ⟨base, noticed⟩ := Runs.noticed (front.mono fun step => ⟨step.1.1, step.2⟩)
    exact last.2.repeatable last.1.1 last.1.2 base noticed ih

/-- The call that made a build. -/
theorem specOf_split {build : Nat} {spec : BuildSpec} (found : specOf calls build = some spec) :
    ∃ before live cached after, calls = before ++ .submitBuild spec live (.ok (build, cached)) :: after := by
  obtain ⟨call, member, here⟩ := List.exists_of_findSome?_eq_some found
  obtain ⟨before, after, split⟩ := List.append_of_mem member
  split at here
  · rename_i spec' live b cached
    split at here
    · rename_i same
      cases here
      exact ⟨before, live, cached, after, same ▸ split⟩
    · cases here
  · cases here

theorem Step.submitted {spec : BuildSpec} {live : Int} {reply : Except Status (Nat × Nat)}
    (step : Step H o c (.submitBuild spec live reply) c') :
    DistCompile.submitBuild H o c.blobs.has c.db live spec = (c'.db, reply) := by
  cases step with
  | submitBuild => rfl

/-- No call removes a task. -/
theorem Step.keeps_slot {call : Call} (step : Step H o c call c') (flat : call.Flat) (base : Consistent H c.db)
    {s : Nat × Nat} (present : ∃ t ∈ c.db.tasks, t.slot = s) : ∃ t ∈ c'.db.tasks, t.slot = s := by
  have grown : ∀ {db db' : Db}, Db.Grows db db' → (∃ t ∈ db.tasks, t.slot = s) → ∃ t ∈ db'.tasks, t.slot = s := by
    rintro db db' g ⟨t, ht, slot⟩
    obtain ⟨u, hu, same⟩ := Db.mem_of_fixed g.fixed ht
    exact ⟨u, hu, (slot_of_fixed same).trans slot⟩
  by_cases submits : ∃ spec live reply, call = .submitBuild spec live reply
  · obtain ⟨spec, live, reply, rfl⟩ := submits
    rcases ran : DistCompile.submitBuild H o c.blobs.has c.db live spec with ⟨db', e | ⟨build, cached⟩⟩
    · obtain ⟨builds, uids, rfl⟩ := submitBuild_error ran
      have after : _ = c'.db := congrArg Prod.fst (ran.symm.trans step.submitted)
      rw [← after]
      exact present
    · obtain ⟨-, -, order, rank, part, w, accepted, walk, unique, rfl⟩ := submitBuild_ok ran
      have after : _ = c'.db := congrArg Prod.fst (ran.symm.trans step.submitted)
      rw [← after]
      have topo := topoOrder_ok accepted
      have rows : Consistent H (insertRows c.db spec rank part w) :=
        base.insertRows (flat.supplies _) topo (walk_walked topo walk) unique
      obtain ⟨t, ht, slot⟩ := present
      exact grown (rows.maybeFinish _).1 ⟨t, List.mem_append_left _ ht, slot⟩
  · exact grown (step.grows base fun spec live reply same => submits ⟨spec, live, reply, same⟩) present

/-- What `submit_build` asks of a spec, whatever the tables are. -/
structure BuildSpec.Accepted (spec : BuildSpec) : Prop where
  good : badCompileTask spec = none
  kinds : ∀ ts ∈ spec.tasks, smallint ts.kind
  deps : ∀ ts ∈ spec.tasks, ts.depIds.Nodup
  order : ∃ order, topoOrder spec.graph = .ok order

/-- The spec of a build was accepted, and all its tasks have rows. -/
theorem Runs.specOf_accepted (run : Runs (Meets (Step H o) fun _ call => call.Flat) {} calls c) {build : Nat}
    {spec : BuildSpec} (found : specOf calls build = some spec) :
    spec.Flat ∧ spec.Accepted ∧ ∀ id < spec.tasks.length, ∃ t ∈ c.db.tasks, t.slot = (build, id) := by
  obtain ⟨before, live, cached, after, rfl⟩ := specOf_split found
  obtain ⟨a, b, first, ⟨flat, step⟩, rest⟩ := run.split_at
  have base := Runs.consistent first
  have ran := step.submitted
  have accepts : acceptable H spec a = true := submitBuild_accepts.mp ⟨_, congrArg Prod.snd ran⟩
  obtain ⟨good, rfl, order, rank, part, w, accepted, walk, unique, db⟩ := submitBuild_ok ran
  refine ⟨flat, ?_, fun id small => ?_⟩
  · simp only [acceptable, Bool.and_eq_true, List.all_eq_true, decide_eq_true_eq] at accepts
    exact ⟨good, accepts.1.1.2, accepts.1.2, order, accepted⟩
  · have topo := topoOrder_ok accepted
    have rows : Consistent H (insertRows a.db spec rank part w) :=
      base.insertRows (flat.supplies _) topo (walk_walked topo walk) unique
    have inserted : insertedTask spec rank part a.db.nextBuild (a.db.nextUid + id) w.row spec.tasks[id] id ∈
        (insertRows a.db spec rank part w).tasks := mem_insertRows (List.getElem?_eq_getElem small)
    obtain ⟨u, hu, same⟩ := Db.mem_of_fixed (rows.maybeFinish (o := o) a.db.nextBuild).1.fixed inserted
    have start : ∃ t ∈ b.db.tasks, t.slot = (a.db.nextBuild, id) :=
      ⟨u, db ▸ hu, slot_of_fixed same⟩
    exact (rest.invariant (P := fun c => Consistent H c.db ∧ ∃ t ∈ c.db.tasks, t.slot = (a.db.nextBuild, id))
      ⟨step.consistent flat base, start⟩
      fun step holds => ⟨step.2.consistent step.1 holds.1, step.2.keeps_slot step.1 holds.1 holds.2⟩).2

/-- The ids in use are below the next one. -/
structure Db.Below (db : Db) : Prop where
  tasks : ∀ t ∈ db.tasks, t.buildId < db.nextBuild
  builds : ∀ b ∈ db.builds, b.id < db.nextBuild

theorem Db.Below.of_same {db db' : Db} (below : db.Below) (ids : SameIds db db')
    (tasks : ∀ t ∈ db'.tasks, t.buildId < db.nextBuild) : db'.Below := by
  refine ⟨ids.2 ▸ tasks, fun b hb => ?_⟩
  have member := List.mem_map_of_mem (f := BuildRow.id) hb
  rw [ids.1] at member
  obtain ⟨b', hb', same⟩ := List.mem_map.mp member
  rw [ids.2, ← same]
  exact below.builds b' hb'

theorem Db.Below.insertRows {db : Db} (below : db.Below) (spec : BuildSpec) (rank part : Nat → Int) (w : Walk) :
    (insertRows db spec rank part w).Below := by
  refine ⟨fun t ht => ?_, fun b hb => ?_⟩
  · rcases List.mem_append.mp ht with old | new
    · exact Nat.lt_succ_of_lt (below.tasks t old)
    · obtain ⟨id, ts, -, rfl⟩ := mem_insertedTasks.mp new
      exact Nat.lt_succ_self _
  · rcases List.mem_append.mp hb with old | new
    · exact Nat.lt_succ_of_lt (below.builds b old)
    · rw [List.mem_singleton.mp new]
      exact Nat.lt_succ_self _

theorem Db.Below.maybeFinish {db : Db} (below : db.Below) (build : Nat) : (db.maybeFinish H o build).Below :=
  below.of_same (maybeFinish_sameIds build) (by rw [maybeFinish_tasks]; exact below.tasks)

/-- No update of a row changes the build. -/
theorem Rewrites.buildId {db : Db} {s : Stmt} {t row : TaskRow} {next : List Stmt} (rewrites : Rewrites o db s t row next) :
    row.buildId = t.buildId := by
  cases rewrites <;> rfl

theorem Step.below (step : Step H o c call c') (below : c.db.Below) : c'.db.Below := by
  have map : ∀ {f : TaskRow → TaskRow}, (∀ t, (f t).buildId = t.buildId) →
      Db.Below { c.db with tasks := c.db.tasks.map f } := by
    intro f same
    refine ⟨fun u hu => ?_, below.builds⟩
    obtain ⟨t, ht, rfl⟩ := List.mem_map.mp hu
    rw [same]
    exact below.tasks t ht
  cases step with
  | putBlob _ => exact below
  | putRefused _ => exact below
  | @submitBuild spec live =>
    rcases ran : DistCompile.submitBuild H o c.blobs.has c.db live spec with ⟨db', e | ⟨build, cached⟩⟩
    · obtain ⟨builds, uids, rfl⟩ := submitBuild_error ran
      exact ⟨fun t ht => Nat.lt_add_right _ (below.tasks t ht), fun b hb => Nat.lt_add_right _ (below.builds b hb)⟩
    · obtain ⟨-, -, order, rank, part, w, -, -, -, rfl⟩ := submitBuild_ok ran
      exact (below.insertRows spec rank part w).maybeFinish _
  | claimTask picked _ | claimCrash picked _ =>
    refine ⟨fun u hu => ?_, below.builds⟩
    obtain ⟨t, ht, rfl⟩ := List.mem_map.mp hu
    split
    · have old := below.tasks _ (mem_of_picked picked).1
      exact old
    · exact below.tasks t ht
  | claimNothing _ => exact below
  | completeTask ran =>
    exact below.of_same (run_sameIds ran)
      (forall_run (P := fun t => t.buildId < c.db.nextBuild) (fun rewrites old => rewrites.buildId ▸ old) below.tasks ran)
  | heartbeat => exact map fun t => build_of_fixed (heartbeatRow_relabel o _ _ t).fixed
  | reap =>
    exact reap_induction (P := Db.Below) (fun build below => below.maybeFinish build)
      (map fun t => build_of_fixed (reapRow_relabel o _ t).fixed)

theorem Runs.below (run : Runs (Step H o) {} calls c) : c.db.Below :=
  run.invariant (P := fun c => c.db.Below) ⟨by simp, by simp⟩ fun step below => step.below below

theorem Runs.remembers (run : Runs (Step H o) c later c') : c.db.Remembers c'.db :=
  run.invariant (P := fun d => c.db.Remembers d.db) (.refl _) fun step kept => kept.trans step.remembers

end Runs

/-! ### The rebuild -/

theorem Known.mono {H : Sha256} {cache cache' : Str → Option Str} {spec : BuildSpec} {out : Nat → Str}
    (known : Known H cache spec out) (kept : ∀ key output, cache key = some output → cache' key = some output) :
    Known H cache' spec out where
  filled := known.filled
  compile id ts found compile :=
    ⟨(known.compile id ts found compile).1, kept _ _ (known.compile id ts found compile).2⟩
  action id ts found action := kept _ _ (known.action id ts found action)

/-- The output of task `id` of the build. -/
def Db.outputOf (db : Db) (build id : Nat) : Str := ((db.taskAt? build id).bind (·.output)).getD []

section Rebuild

variable {H : Sha256} {o : Options} {digest : Str → Str} {calls : List Call} {c : Coordinator}

theorem Consistent.outputOf {db : Db} (base : Consistent H db) {t : TaskRow} (ht : t ∈ db.tasks)
    (done : t.state.finished = true) :
    t.output = some (db.outputOf t.buildId t.id) ∧ validHash (db.outputOf t.buildId t.id) = true := by
  obtain ⟨text, stored, valid⟩ := base.output t ht done
  have here : db.outputOf t.buildId t.id = text := by
    rw [Db.outputOf, (Db.taskAt?_eq_some base.keyed).mpr ⟨ht, rfl⟩, Option.bind_some, stored]
    rfl
  rw [here]
  exact ⟨stored, valid⟩

/-- What a finished task has, the cache has for its key. -/
theorem Repeatable.finished_known {has : Str → Bool} {db : Db} (r : Repeatable digest db)
    (referring : Referring has db) {t : TaskRow} (ht : t ∈ db.tasks) (done : t.state.finished = true) :
    db.outputs (t.key.getD []) = t.output := by
  obtain ⟨output, hit⟩ := Option.isSome_iff_exists.mp (referring.known t ht done)
  obtain ⟨row, cached, rfl⟩ := Option.map_eq_some_iff.mp hit
  rw [hit, r.answers.rows t ht done, r.answers.cached cached]

/-- After a build of the spec all its outputs are known. -/
theorem Repeatable.known {has : Str → Bool} {db : Db} (r : Repeatable digest db) (base : Consistent H db)
    (referring : Referring has db) (placed : ∀ t ∈ db.tasks, Placed (specOf calls) db t) {build : Nat}
    {spec : BuildSpec} (found : specOf calls build = some spec) (accepted : spec.Accepted)
    (rows : ∀ id < spec.tasks.length, ∃ t ∈ db.tasks, t.slot = (build, id))
    (finished : ∀ t ∈ db.tasks, t.buildId = build → t.state.finished = true) :
    Known H db.outputs spec (db.outputOf build) := by
  have row : ∀ id ts, spec.tasks[id]? = some ts → ∃ t ∈ db.tasks, t.slot = (build, id) ∧ Built spec ts t ∧
      db.inputIds t.slot = ts.depIds ∧ db.outputs (t.key.getD []) = some (db.outputOf build id) := by
    intro id ts task
    obtain ⟨t, ht, slot⟩ := rows id (List.getElem?_eq_some_iff.mp task).1
    obtain ⟨rfl, rfl⟩ := Prod.mk.inj slot
    obtain ⟨spec', ts', hb, task', built, inputs⟩ := placed t ht
    rw [found] at hb
    cases hb
    rw [task] at task'
    cases task'
    refine ⟨t, ht, rfl, built, inputs, ?_⟩
    rw [r.finished_known referring ht (finished t ht rfl), (base.outputOf ht (finished t ht rfl)).1]
  constructor
  · intro id small
    obtain ⟨t, ht, slot⟩ := rows id small
    obtain ⟨rfl, rfl⟩ := Prod.mk.inj slot
    exact validHash_ne_nil (base.outputOf ht (finished t ht rfl)).2
  · intro id ts task compile
    obtain ⟨t, ht, -, built, -, hit⟩ := row id ts task
    rw [(built.compile compile).1] at hit
    exact ⟨validHash_ne_nil (compileTask_valid accepted.good (List.mem_of_getElem? task) compile).1, hit⟩
  · intro id ts task action
    obtain ⟨t, ht, slot, built, inputs, hit⟩ := row id ts task
    obtain ⟨rfl, rfl⟩ := Prod.mk.inj slot
    have settled : t.state ≠ .waiting := by
      intro waits
      have done := finished t ht rfl
      rw [waits] at done
      cases done
    have key := (base.columns t ht settled (built.kind ▸ action)).key
    have digests : db.inputDigests t.slot = ts.depIds.map (db.outputOf t.buildId) :=
      map_inputsOf placed base.keyed base.linked found inputs _ _ fun u hu same _ _ _ _ => by
        rw [(base.outputOf hu (finished u hu same)).1, same]
        rfl
    rw [key, Db.keyOf, built.kind, built.toolchain, built.args, digests,
      inputNames_eq placed base.keyed base.linked found inputs] at hit
    exact hit

/-- A submit of a spec whose outputs are all known: the new build has all its tasks cached, and is
done at once. -/
theorem submitBuild_known {db : Db} {spec : BuildSpec} {out : Nat → Str} (has : Str → Bool) (live : Int)
    (below : db.Below) (accepted : spec.Accepted) (known : Known H db.outputs spec out) :
    ∃ db', submitBuild H o has db live spec = (db', .ok (db.nextBuild, spec.tasks.length)) ∧
      (∀ id < spec.tasks.length, ∃ u ∈ db'.tasks, u.slot = (db.nextBuild, id)) ∧
      (∀ u ∈ db'.tasks, u.buildId = db.nextBuild →
        u.id < spec.tasks.length ∧ u.state = .cached ∧ u.output = some (out u.id)) ∧
      ∃ b ∈ db'.builds, b.id = db.nextBuild ∧ b.state = .done := by
  obtain ⟨order, sorted⟩ := accepted.order
  obtain ⟨w, walk, count, rows⟩ := walk_finds has (topoOrder_ok sorted) known
  have unique := (insertedDeps_nodup spec db.nextBuild).mpr accepted.deps
  generalize insertion : insertRows db spec (upwardRank spec.graph)
    (partition spec.graph (if 0 < spec.partitions then spec.partitions else live)) w = mid
  have cached : ∀ u ∈ mid.tasks, u.buildId = db.nextBuild →
      u.id < spec.tasks.length ∧ u.state = .cached ∧ u.output = some (out u.id) := by
    intro u hu build
    rw [← insertion] at hu
    rcases List.mem_append.mp hu with old | new
    · exact absurd build (Nat.ne_of_lt (below.tasks u old))
    · obtain ⟨id, ts, found, rfl⟩ := mem_insertedTasks.mp new
      have small := (List.getElem?_eq_some_iff.mp found).1
      refine ⟨small, (rows id small).1, ?_⟩
      simp only [insertedTask, (rows id small).2, emptyIsNull, if_neg (known.filled id small)]
  have found : mid.build? db.nextBuild = some ⟨db.nextBuild, spec.toolchain, .running, spec.tasks.length⟩ := by
    have none_ : db.builds.find? (fun b => b.id = db.nextBuild) = none :=
      List.find?_eq_none.mpr fun b hb => by simpa using Nat.ne_of_lt (below.builds b hb)
    rw [← insertion, Db.build?, insertRows, List.find?_append, none_]
    simp
  have closed : mid.maybeFinish H o db.nextBuild = _ := maybeFinish_closes found rfl fun u hu build => by
    rw [(cached u hu build).2.1]
    rfl
  have ran : submitBuild H o has db live spec =
      (mid.maybeFinish H o db.nextBuild, .ok (db.nextBuild, spec.tasks.length)) := by
    rw [submitBuild, accepted.good]
    dsimp only
    rw [sorted]
    dsimp only
    rw [submit, walk]
    dsimp only
    rw [if_neg (not_not.mpr accepted.kinds), if_pos unique, count, insertion]
  refine ⟨_, ran, fun id small => ?_, ?_, ?_⟩
  · rw [maybeFinish_tasks, ← insertion]
    exact ⟨_, mem_insertRows (List.getElem?_eq_getElem small), rfl⟩
  · rw [maybeFinish_tasks]
    exact cached
  · rw [closed]
    exact ⟨_, List.mem_map.mpr ⟨_, List.mem_of_find?_eq_some found, if_pos rfl⟩, rfl, rfl⟩

/-- Whenever a build of a spec is done, and after any further calls: a submit of the same spec
inserts every task as cached, with the output that it has in that build, and the new build is
done when the submit commits. -/
theorem rebuild_does_no_work {later : List Call} {c' : Coordinator}
    (run : Runs (Meets (Step H o) fun c call => call.Flat ∧ call.Determined digest c) {} calls c)
    {build : Nat} {spec : BuildSpec} (found : specOf calls build = some spec)
    (done : ∃ b ∈ c.db.builds, b.id = build ∧ b.state = .done)
    (rest : Runs (Step H o) c later c') (live : Int) :
    ∃ db, submitBuild H o c'.blobs.has c'.db live spec = (db, .ok (c'.db.nextBuild, spec.tasks.length)) ∧
      (∀ id < spec.tasks.length, ∃ u ∈ db.tasks, u.slot = (c'.db.nextBuild, id)) ∧
      (∀ u ∈ db.tasks, u.buildId = c'.db.nextBuild → u.state = .cached ∧
        ∃ t ∈ c.db.tasks, t.slot = (build, u.id) ∧ u.output = t.output ∧ t.output ≠ none) ∧
      ∃ b ∈ db.builds, b.id = c'.db.nextBuild ∧ b.state = .done := by
  have flatRun : Runs (Meets (Step H o) fun _ call => call.Flat) {} calls c :=
    run.mono fun step => ⟨step.1.1, step.2⟩
  obtain ⟨base, referring⟩ := Runs.referring flatRun
  obtain ⟨-, accepted, rows⟩ := Runs.specOf_accepted flatRun found
  have repeatable := Runs.repeatable run
  obtain ⟨b, hb, rfl, state⟩ := done
  have finished := repeatable.complete b hb state
  have known := (repeatable.known base referring (Runs.recorded flatRun).placed found accepted rows finished).mono
    (Runs.remembers rest)
  obtain ⟨db, ran, present, cached, closed⟩ :=
    submitBuild_known (o := o) c'.blobs.has live (Runs.below (run.forget.trans rest)) accepted known
  refine ⟨db, ran, present, fun u hu build => ?_, closed⟩
  obtain ⟨small, state, output⟩ := cached u hu build
  obtain ⟨t, ht, slot⟩ := rows u.id small
  obtain ⟨own, id⟩ := Prod.mk.inj slot
  have before := (base.outputOf ht (finished t ht own)).1
  rw [own, id] at before
  exact ⟨state, t, ht, slot, output.trans before.symm, by simp [before]⟩

end Rebuild

/-- A library of one object, up to its end. -/
def builtRequests : List Request :=
  tidyRequests ++ [.claimTask "w".toList "gcc".toList 0 0 2,
    .completeTask ⟨2, 1, "w".toList, true, false, sampleOutput, [], 5⟩ 0 10]

/-- In the sample every result has the same output. -/
def Call.sampleResult : Call → Bool
  | .completeTask r _ _ => r.output = sampleOutput
  | _ => true

theorem builtRequests_served :
    (serveAll sampleSha {} {} builtRequests).any (fun r =>
      decide ((∀ call ∈ r.1, call.Flat ∧ call.sampleResult = true) ∧ specOf r.1 1 = some sampleSpec ∧
        (∃ b ∈ r.2.db.builds, b.id = 1 ∧ b.state = .done) ∧ r.2.db.nextBuild = 2)) = true := by
  decide +kernel

theorem rebuild_does_no_work_library :
    ∃ calls c db, Runs (Meets (Step sampleSha {}) fun c call =>
        call.Flat ∧ call.Determined (fun _ => sampleOutput) c) {} calls c ∧
      submitBuild sampleSha {} c.blobs.has c.db 1 sampleSpec = (db, .ok (2, 2)) ∧
      ∃ b ∈ db.builds, b.id = 2 ∧ b.state = .done := by
  obtain ⟨⟨calls, c⟩, served, facts⟩ := (Option.any_eq_true ..).mp builtRequests_served
  obtain ⟨all, found, done, next⟩ := of_decide_eq_true facts
  have run : Runs (Meets (Step sampleSha {}) fun c call =>
      call.Flat ∧ call.Determined (fun _ => sampleOutput) c) {} calls c := by
    refine ((serveAll_runs served).meets all).mono fun {a call b} step => ⟨⟨step.1.1, ?_⟩, step.2⟩
    cases call with
    | completeTask r now accepted => exact fun _ _ _ _ _ => of_decide_eq_true step.1.2
    | _ => trivial
  obtain ⟨db, ran, -, -, rebuilt⟩ := rebuild_does_no_work run found done .nil 1
  rw [next] at ran rebuilt
  exact ⟨calls, c, db, run, ran, rebuilt⟩

end DistCompile
