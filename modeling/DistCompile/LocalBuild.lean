import DistCompile.Executions
import DistCompile.InputNames
import DistCompile.LoneWorker
import DistCompile.Outputs
import DistCompile.Polling
import DistCompile.Rebuild

/-!
A distributed build leaves the files of a local one (`build` in `src/dcc.cpp`).

`targetFile` is what one machine makes of a manifest without a coordinator: every source is
compiled from its preprocessed text, every library archives its objects, every binary links its
objects and its libraries. Nothing in it knows of tasks, digests or keys, but for one trace of the
keys: sources with one key have one object, under the name of the first of them.

The graph that `dcc` submits evaluates to these files (`reference_target`), a build that is done
has them as its outputs, and the loop over the outputs downloads them.
-/

namespace DistCompile

open DistCompile.Lib

/-! ### The local build -/

section Local

variable (blob : Str → Str) (tool : Tool) (m : Manifest) (toolchain : Str) (p : Prepared)

end Local

/-! ### What the graph evaluates to -/

section Graph

variable {blob : Str → Str} {tool : Tool} {glob : Str → List Str} {m : Manifest} {toolchain : Str} {p : Prepared}
  {partitions : Int}

end Graph

/-! ### Builds that are done -/

section Complete

variable {H : Sha256} {o : Options} {db : Db} {calls : List Call} {c c' : Coordinator} {call : Call}

/-- A transaction that starts with one statement. -/
theorem Db.Complete.run (complete : db.Complete) (base : Consistent H db) {s : Stmt}
    (start : Mid H db ⟨db, [s], []⟩) (due : Sessions.Due db s) {fuel : Nat} {cfg : Cfg}
    (ran : DistCompile.run H o fuel ⟨db, [s], []⟩ = some cfg) : cfg.db.Complete := by
  obtain ⟨⟨-, complete, -⟩, -⟩ := run_induction
    (P := fun c => Mid H db c ∧ c.db.Complete ∧ ∀ s ∈ c.stack, Sessions.Due c.db s)
    (fun ⟨m, complete, due⟩ top => ⟨m.exec base o top, complete.exec due m base top⟩) ran
    ⟨start, complete, by simpa using due⟩
  exact complete

theorem Db.Complete.maybeFinish (complete : db.Complete) (base : Consistent H db) (build : Nat) :
    (db.maybeFinish H o build).Complete :=
  maybeFinish_induction (P := Db.Complete) complete
    (complete.run base (Mid.start base (s := .progress build) trivial rfl rfl) trivial)

theorem Db.Complete.relabel (complete : db.Complete) {f : TaskRow → TaskRow}
    (rows : ∀ t ∈ db.tasks, Relabel t (f t)) : Db.Complete { db with tasks := db.tasks.map f } := by
  intro b hb done u hu build
  obtain ⟨t, ht, rfl⟩ := List.mem_map.mp hu
  rw [(rows t ht).finished]
  exact complete b hb done t ht ((build_of_fixed (rows t ht).fixed).symm.trans build)

/-- The rows of a new build are not those of an older one. -/
theorem Db.Complete.insertRows {spec : BuildSpec} {rank part : Nat → Int} {w : Walk} (complete : db.Complete)
    (noticed : Noticed db) : (insertRows db spec rank part w).Complete := by
  intro b hb done t ht build
  rcases List.mem_append.mp hb with old | new
  · rcases List.mem_append.mp ht with before | inserted
    · exact complete b old done t before build
    · obtain ⟨id, ts, -, rfl⟩ := mem_insertedTasks.mp inserted
      have := noticed.fresh b old
      have : db.nextBuild = b.id := build
      omega
  · obtain rfl := List.mem_singleton.mp new
    cases done

theorem Db.Complete.submitBuild {has : Str → Bool} {live : Int} {spec : BuildSpec} (complete : db.Complete)
    (base : Consistent H db) (noticed : Noticed db) (flat : spec.Flat) :
    (submitBuild H o has db live spec).1.Complete := by
  rcases ran : DistCompile.submitBuild H o has db live spec with ⟨db', e | ⟨build, cached⟩⟩
  · obtain ⟨builds, uids, rfl⟩ := submitBuild_error ran
    exact complete
  · obtain ⟨-, -, order, rank, part, w, accepted, walk, unique, rfl⟩ := submitBuild_ok ran
    have topo := Graph.topoOrder_ok accepted
    have walked := walk_walked topo walk
    exact (complete.insertRows noticed).maybeFinish (base.insertRows (flat.supplies _) topo walked unique) _

theorem Db.Complete.reap (complete : db.Complete) (base : Consistent H db) (now : Int) : (reap H o db now).Complete := by
  have rows := fun t (_ : t ∈ db.tasks) => reapRow_relabel o now t
  have both : Consistent H (DistCompile.reap H o db now) ∧ (DistCompile.reap H o db now).Complete :=
    reap_induction (P := fun db => Consistent H db ∧ db.Complete)
      (fun build holds => ⟨(holds.1.maybeFinish build).2, holds.2.maybeFinish holds.1 build⟩)
      ⟨base.relabel rows, complete.relabel rows⟩
  exact both.2

/-- A completion starts with no result that is due. -/
theorem completeTask_due {blobs : Blobs} {r : TaskResult} {now : Int} {s : Stmt}
    (stack : completeTask blobs.has blobs.sizeOf now r = [s]) : Sessions.Due db s := by
  unfold completeTask at stack
  split_ifs at stack <;> cases stack <;> trivial

theorem Step.complete (step : Step H o c call c') (flat : call.Flat) (base : Consistent H c.db) (noticed : Noticed c.db)
    (complete : c.db.Complete) : c'.db.Complete := by
  cases step with
  | putBlob _ => exact complete
  | putRefused _ => exact complete
  | submitBuild => exact complete.submitBuild base noticed flat
  | claimTask picked _ | claimCrash picked _ =>
    obtain ⟨ht, ready, -⟩ := mem_of_picked picked
    exact complete.relabel fun _ hu => base.keyed.of_written ht rfl (claimedRow_relabel ready) .refl hu
  | claimNothing _ => exact complete
  | @completeTask r now _ _ ran =>
    obtain ⟨s, stack, start⟩ := completeTask_start base c.blobs now r
    rw [stack] at ran
    exact complete.run base start (completeTask_due stack) ran
  | heartbeat => exact complete.relabel fun t _ => heartbeatRow_relabel o _ _ t
  | reap => exact complete.reap base _

/-- In every reachable state a build that is done has only finished tasks. -/
theorem Runs.complete (run : Runs (Meets (Step H o) fun _ call => call.Flat) {} calls c) : c.db.Complete := by
  induction run with
  | nil => simp [Db.Complete]
  | snoc front last ih =>
    obtain ⟨base, noticed⟩ := Runs.noticed front
    exact last.2.complete last.1 base noticed ih

end Complete

/-! ### From the manifest to the files -/

section Whole

variable {H : Sha256} {o : Options} {tool : Tool} {blob : Str → Str} {calls later : List Call} {c c' : Coordinator}
  {call : Call} {events : List WorkEvent} {s s' : Fleet}

/-- A finished row stays as it is. -/
theorem Step.keeps_finished (step : Step H o c call c') (flat : call.Flat) (base : Consistent H c.db) {t : TaskRow}
    (ht : t ∈ c.db.tasks) (done : t.state.finished = true) : t ∈ c'.db.tasks := by
  by_cases submits : ∃ spec live reply, call = .submitBuild spec live reply
  · obtain ⟨spec, live, reply, rfl⟩ := submits
    rcases ran : DistCompile.submitBuild H o c.blobs.has c.db live spec with ⟨db', e | ⟨build, cached⟩⟩
    · obtain ⟨builds, uids, rfl⟩ := submitBuild_error ran
      have after : _ = c'.db := congrArg Prod.fst (ran.symm.trans step.submitted)
      rw [← after]
      exact ht
    · obtain ⟨-, -, order, rank, part, w, accepted, walk, unique, rfl⟩ := submitBuild_ok ran
      have after : _ = c'.db := congrArg Prod.fst (ran.symm.trans step.submitted)
      rw [← after]
      have topo := Graph.topoOrder_ok accepted
      have rows : Consistent H (insertRows c.db spec rank part w) :=
        base.insertRows (flat.supplies _) topo (walk_walked topo walk) unique
      exact (rows.maybeFinish _).1.keeps t (List.mem_append_left _ ht) done
  · exact (step.grows base fun spec live reply same => submits ⟨spec, live, reply, same⟩).keeps t ht done

theorem Runs.keeps_finished (run : Runs (Meets (Step H o) fun _ call => call.Flat) c later c') (base : Consistent H c.db)
    {t : TaskRow} (ht : t ∈ c.db.tasks) (done : t.state.finished = true) : t ∈ c'.db.tasks :=
  (run.invariant (P := fun c => Consistent H c.db ∧ t ∈ c.db.tasks) ⟨base, ht⟩
    fun step holds => ⟨step.2.consistent step.1 holds.1, step.2.keeps_finished step.1 holds.1 holds.2 done⟩).2

/-- The store of the coordinator is right. -/
theorem Step.right (step : Step H o c call c') (right : c.blobs.Right H) : c'.blobs.Right H := by
  cases step with
  | putBlob put =>
    unfold Blobs.put at put
    split_ifs at put
    · cases put
      exact right
    · cases put
      intro f hf
      rcases List.mem_append.mp hf with old | new
      · exact right f old
      · rw [List.mem_singleton.mp new]
  | _ => exact right

/-- The tasks of a submitted build are numbered as in its spec. -/
theorem Runs.numbered (run : Runs (Meets (Step H o) fun _ call => call.Flat) {} calls c) {build : Nat} {spec : BuildSpec}
    (found : specOf calls build = some spec) :
    ((c.db.ofBuild build).map TaskRow.id).Perm (List.range spec.tasks.length) := by
  have base := Runs.consistent run
  have placed := (Runs.recorded run).placed
  obtain ⟨-, -, rows⟩ := Runs.specOf_accepted run found
  refine (List.perm_ext_iff_of_nodup (Sessions.ofBuild_ids base.keyed.slots) List.nodup_range).mpr fun id => ?_
  rw [List.mem_range]
  constructor
  · intro member
    obtain ⟨t, ht, rfl⟩ := List.mem_map.mp member
    obtain ⟨here, own⟩ := List.mem_filter.mp ht
    obtain ⟨spec', ts, is, place, -⟩ := placed t here
    rw [of_decide_eq_true own, found] at is
    cases is
    exact (List.getElem?_eq_some_iff.mp place).1
  · intro small
    obtain ⟨t, ht, slot⟩ := rows id small
    exact List.mem_map.mpr ⟨t, List.mem_filter.mpr ⟨ht, decide_eq_true (congrArg Prod.fst slot)⟩, congrArg Prod.snd slot⟩

/-- When a build is done, `get_build` reports the digests of its reference, and the coordinator
has the blobs. -/
theorem Kept.reports (kept : Kept H blob tool ((calls ++ later).map Call.repaired) c')
    (run : Runs (Meets (Step H o) fun _ call => call.Flat) {} calls c)
    (rest : Runs (Meets (Step H o) fun _ call => call.Flat) c later c') {build : Nat} {spec : BuildSpec}
    (found : specOf calls build = some spec) {counts : Db} {reply : BuildStatus}
    (told : getBuild c.db counts c'.db build true = .ok reply) (done : reply.state = .done) {id : Nat}
    (small : id < spec.tasks.length) :
    (reply.tasks[id]?).map TaskStatus.output = some (refDigest H blob tool spec id) ∧
      c'.blobs.has (refDigest H blob tool spec id) = true := by
  have base := Runs.consistent run
  have whole : specOf (calls ++ later) build = some spec := specOf_more found later
  obtain ⟨b, hb, state, tasks⟩ : ∃ b ∈ c.db.builds, (b.id = build ∧ b.state = .done) ∧
      reply.tasks = c'.db.statuses build := by
    unfold getBuild at told
    split at told
    · cases told
    · rename_i b first
      cases told
      exact ⟨b, List.mem_of_find?_eq_some first, ⟨by simpa using List.find?_some first, done⟩, rfl⟩
  obtain ⟨t, ht, own, rfl, place⟩ := Sessions.status_at (Runs.numbered (run.trans rest) whole) small
  obtain ⟨-, -, rows⟩ := Runs.specOf_accepted run found
  obtain ⟨u, hu, slot⟩ := rows t.id small
  have closed : u.state.finished = true :=
    Runs.complete run b hb state.2 u hu ((congrArg Prod.fst slot).trans state.1.symm)
  have stays : u ∈ c'.db.tasks := Runs.keeps_finished rest base hu closed
  have same : u = t := List.inj_on_of_nodup_map kept.consistent.keyed.slots stays ht
    (slot.trans (Prod.ext own.symm rfl))
  rw [same] at closed
  have output : t.output = some (refDigest H blob tool spec t.id) := by
    refine kept.faithful.outputs t ht closed spec ?_
    rw [specOf_repaired, own]
    exact whole
  obtain ⟨output', is, stored⟩ := ((Runs.referring (run.trans rest)).2.rows t ht).output closed
  rw [output] at is
  cases is
  refine ⟨?_, stored⟩
  rw [tasks, place, Option.map_some, TaskRow.status, output]
  rfl

/-- What the coordinator answers to the download of a task's output. -/
def downloadReply (blobs : Blobs) (digest : Str) : Except Str Str :=
  match blobs.get digest with
  | some data => .ok data
  | none => .error ("no blob ".toList ++ digest)

section Fetch

variable {Place : Type*} [DecidableEq Place] {place : Str → Place} {out : Str} {d : Download} {m : Manifest}
  {toolchain : Str} {p : Prepared}

end Fetch

end Whole

/-! ### A library, built and fetched -/

/-- The files that the tool is run on. -/
def namedInputs (argv : List Str) : List Str := argv.filter fun s => s = "in.i".toList ∨ s = "obj_f.c.o".toList

/-- The command of the assignment names its inputs. -/
def Assignment.plain (a : Assignment) : Bool :=
  match commandLine a with
  | .ok argv => namedInputs argv = a.inputNames
  | .error _ => true

/-- `dcc` asks for what the reply reports, and nothing else happens at the coordinator. -/
def promptDownload (reply : BuildStatus) (blobs : Blobs) : Download where
  reported id := ((reply.tasks[id.toNat]?).map TaskStatus.output).getD []
  getBlob id := downloadReply blobs (((reply.tasks[id.toNat]?).map TaskStatus.output).getD [])
  writes _ := true

end DistCompile
