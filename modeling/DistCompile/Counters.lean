import DistCompile.Submit

/-!
The dependency counters over whole runs.

Claims, heartbeats and the reaper rewrite only rows that are ready or running,
and leave them unfinished (`Relabel`); submits and completions are covered by
`Submit` and `Completion`. So the tables are consistent in every state that
calls can reach, and the counter laws are read off: a counter is the number of
unfinished dependencies, and everything downstream of an unfinished task waits.
-/

namespace DistCompile

open DistCompile.Lib

/-! ### Updates of leases -/

/-- A row rewritten by a claim, a heartbeat or the reaper: only a row that is
ready or running changes, and it stays neither waiting nor finished. -/
structure Relabel (t t' : TaskRow) : Prop where
  fixed : t'.fixed = t.fixed
  pending : t'.pendingDeps = t.pendingDeps
  key : t'.key = t.key
  inputs : t'.inputs = t.inputs
  names : t'.inputNames = t.inputNames
  state : t' = t ∨
    (t.state.open = true ∧ t'.state ≠ .waiting ∧ t'.state.finished = false)

theorem Relabel.refl (t : TaskRow) : Relabel t t := ⟨rfl, rfl, rfl, rfl, rfl, Or.inl rfl⟩

theorem Relabel.finished {t t' : TaskRow} (r : Relabel t t') :
    t'.state.finished = t.state.finished := by
  rcases r.state with rfl | ⟨wasOpen, -, still⟩
  · rfl
  · rw [still, open_unfinished wasOpen]

theorem Relabel.waiting {t t' : TaskRow} (r : Relabel t t') :
    t'.state = .waiting ↔ t.state = .waiting := by
  rcases r.state with rfl | ⟨wasOpen, settled, -⟩
  · rfl
  · exact iff_of_false settled (open_not_waiting wasOpen)

theorem claimedRow_relabel {o : Options} {worker : Str} {now : Int} {t : TaskRow}
    (ready : t.state = .ready) : Relabel t (claimedRow o worker now t) :=
  ⟨rfl, rfl, rfl, rfl, rfl, Or.inr ⟨by rw [ready]; rfl, by simp [claimedRow], rfl⟩⟩

theorem heartbeatRow_relabel (o : Options) (worker : Str) (now : Int) (t : TaskRow) :
    Relabel t (heartbeatRow o worker now t) := by
  unfold heartbeatRow
  split
  · rename_i leased
    simp only [leasedTo, Bool.and_eq_true, decide_eq_true_eq] at leased
    refine ⟨rfl, rfl, rfl, rfl, rfl, Or.inr ⟨?_, ?_, ?_⟩⟩
    · rw [leased.2]; rfl
    · simp [leased.2]
    · simp [leased.2, TaskState.finished]
  · exact .refl t

theorem reapRow_relabel (o : Options) (now : Int) (t : TaskRow) : Relabel t (reapRow o now t) := by
  unfold reapRow
  split
  · exact .refl t
  · rename_i expired
    simp only [leaseExpired, Bool.not_eq_true', Bool.not_eq_false, Bool.and_eq_true,
      decide_eq_true_eq] at expired
    refine ⟨rfl, rfl, rfl, rfl, rfl, Or.inr ⟨?_, ?_, ?_⟩⟩
    · rw [expired.1]; rfl
    · exact requeue_not_waiting o _
    · exact requeue_unfinished o _

section Relabel

variable {H : Sha256} {db : Db} {f : TaskRow → TaskRow}

theorem Db.grows_relabel (rows : ∀ t ∈ db.tasks, Relabel t (f t)) :
    Db.Grows db { db with tasks := db.tasks.map f } where
  deps := rfl
  serials := rfl
  fixed := by
    rw [List.map_map]
    exact List.map_congr_left fun t ht => (rows t ht).fixed
  keeps t ht done := by
    rcases (rows t ht).state with same | ⟨wasOpen, -⟩
    · exact List.mem_map.mpr ⟨t, ht, same⟩
    · rw [open_unfinished wasOpen] at done
      cases done

theorem Db.finished_relabel (rows : ∀ t ∈ db.tasks, Relabel t (f t)) (s : Nat × Nat) :
    { db with tasks := db.tasks.map f }.Finished s ↔ db.Finished s := by
  constructor
  · rintro ⟨u, hu, slot, done⟩
    obtain ⟨t, ht, rfl⟩ := List.mem_map.mp hu
    exact ⟨t, ht, (slot_of_fixed (rows t ht).fixed).symm.trans slot, (rows t ht).finished ▸ done⟩
  · exact (Db.grows_relabel rows).finished

/-- Lease updates keep the tables consistent. -/
theorem Consistent.relabel (base : Consistent H db) (rows : ∀ t ∈ db.tasks, Relabel t (f t)) :
    Consistent H { db with tasks := db.tasks.map f } := by
  have g := Db.grows_relabel rows
  have count : ∀ s, { db with tasks := db.tasks.map f }.unfinishedDeps s = db.unfinishedDeps s := by
    intro s
    rw [Db.unfinishedDeps, Db.unfinishedDeps]
    refine List.countP_congr fun d _ => ?_
    rw [decide_eq_true_iff, decide_eq_true_iff, Db.finished_relabel rows]
  refine ⟨g.keyed base.keyed, g.fresh base.fresh, g.linked base.linked, base.edges, ?_, base.cache,
    ?_, ?_, ?_, ?_⟩
  · intro d hd unfinished u hu target
    obtain ⟨t, ht, rfl⟩ := List.mem_map.mp hu
    rw [kind_of_fixed (rows t ht).fixed]
    exact base.shape d hd (fun done => unfinished (g.finished done)) t ht
      ((slot_of_fixed (rows t ht).fixed).symm.trans target)
  · intro u hu
    obtain ⟨t, ht, rfl⟩ := List.mem_map.mp hu
    rw [(rows t ht).pending, slot_of_fixed (rows t ht).fixed, count]
    exact base.pending t ht
  · intro u hu
    obtain ⟨t, ht, rfl⟩ := List.mem_map.mp hu
    rw [(rows t ht).waiting, (rows t ht).pending]
    exact base.waiting t ht
  · intro u hu done
    obtain ⟨t, ht, rfl⟩ := List.mem_map.mp hu
    rcases (rows t ht).state with same | ⟨-, -, still⟩
    · rw [same] at done ⊢
      exact base.output t ht done
    · rw [still] at done
      cases done
  · intro u hu settled action
    obtain ⟨t, ht, rfl⟩ := List.mem_map.mp hu
    have r := rows t ht
    have notWaiting : t.state ≠ .waiting := fun h => settled (r.waiting.mpr h)
    have counted := base.pending t ht
    have zero : ¬ 0 < t.pendingDeps := fun h => notWaiting ((base.waiting t ht).mpr h)
    have cols := (base.columns t ht notWaiting (kind_of_fixed r.fixed ▸ action)).grow g base.keyed
      (unfinishedDeps_eq_zero.mp (by omega))
    have stillOpen : (f t).state.open = true → t.state.open = true := by
      intro h
      rcases r.state with same | ⟨wasOpen, -⟩
      · rwa [same] at h
      · exact wasOpen
    refine ⟨?_, fun h => ?_, fun h => ?_⟩
    · rw [r.key, keyOf_of_fixed r.fixed]; exact cols.key
    · rw [r.inputs, slot_of_fixed r.fixed]; exact cols.inputs (stillOpen h)
    · rw [r.names, slot_of_fixed r.fixed]; exact cols.names (stillOpen h)

end Relabel

/-! ### Every call -/

/-- The claim query returns a ready row of the table. -/
theorem mem_of_picked {db : Db} {worker toolchain : Str} {part now : Int} {t : TaskRow}
    (picked : Picked (claimCandidates db worker toolchain part now) t) :
    t ∈ db.tasks ∧ t.state = .ready ∧ t.toolchain = toolchain := by
  have member := picked.1
  simp only [claimCandidates] at member
  split at member
  · obtain ⟨ht, claim⟩ := List.mem_filter.mp member
    simp only [claimable, Bool.and_eq_true, decide_eq_true_eq] at claim
    exact ⟨ht, claim.1.1, claim.1.2⟩
  · obtain ⟨ht, claim⟩ := List.mem_filter.mp member
    simp only [claimable, Bool.and_eq_true, decide_eq_true_eq] at claim
    exact ⟨ht, claim.1.1.1, claim.1.1.2⟩

/-- A new version of one row, as an update of all rows. -/
theorem Consistent.relabel_row {H : Sha256} {db : Db} (base : Consistent H db) {t row : TaskRow}
    (ht : t ∈ db.tasks) (r : Relabel t row) : Consistent H (db.apply (.task row)) :=
  base.relabel fun _ hu => base.keyed.of_written ht (uid_of_fixed r.fixed) r .refl hu

/-- The first statement of a completion owes nothing. -/
theorem completeTask_start {H : Sha256} {com : Db} (base : Consistent H com) (blobs : Blobs)
    (now : Int) (r : TaskResult) : ∃ s, completeTask blobs.has blobs.sizeOf now r = [s] ∧
      Mid H com ⟨com, [s], []⟩ := by
  unfold completeTask
  split_ifs with missing ok retryable
  · exact ⟨_, rfl, Mid.start base trivial rfl rfl⟩
  · refine ⟨_, rfl, Mid.start base ?_ rfl rfl⟩
    simp only [ok, Bool.true_and, Bool.not_eq_true', Bool.not_eq_false] at missing
    simp only [Blobs.has, Bool.and_eq_true] at missing
    exact missing.1
  · exact ⟨_, rfl, Mid.start base trivial rfl rfl⟩
  · exact ⟨_, rfl, Mid.start base trivial rfl rfl⟩

/-- A completion run in one go. -/
theorem Consistent.completeTask {H : Sha256} {o : Options} {db : Db} (base : Consistent H db)
    {blobs : Blobs} {now : Int} {r : TaskResult} {fuel : Nat} {c : Cfg}
    (ran : DistCompile.run H o fuel ⟨db, completeTask blobs.has blobs.sizeOf now r, []⟩ = some c) :
    Db.Grows db c.db ∧ Consistent H c.db := by
  obtain ⟨s, stack, start⟩ := completeTask_start base blobs now r
  rw [stack] at ran
  obtain ⟨m, empty⟩ := run_induction (P := Mid H db) (fun m => m.exec base o) ran start
  exact ⟨m.grows, m.done base empty⟩

theorem Consistent.reap {H : Sha256} {o : Options} {db : Db} (base : Consistent H db) (now : Int) :
    Db.Grows db (reap H o db now) ∧ Consistent H (reap H o db now) :=
  have rows := fun t (_ : t ∈ db.tasks) => reapRow_relabel o now t
  reap_induction (P := fun db' => Db.Grows db db' ∧ Consistent H db')
    (fun build ⟨g, consistent⟩ =>
      ⟨g.trans (consistent.maybeFinish build).1, (consistent.maybeFinish build).2⟩)
    ⟨Db.grows_relabel rows, base.relabel rows⟩

theorem Consistent.empty (H : Sha256) : Consistent H {} where
  keyed := ⟨List.nodup_nil, List.nodup_nil⟩
  fresh := by simp [Db.Fresh]
  linked := ⟨by simp, by simp⟩
  edges := by simp
  shape := by simp
  cache := by simp
  pending := by simp
  waiting := by simp
  output := by simp
  columns := by simp

/-- Compile tasks of submitted specs have no dependencies. -/
def Call.Flat : Call → Prop
  | .submitBuild spec _ _ => spec.Flat
  | _ => True

instance : DecidablePred BuildSpec.Flat := fun spec =>
  inferInstanceAs (Decidable (∀ ts ∈ spec.tasks, ts.kind = COMPILE → ts.deps = []))

instance : DecidablePred Call.Flat
  | .submitBuild spec _ _ => inferInstanceAs (Decidable spec.Flat)
  | .putBlob _ _ _ | .claimTask _ _ _ _ _ | .claimCrash _ _ _ _ _ | .completeTask _ _ _ | .heartbeat _ _
  | .reap _ => isTrue trivial

/-- Every call keeps the tables consistent. -/
theorem Step.consistent {H : Sha256} {o : Options} {c c' : Coordinator} {call : Call}
    (step : Step H o c call c') (flat : call.Flat) (base : Consistent H c.db) :
    Consistent H c'.db := by
  cases step with
  | putBlob _ => exact base
  | putRefused _ => exact base
  | submitBuild => exact base.submitBuild flat.supplied
  | claimTask picked _ | claimCrash picked _ =>
    obtain ⟨ht, ready, -⟩ := mem_of_picked picked
    exact base.relabel_row ht (claimedRow_relabel ready)
  | claimNothing _ => exact base
  | completeTask ran => exact (base.completeTask ran).2
  | heartbeat => exact base.relabel fun t _ => heartbeatRow_relabel o _ _ t
  | reap => exact (base.reap _).2

/-- A call that submits nothing adds no rows. -/
theorem Step.grows {H : Sha256} {o : Options} {c c' : Coordinator} {call : Call}
    (step : Step H o c call c') (base : Consistent H c.db)
    (other : ∀ spec live reply, call ≠ .submitBuild spec live reply) : Db.Grows c.db c'.db := by
  cases step with
  | putBlob _ => exact .refl _
  | putRefused _ => exact .refl _
  | submitBuild => exact absurd rfl (other _ _ _)
  | claimTask picked _ | claimCrash picked _ =>
    obtain ⟨ht, ready, -⟩ := mem_of_picked picked
    exact Db.grows_apply_task base.keyed ht (claimedRow_relabel ready).fixed (by rw [ready]; rfl)
  | claimNothing _ => exact .refl _
  | completeTask ran => exact (base.completeTask ran).1
  | heartbeat => exact Db.grows_relabel fun t _ => heartbeatRow_relabel o _ _ t
  | reap => exact (base.reap _).1

/-- The tables are consistent in every state that calls can reach. -/
theorem Runs.consistent {H : Sha256} {o : Options} {calls : List Call} {c : Coordinator}
    (run : Runs (Meets (Step H o) fun _ call => call.Flat) {} calls c) : Consistent H c.db :=
  run.invariant (P := fun c => Consistent H c.db) (Consistent.empty H)
    fun step base => step.2.consistent step.1 base

/-! ### The counter law -/

/-- The task in slot `s` waits directly for the one in slot `u`. -/
def Db.DependsOn (db : Db) (s u : Nat × Nat) : Prop :=
  ∃ d ∈ db.deps, d.target = s ∧ d.source = u

/-- What the counter of task `t` means. -/
structure CounterLaw (db : Db) (t : TaskRow) : Prop where
  counts : t.pendingDeps = db.unfinishedDeps t.slot
  waiting : t.state = .waiting ↔ 0 < t.pendingDeps
  nonneg : 0 ≤ t.pendingDeps
  blocked : t.state = .waiting → ∃ d ∈ db.deps, d.target = t.slot ∧ ¬ db.Finished d.source
  downstream : ∀ u ∈ db.tasks, u.state.finished = false →
    Relation.TransGen db.DependsOn t.slot u.slot → t.state = .waiting

/-- A task with an unfinished dependency waits. -/
theorem Consistent.waits {H : Sha256} {db : Db} (base : Consistent H db) {t : TaskRow}
    (ht : t ∈ db.tasks) {d : TaskDep} (hd : d ∈ db.deps) (target : d.target = t.slot)
    (unfinished : ¬ db.Finished d.source) : t.state = .waiting := by
  refine (base.waiting t ht).mpr ?_
  rw [base.pending t ht]
  have positive : 0 < db.unfinishedDeps t.slot :=
    List.countP_pos_iff.mpr ⟨d, hd, by simp [target, unfinished]⟩
  exact_mod_cast positive

theorem Consistent.counterLaw {H : Sha256} {db : Db} (base : Consistent H db) {t : TaskRow}
    (ht : t ∈ db.tasks) : CounterLaw db t where
  counts := base.pending t ht
  waiting := base.waiting t ht
  nonneg := by
    rw [base.pending t ht]
    exact Int.natCast_nonneg _
  blocked waits := by
    have positive := (base.waiting t ht).mp waits
    rw [base.pending t ht] at positive
    obtain ⟨d, hd, found⟩ := List.countP_pos_iff.mp (by exact_mod_cast positive)
    rw [decide_eq_true_eq] at found
    exact ⟨d, hd, found⟩
  downstream u hu unfinished chain := by
    -- along the chain from `u`: what waits is unfinished, so what depends on it waits
    have blocked : ∀ s, Relation.TransGen db.DependsOn s u.slot →
        ∀ v ∈ db.tasks, v.slot = s → v.state = .waiting := by
      intro s chain
      induction chain using Relation.TransGen.head_induction_on with
      | single edge =>
        intro v hv slot
        obtain ⟨d, hd, target, source⟩ := edge
        exact base.waits hv hd (target.trans slot.symm)
          (source ▸ Db.not_finished_of_row base.keyed hu unfinished)
      | head edge _ ih =>
        intro v hv slot
        obtain ⟨d, hd, target, source⟩ := edge
        obtain ⟨m, hm, here⟩ := base.linked.source d hd
        have waits := ih m hm (here.trans source)
        refine base.waits hv hd (target.trans slot.symm) ?_
        rw [← here]
        exact Db.not_finished_of_row base.keyed hm (by rw [waits]; rfl)
    exact blocked t.slot chain t ht rfl

/-- In every reachable state every task obeys the counter law. -/
theorem counters_exact {H : Sha256} {o : Options} {calls : List Call} {c : Coordinator}
    (run : Runs (Meets (Step H o) fun _ call => call.Flat) {} calls c) :
    ∀ t ∈ c.db.tasks, CounterLaw c.db t :=
  fun _ ht => (Runs.consistent run).counterLaw ht

/-- The sample: a source, its compile key, its object, and the key of the
library made of it. -/
def sampleKey : Str := "7760b19ee96b2a48af2beffb0393440d4e28f0e78caa5b83298915cbbe875de2".toList
def sampleInput : Str := "821b8a29fe72fed0037246c2b30c6301ed4bfbdc1f02d4f5d0cdfec5f3c68ca5".toList
def sampleOutput : Str := "09ac9f79ef35699325fe48ae1dc9c621f0d2faaed7e0e77ee00ff833dde542ae".toList
def sampleAction : Str := "166814bfc90b641419da0e13cad77a857b6aef8bd5f48ccb0c7e76a6a01f0ec1".toList

/-- The digests sha256 gives for the texts of the sample. -/
def sampleTable : List (Str × Str) := [
  (frameParts ["dc-compile-v1".toList, "gcc".toList, "c".toList, [], "int f;".toList], sampleKey),
  ("int f;".toList, sampleInput),
  ("o:int f;".toList, sampleOutput),
  (frameParts ["dc-action-v1".toList, "1".toList, "gcc".toList, [], "obj_f.c.o".toList,
    sampleOutput], sampleAction)]

def sampleSha : Sha256 := Sha256.ofTable sampleTable (by decide)

/-- One source in one library. -/
def sampleSpec : BuildSpec where
  toolchain := "gcc".toList
  tasks := [
    ⟨0, COMPILE, "obj/f.c.o".toList, [], sampleKey, sampleInput, ["cc".toList], 10⟩,
    ⟨1, ARCHIVE, "libf.a".toList, [0], [], [], [], 1000⟩]

/-- The sample after the upload and the submit. -/
def sampleCoordinator : Coordinator where
  db := (submitBuild sampleSha {} (Blobs.has [(sampleInput, "int f;".toList)]) {} 1 sampleSpec).1
  blobs := [(sampleInput, "int f;".toList)]

theorem sample_reached : ∃ calls,
    Runs (Meets (Step sampleSha {}) fun _ call => call.Flat) {} calls sampleCoordinator := by
  have flat : sampleSpec.Flat := by
    intro ts member compile
    simp only [sampleSpec, List.mem_cons, List.not_mem_nil, or_false] at member
    rcases member with rfl | rfl
    · rfl
    · exact absurd compile (by decide)
  have uploaded : Meets (Step sampleSha {}) (fun _ call => call.Flat) {}
      (.putBlob "int f;".toList [] true) ⟨{}, [(sampleInput, "int f;".toList)]⟩ :=
    ⟨trivial, .putBlob rfl⟩
  have submitted : Meets (Step sampleSha {}) (fun _ call => call.Flat)
      ⟨{}, [(sampleInput, "int f;".toList)]⟩ (.submitBuild sampleSpec 1 _) sampleCoordinator :=
    ⟨flat, .submitBuild⟩
  exact ⟨_, (Runs.nil.snoc uploaded).snoc submitted⟩

/-- In the sample the archive waits for the object. -/
theorem counters_exact_sample :
    ∃ calls c, Runs (Meets (Step sampleSha {}) fun _ call => call.Flat) {} calls c ∧
      (∃ t ∈ c.db.tasks, t.state = .waiting ∧ t.pendingDeps = 1) ∧
      ∀ t ∈ c.db.tasks, CounterLaw c.db t := by
  obtain ⟨calls, run⟩ := sample_reached
  exact ⟨calls, sampleCoordinator, run, by decide +kernel, counters_exact run⟩

end DistCompile
