import DistCompile.Counters

/-!
Who notices that a build is finished (`maybe_finish` in `src/coordinator.cpp`).

Only the completion of a sink, a task nothing waits for, leads to the count in
`maybe_finish`. A running build is watched as long as a count of it is due in the
transaction at hand or one of its sinks is unfinished (`Watched`). A statement
keeps the watch, with one exception: a count that finds unfinished tasks ends it
for the sink that led to the count, and another unfinished sink has to take over
(`Watched.exec`). In a transaction that runs alone there always is one, because
what is unfinished has an unfinished sink above it (`Db.exists_sink`); so
`Noticed` holds of the tables between atomic calls.
-/

namespace DistCompile

open DistCompile.Lib DistCompile.Graph

/-! ### Sinks and running builds -/

namespace Db

/-- No task waits for the one in slot `s`. -/
def Sink (db : Db) (s : Nat × Nat) : Prop := ∀ d ∈ db.deps, d.source ≠ s

instance (db : Db) (s : Nat × Nat) : Decidable (db.Sink s) := by
  unfold Sink; infer_instance

/-- There is a task in slot `s`, and it has no output yet. -/
def Unfinished (db : Db) (s : Nat × Nat) : Prop :=
  ∃ t ∈ db.tasks, t.slot = s ∧ t.state.finished = false

def Running (db : Db) (build : Nat) : Prop :=
  ∃ row ∈ db.builds, row.id = build ∧ row.state = .running

instance (db : Db) (build : Nat) : Decidable (db.Running build) := by
  unfold Running; infer_instance

/-- A task of the build has failed. -/
def HasFailed (db : Db) (build : Nat) : Prop :=
  ∃ t ∈ db.tasks, t.buildId = build ∧ t.state = .failed

/-- The edges have no cycle. -/
def Layered (db : Db) : Prop := ∃ rank : Nat × Nat → Nat, ∀ d ∈ db.deps, rank d.source < rank d.target

/-- What is finished has its dependencies finished. -/
def Upward (db : Db) : Prop := ∀ d ∈ db.deps, db.Finished d.target → db.Finished d.source

theorem unfinished_iff {db : Db} (k : db.Keyed) {s : Nat × Nat} :
    db.Unfinished s ↔ (∃ t ∈ db.tasks, t.slot = s) ∧ ¬ db.Finished s := by
  constructor
  · rintro ⟨t, ht, rfl, unfinished⟩
    exact ⟨⟨t, ht, rfl⟩, not_finished_of_row k ht unfinished⟩
  · rintro ⟨⟨t, ht, rfl⟩, fresh⟩
    refine ⟨t, ht, rfl, ?_⟩
    by_contra done
    exact fresh ⟨t, ht, rfl, by simpa using done⟩

/-- What is unfinished now was unfinished before. -/
theorem Grows.unfinished {db db' : Db} (g : Grows db db') (k : db.Keyed) {s : Nat × Nat}
    (after : db'.Unfinished s) : db.Unfinished s := by
  obtain ⟨⟨t, ht, rfl⟩, fresh⟩ := (unfinished_iff (g.keyed k)).mp after
  obtain ⟨u, hu, same⟩ := mem_of_fixed g.fixed.symm ht
  exact (unfinished_iff k).mpr ⟨⟨u, hu, slot_of_fixed same⟩, fun before => fresh (g.finished before)⟩

/-- Above every task there is a sink that is not finished before it. -/
theorem exists_sink {db : Db} (layered : db.Layered) (linked : db.Linked) {t : TaskRow}
    (ht : t ∈ db.tasks) : ∃ u ∈ db.tasks, u.buildId = t.buildId ∧ db.Sink u.slot ∧
      ∀ db' : Db, db'.deps = db.deps → db'.Upward → db'.Finished u.slot → db'.Finished t.slot := by
  obtain ⟨rank, up⟩ := layered
  obtain ⟨top, bound⟩ := (db.deps.map fun d => rank d.target).toFinset.exists_le
  -- an edge out of `t` leads to a task of higher rank, and the ranks are bounded
  induction distance : top - rank t.slot using Nat.strong_induction_on generalizing t with
  | _ k ih =>
    by_cases sink : db.Sink t.slot
    · exact ⟨t, ht, rfl, sink, fun _ _ _ done => done⟩
    · simp only [Sink, not_forall, not_not] at sink
      obtain ⟨d, hd, source⟩ := sink
      obtain ⟨v, hv, target⟩ := linked.target d hd
      have higher := up d hd
      have limit := bound (rank d.target) (List.mem_toFinset.mpr (List.mem_map_of_mem hd))
      rw [source, ← target] at higher
      rw [← target] at limit
      obtain ⟨u, hu, build, sink, above⟩ := ih (top - rank v.slot) (by omega) hv rfl
      have vbuild : v.buildId = t.buildId := by
        have := congrArg Prod.fst target
        have := congrArg Prod.fst source
        simp_all [TaskRow.slot, TaskDep.source, TaskDep.target]
      refine ⟨u, hu, build.trans vbuild, sink, fun db' deps upward done => ?_⟩
      rw [← source]
      exact upward d (deps ▸ hd) (target ▸ above db' deps upward done)

theorem left_ne_zero {db : Db} {build : Nat} :
    db.left build ≠ 0 ↔ ∃ t ∈ db.tasks, t.buildId = build ∧ t.state.finished = false := by
  simp [left, List.countP_eq_zero]

theorem failed_pos {db : Db} {build : Nat} : 0 < db.failed build ↔ db.HasFailed build := by
  simp [failed, HasFailed, List.countP_pos_iff]

end Db

/-- In the middle of a transaction as well. -/
theorem Mid.upward {H : Sha256} {com : Db} {c : Cfg} (m : Mid H com c) (base : Consistent H com) :
    c.db.Upward := by
  rintro d hd ⟨t, ht, slot, done⟩
  refine m.ready base ht (m.not_pending ht fun waits => ?_) d hd slot.symm
  rw [waits] at done
  cases done

/-! ### The watch over a build -/

/-- The statement leads to a count of the build, or writes its result. `cachePut`
and `dependents` do when they are about a sink. -/
def Stmt.counts (deps : List TaskDep) (build : Nat) : Stmt → Bool
  | .cachePut b id _ _ _ | .dependents b id => b = build && deps.all fun d => d.source ≠ (b, id)
  | .progress b | .buildFailed b | .buildDone b => b = build
  | _ => false

/-- The transaction still has a count of the build before it. -/
def countDue (deps : List TaskDep) (build : Nat) (stack : List Stmt) : Bool :=
  stack.any (Stmt.counts deps build)

/-- The build is closed, or its count is due, or the sink `x` is unfinished. -/
def Watched (c : Cfg) (build : Nat) (x : Nat × Nat) : Prop :=
  countDue c.db.deps build c.stack = true ∨ ¬ c.db.Running build ∨ c.db.Unfinished x

section Exec

variable {H : Sha256} {o : Options} {db com : Db} {c : Cfg} {s : Stmt} {rest : List Stmt}

/-- The only writes to `builds` close a running build. -/
theorem exec_build {row : BuildRow} (written : (exec H o db s).write = some (.build row)) :
    ∃ old ∈ db.builds, old.state = .running ∧ row.id = old.id ∧
      ((s = .buildFailed old.id ∧ row.state = .failed) ∨ (s = .buildDone old.id ∧ row.state = .done)) := by
  have found : ∀ {build : Nat} {b : BuildRow}, db.build? build = some b → b ∈ db.builds ∧ b.id = build :=
    fun h => ⟨List.mem_of_find?_eq_some h, by simpa using List.find?_some h⟩
  cases s with
  | buildFailed build =>
    simp only [exec] at written
    split at written
    · rename_i b hb
      split at written
      · rename_i running
        cases written
        obtain ⟨member, rfl⟩ := found hb
        exact ⟨b, member, running, rfl, Or.inl ⟨rfl, rfl⟩⟩
      · cases written
    · cases written
  | buildDone build =>
    simp only [exec] at written
    split at written
    · rename_i b hb
      split at written
      · rename_i running
        cases written
        obtain ⟨member, rfl⟩ := found hb
        exact ⟨b, member, running, rfl, Or.inr ⟨rfl, rfl⟩⟩
      · cases written
    · cases written
  | _ => simp only [exec] at written; grind

theorem outcome_deps (out : Outcome) (db : Db) : (out.db db).deps = db.deps := by
  rcases write : out.write with _ | row | row | row
  · rw [Outcome.db, write]; rfl
  · rw [Outcome.db, write]; rfl
  · rw [Outcome.db, write]; rfl
  · rw [Outcome.db, write]; exact db.apply_cache_deps row

theorem apply_cache_builds (db : Db) (row : CacheRow) : (db.apply (.cache row)).builds = db.builds := by
  simp only [Db.apply]
  split <;> rfl

/-- The rows of `builds` after a statement: those before, and the closed one. -/
theorem mem_exec_builds {row : BuildRow} (member : row ∈ ((exec H o db s).db db).builds) :
    (row ∈ db.builds ∧ (exec H o db s).write ≠ some (.build row) ∧
      ∀ row', (exec H o db s).write = some (.build row') → row'.id ≠ row.id) ∨
    (exec H o db s).write = some (.build row) := by
  rcases write : (exec H o db s).write with _ | r | r | r
  · rw [Outcome.db, write] at member
    exact Or.inl ⟨member, by simp, by simp⟩
  · rw [Outcome.db, write] at member
    exact Or.inl ⟨member, by simp, by simp⟩
  · rw [Outcome.db, write] at member
    obtain ⟨old, hold, rfl⟩ := List.mem_map.mp member
    by_cases same : old.id = r.id
    · rw [if_pos same]
      exact Or.inr rfl
    · rw [if_neg same]
      refine Or.inl ⟨hold, fun h => same ?_, fun row' h => ?_⟩
      · rw [Write.build.inj (Option.some.inj h)]
      · rw [← Write.build.inj (Option.some.inj h)]
        exact Ne.symm same
  · rw [Outcome.db, write] at member
    refine Or.inl ⟨?_, by simp, by simp⟩
    rwa [Option.elim_some, apply_cache_builds] at member

/-- A statement opens no build again. -/
theorem running_exec {build : Nat} (running : ((exec H o db s).db db).Running build) :
    db.Running build := by
  obtain ⟨row, member, id, state⟩ := running
  rcases mem_exec_builds member with ⟨old, -⟩ | written
  · exact ⟨row, old, id, state⟩
  · obtain ⟨-, -, -, -, ⟨-, closed⟩ | ⟨-, closed⟩⟩ := exec_build written
    · rw [closed] at state; cases state
    · rw [closed] at state; cases state

/-- `build_done` and `build_failed` close the build. -/
theorem not_running_closed (ids : (db.builds.map BuildRow.id).Nodup) {build : Nat}
    (closes : s = .buildFailed build ∨ s = .buildDone build) :
    ¬ ((exec H o db s).db db).Running build := by
  rintro ⟨row, member, rfl, running⟩
  rcases mem_exec_builds member with ⟨old, -, untouched⟩ | written
  · have found : db.build? row.id = some row := by
      cases found : db.build? row.id with
      | none => exact absurd (List.find?_eq_none.mp found row old) (by simp)
      | some b =>
        have same : b.id = row.id := by simpa using List.find?_some found
        rw [List.inj_on_of_nodup_map ids (List.mem_of_find?_eq_some found) old same]
    rcases closes with rfl | rfl
    · exact untouched { row with state := .failed } (by simp [exec, found, running]) rfl
    · exact untouched { row with state := .done } (by simp [exec, found, running]) rfl
  · obtain ⟨-, -, -, -, ⟨-, closed⟩ | ⟨-, closed⟩⟩ := exec_build written
    · rw [closed] at running; cases running
    · rw [closed] at running; cases running

theorem dependents_of_sink {build id : Nat} (sink : db.Sink (build, id)) :
    db.dependents build id = [] := by
  have none_ : (db.deps.filter fun d => d.build = build && d.dep = id) = [] := by
    refine List.filter_eq_nil_iff.mpr fun d hd here => sink d hd ?_
    simpa [TaskDep.source] using here
  simp [Db.dependents, none_]

theorem sink_of_all {id build : Nat}
    (all : (db.deps.all fun d => decide (d.source ≠ (build, id))) = true) : db.Sink (build, id) := by
  simpa [Db.Sink] using all

/-- A due count stays due until it is made, and its result until it is written. -/
theorem Watched.exec_due (ids : (c.db.builds.map BuildRow.id).Nodup) {build : Nat} {x : Nat × Nat}
    (top : c.stack = s :: rest) (due : countDue c.db.deps build c.stack = true)
    (sees : s = .progress build → 0 < c.db.failed build ∨ c.db.left build = 0) :
    Watched (c.after (exec H o c.db s) rest) build x := by
  rw [countDue, top, List.any_cons, Bool.or_eq_true] at due
  have next : (exec H o c.db s).next.any (Stmt.counts c.db.deps build) = true →
      Watched (c.after (exec H o c.db s) rest) build x := by
    intro counts
    refine Or.inl ?_
    rw [countDue, Cfg.after, outcome_deps, List.any_append, counts, Bool.true_or]
  rcases due with here | later
  · cases s with
    | cachePut b id key output size => exact next (by simpa [exec, finished, Stmt.counts] using here)
    | dependents b id =>
      simp only [Stmt.counts, Bool.and_eq_true, decide_eq_true_eq] at here
      obtain ⟨rfl, alone⟩ := here
      have none_ := dependents_of_sink (sink_of_all alone)
      exact next (by simp [exec, none_, maybeFinish, Stmt.counts])
    | progress b =>
      obtain rfl : b = build := by simpa [Stmt.counts] using here
      rcases sees rfl with failed | zero
      · exact next (by simp [exec, failed, Stmt.counts])
      · refine next ?_
        simp only [exec, zero]
        split <;> simp [Stmt.counts]
    | buildFailed b =>
      obtain rfl : b = build := by simpa [Stmt.counts] using here
      exact Or.inr (Or.inl (not_running_closed ids (Or.inl rfl)))
    | buildDone b =>
      obtain rfl : b = build := by simpa [Stmt.counts] using here
      exact Or.inr (Or.inl (not_running_closed ids (Or.inr rfl)))
    | _ => cases here
  · refine Or.inl ?_
    rw [countDue, Cfg.after, outcome_deps, List.any_append, later, Bool.or_true]

/-- A sink that is being finished leads to a count. -/
theorem Watched.exec_unfinished (m : Mid H com c) (base : Consistent H com) {x : Nat × Nat}
    (top : c.stack = s :: rest) (sink : c.db.Sink x) (unfinished : c.db.Unfinished x) :
    Watched (c.after (exec H o c.db s) rest) x.1 x := by
  have k := m.keyed base.keyed
  have k' := (m.exec base o top).keyed base.keyed
  have g := m.exec_grows base o top
  obtain ⟨⟨t, ht, slot⟩, fresh⟩ := (Db.unfinished_iff k).mp unfinished
  by_cases done : ((exec H o c.db s).db c.db).Finished x
  · refine Or.inl ?_
    obtain ⟨row, wrote⟩ : ∃ row, (exec H o c.db s).write = some (.task row) := by
      rcases write : (exec H o c.db s).write with _ | r | r | r
      · rw [Outcome.db, write] at done
        exact absurd done fresh
      · exact ⟨r, rfl⟩
      · rw [Outcome.db, write] at done
        exact absurd done fresh
      · rw [Outcome.db, write] at done
        exact absurd ((finished_same (c.db.apply_cache_tasks r) x).mp done) fresh
    obtain ⟨u, hu, fixed, before, next⟩ := m.written base o top wrote
    have wasUnfinished : u.state.finished = false := by
      rcases before with wasOpen | waits
      · exact open_unfinished wasOpen
      · rw [waits]; rfl
    rw [Outcome.db, wrote] at done
    rcases (Db.finished_apply_task k hu fixed wasUnfinished).mp done with old | ⟨here, nowDone⟩
    · exact absurd old fresh
    · have alone : (c.db.deps.all fun d => decide (d.source ≠ (u.buildId, u.id))) = true := by
        simpa [Db.Sink, here, TaskRow.slot] using sink
      have build : x.1 = u.buildId := by rw [here]; rfl
      rw [countDue, Cfg.after, outcome_deps, List.any_append, Bool.or_eq_true]
      refine Or.inl ?_
      rcases next nowDone with ⟨key, output, size, put⟩ | look
      · rw [put, List.any_cons, Stmt.counts, alone, build]
        simp
      · rw [look, List.any_cons, Stmt.counts, alone, build]
        simp
  · obtain ⟨u, hu, same⟩ := Db.mem_of_fixed g.fixed ht
    exact Or.inr (Or.inr ((Db.unfinished_iff k').mpr ⟨⟨u, hu, (slot_of_fixed same).trans slot⟩, done⟩))

/-- A statement keeps the watch, unless it is a count that finds unfinished tasks
and no failed one. -/
theorem Watched.exec (m : Mid H com c) (base : Consistent H com)
    (ids : (c.db.builds.map BuildRow.id).Nodup) {x : Nat × Nat} (top : c.stack = s :: rest)
    (sink : c.db.Sink x) (watched : Watched c x.1 x)
    (sees : s = .progress x.1 → 0 < c.db.failed x.1 ∨ c.db.left x.1 = 0) :
    Watched (c.after (exec H o c.db s) rest) x.1 x := by
  rcases watched with due | closed | unfinished
  · exact exec_due ids top due sees
  · exact Or.inr (Or.inl fun running => closed (running_exec running))
  · exact exec_unfinished m base top sink unfinished

end Exec

/-! ### Failed builds -/

/-- What a transaction under way on `com` keeps about builds: their ids, the failed
tasks, and that a build is failed, or about to be, only with a failed task. -/
structure Steady (com : Db) (c : Cfg) : Prop where
  ids : c.db.builds.map BuildRow.id = com.builds.map BuildRow.id
  keeps : ∀ t ∈ com.tasks, t.state = .failed → t ∈ c.db.tasks
  failed : ∀ row ∈ c.db.builds, row.state = .failed → c.db.HasFailed row.id
  due : ∀ build, .buildFailed build ∈ c.stack → c.db.HasFailed build

section Steady

variable {H : Sha256} {o : Options} {com : Db} {c : Cfg} {s : Stmt} {rest : List Stmt}

/-- No statement touches a failed row. -/
theorem Mid.keeps_failed (m : Mid H com c) (base : Consistent H com) (o : Options)
    (top : c.stack = s :: rest) {t : TaskRow} (ht : t ∈ c.db.tasks) (failed : t.state = .failed) :
    t ∈ ((DistCompile.exec H o c.db s).db c.db).tasks := by
  rcases write : (DistCompile.exec H o c.db s).write with _ | row | row | row
  · rw [Outcome.db, write]; exact ht
  · rw [Outcome.db, write]
    obtain ⟨u, hu, fixed, before, -⟩ := m.written base o top write
    refine (Db.mem_apply_task hu fixed).mpr (Or.inr ⟨ht, fun same => ?_⟩)
    have here := (m.keyed base.keyed).uid_inj ht hu (same.trans (uid_of_fixed fixed))
    rw [here] at failed
    rcases before with wasOpen | waits
    · rw [failed] at wasOpen; cases wasOpen
    · rw [failed] at waits; cases waits
  · rw [Outcome.db, write]; exact ht
  · rw [Outcome.db, write, Option.elim_some, c.db.apply_cache_tasks row]; exact ht

theorem exec_ids (H : Sha256) (o : Options) (db : Db) (s : Stmt) :
    ((exec H o db s).db db).builds.map BuildRow.id = db.builds.map BuildRow.id := by
  rcases write : (exec H o db s).write with _ | row | row | row
  · rw [Outcome.db, write]; rfl
  · rw [Outcome.db, write]; rfl
  · rw [Outcome.db, write]
    simp only [Option.elim_some, Db.apply, List.map_map]
    refine List.map_congr_left fun b _ => ?_
    rw [Function.comp_apply]
    split
    · rename_i same
      exact same.symm
    · rfl
  · rw [Outcome.db, write, Option.elim_some, apply_cache_builds]

theorem Steady.exec (st : Steady com c) (m : Mid H com c) (base : Consistent H com)
    (top : c.stack = s :: rest) : Steady com (c.after (exec H o c.db s) rest) := by
  have mono : ∀ {build : Nat}, c.db.HasFailed build →
      ((DistCompile.exec H o c.db s).db c.db).HasFailed build := by
    rintro build ⟨t, ht, rfl, failed⟩
    exact ⟨t, m.keeps_failed base o top ht failed, rfl, failed⟩
  constructor
  · exact (exec_ids H o c.db s).trans st.ids
  · intro t ht failed
    exact m.keeps_failed base o top (st.keeps t ht failed) failed
  · intro row member failed
    rcases mem_exec_builds member with ⟨old, -⟩ | written
    · exact mono (st.failed row old failed)
    · obtain ⟨b, -, -, id, ⟨rfl, -⟩ | ⟨-, done⟩⟩ := exec_build written
      · rw [id]
        exact mono (st.due b.id (by simp [top]))
      · rw [done] at failed; cases failed
  · intro build member
    rcases List.mem_append.mp member with next | later
    · refine mono ?_
      cases s with
      | progress b =>
        simp only [DistCompile.exec] at next
        split_ifs at next with failed
        · obtain rfl : build = b := by simpa using next
          exact Db.failed_pos.mp failed
        · simp at next
        · simp at next
      | dependents b id =>
        simp only [DistCompile.exec, maybeFinish] at next
        grind
      | _ =>
        simp only [DistCompile.exec, finished, makeReady, maybeFinish] at next
        grind
    · exact mono (st.due build (by simp [top, later]))

end Steady

/-! ### Between atomic calls -/

/-- A build is running only while it has something unfinished, and failed only with
a failed task. -/
structure Noticed (db : Db) : Prop where
  ids : (db.builds.map BuildRow.id).Nodup
  fresh : ∀ row ∈ db.builds, row.id < db.nextBuild
  layered : db.Layered
  failed : ∀ row ∈ db.builds, row.state = .failed → db.HasFailed row.id
  running : ∀ build, db.Running build →
    ∃ t ∈ db.tasks, t.buildId = build ∧ t.state.finished = false

/-- A transaction that runs alone: every running build is watched. -/
structure Guarded (H : Sha256) (com : Db) (c : Cfg) : Prop where
  mid : Mid H com c
  steady : Steady com c
  watch : ∀ build, c.db.Running build →
    ∃ x : Nat × Nat, x.1 = build ∧ c.db.Sink x ∧ Watched c build x

section Alone

variable {H : Sha256} {o : Options} {com : Db} {c : Cfg} {s : Stmt} {rest : List Stmt}

theorem sink_of_deps {db db' : Db} (deps : db'.deps = db.deps) {x : Nat × Nat} (sink : db.Sink x) :
    db'.Sink x := fun d hd => sink d (deps ▸ hd)

/-- An unfinished task has an unfinished sink above it. -/
theorem Mid.unfinished_sink (m : Mid H com c) (base : Consistent H com) (layered : com.Layered)
    {t : TaskRow} (ht : t ∈ c.db.tasks) (unfinished : t.state.finished = false) :
    ∃ x : Nat × Nat, x.1 = t.buildId ∧ c.db.Sink x ∧ c.db.Unfinished x := by
  have k := m.keyed base.keyed
  have layers : c.db.Layered := by
    obtain ⟨rank, up⟩ := layered
    exact ⟨rank, m.grows.deps ▸ up⟩
  obtain ⟨u, hu, build, sink, above⟩ :=
    Db.exists_sink layers (m.grows.linked base.linked) ht
  refine ⟨u.slot, build, sink, (Db.unfinished_iff k).mpr ⟨⟨u, hu, rfl⟩, fun done => ?_⟩⟩
  exact Db.not_finished_of_row k ht unfinished (above c.db rfl (m.upward base) done)

theorem Guarded.exec (g : Guarded H com c) (base : Consistent H com)
    (ids : (com.builds.map BuildRow.id).Nodup) (layered : com.Layered)
    (top : c.stack = s :: rest) : Guarded H com (c.after (DistCompile.exec H o c.db s) rest) := by
  refine ⟨g.mid.exec base o top, g.steady.exec g.mid base top, fun build running => ?_⟩
  obtain ⟨x, rfl, sink, watched⟩ := g.watch build (running_exec running)
  have deps := outcome_deps (DistCompile.exec H o c.db s) c.db
  by_cases blind : s = .progress x.1 ∧ c.db.left x.1 ≠ 0
  · -- the count finds something: the watch passes to a sink above it
    obtain ⟨t, ht, build, unfinished⟩ := Db.left_ne_zero.mp blind.2
    obtain ⟨y, here, ysink, yunfinished⟩ := g.mid.unfinished_sink base layered ht unfinished
    have byebuild : y.1 = x.1 := here.trans build
    refine ⟨y, byebuild, sink_of_deps deps ysink, ?_⟩
    rw [← byebuild]
    exact Watched.exec_unfinished g.mid base top ysink yunfinished
  · refine ⟨x, rfl, sink_of_deps deps sink, ?_⟩
    refine watched.exec g.mid base (g.steady.ids ▸ ids) top sink fun count => Or.inr ?_
    by_contra some_
    exact blind ⟨count, some_⟩

theorem Guarded.done (g : Guarded H com c)
    (ids : (com.builds.map BuildRow.id).Nodup) (fresh : ∀ row ∈ com.builds, row.id < com.nextBuild)
    (layered : com.Layered) (empty : c.stack = []) : Noticed c.db where
  ids := g.steady.ids ▸ ids
  fresh row member := by
    have : row.id ∈ com.builds.map BuildRow.id := g.steady.ids ▸ List.mem_map_of_mem member
    obtain ⟨old, hold, same⟩ := List.mem_map.mp this
    have serial : c.db.nextBuild = com.nextBuild := congrArg Prod.fst g.mid.grows.serials
    rw [← same, serial]
    exact fresh old hold
  layered := by
    obtain ⟨rank, up⟩ := layered
    exact ⟨rank, g.mid.grows.deps ▸ up⟩
  failed := g.steady.failed
  running build running := by
    obtain ⟨x, rfl, -, due | closed | ⟨t, ht, slot, unfinished⟩⟩ := g.watch build running
    · rw [empty] at due
      cases due
    · exact absurd running closed
    · exact ⟨t, ht, congrArg Prod.fst slot, unfinished⟩

/-- A transaction that starts with a count may leave one build unwatched. -/
theorem Guarded.start (base : Consistent H com) (layered : com.Layered) {s : Stmt}
    (m : Mid H com ⟨com, [s], []⟩) (plain : ∀ build, s ≠ .buildFailed build)
    (failed : ∀ row ∈ com.builds, row.state = .failed → com.HasFailed row.id)
    (running : ∀ build, com.Running build → s = .progress build ∨
      ∃ t ∈ com.tasks, t.buildId = build ∧ t.state.finished = false) :
    Guarded H com ⟨com, [s], []⟩ where
  mid := m
  steady := ⟨rfl, fun _ ht _ => ht, failed, fun build member =>
    absurd (List.mem_singleton.mp member).symm (plain build)⟩
  watch build here := by
    rcases running build here with rfl | ⟨t, ht, rfl, unfinished⟩
    · -- any slot that no edge leaves will do while the count is due
      obtain ⟨top, bound⟩ := (com.deps.map TaskDep.dep).toFinset.exists_le
      refine ⟨(build, top + 1), rfl, fun d hd source => ?_, Or.inl (by simp [countDue, Stmt.counts])⟩
      have limit := bound d.dep (List.mem_toFinset.mpr (List.mem_map_of_mem hd))
      have dep : d.dep = top + 1 := congrArg Prod.snd source
      omega
    · obtain ⟨x, xbuild, sink, open_⟩ := m.unfinished_sink base layered ht unfinished
      exact ⟨x, xbuild, sink, Or.inr (Or.inr open_)⟩

/-- `maybe_finish` takes two statements at most. -/
theorem run_maybeFinish (H : Sha256) (o : Options) (db : Db) (build : Nat) :
    ∃ c, run H o 2 ⟨db, maybeFinish build, []⟩ = some c := by
  have last : ∀ s rest trace, (exec H o db s).next = [] → rest = [] →
      ∃ c, run H o 1 ⟨db, s :: rest, trace⟩ = some c := by
    rintro s rest trace none_ rfl
    exact ⟨_, by simp [run, Cfg.step, Cfg.after, none_]; rfl⟩
  have closes : ∀ s, s = .buildFailed build ∨ s = .buildDone build → (exec H o db s).next = [] := by
    rintro s (rfl | rfl)
    · simp only [exec]
      split
      · split <;> rfl
      · rfl
    · simp only [exec]
      split
      · split <;> rfl
      · rfl
  simp only [maybeFinish, run, Cfg.step, Cfg.after]
  by_cases failed : 0 < db.failed build
  · simpa [exec, failed, run, Cfg.step, Cfg.after, Outcome.db] using
      last (.buildFailed build) [] [.progressed build (db.left build) (db.failed build)]
        (closes _ (Or.inl rfl)) rfl
  · by_cases zero : db.left build = 0
    · simpa [exec, failed, zero, run, Cfg.step, Cfg.after, Outcome.db] using
        last (.buildDone build) [] [.progressed build 0 (db.failed build)]
          (closes _ (Or.inr rfl)) rfl
    · exact ⟨_, by simp [exec, failed, zero]; rfl⟩

/-- The statements of `maybe_finish`. -/
def Stmt.closes (build : Nat) (s : Stmt) : Prop := s = .progress build ∨ s = .buildFailed build ∨ s = .buildDone build

theorem Stmt.closes.exec {build : Nat} {s : Stmt} (closes : s.closes build) (db : Db) :
    ((exec H o db s).db db).tasks = db.tasks ∧ ∀ s' ∈ (exec H o db s).next, s'.closes build := by
  rcases closes with rfl | rfl | rfl
  · refine ⟨rfl, fun s' member => ?_⟩
    simp only [DistCompile.exec] at member
    split_ifs at member
    · exact Or.inr (Or.inl (List.mem_singleton.mp member))
    · exact Or.inr (Or.inr (List.mem_singleton.mp member))
    · cases member
  · simp only [DistCompile.exec]
    split
    · split <;> exact ⟨rfl, by simp⟩
    · exact ⟨rfl, by simp⟩
  · simp only [DistCompile.exec]
    split
    · split <;> exact ⟨rfl, by simp⟩
    · exact ⟨rfl, by simp⟩

theorem maybeFinish_tasks {db : Db} (build : Nat) : (db.maybeFinish H o build).tasks = db.tasks := by
  refine maybeFinish_induction (P := fun db' => db'.tasks = db.tasks) rfl fun {d} ran => ?_
  refine (run_induction (P := fun c => c.db.tasks = db.tasks ∧ ∀ s ∈ c.stack, s.closes build)
    (fun {c s rest} holds top => ?_) ran ⟨rfl, fun s member => Or.inl (List.mem_singleton.mp member)⟩).1.1
  obtain ⟨same, due⟩ := holds
  rw [top, List.forall_mem_cons] at due
  obtain ⟨tasks, leads⟩ := due.1.exec (H := H) (o := o) c.db
  refine ⟨tasks.trans same, fun s' member => ?_⟩
  rcases List.mem_append.mp member with led | below
  · exact leads s' led
  · exact due.2 s' below

/-- `maybe_finish` closes a build when all its tasks are finished. -/
theorem maybeFinish_closes {db : Db} {build : Nat} {row : BuildRow} (found : db.build? build = some row)
    (running : row.state = .running) (finished : ∀ t ∈ db.tasks, t.buildId = build → t.state.finished = true) :
    db.maybeFinish H o build = db.apply (.build { row with state := .done }) := by
  have failed : db.failed build = 0 := by
    refine List.countP_eq_zero.mpr fun t ht own => ?_
    simp only [Bool.and_eq_true, decide_eq_true_eq] at own
    have done := finished t ht own.1
    rw [own.2] at done
    cases done
  have left : db.left build = 0 := by
    refine List.countP_eq_zero.mpr fun t ht own => ?_
    simp only [Bool.and_eq_true, decide_eq_true_eq, Bool.not_eq_true'] at own
    rw [finished t ht own.1] at own
    cases own.2
  simp [Db.maybeFinish, DistCompile.maybeFinish, run, Cfg.step, Cfg.after, exec, failed, left, found, running, Outcome.db]

/-- After its count no build is left unwatched. -/
theorem Noticed.maybeFinish {db : Db} (base : Consistent H db)
    (ids : (db.builds.map BuildRow.id).Nodup) (fresh : ∀ row ∈ db.builds, row.id < db.nextBuild)
    (layered : db.Layered) (failed : ∀ row ∈ db.builds, row.state = .failed → db.HasFailed row.id)
    {build : Nat} (running : ∀ b, db.Running b → b = build ∨
      ∃ t ∈ db.tasks, t.buildId = b ∧ t.state.finished = false) :
    Noticed (db.maybeFinish H o build) := by
  obtain ⟨c, ran⟩ := run_maybeFinish H o db build
  have start : Guarded H db ⟨db, [.progress build], []⟩ := by
    refine Guarded.start base layered (Mid.start base trivial rfl rfl) (by simp) failed fun b here => ?_
    rcases running b here with rfl | unfinished
    · exact Or.inl rfl
    · exact Or.inr unfinished
  obtain ⟨guarded, empty⟩ := run_induction (P := Guarded H db)
    (fun g => g.exec base ids layered) ran start
  rw [Db.maybeFinish, ran]
  exact guarded.done ids fresh layered empty

theorem completeTask_plain (has : Str → Bool) (sizeOf : Str → Int) (now : Int) (r : TaskResult)
    (build : Nat) : .buildFailed build ∉ completeTask has sizeOf now r := by
  unfold completeTask
  split_ifs <;> simp

/-- A completion that starts alone. -/
theorem Noticed.guarded {db : Db} (noticed : Noticed db) (base : Consistent H db) (blobs : Blobs) (now : Int)
    (r : TaskResult) : Guarded H db ⟨db, DistCompile.completeTask blobs.has blobs.sizeOf now r, []⟩ := by
  obtain ⟨s, stack, m⟩ := completeTask_start base blobs now r
  have plain : ∀ build, s ≠ .buildFailed build := by
    rintro build rfl
    exact completeTask_plain blobs.has blobs.sizeOf now r build (by simp [stack])
  rw [stack]
  exact Guarded.start base noticed.layered m plain noticed.failed
    fun build here => Or.inr (noticed.running build here)

/-- A completion that runs alone. -/
theorem Noticed.completeTask {db : Db} (noticed : Noticed db) (base : Consistent H db)
    {blobs : Blobs} {now : Int} {r : TaskResult} {fuel : Nat}
    (ran : DistCompile.run H o fuel ⟨db, DistCompile.completeTask blobs.has blobs.sizeOf now r, []⟩ = some c) :
    Noticed c.db := by
  obtain ⟨guarded, empty⟩ := run_induction (P := Guarded H db)
    (fun g => g.exec base noticed.ids noticed.layered) ran (noticed.guarded base blobs now r)
  exact guarded.done noticed.ids noticed.fresh noticed.layered empty

end Alone

/-- Updates of leases change neither. -/
theorem Noticed.relabel {db : Db} (noticed : Noticed db) {f : TaskRow → TaskRow}
    (rows : ∀ t ∈ db.tasks, Relabel t (f t)) : Noticed { db with tasks := db.tasks.map f } where
  ids := noticed.ids
  fresh := noticed.fresh
  layered := noticed.layered
  failed row member failed := by
    obtain ⟨t, ht, build, state⟩ := noticed.failed row member failed
    have same : f t = t := by
      rcases (rows t ht).state with same | ⟨wasOpen, -⟩
      · exact same
      · rw [state] at wasOpen; cases wasOpen
    exact ⟨t, List.mem_map.mpr ⟨t, ht, same⟩, build, state⟩
  running build here := by
    obtain ⟨t, ht, rfl, unfinished⟩ := noticed.running build here
    exact ⟨f t, List.mem_map_of_mem ht, build_of_fixed (rows t ht).fixed,
      (rows t ht).finished.trans unfinished⟩

theorem Noticed.relabel_row {H : Sha256} {db : Db} (noticed : Noticed db) (base : Consistent H db)
    {t row : TaskRow} (ht : t ∈ db.tasks) (r : Relabel t row) : Noticed (db.apply (.task row)) :=
  noticed.relabel fun _ hu => base.keyed.of_written ht (uid_of_fixed r.fixed) r .refl hu

/-! ### Every call -/

/-- A topological order ranks the tasks. -/
theorem idxOf_lt_of_topo {spec : BuildSpec} {order : List Nat} (topo : IsTopoOrder spec.graph order)
    {id : Nat} {ts : TaskSpec} (found : spec.tasks[id]? = some ts) {d : Nat} (dep : d ∈ ts.depIds) :
    order.idxOf d < order.idxOf id := by
  have member : id ∈ order := by
    rw [topo.perm.mem_iff, List.mem_range, BuildSpec.graph, List.length_map]
    exact (List.getElem?_eq_some_iff.mp found).1
  refine topo.idxOf_lt member ?_
  simpa [depsOf, BuildSpec.graph, found, TaskSpec.depIds] using dep

section Insert

variable {H : Sha256} {o : Options} {db : Db} {spec : BuildSpec} {order : List Nat}
  {rank part : Nat → Int} {w : Walk}

theorem insertRows_layered (base : Consistent H db) (layered : db.Layered)
    (topo : IsTopoOrder spec.graph order) : (insertRows db spec rank part w).Layered := by
  obtain ⟨height, up⟩ := layered
  refine ⟨fun s => if s.1 = db.nextBuild then order.idxOf s.2 else height s, fun d hd => ?_⟩
  rcases List.mem_append.mp hd with old | new
  · have build := base.dep_build old
    have other : d.build ≠ db.nextBuild := by omega
    simpa [TaskDep.source, TaskDep.target, other] using up d old
  · obtain ⟨build, ts, found, dep⟩ := mem_insertedDeps new
    simpa [TaskDep.source, TaskDep.target, build] using idxOf_lt_of_topo topo found dep

theorem Noticed.insertRows (noticed : Noticed db) (base : Consistent H db)
    (after : Consistent H (insertRows db spec rank part w)) (topo : IsTopoOrder spec.graph order) :
    Noticed ((DistCompile.insertRows db spec rank part w).maybeFinish H o db.nextBuild) := by
  have rows : (DistCompile.insertRows db spec rank part w).builds =
      db.builds ++ [⟨db.nextBuild, spec.toolchain, .running, spec.tasks.length⟩] := rfl
  refine Noticed.maybeFinish after ?_ ?_ (insertRows_layered base noticed.layered topo) ?_ ?_
  · rw [rows, List.map_append, List.nodup_append]
    refine ⟨noticed.ids, by simp, fun a ha b hb same => ?_⟩
    obtain ⟨row, member, rfl⟩ := List.mem_map.mp ha
    have := noticed.fresh row member
    have : b = db.nextBuild := by simpa using hb
    omega
  · intro row member
    change row.id < db.nextBuild + 1
    rcases List.mem_append.mp member with old | new
    · have := noticed.fresh row old
      omega
    · obtain rfl := List.mem_singleton.mp new
      exact Nat.lt_succ_self _
  · intro row member failed
    rcases List.mem_append.mp member with old | new
    · obtain ⟨t, ht, build, state⟩ := noticed.failed row old failed
      exact ⟨t, List.mem_append_left _ ht, build, state⟩
    · obtain rfl := List.mem_singleton.mp new
      cases failed
  · rintro b ⟨row, member, rfl, running⟩
    rcases List.mem_append.mp member with old | new
    · obtain ⟨t, ht, build, unfinished⟩ := noticed.running row.id ⟨row, old, rfl, running⟩
      exact Or.inr ⟨t, List.mem_append_left _ ht, build, unfinished⟩
    · obtain rfl := List.mem_singleton.mp new
      exact Or.inl rfl

theorem Noticed.submitBuild {has : Str → Bool} {live : Int} (noticed : Noticed db)
    (base : Consistent H db) (flat : spec.Flat) :
    Noticed (submitBuild H o has db live spec).1 := by
  rcases ran : DistCompile.submitBuild H o has db live spec with ⟨db', e | ⟨build, cached⟩⟩
  · obtain ⟨builds, uids, rfl⟩ := submitBuild_error ran
    refine ⟨noticed.ids, fun row member => ?_, noticed.layered, noticed.failed, noticed.running⟩
    have := noticed.fresh row member
    change row.id < db.nextBuild + builds
    omega
  · obtain ⟨-, -, order, rank, part, w, accepted, walked, unique, rfl⟩ := submitBuild_ok ran
    have topo := topoOrder_ok accepted
    have after : Consistent H (DistCompile.insertRows db spec rank part w) :=
      base.insertRows (flat.supplies _) topo (walk_walked topo walked) unique
    exact noticed.insertRows base after topo

end Insert

theorem Noticed.reap {H : Sha256} {o : Options} {db : Db} (noticed : Noticed db)
    (base : Consistent H db) (now : Int) : Noticed (reap H o db now) := by
  have both : Consistent H (DistCompile.reap H o db now) ∧ Noticed (DistCompile.reap H o db now) := by
    refine reap_induction (P := fun db => Consistent H db ∧ Noticed db) (fun build h => ?_)
      ⟨base.relabel fun t _ => reapRow_relabel o now t, noticed.relabel fun t _ => reapRow_relabel o now t⟩
    exact ⟨(h.1.maybeFinish build).2, Noticed.maybeFinish h.1 h.2.ids h.2.fresh h.2.layered h.2.failed
      fun b here => Or.inr (h.2.running b here)⟩
  exact both.2

/-- Every call leaves every build noticed. -/
theorem Step.noticed {H : Sha256} {o : Options} {c c' : Coordinator} {call : Call}
    (step : Step H o c call c') (flat : call.Flat) (base : Consistent H c.db)
    (noticed : Noticed c.db) : Noticed c'.db := by
  cases step with
  | putBlob _ => exact noticed
  | putRefused _ => exact noticed
  | submitBuild => exact noticed.submitBuild base flat
  | claimTask picked _ | claimCrash picked _ =>
    obtain ⟨ht, ready, -⟩ := mem_of_picked picked
    exact noticed.relabel_row base ht (claimedRow_relabel ready)
  | claimNothing _ => exact noticed
  | completeTask ran => exact noticed.completeTask base ran
  | heartbeat => exact noticed.relabel fun t _ => heartbeatRow_relabel o _ _ t
  | reap => exact noticed.reap base _

theorem Runs.noticed {H : Sha256} {o : Options} {calls : List Call} {c : Coordinator}
    (run : Runs (Meets (Step H o) fun _ call => call.Flat) {} calls c) :
    Consistent H c.db ∧ Noticed c.db := by
  refine run.invariant (P := fun c => Consistent H c.db ∧ Noticed c.db) ⟨Consistent.empty H, ?_⟩
    fun step both => ⟨step.2.consistent step.1 both.1, step.2.noticed step.1 both.1 both.2⟩
  exact ⟨by simp, by simp, ⟨fun _ => 0, by simp⟩, by simp, by simp [Db.Running]⟩

end DistCompile
