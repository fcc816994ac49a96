import DistCompile.Finish
import DistCompile.ReadCommitted

/-!
Finished builds under READ COMMITTED.

A count in `maybe_finish` sees the committed rows and its own transaction's. Two
completions that finish the last two sinks of a build can each count while the
other is open: both find a task unfinished, both commit, and nobody counts again
(`build_overlooked`). `World.overlooks` singles out the step where this happens:
a count, none failed, all of whose unfinished tasks are finished by open
transactions that have their own count behind them. Without such a step every
build is noticed (`finished_builds_done`).

Between the steps one unfinished sink watches the build for all transactions at
once (`World.Watch`). It is unfinished in the committed tables, and a transaction
that has finished it still has a count before it.
-/

namespace DistCompile

open DistCompile.Lib

/-! ### Builds in a view -/

/-- A build row after a list of writes. -/
def Write.onBuild (r : BuildRow) : Write → BuildRow
  | .build row => if r.id = row.id then row else r
  | _ => r

def buildAfter (writes : List Write) (r : BuildRow) : BuildRow := writes.foldl Write.onBuild r

theorem apply_builds (db : Db) (w : Write) :
    (db.apply w).builds = db.builds.map fun r => w.onBuild r := by
  cases w with
  | task row => exact (List.map_id' _).symm
  | build row => rfl
  | cache row => exact (apply_cache_builds db row).trans (List.map_id' _).symm

theorem foldl_apply_builds (writes : List Write) (db : Db) :
    (writes.foldl Db.apply db).builds = db.builds.map (buildAfter writes) :=
  foldl_column apply_builds writes db

theorem overwrites_builds : Overwrites BuildRow.id (fun w row => w = .build row) Write.onBuild where
  replaces := by
    rintro r row w rfl same
    exact if_pos same
  spares := by
    intro r w other
    cases w with
    | task row => rfl
    | build row => exact if_neg (other row rfl)
    | cache row => rfl

theorem buildAfter_id (writes : List Write) (r : BuildRow) : (buildAfter writes r).id = r.id :=
  overwrites_builds.foldl_key writes r

/-- The writes leave a row alone, or replace whatever has its id. -/
theorem buildAfter_cases (writes : List Write) (id : Nat) :
    (∀ r : BuildRow, r.id = id → buildAfter writes r = r) ∨
      ∃ row, .build row ∈ writes ∧ ∀ r : BuildRow, r.id = id → buildAfter writes r = row := by
  rcases overwrites_builds.foldl_cases writes id with alone | ⟨_, member, row, rfl, replaced⟩
  · exact Or.inl alone
  · exact Or.inr ⟨row, member, replaced⟩

/-- The transaction writes only closed builds. -/
def Tx.Closes (tx : Tx) : Prop := ∀ row, .build row ∈ tx.writes → row.state ≠ .running

/-- A transaction opens no build. -/
theorem Tx.Closes.running {tx : Tx} (closes : tx.Closes) {com : Db} {build : Nat}
    (running : (tx.view com).Running build) : com.Running build := by
  obtain ⟨row, member, rfl, state⟩ := running
  rw [Tx.view, foldl_apply_builds] at member
  obtain ⟨r, hr, rfl⟩ := List.mem_map.mp member
  rcases buildAfter_cases tx.writes r.id with alone | ⟨row, written, replaced⟩
  · rw [alone r rfl] at state ⊢
    exact ⟨r, hr, rfl, state⟩
  · rw [replaced r rfl] at state
    exact absurd state (closes row written)

section Rebase

variable {H : Sha256} {com com' : Db} {tx : Tx}

/-- A row of `builds` in the new view was in the old one, or is a committed row
that the transaction has not written. -/
theorem mem_view_builds (ids : com'.builds.map BuildRow.id = com.builds.map BuildRow.id)
    {row : BuildRow} (member : row ∈ (tx.view com').builds) :
    row ∈ (tx.view com).builds ∨
      (row ∈ com'.builds ∧ ∀ old ∈ com.builds, old.id = row.id → old ∈ (tx.view com).builds) := by
  rw [Tx.view, foldl_apply_builds] at member
  simp only [Tx.view, foldl_apply_builds]
  obtain ⟨r, hr, rfl⟩ := List.mem_map.mp member
  rcases buildAfter_cases tx.writes r.id with alone | ⟨row, -, replaced⟩
  · rw [alone r rfl]
    exact Or.inr ⟨hr, fun old hold same => List.mem_map.mpr ⟨old, hold, alone old same⟩⟩
  · obtain ⟨old, hold, same⟩ : ∃ old ∈ com.builds, old.id = r.id :=
      List.mem_map.mp (ids ▸ List.mem_map_of_mem hr)
    exact Or.inl (List.mem_map.mpr ⟨old, hold, by rw [replaced old same, replaced r rfl]⟩)

/-- A commit of others reopens no build in the view. -/
theorem running_view_rebase (ids : com'.builds.map BuildRow.id = com.builds.map BuildRow.id)
    (opened : ∀ build, com'.Running build → com.Running build) {build : Nat}
    (running : (tx.view com').Running build) : (tx.view com).Running build := by
  obtain ⟨row, member, rfl, state⟩ := running
  rcases mem_view_builds ids member with mine | ⟨theirs, untouched⟩
  · exact ⟨row, mine, rfl, state⟩
  · obtain ⟨old, hold, id, oldState⟩ := opened row.id ⟨row, theirs, rfl, state⟩
    exact ⟨old, untouched old hold id, id, oldState⟩

/-- What is unfinished in the view and in the new committed tables stays so. -/
theorem unfinished_view_rebase (owns : tx.Owns) (rb : Rebase tx.locks com com') (k : com.Keyed)
    (g : Db.Grows com (tx.view com)) {x : Nat × Nat} (mine : (tx.view com).Unfinished x)
    (theirs : com'.Unfinished x) : (tx.view com').Unfinished x := by
  have k' := rb.grows.keyed k
  have g' := grows_view_rebase owns rb k g
  obtain ⟨⟨t, ht, rfl⟩, -⟩ := (Db.unfinished_iff k').mp theirs
  obtain ⟨u, hu, same⟩ := Db.mem_of_fixed g'.fixed ht
  refine ⟨u, hu, slot_of_fixed same, ?_⟩
  rcases (mem_view_rebase owns rb).mp hu with ⟨old, -⟩ | ⟨new, -⟩
  · by_contra done
    exact ((Db.unfinished_iff (g.keyed k)).mp mine).2 ⟨u, old, slot_of_fixed same, by simpa using done⟩
  · by_contra done
    exact ((Db.unfinished_iff k').mp theirs).2 ⟨u, new, slot_of_fixed same, by simpa using done⟩

/-- What a transaction keeps about builds survives the commits of others. -/
theorem Steady.rebase (st : Steady com (tx.cfg com)) (owns : tx.Owns) (rb : Rebase tx.locks com com')
    (ids : com'.builds.map BuildRow.id = com.builds.map BuildRow.id)
    (kept : ∀ t ∈ com.tasks, t.state = .failed → t ∈ com'.tasks)
    (failed : ∀ row ∈ com'.builds, row.state = .failed → com'.HasFailed row.id) :
    Steady com' (tx.cfg com') := by
  -- failed rows, of the view and of the committed tables, are still in the view
  have keeps : ∀ t ∈ com'.tasks, t.state = .failed → t ∈ (tx.view com').tasks := by
    intro t ht failed
    refine (mem_view_rebase owns rb).mpr ?_
    by_cases locked : Lock.task t.uid ∈ tx.locks
    · exact Or.inl ⟨st.keeps t ((rb.mem_locked locked).mp ht) failed, locked⟩
    · exact Or.inr ⟨ht, locked⟩
  have mono : ∀ {build : Nat}, (tx.view com).HasFailed build → (tx.view com').HasFailed build := by
    rintro build ⟨t, ht, rfl, failed⟩
    refine ⟨t, (mem_view_rebase owns rb).mpr ?_, rfl, failed⟩
    by_cases locked : Lock.task t.uid ∈ tx.locks
    · exact Or.inl ⟨ht, locked⟩
    · exact Or.inr ⟨kept t ((mem_view_unlocked owns locked).mp ht) failed, locked⟩
  constructor
  · change (tx.view com').builds.map BuildRow.id = _
    rw [Tx.view, foldl_apply_builds, List.map_map]
    exact List.map_congr_left fun r _ => buildAfter_id tx.writes r
  · exact keeps
  · intro row member state
    rcases mem_view_builds ids member with mine | ⟨theirs, -⟩
    · exact mono (st.failed row mine state)
    · obtain ⟨t, ht, build, isFailed⟩ := failed row theirs state
      exact ⟨t, keeps t ht isFailed, build, isFailed⟩
  · intro build member
    exact mono (st.due build member)

end Rebase

/-! ### Overlooking a build -/

/-- The open transaction `tx` has finished the task in slot `s` of the build and
has its count behind it. -/
def Tx.passed (tx : Tx) (com : Db) (build : Nat) (s : Nat × Nat) : Bool :=
  decide ((tx.view com).Finished s) && !countDue com.deps build tx.stack &&
    decide ((tx.view com).Running build)

/-- The step is a count that finds unfinished tasks and no failed one, while every
task it finds unfinished is finished by another open transaction that has its own
count behind it. -/
def World.overlooks {n : Nat} (w : World n) : Act n → Bool
  | .exec i => match w.txs i with
    | some tx => match tx.stack with
      | .progress build :: _ =>
          (tx.view w.com).failed build = 0 && (tx.view w.com).left build ≠ 0 &&
            ((tx.view w.com).tasks.filter fun t => t.buildId = build && !t.state.finished).all
              fun t => (List.finRange n).any fun j =>
                j ≠ i && (w.txs j).any fun tx' => tx'.passed w.com build t.slot
      | _ => false
    | none => false
  | _ => false

/-- What a count sees that overlooks nothing. -/
theorem World.seen_of_not_overlooks {n : Nat} {w : World n} {i : Fin n} {tx : Tx} {build : Nat}
    {rest : List Stmt} (runs : w.txs i = some tx) (top : tx.stack = .progress build :: rest)
    (clear_ : w.overlooks (.exec i) = false) (noneFailed : ¬ 0 < (tx.view w.com).failed build)
    (some_ : (tx.view w.com).left build ≠ 0) :
    ∃ t ∈ (tx.view w.com).tasks, t.buildId = build ∧ t.state.finished = false ∧
      ∀ j tx', j ≠ i → w.txs j = some tx' → (tx'.view w.com).Finished t.slot →
        countDue w.com.deps build tx'.stack = true ∨ ¬ (tx'.view w.com).Running build := by
  have zero : (tx.view w.com).failed build = 0 := by omega
  simp only [World.overlooks, runs, top, zero, decide_true, Bool.true_and, ne_eq, some_,
    not_false_eq_true, List.all_eq_false, List.mem_filter, Bool.and_eq_true, Bool.not_eq_true',
    decide_eq_true_eq] at clear_
  obtain ⟨t, ⟨ht, rfl, unfinished⟩, alone⟩ := clear_
  refine ⟨t, ht, rfl, unfinished, fun j tx' other running done => ?_⟩
  by_contra behind
  rw [not_or, Bool.not_eq_true, not_not] at behind
  refine alone (List.any_eq_true.mpr ⟨j, List.mem_finRange j, ?_⟩)
  simp [other, running, Tx.passed, done, behind.1, behind.2]

/-! ### The invariant -/

/-- One unfinished sink of every running build watches it for all transactions. -/
structure World.Watch (H : Sha256) {n : Nat} (w : World n) : Prop where
  inv : w.Inv H
  ids : (w.com.builds.map BuildRow.id).Nodup
  layered : w.com.Layered
  failed : ∀ row ∈ w.com.builds, row.state = .failed → w.com.HasFailed row.id
  steady : ∀ i tx, w.txs i = some tx → Steady w.com (tx.cfg w.com) ∧ tx.Closes
  watch : ∀ build, w.com.Running build → ∃ x : Nat × Nat, x.1 = build ∧ w.com.Sink x ∧
    w.com.Unfinished x ∧ ∀ i tx, w.txs i = some tx → Watched (tx.cfg w.com) build x

theorem view_deps (tx : Tx) (com : Db) : (tx.view com).deps = com.deps := foldl_apply_deps _ _

/-- A transaction writes only closed builds, statement by statement. -/
theorem Tx.Closes.exec {H : Sha256} {o : Options} {tx : Tx} (closes : tx.Closes) (com : Db) (s : Stmt)
    (rest : List Stmt) :
    (tx.after (s.target (tx.view com)) (exec H o (tx.view com) s) rest).Closes := by
  intro row member
  rcases List.mem_append.mp member with old | new
  · exact closes row old
  · obtain ⟨-, -, -, -, ⟨-, closed⟩ | ⟨-, closed⟩⟩ := exec_build (Option.mem_toList.mp new)
    · rw [closed]; simp
    · rw [closed]; simp

section Watch

variable {H : Sha256} {o : Options} {n : Nat} {w w' : World n} {a : Act n} {com com' : Db} {tx : Tx}

/-- The watch of a transaction survives the commits of others that leave the sink
unfinished. -/
theorem Watched.rebase (good : tx.Good H com) (base : Consistent H com) (rb : Rebase tx.locks com com')
    (ids : com'.builds.map BuildRow.id = com.builds.map BuildRow.id)
    (opened : ∀ build, com'.Running build → com.Running build) {build : Nat} {x : Nat × Nat}
    (watched : Watched (tx.cfg com) build x) (unfinished : com'.Unfinished x) :
    Watched (tx.cfg com') build x := by
  rcases watched with due | closed | mine
  · refine Or.inl ?_
    simp only [Tx.cfg, view_deps] at due ⊢
    rw [rb.grows.deps]
    exact due
  · exact Or.inr (Or.inl fun running => closed (running_view_rebase ids opened running))
  · exact Or.inr (Or.inr
      (unfinished_view_rebase good.owns rb base.keyed good.mid.grows mine unfinished))

/-- A count passes the watch on to a sink above a task it has seen unfinished. -/
theorem World.Watch.pass (watch : w.Watch H) {i : Fin n} {s : Stmt} {rest : List Stmt}
    (runs : w.txs i = some tx) (top : tx.stack = s :: rest) {t : TaskRow}
    (ht : t ∈ (tx.view w.com).tasks) (unfinished : t.state.finished = false)
    (others : ∀ j tx', j ≠ i → w.txs j = some tx' → (tx'.view w.com).Finished t.slot →
      countDue w.com.deps t.buildId tx'.stack = true ∨ ¬ (tx'.view w.com).Running t.buildId) :
    ∃ x : Nat × Nat, x.1 = t.buildId ∧ w.com.Sink x ∧ w.com.Unfinished x ∧
      (∀ j tx', j ≠ i → w.txs j = some tx' → Watched (tx'.cfg w.com) t.buildId x) ∧
      Watched ((tx.cfg w.com).after (DistCompile.exec H o (tx.view w.com) s) rest) t.buildId x := by
  have base := watch.inv.base
  have good := watch.inv.good i tx runs
  have k := base.keyed
  have kv := good.mid.keyed k
  obtain ⟨r, hr, same⟩ := Db.mem_of_fixed good.mid.grows.fixed.symm ht
  obtain ⟨u, hu, build, sink, above⟩ := Db.exists_sink watch.layered base.linked hr
  rw [slot_of_fixed same] at above
  rw [build_of_fixed same] at build
  -- whoever has not finished `t` has not finished the sink
  have open_ : ∀ tx' : Tx, tx'.Good H w.com → ¬ (tx'.view w.com).Finished t.slot →
      (tx'.view w.com).Unfinished u.slot := by
    intro tx' good' fresh
    obtain ⟨v, hv, vsame⟩ := Db.mem_of_fixed good'.mid.grows.fixed hu
    refine (Db.unfinished_iff (good'.mid.keyed k)).mpr ⟨⟨v, hv, slot_of_fixed vsame⟩, fun done => ?_⟩
    exact fresh (above _ (view_deps tx' w.com) (good'.mid.upward base) done)
  have mine := open_ tx good (Db.not_finished_of_row kv ht unfinished)
  refine ⟨u.slot, build, sink, good.mid.grows.unfinished k mine, fun j tx' other running => ?_, ?_⟩
  · by_cases done : (tx'.view w.com).Finished t.slot
    · rcases others j tx' other running done with due | closed
      · refine Or.inl ?_
        rw [Tx.cfg, view_deps]
        exact due
      · exact Or.inr (Or.inl closed)
    · exact Or.inr (Or.inr (open_ tx' (watch.inv.good j tx' running) done))
  · have sinkHere : (tx.cfg w.com).db.Sink u.slot := sink_of_deps (view_deps tx w.com) sink
    rw [← build]
    exact Watched.exec_unfinished good.mid base top sinkHere mine

/-- A statement that overlooks nothing keeps the watch. -/
theorem World.Watch.exec (watch : w.Watch H) {i : Fin n} {s : Stmt} {rest : List Stmt}
    (runs : w.txs i = some tx) (top : tx.stack = s :: rest) (clear_ : w.overlooks (.exec i) = false)
    {build : Nat} (running : w.com.Running build) :
    ∃ x : Nat × Nat, x.1 = build ∧ w.com.Sink x ∧ w.com.Unfinished x ∧
      (∀ j tx', j ≠ i → w.txs j = some tx' → Watched (tx'.cfg w.com) build x) ∧
      Watched ((tx.cfg w.com).after (DistCompile.exec H o (tx.view w.com) s) rest) build x := by
  have good := watch.inv.good i tx runs
  by_cases blind : s = .progress build ∧ ¬ 0 < (tx.view w.com).failed build ∧
      (tx.view w.com).left build ≠ 0
  · obtain ⟨rfl, noneFailed, some_⟩ := blind
    obtain ⟨t, ht, rfl, unfinished, others⟩ :=
      World.seen_of_not_overlooks runs top clear_ noneFailed some_
    exact watch.pass runs top ht unfinished others
  · obtain ⟨x, rfl, sink, open_, watched⟩ := watch.watch build running
    refine ⟨x, rfl, sink, open_, fun j tx' _ => watched j tx', ?_⟩
    have ids : ((tx.cfg w.com).db.builds.map BuildRow.id).Nodup :=
      (watch.steady i tx runs).1.ids ▸ watch.ids
    refine (watched i tx runs).exec good.mid watch.inv.base ids top
      (sink_of_deps (view_deps tx w.com) sink) fun count => ?_
    by_contra neither
    rw [not_or] at neither
    exact blind ⟨count, neither.1, neither.2⟩

/-- New committed tables, for the transactions `txs` that stay open. -/
theorem World.Watch.rebase {txs : Fin n → Option Tx} {history : List (List Event)}
    (watch : w.Watch H) (inv : World.Inv H ⟨com', txs, history⟩)
    (kept : ∀ j tx, txs j = some tx → w.txs j = some tx ∧ Rebase tx.locks w.com com')
    (grows : Db.Grows w.com com')
    (ids : com'.builds.map BuildRow.id = w.com.builds.map BuildRow.id)
    (opened : ∀ build, com'.Running build → w.com.Running build)
    (failedRows : ∀ t ∈ w.com.tasks, t.state = .failed → t ∈ com'.tasks)
    (failed : ∀ row ∈ com'.builds, row.state = .failed → com'.HasFailed row.id)
    (unfinished : ∀ (x : Nat × Nat), com'.Running x.1 → w.com.Unfinished x →
      (∀ i tx, w.txs i = some tx → Watched (tx.cfg w.com) x.1 x) → com'.Unfinished x) :
    World.Watch H ⟨com', txs, history⟩ where
  inv := inv
  ids := ids ▸ watch.ids
  layered := by
    obtain ⟨rank, up⟩ := watch.layered
    exact ⟨rank, grows.deps ▸ up⟩
  failed := failed
  steady j tx running := by
    obtain ⟨before, rb⟩ := kept j tx running
    obtain ⟨steady, closes⟩ := watch.steady j tx before
    exact ⟨steady.rebase (watch.inv.good j tx before).owns rb ids failedRows failed, closes⟩
  watch build running := by
    obtain ⟨x, rfl, sink, open_, watched⟩ := watch.watch build (opened build running)
    have still := unfinished x running open_ watched
    refine ⟨x, rfl, sink_of_deps grows.deps sink, still, fun j tx here => ?_⟩
    obtain ⟨before, rb⟩ := kept j tx here
    exact (watched j tx before).rebase (watch.inv.good j tx before) watch.inv.base rb ids opened still

/-- Every step that overlooks nothing keeps the watch. -/
theorem World.Watch.move (watch : w.Watch H) (clear_ : w.overlooks a = false)
    (taken : World.Move H o w a w') : w'.Watch H := by
  have inv := watch.inv.move taken
  cases taken with
  | @begin i blobs now r idle =>
    refine ⟨inv, watch.ids, watch.layered, watch.failed, fun j tx running => ?_, fun build running => ?_⟩
    · rw [setTx_txs] at running
      split at running
      · cases running
        refine ⟨⟨rfl, fun _ ht _ => ht, watch.failed, fun build member => ?_⟩, by simp [Tx.Closes]⟩
        exact absurd member (completeTask_plain _ _ _ _ _)
      · exact watch.steady j tx running
    · obtain ⟨x, build, sink, open_, watched⟩ := watch.watch build running
      refine ⟨x, build, sink, open_, fun j tx running => ?_⟩
      rw [setTx_txs] at running
      split at running
      · cases running
        exact Or.inr (Or.inr open_)
      · exact watched j tx running
  | @exec i tx s rest runs top enabled =>
    refine ⟨inv, watch.ids, watch.layered, watch.failed, fun j tx' running => ?_, fun build running => ?_⟩
    · rw [setTx_txs] at running
      split at running
      · cases running
        obtain ⟨steady, closes⟩ := watch.steady i tx runs
        refine ⟨?_, closes.exec w.com s rest⟩
        change Steady w.com (Tx.cfg _ w.com)
        rw [Tx.cfg_after]
        exact steady.exec (watch.inv.good i tx runs).mid watch.inv.base top
      · exact watch.steady j tx' running
    · obtain ⟨x, build, sink, open_, others, mine⟩ := watch.exec (o := o) runs top clear_ running
      refine ⟨x, build, sink, open_, fun j tx' running => ?_⟩
      rw [setTx_txs] at running
      split at running
      · cases running
        change Watched (Tx.cfg _ w.com) _ x
        rw [Tx.cfg_after]
        exact mine
      · exact others j tx' (by assumption) running
  | @commit i tx runs empty =>
    have good := watch.inv.good i tx runs
    obtain ⟨steady, closes⟩ := watch.steady i tx runs
    refine watch.rebase inv (fun j tx' running => ?_) good.mid.grows steady.ids
      (fun build => closes.running) steady.keeps steady.failed fun x running _ watched => ?_
    · rw [Function.update_apply] at running
      split at running
      · cases running
      · rename_i away
        exact ⟨running, good.rebase_of_commit (watch.inv.apart i j tx tx' (Ne.symm away) runs running)⟩
    · rcases watched i tx runs with due | closed | open_
      · simp [Tx.cfg, empty, countDue] at due
      · exact absurd running closed
      · exact open_
  | @abort i tx runs =>
    have others : ∀ j tx', (w.setTx i none).txs j = some tx' → w.txs j = some tx' := by
      intro j tx' running
      rw [setTx_txs] at running
      split at running
      · cases running
      · exact running
    refine ⟨inv, watch.ids, watch.layered, watch.failed,
      fun j tx' running => watch.steady j tx' (others j tx' running), fun build running => ?_⟩
    obtain ⟨x, build, sink, open_, watched⟩ := watch.watch build running
    exact ⟨x, build, sink, open_, fun j tx' running => watched j tx' (others j tx' running)⟩
  | @claim worker toolchain part now uid t ht ready free =>
    have unfinished : t.state.finished = false := by rw [ready]; rfl
    have fixed : (claimedRow o worker now t).fixed = t.fixed := rfl
    have grows := Db.grows_apply_task watch.inv.base.keyed ht fixed unfinished
    have kept : ∀ u ∈ w.com.tasks, u.state = .failed →
        u ∈ (w.com.apply (.task (claimedRow o worker now t))).tasks := by
      intro u hu failed
      refine (Db.mem_apply_task ht fixed).mpr (Or.inr ⟨hu, fun same => ?_⟩)
      rw [watch.inv.base.keyed.uid_inj hu ht same, ready] at failed
      cases failed
    refine watch.rebase inv (fun j tx running => ⟨running, rebase_of_claim watch.inv.base ht ready
      (free j tx running)⟩) grows rfl (fun _ running => running) kept (fun row member failed => ?_)
      fun x _ open_ _ => ?_
    · obtain ⟨u, hu, build, state⟩ := watch.failed row member failed
      exact ⟨u, kept u hu state, build, state⟩
    · obtain ⟨⟨u, hu, slot⟩, fresh⟩ := (Db.unfinished_iff watch.inv.base.keyed).mp open_
      obtain ⟨v, hv, same⟩ := Db.mem_of_fixed grows.fixed hu
      refine (Db.unfinished_iff (grows.keyed watch.inv.base.keyed)).mpr
        ⟨⟨v, hv, (slot_of_fixed same).trans slot⟩, fun done => ?_⟩
      rcases (Db.finished_apply_task watch.inv.base.keyed ht fixed unfinished).mp done with old | ⟨-, now_⟩
      · exact fresh old
      · cases now_

theorem World.Watch.start (base : Consistent H w.com) (noticed : Noticed w.com) (quiet : w.Quiet) :
    w.Watch H where
  inv := World.Inv.start base quiet
  ids := noticed.ids
  layered := noticed.layered
  failed := noticed.failed
  steady i tx running := by
    rw [quiet i] at running
    cases running
  watch build running := by
    obtain ⟨t, ht, rfl, unfinished⟩ := noticed.running build running
    have m : Mid H w.com ⟨w.com, [.progress t.buildId], []⟩ := Mid.start base trivial rfl rfl
    obtain ⟨x, build, sink, open_⟩ := m.unfinished_sink base noticed.layered ht unfinished
    refine ⟨x, build, sink, open_, fun i tx running => ?_⟩
    rw [quiet i] at running
    cases running

/-- When no transaction is open, every build whose tasks are all finished is done. -/
theorem World.Watch.noticed (watch : w.Watch H) {row : BuildRow} (member : row ∈ w.com.builds)
    (all : ∀ t ∈ w.com.tasks, t.buildId = row.id → t.state.finished = true) : row.state = .done := by
  cases state : row.state with
  | done => rfl
  | running =>
    obtain ⟨x, build, -, ⟨t, ht, slot, unfinished⟩, -⟩ := watch.watch row.id ⟨row, member, rfl, state⟩
    rw [all t ht ((congrArg Prod.fst slot).trans build)] at unfinished
    cases unfinished
  | failed =>
    obtain ⟨t, ht, build, failed⟩ := watch.failed row member state
    have done := all t ht build
    rw [failed] at done
    cases done

end Watch

/-! ### The theorem and its limits -/

/-- Whenever no transaction is in progress, a build all of whose tasks are done or
cached is done. -/
def World.FinishedBuildsDone {n : Nat} (w : World n) : Prop :=
  w.Quiet → ∀ row ∈ w.com.builds,
    (∀ t ∈ w.com.tasks, t.buildId = row.id → t.state.finished = true) → row.state = .done

/-- In a run of interleaved completions none of whose counts overlooks a build,
finished builds are noticed. -/
theorem finished_builds_done {H : Sha256} {o : Options} {n : Nat} {calls : List Call} {c : Coordinator}
    {acts : List (Act n)} {w : World n}
    (reached : Runs (Meets (Step H o) fun _ call => call.Flat) {} calls c)
    (run : Runs (Meets (World.Step H o) fun w a => w.overlooks a = false)
      ⟨c.db, fun _ => none, []⟩ acts w) : w.FinishedBuildsDone := by
  obtain ⟨base, noticed⟩ := Runs.noticed reached
  have watch : w.Watch H := by
    refine run.invariant (P := World.Watch H) (World.Watch.start base noticed fun _ => rfl) ?_
    intro w a w' taken watch
    exact watch.move taken.1 taken.2.move
  intro _ row member all
  exact watch.noticed member all

/-- One source in a library and in a program. -/
def twoSinkSpec : BuildSpec where
  toolchain := "gcc".toList
  tasks := [
    ⟨0, COMPILE, "obj/f.c.o".toList, [], sampleKey, sampleInput, ["cc".toList], 10⟩,
    ⟨1, ARCHIVE, "libf.a".toList, [0], [], [], [], 1000⟩,
    ⟨2, LINK, "g".toList, [0], [], [], ["cc".toList], 5000⟩]

def twoSinkCoordinator : Coordinator where
  db := (submitBuild sampleSha {} (Blobs.has [(sampleInput, "int f;".toList)]) {} 1 twoSinkSpec).1
  blobs := [(sampleInput, "int f;".toList)]

theorem two_sink_reached : ∃ calls,
    Runs (Meets (Step sampleSha {}) fun _ call => call.Flat) {} calls twoSinkCoordinator := by
  have flat : twoSinkSpec.Flat := by
    intro ts member compile
    simp only [twoSinkSpec, List.mem_cons, List.not_mem_nil, or_false] at member
    rcases member with rfl | rfl | rfl
    · rfl
    · exact absurd compile (by decide)
    · exact absurd compile (by decide)
  have uploaded : Meets (Step sampleSha {}) (fun _ call => call.Flat) {}
      (.putBlob "int f;".toList [] true) ⟨{}, [(sampleInput, "int f;".toList)]⟩ :=
    ⟨trivial, .putBlob rfl⟩
  have submitted : Meets (Step sampleSha {}) (fun _ call => call.Flat)
      ⟨{}, [(sampleInput, "int f;".toList)]⟩ (.submitBuild twoSinkSpec 1 _) twoSinkCoordinator :=
    ⟨flat, .submitBuild⟩
  exact ⟨_, (Runs.nil.snoc uploaded).snoc submitted⟩

/-- The workers' blobs, and an ok result of attempt 1 of a task. -/
def twoSinkBlobs : Blobs := [(sampleOutput, "o:int f;".toList)]

def okResult (uid : Nat) (worker : Str) : TaskResult := ⟨uid, 1, worker, true, false, sampleOutput, [], 7⟩

/-- The object is compiled and the two sinks are claimed. -/
def twoSinkStart : List (Act 2) :=
  [.claim "v".toList "gcc".toList 0 0 1, .begin 0 twoSinkBlobs 0 (okResult 1 "v".toList)] ++
    List.replicate 15 (.exec 0) ++ [.commit 0,
      .claim "w".toList "gcc".toList 0 0 3, .claim "v".toList "gcc".toList 0 0 2]

/-- The two sinks are completed side by side, or one after the other. -/
def twoSinkTogether : List (Act 2) :=
  [.begin 0 twoSinkBlobs 0 (okResult 2 "v".toList), .begin 1 twoSinkBlobs 0 (okResult 3 "w".toList)] ++
    List.replicate 4 (.exec 0) ++ List.replicate 4 (.exec 1) ++ [.commit 0, .commit 1]

def twoSinkInTurn : List (Act 2) :=
  [.begin 0 twoSinkBlobs 0 (okResult 2 "v".toList), .begin 1 twoSinkBlobs 0 (okResult 3 "w".toList)] ++
    List.replicate 4 (.exec 0) ++ List.replicate 3 (.exec 1) ++ [.commit 0, .exec 1, .exec 1, .commit 1]

/-- Completed in turn, as far as the counts go, the build is done. -/
theorem finished_builds_done_in_turn :
    ∃ calls c acts, ∃ w : World 2,
      Runs (Meets (Step sampleSha {}) fun _ call => call.Flat) {} calls c ∧
      Runs (Meets (World.Step sampleSha {}) fun w a => w.overlooks a = false)
        ⟨c.db, fun _ => none, []⟩ acts w ∧
      w.com.builds.map BuildRow.state = [.done] ∧ w.FinishedBuildsDone := by
  obtain ⟨calls, reached⟩ := two_sink_reached
  have replay : ((twoSinkStart ++ twoSinkInTurn).foldlM
      (fun (w : World 2) a => if w.overlooks a then none else w.step sampleSha {} a)
      ⟨twoSinkCoordinator.db, fun _ => none, []⟩).map (fun w => w.com.builds.map BuildRow.state) =
      some [.done] := by decide +kernel
  obtain ⟨w, ran, states⟩ := Option.map_eq_some_iff.mp replay
  have run : Runs (Meets (World.Step sampleSha {}) fun w a => w.overlooks a = false)
      ⟨twoSinkCoordinator.db, fun _ => none, []⟩ (twoSinkStart ++ twoSinkInTurn) w := by
    refine (Runs.of_foldlM ran).mono fun taken => ?_
    split at taken
    · cases taken
    · rename_i clear_
      exact ⟨Bool.eq_false_iff.mpr clear_, taken⟩
  exact ⟨calls, twoSinkCoordinator, _, w, reached, run, states, finished_builds_done reached run⟩

/-- Completed side by side, both transactions commit, every task is done and the
build stays running. -/
theorem build_overlooked :
    ∃ calls c acts, ∃ w : World 2,
      Runs (Meets (Step sampleSha {}) fun _ call => call.Flat) {} calls c ∧
      Runs (World.Step sampleSha {}) ⟨c.db, fun _ => none, []⟩ acts w ∧ ¬ w.FinishedBuildsDone := by
  obtain ⟨calls, reached⟩ := two_sink_reached
  have replay : ((twoSinkStart ++ twoSinkTogether).foldlM (World.step sampleSha {})
      ⟨twoSinkCoordinator.db, fun _ => none, []⟩).map (fun w => ((w.txs 0, w.txs 1),
        w.com.builds.map BuildRow.state, w.com.tasks.all fun t => t.state.finished)) =
      some ((none, none), [.running], true) := by decide +kernel
  obtain ⟨w, ran, facts⟩ := Option.map_eq_some_iff.mp replay
  simp only [Prod.mk.injEq, List.all_eq_true] at facts
  obtain ⟨⟨first, second⟩, states, all⟩ := facts
  refine ⟨calls, twoSinkCoordinator, _, w, reached, Runs.of_foldlM ran, fun noticed => ?_⟩
  have quiet : w.Quiet := by
    intro i
    rcases i with ⟨_ | _ | i, bound⟩
    · exact first
    · exact second
    · omega
  obtain ⟨row, member, running⟩ : ∃ row ∈ w.com.builds, row.state = .running :=
    List.mem_map.mp (states ▸ List.mem_singleton_self _)
  have done := noticed quiet row member fun t ht _ => all t ht
  rw [running] at done
  cases done

end DistCompile
