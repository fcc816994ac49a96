import DistCompile.Sessions
import DistCompile.Settled

/-!
Build results under interleaved sessions (`maybe_finish` in `src/coordinator.cpp`).

`maybe_finish` counts in one statement and writes the build row in another, while other
sessions go on. What it has counted stays: no step takes a task out of `done`, `cached` or
`failed` (`Onward`), as long as the walk of `submit` finds no compile task in the cache that
still waits for a dependency (`World.Unforeseen`). The specs of `dcc` have no such task. So a
result that is due stays right until it is written (`Due`), in the view of a transaction, in
a submit and between the statements of the reaper (`Session.Lawful`).
-/

namespace DistCompile.Sessions

open DistCompile.Lib

/-! ### Rows -/

/-- What holds of every row: a task that counts down waits, one that is finished has its output. -/
structure Lawful (t : TaskRow) : Prop where
  waiting : t.state = .waiting → t.attempts = 0
  counts : 0 < t.pendingDeps → Waits t.state t.attempts
  output : t.state.finished = true → t.output.isSome = true

/-- A row and a later version of it: what is settled stays. -/
structure Onward (t t' : TaskRow) : Prop where
  same : SameTask t t'
  kept : t.state.settled = true → t.Kept t'

theorem Onward.refl (t : TaskRow) : Onward t t := ⟨.refl t, fun _ => .refl t⟩

theorem Onward.trans {t t' t'' : TaskRow} (first : Onward t t') (second : Onward t' t'') : Onward t t'' :=
  ⟨first.same.trans second.same, fun settled =>
    (first.kept settled).trans (second.kept ((first.kept settled).state ▸ settled))⟩

theorem Onward.finished {t t' : TaskRow} (onward : Onward t t') (finished : t.state.finished = true) :
    t'.state.finished = true := by
  have settled : t.state.settled = true := by
    cases state : t.state <;> rw [state] at finished <;> first | rfl | cases finished
  rw [(onward.kept settled).state]
  exact finished

theorem Onward.failed {t t' : TaskRow} (onward : Onward t t') (failed : t.state = .failed) : t'.state = .failed := by
  rw [(onward.kept (by rw [failed]; rfl)).state]
  exact failed

/-- A move of a statement. -/
theorem Onward.of_move {o : Options} {back : TaskRow → Prop} {t t' : TaskRow} (move : t.Move o Waits back t') :
    Onward t t' :=
  ⟨⟨move.same.uid, move.same.slot⟩, move.kept⟩

/-! ### Results -/

/-- The result of a build is right. -/
structure Verdict (db : Db) (b : BuildRow) : Prop where
  done : b.state = .done → ∀ t ∈ db.tasks, t.buildId = b.id → t.state.finished = true
  failed : b.state = .failed → db.HasFailed b.id

/-- A result that is due is right. -/
def Due (db : Db) : Stmt → Prop
  | .buildDone build => ∀ t ∈ db.tasks, t.buildId = build → t.state.finished = true
  | .buildFailed build => db.HasFailed build
  | _ => True

/-- What holds of the committed tables. -/
structure Judged (db : Db) : Prop where
  rows : ∀ t ∈ db.tasks, Lawful t
  cache : ∀ c ∈ db.cache, c.output ≠ []
  verdicts : ∀ b ∈ db.builds, Verdict db b

section Results

variable {H : Sha256} {o : Options} {db db' : Db} {s : Stmt}

theorem Advance.hasFailed (adv : Advance Onward db db') {build : Nat} (failed : db.HasFailed build) :
    db'.HasFailed build := by
  obtain ⟨t, ht, rfl, state⟩ := failed
  obtain ⟨t', ht', onward⟩ := adv.tasks t ht
  exact ⟨t', ht', onward.same.buildId, onward.failed state⟩

theorem Advance.finished (adv : Advance Onward db db') {build : Nat} (known : Known db build)
    (finished : ∀ t ∈ db.tasks, t.buildId = build → t.state.finished = true) :
    ∀ t ∈ db'.tasks, t.buildId = build → t.state.finished = true := by
  rintro t' ht' rfl
  rcases adv.origin t' ht' with ⟨t, ht, onward⟩ | unknown
  · exact onward.finished (finished t ht onward.same.buildId.symm)
  · exact absurd known unknown

theorem Verdict.advance {b : BuildRow} (verdict : Verdict db b) (adv : Advance Onward db db')
    (known : Known db b.id) : Verdict db' b :=
  ⟨fun done => adv.finished known (verdict.done done), fun failed => adv.hasFailed (verdict.failed failed)⟩

theorem Due.advance (due : Due db s) (adv : Advance Onward db db')
    (known : ∀ build, countOf s = some build → Known db build) : Due db' s := by
  cases s with
  | buildDone build => exact adv.finished (known build rfl) due
  | buildFailed build => exact adv.hasFailed due
  | _ => trivial

/-- What a count leads to is right. -/
theorem progress_due {build : Nat} : ∀ s' ∈ (exec H o db (.progress build)).next, Due db s' := by
  intro s' member
  simp only [exec] at member
  split_ifs at member with failed done
  · rw [List.mem_singleton.mp member]
    exact Db.failed_pos.mp failed
  · rw [List.mem_singleton.mp member]
    intro t ht build
    by_contra unfinished
    exact Db.left_ne_zero.mpr ⟨t, ht, build, by simpa using unfinished⟩ done
  · cases member

/-- No other statement leads to a result. -/
theorem next_due : ∀ s' ∈ (exec H o db s).next, Due ((exec H o db s).db db) s' := by
  intro s' member
  cases s with
  | progress build => exact progress_due s' member
  | dependents build id =>
    rcases mem_next_dependents member with ⟨t, -, rfl | rfl⟩ | ⟨-, rfl⟩ <;> trivial
  | _ =>
    simp only [exec, DistCompile.finished, makeReady, DistCompile.maybeFinish] at member
    grind [Due]

/-- The results after a statement. -/
theorem exec_verdicts (verdicts : ∀ b ∈ db.builds, Verdict db b) (isDue : Due db s)
    (adv : Advance Onward db ((exec H o db s).db db)) :
    ∀ b ∈ ((exec H o db s).db db).builds, Verdict ((exec H o db s).db db) b := by
  intro b hb
  rcases mem_exec_builds hb with ⟨old, -⟩ | written
  · exact (verdicts b old).advance adv ⟨b, old, rfl⟩
  · obtain ⟨r, hr, -, id, ⟨rfl, state⟩ | ⟨rfl, state⟩⟩ := exec_build written
    · refine ⟨fun done => ?_, fun _ => id ▸ adv.hasFailed isDue⟩
      rw [state] at done
      cases done
    · refine ⟨fun _ => id ▸ adv.finished ⟨r, hr, rfl⟩ isDue, fun failed => ?_⟩
      rw [state] at failed
      cases failed

end Results

/-! ### A completion under way -/

/-- The build that a statement is about. -/
def about : Stmt → Option Nat
  | .cachePut build _ _ _ _ | .dependents build _ | .countDown build _ _ | .taskInfo build _
  | .depOutputs build _ _ _ _ | .cacheHit build _ _ _ _ | .markCached build _ _ _ | .markReady build _ _ _ _
  | .progress build | .buildFailed build | .buildDone build => some build
  | .complete _ _ | .retry _ _ | .fail _ | .lockRow _ => none

/-- The output that a statement records. -/
def records : Stmt → Option Str
  | .complete r _ => some r.output
  | .cachePut _ _ _ output _ => some output
  | _ => none

/-- What holds of a transaction on top of the committed tables. -/
structure Completing (com : Db) (tx : Tx) : Prop where
  written : Written Onward com tx
  lawful : ∀ row, .task row ∈ tx.writes → Lawful row
  cache : ∀ row, .cache row ∈ tx.writes → row.output ≠ []
  fits : ∀ s ∈ tx.stack, s.Fits Waits (tx.view com)
  loops : ∀ s ∈ tx.stack.tail, s.isLoop = true
  locked : ∀ t ∈ (tx.view com).tasks, subject tx.stack = some t.slot → Lock.task t.uid ∈ tx.locks
  known : ∀ s ∈ tx.stack, ∀ build, about s = some build → Known com build
  nonempty : ∀ s ∈ tx.stack, ∀ output, records s = some output → output ≠ []
  due : ∀ s ∈ tx.stack, Due (tx.view com) s
  verdicts : ∀ b ∈ (tx.view com).builds, Verdict (tx.view com) b

section Statements

variable {H : Sha256} {o : Options} {db com com' : Db} {tx : Tx} {s : Stmt} {rest : List Stmt}

/-- A statement that finishes a task records its output. -/
theorem exec_lawful (rows : ∀ t ∈ db.tasks, Lawful t) (fits : s.Fits Waits db) {row : TaskRow}
    (written : (exec H o db s).write = some (.task row)) : Lawful row := by
  obtain ⟨t, ht, move⟩ := exec_moves fits written
  refine ⟨fun waits => ?_, fun counts => move.young Waits.closed (rows t ht).counts counts, fun finished => ?_⟩
  · rw [move.same.attempts]
    exact (rows t ht).waiting (move.waiting waits)
  · obtain ⟨u, hu, next, -, rewrites⟩ := exec_rewrites written
    cases rewrites with
    | complete | markCached => rfl
    | retry =>
      rw [requeue_unfinished] at finished
      cases finished
    | fail | markReady => cases finished
    | countDown => exact (rows u hu).output finished

/-- The builds that the following statements are about. -/
theorem next_about (s' : Stmt) (member : s' ∈ (exec H o db s).next) {build : Nat} (here : about s' = some build) :
    about s = some build ∨ ∃ t ∈ db.tasks, t.buildId = build := by
  have byUid : ∀ {uid : Nat} {t : TaskRow}, db.task? uid = some t → t ∈ db.tasks := List.mem_of_find?_eq_some
  cases s with
  | dependents b id =>
    rcases mem_next_dependents member with ⟨t, -, rfl | rfl⟩ | ⟨-, rfl⟩
    · cases here
    · exact Or.inl here
    · exact Or.inl here
  | _ =>
    simp only [exec, DistCompile.finished, makeReady, DistCompile.maybeFinish] at member
    grind [about]

/-- What the following statements record. -/
theorem next_records (s' : Stmt) (member : s' ∈ (exec H o db s).next) {output : Str}
    (here : records s' = some output) : records s = some output := by
  rcases exec_hands member with plain | hands
  · cases s' with
    | complete | cachePut => cases plain
    | _ => cases here
  · cases hands with
    | put => exact here
    | mark => cases here

/-- What a statement puts into the cache. -/
theorem exec_cache (cache : ∀ c ∈ db.cache, c.output ≠ []) (valid : ∀ output, records s = some output → output ≠ [])
    {row : CacheRow} (written : (exec H o db s).write = some (.cache row)) : row.output ≠ [] := by
  cases exec_caches written with
  | put => exact valid _ rfl
  | @hit _ _ _ _ row found => exact cache row (mem_of_cached? found).1

theorem Written.keyed (written : Written Onward com tx) : Written SameTask com tx := by
  refine ⟨fun row member => ?_, written.builds⟩
  obtain ⟨locked, t, ht, onward⟩ := written.tasks row member
  exact ⟨locked, t, ht, onward.same⟩

/-- The rows of a view. -/
theorem Completing.rows (tx_ : Completing com tx) (judged : Judged com) : ∀ t ∈ (tx.view com).tasks, Lawful t := by
  intro t ht
  rcases tx_.written.mem_tasks ht with ⟨old, -⟩ | ⟨-, old | new⟩
  · exact judged.rows t old
  · exact judged.rows t old
  · exact tx_.lawful t new

theorem Indexed.counting (tables : Indexed db) (rows : ∀ t ∈ db.tasks, Lawful t) : Counting Waits db := by
  refine ⟨tables.uids, tables.slots, fun t ht => ?_, fun t ht => (rows t ht).waiting, fun t ht => (rows t ht).counts⟩
  obtain ⟨b, hb, id⟩ := tables.known t ht
  rw [← id]
  exact tables.fresh b hb

/-- One statement, on tables that are in order. -/
theorem exec_advance (tables : Indexed db) (fits : s.Fits Waits db) :
    Advance Onward db ((exec H o db s).db db) := by
  have begin_ : Written Onward db { stack := [s] } := ⟨by simp, by simp⟩
  have ran : Written Onward db (Tx.after { stack := [s] } (s.target db) (exec H o db s) []) :=
    begin_.exec Onward.refl Onward.trans Onward.same tables fun row written => by
      obtain ⟨t, ht, move⟩ := exec_moves fits written
      exact ⟨t, ht, .of_move move⟩
  have advance := ran.advance Onward.refl Onward.same tables
  rwa [Tx.view_after] at advance

/-- After a statement `make_ready` is about the same task, or about one whose row has been locked. -/
theorem next_subject (tables : Indexed db) (fits : s.Fits Waits db) (loops : ∀ s' ∈ rest, s'.isLoop = true)
    {slot : Nat × Nat} (here : subject ((exec H o db s).next ++ rest) = some slot) :
    subject (s :: rest) = some slot ∨ ∃ t ∈ db.tasks, t.slot = slot ∧ s.target db = some (.task t.uid) := by
  have none_ : subject rest = none := subject_of_loops loops
  cases s with
  | countDown build id uid =>
    obtain ⟨t, ht, uid_eq, build_eq⟩ := fits
    have found : db.task? uid = some t := uid_eq ▸ tables.uids.task?_eq ht
    simp only [exec, found] at here
    split at here
    · refine Or.inr ⟨t, ht, ?_, by simp [Stmt.target, found]⟩
      rw [← Option.some.inj here, TaskRow.slot, build_eq]
    · rw [List.nil_append, none_] at here
      cases here
  | taskInfo build id =>
    simp only [exec] at here
    split at here
    · exact Or.inl here
    · rw [List.nil_append, none_] at here
      cases here
  | depOutputs build id kind args toolchain => exact Or.inl here
  | cacheHit build id key names digests =>
    simp only [exec] at here
    split at here
    · exact Or.inl here
    · exact Or.inl here
  | dependents build id =>
    simp only [exec] at here
    cases rows : db.dependents build id with
    | nil => rw [rows] at here; cases here
    | cons t ts => rw [rows] at here; cases here
  | _ =>
    simp only [exec, DistCompile.finished, DistCompile.maybeFinish] at here
    grind [subject]

/-- The rest of a stack, and what a statement puts in front of it. -/
theorem next_loops (counting : Counting Waits db) (fits : s.Fits Waits db) (loops : ∀ s' ∈ rest, s'.isLoop = true) :
    ∀ s' ∈ ((exec H o db s).next ++ rest).tail, s'.isLoop = true := by
  intro s' member
  obtain ⟨-, tail⟩ := exec_next (H := H) (o := o) counting fits
  cases new : (exec H o db s).next with
  | nil =>
    rw [new, List.nil_append] at member
    exact loops s' (List.mem_of_mem_tail member)
  | cons first others =>
    rw [new, List.cons_append, List.tail_cons] at member
    rcases List.mem_append.mp member with other | old
    · exact tail s' (by rw [new]; exact other)
    · exact loops s' old

/-- A transaction executes a statement. -/
theorem Completing.exec (tx_ : Completing com tx) (tables : Indexed com) (judged : Judged com)
    (top : tx.stack = s :: rest) :
    Completing com (tx.after (s.target (tx.view com)) (exec H o (tx.view com) s) rest) := by
  have view : Indexed (tx.view com) := tx_.written.keyed.indexed tables
  have rows := tx_.rows judged
  have counting := view.counting rows
  have fits : s.Fits Waits (tx.view com) := tx_.fits s (by simp [top])
  have loops : ∀ s' ∈ rest, s'.isLoop = true := fun s' member => tx_.loops s' (by simp [top, member])
  have moves : ∀ row, (DistCompile.exec H o (tx.view com) s).write = some (.task row) →
      ∃ t ∈ (tx.view com).tasks, Onward t row := fun row written => by
    obtain ⟨t, ht, move⟩ := exec_moves fits written
    exact ⟨t, ht, .of_move move⟩
  have advance : Advance Onward (tx.view com) ((DistCompile.exec H o (tx.view com) s).db (tx.view com)) :=
    exec_advance view fits
  have after := tx.view_after com (s.target (tx.view com)) (DistCompile.exec H o (tx.view com) s) rest
  obtain ⟨-, moved⟩ := exec_counting (H := H) (o := o) Waits.closed counting fits fun t takes => takes
  refine ⟨tx_.written.exec Onward.refl Onward.trans Onward.same tables moves, fun row member => ?_,
    fun row member => ?_, fun s' member => ?_, next_loops counting fits loops, fun t ht here => ?_,
    fun s' member build here => ?_, fun s' member output here => ?_, fun s' member => ?_, ?_⟩
  · rcases List.mem_append.mp member with old | new
    · exact tx_.lawful row old
    · exact exec_lawful rows fits (Option.mem_toList.mp new)
  · rcases List.mem_append.mp member with old | new
    · exact tx_.cache row old
    · refine exec_cache (fun c hc => ?_) (tx_.nonempty s (by simp [top])) (Option.mem_toList.mp new)
      rcases mem_foldl_apply_cache hc with before | written
      · exact judged.cache c before
      · exact tx_.cache c written
  · rw [after]
    rcases List.mem_append.mp member with new | old
    · exact ((exec_next counting fits).1 s' new).1
    · exact (tx_.fits s' (by simp [top, old])).loop (loops s' old) view.uids moved
  · rw [after] at ht
    -- the row was there before the statement
    obtain ⟨r, hr, moves⟩ := moved.rows t ht
    rcases next_subject view fits loops here with before | ⟨u, hu, slot, target⟩
    · have locked := tx_.locked r hr (by rw [top, ← moves.same.slot]; exact before)
      rw [moves.same.uid]
      exact List.mem_append_left _ locked
    · have same : u = r := List.inj_on_of_nodup_map view.slots hu hr (slot.trans moves.same.slot)
      refine List.mem_append_right _ ?_
      rw [target, same, moves.same.uid]
      simp
  · rcases List.mem_append.mp member with new | old
    · rcases next_about s' new here with before | ⟨t, ht, rfl⟩
      · exact tx_.known s (by simp [top]) build before
      · exact known_view.mp (view.known t ht)
    · exact tx_.known s' (by simp [top, old]) build here
  · rcases List.mem_append.mp member with new | old
    · exact tx_.nonempty s (by simp [top]) output (next_records s' new here)
    · exact tx_.nonempty s' (by simp [top, old]) output here
  · rw [after]
    rcases List.mem_append.mp member with new | old
    · exact next_due s' new
    · have isLoop := loops s' old
      cases s' with
      | lockRow uid => trivial
      | countDown build id uid => trivial
      | _ => cases isLoop
  · rw [after]
    exact exec_verdicts tx_.verdicts (tx_.due s (by simp [top])) advance

theorem about_of_subject {slot : Nat × Nat} (here : subject (s :: rest) = some slot) : about s = some slot.1 := by
  cases s with
  | taskInfo build id | depOutputs build id kind args toolchain | cacheHit build id key names digests
  | markCached build id key output | markReady build id key names digests =>
    cases here
    rfl
  | _ => cases here

/-- The row that `make_ready` is about does not change under the transaction. -/
theorem Completing.subject_row (tx_ : Completing com tx) (adv : Advance Onward com com')
    (spared : ∀ l ∈ tx.locks, Untouched com com' l) {t : TaskRow} (ht : t ∈ (tx.view com').tasks)
    (known : Known com t.buildId) (here : subject tx.stack = some t.slot) :
    Lock.task t.uid ∈ tx.locks ∧ t ∈ (tx.view com).tasks := by
  rcases (adv.view tx_.written spared Onward.refl Onward.same).origin t ht with ⟨r, hr, onward⟩ | unknown
  · have locked := tx_.locked r hr (by rw [here, onward.same.slot])
    rw [← onward.same.uid] at locked
    exact ⟨locked, (view_locked (spared _ locked)).mp ht⟩
  · exact absurd (known_view.mpr known) unknown

/-- A transaction is in order while the tables move on around it. -/
theorem Completing.rebase (tx_ : Completing com tx) (adv : Advance Onward com com') (tables' : Indexed com')
    (judged' : Judged com') (spared : ∀ l ∈ tx.locks, Untouched com com' l) : Completing com' tx := by
  have view := adv.view tx_.written spared Onward.refl Onward.same
  have written' := tx_.written.rebase spared Onward.same
  have known : ∀ s ∈ tx.stack, ∀ build, about s = some build → Known com build := tx_.known
  -- `make_ready` is on top, and its row is locked
  have young : ∀ s ∈ tx.stack, ∀ slot, subject tx.stack = some slot → about s = some slot.1 →
      YoungAt Waits (tx.view com) slot → YoungAt Waits (tx.view com') slot := by
    rintro s member slot here isAbout young t ht rfl
    exact young t (tx_.subject_row adv spared ht (known s member _ isAbout) here).2 rfl
  refine ⟨written', tx_.lawful, tx_.cache, fun s member => ?_, tx_.loops, fun t ht here => ?_,
    fun s member build here => adv.known (known s member build here), tx_.nonempty,
    fun s member => (tx_.due s member).advance view fun build counts => ?_, fun b hb => ?_⟩
  · have fits := tx_.fits s member
    have top : s.isLoop = true ∨ ∃ rest, tx.stack = s :: rest := by
      cases stack : tx.stack with
      | nil => rw [stack] at member; cases member
      | cons first rest =>
        rw [stack] at member
        rcases List.mem_cons.mp member with rfl | later
        · exact Or.inr ⟨rest, rfl⟩
        · exact Or.inl (tx_.loops s (by rw [stack]; exact later))
    cases s with
    | countDown build id uid =>
      obtain ⟨t, ht, rfl, rfl⟩ := fits
      obtain ⟨t', ht', onward⟩ := view.tasks t ht
      exact ⟨t', ht', onward.same.uid, onward.same.buildId⟩
    | taskInfo build id | depOutputs build id kind args toolchain | cacheHit build id key names digests
    | markCached build id key output | markReady build id key names digests =>
      rcases top with isLoop | ⟨rest, top⟩
      · cases isLoop
      · exact young _ member (build, id) (by rw [top]; rfl) rfl fits
    | _ => trivial
  · rcases view.origin t ht with ⟨r, hr, onward⟩ | unknown
    · rw [onward.same.uid]
      exact tx_.locked r hr (by rw [here, onward.same.slot])
    · -- the statement on top is about a known build
      cases stack : tx.stack with
      | nil => rw [stack] at here; cases here
      | cons first rest =>
        have isAbout : about first = some t.buildId := about_of_subject (stack ▸ here)
        exact absurd (known_view.mpr (known first (by simp [stack]) _ isAbout)) unknown
  · have isAbout : about s = some build := by
      cases s <;> first | exact counts | cases counts
    exact known_view.mpr (known s member build isAbout)
  · by_cases locked : Lock.build b.id ∈ tx.locks
    · have before := (view_locked_build (spared _ locked)).mp hb
      exact (tx_.verdicts b before).advance view ⟨b, before, rfl⟩
    · have committed := (written'.free_build locked).mp hb
      exact (judged'.verdicts b committed).advance (written'.advance Onward.refl Onward.same tables')
        ⟨b, committed, rfl⟩

/-- The first statement of a completion. -/
theorem Completing.begin (judged : Judged com) (blobs : Blobs) (now : Int) (r : TaskResult) :
    Completing com { stack := completeTask blobs.has blobs.sizeOf now r } := by
  have stack : ∃ s, completeTask blobs.has blobs.sizeOf now r = [s] ∧ about s = none ∧ subject [s] = none ∧
      (∀ output, records s = some output → output ≠ []) ∧ s.Fits Waits com ∧ Due com s := by
    unfold completeTask
    split_ifs with missing ok retryable
    · exact ⟨_, rfl, rfl, rfl, by simp [records], trivial, trivial⟩
    · refine ⟨_, rfl, rfl, rfl, fun output recorded => ?_, trivial, trivial⟩
      obtain rfl : r.output = output := Option.some.inj recorded
      rintro empty
      simp [ok, empty, Blobs.has, validHash] at missing
    · exact ⟨_, rfl, rfl, rfl, by simp [records], trivial, trivial⟩
    · exact ⟨_, rfl, rfl, rfl, by simp [records], trivial, trivial⟩
  obtain ⟨s, is, noBuild, noSubject, recorded, fits, isDue⟩ := stack
  rw [is]
  exact ⟨⟨by simp, by simp⟩, by simp, by simp, by simpa [Tx.view] using fits, by simp,
    fun t _ here => absurd here (by simp [noSubject]), by simp [noBuild], by simpa using recorded,
    by simpa [Tx.view] using isDue, judged.verdicts⟩

end Statements

/-! ### A submit under way -/

/-- What the walk knows of the tasks so far. -/
structure Walked (w : Walk) : Prop where
  hits : ∀ key output, w.hits key = some output → output ≠ []
  state : ∀ id, (w.row id).state = .waiting ∨ (w.row id).state = .cached ∨ (w.row id).state = .ready
  counts : ∀ id, 0 < (w.row id).pending → (w.row id).state = .waiting
  output : ∀ id, (w.row id).state = .cached → (w.row id).output ≠ []

/-- The walk does not find a compile task in the cache while a dependency of it is unknown. -/
def Session.Unforeseen : Session → Prop
  | .submitting sub (.walk _ (id :: _) w) => ∀ ts, sub.spec.tasks[id]? = some ts → ts.kind = COMPILE →
      (∃ d ∈ ts.depIds, (w.row d).output = []) → w.hits ts.key = none
  | _ => True

def World.Unforeseen {n : Nat} (w : World n) (a : Act n) : Prop :=
  ∀ i, a = .exec i → (w.sessions i).Unforeseen

def Stage.walk? : Stage → Option Walk
  | .walk _ _ w | .cacheHits _ w | .insertTasks _ w | .insertDeps _ _ w | .maybeFinish _ _ w _ => some w
  | _ => none

/-- What holds of a submit: of its walk, and of the result it has found or is about to write. The
rows it counts are its own, so they are stated over empty tables. -/
def Stage.Lawful (sub : Submission) (stage : Stage) : Prop :=
  (∀ w, stage.walk? = some w → Walked w) ∧
    match stage with
    | .maybeFinish row uid w stack => Verdict (sub.inserted {} row uid w) row ∧
        ∀ s ∈ stack, Due (sub.inserted {} row uid w) s
    | _ => True

section Submit

variable {H : Sha256} {o : Options} {has : Str → Bool} {com : Db} {sub : Submission} {row : BuildRow} {uid : Nat}
  {w w' : Walk} {id : Nat}

theorem Walked.start (cache : ∀ c ∈ com.cache, c.output ≠ []) (spec : BuildSpec) :
    Walked ⟨fun _ => {}, lookupCompileKeys com.outputs spec, 0⟩ := by
  refine ⟨fun key output hit => ?_, fun _ => Or.inl rfl, fun _ _ => rfl, fun _ cached => by cases cached⟩
  simp only [lookupCompileKeys] at hit
  split at hit
  · obtain ⟨c, found, rfl⟩ := Option.map_eq_some_iff.mp hit
    exact cache c (List.mem_of_find?_eq_some found)
  · cases hit

/-- The row of one task is filled in. -/
theorem Walked.fill (walked : Walked w) {hits : Str → Option Str} (nonempty : ∀ key output, hits key = some output →
    output ≠ []) {r : Resolved} (state : r.state = .waiting ∨ r.state = .cached ∨ r.state = .ready)
    (counts : 0 < r.pending → r.state = .waiting) (output : r.state = .cached → r.output ≠ []) {cached : Nat} :
    Walked ⟨Function.update w.row id r, hits, cached⟩ := by
  have split : ∀ P : Resolved → Prop, P r → (∀ i, P (w.row i)) → ∀ i, P (Function.update w.row id r i) := by
    intro P here there i
    by_cases same : i = id
    · rw [same, Function.update_self]
      exact here
    · rw [Function.update_of_ne same]
      exact there i
  exact ⟨nonempty, split (fun r => r.state = .waiting ∨ r.state = .cached ∨ r.state = .ready) state walked.state,
    split (fun r => 0 < r.pending → r.state = .waiting) counts walked.counts,
    split (fun r => r.state = .cached → r.output ≠ []) output walked.output⟩

theorem Walked.next (walked : Walked w) (cache : ∀ c ∈ com.cache, c.output ≠ []) {build : Nat} {todo : List Nat}
    (unforeseen : (Session.submitting sub (.walk build (id :: todo) w)).Unforeseen)
    (ran : walkTask H has com.outputs sub.spec w id = .ok w') : Walked w' := by
  have known : ∀ key output, com.outputs key = some output → output ≠ [] := by
    intro key output hit
    obtain ⟨c, found, rfl⟩ := Option.map_eq_some_iff.mp hit
    exact cache c (List.mem_of_find?_eq_some found)
  unfold walkTask at ran
  split at ran
  · cases ran
    exact walked
  · rename_i ts found
    dsimp only at ran
    have hits : ∀ key output, (if ts.kind ≠ COMPILE ∧ (resolveInputs H sub.spec w.row ts).pending = 0 ∧
        (w.hits (resolveInputs H sub.spec w.row ts).key).isNone
        then Function.update w.hits (resolveInputs H sub.spec w.row ts).key
          (com.outputs (resolveInputs H sub.spec w.row ts).key) else w.hits) key = some output → output ≠ [] := by
      intro key output hit
      split at hit
      · by_cases same : key = (resolveInputs H sub.spec w.row ts).key
        · rw [same, Function.update_self] at hit
          exact known _ output hit
        · rw [Function.update_of_ne same] at hit
          exact walked.hits key output hit
      · exact walked.hits key output hit
    split at ran
    · rename_i output hit
      cases ran
      split at hit
      · cases hit
      · rename_i keyed
        refine walked.fill hits (Or.inr (Or.inl rfl)) (fun counts => ?_) fun _ => hits _ output hit
        -- a task that still waits for a dependency has a key only if it is a compile task
        have compile : ts.kind = COMPILE := by
          by_contra action
          exact Nat.ne_of_gt counts (resolveInputs_pending action keyed)
        rw [if_neg fun action => action.1 compile, resolveInputs_compile compile,
          unforeseen ts found compile] at hit
        · cases hit
        · have pending : 0 < ts.depIds.countP fun d => (w.row d).output = [] := by
            simpa [resolveInputs, compile] using counts
          simpa [List.countP_pos_iff] using pending
    · split at ran
      · rename_i zero
        split at ran
        · cases ran
        · cases ran
          refine walked.fill hits (Or.inr (Or.inr rfl)) (fun counts => ?_) fun cached => by cases cached
          change 0 < (resolveInputs H sub.spec w.row ts).pending at counts
          omega
      · cases ran
        exact walked.fill hits (Or.inl rfl) (fun _ => rfl) fun cached => by cases cached

/-- The rows of the new build are the submit's own. -/
theorem own_tasks (tables : Indexed com) (absent : Absent com (sub.own row.id uid w)) {t : TaskRow} :
    (t ∈ (sub.inserted com row uid w).tasks ∧ t.buildId = row.id) ↔ t ∈ (sub.inserted {} row uid w).tasks := by
  constructor
  · rintro ⟨ht, build⟩
    rcases List.mem_append.mp ht with old | new
    · exact absurd (build ▸ tables.known t old) (absent.builds row.id mem_own_build)
    · exact new
  · intro ht
    rcases mem_inserted ht with none | ⟨⟨build, -⟩, -⟩
    · cases none
    · exact ⟨List.mem_append_right _ ht, build⟩

theorem own_due (tables : Indexed com) (absent : Absent com (sub.own row.id uid w)) {s : Stmt}
    (counts : countOf s = some row.id) :
    Due (sub.inserted com row uid w) s ↔ Due (sub.inserted {} row uid w) s := by
  have own : ∀ t, (t ∈ (sub.inserted com row uid w).tasks ∧ t.buildId = row.id) ↔
      t ∈ (sub.inserted {} row uid w).tasks ∧ t.buildId = row.id := fun t =>
    ⟨fun here => ⟨(own_tasks tables absent).mp here, here.2⟩, fun here => (own_tasks tables absent).mpr here.1⟩
  cases s with
  | buildDone build =>
    cases counts
    exact forall_congr' fun t => by rw [← and_imp, ← and_imp, own t]
  | buildFailed build =>
    cases counts
    exact exists_congr fun t => by rw [← and_assoc, ← and_assoc, own t]
  | _ => exact Iff.rfl

/-- The tables of a submit over empty ones depend on its build row only through the id. -/
theorem inserted_tasks_id {row' : BuildRow} (same : row'.id = row.id) :
    (sub.inserted {} row' uid w).tasks = (sub.inserted {} row uid w).tasks := by
  simp only [Submission.inserted, same]

theorem Due.of_tasks {db db' : Db} (tasks : db'.tasks = db.tasks) {s : Stmt} (isDue : Due db s) : Due db' s := by
  cases s with
  | buildDone build => rwa [Due, tasks]
  | buildFailed build => rwa [Due, Db.HasFailed, tasks]
  | _ => trivial

theorem Verdict.of_tasks {db db' : Db} (tasks : db'.tasks = db.tasks) {b : BuildRow} (verdict : Verdict db b) :
    Verdict db' b :=
  ⟨by rw [tasks]; exact verdict.done, by rw [Db.HasFailed, tasks]; exact verdict.failed⟩

/-- A statement of a submit's `maybe_finish`. -/
theorem Stage.Lawful.maybeFinish (tables : Indexed com) (absent : Absent com (sub.own row.id uid w)) {s : Stmt}
    {rest : List Stmt} (lawful : (Stage.maybeFinish row uid w (s :: rest)).Lawful sub)
    (counts : countOf s = some row.id) :
    (Stage.maybeFinish ((DistCompile.exec H o (sub.inserted com row uid w) s).write.elim row (Write.onBuild row)) uid w
      ((DistCompile.exec H o (sub.inserted com row uid w) s).next ++ rest)).Lawful sub := by
  obtain ⟨walked, verdict, isDue⟩ := lawful
  have sameId := written_id (DistCompile.exec H o (sub.inserted com row uid w) s) row
  have tasks : (sub.inserted {} ((DistCompile.exec H o (sub.inserted com row uid w) s).write.elim row
      (Write.onBuild row)) uid w).tasks = (sub.inserted {} row uid w).tasks := inserted_tasks_id sameId
  refine ⟨walked, ?_, fun s' member => Due.of_tasks tasks ?_⟩
  · refine Verdict.of_tasks tasks ?_
    cases write : (DistCompile.exec H o (sub.inserted com row uid w) s).write with
    | none => exact verdict
    | some written =>
      cases written with
      | task r => exact absurd write ((exec_countOf counts).1 r)
      | cache r => exact absurd write ((exec_countOf counts).2.1 r)
      | build r =>
        obtain ⟨b, -, -, id, closes⟩ := exec_build write
        have mine : b.id = row.id := by
          rcases closes with ⟨rfl, -⟩ | ⟨rfl, -⟩
          · exact Option.some.inj counts
          · exact Option.some.inj counts
        have here : Write.onBuild row (.build r) = r := if_pos (id.trans mine).symm
        rw [Option.elim_some, here]
        rcases closes with ⟨rfl, state⟩ | ⟨rfl, state⟩
        · refine ⟨fun done => ?_, fun _ => id ▸ isDue (.buildFailed b.id) (by simp)⟩
          rw [state] at done
          cases done
        · refine ⟨fun _ => id ▸ isDue (.buildDone b.id) (by simp), fun failed => ?_⟩
          rw [state] at failed
          cases failed
  · rcases List.mem_append.mp member with new | old
    · cases s with
      | progress build =>
        exact (own_due tables absent ((exec_countOf counts).2.2 s' new)).mp (progress_due s' new)
      | buildFailed build | buildDone build =>
        simp only [DistCompile.exec] at new
        grind
      | _ => cases counts
    · exact isDue s' (by simp [old])

/-- The rows that a submit commits. -/
theorem Judged.inserted (judged : Judged com) (tables : Indexed com) (absent : Absent com (sub.own row.id uid w))
    {stack : List Stmt} (lawful : (Stage.maybeFinish row uid w stack).Lawful sub) :
    Judged (sub.inserted com row uid w) := by
  obtain ⟨walked, verdict, -⟩ := lawful
  have walked := walked w rfl
  refine ⟨fun t ht => ?_, fun c hc => ?_, fun b hb => ?_⟩
  · rcases mem_inserted ht with old | ⟨-, id, state, pending, attempts, output⟩
    · exact judged.rows t old
    · refine ⟨fun _ => attempts, fun counts => ?_, fun finished => ?_⟩
      · rw [pending] at counts
        exact ⟨state.trans (walked.counts id (by exact_mod_cast counts)), attempts⟩
      · rw [state] at finished
        have cached : (w.row id).state = .cached := by
          rcases walked.state id with waits | cached | ready
          · rw [waits] at finished; cases finished
          · exact cached
          · rw [ready] at finished; cases finished
        rw [output, emptyIsNull, if_neg (walked.output id cached)]
        rfl
  · obtain ⟨r, hr, rfl⟩ := List.mem_map.mp hc
    split
    · exact judged.cache r hr
    · exact judged.cache r hr
  · rcases List.mem_append.mp hb with old | new
    · exact (judged.verdicts b old).advance (inserted_advance Onward.refl absent) ⟨b, old, rfl⟩
    · rw [List.mem_singleton.mp new]
      refine ⟨fun done t ht build => ?_, fun failed => ?_⟩
      · exact verdict.done done t ((own_tasks tables absent).mp ⟨ht, build⟩) build
      · obtain ⟨t, ht, build, state⟩ := verdict.failed failed
        exact ⟨t, ((own_tasks tables absent).mpr ht).1, build, state⟩

end Submit

/-! ### Sessions and the world -/

def Session.Lawful (com : Db) : Session → Prop
  | .idle => True
  | .completing tx => Completing com tx
  | .submitting sub stage => stage.Lawful sub
  | .reaping stack => ∀ s ∈ stack, Due com s

/-- The results that are committed and those under way are right. -/
structure World.Fair {n : Nat} (w : World n) : Prop where
  inv : w.Inv
  judged : Judged w.com
  lawful : ∀ i, (w.sessions i).Lawful w.com

section World

variable {H : Sha256} {o : Options} {has : Str → Bool} {taken : Lock → Prop} {com com' : Db} {s s' : Session}
  {n : Nat} {w w' : World n} {a : Act n}

theorem Session.Lawful.rebase (lawful : s.Lawful com) (sound : s.Sound com) (adv : Advance Onward com com')
    (tables' : Indexed com') (judged' : Judged com') (spared : ∀ l ∈ s.locks, Untouched com com' l) :
    s.Lawful com' := by
  cases s with
  | idle => trivial
  | completing tx => exact Completing.rebase lawful adv tables' judged' spared
  | submitting sub stage => exact lawful
  | reaping stack =>
    intro s member
    refine (lawful s member).advance adv fun build counts => ?_
    obtain ⟨b, same, known⟩ := sound s member
    rw [counts] at same
    exact Option.some.inj same ▸ known

/-- Only serial numbers have changed. -/
theorem Judged.drawn (judged : Judged com) (builds uids : Nat) :
    Advance Onward com { com with nextBuild := com.nextBuild + builds, nextUid := com.nextUid + uids } ∧
      Judged { com with nextBuild := com.nextBuild + builds, nextUid := com.nextUid + uids } := by
  have same : Advance Onward com com := .refl Onward.refl com
  exact ⟨⟨same.tasks, same.origin, same.builds, same.opened, Nat.le_add_right _ _, Nat.le_add_right _ _⟩,
    judged.rows, judged.cache, fun b hb => ⟨(judged.verdicts b hb).done, (judged.verdicts b hb).failed⟩⟩

/-- A statement of the reaper's `maybe_finish`. -/
theorem Judged.count (judged : Judged com) (tables : Indexed com) {s : Stmt} {build : Nat}
    (counts : countOf s = some build) (isDue : Due com s) :
    Advance Onward com ((exec H o com s).db com) ∧ Judged ((exec H o com s).db com) := by
  have fits : s.Fits Waits com := by
    cases s with
    | progress b | buildFailed b | buildDone b => trivial
    | _ => cases counts
  have adv : Advance Onward com ((exec H o com s).db com) := exec_advance tables fits
  obtain ⟨noTask, noCache, -⟩ : (∀ row, (exec H o com s).write ≠ some (.task row)) ∧
      (∀ row, (exec H o com s).write ≠ some (.cache row)) ∧ _ := exec_countOf counts
  refine ⟨adv, fun t ht => judged.rows t ?_, fun c hc => judged.cache c ?_,
    exec_verdicts judged.verdicts isDue adv⟩
  · rcases write : (exec H o com s).write with _ | row | row | row
    · rwa [Outcome.db, write] at ht
    · exact absurd write (noTask row)
    · rwa [Outcome.db, write] at ht
    · exact absurd write (noCache row)
  · rcases write : (exec H o com s).write with _ | row | row | row
    · rwa [Outcome.db, write] at hc
    · exact absurd write (noTask row)
    · rwa [Outcome.db, write] at hc
    · exact absurd write (noCache row)

/-- What the next statement of a session, or its commit, does to the results. -/
theorem Session.Move.judged (tables : Indexed com) (sound : s.Sound com) (judged : Judged com)
    (lawful : s.Lawful com) (unforeseen : s.Unforeseen) (move : Session.Move H o has taken com s com' s') :
    Advance Onward com com' ∧ Judged com' ∧ s'.Lawful com' := by
  have still : Advance Onward com com := .refl Onward.refl com
  cases move with
  | statement top isFree => exact ⟨still, judged, Completing.exec lawful tables judged top⟩
  | committed empty =>
    refine ⟨lawful.written.advance Onward.refl Onward.same tables, ⟨lawful.rows judged, fun c hc => ?_,
      lawful.verdicts⟩, trivial⟩
    rcases mem_foldl_apply_cache hc with before | written
    · exact judged.cache c before
    · exact lawful.cache c written
  | newBuild =>
    obtain ⟨adv, judged'⟩ := judged.drawn 1 0
    exact ⟨adv, judged', fun w none => (by cases none), trivial⟩
  | @cacheLookup sub build =>
    refine ⟨still, judged, fun w same => ?_, trivial⟩
    cases same
    exact .start judged.cache sub.spec
  | @walk sub build id todo w w' ran =>
    refine ⟨still, judged, fun v same => ?_, trivial⟩
    cases same
    exact (lawful.1 w rfl).next judged.cache unforeseen ran
  | walked => exact ⟨still, judged, lawful.1, trivial⟩
  | cacheHits isFree => exact ⟨still, judged, lawful.1, trivial⟩
  | @insertTasks sub build w =>
    obtain ⟨adv, judged'⟩ := judged.drawn 0 sub.spec.tasks.length
    exact ⟨adv, judged', lawful.1, trivial⟩
  | @insertDeps sub build uid w =>
    refine ⟨still, judged, lawful.1, ⟨fun done => ?_, fun failed => ?_⟩, fun s member => ?_⟩
    · cases done
    · cases failed
    · rw [List.mem_singleton.mp member]
      trivial
  | maybeFinish => exact ⟨still, judged, lawful.maybeFinish tables sound.1 (sound.2 _ (by simp))⟩
  | inserted => exact ⟨inserted_advance Onward.refl sound.1, judged.inserted tables sound.1 lawful, trivial⟩
  | @counted s rest isFree =>
    obtain ⟨build, counts, -⟩ := sound s (by simp)
    obtain ⟨adv, judged'⟩ := judged.count (H := H) (o := o) tables counts (lawful s (by simp))
    refine ⟨adv, judged', fun s' member => ?_⟩
    rcases List.mem_append.mp member with new | old
    · exact next_due s' new
    · refine (lawful s' (by simp [old])).advance adv fun b counts' => ?_
      obtain ⟨b', same, known⟩ := sound s' (by simp [old])
      rw [counts'] at same
      exact Option.some.inj same ▸ known
  | passed => exact ⟨still, judged, trivial⟩
  | rolledBack => exact ⟨still, judged, trivial⟩

/-- Rows are rewritten one by one. -/
theorem Judged.of_rows (judged : Judged com) {f : TaskRow → TaskRow}
    (rows : ∀ t ∈ com.tasks, Onward t (f t) ∧ Lawful (f t)) : Judged { com with tasks := com.tasks.map f } := by
  have adv : Advance Onward com { com with tasks := com.tasks.map f } := .of_rows fun t ht => (rows t ht).1
  refine ⟨fun t' ht' => ?_, judged.cache, fun b hb => (judged.verdicts b hb).advance adv ⟨b, hb, rfl⟩⟩
  obtain ⟨t, ht, rfl⟩ := List.mem_map.mp ht'
  exact (rows t ht).2

/-- A row that runs is not settled and does not count down. -/
theorem Lawful.of_running {t t' : TaskRow} (lawful : Lawful t) (isOpen : t.state.open = true) (same : SameTask t t')
    (pending : t'.pendingDeps = t.pendingDeps) (state : t'.state.finished = false) (moved : t'.state ≠ .waiting) :
    Onward t t' ∧ Lawful t' := by
  refine ⟨⟨same, fun settled => ?_⟩, fun waits => absurd waits moved, fun counts => ?_, fun finished => ?_⟩
  · rw [settled_not_open settled] at isOpen
    cases isOpen
  · rw [pending] at counts
    rw [(lawful.counts counts).closed] at isOpen
    cases isOpen
  · rw [state] at finished
    cases finished

theorem reapRow_onward (o : Options) (now : Int) {t : TaskRow} (lawful : Lawful t) :
    Onward t (reapRow o now t) ∧ Lawful (reapRow o now t) := by
  unfold reapRow
  split
  · exact ⟨.refl t, lawful⟩
  · rename_i expired
    simp only [leaseExpired, Bool.not_eq_true', Bool.not_eq_false, Bool.and_eq_true, decide_eq_true_eq] at expired
    refine lawful.of_running (by rw [expired.1]; rfl) ⟨rfl, rfl⟩ rfl ?_ (requeue_not_waiting o t.attempts)
    simp only [requeue]
    split <;> rfl

theorem heartbeatRow_onward (o : Options) (worker : Str) (now : Int) {t : TaskRow} (lawful : Lawful t) :
    Onward t (heartbeatRow o worker now t) ∧ Lawful (heartbeatRow o worker now t) := by
  unfold heartbeatRow
  split
  · rename_i leased
    simp only [leasedTo, Bool.and_eq_true, decide_eq_true_eq] at leased
    have running : t.state = .running := leased.2
    exact lawful.of_running (by rw [running]; rfl) ⟨rfl, rfl⟩ rfl (by simp only [running]; rfl) (by simp [running])
  · exact ⟨.refl t, lawful⟩

theorem update_onward {uids : List Nat} {f : TaskRow → TaskRow} {t : TaskRow} (lawful : Lawful t)
    (onward : Onward t (f t) ∧ Lawful (f t)) :
    Onward t (if w.reaches uids t then f t else t) ∧ Lawful (if w.reaches uids t then f t else t) := by
  split
  · exact onward
  · exact ⟨.refl t, lawful⟩

/-- A walk has statements left, so it does not commit. -/
theorem unforeseen_of_commit (ended : s.commit com = some com') : s.Unforeseen := by
  unfold Session.commit at ended
  split at ended
  · trivial
  · trivial
  · trivial
  · cases ended

/-- The results stay right when the acting session and the tables are in order. -/
theorem World.Fair.evolve (fair : w.Fair) {actor : Option (Fin n)} (evolves : Evolves actor w w') (inv' : w'.Inv)
    (adv : Advance Onward w.com w'.com) (judged' : Judged w'.com)
    (acted : ∀ i, actor = some i → (w'.sessions i).Lawful w'.com) : w'.Fair := by
  refine ⟨inv', judged', fun i => ?_⟩
  by_cases acts : actor = some i
  · exact acted i acts
  · rw [evolves.still i acts]
    exact (fair.lawful i).rebase (fair.inv.sound i) adv inv'.tables judged' (evolves.spared i acts)

/-- Every step keeps the results right, and what is settled. -/
theorem World.Fair.move (fair : w.Fair) (unforeseen : w.Unforeseen a) (move : World.Move H o w a w') :
    w'.Fair ∧ Advance Onward w.com w'.com := by
  have still : Advance Onward w.com w.com := .refl Onward.refl w.com
  have ends : ∀ {i : Fin n} {com : Db} {s : Session}, (w.set i com s).Inv ∧ Evolves (some i) w (w.set i com s) →
      Advance Onward w.com com → Judged com → s.Lawful com → (w.set i com s).Fair ∧ Advance Onward w.com com := by
    intro i com s evolved adv judged' lawful
    refine ⟨fair.evolve evolved.2 evolved.1 adv judged' fun j here => ?_, adv⟩
    cases here
    rw [set_sessions, if_pos rfl]
    exact lawful
  have kept := fair.inv.move move
  cases move with
  | putBlob => exact ⟨⟨kept.1, fair.judged, fair.lawful⟩, still⟩
  | @complete i now r idle => exact ends kept still fair.judged (.begin fair.judged w.blobs now r)
  | submit idle => exact ends kept still fair.judged ⟨fun w none => (by cases none), trivial⟩
  | @reap i now uids idle =>
    have rows : ∀ t ∈ w.com.tasks, Onward t (if w.reaches uids t then reapRow o now t else t) ∧
        Lawful (if w.reaches uids t then reapRow o now t else t) := fun t ht =>
      update_onward (fair.judged.rows t ht) (reapRow_onward o now (fair.judged.rows t ht))
    refine ends kept (.of_rows fun t ht => (rows t ht).1) (fair.judged.of_rows rows) fun s member => ?_
    obtain ⟨t, -, rfl⟩ := mem_gaveUp member
    trivial
  | @session i a com s act move =>
    have unforeseen : (w.sessions i).Unforeseen := by
      rcases act with rfl | ⟨rfl, ended⟩
      · exact unforeseen i rfl
      · exact unforeseen_of_commit ended
    obtain ⟨adv, judged', lawful⟩ := move.judged fair.inv.tables (fair.inv.sound i) fair.judged (fair.lawful i) unforeseen
    rw [actor_of_act act] at kept
    exact ends kept adv judged' lawful
  | abort => exact ends kept still fair.judged trivial
  | @claim worker toolchain part now uid t ht ready isFree =>
    have rows : ∀ u ∈ w.com.tasks, Onward u (if u.uid = t.uid then claimedRow o worker now t else u) ∧
        Lawful (if u.uid = t.uid then claimedRow o worker now t else u) := by
      intro u hu
      split
      · rename_i same
        rw [List.inj_on_of_nodup_map fair.inv.tables.uids.unique hu ht same]
        exact (fair.judged.rows t ht).of_running (by rw [ready]; rfl) ⟨rfl, rfl⟩ rfl rfl (by simp [claimedRow])
      · exact ⟨.refl u, fair.judged.rows u hu⟩
    have adv : Advance Onward w.com (w.com.apply (.task (claimedRow o worker now t))) :=
      .of_rows fun u hu => (rows u hu).1
    exact ⟨fair.evolve kept.2 kept.1 adv (fair.judged.of_rows rows) fun i none => (by cases none), adv⟩
  | @heartbeat worker now uids =>
    have rows : ∀ t ∈ w.com.tasks, Onward t (if w.reaches uids t then heartbeatRow o worker now t else t) ∧
        Lawful (if w.reaches uids t then heartbeatRow o worker now t else t) := fun t ht =>
      update_onward (fair.judged.rows t ht) (heartbeatRow_onward o worker now (fair.judged.rows t ht))
    have adv : Advance Onward w.com (w.update uids (heartbeatRow o worker now)) := .of_rows fun t ht => (rows t ht).1
    exact ⟨fair.evolve kept.2 kept.1 adv (fair.judged.of_rows rows) fun i none => (by cases none), adv⟩

theorem World.Fair.start : World.Fair ({} : World n) :=
  ⟨.start, ⟨by simp, by simp, by simp⟩, fun _ => trivial⟩

end World

/-! ### The builds of `dcc` -/

/-- Only builds whose compile tasks list no dependencies are submitted. -/
def Act.Flat {n : Nat} : Act n → Prop
  | .submit _ spec _ => spec.Flat
  | _ => True

instance {n : Nat} : DecidablePred (Act.Flat (n := n))
  | .submit _ spec _ => inferInstanceAs (Decidable spec.Flat)
  | .putBlob _ _ | .complete _ _ _ | .reap _ _ _ | .exec _ | .commit _ | .abort _ | .claim _ _ _ _ _
  | .heartbeat _ _ _ => isTrue trivial

def Session.Flat : Session → Prop
  | .submitting sub _ => sub.spec.Flat
  | _ => True

section Flat

variable {H : Sha256} {o : Options} {n : Nat} {w w' : World n} {a : Act n} {acts later : List (Act n)}

theorem Session.Flat.unforeseen {s : Session} (flat : s.Flat) : s.Unforeseen := by
  unfold Session.Unforeseen
  split
  · intro ts found compile waits
    obtain ⟨d, member, -⟩ := waits
    rw [TaskSpec.depIds, flat ts (List.mem_of_getElem? found) compile] at member
    cases member
  · trivial

/-- A session goes on with the spec it has. -/
theorem Session.Flat.move {has : Str → Bool} {taken : Lock → Prop} {com com' : Db} {s s' : Session} (flat : s.Flat)
    (move : Session.Move H o has taken com s com' s') : s'.Flat := by
  cases move <;> first | exact flat | trivial

theorem flat_sessions (flat : ∀ i, (w.sessions i).Flat) (shaped : a.Flat) (move : World.Move H o w a w') :
    ∀ i, (w'.sessions i).Flat := by
  have acted : ∀ {i : Fin n} {com : Db} {s : Session}, s.Flat → ∀ j, ((w.set i com s).sessions j).Flat := by
    intro i com s here j
    rw [set_sessions]
    split
    · exact here
    · exact flat j
  cases move with
  | putBlob | claim | heartbeat => exact flat
  | complete | reap | abort => exact acted trivial
  | submit => exact acted shaped
  | session _ move => exact acted ((flat _).move move)

/-- What every run of such steps keeps. -/
theorem Runs.fair (run : Runs (Meets (World.Step H o) fun _ a => a.Flat) ({} : World n) acts w) :
    w.Fair ∧ ∀ i, (w.sessions i).Flat :=
  run.invariant (P := fun w => w.Fair ∧ ∀ i, (w.sessions i).Flat) ⟨.start, fun _ => trivial⟩
    fun step holds => ⟨(holds.1.move (fun i _ => (holds.2 i).unforeseen) step.2.move).1,
      flat_sessions holds.2 step.1 step.2.move⟩

/-- A closed build is still there, as it was. -/
theorem Runs.keeps_closed (fair : w.Fair) (flat : ∀ i, (w.sessions i).Flat)
    (run : Runs (Meets (World.Step H o) fun _ a => a.Flat) w later w') {b : BuildRow} (hb : b ∈ w.com.builds)
    (closed : b.state ≠ .running) : w'.Fair ∧ b ∈ w'.com.builds := by
  have kept := run.invariant (P := fun w => (w.Fair ∧ ∀ i, (w.sessions i).Flat) ∧ b ∈ w.com.builds)
    ⟨⟨fair, flat⟩, hb⟩ fun {v a v'} step holds => by
      obtain ⟨⟨fair, flat⟩, member⟩ := holds
      obtain ⟨fair', adv⟩ := fair.move (fun i _ => (flat i).unforeseen) step.2.move
      obtain ⟨b', hb', same⟩ := adv.builds b member
      exact ⟨⟨fair', flat_sessions flat step.1 step.2.move⟩, same.closed closed ▸ hb'⟩
  exact ⟨kept.1.1, kept.2⟩

/-- In every interleaving of submits, completions, claims, heartbeats and reaper passes, with
rollbacks anywhere: a build that is done has all its tasks finished, with their outputs; a
build that has failed has a failed task; and a build that is done or failed stays so. -/
theorem build_verdicts_sound (run : Runs (Meets (World.Step H o) fun _ a => a.Flat) ({} : World n) acts w) :
    (∀ b ∈ w.com.builds, b.state = .done → ∀ t ∈ w.com.tasks, t.buildId = b.id →
      (t.state = .done ∨ t.state = .cached) ∧ t.output ≠ none) ∧
    (∀ b ∈ w.com.builds, b.state = .failed → ∃ t ∈ w.com.tasks, t.buildId = b.id ∧ t.state = .failed) ∧
    ∀ b ∈ w.com.builds, b.state = .done ∨ b.state = .failed → ∀ later w',
      Runs (Meets (World.Step H o) fun _ a => a.Flat) w later w' →
        b ∈ w'.com.builds ∧ ∀ b' ∈ w'.com.builds, b'.id = b.id → b'.state = b.state := by
  obtain ⟨fair, flat⟩ := Runs.fair run
  refine ⟨fun b hb done t ht build => ?_, fun b hb => (fair.judged.verdicts b hb).failed,
    fun b hb closed later w' rest => ?_⟩
  · have finished := (fair.judged.verdicts b hb).done done t ht build
    have output := (fair.judged.rows t ht).output finished
    refine ⟨?_, Option.isSome_iff_ne_none.mp output⟩
    cases state : t.state with
    | done => exact Or.inl rfl
    | cached => exact Or.inr rfl
    | _ => rw [state] at finished; cases finished
  · have notRunning : b.state ≠ .running := by
      rcases closed with state | state <;> simp [state]
    obtain ⟨fair', kept⟩ := Runs.keeps_closed fair flat rest hb notRunning
    refine ⟨kept, fun b' hb' same => ?_⟩
    rw [List.inj_on_of_nodup_map fair'.inv.tables.ids hb' kept same]

end Flat

/-- A build of one source: a submit, a claim, and a completion with a reaper pass in between. -/
def compiledActs : List (Act 2) :=
  [.putBlob "int f;".toList [], .putBlob "o:int f;".toList [], .submit 0 aloneSpec 1] ++
    List.replicate 8 (.exec 0) ++ [.commit 0, .claim "w".toList "gcc".toList (some 0) 0 1,
    .complete 0 5 (compiledResult 1), .exec 0, .exec 0, .reap 1 5 [1], .exec 0, .exec 0, .commit 1, .exec 0, .commit 0]

theorem compiledActs_run :
    (compiledActs.foldlM (World.step sampleSha {}) {}).any (fun w =>
      compiledActs.all (fun a => a.Flat) && w.com.builds.any fun b => b.state = .done &&
        w.com.tasks.any fun t => t.buildId = b.id) = true := by
  decide +kernel

theorem build_verdicts_sound_compiled :
    ∃ acts w b t, Runs (Meets (World.Step sampleSha {}) fun _ a => a.Flat) ({} : World 2) acts w ∧
      b ∈ w.com.builds ∧ b.state = .done ∧ t ∈ w.com.tasks ∧ t.buildId = b.id ∧ t.output ≠ none := by
  obtain ⟨w, ran, holds⟩ := (Option.any_eq_true _ _).mp compiledActs_run
  simp only [Bool.and_eq_true, List.all_eq_true, List.any_eq_true, decide_eq_true_eq] at holds
  obtain ⟨flat, b, hb, done, t, ht, build⟩ := holds
  have run := (Runs.of_foldlM ran).meets flat
  exact ⟨compiledActs, w, b, t, run, hb, done, ht, build,
    ((build_verdicts_sound run).1 b hb done t ht build).2⟩

end DistCompile.Sessions
