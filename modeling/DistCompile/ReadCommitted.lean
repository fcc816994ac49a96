import DistCompile.Counters
import DistCompile.Lib.Overwrite

/-!
Completions under PostgreSQL's READ COMMITTED (`transaction` in `src/db.h`).

Each of the pool's `n` connections runs at most one `CompleteTask` transaction. A
transaction sees the committed rows with its own writes on top (`Tx.view`), reads
them afresh with every statement, and keeps a lock on every row it wrote or
locked until it ends. A statement whose `WHERE` finds a row that another
transaction has locked waits: here it is not enabled, and when it runs, after the
other has ended, it decides on the rows as they are then. Claims skip locked rows
and commit at once.

A row version of a transaction is never overwritten from outside while the
transaction runs, so its view splits into the rows it has locked and committed
rows (`mem_view_rebase`). That is why the invariant of a transaction under way,
`Mid`, survives the commits of others (`Mid.rebase`).
-/

namespace DistCompile

open DistCompile.Lib

/-! ### Locks -/

inductive Lock where
  | task (uid : Nat)
  | build (id : Nat)
  | cache (key : Str)
deriving DecidableEq, Repr

def Write.lock : Write → Lock
  | .task row => .task row.uid
  | .build row => .build row.id
  | .cache row => .cache row.key

/-- The row a statement locks: the one its `WHERE` finds. `cache_put` does
nothing about a key that is there, and waits only for another insert of it. -/
def Stmt.target (db : Db) : Stmt → Option Lock
  | .complete r _ | .fail r => match db.task? r.taskUid with
      | some t => if t.state.open then some (.task t.uid) else none
      | none => none
  | .retry r _ => match db.task? r.taskUid with
      | some t => if t.state = .running ∧ t.attempts = r.attempt then some (.task t.uid) else none
      | none => none
  | .cachePut _ _ key _ _ => if (db.cached? key).isSome then none else some (.cache key)
  | .lockRow uid | .countDown _ _ uid => (db.task? uid).map fun t => .task t.uid
  | .cacheHit _ _ key _ _ => (db.cached? key).map fun c => .cache c.key
  | .markCached build id _ _ | .markReady build id _ _ _ =>
      (db.taskAt? build id).map fun t => .task t.uid
  | .buildFailed build | .buildDone build => match db.build? build with
      | some b => if b.state = .running then some (.build b.id) else none
      | none => none
  | .dependents _ _ | .taskInfo _ _ | .depOutputs _ _ _ _ _ | .progress _ => none

/-! ### Transactions and the world -/

/-- A transaction under way. -/
structure Tx where
  writes : List Write := []
  locks : List Lock := []
  stack : List Stmt
  trace : List Event := []
deriving DecidableEq, Repr

/-- The committed rows with the transaction's own writes on top. -/
def Tx.view (tx : Tx) (com : Db) : Db := tx.writes.foldl Db.apply com

def Tx.cfg (tx : Tx) (com : Db) : Cfg := ⟨tx.view com, tx.stack, tx.trace⟩

/-- After the statement on top, which locked `target`. -/
def Tx.after (tx : Tx) (target : Option Lock) (out : Outcome) (rest : List Stmt) : Tx where
  writes := tx.writes ++ out.write.toList
  locks := tx.locks ++ target.toList
  stack := out.next ++ rest
  trace := tx.trace ++ out.event.toList

/-- The committed tables, the transactions on the `n` connections, and what the
committed transactions learned, oldest first. -/
structure World (n : Nat) where
  com : Db
  txs : Fin n → Option Tx := fun _ => none
  history : List (List Event) := []

-- for the numbers of the connections in the samples
instance twoConnections : NeZero 2 := ⟨two_ne_zero⟩

inductive Act (n : Nat) where
  | begin (i : Fin n) (blobs : Blobs) (now : Int) (r : TaskResult)
  | exec (i : Fin n)
  | commit (i : Fin n)
  | abort (i : Fin n)
  | claim (worker toolchain : Str) (part now : Int) (uid : Nat)

namespace World

variable {n : Nat}

/-- No transaction but `i` holds the lock. -/
def free (w : World n) (i : Fin n) (l : Lock) : Bool :=
  (List.finRange n).all fun j => j = i || (w.txs j).all fun tx => !tx.locks.contains l

/-- No transaction at all holds the lock. -/
def unlocked (w : World n) (l : Lock) : Bool :=
  (List.finRange n).all fun j => (w.txs j).all fun tx => !tx.locks.contains l

def setTx (w : World n) (i : Fin n) (tx : Option Tx) : World n :=
  { w with txs := Function.update w.txs i tx }

/-- The rows the claim query finds with `SKIP LOCKED`. -/
def claimCandidates (w : World n) (worker toolchain : Str) (part now : Int) : List TaskRow :=
  DistCompile.claimCandidates
    { w.com with tasks := w.com.tasks.filter fun t => w.unlocked (.task t.uid) }
    worker toolchain part now

/-- One statement, or the beginning or end of a transaction. -/
def step (H : Sha256) (o : Options) (w : World n) : Act n → Option (World n)
  | .begin i blobs now r => match w.txs i with
      | none => some (w.setTx i (some { stack := completeTask blobs.has blobs.sizeOf now r }))
      | some _ => none
  | .exec i => match w.txs i with
      | none => none
      | some tx => match tx.stack with
        | [] => none
        | s :: rest =>
            if (s.target (tx.view w.com)).all (w.free i) then
              some (w.setTx i (some (tx.after (s.target (tx.view w.com))
                (DistCompile.exec H o (tx.view w.com) s) rest)))
            else none
  | .commit i => match w.txs i with
      | none => none
      | some tx =>
          if tx.stack = [] then
            some ⟨tx.view w.com, Function.update w.txs i none, w.history ++ [tx.trace]⟩
          else none
  | .abort i => match w.txs i with
      | none => none
      | some _ => some (w.setTx i none)
  | .claim worker toolchain part now uid =>
      match (w.claimCandidates worker toolchain part now).find? fun t => t.uid = uid with
      | none => none
      | some t =>
          if ∀ u ∈ w.claimCandidates worker toolchain part now, u.priority ≤ t.priority then
            some { w with com := w.com.apply (.task (claimedRow o worker now t)) }
          else none

/-- The steps as a relation. -/
def Step (H : Sha256) (o : Options) (w : World n) (a : Act n) (w' : World n) : Prop :=
  w.step H o a = some w'

/-- No transaction is in progress. -/
def Quiet (w : World n) : Prop := ∀ i, w.txs i = none

end World

/-! ### Views -/

/-- A row after a list of writes. -/
def Write.on (r : TaskRow) : Write → TaskRow
  | .task row => if r.uid = row.uid then row else r
  | _ => r

def rowAfter (writes : List Write) (r : TaskRow) : TaskRow := writes.foldl Write.on r

theorem overwrites_tasks : Overwrites TaskRow.uid (fun w row => w = .task row) Write.on where
  replaces := by
    rintro r row w rfl same
    exact if_pos same
  spares := by
    intro r w other
    cases w with
    | task row => exact if_neg (other row rfl)
    | build row => rfl
    | cache row => rfl

theorem rowAfter_uid (writes : List Write) (r : TaskRow) : (rowAfter writes r).uid = r.uid :=
  overwrites_tasks.foldl_key writes r

theorem rowAfter_of_untouched {writes : List Write} {r : TaskRow}
    (untouched : ∀ row, .task row ∈ writes → row.uid ≠ r.uid) : rowAfter writes r = r :=
  overwrites_tasks.foldl_untouched fun _ member row brought => untouched row (brought ▸ member)

theorem apply_tasks (db : Db) (w : Write) : (db.apply w).tasks = db.tasks.map fun r => w.on r := by
  cases w with
  | task row => rfl
  | build row => exact (List.map_id' _).symm
  | cache row => exact (db.apply_cache_tasks row).trans (List.map_id' _).symm

theorem apply_deps (db : Db) (w : Write) : (db.apply w).deps = db.deps := by
  cases w with
  | task row => rfl
  | build row => rfl
  | cache row => exact db.apply_cache_deps row

theorem foldl_apply_tasks (writes : List Write) (db : Db) :
    (writes.foldl Db.apply db).tasks = db.tasks.map (rowAfter writes) :=
  foldl_column apply_tasks writes db

theorem foldl_apply_deps (writes : List Write) (db : Db) :
    (writes.foldl Db.apply db).deps = db.deps :=
  foldl_unchanged apply_deps writes db

theorem apply_serials (db : Db) (w : Write) : (db.apply w).serials = db.serials := by
  cases w with
  | task row => rfl
  | build row => rfl
  | cache row => exact db.apply_cache_serials row

theorem foldl_apply_serials (writes : List Write) (db : Db) :
    (writes.foldl Db.apply db).serials = db.serials :=
  foldl_unchanged apply_serials writes db

theorem mem_foldl_apply_cache {writes : List Write} {db : Db} {r : CacheRow}
    (hr : r ∈ (writes.foldl Db.apply db).cache) : r ∈ db.cache ∨ .cache r ∈ writes := by
  induction writes generalizing db with
  | nil => exact Or.inl hr
  | cons w writes ih =>
    rcases ih hr with before | later
    · cases w with
      | task row => exact Or.inl before
      | build row => exact Or.inl before
      | cache row =>
        rcases Db.mem_apply_cache before with rfl | old
        · exact Or.inr (by simp)
        · exact Or.inl old
    · exact Or.inr (List.mem_cons_of_mem _ later)

/-! ### Commits of others -/

/-- The committed tables move on from `com` to `com'` by writes to rows that are
not in `locks`. -/
structure Rebase (locks : List Lock) (com com' : Db) : Prop where
  grows : Db.Grows com com'
  rows : ∃ f : TaskRow → TaskRow, com'.tasks = com.tasks.map f ∧ (∀ r, (f r).uid = r.uid) ∧
    ∀ r ∈ com.tasks, Lock.task r.uid ∈ locks → f r = r

/-- A transaction has locked what it wrote. -/
structure Tx.Owns (tx : Tx) : Prop where
  task : ∀ row, .task row ∈ tx.writes → Lock.task row.uid ∈ tx.locks
  valid : ∀ row, .cache row ∈ tx.writes → validHash row.output = true

section Rebase

variable {H : Sha256} {com com' : Db} {tx : Tx}

theorem view_unlocked (owns : tx.Owns) {r : TaskRow} (free : Lock.task r.uid ∉ tx.locks) :
    rowAfter tx.writes r = r :=
  rowAfter_of_untouched fun row member same => free (same ▸ owns.task row member)

theorem mem_view_unlocked (owns : tx.Owns) {t : TaskRow} (free : Lock.task t.uid ∉ tx.locks) :
    t ∈ (tx.view com).tasks ↔ t ∈ com.tasks := by
  rw [Tx.view, foldl_apply_tasks, List.mem_map]
  constructor
  · rintro ⟨r, hr, rfl⟩
    rw [rowAfter_uid] at free
    rwa [view_unlocked owns free]
  · intro ht
    exact ⟨t, ht, view_unlocked owns free⟩

/-- The view after the rebase: the transaction's own rows and, for the rest, the
committed ones. -/
theorem mem_view_rebase (owns : tx.Owns) (rb : Rebase tx.locks com com') {t : TaskRow} :
    t ∈ (tx.view com').tasks ↔ (t ∈ (tx.view com).tasks ∧ Lock.task t.uid ∈ tx.locks) ∨
      (t ∈ com'.tasks ∧ Lock.task t.uid ∉ tx.locks) := by
  by_cases locked : Lock.task t.uid ∈ tx.locks
  · obtain ⟨f, rows, uid, fixed⟩ := rb.rows
    simp only [locked, and_true, not_true, and_false, or_false]
    rw [Tx.view, Tx.view, foldl_apply_tasks, foldl_apply_tasks, rows, List.map_map, List.mem_map,
      List.mem_map]
    constructor
    · rintro ⟨r, hr, rfl⟩
      rw [Function.comp_apply, rowAfter_uid, uid] at locked
      exact ⟨r, hr, by rw [Function.comp_apply, fixed r hr locked]⟩
    · rintro ⟨r, hr, rfl⟩
      rw [rowAfter_uid] at locked
      exact ⟨r, hr, by rw [Function.comp_apply, fixed r hr locked]⟩
  · simp only [locked, and_false, not_false_eq_true, and_true, false_or]
    exact mem_view_unlocked owns locked

/-- Rows under lock are committed as before. -/
theorem Rebase.mem_locked (rb : Rebase tx.locks com com') {r : TaskRow}
    (locked : Lock.task r.uid ∈ tx.locks) : r ∈ com'.tasks ↔ r ∈ com.tasks := by
  obtain ⟨f, rows, uid, fixed⟩ := rb.rows
  rw [rows, List.mem_map]
  constructor
  · rintro ⟨u, hu, rfl⟩
    rw [uid] at locked
    rwa [fixed u hu locked]
  · intro hr
    exact ⟨r, hr, fixed r hr locked⟩

/-- A view keeps the fixed columns of the committed rows. -/
theorem view_fixed (g : Db.Grows com (tx.view com)) (k : com.Keyed) {r : TaskRow} (hr : r ∈ com.tasks) :
    (rowAfter tx.writes r).fixed = r.fixed := by
  have member : rowAfter tx.writes r ∈ (tx.view com).tasks := by
    rw [Tx.view, foldl_apply_tasks]
    exact List.mem_map_of_mem hr
  obtain ⟨u, hu, same⟩ := Db.mem_of_fixed g.fixed.symm member
  have uid := (uid_of_fixed same).trans (rowAfter_uid tx.writes r)
  rw [← same, k.uid_inj hu hr uid]

theorem grows_view_rebase (owns : tx.Owns) (rb : Rebase tx.locks com com') (k : com.Keyed)
    (g : Db.Grows com (tx.view com)) : Db.Grows com' (tx.view com') where
  deps := foldl_apply_deps _ _
  serials := foldl_apply_serials _ _
  fixed := by
    obtain ⟨f, rows, uid, same⟩ := rb.rows
    rw [Tx.view, foldl_apply_tasks, List.map_map]
    refine List.map_congr_left fun t ht => ?_
    rw [Function.comp_apply]
    by_cases locked : Lock.task t.uid ∈ tx.locks
    · exact view_fixed g k ((rb.mem_locked locked).mp ht)
    · rw [view_unlocked owns locked]
  keeps t ht done := by
    refine (mem_view_rebase owns rb).mpr ?_
    by_cases locked : Lock.task t.uid ∈ tx.locks
    · exact Or.inl ⟨g.keeps t ((rb.mem_locked locked).mp ht) done, locked⟩
    · exact Or.inr ⟨ht, locked⟩

/-- The view itself grows. -/
theorem view_grows_rebase (owns : tx.Owns) (rb : Rebase tx.locks com com') (k : com.Keyed)
    (g : Db.Grows com (tx.view com)) : Db.Grows (tx.view com) (tx.view com') where
  deps := by
    rw [Tx.view, Tx.view, foldl_apply_deps, foldl_apply_deps, rb.grows.deps]
  serials := by
    rw [Tx.view, Tx.view, foldl_apply_serials, foldl_apply_serials, rb.grows.serials]
  fixed := by
    rw [(grows_view_rebase owns rb k g).fixed, rb.grows.fixed, g.fixed]
  keeps t ht done := by
    refine (mem_view_rebase owns rb).mpr ?_
    by_cases locked : Lock.task t.uid ∈ tx.locks
    · exact Or.inl ⟨ht, locked⟩
    · exact Or.inr ⟨rb.grows.keeps t ((mem_view_unlocked owns locked).mp ht) done, locked⟩

/-- What the transaction finished does not depend on the commits of others. -/
theorem finished_view_rebase (owns : tx.Owns) (rb : Rebase tx.locks com com') (k : com.Keyed)
    (g : Db.Grows com (tx.view com)) (s : Nat × Nat) :
    ((tx.view com').Finished s ∧ ¬ com'.Finished s) ↔
      ((tx.view com).Finished s ∧ ¬ com.Finished s) := by
  have k' := rb.grows.keyed k
  constructor
  · rintro ⟨⟨t, ht, slot, done⟩, fresh⟩
    rcases (mem_view_rebase owns rb).mp ht with ⟨mine, locked⟩ | ⟨theirs, -⟩
    · exact ⟨⟨t, mine, slot, done⟩, fun before => fresh (rb.grows.finished before)⟩
    · exact absurd ⟨t, theirs, slot, done⟩ fresh
  · rintro ⟨⟨t, ht, slot, done⟩, fresh⟩
    have locked : Lock.task t.uid ∈ tx.locks := by
      by_contra free
      exact fresh ⟨t, (mem_view_unlocked owns free).mp ht, slot, done⟩
    refine ⟨⟨t, (mem_view_rebase owns rb).mpr (Or.inl ⟨ht, locked⟩), slot, done⟩, ?_⟩
    rintro ⟨u, hu, uslot, udone⟩
    -- the committed row there is `t`'s own, unchanged since
    obtain ⟨v, hv, same⟩ := Db.mem_of_fixed g.fixed.symm ht
    have uv : u.uid = v.uid := by
      obtain ⟨v', hv', same'⟩ := Db.mem_of_fixed rb.grows.fixed hv
      have : u = v' := k'.slot_inj hu hv' (by
        rw [uslot, slot_of_fixed same', slot_of_fixed same, slot])
      rw [this, uid_of_fixed same']
    have here : u ∈ com.tasks := by
      refine (rb.mem_locked ?_).mp hu
      rw [uv, uid_of_fixed same]
      exact locked
    exact fresh ⟨u, here, uslot, udone⟩

theorem newEdges_rebase (owns : tx.Owns) (rb : Rebase tx.locks com com') (k : com.Keyed)
    (g : Db.Grows com (tx.view com)) : newEdges com' (tx.view com') = newEdges com (tx.view com) := by
  rw [newEdges, newEdges, rb.grows.deps]
  congr 1
  refine List.filter_congr fun d _ => ?_
  rw [decide_eq_decide]
  exact finished_view_rebase owns rb k g d.source

/-- The edges still due are read off fixed columns. -/
theorem dueEdges_rebase (g : Db.Grows com com') (k : com.Keyed) (stack : List Stmt) :
    dueEdges com' stack = dueEdges com stack := by
  refine List.flatMap_congr fun s _ => ?_
  cases s with
  | cachePut build id key output size => simp only [Stmt.due, g.deps]
  | dependents build id => simp only [Stmt.due, g.deps]
  | countDown build id uid =>
    have ids : (com'.task? uid).map (·.id) = (com.task? uid).map (·.id) := by
      cases found : com.task? uid with
      | some t =>
        obtain ⟨ht, uid_eq⟩ := (Db.task?_eq_some k).mp found
        obtain ⟨u, hu, same⟩ := Db.mem_of_fixed g.fixed ht
        rw [(Db.task?_eq_some (g.keyed k)).mpr ⟨hu, (uid_of_fixed same).trans uid_eq⟩]
        simp [id_of_fixed same]
      | none =>
        cases found' : com'.task? uid with
        | none => rfl
        | some u =>
          obtain ⟨hu, uid_eq⟩ := (Db.task?_eq_some (g.keyed k)).mp found'
          obtain ⟨t, ht, same⟩ := Db.mem_of_fixed g.fixed.symm hu
          rw [(Db.task?_eq_some k).mpr ⟨ht, (uid_of_fixed same).trans uid_eq⟩] at found
          cases found
    simp only [Stmt.due, ids]
  | _ => rfl

/-- Statements carry values that stay right as the view grows. -/
theorem Stmt.Ok.grow {db db' : Db} {s : Stmt} (ok : s.Ok H db) (g : Db.Grows db db') (k : db.Keyed)
    (ready : ∀ slot, subject [s] = some slot →
      ∀ d ∈ db.deps, d.target = slot → db.Finished d.source) : s.Ok H db' := by
  have row : ∀ {p : TaskRow → Prop}, (∀ t u : TaskRow, u.fixed = t.fixed → p t → p u) →
      (∃ t ∈ db.tasks, p t) → ∃ t ∈ db'.tasks, p t := by
    rintro p keeps ⟨t, ht, holds⟩
    obtain ⟨u, hu, same⟩ := Db.mem_of_fixed g.fixed ht
    exact ⟨u, hu, keeps t u same holds⟩
  have keyed : ∀ {slot : Nat × Nat} {key : Str},
      (∀ d ∈ db.deps, d.target = slot → db.Finished d.source) →
      (∃ t ∈ db.tasks, t.slot = slot ∧ t.kind ≠ COMPILE ∧ key = db.keyOf H t) →
      ∃ t ∈ db'.tasks, t.slot = slot ∧ t.kind ≠ COMPILE ∧ key = db'.keyOf H t := by
    rintro slot key known ⟨t, ht, rfl, action, rfl⟩
    obtain ⟨u, hu, same⟩ := Db.mem_of_fixed g.fixed ht
    refine ⟨u, hu, slot_of_fixed same, by rwa [kind_of_fixed same], ?_⟩
    rw [keyOf_of_fixed same, keyOf_grow g k known]
  cases s with
  | countDown build id uid =>
    exact row (fun t u same h => ⟨(uid_of_fixed same).trans h.1, (build_of_fixed same).trans h.2⟩) ok
  | taskInfo build id =>
    exact row (fun t u same h => ⟨(slot_of_fixed same).trans h.1, by rw [kind_of_fixed same]; exact h.2⟩) ok
  | depOutputs build id kind args toolchain =>
    refine row (fun t u same h => ?_) ok
    rw [slot_of_fixed same, kind_of_fixed same, args_of_fixed same, toolchain_of_fixed same]
    exact h
  | cacheHit build id key names digests | markReady build id key names digests =>
    obtain ⟨names_eq, digests_eq, task⟩ := ok
    have known := ready (build, id) rfl
    refine ⟨?_, ?_, keyed known task⟩
    · rw [inputNames_grow g k known]; exact names_eq
    · rw [inputDigests_grow g k known]; exact digests_eq
  | markCached build id key output =>
    exact ⟨ok.1, keyed (ready (build, id) rfl) ok.2⟩
  | _ => exact ok

/-- The task a stack is making ready is that of its top statement. -/
theorem subject_cons (s : Stmt) (rest : List Stmt) : subject (s :: rest) = subject [s] := by
  cases s <;> rfl

/-- The invariant of a transaction survives the commits of others. -/
theorem Mid.rebase (m : Mid H com (tx.cfg com)) (base : Consistent H com)
    (base' : Consistent H com') (owns : tx.Owns) (rb : Rebase tx.locks com com')
    (subj : ∀ t ∈ (tx.view com).tasks, subject tx.stack = some t.slot → Lock.task t.uid ∈ tx.locks) :
    Mid H com' (tx.cfg com') := by
  have k := base.keyed
  have g : Db.Grows com (tx.view com) := m.grows
  have kv : (tx.view com).Keyed := g.keyed k
  have gv := view_grows_rebase owns rb k g
  have g' := grows_view_rebase owns rb k g
  -- a row of the new view is an old one of the transaction or a committed one it has not locked
  have rows := fun t => (mem_view_rebase owns rb (t := t)).mp
  have notSubject : ∀ t ∈ com'.tasks, Lock.task t.uid ∉ tx.locks →
      subject tx.stack ≠ some t.slot := by
    intro t ht free here
    obtain ⟨u, hu, same⟩ := Db.mem_of_fixed rb.grows.fixed.symm ht
    obtain ⟨v, hv, same'⟩ := Db.mem_of_fixed g.fixed hu
    have locked := subj v hv (by rw [here, slot_of_fixed same', slot_of_fixed same])
    rw [uid_of_fixed same', uid_of_fixed same] at locked
    exact free locked
  refine ⟨g', ?_, ?_, ?_, ?_, ?_, ?_, ?_, ?_, m.loops⟩
  · intro r hr
    rcases mem_foldl_apply_cache hr with old | mine
    · exact base'.cache r old
    · exact owns.valid r mine
  · intro t ht
    rcases rows t ht with ⟨mine, -⟩ | ⟨theirs, free⟩
    · exact m.waiting t mine
    · have := notSubject t theirs free
      simpa [Tx.cfg, this] using base'.waiting t theirs
  · intro t ht done
    rcases rows t ht with ⟨mine, -⟩ | ⟨theirs, -⟩
    · exact m.output t mine done
    · exact base'.output t theirs done
  · intro t ht settled action
    rcases rows t ht with ⟨mine, -⟩ | ⟨theirs, -⟩
    · exact (m.columns t mine settled action).grow gv kv (m.ready base mine (m.not_pending mine settled))
    · have counted := base'.pending t theirs
      have zero : ¬ 0 < t.pendingDeps := fun h => settled ((base'.waiting t theirs).mpr h)
      exact (base'.columns t theirs settled action).grow g' base'.keyed
        (unfinishedDeps_eq_zero.mp (by omega))
  · intro t ht u hu same
    rcases rows t ht with ⟨mine, locked⟩ | ⟨theirs, free⟩
    · exact m.counts t mine u ((rb.mem_locked (same ▸ locked)).mp hu) same
    · -- an edge into an unlocked row has not been counted
      obtain ⟨r, hr, rsame⟩ := Db.mem_of_fixed rb.grows.fixed.symm theirs
      have ruid := uid_of_fixed rsame
      have inView := (mem_view_unlocked owns (by rwa [ruid])).mpr hr
      have none_ := m.counts r inView r hr rfl
      rw [base'.keyed.uid_inj theirs hu same]
      have slot := slot_of_fixed rsame
      rw [base'.keyed.uid_inj theirs hu same] at slot
      rw [slot] at none_
      simp only [Tx.cfg] at none_ ⊢
      omega
  · have due := dueEdges_rebase rb.grows k tx.stack
    have new := newEdges_rebase owns rb k g
    change (countedEdges tx.trace ++ dueEdges com' tx.stack).Perm (newEdges com' (tx.view com'))
    rw [due, new]
    exact m.edges
  · intro t ht here
    rcases rows t ht with ⟨mine, -⟩ | ⟨theirs, free⟩
    · exact m.zero t mine here
    · exact absurd here (notSubject t theirs free)
  · intro s hs
    refine (m.ok s hs).grow gv kv fun slot here => ?_
    -- only the statement on top is about the task being made ready
    obtain ⟨rest, top⟩ : ∃ rest, tx.stack = s :: rest := by
      cases stack : tx.stack with
      | nil =>
        change s ∈ tx.stack at hs
        rw [stack] at hs
        cases hs
      | cons s' rest =>
        change s ∈ tx.stack at hs
        rw [stack] at hs
        rcases List.mem_cons.mp hs with rfl | later
        · exact ⟨rest, rfl⟩
        · have loop := m.loops s (by simpa [Tx.cfg, stack] using later)
          have none_ : subject [s] = none := subject_of_loops (by simpa using loop)
          rw [none_] at here
          cases here
    have subjHere : subject tx.stack = some slot := by rw [top, subject_cons, here]
    intro d hd target
    have l := g.linked base.linked
    obtain ⟨t, ht, tslot⟩ := l.target d hd
    have zero := m.zero t ht (by rw [tslot, target]; exact subjHere)
    exact m.ready base ht (by omega) d hd tslot.symm

end Rebase

/-! ### What a step can do -/

theorem World.free_iff {n : Nat} {w : World n} {i : Fin n} {l : Lock} :
    w.free i l = true ↔ ∀ j tx, j ≠ i → w.txs j = some tx → l ∉ tx.locks := by
  simp only [World.free, List.all_eq_true, List.mem_finRange, forall_true_left, Bool.or_eq_true,
    decide_eq_true_eq]
  refine forall_congr' fun j => ?_
  cases w.txs j with
  | none => simp
  | some tx => simp [or_iff_not_imp_left]

theorem World.unlocked_iff {n : Nat} {w : World n} {l : Lock} :
    w.unlocked l = true ↔ ∀ j tx, w.txs j = some tx → l ∉ tx.locks := by
  simp only [World.unlocked, List.all_eq_true, List.mem_finRange, forall_true_left]
  refine forall_congr' fun j => ?_
  cases w.txs j with
  | none => simp
  | some tx => simp

/-- The steps with what enables them. -/
inductive World.Move (H : Sha256) (o : Options) {n : Nat} (w : World n) : Act n → World n → Prop where
  | begin {i : Fin n} {blobs : Blobs} {now : Int} {r : TaskResult} : w.txs i = none →
      Move H o w (.begin i blobs now r)
        (w.setTx i (some { stack := completeTask blobs.has blobs.sizeOf now r }))
  | exec {i : Fin n} {tx : Tx} {s : Stmt} {rest : List Stmt} : w.txs i = some tx →
      tx.stack = s :: rest →
      (∀ l, s.target (tx.view w.com) = some l → ∀ j tx', j ≠ i → w.txs j = some tx' → l ∉ tx'.locks) →
      Move H o w (.exec i) (w.setTx i (some (tx.after (s.target (tx.view w.com))
        (exec H o (tx.view w.com) s) rest)))
  | commit {i : Fin n} {tx : Tx} : w.txs i = some tx → tx.stack = [] →
      Move H o w (.commit i)
        ⟨tx.view w.com, Function.update w.txs i none, w.history ++ [tx.trace]⟩
  | abort {i : Fin n} {tx : Tx} : w.txs i = some tx → Move H o w (.abort i) (w.setTx i none)
  | claim {worker toolchain : Str} {part now : Int} {uid : Nat} {t : TaskRow} : t ∈ w.com.tasks →
      t.state = .ready → (∀ j tx, w.txs j = some tx → Lock.task t.uid ∉ tx.locks) →
      Move H o w (.claim worker toolchain part now uid)
        { w with com := w.com.apply (.task (claimedRow o worker now t)) }

theorem World.Step.move {H : Sha256} {o : Options} {n : Nat} {w w' : World n} {a : Act n}
    (taken : World.Step H o w a w') : World.Move H o w a w' := by
  unfold World.Step at taken
  cases a with
  | begin i blobs now r =>
    simp only [World.step] at taken
    split at taken
    · cases taken
      exact .begin (by assumption)
    · cases taken
  | exec i =>
    simp only [World.step] at taken
    split at taken
    · cases taken
    · rename_i tx running
      split at taken
      · cases taken
      · rename_i s rest top
        split at taken
        · rename_i enabled
          cases taken
          refine .exec running top fun l target => ?_
          rw [target] at enabled
          exact World.free_iff.mp enabled
        · cases taken
  | commit i =>
    simp only [World.step] at taken
    split at taken
    · cases taken
    · rename_i tx running
      split at taken
      · rename_i empty
        cases taken
        exact .commit running empty
      · cases taken
  | abort i =>
    simp only [World.step] at taken
    split at taken
    · cases taken
    · rename_i tx running
      cases taken
      exact .abort running
  | claim worker toolchain part now uid =>
    simp only [World.step] at taken
    split at taken
    · cases taken
    · rename_i t found
      split at taken
      · cases taken
        have member := List.mem_of_find?_eq_some found
        obtain ⟨ht, ready⟩ : t ∈ (w.com.tasks.filter fun t => w.unlocked (.task t.uid)) ∧
            t.state = .ready := by
          simp only [World.claimCandidates, DistCompile.claimCandidates] at member
          split at member
          · obtain ⟨ht, claim⟩ := List.mem_filter.mp member
            simp only [claimable, Bool.and_eq_true, decide_eq_true_eq] at claim
            exact ⟨ht, claim.1.1⟩
          · obtain ⟨ht, claim⟩ := List.mem_filter.mp member
            simp only [claimable, Bool.and_eq_true, decide_eq_true_eq] at claim
            exact ⟨ht, claim.1.1.1⟩
        obtain ⟨inCom, free⟩ := List.mem_filter.mp ht
        exact .claim inCom ready (World.unlocked_iff.mp free)
      · cases taken

/-! ### The invariant of interleaved completions -/

/-- A statement locks the row it writes. -/
theorem target_of_write {H : Sha256} {o : Options} {db : Db} {s : Stmt} {w : Write}
    (written : (exec H o db s).write = some w) : s.target db = some w.lock := by
  cases s <;> simp only [exec, Stmt.target] at written ⊢ <;> grind [Write.lock]

/-- What goes into the cache is valid. -/
theorem Mid.cache_valid {H : Sha256} {o : Options} {com : Db} {c : Cfg} (m : Mid H com c) {s : Stmt}
    (hs : s ∈ c.stack) {row : CacheRow} (written : (DistCompile.exec H o c.db s).write = some (.cache row)) :
    validHash row.output = true := by
  have ok := m.ok s hs
  cases s with
  | cachePut build id key output size =>
    simp only [DistCompile.exec] at written
    split at written
    · cases written
    · cases written
      exact ok
  | cacheHit build id key names digests =>
    simp only [DistCompile.exec] at written
    split at written
    · rename_i c' found
      cases written
      exact m.cache c' (List.mem_of_find?_eq_some found)
    · cases written
  | _ => simp only [DistCompile.exec] at written; grind

/-- A statement goes on with the task it was making ready, or with one whose row
it has locked. -/
theorem subject_after {H : Sha256} {o : Options} {com : Db} {c : Cfg} (m : Mid H com c)
    (base : Consistent H com) {s : Stmt} {rest : List Stmt} (top : c.stack = s :: rest)
    {slot : Nat × Nat} (here : subject ((exec H o c.db s).next ++ rest) = some slot) :
    subject c.stack = some slot ∨
      ∃ t ∈ c.db.tasks, t.slot = slot ∧ s.target c.db = some (.task t.uid) := by
  have k := m.keyed base.keyed
  have ok := m.ok s (by simp [top])
  have none_ : subject rest = none := subject_of_loops (m.rest_loops top)
  rw [top]
  cases s with
  | countDown build id uid =>
    obtain ⟨t, ht, uid_eq, build_eq⟩ := ok
    have found := (Db.task?_eq_some k).mpr ⟨ht, uid_eq⟩
    simp only [exec, found] at here
    split at here
    · refine Or.inr ⟨t, ht, ?_, by simp [Stmt.target, found]⟩
      have := Option.some.inj here
      rw [← this, TaskRow.slot, build_eq]
    · rw [List.nil_append, none_] at here
      cases here
  | taskInfo build id =>
    obtain ⟨t, ht, tslot, -⟩ := ok
    simp only [exec, (Db.taskAt?_eq_some k).mpr ⟨ht, tslot⟩] at here
    exact Or.inl here
  | depOutputs build id kind args toolchain => exact Or.inl here
  | cacheHit build id key names digests =>
    simp only [exec] at here
    split at here
    · exact Or.inl here
    · exact Or.inl here
  | dependents build id =>
    simp only [exec] at here
    cases rows : c.db.dependents build id with
    | nil => rw [rows] at here; cases here
    | cons t ts => rw [rows] at here; cases here
  | _ =>
    simp only [exec, finished, maybeFinish] at here
    grind [subject]

/-- What holds of one transaction on top of the committed tables. -/
structure Tx.Good (H : Sha256) (com : Db) (tx : Tx) : Prop where
  mid : Mid H com (tx.cfg com)
  owns : tx.Owns
  subj : ∀ t ∈ (tx.view com).tasks, subject tx.stack = some t.slot → Lock.task t.uid ∈ tx.locks

/-- The committed tables are consistent, every transaction is good, and no row is
locked twice. -/
structure World.Inv (H : Sha256) {n : Nat} (w : World n) : Prop where
  base : Consistent H w.com
  good : ∀ i tx, w.txs i = some tx → tx.Good H w.com
  apart : ∀ i j tx tx', i ≠ j → w.txs i = some tx → w.txs j = some tx' →
    ∀ l ∈ tx.locks, l ∉ tx'.locks

theorem Tx.view_after (tx : Tx) (com : Db) (target : Option Lock) (out : Outcome)
    (rest : List Stmt) : (tx.after target out rest).view com = out.db (tx.view com) := by
  rw [Tx.view, Tx.after, List.foldl_append]
  cases h : out.write with
  | none => simp [Outcome.db, h, Tx.view]
  | some w => simp [Outcome.db, h, Tx.view]

theorem Tx.cfg_after (tx : Tx) (com : Db) (target : Option Lock) (out : Outcome)
    (rest : List Stmt) : (tx.after target out rest).cfg com = (tx.cfg com).after out rest := by
  rw [Tx.cfg, tx.view_after com target out rest]
  rfl

/-- A transaction executes a statement. -/
theorem Tx.Good.exec {H : Sha256} {o : Options} {com : Db} {tx : Tx} (good : tx.Good H com)
    (base : Consistent H com) {s : Stmt} {rest : List Stmt} (top : tx.stack = s :: rest) :
    (tx.after (s.target (tx.view com)) (exec H o (tx.view com) s) rest).Good H com where
  mid := by
    rw [Tx.cfg_after]
    exact good.mid.exec base o top
  owns := by
    constructor
    · intro row member
      rcases List.mem_append.mp member with old | new
      · exact List.mem_append_left _ (good.owns.task row old)
      · have target := target_of_write (Option.mem_toList.mp new)
        exact List.mem_append_right _ (by rw [target]; simp [Write.lock])
    · intro row member
      rcases List.mem_append.mp member with old | new
      · exact good.owns.valid row old
      · exact good.mid.cache_valid (by simp [Tx.cfg, top]) (Option.mem_toList.mp new)
  subj := by
    intro t ht here
    rw [Tx.view_after] at ht
    -- the row had the same slot and uid before the statement
    have grown := (good.mid.exec base o top).grows.fixed
    obtain ⟨r, hr, rsame⟩ := Db.mem_of_fixed grown.symm ht
    obtain ⟨v, hv, vsame⟩ := Db.mem_of_fixed good.mid.grows.fixed hr
    have uid := (uid_of_fixed vsame).trans (uid_of_fixed rsame)
    have slot := (slot_of_fixed vsame).trans (slot_of_fixed rsame)
    rcases subject_after good.mid base top here with before | ⟨u, hu, uslot, target⟩
    · have locked := good.subj v hv (by rw [slot]; exact before)
      rw [uid] at locked
      exact List.mem_append_left _ locked
    · have same : u = v := (good.mid.keyed base.keyed).slot_inj hu hv (uslot.trans slot.symm)
      refine List.mem_append_right _ ?_
      change s.target (tx.view com) = _ at target
      rw [target, same, uid]
      simp

theorem Tx.Good.rebase {H : Sha256} {com com' : Db} {tx : Tx} (good : tx.Good H com)
    (base : Consistent H com) (base' : Consistent H com') (rb : Rebase tx.locks com com') :
    tx.Good H com' where
  mid := good.mid.rebase base base' good.owns rb good.subj
  owns := good.owns
  subj := by
    intro t ht here
    rcases (mem_view_rebase good.owns rb).mp ht with ⟨-, locked⟩ | ⟨theirs, -⟩
    · exact locked
    · obtain ⟨r, hr, rsame⟩ := Db.mem_of_fixed rb.grows.fixed.symm theirs
      obtain ⟨v, hv, vsame⟩ := Db.mem_of_fixed good.mid.grows.fixed hr
      have locked := good.subj v hv (by rw [here, slot_of_fixed vsame, slot_of_fixed rsame])
      rwa [uid_of_fixed vsame, uid_of_fixed rsame] at locked

theorem Tx.Good.begin {H : Sha256} {com : Db} (base : Consistent H com) (blobs : Blobs) (now : Int)
    (r : TaskResult) :
    Tx.Good H com { stack := completeTask blobs.has blobs.sizeOf now r } := by
  obtain ⟨s, stack, start⟩ := completeTask_start base blobs now r
  refine ⟨by rw [stack]; exact start, ⟨by simp, by simp⟩, fun t ht here => ?_⟩
  have waits := (start.waiting t ht).mpr (Or.inr (by rw [stack] at here; exact here))
  have settled := (base.waiting t ht).mp waits
  have zero := start.zero t ht (by rw [stack] at here; exact here)
  omega

/-- What a commit is for the other transactions. -/
theorem Tx.Good.rebase_of_commit {H : Sha256} {com : Db} {tx tx' : Tx} (good : tx.Good H com)
    (apart : ∀ l ∈ tx.locks, l ∉ tx'.locks) : Rebase tx'.locks com (tx.view com) where
  grows := good.mid.grows
  rows := by
    refine ⟨rowAfter tx.writes, foldl_apply_tasks _ _, rowAfter_uid _, fun r _ locked => ?_⟩
    exact view_unlocked good.owns fun mine => apart _ mine locked

/-- A claim of an unlocked row is one, too. -/
theorem rebase_of_claim {H : Sha256} {o : Options} {com : Db} {tx : Tx} (base : Consistent H com)
    {worker : Str} {now : Int} {t : TaskRow} (ht : t ∈ com.tasks) (ready : t.state = .ready)
    (free : Lock.task t.uid ∉ tx.locks) :
    Rebase tx.locks com (com.apply (.task (claimedRow o worker now t))) where
  grows := Db.grows_apply_task base.keyed ht rfl (by rw [ready]; rfl)
  rows := by
    refine ⟨fun r => Write.on r (.task (claimedRow o worker now t)), rfl, fun r => overwrites_tasks.on_key r _,
      fun r _ locked => if_neg fun same => free ?_⟩
    change r.uid = t.uid at same
    rwa [same] at locked

section Step

variable {H : Sha256} {o : Options} {n : Nat} {w w' : World n} {a : Act n}

theorem setTx_txs (w : World n) (i j : Fin n) (tx : Option Tx) :
    (w.setTx i tx).txs j = if j = i then tx else w.txs j := by
  simp [World.setTx, Function.update_apply]

/-- Every step keeps the invariant. -/
theorem World.Inv.move (inv : w.Inv H) (taken : World.Move H o w a w') : w'.Inv H := by
  cases taken with
  | @begin i blobs now r idle =>
    refine ⟨inv.base, fun j tx running => ?_, fun j k tx tx' other running running' l mine => ?_⟩
    · rw [setTx_txs] at running
      split at running
      · cases running
        exact Tx.Good.begin inv.base blobs now r
      · exact inv.good j tx running
    · rw [setTx_txs] at running running'
      split at running
      · cases running
        cases mine
      · split at running'
        · cases running'
          simp
        · exact inv.apart j k tx tx' other running running' l mine
  | @exec i tx s rest runs top enabled =>
    refine ⟨inv.base, fun j tx' running => ?_, fun j k tx₁ tx₂ other running running' l mine theirs => ?_⟩
    · rw [setTx_txs] at running
      split at running
      · cases running
        exact (inv.good i tx runs).exec inv.base top
      · exact inv.good j tx' running
    · rw [setTx_txs] at running running'
      split at running
      · rename_i here
        have away : k ≠ i := fun h => other (here.trans h.symm)
        rw [if_neg away] at running'
        cases running
        rcases List.mem_append.mp mine with old | new
        · exact inv.apart i k tx tx₂ (Ne.symm away) runs running' l old theirs
        · exact enabled l (Option.mem_toList.mp new) k tx₂ away running' theirs
      · rename_i away
        split at running'
        · cases running'
          rcases List.mem_append.mp theirs with old | new
          · exact inv.apart j i tx₁ tx away running runs l mine old
          · exact enabled l (Option.mem_toList.mp new) j tx₁ away running mine
        · exact inv.apart j k tx₁ tx₂ other running running' l mine theirs
  | @commit i tx runs empty =>
    have good := inv.good i tx runs
    have base' := good.mid.done inv.base empty
    have others : ∀ j tx', Function.update w.txs i none j = some tx' → j ≠ i ∧ w.txs j = some tx' := by
      intro j tx' running
      rw [Function.update_apply] at running
      split at running
      · cases running
      · exact ⟨by assumption, running⟩
    refine ⟨base', fun j tx' running => ?_, fun j k tx₁ tx₂ other running running' => ?_⟩
    · obtain ⟨away, before⟩ := others j tx' running
      exact (inv.good j tx' before).rebase inv.base base'
        (good.rebase_of_commit (inv.apart i j tx tx' (Ne.symm away) runs before))
    · exact inv.apart j k tx₁ tx₂ other (others j tx₁ running).2 (others k tx₂ running').2
  | @abort i tx runs =>
    refine ⟨inv.base, fun j tx' running => ?_, fun j k tx₁ tx₂ other running running' => ?_⟩
    · rw [setTx_txs] at running
      split at running
      · cases running
      · exact inv.good j tx' running
    · rw [setTx_txs] at running running'
      split at running
      · cases running
      · split at running'
        · cases running'
        · exact inv.apart j k tx₁ tx₂ other running running'
  | @claim worker toolchain part now uid t ht ready free =>
    have base' : Consistent H (w.com.apply (.task (claimedRow o worker now t))) :=
      inv.base.relabel_row ht (claimedRow_relabel ready)
    refine ⟨base', fun j tx running => ?_, inv.apart⟩
    exact (inv.good j tx running).rebase inv.base base'
      (rebase_of_claim inv.base ht ready (free j tx running))

theorem World.Inv.start (base : Consistent H w.com) (quiet : w.Quiet) : w.Inv H where
  base := base
  good i tx running := by
    rw [quiet i] at running
    cases running
  apart i _ _ _ _ running := by
    rw [quiet i] at running
    cases running

end Step

end DistCompile
