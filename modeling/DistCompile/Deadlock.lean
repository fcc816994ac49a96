import DistCompile.InputNames
import DistCompile.ReadCommitted
import DistCompile.Lib.Waits

/-!
Locks of completions that run side by side.

`finished` locks the dependents of a task in id order before it counts them down.
A dependent found in the cache is finished at once, under the locks taken so far,
and its own dependents may come before them. `World.backward` singles out the
step where this happens. Without one, every transaction takes its row locks in
ascending order (`Climbs`), and the order excludes a deadlock (`deadlock_free`).
With one, two completions of a build can wait for each other
(`completions_deadlock`).
-/

namespace DistCompile

open DistCompile.Lib

/-! ### Waiting for a task row -/

namespace World

variable {n : Nat}

/-- The task row that the next statement of a transaction locks. -/
def wants (w : World n) (i : Fin n) : Option Nat :=
  match w.txs i with
  | some tx => match tx.stack with
    | s :: _ => match s.target (tx.view w.com) with
      | some (.task uid) => some uid
      | _ => none
    | [] => none
  | none => none

/-- The transaction on connection `i` has locked the task row. -/
def holds (w : World n) (i : Fin n) (uid : Nat) : Prop :=
  ∃ tx, w.txs i = some tx ∧ Lock.task uid ∈ tx.locks

/-- Some transactions each wait for a task row that the next one has locked. -/
def Deadlocked (w : World n) : Prop := Lib.Deadlocked w.wants w.holds

/-- The step is a query for the dependents of a task that goes back: a row it is
about to lock does not come after all the rows its transaction has locked. -/
def backward (w : World n) : Act n → Bool
  | .exec i => match w.txs i with
    | some tx => match tx.stack with
      | .dependents build id :: _ =>
          ((tx.view w.com).dependents build id).any fun t =>
            !tx.locks.contains (.task t.uid) &&
              (tx.view w.com).tasks.any fun u => tx.locks.contains (.task u.uid) && decide (t.id ≤ u.id)
      | _ => false
    | none => false
  | _ => false

end World

/-! ### Locks in ascending order -/

/-- The id of a task by its uid. -/
def Db.idOf (db : Db) (uid : Nat) : Nat := ((db.task? uid).map TaskRow.id).getD 0

theorem Db.idOf_eq {com db : Db} (k : com.Keyed)
    (fixed : db.tasks.map TaskRow.fixed = com.tasks.map TaskRow.fixed) {t : TaskRow} (ht : t ∈ db.tasks) :
    com.idOf t.uid = t.id := by
  obtain ⟨u, hu, same⟩ := Db.mem_of_fixed fixed.symm ht
  have found := (Db.task?_eq_some k).mpr ⟨hu, uid_of_fixed same⟩
  rw [Db.idOf, found]
  exact id_of_fixed same

/-- A countdown of a row under lock. -/
def Stmt.Counts (held : List Lock) (s : Stmt) : Prop :=
  ∃ build id uid, s = .countDown build id uid ∧ Lock.task uid ∈ held

/-- What a statement on top of the stack needs of the locks: it locks nothing, it
counts down a row under lock, or it is the first of its transaction. The rows of
`make_ready` are under lock in any case. -/
def Stmt.Secured (held : List Lock) : Stmt → Prop
  | .lockRow _ => False
  | .countDown _ _ uid => Lock.task uid ∈ held
  | .complete _ _ | .retry _ _ | .fail _ => ∀ uid, Lock.task uid ∉ held
  | _ => True

/-- The row locks on the stack come in ascending order, above what is held. -/
inductive Climbs (com : Db) : List Lock → List Stmt → Prop where
  | done {held : List Lock} : Climbs com held []
  | lock {held : List Lock} {uid : Nat} {rest : List Stmt} : (∃ t ∈ com.tasks, t.uid = uid) →
      (Lock.task uid ∈ held ∨ ∀ v, Lock.task v ∈ held → com.idOf v < com.idOf uid) →
      Climbs com (held ++ [.task uid]) rest → Climbs com held (.lockRow uid :: rest)
  | top {held : List Lock} {s : Stmt} {rest : List Stmt} : s.Secured held →
      (∀ r ∈ rest, r.Counts held) → Climbs com held (s :: rest)

section Climbs

variable {H : Sha256} {o : Options} {com : Db} {held : List Lock}

theorem Stmt.Counts.mono {s : Stmt} (counts : s.Counts held) (more : List Lock) : s.Counts (held ++ more) := by
  obtain ⟨build, id, uid, rfl, member⟩ := counts
  exact ⟨build, id, uid, rfl, List.mem_append_left _ member⟩

/-- Countdowns of rows under lock take no further lock. -/
theorem Climbs.of_counts {stack : List Stmt} (counts : ∀ s ∈ stack, s.Counts held) : Climbs com held stack := by
  cases stack with
  | nil => exact .done
  | cons s rest =>
    obtain ⟨build, id, uid, rfl, member⟩ := counts s (by simp)
    exact .top member fun r hr => counts r (by simp [hr])

/-- A list of rows in ascending order, locked one after the other. -/
theorem Climbs.rows {rows : List TaskRow} {later : List Stmt} (known : ∀ t ∈ rows, ∃ u ∈ com.tasks, u.uid = t.uid)
    (ascending : rows.Pairwise fun t u => t.uid = u.uid ∨ com.idOf t.uid < com.idOf u.uid)
    (above : ∀ t ∈ rows, Lock.task t.uid ∈ held ∨ ∀ v, Lock.task v ∈ held → com.idOf v < com.idOf t.uid)
    (counts : ∀ s ∈ later, s.Counts (held ++ rows.map fun t => .task t.uid)) :
    Climbs com held (rows.map (fun t => .lockRow t.uid) ++ later) := by
  induction rows generalizing held with
  | nil =>
    rw [List.map_nil, List.append_nil] at counts
    exact .of_counts counts
  | cons t rows ih =>
    obtain ⟨first, ascending⟩ := List.pairwise_cons.mp ascending
    refine .lock (known t (by simp)) (above t (by simp)) ?_
    refine ih (fun u hu => known u (by simp [hu])) ascending (fun u hu => ?_) fun s hs => ?_
    · -- the next row comes after `t` as well
      rcases above u (by simp [hu]) with mine | higher
      · exact Or.inl (List.mem_append_left _ mine)
      · rcases first u hu with same | later
        · exact Or.inl (by simp [same])
        · refine Or.inr fun v member => ?_
          rcases List.mem_append.mp member with old | new
          · exact higher v old
          · cases List.mem_singleton.mp new
            exact later
    · rw [List.append_assoc]
      exact counts s hs

/-- Every statement but `dependents` is followed by one statement at most, which
takes no lock on a row that is not held. -/
theorem exec_next_secured (db : Db) {s : Stmt} (other : ∀ build id, s ≠ .dependents build id) :
    (exec H o db s).next = [] ∨ ∃ s', (exec H o db s).next = [s'] ∧ ∀ held, s'.Secured held := by
  cases s <;> simp only [exec, finished, makeReady, maybeFinish] <;>
    grind [Stmt.Secured]

/-- The rows of `dependents`, in the order of their ids. -/
theorem dependents_ascending {db : Db} (k : db.Keyed) (build id : Nat) :
    (db.dependents build id).Pairwise fun t u => t.uid = u.uid ∨ t.id < u.id := by
  rw [Db.dependents, List.pairwise_flatMap]
  have row : ∀ {d : TaskDep} {t : TaskRow}, t ∈ db.tasks.filter (fun t => t.buildId = d.build && t.id = d.task) →
      t ∈ db.tasks ∧ t.buildId = d.build ∧ t.id = d.task := by
    intro d t member
    obtain ⟨ht, at_⟩ := List.mem_filter.mp member
    simp only [Bool.and_eq_true, decide_eq_true_eq] at at_
    exact ⟨ht, at_⟩
  have same : ∀ {t u : TaskRow}, t ∈ db.tasks → u ∈ db.tasks → t.buildId = u.buildId → t.id = u.id →
      t.uid = u.uid := by
    intro t u ht hu build id
    rw [k.slot_inj ht hu (by rw [TaskRow.slot, TaskRow.slot, build, id])]
  constructor
  · intro d _
    refine List.Pairwise.imp_of_mem (fun {t u} ht hu _ => ?_) (List.pairwise_of_forall fun _ _ => trivial)
    obtain ⟨tm, tb, ti⟩ := row ht
    obtain ⟨um, ub, ui⟩ := row hu
    exact Or.inl (same tm um (tb.trans ub.symm) (ti.trans ui.symm))
  · refine List.Pairwise.imp_of_mem (fun {d e} hd he sorted t ht u hu => ?_)
      (List.pairwise_insertionSort (fun d e : TaskDep => d.task ≤ e.task) _)
    obtain ⟨tm, tb, ti⟩ := row ht
    obtain ⟨um, ub, ui⟩ := row hu
    rw [List.mem_insertionSort, List.mem_filter] at hd he
    simp only [Bool.and_eq_true, decide_eq_true_eq] at hd he
    have build : t.buildId = u.buildId := by rw [tb, ub, hd.2.1, he.2.1]
    rcases Nat.lt_or_eq_of_le sorted with less | equal
    · exact Or.inr (by rw [ti, ui]; exact less)
    · exact Or.inl (same tm um build (by rw [ti, ui, equal]))

/-- Only rows are locked. -/
theorem target_known {db : Db} (k : db.Keyed) {s : Stmt} {uid : Nat} (target : s.target db = some (.task uid)) :
    ∃ t ∈ db.tasks, t.uid = uid := by
  have byUid : ∀ {v : Nat} {t : TaskRow}, db.task? v = some t → Lock.task t.uid = .task uid →
      ∃ t ∈ db.tasks, t.uid = uid :=
    fun found same => ⟨_, ((Db.task?_eq_some k).mp found).1, Lock.task.inj same⟩
  have bySlot : ∀ {build id : Nat} {t : TaskRow}, db.taskAt? build id = some t → Lock.task t.uid = .task uid →
      ∃ t ∈ db.tasks, t.uid = uid :=
    fun found same => ⟨_, ((Db.taskAt?_eq_some k).mp found).1, Lock.task.inj same⟩
  cases s <;> simp only [Stmt.target, Option.map_eq_some_iff] at target <;> grind

end Climbs

/-! ### The order of one transaction -/

/-- A transaction locks rows of `com` only, in ascending order. -/
structure Tx.Ordered (com : Db) (tx : Tx) : Prop where
  known : ∀ uid, Lock.task uid ∈ tx.locks → ∃ t ∈ com.tasks, t.uid = uid
  climbs : Climbs com tx.locks tx.stack

section Ordered

variable {H : Sha256} {o : Options} {com db : Db} {tx : Tx}

theorem Tx.Ordered.begin (com : Db) (blobs : Blobs) (now : Int) (r : TaskResult) :
    Tx.Ordered com { stack := DistCompile.completeTask blobs.has blobs.sizeOf now r } where
  known _ member := absurd member List.not_mem_nil
  climbs := by
    simp only [DistCompile.completeTask]
    split_ifs <;> exact .top (fun _ => List.not_mem_nil) (by simp)

/-- The rows `dependents` locks come after all the transaction holds. -/
def Tx.Forward (tx : Tx) (db : Db) (s : Stmt) : Prop :=
  ∀ build id, s = .dependents build id → ∀ t ∈ (tx.view db).dependents build id,
    Lock.task t.uid ∈ tx.locks ∨ ∀ u ∈ (tx.view db).tasks, Lock.task u.uid ∈ tx.locks → u.id < t.id

/-- A statement keeps the order, unless it goes back. -/
theorem Tx.Ordered.exec (ordered : tx.Ordered com) (k : com.Keyed)
    (fixed : (tx.view db).tasks.map TaskRow.fixed = com.tasks.map TaskRow.fixed) {s : Stmt} {rest : List Stmt}
    (top : tx.stack = s :: rest) (forward : tx.Forward db s) :
    (tx.after (s.target (tx.view db)) (DistCompile.exec H o (tx.view db) s) rest).Ordered com where
  known uid member := by
    rcases List.mem_append.mp member with old | new
    · exact ordered.known uid old
    · obtain ⟨t, ht, rfl⟩ := target_known (k.of_fixed fixed) (Option.mem_toList.mp new)
      obtain ⟨u, hu, same⟩ := Db.mem_of_fixed fixed.symm ht
      exact ⟨u, hu, uid_of_fixed same⟩
  climbs := by
    have kv := k.of_fixed fixed
    have climbs := ordered.climbs
    rw [top] at climbs
    cases climbs with
    | @lock _ uid _ known _ later =>
      obtain ⟨t, ht, rfl⟩ := known
      obtain ⟨u, hu, same⟩ := Db.mem_of_fixed fixed ht
      have found := (Db.task?_eq_some kv).mpr ⟨hu, uid_of_fixed same⟩
      simpa [Tx.after, Stmt.target, found, uid_of_fixed same, DistCompile.exec] using later
    | top secured counts =>
      have stay : ∀ r ∈ rest, r.Counts (tx.locks ++ (s.target (tx.view db)).toList) :=
        fun r hr => (counts r hr).mono _
      by_cases query : ∃ build id, s = .dependents build id
      · obtain ⟨build, id, rfl⟩ := query
        have ids : ∀ {t : TaskRow}, t ∈ (tx.view db).tasks → com.idOf t.uid = t.id := Db.idOf_eq k fixed
        have member : ∀ {t : TaskRow}, t ∈ (tx.view db).dependents build id → t ∈ (tx.view db).tasks :=
          fun ht => (mem_dependents ht).1
        by_cases sink : (tx.view db).dependents build id = []
        · simp only [Tx.after, DistCompile.exec, sink, List.map_nil, List.isEmpty_nil, if_true, List.nil_append]
          exact .top trivial stay
        simp only [Tx.after, Stmt.target, DistCompile.exec, List.isEmpty_iff, sink, if_false,
          Option.toList_none, List.append_nil, List.append_assoc]
        refine Climbs.rows (fun t ht => ?_) ?_ (fun t ht => ?_) fun r hr => ?_
        · obtain ⟨u, hu, same⟩ := Db.mem_of_fixed fixed.symm (member ht)
          exact ⟨u, hu, uid_of_fixed same⟩
        · refine (dependents_ascending kv build id).imp_of_mem fun {t u} ht hu order => ?_
          rw [ids (member ht), ids (member hu)]
          exact order
        · refine (forward build id rfl t ht).imp_right fun higher v held => ?_
          obtain ⟨r, hr, rfl⟩ := ordered.known v held
          obtain ⟨u, hu, same⟩ := Db.mem_of_fixed fixed hr
          rw [← uid_of_fixed same] at held ⊢
          rw [ids hu, ids (member ht)]
          exact higher u hu held
        · rcases List.mem_append.mp hr with loop | old
          · obtain ⟨t, ht, rfl⟩ := List.mem_map.mp loop
            exact ⟨build, id, t.uid, rfl, List.mem_append_right _ (List.mem_map_of_mem ht)⟩
          · exact (counts r old).mono _
      · rcases exec_next_secured (H := H) (o := o) (tx.view db) fun build id same => query ⟨build, id, same⟩ with
          none_ | ⟨s', one, fits⟩
        · simp only [Tx.after, none_, List.nil_append]
          exact .of_counts stay
        · simp only [Tx.after, one, List.singleton_append]
          exact .top (fits _) stay

/-- A transaction wants a row it holds, or one that comes after all it holds. -/
theorem Tx.Ordered.wants (ordered : tx.Ordered com) (good : tx.Good H db) (k : db.Keyed) {s : Stmt}
    {rest : List Stmt} (top : tx.stack = s :: rest) {uid : Nat} (target : s.target (tx.view db) = some (.task uid)) :
    Lock.task uid ∈ tx.locks ∨ ∀ v, Lock.task v ∈ tx.locks → com.idOf v < com.idOf uid := by
  have kv := good.mid.grows.keyed k
  have climbs := ordered.climbs
  rw [top] at climbs
  cases climbs with
  | @lock _ v _ _ order _ =>
    obtain ⟨t, found, same⟩ := Option.map_eq_some_iff.mp target
    cases same
    rw [← ((Db.task?_eq_some kv).mp found).2] at order
    exact order
  | top secured _ =>
    cases s with
    | lockRow v => exact secured.elim
    | complete r size | retry r now | fail r => exact Or.inr fun v held => absurd held (secured v)
    | countDown build id v =>
      obtain ⟨t, found, same⟩ := Option.map_eq_some_iff.mp target
      cases same
      rw [((Db.task?_eq_some kv).mp found).2]
      exact Or.inl secured
    | markCached build id key output | markReady build id key names digests =>
      -- the row being made ready was locked for its countdown
      obtain ⟨t, found, same⟩ := Option.map_eq_some_iff.mp target
      cases same
      obtain ⟨ht, slot⟩ := (Db.taskAt?_eq_some kv).mp found
      exact Or.inl (good.subj t ht (by rw [top, slot]; rfl))
    | _ =>
      exfalso
      simp only [Stmt.target, Option.map_eq_some_iff] at target
      grind

end Ordered

/-! ### Every transaction at once -/

/-- Every transaction takes its locks in the order of the task ids. -/
structure World.Ordered (H : Sha256) (com : Db) {n : Nat} (w : World n) : Prop where
  inv : w.Inv H
  fixed : w.com.tasks.map TaskRow.fixed = com.tasks.map TaskRow.fixed
  ordered : ∀ i tx, w.txs i = some tx → tx.Ordered com

section Ordered

variable {H : Sha256} {o : Options} {com : Db} {n : Nat} {w w' : World n} {a : Act n}

theorem World.forward_of_not_backward {i : Fin n} {tx : Tx} {s : Stmt} {rest : List Stmt} (runs : w.txs i = some tx)
    (top : tx.stack = s :: rest) (ahead : w.backward (.exec i) = false) : tx.Forward w.com s := by
  rintro build id rfl t ht
  simp only [World.backward, runs, top, List.any_eq_false, Bool.and_eq_true, Bool.not_eq_true',
    List.any_eq_true, not_and, not_exists, List.contains_eq_mem, decide_eq_true_eq, decide_eq_false_iff_not] at ahead
  by_cases mine : Lock.task t.uid ∈ tx.locks
  · exact Or.inl mine
  · refine Or.inr fun u hu held => ?_
    have := ahead t ht mine u hu held
    omega

theorem World.Ordered.view_fixed (ordered : w.Ordered H com) {i : Fin n} {tx : Tx} (runs : w.txs i = some tx) :
    (tx.view w.com).tasks.map TaskRow.fixed = com.tasks.map TaskRow.fixed :=
  (ordered.inv.good i tx runs).mid.grows.fixed.trans ordered.fixed

/-- Every step that does not go back keeps the order. -/
theorem World.Ordered.move (ordered : w.Ordered H com) (k : com.Keyed) (ahead : w.backward a = false)
    (taken : World.Move H o w a w') : w'.Ordered H com := by
  have inv := ordered.inv.move taken
  cases taken with
  | @begin i blobs now r idle =>
    refine ⟨inv, ordered.fixed, fun j tx running => ?_⟩
    rw [setTx_txs] at running
    split at running
    · cases running
      exact Tx.Ordered.begin com blobs now r
    · exact ordered.ordered j tx running
  | @exec i tx s rest runs top enabled =>
    refine ⟨inv, ordered.fixed, fun j tx' running => ?_⟩
    rw [setTx_txs] at running
    split at running
    · cases running
      exact (ordered.ordered i tx runs).exec k (ordered.view_fixed runs) top
        (World.forward_of_not_backward runs top ahead)
    · exact ordered.ordered j tx' running
  | @commit i tx runs empty =>
    refine ⟨inv, ordered.view_fixed runs, fun j tx' running => ?_⟩
    change Function.update w.txs i none j = some tx' at running
    rw [Function.update_apply] at running
    split at running
    · cases running
    · exact ordered.ordered j tx' running
  | @abort i tx runs =>
    refine ⟨inv, ordered.fixed, fun j tx' running => ?_⟩
    rw [setTx_txs] at running
    split at running
    · cases running
    · exact ordered.ordered j tx' running
  | @claim worker toolchain part now uid t ht ready free =>
    have same : (claimedRow o worker now t).fixed = t.fixed := rfl
    exact ⟨inv, (Db.apply_task_fixed ordered.inv.base.keyed ht same).trans ordered.fixed, ordered.ordered⟩

theorem World.Ordered.start (base : Consistent H w.com) (quiet : w.Quiet) : w.Ordered H w.com where
  inv := World.Inv.start base quiet
  fixed := rfl
  ordered i tx running := by
    rw [quiet i] at running
    cases running

theorem World.wants_eq {i : Fin n} {uid : Nat} (wants : w.wants i = some uid) :
    ∃ tx s rest, w.txs i = some tx ∧ tx.stack = s :: rest ∧ s.target (tx.view w.com) = some (.task uid) := by
  unfold World.wants at wants
  grind

/-- Whoever waits for a row wants one after all it holds. -/
theorem World.Ordered.climbing (ordered : w.Ordered H com) : Climbing w.wants w.holds com.idOf := by
  rintro i j uid other wanted ⟨tx', running', theirs⟩ v ⟨tx, running, mine⟩
  obtain ⟨tx₁, s, rest, running₁, top, target⟩ := World.wants_eq wanted
  obtain rfl := Option.some.inj (running.symm.trans running₁)
  rcases (ordered.ordered i tx running).wants (ordered.inv.good i tx running) ordered.inv.base.keyed top target with
    held | above
  · exact absurd theirs (ordered.inv.apart i j tx tx' other running running' _ held)
  · exact above v mine

end Ordered

/-! ### The theorem and its limits -/

/-- In a run of interleaved completions none of which goes back, there is never a
circle of transactions that each wait for a task row locked by the next. -/
theorem deadlock_free {H : Sha256} {o : Options} {n : Nat} {calls : List Call} {c : Coordinator}
    {acts : List (Act n)} {w : World n}
    (reached : Runs (Meets (Step H o) fun _ call => call.Flat) {} calls c)
    (run : Runs (Meets (World.Step H o) fun w a => w.backward a = false)
      ⟨c.db, fun _ => none, []⟩ acts w) : ¬ w.Deadlocked := by
  have base := Runs.consistent reached
  have ordered : w.Ordered H c.db := by
    refine run.invariant (P := World.Ordered H c.db) (World.Ordered.start (w := ⟨c.db, fun _ => none, []⟩) base fun _ => rfl) ?_
    intro w a w' taken ordered
    exact ordered.move base.keyed taken.1 taken.2.move
  exact ordered.climbing.not_deadlocked

/-- A first build makes one library of `f.c`. -/
def oneLibManifest : Manifest where
  targets := [{ isLib := true, name := "a".toList, sources := ["f.c".toList] }]

/-- A later one, with another flag, makes two, and two programs that link them
crosswise. -/
def crossedManifest : Manifest where
  cflags := ["-O1".toList]
  targets := [
    { isLib := true, name := "a".toList, sources := ["f.c".toList] },
    { isLib := true, name := "b".toList, sources := ["f.c".toList] },
    { name := "p".toList, sources := ["g.c".toList], libs := ["b".toList] },
    { name := "q".toList, sources := ["g.c".toList], libs := ["a".toList] }]

theorem crossed_accepted :
    parseManifest (fun _ => [])
      "cflags -O1\nlib a f.c\nlib b f.c\nbin p g.c : b\nbin q g.c : a\n".toList = .ok crossedManifest := rfl

/-- The object of `g.c`. -/
def objectG : Str := "013d3771c88a03ffba65453fdc94ade45a8e4ad9e4cd066386a45c0614fd3f57".toList

def oneLibUnits : Prepared where
  key _ := sampleKey
  digest _ := sampleInput
  cost _ := 7

/-- The units are `int f;` and `int g;`. -/
def crossedUnits : Prepared where
  key s := if s = "f.c".toList then
      "4f71edc0de84aafaa4b9cc8251607e86ad0da865191f9db5addd08a5bf034ef8".toList
    else "6d6d8a7210d45d892b6b7bc8fd7f33cee6cad41f8767665ba19278822a1ce173".toList
  digest s := if s = "f.c".toList then sampleInput
    else "8f2cceaf7815a9cca984e48b0d292f23ed2b7aa68e12fe708e9529f198119208".toList
  cost _ := 7

def crossedSha : Sha256 := Sha256.ofTable (sampleTable ++ [
  ("int g;".toList, "8f2cceaf7815a9cca984e48b0d292f23ed2b7aa68e12fe708e9529f198119208".toList),
  ("o:int g;".toList, objectG)]) (by decide)

/-- An ok result of attempt 1 of a task. -/
def lockResult (uid : Nat) (output : Str) : TaskResult := ⟨uid, 1, "w".toList, true, false, output, [], 5⟩

/-- The first build is done. Of the second, both sources are being compiled. -/
def crossedRequests : List Request := [
  .putBlob "int f;".toList [], .putBlob "o:int f;".toList [], .putBlob "int g;".toList [],
  .submitBuild (buildSpec oneLibManifest "gcc".toList 0 oneLibUnits) 1,
  .claimTask "w".toList "gcc".toList 0 0 1, .completeTask (lockResult 1 sampleOutput) 1 20,
  .claimTask "w".toList "gcc".toList 0 2 2, .completeTask (lockResult 2 sampleOutput) 3 20,
  .submitBuild (buildSpec crossedManifest "gcc".toList 0 crossedUnits) 1,
  .claimTask "w".toList "gcc".toList 0 4 3, .claimTask "w".toList "gcc".toList 0 5 4]

/-- Both compilations are completed at the same time. The first has found library
`a` in the cache and locked `q`, then library `b`; the second has locked `p`. -/
def crossedActs : List (Act 2) :=
  [.begin 0 [(sampleOutput, "o:int f;".toList)] 6 (lockResult 3 sampleOutput),
    .begin 1 [(objectG, "o:int g;".toList)] 6 (lockResult 4 objectG)] ++
    List.replicate 18 (.exec 0) ++ List.replicate 4 (.exec 1)

/-- The steps of a schedule that do not go back. -/
def crossedStep (w : World 2) (a : Act 2) : Option (World 2) :=
  if w.backward a then none else w.step crossedSha {} a

/-- The second completion waits for the first. The next statement of the first
goes back to `p`, and then it waits for the second. -/
theorem crossed_reached : ∃ calls c, ∃ w w' : World 2,
    Runs (Meets (Step crossedSha {}) fun _ call => call.Flat) {} calls c ∧
      specOf calls 2 = some (buildSpec crossedManifest "gcc".toList 0 crossedUnits) ∧
      Runs (Meets (World.Step crossedSha {}) fun w a => w.backward a = false)
        ⟨c.db, fun _ => none, []⟩ crossedActs w ∧
      World.Step crossedSha {} w (.exec 0) w' ∧
      (w.wants 1 = some 8 ∧ w.holds 0 8) ∧
      w'.wants 0 = some 7 ∧ w'.wants 1 = some 8 ∧ w'.holds 0 8 ∧ w'.holds 1 7 := by
  have evaluated : (serveAll crossedSha {} {} crossedRequests).any (fun r =>
      decide (∀ call ∈ r.1, call.Flat) &&
        decide (specOf r.1 2 = some (buildSpec crossedManifest "gcc".toList 0 crossedUnits)) &&
        (crossedActs.foldlM crossedStep ⟨r.2.db, fun _ => none, []⟩).any fun w =>
          decide (w.wants 1 = some 8) && (w.txs 0).any (fun tx => tx.locks.contains (.task 8)) &&
            (w.step crossedSha {} (.exec 0)).any fun w' =>
              decide (w'.wants 0 = some 7) && decide (w'.wants 1 = some 8) &&
                (w'.txs 0).any (fun tx => tx.locks.contains (.task 8)) &&
                (w'.txs 1).any fun tx => tx.locks.contains (.task 7)) = true := by
    decide +kernel
  obtain ⟨⟨calls, c⟩, served, facts⟩ := (Option.any_eq_true ..).mp evaluated
  simp only [Bool.and_eq_true, decide_eq_true_eq, Option.any_eq_true] at facts
  obtain ⟨⟨flat, spec⟩, w, ran, ⟨waits, held⟩, w', taken, ⟨⟨first, second⟩, held₀⟩, held₁⟩ := facts
  have locked : ∀ {w : World 2} {i : Fin 2} {uid : Nat},
      (∃ tx, w.txs i = some tx ∧ tx.locks.contains (.task uid) = true) → w.holds i uid := by
    rintro w i uid ⟨tx, running, member⟩
    exact ⟨tx, running, by simpa using member⟩
  have run : Runs (Meets (World.Step crossedSha {}) fun w a => w.backward a = false)
      ⟨c.db, fun _ => none, []⟩ crossedActs w := by
    refine (Runs.of_foldlM ran).mono fun taken => ?_
    unfold crossedStep at taken
    split at taken
    · cases taken
    · rename_i ahead
      exact ⟨Bool.eq_false_iff.mpr ahead, taken⟩
  exact ⟨calls, c, w, w', (serveAll_runs served).meets flat, spec, run, taken, ⟨waits, locked held⟩, first, second,
    locked held₀, locked held₁⟩

/-- As long as neither completion goes back, one of them waits, and not both. -/
theorem deadlock_free_one_waits : ∃ calls c acts, ∃ w : World 2,
    Runs (Meets (Step crossedSha {}) fun _ call => call.Flat) {} calls c ∧
      Runs (Meets (World.Step crossedSha {}) fun w a => w.backward a = false)
        ⟨c.db, fun _ => none, []⟩ acts w ∧
      (∃ uid, w.wants 1 = some uid ∧ w.holds 0 uid) ∧ ¬ w.Deadlocked := by
  obtain ⟨calls, c, w, -, reached, -, run, -, ⟨waits, held⟩, -⟩ := crossed_reached
  exact ⟨calls, c, _, w, reached, run, ⟨8, waits, held⟩, deadlock_free reached run⟩

/-- Two completions of one build of `dcc` wait for each other. -/
theorem completions_deadlock :
    parseManifest (fun _ => [])
      "cflags -O1\nlib a f.c\nlib b f.c\nbin p g.c : b\nbin q g.c : a\n".toList = .ok crossedManifest ∧
    ∃ calls c acts, ∃ w : World 2,
      Runs (Meets (Step crossedSha {}) fun _ call => call.Flat) {} calls c ∧
        specOf calls 2 = some (buildSpec crossedManifest "gcc".toList 0 crossedUnits) ∧
        Runs (World.Step crossedSha {}) ⟨c.db, fun _ => none, []⟩ acts w ∧ w.Deadlocked := by
  obtain ⟨calls, c, w, w', reached, spec, run, taken, -, first, second, held₀, held₁⟩ := crossed_reached
  have whole : Runs (World.Step crossedSha {}) ⟨c.db, fun _ => none, []⟩ (crossedActs ++ [.exec 0]) w' :=
    (run.mono fun taken => taken.2).snoc taken
  exact ⟨crossed_accepted, calls, c, _, w', reached, spec, whole,
    deadlocked_of_pair (by decide) first second held₁ held₀⟩

end DistCompile
