import DistCompile.Overlooked
import DistCompile.Lease

/-!
The coordinator's sessions: submits, completions and reaper passes, statement by
statement (`src/coordinator.cpp`, `transaction` in `src/db.h`).

Each of the `n` connections of the pool is idle or in the middle of one handler. The
transactions of `CompleteTask` are those of `DistCompile.ReadCommitted`. A `submit` goes
through its stages: until it commits nobody sees its rows, but the serial numbers it has
drawn stay drawn, and the build and the tasks that bear them are its own as if locked. The
reaper has no transaction: the `UPDATE` and every statement of `maybe_finish` commit one by
one. Claims and heartbeats are single statements.

Any statement can throw, and the coordinator can stop between any two: `abort` rolls a
transaction back, and cuts a reaper pass off where it stands. A claim that takes the
coordinator down, as the kind has no name, is the claim and then the `abort` of every session.
-/

namespace DistCompile.Sessions

open DistCompile.Lib DistCompile.Graph

/-! ### Submits -/

/-- The arguments of `submit`. -/
structure Submission where
  spec : BuildSpec
  order : List Nat
  rank : Nat → Int
  part : Nat → Int

/-- `hit_keys`. -/
def hitKeys (spec : BuildSpec) (w : Walk) : List Str :=
  (List.range spec.tasks.length).filterMap fun i =>
    if (w.row i).state = .cached then some (w.row i).key else none

/-- The statement that a `submit` issues next, with the variables in scope. One iteration of
the walk has one statement at most, its `cache_get`. -/
inductive Stage where
  | newBuild
  | cacheLookup (build : Nat)
  | walk (build : Nat) (todo : List Nat) (w : Walk)
  | cacheHits (build : Nat) (w : Walk)
  | insertTasks (build : Nat) (w : Walk)
  | insertDeps (build uid : Nat) (w : Walk)
  | maybeFinish (row : BuildRow) (uid : Nat) (w : Walk) (stack : List Stmt)

/-- The rows of a submit that has inserted its tasks. -/
def Submission.own (sub : Submission) (build uid : Nat) (w : Walk) : List Lock :=
  .build build :: (hitKeys sub.spec w).map .cache ++
    (List.range sub.spec.tasks.length).map fun id => .task (uid + id)

/-- The rows a submit owns: those it has inserted, and the cache rows it has updated. -/
def Stage.locks (sub : Submission) : Stage → List Lock
  | .newBuild => []
  | .cacheLookup build | .walk build _ _ | .cacheHits build _ => [.build build]
  | .insertTasks build w => .build build :: (hitKeys sub.spec w).map .cache
  | .insertDeps build uid w => sub.own build uid w
  | .maybeFinish row uid w _ => sub.own row.id uid w

/-- The committed rows with those of the submit on top. -/
def Submission.inserted (sub : Submission) (com : Db) (row : BuildRow) (uid : Nat) (w : Walk) : Db :=
  { com with
    builds := com.builds ++ [row]
    tasks := com.tasks ++ insertedTasks sub.spec sub.rank sub.part row.id uid w.row
    deps := com.deps ++ insertedDeps sub.spec row.id
    cache := com.cache.map fun c => if c.key ∈ hitKeys sub.spec w then { c with hits := c.hits + 1 } else c }

/-- One statement of a submit; without a next stage it has thrown and is rolled back. The
serial numbers are not given back. -/
def Stage.exec (H : Sha256) (o : Options) (has : Str → Bool) (free : Lock → Bool) (sub : Submission)
    (com : Db) : Stage → Option (Db × Option Stage)
  | .newBuild => some ({ com with nextBuild := com.nextBuild + 1 }, some (.cacheLookup com.nextBuild))
  | .cacheLookup build =>
      some (com, some (.walk build sub.order ⟨fun _ => {}, lookupCompileKeys com.outputs sub.spec, 0⟩))
  | .walk build (id :: todo) w => match walkTask H has com.outputs sub.spec w id with
      | .ok w' => some (com, some (.walk build todo w'))
      | .error _ => some (com, none)
  | .walk build [] w => some (com, some (.cacheHits build w))
  | .cacheHits build w =>
      if (hitKeys sub.spec w).all fun key => free (.cache key) then some (com, some (.insertTasks build w))
      else none
  | .insertTasks build w =>
      if ∀ ts ∈ sub.spec.tasks, smallint ts.kind then
        some ({ com with nextUid := com.nextUid + sub.spec.tasks.length }, some (.insertDeps build com.nextUid w))
      else some (com, none)
  | .insertDeps build uid w =>
      if ((insertedDeps sub.spec build).map TaskDep.primaryKey).Nodup then
        some (com, some (.maybeFinish ⟨build, sub.spec.toolchain, .running, sub.spec.tasks.length⟩ uid w
          (DistCompile.maybeFinish build)))
      else some (com, none)
  | .maybeFinish row uid w (s :: rest) =>
      let out := DistCompile.exec H o (sub.inserted com row uid w) s
      some (com, some (.maybeFinish (out.write.elim row (Write.onBuild row)) uid w (out.next ++ rest)))
  | .maybeFinish _ _ _ [] => none

/-! ### Sessions and the world -/

/-- What a connection is used for. -/
inductive Session where
  | idle
  | completing (tx : Tx)
  | submitting (sub : Submission) (stage : Stage)
  /-- the statements that are left of `maybe_finish` for the tasks given up -/
  | reaping (stack : List Stmt)

/-- The reaper holds no lock between its statements. -/
def Session.locks : Session → List Lock
  | .idle | .reaping _ => []
  | .completing tx => tx.locks
  | .submitting sub stage => stage.locks sub

/-- The next statement of a session. -/
def Session.exec (H : Sha256) (o : Options) (has : Str → Bool) (free : Lock → Bool) (com : Db) :
    Session → Option (Db × Session)
  | .idle => none
  | .completing tx => match tx.stack with
      | [] => none
      | s :: rest =>
          if (s.target (tx.view com)).all free then
            some (com, .completing (tx.after (s.target (tx.view com))
              (DistCompile.exec H o (tx.view com) s) rest))
          else none
  | .submitting sub stage => (stage.exec H o has free sub com).map fun (com', next) =>
      (com', next.elim .idle (.submitting sub))
  | .reaping stack => match stack with
      | [] => none
      | s :: rest =>
          if (s.target com).all free then
            some ((DistCompile.exec H o com s).db com, .reaping ((DistCompile.exec H o com s).next ++ rest))
          else none

/-- The tables when a session has nothing left to do. -/
def Session.commit (com : Db) : Session → Option Db
  | .completing tx => if tx.stack = [] then some (tx.view com) else none
  | .submitting sub (.maybeFinish row uid w []) => some (sub.inserted com row uid w)
  | .reaping [] => some com
  | _ => none

/-- The committed tables, the blob store and the pool. -/
structure World (n : Nat) where
  com : Db := {}
  blobs : Blobs := []
  sessions : Fin n → Session := fun _ => .idle

/-- A statement, the beginning or the end of a handler. The rows that `reap` and `heartbeat`
find, under locks that come and go while they wait, are those of `uids` that are free when
they are written. -/
inductive Act (n : Nat) where
  | putBlob (data expect : Str)
  | complete (i : Fin n) (now : Int) (r : TaskResult)
  | submit (i : Fin n) (spec : BuildSpec) (live : Int)
  | reap (i : Fin n) (now : Int) (uids : List Nat)
  | exec (i : Fin n)
  | commit (i : Fin n)
  | abort (i : Fin n)
  | claim (worker toolchain : Str) (part : Option Int) (now : Int) (uid : Nat)
  | heartbeat (worker : Str) (now : Int) (uids : List Nat)

namespace World

variable {n : Nat}

/-- No session but `i` holds the lock. -/
def free (w : World n) (i : Fin n) (l : Lock) : Bool :=
  (List.finRange n).all fun j => j = i || !(w.sessions j).locks.contains l

/-- No session at all holds the lock. -/
def unlocked (w : World n) (l : Lock) : Bool :=
  (List.finRange n).all fun j => !(w.sessions j).locks.contains l

def set (w : World n) (i : Fin n) (com : Db) (s : Session) : World n :=
  { w with com, sessions := Function.update w.sessions i s }

/-- The rows that an `UPDATE` rewrites: those of `uids` that nobody has locked. -/
def reaches (w : World n) (uids : List Nat) (t : TaskRow) : Bool :=
  uids.contains t.uid && w.unlocked (.task t.uid)

/-- The tables after `f` on the rows reached. -/
def update (w : World n) (uids : List Nat) (f : TaskRow → TaskRow) : Db :=
  { w.com with tasks := w.com.tasks.map fun t => if w.reaches uids t then f t else t }

/-- The statements that follow the `reap` update: `maybe_finish` for each row returned as failed. -/
def gaveUp (w : World n) (o : Options) (now : Int) (uids : List Nat) : List Stmt :=
  uids.flatMap fun uid => (w.com.tasks.filter fun t => t.uid = uid && w.reaches uids t &&
    leaseExpired now t && requeue o t.attempts = .failed).flatMap fun t => maybeFinish t.buildId

/-- The rows `claim_own` (with a partition) or `claim_steal` chooses from, by `SKIP LOCKED`. -/
def claimCandidates (w : World n) (worker toolchain : Str) (part : Option Int) (now : Int) : List TaskRow :=
  w.com.tasks.filter fun t => w.unlocked (.task t.uid) && claimable worker toolchain now t &&
    part.all fun p => t.part = p

/-- One step of the system. -/
def step (H : Sha256) (o : Options) (w : World n) : Act n → Option (World n)
  | .putBlob data expect => (w.blobs.put H data expect).map fun blobs => { w with blobs }
  | .complete i now r => match w.sessions i with
      | .idle => some (w.set i w.com
          (.completing { stack := completeTask w.blobs.has w.blobs.sizeOf now r }))
      | _ => none
  | .submit i spec live => match w.sessions i, badCompileTask spec, topoOrder spec.graph with
      | .idle, none, .ok order => some (w.set i w.com (.submitting ⟨spec, order, upwardRank spec.graph,
          partition spec.graph (if 0 < spec.partitions then spec.partitions else live)⟩ .newBuild))
      | _, _, _ => none
  | .reap i now uids => match w.sessions i with
      | .idle => some (w.set i (w.update uids (reapRow o now)) (.reaping (w.gaveUp o now uids)))
      | _ => none
  | .exec i => ((w.sessions i).exec H o w.blobs.has (w.free i) w.com).map fun (com, s) => w.set i com s
  | .commit i => ((w.sessions i).commit w.com).map fun com => w.set i com .idle
  | .abort i => some (w.set i w.com .idle)
  | .claim worker toolchain part now uid =>
      match (w.claimCandidates worker toolchain part now).find? fun t => t.uid = uid with
      | none => none
      | some t =>
          if ∀ u ∈ w.claimCandidates worker toolchain part now, u.priority ≤ t.priority then
            some { w with com := w.com.apply (.task (claimedRow o worker now t)) }
          else none
  | .heartbeat worker now uids => some { w with com := w.update uids (heartbeatRow o worker now) }

/-- The steps as a relation. -/
def Step (H : Sha256) (o : Options) (w : World n) (a : Act n) (w' : World n) : Prop :=
  w.step H o a = some w'

/-- No transaction and no reaper pass is in progress. -/
def Quiet (w : World n) : Prop := ∀ i, w.sessions i = .idle

end World

/-! ### Steps, inverted -/

section Locks

variable {n : Nat} {w : World n}

theorem World.free_iff {i : Fin n} {l : Lock} :
    w.free i l = true ↔ ∀ j, j ≠ i → l ∉ (w.sessions j).locks := by
  simp only [World.free, List.all_eq_true, List.mem_finRange, forall_const, Bool.or_eq_true,
    decide_eq_true_eq, Bool.not_eq_true', List.contains_eq_mem, decide_eq_false_iff_not]
  exact forall_congr' fun j => or_iff_not_imp_left

theorem World.unlocked_iff {l : Lock} : w.unlocked l = true ↔ ∀ j, l ∉ (w.sessions j).locks := by
  simp [World.unlocked]

end Locks

/-- What a session does next, with everything its step asks for. `taken` are the locks of the
other sessions. -/
inductive Session.Move (H : Sha256) (o : Options) (has : Str → Bool) (taken : Lock → Prop) (com : Db) :
    Session → Db → Session → Prop where
  | statement {tx : Tx} {s : Stmt} {rest : List Stmt} : tx.stack = s :: rest →
      (∀ l, s.target (tx.view com) = some l → ¬ taken l) →
      Move H o has taken com (.completing tx) com
        (.completing (tx.after (s.target (tx.view com)) (DistCompile.exec H o (tx.view com) s) rest))
  | committed {tx : Tx} : tx.stack = [] → Move H o has taken com (.completing tx) (tx.view com) .idle
  | newBuild {sub : Submission} : Move H o has taken com (.submitting sub .newBuild)
      { com with nextBuild := com.nextBuild + 1 } (.submitting sub (.cacheLookup com.nextBuild))
  | cacheLookup {sub : Submission} {build : Nat} :
      Move H o has taken com (.submitting sub (.cacheLookup build)) com
        (.submitting sub (.walk build sub.order ⟨fun _ => {}, lookupCompileKeys com.outputs sub.spec, 0⟩))
  | walk {sub : Submission} {build id : Nat} {todo : List Nat} {w w' : Walk} :
      walkTask H has com.outputs sub.spec w id = .ok w' →
      Move H o has taken com (.submitting sub (.walk build (id :: todo) w)) com
        (.submitting sub (.walk build todo w'))
  | walked {sub : Submission} {build : Nat} {w : Walk} :
      Move H o has taken com (.submitting sub (.walk build [] w)) com (.submitting sub (.cacheHits build w))
  | cacheHits {sub : Submission} {build : Nat} {w : Walk} :
      (∀ key ∈ hitKeys sub.spec w, ¬ taken (.cache key)) →
      Move H o has taken com (.submitting sub (.cacheHits build w)) com
        (.submitting sub (.insertTasks build w))
  | insertTasks {sub : Submission} {build : Nat} {w : Walk} :
      Move H o has taken com (.submitting sub (.insertTasks build w))
        { com with nextUid := com.nextUid + sub.spec.tasks.length }
        (.submitting sub (.insertDeps build com.nextUid w))
  | insertDeps {sub : Submission} {build uid : Nat} {w : Walk} :
      Move H o has taken com (.submitting sub (.insertDeps build uid w)) com
        (.submitting sub (.maybeFinish ⟨build, sub.spec.toolchain, .running, sub.spec.tasks.length⟩ uid w
          (maybeFinish build)))
  | maybeFinish {sub : Submission} {row : BuildRow} {uid : Nat} {w : Walk} {s : Stmt} {rest : List Stmt} :
      Move H o has taken com (.submitting sub (.maybeFinish row uid w (s :: rest))) com
        (.submitting sub (.maybeFinish
          ((DistCompile.exec H o (sub.inserted com row uid w) s).write.elim row (Write.onBuild row)) uid w
          ((DistCompile.exec H o (sub.inserted com row uid w) s).next ++ rest)))
  | inserted {sub : Submission} {row : BuildRow} {uid : Nat} {w : Walk} :
      Move H o has taken com (.submitting sub (.maybeFinish row uid w [])) (sub.inserted com row uid w) .idle
  | counted {s : Stmt} {rest : List Stmt} : (∀ l, s.target com = some l → ¬ taken l) →
      Move H o has taken com (.reaping (s :: rest)) ((DistCompile.exec H o com s).db com)
        (.reaping ((DistCompile.exec H o com s).next ++ rest))
  | passed : Move H o has taken com (.reaping []) com .idle
  | rolledBack {sub : Submission} {stage : Stage} : Move H o has taken com (.submitting sub stage) com .idle

section Inversion

variable {H : Sha256} {o : Options} {has : Str → Bool} {taken : Lock → Prop} {free : Lock → Bool} {com com' : Db}

theorem Stage.exec_move (isFree : ∀ l, free l = true → ¬ taken l) {sub : Submission} {stage : Stage}
    {next : Option Stage} (ran : stage.exec H o has free sub com = some (com', next)) :
    Session.Move H o has taken com (.submitting sub stage) com' (next.elim .idle (.submitting sub)) := by
  cases stage with
  | newBuild =>
    cases ran
    exact .newBuild
  | cacheLookup build =>
    cases ran
    exact .cacheLookup
  | walk build todo w =>
    cases todo with
    | nil =>
      cases ran
      exact .walked
    | cons id todo =>
      simp only [Stage.exec] at ran
      split at ran
      · rename_i w' walked
        cases ran
        exact .walk walked
      · cases ran
        exact .rolledBack
  | cacheHits build w =>
    simp only [Stage.exec] at ran
    split at ran
    · rename_i all
      cases ran
      exact .cacheHits fun key member => isFree _ (List.all_eq_true.mp all key member)
    · cases ran
  | insertTasks build w =>
    simp only [Stage.exec] at ran
    split at ran
    · cases ran
      exact .insertTasks
    · cases ran
      exact .rolledBack
  | insertDeps build uid w =>
    simp only [Stage.exec] at ran
    split at ran
    · cases ran
      exact .insertDeps
    · cases ran
      exact .rolledBack
  | maybeFinish row uid w stack =>
    cases stack with
    | nil => cases ran
    | cons s rest =>
      cases ran
      exact .maybeFinish

theorem Session.exec_move (isFree : ∀ l, free l = true → ¬ taken l) {s s' : Session}
    (ran : s.exec H o has free com = some (com', s')) : Session.Move H o has taken com s com' s' := by
  cases s with
  | idle => cases ran
  | completing tx =>
    simp only [Session.exec] at ran
    split at ran
    · cases ran
    · rename_i s rest top
      split at ran
      · rename_i enabled
        cases ran
        refine .statement top fun l target => isFree l ?_
        rwa [target] at enabled
      · cases ran
  | submitting sub stage =>
    obtain ⟨⟨db, next⟩, staged, same⟩ := Option.map_eq_some_iff.mp ran
    cases same
    exact Stage.exec_move isFree staged
  | reaping stack =>
    simp only [Session.exec] at ran
    split at ran
    · cases ran
    · rename_i s rest
      split at ran
      · rename_i enabled
        cases ran
        refine .counted fun l target => isFree l ?_
        rwa [target] at enabled
      · cases ran

theorem Session.commit_move {s : Session} (ran : s.commit com = some com') :
    Session.Move H o has taken com s com' .idle := by
  unfold Session.commit at ran
  split at ran
  · split at ran
    · rename_i empty
      cases ran
      exact .committed empty
    · cases ran
  · cases ran
    exact .inserted
  · cases ran
    exact .passed
  · cases ran

end Inversion

/-- The locks of the sessions other than `i`. -/
def World.Taken {n : Nat} (w : World n) (i : Fin n) (l : Lock) : Prop :=
  ∃ j, j ≠ i ∧ l ∈ (w.sessions j).locks

/-- A step of the world. -/
inductive World.Move (H : Sha256) (o : Options) {n : Nat} (w : World n) : Act n → World n → Prop where
  | putBlob {data expect : Str} {blobs : Blobs} : w.blobs.put H data expect = some blobs →
      Move H o w (.putBlob data expect) { w with blobs }
  | complete {i : Fin n} {now : Int} {r : TaskResult} : w.sessions i = .idle →
      Move H o w (.complete i now r)
        (w.set i w.com (.completing { stack := completeTask w.blobs.has w.blobs.sizeOf now r }))
  | submit {i : Fin n} {spec : BuildSpec} {live : Int} {order : List Nat} {rank part : Nat → Int} :
      w.sessions i = .idle →
      Move H o w (.submit i spec live) (w.set i w.com (.submitting ⟨spec, order, rank, part⟩ .newBuild))
  | reap {i : Fin n} {now : Int} {uids : List Nat} : w.sessions i = .idle →
      Move H o w (.reap i now uids)
        (w.set i (w.update uids (reapRow o now)) (.reaping (w.gaveUp o now uids)))
  | session {i : Fin n} {a : Act n} {com : Db} {s : Session} :
      a = .exec i ∨ a = .commit i ∧ (w.sessions i).commit w.com = some com →
      Session.Move H o w.blobs.has (w.Taken i) w.com (w.sessions i) com s → Move H o w a (w.set i com s)
  | abort {i : Fin n} : Move H o w (.abort i) (w.set i w.com .idle)
  | claim {worker toolchain : Str} {part : Option Int} {now : Int} {uid : Nat} {t : TaskRow} :
      t ∈ w.com.tasks → t.state = .ready → (∀ j, Lock.task t.uid ∉ (w.sessions j).locks) →
      Move H o w (.claim worker toolchain part now uid)
        { w with com := w.com.apply (.task (claimedRow o worker now t)) }
  | heartbeat {worker : Str} {now : Int} {uids : List Nat} :
      Move H o w (.heartbeat worker now uids) { w with com := w.update uids (heartbeatRow o worker now) }

theorem World.Step.move {H : Sha256} {o : Options} {n : Nat} {w w' : World n} {a : Act n}
    (stepped : World.Step H o w a w') : World.Move H o w a w' := by
  unfold World.Step at stepped
  have isFree : ∀ i l, w.free i l = true → ¬ w.Taken i l := fun i l free ⟨j, other, held⟩ =>
    World.free_iff.mp free j other held
  cases a with
  | putBlob data expect =>
    obtain ⟨blobs, put, rfl⟩ := Option.map_eq_some_iff.mp stepped
    exact .putBlob put
  | complete i now r =>
    simp only [World.step] at stepped
    split at stepped
    · cases stepped
      exact .complete (by assumption)
    · cases stepped
  | submit i spec live =>
    simp only [World.step] at stepped
    split at stepped
    · cases stepped
      exact .submit (by assumption)
    · cases stepped
  | reap i now uids =>
    simp only [World.step] at stepped
    split at stepped
    · cases stepped
      exact .reap (by assumption)
    · cases stepped
  | exec i =>
    obtain ⟨⟨com, s⟩, ran, rfl⟩ := Option.map_eq_some_iff.mp stepped
    exact .session (Or.inl rfl) (Session.exec_move (isFree i) ran)
  | commit i =>
    obtain ⟨com, ran, rfl⟩ := Option.map_eq_some_iff.mp stepped
    exact .session (Or.inr ⟨rfl, ran⟩) (Session.commit_move ran)
  | abort i =>
    cases stepped
    exact .abort
  | claim worker toolchain part now uid =>
    simp only [World.step] at stepped
    split at stepped
    · cases stepped
    · rename_i t found
      split at stepped
      · cases stepped
        have member := List.mem_of_find?_eq_some found
        simp only [World.claimCandidates, List.mem_filter, claimable, Bool.and_eq_true, decide_eq_true_eq] at member
        obtain ⟨ht, ⟨unlocked, ⟨⟨ready, -⟩, -⟩⟩, -⟩ := member
        exact .claim ht ready (World.unlocked_iff.mp unlocked)
      · cases stepped
  | heartbeat worker now uids =>
    cases stepped
    exact .heartbeat

/-! ### How the tables move on -/

/-- There is such a build. -/
def Known (db : Db) (build : Nat) : Prop := ∃ b ∈ db.builds, b.id = build

/-- The keys of the tables. -/
structure Indexed (db : Db) : Prop where
  uids : db.Uids
  slots : (db.tasks.map TaskRow.slot).Nodup
  ids : (db.builds.map BuildRow.id).Nodup
  fresh : ∀ b ∈ db.builds, b.id < db.nextBuild
  known : ∀ t ∈ db.tasks, Known db t.buildId

/-- A task row and a later version of it. -/
structure SameTask (t t' : TaskRow) : Prop where
  uid : t'.uid = t.uid
  slot : t'.slot = t.slot

/-- A build row and a later version of it: a closed build stays as it is. -/
structure Later (b b' : BuildRow) : Prop where
  id : b'.id = b.id
  closed : b.state ≠ .running → b' = b

/-- The rows of `db` are those of `db'`, as `R` and `Later` allow, and what is new belongs to
new builds. -/
structure Advance (R : TaskRow → TaskRow → Prop) (db db' : Db) : Prop where
  tasks : ∀ t ∈ db.tasks, ∃ t' ∈ db'.tasks, R t t'
  origin : ∀ t' ∈ db'.tasks, (∃ t ∈ db.tasks, R t t') ∨ ¬ Known db t'.buildId
  builds : ∀ b ∈ db.builds, ∃ b' ∈ db'.builds, Later b b'
  opened : ∀ b' ∈ db'.builds, (∃ b ∈ db.builds, Later b b') ∨ ¬ Known db b'.id
  nextBuild : db.nextBuild ≤ db'.nextBuild
  nextUid : db.nextUid ≤ db'.nextUid

/-- The row under the lock is the same. -/
def Untouched (db db' : Db) : Lock → Prop
  | .task uid => ∀ t : TaskRow, t.uid = uid → (t ∈ db'.tasks ↔ t ∈ db.tasks)
  | .build id => ∀ b : BuildRow, b.id = id → (b ∈ db'.builds ↔ b ∈ db.builds)
  | .cache _ => True

theorem SameTask.refl (t : TaskRow) : SameTask t t := ⟨rfl, rfl⟩

theorem SameTask.trans {t t' t'' : TaskRow} (first : SameTask t t') (second : SameTask t' t'') : SameTask t t'' :=
  ⟨second.uid.trans first.uid, second.slot.trans first.slot⟩

theorem SameTask.buildId {t t' : TaskRow} (same : SameTask t t') : t'.buildId = t.buildId :=
  congrArg Prod.fst same.slot

theorem Later.refl (b : BuildRow) : Later b b := ⟨rfl, fun _ => rfl⟩

theorem Later.trans {b b' b'' : BuildRow} (first : Later b b') (second : Later b' b'') : Later b b'' := by
  refine ⟨second.id.trans first.id, fun closed => ?_⟩
  obtain rfl := first.closed closed
  exact second.closed closed

theorem Untouched.refl (db : Db) (l : Lock) : Untouched db db l := by
  cases l with
  | task uid => exact fun _ _ => Iff.rfl
  | build id => exact fun _ _ => Iff.rfl
  | cache key => trivial

section Advance

variable {R : TaskRow → TaskRow → Prop} {db db' db'' : Db} {f : TaskRow → TaskRow}

theorem Advance.refl (same : ∀ t, R t t) (db : Db) : Advance R db db :=
  ⟨fun t ht => ⟨t, ht, same t⟩, fun t ht => Or.inl ⟨t, ht, same t⟩, fun b hb => ⟨b, hb, .refl b⟩,
    fun b hb => Or.inl ⟨b, hb, .refl b⟩, le_rfl, le_rfl⟩

theorem Advance.known (adv : Advance R db db') {build : Nat} (known : Known db build) : Known db' build := by
  obtain ⟨b, hb, rfl⟩ := known
  obtain ⟨b', hb', later⟩ := adv.builds b hb
  exact ⟨b', hb', later.id⟩

/-- A build that runs later ran before, or is new. -/
theorem Advance.running (adv : Advance R db db') {build : Nat} (running : db'.Running build) :
    db.Running build ∨ ¬ Known db build := by
  obtain ⟨b', hb', rfl, state⟩ := running
  rcases adv.opened b' hb' with ⟨b, hb, later⟩ | unknown
  · refine Or.inl ⟨b, hb, later.id.symm, ?_⟩
    by_contra closed
    rw [later.closed closed] at state
    exact closed state
  · exact Or.inr unknown

/-- Only the rows of `tasks` change, one by one. -/
theorem Advance.of_rows (rows : ∀ t ∈ db.tasks, R t (f t)) :
    Advance R db { db with tasks := db.tasks.map f } := by
  refine ⟨fun t ht => ⟨f t, List.mem_map_of_mem ht, rows t ht⟩, fun t' ht' => ?_, fun b hb => ⟨b, hb, .refl b⟩,
    fun b hb => Or.inl ⟨b, hb, .refl b⟩, le_rfl, le_rfl⟩
  obtain ⟨t, ht, rfl⟩ := List.mem_map.mp ht'
  exact Or.inl ⟨t, ht, rows t ht⟩

theorem Indexed.of_rows (tables : Indexed db) (rows : ∀ t ∈ db.tasks, SameTask t (f t)) :
    Indexed { db with tasks := db.tasks.map f } := by
  refine ⟨tables.uids.of_rows rfl rfl fun t ht => (rows t ht).uid, ?_, tables.ids, tables.fresh, fun t' ht' => ?_⟩
  · have same : (db.tasks.map f).map TaskRow.slot = db.tasks.map TaskRow.slot := by
      rw [List.map_map]
      exact List.map_congr_left fun t ht => (rows t ht).slot
    rw [same]
    exact tables.slots
  · obtain ⟨t, ht, rfl⟩ := List.mem_map.mp ht'
    rw [(rows t ht).buildId]
    exact tables.known t ht

/-- Rows that nobody rewrites stay as they are. -/
theorem Untouched.of_rows (same : ∀ t ∈ db.tasks, (f t).uid = t.uid) {l : Lock}
    (spared : ∀ t ∈ db.tasks, l = .task t.uid → f t = t) :
    Untouched db { db with tasks := db.tasks.map f } l := by
  cases l with
  | task uid =>
    rintro t rfl
    simp only [List.mem_map]
    constructor
    · rintro ⟨u, hu, rfl⟩
      have here : f u = u := spared u hu (by rw [same u hu])
      rwa [here]
    · intro ht
      exact ⟨t, ht, spared t ht rfl⟩
  | build id => exact fun _ _ => Iff.rfl
  | cache key => trivial

end Advance

/-! ### Views -/

/-- The writes leave a row alone, or replace whatever has its uid. -/
theorem rowAfter_cases (writes : List Write) (uid : Nat) :
    (∀ r : TaskRow, r.uid = uid → rowAfter writes r = r) ∨
      ∃ row, .task row ∈ writes ∧ ∀ r : TaskRow, r.uid = uid → rowAfter writes r = row := by
  rcases overwrites_tasks.foldl_cases writes uid with alone | ⟨_, member, row, rfl, replaced⟩
  · exact Or.inl alone
  · exact Or.inr ⟨row, member, replaced⟩

/-- What a transaction has written: later versions of committed rows, under lock, and results
of running builds. -/
structure Written (R : TaskRow → TaskRow → Prop) (com : Db) (tx : Tx) : Prop where
  tasks : ∀ row, .task row ∈ tx.writes → Lock.task row.uid ∈ tx.locks ∧ ∃ t ∈ com.tasks, R t row
  builds : ∀ row, .build row ∈ tx.writes → Lock.build row.id ∈ tx.locks ∧ row.state ≠ .running ∧
    com.Running row.id

theorem Known.of_running {db : Db} {build : Nat} (running : db.Running build) : Known db build := by
  obtain ⟨b, hb, id, -⟩ := running
  exact ⟨b, hb, id⟩

/-- The builds of a view are those committed. -/
theorem known_view {com : Db} {tx : Tx} {build : Nat} : Known (tx.view com) build ↔ Known com build := by
  simp only [Known, Tx.view, foldl_apply_builds]
  constructor
  · rintro ⟨b, hb, rfl⟩
    obtain ⟨r, hr, rfl⟩ := List.mem_map.mp hb
    exact ⟨r, hr, (buildAfter_id tx.writes r).symm⟩
  · rintro ⟨r, hr, rfl⟩
    exact ⟨_, List.mem_map_of_mem hr, buildAfter_id tx.writes r⟩

section Views

variable {R : TaskRow → TaskRow → Prop} {com com' : Db} {tx : Tx}

/-- A row of a view is committed, or one that the transaction has written. -/
theorem Written.mem_tasks (written : Written R com tx) {t : TaskRow} (ht : t ∈ (tx.view com).tasks) :
    (t ∈ com.tasks ∧ Lock.task t.uid ∉ tx.locks) ∨ Lock.task t.uid ∈ tx.locks ∧
      (t ∈ com.tasks ∨ .task t ∈ tx.writes) := by
  by_cases locked : Lock.task t.uid ∈ tx.locks
  · refine Or.inr ⟨locked, ?_⟩
    rw [Tx.view, foldl_apply_tasks] at ht
    obtain ⟨r, hr, rfl⟩ := List.mem_map.mp ht
    rcases rowAfter_cases tx.writes r.uid with alone | ⟨row, member, replaced⟩
    · rw [alone r rfl]
      exact Or.inl hr
    · rw [replaced r rfl]
      exact Or.inr member
  · refine Or.inl ⟨?_, locked⟩
    rw [Tx.view, foldl_apply_tasks] at ht
    obtain ⟨r, hr, rfl⟩ := List.mem_map.mp ht
    rw [rowAfter_uid] at locked
    rwa [rowAfter_of_untouched fun row member same => locked (same ▸ (written.tasks row member).1)]

/-- Where a row of a view comes from. -/
theorem Written.origin (written : Written R com tx) (refl : ∀ t, R t t) {t : TaskRow}
    (ht : t ∈ (tx.view com).tasks) : ∃ r ∈ com.tasks, R r t := by
  rcases written.mem_tasks ht with ⟨old, -⟩ | ⟨-, old | new⟩
  · exact ⟨t, old, refl t⟩
  · exact ⟨t, old, refl t⟩
  · exact (written.tasks t new).2

/-- What a row that nobody has locked is in a view. -/
theorem Written.free (written : Written R com tx) {t : TaskRow} (free : Lock.task t.uid ∉ tx.locks) :
    t ∈ (tx.view com).tasks ↔ t ∈ com.tasks := by
  constructor
  · intro ht
    rcases written.mem_tasks ht with ⟨old, -⟩ | ⟨locked, -⟩
    · exact old
    · exact absurd locked free
  · intro ht
    rw [Tx.view, foldl_apply_tasks]
    exact List.mem_map.mpr ⟨t, ht, rowAfter_of_untouched fun row member same =>
      free (same ▸ (written.tasks row member).1)⟩

theorem Written.free_build (written : Written R com tx) {b : BuildRow} (free : Lock.build b.id ∉ tx.locks) :
    b ∈ (tx.view com).builds ↔ b ∈ com.builds := by
  have alone : ∀ r : BuildRow, r.id = b.id → buildAfter tx.writes r = r := by
    rcases buildAfter_cases tx.writes b.id with alone | ⟨row, member, replaced⟩
    · exact alone
    · have id : row.id = b.id := by rw [← replaced b rfl, buildAfter_id]
      exact absurd (id ▸ (written.builds row member).1) free
  rw [Tx.view, foldl_apply_builds, List.mem_map]
  constructor
  · rintro ⟨r, hr, rfl⟩
    rwa [alone r (buildAfter_id tx.writes r).symm]
  · intro hb
    exact ⟨b, hb, alone b rfl⟩

/-- Rows under lock are the same in a view when the committed ones are. -/
theorem view_locked {t : TaskRow} (same : Untouched com com' (.task t.uid)) :
    t ∈ (tx.view com').tasks ↔ t ∈ (tx.view com).tasks := by
  simp only [Tx.view, foldl_apply_tasks, List.mem_map]
  constructor
  · rintro ⟨r, hr, rfl⟩
    exact ⟨r, (same r (rowAfter_uid tx.writes r).symm).mp hr, rfl⟩
  · rintro ⟨r, hr, rfl⟩
    exact ⟨r, (same r (rowAfter_uid tx.writes r).symm).mpr hr, rfl⟩

theorem view_locked_build {b : BuildRow} (same : Untouched com com' (.build b.id)) :
    b ∈ (tx.view com').builds ↔ b ∈ (tx.view com).builds := by
  simp only [Tx.view, foldl_apply_builds, List.mem_map]
  constructor
  · rintro ⟨r, hr, rfl⟩
    exact ⟨r, (same r (buildAfter_id tx.writes r).symm).mp hr, rfl⟩
  · rintro ⟨r, hr, rfl⟩
    exact ⟨r, (same r (buildAfter_id tx.writes r).symm).mpr hr, rfl⟩

/-- What a transaction makes of a committed row. -/
theorem Written.row (written : Written R com tx) (refl : ∀ t, R t t)
    (same : ∀ {t t'}, R t t' → SameTask t t') (tables : Indexed com) {t : TaskRow} (ht : t ∈ com.tasks) :
    R t (rowAfter tx.writes t) := by
  have member : rowAfter tx.writes t ∈ (tx.view com).tasks := by
    rw [Tx.view, foldl_apply_tasks]
    exact List.mem_map_of_mem ht
  obtain ⟨r, hr, rel⟩ := written.origin refl member
  have uid : r.uid = t.uid := (same rel).uid.symm.trans (rowAfter_uid tx.writes t)
  rwa [List.inj_on_of_nodup_map tables.uids.unique hr ht uid] at rel

theorem Written.build (written : Written R com tx) (tables : Indexed com) {b : BuildRow} (hb : b ∈ com.builds) :
    Later b (buildAfter tx.writes b) := by
  refine ⟨buildAfter_id tx.writes b, fun closed => ?_⟩
  rcases buildAfter_cases tx.writes b.id with alone | ⟨row, member, replaced⟩
  · exact alone b rfl
  · obtain ⟨-, -, b', hb', id, running⟩ := written.builds row member
    have here : b'.id = b.id := by rw [id, ← replaced b rfl, buildAfter_id]
    rw [List.inj_on_of_nodup_map tables.ids hb' hb here] at running
    exact absurd running closed

/-- What a commit is for the tables. -/
theorem Written.advance (written : Written R com tx) (refl : ∀ t, R t t)
    (same : ∀ {t t'}, R t t' → SameTask t t') (tables : Indexed com) : Advance R com (tx.view com) := by
  have serials : (tx.view com).serials = com.serials := foldl_apply_serials _ _
  refine ⟨fun t ht => ?_, fun t ht => Or.inl (written.origin refl ht), fun b hb => ?_, fun b' hb' => ?_,
    (congrArg Prod.fst serials).ge, (congrArg Prod.snd serials).ge⟩
  · rw [Tx.view, foldl_apply_tasks]
    exact ⟨_, List.mem_map_of_mem ht, written.row refl same tables ht⟩
  · rw [Tx.view, foldl_apply_builds]
    exact ⟨_, List.mem_map_of_mem hb, written.build tables hb⟩
  · rw [Tx.view, foldl_apply_builds] at hb'
    obtain ⟨b, hb, rfl⟩ := List.mem_map.mp hb'
    exact Or.inl ⟨b, hb, written.build tables hb⟩

/-- The keys of a view. -/
theorem Written.indexed (written : Written SameTask com tx) (tables : Indexed com) : Indexed (tx.view com) := by
  have rows : ∀ t ∈ com.tasks, SameTask t (rowAfter tx.writes t) := fun t ht =>
    written.row SameTask.refl id tables ht
  have moved := tables.of_rows rows
  have tasks : (tx.view com).tasks = com.tasks.map (rowAfter tx.writes) := foldl_apply_tasks _ _
  have serials : (tx.view com).serials = com.serials := foldl_apply_serials _ _
  have ids : (tx.view com).builds.map BuildRow.id = com.builds.map BuildRow.id := by
    rw [Tx.view, foldl_apply_builds, List.map_map]
    exact List.map_congr_left fun b _ => buildAfter_id tx.writes b
  refine ⟨⟨tasks ▸ moved.uids.unique, fun t ht => ?_⟩, tasks ▸ moved.slots, ids ▸ tables.ids, fun b hb => ?_,
    fun t ht => ?_⟩
  · rw [show (tx.view com).nextUid = com.nextUid from congrArg Prod.snd serials]
    exact moved.uids.fresh t (tasks ▸ ht)
  · rw [show (tx.view com).nextBuild = com.nextBuild from congrArg Prod.fst serials]
    obtain ⟨r, hr, id⟩ := List.mem_map.mp (ids ▸ List.mem_map_of_mem hb)
    rw [← id]
    exact tables.fresh r hr
  · exact known_view.mpr (moved.known t (tasks ▸ ht))

/-- The same transaction over tables that have moved on. -/
theorem Written.rebase (written : Written R com tx)
    (spared : ∀ l ∈ tx.locks, Untouched com com' l) (same : ∀ {t t'}, R t t' → SameTask t t') :
    Written R com' tx := by
  refine ⟨fun row member => ?_, fun row member => ?_⟩
  · obtain ⟨locked, t, ht, rel⟩ := written.tasks row member
    exact ⟨locked, t, (spared _ locked t (same rel).uid.symm).mpr ht, rel⟩
  · obtain ⟨locked, closed, b, hb, id, running⟩ := written.builds row member
    exact ⟨locked, closed, b, (spared _ locked b id).mpr hb, id, running⟩

/-- Its view has moved on, too. -/
theorem Advance.view (adv : Advance R com com') (written : Written R com tx)
    (spared : ∀ l ∈ tx.locks, Untouched com com' l) (refl : ∀ t, R t t)
    (same : ∀ {t t'}, R t t' → SameTask t t') : Advance R (tx.view com) (tx.view com') := by
  have written' := written.rebase spared same
  have serials : (tx.view com).serials = com.serials := foldl_apply_serials _ _
  have serials' : (tx.view com').serials = com'.serials := foldl_apply_serials _ _
  refine ⟨fun t ht => ?_, fun t' ht' => ?_, fun b hb => ?_, fun b' hb' => ?_, ?_, ?_⟩
  · by_cases locked : Lock.task t.uid ∈ tx.locks
    · exact ⟨t, (view_locked (spared _ locked)).mpr ht, refl t⟩
    · obtain ⟨t', ht', rel⟩ := adv.tasks t ((written.free locked).mp ht)
      rw [← (same rel).uid] at locked
      exact ⟨t', (written'.free locked).mpr ht', rel⟩
  · by_cases locked : Lock.task t'.uid ∈ tx.locks
    · exact Or.inl ⟨t', (view_locked (spared _ locked)).mp ht', refl t'⟩
    · rcases adv.origin t' ((written'.free locked).mp ht') with ⟨t, ht, rel⟩ | unknown
      · rw [(same rel).uid] at locked
        exact Or.inl ⟨t, (written.free locked).mpr ht, rel⟩
      · exact Or.inr fun known => unknown (known_view.mp known)
  · by_cases locked : Lock.build b.id ∈ tx.locks
    · exact ⟨b, (view_locked_build (spared _ locked)).mpr hb, .refl b⟩
    · obtain ⟨b', hb', later⟩ := adv.builds b ((written.free_build locked).mp hb)
      rw [← later.id] at locked
      exact ⟨b', (written'.free_build locked).mpr hb', later⟩
  · by_cases locked : Lock.build b'.id ∈ tx.locks
    · exact Or.inl ⟨b', (view_locked_build (spared _ locked)).mp hb', .refl b'⟩
    · rcases adv.opened b' ((written'.free_build locked).mp hb') with ⟨b, hb, later⟩ | unknown
      · rw [later.id] at locked
        exact Or.inl ⟨b, (written.free_build locked).mpr hb, later⟩
      · exact Or.inr fun known => unknown (known_view.mp known)
  · have first := congrArg Prod.fst serials
    have second := congrArg Prod.fst serials'
    simp only [Db.serials] at first second
    rw [first, second]
    exact adv.nextBuild
  · have first := congrArg Prod.snd serials
    have second := congrArg Prod.snd serials'
    simp only [Db.serials] at first second
    rw [first, second]
    exact adv.nextUid

end Views

/-! ### Statements -/

/-- The key has been drawn. -/
def Issued (db : Db) : Lock → Prop
  | .task uid => uid < db.nextUid
  | .build id => id < db.nextBuild
  | .cache _ => True

/-- The build that a statement of `maybe_finish` is about. -/
def countOf : Stmt → Option Nat
  | .progress build | .buildFailed build | .buildDone build => some build
  | _ => none

section Statements

variable {H : Sha256} {o : Options} {R : TaskRow → TaskRow → Prop} {db com : Db} {tx : Tx} {s : Stmt}

/-- A statement writes a version of a row it has found. -/
theorem exec_sameTask {row : TaskRow} (written : (exec H o db s).write = some (.task row)) :
    ∃ t ∈ db.tasks, SameTask t row := by
  obtain ⟨t, ht, next, -, rewrites⟩ := exec_rewrites written
  exact ⟨t, ht, by cases rewrites <;> exact ⟨rfl, rfl⟩⟩

/-- A statement locks a row that is there. -/
theorem target_issued (tables : Indexed db) {l : Lock} (target : s.target db = some l) : Issued db l := by
  have byUid : ∀ {uid : Nat} {t : TaskRow}, db.task? uid = some t → t.uid < db.nextUid := fun found =>
    tables.uids.fresh _ (List.mem_of_find?_eq_some found)
  have bySlot : ∀ {build id : Nat} {t : TaskRow}, db.taskAt? build id = some t → t.uid < db.nextUid := fun found =>
    tables.uids.fresh _ (List.mem_of_find?_eq_some found)
  have byId : ∀ {id : Nat} {b : BuildRow}, db.build? id = some b → b.id < db.nextBuild := fun found =>
    tables.fresh _ (List.mem_of_find?_eq_some found)
  cases s <;> simp only [Stmt.target, Option.map_eq_some_iff] at target <;> grind [Issued]

/-- The statements of `maybe_finish` write no task and lead only to each other. -/
theorem exec_countOf {build : Nat} (counts : countOf s = some build) :
    (∀ row, (exec H o db s).write ≠ some (.task row)) ∧ (∀ row, (exec H o db s).write ≠ some (.cache row)) ∧
      ∀ s' ∈ (exec H o db s).next, countOf s' = some build := by
  cases s with
  | progress b =>
    cases counts
    simp only [exec]
    split_ifs <;> simp [countOf]
  | buildFailed b | buildDone b =>
    simp only [exec]
    split
    · split <;> simp
    · simp
  | _ => cases counts

/-- A transaction after a statement. -/
theorem Written.exec (written : Written R com tx) (refl : ∀ t, R t t) (trans : ∀ {t t' t''}, R t t' → R t' t'' → R t t'')
    (same : ∀ {t t'}, R t t' → SameTask t t') (tables : Indexed com) {rest : List Stmt}
    (moves : ∀ row, (exec H o (tx.view com) s).write = some (.task row) → ∃ t ∈ (tx.view com).tasks, R t row) :
    Written R com (tx.after (s.target (tx.view com)) (exec H o (tx.view com) s) rest) := by
  have locks : ∀ {write : Write}, (DistCompile.exec H o (tx.view com) s).write = some write →
      write.lock ∈ (tx.after (s.target (tx.view com)) (DistCompile.exec H o (tx.view com) s) rest).locks := by
    intro write here
    have target := target_of_write here
    exact List.mem_append_right _ (by simp [target])
  refine ⟨fun row member => ?_, fun row member => ?_⟩
  · rcases List.mem_append.mp member with old | new
    · obtain ⟨locked, origin⟩ := written.tasks row old
      exact ⟨List.mem_append_left _ locked, origin⟩
    · have here := Option.mem_toList.mp new
      obtain ⟨t, ht, rel⟩ := moves row here
      obtain ⟨r, hr, before⟩ := written.origin refl ht
      exact ⟨locks here, r, hr, trans before rel⟩
  · rcases List.mem_append.mp member with old | new
    · obtain ⟨locked, origin⟩ := written.builds row old
      exact ⟨List.mem_append_left _ locked, origin⟩
    · have here := Option.mem_toList.mp new
      obtain ⟨b, hb, running, id, closes⟩ := exec_build here
      refine ⟨locks here, ?_, ?_⟩
      · rcases closes with ⟨-, closed⟩ | ⟨-, closed⟩
        · simp [closed]
        · simp [closed]
      · have inView : (tx.view com).Running b.id := ⟨b, hb, rfl, running⟩
        rw [id]
        rcases (written.advance refl same tables).running inView with before | unknown
        · exact before
        · exact absurd (known_view.mp (.of_running inView)) unknown

end Statements

/-! ### What holds of a session -/

/-- No committed row is under these locks. -/
structure Absent (com : Db) (locks : List Lock) : Prop where
  builds : ∀ build, Lock.build build ∈ locks → ¬ Known com build
  tasks : ∀ t ∈ com.tasks, Lock.task t.uid ∉ locks

/-- The statements left of a submit's `maybe_finish` are about its own build. -/
def Stage.Counts : Stage → Prop
  | .maybeFinish row _ _ stack => ∀ s ∈ stack, countOf s = some row.id
  | _ => True

def Session.Sound (com : Db) : Session → Prop
  | .idle => True
  | .completing tx => Written SameTask com tx
  | .submitting sub stage => Absent com (stage.locks sub) ∧ stage.Counts
  | .reaping stack => ∀ s ∈ stack, ∃ build, countOf s = some build ∧ Known com build

/-- What a step of one session does: the tables move on, nothing under the locks of others
changes, and the session is sound again. -/
structure Effect (taken : Lock → Prop) (com com' : Db) (s' : Session) : Prop where
  advance : Advance SameTask com com'
  spared : ∀ l, taken l → Untouched com com' l
  tables : Indexed com'
  sound : s'.Sound com'
  issued : ∀ l ∈ s'.locks, Issued com' l
  apart : ∀ l ∈ s'.locks, ¬ taken l

theorem Issued.mono {com com' : Db} (builds : com.nextBuild ≤ com'.nextBuild) (uids : com.nextUid ≤ com'.nextUid)
    {l : Lock} (issued : Issued com l) : Issued com' l := by
  cases l with
  | task uid => exact Nat.lt_of_lt_of_le issued uids
  | build id => exact Nat.lt_of_lt_of_le issued builds
  | cache key => trivial

section Sound

variable {H : Sha256} {o : Options} {has : Str → Bool} {taken : Lock → Prop} {com com' : Db} {s s' : Session}

/-- A session stays sound while the tables move on around it. -/
theorem Session.Sound.rebase (sound : s.Sound com) (adv : Advance SameTask com com')
    (spared : ∀ l ∈ s.locks, Untouched com com' l) : s.Sound com' := by
  cases s with
  | idle => trivial
  | completing tx => exact Written.rebase sound spared id
  | submitting sub stage =>
    refine ⟨⟨fun build member => ?_, fun t ht member => ?_⟩, sound.2⟩
    · rintro ⟨b, hb, rfl⟩
      exact sound.1.builds b.id member ⟨b, (spared _ member b rfl).mp hb, rfl⟩
    · exact sound.1.tasks t ((spared _ member t rfl).mp ht) member
  | reaping stack =>
    intro s member
    obtain ⟨build, counts, known⟩ := sound s member
    exact ⟨build, counts, adv.known known⟩

/-- The tables stay as they are. -/
theorem Effect.of_same (tables : Indexed com) (sound : s'.Sound com) (issued : ∀ l ∈ s'.locks, Issued com l)
    (apart : ∀ l ∈ s'.locks, ¬ taken l) : Effect taken com com s' :=
  ⟨.refl SameTask.refl com, fun l _ => .refl com l, tables, sound, issued, apart⟩

/-- A transaction commits. -/
theorem Effect.of_written {tx : Tx} (tables : Indexed com) (written : Written SameTask com tx)
    (apart : ∀ l ∈ tx.locks, ¬ taken l) {stack : List Stmt}
    (counts : ∀ s ∈ stack, ∃ build, countOf s = some build ∧ Known com build) :
    Effect taken com (tx.view com) (.reaping stack) := by
  refine ⟨written.advance SameTask.refl id tables, fun l held => ?_, written.indexed tables, fun s member => ?_,
    by simp [Session.locks], by simp [Session.locks]⟩
  · cases l with
    | task uid =>
      rintro t rfl
      exact written.free fun mine => apart _ mine held
    | build id =>
      rintro b rfl
      exact written.free_build fun mine => apart _ mine held
    | cache key => trivial
  · obtain ⟨build, count, known⟩ := counts s member
    exact ⟨build, count, known_view.mpr known⟩

/-- A session without locks ends. -/
theorem Effect.idle {stack : List Stmt} (effect : Effect taken com com' (.reaping stack)) :
    Effect taken com com' .idle :=
  ⟨effect.advance, effect.spared, effect.tables, trivial, effect.issued, effect.apart⟩

/-- The rows of a submit in its own view. -/
theorem mem_inserted {sub : Submission} {row : BuildRow} {uid : Nat} {w : Walk} {t : TaskRow}
    (ht : t ∈ (sub.inserted com row uid w).tasks) :
    t ∈ com.tasks ∨ (t.buildId = row.id ∧ Lock.task t.uid ∈ sub.own row.id uid w) ∧
      ∃ id, t.state = (w.row id).state ∧ t.pendingDeps = (w.row id).pending ∧ t.attempts = 0 ∧
        t.output = emptyIsNull (w.row id).output := by
  rcases List.mem_append.mp ht with old | new
  · exact Or.inl old
  · obtain ⟨id, ts, found, rfl⟩ := mem_insertedTasks.mp new
    refine Or.inr ⟨⟨rfl, List.mem_append_right _ (List.mem_map.mpr ⟨id, List.mem_range.mpr ?_, rfl⟩)⟩,
      id, rfl, rfl, rfl, rfl⟩
    exact (List.getElem?_eq_some_iff.mp found).1

theorem mem_own_build {sub : Submission} {row : BuildRow} {uid : Nat} {w : Walk} :
    Lock.build row.id ∈ sub.own row.id uid w := by
  simp [Submission.own]

/-- A submit commits: what is new belongs to its build. -/
theorem inserted_advance {sub : Submission} {row : BuildRow} {uid : Nat} {w : Walk} {R : TaskRow → TaskRow → Prop}
    (refl : ∀ t, R t t) (absent : Absent com (sub.own row.id uid w)) :
    Advance R com (sub.inserted com row uid w) := by
  have unknown := absent.builds row.id mem_own_build
  refine ⟨fun t ht => ⟨t, List.mem_append_left _ ht, refl t⟩, fun t ht => ?_,
    fun b hb => ⟨b, List.mem_append_left _ hb, .refl b⟩, fun b hb => ?_, le_rfl, le_rfl⟩
  · rcases mem_inserted ht with old | ⟨⟨build, -⟩, -⟩
    · exact Or.inl ⟨t, old, refl t⟩
    · exact Or.inr (build ▸ unknown)
  · rcases List.mem_append.mp hb with old | new
    · exact Or.inl ⟨b, old, .refl b⟩
    · rw [List.mem_singleton.mp new]
      exact Or.inr unknown

theorem inserted_indexed {sub : Submission} {row : BuildRow} {uid : Nat} {w : Walk} (tables : Indexed com)
    (absent : Absent com (sub.own row.id uid w)) (issued : ∀ l ∈ sub.own row.id uid w, Issued com l) :
    Indexed (sub.inserted com row uid w) := by
  have unknown := absent.builds row.id mem_own_build
  have nodup : ∀ {α : Type} (f : TaskRow → α), (com.tasks.map f).Nodup →
      (∀ i ts j ts', f (insertedTask sub.spec sub.rank sub.part row.id (uid + i) w.row ts i) =
        f (insertedTask sub.spec sub.rank sub.part row.id (uid + j) w.row ts' j) → i = j) →
      (∀ t ∈ com.tasks, ∀ u ∈ insertedTasks sub.spec sub.rank sub.part row.id uid w.row, f t ≠ f u) →
      ((sub.inserted com row uid w).tasks.map f).Nodup := by
    intro α f old new apart
    rw [Submission.inserted, List.map_append, List.nodup_append]
    refine ⟨old, ?_, ?_⟩
    · rw [insertedTasks, List.map_map, List.Nodup, List.pairwise_map, List.pairwise_iff_getElem]
      intro i j hi hj less same
      simp only [List.getElem_zipIdx, Function.comp_apply, Nat.zero_add] at same
      exact absurd (new _ _ _ _ same) (Nat.ne_of_lt less)
    · intro a ha b hb
      obtain ⟨t, ht, rfl⟩ := List.mem_map.mp ha
      obtain ⟨u, hu, rfl⟩ := List.mem_map.mp hb
      exact apart t ht u hu
  have mine : ∀ u ∈ insertedTasks sub.spec sub.rank sub.part row.id uid w.row,
      u.buildId = row.id ∧ Lock.task u.uid ∈ sub.own row.id uid w := by
    intro u hu
    rcases mem_inserted (show u ∈ (sub.inserted {} row uid w).tasks from hu) with none | ⟨own, -⟩
    · cases none
    · exact own
  refine ⟨⟨nodup _ tables.uids.unique (fun i ts j ts' same => Nat.add_left_cancel same) fun t ht u hu same => ?_,
    fun t ht => ?_⟩, nodup _ tables.slots (fun i ts j ts' same => congrArg Prod.snd same) fun t ht u hu same => ?_,
    ?_, fun b hb => ?_, fun t ht => ?_⟩
  · exact absent.tasks t ht (same ▸ (mine u hu).2)
  · rcases mem_inserted ht with old | ⟨⟨-, own⟩, -⟩
    · exact tables.uids.fresh t old
    · exact issued _ own
  · have build : t.buildId = row.id := (congrArg Prod.fst same).trans (mine u hu).1
    exact unknown (build ▸ tables.known t ht)
  · rw [Submission.inserted, List.map_append, List.nodup_append]
    refine ⟨tables.ids, by simp, fun a ha b hb => ?_⟩
    obtain ⟨r, hr, rfl⟩ := List.mem_map.mp ha
    rw [List.map_singleton, List.mem_singleton] at hb
    rw [hb]
    exact fun same => unknown ⟨r, hr, same⟩
  · rcases List.mem_append.mp hb with old | new
    · exact tables.fresh b old
    · rw [List.mem_singleton.mp new]
      exact issued _ mem_own_build
  · rcases mem_inserted ht with old | ⟨⟨build, -⟩, -⟩
    · exact (inserted_advance (R := SameTask) SameTask.refl absent).known (tables.known t old)
    · exact ⟨row, List.mem_append_right _ (by simp), build.symm⟩

theorem Effect.of_inserted {sub : Submission} {row : BuildRow} {uid : Nat} {w : Walk} (tables : Indexed com)
    (absent : Absent com (sub.own row.id uid w)) (issued : ∀ l ∈ sub.own row.id uid w, Issued com l)
    (apart : ∀ l ∈ sub.own row.id uid w, ¬ taken l) : Effect taken com (sub.inserted com row uid w) .idle := by
  refine ⟨inserted_advance SameTask.refl absent, fun l held => ?_, inserted_indexed tables absent issued, trivial,
    by simp [Session.locks], by simp [Session.locks]⟩
  cases l with
  | task uid =>
    rintro t rfl
    refine ⟨fun ht => ?_, fun ht => List.mem_append_left _ ht⟩
    rcases mem_inserted ht with old | ⟨⟨-, own⟩, -⟩
    · exact old
    · exact absurd held (apart _ own)
  | build id =>
    rintro b rfl
    refine ⟨fun hb => ?_, fun hb => List.mem_append_left _ hb⟩
    rcases List.mem_append.mp hb with old | new
    · exact old
    · rw [List.mem_singleton.mp new] at held
      exact absurd held (apart _ mem_own_build)
  | cache key => trivial

/-- A statement of a transaction, or one that commits by itself. -/
theorem after_sound {tx : Tx} (tables : Indexed com) (written : Written SameTask com tx)
    (issued : ∀ l ∈ tx.locks, Issued com l) (apart : ∀ l ∈ tx.locks, ¬ taken l) {s : Stmt} {rest : List Stmt}
    (isFree : ∀ l, s.target (tx.view com) = some l → ¬ taken l) :
    Written SameTask com (tx.after (s.target (tx.view com)) (exec H o (tx.view com) s) rest) ∧
      ∀ l ∈ (tx.after (s.target (tx.view com)) (exec H o (tx.view com) s) rest).locks,
        Issued com l ∧ ¬ taken l := by
  refine ⟨written.exec SameTask.refl SameTask.trans id tables fun row => exec_sameTask, fun l member => ?_⟩
  have serials : (tx.view com).serials = com.serials := foldl_apply_serials _ _
  rcases List.mem_append.mp member with old | new
  · exact ⟨issued l old, apart l old⟩
  · have target := Option.mem_toList.mp new
    exact ⟨(target_issued (written.indexed tables) target).mono (congrArg Prod.fst serials).le
      (congrArg Prod.snd serials).le, isFree l target⟩

/-- Serial numbers are drawn. -/
theorem Effect.of_drawn (tables : Indexed com) (builds uids : Nat)
    (sound : s'.Sound { com with nextBuild := com.nextBuild + builds, nextUid := com.nextUid + uids })
    (issued : ∀ l ∈ s'.locks,
      Issued { com with nextBuild := com.nextBuild + builds, nextUid := com.nextUid + uids } l)
    (apart : ∀ l ∈ s'.locks, ¬ taken l) :
    Effect taken com { com with nextBuild := com.nextBuild + builds, nextUid := com.nextUid + uids } s' := by
  refine ⟨⟨fun t ht => ⟨t, ht, .refl t⟩, fun t ht => Or.inl ⟨t, ht, .refl t⟩, fun b hb => ⟨b, hb, .refl b⟩,
    fun b hb => Or.inl ⟨b, hb, .refl b⟩, Nat.le_add_right _ _, Nat.le_add_right _ _⟩, fun l _ => ?_,
    ⟨⟨tables.uids.unique, fun t ht => Nat.lt_add_right _ (tables.uids.fresh t ht)⟩, tables.slots, tables.ids,
      fun b hb => Nat.lt_add_right _ (tables.fresh b hb), tables.known⟩, sound, issued, apart⟩
  cases l with
  | task uid => exact fun _ _ => Iff.rfl
  | build id => exact fun _ _ => Iff.rfl
  | cache key => trivial

theorem newBuild_effect {sub : Submission} (tables : Indexed com) (drawn : ∀ l, taken l → Issued com l) :
    Effect taken com { com with nextBuild := com.nextBuild + 1 }
      (.submitting sub (.cacheLookup com.nextBuild)) := by
  refine .of_drawn tables 1 0 ⟨⟨fun build member => ?_, by simp [Stage.locks]⟩, trivial⟩
    (by simp [Session.locks, Stage.locks, Issued]) fun l member held => ?_
  · obtain rfl : build = com.nextBuild := by simpa [Stage.locks] using member
    rintro ⟨b, hb, id⟩
    exact absurd (tables.fresh b hb) (by omega)
  · obtain rfl : l = .build com.nextBuild := by simpa [Session.locks, Stage.locks] using member
    exact absurd (drawn _ held) (Nat.lt_irrefl _)

theorem cacheHits_effect {sub : Submission} {build : Nat} {w : Walk} (tables : Indexed com)
    (sound : (Session.submitting sub (.cacheHits build w)).Sound com) (issued : Issued com (.build build))
    (apart : ¬ taken (.build build)) (isFree : ∀ key ∈ hitKeys sub.spec w, ¬ taken (.cache key)) :
    Effect taken com com (.submitting sub (.insertTasks build w)) := by
  have locks : ∀ l ∈ (Stage.insertTasks build w).locks sub, l = .build build ∨
      ∃ key ∈ hitKeys sub.spec w, l = .cache key := by
    intro l member
    rcases List.mem_cons.mp member with rfl | hit
    · exact Or.inl rfl
    · obtain ⟨key, found, rfl⟩ := List.mem_map.mp hit
      exact Or.inr ⟨key, found, rfl⟩
  refine .of_same tables ⟨⟨fun b member => ?_, fun t ht member => ?_⟩, trivial⟩ (fun l member => ?_) fun l member => ?_
  · rcases locks _ member with same | ⟨_, _, same⟩
    · exact sound.1.builds b (by simp [Stage.locks, same])
    · cases same
  · rcases locks _ member with same | ⟨_, _, same⟩
    · cases same
    · cases same
  · rcases locks l member with rfl | ⟨key, -, rfl⟩
    · exact issued
    · trivial
  · rcases locks l member with rfl | ⟨key, hit, rfl⟩
    · exact apart
    · exact isFree key hit

theorem insertTasks_effect {sub : Submission} {build : Nat} {w : Walk} (tables : Indexed com)
    (sound : (Session.submitting sub (.insertTasks build w)).Sound com)
    (issued : ∀ l ∈ (Stage.insertTasks build w).locks sub, Issued com l)
    (apart : ∀ l ∈ (Stage.insertTasks build w).locks sub, ¬ taken l) (drawn : ∀ l, taken l → Issued com l) :
    Effect taken com { com with nextUid := com.nextUid + sub.spec.tasks.length }
      (.submitting sub (.insertDeps build com.nextUid w)) := by
  have locks : ∀ l ∈ sub.own build com.nextUid w, l ∈ (Stage.insertTasks build w).locks sub ∨
      ∃ id < sub.spec.tasks.length, l = .task (com.nextUid + id) := by
    intro l member
    rcases List.mem_append.mp member with old | new
    · exact Or.inl old
    · obtain ⟨id, inRange, rfl⟩ := List.mem_map.mp new
      exact Or.inr ⟨id, List.mem_range.mp inRange, rfl⟩
  refine .of_drawn tables 0 _ ⟨⟨fun b member => ?_, fun t ht member => ?_⟩, trivial⟩ (fun l member => ?_)
    fun l member held => ?_
  · rcases locks _ member with old | ⟨_, _, same⟩
    · exact sound.1.builds b old
    · cases same
  · rcases locks _ member with old | ⟨id, -, same⟩
    · exact sound.1.tasks t ht old
    · have := tables.uids.fresh t ht
      rw [Lock.task.inj same] at this
      omega
  · rcases locks l member with old | ⟨id, inRange, rfl⟩
    · refine Issued.mono ?_ ?_ (issued l old)
      · exact le_rfl
      · exact Nat.le_add_right _ _
    · exact Nat.add_lt_add_left inRange _
  · rcases locks l member with old | ⟨id, -, rfl⟩
    · exact apart l old held
    · have : com.nextUid + id < com.nextUid := drawn _ held
      omega

/-- The build row of a submit keeps its id. -/
theorem written_id (out : Outcome) (row : BuildRow) : (out.write.elim row (Write.onBuild row)).id = row.id := by
  cases out.write with
  | none => rfl
  | some write => exact overwrites_builds.on_key row write

/-- What the next statement of a session, or its commit, does. -/
theorem Session.Move.effect (tables : Indexed com) (sound : s.Sound com) (issued : ∀ l ∈ s.locks, Issued com l)
    (apart : ∀ l ∈ s.locks, ¬ taken l) (drawn : ∀ l, taken l → Issued com l)
    (move : Session.Move H o has taken com s com' s') : Effect taken com com' s' := by
  cases move with
  | @statement tx s rest top isFree =>
    obtain ⟨written, locks⟩ := after_sound (H := H) (o := o) tables sound issued apart isFree
    exact .of_same tables written (fun l member => (locks l member).1) fun l member => (locks l member).2
  | @committed tx empty =>
    have none_ : ∀ s ∈ ([] : List Stmt), ∃ build, countOf s = some build ∧ Known com build := by simp
    exact (Effect.of_written tables sound apart none_).idle
  | newBuild => exact newBuild_effect tables drawn
  | cacheLookup => exact .of_same tables ⟨sound.1, trivial⟩ issued apart
  | walk => exact .of_same tables ⟨sound.1, trivial⟩ issued apart
  | walked => exact .of_same tables ⟨sound.1, trivial⟩ issued apart
  | cacheHits isFree =>
    exact cacheHits_effect tables sound (issued _ (by simp [Session.locks, Stage.locks]))
      (apart _ (by simp [Session.locks, Stage.locks])) isFree
  | insertTasks => exact insertTasks_effect tables sound issued apart drawn
  | insertDeps =>
    refine .of_same tables ⟨sound.1, fun s member => ?_⟩ issued apart
    rw [List.mem_singleton.mp member]
    rfl
  | @maybeFinish sub row uid w s rest =>
    have id := written_id (DistCompile.exec H o (sub.inserted com row uid w) s) row
    refine .of_same tables ⟨?_, fun s' member => ?_⟩ ?_ ?_
    · simp only [Stage.locks, id]
      exact sound.1
    · rw [id]
      rcases List.mem_append.mp member with new | old
      · exact (exec_countOf (sound.2 s (by simp))).2.2 s' new
      · exact sound.2 s' (by simp [old])
    · simp only [Session.locks, Stage.locks, id]
      exact issued
    · simp only [Session.locks, Stage.locks, id]
      exact apart
  | inserted => exact .of_inserted tables sound.1 issued apart
  | @counted s rest isFree =>
    -- the statement is a transaction of its own
    have begin_ : Written SameTask com { stack := s :: rest } := ⟨by simp, by simp⟩
    obtain ⟨written, locks⟩ : _ ∧ ∀ l ∈ (Tx.after { stack := s :: rest } (s.target com) (DistCompile.exec H o com s) rest).locks,
        Issued com l ∧ ¬ taken l := after_sound tables begin_ (by simp) (by simp) isFree
    rw [show (DistCompile.exec H o com s).db com = (Tx.after { stack := s :: rest } (s.target com) (DistCompile.exec H o com s) rest).view com
      from (Tx.view_after { stack := s :: rest } com (s.target com) (DistCompile.exec H o com s) rest).symm]
    refine .of_written tables written (fun l member => (locks l member).2) fun s' member => ?_
    rcases List.mem_append.mp member with new | old
    · obtain ⟨build, counts, known⟩ := sound s (by simp)
      exact ⟨build, (exec_countOf counts).2.2 s' new, known⟩
    · exact sound s' (by simp [old])
  | passed => exact .of_same tables trivial (by simp [Session.locks]) (by simp [Session.locks])
  | rolledBack => exact .of_same tables trivial (by simp [Session.locks]) (by simp [Session.locks])

end Sound

/-! ### The invariant of the world -/

/-- The session that acts. -/
def Act.actor {n : Nat} : Act n → Option (Fin n)
  | .complete i _ _ | .submit i _ _ | .reap i _ _ | .exec i | .commit i | .abort i => some i
  | .putBlob _ _ | .claim _ _ _ _ _ | .heartbeat _ _ _ => none

theorem actor_of_act {n : Nat} {i : Fin n} {a : Act n} {ended : Prop} (act : a = .exec i ∨ a = .commit i ∧ ended) :
    a.actor = some i := by
  rcases act with rfl | ⟨rfl, -⟩
  · rfl
  · rfl

/-- The tables are keyed, every session is sound, and no row is locked twice. -/
structure World.Inv {n : Nat} (w : World n) : Prop where
  tables : Indexed w.com
  sound : ∀ i, (w.sessions i).Sound w.com
  issued : ∀ i, ∀ l ∈ (w.sessions i).locks, Issued w.com l
  apart : ∀ i, ∀ l ∈ (w.sessions i).locks, ¬ w.Taken i l

/-- What a step is for the sessions that do not act. -/
structure Evolves {n : Nat} (actor : Option (Fin n)) (w w' : World n) : Prop where
  advance : Advance SameTask w.com w'.com
  still : ∀ i, actor ≠ some i → w'.sessions i = w.sessions i
  spared : ∀ i, actor ≠ some i → ∀ l ∈ (w.sessions i).locks, Untouched w.com w'.com l

section World

variable {H : Sha256} {o : Options} {n : Nat} {w w' : World n} {a : Act n} {i : Fin n} {com : Db} {s : Session}

theorem set_sessions (w : World n) (i j : Fin n) (com : Db) (s : Session) :
    (w.set i com s).sessions j = if j = i then s else w.sessions j := by
  simp [World.set, Function.update_apply]

/-- The invariant after a step whose actor is sound again. -/
theorem World.Inv.evolve (inv : w.Inv) {actor : Option (Fin n)} (evolves : Evolves actor w w')
    (tables : Indexed w'.com)
    (acted : ∀ i, actor = some i → (w'.sessions i).Sound w'.com ∧ (∀ l ∈ (w'.sessions i).locks, Issued w'.com l) ∧
      ∀ l ∈ (w'.sessions i).locks, ¬ w.Taken i l) : w'.Inv := by
  refine ⟨tables, fun i => ?_, fun i => ?_, fun i l mine ⟨j, other, theirs⟩ => ?_⟩
  · by_cases acts : actor = some i
    · exact (acted i acts).1
    · rw [evolves.still i acts]
      exact (inv.sound i).rebase evolves.advance (evolves.spared i acts)
  · by_cases acts : actor = some i
    · exact (acted i acts).2.1
    · rw [evolves.still i acts]
      exact fun l held => (inv.issued i l held).mono evolves.advance.nextBuild evolves.advance.nextUid
  · by_cases acts : actor = some i
    · rw [evolves.still j fun here => other (Option.some.inj (here.symm.trans acts))] at theirs
      exact (acted i acts).2.2 l mine ⟨j, other, theirs⟩
    · rw [evolves.still i acts] at mine
      by_cases acts' : actor = some j
      · exact (acted j acts').2.2 l theirs ⟨i, Ne.symm other, mine⟩
      · rw [evolves.still j acts'] at theirs
        exact inv.apart i l mine ⟨j, other, theirs⟩

/-- One session acts. -/
theorem World.Inv.set (inv : w.Inv) (effect : Effect (w.Taken i) w.com com s) :
    (w.set i com s).Inv ∧ Evolves (some i) w (w.set i com s) := by
  have evolves : Evolves (some i) w (w.set i com s) := by
    refine ⟨effect.advance, fun j other => ?_, fun j other l held => ?_⟩
    · rw [set_sessions, if_neg fun same => other (congrArg some same.symm)]
    · exact effect.spared l ⟨j, fun same => other (congrArg some same.symm), held⟩
  refine ⟨inv.evolve evolves effect.tables fun j here => ?_, evolves⟩
  cases here
  rw [set_sessions, if_pos rfl]
  exact ⟨effect.sound, effect.issued, effect.apart⟩

/-- Rows that nobody has locked are rewritten. -/
theorem World.Inv.rows (inv : w.Inv) {f : TaskRow → TaskRow} (same : ∀ t ∈ w.com.tasks, SameTask t (f t))
    (spared : ∀ t ∈ w.com.tasks, ∀ i, Lock.task t.uid ∈ (w.sessions i).locks → f t = t) :
    World.Inv { w with com := { w.com with tasks := w.com.tasks.map f } } ∧
      Evolves none w { w with com := { w.com with tasks := w.com.tasks.map f } } := by
  have evolves : Evolves none w { w with com := { w.com with tasks := w.com.tasks.map f } } := by
    refine ⟨.of_rows same, fun _ _ => rfl, fun i _ l held => .of_rows (fun t ht => (same t ht).uid) ?_⟩
    rintro t ht rfl
    exact spared t ht i held
  exact ⟨inv.evolve evolves (inv.tables.of_rows same) fun _ acts => (by cases acts), evolves⟩

/-- The rows an update leaves alone. -/
theorem update_spares {uids : List Nat} {f : TaskRow → TaskRow} {t : TaskRow}
    (held : Lock.task t.uid ∈ (w.sessions i).locks) : (if w.reaches uids t then f t else t) = t := by
  refine if_neg fun reached => ?_
  simp only [World.reaches, Bool.and_eq_true] at reached
  exact World.unlocked_iff.mp reached.2 i held

theorem reapRow_sameTask (o : Options) (now : Int) (t : TaskRow) : SameTask t (reapRow o now t) := by
  unfold reapRow
  split
  · exact .refl t
  · exact ⟨rfl, rfl⟩

theorem heartbeatRow_sameTask (o : Options) (worker : Str) (now : Int) (t : TaskRow) :
    SameTask t (heartbeatRow o worker now t) := by
  unfold heartbeatRow
  split
  · exact ⟨rfl, rfl⟩
  · exact .refl t

theorem update_sameTask {uids : List Nat} {f : TaskRow → TaskRow} (same : ∀ t, SameTask t (f t)) (t : TaskRow) :
    SameTask t (if w.reaches uids t then f t else t) := by
  split
  · exact same t
  · exact .refl t

/-- The statements a reaper pass owes are counts of the builds of tasks it gave up. -/
theorem mem_gaveUp {now : Int} {uids : List Nat} {s : Stmt} (member : s ∈ w.gaveUp o now uids) :
    ∃ t ∈ w.com.tasks, s = .progress t.buildId := by
  simp only [World.gaveUp, List.mem_flatMap, List.mem_filter, maybeFinish, List.mem_singleton] at member
  obtain ⟨uid, -, t, ⟨ht, -⟩, rfl⟩ := member
  exact ⟨t, ht, rfl⟩

/-- Every step keeps the invariant. -/
theorem World.Inv.move (inv : w.Inv) (move : World.Move H o w a w') : w'.Inv ∧ Evolves a.actor w w' := by
  have drawn : ∀ i l, w.Taken i l → Issued w.com l := fun i l ⟨j, _, held⟩ => inv.issued j l held
  cases move with
  | putBlob => exact ⟨⟨inv.tables, inv.sound, inv.issued, inv.apart⟩,
      ⟨.refl SameTask.refl w.com, fun _ _ => rfl, fun _ _ l _ => .refl w.com l⟩⟩
  | complete idle =>
    exact inv.set (.of_same inv.tables ⟨by simp, by simp⟩ (by simp [Session.locks]) (by simp [Session.locks]))
  | submit idle =>
    exact inv.set (.of_same inv.tables ⟨⟨by simp [Stage.locks], by simp [Stage.locks]⟩, trivial⟩
      (by simp [Session.locks, Stage.locks]) (by simp [Session.locks, Stage.locks]))
  | @reap i now uids idle =>
    have same : ∀ t ∈ w.com.tasks, SameTask t (if w.reaches uids t then reapRow o now t else t) :=
      fun t _ => update_sameTask (reapRow_sameTask o now) t
    refine inv.set ⟨.of_rows same, ?_, inv.tables.of_rows same, fun s member => ?_, by simp [Session.locks],
      by simp [Session.locks]⟩
    · rintro l ⟨j, -, held⟩
      refine .of_rows (fun t ht => (same t ht).uid) ?_
      rintro t - rfl
      exact update_spares held
    · obtain ⟨t, ht, rfl⟩ := mem_gaveUp member
      exact ⟨t.buildId, rfl, inv.tables.known t ht⟩
  | @session i a com s act move =>
    have effect := move.effect inv.tables (inv.sound i) (inv.issued i) (inv.apart i) (drawn i)
    rw [actor_of_act act]
    exact inv.set effect
  | abort => exact inv.set (.of_same inv.tables trivial (by simp [Session.locks]) (by simp [Session.locks]))
  | @claim worker toolchain part now uid t ht ready isFree =>
    refine inv.rows (fun u hu => ?_) fun u hu j held => if_neg fun same => ?_
    · split
      · rename_i same
        rw [List.inj_on_of_nodup_map inv.tables.uids.unique hu ht same]
        exact ⟨rfl, rfl⟩
      · exact .refl u
    · change u.uid = t.uid at same
      exact isFree j (same ▸ held)
  | @heartbeat worker now uids =>
    exact inv.rows (fun t _ => update_sameTask (heartbeatRow_sameTask o worker now) t)
      fun t _ i held => update_spares held

theorem World.Inv.start : World.Inv ({} : World n) where
  tables := ⟨⟨List.nodup_nil, by simp⟩, List.nodup_nil, List.nodup_nil, by simp, by simp⟩
  sound _ := trivial
  issued i l held := by cases held
  apart i l held := by cases held

end World

end DistCompile.Sessions
