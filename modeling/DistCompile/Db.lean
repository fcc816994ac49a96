import DistCompile.Text

/-!
The coordinator's tables (`sql/schema.sql`) and the SQL statements of a
`CompleteTask` transaction (`src/coordinator.cpp`).

`CompleteTask`, `finished`, `make_ready` and `maybe_finish` are cut at their SQL
statements. A `Stmt` is one statement with the C++ values in scope when it is
issued; `exec` gives the row it writes and the statements the handler issues
next. The rest of the transaction is a stack of statements, so the mutual
recursion `finished -> make_ready -> finished` is the stack growing in front of
the countdowns that are still to come. How the statements of different
transactions interleave is not fixed here: running the stack in one go is the
atomic transaction (`run`), and `DistCompile.ReadCommitted` interleaves stacks.

Columns that no modelled function reads are left out: the timestamps
`created_at`, `finished_at` and `last_seen`.
-/

namespace DistCompile

/-! ### Rows -/

inductive TaskState where
  | waiting | ready | running | done | cached | failed
deriving DecidableEq, Repr

/-- `state IN ('done', 'cached')`: the task has its output. -/
def TaskState.finished : TaskState → Bool
  | .done | .cached => true
  | _ => false

/-- `state IN ('ready', 'running')`: a result for the task can still be accepted. -/
def TaskState.open : TaskState → Bool
  | .ready | .running => true
  | _ => false

inductive BuildState where
  | running | done | failed
deriving DecidableEq, Repr

/-- `TaskKind`. proto3 enums are open, so a message can carry any integer. -/
abbrev TaskKind := Int

def COMPILE : TaskKind := 0
def ARCHIVE : TaskKind := 1
def LINK : TaskKind := 2

/-- Table `tasks`; times are microseconds. -/
structure TaskRow where
  uid : Nat
  buildId : Nat
  id : Nat
  kind : TaskKind
  name : Str
  key : Option Str
  input : Option Str
  args : Str
  inputs : Option Str
  inputNames : Option Str
  toolchain : Str
  cost : Int
  priority : Int
  part : Int
  state : TaskState
  pendingDeps : Int
  attempts : Nat := 0
  leaseOwner : Option Str := none
  leaseUntil : Option Int := none
  output : Option Str
  log : Option Str := none
  execMs : Option Int := none
  lastFailedBy : Option Str := none
  readyAt : Option Int := none
deriving DecidableEq, Repr

/-- Table `builds`. -/
structure BuildRow where
  id : Nat
  toolchain : Str
  state : BuildState := .running
  total : Nat
deriving DecidableEq, Repr

/-- Table `task_deps`: `task` waits for `dep`. -/
structure TaskDep where
  build : Nat
  task : Nat
  dep : Nat
  pos : Nat
deriving DecidableEq, Repr

/-- `PRIMARY KEY (build_id, dep, task)`. -/
def TaskDep.primaryKey (d : TaskDep) : Nat × Nat × Nat := (d.build, d.dep, d.task)

/-- Table `cache`. -/
structure CacheRow where
  key : Str
  output : Str
  size : Int
  hits : Nat := 0
deriving DecidableEq, Repr

/-- The database: the tables and the two `BIGSERIAL` counters. -/
structure Db where
  builds : List BuildRow := []
  tasks : List TaskRow := []
  deps : List TaskDep := []
  cache : List CacheRow := []
  nextBuild : Nat := 1
  nextUid : Nat := 1
deriving DecidableEq, Repr

namespace Db

/-! ### Look-ups by primary key -/

def task? (db : Db) (uid : Nat) : Option TaskRow := db.tasks.find? fun r => r.uid = uid

def taskAt? (db : Db) (build id : Nat) : Option TaskRow :=
  db.tasks.find? fun r => r.buildId = build && r.id = id

def build? (db : Db) (id : Nat) : Option BuildRow := db.builds.find? fun b => b.id = id

def cached? (db : Db) (key : Str) : Option CacheRow := db.cache.find? fun c => c.key = key

/-! ### Queries of the completion statements -/

/-- `dependents`: the tasks waiting for `id`, `ORDER BY t.id`. -/
def dependents (db : Db) (build id : Nat) : List TaskRow :=
  ((db.deps.filter fun d => d.build = build && d.dep = id).insertionSort
    fun d e => d.task ≤ e.task).flatMap
    fun d => db.tasks.filter fun t => t.buildId = d.build && t.id = d.task

/-- `dep_outputs`: the dependencies of `id`, `ORDER BY d.pos`. -/
def inputsOf (db : Db) (build id : Nat) : List TaskRow :=
  ((db.deps.filter fun d => d.build = build && d.task = id).insertionSort
    fun d e => d.pos ≤ e.pos).flatMap
    fun d => db.tasks.filter fun t => t.buildId = d.build && t.id = d.dep

/-- First column of `progress`: `count(*) FILTER (WHERE state NOT IN ('done', 'cached'))`. -/
def left (db : Db) (build : Nat) : Nat :=
  db.tasks.countP fun t => t.buildId = build && !t.state.finished

/-- Second column of `progress`: `count(*) FILTER (WHERE state = 'failed')`. -/
def failed (db : Db) (build : Nat) : Nat :=
  db.tasks.countP fun t => t.buildId = build && t.state = .failed

end Db

/-! ### Writes -/

/-- One row as a statement leaves it. No statement of a completion writes more. -/
inductive Write where
  | task (row : TaskRow)
  | build (row : BuildRow)
  | cache (row : CacheRow)
deriving DecidableEq, Repr

/-- Put a row version in place of the one with the same primary key; a cache row
with a new key is an `INSERT`. -/
def Db.apply (db : Db) : Write → Db
  | .task row => { db with tasks := db.tasks.map fun r => if r.uid = row.uid then row else r }
  | .build row => { db with builds := db.builds.map fun b => if b.id = row.id then row else b }
  | .cache row =>
      if db.cache.any (fun c => c.key = row.key) then
        { db with cache := db.cache.map fun c => if c.key = row.key then row else c }
      else { db with cache := db.cache ++ [row] }

/-! ### Messages and options -/

/-- `Options` of the coordinator, as far as its statements use them. -/
structure Options where
  leaseS : Int := 20
  maxAttempts : Int := 3
deriving DecidableEq, Repr

/-- `TaskResult`, without the timings that only feed the statistics. -/
structure TaskResult where
  taskUid : Nat
  attempt : Nat
  worker : Str
  ok : Bool
  retryable : Bool
  output : Str
  log : Str
  execMs : Int
deriving DecidableEq, Repr

/-- `retry_copy`. -/
def retryCopy (r : TaskResult) (why : Str) : TaskResult :=
  { r with ok := false, retryable := true, log := why }

/-! ### Statements -/

/-- The statements of a `CompleteTask` transaction, named by their tags in the
source, with the C++ variables they use. -/
inductive Stmt where
  | complete (r : TaskResult) (size : Int)
  | cachePut (build id : Nat) (key output : Str) (size : Int)
  | retry (r : TaskResult) (now : Int)
  | fail (r : TaskResult)
  /-- first statement of `finished(c, build, id)` -/
  | dependents (build id : Nat)
  /-- the row locks `dependents` takes by `FOR UPDATE OF t`, one after the other -/
  | lockRow (uid : Nat)
  /-- loop body of `finished(c, build, id)` -/
  | countDown (build id uid : Nat)
  /-- first statement of `make_ready(c, build, id)` -/
  | taskInfo (build id : Nat)
  | depOutputs (build id : Nat) (kind : TaskKind) (args toolchain : Str)
  | cacheHit (build id : Nat) (key : Str) (names digests : List Str)
  | markCached (build id : Nat) (key output : Str)
  | markReady (build id : Nat) (key : Str) (names digests : List Str)
  /-- first statement of `maybe_finish(c, build)` -/
  | progress (build : Nat)
  | buildFailed (build : Nat)
  | buildDone (build : Nat)
deriving DecidableEq, Repr

/-- `finished(c, build, id)`. -/
def finished (build id : Nat) : List Stmt := [.dependents build id]

/-- `make_ready(c, build, id)`. -/
def makeReady (build id : Nat) : List Stmt := [.taskInfo build id]

/-- `maybe_finish(c, build)`. -/
def maybeFinish (build : Nat) : List Stmt := [.progress build]

/-- What a transaction learns from its statements: a countdown of the edge
`dep -> task` and the value `RETURNING pending_deps` gave, the rows of a
`dep_outputs` query, the two counts of a `progress` query. -/
inductive Event where
  | counted (build dep task : Nat) (left : Int)
  | inputs (build task : Nat) (rows : List (Str × Option Str))
  | progressed (build : Nat) (left failed : Nat)
deriving DecidableEq, Repr

/-- What a statement does: the row it writes, the statements that follow it
before those already due, and what it learned. -/
structure Outcome where
  write : Option Write := none
  next : List Stmt := []
  event : Option Event := none
deriving DecidableEq, Repr

/-- The state `retry` and `reap` leave a task in. -/
def requeue (o : Options) (attempts : Nat) : TaskState :=
  if (attempts : Int) ≥ o.maxAttempts then .failed else .ready

/-- One statement, on the rows `db` that it sees. -/
def exec (H : Sha256) (o : Options) (db : Db) : Stmt → Outcome
  | .complete r size =>
      match db.task? r.taskUid with
      | some t => if t.state.open then
          { write := some (.task { t with state := .done, output := some r.output,
                                          execMs := some r.execMs, leaseOwner := some r.worker })
            next := [.cachePut t.buildId t.id (t.key.getD []) r.output size] }
        else {}
      | none => {}
  | .cachePut build id key output size =>
      { write := if (db.cached? key).isSome then none else some (.cache ⟨key, output, size, 0⟩)
        next := finished build id }
  | .retry r now =>
      match db.task? r.taskUid with
      | some t => if t.state = .running ∧ t.attempts = r.attempt then
          { write := some (.task { t with state := requeue o t.attempts, leaseOwner := none,
                                          lastFailedBy := t.leaseOwner, readyAt := some now,
                                          log := some r.log })
            next := if requeue o t.attempts = .failed then maybeFinish t.buildId else [] }
        else {}
      | none => {}
  | .fail r =>
      match db.task? r.taskUid with
      | some t => if t.state.open then
          { write := some (.task { t with state := .failed, log := some r.log,
                                          execMs := some r.execMs })
            next := maybeFinish t.buildId }
        else {}
      | none => {}
  | .dependents build id =>
      { next := (db.dependents build id).map (fun t => .lockRow t.uid) ++
          (db.dependents build id).map (fun t => .countDown build id t.uid) ++
          if (db.dependents build id).isEmpty then maybeFinish build else [] }
  | .lockRow _ => {}
  | .countDown build id uid =>
      match db.task? uid with
      | some t =>
          { write := some (.task { t with pendingDeps := t.pendingDeps - 1 })
            next := if t.pendingDeps - 1 = 0 then makeReady build t.id else []
            event := some (.counted build id t.id (t.pendingDeps - 1)) }
      | none => {}
  | .taskInfo build id =>
      match db.taskAt? build id with
      | some t => { next := [.depOutputs build id t.kind t.args t.toolchain] }
      | none => {}
  | .depOutputs build id kind args toolchain =>
      -- a NULL output reads as the empty string (`PQgetvalue`)
      let names := (db.inputsOf build id).map fun t => flatName t.name
      let digests := (db.inputsOf build id).map fun t => t.output.getD []
      { next := [.cacheHit build id (actionKey H kind toolchain args names digests) names digests]
        event := some (.inputs build id ((db.inputsOf build id).map fun t => (t.name, t.output))) }
  | .cacheHit build id key names digests =>
      match db.cached? key with
      | some c => { write := some (.cache { c with hits := c.hits + 1 })
                    next := [.markCached build id key c.output] }
      | none => { next := [.markReady build id key names digests] }
  | .markCached build id key output =>
      match db.taskAt? build id with
      | some t => { write := some (.task { t with state := .cached, key := some key,
                                                  output := some output })
                    next := finished build id }
      | none => {}
  | .markReady build id key names digests =>
      match db.taskAt? build id with
      | some t => { write := some (.task { t with state := .ready, key := some key,
                                                  inputs := some (joinLines digests),
                                                  inputNames := some (joinLines names) }) }
      | none => {}
  | .progress build =>
      { next := if 0 < db.failed build then [.buildFailed build]
          else if db.left build = 0 then [.buildDone build] else []
        event := some (.progressed build (db.left build) (db.failed build)) }
  | .buildFailed build =>
      match db.build? build with
      | some b => if b.state = .running then { write := some (.build { b with state := .failed }) }
        else {}
      | none => {}
  | .buildDone build =>
      match db.build? build with
      | some b => if b.state = .running then { write := some (.build { b with state := .done }) }
        else {}
      | none => {}

/-! ### A transaction run in one go -/

/-- A transaction under way: the rows it sees, the statements still to issue,
and what it has learned so far, oldest first. -/
structure Cfg where
  db : Db
  stack : List Stmt
  trace : List Event := []
deriving DecidableEq, Repr

/-- The rows after a statement. -/
def Outcome.db (out : Outcome) (db : Db) : Db := out.write.elim db db.apply

/-- After a statement, with `rest` below it on the stack. -/
def Cfg.after (c : Cfg) (out : Outcome) (rest : List Stmt) : Cfg :=
  ⟨out.db c.db, out.next ++ rest, c.trace ++ out.event.toList⟩

/-- The statement on top of the stack is executed. -/
def Cfg.step (H : Sha256) (o : Options) (c : Cfg) : Option Cfg :=
  match c.stack with
  | [] => none
  | s :: rest => some (c.after (exec H o c.db s) rest)

/-- Run the whole stack; `none` when it takes more than `fuel` statements. -/
def run (H : Sha256) (o : Options) : Nat → Cfg → Option Cfg
  | 0, c => if c.stack = [] then some c else none
  | fuel + 1, c => match c.step H o with
    | none => some c
    | some c' => run H o fuel c'

/-- The body of the transaction that `CompleteTask` opens for `r`. `has` and
`sizeOf` are the blob store's answers: an ok result whose blob never arrived is
handled as a retryable failure. -/
def completeTask (has : Str → Bool) (sizeOf : Str → Int) (now : Int) (r : TaskResult) : List Stmt :=
  if r.ok && !has r.output then [.retry (retryCopy r "output blob missing".toList) now]
  else if r.ok then [.complete r (sizeOf r.output)]
  else if r.retryable then [.retry r now]
  else [.fail r]

end DistCompile
