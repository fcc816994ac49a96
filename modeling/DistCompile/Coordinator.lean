import DistCompile.Db
import DistCompile.Graph
import DistCompile.Lib.Run

/-!
The coordinator's operations, each as one atomic transaction
(`CoordinatorService` in `src/coordinator.cpp`).

`SubmitBuild` validates the graph, resolves what it can from the cache in
dependency order and inserts the build. `ClaimTask`, `Heartbeat` and the reaper
are single updates. `CompleteTask` runs its statements in one go. A label of
`Step` is a whole call with its reply, so a run is a log of what clients and
workers saw.

The database clock and the partition looked up for a worker are arguments of the
calls. A call that throws is rolled back; the serial counters are not. A claim of a
task whose kind has no name does not return: the coordinator goes down with the row
claimed (`Step.claimCrash`), and comes back over the same tables.
-/

namespace DistCompile

open DistCompile.Graph

/-! ### The blob store -/

/-- The files of the blob store, by the hash they are filed under (`Cas`). -/
abbrev Blobs := List (Str × Str)

/-- `Cas::has`. -/
def Blobs.has (blobs : Blobs) (hash : Str) : Bool :=
  validHash hash && blobs.any fun f => f.1 = hash

/-- `Cas::size_of`. -/
def Blobs.sizeOf (blobs : Blobs) (hash : Str) : Int :=
  if blobs.has hash then ((blobs.find? fun f => f.1 = hash).map fun f => (f.2.length : Int)).getD (-1)
  else -1

/-- `Cas::put`: refused when `expect` is given and wrong, nothing to do when the
blob is there already. -/
def Blobs.put (H : Sha256) (blobs : Blobs) (data expect : Str) : Option Blobs :=
  if expect ≠ [] ∧ expect ≠ H.hex data then none
  else if blobs.has (H.hex data) then some blobs
  else some (blobs ++ [(H.hex data, data)])

/-! ### SubmitBuild -/

/-- `TaskSpec`. -/
structure TaskSpec where
  id : Int
  kind : TaskKind
  name : Str
  deps : List Int := []
  key : Str := []
  input : Str := []
  args : List Str := []
  cost : Int := 0
deriving DecidableEq, Repr

/-- `BuildSpec`. -/
structure BuildSpec where
  toolchain : Str
  tasks : List TaskSpec
  partitions : Int := 0
deriving DecidableEq, Repr

/-- The dependencies of a task as indices; the order is the spec's. -/
def TaskSpec.depIds (ts : TaskSpec) : List Nat := ts.deps.map Int.toNat

/-- The graph behind a spec. -/
def BuildSpec.graph (spec : BuildSpec) : List GraphTask :=
  spec.tasks.map fun ts => ⟨ts.id, ts.kind, ts.cost, ts.deps⟩

/-- Error replies. -/
inductive Status where
  | invalidArgument (message : Str)
  | failedPrecondition (message : Str)
  | unavailable
deriving DecidableEq, Repr

/-- One entry of the vectors `state`, `output`, `key`, `inputs`, `names` and
`pending` of `submit`. -/
structure Resolved where
  state : TaskState := .waiting
  output : Str := []
  key : Str := []
  inputs : Str := []
  names : Str := []
  pending : Nat := 0
deriving DecidableEq, Repr

/-- The variables of the dependency-order walk. -/
structure Walk where
  row : Nat → Resolved
  hits : Str → Option Str
  cached : Nat

/-- The name task `d` of the spec gives its output on the worker. -/
def BuildSpec.flatNameOf (spec : BuildSpec) (d : Nat) : Str :=
  flatName ((spec.tasks[d]?.map (·.name)).getD [])

/-- The part of one iteration before the cache is consulted: the outputs known so
far, the number of those missing, and the key if there is one. -/
def resolveInputs (H : Sha256) (spec : BuildSpec) (row : Nat → Resolved) (ts : TaskSpec) : Resolved :=
  let known := ts.depIds.filter fun d => (row d).output ≠ []
  let inputs := known.map fun d => (row d).output
  let names := known.map spec.flatNameOf
  let pending := ts.depIds.countP fun d => (row d).output = []
  if ts.kind = COMPILE then
    { key := ts.key, inputs := ts.input, names := "in.i".toList, pending }
  else if pending = 0 then
    { key := actionKey H ts.kind spec.toolchain (joinLines ts.args) names inputs
      inputs := joinLines inputs, names := joinLines names, pending }
  else { pending }

/-- One iteration of the walk in `submit`. -/
def walkTask (H : Sha256) (has : Str → Bool) (cache : Str → Option Str) (spec : BuildSpec)
    (w : Walk) (id : Nat) : Except Status Walk :=
  match spec.tasks[id]? with
  | none => .ok w
  | some ts =>
      let r := resolveInputs H spec w.row ts
      let depsKnown := r.pending = 0
      -- `cache_get`, for archive and link keys not looked up before
      let hits := if ts.kind ≠ COMPILE ∧ depsKnown ∧ (w.hits r.key).isNone
        then Function.update w.hits r.key (cache r.key) else w.hits
      match (if r.key = [] then none else hits r.key) with
      | some output =>
          .ok ⟨Function.update w.row id { r with state := .cached, output }, hits, w.cached + 1⟩
      | none =>
          if depsKnown then
            if ts.kind = COMPILE ∧ has ts.input = false then
              .error (.failedPrecondition
                ("input of ".toList ++ ts.name ++ " not uploaded".toList))
            else .ok ⟨Function.update w.row id { r with state := .ready }, hits, w.cached⟩
          else .ok ⟨Function.update w.row id { r with state := .waiting }, hits, w.cached⟩

/-- `cache_lookup`: the compile keys of the spec that the cache knows. -/
def lookupCompileKeys (cache : Str → Option Str) (spec : BuildSpec) : Str → Option Str :=
  fun key => if spec.tasks.any fun ts => ts.kind = COMPILE && ts.key = key then cache key else none

/-- The walk over the whole order. -/
def walk (H : Sha256) (has : Str → Bool) (cache : Str → Option Str) (spec : BuildSpec)
    (order : List Nat) : Except Status Walk :=
  order.foldlM (walkTask H has cache spec) ⟨fun _ => {}, lookupCompileKeys cache spec, 0⟩

/-- The row `insert_tasks` makes of task `id`; a new row has no attempt, lease or log. -/
def insertedTask (spec : BuildSpec) (rank part : Nat → Int) (build uid : Nat) (row : Nat → Resolved)
    (ts : TaskSpec) (id : Nat) : TaskRow where
  uid := uid
  buildId := build
  id := id
  kind := ts.kind
  name := ts.name
  key := emptyIsNull (row id).key
  input := emptyIsNull ts.input
  args := joinLines ts.args
  inputs := emptyIsNull (row id).inputs
  inputNames := emptyIsNull (row id).names
  toolchain := spec.toolchain
  cost := ts.cost
  priority := rank id
  part := part id
  state := (row id).state
  pendingDeps := (row id).pending
  output := emptyIsNull (row id).output

/-- The rows of `insert_tasks`, with consecutive uids. -/
def insertedTasks (spec : BuildSpec) (rank part : Nat → Int) (build uid : Nat)
    (row : Nat → Resolved) : List TaskRow :=
  spec.tasks.zipIdx.map fun (ts, id) => insertedTask spec rank part build (uid + id) row ts id

/-- The rows of `insert_deps`. -/
def insertedDeps (spec : BuildSpec) (build : Nat) : List TaskDep :=
  spec.tasks.zipIdx.flatMap fun (ts, id) =>
    ts.depIds.zipIdx.map fun (d, pos) => ⟨build, id, d, pos⟩

/-- `kind` is sent as `smallint[]`. -/
def smallint (n : Int) : Prop := -32768 ≤ n ∧ n ≤ 32767

instance (n : Int) : Decidable (smallint n) := by unfold smallint; infer_instance

/-- `maybe_finish`, run in one go: two statements at most. -/
def Db.maybeFinish (db : Db) (H : Sha256) (o : Options) (build : Nat) : Db :=
  ((run H o 2 ⟨db, DistCompile.maybeFinish build, []⟩).map (·.db)).getD db

/-- The inserts at the end of `submit`. -/
def insertRows (db : Db) (spec : BuildSpec) (rank part : Nat → Int) (w : Walk) : Db :=
  let hitKeys := (List.range spec.tasks.length).filterMap fun i =>
    if (w.row i).state = .cached then some (w.row i).key else none
  { builds := db.builds ++ [⟨db.nextBuild, spec.toolchain, .running, spec.tasks.length⟩]
    tasks := db.tasks ++ insertedTasks spec rank part db.nextBuild db.nextUid w.row
    deps := db.deps ++ insertedDeps spec db.nextBuild
    cache := db.cache.map fun c => if c.key ∈ hitKeys then { c with hits := c.hits + 1 } else c
    nextBuild := db.nextBuild + 1
    nextUid := db.nextUid + spec.tasks.length }

/-- `submit`: the new build id and the number of tasks found in the cache, or
the reason for the rollback. Either way the counters have moved on, that of the tasks
unless a kind does not fit: the insert then fails before it draws a number. -/
def submit (H : Sha256) (o : Options) (has : Str → Bool) (db : Db) (spec : BuildSpec)
    (order : List Nat) (rank part : Nat → Int) : Db × Except Status (Nat × Nat) :=
  match walk H has (fun key => (db.cached? key).map (·.output)) spec order with
  | .error e => ({ db with nextBuild := db.nextBuild + 1 }, .error e)
  | .ok w =>
      if ¬ ∀ ts ∈ spec.tasks, smallint ts.kind then
        ({ db with nextBuild := db.nextBuild + 1 }, .error .unavailable)
      else if ((insertedDeps spec db.nextBuild).map TaskDep.primaryKey).Nodup then
        ((insertRows db spec rank part w).maybeFinish H o db.nextBuild, .ok (db.nextBuild, w.cached))
      else
        ({ db with nextBuild := db.nextBuild + 1, nextUid := db.nextUid + spec.tasks.length },
          .error .unavailable)

/-- The first check of `submit_build`. -/
def badCompileTask (spec : BuildSpec) : Option TaskSpec :=
  spec.tasks.find? fun ts => ts.kind = COMPILE && !(validHash ts.key && validHash ts.input)

/-- `submit_build`; `live` is what `live_partitions()` returned. -/
def submitBuild (H : Sha256) (o : Options) (has : Str → Bool) (db : Db) (live : Int)
    (spec : BuildSpec) : Db × Except Status (Nat × Nat) :=
  match badCompileTask spec with
  | some ts => (db, .error (.invalidArgument
      ("compile task ".toList ++ ts.name ++ " needs a key and an input".toList)))
  | none => match topoOrder spec.graph with
    | .error message => (db, .error (.invalidArgument message))
    | .ok order =>
        submit H o has db spec order (upwardRank spec.graph)
          (partition spec.graph (if 0 < spec.partitions then spec.partitions else live))

/-! ### ClaimTask -/

/-- `Assignment`. -/
structure Assignment where
  taskUid : Nat
  attempt : Nat
  kind : TaskKind
  name : Str
  inputs : List Str
  inputNames : List Str
  args : List Str
deriving DecidableEq, Repr

/-- Microseconds in a second. -/
def second : Int := 1000000

/-- The `WHERE` of the claim query, without the partition: ready, same toolchain,
and not failed by this worker within the last three seconds. -/
def claimable (worker toolchain : Str) (now : Int) (t : TaskRow) : Bool :=
  t.state = .ready && t.toolchain = toolchain &&
    (t.lastFailedBy ≠ some worker || t.readyAt.any fun at_ => at_ < now - 3 * second)

/-- The rows the claim query chooses from: `claim_own`, else `claim_steal`. -/
def claimCandidates (db : Db) (worker toolchain : Str) (part now : Int) : List TaskRow :=
  let own := db.tasks.filter fun t => claimable worker toolchain now t && t.part = part
  if own.isEmpty then db.tasks.filter (claimable worker toolchain now) else own

/-- `ORDER BY priority DESC LIMIT 1`: ties are broken as the index happens to. -/
def Picked (candidates : List TaskRow) (t : TaskRow) : Prop :=
  t ∈ candidates ∧ ∀ u ∈ candidates, u.priority ≤ t.priority

/-- The row as the claim leaves it. -/
def claimedRow (o : Options) (worker : Str) (now : Int) (t : TaskRow) : TaskRow :=
  { t with state := .running, leaseOwner := some worker, attempts := t.attempts + 1,
           leaseUntil := some (now + o.leaseS * second) }

/-- `kKindName`. -/
def kKindName : List Str := ["compile".toList, "archive".toList, "link".toList]

/-- `kKindName[kind]`, under which `try_claim` counts the claim; `none` is outside of the array. -/
def kindName (kind : TaskKind) : Option Str := if kind < 0 then none else kKindName[kind.toNat]?

/-- The assignment `try_claim` fills in from the returned columns, before it looks up the name of
the kind. -/
def assignmentOf (t : TaskRow) : Assignment where
  taskUid := t.uid
  attempt := t.attempts
  kind := t.kind
  name := t.name
  inputs := splitLines ((t.inputs.orElse fun _ => t.input).getD [])
  inputNames := splitLines (t.inputNames.getD "in.i".toList)
  args := splitLines t.args

/-! ### Heartbeat and reaper -/

/-- The `WHERE` of `heartbeat`. -/
def leasedTo (worker : Str) (t : TaskRow) : Bool :=
  t.leaseOwner = some worker && t.state = .running

/-- A row after `heartbeat`. -/
def heartbeatRow (o : Options) (worker : Str) (now : Int) (t : TaskRow) : TaskRow :=
  if leasedTo worker t then { t with leaseUntil := some (now + o.leaseS * second) } else t

/-- `heartbeat`: extend the leases the worker owns. -/
def heartbeat (o : Options) (db : Db) (worker : Str) (now : Int) : Db :=
  { db with tasks := db.tasks.map (heartbeatRow o worker now) }

/-- The `WHERE` of `reap`. -/
def leaseExpired (now : Int) (t : TaskRow) : Bool :=
  t.state = .running && t.leaseUntil.any fun until_ => until_ < now

/-- A row after `reap`: requeued, or given up. -/
def reapRow (o : Options) (now : Int) (t : TaskRow) : TaskRow :=
  if !leaseExpired now t then t else
  { t with state := requeue o t.attempts, leaseOwner := none, lastFailedBy := t.leaseOwner,
           readyAt := some now,
           log := if requeue o t.attempts = .failed then
             some ("gave up: lease expired ".toList ++ decimal t.attempts ++ " times".toList)
             else t.log }

/-- One pass of `reap_loop`: the update, then `maybe_finish` for every task given up. -/
def reap (H : Sha256) (o : Options) (db : Db) (now : Int) : Db :=
  let gaveUp := (db.tasks.filter fun t => leaseExpired now t && requeue o t.attempts = .failed).map
    (·.buildId)
  gaveUp.foldl (fun db build => db.maybeFinish H o build)
    { db with tasks := db.tasks.map (reapRow o now) }

/-! ### Runs -/

/-- What the coordinator keeps: the database and the blob store. -/
structure Coordinator where
  db : Db := {}
  blobs : Blobs := []

/-- Whether the guard of the first statement of a completion holds. -/
def accepts (db : Db) : List Stmt → Bool
  | .complete r _ :: _ => (db.task? r.taskUid).any fun t => t.state.open
  | .retry r _ :: _ => (db.task? r.taskUid).any fun t => t.state = .running && t.attempts = r.attempt
  | .fail r :: _ => (db.task? r.taskUid).any fun t => t.state.open
  | _ => false

/-- A call with its reply. -/
inductive Call where
  | putBlob (data expect : Str) (stored : Bool)
  | submitBuild (spec : BuildSpec) (live : Int) (reply : Except Status (Nat × Nat))
  | claimTask (worker toolchain : Str) (part now : Int) (reply : Option Assignment)
  /-- a claim that gets no reply, as the coordinator has gone down over it -/
  | claimCrash (worker toolchain : Str) (part now : Int) (taskUid : Nat)
  | completeTask (r : TaskResult) (now : Int) (accepted : Bool)
  | heartbeat (worker : Str) (now : Int)
  | reap (now : Int)

/-- One call, taken as one atomic transaction. -/
inductive Step (H : Sha256) (o : Options) : Coordinator → Call → Coordinator → Prop where
  | putBlob {c : Coordinator} {data expect : Str} {blobs : Blobs} :
      c.blobs.put H data expect = some blobs →
      Step H o c (.putBlob data expect true) { c with blobs }
  | putRefused {c : Coordinator} {data expect : Str} :
      c.blobs.put H data expect = none → Step H o c (.putBlob data expect false) c
  | submitBuild {c : Coordinator} {spec : BuildSpec} {live : Int} :
      Step H o c (.submitBuild spec live (submitBuild H o c.blobs.has c.db live spec).2)
        { c with db := (submitBuild H o c.blobs.has c.db live spec).1 }
  | claimTask {c : Coordinator} {worker toolchain : Str} {part now : Int} {t : TaskRow} :
      Picked (claimCandidates c.db worker toolchain part now) t → kindName t.kind ≠ none →
      Step H o c (.claimTask worker toolchain part now (some (assignmentOf (claimedRow o worker now t))))
        { c with db := c.db.apply (.task (claimedRow o worker now t)) }
  -- the update is committed when `kKindName` is read
  | claimCrash {c : Coordinator} {worker toolchain : Str} {part now : Int} {t : TaskRow} :
      Picked (claimCandidates c.db worker toolchain part now) t → kindName t.kind = none →
      Step H o c (.claimCrash worker toolchain part now t.uid)
        { c with db := c.db.apply (.task (claimedRow o worker now t)) }
  | claimNothing {c : Coordinator} {worker toolchain : Str} {part now : Int} :
      claimCandidates c.db worker toolchain part now = [] →
      Step H o c (.claimTask worker toolchain part now none) c
  | completeTask {c : Coordinator} {r : TaskResult} {now : Int} {fuel : Nat} {cfg : Cfg} :
      run H o fuel ⟨c.db, completeTask c.blobs.has c.blobs.sizeOf now r, []⟩ = some cfg →
      Step H o c (.completeTask r now
          (accepts c.db (completeTask c.blobs.has c.blobs.sizeOf now r)))
        { c with db := cfg.db }
  | heartbeat {c : Coordinator} {worker : Str} {now : Int} :
      Step H o c (.heartbeat worker now) { c with db := heartbeat o c.db worker now }
  | reap {c : Coordinator} {now : Int} :
      Step H o c (.reap now) { c with db := reap H o c.db now }

end DistCompile
