import DistCompile.Finish
import DistCompile.Serve

/-!
One `SubmitBuild` call of a client, executed more than once (`with_retry` in `src/rpc.h`).

A reply that is lost, or a deadline that passes after the commit, makes the client send the
request again, and nothing in it tells the coordinator that it has seen it before. A
`Session` follows the executions of one call between any other calls. Each of them that
finds the spec acceptable makes a build of its own.
-/

namespace DistCompile

open DistCompile.Lib DistCompile.Graph

/-! ### When a spec is accepted -/

section Accepted

variable {H : Sha256} {has : Str → Bool} {cache : Str → Option Str} {spec : BuildSpec}

/-- The compile tasks that the walk makes ready have their inputs in the blob store. -/
def inputsUploaded (H : Sha256) (has : Str → Bool) (cache : Str → Option Str) (spec : BuildSpec)
    (order : List Nat) : Bool :=
  match walk H (fun _ => true) cache spec order with
  | .ok w => spec.tasks.zipIdx.all fun (ts, id) =>
      !(ts.kind = COMPILE && (w.row id).state = .ready) || has ts.input
  | .error _ => false

/-- What `submit_build` asks of a spec: keys and inputs of compile tasks that are digests, a
graph with a topological order, kinds that fit their column, no dependency listed twice, and
uploaded inputs. -/
def acceptable (H : Sha256) (spec : BuildSpec) (c : Coordinator) : Bool :=
  (badCompileTask spec).isNone && spec.tasks.all (fun ts => smallint ts.kind) &&
    spec.tasks.all (fun ts => ts.depIds.Nodup) &&
    match topoOrder spec.graph with
    | .ok order => inputsUploaded H c.blobs.has (fun key => (c.db.cached? key).map (·.output)) spec order
    | .error _ => false

/-- An iteration writes the row of its own task. -/
theorem walkTask_other {w w' : Walk} {i id : Nat} (ran : walkTask H has cache spec w i = .ok w')
    (other : id ≠ i) : w'.row id = w.row id := by
  cases walkTask_visits ran with
  | outside => rfl
  | cached | ready | waiting => exact Function.update_of_ne other ..

/-- The only thing an iteration asks the blob store for is the input of a compile task it
makes ready. -/
theorem walkTask_ok {w w' : Walk} {id : Nat} :
    walkTask H has cache spec w id = .ok w' ↔
      walkTask H (fun _ => true) cache spec w id = .ok w' ∧
        ∀ ts, spec.tasks[id]? = some ts → ts.kind = COMPILE → (w'.row id).state = .ready →
          has ts.input = true := by
  unfold walkTask
  split
  · rename_i missing
    simp [missing]
  · rename_i ts found
    dsimp only
    split
    · constructor
      · intro same
        cases same
        refine ⟨rfl, fun _ _ _ ready => ?_⟩
        dsimp only at ready
        rw [Function.update_self] at ready
        cases ready
      · exact And.left
    · by_cases known : (resolveInputs H spec w.row ts).pending = 0
      · rw [if_pos known, if_pos known]
        simp only [Bool.true_eq_false, and_false, if_false]
        by_cases compile : ts.kind = COMPILE
        · cases uploaded : has ts.input with
          | false =>
            simp only [compile, true_and, if_true, reduceCtorEq, false_iff, not_and]
            intro same needed
            cases same
            have there := needed ts found compile (by dsimp only; rw [Function.update_self])
            rw [uploaded] at there
            cases there
          | true =>
            rw [if_neg (by simp)]
            refine ⟨fun same => ⟨same, fun ts' found' _ _ => ?_⟩, And.left⟩
            rw [found] at found'
            cases found'
            exact uploaded
        · rw [if_neg (by simp [compile])]
          refine ⟨fun same => ⟨same, fun ts' found' compile' _ => ?_⟩, And.left⟩
          rw [found] at found'
          cases found'
          exact absurd compile' compile
      · rw [if_neg known, if_neg known]
        constructor
        · intro same
          cases same
          refine ⟨rfl, fun _ _ _ ready => ?_⟩
          dsimp only at ready
          rw [Function.update_self] at ready
          cases ready
        · exact And.left

/-- Nor does the whole walk. -/
theorem foldlM_walkTask_ok {order : List Nat} (nodup : order.Nodup) {w w' : Walk} :
    order.foldlM (walkTask H has cache spec) w = .ok w' ↔
      order.foldlM (walkTask H (fun _ => true) cache spec) w = .ok w' ∧
        ∀ id ∈ order, ∀ ts, spec.tasks[id]? = some ts → ts.kind = COMPILE →
          (w'.row id).state = .ready → has ts.input = true := by
  induction order generalizing w with
  | nil => simp
  | cons i rest ih =>
    obtain ⟨fresh, nodup⟩ := List.nodup_cons.mp nodup
    -- what the rest of the walk does leaves the row of `i`
    have stays : ∀ {v : Walk}, rest.foldlM (walkTask H (fun _ => true) cache spec) v = .ok w' →
        w'.row i = v.row i := fun {v} ran =>
      foldlM_ok (P := fun u : Walk => u.row i = v.row i)
        (fun {_ _ j} member same next =>
          (walkTask_other next fun here : i = j => fresh (here ▸ member)).trans same) rfl ran
    constructor
    · intro ran
      obtain ⟨v, first, after⟩ := foldlM_cons_ok ran
      obtain ⟨first', needed⟩ := walkTask_ok.mp first
      obtain ⟨after', rest'⟩ := (ih nodup).mp after
      refine ⟨by rw [List.foldlM_cons, first']; exact after', fun id member ts found compile ready => ?_⟩
      rcases List.mem_cons.mp member with rfl | later
      · exact needed ts found compile (stays after' ▸ ready)
      · exact rest' id later ts found compile ready
    · rintro ⟨ran, needed⟩
      obtain ⟨v, first, after⟩ := foldlM_cons_ok ran
      have first' := walkTask_ok.mpr ⟨first, fun ts found compile ready =>
        needed i (by simp) ts found compile (stays after ▸ ready)⟩
      have after' := (ih nodup).mpr ⟨after, fun id member => needed id (List.mem_cons_of_mem i member)⟩
      rw [List.foldlM_cons, first']
      exact after'

theorem walk_isOk {order : List Nat} (topo : IsTopoOrder spec.graph order) :
    (∃ w, walk H has cache spec order = .ok w) ↔ inputsUploaded H has cache spec order = true := by
  have nodup : order.Nodup := topo.perm.nodup_iff.mpr List.nodup_range
  have everywhere : ∀ {id : Nat} {ts : TaskSpec}, spec.tasks[id]? = some ts → id ∈ order := by
    intro id ts found
    refine topo.perm.mem_iff.mpr (List.mem_range.mpr ?_)
    rw [BuildSpec.graph, List.length_map]
    exact (List.getElem?_eq_some_iff.mp found).1
  simp only [walk, inputsUploaded]
  rw [exists_congr fun w => foldlM_walkTask_ok nodup]
  cases ran : order.foldlM (walkTask H (fun _ => true) cache spec)
      ⟨fun _ => {}, lookupCompileKeys cache spec, 0⟩ with
  | error e => simp
  | ok w =>
    simp only [Except.ok.injEq, List.all_eq_true, Prod.forall, List.mk_mem_zipIdx_iff_getElem?,
      Bool.or_eq_true, Bool.not_eq_true', Bool.and_eq_false_imp, decide_eq_true_eq, decide_eq_false_iff_not]
    constructor
    · rintro ⟨_, rfl, needed⟩ ts id found
      by_cases ready : ts.kind = COMPILE ∧ (w.row id).state = .ready
      · exact Or.inr (needed id (everywhere found) ts found ready.1 ready.2)
      · exact Or.inl fun compile state => ready ⟨compile, state⟩
    · intro needed
      refine ⟨w, rfl, fun id _ ts found compile ready => ?_⟩
      exact (needed ts id found).resolve_left fun unready => unready compile ready

/-- The edges of a spec are keyed when no task lists a dependency twice. -/
theorem insertedDeps_nodup (spec : BuildSpec) (build : Nat) :
    ((insertedDeps spec build).map TaskDep.primaryKey).Nodup ↔ ∀ ts ∈ spec.tasks, ts.depIds.Nodup := by
  have keys : (insertedDeps spec build).map TaskDep.primaryKey =
      spec.tasks.zipIdx.flatMap fun p => p.1.depIds.map fun d => (build, d, p.2) := by
    rw [insertedDeps, List.map_flatMap]
    refine List.flatMap_congr fun p _ => ?_
    rw [List.map_map, ← List.zipIdx_map_fst 0 p.1.depIds, List.map_map, List.zipIdx_map_fst]
    rfl
  have inj : ∀ p : TaskSpec × Nat, Function.Injective fun d : Nat => (build, d, p.2) :=
    fun p a b same => by simpa using same
  rw [keys, List.nodup_flatMap]
  constructor
  · rintro ⟨each, -⟩ ts member
    obtain ⟨id, found⟩ := List.getElem?_of_mem member
    exact (List.nodup_map_iff (inj (ts, id))).mp
      (each (ts, id) (List.mk_mem_zipIdx_iff_getElem?.mpr found))
  · intro each
    refine ⟨fun p member => (List.nodup_map_iff (inj p)).mpr
      (each p.1 (List.fst_mem_of_mem_zipIdx member)), ?_⟩
    have apart : (spec.tasks.zipIdx.map Prod.snd).Nodup := by
      rw [List.zipIdx_map_snd]
      exact List.nodup_range'
    refine (List.pairwise_map.mp apart).imp fun {p q} differ => ?_
    rw [Function.onFun, List.disjoint_left]
    intro key here there
    obtain ⟨d, -, rfl⟩ := List.mem_map.mp here
    obtain ⟨e, -, same⟩ := List.mem_map.mp there
    simp only [Prod.mk.injEq] at same
    exact differ same.2.2.symm

/-- A submit is accepted exactly when the spec is acceptable. -/
theorem submitBuild_accepts {o : Options} {c : Coordinator} {live : Int} :
    (∃ reply, (submitBuild H o c.blobs.has c.db live spec).2 = .ok reply) ↔ acceptable H spec c = true := by
  unfold submitBuild acceptable
  cases bad : badCompileTask spec with
  | some ts => simp
  | none =>
    cases order : topoOrder spec.graph with
    | error e => simp
    | ok order' =>
      have checked : (∃ w, walk H c.blobs.has (fun key => (c.db.cached? key).map (·.output)) spec order' =
          .ok w) ↔ _ := walk_isOk (topoOrder_ok order)
      simp only [Option.isNone_none, Bool.true_and, Bool.and_eq_true, List.all_eq_true, decide_eq_true_eq,
        submit, ← checked, ← insertedDeps_nodup spec c.db.nextBuild]
      cases ran : walk H c.blobs.has (fun key => (c.db.cached? key).map (·.output)) spec order' with
      | error e => simp
      | ok w =>
        simp only
        by_cases kinds : ∀ ts ∈ spec.tasks, smallint ts.kind
        · rw [if_neg (not_not.mpr kinds)]
          by_cases keys : ((insertedDeps spec c.db.nextBuild).map TaskDep.primaryKey).Nodup
          · rw [if_pos keys]
            simp [keys]
            exact kinds
          · rw [if_neg keys]
            simp [keys]
        · rw [if_pos kinds]
          simp [kinds]

end Accepted

/-! ### Ids of builds -/

section Ids

variable {H : Sha256} {o : Options} {db db' : Db}

/-- The builds are the same, as far as their ids go. -/
def SameIds (db db' : Db) : Prop :=
  db'.builds.map BuildRow.id = db.builds.map BuildRow.id ∧ db'.nextBuild = db.nextBuild

theorem run_sameIds {fuel : Nat} {stack : List Stmt} {c : Cfg}
    (ran : run H o fuel ⟨db, stack, []⟩ = some c) : SameIds db c.db := by
  refine (run_induction (P := fun c => SameIds db c.db) (fun {c s rest} same _ => ?_) ran ⟨rfl, rfl⟩).1
  refine ⟨(exec_ids H o c.db s).trans same.1, Eq.trans ?_ same.2⟩
  show ((exec H o c.db s).db c.db).nextBuild = c.db.nextBuild
  rcases write : (exec H o c.db s).write with _ | row | row | row
  · rw [Outcome.db, write]
    rfl
  · rw [Outcome.db, write]
    rfl
  · rw [Outcome.db, write]
    rfl
  · rw [Outcome.db, write]
    exact congrArg Prod.fst (c.db.apply_cache_serials row)

theorem maybeFinish_sameIds (build : Nat) : SameIds db (db.maybeFinish H o build) :=
  maybeFinish_induction (P := SameIds db) ⟨rfl, rfl⟩ run_sameIds

/-- A build that is made takes the next id. -/
def NextId (db db' : Db) : Prop :=
  db'.builds.map BuildRow.id = db.builds.map BuildRow.id ++ [db.nextBuild] ∧ db'.nextBuild = db.nextBuild + 1

theorem submitBuild_ids {has : Str → Bool} {live : Int} {spec : BuildSpec} {build cached : Nat}
    (ran : submitBuild H o has db live spec = (db', .ok (build, cached))) :
    build = db.nextBuild ∧ NextId db db' := by
  obtain ⟨-, rfl, order, rank, part, w, -, -, -, rfl⟩ := submitBuild_ok ran
  obtain ⟨ids, next⟩ : SameIds (insertRows db spec rank part w) _ :=
    maybeFinish_sameIds (H := H) (o := o) db.nextBuild
  exact ⟨rfl, by rw [ids]; simp [insertRows], next⟩

theorem Step.buildIds {c c' : Coordinator} {call : Call} (step : Step H o c call c') :
    NextId c.db c'.db ∨
      c'.db.builds.map BuildRow.id = c.db.builds.map BuildRow.id ∧ c.db.nextBuild ≤ c'.db.nextBuild := by
  have same : ∀ {db'}, SameIds c.db db' → NextId c.db db' ∨
      db'.builds.map BuildRow.id = c.db.builds.map BuildRow.id ∧ c.db.nextBuild ≤ db'.nextBuild :=
    fun h => Or.inr ⟨h.1, h.2.ge⟩
  cases step with
  | putBlob _ => exact same ⟨rfl, rfl⟩
  | putRefused _ => exact same ⟨rfl, rfl⟩
  | @submitBuild spec live =>
    rcases ran : DistCompile.submitBuild H o c.blobs.has c.db live spec with ⟨db', e | ⟨build, cached⟩⟩
    · obtain ⟨builds, uids, rfl⟩ := submitBuild_error ran
      exact Or.inr ⟨rfl, Nat.le_add_right _ _⟩
    · exact Or.inl (submitBuild_ids ran).2
  | claimTask _ _ | claimCrash _ _ => exact same ⟨rfl, rfl⟩
  | claimNothing _ => exact same ⟨rfl, rfl⟩
  | completeTask ran => exact same (run_sameIds ran)
  | heartbeat => exact same ⟨rfl, rfl⟩
  | reap =>
    refine same (reap_induction (P := fun db => SameIds c.db db) (fun {db} build h => ?_) ⟨rfl, rfl⟩)
    obtain ⟨ids, next⟩ : SameIds db (db.maybeFinish H o build) := maybeFinish_sameIds build
    exact ⟨ids.trans h.1, next.trans h.2⟩

end Ids

/-! ### Deliveries of one call -/

/-- The coordinator, the states that the executions of the call found, and their replies. -/
structure Session where
  c : Coordinator := {}
  found : List Coordinator := []
  replies : List (Except Status (Nat × Nat)) := []

/-- The request is executed once more. -/
def Session.execute (H : Sha256) (o : Options) (spec : BuildSpec) (live : Int) (s : Session) : Session where
  c := { s.c with db := (submitBuild H o s.c.blobs.has s.c.db live spec).1 }
  found := s.found ++ [s.c]
  replies := s.replies ++ [(submitBuild H o s.c.blobs.has s.c.db live spec).2]

/-- The request is executed; or its transaction is rolled back and only the counters have
moved; or something else happens. -/
inductive Delivery where
  | execute (live : Int)
  | rollback (builds uids : Nat)
  | other (call : Call)

inductive Session.Step (H : Sha256) (o : Options) (spec : BuildSpec) : Session → Delivery → Session → Prop where
  | execute {s : Session} {live : Int} :
      Session.Step H o spec s (.execute live) (s.execute H o spec live)
  | rollback {s : Session} {builds uids : Nat} :
      Session.Step H o spec s (.rollback builds uids)
        { s with c := { s.c with db := { s.c.db with nextBuild := s.c.db.nextBuild + builds,
                                                     nextUid := s.c.db.nextUid + uids } } }
  | other {s : Session} {call : Call} {c' : Coordinator} :
      DistCompile.Step H o s.c call c' → Session.Step H o spec s (.other call) { s with c := c' }

/-- The build a reply names. -/
def builtBy : Except Status (Nat × Nat) → Option Nat
  | .ok (build, _) => some build
  | .error _ => none

/-- The builds made for the call. -/
def Session.made (s : Session) : List Nat := s.replies.filterMap builtBy

/-- The tables have exactly one build for the call, so its tasks are in one build only. -/
structure Session.Once (s : Session) : Prop where
  build : ∃! b, b ∈ s.c.db.builds ∧ b.id ∈ s.made
  tasks : ∀ t ∈ s.c.db.tasks, ∀ u ∈ s.c.db.tasks, t.buildId ∈ s.made → u.buildId ∈ s.made →
    t.buildId = u.buildId

section Sessions

variable {H : Sha256} {o : Options} {spec : BuildSpec} {s s' : Session} {d : Delivery}

/-- What is kept: every acceptable delivery has made a build with an id of its own. -/
structure Session.Tracked (H : Sha256) (spec : BuildSpec) (s : Session) : Prop where
  ids : (s.c.db.builds.map BuildRow.id).Nodup
  fresh : ∀ id ∈ s.c.db.builds.map BuildRow.id, id < s.c.db.nextBuild
  made : List.Sublist s.made (s.c.db.builds.map BuildRow.id)
  count : s.made.length = s.found.countP (acceptable H spec)

/-- Tables in which only the counters may have moved. -/
theorem Session.Tracked.same {c' : Coordinator} (tracked : s.Tracked H spec)
    (ids : c'.db.builds.map BuildRow.id = s.c.db.builds.map BuildRow.id)
    (next : s.c.db.nextBuild ≤ c'.db.nextBuild) : Session.Tracked H spec { s with c := c' } where
  ids := ids ▸ tracked.ids
  fresh id member := lt_of_lt_of_le (tracked.fresh id (ids ▸ member)) next
  made := ids ▸ tracked.made
  count := tracked.count

/-- The next id is a new one. -/
theorem NextId.fresh {db db' : Db} (next : NextId db db') (nodup : (db.builds.map BuildRow.id).Nodup)
    (below : ∀ id ∈ db.builds.map BuildRow.id, id < db.nextBuild) :
    (db'.builds.map BuildRow.id).Nodup ∧ ∀ id ∈ db'.builds.map BuildRow.id, id < db'.nextBuild := by
  obtain ⟨ids, counter⟩ := next
  rw [ids, counter]
  constructor
  · refine List.nodup_append.mpr ⟨nodup, List.nodup_singleton _, fun a ha b hb same => ?_⟩
    have old := below a ha
    rw [same, List.mem_singleton.mp hb] at old
    exact lt_irrefl _ old
  · intro id member
    rcases List.mem_append.mp member with old | new
    · exact Nat.lt_succ_of_lt (below id old)
    · rw [List.mem_singleton.mp new]
      exact Nat.lt_succ_self _

theorem Session.Step.tracked (step : Session.Step H o spec s d s') (tracked : s.Tracked H spec) :
    s'.Tracked H spec := by
  cases step with
  | @execute live =>
    have accepts : (∃ reply, (submitBuild H o s.c.blobs.has s.c.db live spec).2 = .ok reply) ↔ _ :=
      submitBuild_accepts
    unfold Session.execute
    rcases ran : submitBuild H o s.c.blobs.has s.c.db live spec with ⟨db', e | ⟨build, cached⟩⟩
    · obtain ⟨builds, uids, rfl⟩ := submitBuild_error ran
      rw [ran] at accepts
      have refused : acceptable H spec s.c = false := by
        simpa using accepts
      have made : (s.replies ++ [Except.error e]).filterMap builtBy = s.made := by
        rw [List.filterMap_append]
        exact List.append_nil _
      refine ⟨tracked.ids, fun id member => Nat.lt_add_right _ (tracked.fresh id member), ?_, ?_⟩
      · rw [Session.made, made]
        exact tracked.made
      · rw [Session.made, made, List.countP_append, tracked.count]
        simp [refused]
    · obtain ⟨rfl, next⟩ := submitBuild_ids ran
      rw [ran] at accepts
      have accepted : acceptable H spec s.c = true := accepts.mp ⟨_, rfl⟩
      obtain ⟨ids, fresh⟩ := next.fresh tracked.ids tracked.fresh
      have made : (s.replies ++ [Except.ok (s.c.db.nextBuild, cached)]).filterMap builtBy =
          s.made ++ [s.c.db.nextBuild] := by
        rw [List.filterMap_append]
        rfl
      refine ⟨ids, fresh, ?_, ?_⟩
      · rw [Session.made, made, next.1]
        exact tracked.made.append (List.Sublist.refl _)
      · rw [Session.made, made, List.length_append, List.countP_append, tracked.count]
        simp [accepted]
  | rollback => exact tracked.same rfl (Nat.le_add_right _ _)
  | other step =>
    rcases step.buildIds with next | ⟨ids, counter⟩
    · obtain ⟨nodup, fresh⟩ := next.fresh tracked.ids tracked.fresh
      refine ⟨nodup, fresh, ?_, tracked.count⟩
      rw [next.1]
      exact tracked.made.trans (List.sublist_append_left _ _)
    · exact tracked.same ids counter

theorem Session.Tracked.once_iff (tracked : s.Tracked H spec) : s.Once ↔ s.made.length = 1 := by
  have nodup : s.made.Nodup := tracked.made.nodup tracked.ids
  have row : ∀ id ∈ s.made, ∃ b ∈ s.c.db.builds, b.id = id :=
    fun id member => List.mem_map.mp (tracked.made.subset member)
  constructor
  · rintro ⟨⟨b, ⟨-, member⟩, unique⟩, -⟩
    have all : ∀ id ∈ s.made, id = b.id := by
      intro id hid
      obtain ⟨b', hb', rfl⟩ := row id hid
      rw [unique b' ⟨hb', hid⟩]
    have short := (List.nodup_iff_count_le_one.mp nodup) b.id
    rw [List.count_eq_length.mpr fun id hid => (all id hid).symm] at short
    have := List.length_pos_of_mem member
    omega
  · intro one
    obtain ⟨id, made⟩ := List.length_eq_one_iff.mp one
    obtain ⟨b, hb, rfl⟩ := row id (by rw [made]; simp)
    have only : ∀ id, id ∈ s.made ↔ id = b.id := by
      intro id
      rw [made, List.mem_singleton]
    refine ⟨⟨b, ⟨hb, (only _).mpr rfl⟩, fun b' here => ?_⟩, fun t _ u _ ht hu => ?_⟩
    · exact List.inj_on_of_nodup_map tracked.ids here.1 hb ((only _).mp here.2)
    · rw [(only _).mp ht, (only _).mp hu]

/-- However often the request is executed, and whatever happens in between, the tables have
one build for the call exactly when one of the executions finds the spec acceptable. -/
theorem submitted_once_iff {deliveries : List Delivery}
    (run : Runs (Session.Step H o spec) {} deliveries s) :
    s.Once ↔ s.found.countP (acceptable H spec) = 1 := by
  have tracked : s.Tracked H spec := run.invariant (P := Session.Tracked H spec)
    ⟨List.nodup_nil, by simp, List.Sublist.refl _, rfl⟩ Session.Step.tracked
  rw [tracked.once_iff, tracked.count]

end Sessions

/-! ### A request executed twice -/

/-- The input of the sample is uploaded. -/
def uploaded : Session := { c := ⟨{}, [(sampleInput, "int f;".toList)]⟩ }

/-- The request is executed, and executed again. -/
def executed : Session := uploaded.execute sampleSha {} sampleSpec 1
def repeated : Session := executed.execute sampleSha {} sampleSpec 1

theorem executed_reached :
    ∃ deliveries, Runs (Session.Step sampleSha {} sampleSpec) {} deliveries executed := by
  have upload : Session.Step sampleSha {} sampleSpec {} (.other (.putBlob "int f;".toList [] true)) uploaded :=
    .other (.putBlob rfl)
  have execute : Session.Step sampleSha {} sampleSpec uploaded (.execute 1) executed := .execute
  exact ⟨_, (Runs.nil.snoc upload).snoc execute⟩

theorem submitted_once_iff_executed :
    ∃ deliveries, Runs (Session.Step sampleSha {} sampleSpec) {} deliveries executed ∧ executed.Once := by
  obtain ⟨deliveries, run⟩ := executed_reached
  exact ⟨deliveries, run, (submitted_once_iff run).mpr (by decide +kernel)⟩

/-- The second execution makes a second build, and the object is in the queue twice. -/
theorem repeated_twice_queued :
    ∃ deliveries, Runs (Session.Step sampleSha {} sampleSpec) {} deliveries repeated ∧
      (∃ t ∈ repeated.c.db.tasks, ∃ u ∈ repeated.c.db.tasks, t.buildId ∈ repeated.made ∧
        u.buildId ∈ repeated.made ∧ t.buildId ≠ u.buildId ∧ t.id = u.id ∧ t.state = .ready ∧
        u.state = .ready) ∧ ¬ repeated.Once := by
  have twice : ∃ t ∈ repeated.c.db.tasks, ∃ u ∈ repeated.c.db.tasks, t.buildId ∈ repeated.made ∧
      u.buildId ∈ repeated.made ∧ t.buildId ≠ u.buildId ∧ t.id = u.id ∧ t.state = .ready ∧
      u.state = .ready := by
    decide +kernel
  obtain ⟨deliveries, run⟩ := executed_reached
  have execute : Session.Step sampleSha {} sampleSpec executed (.execute 1) repeated := .execute
  refine ⟨_, run.snoc execute, twice, fun once => ?_⟩
  obtain ⟨t, ht, u, hu, here, there, apart, -⟩ := twice
  exact apart (once.tasks t ht u hu here there)

end DistCompile
