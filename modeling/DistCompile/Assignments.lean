import DistCompile.Placed
import DistCompile.Serve

/-!
What a worker is handed, against the spec it came from.

`submit_build` checks a spec once; the assignment is put together much later, from
text columns that two writers fill: `submit` from the cache, `make_ready` when the
last dependency is in. A list is stored as its lines joined by newlines, and an empty
text may be stored as NULL, which `try_claim` reads with a default. The lists that come
back as they went in are those of `Lines`, and the specs whose tasks all come back are
those that are `Tidy` and find the outputs of what their compile tasks depend on in the
cache. Nothing in `submit_build` asks for that.
-/

namespace DistCompile

open DistCompile.Lib DistCompile.Graph

/-! ### Lists in a text column -/

/-- A list of lines that its text column keeps. The single empty line is lost: it
joins to the text of no lines at all. -/
def Lines (v : List Str) : Prop := (∀ l ∈ v, '\n' ∉ l) ∧ v ≠ [[]]

instance : DecidablePred Lines := fun v =>
  inferInstanceAs (Decidable ((∀ l ∈ v, '\n' ∉ l) ∧ v ≠ [[]]))

theorem joinLines_eq_nil {v : List Str} (joined : joinLines v = []) : v = [] ∨ v = [[]] := by
  cases v with
  | nil => exact Or.inl rfl
  | cons l ls =>
    cases ls with
    | nil =>
      rw [joinLines, List.intercalate_singleton] at joined
      exact Or.inr (by rw [joined])
    | cons m ms => simp [joinLines, List.intercalate_cons_cons] at joined

theorem Lines.splitLines {v : List Str} (lines : Lines v) : splitLines (joinLines v) = v := by
  by_cases joined : joinLines v = []
  · rcases joinLines_eq_nil joined with none | blank
    · rw [none]
      rfl
    · exact absurd blank lines.2
  · rw [DistCompile.splitLines, if_neg joined]
    exact List.splitOn_intercalate _ lines.1 fun none => joined (by rw [none]; rfl)

/-! ### Specs that survive the tables -/

/-- A task of a spec whose lists come back. -/
structure TaskSpec.Tidy (spec : BuildSpec) (ts : TaskSpec) : Prop where
  args : Lines ts.args
  action : ts.kind ≠ COMPILE → ts.deps ≠ [] ∧ Lines (ts.depIds.map spec.flatNameOf)

def BuildSpec.Tidy (spec : BuildSpec) : Prop := ∀ ts ∈ spec.tasks, ts.Tidy spec

instance (spec : BuildSpec) : DecidablePred (TaskSpec.Tidy spec) := fun ts =>
  decidable_of_iff (Lines ts.args ∧ (ts.kind ≠ COMPILE → ts.deps ≠ [] ∧ Lines (ts.depIds.map spec.flatNameOf)))
    ⟨fun h => ⟨h.1, h.2⟩, fun h => ⟨h.args, h.action⟩⟩

instance : DecidablePred BuildSpec.Tidy := fun spec =>
  inferInstanceAs (Decidable (∀ ts ∈ spec.tasks, ts.Tidy spec))

/-- The specs accepted are tidy. -/
def Call.Tidy : Call → Prop
  | .submitBuild spec _ (.ok _) => spec.Tidy
  | _ => True

instance : DecidablePred Call.Tidy
  | .submitBuild spec _ (.ok _) => inferInstanceAs (Decidable spec.Tidy)
  | .submitBuild _ _ (.error _) | .putBlob _ _ _ | .claimTask _ _ _ _ _ | .claimCrash _ _ _ _ _
  | .completeTask _ _ _ | .heartbeat _ _ | .reap _ => isTrue trivial

/-- The specs accepted find the outputs of what their compile tasks depend on. -/
def Call.Supplied (H : Sha256) (c : Coordinator) : Call → Prop
  | .submitBuild spec _ (.ok _) => spec.Supplied H c.blobs.has c.db.outputs
  | _ => True

theorem Call.Flat.supplied {H : Sha256} {c : Coordinator} {call : Call} (flat : call.Flat) :
    call.Supplied H c := by
  unfold Call.Supplied
  split
  · exact BuildSpec.Flat.supplied flat
  · trivial

/-! ### The assignment of a task -/

/-- The output column of a task. -/
def Db.outputAt (db : Db) (build id : Nat) : Option Str := (db.taskAt? build id).bind (·.output)

/-- The assignment says of task `ts` what its spec says. -/
structure Assignment.WellFormed (db : Db) (build : Nat) (spec : BuildSpec) (ts : TaskSpec)
    (a : Assignment) : Prop where
  kind : a.kind = ts.kind ∧ 0 ≤ a.kind ∧ a.kind ≤ 2
  named : a.inputs.length = a.inputNames.length
  compile : ts.kind = COMPILE → a.inputs = [ts.input] ∧ a.inputNames = ["in.i".toList]
  action : ts.kind ≠ COMPILE → a.inputs.map some = ts.depIds.map (db.outputAt build) ∧
    a.inputNames = ts.depIds.map spec.flatNameOf
  args : a.args = ts.args

theorem kindName_range {kind : Int} (named : kindName kind ≠ none) : 0 ≤ kind ∧ kind ≤ 2 := by
  unfold kindName at named
  split at named
  · exact absurd rfl named
  · rename_i positive
    have inside : kind.toNat < kKindName.length := by
      by_contra outside
      exact named (List.getElem?_eq_none_iff.mpr (Nat.not_lt.mp outside))
    have length : kKindName.length = 3 := rfl
    have floor : 0 ≤ kind := Int.not_lt.mp positive
    omega

section Rows

variable {H : Sha256} {env : Nat → Option BuildSpec} {db : Db} {spec : BuildSpec} {ts : TaskSpec}
  {t : TaskRow}

/-- A row is the one that a look-up by its build and id finds. -/
theorem outputAt_row (keyed : db.Keyed) (ht : t ∈ db.tasks) :
    db.outputAt t.buildId t.id = t.output := by
  have only := Db.filter_slot keyed ht (show t.slot = (t.buildId, t.id) from rfl)
  rw [Db.outputAt, Db.taskAt?, ← List.head?_filter, only]
  rfl

/-- The outputs of the dependencies, once they are known, in the order of the spec. -/
theorem Consistent.digests_eq (base : Consistent H db) (placed : ∀ t ∈ db.tasks, Placed env db t)
    (ht : t ∈ db.tasks) (ready : t.state = .ready) (hb : env t.buildId = some spec)
    (inputs : db.inputIds t.slot = ts.depIds) :
    (db.inputDigests t.slot).map some = ts.depIds.map (db.outputAt t.buildId) := by
  have outputs : (db.inputDigests t.slot).map some =
      (db.inputsOf t.slot.1 t.slot.2).map (·.output) := by
    rw [Db.inputDigests, List.map_map]
    refine List.map_congr_left fun u hu => ?_
    obtain ⟨output, stored, -⟩ := base.input_output ht (by rw [ready]; simp) u hu
    rw [Function.comp_apply, stored, Option.getD_some]
  rw [outputs]
  refine map_inputsOf placed base.keyed base.linked hb inputs _ _ fun u hu build _ _ _ _ => ?_
  rw [← build, outputAt_row base.keyed hu]

/-- What a ready row of a tidy spec is handed out with. -/
theorem Consistent.wellFormed (base : Consistent H db) (placed : ∀ t ∈ db.tasks, Placed env db t)
    (o : Options) (worker : Str) (now : Int) (ht : t ∈ db.tasks) (ready : t.state = .ready)
    (hb : env t.buildId = some spec) (built : Built spec ts t)
    (inputs : db.inputIds t.slot = ts.depIds) (tidy : ts.Tidy spec) (named : kindName t.kind ≠ none)
    (valid : ts.kind = COMPILE → validHash ts.input = true) :
    (assignmentOf (claimedRow o worker now t)).WellFormed db t.buildId spec ts := by
  have args : (assignmentOf (claimedRow o worker now t)).args = ts.args := by
    simp only [assignmentOf, claimedRow, built.args]
    exact tidy.args.splitLines
  have kind : (assignmentOf (claimedRow o worker now t)).kind = ts.kind := built.kind
  have range : 0 ≤ (assignmentOf (claimedRow o worker now t)).kind ∧
      (assignmentOf (claimedRow o worker now t)).kind ≤ 2 := kindName_range named
  by_cases compile : ts.kind = COMPILE
  · obtain ⟨-, source, name⟩ := built.compile compile
    have hash := valid compile
    have read : (assignmentOf (claimedRow o worker now t)).inputs = [ts.input] := by
      simp only [assignmentOf, claimedRow, source]
      have one := splitLines_joinLines (v := [ts.input])
        (by simpa using validHash_newline hash) (by simpa using validHash_ne_nil hash)
      rwa [joinLines, List.intercalate_singleton] at one
    have names : (assignmentOf (claimedRow o worker now t)).inputNames = ["in.i".toList] := by
      simp only [assignmentOf, claimedRow, name]
      rfl
    exact ⟨⟨kind, range⟩, by rw [read, names]; rfl, fun _ => ⟨read, names⟩,
      fun action => absurd compile action, args⟩
  · obtain ⟨some_dep, lines⟩ := tidy.action compile
    have names := inputNames_eq placed base.keyed base.linked hb inputs
    have filled : joinLines (db.inputNames t.slot) ≠ [] := by
      intro joined
      rw [names] at joined
      rcases joinLines_eq_nil joined with none | blank
      · exact some_dep (by simpa [TaskSpec.depIds] using none)
      · exact lines.2 blank
    obtain ⟨read, split⟩ := base.assignment o worker now ht ready (by rw [built.kind]; exact compile) filled
    rw [names, lines.splitLines] at split
    have digests := base.digests_eq placed ht ready hb inputs
    have count := congrArg List.length digests
    rw [List.length_map, List.length_map] at count
    exact ⟨⟨kind, range⟩, by rw [read, split, count, List.length_map],
      fun isCompile => absurd isCompile compile, fun _ => ⟨by rw [read]; exact digests, split⟩, args⟩

end Rows

/-! ### Every run -/

/-- What is kept while the accepted specs are tidy. -/
structure Traced (H : Sha256) (calls : List Call) (c : Coordinator) : Prop where
  base : Consistent H c.db
  known : Recorded calls c
  specs : ∀ b spec, specOf calls b = some spec → spec.Tidy ∧ badCompileTask spec = none

section Runs

variable {H : Sha256} {o : Options} {calls : List Call} {call : Call} {c c' : Coordinator}

/-- At the start there may be a cache, with the outputs the coordinator puts there. -/
theorem Traced.start {cache : List CacheRow} (outputs : ∀ row ∈ cache, validHash row.output = true)
    (blobs : Blobs) : Traced H [] ⟨{ cache }, blobs⟩ where
  base := { Consistent.empty H with
    keyed := ⟨List.nodup_nil, List.nodup_nil⟩
    fresh := by simp [Db.Fresh]
    linked := ⟨by simp, by simp⟩
    cache := outputs
    pending := by simp
    output := by simp
    columns := by simp }
  known := ⟨by simp [specOf], by simp⟩
  specs := by simp [specOf]

theorem Traced.submit (traced : Traced H calls c) {spec : BuildSpec} {live : Int} {build cached : Nat}
    {db' : Db} (tidy : spec.Tidy) (supplied : spec.Supplied H c.blobs.has c.db.outputs)
    (ran : submitBuild H o c.blobs.has c.db live spec = (db', .ok (build, cached))) :
    Traced H (calls ++ [.submitBuild spec live (.ok (build, cached))]) ⟨db', c.blobs⟩ where
  base := by
    have kept : Consistent H (DistCompile.submitBuild H o c.blobs.has c.db live spec).1 :=
      traced.base.submitBuild supplied
    rwa [ran] at kept
  known := traced.known.submit traced.base supplied ran
  specs b s found := by
    rcases specOf_submit found with old | ⟨-, rfl⟩
    · exact traced.specs b s old
    · exact ⟨tidy, (submitBuild_ok ran).1⟩

theorem Step.traced (step : Step H o c call c') (tidy : call.Tidy) (supplied : call.Supplied H c)
    (traced : Traced H calls c) : Traced H (calls ++ [call]) c' := by
  by_cases submits : ∃ spec live reply, call = .submitBuild spec live reply
  · obtain ⟨spec, live, reply, rfl⟩ := submits
    cases step with
    | submitBuild =>
      rcases ran : DistCompile.submitBuild H o c.blobs.has c.db live spec with ⟨db', e | ⟨build, cached⟩⟩
      · obtain ⟨builds, uids, rfl⟩ := submitBuild_error ran
        refine ⟨traced.base.skip builds uids, traced.known.refused ran, ?_⟩
        rw [specOf_same (by simp)]
        exact traced.specs
      · rw [ran] at tidy supplied
        exact traced.submit tidy supplied ran
  · have flat : call.Flat := by
      cases call with
      | submitBuild spec live reply => exact absurd ⟨spec, live, reply, rfl⟩ submits
      | _ => trivial
    refine ⟨step.consistent flat traced.base, step.recorded flat traced.base traced.known, ?_⟩
    rw [specOf_same fun spec live b n same => submits ⟨spec, live, _, same⟩]
    exact traced.specs

theorem Runs.traced {cache : List CacheRow} {blobs : Blobs}
    (outputs : ∀ row ∈ cache, validHash row.output = true)
    (run : Runs (Meets (Step H o) fun c call => call.Tidy ∧ call.Supplied H c) ⟨{ cache }, blobs⟩ calls c) :
    Traced H calls c := by
  generalize start : (⟨{ cache }, blobs⟩ : Coordinator) = c₀ at run
  induction run with
  | nil => exact start ▸ Traced.start outputs blobs
  | snoc _ last ih => exact last.2.traced last.1.1 last.1.2 ih

/-- While the accepted specs are tidy and supplied, every task that is handed out is
handed out as its spec describes it, whatever is in the cache. -/
theorem assignments_well_formed {cache : List CacheRow} {blobs : Blobs}
    (outputs : ∀ row ∈ cache, validHash row.output = true)
    (run : Runs (Meets (Step H o) fun c call => call.Tidy ∧ call.Supplied H c) ⟨{ cache }, blobs⟩ calls c)
    {worker toolchain : Str} {part now : Int} {a : Assignment}
    (claim : Step H o c (.claimTask worker toolchain part now (some a)) c') :
    ∃ t ∈ c.db.tasks, t.uid = a.taskUid ∧ ∃ spec ts, specOf calls t.buildId = some spec ∧
      spec.tasks[t.id]? = some ts ∧ a.WellFormed c.db t.buildId spec ts := by
  have traced := Runs.traced outputs run
  cases claim with
  | @claimTask _ _ _ _ t picked named =>
    obtain ⟨ht, ready, -⟩ := mem_of_picked picked
    obtain ⟨spec, ts, hb, found, built, inputs⟩ := traced.known.placed t ht
    obtain ⟨tidy, good⟩ := traced.specs _ _ hb
    have member := List.mem_of_getElem? found
    exact ⟨t, ht, rfl, spec, ts, hb, found,
      traced.base.wellFormed traced.known.placed o worker now ht ready hb built inputs
        (tidy ts member) named fun compile => (compileTask_valid good member compile).2⟩

end Runs

/-! ### A tidy spec and another -/

/-- The assignment a call returned. -/
def Call.assignment : Call → Option Assignment
  | .claimTask _ _ _ _ reply => reply
  | _ => none

theorem serve_claim {H : Sha256} {o : Options} {c c' : Coordinator} {call : Call}
    {worker toolchain : Str} {part now : Int} {uid : Nat} {a : Assignment}
    (served : serve H o c (.claimTask worker toolchain part now uid) = some (call, c'))
    (assigned : call.assignment = some a) : call = .claimTask worker toolchain part now (some a) := by
  rw [serve] at served
  split at served
  · split_ifs at served
    · cases served
      cases assigned
    · cases served
      rw [show assignmentOf _ = a from Option.some.inj assigned]
  · cases served

/-- A library of one object, up to the claim of the library. -/
def tidyRequests : List Request :=
  [.putBlob "int f;".toList [], .putBlob "o:int f;".toList [], .submitBuild sampleSpec 1,
    .claimTask "w".toList "gcc".toList 0 0 1,
    .completeTask ⟨1, 1, "w".toList, true, false, sampleOutput, [], 5⟩ 0 10]

theorem tidyRequests_served :
    (serveAll sampleSha {} {} tidyRequests).any (fun r => r.1.all (fun call => call.Tidy && call.Flat) &&
      (serve sampleSha {} r.2 (.claimTask "w".toList "gcc".toList 0 0 2)).any fun r' =>
        r'.1.assignment.any fun a => a.kind = ARCHIVE && a.inputs = [sampleOutput]) = true := by
  decide +kernel

theorem assignments_well_formed_library :
    ∃ calls c c' a, Runs (Meets (Step sampleSha {}) fun c call => call.Tidy ∧ call.Supplied sampleSha c) {} calls c ∧
      Step sampleSha {} c (.claimTask "w".toList "gcc".toList 0 0 (some a)) c' ∧ a.kind = ARCHIVE ∧
      a.inputs = [sampleOutput] ∧
      ∃ t ∈ c.db.tasks, t.uid = a.taskUid ∧ ∃ spec ts, specOf calls t.buildId = some spec ∧
        spec.tasks[t.id]? = some ts ∧ a.WellFormed c.db t.buildId spec ts := by
  obtain ⟨⟨calls, c⟩, served, holds⟩ := (Option.any_eq_true _ _).mp tidyRequests_served
  rw [Bool.and_eq_true, List.all_eq_true] at holds
  obtain ⟨tidy, claimed⟩ := holds
  obtain ⟨⟨call, c'⟩, served', assigned⟩ := (Option.any_eq_true _ _).mp claimed
  obtain ⟨a, found, facts⟩ := (Option.any_eq_true _ _).mp assigned
  obtain rfl := serve_claim served' found
  simp only [Bool.and_eq_true, decide_eq_true_eq] at tidy facts
  have run : Runs (Meets (Step sampleSha {}) fun c call => call.Tidy ∧ call.Supplied sampleSha c) {} calls c :=
    ((serveAll_runs served).meets tidy).mono fun step => ⟨⟨step.1.1, step.1.2.supplied⟩, step.2⟩
  exact ⟨calls, c, c', a, run, serve_step served', facts.1, facts.2,
    assignments_well_formed (by simp) run (serve_step served')⟩

/-- An archive of nothing, with a newline in its argument. -/
def emptyArchive : TaskSpec := ⟨0, ARCHIVE, "x".toList, [], [], [], ["a\nb".toList], 10⟩

def emptySpec : BuildSpec where
  toolchain := "gcc".toList
  tasks := [emptyArchive]

theorem emptySpec_served :
    (serveAll sampleSha {} {} [.submitBuild emptySpec 1]).any (fun r =>
      r.2.db.tasks.any (fun t => t.uid = 1 && specOf r.1 t.buildId = some emptySpec && t.id = 0) &&
      (serve sampleSha {} r.2 (.claimTask "w".toList "gcc".toList 0 0 1)).any fun r' =>
        r'.1.assignment = some ⟨1, 1, ARCHIVE, "x".toList, [], ["in.i".toList], ["a".toList, "b".toList]⟩) =
      true := by
  decide +kernel

/-- It is accepted, and handed out with a name for an input that is not there, and with two
arguments. -/
theorem empty_archive_assigned :
    ∃ calls c c' a t, Runs (Step sampleSha {}) {} calls c ∧
      Step sampleSha {} c (.claimTask "w".toList "gcc".toList 0 0 (some a)) c' ∧
      t ∈ c.db.tasks ∧ t.uid = a.taskUid ∧ specOf calls t.buildId = some emptySpec ∧
      emptySpec.tasks[t.id]? = some emptyArchive ∧ a.inputs.length ≠ a.inputNames.length ∧
      a.inputNames ≠ emptyArchive.depIds.map emptySpec.flatNameOf ∧ a.args ≠ emptyArchive.args := by
  obtain ⟨⟨calls, c⟩, served, holds⟩ := (Option.any_eq_true _ _).mp emptySpec_served
  rw [Bool.and_eq_true, List.any_eq_true] at holds
  obtain ⟨⟨t, ht, row⟩, claimed⟩ := holds
  obtain ⟨⟨call, c'⟩, served', assigned⟩ := (Option.any_eq_true _ _).mp claimed
  simp only [Bool.and_eq_true, decide_eq_true_eq] at row assigned
  obtain rfl := serve_claim served' assigned
  obtain ⟨⟨uid, recorded⟩, id⟩ := row
  have task : emptySpec.tasks[t.id]? = some emptyArchive := by rw [id]; rfl
  exact ⟨calls, c, c', _, t, serveAll_runs served, serve_step served', ht, uid, recorded, task,
    by simp, by simp [emptyArchive, TaskSpec.depIds], by simp [emptyArchive]⟩

end DistCompile
