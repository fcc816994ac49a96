import DistCompile.Faithful

/-!
The distributed build computes the sequential one.

A run is read as a log of calls: `specOf` finds the spec of a build, `Honest` says
that ok results are what the tool makes of an assignment handed out before.
`Kept` is the invariant of whole runs: the tables are consistent and faithful, and
every assignment ever handed out, however late its result comes in, asks for the
reference value of its task.
-/

namespace DistCompile

open DistCompile.Lib DistCompile.Graph

/-! ### Reading the log -/

/-- Compile tasks with equal keys have equal results. -/
def KeysAgree (blob : Str → Str) (tool : Tool) (specs : List BuildSpec) : Prop :=
  ∀ spec ∈ specs, ∀ spec' ∈ specs, ∀ ts ∈ spec.tasks, ∀ ts' ∈ spec'.tasks,
    ts.kind = COMPILE → ts'.kind = COMPILE → ts.key = ts'.key →
      runTask blob tool spec (fun _ => []) ts = runTask blob tool spec' (fun _ => []) ts'

/-- `r` is what a worker with `toolchain` reports for `a`: the digest of what the
tool makes of the blobs that `a` names. -/
def HonestResult (H : Sha256) (tool : Tool) (toolchain : Str) (a : Assignment) (r : TaskResult) :
    Prop :=
  a.taskUid = r.taskUid ∧ a.attempt = r.attempt ∧ ∃ blobs, blobs.map H.hex = a.inputs ∧
    r.output = H.hex (tool toolchain a.kind a.args (a.inputNames.zip blobs))

/-- Every ok result of the log is the honest result of an assignment made before it. -/
def Honest (H : Sha256) (tool : Tool) (calls : List Call) : Prop :=
  ∀ pre r now accepted post, calls = pre ++ .completeTask r now accepted :: post → r.ok = true →
    ∃ worker toolchain part claimed a,
      .claimTask worker toolchain part claimed (some a) ∈ pre ∧ HonestResult H tool toolchain a r

/-! ### Assignments -/

section Assignments

variable {H : Sha256} {blob : Str → Str} {tool : Tool} {env : Nat → Option BuildSpec} {db : Db}

/-- An assignment asks for the reference value of its task. -/
def Asks (H : Sha256) (blob : Str → Str) (tool : Tool) (env : Nat → Option BuildSpec) (db : Db)
    (toolchain : Str) (a : Assignment) : Prop :=
  ∃ t ∈ db.tasks, t.uid = a.taskUid ∧ ∃ spec, env t.buildId = some spec ∧
    ∀ blobs, blobs.map H.hex = a.inputs →
      tool toolchain a.kind a.args (a.inputNames.zip blobs) = reference blob tool spec t.id

/-- The assignment made from a ready row. -/
theorem Faithful.asks (inverse : Function.LeftInverse blob H.hex) (lawful : Lawful H blob tool env)
    (base : Consistent H db) (f : Faithful H blob tool env db) {o : Options} {worker : Str}
    {now : Int} {t : TaskRow} (ht : t ∈ db.tasks) (ready : t.state = .ready) :
    Asks H blob tool env db t.toolchain (assignmentOf (claimedRow o worker now t)) := by
  obtain ⟨spec, ts, hb, found, built, inputs⟩ := f.placed t ht
  obtain ⟨order, accepted⟩ := lawful.accepted _ _ hb
  have shaped := lawful.shaped _ _ hb
  have member := List.mem_of_getElem? found
  have task := shaped.tasks ts member
  have args : splitLines t.args = ts.args := by
    rw [built.args]
    exact splitLines_joinLines (fun a ha => (task.args a ha).2) fun a ha => (task.args a ha).1
  refine ⟨t, ht, rfl, spec, hb, fun blobs same => ?_⟩
  rw [reference_eq accepted found, runTask]
  by_cases compile : ts.kind = COMPILE
  · obtain ⟨-, input, names⟩ := built.compile compile
    have valid := lawful.inputs _ _ hb ts member compile
    have one : splitLines ts.input = [ts.input] := by
      have := splitLines_joinLines (v := [ts.input]) (by simpa using validHash_newline valid)
        (by simpa using validHash_ne_nil valid)
      simpa [joinLines] using this
    have digests : (assignmentOf (claimedRow o worker now t)).inputs = [ts.input] := by
      simp only [assignmentOf, claimedRow, input]
      exact one
    rw [digests] at same
    obtain ⟨text, rfl, hash⟩ : ∃ text, blobs = [text] ∧ H.hex text = ts.input := by
      cases blobs with
      | nil => cases same
      | cons text more =>
        simp only [List.map_cons, List.cons.injEq, List.map_eq_nil_iff] at same
        exact ⟨text, by rw [same.2], same.1⟩
    rw [inputFiles, if_pos compile, ← hash, inverse text]
    simp only [assignmentOf, claimedRow, names, built.kind, args, built.toolchain]
    rfl
  · have action : t.kind ≠ COMPILE := built.kind ▸ compile
    have known := base.known ht (by rw [ready]; simp)
    have digests := f.inputDigests base.keyed base.linked hb inputs known
    have names := inputNames_eq f.placed base.keyed base.linked hb inputs
    have some_dep : ts.depIds ≠ [] := by
      simpa [TaskSpec.depIds] using (task.action compile).2.1
    have nameLines : ∀ l ∈ ts.depIds.map spec.flatNameOf, l ≠ [] ∧ '\n' ∉ l := by
      intro l hl
      obtain ⟨d, hd, rfl⟩ := List.mem_map.mp hl
      obtain ⟨td, dep⟩ := dep_found (topoOrder_ok accepted) found hd
      have name := (shaped.tasks td (List.mem_of_getElem? dep)).name
      rw [flatNameOf_found dep]
      exact ⟨by simpa using name.1, flatName_newline name.2.1⟩
    obtain ⟨read, readNames⟩ := base.assignment o worker now ht ready action
      (by rw [names]; exact joinLines_ne_nil (by simpa using some_dep) fun l hl => (nameLines l hl).1)
    rw [digests] at read
    rw [names, splitLines_joinLines (fun l hl => (nameLines l hl).2) fun l hl => (nameLines l hl).1]
      at readNames
    rw [read] at same
    have values : blobs = ts.depIds.map (reference blob tool spec) := by
      refine List.map_injective_iff.mpr inverse.injective ?_
      rw [same, List.map_map]
      rfl
    rw [readNames, values, List.zip_map', inputFiles, if_neg compile, ← built.kind, ← args,
      ← built.toolchain]
    rfl

theorem Asks.mono {env' : Nat → Option BuildSpec} {db' : Db} {toolchain : Str} {a : Assignment}
    (asks : Asks H blob tool env db toolchain a)
    (rows : ∀ t ∈ db.tasks, ∃ u ∈ db'.tasks, u.fixed = t.fixed)
    (specs : ∀ b spec, env b = some spec → env' b = some spec) :
    Asks H blob tool env' db' toolchain a := by
  obtain ⟨t, ht, uid, spec, hb, value⟩ := asks
  obtain ⟨u, hu, same⟩ := rows t ht
  refine ⟨u, hu, (uid_of_fixed same).trans uid, spec, ?_, ?_⟩
  · rw [build_of_fixed same]
    exact specs _ _ hb
  · rw [id_of_fixed same]
    exact value

end Assignments

/-! ### Submitting a build -/

section Submit

variable {H : Sha256} {blob : Str → Str} {tool : Tool} {env env' : Nat → Option BuildSpec} {db : Db}
  {spec : BuildSpec} {order : List Nat} {rank part : Nat → Int} {w : Walk}

theorem SoundPair.mono {key output : Str} (sound : SoundPair H blob tool env key output)
    (specs : ∀ b spec, env b = some spec → env' b = some spec) :
    SoundPair H blob tool env' key output := by
  obtain ⟨b, spec, id, ts, hb, rest⟩ := sound
  exact ⟨b, spec, id, ts, specs b spec hb, rest⟩

/-- Whatever the walk takes from the cache is the reference output. -/
theorem walk_reference (free : H.CollisionFree) (lawful : Lawful H blob tool env)
    (f : ∀ row ∈ db.cache, SoundPair H blob tool env row.key row.output) (base : Consistent H db)
    {b : Nat} (hb : env b = some spec) (topo : IsTopoOrder spec.graph order)
    (walked : Walked H db.outputs spec order w) :
    ∀ id ∈ order, (w.row id).output ≠ [] → (w.row id).output = refDigest H blob tool spec id := by
  refine topo.induction fun id member deps cached => ?_
  have bound : id < spec.tasks.length := by
    have := topo.perm.mem_iff.mp member
    rwa [List.mem_range, BuildSpec.graph, List.length_map] at this
  have found := List.getElem?_eq_getElem bound
  generalize spec.tasks[id] = ts at found
  have s := settled_of_walked topo walked found
  obtain ⟨zero, hit⟩ : (w.row id).pending = 0 ∧ db.outputs (w.row id).key = some (w.row id).output := by
    rcases s.state with ⟨-, zero, hit⟩ | ⟨-, -, empty⟩ | ⟨-, -, empty⟩
    · exact ⟨((lawful.shaped b spec hb).flat.supplies w).pending topo walked found zero, hit⟩
    · exact absurd empty cached
    · exact absurd empty cached
  obtain ⟨row, rowFound, output⟩ := Option.map_eq_some_iff.mp hit
  have rowKey : row.key = (w.row id).key := by simpa using List.find?_some rowFound
  have sound := f row (List.mem_of_find?_eq_some rowFound)
  -- every dependency came from the cache too
  have known : ∀ d ∈ ts.depIds, (w.row d).output ≠ [] ∧
      (w.row d).output = refDigest H blob tool spec d := by
    intro d hd
    rw [s.pending, resolveInputs_pending_eq] at zero
    have filled : (w.row d).output ≠ [] := by
      simpa using List.countP_eq_zero.mp zero d hd
    exact ⟨filled, deps d (by simpa [depsOf, BuildSpec.graph, found, TaskSpec.depIds] using hd) filled⟩
  have valid : InputsValid H blob tool spec ts := by
    intro d hd
    obtain ⟨filled, right⟩ := known d hd
    obtain ⟨td, dep⟩ := dep_found topo found hd
    rw [← right]
    rcases (settled_of_walked topo walked dep).state with ⟨-, -, hit⟩ | ⟨-, -, empty⟩ | ⟨-, -, empty⟩
    · exact outputs_valid base _ _ hit
    · exact absurd empty filled
    · exact absurd empty filled
  have key : (w.row id).key = taskKey H blob tool spec ts := by
    rw [s.key, taskKey]
    by_cases compile : ts.kind = COMPILE
    · rw [if_pos compile]
      simp [resolveInputs, compile]
    · rw [if_neg compile, (resolveInputs_action compile (s.pending ▸ zero)).1,
        List.map_congr_left fun d hd => (known d hd).2]
  rw [← output]
  exact sound.output_eq free lawful hb found valid (rowKey.trans key)

/-- The inserted rows of a new build are faithful to its spec. -/
theorem Faithful.insertRows (free : H.CollisionFree) (lawful : Lawful H blob tool env')
    (base : Consistent H db) (f : Faithful H blob tool env db)
    (specs : ∀ b spec, env b = some spec → env' b = some spec)
    (here : env' db.nextBuild = some spec) (good : badCompileTask spec = none)
    (topo : IsTopoOrder spec.graph order) (walked : Walked H db.outputs spec order w) :
    Faithful H blob tool env' (insertRows db spec rank part w) where
  placed := placed_insertRows base f.placed specs here good topo walked
  outputs t ht done spec₀ hb := by
    rcases List.mem_append.mp ht with old | new
    · obtain ⟨spec₁, -, hb₁, -⟩ := f.placed t old
      rw [specs _ _ hb₁] at hb
      cases hb
      exact f.outputs t old done _ hb₁
    · obtain ⟨id, ts, found, rfl⟩ := mem_insertedTasks.mp new
      change env' db.nextBuild = some spec₀ at hb
      rw [here] at hb
      cases hb
      have s := settled_of_walked topo walked found
      have filled := (s.finished_iff (outputs_valid base)).mp done
      have member : id ∈ order := by
        refine topo.perm.mem_iff.mpr (List.mem_range.mpr ?_)
        rw [BuildSpec.graph, List.length_map]
        exact (List.getElem?_eq_some_iff.mp found).1
      have right := walk_reference free lawful (fun row hr => (f.cache row hr).mono specs) base here
        topo walked id member filled
      change emptyIsNull (w.row id).output = _
      rw [emptyIsNull, if_neg filled, right]
      rfl
  cache row hr := by
    obtain ⟨row₀, hr₀, rfl⟩ := List.mem_map.mp hr
    have sound := (f.cache row₀ hr₀).mono specs
    split
    · exact sound
    · exact sound

end Submit

/-! ### The invariant of whole runs -/

section Runs

variable {H : Sha256} {blob : Str → Str} {tool : Tool} {o : Options} {calls : List Call}
  {call : Call} {c c' : Coordinator}

theorem Faithful.relabel {env : Nat → Option BuildSpec} {db : Db} {f : TaskRow → TaskRow}
    (faithful : Faithful H blob tool env db) (rows : ∀ t ∈ db.tasks, Relabel t (f t)) :
    Faithful H blob tool env { db with tasks := db.tasks.map f } where
  placed u hu := by
    obtain ⟨t, ht, rfl⟩ := List.mem_map.mp hu
    exact (faithful.placed t ht).of_fixed rfl (rows t ht).fixed
  outputs u hu done := by
    obtain ⟨t, ht, rfl⟩ := List.mem_map.mp hu
    rcases (rows t ht).state with same | ⟨-, -, still⟩
    · rw [same] at done ⊢
      exact faithful.outputs t ht done
    · rw [still] at done
      cases done
  cache := faithful.cache

/-- The first statement of a completion is sound when an ok result is right. -/
theorem completeTask_sound {env : Nat → Option BuildSpec} {db : Db} {has : Str → Bool}
    {sizeOf : Str → Int} {now : Int} {r : TaskResult}
    (right : r.ok = true → ∀ t ∈ db.tasks, t.uid = r.taskUid → ∀ spec, env t.buildId = some spec →
      r.output = refDigest H blob tool spec t.id)
    {s : Stmt} (stack : completeTask has sizeOf now r = [s]) : s.Sound H blob tool env db := by
  unfold completeTask at stack
  split_ifs at stack with missing ok retryable
  · cases stack
    trivial
  · cases stack
    exact right ok
  · cases stack
    trivial
  · cases stack
    trivial

/-- What an accepted submit leaves. -/
theorem Faithful.submit {env env' : Nat → Option BuildSpec} (free : H.CollisionFree)
    (lawful : Lawful H blob tool env') (base : Consistent H c.db) (f : Faithful H blob tool env c.db)
    {spec : BuildSpec} {live : Int} {build cached : Nat} {db' : Db} (flat : spec.Flat)
    (specs : ∀ b spec, env b = some spec → env' b = some spec)
    (here : env' c.db.nextBuild = some spec)
    (ran : submitBuild H o c.blobs.has c.db live spec = (db', .ok (build, cached))) :
    Consistent H db' ∧ Faithful H blob tool env' db' ∧
      db'.serials = (c.db.nextBuild + 1, c.db.nextUid + spec.tasks.length) ∧
      ∃ rows : List TaskRow, (∀ t ∈ rows, t.buildId = c.db.nextBuild ∧ c.db.nextUid ≤ t.uid) ∧
        db'.tasks.map TaskRow.fixed = (c.db.tasks ++ rows).map TaskRow.fixed := by
  obtain ⟨good, -, order, rank, part, w, accepted, walked, unique, rfl⟩ := submitBuild_ok ran
  have topo := topoOrder_ok accepted
  have walkedAll := walk_walked topo walked
  have rows : Consistent H (DistCompile.insertRows c.db spec rank part w) :=
    base.insertRows (flat.supplies _) topo walkedAll unique
  have faithful : Faithful H blob tool env' (DistCompile.insertRows c.db spec rank part w) :=
    f.insertRows free lawful base specs here good topo walkedAll
  obtain ⟨g, consistent⟩ := rows.maybeFinish (o := o) c.db.nextBuild
  refine ⟨consistent, faithful.maybeFinish free lawful rows c.db.nextBuild, g.serials, _, ?_, g.fixed⟩
  intro t ht
  obtain ⟨id, ts, -, rfl⟩ := mem_insertedTasks.mp ht
  exact ⟨rfl, Nat.le_add_right _ _⟩

/-- Any other call keeps the rows, and what they say. -/
theorem Faithful.step {env : Nat → Option BuildSpec} (free : H.CollisionFree)
    (lawful : Lawful H blob tool env) (base : Consistent H c.db) (f : Faithful H blob tool env c.db)
    (step : Step H o c call c') (other : ∀ spec live b n, call ≠ .submitBuild spec live (.ok (b, n)))
    (sound : ∀ r now accepted, call = .completeTask r now accepted →
      ∀ s, completeTask c.blobs.has c.blobs.sizeOf now r = [s] → s.Sound H blob tool env c.db) :
    Consistent H c'.db ∧ Faithful H blob tool env c'.db ∧
      c'.db.tasks.map TaskRow.fixed = c.db.tasks.map TaskRow.fixed ∧
      c.db.nextBuild ≤ c'.db.nextBuild ∧ c.db.nextUid ≤ c'.db.nextUid := by
  have grown : ∀ {db' : Db}, Consistent H db' → Faithful H blob tool env db' → Db.Grows c.db db' →
      Consistent H db' ∧ Faithful H blob tool env db' ∧
        db'.tasks.map TaskRow.fixed = c.db.tasks.map TaskRow.fixed ∧
        c.db.nextBuild ≤ db'.nextBuild ∧ c.db.nextUid ≤ db'.nextUid :=
    fun consistent faithful g => ⟨consistent, faithful, g.fixed,
      le_of_eq (congrArg Prod.fst g.serials).symm, le_of_eq (congrArg Prod.snd g.serials).symm⟩
  cases step with
  | putBlob _ => exact grown base f (.refl _)
  | putRefused _ => exact grown base f (.refl _)
  | @submitBuild spec live =>
    rcases ran : submitBuild H o c.blobs.has c.db live spec with ⟨db', e | ⟨build, cached⟩⟩
    · obtain ⟨builds, uids, rfl⟩ := submitBuild_error ran
      exact ⟨base.skip builds uids,
        ⟨fun t ht => (f.placed t ht).of_fixed rfl rfl, f.outputs, f.cache⟩, rfl,
        Nat.le_add_right _ _, Nat.le_add_right _ _⟩
    · exact absurd (by rw [ran]) (other spec live build cached)
  | @claimTask worker toolchain part now t picked _ | @claimCrash worker toolchain part now t picked _ =>
    obtain ⟨ht, ready, -⟩ := mem_of_picked picked
    have relabel : Relabel t (claimedRow o worker now t) := claimedRow_relabel ready
    exact grown (base.relabel_row ht relabel)
      (f.write ht relabel.fixed fun done => (by cases done))
      (Db.grows_apply_task base.keyed ht relabel.fixed (by rw [ready]; rfl))
  | claimNothing _ => exact grown base f (.refl _)
  | @completeTask r now fuel cfg ran =>
    obtain ⟨s, stack, start⟩ := completeTask_start base c.blobs now r
    rw [stack] at ran
    obtain ⟨m, empty⟩ := run_induction (P := Mid H c.db) (fun m => m.exec base o) ran start
    exact grown (m.done base empty)
      (f.run free lawful base start (sound r now _ rfl s stack) ran) m.grows
  | @heartbeat worker now =>
    have rows := fun t (_ : t ∈ c.db.tasks) => heartbeatRow_relabel o worker now t
    exact grown (base.relabel rows) (f.relabel rows) (Db.grows_relabel rows)
  | @reap now =>
    have rows := fun t (_ : t ∈ c.db.tasks) => reapRow_relabel o now t
    obtain ⟨g, consistent, faithful⟩ : Db.Grows c.db (reap H o c.db now) ∧
        Consistent H (reap H o c.db now) ∧ Faithful H blob tool env (reap H o c.db now) :=
      reap_induction (P := fun db => Db.Grows c.db db ∧ Consistent H db ∧
          Faithful H blob tool env db)
        (fun build ⟨g, consistent, faithful⟩ =>
          have finish := consistent.maybeFinish build
          ⟨g.trans finish.1, finish.2, faithful.maybeFinish free lawful consistent build⟩)
        ⟨Db.grows_relabel rows, base.relabel rows, f.relabel rows⟩
    exact grown consistent faithful g

/-- What holds after the calls of a run. -/
structure Kept (H : Sha256) (blob : Str → Str) (tool : Tool) (calls : List Call) (c : Coordinator) :
    Prop where
  consistent : Consistent H c.db
  builds : ∀ b spec, specOf calls b = some spec → b < c.db.nextBuild
  lawful : Lawful H blob tool (specOf calls)
  faithful : Faithful H blob tool (specOf calls) c.db
  asked : ∀ worker toolchain part now a,
    .claimTask worker toolchain part now (some a) ∈ calls →
      Asks H blob tool (specOf calls) c.db toolchain a

/-- A call that adds no build. -/
theorem Kept.next (k : Kept H blob tool calls c)
    (other : ∀ spec live b n, call ≠ .submitBuild spec live (.ok (b, n)))
    (consistent : Consistent H c'.db) (faithful : Faithful H blob tool (specOf calls) c'.db)
    (serial : c.db.nextBuild ≤ c'.db.nextBuild)
    (rows : ∀ t ∈ c.db.tasks, ∃ u ∈ c'.db.tasks, u.fixed = t.fixed)
    (claimed : ∀ worker toolchain part now a, call = .claimTask worker toolchain part now (some a) →
      Asks H blob tool (specOf calls) c.db toolchain a) :
    Kept H blob tool (calls ++ [call]) c' := by
  have same : specOf (calls ++ [call]) = specOf calls := specOf_same other
  refine ⟨consistent, fun b spec hb => ?_, same ▸ k.lawful, same ▸ faithful, ?_⟩
  · rw [same] at hb
    exact lt_of_lt_of_le (k.builds b spec hb) serial
  · intro worker toolchain part now a member
    rw [same]
    rcases List.mem_append.mp member with old | new
    · exact (k.asked worker toolchain part now a old).mono rows fun _ _ h => h
    · exact (claimed worker toolchain part now a (List.mem_singleton.mp new).symm).mono rows
        fun _ _ h => h

/-- An accepted submit. -/
theorem Kept.submit (free : H.CollisionFree) (k : Kept H blob tool calls c) {spec : BuildSpec}
    {live : Int} {build cached : Nat} {db' : Db}
    (ran : submitBuild H o c.blobs.has c.db live spec = (db', .ok (build, cached)))
    (shaped : ∀ s ∈ submitted (calls ++ [.submitBuild spec live (.ok (build, cached))]), s.Shaped H)
    (agree : KeysAgree blob tool
      (submitted (calls ++ [.submitBuild spec live (.ok (build, cached))]))) :
    Kept H blob tool (calls ++ [.submitBuild spec live (.ok (build, cached))]) ⟨db', c.blobs⟩ := by
  obtain ⟨good, rfl, order, -, -, -, accepted, -⟩ := submitBuild_ok ran
  have here : specOf (calls ++ [.submitBuild spec live (.ok (c.db.nextBuild, cached))])
      c.db.nextBuild = some spec := specOf_new (Recorded.fresh ⟨k.builds, k.faithful.placed⟩)
  have specs : ∀ b s, specOf calls b = some s →
      specOf (calls ++ [.submitBuild spec live (.ok (c.db.nextBuild, cached))]) b = some s :=
    fun b s found => specOf_append found
  have lawful : Lawful H blob tool
      (specOf (calls ++ [.submitBuild spec live (.ok (c.db.nextBuild, cached))])) := by
    refine ⟨fun b s found => shaped s (mem_submitted found), fun b s found => ?_, ?_, ?_⟩
    · rcases specOf_submit found with old | ⟨-, rfl⟩
      · exact k.lawful.accepted b s old
      · exact ⟨order, accepted⟩
    · intro b s found ts member compile
      rcases specOf_submit found with old | ⟨-, rfl⟩
      · exact k.lawful.inputs b s old ts member compile
      · exact (compileTask_valid good member compile).2
    · intro b b' s s' found found' ts member ts' member' compile compile' same
      exact agree s (mem_submitted found) s' (mem_submitted found') ts member ts' member' compile
        compile' same
  obtain ⟨consistent, faithful, serials, rows, -, fixed⟩ := k.faithful.submit free lawful k.consistent
    (shaped spec (mem_submitted here)).flat specs here ran
  refine ⟨consistent, fun b s found => ?_, lawful, faithful, ?_⟩
  · have serial : db'.nextBuild = c.db.nextBuild + 1 := congrArg Prod.fst serials
    rw [serial]
    rcases specOf_submit found with old | ⟨rfl, -⟩
    · exact Nat.lt_succ_of_lt (k.builds b s old)
    · exact Nat.lt_succ_self _
  · intro worker toolchain part' now a member
    rcases List.mem_append.mp member with old | new
    · refine (k.asked worker toolchain part' now a old).mono (fun t ht => ?_) specs
      have fixed' : t.fixed ∈ db'.tasks.map TaskRow.fixed := by
        rw [fixed]
        exact List.mem_map_of_mem (List.mem_append_left _ ht)
      exact List.mem_map.mp fixed'
    · cases List.mem_singleton.mp new

/-- The first statement of a completion carries what an honest worker reported. -/
theorem Kept.sound (k : Kept H blob tool calls c) {r : TaskResult} {now : Int}
    (honest : r.ok = true → ∃ worker toolchain part claimed a,
      .claimTask worker toolchain part claimed (some a) ∈ calls ∧ HonestResult H tool toolchain a r)
    {s : Stmt} (stack : completeTask c.blobs.has c.blobs.sizeOf now r = [s]) :
    s.Sound H blob tool (specOf calls) c.db := by
  refine completeTask_sound (fun ok t ht uid spec hb => ?_) stack
  obtain ⟨worker, toolchain, part, claimed, a, member, sameUid, -, blobs, inputs, output⟩ := honest ok
  obtain ⟨u, hu, here, spec', hb', value⟩ := k.asked worker toolchain part claimed a member
  obtain rfl := k.consistent.keyed.uid_inj hu ht (here.trans (sameUid.trans uid.symm))
  rw [hb] at hb'
  cases hb'
  rw [output, value blobs inputs]
  rfl

/-- Every call keeps the invariant. -/
theorem Kept.step (inverse : Function.LeftInverse blob H.hex) (k : Kept H blob tool calls c)
    (step : Step H o c call c') (shaped : ∀ s ∈ submitted (calls ++ [call]), s.Shaped H)
    (agree : KeysAgree blob tool (submitted (calls ++ [call])))
    (honest : Honest H tool (calls ++ [call])) : Kept H blob tool (calls ++ [call]) c' := by
  have free : H.CollisionFree := inverse.injective
  by_cases submits : ∃ spec live b n, call = .submitBuild spec live (.ok (b, n))
  · obtain ⟨spec, live, build, cached, rfl⟩ := submits
    generalize reply : (Except.ok (build, cached) : Except Status (Nat × Nat)) = answer at step
    cases step with
    | submitBuild =>
      rcases ran : submitBuild H o c.blobs.has c.db live spec with ⟨db', e | pair⟩
      · rw [ran] at reply
        cases reply
      · rw [ran] at reply
        cases reply
        exact k.submit free ran shaped agree
  · have other : ∀ spec live b n, call ≠ .submitBuild spec live (.ok (b, n)) :=
      fun spec live b n same => submits ⟨spec, live, b, n, same⟩
    obtain ⟨consistent, faithful, fixed, builds, -⟩ := k.faithful.step free k.lawful k.consistent step other
      fun r now accepted same s stack => k.sound
        (fun ok => honest calls r now accepted [] (by rw [same]) ok) stack
    refine k.next other consistent faithful builds (fun t ht => Db.mem_of_fixed fixed ht) ?_
    rintro worker toolchain part now a rfl
    cases step with
    | claimTask picked _ =>
      obtain ⟨ht, ready, sameToolchain⟩ := mem_of_picked picked
      rw [← sameToolchain]
      exact k.faithful.asks inverse k.lawful k.consistent ht ready

/-- The invariant holds after every run. -/
theorem Runs.kept (inverse : Function.LeftInverse blob H.hex) (run : Runs (Step H o) {} calls c)
    (shaped : ∀ s ∈ submitted calls, s.Shaped H) (agree : KeysAgree blob tool (submitted calls))
    (honest : Honest H tool calls) : Kept H blob tool calls c := by
  induction run with
  | nil =>
    refine ⟨Consistent.empty H, by simp [specOf], ?_, ⟨by simp, by simp, by simp⟩, by simp⟩
    exact ⟨by simp [specOf], by simp [specOf], by simp [specOf], by simp [specOf]⟩
  | @snoc t u calls call _ last ih =>
    refine (ih ?_ ?_ ?_).step inverse last shaped agree honest
    · exact fun s hs => shaped s (submitted_append call hs)
    · exact fun s hs s' hs' => agree s (submitted_append call hs) s' (submitted_append call hs')
    · intro pre r now accepted post split ok
      exact honest pre r now accepted (post ++ [call]) (by simp [split]) ok

end Runs

/-! ### The result -/

/-- In every reachable state the output of every finished task is the digest of
its value in the sequential evaluation of its own build. -/
theorem outputs_match_reference {H : Sha256} {blob : Str → Str} {tool : Tool} {o : Options}
    {calls : List Call} {c : Coordinator} (inverse : Function.LeftInverse blob H.hex)
    (run : Runs (Step H o) {} calls c) (shaped : ∀ spec ∈ submitted calls, spec.Shaped H)
    (agree : KeysAgree blob tool (submitted calls)) (honest : Honest H tool calls) :
    ∀ t ∈ c.db.tasks, t.state.finished = true → ∃ spec, specOf calls t.buildId = some spec ∧
      t.output = some (H.hex (reference blob tool spec t.id)) := by
  intro t ht done
  have kept := Runs.kept inverse run shaped agree honest
  obtain ⟨spec, -, hb, -⟩ := kept.faithful.placed t ht
  exact ⟨spec, hb, kept.faithful.outputs t ht done spec hb⟩

/-- A tool for the sample: it joins its input files behind a mark. -/
def sampleTool : Tool := fun _ _ _ files => "o:".toList ++ files.flatMap Prod.snd

/-- The sample's rows after the submit: the object is ready, the library waits. -/
def sampleObject : TaskRow where
  uid := 1
  buildId := 1
  id := 0
  kind := COMPILE
  name := "obj/f.c.o".toList
  key := some sampleKey
  input := some sampleInput
  args := "cc".toList
  inputs := some sampleInput
  inputNames := some "in.i".toList
  toolchain := "gcc".toList
  cost := 10
  priority := 1010
  part := 0
  state := .ready
  pendingDeps := 0
  output := none

def sampleLibrary : TaskRow where
  uid := 2
  buildId := 1
  id := 1
  kind := ARCHIVE
  name := "libf.a".toList
  key := none
  input := none
  args := []
  inputs := none
  inputNames := none
  toolchain := "gcc".toList
  cost := 1000
  priority := 1000
  part := 0
  state := .waiting
  pendingDeps := 1
  output := none

/-- What the worker reports for the object. -/
def sampleResult : TaskResult := ⟨1, 1, "w".toList, true, false, sampleOutput, [], 7⟩

theorem sampleSpec_shaped : sampleSpec.Shaped sampleSha where
  toolchain := by decide
  tasks ts member := by
    simp only [sampleSpec, List.mem_cons, List.not_mem_nil, or_false] at member
    rcases member with rfl | rfl
    · refine ⟨fun _ => ⟨rfl, ["gcc".toList, "c".toList, [], "int f;".toList], by decide, by decide⟩,
        fun h => absurd rfl h, by decide, by decide, by decide⟩
    · exact ⟨fun h => absurd h (by decide), fun _ => ⟨Or.inl rfl, by decide, by decide⟩, by decide,
        by decide, by decide⟩

/-- The sample build up to the object: upload, submit, claim, upload of the
object, completion. The done object has the digest of the reference value. -/
theorem outputs_match_reference_sample :
    ∃ calls c, Runs (Step sampleSha {}) {} calls c ∧ (∃ t ∈ c.db.tasks, t.state = .done) ∧
      ∀ t ∈ c.db.tasks, t.state.finished = true → ∃ spec, specOf calls t.buildId = some spec ∧
        t.output = some (sampleSha.hex
          (reference (Sha256.tableBlob sampleTable) sampleTool spec t.id)) := by
  let blobs : Blobs := [(sampleInput, "int f;".toList)]
  let blobs' : Blobs := [(sampleInput, "int f;".toList), (sampleOutput, "o:int f;".toList)]
  let db : Db := ⟨[⟨1, "gcc".toList, .running, 2⟩], [sampleObject, sampleLibrary], [⟨1, 1, 0, 0⟩], [], 2, 3⟩
  let claimed := claimedRow {} "w".toList 0 sampleObject
  let cfg := (run sampleSha {} 20 ⟨db.apply (.task claimed), completeTask blobs'.has blobs'.sizeOf 9
    sampleResult, []⟩).get (by decide +kernel)
  have submitted_ : submitBuild sampleSha {} blobs.has {} 1 sampleSpec = (db, .ok (1, 0)) := by decide +kernel
  have upload : Step sampleSha {} {} (.putBlob "int f;".toList [] true) ⟨{}, blobs⟩ := .putBlob rfl
  have submit : Step sampleSha {} ⟨{}, blobs⟩ (.submitBuild sampleSpec 1 (.ok (1, 0))) ⟨db, blobs⟩ := by
    have step : Step sampleSha {} ⟨{}, blobs⟩
        (.submitBuild sampleSpec 1 (submitBuild sampleSha {} blobs.has {} 1 sampleSpec).2)
        ⟨(submitBuild sampleSha {} blobs.has {} 1 sampleSpec).1, blobs⟩ := .submitBuild
    rw [submitted_] at step
    exact step
  have claim : Step sampleSha {} ⟨db, blobs⟩
      (.claimTask "w".toList "gcc".toList 0 0 (some (assignmentOf claimed)))
      ⟨db.apply (.task claimed), blobs⟩ :=
    .claimTask (t := sampleObject) ⟨by decide, by decide⟩ (by decide)
  have upload' : Step sampleSha {} ⟨db.apply (.task claimed), blobs⟩
      (.putBlob "o:int f;".toList [] true) ⟨db.apply (.task claimed), blobs'⟩ := .putBlob rfl
  have complete : Step sampleSha {} ⟨db.apply (.task claimed), blobs'⟩
      (.completeTask sampleResult 9 _) ⟨cfg.db, blobs'⟩ :=
    .completeTask (Option.some_get _).symm
  have run := ((((Runs.nil.snoc upload).snoc submit).snoc claim).snoc upload').snoc complete
  refine ⟨_, _, run, by decide +kernel, outputs_match_reference ?_ run ?_ ?_ ?_⟩
  · exact Sha256.ofTable_inverse _ (by decide) (by decide)
  · intro spec member
    obtain rfl : spec = sampleSpec := by simpa [submitted] using member
    exact sampleSpec_shaped
  · intro spec member spec' member' ts hts ts' hts' compile compile' _
    obtain rfl : spec = sampleSpec := by simpa [submitted] using member
    obtain rfl : spec' = sampleSpec := by simpa [submitted] using member'
    simp only [sampleSpec, List.mem_cons, List.not_mem_nil, or_false] at hts hts'
    rcases hts with rfl | rfl
    · rcases hts' with rfl | rfl
      · rfl
      · exact absurd compile' (by decide)
    · exact absurd compile (by decide)
  · intro pre r now accepted post split ok
    -- the completion is the last call, so the claim is before it
    have last : pre = [.putBlob "int f;".toList [] true, .submitBuild sampleSpec 1 (.ok (1, 0)),
        .claimTask "w".toList "gcc".toList 0 0 (some (assignmentOf claimed)),
        .putBlob "o:int f;".toList [] true] ∧ r = sampleResult := by
      rcases pre with _ | ⟨_, _ | ⟨_, _ | ⟨_, _ | ⟨_, _ | ⟨_, pre⟩⟩⟩⟩⟩ <;> simp_all
    obtain ⟨rfl, rfl⟩ := last
    exact ⟨"w".toList, "gcc".toList, 0, 0, assignmentOf claimed, by simp, rfl, rfl,
      ["int f;".toList], by decide, by decide⟩

end DistCompile
