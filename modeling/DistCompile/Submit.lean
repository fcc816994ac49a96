import DistCompile.Completion

/-!
What `submit` inserts.

The walk visits tasks in dependency order and settles each from what it knows of
its dependencies. `Walked` is its loop invariant: a visited task has the columns
that `resolveInputs` gives for the rows as they are now, it is cached only with
an output the cache holds under its key, and it waits exactly when some
dependency has no output. The inserted rows then extend consistent tables to
consistent tables.
-/

namespace DistCompile

open DistCompile.Graph

/-! ### An iteration -/

section Iteration

variable {H : Sha256} {has : Str → Bool} {cache : Str → Option Str} {spec : BuildSpec} {w w' : Walk} {id : Nat}

/-- `hits` behind the look-up of a task's own key. -/
def hitsAfter (H : Sha256) (cache : Str → Option Str) (spec : BuildSpec) (w : Walk) (ts : TaskSpec) :
    Str → Option Str :=
  if ts.kind ≠ COMPILE ∧ (resolveInputs H spec w.row ts).pending = 0 ∧
      (w.hits (resolveInputs H spec w.row ts).key).isNone
  then Function.update w.hits (resolveInputs H spec w.row ts).key (cache (resolveInputs H spec w.row ts).key)
  else w.hits

/-- The output that is found for a task. -/
def hitFor (H : Sha256) (cache : Str → Option Str) (spec : BuildSpec) (w : Walk) (ts : TaskSpec) : Option Str :=
  if (resolveInputs H spec w.row ts).key = [] then none
  else hitsAfter H cache spec w ts (resolveInputs H spec w.row ts).key

/-- What an iteration makes of the variables of the walk. -/
inductive Visits (H : Sha256) (has : Str → Bool) (cache : Str → Option Str) (spec : BuildSpec) (w : Walk)
    (id : Nat) : Walk → Prop where
  | outside (missing : spec.tasks[id]? = none) : Visits H has cache spec w id w
  | cached {ts : TaskSpec} {output : Str} (found : spec.tasks[id]? = some ts)
      (hit : hitFor H cache spec w ts = some output) : Visits H has cache spec w id
        ⟨Function.update w.row id { resolveInputs H spec w.row ts with state := .cached, output },
          hitsAfter H cache spec w ts, w.cached + 1⟩
  | ready {ts : TaskSpec} (found : spec.tasks[id]? = some ts) (miss : hitFor H cache spec w ts = none)
      (known : (resolveInputs H spec w.row ts).pending = 0) (uploaded : ts.kind = COMPILE → has ts.input = true) :
      Visits H has cache spec w id
        ⟨Function.update w.row id { resolveInputs H spec w.row ts with state := .ready },
          hitsAfter H cache spec w ts, w.cached⟩
  | waiting {ts : TaskSpec} (found : spec.tasks[id]? = some ts) (miss : hitFor H cache spec w ts = none)
      (unknown : (resolveInputs H spec w.row ts).pending ≠ 0) : Visits H has cache spec w id
        ⟨Function.update w.row id { resolveInputs H spec w.row ts with state := .waiting },
          hitsAfter H cache spec w ts, w.cached⟩

theorem walkTask_visits (ran : walkTask H has cache spec w id = .ok w') : Visits H has cache spec w id w' := by
  unfold walkTask at ran
  split at ran
  · rename_i missing
    cases ran
    exact .outside missing
  · rename_i ts found
    dsimp only at ran
    split at ran
    · rename_i output hit
      cases ran
      exact .cached found hit
    · rename_i miss
      split at ran
      · rename_i known
        split at ran
        · cases ran
        · rename_i uploaded
          cases ran
          exact .ready found miss known fun compile => by simpa [compile] using uploaded
      · rename_i unknown
        cases ran
        exact .waiting found miss unknown

/-- An iteration fails only for a compile task whose input is missing. -/
theorem walkTask_refuses {e : Status} (failed : walkTask H has cache spec w id = .error e) :
    ∃ ts, spec.tasks[id]? = some ts ∧ ts.kind = COMPILE ∧ has ts.input = false ∧ hitFor H cache spec w ts = none := by
  unfold walkTask at failed
  split at failed
  · cases failed
  · rename_i ts found
    dsimp only at failed
    split at failed
    · cases failed
    · rename_i miss
      split at failed
      · split at failed
        · rename_i missing
          exact ⟨ts, found, missing.1, missing.2, miss⟩
        · cases failed
      · cases failed

/-- What is looked up on the way comes from the cache. -/
theorem hitsAfter_sound (sound : ∀ key output, w.hits key = some output → cache key = some output) (ts : TaskSpec) :
    ∀ key output, hitsAfter H cache spec w ts key = some output → cache key = some output := by
  intro key output hit
  rw [hitsAfter] at hit
  split at hit
  · by_cases same : key = (resolveInputs H spec w.row ts).key
    · rw [same, Function.update_self] at hit
      rw [same]
      exact hit
    · rw [Function.update_of_ne same] at hit
      exact sound key output hit
  · exact sound key output hit

/-- A look-up forgets nothing. -/
theorem hitsAfter_keeps (ts : TaskSpec) {key : Str} (known : (w.hits key).isSome = true) :
    hitsAfter H cache spec w ts key = w.hits key := by
  rw [hitsAfter]
  split
  · rename_i missing
    have other : key ≠ (resolveInputs H spec w.row ts).key := fun same => by
      rw [same] at known
      simp [Option.isNone_iff_eq_none.mp missing.2.2] at known
    rw [Function.update_of_ne other]
  · rfl

theorem hitsAfter_compile {ts : TaskSpec} (compile : ts.kind = COMPILE) : hitsAfter H cache spec w ts = w.hits :=
  if_neg fun asks => asks.1 compile

theorem lookupCompileKeys_some {key output : Str} (hit : lookupCompileKeys cache spec key = some output) :
    cache key = some output := by
  rw [lookupCompileKeys] at hit
  split at hit
  · exact hit
  · cases hit

/-- The keys of compile tasks are looked up before the walk. -/
theorem lookupCompileKeys_compile {ts : TaskSpec} (member : ts ∈ spec.tasks) (compile : ts.kind = COMPILE) :
    lookupCompileKeys cache spec ts.key = cache ts.key :=
  if_pos (List.any_eq_true.mpr ⟨ts, member, by simp [compile]⟩)

theorem resolveInputs_compile {row : Nat → Resolved} {ts : TaskSpec} (compile : ts.kind = COMPILE) :
    (resolveInputs H spec row ts).key = ts.key := by
  rw [resolveInputs, if_pos compile]

theorem resolveInputs_output {row : Nat → Resolved} {ts : TaskSpec} : (resolveInputs H spec row ts).output = [] := by
  simp only [resolveInputs]
  split_ifs <;> rfl

end Iteration

/-! ### The walk -/

section Walk

variable {H : Sha256} {has : Str → Bool} {cache : Str → Option Str} {spec : BuildSpec}

/-- Compile tasks have no dependencies: their input comes with the spec. -/
def BuildSpec.Flat (spec : BuildSpec) : Prop :=
  ∀ ts ∈ spec.tasks, ts.kind = COMPILE → ts.deps = []

/-- The walk has the outputs of what compile tasks depend on. -/
def Walk.Supplies (w : Walk) (spec : BuildSpec) : Prop :=
  ∀ ts ∈ spec.tasks, ts.kind = COMPILE → ∀ d ∈ ts.depIds, (w.row d).output ≠ []

/-- When the spec is submitted, the cache knows the outputs of what its compile tasks depend on. -/
def BuildSpec.Supplied (H : Sha256) (has : Str → Bool) (cache : Str → Option Str) (spec : BuildSpec) : Prop :=
  ∀ order w, topoOrder spec.graph = .ok order → walk H has cache spec order = .ok w → w.Supplies spec

theorem BuildSpec.Flat.supplies (flat : spec.Flat) (w : Walk) : w.Supplies spec := by
  intro ts member compile d hd
  simp [TaskSpec.depIds, flat ts member compile] at hd

theorem BuildSpec.Flat.supplied (flat : spec.Flat) : spec.Supplied H has cache :=
  fun _ w _ _ => flat.supplies w

/-- The row of a visited task. -/
structure Settled (H : Sha256) (cache : Str → Option Str) (spec : BuildSpec)
    (row : Nat → Resolved) (i : Nat) (ts : TaskSpec) : Prop where
  key : (row i).key = (resolveInputs H spec row ts).key
  inputs : (row i).inputs = (resolveInputs H spec row ts).inputs
  names : (row i).names = (resolveInputs H spec row ts).names
  pending : (row i).pending = (resolveInputs H spec row ts).pending
  state : ((row i).state = .cached ∧ (ts.kind ≠ COMPILE → (row i).pending = 0) ∧
      cache (row i).key = some (row i).output) ∨
    ((row i).state = .ready ∧ (row i).pending = 0 ∧ (row i).output = []) ∨
    ((row i).state = .waiting ∧ 0 < (row i).pending ∧ (row i).output = [])

/-- The loop invariant of the walk, after the tasks `pre`. -/
structure Walked (H : Sha256) (cache : Str → Option Str) (spec : BuildSpec) (pre : List Nat)
    (w : Walk) : Prop where
  settled : ∀ i ∈ pre, ∀ ts, spec.tasks[i]? = some ts → Settled H cache spec w.row i ts
  closed : ∀ i ∈ pre, ∀ ts, spec.tasks[i]? = some ts → ∀ d ∈ ts.depIds, d ∈ pre
  hits : ∀ key output, w.hits key = some output → cache key = some output

theorem resolveInputs_congr {row row' : Nat → Resolved} {ts : TaskSpec}
    (same : ∀ d ∈ ts.depIds, row d = row' d) :
    resolveInputs H spec row ts = resolveInputs H spec row' ts := by
  have known : (ts.depIds.filter fun d => (row d).output ≠ []) =
      ts.depIds.filter fun d => (row' d).output ≠ [] :=
    List.filter_congr fun d hd => by rw [same d hd]
  have pending : (ts.depIds.countP fun d => (row d).output = []) =
      ts.depIds.countP fun d => (row' d).output = [] :=
    List.countP_congr fun d hd => by rw [same d hd]
  have outputs : ((ts.depIds.filter fun d => (row' d).output ≠ []).map fun d => (row d).output) =
      (ts.depIds.filter fun d => (row' d).output ≠ []).map fun d => (row' d).output :=
    List.map_congr_left fun d hd => by rw [same d (List.mem_of_mem_filter hd)]
  simp only [resolveInputs, known, pending, outputs]

/-- The key of an archive or a link is known before the cache is asked only when nothing is
missing. -/
theorem resolveInputs_pending {row : Nat → Resolved} {ts : TaskSpec} (action : ts.kind ≠ COMPILE)
    (key : (resolveInputs H spec row ts).key ≠ []) : (resolveInputs H spec row ts).pending = 0 := by
  unfold resolveInputs at key ⊢
  dsimp only at key ⊢
  rw [if_neg action] at key ⊢
  split
  · assumption
  · rename_i missing
    rw [if_neg missing] at key
    exact absurd rfl key

/-- Writing the row of a new task leaves what is settled about the others. -/
theorem Settled.update {row : Nat → Resolved} {i id : Nat} {ts : TaskSpec} {r : Resolved}
    (s : Settled H cache spec row i ts) (other : i ≠ id) (apart : id ∉ ts.depIds) :
    Settled H cache spec (Function.update row id r) i ts := by
  have here : Function.update row id r i = row i := Function.update_of_ne other r row
  have same : resolveInputs H spec (Function.update row id r) ts = resolveInputs H spec row ts :=
    resolveInputs_congr fun d hd => Function.update_of_ne (fun h => apart (by rw [← h]; exact hd)) r row
  exact ⟨by rw [here, same, s.key], by rw [here, same, s.inputs], by rw [here, same, s.names],
    by rw [here, same, s.pending], by rw [here]; exact s.state⟩

/-- The row written for a task settles it. -/
theorem Settled.new {row : Nat → Resolved} {id : Nat} {ts : TaskSpec} {state : TaskState}
    {output : Str} (apart : id ∉ ts.depIds)
    (outcome : (state = .cached ∧ (ts.kind ≠ COMPILE → (resolveInputs H spec row ts).pending = 0) ∧
        cache (resolveInputs H spec row ts).key = some output) ∨
      (state = .ready ∧ (resolveInputs H spec row ts).pending = 0 ∧ output = []) ∨
      (state = .waiting ∧ 0 < (resolveInputs H spec row ts).pending ∧ output = [])) :
    Settled H cache spec
      (Function.update row id { resolveInputs H spec row ts with state, output }) id ts := by
  have same : ∀ r, resolveInputs H spec (Function.update row id r) ts = resolveInputs H spec row ts :=
    fun r => resolveInputs_congr fun d hd =>
      Function.update_of_ne (fun h => apart (by rw [← h]; exact hd)) r row
  exact ⟨by rw [Function.update_self, same], by rw [Function.update_self, same],
    by rw [Function.update_self, same], by rw [Function.update_self, same],
    by rw [Function.update_self]; exact outcome⟩

/-- A row update keeps the loop invariant when it settles the visited task. -/
theorem Walked.visit {pre : List Nat} {w : Walk} (inv : Walked H cache spec pre w) {id : Nat}
    (fresh : id ∉ pre) {ts : TaskSpec} (found : spec.tasks[id]? = some ts)
    (deps : ∀ d ∈ ts.depIds, d ∈ pre) {hits : Str → Option Str} {cached : Nat}
    (sound : ∀ key output, hits key = some output → cache key = some output) {r : Resolved}
    (settles : Settled H cache spec (Function.update w.row id r) id ts) :
    Walked H cache spec (pre ++ [id]) ⟨Function.update w.row id r, hits, cached⟩ where
  settled i hi ts' found' := by
    rcases List.mem_append.mp hi with old | new
    · refine (inv.settled i old ts' found').update (fun h => fresh (h ▸ old)) fun h => ?_
      exact fresh (inv.closed i old ts' found' id h)
    · obtain rfl := List.mem_singleton.mp new
      rw [found] at found'
      cases found'
      exact settles
  closed i hi ts' found' d hd := by
    rcases List.mem_append.mp hi with old | new
    · exact List.mem_append_left _ (inv.closed i old ts' found' d hd)
    · obtain rfl := List.mem_singleton.mp new
      rw [found] at found'
      cases found'
      exact List.mem_append_left _ (deps d hd)
  hits := sound

/-- One iteration. -/
theorem walkTask_walked {pre : List Nat} {w w' : Walk}
    (inv : Walked H cache spec pre w) {id : Nat} (fresh : id ∉ pre)
    (deps : ∀ ts, spec.tasks[id]? = some ts → ∀ d ∈ ts.depIds, d ∈ pre)
    (ran : walkTask H has cache spec w id = .ok w') : Walked H cache spec (pre ++ [id]) w' := by
  cases walkTask_visits ran with
  | outside missing =>
    refine ⟨fun i hi ts found => ?_, fun i hi ts found d hd => ?_, inv.hits⟩
    · rcases List.mem_append.mp hi with old | new
      · exact inv.settled i old ts found
      · rw [List.mem_singleton.mp new, missing] at found
        cases found
    · rcases List.mem_append.mp hi with old | new
      · exact List.mem_append_left _ (inv.closed i old ts found d hd)
      · rw [List.mem_singleton.mp new, missing] at found
        cases found
  | @cached ts output found hit =>
    have apart : id ∉ ts.depIds := fun h => fresh (deps ts found id h)
    have sound : ∀ key output, hitsAfter H cache spec w ts key = some output → cache key = some output :=
      hitsAfter_sound inv.hits ts
    rw [hitFor] at hit
    split at hit
    · cases hit
    · rename_i key
      refine inv.visit fresh found (deps ts found) sound (Settled.new apart (Or.inl ⟨rfl, fun action => ?_, sound _ _ hit⟩))
      exact resolveInputs_pending action key
  | @ready ts found _ known _ =>
    have apart : id ∉ ts.depIds := fun h => fresh (deps ts found id h)
    exact inv.visit fresh found (deps ts found) (hitsAfter_sound inv.hits ts)
      (Settled.new apart (Or.inr (Or.inl ⟨rfl, known, resolveInputs_output⟩)))
  | @waiting ts found _ unknown =>
    have apart : id ∉ ts.depIds := fun h => fresh (deps ts found id h)
    exact inv.visit fresh found (deps ts found) (hitsAfter_sound inv.hits ts)
      (Settled.new apart (Or.inr (Or.inr ⟨rfl, Nat.pos_of_ne_zero unknown, resolveInputs_output⟩)))

/-- The whole walk settles every task of the order. -/
theorem walk_walked {order : List Nat} (topo : IsTopoOrder spec.graph order)
    {w : Walk} (ran : walk H has cache spec order = .ok w) : Walked H cache spec order w := by
  have nodup : order.Nodup := topo.perm.nodup_iff.mpr List.nodup_range
  have steps : ∀ rest pre w₀, order = pre ++ rest → Walked H cache spec pre w₀ →
      rest.foldlM (walkTask H has cache spec) w₀ = .ok w → Walked H cache spec order w := by
    intro rest
    induction rest with
    | nil =>
      intro pre w₀ split inv ran
      cases ran
      rw [split, List.append_nil]
      exact inv
    | cons id rest ih =>
      intro pre w₀ split inv ran
      rw [List.foldlM_cons] at ran
      cases first : walkTask H has cache spec w₀ id with
      | error e =>
        rw [first] at ran
        cases ran
      | ok w₁ =>
        rw [first] at ran
        refine ih (pre ++ [id]) w₁ (by simp [split]) (walkTask_walked inv ?_ ?_ first) ran
        · rw [split, List.nodup_append] at nodup
          exact fun h => nodup.2.2 id h id (by simp) rfl
        · intro ts found d hd
          refine topo.before pre id rest split d ?_
          simpa [depsOf, BuildSpec.graph, found, TaskSpec.depIds] using hd
  exact steps order [] _ rfl ⟨by simp, by simp, fun _ _ => lookupCompileKeys_some⟩ ran

end Walk

/-! ### The inserted rows -/

section Rows

variable {spec : BuildSpec} {rank part : Nat → Int} {build uid : Nat} {row : Nat → Resolved}

theorem mem_insertedTasks {t : TaskRow} :
    t ∈ insertedTasks spec rank part build uid row ↔ ∃ id ts, spec.tasks[id]? = some ts ∧
      t = insertedTask spec rank part build (uid + id) row ts id := by
  simp only [insertedTasks, List.mem_map, Prod.exists, List.mk_mem_zipIdx_iff_getElem?]
  constructor
  · rintro ⟨ts, id, found, rfl⟩
    exact ⟨id, ts, found, rfl⟩
  · rintro ⟨id, ts, found, rfl⟩
    exact ⟨ts, id, found, rfl⟩

/-- Of the rows grouped by index, one index has its group. -/
private theorem flatMap_zipIdx_single {α β : Type} {f : α × Nat → List β} {id : Nat} {a : α}
    (others : ∀ b j, j ≠ id → f (b, j) = []) (l : List α) (start : Nat) (le : start ≤ id)
    (found : l[id - start]? = some a) : (l.zipIdx start).flatMap f = f (a, id) := by
  induction l generalizing start with
  | nil => simp at found
  | cons b l ih =>
    rw [List.zipIdx_cons, List.flatMap_cons]
    by_cases here : start = id
    · subst here
      simp only [Nat.sub_self, List.getElem?_cons_zero, Option.some.injEq] at found
      subst found
      have rest : (l.zipIdx (start + 1)).flatMap f = [] := by
        refine List.flatMap_eq_nil_iff.mpr fun p hp => others p.1 p.2 ?_
        have := List.le_snd_of_mem_zipIdx hp
        omega
      rw [rest, List.append_nil]
    · rw [others b start here, List.nil_append]
      refine ih (start + 1) (by omega) ?_
      have shift : id - start = (id - (start + 1)) + 1 := by omega
      rwa [shift, List.getElem?_cons_succ] at found

/-- The edges into task `id`, in the order of the spec. -/
theorem insertedDeps_of_task {id : Nat} {ts : TaskSpec} (found : spec.tasks[id]? = some ts) :
    ((insertedDeps spec build).filter fun d => d.task = id) =
      ts.depIds.zipIdx.map fun p => ⟨build, id, p.1, p.2⟩ := by
  rw [insertedDeps, List.filter_flatMap,
    flatMap_zipIdx_single ?_ spec.tasks 0 (Nat.zero_le id) (a := ts) (by simpa using found)]
  · refine List.filter_eq_self.mpr fun d hd => ?_
    obtain ⟨p, -, rfl⟩ := List.mem_map.mp hd
    simp
  · intro ts' j other
    refine List.filter_eq_nil_iff.mpr fun d hd => ?_
    obtain ⟨p, -, rfl⟩ := List.mem_map.mp hd
    simpa using other

theorem mem_insertedDeps {d : TaskDep} (hd : d ∈ insertedDeps spec build) :
    d.build = build ∧ ∃ ts, spec.tasks[d.task]? = some ts ∧ d.dep ∈ ts.depIds := by
  obtain ⟨⟨ts, id⟩, member, inner⟩ := List.mem_flatMap.mp hd
  obtain ⟨⟨dep, pos⟩, edge, rfl⟩ := List.mem_map.mp inner
  refine ⟨rfl, ts, List.mk_mem_zipIdx_iff_getElem?.mp member, ?_⟩
  exact List.mem_of_getElem? (List.mk_mem_zipIdx_iff_getElem?.mp edge)

theorem insertedTask_slot (ts : TaskSpec) (id : Nat) :
    (insertedTask spec rank part build uid row ts id).slot = (build, id) := rfl

end Rows

/-! ### The tables after the inserts -/

/-- Edges belong to builds that exist. -/
theorem Consistent.dep_build {H : Sha256} {db : Db} (base : Consistent H db) {d : TaskDep}
    (hd : d ∈ db.deps) : d.build < db.nextBuild := by
  obtain ⟨t, ht, slot⟩ := base.linked.target d hd
  have build : t.buildId = d.build := congrArg Prod.fst slot
  rw [← build]
  exact (base.fresh t ht).1

section Insert

variable {H : Sha256} {db : Db} {spec : BuildSpec} {rank part : Nat → Int} {w : Walk}

/-- A column that tells the new rows from each other and from the old ones stays a key. -/
theorem nodup_insertRows {α : Type} (f : TaskRow → α) (old : (db.tasks.map f).Nodup)
    (new : ∀ i ts j ts', f (insertedTask spec rank part db.nextBuild (db.nextUid + i) w.row ts i) =
      f (insertedTask spec rank part db.nextBuild (db.nextUid + j) w.row ts' j) → i = j)
    (apart : ∀ t ∈ db.tasks, ∀ i ts,
      f t ≠ f (insertedTask spec rank part db.nextBuild (db.nextUid + i) w.row ts i)) :
    ((insertRows db spec rank part w).tasks.map f).Nodup := by
  rw [insertRows, List.map_append, List.nodup_append]
  refine ⟨old, ?_, ?_⟩
  · rw [insertedTasks, List.map_map, List.Nodup, List.pairwise_map, List.pairwise_iff_getElem]
    intro i j hi hj lt same
    simp only [List.getElem_zipIdx, Function.comp_apply] at same
    have := new _ _ _ _ same
    omega
  · intro a ha b hb same
    obtain ⟨t, ht, rfl⟩ := List.mem_map.mp ha
    obtain ⟨u, hu, rfl⟩ := List.mem_map.mp hb
    obtain ⟨i, ts, -, rfl⟩ := mem_insertedTasks.mp hu
    exact apart t ht i ts same

theorem insertRows_keyed (base : Consistent H db) : (insertRows db spec rank part w).Keyed := by
  refine ⟨nodup_insertRows _ base.keyed.uids (fun i ts j ts' same => ?_) fun t ht i ts same => ?_,
    nodup_insertRows _ base.keyed.slots (fun i ts j ts' same => ?_) fun t ht i ts same => ?_⟩
  · exact Nat.add_left_cancel same
  · have := (base.fresh t ht).2
    change t.uid = db.nextUid + i at same
    simp only [Db.serials] at this
    omega
  · exact congrArg Prod.snd same
  · have := (base.fresh t ht).1
    have build : t.buildId = db.nextBuild := congrArg Prod.fst same
    simp only [Db.serials] at this
    omega

/-- The row of task `id` of the new build. -/
theorem mem_insertRows {id : Nat} {ts : TaskSpec} (found : spec.tasks[id]? = some ts) :
    insertedTask spec rank part db.nextBuild (db.nextUid + id) w.row ts id ∈
      (insertRows db spec rank part w).tasks :=
  List.mem_append_right _ (mem_insertedTasks.mpr ⟨id, ts, found, rfl⟩)

/-- The new build has no other rows. -/
theorem of_mem_insertRows (base : Consistent H db) {t : TaskRow} (ht : t ∈ (insertRows db spec rank part w).tasks)
    (own : t.buildId = db.nextBuild) : ∃ id ts, spec.tasks[id]? = some ts ∧
      t = insertedTask spec rank part db.nextBuild (db.nextUid + id) w.row ts id := by
  rcases List.mem_append.mp ht with old | new
  · have older := (base.fresh t old).1
    simp only [Db.serials] at older
    omega
  · exact mem_insertedTasks.mp new

theorem finished_insertRows_old {s : Nat × Nat} (old : s.1 < db.nextBuild) :
    (insertRows db spec rank part w).Finished s ↔ db.Finished s := by
  constructor
  · rintro ⟨t, ht, slot, done⟩
    rcases List.mem_append.mp ht with before | new
    · exact ⟨t, before, slot, done⟩
    · obtain ⟨id, ts, -, rfl⟩ := mem_insertedTasks.mp new
      rw [← slot] at old
      exact absurd old (lt_irrefl _)
  · rintro ⟨t, ht, slot, done⟩
    exact ⟨t, List.mem_append_left _ ht, slot, done⟩

theorem finished_insertRows_new (base : Consistent H db) {id : Nat} {ts : TaskSpec}
    (found : spec.tasks[id]? = some ts) :
    (insertRows db spec rank part w).Finished (db.nextBuild, id) ↔
      (w.row id).state.finished = true := by
  constructor
  · rintro ⟨t, ht, slot, done⟩
    rw [(insertRows_keyed base).slot_inj ht (mem_insertRows found) slot] at done
    exact done
  · intro done
    exact ⟨_, mem_insertRows found, rfl, done⟩

theorem unfinishedDeps_insertRows_old (base : Consistent H db) {s : Nat × Nat}
    (old : s.1 < db.nextBuild) :
    (insertRows db spec rank part w).unfinishedDeps s = db.unfinishedDeps s := by
  rw [Db.unfinishedDeps, insertRows, List.countP_append, Db.unfinishedDeps]
  have new : (insertedDeps spec db.nextBuild).countP (fun d => d.target = s ∧
      ¬ (insertRows db spec rank part w).Finished d.source) = 0 := by
    refine List.countP_eq_zero.mpr fun d hd => ?_
    rw [decide_eq_true_eq]
    rintro ⟨target, -⟩
    have build := (mem_insertedDeps hd).1
    rw [← target] at old
    change d.build < _ at old
    omega
  refine (congrArg _ new).trans ?_
  rw [Nat.add_zero]
  refine List.countP_congr fun d hd => ?_
  have source : (insertRows db spec rank part w).Finished d.source ↔ db.Finished d.source :=
    finished_insertRows_old (base.dep_build hd)
  rw [decide_eq_true_eq, decide_eq_true_eq]
  exact and_congr_right fun _ => not_congr source

theorem inputsOf_insertRows_old (base : Consistent H db) {build id : Nat}
    (old : build < db.nextBuild) :
    (insertRows db spec rank part w).inputsOf build id = db.inputsOf build id := by
  have edges : ((insertedDeps spec db.nextBuild).filter fun d => d.build = build && d.task = id) =
      [] := by
    refine List.filter_eq_nil_iff.mpr fun d hd => ?_
    have := (mem_insertedDeps hd).1
    simp only [Bool.and_eq_true, decide_eq_true_eq, not_and]
    omega
  rw [Db.inputsOf, Db.inputsOf, insertRows]
  dsimp only
  rw [List.filter_append, edges, List.append_nil]
  refine List.flatMap_congr fun d hd => ?_
  rw [List.mem_insertionSort, List.mem_filter] at hd
  rw [List.filter_append]
  refine (congrArg _ (List.filter_eq_nil_iff.mpr fun t ht => ?_)).trans (List.append_nil _)
  obtain ⟨j, ts, -, rfl⟩ := mem_insertedTasks.mp ht
  have := base.dep_build hd.1
  simp only [Bool.and_eq_true, decide_eq_true_eq, not_and]
  intro same
  change db.nextBuild = d.build at same
  omega

/-- The edges into a new task, as `dep_outputs` finds them. -/
theorem edges_insertRows_new (base : Consistent H db) {id : Nat} {ts : TaskSpec}
    (found : spec.tasks[id]? = some ts) :
    ((insertRows db spec rank part w).deps.filter fun d =>
      d.build = db.nextBuild && d.task = id) =
      ts.depIds.zipIdx.map fun p => ⟨db.nextBuild, id, p.1, p.2⟩ := by
  rw [insertRows]
  dsimp only
  rw [List.filter_append, ← insertedDeps_of_task found]
  have none_old : (db.deps.filter fun d => d.build = db.nextBuild && d.task = id) = [] := by
    refine List.filter_eq_nil_iff.mpr fun d hd => ?_
    have := base.dep_build hd
    simp only [Bool.and_eq_true, decide_eq_true_eq, not_and]
    omega
  rw [none_old, List.nil_append]
  refine List.filter_congr fun d hd => ?_
  simp [(mem_insertedDeps hd).1]

theorem edges_insertRows_sorted {build id : Nat} (ts : TaskSpec) :
    (ts.depIds.zipIdx.map fun p => (⟨build, id, p.1, p.2⟩ : TaskDep)).Pairwise
      fun d e => d.pos ≤ e.pos := by
  rw [List.pairwise_map, List.pairwise_iff_getElem]
  intro i j hi hj lt
  simp only [List.getElem_zipIdx]
  omega

/-- The inputs of a new task are the rows of its dependencies, in the order of
the spec. -/
theorem inputsOf_insertRows_new (base : Consistent H db) {id : Nat} {ts : TaskSpec}
    (found : spec.tasks[id]? = some ts) :
    (insertRows db spec rank part w).inputsOf db.nextBuild id = ts.depIds.flatMap fun d =>
      (insertRows db spec rank part w).tasks.filter fun t => t.buildId = db.nextBuild && t.id = d := by
  rw [Db.inputsOf, edges_insertRows_new base found, (edges_insertRows_sorted ts).insertionSort_eq,
    List.flatMap_map]
  conv_rhs => rw [← List.zipIdx_map_fst 0 ts.depIds, List.flatMap_map]

theorem unfinishedDeps_insertRows_new (base : Consistent H db) {id : Nat} {ts : TaskSpec}
    (found : spec.tasks[id]? = some ts) (inRange : ∀ d ∈ ts.depIds, ∃ td, spec.tasks[d]? = some td) :
    (insertRows db spec rank part w).unfinishedDeps (db.nextBuild, id) =
      ts.depIds.countP fun d => (w.row d).state.finished = false := by
  have old : db.deps.countP (fun d => d.target = (db.nextBuild, id) ∧
      ¬ (insertRows db spec rank part w).Finished d.source) = 0 := by
    refine List.countP_eq_zero.mpr fun d hd => ?_
    rw [decide_eq_true_eq]
    rintro ⟨target, -⟩
    have := base.dep_build hd
    have build : d.build = db.nextBuild := congrArg Prod.fst target
    omega
  have new : (insertedDeps spec db.nextBuild).countP (fun d => d.target = (db.nextBuild, id) ∧
        ¬ (insertRows db spec rank part w).Finished d.source) =
      ((insertedDeps spec db.nextBuild).filter fun d => d.task = id).countP
        fun d => ¬ (insertRows db spec rank part w).Finished (db.nextBuild, d.dep) := by
    rw [List.countP_filter]
    refine List.countP_congr fun d hd => ?_
    have build := (mem_insertedDeps hd).1
    simp [TaskDep.target, TaskDep.source, build, and_comm]
  rw [Db.unfinishedDeps]
  refine (List.countP_append).trans ?_
  rw [old, new, insertedDeps_of_task found, List.countP_map, Nat.zero_add]
  conv_rhs => rw [← List.zipIdx_map_fst 0 ts.depIds, List.countP_map]
  refine List.countP_congr fun p hp => ?_
  obtain ⟨td, dep⟩ := inRange p.1
    (List.mem_of_getElem? (List.mem_zipIdx_iff_getElem?.mp hp))
  have done : (insertRows db spec rank part w).Finished (db.nextBuild, p.1) ↔ _ :=
    finished_insertRows_new base dep
  simp [done]

end Insert

/-! ### Consistency of the new build -/

theorem resolveInputs_pending_eq {H : Sha256} {spec : BuildSpec} {row : Nat → Resolved}
    {ts : TaskSpec} : (resolveInputs H spec row ts).pending =
      ts.depIds.countP fun d => (row d).output = [] := by
  simp only [resolveInputs]
  split_ifs <;> rfl

/-- Once nothing is missing, an action's columns are those of all its
dependencies. -/
theorem resolveInputs_action {H : Sha256} {spec : BuildSpec} {row : Nat → Resolved} {ts : TaskSpec}
    (action : ts.kind ≠ COMPILE) (known : (resolveInputs H spec row ts).pending = 0) :
    (resolveInputs H spec row ts).key = actionKey H ts.kind spec.toolchain (joinLines ts.args)
        (ts.depIds.map spec.flatNameOf) (ts.depIds.map fun d => (row d).output) ∧
      (resolveInputs H spec row ts).inputs = joinLines (ts.depIds.map fun d => (row d).output) ∧
      (resolveInputs H spec row ts).names = joinLines (ts.depIds.map spec.flatNameOf) := by
  rw [resolveInputs_pending_eq] at known
  have all : (ts.depIds.filter fun d => (row d).output ≠ []) = ts.depIds := by
    refine List.filter_eq_self.mpr fun d hd => ?_
    simpa using List.countP_eq_zero.mp known d hd
  simp only [resolveInputs, action, known, all, if_true, if_false]
  exact ⟨trivial, trivial, trivial⟩

theorem Settled.finished_iff {H : Sha256} {cache : Str → Option Str} {spec : BuildSpec}
    {row : Nat → Resolved} {i : Nat} {ts : TaskSpec}
    (valid : ∀ key output, cache key = some output → validHash output = true)
    (s : Settled H cache spec row i ts) : (row i).state.finished = true ↔ (row i).output ≠ [] := by
  rcases s.state with ⟨state, -, hit⟩ | ⟨state, -, output⟩ | ⟨state, -, output⟩
  · simp [state, TaskState.finished, validHash_ne_nil (valid _ _ hit)]
  · simp [state, TaskState.finished, output]
  · simp [state, TaskState.finished, output]

section New

variable {H : Sha256} {db : Db} {spec : BuildSpec} {rank part : Nat → Int} {w : Walk}
  {order : List Nat}

/-- What `submit` reads of the cache. -/
abbrev Db.outputs (db : Db) (key : Str) : Option Str := (db.cached? key).map (·.output)

theorem outputs_valid (base : Consistent H db) (key output : Str)
    (hit : db.outputs key = some output) : validHash output = true := by
  obtain ⟨c, found, rfl⟩ := Option.map_eq_some_iff.mp hit
  exact base.cache c (List.mem_of_find?_eq_some found)

/-- Dependencies of an accepted spec are tasks of it. -/
theorem dep_found (topo : IsTopoOrder spec.graph order) {id : Nat} {ts : TaskSpec}
    (found : spec.tasks[id]? = some ts) {d : Nat} (hd : d ∈ ts.depIds) :
    ∃ td, spec.tasks[d]? = some td := by
  obtain ⟨d, member, rfl⟩ := List.mem_map.mp hd
  have inRange := topo.inRange id ⟨ts.id, ts.kind, ts.cost, ts.deps⟩
    (by simp [BuildSpec.graph, found]) d member
  have : d.toNat < spec.tasks.length := by
    have := inRange.2.1
    simp only [BuildSpec.graph, List.length_map] at this
    omega
  exact ⟨_, List.getElem?_eq_getElem this⟩

theorem settled_of_walked {cache : Str → Option Str} (topo : IsTopoOrder spec.graph order)
    (walked : Walked H cache spec order w) {id : Nat} {ts : TaskSpec}
    (found : spec.tasks[id]? = some ts) : Settled H cache spec w.row id ts := by
  refine walked.settled id (topo.perm.mem_iff.mpr (List.mem_range.mpr ?_)) ts found
  rw [BuildSpec.graph, List.length_map]
  exact (List.getElem?_eq_some_iff.mp found).1

/-- The names and outputs read back for a new task are those the walk used. -/
theorem inputs_insertRows (base : Consistent H db) (topo : IsTopoOrder spec.graph order) {id : Nat}
    {ts : TaskSpec} (found : spec.tasks[id]? = some ts) :
    (insertRows db spec rank part w).inputNames (db.nextBuild, id) = ts.depIds.map spec.flatNameOf ∧
      (insertRows db spec rank part w).inputDigests (db.nextBuild, id) =
        ts.depIds.map fun d => (w.row d).output := by
  have each : ∀ {α : Type} (f : TaskRow → α) (g : Nat → α),
      (∀ d td, spec.tasks[d]? = some td →
        f (insertedTask spec rank part db.nextBuild (db.nextUid + d) w.row td d) = g d) →
      ((insertRows db spec rank part w).inputsOf db.nextBuild id).map f = ts.depIds.map g := by
    intro α f g rows
    rw [inputsOf_insertRows_new base found, List.map_flatMap, List.map_eq_flatMap]
    refine List.flatMap_congr fun d hd => ?_
    obtain ⟨td, dep⟩ := dep_found topo found hd
    rw [Db.filter_slot (insertRows_keyed base) (mem_insertRows dep)
      (insertedTask_slot td d), List.map_singleton, rows d td dep]
  refine ⟨each _ _ fun d td dep => ?_, each _ _ fun d td dep => ?_⟩
  · simp [BuildSpec.flatNameOf, dep, insertedTask]
  · simp only [insertedTask, emptyIsNull]
    split
    · rename_i empty
      simp [empty]
    · rfl

/-- The columns of a new task that does not wait. -/
theorem columns_insertRows (base : Consistent H db) (topo : IsTopoOrder spec.graph order)
    (walked : Walked H db.outputs spec order w) {id : Nat} {ts : TaskSpec}
    (found : spec.tasks[id]? = some ts) (action : ts.kind ≠ COMPILE)
    (known : (w.row id).pending = 0) :
    Columns H (insertRows db spec rank part w)
      (insertedTask spec rank part db.nextBuild (db.nextUid + id) w.row ts id) := by
  have s := settled_of_walked topo walked found
  obtain ⟨key, inputs, names⟩ := resolveInputs_action action (s.pending ▸ known)
  obtain ⟨rowNames, rowDigests⟩ := inputs_insertRows base topo found
  refine ⟨?_, fun _ => Or.inr ?_, fun _ => Or.inr ?_⟩
  · rw [Db.keyOf, insertedTask_slot, rowNames, rowDigests]
    simp only [insertedTask, s.key, key, emptyIsNull, if_neg (actionKey_ne_nil H _ _ _ _ _)]
  · rw [insertedTask_slot, rowDigests]
    simp only [insertedTask, s.inputs, inputs]
  · rw [insertedTask_slot, rowNames]
    simp only [insertedTask, s.names, names]

theorem insertRows_fresh (base : Consistent H db) : (insertRows db spec rank part w).Fresh := by
  intro t ht
  change t.buildId < db.nextBuild + 1 ∧ t.uid < db.nextUid + spec.tasks.length
  rcases List.mem_append.mp ht with old | new
  · have := base.fresh t old
    simp only [Db.serials] at this
    omega
  · obtain ⟨id, ts, found, rfl⟩ := mem_insertedTasks.mp new
    have := (List.getElem?_eq_some_iff.mp found).1
    exact ⟨Nat.lt_succ_self _, Nat.add_lt_add_left this _⟩

theorem insertRows_linked (base : Consistent H db) (topo : IsTopoOrder spec.graph order) :
    (insertRows db spec rank part w).Linked := by
  constructor
  · intro d hd
    rcases List.mem_append.mp hd with old | new
    · obtain ⟨t, ht, slot⟩ := base.linked.source d old
      exact ⟨t, List.mem_append_left _ ht, slot⟩
    · obtain ⟨build, ts, found, dep⟩ := mem_insertedDeps new
      obtain ⟨td, dep⟩ := dep_found topo found dep
      exact ⟨_, mem_insertRows dep, by rw [insertedTask_slot, TaskDep.source, build]⟩
  · intro d hd
    rcases List.mem_append.mp hd with old | new
    · obtain ⟨t, ht, slot⟩ := base.linked.target d old
      exact ⟨t, List.mem_append_left _ ht, slot⟩
    · obtain ⟨build, ts, found, -⟩ := mem_insertedDeps new
      exact ⟨_, mem_insertRows found, by rw [insertedTask_slot, TaskDep.target, build]⟩

theorem insertRows_edges (base : Consistent H db)
    (unique : ((insertedDeps spec db.nextBuild).map TaskDep.primaryKey).Nodup) :
    ((insertRows db spec rank part w).deps.map TaskDep.primaryKey).Nodup := by
  change ((db.deps ++ insertedDeps spec db.nextBuild).map _).Nodup
  rw [List.map_append, List.nodup_append]
  refine ⟨base.edges, unique, fun a ha b hb same => ?_⟩
  obtain ⟨d, hd, rfl⟩ := List.mem_map.mp ha
  obtain ⟨e, he, rfl⟩ := List.mem_map.mp hb
  have old := base.dep_build hd
  have new := (mem_insertedDeps he).1
  have build : d.build = e.build := congrArg Prod.fst same
  omega

theorem insertRows_shape (base : Consistent H db) (supplies : w.Supplies spec)
    (topo : IsTopoOrder spec.graph order) (walked : Walked H db.outputs spec order w) {d : TaskDep}
    (hd : d ∈ (insertRows db spec rank part w).deps)
    (unfinished : ¬ (insertRows db spec rank part w).Finished d.source) {t : TaskRow}
    (ht : t ∈ (insertRows db spec rank part w).tasks) (slot : t.slot = d.target) :
    t.kind ≠ COMPILE := by
  have build : t.buildId = d.build := congrArg Prod.fst slot
  rcases List.mem_append.mp hd with oldDep | newDep
  · rcases List.mem_append.mp ht with old | new
    · exact base.shape d oldDep (fun done => unfinished ((finished_insertRows_old (base.dep_build oldDep)).mpr done))
        t old slot
    · obtain ⟨id, ts, -, rfl⟩ := mem_insertedTasks.mp new
      have := base.dep_build oldDep
      change db.nextBuild = d.build at build
      omega
  · obtain ⟨newBuild, ts, found, member⟩ := mem_insertedDeps newDep
    have here : t.slot = (db.nextBuild, d.task) := by rw [slot, TaskDep.target, newBuild]
    rw [(insertRows_keyed base).slot_inj ht (mem_insertRows found)
      (here.trans (insertedTask_slot ts d.task).symm)]
    intro compile
    -- what it depends on was in the cache
    have known := supplies ts (List.mem_of_getElem? found) compile d.dep member
    obtain ⟨td, dep⟩ := dep_found topo found member
    have done := ((settled_of_walked topo walked dep).finished_iff (outputs_valid base)).mpr known
    refine unfinished ?_
    rw [TaskDep.source, newBuild]
    exact (finished_insertRows_new base dep).mpr done

theorem columns_insertRows_old (base : Consistent H db) {t : TaskRow} (old : t ∈ db.tasks)
    (cols : Columns H db t) : Columns H (insertRows db spec rank part w) t := by
  have inputs : (insertRows db spec rank part w).inputsOf t.slot.1 t.slot.2 =
      db.inputsOf t.slot.1 t.slot.2 := inputsOf_insertRows_old base (base.fresh t old).1
  refine ⟨?_, ?_, ?_⟩
  · rw [cols.key, Db.keyOf, Db.keyOf, Db.inputNames, Db.inputNames, Db.inputDigests,
      Db.inputDigests, inputs]
  · rw [Db.inputDigests, inputs]; exact cols.inputs
  · rw [Db.inputNames, inputs]; exact cols.names

/-- The counter of a new task counts its unfinished dependencies. -/
theorem pending_insertRows (base : Consistent H db) (topo : IsTopoOrder spec.graph order)
    (walked : Walked H db.outputs spec order w) {id : Nat} {ts : TaskSpec}
    (found : spec.tasks[id]? = some ts) : (w.row id).pending =
      (insertRows db spec rank part w).unfinishedDeps (db.nextBuild, id) := by
  rw [unfinishedDeps_insertRows_new base found fun d hd => dep_found topo found hd,
    (settled_of_walked topo walked found).pending, resolveInputs_pending_eq]
  refine List.countP_congr fun d hd => ?_
  obtain ⟨td, dep⟩ := dep_found topo found hd
  have done := (settled_of_walked topo walked dep).finished_iff (outputs_valid base)
  rw [decide_eq_true_iff, decide_eq_true_iff, ← Bool.not_eq_true, done, ne_eq, not_not]

/-- Nothing is missing for a compile task, when the walk has what it depends on. -/
theorem Walk.Supplies.pending (supplies : w.Supplies spec) (topo : IsTopoOrder spec.graph order)
    (walked : Walked H db.outputs spec order w) {id : Nat} {ts : TaskSpec} (found : spec.tasks[id]? = some ts)
    (action : ts.kind ≠ COMPILE → (w.row id).pending = 0) : (w.row id).pending = 0 := by
  by_cases compile : ts.kind = COMPILE
  · rw [(settled_of_walked topo walked found).pending, resolveInputs_pending_eq, List.countP_eq_zero]
    intro d hd
    simpa using supplies ts (List.mem_of_getElem? found) compile d hd
  · exact action compile

/-- The inserts extend consistent tables to consistent tables. -/
theorem Consistent.insertRows (base : Consistent H db) (supplies : w.Supplies spec)
    (topo : IsTopoOrder spec.graph order) (walked : Walked H db.outputs spec order w)
    (unique : ((insertedDeps spec db.nextBuild).map TaskDep.primaryKey).Nodup) :
    Consistent H (insertRows db spec rank part w) where
  keyed := insertRows_keyed base
  fresh := insertRows_fresh base
  linked := insertRows_linked base topo
  edges := insertRows_edges base unique
  shape d hd unfinished t ht := insertRows_shape base supplies topo walked hd unfinished ht
  cache c hc := by
    obtain ⟨c₀, hc₀, rfl⟩ := List.mem_map.mp hc
    have := base.cache c₀ hc₀
    split
    · exact this
    · exact this
  pending t ht := by
    rcases List.mem_append.mp ht with old | new
    · rw [unfinishedDeps_insertRows_old base (base.fresh t old).1]
      exact base.pending t old
    · obtain ⟨id, ts, found, rfl⟩ := mem_insertedTasks.mp new
      exact congrArg _ (pending_insertRows base topo walked found)
  waiting t ht := by
    rcases List.mem_append.mp ht with old | new
    · exact base.waiting t old
    · obtain ⟨id, ts, found, rfl⟩ := mem_insertedTasks.mp new
      change (w.row id).state = .waiting ↔ (0 : Int) < (w.row id).pending
      rcases (settled_of_walked topo walked found).state with
        ⟨state, zero, -⟩ | ⟨state, zero, -⟩ | ⟨state, positive, -⟩
      · simp [state, supplies.pending topo walked found zero]
      · simp [state, zero]
      · simp [state, positive]
  output t ht := by
    rcases List.mem_append.mp ht with old | new
    · exact base.output t old
    · obtain ⟨id, ts, found, rfl⟩ := mem_insertedTasks.mp new
      intro done
      change (w.row id).state.finished = true at done
      rcases (settled_of_walked topo walked found).state with ⟨-, -, hit⟩ | ⟨state, -⟩ | ⟨state, -⟩
      · have valid := outputs_valid base _ _ hit
        refine ⟨(w.row id).output, ?_, valid⟩
        simp [insertedTask, emptyIsNull, validHash_ne_nil valid]
      · rw [state] at done; cases done
      · rw [state] at done; cases done
  columns t ht settled action := by
    rcases List.mem_append.mp ht with old | new
    · exact columns_insertRows_old base old (base.columns t old settled action)
    · obtain ⟨id, ts, found, rfl⟩ := mem_insertedTasks.mp new
      refine columns_insertRows base topo walked found action ?_
      rcases (settled_of_walked topo walked found).state with
        ⟨-, zero, -⟩ | ⟨-, zero, -⟩ | ⟨state, -⟩
      · exact zero action
      · exact zero
      · exact absurd state settled

end New

/-! ### The call -/

/-- What an accepted `submit_build` did: the walk it made and the rows it inserted. -/
theorem submitBuild_ok {H : Sha256} {o : Options} {has : Str → Bool} {db db' : Db} {live : Int}
    {spec : BuildSpec} {build cached : Nat}
    (ran : submitBuild H o has db live spec = (db', .ok (build, cached))) :
    badCompileTask spec = none ∧ build = db.nextBuild ∧ ∃ order rank part w,
      topoOrder spec.graph = .ok order ∧ walk H has db.outputs spec order = .ok w ∧
      ((insertedDeps spec db.nextBuild).map TaskDep.primaryKey).Nodup ∧
      db' = (insertRows db spec rank part w).maybeFinish H o db.nextBuild := by
  unfold submitBuild at ran
  split at ran
  · cases ran
  · rename_i good
    split at ran
    · cases ran
    · rename_i order topo
      unfold submit at ran
      split at ran
      · cases ran
      · rename_i w walked
        split at ran
        · cases ran
        · split at ran
          · rename_i unique
            cases ran
            exact ⟨good, rfl, order, _, _, w, topo, walked, unique, rfl⟩
          · cases ran

/-- A refused `submit_build` only moves the counters. -/
theorem submitBuild_error {H : Sha256} {o : Options} {has : Str → Bool} {db db' : Db} {live : Int}
    {spec : BuildSpec} {e : Status} (ran : submitBuild H o has db live spec = (db', .error e)) :
    ∃ builds uids, db' =
      { db with nextBuild := db.nextBuild + builds, nextUid := db.nextUid + uids } := by
  unfold submitBuild at ran
  split at ran
  · cases ran
    exact ⟨0, 0, rfl⟩
  · split at ran
    · cases ran
      exact ⟨0, 0, rfl⟩
    · unfold submit at ran
      split at ran
      · cases ran
        exact ⟨1, 0, rfl⟩
      · split at ran
        · cases ran
          exact ⟨1, 0, rfl⟩
        · split at ran
          · cases ran
          · cases ran
            exact ⟨1, spec.tasks.length, rfl⟩

theorem Consistent.skip {H : Sha256} {db : Db} (base : Consistent H db) (builds uids : Nat) :
    Consistent H { db with nextBuild := db.nextBuild + builds, nextUid := db.nextUid + uids } where
  keyed := ⟨base.keyed.uids, base.keyed.slots⟩
  fresh t ht := by
    have := base.fresh t ht
    simp only [Db.serials] at this ⊢
    omega
  linked := ⟨base.linked.source, base.linked.target⟩
  edges := base.edges
  shape := base.shape
  cache := base.cache
  pending := base.pending
  waiting := base.waiting
  output := base.output
  columns t ht settled action :=
    have cols := base.columns t ht settled action
    ⟨cols.key, cols.inputs, cols.names⟩

theorem Consistent.submitBuild {H : Sha256} {o : Options} {has : Str → Bool} {db : Db} {live : Int}
    {spec : BuildSpec} (base : Consistent H db) (supplied : spec.Supplied H has db.outputs) :
    Consistent H (submitBuild H o has db live spec).1 := by
  rcases ran : DistCompile.submitBuild H o has db live spec with ⟨db', e | ⟨build, cached⟩⟩
  · obtain ⟨builds, uids, rfl⟩ := submitBuild_error ran
    exact base.skip builds uids
  · obtain ⟨-, -, order, rank, part, w, accepted, walked, unique, rfl⟩ := submitBuild_ok ran
    have topo := topoOrder_ok accepted
    exact (base.insertRows (supplied order w accepted walked) topo (walk_walked topo walked) unique).maybeFinish _ |>.2

end DistCompile
