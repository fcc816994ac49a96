import DistCompile.Finish
import DistCompile.Stored
import DistCompile.Cascade

/-!
Resolving from the cache at submit, and at run time (`submit`, `finished` and `make_ready`
in `src/coordinator.cpp`).

`submit` settles each task in one walk over vectors in memory. The other way is to insert every
archive and link as waiting for all its dependencies, and to call `finished` for the compile
tasks that are in the cache: `make_ready` then finds the same keys from the rows.
Both leave consistent tables, in which every archive and link is what the cache says
(`TaskRow.ByCache`). Two such tables agree task by task along the dependencies
(`rows_alike`), so neither the order of the walk nor that of the calls matters.
-/

namespace DistCompile

open DistCompile.Lib DistCompile.Graph

/-! ### Tables that follow from the cache -/

/-- The same state, key, output and count of missing dependencies. -/
structure TaskRow.Alike (t u : TaskRow) : Prop where
  state : t.state = u.state
  key : t.key = u.key
  output : t.output = u.output
  pending : t.pendingDeps = u.pendingDeps

section Alike

variable {H : Sha256} {db db' : Db} {cache : Str → Option Str} {build : Nat}

/-- Rows in the same slots with the same fixed columns. -/
theorem Db.fixed_of_slot (fixed : db'.tasks.map TaskRow.fixed = db.tasks.map TaskRow.fixed) (k : db.Keyed)
    {t u : TaskRow} (ht : t ∈ db.tasks) (hu : u ∈ db'.tasks) (slot : u.slot = t.slot) : u.fixed = t.fixed := by
  obtain ⟨v, hv, same⟩ := Db.mem_of_fixed fixed.symm hu
  rw [← same, k.slot_inj hv ht ((slot_of_fixed same).trans slot)]

/-- What is read of the inputs of a task is the same when it is the same row by row. -/
theorem map_inputsOf_same {α : Type} {f : TaskRow → α} (k : db.Keyed) (l : db.Linked) (k' : db'.Keyed)
    (l' : db'.Linked) (deps : db'.deps = db.deps) {s : Nat × Nat}
    (each : ∀ d ∈ db.deps, d.target = s → ∀ t ∈ db.tasks, ∀ u ∈ db'.tasks, t.slot = d.source →
      u.slot = d.source → f t = f u) :
    (db.inputsOf s.1 s.2).map f = (db'.inputsOf s.1 s.2).map f := by
  rw [Db.inputsOf, Db.inputsOf, deps, List.map_flatMap, List.map_flatMap]
  refine List.flatMap_congr fun d hd => ?_
  rw [List.mem_insertionSort, List.mem_filter] at hd
  obtain ⟨member, target⟩ := hd
  obtain ⟨t, ht, slot⟩ := l.source d member
  obtain ⟨u, hu, slot'⟩ := l'.source d (deps ▸ member)
  rw [Db.filter_slot k ht slot, Db.filter_slot k' hu slot', List.map_singleton, List.map_singleton,
    each d member (by simpa [TaskDep.target, Prod.ext_iff] using target) t ht u hu slot slot']

/-- The row of an archive or a link, when those it depends on are alike. -/
theorem alike_step (base : Consistent H db) (base' : Consistent H db')
    (fixed : db'.tasks.map TaskRow.fixed = db.tasks.map TaskRow.fixed) (deps : db'.deps = db.deps)
    {t u : TaskRow} (ht : t ∈ db.tasks) (hu : u ∈ db'.tasks) (slot : u.slot = t.slot) (action : t.kind ≠ COMPILE)
    (byCache : t.ByCache cache) (byCache' : u.ByCache cache)
    (below : ∀ d ∈ db.deps, d.target = t.slot → ∀ v ∈ db.tasks, ∀ v' ∈ db'.tasks, v.slot = d.source →
      v'.slot = d.source → v.Alike v') : t.Alike u := by
  have same := Db.fixed_of_slot fixed base.keyed ht hu slot
  have pending : t.pendingDeps = u.pendingDeps := by
    rw [base.pending t ht, base'.pending u hu, Db.unfinishedDeps, Db.unfinishedDeps, deps, slot]
    refine congrArg Int.ofNat (List.countP_congr fun d hd => ?_)
    rw [decide_eq_true_eq, decide_eq_true_eq]
    refine and_congr_right fun target => not_congr ?_
    obtain ⟨v, hv, source⟩ := base.linked.source d hd
    obtain ⟨v', hv', source'⟩ := base'.linked.source d (deps ▸ hd)
    have alike := (below d hd target v hv v' hv' source source').state
    constructor
    · rintro ⟨x, hx, here, done⟩
      rw [base.keyed.slot_inj hx hv (here.trans source.symm), alike] at done
      exact ⟨v', hv', source', done⟩
    · rintro ⟨x, hx, here, done⟩
      rw [base'.keyed.slot_inj hx hv' (here.trans source'.symm), ← alike] at done
      exact ⟨v, hv, source, done⟩
  by_cases waits : t.state = .waiting
  · -- both wait, with nothing known
    have waits' : u.state = .waiting := (base'.waiting u hu).mpr (pending ▸ (base.waiting t ht).mp waits)
    rcases byCache with ⟨-, key, output⟩ | ⟨_, _, cached, -⟩ | ⟨_, ready, -⟩
    · rcases byCache' with ⟨-, key', output'⟩ | ⟨_, _, cached, -⟩ | ⟨_, ready, -⟩
      · exact ⟨waits.trans waits'.symm, key.trans key'.symm, output.trans output'.symm, pending⟩
      · rw [waits'] at cached
        cases cached
      · rw [waits'] at ready
        cases ready
    · rw [waits] at cached
      cases cached
    · rw [waits] at ready
      cases ready
  · -- both have a key, made of the same names and digests
    have waits' : u.state ≠ .waiting := fun h =>
      waits ((base.waiting t ht).mpr (pending ▸ (base'.waiting u hu).mp h))
    have names : db.inputNames t.slot = db'.inputNames t.slot :=
      map_inputsOf_same base.keyed base.linked base'.keyed base'.linked deps
        fun d _ _ v hv v' hv' source source' => by
          rw [name_of_fixed (Db.fixed_of_slot fixed base.keyed hv hv' (source'.trans source.symm))]
    have digests : db.inputDigests t.slot = db'.inputDigests t.slot :=
      map_inputsOf_same base.keyed base.linked base'.keyed base'.linked deps
        fun d hd target v hv v' hv' source source' => by
          rw [(below d hd target v hv v' hv' source source').output]
    have key : t.key = u.key := by
      rw [(base.columns t ht waits action).key,
        (base'.columns u hu waits' (by rwa [kind_of_fixed same])).key, keyOf_of_fixed same, Db.keyOf, Db.keyOf,
        names, digests]
    rcases byCache with ⟨waiting, -⟩ | ⟨k, out, cached, hasKey, output, known⟩ | ⟨k, ready, hasKey, output, unknown⟩
    · exact absurd waiting waits
    · rcases byCache' with ⟨waiting, -⟩ | ⟨k', out', cached', hasKey', output', known'⟩ |
        ⟨k', ready', hasKey', output', unknown'⟩
      · exact absurd waiting waits'
      · obtain rfl : k = k' := Option.some.inj (hasKey.symm.trans (key.trans hasKey'))
        refine ⟨cached.trans cached'.symm, key, ?_, pending⟩
        rw [output, output', ← known, ← known']
      · obtain rfl : k = k' := Option.some.inj (hasKey.symm.trans (key.trans hasKey'))
        rw [known] at unknown'
        cases unknown'
    · rcases byCache' with ⟨waiting, -⟩ | ⟨k', out', cached', hasKey', output', known'⟩ |
        ⟨k', ready', hasKey', output', unknown'⟩
      · exact absurd waiting waits'
      · obtain rfl : k = k' := Option.some.inj (hasKey.symm.trans (key.trans hasKey'))
        rw [known'] at unknown
        cases unknown
      · exact ⟨ready.trans ready'.symm, key, output.trans output'.symm, pending⟩

/-- Two tables of one build agree when their compile tasks do. -/
theorem rows_alike (base : Consistent H db) (base' : Consistent H db')
    (fixed : db'.tasks.map TaskRow.fixed = db.tasks.map TaskRow.fixed) (deps : db'.deps = db.deps)
    (layered : db.Layered)
    (byCache : ∀ t ∈ db.tasks, t.buildId = build → t.kind ≠ COMPILE → t.ByCache cache)
    (byCache' : ∀ u ∈ db'.tasks, u.buildId = build → u.kind ≠ COMPILE → u.ByCache cache)
    (compiles : ∀ t ∈ db.tasks, ∀ u ∈ db'.tasks, u.slot = t.slot → t.buildId = build → t.kind = COMPILE →
      t.Alike u) :
    ∀ t ∈ db.tasks, ∀ u ∈ db'.tasks, u.slot = t.slot → t.buildId = build → t.Alike u := by
  obtain ⟨rank, up⟩ := layered
  intro t ht u hu slot inBuild
  induction level : rank t.slot using Nat.strong_induction_on generalizing t u with
  | _ n ih =>
    by_cases compile : t.kind = COMPILE
    · exact compiles t ht u hu slot inBuild compile
    · have same := Db.fixed_of_slot fixed base.keyed ht hu slot
      refine alike_step base base' fixed deps ht hu slot compile (byCache t ht inBuild compile)
        (byCache' u hu (by rw [build_of_fixed same, inBuild]) (by rwa [kind_of_fixed same]))
        fun d hd target v hv v' hv' source source' => ?_
      refine ih (rank v.slot) ?_ v hv v' hv' (source'.trans source.symm) ?_ rfl
      · rw [← level, source, ← target]
        exact up d hd
      · have here : v.buildId = d.build := congrArg Prod.fst source
        have there : d.build = t.buildId := congrArg Prod.fst target
        rw [here, there, inBuild]

end Alike

/-! ### Rows that nothing is resolved in -/

/-- What is known of a task before any dependency is: a compile task is looked up by its key, an
archive or a link waits for all its dependencies. -/
def TaskSpec.unresolved (cache : Str → Option Str) (ts : TaskSpec) : Resolved :=
  if ts.kind = COMPILE then
    match cache ts.key with
    | some output => { state := .cached, output, key := ts.key, inputs := ts.input, names := "in.i".toList }
    | none => { state := .ready, key := ts.key, inputs := ts.input, names := "in.i".toList }
  else { state := .waiting, pending := ts.depIds.length }

/-- The vectors of a `submit` that leaves archives and links alone. -/
def BuildSpec.unresolved (spec : BuildSpec) (cache : Str → Option Str) : Walk where
  row id := (spec.tasks[id]?.map (TaskSpec.unresolved cache)).getD {}
  hits := cache
  cached := 0

/-- The compile tasks that are in the cache. -/
def BuildSpec.cachedUnits (spec : BuildSpec) (cache : Str → Option Str) : List Nat :=
  (List.range spec.tasks.length).filter fun id =>
    (spec.tasks[id]?).any fun ts => ts.kind = COMPILE && (cache ts.key).isSome

section Unresolved

variable {H : Sha256} {db : Db} {cache : Str → Option Str} {spec : BuildSpec} {order : List Nat}
  {rank part : Nat → Int} {ids : List Nat} {id : Nat} {ts : TaskSpec}

@[simp] theorem unresolved_row (found : spec.tasks[id]? = some ts) :
    (spec.unresolved cache).row id = ts.unresolved cache := by
  simp [BuildSpec.unresolved, found]

theorem unresolved_action (cache : Str → Option Str) (action : ts.kind ≠ COMPILE) :
    ts.unresolved cache = { state := .waiting, pending := ts.depIds.length } := by
  rw [TaskSpec.unresolved, if_neg action]

theorem unresolved_cached {output : Str} (compile : ts.kind = COMPILE) (hit : cache ts.key = some output) :
    ts.unresolved cache =
      { state := .cached, output, key := ts.key, inputs := ts.input, names := "in.i".toList } := by
  rw [TaskSpec.unresolved, if_pos compile, hit]

theorem unresolved_ready (cache : Str → Option Str) (compile : ts.kind = COMPILE) (miss : cache ts.key = none) :
    ts.unresolved cache = { state := .ready, key := ts.key, inputs := ts.input, names := "in.i".toList } := by
  rw [TaskSpec.unresolved, if_pos compile, miss]

theorem mem_cachedUnits :
    id ∈ spec.cachedUnits cache ↔ ∃ ts output, spec.tasks[id]? = some ts ∧ ts.kind = COMPILE ∧
      cache ts.key = some output := by
  rw [BuildSpec.cachedUnits, List.mem_filter, List.mem_range]
  constructor
  · rintro ⟨-, here⟩
    cases found : spec.tasks[id]? with
    | none =>
      rw [found] at here
      cases here
    | some ts =>
      rw [found, Option.any_some, Bool.and_eq_true, decide_eq_true_eq] at here
      obtain ⟨output, hit⟩ := Option.isSome_iff_exists.mp here.2
      exact ⟨ts, output, rfl, here.1, hit⟩
  · rintro ⟨ts, output, found, compile, hit⟩
    exact ⟨(List.getElem?_eq_some_iff.mp found).1, by simp [found, compile, hit]⟩

/-- With an empty cache, nothing is resolved by the walk either. -/
theorem unresolved_walked (layered : spec.Layered) (topo : IsTopoOrder spec.graph order) :
    Walked H (fun _ => none) spec order (spec.unresolved fun _ => none) := by
  have outputs : ∀ d, ((spec.unresolved fun _ => none).row d).output = [] := by
    intro d
    cases found : spec.tasks[d]? with
    | none => simp [BuildSpec.unresolved, found]
    | some td =>
      rw [unresolved_row found, TaskSpec.unresolved]
      split <;> rfl
  refine ⟨fun i hi ts found => ?_, fun i hi ts found d hd => ?_, fun key output hit => by cases hit⟩
  · have pending : (resolveInputs H spec (spec.unresolved fun _ => none).row ts).pending = ts.depIds.length := by
      rw [resolveInputs_pending_eq]
      exact List.countP_eq_length.mpr fun d _ => by simp [outputs]
    by_cases compile : ts.kind = COMPILE
    · have none_ : ts.depIds.length = 0 := by
        simp [TaskSpec.depIds, (layered ts (List.mem_of_getElem? found)).mp compile]
      have row := (unresolved_row found).trans (unresolved_ready (fun _ => none) compile rfl)
      refine ⟨?_, ?_, ?_, ?_, Or.inr (Or.inl ?_)⟩
      · rw [row, resolveInputs, if_pos compile]
      · rw [row, resolveInputs, if_pos compile]
      · rw [row, resolveInputs, if_pos compile]
      · rw [row, pending, none_]
      · rw [row]
        exact ⟨rfl, rfl, rfl⟩
    · have some_ : 0 < ts.depIds.length := by
        have deps := mt (layered ts (List.mem_of_getElem? found)).mpr compile
        rw [TaskSpec.depIds, List.length_map]
        exact List.length_pos_of_ne_nil deps
      have row := (unresolved_row found).trans (unresolved_action (fun _ => none) compile)
      have missing : (resolveInputs H spec (spec.unresolved fun _ => none).row ts).pending ≠ 0 := by omega
      rw [resolveInputs_pending_eq] at missing
      refine ⟨?_, ?_, ?_, ?_, Or.inr (Or.inr ?_)⟩
      · rw [row, resolveInputs, if_neg compile, if_neg missing]
      · rw [row, resolveInputs, if_neg compile, if_neg missing]
      · rw [row, resolveInputs, if_neg compile, if_neg missing]
      · rw [row, pending]
      · rw [row]
        exact ⟨rfl, some_, rfl⟩
  · obtain ⟨td, dep⟩ := dep_found topo found hd
    refine topo.perm.mem_iff.mpr (List.mem_range.mpr ?_)
    rw [BuildSpec.graph, List.length_map]
    exact (List.getElem?_eq_some_iff.mp dep).1

/-- Shown as unfinished, the cached compile tasks are as they were without a cache. -/
theorem reopen_insertRows (base : Consistent H db) (listed : ∀ id, id ∈ ids ↔ id ∈ spec.cachedUnits cache) :
    ((insertRows db spec rank part (spec.unresolved cache)).reopen db.nextBuild ids).tasks =
      (insertRows db spec rank part (spec.unresolved fun _ => none)).tasks := by
  simp only [Db.reopen, insertRows, List.map_append]
  refine congrArg₂ _ ?_ ?_
  · -- the old rows are of other builds
    refine (List.map_congr_left fun t ht => ?_).trans (List.map_id _)
    have older := (base.fresh t ht).1
    rw [TaskRow.reopen, if_neg]
    · rfl
    · rintro ⟨here, -⟩
      simp only [Db.serials] at older
      omega
  · rw [insertedTasks, insertedTasks, List.map_map]
    refine List.map_congr_left fun p hp => ?_
    obtain ⟨ts, id⟩ := p
    have found : spec.tasks[id]? = some ts := List.mk_mem_zipIdx_iff_getElem?.mp hp
    have member : id ∈ ids ↔ ts.kind = COMPILE ∧ ∃ output, cache ts.key = some output := by
      rw [listed, mem_cachedUnits]
      simp [found]
    simp only [Function.comp_apply, TaskRow.reopen, insertedTask, unresolved_row found, true_and]
    by_cases compile : ts.kind = COMPILE
    · have before := unresolved_ready (fun _ => none) compile rfl
      cases hit : cache ts.key with
      | some output =>
        have here : id ∈ ids := member.mpr ⟨compile, output, hit⟩
        simp [here, unresolved_cached compile hit, before, emptyIsNull]
      | none =>
        have absent : id ∉ ids := fun h => by simpa [hit] using (member.mp h).2
        simp [absent, unresolved_ready cache compile hit, before]
    · have absent : id ∉ ids := fun h => compile (member.mp h).1
      simp [absent, unresolved_action _ compile]

/-- The builds and what the cache holds do not matter to consistency. -/
theorem Consistent.of_tables {db db' : Db} (base : Consistent H db) (tasks : db'.tasks = db.tasks)
    (deps : db'.deps = db.deps) (serials : db'.serials = db.serials)
    (cache : ∀ row ∈ db'.cache, validHash row.output = true) : Consistent H db' := by
  have start := Mid.start base (s := .progress 0) trivial rfl rfl
  have quiet : Mid H db ⟨db', [], []⟩ :=
    start.quiet tasks deps serials cache rfl (List.Perm.refl _) rfl (fun s hs => by cases hs) fun s hs => by cases hs
  exact quiet.done base rfl

/-- The inserts count hits, and leave the outputs in the cache alone. -/
theorem outputs_insertRows {w : Walk} : (insertRows db spec rank part w).outputs = db.outputs := by
  funext key
  simp only [Db.outputs, Db.cached?, insertRows, List.find?_map]
  have keys : ∀ (hitKeys : List Str) (c : CacheRow),
      (if c.key ∈ hitKeys then { c with hits := c.hits + 1 } else c).key = c.key ∧
        (if c.key ∈ hitKeys then { c with hits := c.hits + 1 } else c).output = c.output := by
    intro hitKeys c
    split <;> exact ⟨rfl, rfl⟩
  simp only [Function.comp_def, keys, Option.map_map]

/-- The inserted rows, with the cached compile tasks still to be called for. -/
theorem uncounted_insertRows (base : Consistent H db) (layered : spec.Layered)
    (topo : IsTopoOrder spec.graph order)
    (unique : ((insertedDeps spec db.nextBuild).map TaskDep.primaryKey).Nodup)
    (listed : ∀ id, id ∈ ids ↔ id ∈ spec.cachedUnits db.outputs) :
    Uncounted H db.outputs db.nextBuild ids (insertRows db spec rank part (spec.unresolved db.outputs))
      (insertRows db spec rank part (spec.unresolved db.outputs)) := by
  have flat : spec.Flat := fun ts member => (layered ts member).mp
  have valid := outputs_valid base
  refine ⟨?_, fun id member => ?_, outputs_insertRows, fun t ht inBuild action => ?_, rfl, rfl, fun _ ht _ => ht⟩
  · -- with an empty cache the rows are those of a walk
    have empty : Consistent H { db with cache := [] } :=
      base.of_tables rfl rfl rfl fun row member => by cases member
    have walked := unresolved_walked (H := H) layered topo
    have rows : Consistent H (insertRows { db with cache := [] } spec rank part (spec.unresolved fun _ => none)) :=
      empty.insertRows (flat.supplies _) topo walked unique
    refine rows.of_tables (reopen_insertRows base listed) rfl rfl fun row member => ?_
    obtain ⟨c, hc, rfl⟩ := List.mem_map.mp member
    have := base.cache c hc
    split
    · exact this
    · exact this
  · obtain ⟨ts, output, found, compile, hit⟩ := mem_cachedUnits.mp ((listed id).mp member)
    refine ⟨_, mem_insertRows found, rfl, compile, ?_, output, ?_, valid _ _ hit⟩
    · rw [insertedTask, unresolved_row found, unresolved_cached compile hit]
      rfl
    · rw [insertedTask, unresolved_row found, unresolved_cached compile hit]
      exact if_neg (validHash_ne_nil (valid _ _ hit))
  · obtain ⟨id, ts, found, rfl⟩ := of_mem_insertRows base ht inBuild
    have row := (unresolved_row found).trans (unresolved_action db.outputs action)
    refine ⟨Or.inl ⟨?_, ?_, ?_⟩, fun ready => ?_⟩
    · rw [insertedTask, row]
    · rw [insertedTask, row]
      rfl
    · rw [insertedTask, row]
      rfl
    · rw [insertedTask, row] at ready
      cases ready

end Unresolved

/-! ### The walk -/

section Walk

variable {H : Sha256} {has : Str → Bool} {db : Db} {cache : Str → Option Str} {spec : BuildSpec} {order : List Nat}
  {rank part : Nat → Int} {w : Walk} {id : Nat} {ts : TaskSpec}

/-- A key is looked up in the cache before its task is queued. -/
theorem walk_missed (keys : ∀ ts ∈ spec.tasks, ts.kind = COMPILE → ts.key ≠ [])
    (ran : walk H has cache spec order = .ok w) (id : Nat) (ready : (w.row id).state = .ready) :
    cache (w.row id).key = none := by
  have kept : (∀ key, (lookupCompileKeys cache spec key).isSome = true → (w.hits key).isSome = true) ∧
      ∀ id, (w.row id).state = .ready → cache (w.row id).key = none := by
    refine foldlM_ok (P := fun w : Walk =>
      (∀ key, (lookupCompileKeys cache spec key).isSome = true → (w.hits key).isSome = true) ∧
        ∀ id, (w.row id).state = .ready → cache (w.row id).key = none)
      (fun {v v' i} _ holds next => ?_) ⟨fun key known => known, fun id ready => by cases ready⟩ ran
    obtain ⟨looked, rows⟩ := holds
    have looked' : ∀ ts key, (lookupCompileKeys cache spec key).isSome = true →
        (hitsAfter H cache spec v ts key).isSome = true := fun ts key known =>
      (hitsAfter_keeps ts (looked key known)).symm ▸ looked key known
    have updated {r : Resolved} :=
      @Function.forall_update_iff _ _ _ v.row i r fun _ r => r.state = .ready → cache r.key = none
    cases walkTask_visits next with
    | outside => exact ⟨looked, rows⟩
    | @cached ts | @waiting ts =>
      exact ⟨looked' ts, updated.mpr ⟨fun ready => (by cases ready), fun id _ => rows id⟩⟩
    | @ready ts found miss known uploaded =>
      refine ⟨looked' ts, updated.mpr ⟨fun _ => ?_, fun id _ => rows id⟩⟩
      change cache (resolveInputs H spec v.row ts).key = none
      have member := List.mem_of_getElem? found
      rw [hitFor] at miss
      by_cases compile : ts.kind = COMPILE
      · rw [resolveInputs_compile compile, if_neg (keys ts member compile), hitsAfter_compile compile] at miss
        rw [resolveInputs_compile compile]
        cases hit : cache ts.key with
        | none => rfl
        | some output =>
          have there := looked ts.key (by rw [lookupCompileKeys_compile member compile, hit]; rfl)
          rw [miss] at there
          cases there
      · have key := (resolveInputs_action (H := H) compile known).1
        rw [if_neg (by rw [key]; exact actionKey_ne_nil H _ _ _ _ _)] at miss
        cases before : v.hits (resolveInputs H spec v.row ts).key with
        | none => rwa [hitsAfter, if_pos ⟨compile, known, by rw [before]; rfl⟩, Function.update_self] at miss
        | some output =>
          rw [hitsAfter_keeps ts (by rw [before]; rfl), before] at miss
          cases miss
  exact kept.2 id ready

/-- The archives and links that `submit` inserts are what the cache says. -/
theorem submitted_byCache (valid : ∀ key output, cache key = some output → validHash output = true)
    (missed : ∀ id, (w.row id).state = .ready → cache (w.row id).key = none)
    (settled : Settled H cache spec w.row id ts) (action : ts.kind ≠ COMPILE) {build uid : Nat} :
    (insertedTask spec rank part build uid w.row ts id).ByCache cache := by
  have key : (w.row id).pending = 0 → (w.row id).key ≠ [] := by
    intro known
    rw [settled.key, (resolveInputs_action action (settled.pending ▸ known)).1]
    exact actionKey_ne_nil H _ _ _ _ _
  rcases settled.state with ⟨cached, known, hit⟩ | ⟨ready, known, empty⟩ | ⟨waits, pending, empty⟩
  · refine Or.inr (Or.inl ⟨(w.row id).key, (w.row id).output, cached, ?_, ?_, hit⟩)
    · exact if_neg (key (known action))
    · exact if_neg (validHash_ne_nil (valid _ _ hit))
  · refine Or.inr (Or.inr ⟨(w.row id).key, ready, ?_, ?_, missed id ready⟩)
    · exact if_neg (key known)
    · exact if_pos empty
  · refine Or.inl ⟨waits, ?_, if_pos empty⟩
    refine if_pos (Classical.not_not.mp fun some_ => ?_)
    rw [settled.key] at some_
    rw [settled.pending, resolveInputs_pending action some_] at pending
    exact absurd pending (lt_irrefl 0)

/-- The compile tasks that `submit` inserts are looked up by their keys. -/
theorem submitted_compile (missed : ∀ id, (w.row id).state = .ready → cache (w.row id).key = none)
    (settled : Settled H cache spec w.row id ts) (compile : ts.kind = COMPILE) (none_ : ts.depIds = []) :
    w.row id = ts.unresolved cache := by
  have key : (w.row id).key = ts.key := by rw [settled.key, resolveInputs, if_pos compile]
  have inputs : (w.row id).inputs = ts.input := by rw [settled.inputs, resolveInputs, if_pos compile]
  have names : (w.row id).names = "in.i".toList := by rw [settled.names, resolveInputs, if_pos compile]
  have pending : (w.row id).pending = 0 := by rw [settled.pending, resolveInputs_pending_eq, none_]; rfl
  rcases settled.state with ⟨cached, -, hit⟩ | ⟨ready, -, empty⟩ | ⟨-, some_, -⟩
  · rw [unresolved_cached compile (key ▸ hit)]
    cases row : w.row id
    simp_all
  · rw [unresolved_ready cache compile (key ▸ missed id ready)]
    cases row : w.row id
    simp_all
  · omega

/-- Both ways insert a compile task as the same row. -/
theorem unresolved_compile (layered : spec.Layered)
    (missed : ∀ id, (w.row id).state = .ready → cache (w.row id).key = none)
    (settled : Settled H cache spec w.row id ts) (found : spec.tasks[id]? = some ts) (compile : ts.kind = COMPILE) :
    (spec.unresolved cache).row id = w.row id := by
  have none_ : ts.depIds = [] := by
    simp [TaskSpec.depIds, (layered ts (List.mem_of_getElem? found)).mp compile]
  rw [unresolved_row found, submitted_compile missed settled compile none_]

/-- Both ways start from rows of the same tasks. -/
theorem unresolved_fixed (layered : spec.Layered)
    (missed : ∀ id, (w.row id).state = .ready → cache (w.row id).key = none)
    (settled : ∀ {id ts}, spec.tasks[id]? = some ts → Settled H cache spec w.row id ts) (rank part : Nat → Int) :
    (insertRows db spec rank part (spec.unresolved cache)).tasks.map TaskRow.fixed =
      (insertRows db spec rank part w).tasks.map TaskRow.fixed := by
  simp only [insertRows, List.map_append, List.append_cancel_left_eq, insertedTasks, List.map_map]
  refine List.map_congr_left fun p hp => ?_
  obtain ⟨ts, id⟩ := p
  have found : spec.tasks[id]? = some ts := List.mk_mem_zipIdx_iff_getElem?.mp hp
  by_cases compile : ts.kind = COMPILE
  · have row := unresolved_compile layered missed (settled found) found compile
    simp only [Function.comp_apply, TaskRow.fixed, insertedTask, TaskRow.slot, row]
  · simp only [Function.comp_apply, TaskRow.fixed, insertedTask, TaskRow.slot, compile, if_false]

end Walk

/-! ### Both ways -/

/-- A row is as the vectors of `submit` have it; the inputs are read of a task that is ready. -/
structure TaskRow.Agrees (u : TaskRow) (r : Resolved) : Prop where
  state : u.state = r.state
  key : u.key = emptyIsNull r.key
  output : u.output = emptyIsNull r.output
  pending : u.pendingDeps = r.pending
  inputs : r.state = .ready → u.inputs = some r.inputs
  names : r.state = .ready → u.inputNames = some r.names

section Resolved

variable {H : Sha256} {o : Options} {has : Str → Bool} {live : Int} {db : Db} {spec : BuildSpec} {order : List Nat}
  {rank part : Nat → Int} {w : Walk} {ids : List Nat} {id : Nat} {ts : TaskSpec}

/-- The text of a filled column. -/
theorem Stores.text {column : Option Str} {text : Str} (stores : Stores column text)
    (filled : ∃ text, column = some text) : column = some text := by
  obtain ⟨found, rfl⟩ := filled
  rcases stores with same | same
  · exact same
  · rw [emptyIsNull] at same
    split at same
    · cases same
    · exact same

/-- The archives and links that are left ready are handed out with the same inputs. -/
theorem supplied_inputs {end_ : Db} (base : Consistent H db) (after : Consistent H (insertRows db spec rank part w))
    (rows : Consistent H end_) (topo : IsTopoOrder spec.graph order) (found : spec.tasks[id]? = some ts)
    (settled : Settled H db.outputs spec w.row id ts) (action : ts.kind ≠ COMPILE)
    (fixed : end_.tasks.map TaskRow.fixed = (insertRows db spec rank part w).tasks.map TaskRow.fixed)
    (deps : end_.deps = (insertRows db spec rank part w).deps)
    (alike : ∀ t ∈ (insertRows db spec rank part w).tasks, ∀ u ∈ end_.tasks, u.slot = t.slot →
      t.buildId = db.nextBuild → t.Alike u)
    {u : TaskRow} (hu : u ∈ end_.tasks) (slot : u.slot = (db.nextBuild, id)) (supplied : u.Supplied)
    (ready : (w.row id).state = .ready) : u.inputs = some (w.row id).inputs ∧ u.inputNames = some (w.row id).names := by
  have ht : insertedTask spec rank part db.nextBuild (db.nextUid + id) w.row ts id ∈
      (insertRows db spec rank part w).tasks := mem_insertRows found
  have same := Db.fixed_of_slot fixed after.keyed ht hu slot
  have state : u.state = .ready := (alike _ ht u hu slot rfl).state.symm.trans ready
  have isOpen : u.state.open = true := by rw [state]; rfl
  have known : (w.row id).pending = 0 := by
    rcases settled.state with ⟨-, known, -⟩ | ⟨-, known, -⟩ | ⟨waits, -, -⟩
    · exact known action
    · exact known
    · rw [waits] at ready
      cases ready
  obtain ⟨-, inputs, names⟩ := resolveInputs_action (H := H) action (settled.pending ▸ known)
  obtain ⟨rowNames, rowDigests⟩ :
      (insertRows db spec rank part w).inputNames (db.nextBuild, id) = ts.depIds.map spec.flatNameOf ∧
        (insertRows db spec rank part w).inputDigests (db.nextBuild, id) =
          ts.depIds.map fun d => (w.row d).output := inputs_insertRows base topo found
  have columns := rows.columns u hu (by rw [state]; simp) (by rw [kind_of_fixed same]; exact action)
  have digests : end_.inputDigests u.slot = ts.depIds.map fun d => (w.row d).output := by
    rw [slot, ← rowDigests]
    refine (map_inputsOf_same after.keyed after.linked rows.keyed rows.linked deps ?_).symm
    intro d _ target v hv v' hv' source source'
    have build : v.buildId = db.nextBuild := (congrArg Prod.fst source).trans (congrArg Prod.fst target)
    rw [(alike v hv v' hv' (source'.trans source.symm) build).output]
  have inputNames : end_.inputNames u.slot = ts.depIds.map spec.flatNameOf := by
    rw [slot, ← rowNames]
    refine (map_inputsOf_same after.keyed after.linked rows.keyed rows.linked deps ?_).symm
    intro d _ _ v hv v' hv' source source'
    rw [name_of_fixed (Db.fixed_of_slot fixed after.keyed hv hv' (source'.trans source.symm))]
  obtain ⟨filled, filledNames⟩ := supplied state
  refine ⟨?_, ?_⟩
  · rw [(columns.inputs isOpen).text filled, digests, settled.inputs, inputs]
  · rw [(columns.names isOpen).text filledNames, inputNames, settled.names, names]

/-- The rows after all calls are those of the walk. -/
theorem agrees_of_uncounted {start end_ : Db} (base : Consistent H db) (layered : spec.Layered)
    (good : badCompileTask spec = none) (topo : IsTopoOrder spec.graph order)
    (ran : walk H has db.outputs spec order = .ok w) (acyclic : (insertRows db spec rank part w).Layered)
    (unique : ((insertedDeps spec db.nextBuild).map TaskDep.primaryKey).Nodup)
    (begins : start = insertRows db spec rank part (spec.unresolved db.outputs))
    (un : Uncounted H db.outputs db.nextBuild [] start end_) (found : spec.tasks[id]? = some ts) :
    ∃ u ∈ end_.tasks, u.slot = (db.nextBuild, id) ∧ u.Agrees (w.row id) := by
  have flat : spec.Flat := fun ts member => (layered ts member).mp
  have walked := walk_walked topo ran
  have after : Consistent H (insertRows db spec rank part w) := base.insertRows (flat.supplies _) topo walked unique
  have rows : Consistent H end_ := by simpa [reopen_nil] using un.base
  have valid := outputs_valid base
  have keys : ∀ ts ∈ spec.tasks, ts.kind = COMPILE → ts.key ≠ [] := fun ts member compile =>
    validHash_ne_nil (compileTask_valid good member compile).1
  have missed := walk_missed keys ran
  have settled : ∀ {id ts}, spec.tasks[id]? = some ts → Settled H db.outputs spec w.row id ts :=
    fun found => settled_of_walked topo walked found
  have fixed : end_.tasks.map TaskRow.fixed = (insertRows db spec rank part w).tasks.map TaskRow.fixed :=
    un.fixed.trans (begins ▸ unresolved_fixed layered missed settled rank part)
  have deps : end_.deps = (insertRows db spec rank part w).deps := by
    rw [un.deps, begins]
    rfl
  have byCache : ∀ t ∈ (insertRows db spec rank part w).tasks, t.buildId = db.nextBuild → t.kind ≠ COMPILE →
      t.ByCache db.outputs := by
    intro t ht inBuild action
    obtain ⟨id, ts, found, rfl⟩ := of_mem_insertRows base ht inBuild
    exact submitted_byCache valid missed (settled found) action
  -- a compile task is in both tables as it was inserted
  have unit : ∀ {id ts}, spec.tasks[id]? = some ts → ts.kind = COMPILE →
      insertedTask spec rank part db.nextBuild (db.nextUid + id) w.row ts id ∈ end_.tasks := by
    intro id ts found compile
    have same : insertedTask spec rank part db.nextBuild (db.nextUid + id) w.row ts id =
        insertedTask spec rank part db.nextBuild (db.nextUid + id) (spec.unresolved db.outputs).row ts id := by
      simp only [insertedTask, unresolved_compile layered missed (settled found) found compile]
    rw [same]
    exact un.kept _ (begins ▸ mem_insertRows found) compile
  have alike := rows_alike after rows fixed deps acyclic byCache (fun u hu inBuild action => (un.rows u hu inBuild action).1)
    fun t ht u hu slot inBuild compile => by
      obtain ⟨id, ts, found, rfl⟩ := of_mem_insertRows base ht inBuild
      rw [rows.keyed.slot_inj hu (unit found compile) slot]
      exact ⟨rfl, rfl, rfl, rfl⟩
  have ht : insertedTask spec rank part db.nextBuild (db.nextUid + id) w.row ts id ∈
      (insertRows db spec rank part w).tasks := mem_insertRows found
  obtain ⟨u, hu, same⟩ := Db.mem_of_fixed fixed ht
  have slot := slot_of_fixed same
  obtain ⟨state, key, output, pending⟩ := alike _ ht u hu slot rfl
  refine ⟨u, hu, slot, state.symm, key.symm, output.symm, pending.symm, fun ready => ?_, fun ready => ?_⟩
  all_goals by_cases compile : ts.kind = COMPILE
  · rw [rows.keyed.slot_inj hu (unit found compile) slot]
    have input : (w.row id).inputs = ts.input := by rw [(settled found).inputs, resolveInputs, if_pos compile]
    refine if_neg ?_
    rw [input]
    exact validHash_ne_nil (compileTask_valid good (List.mem_of_getElem? found) compile).2
  · exact (supplied_inputs base after rows topo found (settled found) compile fixed deps alike hu slot
      (un.rows u hu (build_of_fixed same) (by rw [kind_of_fixed same]; exact compile)).2 ready).1
  · rw [rows.keyed.slot_inj hu (unit found compile) slot]
    have names : (w.row id).names = "in.i".toList := by rw [(settled found).names, resolveInputs, if_pos compile]
    refine if_neg ?_
    rw [names]
    decide
  · exact (supplied_inputs base after rows topo found (settled found) compile fixed deps alike hu slot
      (un.rows u hu (build_of_fixed same) (by rw [kind_of_fixed same]; exact compile)).2 ready).2

end Resolved

/-- Resolving from the cache at submit agrees with resolving at run time. `submit` accepted the
spec; had it inserted the archives and links as waiting for all their dependencies, calling
`finished` for the cached compile tasks, in any order, would have come to an end and left the
rows that its walk computed. -/
theorem resolutions_agree {H : Sha256} {o : Options} {calls : List Call} {c : Coordinator}
    (reached : Runs (Meets (Step H o) fun _ call => call.Flat) {} calls c)
    {rows : List CacheRow} (valid : ∀ row ∈ rows, validHash row.output = true)
    {has : Str → Bool} {live : Int} {spec : BuildSpec} (layered : spec.Layered) {db' : Db} {build hits : Nat}
    (accepted : submitBuild H o has { c.db with cache := rows } live spec = (db', .ok (build, hits)))
    (rank part : Nat → Int) {ids : List Nat}
    (perm : ids.Perm (spec.cachedUnits (Db.outputs { c.db with cache := rows }))) :
    ∃ order w, topoOrder spec.graph = .ok order ∧
      walk H has (Db.outputs { c.db with cache := rows }) spec order = .ok w ∧
      (∃ fuel done, run H o fuel
        ⟨insertRows { c.db with cache := rows } spec rank part
          (spec.unresolved (Db.outputs { c.db with cache := rows })), ids.flatMap (finished build), []⟩ = some done) ∧
      ∀ fuel done, run H o fuel
        ⟨insertRows { c.db with cache := rows } spec rank part
          (spec.unresolved (Db.outputs { c.db with cache := rows })), ids.flatMap (finished build), []⟩ = some done →
        ∀ id ts, spec.tasks[id]? = some ts →
          ∃ u ∈ done.db.tasks, u.slot = (build, id) ∧ u.Agrees (w.row id) := by
  obtain ⟨before, noticed⟩ := Runs.noticed reached
  have base : Consistent H { c.db with cache := rows } := before.of_tables rfl rfl rfl valid
  obtain ⟨good, rfl, order, -, -, w, sorted, ran, unique, -⟩ := submitBuild_ok accepted
  have topo := topoOrder_ok sorted
  have un : Uncounted H (Db.outputs { c.db with cache := rows }) c.db.nextBuild ids _
      (insertRows { c.db with cache := rows } spec rank part (spec.unresolved _)) :=
    uncounted_insertRows base layered topo unique fun id => perm.mem_iff
  have nodup : ids.Nodup := perm.nodup_iff.mpr (List.nodup_range.filter _)
  obtain ⟨db'', clears, un'⟩ := un.calls o nodup
  refine ⟨order, w, sorted, ran, ?_, fun fuel done finishes id ts found => ?_⟩
  · obtain ⟨fuel, done, finishes, -⟩ := clears.run []
    exact ⟨fuel, done, finishes⟩
  · rw [(run_clears finishes).unique clears]
    have acyclic : (insertRows { c.db with cache := rows } spec rank part w).Layered :=
      insertRows_layered base noticed.layered topo
    exact agrees_of_uncounted base layered good topo ran acyclic unique rfl un' found

/-- The object of the sample is in the cache. -/
def sampleCache : List CacheRow := [⟨sampleKey, sampleOutput, 1, 0⟩]

theorem resolutions_agree_sample :
    ∃ order w fuel done, topoOrder sampleSpec.graph = .ok order ∧
      walk sampleSha (fun _ => true) (Db.outputs { cache := sampleCache }) sampleSpec order = .ok w ∧
      run sampleSha {} fuel
        ⟨insertRows { cache := sampleCache } sampleSpec (fun _ => 0) (fun _ => 0)
          (sampleSpec.unresolved (Db.outputs { cache := sampleCache })), finished 1 0, []⟩ = some done ∧
      ∃ u ∈ done.db.tasks, u.slot = (1, 1) ∧ u.Agrees (w.row 1) := by
  obtain ⟨db, accepted⟩ : ∃ db, submitBuild sampleSha {} (fun _ => true) { cache := sampleCache } 1 sampleSpec =
      (db, .ok (1, 1)) := by
    have answer : (submitBuild sampleSha {} (fun _ => true) { cache := sampleCache } 1 sampleSpec).2 =
        .ok (1, 1) := by decide +kernel
    rcases ran : submitBuild sampleSha {} (fun _ => true) { cache := sampleCache } 1 sampleSpec with ⟨db, reply⟩
    rw [ran] at answer
    exact ⟨db, congrArg (Prod.mk db) answer⟩
  have layered : sampleSpec.Layered := by decide +kernel
  have valid : ∀ row ∈ sampleCache, validHash row.output = true := by decide +kernel
  have perm : [0].Perm (sampleSpec.cachedUnits (Db.outputs { cache := sampleCache })) := by decide +kernel
  obtain ⟨order, w, sorted, ran, ⟨fuel, done, finishes⟩, agree⟩ :=
    resolutions_agree (c := {}) .nil valid layered accepted (fun _ => 0) (fun _ => 0) perm
  obtain ⟨ts, found⟩ : ∃ ts, sampleSpec.tasks[1]? = some ts := ⟨_, rfl⟩
  exact ⟨order, w, fuel, done, sorted, ran, finishes, agree fuel done finishes 1 ts found⟩

end DistCompile
