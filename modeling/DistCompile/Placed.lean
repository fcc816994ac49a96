import DistCompile.Counters

/-!
The rows of the tables and the specs they were made from.

A run is read as a log of calls, in which `specOf` finds the spec of a build. In
every reachable state a row has the columns of its task in the spec of its build,
and its edges in the order of the spec (`Placed`). So what a worker is handed for
an archive or a link follows from the spec alone, up to the digests: `inputNames`
and the assignment made of a ready row are read back here.
-/

namespace DistCompile

open DistCompile.Lib DistCompile.Graph

/-! ### Reading the log -/

/-- The specs submitted, accepted or not. -/
def submitted (calls : List Call) : List BuildSpec :=
  calls.filterMap fun
    | .submitBuild spec _ _ => some spec
    | _ => none

theorem submitted_append {calls : List Call} {spec : BuildSpec} (call : Call)
    (member : spec ∈ submitted calls) : spec ∈ submitted (calls ++ [call]) := by
  rw [submitted, List.filterMap_append]
  exact List.mem_append_left _ member

/-- The spec behind build `build`. -/
def specOf (calls : List Call) (build : Nat) : Option BuildSpec :=
  calls.findSome? fun
    | .submitBuild spec _ (.ok (b, _)) => if b = build then some spec else none
    | _ => none

theorem specOf_append {calls : List Call} {call : Call} {build : Nat} {spec : BuildSpec}
    (found : specOf calls build = some spec) : specOf (calls ++ [call]) build = some spec := by
  rw [specOf, List.findSome?_append]
  exact (congrArg (Option.or · _) found).trans (Option.some_or ..)

theorem mem_submitted {calls : List Call} {build : Nat} {spec : BuildSpec}
    (found : specOf calls build = some spec) : spec ∈ submitted calls := by
  obtain ⟨call, member, here⟩ := List.exists_of_findSome?_eq_some found
  refine List.mem_filterMap.mpr ⟨call, member, ?_⟩
  split at here
  · split at here
    · exact here
    · cases here
  · cases here

/-- Calls that add no build leave the specs as they are. -/
theorem specOf_same {calls : List Call} {call : Call}
    (other : ∀ spec live b n, call ≠ .submitBuild spec live (.ok (b, n))) :
    specOf (calls ++ [call]) = specOf calls := by
  funext build
  rw [specOf, List.findSome?_append]
  have none : ([call].findSome? fun
      | .submitBuild spec _ (.ok (b, _)) => if b = build then some spec else none
      | _ => none) = none := by
    rw [List.findSome?_singleton]
    split
    · exact absurd rfl (other _ _ _ _)
    · rfl
  exact (congrArg _ none).trans (Option.or_none)

/-- The specs after an accepted submit. -/
theorem specOf_submit {calls : List Call} {spec s : BuildSpec} {live : Int} {build cached b : Nat}
    (found : specOf (calls ++ [.submitBuild spec live (.ok (build, cached))]) b = some s) :
    specOf calls b = some s ∨ (b = build ∧ s = spec) := by
  rw [specOf, List.findSome?_append] at found
  rcases Option.or_eq_some_iff.mp found with old | ⟨-, new⟩
  · exact Or.inl old
  · simp only [List.findSome?_singleton] at new
    split at new
    · rename_i same
      exact Or.inr ⟨same.symm, (Option.some.inj new).symm⟩
    · cases new

/-- The spec of a build whose number is new. -/
theorem specOf_new {calls : List Call} {spec : BuildSpec} {live : Int} {build cached : Nat}
    (fresh : specOf calls build = none) :
    specOf (calls ++ [.submitBuild spec live (.ok (build, cached))]) build = some spec := by
  rw [specOf, List.findSome?_append]
  exact (congrArg (Option.or · _) fresh).trans (by simp)

/-! ### Rows and their tasks -/

/-- The row `t` has the columns of task `ts`. -/
structure Built (spec : BuildSpec) (ts : TaskSpec) (t : TaskRow) : Prop where
  kind : t.kind = ts.kind
  name : t.name = ts.name
  args : t.args = joinLines ts.args
  toolchain : t.toolchain = spec.toolchain
  compile : ts.kind = COMPILE →
    t.key = some ts.key ∧ t.inputs = some ts.input ∧ t.inputNames = some "in.i".toList

theorem Built.of_fixed {spec : BuildSpec} {ts : TaskSpec} {t u : TaskRow} (b : Built spec ts t)
    (same : u.fixed = t.fixed) : Built spec ts u where
  kind := (kind_of_fixed same).trans b.kind
  name := (name_of_fixed same).trans b.name
  args := (args_of_fixed same).trans b.args
  toolchain := (toolchain_of_fixed same).trans b.toolchain
  compile isCompile := by
    have columns := congrArg Fixed.compile same
    have kinds := kind_of_fixed same
    simp only [TaskRow.fixed, kinds, b.kind, isCompile, if_true, Option.some.injEq,
      Prod.mk.injEq] at columns
    rw [columns.1, columns.2.1, columns.2.2]
    exact b.compile isCompile

/-- The dependencies of the task in slot `s`, in `pos` order. -/
def Db.inputIds (db : Db) (s : Nat × Nat) : List Nat :=
  ((db.deps.filter fun d => d.build = s.1 && d.task = s.2).insertionSort
    fun d e => d.pos ≤ e.pos).map (·.dep)

/-- The row `t` stands for its task in its build's spec. -/
def Placed (env : Nat → Option BuildSpec) (db : Db) (t : TaskRow) : Prop :=
  ∃ spec ts, env t.buildId = some spec ∧ spec.tasks[t.id]? = some ts ∧ Built spec ts t ∧
    db.inputIds t.slot = ts.depIds

theorem Placed.of_fixed {env : Nat → Option BuildSpec} {db db' : Db} {t u : TaskRow}
    (placed : Placed env db t) (deps : db'.deps = db.deps) (same : u.fixed = t.fixed) :
    Placed env db' u := by
  obtain ⟨spec, ts, hb, found, built, inputs⟩ := placed
  refine ⟨spec, ts, (build_of_fixed same).symm ▸ hb, (id_of_fixed same).symm ▸ found,
    built.of_fixed same, ?_⟩
  rw [slot_of_fixed same, ← inputs, Db.inputIds, Db.inputIds, deps]

section Inputs

variable {H : Sha256} {env : Nat → Option BuildSpec} {db : Db}

/-- The rows read as inputs of a task, by the dependencies of its spec. -/
theorem map_inputsOf (placed : ∀ t ∈ db.tasks, Placed env db t) (k : db.Keyed) (l : db.Linked)
    {t : TaskRow} {spec : BuildSpec} {ts : TaskSpec} (hb : env t.buildId = some spec)
    (inputs : db.inputIds t.slot = ts.depIds) {α : Type} (g : TaskRow → α) (h : Nat → α)
    (each : ∀ u ∈ db.tasks, u.buildId = t.buildId →
      (∃ d ∈ db.deps, d.target = t.slot ∧ d.source = u.slot) →
      ∀ tu, spec.tasks[u.id]? = some tu → Built spec tu u → g u = h u.id) :
    (db.inputsOf t.slot.1 t.slot.2).map g = ts.depIds.map h := by
  rw [← inputs, Db.inputIds, Db.inputsOf, List.map_flatMap, List.map_map, List.map_eq_flatMap]
  refine List.flatMap_congr fun d hd => ?_
  rw [List.mem_insertionSort, List.mem_filter] at hd
  obtain ⟨member, target⟩ := hd
  simp only [Bool.and_eq_true, decide_eq_true_eq] at target
  obtain ⟨u, hu, slot⟩ := l.source d member
  rw [Db.filter_slot k hu slot, List.map_singleton, Function.comp_apply]
  have build : u.buildId = t.buildId := (congrArg Prod.fst slot).trans target.1
  have id : u.id = d.dep := congrArg Prod.snd slot
  obtain ⟨spec', tu, hb', found, built, -⟩ := placed u hu
  rw [build, hb] at hb'
  cases hb'
  rw [each u hu build ⟨d, member, ?_, slot.symm⟩ tu found built, id]
  simp [TaskDep.target, TaskRow.slot, target]

theorem flatNameOf_found {spec : BuildSpec} {d : Nat} {td : TaskSpec}
    (found : spec.tasks[d]? = some td) : spec.flatNameOf d = flatName td.name := by
  simp [BuildSpec.flatNameOf, found]

/-- The input names of a task follow from the spec. -/
theorem inputNames_eq (placed : ∀ t ∈ db.tasks, Placed env db t) (k : db.Keyed) (l : db.Linked)
    {t : TaskRow} {spec : BuildSpec} {ts : TaskSpec} (hb : env t.buildId = some spec)
    (inputs : db.inputIds t.slot = ts.depIds) :
    db.inputNames t.slot = ts.depIds.map spec.flatNameOf :=
  map_inputsOf placed k l hb inputs _ _ fun _ _ _ _ _ found built => by
    rw [flatNameOf_found found, built.name]

theorem mem_inputsOf {build id : Nat} {u : TaskRow} (hu : u ∈ db.inputsOf build id) :
    u ∈ db.tasks ∧ ∃ d ∈ db.deps, d.target = (build, id) ∧ d.source = u.slot := by
  obtain ⟨d, hd, here⟩ := List.mem_flatMap.mp hu
  rw [List.mem_insertionSort, List.mem_filter] at hd
  obtain ⟨member, slot⟩ := List.mem_filter.mp here
  simp only [Bool.and_eq_true, decide_eq_true_eq] at hd slot
  refine ⟨member, d, hd.1, ?_, ?_⟩
  · simp [TaskDep.target, hd.2]
  · simp [TaskDep.source, TaskRow.slot, slot]

/-- The dependencies of a task that no longer waits are finished. -/
theorem Consistent.known (base : Consistent H db) {t : TaskRow} (ht : t ∈ db.tasks)
    (settled : t.state ≠ .waiting) : ∀ d ∈ db.deps, d.target = t.slot → db.Finished d.source := by
  have counted := base.pending t ht
  have zero : ¬ 0 < t.pendingDeps := fun h => settled ((base.waiting t ht).mpr h)
  exact unfinishedDeps_eq_zero.mp (show db.unfinishedDeps t.slot = 0 by omega)

/-- So they have their outputs. -/
theorem Consistent.input_output (base : Consistent H db) {t : TaskRow} (ht : t ∈ db.tasks)
    (settled : t.state ≠ .waiting) : ∀ u ∈ db.inputsOf t.buildId t.id, HasOutput u := by
  intro u member
  obtain ⟨hu, d, hd, target, source⟩ := mem_inputsOf member
  obtain ⟨v, hv, slot, done⟩ := base.known ht settled d hd target
  rw [base.keyed.slot_inj hv hu (slot.trans source)] at done
  exact base.output u hu done

theorem Consistent.inputs_valid (base : Consistent H db) {t : TaskRow} (ht : t ∈ db.tasks)
    (settled : t.state ≠ .waiting) : ∀ digest ∈ db.inputDigests t.slot, validHash digest = true := by
  intro digest member
  obtain ⟨u, hu, rfl⟩ := List.mem_map.mp member
  obtain ⟨output, stored, valid⟩ := base.input_output ht settled u hu
  rw [stored]
  exact valid

theorem stores_text {column : Option Str} {text : Str} (stores : Stores column text)
    (filled : text ≠ []) : column = some text := by
  rcases stores with same | same
  · exact same
  · rw [same, emptyIsNull, if_neg filled]

/-- What a ready archive or link task is handed out with: the digests of its
dependencies, and their names as the stored text splits into lines. -/
theorem Consistent.assignment (base : Consistent H db) (o : Options) (worker : Str) (now : Int)
    {t : TaskRow} (ht : t ∈ db.tasks) (ready : t.state = .ready) (action : t.kind ≠ COMPILE)
    (named : joinLines (db.inputNames t.slot) ≠ []) :
    (assignmentOf (claimedRow o worker now t)).inputs = db.inputDigests t.slot ∧
      (assignmentOf (claimedRow o worker now t)).inputNames =
        splitLines (joinLines (db.inputNames t.slot)) := by
  have settled : t.state ≠ .waiting := by rw [ready]; simp
  have isOpen : t.state.open = true := by rw [ready]; rfl
  have valid := base.inputs_valid ht settled
  have cols := base.columns t ht settled action
  have digests : db.inputDigests t.slot ≠ [] := by
    intro none
    rw [Db.inputDigests, List.map_eq_nil_iff] at none
    rw [Db.inputNames, none] at named
    exact named rfl
  have column := stores_text (cols.inputs isOpen)
    (joinLines_ne_nil digests fun l hl => validHash_ne_nil (valid l hl))
  have column' := stores_text (cols.names isOpen) named
  constructor
  · simp only [assignmentOf, claimedRow, column]
    exact splitLines_joinLines (fun l hl => validHash_newline (valid l hl))
      fun l hl => validHash_ne_nil (valid l hl)
  · simp only [assignmentOf, claimedRow, column', Option.getD_some]

end Inputs

/-! ### Every call -/

section Submit

variable {H : Sha256} {env env' : Nat → Option BuildSpec} {db : Db}
  {spec : BuildSpec} {order : List Nat} {rank part : Nat → Int} {w : Walk}

theorem inputIds_insertRows_old {s : Nat × Nat} (old : s.1 < db.nextBuild) :
    (insertRows db spec rank part w).inputIds s = db.inputIds s := by
  have edges : ((insertedDeps spec db.nextBuild).filter fun d => d.build = s.1 && d.task = s.2) =
      [] := by
    refine List.filter_eq_nil_iff.mpr fun d hd => ?_
    have := (mem_insertedDeps hd).1
    simp only [Bool.and_eq_true, decide_eq_true_eq, not_and]
    omega
  rw [Db.inputIds, Db.inputIds, insertRows]
  dsimp only
  rw [List.filter_append, edges, List.append_nil]

/-- The edges of a new task are its dependencies in the order of the spec. -/
theorem inputIds_insertRows_new (base : Consistent H db) {id : Nat} {ts : TaskSpec}
    (found : spec.tasks[id]? = some ts) :
    (insertRows db spec rank part w).inputIds (db.nextBuild, id) = ts.depIds := by
  rw [Db.inputIds, edges_insertRows_new base found, (edges_insertRows_sorted ts).insertionSort_eq,
    List.map_map]
  exact List.zipIdx_map_fst 0 ts.depIds

/-- The key and the input of an accepted compile task are digests. -/
theorem compileTask_valid (good : badCompileTask spec = none) {ts : TaskSpec} (member : ts ∈ spec.tasks)
    (compile : ts.kind = COMPILE) : validHash ts.key = true ∧ validHash ts.input = true := by
  have valid := List.find?_eq_none.mp good ts member
  simp only [compile, decide_true, Bool.true_and, Bool.not_eq_true', Bool.not_eq_false,
    Bool.and_eq_true] at valid
  exact valid

/-- The rows of a new build stand for the tasks of its spec. -/
theorem placed_insertRows (base : Consistent H db) (placed : ∀ t ∈ db.tasks, Placed env db t)
    (specs : ∀ b spec, env b = some spec → env' b = some spec)
    (here : env' db.nextBuild = some spec) (good : badCompileTask spec = none)
    (topo : IsTopoOrder spec.graph order) (walked : Walked H db.outputs spec order w) :
    ∀ t ∈ (insertRows db spec rank part w).tasks, Placed env' (insertRows db spec rank part w) t := by
  intro t ht
  rcases List.mem_append.mp ht with old | new
  · obtain ⟨spec₀, ts, hb, found, built, inputs⟩ := placed t old
    refine ⟨spec₀, ts, specs _ _ hb, found, built, ?_⟩
    rw [inputIds_insertRows_old (base.fresh t old).1]
    exact inputs
  · obtain ⟨id, ts, found, rfl⟩ := mem_insertedTasks.mp new
    refine ⟨spec, ts, here, found, ⟨rfl, rfl, rfl, rfl, fun compile => ?_⟩,
      inputIds_insertRows_new base found⟩
    have s := settled_of_walked topo walked found
    have valid := compileTask_valid good (List.mem_of_getElem? found) compile
    simp only [insertedTask, s.key, s.inputs, s.names, resolveInputs, compile, if_true,
      emptyIsNull, if_neg (validHash_ne_nil valid.1), if_neg (validHash_ne_nil valid.2)]
    exact ⟨trivial, trivial, rfl⟩

end Submit

theorem Db.Grows.placed {env : Nat → Option BuildSpec} {db db' : Db} (g : Db.Grows db db')
    (placed : ∀ t ∈ db.tasks, Placed env db t) : ∀ t ∈ db'.tasks, Placed env db' t := by
  intro u hu
  obtain ⟨t, ht, same⟩ := Db.mem_of_fixed g.fixed.symm hu
  exact (placed t ht).of_fixed g.deps same.symm

/-- What holds after the calls of a run: the log knows the spec of every row. -/
structure Recorded (calls : List Call) (c : Coordinator) : Prop where
  builds : ∀ b spec, specOf calls b = some spec → b < c.db.nextBuild
  placed : ∀ t ∈ c.db.tasks, Placed (specOf calls) c.db t

section Runs

variable {H : Sha256} {o : Options} {calls : List Call} {call : Call} {c c' : Coordinator}

/-- The number of a new build is not in the log. -/
theorem Recorded.fresh (known : Recorded calls c) : specOf calls c.db.nextBuild = none := by
  cases found : specOf calls c.db.nextBuild with
  | none => rfl
  | some s => exact absurd (known.builds _ _ found) (lt_irrefl _)

/-- An accepted submit. -/
theorem Recorded.submit (known : Recorded calls c) (base : Consistent H c.db) {spec : BuildSpec}
    (supplied : spec.Supplied H c.blobs.has c.db.outputs) {live : Int} {build cached : Nat} {db' : Db}
    (ran : submitBuild H o c.blobs.has c.db live spec = (db', .ok (build, cached))) :
    Recorded (calls ++ [.submitBuild spec live (.ok (build, cached))]) ⟨db', c.blobs⟩ := by
  obtain ⟨good, rfl, order, rank, part, w, accepted, walked, unique, rfl⟩ := submitBuild_ok ran
  have topo := topoOrder_ok accepted
  have walkedAll := walk_walked topo walked
  have rows : Consistent H (insertRows c.db spec rank part w) :=
    base.insertRows (supplied order w accepted walked) topo walkedAll unique
  obtain ⟨g, -⟩ := rows.maybeFinish (o := o) c.db.nextBuild
  constructor
  · intro b s found
    have serial : ((insertRows c.db spec rank part w).maybeFinish H o c.db.nextBuild).nextBuild =
        c.db.nextBuild + 1 := congrArg Prod.fst g.serials
    rw [serial]
    rcases specOf_submit found with old | ⟨rfl, -⟩
    · exact Nat.lt_succ_of_lt (known.builds b s old)
    · exact Nat.lt_succ_self _
  · exact g.placed (placed_insertRows base known.placed (fun _ _ found => specOf_append found)
      (specOf_new known.fresh) good topo walkedAll)

/-- A submit that was turned down. -/
theorem Recorded.refused (known : Recorded calls c) {spec : BuildSpec} {live : Int} {e : Status}
    {db' : Db} (ran : submitBuild H o c.blobs.has c.db live spec = (db', .error e)) :
    Recorded (calls ++ [.submitBuild spec live (.error e)]) ⟨db', c.blobs⟩ := by
  obtain ⟨builds, uids, rfl⟩ := submitBuild_error ran
  have same : specOf (calls ++ [.submitBuild spec live (.error e)]) = specOf calls :=
    specOf_same (by simp)
  constructor
  · intro b spec found
    rw [same] at found
    exact Nat.lt_add_right builds (known.builds b spec found)
  · intro t ht
    rw [same]
    exact (known.placed t ht).of_fixed rfl rfl

theorem Step.recorded (step : Step H o c call c') (flat : call.Flat) (base : Consistent H c.db)
    (known : Recorded calls c) : Recorded (calls ++ [call]) c' := by
  by_cases submits : ∃ spec live reply, call = .submitBuild spec live reply
  · obtain ⟨spec, live, reply, rfl⟩ := submits
    cases step with
    | submitBuild =>
      rcases ran : DistCompile.submitBuild H o c.blobs.has c.db live spec with ⟨db', e | ⟨build, cached⟩⟩
      · exact known.refused ran
      · exact known.submit base flat.supplied ran
  · have g := step.grows base fun spec live reply same => submits ⟨spec, live, reply, same⟩
    have same : specOf (calls ++ [call]) = specOf calls :=
      specOf_same fun spec live b n same => submits ⟨spec, live, _, same⟩
    constructor
    · intro b spec found
      rw [same] at found
      exact lt_of_lt_of_eq (known.builds b spec found) (congrArg Prod.fst g.serials).symm
    · rw [same]
      exact g.placed known.placed

/-- In every reachable state the log explains every row. -/
theorem Runs.recorded (run : Runs (Meets (Step H o) fun _ call => call.Flat) {} calls c) :
    Recorded calls c := by
  induction run with
  | nil => exact ⟨by simp [specOf], by simp⟩
  | snoc earlier last ih => exact last.2.recorded last.1 (Runs.consistent earlier) ih

end Runs

end DistCompile
