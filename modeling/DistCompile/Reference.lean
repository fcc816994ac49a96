import DistCompile.Coordinator

/-!
What a build is for: the sequential evaluation of its graph.

`reference` is the build without cache, workers or digests: one tool run per
task, in dependency order, on the outputs of the tasks before it. The tool is a
parameter, as is `blob`, which gives the text behind a digest; that sha256 has no
collisions is the assumption that such a map exists (`Function.LeftInverse`).
-/

namespace DistCompile

open DistCompile.Graph DistCompile.Lib

/-- `run(toolchain, kind, args, inputs)`: the file a worker's command leaves,
from the named input files in order. -/
abbrev Tool := Str → TaskKind → List Str → List (Str × Str) → Str

section Reference

variable (blob : Str → Str) (tool : Tool)

/-- The files a task is run on: a compile reads its preprocessed text, an archive
or link the outputs of its dependencies in the order of the spec. -/
def inputFiles (spec : BuildSpec) (val : Nat → Str) (ts : TaskSpec) : List (Str × Str) :=
  if ts.kind = COMPILE then [("in.i".toList, blob ts.input)]
  else ts.depIds.map fun d => (spec.flatNameOf d, val d)

/-- One task, run on the values of its dependencies. -/
def runTask (spec : BuildSpec) (val : Nat → Str) (ts : TaskSpec) : Str :=
  tool spec.toolchain ts.kind ts.args (inputFiles blob spec val ts)

/-- The outputs of all tasks, evaluated one after the other. -/
def reference (spec : BuildSpec) : Nat → Str :=
  match topoOrder spec.graph with
  | .ok order => evalOrder
      (fun val id => (spec.tasks[id]?.map (runTask blob tool spec val)).getD []) order fun _ => []
  | .error _ => fun _ => []

end Reference

variable {blob : Str → Str} {tool : Tool} {spec : BuildSpec}

/-- In an accepted spec every task's value is its run on the values of its
dependencies. -/
theorem reference_eq {order : List Nat} (accepted : topoOrder spec.graph = .ok order) {id : Nat}
    {ts : TaskSpec} (found : spec.tasks[id]? = some ts) :
    reference blob tool spec id = runTask blob tool spec (reference blob tool spec) ts := by
  have topo := topoOrder_ok accepted
  have member : id ∈ order := by
    refine topo.perm.mem_iff.mpr (List.mem_range.mpr ?_)
    rw [BuildSpec.graph, List.length_map]
    exact (List.getElem?_eq_some_iff.mp found).1
  have unfold_ : reference blob tool spec = evalOrder
      (fun val id => (spec.tasks[id]?.map (runTask blob tool spec val)).getD []) order fun _ => [] := by
    rw [reference, accepted]
  have deps_only : ∀ (val val' : Nat → Str) v, (∀ d ∈ depsOf spec.graph v, val d = val' d) →
      (spec.tasks[v]?.map (runTask blob tool spec val)).getD [] =
        (spec.tasks[v]?.map (runTask blob tool spec val')).getD [] := by
    intro val val' v same
    cases here : spec.tasks[v]? with
    | none => rfl
    | some tv =>
      have deps : ∀ d ∈ tv.depIds, val d = val' d := fun d hd =>
        same d (by simpa [depsOf, BuildSpec.graph, here, TaskSpec.depIds] using hd)
      simp only [Option.map_some, Option.getD_some, runTask, inputFiles]
      split
      · rfl
      · rw [List.map_congr_left fun d hd => by rw [deps d hd]]
  have eqn := evalOrder_eq deps_only (topo.perm.nodup_iff.mpr List.nodup_range) topo.before
    (fun _ => []) member
  rw [← unfold_, found] at eqn
  exact eqn

end DistCompile
