import DistCompile.LocalBuild
import DistCompile.Preparation
import DistCompile.SavedState

/-!
Builds of what has been built (`build` in `src/dcc.cpp`, `submit` in `src/coordinator.cpp`, steps 2
and 3 of `tests/e2e.sh`).

The cache knows a compile task by its key and an archive or link task by the outputs of its
dependencies; the preprocessed text that comes along with a spec is looked at by a worker only. So a
build whose units have the keys of a build that is done (`SameRecipes`) uploads nothing and all its
tasks are found, whatever its texts are: this is a checkout in another directory.

Where the tree is the one that the state file was written for, the units are read from that file,
and the preprocessor does not run either. The files in the output directory have the digests that
are reported, so nothing is downloaded.
-/

namespace DistCompile

open DistCompile.Lib DistCompile.Graph

/-! ### Specs with the same recipes -/

/-- A task without its input and its cost: all that the cache depends on. -/
structure Recipe where
  id : Int
  kind : TaskKind
  name : Str
  deps : List Int
  key : Str
  args : List Str

def TaskSpec.recipe (ts : TaskSpec) : Recipe := ⟨ts.id, ts.kind, ts.name, ts.deps, ts.key, ts.args⟩

/-- The specs differ in inputs, costs and the number of partitions at most. -/
structure BuildSpec.SameRecipes (spec spec' : BuildSpec) : Prop where
  toolchain : spec'.toolchain = spec.toolchain
  tasks : spec'.tasks.map TaskSpec.recipe = spec.tasks.map TaskSpec.recipe

section SameRecipes

variable {H : Sha256} {cache : Str → Option Str} {spec spec' : BuildSpec} {out : Nat → Str}

theorem BuildSpec.SameRecipes.length (same : spec.SameRecipes spec') : spec'.tasks.length = spec.tasks.length := by
  have lengths := congrArg List.length same.tasks
  rwa [List.length_map, List.length_map] at lengths

/-- The task in the place of another. -/
theorem BuildSpec.SameRecipes.task (same : spec.SameRecipes spec') {id : Nat} {ts' : TaskSpec}
    (found : spec'.tasks[id]? = some ts') : ∃ ts, spec.tasks[id]? = some ts ∧ ts'.recipe = ts.recipe := by
  have place := congrArg (fun tasks => tasks[id]?) same.tasks
  simp only [List.getElem?_map, found, Option.map_some] at place
  obtain ⟨ts, here, equal⟩ := Option.map_eq_some_iff.mp place.symm
  exact ⟨ts, here, equal.symm⟩

theorem BuildSpec.SameRecipes.flatNameOf (same : spec.SameRecipes spec') : spec'.flatNameOf = spec.flatNameOf := by
  have names : spec'.tasks.map TaskSpec.name = spec.tasks.map TaskSpec.name := by
    have mapped := congrArg (List.map Recipe.name) same.tasks
    rwa [List.map_map, List.map_map] at mapped
  funext d
  have place := congrArg (fun names => names[d]?) names
  simp only [List.getElem?_map] at place
  rw [BuildSpec.flatNameOf, BuildSpec.flatNameOf, place]

/-- The outputs are known by the recipes. -/
theorem Known.sameRecipes (known : Known H cache spec out) (same : spec.SameRecipes spec') :
    Known H cache spec' out where
  filled id small := known.filled id (same.length ▸ small)
  compile id ts' found compile := by
    obtain ⟨ts, here, equal⟩ := same.task found
    have kind : ts'.kind = ts.kind := congrArg Recipe.kind equal
    have key : ts'.key = ts.key := congrArg Recipe.key equal
    rw [key]
    exact known.compile id ts here (kind.symm.trans compile)
  action id ts' found action := by
    obtain ⟨ts, here, equal⟩ := same.task found
    have kind : ts'.kind = ts.kind := congrArg Recipe.kind equal
    have args : ts'.args = ts.args := congrArg Recipe.args equal
    have deps : ts'.depIds = ts.depIds := congrArg (fun a : Recipe => a.deps.map Int.toNat) equal
    rw [kind, args, deps, same.toolchain, same.flatNameOf]
    exact known.action id ts here (kind ▸ action)

/-- What `submit_build` asks of it besides, where its inputs are digests and it has an order. -/
theorem BuildSpec.Accepted.sameRecipes (accepted : spec.Accepted) (same : spec.SameRecipes spec')
    (inputs : ∀ ts ∈ spec'.tasks, ts.kind = COMPILE → validHash ts.input = true)
    (order : ∃ order, topoOrder spec'.graph = .ok order) : spec'.Accepted := by
  have task : ∀ ts' ∈ spec'.tasks, ∃ ts ∈ spec.tasks, ts'.recipe = ts.recipe := by
    intro ts' member
    obtain ⟨id, found⟩ := List.mem_iff_getElem?.mp member
    obtain ⟨ts, here, equal⟩ := same.task found
    exact ⟨ts, List.mem_of_getElem? here, equal⟩
  refine ⟨List.find?_eq_none.mpr fun ts' member bad => ?_, fun ts' member => ?_, fun ts' member => ?_, order⟩
  all_goals obtain ⟨ts, here, equal⟩ := task ts' member
  · simp only [Bool.and_eq_true, decide_eq_true_eq, Bool.not_eq_true', Bool.and_eq_false_iff] at bad
    obtain ⟨compile, bad⟩ := bad
    have kind : ts'.kind = ts.kind := congrArg Recipe.kind equal
    have key : ts'.key = ts.key := congrArg Recipe.key equal
    have valid := (compileTask_valid accepted.good here (kind.symm.trans compile)).1
    rw [key, valid, inputs ts' member compile] at bad
    simp at bad
  · have kind : ts'.kind = ts.kind := congrArg Recipe.kind equal
    rw [kind]
    exact accepted.kinds ts here
  · have deps : ts'.depIds = ts.depIds := congrArg (fun a : Recipe => a.deps.map Int.toNat) equal
    rw [deps]
    exact accepted.deps ts here

end SameRecipes

section Specs

variable {m : Manifest} {toolchain : Str} {partitions partitions' : Int} {p p' : Prepared}

/-- Two lists of tasks on which the loops go on alike. -/
def Alike (tasks tasks' : List TaskSpec) : Prop := tasks'.map TaskSpec.recipe = tasks.map TaskSpec.recipe

theorem Alike.length {tasks tasks' : List TaskSpec} (alike : Alike tasks tasks') : tasks'.length = tasks.length := by
  have lengths := congrArg List.length alike
  rwa [List.length_map, List.length_map] at lengths

theorem Alike.snoc {tasks tasks' : List TaskSpec} {ts ts' : TaskSpec} (alike : Alike tasks tasks')
    (same : ts'.recipe = ts.recipe) : Alike (tasks ++ [ts]) (tasks' ++ [ts']) := by
  rw [Alike, List.map_append, List.map_append, alike, List.map_singleton, List.map_singleton, same]

/-- The loop over the units. -/
theorem compiles_alike (keys : ∀ src ∈ unitSources m, p'.key src = p.key src) :
    Alike (compiles m toolchain p).tasks (compiles m toolchain p').tasks ∧
      (compiles m toolchain p').unitTask = (compiles m toolchain p).unitTask := by
  have all : Alike (compiles m toolchain p).tasks (compiles m toolchain p').tasks ∧
      (compiles m toolchain p').taskOfKey = (compiles m toolchain p).taskOfKey ∧
      (compiles m toolchain p').unitTask = (compiles m toolchain p).unitTask := by
    refine List.foldl_rel (r := fun c c' : Compiles => Alike c.tasks c'.tasks ∧ c'.taskOfKey = c.taskOfKey ∧
      c'.unitTask = c.unitTask) ⟨rfl, rfl, rfl⟩ fun src member c c' same => ?_
    obtain ⟨alike, taskOfKey, unitTask⟩ := same
    rw [compileUnit, compileUnit, taskOfKey, keys src member]
    split
    · exact ⟨alike, rfl, by rw [unitTask]⟩
    · refine ⟨alike.snoc ?_, by rw [alike.length], by rw [unitTask, alike.length]⟩
      rw [alike.length]
      simp [TaskSpec.recipe, compileTask, keys src member]
  exact ⟨all.1, all.2.2⟩

theorem unitTask_alike (keys : ∀ src ∈ unitSources m, p'.key src = p.key src) :
    unitTask m toolchain p' = unitTask m toolchain p := by
  obtain ⟨-, units⟩ : Alike (compiles m toolchain p).tasks (compiles m toolchain p').tasks ∧ _ := compiles_alike keys
  funext src
  rw [unitTask, unitTask, units]

/-- The loop over the libraries. -/
theorem archives_alike (keys : ∀ src ∈ unitSources m, p'.key src = p.key src) :
    Alike (archives m toolchain p).tasks (archives m toolchain p').tasks ∧
      (archives m toolchain p').libTask = (archives m toolchain p).libTask := by
  refine List.foldl_rel (r := fun a a' : Archives => Alike a.tasks a'.tasks ∧ a'.libTask = a.libTask)
    ⟨(compiles_alike keys).1, rfl⟩ fun t member a a' same => ?_
  obtain ⟨alike, libTask⟩ := same
  rw [archiveLib, archiveLib, unitTask_alike keys]
  split
  · exact ⟨alike.snoc (by rw [alike.length]), by rw [libTask, alike.length]⟩
  · exact ⟨alike, libTask⟩

/-- Units with the same keys make specs with the same recipes. -/
theorem buildSpec_sameRecipes (keys : ∀ src ∈ unitSources m, p'.key src = p.key src) :
    (buildSpec m toolchain partitions p).SameRecipes (buildSpec m toolchain partitions' p') := by
  obtain ⟨archived, libTask⟩ : Alike (archives m toolchain p).tasks (archives m toolchain p').tasks ∧ _ :=
    archives_alike keys
  refine ⟨rfl, List.foldl_rel (r := Alike) archived fun t member tasks tasks' alike => ?_⟩
  rw [linkBin, linkBin, unitTask_alike keys, libTask]
  split
  · exact alike
  · exact alike.snoc (by rw [alike.length])

end Specs

/-! ### A build that is done, submitted again -/

section Coordinator

variable {H : Sha256} {o : Options} {digest : Str → Str} {calls later : List Call} {c c' : Coordinator} {build : Nat}
  {spec spec' : BuildSpec}

/-- All tasks of build `build'` are cached, with the outputs that the tasks of `build` have in `old`,
and the build is done. -/
structure Db.Repeats (old : Db) (build : Nat) (db : Db) (build' n : Nat) : Prop where
  rows : ∀ id < n, ∃ u ∈ db.tasks, u.slot = (build', id)
  cached : ∀ u ∈ db.tasks, u.buildId = build' →
    u.state = .cached ∧ ∃ t ∈ old.tasks, t.slot = (build, u.id) ∧ u.output = t.output ∧ t.output ≠ none
  done : ∃ b ∈ db.builds, b.id = build' ∧ b.state = .done

/-- The outputs of a build that is done are known from then on. -/
theorem Runs.known_outputs (run : Runs (Meets (Step H o) fun c call => call.Flat ∧ call.Determined digest c) {} calls c)
    (found : specOf calls build = some spec) (done : ∃ b ∈ c.db.builds, b.id = build ∧ b.state = .done)
    (rest : Runs (Step H o) c later c') :
    Known H c'.db.outputs spec (c.db.outputOf build) ∧
      ∀ t ∈ c.db.tasks, t.buildId = build → t.output = some (c.db.outputOf build t.id) := by
  have flatRun : Runs (Meets (Step H o) fun _ call => call.Flat) {} calls c :=
    run.mono fun step => ⟨step.1.1, step.2⟩
  obtain ⟨base, referring⟩ := Runs.referring flatRun
  obtain ⟨-, accepted, rows⟩ := Runs.specOf_accepted flatRun found
  have repeatable := Runs.repeatable run
  obtain ⟨b, hb, rfl, state⟩ := done
  have finished := repeatable.complete b hb state
  refine ⟨(repeatable.known base referring (Runs.recorded flatRun).placed found accepted rows finished).mono
    (Runs.remembers rest), fun t ht own => ?_⟩
  rw [← own]
  exact (base.outputOf ht (finished t ht own)).1

/-- A submit of a spec with the same recipes. -/
theorem submitBuild_repeats (run : Runs (Meets (Step H o) fun c call => call.Flat ∧ call.Determined digest c) {} calls c)
    (found : specOf calls build = some spec) (done : ∃ b ∈ c.db.builds, b.id = build ∧ b.state = .done)
    (rest : Runs (Step H o) c later c') (same : spec.SameRecipes spec')
    (accepted' : spec'.Accepted) (live : Int) :
    ∃ db, submitBuild H o c'.blobs.has c'.db live spec' = (db, .ok (c'.db.nextBuild, spec'.tasks.length)) ∧
      c.db.Repeats build db c'.db.nextBuild spec'.tasks.length := by
  have flatRun : Runs (Meets (Step H o) fun _ call => call.Flat) {} calls c :=
    run.mono fun step => ⟨step.1.1, step.2⟩
  obtain ⟨-, -, rows⟩ := Runs.specOf_accepted flatRun found
  obtain ⟨known, outputs⟩ := Runs.known_outputs run found done rest
  obtain ⟨db, ran, present, cached, closed⟩ := submitBuild_known (o := o) c'.blobs.has live
    (Runs.below (run.forget.trans rest)) accepted' (known.sameRecipes same)
  refine ⟨db, ran, present, fun u hu here => ?_, closed⟩
  obtain ⟨small, state, output⟩ := cached u hu here
  obtain ⟨t, ht, slot⟩ := rows u.id (same.length ▸ small)
  have before := outputs t ht (congrArg Prod.fst slot)
  rw [show t.id = u.id from congrArg Prod.snd slot] at before
  exact ⟨state, t, ht, slot, output.trans before.symm, by simp [before]⟩

end Coordinator

/-! ### The client -/

namespace Uploads

open DistCompile.Incremental

section Client

variable {H : Sha256} {o : Options} {digest : Str → Str} {calls later : List Call} {c c' : Coordinator} {build : Nat}
  {s : Setup} {e : Surroundings} {hits : List Str} {toolchain : Str} {partitions : Int} {p : Prepared}

/-- Units as far as a spec is made of them. -/
def preparedBy (units : Str → TextUnit) : Prepared where
  key src := (units src).key
  digest src := (units src).digest
  cost src := (units src).cost.toInt

/-- When every key is found, the build asks, and submits. -/
theorem prepare_found (unnoticed : ¬ Noticed H s e) (answers : Answers H s e c hits)
    (found : ∀ src ∈ unitSources s.m, (c.db.cached? (keyUnit H s e src).key).isSome = true) :
    prepare H s e = keyRuns H s e ++
      [.checkCache ((unitSources s.m).map fun src => (keyUnit H s e src).key), .findMissing [],
        .submitBuild (specOf s (keyUnit H s e))] := by
  have none_ : needed H s e hits = [] :=
    List.filter_eq_nil_iff.mpr fun src member => by simpa using (answers.cached src member).mpr (found src member)
  have textless_ : textless H s e hits = [] := by rw [textless, none_, List.filter_nil]
  have units : textUnit H s e hits = keyUnit H s e := by
    funext src
    rw [textUnit, textless_, if_neg List.not_mem_nil]
  rw [prepare_eq unnoticed answers, none_, textless_, units, missing, none_]
  simp [batches]

/-- Every unit has a compile task with its key. -/
theorem exists_compileTask {m : Manifest} {src : Str} (member : src ∈ unitSources m) :
    ∃ (id : Nat) (ts : TaskSpec), (buildSpec m toolchain partitions p).tasks[id]? = some ts ∧ ts.kind = COMPILE ∧
      ts.key = p.key src := by
  have built := compiles_interned m toolchain p
  have known : (compiles m toolchain p).taskOfKey (p.key src) = _ := unitTask_spec member
  obtain ⟨ts, here, key⟩ := (built.known _ _).mp known
  obtain ⟨u, -, rfl⟩ := built.made _ _ here
  refine ⟨unitTask m toolchain p src, _, ?_, rfl, key⟩
  rw [buildSpec_tasks, List.append_assoc, List.getElem?_append_left (List.getElem?_eq_some_iff.mp here).1, here]

/-- The keys of the units are in the cache where the outputs of the build are. -/
theorem keys_cached {m : Manifest} {db : Db} {out : Nat → Str}
    (known : Known H db.outputs (buildSpec m toolchain partitions p) out) {src : Str} (member : src ∈ unitSources m) :
    (db.cached? (p.key src)).isSome = true := by
  obtain ⟨id, ts, found, compile, key⟩ : ∃ (id : Nat) (ts : TaskSpec),
    (buildSpec m toolchain partitions p).tasks[id]? = some ts ∧ _ ∧ ts.key = p.key src := exists_compileTask member
  obtain ⟨row, cached, -⟩ := Option.map_eq_some_iff.mp (known.compile id ts found compile).2
  rw [← key, cached]
  rfl

/-- Every compile task has the digest of a unit. -/
theorem inputs_valid {m : Manifest} (digests : ∀ src ∈ unitSources m, validHash (p.digest src) = true) :
    ∀ ts ∈ (buildSpec m toolchain partitions p).tasks, ts.kind = COMPILE → validHash ts.input = true := by
  intro ts member compile
  obtain ⟨src, hsrc, -, input⟩ := compileTask_unit member compile
  rw [input]
  exact digests src hsrc

/-- A build of a manifest whose units get the keys that they had in a build that is done. -/
theorem prepare_repeats {glob : Str → List Str} {text : Str} (parsed : parseManifest glob text = .ok s.m)
    (run : Runs (Meets (Step H o) fun c call => call.Flat ∧ call.Determined digest c) {} calls c)
    (found : DistCompile.specOf calls build = some (buildSpec s.m s.toolchain partitions p))
    (done : ∃ b ∈ c.db.builds, b.id = build ∧ b.state = .done)
    (rest : Runs (Step H o) c later c') (unnoticed : ¬ Noticed H s e)
    (keys : ∀ src ∈ unitSources s.m, (keyUnit H s e src).key = p.key src)
    (digests : ∀ src ∈ unitSources s.m, validHash (keyUnit H s e src).digest = true)
    (answers : Answers H s e c' hits) {more : List Call} {c'' : Coordinator}
    (rest' : Runs (Step H o) c' more c'') (live : Int) :
    prepare H s e = keyRuns H s e ++ [.checkCache ((unitSources s.m).map p.key), .findMissing [],
        .submitBuild (specOf s (keyUnit H s e))] ∧
      ∃ db, submitBuild H o c''.blobs.has c''.db live (specOf s (keyUnit H s e)) =
          (db, .ok (c''.db.nextBuild, (specOf s (keyUnit H s e)).tasks.length)) ∧
        c.db.Repeats build db c''.db.nextBuild (specOf s (keyUnit H s e)).tasks.length := by
  have valid := parseManifest_valid parsed
  have flatRun : Runs (Meets (Step H o) fun _ call => call.Flat) {} calls c :=
    run.mono fun step => ⟨step.1.1, step.2⟩
  have same : (buildSpec s.m s.toolchain partitions p).SameRecipes (specOf s (keyUnit H s e)) :=
    buildSpec_sameRecipes keys
  have accepted' := (Runs.specOf_accepted flatRun found).2.1.sameRecipes same (inputs_valid digests)
    (buildSpec_accepted valid)
  refine ⟨?_, submitBuild_repeats run found done (rest.trans rest') same accepted' live⟩
  have known := (Runs.known_outputs run found done rest).1
  rw [prepare_found unnoticed answers fun src member => by rw [keys src member]; exact keys_cached known member,
    List.map_congr_left keys]

/-! ### Another checkout -/

/-- For every manifest and every run of calls after which a build of it is done, whatever has been
called since: a build of the same sources in another place, without a state file, preprocesses each
unit, finds every key, and uploads nothing. What it submits is accepted, and done at once, every task
cached with the output of the first build, as long as the texts are the same up to what the key
leaves out (line markers and blank lines for C). -/
theorem checkout_compiles_nothing {glob : Str → List Str} {text : Str} (hex : H.Digests)
    (parsed : parseManifest glob text = .ok s.m)
    (run : Runs (Meets (Step H o) fun c call => call.Flat ∧ call.Determined digest c) {} calls c)
    (found : DistCompile.specOf calls build = some (buildSpec s.m s.toolchain partitions p)) {texts : Str → Str}
    (keyed : ∀ src ∈ unitSources s.m, p.key src = compileKey H (unitConfig s.m s.toolchain src) (texts src))
    (done : ∃ b ∈ c.db.builds, b.id = build ∧ b.state = .done)
    (rest : Runs (Step H o) c later c') (nothing : s.file = [])
    (alike : ∀ src ∈ unitSources s.m, ∃ text' deps, e.first src = .ok (text', deps) ∧
      keyText (unitConfig s.m s.toolchain src) text' = keyText (unitConfig s.m s.toolchain src) (texts src))
    (answers : Answers H s e c' hits) {more : List Call} {c'' : Coordinator}
    (rest' : Runs (Step H o) c' more c'') (live : Int) :
    ∃ spec' db, prepare H s e = (unitSources s.m).map (fun src => .preprocess src (e.first src)) ++
        [.checkCache ((unitSources s.m).map p.key), .findMissing [], .submitBuild spec'] ∧
      submitBuild H o c''.blobs.has c''.db live spec' = (db, .ok (c''.db.nextBuild, spec'.tasks.length)) ∧
      c.db.Repeats build db c''.db.nextBuild spec'.tasks.length := by
  have unsaved : ∀ src, reusable H s e src = none := by
    intro src
    rw [reusable, nothing]
    rfl
  have keys : ∀ src ∈ unitSources s.m, (keyUnit H s e src).key = p.key src ∧
      validHash (keyUnit H s e src).digest = true := by
    intro src member
    obtain ⟨text', deps, outcome, same⟩ := alike src member
    rw [keyUnit_run (unsaved src), outcome, keyed src member, compileKey, compileParts, ← same]
    exact ⟨rfl, hex text'⟩
  have unnoticed : ¬ Noticed H s e := by
    rintro ⟨src, member, -, error, failed, -⟩
    obtain ⟨text', deps, outcome, -⟩ := alike src member
    rw [outcome] at failed
    cases failed
  have all : keyRuns H s e = (unitSources s.m).map fun src => .preprocess src (e.first src) := by
    rw [keyRuns, List.filter_eq_self.mpr fun src _ => by rw [unsaved src]; rfl]
  obtain ⟨effects, db, ran, repeats⟩ := prepare_repeats parsed run found done rest unnoticed
    (fun src member => (keys src member).1) (fun src member => (keys src member).2) answers rest' live
  exact ⟨_, db, all ▸ effects, ran, repeats⟩

end Client

/-! ### The same tree -/

/-- The units as a build leaves them. -/
def finalUnits (H : Sha256) (s : Setup) (e : Surroundings) (hits : List Str) : List SourceUnit :=
  (unitSources s.m).map fun src => (textUnit H s e hits src).toSourceUnit

/-- The state file that a build leaves. -/
def savedFile (H : Sha256) (s : Setup) (e : Surroundings) (hits : List Str) : Str :=
  saveState (stateConfig H s.m s.toolchain) (finalUnits H s e hits)

/-- The setup of the next build. -/
abbrev Setup.again (s : Setup) (H : Sha256) (e : Surroundings) (hits : List Str) : Setup :=
  { s with file := savedFile H s e hits }

/-- No file that a unit was made from has changed since it was stamped, and there is one. -/
def Untouched (tree : Tree) (root : Str) (u : SourceUnit) : Prop :=
  u.deps ≠ [] ∧ ∀ f ∈ u.deps, stamp tree root f.path = some f

/-- The digests that the loop over the outputs goes by are those of the reply. -/
def Goes (reply : BuildStatus) (d : Download) : Prop :=
  ∀ id : Nat, d.reported id = ((reply.tasks[id]?).map TaskStatus.output).getD []

section SameTree

variable {H : Sha256} {o : Options} {s : Setup} {e e' : Surroundings} {hits hits' : List Str} {glob : Str → List Str}

section Fetch

variable {Place : Type*} [DecidableEq Place] {place : Str → Place} {out : Str} {d : Download} {m : Manifest}
  {toolchain : Str} {p : Prepared}

end Fetch

end SameTree

/-! ### A library, built twice -/

/-- The source of the library, in both checkouts. -/
def unitText : Str := "int f;".toList

def unitTree : Tree := fun path => if path = "./f.c".toList then some ⟨unitText, 5, 6⟩ else none

/-- The first build preprocesses the source, and finds nothing in the cache. -/
def firstSurroundings : Surroundings where
  tree _ := unitTree
  first _ := .ok (unitText, [⟨5, 6, "f.c".toList⟩])
  second _ := .error "not run".toList
  checkCache := .ok []
  findMissing := .ok [Sha256.coarse.hex unitText]

def librarySpecOnce : BuildSpec := specOf sampleSetup (textUnit Sha256.coarse sampleSetup firstSurroundings [])

/-- All digests of the sample are the same. -/
def unitDigest : Str := Sha256.coarse.hex unitText

/-- It is compiled; the library is found under the same key. -/
def onceRequests : List Request :=
  [.putBlob unitText [], .submitBuild librarySpecOnce 1, .claimTask "w".toList "gcc".toList 0 0 1,
    .completeTask ⟨1, 1, "w".toList, true, false, unitDigest, [], 5⟩ 0 20]

def sameDigest : Call → Bool
  | .completeTask r _ _ => r.output = unitDigest
  | _ => true

/-- What the sample has come to. -/
def Once (calls : List Call) (c : Coordinator) : Prop :=
  (∀ call ∈ calls, call.Flat ∧ sameDigest call = true) ∧ DistCompile.specOf calls 1 = some librarySpecOnce ∧
    (∃ b ∈ c.db.builds, b.id = 1 ∧ b.state = .done) ∧ c.db.nextBuild = 2 ∧ (c.db.cached? unitDigest).isSome = true ∧
    ((getBuild c.db c.db c.db 1 true).toOption.any fun status =>
      (fetchOutputs Sha256.coarse (id : Str → Str) "out".toList (promptDownload status c.blobs) sampleSetup.m "gcc".toList
        (preparedBy (textUnit Sha256.coarse sampleSetup firstSurroundings [])) fun _ => none).toOption.isSome) = true

instance (calls : List Call) (c : Coordinator) : Decidable (Once calls c) := by
  unfold Once
  infer_instance

theorem onceRequests_served :
    (serveAll Sha256.coarse {} {} onceRequests).any (fun r => decide (Once r.1 r.2)) = true := by
  decide +kernel

/-- The run of the sample. -/
theorem once_run : ∃ calls c, Runs (Meets (Step Sha256.coarse {}) fun c call =>
    call.Flat ∧ call.Determined (fun _ => unitDigest) c) {} calls c ∧ Once calls c := by
  obtain ⟨⟨calls, c⟩, served, facts⟩ := (Option.any_eq_true ..).mp onceRequests_served
  have once : Once calls c := of_decide_eq_true facts
  refine ⟨calls, c, ((serveAll_runs served).meets once.1).mono fun {a call b} step => ⟨⟨step.1.1, ?_⟩, step.2⟩, once⟩
  cases call with
  | completeTask r now accepted => exact fun _ _ _ _ _ => of_decide_eq_true step.1.2
  | _ => trivial

/-- In the other checkout the text has a line marker, and the preprocessor runs. -/
def otherSurroundings : Surroundings where
  tree _ := fun path => if path = "./f.c".toList then some ⟨unitText, 7, 6⟩ else none
  first _ := .ok ("# 1 \"f.c\"\nint f;\n".toList, [⟨7, 6, "f.c".toList⟩])
  second _ := .error "not run".toList
  checkCache := .ok [unitDigest]
  findMissing := .ok []

theorem unitSources_sample : unitSources sampleSetup.m = ["f.c".toList] := by decide

/-- The units of the first build. -/
def onceUnits : Prepared := preparedBy (textUnit Sha256.coarse sampleSetup firstSurroundings [])

theorem checkout_compiles_nothing_sample : ∃ (c : Coordinator) (spec' : BuildSpec),
    prepare Sha256.coarse sampleSetup otherSurroundings =
      [.preprocess "f.c".toList (.ok ("# 1 \"f.c\"\nint f;\n".toList, [⟨7, 6, "f.c".toList⟩])), .checkCache [unitDigest],
        .findMissing [], .submitBuild spec'] ∧
    (submitBuild Sha256.coarse {} c.blobs.has c.db 1 spec').2 = .ok (2, spec'.tasks.length) := by
  obtain ⟨calls, c, run, once⟩ := once_run
  obtain ⟨-, found, done, next, hit, -⟩ := once
  have needless : needed Sha256.coarse sampleSetup otherSurroundings [unitDigest] = [] := by decide +kernel
  have answers : Answers Sha256.coarse sampleSetup otherSurroundings c [unitDigest] := by
    refine ⟨rfl, fun src member => ?_, by rw [missing, needless]; rfl, fun _ => rfl⟩
    rw [unitSources_sample, List.mem_singleton] at member
    subst member
    have key : (keyUnit Sha256.coarse sampleSetup otherSurroundings "f.c".toList).key = unitDigest := by decide +kernel
    rw [key]
    exact ⟨fun _ => hit, fun _ => List.mem_singleton.mpr rfl⟩
  have parsed : parseManifest (fun _ => []) "lib f f.c\n".toList = .ok sampleSetup.m := rfl
  have keyed : ∀ src ∈ unitSources sampleSetup.m, onceUnits.key src =
      compileKey Sha256.coarse (unitConfig sampleSetup.m sampleSetup.toolchain src) unitText := by
    rw [unitSources_sample]
    decide +kernel
  have alike : ∀ src ∈ unitSources sampleSetup.m, ∃ text' deps, otherSurroundings.first src = .ok (text', deps) ∧
      keyText (unitConfig sampleSetup.m sampleSetup.toolchain src) text' =
        keyText (unitConfig sampleSetup.m sampleSetup.toolchain src) unitText := by
    intro src member
    rw [unitSources_sample, List.mem_singleton] at member
    subst member
    exact ⟨_, _, rfl, by decide +kernel⟩
  have key : (unitSources sampleSetup.m).map onceUnits.key = [unitDigest] := by
    rw [unitSources_sample]
    decide +kernel
  obtain ⟨spec', db, effects, ran, -⟩ := checkout_compiles_nothing (p := onceUnits) Sha256.coarse_digests parsed run
    found keyed done .nil rfl alike answers .nil 1
  rw [key, unitSources_sample] at effects
  refine ⟨c, spec', effects, ?_⟩
  rw [ran, next]

end Uploads

end DistCompile
