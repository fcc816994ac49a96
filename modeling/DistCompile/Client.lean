import DistCompile.Coordinator
import DistCompile.Preprocess

/-!
The graph that `dcc` submits for a manifest (`build` in `src/dcc.cpp`, step 4).

Every source is one unit. Units with one key share a compile task, every library
is an archive of its objects, every binary a link of its objects and libraries.
What the earlier steps found for a source (its key, the digest of its preprocessed
text, its cost) is an argument, `Prepared`: the construction works for any of them.

The loops over units and targets are folds with the maps of the source as their
state; `Interned` and `Archived` say what they have built after each step.
-/

namespace DistCompile

/-! ### Units -/

/-- What is known of every source before the graph is built. -/
structure Prepared where
  key : Str → Str
  digest : Str → Str
  cost : Str → Int

/-- `lang_of`: by the text behind the last dot. -/
def langOf (src : Str) : Str :=
  let ext := if '.' ∈ src then ((src.splitOn '.').getLast?).getD [] else []
  if ext = "cc".toList ∨ ext = "cpp".toList ∨ ext = "cxx".toList ∨ ext = "C".toList then "c++".toList
  else "c".toList

/-- The sources of the units: one for each distinct source file. -/
def unitSources (m : Manifest) : List Str := (m.targets.flatMap Target.sources).eraseDups

/-- The configuration of a unit. -/
def unitConfig (m : Manifest) (toolchain src : Str) : CompileConfig :=
  makeConfig (if langOf src = "c".toList then m.cc else m.cxx) (langOf src) toolchain m.cflags

/-! ### Compile tasks -/

/-- The command of a compile task, without the files. -/
def compileArgs (cfg : CompileConfig) : List Str :=
  cfg.driver :: "-x".toList ::
    (if cfg.lang = "c".toList then "cpp-output".toList else "c++-cpp-output".toList) :: cfg.ccFlags

def objectName (src : Str) : Str := "obj/".toList ++ src ++ ".o".toList

def compileTask (m : Manifest) (toolchain : Str) (p : Prepared) (id : Nat) (src : Str) : TaskSpec where
  id := id
  kind := COMPILE
  name := objectName src
  key := p.key src
  input := p.digest src
  args := compileArgs (unitConfig m toolchain src)
  cost := p.cost src

/-- The variables of the loop over the units. -/
structure Compiles where
  tasks : List TaskSpec := []
  taskOfKey : Str → Option Nat := fun _ => none
  unitTask : List Nat := []

/-- One iteration: identical units compile once. -/
def compileUnit (m : Manifest) (toolchain : Str) (p : Prepared) (c : Compiles) (src : Str) : Compiles :=
  match c.taskOfKey (p.key src) with
  | some id => { c with unitTask := c.unitTask ++ [id] }
  | none =>
      { tasks := c.tasks ++ [compileTask m toolchain p c.tasks.length src]
        taskOfKey := Function.update c.taskOfKey (p.key src) (some c.tasks.length)
        unitTask := c.unitTask ++ [c.tasks.length] }

def compiles (m : Manifest) (toolchain : Str) (p : Prepared) : Compiles :=
  (unitSources m).foldl (compileUnit m toolchain p) {}

/-- `unit_task[unit_of[src]]`. -/
def unitTask (m : Manifest) (toolchain : Str) (p : Prepared) (src : Str) : Nat :=
  ((compiles m toolchain p).unitTask[(unitSources m).idxOf src]?).getD 0

/-! ### Archive and link tasks -/

def archiveName (lib : Str) : Str := "lib".toList ++ lib ++ ".a".toList

/-- The kind and the output file of a target's task. -/
def Target.kind (t : Target) : TaskKind := if t.isLib then ARCHIVE else LINK

def Target.output (t : Target) : Str := if t.isLib then archiveName t.name else t.name

/-- The objects of a target, each once. -/
def objectDeps (unitTask : Str → Nat) (t : Target) : List Nat := (t.sources.map unitTask).eraseDups

def archiveTask (unitTask : Str → Nat) (id : Nat) (t : Target) : TaskSpec where
  id := id
  kind := ARCHIVE
  name := archiveName t.name
  deps := (objectDeps unitTask t).map Int.ofNat
  cost := 1000

/-- The variables of the loop over the libraries. `lib_task[l]` makes a zero
where there is no entry. -/
structure Archives where
  tasks : List TaskSpec
  libTask : Str → Nat := fun _ => 0

def archiveLib (unitTask : Str → Nat) (a : Archives) (t : Target) : Archives :=
  if t.isLib then
    ⟨a.tasks ++ [archiveTask unitTask a.tasks.length t], Function.update a.libTask t.name a.tasks.length⟩
  else a

/-- Some source of the binary or of a library it links is C++. -/
def linksCxx (m : Manifest) (t : Target) : Bool :=
  t.sources.any (fun s => langOf s = "c++".toList) ||
    t.libs.any fun l => m.targets.any fun u => u.isLib && u.name = l &&
      u.sources.any fun s => langOf s = "c++".toList

def linkTask (m : Manifest) (unitTask libTask : Str → Nat) (id : Nat) (t : Target) : TaskSpec where
  id := id
  kind := LINK
  name := t.name
  deps := (objectDeps unitTask t ++ t.libs.map libTask).map Int.ofNat
  args := (if linksCxx m t then m.cxx else m.cc) :: m.ldflags
  cost := 5000

def linkBin (m : Manifest) (unitTask libTask : Str → Nat) (tasks : List TaskSpec) (t : Target) :
    List TaskSpec :=
  if t.isLib then tasks else tasks ++ [linkTask m unitTask libTask tasks.length t]

def archives (m : Manifest) (toolchain : Str) (p : Prepared) : Archives :=
  m.targets.foldl (archiveLib (unitTask m toolchain p)) { tasks := (compiles m toolchain p).tasks }

/-- The spec that `dcc` submits; `partitions` is an option of the client. -/
def buildSpec (m : Manifest) (toolchain : Str) (partitions : Int) (p : Prepared) : BuildSpec where
  toolchain := toolchain
  tasks := m.targets.foldl (linkBin m (unitTask m toolchain p) (archives m toolchain p).libTask)
    (archives m toolchain p).tasks
  partitions := partitions

/-- The spec takes the keys, digests and costs of the units, and no others. -/
theorem buildSpec_congr {m : Manifest} {p p' : Prepared} (toolchain : Str) (partitions : Int)
    (alike : ∀ src ∈ unitSources m, p.key src = p'.key src ∧ p.digest src = p'.digest src ∧ p.cost src = p'.cost src) :
    buildSpec m toolchain partitions p = buildSpec m toolchain partitions p' := by
  have units : compiles m toolchain p = compiles m toolchain p' := by
    rw [compiles, compiles]
    refine List.foldl_ext _ _ _ fun c src member => ?_
    obtain ⟨key, digest, cost⟩ := alike src member
    rw [compileUnit, compileUnit, compileTask, compileTask, key, digest, cost]
  have tasks : unitTask m toolchain p = unitTask m toolchain p' := by
    funext src
    rw [unitTask, unitTask, units]
  have libs : archives m toolchain p = archives m toolchain p' := by
    rw [archives, archives, tasks, units]
  rw [buildSpec, buildSpec, tasks, libs]

/-! ### What the loop over the units builds -/

theorem getElem?_snoc {α : Type} {l : List α} {a x : α} {i : Nat} :
    (l ++ [a])[i]? = some x ↔ l[i]? = some x ∨ i = l.length ∧ a = x := by
  rcases Nat.lt_trichotomy i l.length with inside | rfl | beyond
  · simp [List.getElem?_append_left inside, inside.ne]
  · simp
  · have past : (l ++ [a]).length ≤ i := by simpa using Nat.succ_le_of_lt beyond
    simp [List.getElem?_eq_none beyond.le, List.getElem?_eq_none past, beyond.ne']

theorem nodup_eraseDups {α : Type} [BEq α] [LawfulBEq α] (l : List α) : l.eraseDups.Nodup := by
  induction hn : l.length using Nat.strong_induction_on generalizing l with
  | _ n ih =>
    cases l with
    | nil => simp
    | cons a l =>
      rw [List.eraseDups_cons, List.nodup_cons]
      constructor
      · rw [List.mem_eraseDups]
        simp
      · refine ih _ ?_ _ rfl
        have := List.length_filter_le (fun b => !b == a) l
        simp only [List.length_cons] at hn
        omega

theorem unitSources_nodup (m : Manifest) : (unitSources m).Nodup := nodup_eraseDups _

section Units

variable {m : Manifest} {toolchain : Str} {p : Prepared}

/-- The unit that compiles for `src`: the first with its key. -/
def representative (m : Manifest) (p : Prepared) (src : Str) : Str :=
  ((unitSources m).find? fun s => p.key s = p.key src).getD src

/-- The loop after the units `done`. -/
structure Interned (m : Manifest) (toolchain : Str) (p : Prepared) (done : List Str) (c : Compiles) :
    Prop where
  made : ∀ (id : Nat) ts, c.tasks[id]? = some ts →
    ∃ s, done.find? (fun u => p.key u = p.key s) = some s ∧ ts = compileTask m toolchain p id s
  known : ∀ (k : Str) (id : Nat), c.taskOfKey k = some id ↔ ∃ ts, c.tasks[id]? = some ts ∧ ts.key = k
  units : c.unitTask.map some = done.map fun s => c.taskOfKey (p.key s)

theorem Interned.next {done : List Str} {c : Compiles} (built : Interned m toolchain p done c) (s : Str) :
    Interned m toolchain p (done ++ [s]) (compileUnit m toolchain p c s) := by
  unfold compileUnit
  cases shared : c.taskOfKey (p.key s) with
  | some id =>
    refine ⟨fun i ts found => ?_, built.known, ?_⟩
    · obtain ⟨u, first, made⟩ := built.made i ts found
      exact ⟨u, by rw [List.find?_append, first]; rfl, made⟩
    · rw [List.map_append, List.map_append, built.units]
      simp [shared]
  | none =>
    have fresh : ∀ u ∈ done, p.key u ≠ p.key s := by
      intro u hu same
      have entry : c.taskOfKey (p.key u) ∈ c.unitTask.map some := by
        rw [built.units]
        exact List.mem_map_of_mem hu
      rw [same, shared] at entry
      simp at entry
    refine ⟨fun i ts found => ?_, fun k i => ?_, ?_⟩
    · rcases getElem?_snoc.mp found with old | ⟨rfl, rfl⟩
      · obtain ⟨u, first, made⟩ := built.made i ts old
        exact ⟨u, by rw [List.find?_append, first]; rfl, made⟩
      · refine ⟨s, ?_, rfl⟩
        rw [List.find?_append, List.find?_eq_none.mpr (by simpa using fresh)]
        simp
    · dsimp only
      by_cases same : k = p.key s
      · subst same
        rw [Function.update_self]
        constructor
        · rintro ⟨rfl⟩
          exact ⟨_, getElem?_snoc.mpr (Or.inr ⟨rfl, rfl⟩), rfl⟩
        · rintro ⟨ts, found, key⟩
          rcases getElem?_snoc.mp found with old | ⟨rfl, -⟩
          · rw [(built.known _ i).mpr ⟨ts, old, key⟩] at shared
            cases shared
          · rfl
      · rw [Function.update_of_ne same, built.known k i]
        constructor
        · rintro ⟨ts, found, key⟩
          exact ⟨ts, getElem?_snoc.mpr (Or.inl found), key⟩
        · rintro ⟨ts, found, key⟩
          rcases getElem?_snoc.mp found with old | ⟨-, rfl⟩
          · exact ⟨ts, old, key⟩
          · exact absurd key.symm same
    · have old : done.map (fun u => Function.update c.taskOfKey (p.key s) (some c.tasks.length) (p.key u)) =
          done.map fun u => c.taskOfKey (p.key u) :=
        List.map_congr_left fun u hu => Function.update_of_ne (fresh u hu) _ _
      rw [List.map_append, List.map_append, built.units, old]
      simp

theorem compiles_interned (m : Manifest) (toolchain : Str) (p : Prepared) :
    Interned m toolchain p (unitSources m) (compiles m toolchain p) := by
  have grown : ∀ (rest done : List Str) (c : Compiles), Interned m toolchain p done c →
      Interned m toolchain p (done ++ rest) (rest.foldl (compileUnit m toolchain p) c) := by
    intro rest
    induction rest with
    | nil => simp
    | cons s rest ih =>
      intro done c built
      simpa using ih (done ++ [s]) _ (built.next s)
  exact grown (unitSources m) [] {} ⟨by simp, by simp, rfl⟩

/-- The task of a source is the one with its key. -/
theorem unitTask_spec {s : Str} (hs : s ∈ unitSources m) :
    (compiles m toolchain p).taskOfKey (p.key s) = some (unitTask m toolchain p s) := by
  have units := (compiles_interned m toolchain p).units
  have entry := congrArg (fun l => l[(unitSources m).idxOf s]?) units
  simp only [List.getElem?_map, List.getElem?_idxOf hs, Option.map_some] at entry
  rw [unitTask]
  cases found : (compiles m toolchain p).unitTask[(unitSources m).idxOf s]? with
  | none => simp [found] at entry
  | some id =>
    rw [found] at entry
    exact (Option.some.inj entry).symm

/-- It compiles the representative. -/
theorem unitTask_found {s : Str} (hs : s ∈ unitSources m) :
    (compiles m toolchain p).tasks[unitTask m toolchain p s]? =
      some (compileTask m toolchain p (unitTask m toolchain p s) (representative m p s)) := by
  have built := compiles_interned m toolchain p
  obtain ⟨ts, found, key⟩ := (built.known _ _).mp (unitTask_spec hs)
  obtain ⟨u, first, rfl⟩ := built.made _ _ found
  have same : p.key u = p.key s := key
  rw [found, representative, ← same, first]
  rfl

theorem unitTask_eq_iff {s t : Str} (hs : s ∈ unitSources m) (ht : t ∈ unitSources m) :
    unitTask m toolchain p s = unitTask m toolchain p t ↔ p.key s = p.key t := by
  have found : (compiles m toolchain p).taskOfKey (p.key s) = _ := unitTask_spec hs
  have found' : (compiles m toolchain p).taskOfKey (p.key t) = _ := unitTask_spec ht
  constructor
  · intro same
    obtain ⟨ts, here, key⟩ := ((compiles_interned m toolchain p).known _ _).mp found
    obtain ⟨ts', here', key'⟩ := ((compiles_interned m toolchain p).known _ _).mp found'
    rw [same, here'] at here
    rw [← key, ← key', Option.some.inj here]
  · intro same
    rw [same, found'] at found
    exact (Option.some.inj found).symm

theorem unitTask_lt {s : Str} (hs : s ∈ unitSources m) :
    unitTask m toolchain p s < (compiles m toolchain p).tasks.length :=
  (List.getElem?_eq_some_iff.mp (unitTask_found hs)).1

end Units

/-! ### What the loops over the targets build -/

section Targets

variable {glob : Str → List Str} {m : Manifest} {toolchain : Str} {p : Prepared}

/-- The loop over the libraries after the targets `done`. -/
structure Archived (unitTask : Str → Nat) (compiled : List TaskSpec) (done : List Target) (a : Archives) :
    Prop where
  start : compiled <+: a.tasks
  found : ∀ t ∈ done, t.isLib = true → compiled.length ≤ a.libTask t.name ∧
    a.tasks[a.libTask t.name]? = some (archiveTask unitTask (a.libTask t.name) t)
  made : ∀ (id : Nat) ts, a.tasks[id]? = some ts →
    compiled[id]? = some ts ∨ ∃ t ∈ done, t.isLib = true ∧ ts = archiveTask unitTask id t

theorem Archived.next {unitTask : Str → Nat} {compiled : List TaskSpec} {done : List Target} {a : Archives}
    (built : Archived unitTask compiled done a) {t : Target} (fresh : t.name ∉ done.map Target.name) :
    Archived unitTask compiled (done ++ [t]) (archiveLib unitTask a t) := by
  unfold archiveLib
  split
  · rename_i isLib
    refine ⟨built.start.trans (List.prefix_append _ _), fun u hu lib => ?_, fun id ts found => ?_⟩
    · dsimp only
      rcases List.mem_append.mp hu with old | new
      · have other : u.name ≠ t.name := fun same => fresh (same ▸ List.mem_map_of_mem old)
        rw [Function.update_of_ne other]
        obtain ⟨above, here⟩ := built.found u old lib
        exact ⟨above, getElem?_snoc.mpr (Or.inl here)⟩
      · obtain rfl := List.mem_singleton.mp new
        rw [Function.update_self]
        exact ⟨built.start.length_le, getElem?_snoc.mpr (Or.inr ⟨rfl, rfl⟩)⟩
    · rcases getElem?_snoc.mp found with old | ⟨rfl, rfl⟩
      · rcases built.made id ts old with compiled | ⟨u, hu, lib, rfl⟩
        · exact Or.inl compiled
        · exact Or.inr ⟨u, by simp [hu], lib, rfl⟩
      · exact Or.inr ⟨t, by simp, isLib, rfl⟩
  · rename_i isBin
    refine ⟨built.start, fun u hu lib => ?_, fun id ts found => ?_⟩
    · rcases List.mem_append.mp hu with old | new
      · exact built.found u old lib
      · rw [List.mem_singleton.mp new] at lib
        exact absurd lib isBin
    · rcases built.made id ts found with compiled | ⟨u, hu, lib, rfl⟩
      · exact Or.inl compiled
      · exact Or.inr ⟨u, by simp [hu], lib, rfl⟩

theorem archives_archived (names : (m.targets.map Target.name).Nodup) :
    Archived (unitTask m toolchain p) (compiles m toolchain p).tasks m.targets (archives m toolchain p) := by
  have grown : ∀ (rest done : List Target) (a : Archives), ((done ++ rest).map Target.name).Nodup →
      Archived (unitTask m toolchain p) (compiles m toolchain p).tasks done a →
      Archived (unitTask m toolchain p) (compiles m toolchain p).tasks (done ++ rest)
        (rest.foldl (archiveLib (unitTask m toolchain p)) a) := by
    intro rest
    induction rest with
    | nil => simp
    | cons t rest ih =>
      intro done a names built
      have fresh : t.name ∉ done.map Target.name := by
        rw [List.map_append, List.nodup_append] at names
        intro member
        exact names.2.2 _ member _ (by simp) rfl
      simpa using ih (done ++ [t]) _ (by simpa using names) (built.next fresh)
  exact grown m.targets [] _ names ⟨List.prefix_rfl, by simp, fun id ts found => Or.inl found⟩

theorem mem_unitSources {t : Target} (ht : t ∈ m.targets) {s : Str} (hs : s ∈ t.sources) :
    s ∈ unitSources m := by
  rw [unitSources, List.mem_eraseDups]
  exact List.mem_flatMap_of_mem ht hs

/-- The tasks of the spec, by position. -/
inductive Emitted (m : Manifest) (toolchain : Str) (p : Prepared) (id : Nat) : TaskSpec → Prop where
  | compile {s : Str} : (unitSources m).find? (fun u => p.key u = p.key s) = some s →
      unitTask m toolchain p s = id → Emitted m toolchain p id (compileTask m toolchain p id s)
  | archive {t : Target} : t ∈ m.targets → t.isLib = true →
      Emitted m toolchain p id (archiveTask (unitTask m toolchain p) id t)
  | link {t : Target} : t ∈ m.targets → t.isLib = false →
      Emitted m toolchain p id
        (linkTask m (unitTask m toolchain p) (archives m toolchain p).libTask id t)

/-- The last loop appends a link for every binary. -/
theorem linkBin_foldl (unitTask libTask : Str → Nat) (targets : List Target) (tasks : List TaskSpec) :
    targets.foldl (linkBin m unitTask libTask) tasks = tasks ++
      ((targets.filter fun t => !t.isLib).zipIdx tasks.length).map
        fun e => linkTask m unitTask libTask e.2 e.1 := by
  induction targets generalizing tasks with
  | nil => simp
  | cons t targets ih =>
    rw [List.foldl_cons, ih, linkBin]
    by_cases isLib : t.isLib
    · simp [isLib]
    · simp [isLib]

theorem emitted_compile {id : Nat} {ts : TaskSpec} (found : (compiles m toolchain p).tasks[id]? = some ts) :
    Emitted m toolchain p id ts := by
  obtain ⟨s, first, rfl⟩ := (compiles_interned m toolchain p).made id ts found
  refine .compile first ?_
  have known := ((compiles_interned m toolchain p).known (p.key s) id).mpr ⟨_, found, rfl⟩
  rw [unitTask_spec (List.mem_of_find?_eq_some first)] at known
  exact Option.some.inj known

theorem emitted_of_mem (names : (m.targets.map Target.name).Nodup) {partitions : Int} {id : Nat}
    {ts : TaskSpec} (found : (buildSpec m toolchain partitions p).tasks[id]? = some ts) :
    Emitted m toolchain p id ts := by
  rw [buildSpec, linkBin_foldl, List.getElem?_append] at found
  split at found
  · rcases (archives_archived names).made id ts found with compiled | ⟨t, ht, isLib, rfl⟩
    · exact emitted_compile compiled
    · exact .archive ht isLib
  · rename_i beyond
    rw [List.getElem?_map, List.getElem?_zipIdx, Option.map_map] at found
    obtain ⟨t, here, rfl⟩ := Option.map_eq_some_iff.mp found
    obtain ⟨ht, isBin⟩ := List.mem_filter.mp (List.mem_of_getElem? here)
    have place : (archives m toolchain p).tasks.length + (id - (archives m toolchain p).tasks.length) = id := by
      omega
    simp only [Function.comp_apply, place]
    exact .link ht (by simpa using isBin)

/-- Every binary has its link task. -/
theorem exists_link {t : Target} (ht : t ∈ m.targets) (isBin : t.isLib = false) (partitions : Int) :
    ∃ id, (buildSpec m toolchain partitions p).tasks[id]? =
      some (linkTask m (unitTask m toolchain p) (archives m toolchain p).libTask id t) := by
  obtain ⟨k, hk⟩ := List.mem_iff_getElem?.mp
    (List.mem_filter.mpr ⟨ht, by simpa using isBin⟩ : t ∈ m.targets.filter fun t => !t.isLib)
  refine ⟨(archives m toolchain p).tasks.length + k, ?_⟩
  rw [buildSpec, linkBin_foldl, List.getElem?_append_right (by omega), Nat.add_sub_cancel_left,
    List.getElem?_map, List.getElem?_zipIdx, hk]
  rfl

/-- The tasks of the first two loops stay where they are. -/
theorem archives_stay (partitions : Int) {id : Nat} {ts : TaskSpec}
    (found : (archives m toolchain p).tasks[id]? = some ts) :
    (buildSpec m toolchain partitions p).tasks[id]? = some ts := by
  rw [buildSpec, linkBin_foldl, List.getElem?_append_left (List.getElem?_eq_some_iff.mp found).1]
  exact found

theorem archiveName_inj {l l' : Str} (same : archiveName l = archiveName l') : l = l' := by
  simpa [archiveName] using same

/-- The task of a known library. -/
theorem libTask_found (valid : m.Valid glob) (toolchain : Str) (p : Prepared) {t : Target}
    (ht : t ∈ m.targets) {l : Str} (hl : l ∈ t.libs) :
    ∃ u ∈ m.targets, u.isLib = true ∧ u.name = l ∧
      (compiles m toolchain p).tasks.length ≤ (archives m toolchain p).libTask l ∧
      (archives m toolchain p).tasks[(archives m toolchain p).libTask l]? =
        some (archiveTask (unitTask m toolchain p) ((archives m toolchain p).libTask l) u) := by
  obtain ⟨u, hu, isLib, rfl⟩ := valid.known t ht l hl
  exact ⟨u, hu, isLib, rfl, (archives_archived valid.names).found u hu isLib⟩

theorem libTask_inj (valid : m.Valid glob) {t : Target} (ht : t ∈ m.targets) {l l' : Str} (hl : l ∈ t.libs)
    (hl' : l' ∈ t.libs) (same : (archives m toolchain p).libTask l = (archives m toolchain p).libTask l') :
    l = l' := by
  obtain ⟨u, -, -, rfl, -, found⟩ := libTask_found valid toolchain p ht hl
  obtain ⟨v, -, -, rfl, -, found'⟩ := libTask_found valid toolchain p ht hl'
  rw [same, found'] at found
  exact (archiveName_inj (congrArg TaskSpec.name (Option.some.inj found))).symm

/-! ### Repeated dependencies -/

theorem mem_objectDeps {unitTask : Str → Nat} {t : Target} {d : Nat} :
    d ∈ objectDeps unitTask t ↔ ∃ s ∈ t.sources, unitTask s = d := by
  rw [objectDeps, List.mem_eraseDups, List.mem_map]

theorem nodup_objectDeps (unitTask : Str → Nat) (t : Target) : (objectDeps unitTask t).Nodup :=
  nodup_eraseDups _

theorem map_toNat_ofNat (ids : List Nat) : (ids.map Int.ofNat).map Int.toNat = ids := by
  rw [List.map_map]
  exact List.map_id _

@[simp] theorem archiveTask_depIds (unitTask : Str → Nat) (id : Nat) (t : Target) :
    (archiveTask unitTask id t).depIds = objectDeps unitTask t := map_toNat_ofNat _

@[simp] theorem linkTask_depIds (unitTask libTask : Str → Nat) (id : Nat) (t : Target) :
    (linkTask m unitTask libTask id t).depIds = objectDeps unitTask t ++ t.libs.map libTask :=
  map_toNat_ofNat _

theorem Emitted.deps_nodup_iff {id : Nat} {ts : TaskSpec} (emitted : Emitted m toolchain p id ts) :
    ts.deps.Nodup ↔ ts.depIds.Nodup := by
  have ofNat : Function.Injective Int.ofNat := fun _ _ => Int.ofNat.inj
  cases emitted with
  | compile _ _ => simp [compileTask, TaskSpec.depIds]
  | archive _ _ => rw [archiveTask_depIds, archiveTask, List.nodup_map_iff ofNat]
  | link _ _ => rw [linkTask_depIds, linkTask, List.nodup_map_iff ofNat]

/-- The dependencies of a link repeat only where the manifest repeats a library. -/
theorem nodup_linkTask (valid : m.Valid glob) {t : Target} (ht : t ∈ m.targets) (id : Nat) :
    (linkTask m (unitTask m toolchain p) (archives m toolchain p).libTask id t).depIds.Nodup ↔
      t.libs.Nodup := by
  rw [linkTask_depIds, List.nodup_append]
  constructor
  · intro ⟨_, libs, _⟩
    exact libs.of_map
  · intro libs
    refine ⟨nodup_objectDeps _ t, ?_, ?_⟩
    · rw [List.nodup_map_iff_inj_on libs]
      exact fun l hl l' hl' same => libTask_inj valid ht hl hl' same
    · intro object inObjects library inLibs same
      obtain ⟨s, hs, rfl⟩ := mem_objectDeps.mp inObjects
      obtain ⟨l, hl, rfl⟩ := List.mem_map.mp inLibs
      obtain ⟨-, -, -, -, above, -⟩ := libTask_found valid toolchain p ht hl
      have below : unitTask m toolchain p s < _ := unitTask_lt (mem_unitSources ht hs)
      omega

/-- The primary key of `task_deps` is the pair of an edge within the build. -/
theorem nodup_insertedDeps {spec : BuildSpec} {build : Nat} :
    ((insertedDeps spec build).map TaskDep.primaryKey).Nodup ↔ ∀ ts ∈ spec.tasks, ts.depIds.Nodup := by
  have keys : (insertedDeps spec build).map TaskDep.primaryKey =
      spec.tasks.zipIdx.flatMap fun e => e.1.depIds.map fun d => (build, d, e.2) := by
    rw [insertedDeps, List.map_flatMap]
    refine List.flatMap_congr fun e _ => ?_
    conv_rhs => rw [← List.zipIdx_map_fst 0 e.1.depIds]
    rw [List.map_map, List.map_map]
    rfl
  have edge (id : Nat) : Function.Injective fun d : Nat => (build, d, id) := by
    intro d d' same
    simpa using same
  rw [keys, List.nodup_flatMap]
  constructor
  · intro ⟨each, _⟩ ts hts
    obtain ⟨id, found⟩ := List.mem_iff_getElem?.mp hts
    exact (List.nodup_map_iff (edge id)).mp (each (ts, id) (List.mk_mem_zipIdx_iff_getElem?.mpr found))
  · intro each
    constructor
    · intro e he
      exact (List.nodup_map_iff (edge e.2)).mpr (each e.1 (List.fst_mem_of_mem_zipIdx he))
    · refine (List.pairwise_map.mp (List.nodup_zipIdx_map_snd spec.tasks)).imp fun apart => ?_
      intro edge here there
      obtain ⟨d, -, rfl⟩ := List.mem_map.mp here
      obtain ⟨d', -, same⟩ := List.mem_map.mp there
      simp only [Prod.mk.injEq] at same
      exact apart same.2.2.symm

end Targets

/-- A valid manifest is accepted by the primary key of `task_deps` exactly when
no binary of it names a library twice. -/
theorem dependencies_distinct_iff {glob : Str → List Str} {text : Str} {m : Manifest}
    (accepted : parseManifest glob text = .ok m) (toolchain : Str) (partitions : Int) (p : Prepared) :
    ((∀ ts ∈ (buildSpec m toolchain partitions p).tasks, ts.deps.Nodup) ∧
      ∀ build, ((insertedDeps (buildSpec m toolchain partitions p) build).map TaskDep.primaryKey).Nodup) ↔
      ∀ t ∈ m.targets, t.libs.Nodup := by
  have valid := parseManifest_valid accepted
  simp only [nodup_insertedDeps]
  constructor
  · intro ⟨_, each⟩ t ht
    cases isLib : t.isLib with
    | true => simp [(valid.targets t ht).plain isLib]
    | false =>
      obtain ⟨id, found⟩ := exists_link ht isLib partitions
      exact (nodup_linkTask valid ht id).mp (each 0 _ (List.mem_of_getElem? found))
  · intro libs
    have each : ∀ ts ∈ (buildSpec m toolchain partitions p).tasks, ts.deps.Nodup ∧ ts.depIds.Nodup := by
      intro ts hts
      obtain ⟨id, found⟩ := List.mem_iff_getElem?.mp hts
      have emitted := emitted_of_mem valid.names found
      rw [emitted.deps_nodup_iff, and_self]
      cases emitted with
      | compile _ _ => simp [compileTask, TaskSpec.depIds]
      | archive _ _ =>
        rw [archiveTask_depIds]
        exact nodup_objectDeps _ _
      | link ht _ => exact (nodup_linkTask valid ht id).mpr (libs _ ht)
    exact ⟨fun ts hts => (each ts hts).1, fun _ ts hts => (each ts hts).2⟩

/-- Two sources, with keys and digests of the right form. -/
def twoUnits : Prepared where
  key s := List.replicate 64 (if s = "m.c".toList then 'a' else 'b')
  digest s := List.replicate 64 (if s = "m.c".toList then 'c' else 'd')
  cost _ := 10

theorem dependencies_distinct_iff_once :
    parseManifest (fun _ => []) "lib m m.c\nbin app main.c : m\n".toList = .ok
        { targets := [{ isLib := true, name := "m".toList, sources := ["m.c".toList] },
                      { name := "app".toList, sources := ["main.c".toList], libs := ["m".toList] }] } ∧
      ∀ ts ∈ (buildSpec
          { targets := [{ isLib := true, name := "m".toList, sources := ["m.c".toList] },
                        { name := "app".toList, sources := ["main.c".toList], libs := ["m".toList] }] }
          "13.3.0".toList 0 twoUnits).tasks, ts.deps.Nodup :=
  have accepted : parseManifest (fun _ => []) "lib m m.c\nbin app main.c : m\n".toList = .ok _ := rfl
  ⟨accepted, ((dependencies_distinct_iff accepted _ 0 twoUnits).mpr (by decide)).1⟩

/-- A binary that names a library twice: `dcc` lists the archive twice and the
coordinator gives up the submission. -/
theorem repeated_library_rejected :
    ∃ m, parseManifest (fun _ => []) "lib m m.c\nbin app main.c : m m\n".toList = .ok m ∧
      (¬ ∀ ts ∈ (buildSpec m "13.3.0".toList 0 twoUnits).tasks, ts.deps.Nodup) ∧
      (submitBuild (Sha256.ofTable [] (by simp)) {} (fun _ => true) {} 1
        (buildSpec m "13.3.0".toList 0 twoUnits)).2 = .error .unavailable :=
  ⟨_, rfl, by decide +kernel, by decide +kernel⟩

end DistCompile
