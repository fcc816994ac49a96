import DistCompile.Client

/-!
The graph of a manifest (`build` in `src/dcc.cpp`, steps 1 and 4; `parse_manifest` in
`src/manifest.cpp`).

`SpecOf` says what the submitted graph should be, in terms of the manifest and the keys of
its units alone: compile tasks by key, archives by library, links by binary, and dependencies
by what stands at the other end. That the three loops build it does not depend on the order
of the targets or on which units share a key.
-/

namespace DistCompile

open DistCompile.Graph

/-! ### What a dependency is -/

/-- The key of the compile task with this id. -/
def BuildSpec.keyAt (spec : BuildSpec) (d : Int) : Option Str :=
  (spec.tasks[d.toNat]?.filter fun ts => ts.kind = COMPILE).map TaskSpec.key

/-- The file of the archive task with this id. -/
def BuildSpec.archiveAt (spec : BuildSpec) (d : Int) : Option Str :=
  (spec.tasks[d.toNat]?.filter fun ts => ts.kind = ARCHIVE).map TaskSpec.name

/-- The tasks of one kind. -/
def BuildSpec.ofKind (spec : BuildSpec) (kind : TaskKind) : List TaskSpec :=
  spec.tasks.filter fun ts => ts.kind = kind

/-- The keys of the sources of a target, each once. -/
def sourceKeys (p : Prepared) (t : Target) : List Str := (t.sources.map p.key).eraseDups

/-- The graph of a manifest whose units were prepared as in `p`. -/
structure SpecOf (m : Manifest) (p : Prepared) (spec : BuildSpec) : Prop where
  ids : ∀ (i : Nat) ts, spec.tasks[i]? = some ts → ts.id = i
  earlier : ∀ (i : Nat) ts, spec.tasks[i]? = some ts → ∀ d ∈ ts.deps, 0 ≤ d ∧ d < i
  accepted : ∃ order, topoOrder spec.graph = .ok order
  kinds : ∀ ts ∈ spec.tasks, ts.kind = COMPILE ∨ ts.kind = ARCHIVE ∨ ts.kind = LINK
  compiles : (spec.ofKind COMPILE).map TaskSpec.key = ((unitSources m).map p.key).eraseDups
  /-- a compile task has no dependency, and compiles the first unit with its key -/
  unit : ∀ ts ∈ spec.ofKind COMPILE, ts.deps = [] ∧
    ∃ src, (unitSources m).find? (fun s => p.key s = ts.key) = some src ∧ ts.name = objectName src ∧
      ts.input = p.digest src
  archives : (spec.ofKind ARCHIVE).map TaskSpec.name =
    (m.targets.filter fun t => t.isLib).map fun t => archiveName t.name
  links : (spec.ofKind LINK).map TaskSpec.name = (m.targets.filter fun t => !t.isLib).map Target.name
  archived : ∀ t ∈ m.targets, t.isLib = true → ∀ ts ∈ spec.ofKind ARCHIVE, ts.name = archiveName t.name →
    ts.deps.map spec.keyAt = (sourceKeys p t).map some
  linked : ∀ t ∈ m.targets, t.isLib = false → ∀ ts ∈ spec.ofKind LINK, ts.name = t.name →
    ∃ objects libs, ts.deps = objects ++ libs ∧ objects.map spec.keyAt = (sourceKeys p t).map some ∧
      libs.map spec.archiveAt = t.libs.map fun l => some (archiveName l)

/-! ### The loops in closed form -/

section Loops

variable {m : Manifest} {toolchain : Str} {p : Prepared}

/-- The loop over the libraries appends an archive for each. -/
theorem archiveLib_foldl (unitTask : Str → Nat) (targets : List Target) (a : Archives) :
    (targets.foldl (archiveLib unitTask) a).tasks = a.tasks ++
      ((targets.filter fun t => t.isLib).zipIdx a.tasks.length).map fun e => archiveTask unitTask e.2 e.1 := by
  induction targets generalizing a with
  | nil => simp
  | cons t targets ih =>
    rw [List.foldl_cons, ih, archiveLib]
    by_cases isLib : t.isLib
    · simp [isLib]
    · simp [isLib]

/-- The archive tasks, in the order of the libraries. -/
def archiveTasks (m : Manifest) (toolchain : Str) (p : Prepared) : List TaskSpec :=
  ((m.targets.filter fun t => t.isLib).zipIdx (compiles m toolchain p).tasks.length).map
    fun e => archiveTask (unitTask m toolchain p) e.2 e.1

/-- The link tasks, in the order of the binaries. -/
def linkTasks (m : Manifest) (toolchain : Str) (p : Prepared) : List TaskSpec :=
  ((m.targets.filter fun t => !t.isLib).zipIdx (archives m toolchain p).tasks.length).map
    fun e => linkTask m (unitTask m toolchain p) (archives m toolchain p).libTask e.2 e.1

theorem archives_tasks : (archives m toolchain p).tasks =
    (compiles m toolchain p).tasks ++ archiveTasks m toolchain p := archiveLib_foldl _ _ _

theorem buildSpec_tasks (partitions : Int) : (buildSpec m toolchain partitions p).tasks =
    (compiles m toolchain p).tasks ++ archiveTasks m toolchain p ++ linkTasks m toolchain p := by
  rw [buildSpec, linkBin_foldl, linkTasks, archives_tasks]

theorem eraseDups_snoc_of_mem {α : Type} [BEq α] [LawfulBEq α] {l : List α} {a : α} (seen : a ∈ l) :
    (l ++ [a]).eraseDups = l.eraseDups := by
  have none : [a].filter (fun x => !l.elem x) = [] := by simp [seen]
  rw [List.eraseDups_append, List.removeAll, none, List.eraseDups_nil, List.append_nil]

theorem eraseDups_snoc_of_not_mem {α : Type} [BEq α] [LawfulBEq α] {l : List α} {a : α} (fresh : a ∉ l) :
    (l ++ [a]).eraseDups = l.eraseDups ++ [a] := by
  have all : [a].filter (fun x => !l.elem x) = [a] := by simp [fresh]
  rw [List.eraseDups_append, List.removeAll, all, List.eraseDups_cons]
  rfl

/-- The loop over the units lists every key once, at its first unit. -/
theorem compiles_keys : (compiles m toolchain p).tasks.map TaskSpec.key =
    ((unitSources m).map p.key).eraseDups := by
  have grown : ∀ (rest done : List Str) (c : Compiles), Interned m toolchain p done c →
      c.tasks.map TaskSpec.key = (done.map p.key).eraseDups →
      (rest.foldl (compileUnit m toolchain p) c).tasks.map TaskSpec.key =
        ((done ++ rest).map p.key).eraseDups := by
    intro rest
    induction rest with
    | nil => simp
    | cons s rest ih =>
      intro done c built keys
      have here : (compileUnit m toolchain p c s).tasks.map TaskSpec.key =
          ((done ++ [s]).map p.key).eraseDups := by
        rw [List.map_append, List.map_singleton]
        unfold compileUnit
        cases shared : c.taskOfKey (p.key s) with
        | some id =>
          obtain ⟨ts, found, key⟩ := (built.known _ id).mp shared
          have seen : p.key s ∈ done.map p.key := by
            rw [← List.mem_eraseDups, ← keys, ← key]
            exact List.mem_map_of_mem (List.mem_of_getElem? found)
          rw [eraseDups_snoc_of_mem seen]
          exact keys
        | none =>
          have fresh : p.key s ∉ done.map p.key := by
            rw [← List.mem_eraseDups, ← keys]
            intro seen
            obtain ⟨ts, member, key⟩ := List.mem_map.mp seen
            obtain ⟨id, found⟩ := List.mem_iff_getElem?.mp member
            rw [(built.known _ id).mpr ⟨ts, found, key⟩] at shared
            cases shared
          rw [eraseDups_snoc_of_not_mem fresh, ← keys, List.map_append]
          rfl
      simpa using ih (done ++ [s]) _ (built.next s) here
  simpa [compiles] using grown (unitSources m) [] {} ⟨by simp, by simp, rfl⟩ rfl

end Loops

/-- Erasing duplicates before or after renaming, when the two namings tell the same entries
apart. -/
theorem eraseDups_map_map {α β γ : Type} [BEq β] [LawfulBEq β] [BEq γ] [LawfulBEq γ] {f : α → β} {g : α → γ} {h : β → γ}
    (l : List α) (named : ∀ a ∈ l, h (f a) = g a) (apart : ∀ a ∈ l, ∀ b ∈ l, g a = g b → f a = f b) :
    ((l.map f).eraseDups).map h = (l.map g).eraseDups := by
  induction size : l.length using Nat.strong_induction_on generalizing l with
  | _ n ih =>
    cases l with
    | nil => simp
    | cons a l =>
      have same : l.filter (fun b => !(f b == f a)) = l.filter fun b => !(g b == g a) := by
        refine List.filter_congr fun b hb => ?_
        have onto : f b = f a → g b = g a := by
          intro eq
          rw [← named b (by simp [hb]), ← named a (by simp), eq]
        have back := apart b (by simp [hb]) a (by simp)
        by_cases eq : f b = f a
        · simp [eq, onto eq]
        · have : g b ≠ g a := fun eq' => eq (back eq')
          simp [eq, this]
      have smaller : (l.filter fun b => !(f b == f a)).length < n := by
        have := List.length_filter_le (fun b => !(f b == f a)) l
        simp only [List.length_cons] at size
        omega
      have sub : ∀ b ∈ l.filter (fun b => !(f b == f a)), b ∈ a :: l :=
        fun b hb => List.mem_cons_of_mem _ (List.mem_of_mem_filter hb)
      have rest := ih _ smaller _ (fun b hb => named b (sub b hb))
        (fun b hb c hc => apart b (sub b hb) c (sub c hc)) rfl
      rw [List.map_cons, List.map_cons, List.eraseDups_cons, List.eraseDups_cons, List.map_cons,
        named a (by simp), List.filter_map, List.filter_map]
      refine congrArg _ ?_
      change (((l.filter fun b => !(f b == f a)).map f).eraseDups).map h = _
      rw [rest, same]
      rfl

/-! ### The graph -/

section Graph

variable {glob : Str → List Str} {m : Manifest} {toolchain : Str} {p : Prepared} {partitions : Int}

theorem compiles_kind {ts : TaskSpec} (member : ts ∈ (compiles m toolchain p).tasks) : ts.kind = COMPILE := by
  obtain ⟨id, found⟩ := List.mem_iff_getElem?.mp member
  obtain ⟨s, -, rfl⟩ := (compiles_interned m toolchain p).made id ts found
  rfl

theorem mem_archiveTasks {ts : TaskSpec} (member : ts ∈ archiveTasks m toolchain p) :
    ∃ id, ∃ t ∈ m.targets, t.isLib = true ∧ ts = archiveTask (unitTask m toolchain p) id t := by
  obtain ⟨⟨t, id⟩, entry, rfl⟩ := List.mem_map.mp member
  obtain ⟨ht, isLib⟩ := List.mem_filter.mp (List.fst_mem_of_mem_zipIdx entry)
  exact ⟨id, t, ht, isLib, rfl⟩

theorem mem_linkTasks {ts : TaskSpec} (member : ts ∈ linkTasks m toolchain p) :
    ∃ id, ∃ t ∈ m.targets, t.isLib = false ∧
      ts = linkTask m (unitTask m toolchain p) (archives m toolchain p).libTask id t := by
  obtain ⟨⟨t, id⟩, entry, rfl⟩ := List.mem_map.mp member
  obtain ⟨ht, isBin⟩ := List.mem_filter.mp (List.fst_mem_of_mem_zipIdx entry)
  exact ⟨id, t, ht, by simpa using isBin, rfl⟩

theorem filter_kind {tasks : List TaskSpec} {kind : TaskKind} (all : ∀ ts ∈ tasks, ts.kind = kind)
    (other : TaskKind) : tasks.filter (fun ts => ts.kind = other) = if kind = other then tasks else [] := by
  split
  · rename_i same
    exact List.filter_eq_self.mpr fun ts member => by simp [all ts member, same]
  · rename_i apart
    exact List.filter_eq_nil_iff.mpr fun ts member => by simp [all ts member, apart]

/-- The tasks of each kind are those of one loop. -/
theorem ofKind_cases (kind : TaskKind) : (buildSpec m toolchain partitions p).ofKind kind =
    (if COMPILE = kind then (compiles m toolchain p).tasks else []) ++
      (if ARCHIVE = kind then archiveTasks m toolchain p else []) ++
        if LINK = kind then linkTasks m toolchain p else [] := by
  have archived : ∀ ts ∈ archiveTasks m toolchain p, ts.kind = ARCHIVE := by
    intro ts member
    obtain ⟨id, t, -, -, rfl⟩ := mem_archiveTasks member
    rfl
  have linked : ∀ ts ∈ linkTasks m toolchain p, ts.kind = LINK := by
    intro ts member
    obtain ⟨id, t, -, -, rfl⟩ := mem_linkTasks member
    rfl
  rw [BuildSpec.ofKind, buildSpec_tasks, List.filter_append, List.filter_append,
    filter_kind (fun ts => compiles_kind), filter_kind archived, filter_kind linked]

theorem ofKind_compile : (buildSpec m toolchain partitions p).ofKind COMPILE = (compiles m toolchain p).tasks := by
  rw [ofKind_cases]
  simp [COMPILE, ARCHIVE, LINK]

theorem ofKind_archive : (buildSpec m toolchain partitions p).ofKind ARCHIVE = archiveTasks m toolchain p := by
  rw [ofKind_cases]
  simp [COMPILE, ARCHIVE, LINK]

theorem ofKind_link : (buildSpec m toolchain partitions p).ofKind LINK = linkTasks m toolchain p := by
  rw [ofKind_cases]
  simp [COMPILE, ARCHIVE, LINK]

/-- The task of a source carries its key. -/
theorem keyAt_unitTask {s : Str} (hs : s ∈ unitSources m) :
    (buildSpec m toolchain partitions p).keyAt (Int.ofNat (unitTask m toolchain p s)) = some (p.key s) := by
  have found : (compiles m toolchain p).tasks[unitTask m toolchain p s]? = some _ := unitTask_found hs
  have inside := (List.getElem?_eq_some_iff.mp found).1
  have here : (buildSpec m toolchain partitions p).tasks[(Int.ofNat (unitTask m toolchain p s)).toNat]? =
      some (compileTask m toolchain p (unitTask m toolchain p s) (representative m p s)) := by
    rw [buildSpec_tasks, List.append_assoc]
    exact (List.getElem?_append_left inside).trans found
  obtain ⟨ts, same, key⟩ := ((compiles_interned m toolchain p).known _ _).mp (unitTask_spec hs)
  rw [found] at same
  rw [BuildSpec.keyAt, here, ← key, ← Option.some.inj same]
  rfl

/-- The objects of a target, by key. -/
theorem objectDeps_keys {t : Target} (ht : t ∈ m.targets) :
    ((objectDeps (unitTask m toolchain p) t).map Int.ofNat).map (buildSpec m toolchain partitions p).keyAt =
      (sourceKeys p t).map some := by
  have keyed : ∀ s ∈ t.sources, (buildSpec m toolchain partitions p).keyAt
      (Int.ofNat (unitTask m toolchain p s)) = some (p.key s) :=
    fun s hs => keyAt_unitTask (mem_unitSources ht hs)
  have apart : ∀ s ∈ t.sources, ∀ u ∈ t.sources, some (p.key s) = some (p.key u) →
      unitTask m toolchain p s = unitTask m toolchain p u := by
    intro s hs u hu same
    exact (unitTask_eq_iff (mem_unitSources ht hs) (mem_unitSources ht hu)).mpr (Option.some.inj same)
  have somes : ((t.sources.map p.key).eraseDups).map some = (t.sources.map fun s => some (p.key s)).eraseDups :=
    eraseDups_map_map t.sources (fun _ _ => rfl) fun s _ u _ same => Option.some.inj same
  rw [List.map_map, objectDeps, sourceKeys, somes]
  exact eraseDups_map_map (h := (buildSpec m toolchain partitions p).keyAt ∘ Int.ofNat) t.sources keyed apart

theorem archiveAt_libTask (valid : m.Valid glob) {t : Target} (ht : t ∈ m.targets) {l : Str} (hl : l ∈ t.libs) :
    (buildSpec m toolchain partitions p).archiveAt (Int.ofNat ((archives m toolchain p).libTask l)) =
      some (archiveName l) := by
  obtain ⟨u, -, -, rfl, -, found⟩ := libTask_found valid toolchain p ht hl
  have here := archives_stay partitions found
  change (((buildSpec m toolchain partitions p).tasks[(archives m toolchain p).libTask u.name]?).filter _).map _ = _
  rw [here]
  rfl

/-- The loop that made a task, and where it put it. -/
theorem tasks_cases {i : Nat} {ts : TaskSpec} (found : (buildSpec m toolchain partitions p).tasks[i]? = some ts) :
    (∃ src, ts = compileTask m toolchain p i src) ∨
    (∃ t ∈ m.targets, t.isLib = true ∧ (compiles m toolchain p).tasks.length ≤ i ∧
      ts = archiveTask (unitTask m toolchain p) i t) ∨
    ∃ t ∈ m.targets, t.isLib = false ∧ (archives m toolchain p).tasks.length ≤ i ∧
      ts = linkTask m (unitTask m toolchain p) (archives m toolchain p).libTask i t := by
  rw [buildSpec_tasks, ← archives_tasks, List.getElem?_append] at found
  split at found
  · rw [archives_tasks, List.getElem?_append] at found
    split at found
    · obtain ⟨s, -, rfl⟩ := (compiles_interned m toolchain p).made i ts found
      exact Or.inl ⟨s, rfl⟩
    · rename_i beyond
      rw [archiveTasks, List.getElem?_map, List.getElem?_zipIdx, Option.map_map] at found
      obtain ⟨t, here, rfl⟩ := Option.map_eq_some_iff.mp found
      obtain ⟨ht, isLib⟩ := List.mem_filter.mp (List.mem_of_getElem? here)
      refine Or.inr (Or.inl ⟨t, ht, isLib, by omega, ?_⟩)
      rw [Function.comp_apply, Nat.add_sub_cancel' (by omega)]
  · rename_i beyond
    rw [linkTasks, List.getElem?_map, List.getElem?_zipIdx, Option.map_map] at found
    obtain ⟨t, here, rfl⟩ := Option.map_eq_some_iff.mp found
    obtain ⟨ht, isBin⟩ := List.mem_filter.mp (List.mem_of_getElem? here)
    refine Or.inr (Or.inr ⟨t, ht, by simpa using isBin, by omega, ?_⟩)
    rw [Function.comp_apply, Nat.add_sub_cancel' (by omega)]

theorem buildSpec_ids {i : Nat} {ts : TaskSpec} (found : (buildSpec m toolchain partitions p).tasks[i]? = some ts) :
    ts.id = i := by
  rcases tasks_cases found with ⟨_, rfl⟩ | ⟨_, -, -, -, rfl⟩ | ⟨_, -, -, -, rfl⟩
  · rfl
  · rfl
  · rfl

/-- Every dependency is a task of an earlier loop. -/
theorem buildSpec_earlier (valid : m.Valid glob) {i : Nat} {ts : TaskSpec}
    (found : (buildSpec m toolchain partitions p).tasks[i]? = some ts) {d : Int} (hd : d ∈ ts.deps) :
    0 ≤ d ∧ d < i := by
  have object : ∀ t ∈ m.targets, ∀ e ∈ objectDeps (unitTask m toolchain p) t,
      e < (compiles m toolchain p).tasks.length := by
    intro t ht e he
    obtain ⟨s, hs, rfl⟩ := mem_objectDeps.mp he
    exact unitTask_lt (mem_unitSources ht hs)
  have grown : (compiles m toolchain p).tasks.length ≤ (archives m toolchain p).tasks.length := by
    rw [archives_tasks, List.length_append]
    exact Nat.le_add_right _ _
  rcases tasks_cases found with ⟨_, rfl⟩ | ⟨t, ht, -, above, rfl⟩ | ⟨t, ht, -, above, rfl⟩
  · simp [compileTask] at hd
  · obtain ⟨e, he, rfl⟩ := List.mem_map.mp hd
    have := object t ht e he
    simp only [Int.ofNat_eq_natCast]
    omega
  · obtain ⟨e, he, rfl⟩ := List.mem_map.mp hd
    have before : e < (archives m toolchain p).tasks.length := by
      rcases List.mem_append.mp he with isObject | isLib
      · exact (object t ht e isObject).trans_le grown
      · obtain ⟨l, hl, rfl⟩ := List.mem_map.mp isLib
        obtain ⟨_, -, -, -, -, here⟩ := libTask_found valid toolchain p ht hl
        exact (List.getElem?_eq_some_iff.mp here).1
    simp only [Int.ofNat_eq_natCast]
    omega

theorem buildSpec_accepted (valid : m.Valid glob) :
    ∃ order, topoOrder (buildSpec m toolchain partitions p).graph = .ok order := by
  refine topoOrder_accepts (fun i x found => ?_) fun i x found d hd => ?_
  · rw [BuildSpec.graph, List.getElem?_map] at found
    obtain ⟨ts, here, rfl⟩ := Option.map_eq_some_iff.mp found
    exact buildSpec_ids here
  · rw [BuildSpec.graph, List.getElem?_map] at found
    obtain ⟨ts, here, rfl⟩ := Option.map_eq_some_iff.mp found
    exact buildSpec_earlier valid here hd

/-- The names of what a loop appended. -/
theorem map_zipIdx_names {targets : List Target} {start : Nat} {task : Nat → Target → TaskSpec} {name : Target → Str}
    (named : ∀ id t, (task id t).name = name t) :
    ((targets.zipIdx start).map fun e => task e.2 e.1).map TaskSpec.name = targets.map name := by
  rw [List.map_map]
  conv_rhs => rw [← List.zipIdx_map_fst start targets]
  rw [List.map_map]
  exact List.map_congr_left fun e _ => named e.2 e.1

/-- For every manifest that `parse_manifest` returns and every way its units were prepared, the
submitted spec is the graph of the manifest. -/
theorem buildSpec_faithful {text : Str} (accepted : parseManifest glob text = .ok m) (toolchain : Str)
    (partitions : Int) (p : Prepared) : SpecOf m p (buildSpec m toolchain partitions p) := by
  have valid := parseManifest_valid accepted
  have unique : ∀ {t u : Target}, t ∈ m.targets → u ∈ m.targets → t.name = u.name → t = u :=
    fun ht hu same => List.inj_on_of_nodup_map valid.names ht hu same
  constructor
  case ids => exact fun i ts found => buildSpec_ids found
  case earlier => exact fun i ts found d hd => buildSpec_earlier valid found hd
  case accepted => exact buildSpec_accepted valid
  case kinds =>
    intro ts member
    obtain ⟨i, found⟩ := List.mem_iff_getElem?.mp member
    rcases tasks_cases found with ⟨_, rfl⟩ | ⟨_, -, -, -, rfl⟩ | ⟨_, -, -, -, rfl⟩
    · exact Or.inl rfl
    · exact Or.inr (Or.inl rfl)
    · exact Or.inr (Or.inr rfl)
  case compiles =>
    rw [ofKind_compile]
    exact compiles_keys
  case unit =>
    rw [ofKind_compile]
    intro ts member
    obtain ⟨i, found⟩ := List.mem_iff_getElem?.mp member
    obtain ⟨src, first, rfl⟩ := (compiles_interned m toolchain p).made i ts found
    exact ⟨rfl, src, first, rfl, rfl⟩
  case archives =>
    rw [ofKind_archive]
    exact map_zipIdx_names fun id t => rfl
  case links =>
    rw [ofKind_link]
    exact map_zipIdx_names fun id t => rfl
  case archived =>
    rw [ofKind_archive]
    intro t ht isLib ts member named
    obtain ⟨id, u, hu, -, rfl⟩ := mem_archiveTasks member
    obtain rfl := unique hu ht (archiveName_inj named)
    exact objectDeps_keys hu
  case linked =>
    rw [ofKind_link]
    intro t ht isBin ts member named
    obtain ⟨id, u, hu, -, rfl⟩ := mem_linkTasks member
    obtain rfl := unique hu ht named
    refine ⟨_, _, List.map_append, objectDeps_keys hu, ?_⟩
    rw [List.map_map, List.map_map]
    exact List.map_congr_left fun l hl => archiveAt_libTask valid hu hl

end Graph

/-- A library behind the binary that links it; two sources share a key. -/
theorem buildSpec_faithful_shared :
    ∃ m, parseManifest (fun _ => []) "bin app main.c a.c : m\nlib m m.c b.c\n".toList = .ok m ∧
      SpecOf m twoUnits (buildSpec m "13.3.0".toList 0 twoUnits) :=
  have accepted : parseManifest (fun _ => []) "bin app main.c a.c : m\nlib m m.c b.c\n".toList = .ok _ := rfl
  ⟨_, accepted, buildSpec_faithful accepted _ _ _⟩

end DistCompile
