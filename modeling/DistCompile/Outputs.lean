import DistCompile.Lib.Refresh
import DistCompile.ManifestGraph

/-!
The files that a build writes (`output_file` and step 6 of `build` in `src/dcc.cpp`,
`parse_manifest` in `src/manifest.cpp`).

A library is written to `lib<name>.a` and a binary to its name, under the output directory. For
each of them the loop reads the file, leaves it alone when it has the digest that the coordinator
reported, and else downloads the blob and writes it. Nothing looks at whether the write succeeded.

Which file a path leads to is an argument (`place`): `out/a` and `out/./a` are the same. So are the
replies of the coordinator and the outcome of each write, which fails where the path is that of a
directory, for one. The parser rejects a target named twice, but not a binary that is named like
the file of a library.
-/

namespace DistCompile

open DistCompile.Lib

/-! ### Files of targets -/

/-- `ts` is the task of the target. -/
structure Target.MadeBy (t : Target) (spec : BuildSpec) (ts : TaskSpec) : Prop where
  member : ts ∈ spec.tasks
  kind : ts.kind = t.kind
  name : ts.name = t.output

/-- `o.out + "/" + file`. -/
def outputPath (out file : Str) : Str := out ++ '/' :: file

/-- `output_file` in the order of its keys, which are the ids of the archive and link tasks. -/
def outputFiles (m : Manifest) (toolchain : Str) (p : Prepared) : List (Int × Str) :=
  (archiveTasks m toolchain p ++ linkTasks m toolchain p).map fun ts => (ts.id, ts.name)

/-! ### The loop over the outputs -/

/-- What the loop meets: the digests that the coordinator reports for the tasks, its replies to
the downloads, and which writes succeed. -/
structure Download where
  reported : Int → Str
  getBlob : Int → Except Str Str
  writes : Int → Bool

section Fetch

variable {Place : Type*} [DecidableEq Place] (H : Sha256) (place : Str → Place) (out : Str) (d : Download)

def downloadError (file : Str) : Str := "download of ".toList ++ file ++ " failed".toList

/-- One round. -/
def fetchOutput (disk : Place → Option Str) (entry : Int × Str) : Except Str (Place → Option Str) :=
  if (disk (place (outputPath out entry.2))).any fun content => H.hex content = d.reported entry.1 then .ok disk
  else match d.getBlob entry.1 with
    | .error _ => .error (downloadError entry.2)
    | .ok data =>
        if H.hex data ≠ d.reported entry.1 then .error (downloadError entry.2)
        else if d.writes entry.1 then .ok (Function.update disk (place (outputPath out entry.2)) (some data))
        else .ok disk

/-- Step 6 of `build`. -/
def fetchOutputs (m : Manifest) (toolchain : Str) (p : Prepared) (disk : Place → Option Str) :
    Except Str (Place → Option Str) :=
  (outputFiles m toolchain p).foldlM (fetchOutput H place out d) disk

end Fetch

/-! ### Every target its own file -/

/-- Distinct targets have distinct paths. -/
def DistinctPaths (out : Str) (m : Manifest) : Prop :=
  ∀ t ∈ m.targets, ∀ u ∈ m.targets, t ≠ u → outputPath out t.output ≠ outputPath out u.output

/-- No binary is named like the file of a library. -/
def NoClash (m : Manifest) : Prop :=
  ∀ lib ∈ m.targets, ∀ bin ∈ m.targets, lib.isLib = true → bin.isLib = false → bin.name ≠ archiveName lib.name

instance (m : Manifest) : Decidable (NoClash m) :=
  inferInstanceAs (Decidable (∀ lib ∈ m.targets, ∀ bin ∈ m.targets, lib.isLib = true → bin.isLib = false →
    bin.name ≠ archiveName lib.name))

section Targets

variable {glob : Str → List Str} {m : Manifest} {toolchain : Str} {partitions : Int} {p : Prepared} {out : Str}

theorem Target.output_lib {t : Target} (isLib : t.isLib = true) : t.output = archiveName t.name := if_pos isLib

theorem Target.output_bin {t : Target} (isBin : t.isLib = false) : t.output = t.name := by
  rw [Target.output, isBin]
  rfl

theorem outputPath_inj {file file' : Str} : outputPath out file = outputPath out file' ↔ file = file' := by
  simp [outputPath]

theorem distinctPaths_iff (names : (m.targets.map Target.name).Nodup) : DistinctPaths out m ↔ NoClash m := by
  constructor
  · intro distinct lib hlib bin hbin isLib isBin same
    refine distinct lib hlib bin hbin (fun eq => ?_) ?_
    · rw [eq, isBin] at isLib
      cases isLib
    · rw [Target.output_lib isLib, Target.output_bin isBin, same]
  · intro clash t ht u hu other same
    have file := outputPath_inj.mp same
    have apart : t.name ≠ u.name := fun name => other (List.inj_on_of_nodup_map names ht hu name)
    cases tLib : t.isLib with
    | true =>
      cases uLib : u.isLib with
      | true =>
        rw [Target.output_lib tLib, Target.output_lib uLib] at file
        exact apart (archiveName_inj file)
      | false =>
        rw [Target.output_lib tLib, Target.output_bin uLib] at file
        exact clash t ht u hu tLib uLib file.symm
    | false =>
      cases uLib : u.isLib with
      | true =>
        rw [Target.output_bin tLib, Target.output_lib uLib] at file
        exact clash u hu t ht uLib tLib file
      | false =>
        rw [Target.output_bin tLib, Target.output_bin uLib] at file
        exact apart file

/-- The tasks of the libraries, or of the binaries, in the order of their targets. -/
theorem madeBy_unique_of {tasks : List TaskSpec} {kind : TaskKind} {targets : List Target} {t : Target}
    (ofKind : (buildSpec m toolchain partitions p).ofKind kind = tasks)
    (files : tasks.map TaskSpec.name = targets.map Target.output) (apart : (targets.map Target.output).Nodup)
    (ht : t ∈ targets) (is : t.kind = kind) : ∃! ts, t.MadeBy (buildSpec m toolchain partitions p) ts := by
  have there : t.output ∈ tasks.map TaskSpec.name := by
    rw [files]
    exact List.mem_map_of_mem ht
  obtain ⟨ts, member, name⟩ := List.mem_map.mp there
  have made : ∀ us, t.MadeBy (buildSpec m toolchain partitions p) us → us ∈ tasks := by
    intro us made
    rw [← ofKind]
    exact List.mem_filter.mpr ⟨made.member, decide_eq_true (made.kind.trans is)⟩
  rw [← ofKind] at member
  obtain ⟨inSpec, sameKind⟩ := List.mem_filter.mp member
  refine ⟨ts, ⟨inSpec, (of_decide_eq_true sameKind).trans is.symm, name⟩, fun us other => ?_⟩
  exact List.inj_on_of_nodup_map (files ▸ apart) (made us other) (ofKind ▸ member) (other.name.trans name.symm)

/-- A target has one task. -/
theorem madeBy_unique (names : (m.targets.map Target.name).Nodup) {t : Target} (ht : t ∈ m.targets) :
    ∃! ts, t.MadeBy (buildSpec m toolchain partitions p) ts := by
  have filtered : ∀ q : Target → Bool, ((m.targets.filter q).map Target.name).Nodup := fun q =>
    names.sublist ((List.filter_sublist).map Target.name)
  cases lib : t.isLib with
  | true =>
    have files : (m.targets.filter fun u => u.isLib).map Target.output =
        (m.targets.filter fun u => u.isLib).map fun u => archiveName u.name :=
      List.map_congr_left fun u hu => Target.output_lib (by simpa using (List.mem_filter.mp hu).2)
    have tasks : (archiveTasks m toolchain p).map TaskSpec.name =
        (m.targets.filter fun u => u.isLib).map fun u => archiveName u.name := map_zipIdx_names fun _ _ => rfl
    have apart : ((m.targets.filter fun u => u.isLib).map fun u => archiveName u.name).Nodup := by
      have mapped := (filtered fun u => u.isLib).map fun _ _ => archiveName_inj
      rwa [List.map_map] at mapped
    exact madeBy_unique_of ofKind_archive (tasks.trans files.symm) (files ▸ apart)
      (List.mem_filter.mpr ⟨ht, lib⟩) (if_pos lib)
  | false =>
    have files : (m.targets.filter fun u => !u.isLib).map Target.output =
        (m.targets.filter fun u => !u.isLib).map Target.name :=
      List.map_congr_left fun u hu => Target.output_bin (by simpa using (List.mem_filter.mp hu).2)
    have tasks : (linkTasks m toolchain p).map TaskSpec.name =
        (m.targets.filter fun u => !u.isLib).map Target.name := map_zipIdx_names fun _ _ => rfl
    exact madeBy_unique_of ofKind_link (tasks.trans files.symm) (files ▸ filtered fun u => !u.isLib)
      (List.mem_filter.mpr ⟨ht, by simp [lib]⟩) (by simp [Target.kind, lib])

/-- The entries of `output_file` are the tasks of the targets. -/
theorem mem_outputFiles {entry : Int × Str} : entry ∈ outputFiles m toolchain p ↔
    ∃ t ∈ m.targets, ∃ ts, t.MadeBy (buildSpec m toolchain partitions p) ts ∧ entry = (ts.id, t.output) := by
  constructor
  · intro member
    obtain ⟨ts, appended, rfl⟩ := List.mem_map.mp member
    have inSpec : ts ∈ (buildSpec m toolchain partitions p).tasks := by
      rw [buildSpec_tasks, List.append_assoc]
      exact List.mem_append_right _ appended
    rcases List.mem_append.mp appended with archive | link
    · obtain ⟨id, t, ht, isLib, rfl⟩ := mem_archiveTasks archive
      have file := Target.output_lib isLib
      exact ⟨t, ht, _, ⟨inSpec, (if_pos isLib).symm, file.symm⟩, by rw [file]; rfl⟩
    · obtain ⟨id, t, ht, isBin, rfl⟩ := mem_linkTasks link
      have file := Target.output_bin isBin
      exact ⟨t, ht, _, ⟨inSpec, by rw [Target.kind, isBin]; rfl, file.symm⟩, by rw [file]; rfl⟩
  · rintro ⟨t, ht, ts, made, rfl⟩
    refine List.mem_map.mpr ⟨ts, ?_, by rw [made.name]⟩
    have ofKind : ts ∈ (buildSpec m toolchain partitions p).ofKind t.kind :=
      List.mem_filter.mpr ⟨made.member, decide_eq_true made.kind⟩
    cases lib : t.isLib with
    | true =>
      rw [Target.kind, lib, if_pos rfl, ofKind_archive] at ofKind
      exact List.mem_append_left _ ofKind
    | false =>
      rw [Target.kind, lib, if_neg Bool.false_ne_true, ofKind_link] at ofKind
      exact List.mem_append_right _ ofKind

end Targets

/-! ### What the loop leaves in the files -/

section Files

variable {Place : Type*}

/-- The file of every target has the digest that is reported for its own task. -/
def OwnFiles (H : Sha256) (place : Str → Place) (out : Str) (d : Download) (m : Manifest) (spec : BuildSpec)
    (disk : Place → Option Str) : Prop :=
  ∀ t ∈ m.targets, ∃ ts, t.MadeBy spec ts ∧ HoldsAt H.hex disk (place (outputPath out t.output)) (d.reported ts.id)

/-- Targets whose paths lead to one file have one digest. -/
def Agree (place : Str → Place) (out : Str) (d : Download) (m : Manifest) (spec : BuildSpec) : Prop :=
  ∀ t ∈ m.targets, ∀ u ∈ m.targets, ∀ ts us, t.MadeBy spec ts → u.MadeBy spec us →
    place (outputPath out t.output) = place (outputPath out u.output) → d.reported ts.id = d.reported us.id

/-- Every file was up to date, or the write for a target with this file succeeds. -/
def Saved (H : Sha256) (place : Str → Place) (out : Str) (d : Download) (m : Manifest) (spec : BuildSpec)
    (disk : Place → Option Str) : Prop :=
  ∀ t ∈ m.targets, ∀ ts, t.MadeBy spec ts →
    HoldsAt H.hex disk (place (outputPath out t.output)) (d.reported ts.id) ∨
      ∃ u ∈ m.targets, ∃ us, u.MadeBy spec us ∧
        place (outputPath out u.output) = place (outputPath out t.output) ∧ d.writes us.id = true

variable {glob : Str → List Str} {m : Manifest} {toolchain : Str} {partitions : Int} {p : Prepared} {out : Str}
  {H : Sha256} {place : Str → Place} {d : Download} {disk disk' : Place → Option Str}

/-- Where paths lead to files of their own, no two targets share one. -/
theorem agree_of_injective (names : (m.targets.map Target.name).Nodup) (apart : Function.Injective place)
    (clash : NoClash m) : Agree place out d m (buildSpec m toolchain partitions p) := by
  intro t ht u hu ts us made made' same
  have one : t = u := by
    by_contra other
    exact (distinctPaths_iff names).mpr clash t ht u hu other (apart same)
  subst one
  rw [(madeBy_unique names ht).unique made made']

theorem saved_of_writes (writes : ∀ id, d.writes id = true) :
    Saved H place out d m (buildSpec m toolchain partitions p) disk :=
  fun t ht ts made => Or.inr ⟨t, ht, ts, made, rfl, writes ts.id⟩

variable [DecidableEq Place]

/-- A round brings its file up to date. -/
theorem fetchOutput_refresh {entry : Int × Str} (fetched : fetchOutput H place out d disk entry = .ok disk') :
    Refresh H.hex (fun e : Int × Str => place (outputPath out e.2)) (fun e => d.reported e.1)
      (fun e => d.writes e.1 = true) disk entry disk' := by
  unfold fetchOutput at fetched
  split at fetched
  · rename_i current
    cases fetched
    obtain ⟨content, found, right⟩ := (Option.any_eq_true _ _).mp current
    exact .current ⟨content, found, of_decide_eq_true right⟩
  · split at fetched
    · cases fetched
    · rename_i data reply
      split at fetched
      · cases fetched
      · rename_i right
        split at fetched
        · rename_i succeeds
          cases fetched
          exact .saved (not_not.mp right) succeeds
        · rename_i fails
          cases fetched
          exact .lost fails

theorem fetchOutputs_run (fetched : fetchOutputs H place out d m toolchain p disk = .ok disk') :
    Runs (Refresh H.hex (fun e : Int × Str => place (outputPath out e.2)) (fun e => d.reported e.1)
      (fun e => d.writes e.1 = true)) disk (outputFiles m toolchain p) disk' :=
  (Runs.of_foldlM_ok fetched).mono fetchOutput_refresh

/-- The downloads go through where the coordinator has the blobs. -/
theorem fetchOutputs_total (served : ∀ id, ∃ data, d.getBlob id = .ok data ∧ H.hex data = d.reported id) :
    ∃ disk', fetchOutputs H place out d m toolchain p disk = .ok disk' := by
  have round : ∀ (disk : Place → Option Str) (entry : Int × Str), ∃ disk', fetchOutput H place out d disk entry = .ok disk' := by
    intro disk entry
    obtain ⟨data, reply, right⟩ := served entry.1
    unfold fetchOutput
    split
    · exact ⟨_, rfl⟩
    · rw [reply]
      simp only [right, ne_eq, not_true, if_false]
      split
      · exact ⟨_, rfl⟩
      · exact ⟨_, rfl⟩
  obtain ⟨disk', ran, -⟩ := foldlM_total (P := fun _ _ => True)
    (fun {_ entry _ disk} _ _ => (round disk entry).imp fun _ ran => ⟨ran, trivial⟩) trivial
  exact ⟨disk', ran⟩

/-- The file of every target is right exactly if targets that share a file share a digest and
every outdated file is written. -/
theorem ownFiles_iff (names : (m.targets.map Target.name).Nodup)
    (fetched : fetchOutputs H place out d m toolchain p disk = .ok disk') :
    OwnFiles H place out d m (buildSpec m toolchain partitions p) disk' ↔
      Agree place out d m (buildSpec m toolchain partitions p) ∧
        Saved H place out d m (buildSpec m toolchain partitions p) disk := by
  have entries : ∀ {e : Int × Str}, e ∈ outputFiles m toolchain p ↔
      ∃ t ∈ m.targets, ∃ ts, t.MadeBy (buildSpec m toolchain partitions p) ts ∧ e = (ts.id, t.output) := mem_outputFiles
  have one : ∀ t ∈ m.targets, ∃! ts, t.MadeBy (buildSpec m toolchain partitions p) ts := fun t ht =>
    madeBy_unique names ht
  have run := Refresh.run_iff (fetchOutputs_run fetched)
  constructor
  · intro own
    have all : ∀ e ∈ outputFiles m toolchain p,
        HoldsAt H.hex disk' (place (outputPath out e.2)) (d.reported e.1) := by
      intro e he
      obtain ⟨t, ht, ts, made, rfl⟩ := entries.mp he
      obtain ⟨us, made', held⟩ := own t ht
      rwa [(one t ht).unique made made']
    obtain ⟨agree, kept⟩ := run.mp all
    refine ⟨fun t ht u hu ts us made made' same => ?_, fun t ht ts made => ?_⟩
    · exact agree _ (entries.mpr ⟨t, ht, ts, made, rfl⟩) _ (entries.mpr ⟨u, hu, us, made', rfl⟩) same
    · rcases kept _ (entries.mpr ⟨t, ht, ts, made, rfl⟩) with held | ⟨e, he, same, succeeds⟩
      · exact Or.inl held
      · obtain ⟨u, hu, us, made', rfl⟩ := entries.mp he
        exact Or.inr ⟨u, hu, us, made', same, succeeds⟩
  · rintro ⟨agree, saved⟩ t ht
    obtain ⟨ts, made, -⟩ := one t ht
    refine ⟨ts, made, run.mpr ⟨?_, ?_⟩ _ (entries.mpr ⟨t, ht, ts, made, rfl⟩)⟩
    · intro e he e' he' same
      obtain ⟨t, ht, ts, made, rfl⟩ := entries.mp he
      obtain ⟨u, hu, us, made', rfl⟩ := entries.mp he'
      exact agree t ht u hu ts us made made' same
    · intro e he
      obtain ⟨t, ht, ts, made, rfl⟩ := entries.mp he
      rcases saved t ht ts made with held | ⟨u, hu, us, made', same, succeeds⟩
      · exact Or.inl held
      · exact Or.inr ⟨_, entries.mpr ⟨u, hu, us, made', rfl⟩, same, succeeds⟩

end Files

/-- For every manifest that `parse_manifest` returns, whatever was in the directory: distinct
targets have distinct paths exactly if no binary is named like the file of a library. After a
build whose downloads went through, the file of every target has the digest of its own task
exactly if targets that share a file share a digest and every outdated file is written. -/
theorem own_files_iff {Place : Type*} [DecidableEq Place] {glob : Str → List Str} {text : Str} {m : Manifest}
    (accepted : parseManifest glob text = .ok m) (H : Sha256) (toolchain : Str) (partitions : Int) (p : Prepared)
    (place : Str → Place) (out : Str) (d : Download) {disk disk' : Place → Option Str}
    (fetched : fetchOutputs H place out d m toolchain p disk = .ok disk') :
    (DistinctPaths out m ↔ NoClash m) ∧
      (OwnFiles H place out d m (buildSpec m toolchain partitions p) disk' ↔
        Agree place out d m (buildSpec m toolchain partitions p) ∧
          Saved H place out d m (buildSpec m toolchain partitions p) disk) :=
  have names := (parseManifest_valid accepted).names
  ⟨distinctPaths_iff names, ownFiles_iff names fetched⟩

/-- A library and a binary that have the path `out/libx.a`. -/
def sharedText : Str := "lib x x.c\nbin libx.a main.c\n".toList

/-- A library and a binary with paths of their own. -/
def plainText : Str := "lib x x.c\nbin app main.c\n".toList

def outDir : Str := "out".toList

/-- Every source has a key of its own. -/
def samplePrepared : Prepared where
  key src := src
  digest src := src
  cost _ := 0

def plainSha : Sha256 := Sha256.ofTable [] (by simp)

/-- The archive is task 2, the binary task 3. -/
def sampleBlob (id : Int) : Str := if id = 2 then "archive".toList else "binary".toList

def sampleDownload : Download where
  reported id := plainSha.hex (sampleBlob id)
  getBlob id := .ok (sampleBlob id)
  writes _ := true

/-- The download of both outputs into an empty directory. -/
def sampleFetch (m : Manifest) : Except Str (Str → Option Str) :=
  fetchOutputs plainSha id outDir sampleDownload m "gcc".toList samplePrepared fun _ => none

def sharedManifest : Manifest where
  targets := [{ isLib := true, name := "x".toList, sources := ["x.c".toList] },
    { name := "libx.a".toList, sources := ["main.c".toList] }]

def plainManifest : Manifest where
  targets := [{ isLib := true, name := "x".toList, sources := ["x.c".toList] },
    { name := "app".toList, sources := ["main.c".toList] }]

theorem sampleDownload_served (id : Int) :
    ∃ data, sampleDownload.getBlob id = .ok data ∧ plainSha.hex data = sampleDownload.reported id := ⟨_, rfl, rfl⟩

/-- The parser accepts the clash, the build succeeds, and the file of the library is the binary. -/
theorem library_overwritten : ∃ m disk, parseManifest (fun _ => []) sharedText = .ok m ∧ sampleFetch m = .ok disk ∧
    ¬ DistinctPaths outDir m ∧
      ¬ OwnFiles plainSha id outDir sampleDownload m (buildSpec m "gcc".toList 0 samplePrepared) disk := by
  have accepted : parseManifest (fun _ => []) sharedText = .ok sharedManifest := by decide +kernel
  have names := (parseManifest_valid accepted).names
  have clash : ¬ NoClash sharedManifest := by decide +kernel
  have served : ∃ disk, sampleFetch sharedManifest = .ok disk := fetchOutputs_total sampleDownload_served
  obtain ⟨disk, fetched⟩ := served
  refine ⟨sharedManifest, disk, accepted, fetched, fun distinct => clash ((distinctPaths_iff names).mp distinct),
    fun own => ?_⟩
  obtain ⟨agree, -⟩ := (ownFiles_iff names fetched).mp own
  have archive : ∀ ts ∈ (buildSpec sharedManifest "gcc".toList 0 samplePrepared).tasks, ts.kind = ARCHIVE → ts.id = 2 := by
    decide +kernel
  have link : ∀ ts ∈ (buildSpec sharedManifest "gcc".toList 0 samplePrepared).tasks, ts.kind = LINK → ts.id = 3 := by
    decide +kernel
  have lib : sharedManifest.targets[0] ∈ sharedManifest.targets := List.getElem_mem _
  have bin : sharedManifest.targets[1] ∈ sharedManifest.targets := List.getElem_mem _
  obtain ⟨ts, made, -⟩ := own _ lib
  obtain ⟨us, made', -⟩ := own _ bin
  have same := agree _ lib _ bin ts us made made' rfl
  rw [archive ts made.member made.kind, link us made'.member made'.kind] at same
  revert same
  decide

/-- Without the clash both files are right. -/
theorem own_files_plain : ∃ m disk, parseManifest (fun _ => []) plainText = .ok m ∧ sampleFetch m = .ok disk ∧
    DistinctPaths outDir m ∧
      OwnFiles plainSha id outDir sampleDownload m (buildSpec m "gcc".toList 0 samplePrepared) disk := by
  have accepted : parseManifest (fun _ => []) plainText = .ok plainManifest := by decide +kernel
  have clash : NoClash plainManifest := by decide +kernel
  have served : ∃ disk, sampleFetch plainManifest = .ok disk := fetchOutputs_total sampleDownload_served
  obtain ⟨disk, fetched⟩ := served
  obtain ⟨paths, files⟩ := own_files_iff accepted plainSha "gcc".toList 0 samplePrepared id outDir sampleDownload fetched
  have names := (parseManifest_valid accepted).names
  exact ⟨plainManifest, disk, accepted, fetched, paths.mpr clash,
    files.mpr ⟨agree_of_injective names Function.injective_id clash, saved_of_writes fun _ => rfl⟩⟩

end DistCompile
