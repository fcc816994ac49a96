import DistCompile.Client

/-!
What a compile key identifies.

A compile task runs `driver -x language flags` on its preprocessed text. Its key
hashes the toolchain, the language, the flags and the text, so with collision-free
sha256 equal keys give equal flags, languages and texts (`compileKey_eq_iff`). The
driver is not among the parts: the toolchain is that of `cc`, while a C++ unit is
compiled by `cxx`. `equal_keys_same_command_iff` says exactly when this matters.
-/

namespace DistCompile

/-- Two preprocessed texts that may share an object under `cfg`. -/
def TextsAgree (cfg : CompileConfig) (text text' : Str) : Prop :=
  text = text' ∨
    cfg.lang = "c".toList ∧ cfg.debug = false ∧ stripLineMarkers text = stripLineMarkers text'

/-- What the key of a compile is made of is the same for both. -/
structure SameParts (cfg cfg' : CompileConfig) (text text' : Str) : Prop where
  toolchain : cfg.toolchain = cfg'.toolchain
  lang : cfg.lang = cfg'.lang
  flags : cfg.ccFlags = cfg'.ccFlags
  text : keyText cfg text = keyText cfg' text'

section Keys

variable {H : Sha256} {cfg cfg' : CompileConfig} {text text' : Str}

/-- A key determines its parts, and the flags as a list: no flag holds a newline. -/
theorem compileKey_eq_iff (free : H.CollisionFree) (lines : ∀ f ∈ cfg.ccFlags, '\n' ∉ f)
    (lines' : ∀ f ∈ cfg'.ccFlags, '\n' ∉ f) (fits : ∀ part ∈ compileParts cfg text, Fits part)
    (fits' : ∀ part ∈ compileParts cfg' text', Fits part) :
    compileKey H cfg text = compileKey H cfg' text' ↔ SameParts cfg cfg' text text' := by
  constructor
  · intro same
    have parts := sha256HexParts_inj free fits fits' same
    simp only [compileParts, List.cons.injEq, true_and, and_true] at parts
    obtain ⟨toolchain, lang, flags, text⟩ := parts
    refine ⟨toolchain, lang, ?_, text⟩
    rw [← getLines_writeLines lines, flags, getLines_writeLines lines']
  · intro same
    rw [compileKey, compileKey, compileParts, compileParts, same.toolchain, same.lang, same.flags,
      same.text]

/-- The texts behind one key text. -/
theorem SameParts.texts (same : SameParts cfg cfg' text text') (debug : cfg.debug = cfg'.debug) :
    TextsAgree cfg text text' := by
  have key := same.text
  unfold keyText at key
  rw [← same.lang, ← debug] at key
  split_ifs at key with stripped
  · simp only [Bool.and_eq_true, Bool.not_eq_true', decide_eq_true_eq] at stripped
    exact Or.inr ⟨stripped.2, stripped.1, key⟩
  · exact Or.inl key

/-- The command of a compile task, given its language and flags, is its driver. -/
theorem SameParts.args_eq_iff (same : SameParts cfg cfg' text text') :
    compileArgs cfg = compileArgs cfg' ↔ cfg.driver = cfg'.driver := by
  rw [compileArgs, compileArgs, same.lang, same.flags]
  constructor
  · intro args
    exact (List.cons.inj args).1
  · intro driver
    rw [driver]

end Keys

/-! ### Tasks of two builds -/

/-- The compile task of `src` in a spec of `dcc`. -/
theorem compileTask_of_mem {m : Manifest} {toolchain : Str} {partitions : Int} {p : Prepared} {src : Str}
    {ts : TaskSpec} (names : (m.targets.map Target.name).Nodup)
    (member : ts ∈ (buildSpec m toolchain partitions p).tasks) (compile : ts.kind = COMPILE)
    (name : ts.name = objectName src) :
    src ∈ unitSources m ∧ ts.key = p.key src ∧ ts.args = compileArgs (unitConfig m toolchain src) := by
  obtain ⟨id, found⟩ := List.mem_iff_getElem?.mp member
  cases emitted_of_mem names found with
  | @compile s first _ =>
    have same : s = src := by simpa [compileTask, objectName] using name
    subst same
    exact ⟨List.mem_of_find?_eq_some first, rfl, rfl⟩
  | archive _ _ => exact absurd (show ARCHIVE = COMPILE from compile) (by decide)
  | link _ _ => exact absurd (show LINK = COMPILE from compile) (by decide)

/-- A build whose compile keys were computed from the texts `texts`. -/
structure Hashed (H : Sha256) (m : Manifest) (toolchain : Str) (p : Prepared) (texts : Str → Str) :
    Prop where
  keys : ∀ s ∈ unitSources m, p.key s = compileKey H (unitConfig m toolchain s) (texts s)
  fits : ∀ s ∈ unitSources m, ∀ part ∈ compileParts (unitConfig m toolchain s) (texts s), Fits part

/-- For any two compile tasks of any two builds: equal keys mean one command and
one text exactly when the drivers do not differ under otherwise equal parts. -/
theorem equal_keys_same_command_iff {H : Sha256} (free : H.CollisionFree) {glob glob' : Str → List Str}
    {manifest manifest' : Str} {m m' : Manifest} (accepted : parseManifest glob manifest = .ok m)
    (accepted' : parseManifest glob' manifest' = .ok m') {toolchain toolchain' : Str}
    {partitions partitions' : Int} {p p' : Prepared} {texts texts' : Str → Str}
    (hashed : Hashed H m toolchain p texts) (hashed' : Hashed H m' toolchain' p' texts')
    {ts ts' : TaskSpec} (member : ts ∈ (buildSpec m toolchain partitions p).tasks)
    (member' : ts' ∈ (buildSpec m' toolchain' partitions' p').tasks) (compile : ts.kind = COMPILE)
    (compile' : ts'.kind = COMPILE) {src src' : Str} (name : ts.name = objectName src)
    (name' : ts'.name = objectName src') :
    (ts.key = ts'.key → ts.args = ts'.args ∧
        TextsAgree (unitConfig m toolchain src) (texts src) (texts' src')) ↔
      (SameParts (unitConfig m toolchain src) (unitConfig m' toolchain' src') (texts src) (texts' src') →
        (unitConfig m toolchain src).driver = (unitConfig m' toolchain' src').driver) := by
  have valid := parseManifest_valid accepted
  have valid' := parseManifest_valid accepted'
  obtain ⟨unit, key, args⟩ := compileTask_of_mem valid.names member compile name
  obtain ⟨unit', key', args'⟩ := compileTask_of_mem valid'.names member' compile' name'
  have lines : ∀ f ∈ (unitConfig m toolchain src).ccFlags, '\n' ∉ f := fun f hf =>
    (valid.cflags f (mem_makeConfig_ccFlags _ _ _ _ hf)).newline
  have lines' : ∀ f ∈ (unitConfig m' toolchain' src').ccFlags, '\n' ∉ f := fun f hf =>
    (valid'.cflags f (mem_makeConfig_ccFlags _ _ _ _ hf)).newline
  rw [key, key', hashed.keys src unit, hashed'.keys src' unit', args, args',
    compileKey_eq_iff free lines lines' (hashed.fits src unit) (hashed'.fits src' unit')]
  refine forall_congr' fun same => ?_
  rw [same.args_eq_iff]
  constructor
  · exact And.left
  · intro driver
    refine ⟨driver, same.texts ?_⟩
    rw [unitConfig, unitConfig, makeConfig_debug, makeConfig_debug]
    exact congrArg (List.any · debugFlag) same.flags

/-! ### Two libraries with one text, and one library under two compilers -/

def keyToolchain : Str := "13.3.0 x86_64-linux-gnu".toList

/-- `int x;` as gcc's preprocessor puts it out for the file `src`. -/
def markedText (src : Str) : Str := "# 1 ".toList ++ ['"'] ++ src ++ ['"'] ++ "\nint x;\n".toList

/-- sha256 on the key of the text. -/
def keySha : Sha256 := Sha256.ofTable [
  (frameParts ["dc-compile-v1".toList, keyToolchain, "c".toList, [], "int x;\n".toList],
    "de1fde6fd03d6523cdc840d84687bb8b4fe49d934e25d8c0e0caaca9c3383cd2".toList)] (by decide)

theorem keySha_free : keySha.CollisionFree :=
  (Sha256.ofTable_inverse (by decide) (by decide) (by decide)).injective

/-- The keys and digests of the units of `m`, from the texts. -/
def hashedUnits (H : Sha256) (m : Manifest) (toolchain : Str) (texts : Str → Str) : Prepared where
  key s := compileKey H (unitConfig m toolchain s) (texts s)
  digest s := H.hex (texts s)
  cost s := (texts s).length

def oneLib (lib src cxx : Str) : Manifest where
  cxx := cxx
  targets := [{ isLib := true, name := lib, sources := [src] }]

/-- The manifests of the two libraries, with different C++ compilers. -/
def libM : Manifest := oneLib "m".toList "m.c".toList "g++".toList
def libK : Manifest := oneLib "k".toList "k.c".toList "c++".toList

theorem oneLib_hashed (H : Sha256) {lib src cxx : Str}
    (fits : ∀ part ∈ compileParts (unitConfig (oneLib lib src cxx) keyToolchain src) (markedText src), Fits part) :
    Hashed H (oneLib lib src cxx) keyToolchain
      (hashedUnits H (oneLib lib src cxx) keyToolchain markedText) markedText := by
  refine ⟨fun _ _ => rfl, fun s hs => ?_⟩
  obtain rfl : s = src := by simpa [unitSources, oneLib] using hs
  exact fits

/-- Two libraries of one text share a key, and the command. -/
theorem equal_keys_same_command_iff_copies :
    ∃ ts ∈ (buildSpec libM keyToolchain 0 (hashedUnits keySha libM keyToolchain markedText)).tasks,
      ∃ ts' ∈ (buildSpec libK keyToolchain 0 (hashedUnits keySha libK keyToolchain markedText)).tasks,
        ts.key = ts'.key ∧ ts.args = ts'.args ∧ TextsAgree (unitConfig libM keyToolchain "m.c".toList)
          (markedText "m.c".toList) (markedText "k.c".toList) := by
  have accepted : parseManifest (fun _ => []) "lib m m.c\n".toList = .ok libM := rfl
  have accepted' : parseManifest (fun _ => []) "cxx c++\nlib k k.c\n".toList = .ok libK := rfl
  have member : compileTask libM keyToolchain (hashedUnits keySha libM keyToolchain markedText) 0
      "m.c".toList ∈ (buildSpec libM keyToolchain 0 (hashedUnits keySha libM keyToolchain markedText)).tasks :=
    .head _
  have member' : compileTask libK keyToolchain (hashedUnits keySha libK keyToolchain markedText) 0
      "k.c".toList ∈ (buildSpec libK keyToolchain 0 (hashedUnits keySha libK keyToolchain markedText)).tasks :=
    .head _
  have same : compileKey keySha (unitConfig libM keyToolchain "m.c".toList) (markedText "m.c".toList) =
      compileKey keySha (unitConfig libK keyToolchain "k.c".toList) (markedText "k.c".toList) := by
    decide +kernel
  have iff := equal_keys_same_command_iff keySha_free accepted accepted' (oneLib_hashed keySha (by decide))
    (oneLib_hashed keySha (by decide)) member member' rfl rfl rfl rfl
  exact ⟨_, member, _, member', same, iff.mpr (fun _ => by decide) same⟩

theorem drivers_differ :
    compileArgs (unitConfig (oneLib "m".toList "m.cc".toList "g++".toList) keyToolchain "m.cc".toList) ≠
      compileArgs (unitConfig (oneLib "m".toList "m.cc".toList "clang++".toList) keyToolchain
        "m.cc".toList) := by
  decide

/-- One C++ source under `cxx g++` and under `cxx clang++`, with one `cc` and so one
toolchain: the keys are equal whatever the hash, the commands are not. -/
theorem driver_missing_from_key :
    parseManifest (fun _ => []) "cxx g++\nlib m m.cc\n".toList =
        .ok (oneLib "m".toList "m.cc".toList "g++".toList) ∧
      parseManifest (fun _ => []) "cxx clang++\nlib m m.cc\n".toList =
        .ok (oneLib "m".toList "m.cc".toList "clang++".toList) ∧
      ∀ H : Sha256,
        ∃ ts ∈ (buildSpec (oneLib "m".toList "m.cc".toList "g++".toList) keyToolchain 0
          (hashedUnits H (oneLib "m".toList "m.cc".toList "g++".toList) keyToolchain markedText)).tasks,
        ∃ ts' ∈ (buildSpec (oneLib "m".toList "m.cc".toList "clang++".toList) keyToolchain 0
          (hashedUnits H (oneLib "m".toList "m.cc".toList "clang++".toList) keyToolchain markedText)).tasks,
          ts.kind = COMPILE ∧ ts'.kind = COMPILE ∧ ts.key = ts'.key ∧ ts.args ≠ ts'.args :=
  ⟨rfl, rfl, fun _ => ⟨_, .head _, _, .head _, rfl, rfl, rfl, drivers_differ⟩⟩

end DistCompile
