import DistCompile.Incremental

/-!
The round trip of the state file (`load_state` and `save_state` in `src/dcc.cpp`,
`expand` in `src/manifest.cpp`).

The reader takes a path of a dependency with `getline`, but the path of a source with `>>`, and
skips the white space in front of both. A source path comes from `DCBUILD`: a word there has no
white space, a match of a glob can have any. So the file reads back as what was saved exactly
when no saved source has white space in its path and no path of a dependency starts with it.
-/

namespace DistCompile

/-! ### What an extraction gives -/

namespace Stream

theorem dropWhile_space (s : Str) : s.dropWhile isSpace = [] ∨ Visible (s.dropWhile isSpace) := by
  cases rest : s.dropWhile isSpace with
  | nil => exact Or.inl rfl
  | cons c rest' =>
    refine Or.inr ⟨c, rest', rfl, ?_⟩
    have first := List.head?_dropWhile_not isSpace s
    rw [rest] at first
    simpa using first

/-- A word that was read is empty or holds no white space. -/
theorem word_solid (s : Stream) : ∀ c ∈ s.word.1, isSpace c = false := by
  intro c member
  rw [word] at member
  split at member
  · cases member
  · simpa using List.all_eq_true.mp List.all_takeWhile c member

/-- A line that was read is empty or starts visibly, and ends where the line does. -/
theorem line_visible (s : Stream) : s.line.1 = [] ∨ Visible s.line.1 := by
  rw [line]
  split
  · exact Or.inl rfl
  · rcases dropWhile_space s.rest with none_ | ⟨c, rest, here, solid⟩
    · rw [skip, none_]
      exact Or.inl rfl
    · refine Or.inr ⟨c, rest.takeWhile fun c => c ≠ '\n', ?_, solid⟩
      have newline : c ≠ '\n' := by
        rintro rfl
        exact absurd solid (by decide)
      rw [skip, here, List.takeWhile_cons_of_pos (by simpa using newline)]

end Stream

/-- What is read back of a stamp. -/
theorem loadStamp_path (s : Stream) : (loadStamp s).1.path = [] ∨ Visible (loadStamp s).1.path :=
  Stream.line_visible _

theorem loadStamps_paths {n : Nat} {s : Stream} {f : FileStamp} (member : f ∈ (loadStamps n s).1) :
    f.path = [] ∨ Visible f.path := by
  induction n generalizing s with
  | zero => cases member
  | succ n ih =>
    rw [loadStamps] at member
    rcases List.mem_cons.mp member with rfl | later
    · exact loadStamp_path s
    · exact ih later

/-- What is read back of a unit. -/
structure SourceUnit.Loaded (u : SourceUnit) : Prop where
  src : ∀ c ∈ u.src, isSpace c = false
  deps : ∀ f ∈ u.deps, f.path = [] ∨ Visible f.path

theorem loadUnit_loaded (s : Stream) : (loadUnit s).1.Loaded :=
  ⟨Stream.word_solid s, fun _ member => loadStamps_paths member⟩

theorem loadUnits_loaded {fuel : Nat} {s : Stream} {u : SourceUnit} (member : u ∈ loadUnits fuel s) :
    u.Loaded := by
  induction fuel generalizing s with
  | zero => cases member
  | succ fuel ih =>
    rw [loadUnits] at member
    dsimp only at member
    split at member
    · cases member
    · rcases List.mem_cons.mp member with rfl | later
      · exact loadUnit_loaded _
      · exact ih later

theorem loadedUnits_loaded {file config : Str} {u : SourceUnit} (member : u ∈ loadedUnits file config) :
    u.Loaded := by
  rw [loadedUnits] at member
  dsimp only at member
  split at member
  · cases member
  · exact loadUnits_loaded member

/-! ### The units at the end of a build -/

/-- `config` in `build`: the first 16 digits of a hash. -/
def IsConfig (config : Str) : Prop :=
  config.length = 16 ∧ (config.all fun c => ('0' ≤ c && c ≤ '9') || ('a' ≤ c && c ≤ 'f')) = true

instance (config : Str) : Decidable (IsConfig config) := inferInstanceAs (Decidable (_ ∧ _))

theorem IsConfig.word {config : Str} (digits : IsConfig config) : IsWord config := by
  refine Incremental.isWord_of_hex ?_ digits.2
  rintro rfl
  cases digits.1

/-- The units `dcc` can hold at the end of a build: paths are words of `DCBUILD` or matches of its
globs, and `run_preprocess` stamped the files that line markers name. -/
structure Held (glob : Str → List Str) (units : List SourceUnit) : Prop where
  sources : ∀ u ∈ units, IsWord u.src ∨ ∃ pattern, u.src ∈ glob pattern
  distinct : (units.map SourceUnit.src).Nodup
  hashes : ∀ u ∈ savedUnits units, validHash u.key = true ∧ validHash u.digest = true
  count : ∀ u ∈ savedUnits units, u.deps.length < 2 ^ 64
  stamped : ∀ u ∈ savedUnits units, ∀ f ∈ u.deps, f.path ≠ [] ∧ '\n' ∉ f.path

/-- What is saved is what is loaded, under this configuration only. -/
def RoundTrips (config : Str) (units : List SourceUnit) : Prop :=
  (∀ src, loadState (saveState config units) config src = (savedUnits units).find? fun u => u.src = src) ∧
    ∀ config', IsConfig config' → config' ≠ config → ∀ src, loadState (saveState config units) config' src = none

/-- White space only where the reader expects none to end. -/
structure SourceUnit.Spaceless (u : SourceUnit) : Prop where
  src : ∀ c ∈ u.src, isSpace c = false
  deps : ∀ f ∈ u.deps, ∀ c, f.path.head? = some c → isSpace c = false

section Held

variable {glob : Str → List Str} {units : List SourceUnit} {u : SourceUnit}

theorem mem_of_saved (saved : u ∈ savedUnits units) : u ∈ units := List.mem_of_mem_filter saved

/-- The path of a source is not empty. -/
theorem Held.src_filled (named : ∀ pattern, ∀ s ∈ glob pattern, s ≠ []) (held : Held glob units)
    (member : u ∈ units) : u.src ≠ [] := by
  rcases held.sources u member with word | ⟨pattern, found⟩
  · exact word.filled
  · exact named pattern _ found

theorem Held.savable (named : ∀ pattern, ∀ s ∈ glob pattern, s ≠ []) (held : Held glob units)
    (saved : u ∈ savedUnits units) (spaceless : u.Spaceless) : u.Savable := by
  obtain ⟨key, digest⟩ := held.hashes u saved
  refine ⟨⟨held.src_filled named (mem_of_saved saved), spaceless.src⟩, Incremental.isWord_of_validHash key,
    Incremental.isWord_of_validHash digest, held.count u saved, fun f hf => ⟨?_, (held.stamped u saved f hf).2⟩⟩
  obtain ⟨c, rest, path⟩ := List.exists_cons_of_ne_nil (held.stamped u saved f hf).1
  exact ⟨c, rest, path, spaceless.deps f hf c (by rw [path]; rfl)⟩

/-- A saved unit is found under its source. -/
theorem Held.find_saved (held : Held glob units) (saved : u ∈ savedUnits units) :
    ((savedUnits units).find? fun v => v.src = u.src) = some u := by
  have distinct : ((savedUnits units).map SourceUnit.src).Nodup := held.distinct.sublist (List.filter_sublist.map _)
  cases found : (savedUnits units).find? fun v => v.src = u.src with
  | none => exact absurd (List.find?_eq_none.mp found u saved) (by simp)
  | some v =>
    have same : v.src = u.src := by simpa using List.find?_some found
    rw [List.inj_on_of_nodup_map distinct (List.mem_of_find?_eq_some found) saved same]

/-- Of distinct keys the last row is the first. -/
theorem find?_reverse_of_nodup {l : List SourceUnit} (distinct : (l.map SourceUnit.src).Nodup) (src : Str) :
    (l.reverse.find? fun u => u.src = src) = l.find? fun u => u.src = src := by
  cases found : l.find? fun u => u.src = src with
  | none =>
    refine List.find?_eq_none.mpr fun u member => ?_
    exact List.find?_eq_none.mp found u (List.mem_reverse.mp member)
  | some u =>
    have here : u.src = src := by simpa using List.find?_some found
    have member := List.mem_of_find?_eq_some found
    cases last : l.reverse.find? fun u => u.src = src with
    | none => exact absurd (List.find?_eq_none.mp last u (List.mem_reverse.mpr member)) (by simp [here])
    | some v =>
      have same : v.src = src := by simpa using List.find?_some last
      have member' := List.mem_reverse.mp (List.mem_of_find?_eq_some last)
      rw [List.inj_on_of_nodup_map distinct member' member (same.trans here.symm)]

/-- The state file reads back as it was written exactly when no path of a saved source has white
space in it and no path of a dependency starts with it. -/
theorem saved_state_round_trips_iff (named : ∀ pattern, ∀ s ∈ glob pattern, s ≠ [])
    (held : Held glob units) {config : Str} (digits : IsConfig config) :
    RoundTrips config units ↔ ∀ u ∈ savedUnits units, u.Spaceless := by
  constructor
  · rintro ⟨same, -⟩ u saved
    have found := (same u.src).trans (held.find_saved saved)
    have loaded := loadedUnits_loaded (List.mem_reverse.mp (List.mem_of_find?_eq_some found))
    refine ⟨loaded.src, fun f hf c first => ?_⟩
    rcases loaded.deps f hf with empty | ⟨d, rest, path, solid⟩
    · rw [empty] at first
      cases first
    · rw [path] at first
      cases first
      exact solid
  · intro spaceless
    have distinct : ((savedUnits units).map SourceUnit.src).Nodup :=
      held.distinct.sublist (List.filter_sublist.map _)
    refine ⟨fun src => ?_, fun config' _ other src => ?_⟩
    · rw [loadState, loadedUnits_saveState digits.word fun u saved => held.savable named saved (spaceless u saved),
        find?_reverse_of_nodup distinct]
    · rw [loadState, loadedUnits_other digits.word other]
      rfl

end Held

/-! ### A source with a blank in its name -/

/-- A directory with one source, found by a glob. -/
def spacedGlob (pattern : Str) : List Str := if pattern = "src/*.c".toList then ["src/a b.c".toList] else []

theorem spacedGlob_named : ∀ pattern, ∀ s ∈ spacedGlob pattern, s ≠ [] := by
  intro pattern s member
  rw [spacedGlob] at member
  split at member
  · rw [List.mem_singleton.mp member]
    decide
  · cases member

/-- A unit of one file. -/
def savedUnit (src : Str) : SourceUnit :=
  { src, key := List.replicate 64 'a', digest := List.replicate 64 'b', cost := 6, deps := [⟨5, 6, src⟩] }

def sampleConfig : Str := "0123456789abcdef".toList

theorem held_savedUnit {src : Str} (source : IsWord src ∨ ∃ pattern, src ∈ spacedGlob pattern)
    (path : src ≠ [] ∧ '\n' ∉ src) : Held spacedGlob [savedUnit src] where
  sources u member := by
    rw [List.mem_singleton.mp member]
    exact source
  distinct := by simp
  hashes u saved := by
    rw [List.mem_singleton.mp (mem_of_saved saved)]
    change validHash (List.replicate 64 'a') = true ∧ validHash (List.replicate 64 'b') = true
    decide +kernel
  count u saved := by
    rw [List.mem_singleton.mp (mem_of_saved saved)]
    exact Nat.one_lt_two_pow (by decide)
  stamped u saved f hf := by
    rw [List.mem_singleton.mp (mem_of_saved saved)] at hf
    rw [List.mem_singleton.mp hf]
    exact path

/-- The unit is not found again: its source reads back as `src/a`. -/
theorem saved_state_spaced :
    IsConfig sampleConfig ∧ Held spacedGlob [savedUnit "src/a b.c".toList] ∧
      ¬ RoundTrips sampleConfig [savedUnit "src/a b.c".toList] := by
  refine ⟨by decide, held_savedUnit (Or.inr ⟨"src/*.c".toList, by decide⟩) (by decide), fun trips => ?_⟩
  have lost : loadState (saveState sampleConfig [savedUnit "src/a b.c".toList]) sampleConfig
      "src/a b.c".toList = none := by decide +kernel
  have kept : ((savedUnits [savedUnit "src/a b.c".toList]).find? fun u => u.src = "src/a b.c".toList) ≠ none := by
    decide
  exact kept ((trips.1 _).symm.trans lost)

/-- A C source with two headers, one of them with a blank in its path, a C++ source with one, and a
source that failed. -/
def plainUnits : List SourceUnit := [
  { src := "src/a.c".toList, key := List.replicate 64 'a', digest := List.replicate 64 'b', cost := 6,
    deps := [⟨5, 6, "src/a.c".toList⟩, ⟨7, 8, "src/my a.h".toList⟩, ⟨9, 10, "/usr/include/stdio.h".toList⟩] },
  { src := "src/b.cc".toList, key := List.replicate 64 'c', digest := List.replicate 64 'd', cost := 12,
    deps := [⟨11, 12, "src/b.cc".toList⟩, ⟨13, 14, "src/b.h".toList⟩] },
  { src := "src/c.c".toList, error := "c.c: no such file".toList }]

theorem held_plainUnits : Held spacedGlob plainUnits where
  sources u member := by
    simp only [plainUnits, List.mem_cons, List.not_mem_nil, or_false] at member
    rcases member with rfl | rfl | rfl <;> exact Or.inl ⟨by decide, by decide⟩
  distinct := by decide
  hashes := by decide +kernel
  count u saved := lt_of_le_of_lt ((by decide : ∀ u ∈ savedUnits plainUnits, u.deps.length ≤ 3) u saved) (by norm_num)
  stamped := by decide

/-- Two units are saved, with all their dependencies, and come back. -/
theorem saved_state_plain :
    (savedUnits plainUnits).map (fun u => u.deps.length) = [3, 2] ∧ RoundTrips sampleConfig plainUnits := by
  refine ⟨by decide, (saved_state_round_trips_iff spacedGlob_named held_plainUnits (by decide)).mpr fun u saved => ?_⟩
  have solid : ∀ u ∈ savedUnits plainUnits, (∀ c ∈ u.src, isSpace c = false) ∧
      ∀ f ∈ u.deps, (f.path.head?.all fun c => isSpace c = false) = true := by decide
  refine ⟨(solid u saved).1, fun f hf c first => ?_⟩
  have here := (solid u saved).2 f hf
  simpa [first] using here

end DistCompile
