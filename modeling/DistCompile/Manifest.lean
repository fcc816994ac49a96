import DistCompile.Lib.Run
import DistCompile.Text

/-!
The build description `DCBUILD` (`src/manifest.h`, `src/manifest.cpp`).

One directive a line, words separated by white space, `#` starts a comment. The
files a glob matches are an argument (`glob`): the pattern is expanded relative
to the project root, and what comes back can be any path. `Manifest.Valid` is what
the parser guarantees of a manifest it accepts.
-/

namespace DistCompile

open DistCompile.Lib

/-! ### Words and lines -/

/-- White space of the `C` locale, as `operator>>` skips it. -/
def isSpace (c : Char) : Bool := c = ' ' || c = '\t' || c = '\n' || c = '\x0b' || c = '\x0c' || c = '\r'

/-- `split_ws`. -/
def splitWs (s : Str) : List Str := (s.splitOnP isSpace).filter fun w => w ≠ []

/-- The lines `std::getline` reads: nothing follows a final newline. -/
def getLines (s : Str) : List Str :=
  if (s.splitOn '\n').getLast? = some [] then (s.splitOn '\n').dropLast else s.splitOn '\n'

/-- Lines as a stream writes them, each with its newline. -/
def writeLines (v : List Str) : Str := v.flatMap fun line => line ++ ['\n']

theorem getLines_writeLines {v : List Str} (lines : ∀ l ∈ v, '\n' ∉ l) : getLines (writeLines v) = v := by
  have split : (writeLines v).splitOn '\n' = v ++ [[]] := by
    induction v with
    | nil => rfl
    | cons line v ih =>
      rw [writeLines, List.flatMap_cons, List.append_assoc, List.singleton_append,
        List.splitOn_append_cons_self_of_not_mem (lines line (by simp))]
      exact congrArg (line :: ·) (ih fun l hl => lines l (by simp [hl]))
  rw [getLines, split]
  simp

/-- A word of a line. -/
structure IsWord (w : Str) : Prop where
  filled : w ≠ []
  solid : ∀ c ∈ w, isSpace c = false

theorem IsWord.newline {w : Str} (word : IsWord w) : '\n' ∉ w := fun member =>
  absurd (word.solid '\n' member) (by decide)

theorem splitOnP_solid (p : Char → Bool) (s : Str) : ∀ w ∈ s.splitOnP p, ∀ c ∈ w, p c = false := by
  induction s with
  | nil => simp
  | cons c s ih =>
    intro w member
    rw [List.splitOnP_cons_eq_if_modifyHead] at member
    split at member
    · rcases List.mem_cons.mp member with rfl | later
      · simp
      · exact ih w later
    · rename_i solid
      cases parts : s.splitOnP p with
      | nil => exact absurd parts (List.splitOnP_ne_nil p s)
      | cons first rest =>
        rw [parts, List.modifyHead_cons] at member
        rw [parts] at ih
        rcases List.mem_cons.mp member with rfl | later
        · intro d hd
          rcases List.mem_cons.mp hd with rfl | inside
          · simpa using solid
          · exact ih first (by simp) d inside
        · exact ih w (by simp [later])

theorem isWord_of_mem_splitWs {s w : Str} (member : w ∈ splitWs s) : IsWord w := by
  obtain ⟨part, filled⟩ := List.mem_filter.mp member
  exact ⟨by simpa using filled, splitOnP_solid isSpace s w part⟩

/-! ### The parser -/

structure Target where
  isLib : Bool := false
  name : Str
  sources : List Str := []
  libs : List Str := []
deriving DecidableEq, Repr

structure Manifest where
  cc : Str := "gcc".toList
  cxx : Str := "g++".toList
  cflags : List Str := []
  ldflags : List Str := []
  targets : List Target := []
deriving DecidableEq, Repr

/-- The text of an error in a line. -/
def lineError (line : Nat) (message : Str) : Str :=
  "DCBUILD:".toList ++ decimal line ++ ": ".toList ++ message

def quoted (s : Str) : Str := "'".toList ++ s ++ "'".toList

/-- `expand`; `glob` gives the paths that match, relative to the root. -/
def expand (glob : Str → List Str) (pattern : Str) (line : Nat) : Except Str (List Str) :=
  if pattern.any fun c => c = '*' || c = '?' || c = '[' then
    if glob pattern = [] then .error (lineError line (quoted pattern ++ " matches nothing".toList))
    else .ok (glob pattern)
  else .ok [pattern]

/-- One word after the name of a target; the flag is `after_colon`. -/
def targetWord (glob : Str → List Str) (line : Nat) (st : Target × Bool) (word : Str) :
    Except Str (Target × Bool) :=
  if word = ":".toList then
    if st.1.isLib then .error (lineError line "libraries can't depend on libraries here".toList)
    else .ok (st.1, true)
  else if st.2 then .ok ({ st.1 with libs := st.1.libs ++ [word] }, true)
  else match expand glob word line with
    | .error e => .error e
    | .ok paths => .ok ({ st.1 with sources := st.1.sources ++ paths }, false)

/-- The variables of `parse_manifest`. -/
structure Parse where
  manifest : Manifest := {}
  names : List Str := []
deriving DecidableEq, Repr

/-- A `lib` or `bin` line. -/
def targetLine (glob : Str → List Str) (line : Nat) (p : Parse) (d : Str) (w : List Str) :
    Except Str Parse :=
  match w with
  | name :: first :: rest =>
      if name ∈ p.names then .error (lineError line ("duplicate target ".toList ++ quoted name))
      else match (first :: rest).foldlM (targetWord glob line) ({ isLib := d = "lib".toList, name }, false) with
        | .error e => .error e
        | .ok (t, _) =>
            if t.sources = [] then
              .error (lineError line ("target ".toList ++ quoted name ++ " has no sources".toList))
            else .ok ⟨{ p.manifest with targets := p.manifest.targets ++ [t] }, p.names ++ [name]⟩
  | _ => .error (lineError line (d ++ " needs a name and at least one source".toList))

/-- One line of `DCBUILD`, with its number. -/
def parseLine (glob : Str → List Str) (p : Parse) (raw : Str × Nat) : Except Str Parse :=
  match splitWs (raw.1.takeWhile fun c => c ≠ '#') with
  | [] => .ok p
  | d :: w =>
      if d = "cc".toList ∨ d = "cxx".toList then
        match w with
        | [driver] =>
            if d = "cc".toList then .ok { p with manifest := { p.manifest with cc := driver } }
            else .ok { p with manifest := { p.manifest with cxx := driver } }
        | _ => .error (lineError raw.2 (d ++ " takes one argument".toList))
      else if d = "cflags".toList then
        .ok { p with manifest := { p.manifest with cflags := p.manifest.cflags ++ w } }
      else if d = "ldflags".toList then
        .ok { p with manifest := { p.manifest with ldflags := p.manifest.ldflags ++ w } }
      else if d = "lib".toList ∨ d = "bin".toList then targetLine glob raw.2 p d w
      else .error (lineError raw.2 ("unknown directive ".toList ++ quoted d))

/-- The first library that a binary names and nobody defines. -/
def unknownLib (m : Manifest) : Option (Target × Str) :=
  m.targets.findSome? fun t =>
    (t.libs.find? fun l => !m.targets.any fun u => u.isLib && u.name = l).map fun l => (t, l)

def parseManifest (glob : Str → List Str) (text : Str) : Except Str Manifest :=
  match ((getLines text).zipIdx 1).foldlM (parseLine glob) {} with
  | .error e => .error e
  | .ok p => match unknownLib p.manifest with
    | some (t, l) => .error ("DCBUILD: bin ".toList ++ quoted t.name ++ " links unknown lib ".toList ++
        quoted l)
    | none => .ok p.manifest

/-! ### What an accepted manifest is -/

/-- A target as a line makes it. Paths that are not words come from a glob. -/
structure Target.Valid (glob : Str → List Str) (t : Target) : Prop where
  name : IsWord t.name
  sources : t.sources ≠ []
  paths : ∀ s ∈ t.sources, IsWord s ∨ ∃ pattern, s ∈ glob pattern
  libs : ∀ l ∈ t.libs, IsWord l
  plain : t.isLib = true → t.libs = []

structure Manifest.Valid (glob : Str → List Str) (m : Manifest) : Prop where
  targets : ∀ t ∈ m.targets, t.Valid glob
  names : (m.targets.map Target.name).Nodup
  known : ∀ t ∈ m.targets, ∀ l ∈ t.libs, ∃ u ∈ m.targets, u.isLib = true ∧ u.name = l
  drivers : IsWord m.cc ∧ IsWord m.cxx
  cflags : ∀ f ∈ m.cflags, IsWord f
  ldflags : ∀ f ∈ m.ldflags, IsWord f

/-- What holds while the lines are read. -/
structure Parse.Valid (glob : Str → List Str) (p : Parse) : Prop where
  targets : ∀ t ∈ p.manifest.targets, t.Valid glob
  names : p.names = p.manifest.targets.map Target.name
  unique : p.names.Nodup
  drivers : IsWord p.manifest.cc ∧ IsWord p.manifest.cxx
  cflags : ∀ f ∈ p.manifest.cflags, IsWord f
  ldflags : ∀ f ∈ p.manifest.ldflags, IsWord f

section Parse

variable {glob : Str → List Str}

/-- A target while its words are read. -/
structure Target.Reading (glob : Str → List Str) (named : Str) (lib : Bool) (st : Target × Bool) :
    Prop where
  name : st.1.name = named
  isLib : st.1.isLib = lib
  paths : ∀ s ∈ st.1.sources, IsWord s ∨ ∃ pattern, s ∈ glob pattern
  libs : ∀ l ∈ st.1.libs, IsWord l
  plain : lib = true → st.2 = false ∧ st.1.libs = []

theorem targetWord_reading {line : Nat} {name : Str} {lib : Bool} {st st' : Target × Bool} {word : Str}
    (holds : Target.Reading glob name lib st) (isWord : IsWord word)
    (read : targetWord glob line st word = .ok st') : Target.Reading glob name lib st' := by
  unfold targetWord at read
  split_ifs at read with colon isLib after
  · cases read
    refine ⟨holds.name, holds.isLib, holds.paths, holds.libs, fun is => ?_⟩
    exact absurd (holds.isLib.trans is) isLib
  · cases read
    refine ⟨holds.name, holds.isLib, holds.paths, fun l member => ?_, fun is => ?_⟩
    · rcases List.mem_append.mp member with old | new
      · exact holds.libs l old
      · rw [List.mem_singleton.mp new]
        exact isWord
    · rw [(holds.plain is).1] at after
      cases after
  · split at read
    · cases read
    · rename_i paths expanded
      cases read
      refine ⟨holds.name, holds.isLib, fun s member => ?_, holds.libs, fun is => ⟨rfl, (holds.plain is).2⟩⟩
      rcases List.mem_append.mp member with old | new
      · exact holds.paths s old
      · unfold expand at expanded
        split_ifs at expanded
        · cases expanded
          exact Or.inr ⟨word, new⟩
        · cases expanded
          rw [List.mem_singleton.mp new]
          exact Or.inl isWord

theorem targetLine_valid {line : Nat} {p p' : Parse} {d : Str} {w : List Str} (valid : p.Valid glob)
    (words : ∀ x ∈ w, IsWord x) (read : targetLine glob line p d w = .ok p') : p'.Valid glob := by
  unfold targetLine at read
  split at read
  · rename_i name first rest
    split_ifs at read with duplicate
    split at read
    · cases read
    · rename_i t after folded
      split_ifs at read with empty
      cases read
      have done : Target.Reading glob name (decide (d = "lib".toList)) (t, after) := by
        refine foldlM_ok (P := Target.Reading glob name _) (fun member holds step => ?_) ?_ folded
        · exact targetWord_reading holds (words _ (List.mem_cons_of_mem _ member)) step
        · exact ⟨rfl, rfl, by simp, by simp, fun _ => ⟨rfl, rfl⟩⟩
      have isValid : t.Valid glob :=
        ⟨done.name ▸ words name (by simp), empty, done.paths, done.libs,
          fun is => (done.plain (done.isLib.symm.trans is)).2⟩
      refine ⟨fun u member => ?_, ?_, ?_, valid.drivers, valid.cflags, valid.ldflags⟩
      · rcases List.mem_append.mp member with old | new
        · exact valid.targets u old
        · rw [List.mem_singleton.mp new]
          exact isValid
      · have same : t.name = name := done.name
        rw [List.map_append, valid.names]
        simp [same]
      · rw [List.nodup_append]
        refine ⟨valid.unique, by simp, fun a ha b hb same => duplicate ?_⟩
        rw [← List.mem_singleton.mp hb, ← same]
        exact ha
  · cases read

theorem parseLine_valid {p p' : Parse} {raw : Str × Nat} (valid : p.Valid glob)
    (read : parseLine glob p raw = .ok p') : p'.Valid glob := by
  unfold parseLine at read
  split at read
  · cases read
    exact valid
  · rename_i d w line
    have words : ∀ x ∈ w, IsWord x := fun x member =>
      isWord_of_mem_splitWs (line ▸ List.mem_cons_of_mem d member)
    split at read
    · split at read
      · rename_i name
        have word := words name (by simp)
        split at read
        · cases read
          exact ⟨valid.targets, valid.names, valid.unique, ⟨word, valid.drivers.2⟩, valid.cflags,
            valid.ldflags⟩
        · cases read
          exact ⟨valid.targets, valid.names, valid.unique, ⟨valid.drivers.1, word⟩, valid.cflags,
            valid.ldflags⟩
      · cases read
    · split_ifs at read
      · cases read
        refine ⟨valid.targets, valid.names, valid.unique, valid.drivers, fun f member => ?_, valid.ldflags⟩
        rcases List.mem_append.mp member with old | new
        · exact valid.cflags f old
        · exact words f new
      · cases read
        refine ⟨valid.targets, valid.names, valid.unique, valid.drivers, valid.cflags, fun f member => ?_⟩
        rcases List.mem_append.mp member with old | new
        · exact valid.ldflags f old
        · exact words f new
      · exact targetLine_valid valid words read

/-- What `parse_manifest` accepts is well formed. -/
theorem parseManifest_valid {text : Str} {m : Manifest} (accepted : parseManifest glob text = .ok m) :
    m.Valid glob := by
  unfold parseManifest at accepted
  split at accepted
  · cases accepted
  · rename_i p lines
    split at accepted
    · cases accepted
    · rename_i none_
      cases accepted
      have valid : p.Valid glob := by
        refine foldlM_ok (P := Parse.Valid glob) (fun _ holds step => parseLine_valid holds step) ?_ lines
        refine ⟨by simp, rfl, by simp, ⟨⟨by decide, by decide⟩, ⟨by decide, by decide⟩⟩, by simp, by simp⟩
      refine ⟨valid.targets, valid.names ▸ valid.unique, fun t ht l hl => ?_, valid.drivers, valid.cflags,
        valid.ldflags⟩
      have checked := List.findSome?_eq_none_iff.mp none_ t ht
      have found := List.find?_eq_none.mp (Option.map_eq_none_iff.mp checked) l hl
      simpa [List.any_eq_true] using found

end Parse

end DistCompile
