import DistCompile.Manifest

/-!
The grammar of `DCBUILD` (`src/manifest.cpp`).

A file is a list of directives, one on each line that is not blank behind its comment is cut.
`parse_manifest` is exact for it: it accepts the files whose directives are in order
(`Accepted`), and what it returns is what they say (`manifestOf`).
-/

namespace DistCompile

open DistCompile.Lib

/-! ### Directives -/

inductive Directive where
  | cc (driver : Str)
  | cxx (driver : Str)
  | cflags (words : List Str)
  | ldflags (words : List Str)
  | lib (name : Str) (sources : List Str)
  /-- without a colon, or with one and the words behind it -/
  | bin (name : Str) (sources : List Str) (after : Option (List Str))
deriving DecidableEq, Repr

/-- A colon and the words behind it. -/
def colonWords : Option (List Str) → List Str
  | none => []
  | some words => ":".toList :: words

namespace Directive

/-- How a directive is written. -/
def words : Directive → List Str
  | cc driver => ["cc".toList, driver]
  | cxx driver => ["cxx".toList, driver]
  | cflags words => "cflags".toList :: words
  | ldflags words => "ldflags".toList :: words
  | lib name sources => "lib".toList :: name :: sources
  | bin name sources after => "bin".toList :: name :: (sources ++ colonWords after)

/-- The name of a target with its source words. -/
def target? : Directive → Option (Str × List Str)
  | lib name sources | bin name sources _ => some (name, sources)
  | _ => none

/-- The name of a target. -/
def name? (d : Directive) : Option Str := d.target?.map Prod.fst

/-- The libraries a binary names; further colons are skipped. -/
def libWords : Directive → List Str
  | bin _ _ (some words) => words.filter (· ≠ ":".toList)
  | _ => []

end Directive

/-- A word with a character of a pattern. -/
def isPattern (word : Str) : Bool := word.any fun c => c = '*' || c = '?' || c = '['

/-- The sources that a word stands for. -/
def expansion (glob : Str → List Str) (word : Str) : List Str := if isPattern word then glob word else [word]

/-- The words of the directives of a file. -/
def directiveLines (text : Str) : List (List Str) :=
  ((getLines text).map fun line => splitWs (line.takeWhile fun c => c ≠ '#')).filter (· ≠ [])

/-- A target has source words, without a colon, and its patterns match. -/
structure TargetWords (glob : Str → List Str) (sources : List Str) : Prop where
  filled : sources ≠ []
  colon : ":".toList ∉ sources
  matched : ∀ word ∈ sources, isPattern word = true → glob word ≠ []

/-- The directives that `parse_manifest` accepts. -/
structure Accepted (glob : Str → List Str) (ds : List Directive) : Prop where
  targets : ∀ d ∈ ds, ∀ t, d.target? = some t → TargetWords glob t.2
  names : (ds.filterMap Directive.name?).Nodup
  libs : ∀ d ∈ ds, ∀ l ∈ d.libWords, ∃ sources, Directive.lib l sources ∈ ds

/-! ### What they say -/

namespace Directive

/-- The target of a `lib` or `bin`. -/
def target (glob : Str → List Str) : Directive → Option Target
  | lib name sources => some { isLib := true, name, sources := sources.flatMap (expansion glob) }
  | bin name sources after =>
      some { name, sources := sources.flatMap (expansion glob), libs := (bin name sources after).libWords }
  | _ => none

def cc? : Directive → Option Str
  | cc driver => some driver
  | _ => none

def cxx? : Directive → Option Str
  | cxx driver => some driver
  | _ => none

def cflagsWords : Directive → List Str
  | cflags words => words
  | _ => []

def ldflagsWords : Directive → List Str
  | ldflags words => words
  | _ => []

end Directive

/-- The last drivers, all flags, and the targets in the order of the file. -/
def manifestOf (glob : Str → List Str) (ds : List Directive) : Manifest where
  cc := (ds.filterMap Directive.cc?).getLast?.getD "gcc".toList
  cxx := (ds.filterMap Directive.cxx?).getLast?.getD "g++".toList
  cflags := ds.flatMap Directive.cflagsWords
  ldflags := ds.flatMap Directive.ldflagsWords
  targets := ds.filterMap (Directive.target glob)

section Words

variable {glob : Str → List Str} {line : Nat} {t : Target} {st : Target × Bool}

theorem expand_ok_iff {word : Str} {paths : List Str} : expand glob word line = .ok paths ↔
    (isPattern word = true → glob word ≠ []) ∧ paths = expansion glob word := by
  change (if isPattern word = true then
    if glob word = [] then .error (lineError line (quoted word ++ " matches nothing".toList)) else .ok (glob word)
    else .ok [word] : Except Str (List Str)) = _ ↔ _
  rw [expansion]
  by_cases pattern : isPattern word = true
  · by_cases none_ : glob word = []
    · rw [if_pos pattern, if_pos none_]
      exact ⟨fun bad => (by cases bad), fun good => absurd none_ (good.1 pattern)⟩
    · rw [if_pos pattern, if_neg none_, if_pos pattern]
      exact ⟨fun same => ⟨fun _ => none_, (Except.ok.inj same).symm⟩, fun good => congrArg _ good.2.symm⟩
  · rw [if_neg pattern, if_neg pattern]
    exact ⟨fun same => ⟨fun is => absurd is pattern, (Except.ok.inj same).symm⟩, fun good => congrArg _ good.2.symm⟩

theorem targetWord_colon (plain : t.isLib = false) (after : Bool) :
    targetWord glob line (t, after) ":".toList = .ok (t, true) := by
  rw [targetWord, if_pos rfl, if_neg (by rw [plain]; exact Bool.false_ne_true)]

theorem targetWord_later {word : Str} (other : word ≠ ":".toList) :
    targetWord glob line (t, true) word = .ok ({ t with libs := t.libs ++ [word] }, true) := by
  rw [targetWord, if_neg other, if_pos rfl]

theorem targetWord_source_iff {word : Str} (other : word ≠ ":".toList) :
    targetWord glob line (t, false) word = .ok st ↔ (isPattern word = true → glob word ≠ []) ∧
      st = ({ t with sources := t.sources ++ expansion glob word }, false) := by
  rw [targetWord, if_neg other, if_neg Bool.false_ne_true]
  cases expanded : expand glob word line with
  | error e =>
    refine ⟨fun bad => (by cases bad), fun good => ?_⟩
    rw [expand_ok_iff.mpr ⟨good.1, rfl⟩] at expanded
    cases expanded
  | ok paths =>
    obtain ⟨matched, rfl⟩ := expand_ok_iff.mp expanded
    exact ⟨fun same => ⟨matched, (Except.ok.inj same).symm⟩, fun good => congrArg _ good.2.symm⟩

/-- The words behind the colon of a binary. -/
theorem foldlM_after (plain : t.isLib = false) (words : List Str) :
    words.foldlM (targetWord glob line) (t, true) =
      .ok ({ t with libs := t.libs ++ words.filter (· ≠ ":".toList) }, true) := by
  induction words generalizing t with
  | nil =>
    rw [List.filter_nil, List.append_nil]
    rfl
  | cons word words ih =>
    rw [foldlM_cons_ok_iff]
    by_cases colon : word = ":".toList
    · refine ⟨(t, true), by rw [colon, targetWord_colon plain], ?_⟩
      rw [ih plain, List.filter_cons_of_neg (by simpa using colon)]
    · refine ⟨_, targetWord_later colon, ?_⟩
      rw [List.filter_cons_of_pos (by simpa using colon)]
      refine (ih (t := { t with libs := t.libs ++ [word] }) plain).trans ?_
      dsimp only
      rw [List.append_assoc, List.singleton_append]

/-- What the words behind the name of a target make of it. -/
def readTarget (glob : Str → List Str) (t : Target) (sources : List Str) (after : Option (List Str)) : Target :=
  { t with
    sources := t.sources ++ sources.flatMap (expansion glob)
    libs := t.libs ++ (after.getD []).filter (· ≠ ":".toList) }

theorem readTarget_cons (word : Str) (sources : List Str) (after : Option (List Str)) :
    readTarget glob t (word :: sources) after =
      readTarget glob { t with sources := t.sources ++ expansion glob word } sources after := by
  rw [readTarget, readTarget, List.flatMap_cons, ← List.append_assoc]

theorem foldlM_targetWord_iff (words : List Str) (t : Target) :
    words.foldlM (targetWord glob line) (t, false) = .ok st ↔ ∃ sources after, words = sources ++ colonWords after ∧
      ":".toList ∉ sources ∧ (∀ word ∈ sources, isPattern word = true → glob word ≠ []) ∧
      (t.isLib = true → after = none) ∧ st = (readTarget glob t sources after, after.isSome) := by
  induction words generalizing t with
  | nil =>
    constructor
    · intro read
      cases read
      exact ⟨[], none, rfl, List.not_mem_nil, by simp, fun _ => rfl, by simp [readTarget]⟩
    · rintro ⟨sources, after, split, -, -, -, rfl⟩
      obtain ⟨rfl, none_⟩ := List.append_eq_nil_iff.mp split.symm
      cases after with
      | some later => cases none_
      | none => simp [readTarget, pure, Except.pure]
  | cons word words ih =>
    rw [foldlM_cons_ok_iff]
    by_cases colon : word = ":".toList
    · constructor
      · rintro ⟨st', first, rest⟩
        rw [targetWord, if_pos colon] at first
        split at first
        · cases first
        · rename_i plain
          cases first
          rw [foldlM_after (by simpa using plain)] at rest
          cases rest
          exact ⟨[], some words, by rw [colon]; rfl, List.not_mem_nil, by simp, fun is => absurd is plain,
            by simp [readTarget]⟩
      · rintro ⟨sources, after, split, apart, -, lone, rfl⟩
        cases sources with
        | cons s sources =>
          obtain ⟨rfl, -⟩ := List.cons.inj split
          exact absurd (colon ▸ List.mem_cons_self) apart
        | nil =>
          cases after with
          | none => cases split
          | some later =>
            obtain ⟨-, rfl⟩ := List.cons.inj split
            have plain : t.isLib = false := by
              rw [← Bool.not_eq_true]
              exact fun is => by cases lone is
            refine ⟨(t, true), by rw [colon, targetWord_colon plain], ?_⟩
            rw [foldlM_after plain]
            simp [readTarget]
    · simp only [targetWord_source_iff colon]
      constructor
      · rintro ⟨_, ⟨matched, rfl⟩, rest⟩
        obtain ⟨sources, after, rfl, apart, others, lone, rfl⟩ := (ih _).mp rest
        refine ⟨word :: sources, after, rfl, ?_, ?_, lone, by rw [readTarget_cons]⟩
        · exact fun member => (List.mem_cons.mp member).elim (Ne.symm colon) apart
        · exact List.forall_mem_cons.mpr ⟨matched, others⟩
      · rintro ⟨sources, after, split, apart, matched, lone, rfl⟩
        cases sources with
        | nil =>
          cases after with
          | none => cases split
          | some later => exact absurd (List.cons.inj split).1 colon
        | cons s sources =>
          obtain ⟨rfl, rfl⟩ := List.cons.inj split
          refine ⟨_, ⟨matched _ List.mem_cons_self, rfl⟩, (ih _).mpr ⟨sources, after, rfl, ?_,
            fun w hw => matched w (List.mem_cons_of_mem _ hw), lone, by rw [readTarget_cons]⟩⟩
          exact fun member => apart (List.mem_cons_of_mem _ member)

end Words

/-! ### Lines -/

/-- What a directive adds to the variables of `parse_manifest`. -/
def Directive.addTo (glob : Str → List Str) (p : Parse) (d : Directive) : Parse where
  manifest :=
    { cc := d.cc?.getD p.manifest.cc
      cxx := d.cxx?.getD p.manifest.cxx
      cflags := p.manifest.cflags ++ d.cflagsWords
      ldflags := p.manifest.ldflags ++ d.ldflagsWords
      targets := p.manifest.targets ++ (d.target glob).toList }
  names := p.names ++ d.name?.toList

section Lines

variable {glob : Str → List Str} {p p' : Parse}

attribute [simp] Directive.cc? Directive.cxx? Directive.cflagsWords Directive.ldflagsWords Directive.target
  Directive.name? Directive.target?

@[simp] theorem addTo_cc (driver : Str) : (Directive.cc driver).addTo glob p =
    { p with manifest := { p.manifest with cc := driver } } := by
  simp [Directive.addTo]

@[simp] theorem addTo_cxx (driver : Str) : (Directive.cxx driver).addTo glob p =
    { p with manifest := { p.manifest with cxx := driver } } := by
  simp [Directive.addTo]

@[simp] theorem addTo_cflags (words : List Str) : (Directive.cflags words).addTo glob p =
    { p with manifest := { p.manifest with cflags := p.manifest.cflags ++ words } } := by
  simp [Directive.addTo]

@[simp] theorem addTo_ldflags (words : List Str) : (Directive.ldflags words).addTo glob p =
    { p with manifest := { p.manifest with ldflags := p.manifest.ldflags ++ words } } := by
  simp [Directive.addTo]

@[simp] theorem addTo_lib (name : Str) (sources : List Str) : (Directive.lib name sources).addTo glob p =
    ⟨{ p.manifest with targets := p.manifest.targets ++ [readTarget glob { isLib := true, name } sources none] },
      p.names ++ [name]⟩ := by
  simp [Directive.addTo, readTarget]

@[simp] theorem addTo_bin (name : Str) (sources : List Str) (after : Option (List Str)) :
    (Directive.bin name sources after).addTo glob p =
      ⟨{ p.manifest with targets := p.manifest.targets ++ [readTarget glob { isLib := false, name } sources after] },
        p.names ++ [name]⟩ := by
  cases after <;> simp [Directive.addTo, Directive.libWords, readTarget]

theorem TargetWords.expanded {sources : List Str} (words : TargetWords glob sources) :
    sources.flatMap (expansion glob) ≠ [] := by
  obtain ⟨word, rest, rfl⟩ := List.exists_cons_of_ne_nil words.filled
  rw [List.flatMap_cons, expansion]
  split
  · rename_i pattern
    exact List.append_ne_nil_of_left_ne_nil (words.matched word List.mem_cons_self pattern) _
  · simp

/-- A `lib` or `bin` line. -/
theorem targetLine_ok_iff {line : Nat} {d : Str} {w : List Str} : targetLine glob line p d w = .ok p' ↔
    ∃ name sources after, w = name :: (sources ++ colonWords after) ∧ TargetWords glob sources ∧ name ∉ p.names ∧
      (d = "lib".toList → after = none) ∧
      p' = ⟨{ p.manifest with targets := p.manifest.targets ++
        [readTarget glob { isLib := d = "lib".toList, name } sources after] }, p.names ++ [name]⟩ := by
  constructor
  · intro read
    unfold targetLine at read
    split at read
    · rename_i name first rest
      split_ifs at read with duplicate
      split at read
      · cases read
      · rename_i t after folded
        split_ifs at read with empty
        cases read
        obtain ⟨sources, words, split, apart, matched, lone, same⟩ := (foldlM_targetWord_iff _ _).mp folded
        obtain ⟨rfl, rfl⟩ := Prod.mk.inj same
        refine ⟨name, sources, words, by rw [split], ⟨?_, apart, matched⟩, duplicate, by simpa using lone, rfl⟩
        rintro rfl
        exact empty rfl
    · cases read
  · rintro ⟨name, sources, after, rfl, words, fresh, lone, rfl⟩
    obtain ⟨first, rest, rfl⟩ := List.exists_cons_of_ne_nil words.filled
    have folded : (first :: rest ++ colonWords after).foldlM (targetWord glob line)
        ({ isLib := d = "lib".toList, name }, false) =
        .ok (readTarget glob { isLib := d = "lib".toList, name } (first :: rest) after, after.isSome) :=
      (foldlM_targetWord_iff _ _).mpr
        ⟨first :: rest, after, rfl, words.colon, words.matched, by simpa using lone, rfl⟩
    rw [List.cons_append] at folded ⊢
    rw [targetLine, if_neg fresh, folded]
    exact if_neg words.expanded

/-- The words of a line, without its comment. -/
def lineWords (line : Str) : List Str := splitWs (line.takeWhile fun c => c ≠ '#')

/-- A line with the words of a directive. -/
theorem parseLine_directive {raw : Str × Nat} {d : Directive} (line : lineWords raw.1 = d.words)
    (target : ∀ t, d.target? = some t → TargetWords glob t.2 ∧ t.1 ∉ p.names) :
    parseLine glob p raw = .ok (d.addTo glob p) := by
  rw [lineWords] at line
  rw [parseLine, line]
  cases d with
  | cc driver =>
    rw [addTo_cc]
    exact (if_pos (Or.inl rfl)).trans (if_pos rfl)
  | cxx driver =>
    rw [addTo_cxx]
    exact (if_pos (Or.inr rfl)).trans (if_neg (by decide))
  | cflags words =>
    rw [addTo_cflags]
    exact (if_neg (by decide)).trans (if_pos rfl)
  | ldflags words =>
    rw [addTo_ldflags]
    exact (if_neg (by decide)).trans ((if_neg (by decide)).trans (if_pos rfl))
  | lib name sources =>
    rw [addTo_lib]
    obtain ⟨words, fresh⟩ := target _ rfl
    refine (if_neg (by decide)).trans ((if_neg (by decide)).trans ((if_neg (by decide)).trans
      ((if_pos (Or.inl rfl)).trans ?_)))
    exact targetLine_ok_iff.mpr ⟨name, sources, none, by rw [colonWords, List.append_nil], words, fresh,
      fun _ => rfl, rfl⟩
  | bin name sources after =>
    rw [addTo_bin]
    obtain ⟨words, fresh⟩ := target _ rfl
    refine (if_neg (by decide)).trans ((if_neg (by decide)).trans ((if_neg (by decide)).trans
      ((if_pos (Or.inr rfl)).trans ?_)))
    exact targetLine_ok_iff.mpr ⟨name, sources, after, rfl, words, fresh,
      fun bad => absurd bad (by decide), rfl⟩

theorem parseLine_ok_iff {raw : Str × Nat} : parseLine glob p raw = .ok p' ↔
    (lineWords raw.1 = [] ∧ p' = p) ∨ ∃ d : Directive, lineWords raw.1 = d.words ∧
      (∀ t, d.target? = some t → TargetWords glob t.2 ∧ t.1 ∉ p.names) ∧ p' = d.addTo glob p := by
  constructor
  · intro read
    cases line : lineWords raw.1 with
    | nil =>
      rw [lineWords] at line
      rw [parseLine, line] at read
      cases read
      exact Or.inl ⟨rfl, rfl⟩
    | cons d w =>
      refine Or.inr ?_
      rw [lineWords] at line
      rw [parseLine, line] at read
      dsimp only at read
      split at read
      · rename_i driver_
        split at read
        · rename_i driver
          split at read
          · rename_i cc
            cases read
            exact ⟨.cc driver, by rw [cc]; rfl, fun t none_ => (by cases none_), by simp⟩
          · rename_i other
            cases read
            exact ⟨.cxx driver, by rw [driver_.resolve_left other]; rfl, fun t none_ => (by cases none_), by simp⟩
        · cases read
      · split_ifs at read with cflags ldflags target
        · cases read
          exact ⟨.cflags w, by rw [cflags]; rfl, fun t none_ => (by cases none_), by simp⟩
        · cases read
          exact ⟨.ldflags w, by rw [ldflags]; rfl, fun t none_ => (by cases none_), by simp⟩
        · obtain ⟨name, sources, after, rfl, words, fresh, lone, rfl⟩ := targetLine_ok_iff.mp read
          by_cases lib : d = "lib".toList
          · obtain rfl := lone lib
            refine ⟨.lib name sources, ?_, ?_, ?_⟩
            · rw [lib, colonWords, List.append_nil]
              rfl
            · rintro t same
              cases same
              exact ⟨words, fresh⟩
            · rw [addTo_lib]
              simp only [lib, decide_true]
          · refine ⟨.bin name sources after, ?_, ?_, ?_⟩
            · rw [target.resolve_left lib]
              rfl
            · rintro t same
              cases same
              exact ⟨words, fresh⟩
            · rw [addTo_bin]
              simp only [lib, decide_false]
  · rintro (⟨blank, rfl⟩ | ⟨d, line, target, rfl⟩)
    · rw [lineWords] at blank
      rw [parseLine, blank]
    · exact parseLine_directive line target

theorem words_ne_nil (d : Directive) : d.words ≠ [] := by
  cases d <;> exact List.cons_ne_nil _ _

theorem addTo_names (glob : Str → List Str) (d : Directive) : (d.addTo glob p).names = p.names ++ d.name?.toList := rfl

theorem names_cons (names : List Str) (d : Directive) (ds : List Directive) :
    names ++ (d :: ds).filterMap Directive.name? = (names ++ d.name?.toList) ++ ds.filterMap Directive.name? := by
  rw [List.filterMap_cons, List.append_assoc]
  cases d.name? <;> rfl

theorem nodup_addTo {d : Directive} (unique : p.names.Nodup) (fresh : ∀ t, d.target? = some t → t.1 ∉ p.names) :
    (d.addTo glob p).names.Nodup := by
  rw [addTo_names, Directive.name?]
  cases is : d.target? with
  | none => simpa using unique
  | some t =>
    refine List.nodup_append.mpr ⟨unique, List.nodup_singleton _, fun a old b new same => ?_⟩
    rw [same, List.mem_singleton.mp new] at old
    exact fresh t is old

/-- All lines: the names are new and differ. -/
theorem parseLines_ok_iff {lines : List Str} {n : Nat} (unique : p.names.Nodup) :
    (lines.zipIdx n).foldlM (parseLine glob) p = .ok p' ↔
      ∃ ds : List Directive, (lines.map lineWords).filter (· ≠ []) = ds.map Directive.words ∧
        (∀ d ∈ ds, ∀ t, d.target? = some t → TargetWords glob t.2) ∧
        (p.names ++ ds.filterMap Directive.name?).Nodup ∧ p' = ds.foldl (Directive.addTo glob) p := by
  induction lines generalizing n p with
  | nil =>
    constructor
    · intro read
      cases read
      exact ⟨[], rfl, by simp, by simpa using unique, rfl⟩
    · rintro ⟨ds, none_, -, -, rfl⟩
      rw [List.map_nil, List.filter_nil, eq_comm, List.map_eq_nil_iff] at none_
      rw [none_]
      rfl
  | cons line lines ih =>
    rw [List.zipIdx_cons, foldlM_cons_ok_iff, List.map_cons]
    simp only [parseLine_ok_iff]
    by_cases blank : lineWords line = []
    · rw [List.filter_cons_of_neg (by simpa using blank), ← ih unique]
      constructor
      · rintro ⟨q, ⟨-, rfl⟩ | ⟨d, words, -, -⟩, rest⟩
        · exact rest
        · exact absurd (words.symm.trans blank) (words_ne_nil d)
      · exact fun rest => ⟨p, Or.inl ⟨blank, rfl⟩, rest⟩
    · rw [List.filter_cons_of_pos (by simpa using blank)]
      constructor
      · rintro ⟨q, ⟨bad, -⟩ | ⟨d, words, target, rfl⟩, rest⟩
        · exact absurd bad blank
        · have unique' : (d.addTo glob p).names.Nodup := nodup_addTo unique fun t is => (target t is).2
          obtain ⟨ds, split, targets, names, rfl⟩ := (ih unique').mp rest
          refine ⟨d :: ds, by rw [words, split, List.map_cons], ?_, ?_, rfl⟩
          · exact List.forall_mem_cons.mpr ⟨fun t is => (target t is).1, targets⟩
          · rwa [names_cons, ← addTo_names glob]
      · rintro ⟨ds, split, targets, names, rfl⟩
        cases ds with
        | nil => cases split
        | cons d ds =>
          obtain ⟨words, rest⟩ := List.cons.inj split
          obtain ⟨target, targets⟩ := List.forall_mem_cons.mp targets
          rw [names_cons] at names
          have fresh : ∀ t, d.target? = some t → t.1 ∉ p.names := fun t is old => by
            have name : t.1 ∈ d.name?.toList := by rw [Directive.name?, is]; exact List.mem_singleton_self _
            exact (List.nodup_append.mp (List.nodup_append.mp names).1).2.2 _ old _ name rfl
          exact ⟨_, Or.inr ⟨d, words, fun t is => ⟨target t is, fresh t is⟩, rfl⟩,
            (ih (nodup_addTo unique fresh)).mpr ⟨ds, rest, targets, names, rfl⟩⟩

/-! ### Files -/

/-- The variables of `parse_manifest` at the end. -/
theorem foldl_addTo (ds : List Directive) (p : Parse) : ds.foldl (Directive.addTo glob) p =
    { manifest :=
        { cc := (ds.filterMap Directive.cc?).getLast?.getD p.manifest.cc
          cxx := (ds.filterMap Directive.cxx?).getLast?.getD p.manifest.cxx
          cflags := p.manifest.cflags ++ ds.flatMap Directive.cflagsWords
          ldflags := p.manifest.ldflags ++ ds.flatMap Directive.ldflagsWords
          targets := p.manifest.targets ++ ds.filterMap (Directive.target glob) }
      names := p.names ++ ds.filterMap Directive.name? } := by
  have last : ∀ {α : Type} (f : Directive → Option α) (d : Directive) (ds : List Directive) (a : α),
      (ds.filterMap f).getLast?.getD ((f d).getD a) = ((d :: ds).filterMap f).getLast?.getD a := by
    intro α f d ds a
    cases same : f d with
    | none => rw [List.filterMap_cons_none same]; rfl
    | some b => rw [List.filterMap_cons_some same, List.getLast?_cons]; rfl
  have joined : ∀ {α : Type} (f : Directive → Option α) (l : List α) (d : Directive) (ds : List Directive),
      l ++ (f d).toList ++ ds.filterMap f = l ++ (d :: ds).filterMap f := by
    intro α f l d ds
    rw [List.filterMap_cons, List.append_assoc]
    cases f d <;> rfl
  induction ds generalizing p with
  | nil => simp
  | cons d ds ih =>
    rw [List.foldl_cons, ih]
    simp only [Directive.addTo, last, joined, List.flatMap_cons, List.append_assoc]

theorem mem_targets_iff {ds : List Directive} {l : Str} :
    (∃ u ∈ ds.filterMap (Directive.target glob), u.isLib = true ∧ u.name = l) ↔
      ∃ sources, Directive.lib l sources ∈ ds := by
  constructor
  · rintro ⟨u, member, isLib, rfl⟩
    obtain ⟨d, hd, is⟩ := List.mem_filterMap.mp member
    cases d with
    | lib name sources => cases is; exact ⟨sources, hd⟩
    | bin name sources after => cases is; cases isLib
    | cc driver => cases is
    | cxx driver => cases is
    | cflags words => cases is
    | ldflags words => cases is
  · rintro ⟨sources, member⟩
    exact ⟨_, List.mem_filterMap.mpr ⟨_, member, rfl⟩, rfl, rfl⟩

theorem target_libs {d : Directive} {t : Target} (is : d.target glob = some t) : t.libs = d.libWords := by
  cases d <;> cases is <;> rfl

theorem target_of_libWords (glob : Str → List Str) {d : Directive} {l : Str} (member : l ∈ d.libWords) : ∃ t, d.target glob = some t := by
  cases d with
  | bin name sources after => exact ⟨_, rfl⟩
  | lib name sources => exact ⟨_, rfl⟩
  | cc driver => cases member
  | cxx driver => cases member
  | cflags words => cases member
  | ldflags words => cases member

theorem unknownLib_eq_none_iff {ds : List Directive} : unknownLib (manifestOf glob ds) = none ↔
    ∀ d ∈ ds, ∀ l ∈ d.libWords, ∃ sources, Directive.lib l sources ∈ ds := by
  have known : ∀ m, unknownLib m = none ↔ ∀ t ∈ m.targets, ∀ l ∈ t.libs, ∃ u ∈ m.targets, u.isLib = true ∧ u.name = l :=
    fun m => by simp [unknownLib]
  rw [known, manifestOf]
  constructor
  · intro all d hd l hl
    obtain ⟨t, is⟩ := target_of_libWords glob hl
    exact mem_targets_iff.mp (all t (List.mem_filterMap.mpr ⟨d, hd, is⟩) l (target_libs is ▸ hl))
  · intro all t ht l hl
    obtain ⟨d, hd, is⟩ := List.mem_filterMap.mp ht
    exact mem_targets_iff.mpr (all d hd l (target_libs is ▸ hl))

/-- `parse_manifest` accepts exactly the files of the grammar, and returns what they say. -/
theorem parseManifest_exact (glob : Str → List Str) (text : Str) (m : Manifest) :
    parseManifest glob text = .ok m ↔
      ∃ ds : List Directive, directiveLines text = ds.map Directive.words ∧ Accepted glob ds ∧
        m = manifestOf glob ds := by
  have lines : ∀ {p' : Parse}, ((getLines text).zipIdx 1).foldlM (parseLine glob) {} = .ok p' ↔ _ := fun {p'} =>
    parseLines_ok_iff (p := {}) List.nodup_nil
  have whole : ∀ ds : List Directive, (ds.foldl (Directive.addTo glob) {}).manifest = manifestOf glob ds := fun ds => by
    rw [foldl_addTo]
    rfl
  constructor
  · intro accepted
    unfold parseManifest at accepted
    split at accepted
    · cases accepted
    · rename_i p read
      obtain ⟨ds, split, targets, names, rfl⟩ := lines.mp read
      rw [whole] at accepted
      split at accepted
      · cases accepted
      · rename_i known
        cases accepted
        exact ⟨ds, split, ⟨targets, names, unknownLib_eq_none_iff.mp known⟩, rfl⟩
  · rintro ⟨ds, split, accepted, rfl⟩
    have read := lines.mpr ⟨ds, split, accepted.targets, accepted.names, rfl⟩
    rw [parseManifest, read]
    dsimp only
    rw [whole, unknownLib_eq_none_iff.mpr accepted.libs]

end Lines

end DistCompile
