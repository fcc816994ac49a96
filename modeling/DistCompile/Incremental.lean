import DistCompile.Client
import DistCompile.StateFile

/-!
Skipping the preprocessor (`stamp`, `still_valid`, `run_preprocess` and the first
steps of `build` in `src/dcc.cpp`).

Any number of runs of `dcc` work on one source tree while its files are edited. A
run loads the state file, checks each unit against it, runs `gcc -E` where the check
fails, stamps the files the output names one after the other and saves the state at
its end. Each of these is one step of `next`; edits fall between any two of them.

The preprocessor is a parameter with the properties the code relies on
(`Preprocessor.Documented`). `World.past` and `World.savedBy` record what has been:
no step of the program reads them, only the condition on the steps does (`Careful`).
-/

namespace DistCompile.Incremental

open DistCompile.Lib

/-! ### The source tree -/

/-- A file as `stat` and a reader see it. -/
structure SourceFile where
  content : Str
  mtimeNs : Int64
  size : Int64
deriving DecidableEq, Repr

/-- The files by their full paths. -/
abbrev Tree := Str → Option SourceFile

/-- Relative paths are relative to the project root, for `stamp` and for `gcc -E`. -/
def fullPath (root path : Str) : Str :=
  if path.head? = some '/' then path else root ++ '/' :: path

/-- `stamp`. -/
def stamp (tree : Tree) (root path : Str) : Option FileStamp :=
  (tree (fullPath root path)).map fun f => ⟨f.mtimeNs, f.size, path⟩

/-- What a reader finds at a path. -/
def contentAt (tree : Tree) (root path : Str) : Option Str :=
  (tree (fullPath root path)).map SourceFile.content

/-- `still_valid`. -/
def stillValid (tree : Tree) (root : Str) (old : SourceUnit) : Bool :=
  old.deps ≠ [] && old.deps.all fun f => (stamp tree root f.path).any fun now =>
    now.mtimeNs = f.mtimeNs && now.size = f.size

/-! ### The preprocessor -/

/-- `gcc -E`, run in the project root: its output, or what it printed when it
failed, and the files it reads. -/
structure Preprocessor where
  run : List Str → Tree → Except Str Str
  reads : List Str → Tree → List Str

/-- A file name as `gcc` quotes it in a line marker. -/
def escapeName (name : Str) : Str :=
  name.flatMap fun c =>
    if c = '\n' then ['\\', 'n'] else if c = '\\' ∨ c = '"' then ['\\', c] else [c]

/-- The text starts with a line marker for `name`. -/
def Marks (rest name : Str) : Prop :=
  ∃ number tail, number ≠ [] ∧ (∀ c ∈ number, c.isDigit = true) ∧
    rest = '#' :: ' ' :: (number ++ ' ' :: '"' :: (escapeName name ++ '"' :: tail))

/-- The names of markers that are no files. -/
def pseudoFiles : List Str := ["<built-in>".toList, "<command-line>".toList, "<stdin>".toList]

/-- What is assumed of `gcc -E`: it is a function of the contents of the files it
reads, these exist, and its line markers name exactly those. -/
structure Preprocessor.Documented (pp : Preprocessor) (root : Str) : Prop where
  determined : ∀ {argv tree tree' text}, pp.run argv tree = .ok text →
    (∀ f ∈ pp.reads argv tree, contentAt tree' root f = contentAt tree root f) →
      pp.run argv tree' = .ok text
  exist : ∀ {argv tree text}, pp.run argv tree = .ok text →
    ∀ f ∈ pp.reads argv tree, contentAt tree root f ≠ none
  marked : ∀ {argv tree text}, pp.run argv tree = .ok text →
    ∀ f ∈ pp.reads argv tree, ∃ rest ∈ lineStarts text, Marks rest f
  only : ∀ {argv tree text}, pp.run argv tree = .ok text →
    ∀ rest ∈ lineStarts text, isMarker rest = true →
      ∃ f, Marks rest f ∧ (f ∈ pp.reads argv tree ∨ f ∈ pseudoFiles)
  fits : ∀ {argv tree text}, pp.run argv tree = .ok text → Fits text

/-- The command of `preprocess`. -/
def preprocessArgs (cfg : CompileConfig) (src : Str) : List Str :=
  [cfg.driver, "-E".toList, "-x".toList, cfg.lang] ++ cfg.ppFlags ++ cfg.ccFlags ++ [src]

/-! ### Runs of the client -/

/-- Where `build` is with a unit. -/
inductive Phase where
  | unchecked
  | due
  | stamping (rest : List Str)
  | settled
deriving DecidableEq, Repr

/-- A unit with `fresh` and the place of the thread that works on it. -/
structure Work where
  unit : SourceUnit
  fresh : Bool := false
  phase : Phase := .unchecked
deriving DecidableEq, Repr

/-- A run of `dcc build`. -/
structure Process where
  m : Manifest
  toolchain : Str
  old : Str → Option SourceUnit
  works : List Work
  /-- The keys are there: the first loop over the units is over, without an error. -/
  keyed : Bool := false

/-- The tree, the text of the state file and the runs; no file reads as an empty one. -/
structure World where
  tree : Tree
  file : Str := []
  procs : Nat → Option Process := fun _ => none
  /-- The trees so far, the present one among them. -/
  past : List Tree
  /-- The manifest and the toolchain of the run that wrote the state file. -/
  savedBy : Option (Manifest × Str) := none

/-- `config` in `build`. -/
def stateConfig (H : Sha256) (m : Manifest) (toolchain : Str) : Str :=
  (H.hex (toolchain ++ '\n' :: m.cc ++ '\n' :: m.cxx ++ m.cflags.flatMap fun f => '\n' :: f)).take 16

def Process.config (H : Sha256) (p : Process) : Str := stateConfig H p.m p.toolchain

def Process.cfg (p : Process) (src : Str) : CompileConfig := unitConfig p.m p.toolchain src

/-- The command that preprocesses a source in a run. -/
def Process.argv (p : Process) (src : Str) : List Str := preprocessArgs (p.cfg src) src

/-- `p.key` of `preprocess`, when it succeeds. -/
def Process.key (H : Sha256) (p : Process) (src text : Str) : Str := compileKey H (p.cfg src) text

def Process.units (p : Process) : List SourceUnit := p.works.map Work.unit

inductive Event where
  | edit (tree : Tree)
  | start (pid : Nat) (m : Manifest) (toolchain : Str)
  | check (pid i : Nat)
  | preprocess (pid i : Nat)
  | stamp (pid i : Nat)
  | keyed (pid : Nat)
  | redo (pid i : Nat)
  | save (pid : Nat)
  | quit (pid : Nat)

/-- The first parallel loop, for one unit: reuse what the state file says, or preprocess. -/
def checkUnit (tree : Tree) (root : Str) (p : Process) (work : Work) : Option Work :=
  if work.phase = .unchecked then
    match p.old work.unit.src with
    | some old =>
        if stillValid tree root old then
          some { work with
            unit := { work.unit with key := old.key, digest := old.digest, cost := old.cost, deps := old.deps }
            phase := .settled }
        else some { work with phase := .due }
    | none => some { work with phase := .due }
  else none

/-- `run_preprocess` up to the loop over the dependencies. -/
def preprocessUnit (H : Sha256) (pp : Preprocessor) (tree : Tree) (p : Process) (work : Work) :
    Option Work :=
  if work.phase = .due then
    match pp.run (p.argv work.unit.src) tree with
    | .error e => some { work with unit := { work.unit with error := e }, phase := .settled }
    | .ok text =>
        some { unit := { work.unit with
                 key := p.key H work.unit.src text
                 digest := H.hex text
                 cost := Int64.ofNat text.length
                 deps := [] }
               fresh := true
               phase := .stamping (markerFiles text) }
  else none

/-- One dependency in `run_preprocess`; it is dropped when `stat` fails. -/
def stampUnit (tree : Tree) (root : Str) (work : Work) : Option Work :=
  match work.phase with
  | .stamping (d :: rest) =>
      some { work with
        unit := { work.unit with deps := work.unit.deps ++ (stamp tree root d).toList }
        phase := .stamping rest }
  | .stamping [] => some { work with phase := .settled }
  | _ => none

/-- The key was reused but the result is not cached: preprocess after all. -/
def redoUnit (work : Work) : Option Work :=
  if work.phase = .settled ∧ work.fresh = false then some { work with phase := .due } else none

/-- A step of a run on its own variables. -/
def onRun (w : World) (pid : Nat) (act : Process → Option Process) : Option World := do
  let p ← w.procs pid
  let p' ← act p
  some { w with procs := Function.update w.procs pid (some p') }

/-- A step of the thread that works on unit `i` of a run. -/
def onUnit (w : World) (pid i : Nat) (act : Process → Work → Option Work) : Option World :=
  onRun w pid fun p => do
    let work ← p.works[i]?
    let work' ← act p work
    some { p with works := p.works.set i work' }

/-- One step; a run that fails or ends is gone. -/
def next (H : Sha256) (pp : Preprocessor) (root : Str) (w : World) : Event → Option World
  | .edit tree => some { w with tree, past := tree :: w.past }
  | .start pid m toolchain =>
      if (w.procs pid).isNone then
        some { w with
          procs := Function.update w.procs pid (some
            { m, toolchain
              old := loadState w.file (stateConfig H m toolchain)
              works := (unitSources m).map fun src => { unit := { src } } }) }
      else none
  | .check pid i => onUnit w pid i fun p work => checkUnit w.tree root p work
  | .preprocess pid i => onUnit w pid i fun p work => preprocessUnit H pp w.tree p work
  | .stamp pid i => onUnit w pid i fun _ work => stampUnit w.tree root work
  | .keyed pid => onRun w pid fun p =>
      if p.works.all fun work => work.phase = .settled && work.unit.error = [] then
        some { p with keyed := true }
      else none
  | .redo pid i => onUnit w pid i fun p work => if p.keyed then redoUnit work else none
  | .save pid => do
      let p ← w.procs pid
      if p.keyed && p.works.all fun work => work.phase = .settled then
        some { w with
          file := saveState (p.config H) p.units
          savedBy := some (p.m, p.toolchain)
          procs := Function.update w.procs pid none }
      else none
  | .quit pid => some { w with procs := Function.update w.procs pid none }

/-! ### What the markers name -/

/-- A name that comes through a marker and a line of the state file as it is. -/
structure Plain (name : Str) : Prop where
  visible : Visible name
  real : name.head? ≠ some '<'
  newline : '\n' ∉ name
  quote : '"' ∉ name
  backslash : '\\' ∉ name

theorem escapeName_of_clean {name : Str} (newline : '\n' ∉ name) (quote : '"' ∉ name)
    (backslash : '\\' ∉ name) : escapeName name = name := by
  induction name with
  | nil => rfl
  | cons c name ih =>
    simp only [List.mem_cons, not_or] at newline quote backslash
    rw [escapeName, List.flatMap_cons, if_neg (Ne.symm newline.1),
      if_neg (by rintro (same | same); exacts [backslash.1 same.symm, quote.1 same.symm])]
    exact congrArg (c :: ·) (ih newline.2 quote.2 backslash.2)

/-- A text without a newline stays on the line. -/
theorem lineAt_append {w rest : Str} (newline : '\n' ∉ w) : lineAt (w ++ rest) = w ++ lineAt rest := by
  refine List.takeWhile_append_of_pos fun c member => ?_
  rw [decide_eq_true_iff]
  rintro rfl
  exact newline member

theorem lineAt_cons {c : Char} {rest : Str} (newline : c ≠ '\n') : lineAt (c :: rest) = c :: lineAt rest := by
  simp [lineAt, newline]

/-- The quoted part of a marker is the name in it. -/
theorem quotedPart_marker {number name tail : Str} (digits : ∀ c ∈ number, c.isDigit = true)
    (newline : '\n' ∉ name) (quote : '"' ∉ name) :
    quotedPart ('#' :: ' ' :: (number ++ ' ' :: '"' :: (name ++ '"' :: tail))) = some name := by
  have unbroken : '\n' ∉ number := fun member => absurd (digits _ member) (by decide)
  have unquoted : '"' ∉ number := fun member => absurd (digits _ member) (by decide)
  have line : lineAt ('#' :: ' ' :: (number ++ ' ' :: '"' :: (name ++ '"' :: tail))) =
      '#' :: ' ' :: (number ++ ' ' :: '"' :: (name ++ '"' :: lineAt tail)) := by
    rw [lineAt_cons (by decide), lineAt_cons (by decide), lineAt_append unbroken, lineAt_cons (by decide),
      lineAt_cons (by decide), lineAt_append newline, lineAt_cons (by decide)]
  have first : ('#' :: ' ' :: (number ++ ' ' :: '"' :: (name ++ '"' :: tail))).idxOf '"' =
      number.length + 3 := by
    simp [List.idxOf_append_of_notMem unquoted]
  have after : ('#' :: ' ' :: (number ++ ' ' :: '"' :: (name ++ '"' :: tail))).drop (number.length + 3 + 1) =
      name ++ '"' :: tail := by
    simp [List.drop_append]
  have second : (name ++ '"' :: tail).idxOf '"' = name.length := by
    simp [List.idxOf_append_of_notMem quote]
  have between : number.length + 3 + 1 + name.length - (number.length + 3) - 1 = name.length := by omega
  rw [quotedPart]
  simp only [first, after, second, line, between]
  rw [if_pos (by simp; omega), List.take_left]

/-- A marker with a plain name is found by the scan. -/
theorem markerFile_plain {rest name : Str} (marks : Marks rest name) (plain : Plain name) :
    markerFile rest = some name := by
  obtain ⟨number, tail, filled, digits, rfl⟩ := marks
  have filled' : name ≠ [] := by
    obtain ⟨c, rest, rfl, -⟩ := plain.visible
    simp
  have marker : isMarker ('#' :: ' ' :: (number ++ ' ' :: '"' :: (name ++ '"' :: tail))) = true := by
    cases number with
    | nil => exact absurd rfl filled
    | cons d number =>
      have digit := digits d (by simp)
      simpa [isMarker, Char.isDigit, Char.le_def] using digit
  rw [escapeName_of_clean plain.newline plain.quote plain.backslash, markerFile, if_pos marker,
    quotedPart_marker digits plain.newline plain.quote]
  simp [filled', plain.real]

/-- A marker without a file is passed over. -/
theorem markerFile_pseudo {rest name : Str} (marks : Marks rest name) (pseudo : name ∈ pseudoFiles) :
    markerFile rest = none := by
  have all : ∀ name ∈ pseudoFiles, '\n' ∉ name ∧ '"' ∉ name ∧ '\\' ∉ name ∧ name.head? = some '<' := by
    decide
  have clean := all name pseudo
  obtain ⟨number, tail, -, digits, rfl⟩ := marks
  rw [escapeName_of_clean clean.1 clean.2.1 clean.2.2.1, markerFile,
    quotedPart_marker digits clean.1 clean.2.1]
  simp [clean.2.2.2]

section Markers

variable {pp : Preprocessor} {root : Str} {argv : List Str} {tree : Tree} {text : Str}
  (documented : pp.Documented root) (ran : pp.run argv tree = .ok text)
  (plain : ∀ f ∈ pp.reads argv tree, Plain f)

include documented ran plain

/-- With plain names the dependencies are the files that were read. -/
theorem mem_markerFiles_iff {f : Str} : f ∈ markerFiles text ↔ f ∈ pp.reads argv tree := by
  rw [markerFiles, List.mem_eraseDups, List.mem_filterMap]
  constructor
  · rintro ⟨rest, start, found⟩
    have marker : isMarker rest = true := by
      cases marker : isMarker rest with
      | true => rfl
      | false => simp [markerFile, marker] at found
    obtain ⟨name, marks, read | pseudo⟩ := documented.only ran rest start marker
    · rw [markerFile_plain marks (plain name read), Option.some_inj] at found
      exact found ▸ read
    · rw [markerFile_pseudo marks pseudo] at found
      cases found
  · intro read
    obtain ⟨rest, start, marks⟩ := documented.marked ran f read
    exact ⟨rest, start, markerFile_plain marks (plain f read)⟩

end Markers

theorem length_lineStarts (text : Str) : (lineStarts text).length ≤ text.length := by
  have scan : ∀ (text : Str) (start : Bool), (lineStarts.go text start).length ≤ text.length := by
    intro text
    induction text with
    | nil => intro start; simp [lineStarts.go]
    | cons c text ih =>
      intro start
      have := ih (c = '\n')
      cases start <;> simp [lineStarts.go] <;> omega
  exact scan text true

theorem length_eraseDups_le {α : Type} [BEq α] [LawfulBEq α] (l : List α) :
    l.eraseDups.length ≤ l.length := by
  induction n : l.length using Nat.strong_induction_on generalizing l with
  | _ n ih =>
    subst n
    cases l with
    | nil => simp
    | cons a l =>
      have shorter := List.length_filter_le (fun b => !b == a) l
      have := ih _ (by simp; omega) (l.filter fun b => !b == a) rfl
      rw [List.eraseDups_cons, List.length_cons, List.length_cons]
      omega

/-- A text has fewer dependencies than characters. -/
theorem length_markerFiles (text : Str) : (markerFiles text).length ≤ text.length :=
  (length_eraseDups_le _).trans ((List.length_filterMap_le _ _).trans (length_lineStarts text))

/-! ### The condition on the steps -/

/-- Two runs hash the same words into `config`. -/
def SameSetup (m m' : Manifest) (toolchain toolchain' : Str) : Prop :=
  toolchain = toolchain' ∧ m.cc = m'.cc ∧ m.cxx = m'.cxx ∧ m.cflags = m'.cflags

/-- An edit changes no file that a run has read and still has to stamp, and gives no
file the time and size it once had with another content. A run has no blanks in its
sources, and the setup of the saved state where it has its 16 digits. The files that
`gcc -E` reads have plain names. -/
def Careful (H : Sha256) (pp : Preprocessor) (root : Str) (w : World) : Event → Prop
  | .edit tree =>
      (∀ pid p, w.procs pid = some p → ∀ work ∈ p.works, ∀ rest, work.phase = .stamping rest →
        ∀ d ∈ rest, contentAt tree root d = contentAt w.tree root d) ∧
      ∀ earlier ∈ w.past, ∀ path f g, earlier path = some f → tree path = some g →
        f.mtimeNs = g.mtimeNs → f.size = g.size → f.content = g.content
  | .start _ m toolchain =>
      (∀ s ∈ unitSources m, IsWord s) ∧
      ∀ m' toolchain', w.savedBy = some (m', toolchain') →
        stateConfig H m toolchain = stateConfig H m' toolchain' → SameSetup m m' toolchain toolchain'
  | .preprocess pid i => ∀ p work, w.procs pid = some p → p.works[i]? = some work →
      ∀ f ∈ pp.reads (p.argv work.unit.src) w.tree, Plain f
  | _ => True

/-! ### The invariant -/

section Invariant

variable (H : Sha256) (pp : Preprocessor) (root : Str)

/-- The stamp was taken of a file with this content. -/
def Stamped (past : List Tree) (f : FileStamp) (content : Option Str) : Prop :=
  ∃ t ∈ past, stamp t root f.path = some f ∧ contentAt t root f.path = content

/-- What is known of a unit with a key while `rest` is to be stamped: the key belongs
to a tree of the past, and every file read then is stamped with its content of then, or
has it still. -/
structure Backed (past : List Tree) (now : Tree) (cfg : CompileConfig) (u : SourceUnit)
    (rest : List Str) : Prop where
  src : IsWord u.src
  key : IsWord u.key
  digest : IsWord u.digest
  count : u.deps.length + rest.length < 2 ^ 64
  deps : ∀ f ∈ u.deps, f.Savable
  names : ∀ d ∈ rest, Visible d ∧ '\n' ∉ d
  read : ∃ before ∈ past, ∃ text, pp.run (preprocessArgs cfg u.src) before = .ok text ∧
    u.key = compileKey H cfg text ∧ ∀ f ∈ pp.reads (preprocessArgs cfg u.src) before,
      (∃ s ∈ u.deps, s.path = f ∧ Stamped root past s (contentAt before root f)) ∨
        f ∈ rest ∧ contentAt now root f = contentAt before root f

/-- The invariant of a unit that a run works on. -/
def Work.Sound (past : List Tree) (now : Tree) (p : Process) (work : Work) : Prop :=
  IsWord work.unit.src ∧
    match work.phase with
    | .stamping rest => Backed H pp root past now (p.cfg work.unit.src) work.unit rest
    | _ => work.unit.key ≠ [] → Backed H pp root past now (p.cfg work.unit.src) work.unit []

/-- A run: what it has loaded, and its units. -/
structure Process.Sound (past : List Tree) (now : Tree) (p : Process) : Prop where
  old : ∀ src u, p.old src = some u → u.src = src ∧ Backed H pp root past now (p.cfg src) u []
  works : ∀ work ∈ p.works, work.Sound H pp root past now p

/-- The state file is empty or was written by the run on record, from backed units. -/
def FileSound (past : List Tree) (now : Tree) (savedBy : Option (Manifest × Str)) (file : Str) : Prop :=
  file = [] ∨ ∃ m toolchain units, savedBy = some (m, toolchain) ∧
    file = saveState (stateConfig H m toolchain) units ∧
      ∀ u ∈ savedUnits units, Backed H pp root past now (unitConfig m toolchain u.src) u []

structure World.Sound (w : World) : Prop where
  now : w.tree ∈ w.past
  stamps : ∀ t ∈ w.past, ∀ t' ∈ w.past, ∀ path f g, t path = some f → t' path = some g →
    f.mtimeNs = g.mtimeNs → f.size = g.size → f.content = g.content
  file : FileSound H pp root w.past w.tree w.savedBy w.file
  procs : ∀ pid p, w.procs pid = some p → p.Sound H pp root w.past w.tree

end Invariant

section Steps

variable {H : Sha256} {pp : Preprocessor} {root : Str}

theorem Backed.savable {past : List Tree} {now : Tree} {cfg : CompileConfig} {u : SourceUnit}
    (backed : Backed H pp root past now cfg u []) : u.Savable :=
  ⟨backed.src, backed.key, backed.digest, by simpa using backed.count, backed.deps⟩

/-- Time goes on, and the files still to be stamped stay as they are. -/
theorem Backed.later {past past' : List Tree} {now now' : Tree} {cfg : CompileConfig} {u : SourceUnit}
    {rest : List Str} (backed : Backed H pp root past now cfg u rest) (more : past ⊆ past')
    (kept : ∀ d ∈ rest, contentAt now' root d = contentAt now root d) :
    Backed H pp root past' now' cfg u rest := by
  refine { backed with read := ?_ }
  obtain ⟨before, member, text, ran, key, files⟩ := backed.read
  refine ⟨before, more member, text, ran, key, fun f read => ?_⟩
  rcases files f read with ⟨s, stamped, path, t, ht, found, content⟩ | ⟨pending, content⟩
  · exact Or.inl ⟨s, stamped, path, t, more ht, found, content⟩
  · exact Or.inr ⟨pending, (kept f pending).trans content⟩

/-- A tree in which every stamp of a backed unit is still right preprocesses to the
text behind its key. -/
theorem Backed.accepted {w : World} (documented : pp.Documented root) (sound : w.Sound H pp root)
    {cfg : CompileConfig} {u : SourceUnit} (backed : Backed H pp root w.past w.tree cfg u [])
    (valid : stillValid w.tree root u = true) :
    ∃ text, pp.run (preprocessArgs cfg u.src) w.tree = .ok text ∧ u.key = compileKey H cfg text := by
  obtain ⟨before, -, text, ran, key, files⟩ := backed.read
  refine ⟨text, documented.determined ran fun f read => ?_, key⟩
  rcases files f read with ⟨s, member, rfl, t, ht, stamped, content⟩ | ⟨pending, -⟩
  · rw [stillValid, Bool.and_eq_true, List.all_eq_true] at valid
    have same := valid.2 s member
    rw [← content]
    simp only [stamp, contentAt] at same stamped content ⊢
    cases present : w.tree (fullPath root s.path) with
    | none => simp [present] at same
    | some g =>
      cases earlier : t (fullPath root s.path) with
      | none => simp [earlier] at stamped
      | some f =>
        rw [earlier, Option.map_some, Option.some_inj] at stamped
        rw [present] at same
        simp only [Option.map_some, Option.any_some, Bool.and_eq_true, decide_eq_true_eq] at same
        have times : g.mtimeNs = f.mtimeNs := by rw [same.1, ← stamped]
        have sizes : g.size = f.size := by rw [same.2, ← stamped]
        simp [sound.stamps _ sound.now _ ht _ g f present earlier times sizes]
  · simp at pending

/-! ### Steps on one unit -/

/-- Hex digits are no white space. -/
theorem isWord_of_hex {h : Str} (filled : h ≠ [])
    (hex : (h.all fun c => ('0' ≤ c && c ≤ '9') || ('a' ≤ c && c ≤ 'f')) = true) : IsWord h := by
  refine ⟨filled, fun c member => ?_⟩
  have digit := List.all_eq_true.mp hex c member
  cases space : isSpace c with
  | false => rfl
  | true =>
    simp only [isSpace, Bool.or_eq_true, decide_eq_true_eq] at space
    rcases space with ((((rfl | rfl) | rfl) | rfl) | rfl) | rfl
    all_goals exact absurd digit (by decide)

theorem isWord_of_validHash {h : Str} (valid : validHash h = true) : IsWord h := by
  rw [validHash, Bool.and_eq_true] at valid
  refine isWord_of_hex ?_ valid.2
  rintro rfl
  cases valid.1

theorem digest_word (digests : H.Digests) (data : Str) : IsWord (H.hex data) :=
  isWord_of_validHash (digests data)

section Units

variable {w : World} {p : Process} {work work' : Work}

/-- The invariant of a unit outside of the stamping loop. -/
theorem Work.Sound.quiet {past : List Tree} {now : Tree} (sound : work.Sound H pp root past now p)
    (phase : ∀ rest, work.phase ≠ .stamping rest) (keyed : work.unit.key ≠ []) :
    Backed H pp root past now (p.cfg work.unit.src) work.unit [] := by
  obtain ⟨-, backed⟩ := sound
  split at backed
  · rename_i rest stamping
    exact absurd stamping (phase rest)
  · exact backed keyed

theorem checkUnit_sound (running : p.Sound H pp root w.past w.tree)
    (sound : work.Sound H pp root w.past w.tree p) (step : checkUnit w.tree root p work = some work') :
    work'.Sound H pp root w.past w.tree p := by
  unfold checkUnit at step
  split at step
  case isFalse => cases step
  case isTrue unchecked =>
    have due : Work.Sound H pp root w.past w.tree p { work with phase := .due } :=
      ⟨sound.1, sound.quiet (by simp [unchecked])⟩
    split at step
    case h_2 =>
      cases step
      exact due
    case h_1 old found =>
      split at step
      · cases step
        obtain ⟨src, backed⟩ := running.old _ _ found
        refine ⟨sound.1, fun _ => ?_⟩
        exact { backed with src := sound.1, read := src ▸ backed.read }
      · cases step
        exact due

theorem preprocessUnit_sound (documented : pp.Documented root) (digests : H.Digests)
    (now : w.tree ∈ w.past) (plain : ∀ f ∈ pp.reads (p.argv work.unit.src) w.tree, Plain f)
    (sound : work.Sound H pp root w.past w.tree p)
    (step : preprocessUnit H pp w.tree p work = some work') :
    work'.Sound H pp root w.past w.tree p := by
  unfold preprocessUnit at step
  split at step
  case isFalse => cases step
  case isTrue due =>
    split at step
    case h_1 e failed =>
      cases step
      -- the unit keeps the key and the stamps it had
      refine ⟨sound.1, fun keyed => ?_⟩
      have backed := sound.quiet (by simp [due]) keyed
      exact { backed with }
    case h_2 text ran =>
      cases step
      have names : ∀ d ∈ markerFiles text, Plain d := fun d member =>
        plain d ((mem_markerFiles_iff documented ran plain).mp member)
      refine ⟨sound.1, ?_⟩
      exact
        { src := sound.1
          key := digest_word digests _
          digest := digest_word digests _
          count := by
            have := length_markerFiles text
            have := documented.fits ran
            unfold Fits at this
            simp only [List.length_nil]
            omega
          deps := by simp
          names := fun d member => ⟨(names d member).visible, (names d member).newline⟩
          read := ⟨w.tree, now, text, ran, rfl, fun f read =>
            Or.inr ⟨(mem_markerFiles_iff documented ran plain).mpr read, rfl⟩⟩ }

/-- A stamp that is taken, or a file that is dropped from the list because it is
gone; the second does not happen to a file that was read. -/
theorem stampUnit_sound (documented : pp.Documented root) (now : w.tree ∈ w.past)
    (sound : work.Sound H pp root w.past w.tree p) (step : stampUnit w.tree root work = some work') :
    work'.Sound H pp root w.past w.tree p := by
  unfold stampUnit at step
  split at step
  case h_1 d rest stamping =>
    cases step
    refine ⟨sound.1, ?_⟩
    obtain ⟨-, backed⟩ := sound
    rw [stamping] at backed
    have few : (stamp w.tree root d).toList.length ≤ 1 := by cases stamp w.tree root d <;> simp
    refine { backed with count := ?_, deps := ?_, names := ?_, read := ?_ }
    · have := backed.count
      simp only [List.length_cons, List.length_append] at this ⊢
      omega
    · intro f member
      rcases List.mem_append.mp member with old | new
      · exact backed.deps f old
      · rw [Option.mem_toList, stamp, Option.map_eq_some_iff] at new
        obtain ⟨file, -, rfl⟩ := new
        exact ⟨(backed.names d (by simp)).1, (backed.names d (by simp)).2⟩
    · exact fun e member => backed.names e (by simp [member])
    · obtain ⟨before, member, text, ran, key, files⟩ := backed.read
      refine ⟨before, member, text, ran, key, fun f read => ?_⟩
      rcases files f read with ⟨s, old, stamped⟩ | ⟨pending, content⟩
      · exact Or.inl ⟨s, by simp [old], stamped⟩
      · rcases List.mem_cons.mp pending with rfl | later
        · cases present : w.tree (fullPath root f) with
          | none =>
            have gone := documented.exist ran f read
            rw [← content, contentAt, present] at gone
            exact absurd rfl gone
          | some file =>
            refine Or.inl ⟨⟨file.mtimeNs, file.size, f⟩, ?_, rfl, w.tree, now, ?_, content⟩
            · simp [stamp, present]
            · simp [stamp, present]
        · exact Or.inr ⟨later, content⟩
  case h_2 stamping =>
    cases step
    refine ⟨sound.1, fun _ => ?_⟩
    have backed := sound.2
    rw [stamping] at backed
    exact backed
  case h_3 => cases step

theorem redoUnit_sound {past : List Tree} {now : Tree} (sound : work.Sound H pp root past now p)
    (step : redoUnit work = some work') : work'.Sound H pp root past now p := by
  unfold redoUnit at step
  split at step
  case isTrue settled =>
    cases step
    exact ⟨sound.1, sound.quiet (by simp [settled.1])⟩
  case isFalse => cases step

end Units

/-! ### Steps of a run -/

section Runs

variable {w w' : World}

/-- What a step on the variables of one run is. -/
theorem onRun_eq_some {pid : Nat} {act : Process → Option Process} (step : onRun w pid act = some w') :
    ∃ p p', w.procs pid = some p ∧ act p = some p' ∧
      w' = { w with procs := Function.update w.procs pid (some p') } := by
  simp only [onRun, Option.bind_eq_bind, Option.bind_eq_some_iff, Option.some_inj] at step
  obtain ⟨p, running, p', acted, rfl⟩ := step
  exact ⟨p, p', running, acted, rfl⟩

/-- A step that keeps one run sound keeps the world sound. -/
theorem World.Sound.update (sound : w.Sound H pp root) {pid : Nat} {p : Option Process}
    (kept : ∀ q, p = some q → q.Sound H pp root w.past w.tree) :
    World.Sound H pp root { w with procs := Function.update w.procs pid p } := by
  refine { sound with procs := fun other q running => ?_ }
  change Function.update w.procs pid p other = some q at running
  by_cases same : other = pid
  · subst same
    rw [Function.update_self] at running
    exact kept q running
  · rw [Function.update_of_ne same] at running
    exact sound.procs other q running

/-- The same for a step on one unit. -/
theorem onUnit_sound (sound : w.Sound H pp root) {pid i : Nat} {act : Process → Work → Option Work}
    (step : onUnit w pid i act = some w')
    (kept : ∀ p work work', w.procs pid = some p → p.works[i]? = some work → act p work = some work' →
      p.Sound H pp root w.past w.tree → work.Sound H pp root w.past w.tree p →
        work'.Sound H pp root w.past w.tree p) :
    w'.Sound H pp root := by
  obtain ⟨p, p', running, acted, rfl⟩ := onRun_eq_some step
  simp only [Option.bind_eq_bind, Option.bind_eq_some_iff, Option.some_inj] at acted
  obtain ⟨work, at_, work', acted, rfl⟩ := acted
  refine sound.update fun q same => ?_
  cases same
  have before := sound.procs pid p running
  refine ⟨before.old, fun other member => ?_⟩
  rcases List.mem_or_eq_of_mem_set member with old | rfl
  · exact before.works other old
  · exact kept p work other running at_ acted before (before.works work (List.mem_of_getElem? at_))

theorem stateConfig_word (digests : H.Digests) (m : Manifest) (toolchain : Str) :
    IsWord (stateConfig H m toolchain) := by
  refine ⟨?_, fun c member => (digest_word digests _).solid c (List.mem_of_mem_take member)⟩
  rw [stateConfig, Ne, List.take_eq_nil_iff, not_or]
  exact ⟨by decide, (digest_word digests _).filled⟩

/-- Runs with one setup preprocess a source in the same way. -/
theorem SameSetup.unitConfig {m m' : Manifest} {toolchain toolchain' : Str}
    (same : SameSetup m m' toolchain toolchain') (src : Str) :
    unitConfig m toolchain src = unitConfig m' toolchain' src := by
  obtain ⟨rfl, cc, cxx, cflags⟩ := same
  rw [DistCompile.unitConfig, DistCompile.unitConfig, cc, cxx, cflags]

/-- What `load_state` returns. -/
theorem loadState_backed (digests : H.Digests) (sound : w.Sound H pp root) {m : Manifest}
    {toolchain : Str}
    (setup : ∀ m' toolchain', w.savedBy = some (m', toolchain') →
      stateConfig H m toolchain = stateConfig H m' toolchain' → SameSetup m m' toolchain toolchain')
    {src : Str} {u : SourceUnit} (found : loadState w.file (stateConfig H m toolchain) src = some u) :
    u.src = src ∧ Backed H pp root w.past w.tree (unitConfig m toolchain src) u [] := by
  have named : u.src = src := by simpa using List.find?_some found
  refine ⟨named, ?_⟩
  have loaded : u ∈ loadedUnits w.file (stateConfig H m toolchain) := by
    simpa using List.mem_of_find?_eq_some found
  rcases sound.file with empty | ⟨m', toolchain', units, savedBy, file, backed⟩
  · rw [empty] at loaded
    cases loaded
  · rw [file] at loaded
    have word' := stateConfig_word digests m' toolchain'
    by_cases same : stateConfig H m toolchain = stateConfig H m' toolchain'
    · rw [same, loadedUnits_saveState word' fun v hv => (backed v hv).savable] at loaded
      rw [(setup m' toolchain' savedBy same).unitConfig, ← named]
      exact backed u loaded
    · rw [loadedUnits_other word' same] at loaded
      cases loaded

theorem edit_sound (sound : w.Sound H pp root) {tree : Tree} (careful : Careful H pp root w (.edit tree)) :
    World.Sound H pp root { w with tree, past := tree :: w.past } := by
  obtain ⟨kept, apart⟩ := careful
  have more : w.past ⊆ tree :: w.past := List.subset_cons_self tree w.past
  have idle : ∀ {cfg u}, Backed H pp root w.past w.tree cfg u [] →
      Backed H pp root (tree :: w.past) tree cfg u [] := fun backed => backed.later more (by simp)
  refine ⟨by simp, ?_, ?_, fun pid p running => ?_⟩
  · intro t ht t' ht' path f g found found' times sizes
    rcases List.mem_cons.mp ht with rfl | old
    · rcases List.mem_cons.mp ht' with rfl | old'
      · rw [found] at found'
        cases found'
        rfl
      · exact (apart t' old' path g f found' found times.symm sizes.symm).symm
    · rcases List.mem_cons.mp ht' with rfl | old'
      · exact apart t old path f g found found' times sizes
      · exact sound.stamps t old t' old' path f g found found' times sizes
  · rcases sound.file with empty | ⟨m, toolchain, units, savedBy, file, backed⟩
    · exact Or.inl empty
    · exact Or.inr ⟨m, toolchain, units, savedBy, file, fun u hu => idle (backed u hu)⟩
  · have before := sound.procs pid p running
    refine ⟨fun src u found => (before.old src u found).imp_right idle, fun work member => ?_⟩
    obtain ⟨src, backed⟩ := before.works work member
    refine ⟨src, ?_⟩
    split at backed
    · rename_i rest stamping
      exact backed.later more (kept pid p running work member rest stamping)
    · exact fun keyed => idle (backed keyed)

/-- A careful step keeps the invariant. -/
theorem next_sound (documented : pp.Documented root) (digests : H.Digests)
    (sound : w.Sound H pp root) {e : Event} (careful : Careful H pp root w e)
    (step : next H pp root w e = some w') : w'.Sound H pp root := by
  cases e with
  | edit tree =>
    cases step
    exact edit_sound sound careful
  | start pid m toolchain =>
    rw [next] at step
    split at step
    · cases step
      refine sound.update fun q same => ?_
      cases same
      refine ⟨fun src u found => loadState_backed digests sound careful.2 found, fun work member => ?_⟩
      obtain ⟨src, source, rfl⟩ := List.mem_map.mp member
      exact ⟨careful.1 src source, fun keyed => absurd rfl keyed⟩
    · cases step
  | check pid i =>
    exact onUnit_sound sound step fun p work work' _ _ acted running before =>
      checkUnit_sound running before acted
  | preprocess pid i =>
    exact onUnit_sound sound step fun p work work' found at_ acted _ before =>
      preprocessUnit_sound documented digests sound.now (careful p work found at_) before acted
  | stamp pid i =>
    exact onUnit_sound sound step fun p work work' _ _ acted _ before =>
      stampUnit_sound documented sound.now before acted
  | keyed pid =>
    obtain ⟨p, p', running, acted, rfl⟩ := onRun_eq_some step
    refine sound.update fun q same => ?_
    cases same
    split at acted
    · cases acted
      exact { sound.procs pid p running with }
    · cases acted
  | redo pid i =>
    refine onUnit_sound sound step fun p work work' _ _ acted _ before => ?_
    split at acted
    · exact redoUnit_sound before acted
    · cases acted
  | save pid =>
    simp only [next, Option.bind_eq_bind, Option.bind_eq_some_iff] at step
    obtain ⟨p, running, step⟩ := step
    split at step
    case isFalse => cases step
    case isTrue settled =>
      cases step
      simp only [Bool.and_eq_true, List.all_eq_true, decide_eq_true_eq] at settled
      have saved : World.Sound H pp root { w with
          file := saveState (p.config H) p.units
          savedBy := some (p.m, p.toolchain) } := by
        refine { sound with file := Or.inr ⟨p.m, p.toolchain, p.units, rfl, rfl, fun u member => ?_⟩ }
        obtain ⟨unit, saved⟩ := List.mem_filter.mp member
        obtain ⟨work, inside, rfl⟩ := List.mem_map.mp unit
        simp only [Bool.and_eq_true, decide_eq_true_eq] at saved
        exact ((sound.procs pid p running).works work inside).quiet
          (by simp [settled.2 work inside]) saved.2
      exact saved.update fun q same => by cases same
  | quit pid =>
    cases step
    exact sound.update fun q same => by cases same

end Runs

end Steps

/-! ### Soundness -/

/-- The step relation. -/
def Step (H : Sha256) (pp : Preprocessor) (root : Str) (w : World) (e : Event) (w' : World) : Prop :=
  next H pp root w e = some w'

/-- Before the first run. -/
def World.init (tree : Tree) : World := { tree, past := [tree] }

theorem World.init_sound (H : Sha256) (pp : Preprocessor) (root : Str) (tree : Tree) :
    (World.init tree).Sound H pp root := by
  refine ⟨by simp [init], ?_, Or.inl rfl, fun pid p running => by cases running⟩
  intro t ht t' ht' path f g found found' _ _
  rw [List.mem_singleton.mp ht, ← List.mem_singleton.mp ht', found'] at found
  cases found
  rfl

/-- In every careful run: a saved unit that `still_valid` accepts has the key that
preprocessing it would give. -/
theorem skipping_sound {H : Sha256} (digests : H.Digests) {pp : Preprocessor} {root : Str}
    (documented : pp.Documented root) {tree : Tree} {events : List Event} {w : World}
    (run : Runs (Meets (Step H pp root) (Careful H pp root)) (World.init tree) events w) {pid : Nat}
    {p : Process} (running : w.procs pid = some p) {src : Str} {old : SourceUnit}
    (found : p.old src = some old) (valid : stillValid w.tree root old = true) :
    ∃ text, pp.run (p.argv src) w.tree = .ok text ∧ old.key = p.key H src text := by
  have sound : w.Sound H pp root := run.invariant (World.init_sound H pp root tree) fun step sound =>
    next_sound documented digests sound step.1 step.2
  obtain ⟨named, backed⟩ := (sound.procs pid p running).old src old found
  subst named
  exact backed.accepted documented sound valid

/-! ### A sample project -/

/-- The one source. -/
def sampleSource : Str := "f.c".toList

def sampleMarker : Str := "# 1 \"f.c\"".toList

/-- The output for a content: a marker, then the content without directives. -/
def sampleText (content : Str) : Str := sampleMarker ++ '\n' :: content.filter fun c => c ≠ '#'

/-- A preprocessor that reads `f.c` and includes nothing. -/
def samplePreprocessor (root : Str) : Preprocessor where
  run _ tree :=
    match contentAt tree root sampleSource with
    | some content => if Fits (sampleText content) then .ok (sampleText content) else .error []
    | none => .error []
  reads _ _ := [sampleSource]

theorem samplePreprocessor_ok {root : Str} {argv : List Str} {tree : Tree} {text : Str}
    (ran : (samplePreprocessor root).run argv tree = .ok text) :
    ∃ content, contentAt tree root sampleSource = some content ∧ Fits text ∧ text = sampleText content := by
  simp only [samplePreprocessor] at ran
  split at ran
  · rename_i content found
    split at ran
    · rename_i fits
      cases ran
      exact ⟨content, found, fits, rfl⟩
    · cases ran
  · cases ran

/-- A start of a line is an end of the text. -/
theorem suffix_of_mem_lineStarts {text rest : Str} (member : rest ∈ lineStarts text) : rest <:+ text := by
  have scan : ∀ (text : Str) (start : Bool), rest ∈ lineStarts.go text start → rest <:+ text := by
    intro text
    induction text with
    | nil => intro start member; simp [lineStarts.go] at member
    | cons c text ih =>
      intro start member
      rw [lineStarts.go, List.mem_append] at member
      rcases member with here | later
      · cases start with
        | true => simp at here; simp [here]
        | false => simp at here
      · exact (ih _ later).trans (List.suffix_cons c text)
  exact scan text true member

theorem sampleText_marks (content : Str) : Marks (sampleText content) sampleSource :=
  ⟨['1'], '\n' :: content.filter fun c => c ≠ '#', by decide, by decide, rfl⟩

theorem samplePreprocessor_documented (root : Str) : (samplePreprocessor root).Documented root := by
  have starts : ∀ content, lineStarts (sampleText content) =
      sampleText content :: lineStarts (content.filter fun c => c ≠ '#') := fun content =>
    lineStarts_next (by decide)
  refine ⟨fun {argv tree tree' text} ran kept => ?_, fun {argv tree text} ran f read => ?_,
    fun {argv tree text} ran f read => ?_, fun {argv tree text} ran rest start marker => ?_,
    fun {argv tree text} ran => ?_⟩
  · have same := kept sampleSource (by simp [samplePreprocessor])
    simp only [samplePreprocessor, same]
    exact ran
  · obtain ⟨content, found, -⟩ := samplePreprocessor_ok ran
    rw [List.mem_singleton.mp read, found]
    simp
  · obtain ⟨content, -, -, rfl⟩ := samplePreprocessor_ok ran
    exact ⟨sampleText content, by simp [starts], List.mem_singleton.mp read ▸ sampleText_marks content⟩
  · obtain ⟨content, -, -, rfl⟩ := samplePreprocessor_ok ran
    rw [starts] at start
    rcases List.mem_cons.mp start with rfl | later
    · exact ⟨sampleSource, sampleText_marks content, Or.inl (by simp [samplePreprocessor])⟩
    · -- nothing else in the text looks like a marker
      have hash : '#' ∈ rest := by
        unfold isMarker at marker
        split at marker
        · simp
        · cases marker
      exact absurd ((suffix_of_mem_lineStarts later).subset hash) (by simp)
  · obtain ⟨-, -, fits, -⟩ := samplePreprocessor_ok ran
    exact fits

def sampleRoot : Str := ".".toList

/-- A library of the one source. -/
def sampleManifest : Manifest := { targets := [{ isLib := true, name := "x".toList, sources := [sampleSource] }] }

/-- The tree that holds `f.c` with this content and time. -/
def sampleTree (content : Str) (mtimeNs : Int64) : Tree := fun path =>
  if path = fullPath sampleRoot sampleSource then some ⟨content, mtimeNs, 1⟩ else none

/-- A run of `dcc` up to the stamps. -/
def sampleRun (pid : Nat) : List Event :=
  [.start pid sampleManifest [], .check pid 0, .preprocess pid 0]

/-- The rest of it. -/
def sampleEnd (pid : Nat) : List Event := [.stamp pid 0, .stamp pid 0, .keyed pid, .save pid]

/-- The step function of the sample. -/
def sampleNext : World → Event → Option World := next Sha256.coarse (samplePreprocessor sampleRoot) sampleRoot

/-- The second run has loaded a unit that `still_valid` accepts, with this key now or another. -/
def accepts (right : Bool) (w : World) : Bool :=
  (w.procs 1).any fun p => (p.old sampleSource).any fun old => stillValid w.tree sampleRoot old &&
    match (samplePreprocessor sampleRoot).run (p.argv sampleSource) w.tree with
    | .ok text => decide (old.key = p.key Sha256.coarse sampleSource text) == right
    | .error _ => !right

/-- The source is edited between `gcc -E` and its stamp; a second run starts. -/
def editedRun : List Event :=
  sampleRun 0 ++ .edit (sampleTree ['B'] 2) :: sampleEnd 0 ++ [.start 1 sampleManifest []]

theorem editedRun_accepts :
    (editedRun.foldlM sampleNext (World.init (sampleTree ['A'] 1))).any (accepts false) = true := by
  decide +kernel

/-- The edit changes the time of the file, the second run accepts the unit all the
same, and the key is that of the content before the edit. -/
theorem edited_before_stamp :
    (samplePreprocessor sampleRoot).Documented sampleRoot ∧ Sha256.coarse.Digests ∧
    stamp (sampleTree ['A'] 1) sampleRoot sampleSource ≠ stamp (sampleTree ['B'] 2) sampleRoot sampleSource ∧
    ∃ w p old, Runs (Step Sha256.coarse (samplePreprocessor sampleRoot) sampleRoot)
        (World.init (sampleTree ['A'] 1)) editedRun w ∧
      w.procs 1 = some p ∧ p.old sampleSource = some old ∧ stillValid w.tree sampleRoot old = true ∧
      ¬ ∃ text, (samplePreprocessor sampleRoot).run (p.argv sampleSource) w.tree = .ok text ∧
        old.key = p.key Sha256.coarse sampleSource text := by
  refine ⟨samplePreprocessor_documented _, Sha256.coarse_digests, by decide, ?_⟩
  obtain ⟨w, reached, accepted⟩ := (Option.any_eq_true _ _).mp editedRun_accepts
  obtain ⟨p, running, accepted⟩ := (Option.any_eq_true _ _).mp accepted
  obtain ⟨old, found, accepted⟩ := (Option.any_eq_true _ _).mp accepted
  rw [Bool.and_eq_true] at accepted
  refine ⟨w, p, old, Runs.of_foldlM reached, running, found, accepted.1, ?_⟩
  rintro ⟨text, ran, key⟩
  have wrong := accepted.2
  rw [ran] at wrong
  simp [key] at wrong

/-- The first run of the sample, begun. -/
def sampleBegun : World := (sampleNext (World.init (sampleTree ['A'] 1)) (.start 0 sampleManifest [])).getD
  (World.init (sampleTree ['A'] 1))

/-- What is left of it. -/
def sampleMiddle : List Event := (sampleRun 0).tail ++ sampleEnd 0

theorem sampleMiddle_saves :
    (sampleMiddle.foldlM sampleNext sampleBegun).any (fun w => decide (w.savedBy = some (sampleManifest, [])) &&
      (sampleNext w (.start 1 sampleManifest [])).any (accepts true)) = true := by
  decide +kernel

/-- Without the edit the second run may skip the preprocessor. -/
theorem skipping_sound_unedited :
    ∃ w p old, Runs (Meets (Step Sha256.coarse (samplePreprocessor sampleRoot) sampleRoot)
        (Careful Sha256.coarse (samplePreprocessor sampleRoot) sampleRoot)) (World.init (sampleTree ['A'] 1))
        ([.start 0 sampleManifest []] ++ sampleMiddle ++ [.start 1 sampleManifest []]) w ∧
      w.procs 1 = some p ∧ p.old sampleSource = some old ∧ stillValid w.tree sampleRoot old = true ∧
      ∃ text, (samplePreprocessor sampleRoot).run (p.argv sampleSource) w.tree = .ok text ∧
        old.key = p.key Sha256.coarse sampleSource text := by
  have sources : ∀ s ∈ unitSources sampleManifest, IsWord s := by
    have all : ∀ s ∈ unitSources sampleManifest, s ≠ [] ∧ ∀ c ∈ s, isSpace c = false := by decide
    exact fun s member => ⟨(all s member).1, (all s member).2⟩
  have plain : Plain sampleSource := ⟨⟨'f', ".c".toList, rfl, by decide⟩, by decide, by decide, by decide, by decide⟩
  obtain ⟨w, reached, saved⟩ := (Option.any_eq_true _ _).mp sampleMiddle_saves
  rw [Bool.and_eq_true, decide_eq_true_eq] at saved
  obtain ⟨w', begun, accepted⟩ := (Option.any_eq_true _ _).mp saved.2
  obtain ⟨p, running, accepted⟩ := (Option.any_eq_true _ _).mp accepted
  obtain ⟨old, found, accepted⟩ := (Option.any_eq_true _ _).mp accepted
  rw [Bool.and_eq_true] at accepted
  have first : Runs (Meets (Step Sha256.coarse (samplePreprocessor sampleRoot) sampleRoot)
      (Careful Sha256.coarse (samplePreprocessor sampleRoot) sampleRoot)) (World.init (sampleTree ['A'] 1))
      [.start 0 sampleManifest []] sampleBegun :=
    .snoc .nil ⟨⟨sources, fun m' toolchain' saved => by cases saved⟩, rfl⟩
  have each : ∀ e ∈ sampleMiddle, ∀ w, Careful Sha256.coarse (samplePreprocessor sampleRoot) sampleRoot w e := by
    intro e member w
    simp only [sampleMiddle, sampleRun, sampleEnd, List.tail_cons, List.cons_append, List.nil_append,
      List.mem_cons, List.not_mem_nil, or_false] at member
    rcases member with rfl | rfl | rfl | rfl | rfl | rfl
    · trivial
    · exact fun p work _ _ f read => List.mem_singleton.mp read ▸ plain
    all_goals trivial
  have middle : Runs (Meets (Step Sha256.coarse (samplePreprocessor sampleRoot) sampleRoot)
      (Careful Sha256.coarse (samplePreprocessor sampleRoot) sampleRoot)) sampleBegun sampleMiddle w :=
    ((Runs.of_foldlM reached).meets each).mono fun step => ⟨step.1 _, step.2⟩
  have last : Careful Sha256.coarse (samplePreprocessor sampleRoot) sampleRoot w (.start 1 sampleManifest []) := by
    refine ⟨sources, fun m' toolchain' savedBy _ => ?_⟩
    rw [saved.1] at savedBy
    cases savedBy
    exact ⟨rfl, rfl, rfl, rfl⟩
  have run := Runs.snoc (first.trans middle) ⟨last, begun⟩
  exact ⟨w', p, old, run, running, found, accepted.1,
    skipping_sound Sha256.coarse_digests (samplePreprocessor_documented _) run running found accepted.1⟩

end DistCompile.Incremental
