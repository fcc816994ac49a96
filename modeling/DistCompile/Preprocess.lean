import DistCompile.Manifest

/-!
Compile configurations and the keys of compile tasks (`src/preprocess.h`,
`src/preprocess.cpp`).

`make_config` sorts the flags of a manifest into those of the preprocessor and
those that reach the worker. `compile_key` hashes the toolchain, the language, the
second group and the preprocessed text, which for C without `-g` is stripped of
line markers and blank lines. The scans of a text step from line to line (`b` to
`e + 1`) but search from `b` to the end of the text, as here (`lineStarts`).
-/

namespace DistCompile

/-! ### Configurations -/

structure CompileConfig where
  driver : Str
  lang : Str
  toolchain : Str
  ppFlags : List Str := []
  ccFlags : List Str := []
  debug : Bool := false
deriving DecidableEq, Repr

/-- A flag of the preprocessor. -/
def ppFlag (f : Str) : Bool :=
  "-I".toList.isPrefixOf f || "-D".toList.isPrefixOf f || "-U".toList.isPrefixOf f ||
    f = "-include".toList || f = "-isystem".toList || f = "-iquote".toList

/-- The next word belongs to the flag. -/
def takesWord (f : Str) : Bool :=
  f = "-I".toList || f = "-D".toList || f = "-U".toList ||
    f = "-include".toList || f = "-isystem".toList || f = "-iquote".toList

/-- A flag that puts line numbers into the object. -/
def debugFlag (f : Str) : Bool := "-g".toList.isPrefixOf f && f ≠ "-g0".toList

/-- The loop of `make_config`. -/
def sortFlags : List Str → CompileConfig → CompileConfig
  | [], c => c
  | [f], c =>
      if ppFlag f then { c with ppFlags := c.ppFlags ++ [f] }
      else { c with ccFlags := c.ccFlags ++ [f], debug := c.debug || debugFlag f }
  | f :: word :: rest, c =>
      if ppFlag f then
        if takesWord f then sortFlags rest { c with ppFlags := c.ppFlags ++ [f, word] }
        else sortFlags (word :: rest) { c with ppFlags := c.ppFlags ++ [f] }
      else sortFlags (word :: rest)
        { c with ccFlags := c.ccFlags ++ [f], debug := c.debug || debugFlag f }

def makeConfig (driver lang toolchain : Str) (cflags : List Str) : CompileConfig :=
  sortFlags cflags { driver, lang, toolchain }

/-- What the loop keeps of a configuration and how it fills it. -/
structure Sorted (flags : List Str) (before after : CompileConfig) : Prop where
  driver : after.driver = before.driver
  lang : after.lang = before.lang
  toolchain : after.toolchain = before.toolchain
  debug : before.debug = before.ccFlags.any debugFlag → after.debug = after.ccFlags.any debugFlag
  from_ : ∀ f ∈ after.ccFlags, f ∈ before.ccFlags ∨ f ∈ flags

theorem sortFlags_sorted (flags : List Str) (c : CompileConfig) : Sorted flags c (sortFlags flags c) := by
  induction flags, c using sortFlags.induct with
  | case1 c => exact ⟨rfl, rfl, rfl, id, fun f member => Or.inl member⟩
  | case2 f c pp =>
    rw [sortFlags, if_pos pp]
    exact ⟨rfl, rfl, rfl, id, fun g member => Or.inl member⟩
  | case3 f c pp =>
    rw [sortFlags, if_neg pp]
    refine ⟨rfl, rfl, rfl, fun holds => ?_, fun g member => ?_⟩
    · simp [holds]
    · simpa using member
  | case4 f word rest c pp takes ih =>
    rw [sortFlags, if_pos pp, if_pos takes]
    refine ⟨ih.driver, ih.lang, ih.toolchain, ih.debug, fun g member => ?_⟩
    exact (ih.from_ g member).imp_right fun later => by simp [later]
  | case5 f word rest c pp takes ih =>
    rw [sortFlags, if_pos pp, if_neg takes]
    refine ⟨ih.driver, ih.lang, ih.toolchain, ih.debug, fun g member => ?_⟩
    exact (ih.from_ g member).imp_right fun later => List.mem_cons_of_mem f later
  | case6 f word rest c pp ih =>
    rw [sortFlags, if_neg pp]
    refine ⟨ih.driver, ih.lang, ih.toolchain, fun holds => ih.debug ?_, fun g member => ?_⟩
    · simp [holds]
    · rcases ih.from_ g member with old | later
      · rcases List.mem_append.mp old with old | new
        · exact Or.inl old
        · simp [List.mem_singleton.mp new]
      · exact Or.inr (List.mem_cons_of_mem f later)

section Config

variable (driver lang toolchain : Str) (cflags : List Str)

@[simp] theorem makeConfig_driver : (makeConfig driver lang toolchain cflags).driver = driver :=
  (sortFlags_sorted cflags _).driver

@[simp] theorem makeConfig_lang : (makeConfig driver lang toolchain cflags).lang = lang :=
  (sortFlags_sorted cflags _).lang

@[simp] theorem makeConfig_toolchain : (makeConfig driver lang toolchain cflags).toolchain = toolchain :=
  (sortFlags_sorted cflags _).toolchain

/-- Whether the object holds line numbers is read off the flags that reach the worker. -/
theorem makeConfig_debug : (makeConfig driver lang toolchain cflags).debug =
    (makeConfig driver lang toolchain cflags).ccFlags.any debugFlag :=
  (sortFlags_sorted cflags _).debug rfl

theorem mem_makeConfig_ccFlags {f : Str} (member : f ∈ (makeConfig driver lang toolchain cflags).ccFlags) :
    f ∈ cflags :=
  ((sortFlags_sorted cflags _).from_ f member).resolve_left (by simp)

end Config

/-! ### Line markers -/

/-- What the scanning loops see at each `b`: the text from the start of a line on. -/
def lineStarts (text : Str) : List Str := go text true
where
  go : Str → Bool → List Str
    | [], _ => []
    | c :: rest, start => (if start then [c :: rest] else []) ++ go rest (c = '\n')

/-- The starts of lines behind a first line. -/
theorem lineStarts_next {line rest : Str} (newline : '\n' ∉ line) :
    lineStarts (line ++ '\n' :: rest) = (line ++ '\n' :: rest) :: lineStarts rest := by
  have skip : ∀ line : Str, '\n' ∉ line → lineStarts.go (line ++ '\n' :: rest) false = lineStarts rest := by
    intro line newline
    induction line with
    | nil => rfl
    | cons c line ih =>
      simp only [List.mem_cons, not_or] at newline
      simp [lineStarts.go, Ne.symm newline.1, ih newline.2]
  cases line with
  | nil => rfl
  | cons c line =>
    simp only [List.mem_cons, not_or] at newline
    simp [lineStarts, lineStarts.go, Ne.symm newline.1, skip line newline.2]

/-- The line at `b`, up to `e`. -/
def lineAt (rest : Str) : Str := rest.takeWhile fun c => c ≠ '\n'

/-- `is_marker(text, b)`. -/
def isMarker : Str → Bool
  | '#' :: ' ' :: d :: _ => '0' ≤ d && d ≤ '9'
  | _ => false

/-- `text.find_first_not_of(" \t\r", b) >= e`. -/
def blankLine (rest : Str) : Bool :=
  (lineAt rest).length ≤ (rest.takeWhile fun c => c = ' ' || c = '\t' || c = '\r').length

/-- `strip_line_markers`. -/
def stripLineMarkers (text : Str) : Str :=
  (lineStarts text).flatMap fun rest =>
    if !isMarker rest && !blankLine rest then lineAt rest ++ ['\n'] else []

/-- The text between the next two quotes, if both are on the line. -/
def quotedPart (rest : Str) : Option Str :=
  let q1 := rest.idxOf '"'
  let q2 := q1 + 1 + (rest.drop (q1 + 1)).idxOf '"'
  if q2 < (lineAt rest).length then some ((rest.drop (q1 + 1)).take (q2 - q1 - 1)) else none

/-- The file that a marker at `b` names. -/
def markerFile (rest : Str) : Option Str :=
  if isMarker rest then (quotedPart rest).filter fun f => f ≠ [] && f.head? ≠ some '<' else none

/-- `marker_files`: each file once, in the order of the text. -/
def markerFiles (text : Str) : List Str := ((lineStarts text).filterMap markerFile).eraseDups

/-! ### Keys -/

/-- The text that goes into the key. -/
def keyText (cfg : CompileConfig) (text : Str) : Str :=
  if !cfg.debug && cfg.lang = "c".toList then stripLineMarkers text else text

/-- The parts that `compile_key` hashes. -/
def compileParts (cfg : CompileConfig) (text : Str) : List Str :=
  ["dc-compile-v1".toList, cfg.toolchain, cfg.lang, writeLines cfg.ccFlags, keyText cfg text]

/-- `compile_key`. -/
def compileKey (H : Sha256) (cfg : CompileConfig) (text : Str) : Str :=
  sha256HexParts H (compileParts cfg text)

end DistCompile
