import DistCompile.RawStrings

/-!
What the normalised text and the compile key depend on (`src/preprocess.cpp`).

A text is its lines: `strip_line_markers` keeps those that are neither a line marker nor blank, so
any number of such lines may come or go between two lines. The key of a C unit without `-g`
depends on the kept lines only, that of any other unit on the exact text; the flags of the
preprocessor are in neither.
-/

namespace DistCompile

/-! ### Lines that do not count -/

/-- `# <digit>...`. -/
def IsMarkerLine (line : Str) : Prop := ∃ d more, line = '#' :: ' ' :: d :: more ∧ '0' ≤ d ∧ d ≤ '9'

/-- No character other than space, tab and carriage return. -/
def IsBlankLine (line : Str) : Prop := ∀ c ∈ line, c = ' ' ∨ c = '\t' ∨ c = '\r'

/-- A marker or a blank line. -/
structure Dropped (line : Str) : Prop where
  newline : '\n' ∉ line
  uncounted : IsMarkerLine line ∨ IsBlankLine line

/-- The place between two lines, or in front of the first. -/
def AtLineStart (front : Str) : Prop := front = [] ∨ ∃ text, front = text ++ ['\n']

/-- The language and the flags of a unit whose key is made from the normalised text. -/
def CompileConfig.Normalised (cfg : CompileConfig) : Prop := cfg.lang = "c".toList ∧ cfg.debug = false

section Kept

variable {text line : Str}

theorem isBlank_iff : isBlank line = true ↔ IsBlankLine line := by
  simp [isBlank, IsBlankLine, or_assoc]

theorem keptLine_iff : keptLine line = true ↔ ¬ IsMarkerLine line ∧ ¬ IsBlankLine line := by
  rw [keptLine, Bool.and_eq_true, Bool.not_eq_true', Bool.not_eq_true', ← Bool.not_eq_true, ← Bool.not_eq_true,
    isBlank_iff, isMarker_iff]
  rfl

theorem Dropped.keptLine (dropped : Dropped line) : keptLine line = false := by
  rw [← Bool.not_eq_true, keptLine_iff]
  exact fun kept => dropped.uncounted.elim kept.1 kept.2

/-- It is the same whether the end of the text counts as a line or not. -/
theorem keptLines_eq_getLines (text : Str) : keptLines text = (getLines text).filter keptLine := by
  rw [keptLines, getLines]
  split
  · rename_i ended
    obtain ⟨front, split⟩ := List.getLast?_eq_some_iff.mp ended
    rw [split, List.dropLast_concat, List.filter_append]
    simp [keptLine, isBlank]
  · rfl

theorem keptLines_append (a b : Str) : keptLines (a ++ '\n' :: b) = keptLines a ++ keptLines b := by
  rw [keptLines, List.splitOn_append_cons_self, List.filter_append]
  rfl

theorem keptLines_dropped {lines : List Str} (dropped : ∀ l ∈ lines, Dropped l) (b : Str) :
    keptLines (writeLines lines ++ b) = keptLines b := by
  induction lines with
  | nil => rfl
  | cons line lines ih =>
    have own := dropped line List.mem_cons_self
    have alone : keptLines line = [] := by
      rw [keptLines, List.splitOn_eq_singleton own.newline]
      simp [own.keptLine]
    have split : writeLines (line :: lines) ++ b = line ++ '\n' :: (writeLines lines ++ b) := by simp [writeLines]
    rw [split, keptLines_append, alone, List.nil_append, ih fun l hl => dropped l (List.mem_cons_of_mem _ hl)]

theorem keptLines_writeLines {lines : List Str} (newline : ∀ l ∈ lines, '\n' ∉ l) :
    keptLines (writeLines lines) = lines.filter keptLine := by
  rw [keptLines_eq_getLines, getLines_writeLines newline]

/-- Normalising again changes nothing. -/
theorem stripLineMarkers_idem (text : Str) : stripLineMarkers (stripLineMarkers text) = stripLineMarkers text := by
  have newline : ∀ l ∈ keptLines text, '\n' ∉ l := fun l member => splitOn_newline (List.mem_of_mem_filter member)
  rw [stripLineMarkers_eq text, stripLineMarkers_eq, keptLines_writeLines newline, keptLines, List.filter_filter]
  simp

/-- Lines that do not count may come or go between two lines. -/
theorem stripLineMarkers_insert {a : Str} (start : AtLineStart a) (b : Str) {lines : List Str}
    (dropped : ∀ l ∈ lines, Dropped l) : stripLineMarkers (a ++ writeLines lines ++ b) = stripLineMarkers (a ++ b) := by
  rw [stripLineMarkers_eq, stripLineMarkers_eq]
  rcases start with rfl | ⟨text, rfl⟩
  · rw [List.nil_append, keptLines_dropped dropped, List.nil_append]
  · rw [List.append_assoc, List.append_assoc, List.append_assoc, List.singleton_append, List.singleton_append,
      keptLines_append, keptLines_append, keptLines_dropped dropped]

/-- The same in terms of the lines, with or without a final newline. -/
theorem stripLineMarkers_lines {text text' : Str} {pre lines post : List Str}
    (before : getLines text = pre ++ post) (after : getLines text' = pre ++ lines ++ post)
    (dropped : ∀ l ∈ lines, Dropped l) : stripLineMarkers text' = stripLineMarkers text := by
  have none_ : lines.filter keptLine = [] := List.filter_eq_nil_iff.mpr fun l hl => by simp [(dropped l hl).keptLine]
  rw [stripLineMarkers_eq, stripLineMarkers_eq, keptLines_eq_getLines, keptLines_eq_getLines, before, after]
  simp [none_]

end Kept

/-! ### Keys -/

/-- No flag holds a newline, and what is hashed are strings. -/
structure Hashable (cfg : CompileConfig) (text : Str) : Prop where
  flags : ∀ f ∈ cfg.ccFlags, '\n' ∉ f
  fits : ∀ part ∈ compileParts cfg text, Fits part

section Keys

variable {H : Sha256} {cfg cfg' : CompileConfig} {text text' : Str}

theorem compileKey_iff (free : H.CollisionFree) (hashable : Hashable cfg text) (hashable' : Hashable cfg' text') :
    compileKey H cfg text = compileKey H cfg' text' ↔ SameParts cfg cfg' text text' :=
  compileKey_eq_iff free hashable.flags hashable'.flags hashable.fits hashable'.fits

theorem keyText_normalised (normalised : cfg.Normalised) : keyText cfg text = stripLineMarkers text := by
  rw [keyText, if_pos (by simp [normalised.1, normalised.2])]

theorem keyText_exact (exact_ : ¬ cfg.Normalised) : keyText cfg text = text := by
  rw [keyText, if_neg]
  intro stripped
  simp only [Bool.and_eq_true, Bool.not_eq_true', decide_eq_true_eq] at stripped
  exact exact_ ⟨stripped.2, stripped.1⟩

/-- The key of a C unit without `-g` is its toolchain, flags and kept lines. -/
theorem compileKey_normalised_iff (free : H.CollisionFree) (hashable : Hashable cfg text)
    (hashable' : Hashable cfg' text') (normalised : cfg.Normalised) (normalised' : cfg'.Normalised) :
    compileKey H cfg text = compileKey H cfg' text' ↔
      cfg.toolchain = cfg'.toolchain ∧ cfg.ccFlags = cfg'.ccFlags ∧ keptLines text = keptLines text' := by
  rw [compileKey_iff free hashable hashable']
  constructor
  · intro same
    have key := same.text
    rw [keyText_normalised normalised, keyText_normalised normalised'] at key
    exact ⟨same.toolchain, same.flags, keptLines_eq_iff.mp key⟩
  · rintro ⟨toolchain, flags, kept⟩
    refine ⟨toolchain, normalised.1.trans normalised'.1.symm, flags, ?_⟩
    rw [keyText_normalised normalised, keyText_normalised normalised']
    exact keptLines_eq_iff.mpr kept

/-- The key of any other unit is its toolchain, language, flags and text. -/
theorem compileKey_exact_iff (free : H.CollisionFree) (hashable : Hashable cfg text)
    (hashable' : Hashable cfg' text') (exact_ : ¬ cfg.Normalised) (exact' : ¬ cfg'.Normalised) :
    compileKey H cfg text = compileKey H cfg' text' ↔
      cfg.toolchain = cfg'.toolchain ∧ cfg.lang = cfg'.lang ∧ cfg.ccFlags = cfg'.ccFlags ∧ text = text' := by
  rw [compileKey_iff free hashable hashable']
  constructor
  · intro same
    have key := same.text
    rw [keyText_exact exact_, keyText_exact exact'] at key
    exact ⟨same.toolchain, same.lang, same.flags, key⟩
  · rintro ⟨toolchain, lang, flags, rfl⟩
    refine ⟨toolchain, lang, flags, ?_⟩
    rw [keyText_exact exact_, keyText_exact exact']

end Keys

/-- Normalising drops exactly the markers and the blank lines, wherever they are, and the keys see
the kept lines of a C unit without `-g` and the exact text of all others. -/
theorem normalisation_exact {H : Sha256} (free : H.CollisionFree) :
    (∀ text, stripLineMarkers text = writeLines ((getLines text).filter keptLine)) ∧
      (∀ line, keptLine line = true ↔ ¬ IsMarkerLine line ∧ ∃ c ∈ line, c ≠ ' ' ∧ c ≠ '\t' ∧ c ≠ '\r') ∧
      (∀ text, stripLineMarkers (stripLineMarkers text) = stripLineMarkers text) ∧
      (∀ a b lines, AtLineStart a → (∀ l ∈ lines, Dropped l) →
        stripLineMarkers (a ++ writeLines lines ++ b) = stripLineMarkers (a ++ b)) ∧
      (∀ text text' pre lines post, getLines text = pre ++ post → getLines text' = pre ++ lines ++ post →
        (∀ l ∈ lines, Dropped l) → stripLineMarkers text' = stripLineMarkers text) ∧
      ∀ cfg cfg' text text', Hashable cfg text → Hashable cfg' text' →
        (cfg.lang = "c".toList ∧ cfg.debug = false → cfg'.lang = "c".toList ∧ cfg'.debug = false →
          (compileKey H cfg text = compileKey H cfg' text' ↔ cfg.toolchain = cfg'.toolchain ∧
            cfg.ccFlags = cfg'.ccFlags ∧
              (getLines text).filter keptLine = (getLines text').filter keptLine)) ∧
        (cfg.lang = "c++".toList ∨ cfg.debug = true → cfg'.lang = "c++".toList ∨ cfg'.debug = true →
          (compileKey H cfg text = compileKey H cfg' text' ↔ cfg.toolchain = cfg'.toolchain ∧
            cfg.lang = cfg'.lang ∧ cfg.ccFlags = cfg'.ccFlags ∧ text = text')) := by
  have other : ∀ {cfg : CompileConfig}, cfg.lang = "c++".toList ∨ cfg.debug = true → ¬ cfg.Normalised := by
    rintro cfg (lang | debug) ⟨c, plain⟩
    · rw [lang] at c
      exact absurd c (by decide)
    · rw [debug] at plain
      cases plain
  refine ⟨fun text => ?_, fun line => ?_, stripLineMarkers_idem, fun a b lines start => stripLineMarkers_insert start b,
    fun text text' pre lines post => stripLineMarkers_lines, fun cfg cfg' text text' hashable hashable' => ⟨?_, ?_⟩⟩
  · rw [stripLineMarkers_eq, keptLines_eq_getLines]
  · rw [keptLine_iff]
    simp [IsBlankLine]
  · intro normalised normalised'
    rw [← keptLines_eq_getLines, ← keptLines_eq_getLines]
    exact compileKey_normalised_iff free hashable hashable' normalised normalised'
  · exact fun exact_ exact' => compileKey_exact_iff free hashable hashable' (other exact_) (other exact')

/-- Two includes of one header, from two directories. -/
def headerConfig (dir : Str) : CompileConfig :=
  makeConfig "gcc".toList "c".toList keyToolchain ["-I".toList ++ dir, "-O2".toList]

theorem normalisation_exact_headers :
    compileKey keySha (headerConfig "a".toList) (markedText "a/h.h".toList) =
      compileKey keySha (headerConfig "b".toList) ("\n".toList ++ markedText "b/h.h".toList) := by
  obtain ⟨-, -, -, -, -, keys⟩ := normalisation_exact keySha_free
  refine ((keys (headerConfig "a".toList) (headerConfig "b".toList) (markedText "a/h.h".toList)
    ("\n".toList ++ markedText "b/h.h".toList) ⟨?_, ?_⟩ ⟨?_, ?_⟩).1 ?_ ?_).mpr ?_
  all_goals decide +kernel

end DistCompile
