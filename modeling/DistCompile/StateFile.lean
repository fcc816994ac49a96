import DistCompile.Manifest

/-!
The state file of the client (`.dcstate`): `save_state` and `load_state` in
`src/dcc.cpp`.

The file is written with stream insertions and read back with extractions, which
skip white space, stop at the next, and leave their variable alone once the stream
has failed. `Stream` is what of an `std::istream` the loader uses. A unit whose
paths hold no white space where an extraction would stop reads back as it was
written (`loadState_saveState`).
-/

namespace DistCompile

/-! ### Extractions -/

/-- An input stream: what is left to read, and `failbit`. -/
structure Stream where
  rest : Str
  fail : Bool := false
deriving DecidableEq, Repr

namespace Stream

/-- What is left after `std::ws`. -/
def skip (s : Stream) : Str := s.rest.dropWhile isSpace

/-- Nothing can be extracted: the stream has failed, or is at its end. -/
def stuck (s : Stream) : Bool := s.fail || s.skip = []

/-- `in >> word`, for a variable that is still empty. -/
def word (s : Stream) : Str × Stream :=
  if s.stuck then ([], ⟨s.skip, true⟩)
  else (s.skip.takeWhile fun c => !isSpace c, ⟨s.skip.dropWhile fun c => !isSpace c, false⟩)

/-- The sign of a number and what follows it. -/
def sign : Str → Bool × Str
  | '-' :: rest => (true, rest)
  | '+' :: rest => (false, rest)
  | rest => (false, rest)

/-- The digits at the front, as a number. -/
def digitsValue (s : Str) : Nat := Nat.ofDigitChars 10 (s.takeWhile Char.isDigit) 0

/-- `in >> n` for an `int64_t` that holds `old`. -/
def int64 (s : Stream) (old : Int64) : Int64 × Stream :=
  if s.stuck then (old, ⟨s.skip, true⟩)
  else
    let (negative, number) := sign s.skip
    let after := number.dropWhile Char.isDigit
    let n : Int := if negative then -(digitsValue number) else digitsValue number
    if number.takeWhile Char.isDigit = [] then (0, ⟨after, true⟩)
    else if n < -2 ^ 63 then (Int64.minValue, ⟨after, true⟩)
    else if 2 ^ 63 ≤ n then (Int64.maxValue, ⟨after, true⟩)
    else (Int64.ofInt n, ⟨after, false⟩)

/-- `in >> n` for a `size_t` that is still zero. -/
def size (s : Stream) : Nat × Stream :=
  if s.stuck then (0, ⟨s.skip, true⟩)
  else
    let (negative, number) := sign s.skip
    let after := number.dropWhile Char.isDigit
    if number.takeWhile Char.isDigit = [] then (0, ⟨after, true⟩)
    else if 2 ^ 64 ≤ digitsValue number then (2 ^ 64 - 1, ⟨after, true⟩)
    else (if negative then (2 ^ 64 - digitsValue number) % 2 ^ 64 else digitsValue number, ⟨after, false⟩)

/-- `std::getline(in >> std::ws, line)`. -/
def line (s : Stream) : Str × Stream :=
  if s.stuck then ([], ⟨s.skip, true⟩)
  else (s.skip.takeWhile fun c => c ≠ '\n', ⟨(s.skip.dropWhile fun c => c ≠ '\n').drop 1, false⟩)

end Stream

/-! ### Units and the state file -/

structure FileStamp where
  mtimeNs : Int64 := 0
  size : Int64 := -1
  path : Str := []
deriving DecidableEq, Repr

/-- `Unit`, as far as it is saved; `error` is set when the preprocessor failed. -/
structure SourceUnit where
  src : Str := []
  key : Str := []
  digest : Str := []
  cost : Int64 := 0
  deps : List FileStamp := []
  error : Str := []
deriving DecidableEq, Repr

def saveStamp (f : FileStamp) : Str :=
  decimal f.mtimeNs.toInt ++ ' ' :: decimal f.size.toInt ++ ' ' :: f.path ++ ['\n']

def saveUnit (u : SourceUnit) : Str :=
  "tu".toList ++ ' ' :: u.src ++ ' ' :: u.key ++ ' ' :: u.digest ++ ' ' :: decimal u.cost.toInt ++
    ' ' :: decimal u.deps.length ++ '\n' :: u.deps.flatMap saveStamp

/-- The units that `save_state` writes. -/
def savedUnits (units : List SourceUnit) : List SourceUnit :=
  units.filter fun u => u.error = [] && u.key ≠ []

/-- The first two words of the file. -/
def stateHeader : Str := "dcstate".toList
def stateVersion : Str := "1".toList

/-- `save_state`: the text it writes. -/
def saveState (config : Str) (units : List SourceUnit) : Str :=
  stateHeader ++ ' ' :: stateVersion ++ ' ' :: config ++ '\n' :: (savedUnits units).flatMap saveUnit

def loadStamp (s : Stream) : FileStamp × Stream :=
  let (mtimeNs, s) := s.int64 0
  let (size, s) := s.int64 (-1)
  let (path, s) := s.line
  (⟨mtimeNs, size, path⟩, s)

def loadStamps : Nat → Stream → List FileStamp × Stream
  | 0, s => ([], s)
  | n + 1, s =>
      let (f, s) := loadStamp s
      let (fs, s) := loadStamps n s
      (f :: fs, s)

/-- The body of the loop over the units, after the tag. -/
def loadUnit (s : Stream) : SourceUnit × Stream :=
  let (src, s) := s.word
  let (key, s) := s.word
  let (digest, s) := s.word
  let (cost, s) := s.int64 0
  let (n, s) := s.size
  let (deps, s) := loadStamps n s
  ({ src, key, digest, cost, deps }, s)

/-- `while (in >> tag && tag == "tu")`; every round reads a character at least. -/
def loadUnits : Nat → Stream → List SourceUnit
  | 0, _ => []
  | fuel + 1, s =>
      let (tag, s) := s.word
      if s.fail || tag ≠ "tu".toList then []
      else
        let (u, s) := loadUnit s
        u :: loadUnits fuel s

/-- The units of the file, in its order; nothing when the header or the
configuration is another. -/
def loadedUnits (file config : Str) : List SourceUnit :=
  let (header, s) := Stream.word ⟨file, false⟩
  let (ver, s) := s.word
  let (cfg, s) := s.word
  if s.fail || header ≠ stateHeader || ver ≠ stateVersion || cfg ≠ config then []
  else loadUnits file.length s

/-- `load_state`: the map from sources to units, where later units replace earlier ones. -/
def loadState (file config src : Str) : Option SourceUnit :=
  (loadedUnits file config).reverse.find? fun u => u.src = src

/-! ### Extractions of what was inserted -/

/-- A text that starts with something else than white space. -/
def Visible (w : Str) : Prop := ∃ c rest, w = c :: rest ∧ isSpace c = false

theorem IsWord.visible {w : Str} (word : IsWord w) : Visible w := by
  cases w with
  | nil => exact absurd rfl word.filled
  | cons c rest => exact ⟨c, rest, rfl, word.solid c (by simp)⟩

namespace Stream

@[simp] theorem skip_space {c : Char} {rest : Str} {fail : Bool} (space : isSpace c = true) :
    skip ⟨c :: rest, fail⟩ = skip ⟨rest, fail⟩ := by
  simp [skip, space]

section Leading

variable {c : Char} {rest : Str} {fail : Bool} (space : isSpace c = true)

include space

/-- White space in front changes no extraction. -/
theorem word_space : word ⟨c :: rest, fail⟩ = word ⟨rest, fail⟩ := by
  simp [word, stuck, space]

theorem int64_space (old : Int64) : int64 ⟨c :: rest, fail⟩ old = int64 ⟨rest, fail⟩ old := by
  simp [int64, stuck, space]

theorem size_space : size ⟨c :: rest, fail⟩ = size ⟨rest, fail⟩ := by
  simp [size, stuck, space]

theorem line_space : line ⟨c :: rest, fail⟩ = line ⟨rest, fail⟩ := by
  simp [line, stuck, space]

end Leading

theorem skip_visible {w rest : Str} {fail : Bool} (visible : Visible w) : skip ⟨w ++ rest, fail⟩ = w ++ rest := by
  obtain ⟨c, w, rfl, solid⟩ := visible
  simp [skip, solid]

theorem stuck_visible {w rest : Str} (visible : Visible w) : stuck ⟨w ++ rest, false⟩ = false := by
  have filled : w ++ rest ≠ [] := by
    obtain ⟨c, w, rfl, -⟩ := visible
    simp
  simp [stuck, skip_visible visible, filled]

/-- A word is read up to the white space behind it. -/
theorem word_written {w rest : Str} {c : Char} (isWord : IsWord w) (space : isSpace c = true) :
    word ⟨w ++ c :: rest, false⟩ = (w, ⟨c :: rest, false⟩) := by
  have solid : ∀ x ∈ w, (!isSpace x) = true := fun x hx => by simp [isWord.solid x hx]
  rw [word, stuck_visible isWord.visible, skip_visible isWord.visible, List.takeWhile_append_of_pos solid,
    List.dropWhile_append_of_pos solid]
  simp [space]

theorem line_written {w rest : Str} (visible : Visible w) (newline : '\n' ∉ w) :
    line ⟨w ++ '\n' :: rest, false⟩ = (w, ⟨rest, false⟩) := by
  have solid : ∀ x ∈ w, (decide (x ≠ '\n')) = true := by
    intro x hx
    rw [decide_eq_true_iff]
    rintro rfl
    exact newline hx
  rw [line, stuck_visible visible, skip_visible visible, List.takeWhile_append_of_pos solid,
    List.dropWhile_append_of_pos solid]
  simp

end Stream

theorem decimal_natCast (n : Nat) : decimal n = Nat.toDigits 10 n := Nat.toList_repr

theorem decimal_negSucc (n : Nat) : decimal (Int.negSucc n) = '-' :: Nat.toDigits 10 (n + 1) := by
  have text : toString (Int.negSucc n) = "-" ++ (n + 1).repr := rfl
  rw [decimal, text, String.toList_append, Nat.toList_repr]
  rfl

theorem isDigit_toDigits (n : Nat) : ∀ c ∈ Nat.toDigits 10 n, c.isDigit = true := fun _ hc =>
  Nat.isDigit_of_mem_toDigits (by decide) (by decide) hc

theorem not_space_of_isDigit {c : Char} (digit : c.isDigit = true) : isSpace c = false := by
  cases space : isSpace c with
  | false => rfl
  | true =>
    simp only [isSpace, Bool.or_eq_true, decide_eq_true_eq] at space
    rcases space with ((((rfl | rfl) | rfl) | rfl) | rfl) | rfl
    all_goals exact absurd digit (by decide)

/-- A number is a word. -/
theorem decimal_word (n : Int) : IsWord (decimal n) := by
  cases n with
  | ofNat n =>
    rw [Int.ofNat_eq_natCast, decimal_natCast]
    exact ⟨Nat.toDigits_ne_nil, fun c hc => not_space_of_isDigit (isDigit_toDigits n c hc)⟩
  | negSucc n =>
    rw [decimal_negSucc]
    refine ⟨by simp, fun c hc => ?_⟩
    rcases List.mem_cons.mp hc with rfl | digit
    · decide
    · exact not_space_of_isDigit (isDigit_toDigits _ c digit)

namespace Stream

/-- The digits of a number are read up to the first other character. -/
theorem digits_written (n : Nat) {c : Char} {rest : Str} (other : c.isDigit = false) :
    (Nat.toDigits 10 n ++ c :: rest).takeWhile Char.isDigit = Nat.toDigits 10 n ∧
      (Nat.toDigits 10 n ++ c :: rest).dropWhile Char.isDigit = c :: rest := by
  rw [List.takeWhile_append_of_pos (isDigit_toDigits n), List.dropWhile_append_of_pos (isDigit_toDigits n)]
  simp [other]

theorem digitsValue_written (n : Nat) {c : Char} {rest : Str} (other : c.isDigit = false) :
    digitsValue (Nat.toDigits 10 n ++ c :: rest) = n := by
  rw [digitsValue, (digits_written n other).1, Nat.ofDigitChars_ten_toDigits]

theorem sign_digits (n : Nat) (rest : Str) :
    sign (Nat.toDigits 10 n ++ rest) = (false, Nat.toDigits 10 n ++ rest) := by
  cases digits : Nat.toDigits 10 n with
  | nil => exact absurd digits Nat.toDigits_ne_nil
  | cons c cs =>
    have digit : c.isDigit = true := isDigit_toDigits n c (by simp [digits])
    have plus : c ≠ '+' := fun same => by simp [same] at digit
    have minus : c ≠ '-' := fun same => by simp [same] at digit
    rw [List.cons_append, sign]
    · simpa using minus
    · simpa using plus

theorem sign_decimal (n : Int) (rest : Str) :
    ∃ k : Nat, sign (decimal n ++ rest) = (decide (n < 0), Nat.toDigits 10 k ++ rest) ∧
      n = if n < 0 then -(k : Int) else k := by
  cases n with
  | ofNat n =>
    refine ⟨n, ?_, ?_⟩
    · rw [Int.ofNat_eq_natCast, decimal_natCast, sign_digits]
      simp
    · rw [if_neg (by simp)]
      rfl
  | negSucc n =>
    refine ⟨n + 1, ?_, ?_⟩
    · rw [decimal_negSucc, List.cons_append, sign, decide_eq_true (Int.negSucc_lt_zero n)]
    · rw [if_pos (Int.negSucc_lt_zero n)]
      rfl

theorem size_written (n : Nat) (small : n < 2 ^ 64) {c : Char} {rest : Str} (other : c.isDigit = false) :
    size ⟨decimal n ++ c :: rest, false⟩ = (n, ⟨c :: rest, false⟩) := by
  have visible := (decimal_word n).visible
  rw [size, stuck_visible visible, skip_visible visible, decimal_natCast, sign_digits]
  simp only [(digits_written n other).1, (digits_written n other).2, digitsValue_written n other,
    Nat.toDigits_ne_nil, Nat.not_le.mpr small, if_false, Bool.false_eq_true]

theorem int64_written (n old : Int64) {c : Char} {rest : Str} (other : c.isDigit = false) :
    int64 ⟨decimal n.toInt ++ c :: rest, false⟩ old = (n, ⟨c :: rest, false⟩) := by
  have visible := (decimal_word n.toInt).visible
  obtain ⟨k, signed, value⟩ := sign_decimal n.toInt (c :: rest)
  rw [int64, stuck_visible visible, skip_visible visible, signed]
  simp only [(digits_written k other).1, (digits_written k other).2, digitsValue_written k other,
    Nat.toDigits_ne_nil, if_false, Bool.false_eq_true, decide_eq_true_eq]
  rw [← value, if_neg (Int.not_lt.mpr n.le_toInt), if_neg (Int.not_le.mpr n.toInt_lt), Int64.ofInt_toInt]

end Stream

/-! ### Round trip -/

/-- A stamp that reads back: its path starts visibly and stays on the line. -/
structure FileStamp.Savable (f : FileStamp) : Prop where
  visible : Visible f.path
  newline : '\n' ∉ f.path

/-- A unit that reads back. -/
structure SourceUnit.Savable (u : SourceUnit) : Prop where
  src : IsWord u.src
  key : IsWord u.key
  digest : IsWord u.digest
  count : u.deps.length < 2 ^ 64
  deps : ∀ f ∈ u.deps, f.Savable

theorem loadStamp_saveStamp {f : FileStamp} (savable : f.Savable) (rest : Str) :
    loadStamp ⟨saveStamp f ++ rest, false⟩ = (f, ⟨rest, false⟩) := by
  have text : saveStamp f ++ rest = decimal f.mtimeNs.toInt ++ ' ' ::
      (decimal f.size.toInt ++ ' ' :: (f.path ++ '\n' :: rest)) := by
    simp [saveStamp]
  rw [loadStamp, text]
  simp only [Stream.int64_written f.mtimeNs 0 (show (' ').isDigit = false by decide),
    Stream.int64_space (show isSpace ' ' = true by decide),
    Stream.int64_written f.size (-1) (show (' ').isDigit = false by decide),
    Stream.line_space (show isSpace ' ' = true by decide),
    Stream.line_written savable.visible savable.newline]

theorem loadStamps_saved {fs : List FileStamp} (savable : ∀ f ∈ fs, f.Savable) (rest : Str) :
    loadStamps fs.length ⟨fs.flatMap saveStamp ++ rest, false⟩ = (fs, ⟨rest, false⟩) := by
  induction fs with
  | nil => rfl
  | cons f fs ih =>
    rw [List.flatMap_cons, List.append_assoc, List.length_cons, loadStamps,
      loadStamp_saveStamp (savable f (by simp))]
    simp only [ih fun g hg => savable g (by simp [hg])]

/-- The text of a unit, piece by piece. -/
theorem saveUnit_append (u : SourceUnit) (rest : Str) :
    saveUnit u ++ rest = "tu".toList ++ ' ' :: (u.src ++ ' ' :: (u.key ++ ' ' :: (u.digest ++ ' ' ::
      (decimal u.cost.toInt ++ ' ' :: (decimal u.deps.length ++ '\n' ::
        (u.deps.flatMap saveStamp ++ rest)))))) := by
  simp only [saveUnit, List.append_assoc, List.cons_append]

/-- A unit reads back; without dependencies the end of its line is still to be read. -/
theorem loadUnit_saved {u : SourceUnit} (savable : u.Savable) (saved : u.error = []) (rest : Str) :
    ∃ s, loadUnit ⟨' ' :: (u.src ++ ' ' :: (u.key ++ ' ' :: (u.digest ++ ' ' ::
        (decimal u.cost.toInt ++ ' ' :: (decimal u.deps.length ++ '\n' ::
          (u.deps.flatMap saveStamp ++ rest)))))), false⟩ = (u, s) ∧
      (s = ⟨rest, false⟩ ∨ s = ⟨'\n' :: rest, false⟩) := by
  have blank : isSpace ' ' = true := by decide
  have digit : (' ').isDigit = false := by decide
  obtain ⟨s, stamps, after⟩ : ∃ s, loadStamps u.deps.length
      ⟨'\n' :: (u.deps.flatMap saveStamp ++ rest), false⟩ = (u.deps, s) ∧
        (s = ⟨rest, false⟩ ∨ s = ⟨'\n' :: rest, false⟩) := by
    cases deps : u.deps with
    | nil => exact ⟨_, rfl, Or.inr rfl⟩
    | cons f fs =>
      refine ⟨_, ?_, Or.inl rfl⟩
      rw [List.length_cons, loadStamps, loadStamp, Stream.int64_space (by decide)]
      have read := loadStamps_saved (deps ▸ savable.deps) rest
      rw [List.length_cons, loadStamps, loadStamp] at read
      exact read
  refine ⟨s, ?_, after⟩
  rw [loadUnit]
  simp only [Stream.word_space blank, Stream.word_written savable.src blank,
    Stream.word_written savable.key blank, Stream.word_written savable.digest blank,
    Stream.int64_space blank, Stream.int64_written u.cost 0 digit, Stream.size_space blank,
    Stream.size_written u.deps.length savable.count (show ('\n').isDigit = false by decide), stamps]
  rw [← saved]

theorem loadUnits_newline (fuel : Nat) (rest : Str) :
    loadUnits fuel ⟨'\n' :: rest, false⟩ = loadUnits fuel ⟨rest, false⟩ := by
  cases fuel with
  | zero => rfl
  | succ fuel => rw [loadUnits, loadUnits, Stream.word_space (by decide)]

theorem loadUnits_saved {units : List SourceUnit} (savable : ∀ u ∈ units, u.Savable)
    (saved : ∀ u ∈ units, u.error = []) {fuel : Nat} (enough : units.length ≤ fuel) :
    loadUnits fuel ⟨units.flatMap saveUnit, false⟩ = units := by
  induction units generalizing fuel with
  | nil =>
    cases fuel with
    | zero => rfl
    | succ fuel => rfl
  | cons u units ih =>
    cases fuel with
    | zero => simp at enough
    | succ fuel =>
      have tag : IsWord "tu".toList := ⟨by decide, by decide⟩
      obtain ⟨s, read, after⟩ := loadUnit_saved (savable u (by simp)) (saved u (by simp))
        (units.flatMap saveUnit)
      have rest : loadUnits fuel s = units := by
        have later := ih (fun v hv => savable v (by simp [hv])) (fun v hv => saved v (by simp [hv]))
          (show units.length ≤ fuel by simpa using enough)
        rcases after with rfl | rfl
        · exact later
        · rw [loadUnits_newline]
          exact later
      rw [List.flatMap_cons, saveUnit_append, loadUnits, Stream.word_written tag (by decide)]
      simp only [read, rest, Bool.false_or, decide_eq_true_eq]
      rfl

theorem saveState_eq (config : Str) (units : List SourceUnit) :
    saveState config units = stateHeader ++ ' ' :: (stateVersion ++ ' ' ::
      (config ++ '\n' :: (savedUnits units).flatMap saveUnit)) := by
  simp only [saveState, List.append_assoc, List.cons_append]

/-- The header reads back. -/
theorem header_read {config : Str} (word : IsWord config) (rest : Str) :
    Stream.word ⟨stateHeader ++ ' ' :: (stateVersion ++ ' ' :: (config ++ '\n' :: rest)), false⟩ =
        (stateHeader, ⟨' ' :: (stateVersion ++ ' ' :: (config ++ '\n' :: rest)), false⟩) ∧
      Stream.word ⟨' ' :: (stateVersion ++ ' ' :: (config ++ '\n' :: rest)), false⟩ =
        (stateVersion, ⟨' ' :: (config ++ '\n' :: rest), false⟩) ∧
      Stream.word ⟨' ' :: (config ++ '\n' :: rest), false⟩ = (config, ⟨'\n' :: rest, false⟩) := by
  have blank : isSpace ' ' = true := by decide
  refine ⟨Stream.word_written ⟨by decide, by decide⟩ blank, ?_, ?_⟩
  · rw [Stream.word_space blank, Stream.word_written ⟨by decide, by decide⟩ blank]
  · rw [Stream.word_space blank, Stream.word_written word (by decide)]

/-- A saved file reads back as the units it was written from. -/
theorem loadedUnits_saveState {config : Str} (word : IsWord config) {units : List SourceUnit}
    (savable : ∀ u ∈ savedUnits units, u.Savable) :
    loadedUnits (saveState config units) config = savedUnits units := by
  have saved : ∀ u ∈ savedUnits units, u.error = [] := by
    intro u hu
    have := (List.mem_filter.mp hu).2
    simp only [Bool.and_eq_true, decide_eq_true_eq] at this
    exact this.1
  have enough : (savedUnits units).length ≤ (saveState config units).length := by
    have each : ∀ us : List SourceUnit, us.length ≤ (us.flatMap saveUnit).length := by
      intro us
      induction us with
      | nil => simp
      | cons u us ih =>
        rw [List.flatMap_cons, List.length_append, List.length_cons, saveUnit]
        simp only [List.length_append, List.length_cons]
        omega
    have := each (savedUnits units)
    simp only [saveState, List.length_append, List.length_cons]
    omega
  obtain ⟨header, version, cfg⟩ := header_read word ((savedUnits units).flatMap saveUnit)
  rw [loadedUnits, saveState_eq, header]
  simp only [version, cfg]
  rw [← saveState_eq, loadUnits_newline, loadUnits_saved savable saved enough]
  simp

/-- A file of another configuration reads as nothing. -/
theorem loadedUnits_other {config config' : Str} (word : IsWord config) (other : config' ≠ config)
    (units : List SourceUnit) : loadedUnits (saveState config units) config' = [] := by
  obtain ⟨header, version, cfg⟩ := header_read word ((savedUnits units).flatMap saveUnit)
  rw [loadedUnits, saveState_eq, header]
  simp only [version, cfg]
  rw [if_pos (by simp [other.symm])]

end DistCompile
