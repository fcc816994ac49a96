import DistCompile.CompileKeys

/-!
Normalising C text (`strip_line_markers` and `compile_key` in `src/preprocess.cpp`).

For C, the key of a unit is computed from its text without line markers and blank lines. That
is harmless as long as no such line lies inside a token. The compiler runs in its default
dialect, gnu17, which has raw string literals, and these are the one kind of token that goes on
across lines. The lexer here reads a text line by line and carries an open raw string from one
line to the next; how it cuts the rest of a line into ordinary tokens is a parameter
(`Dialect`).

`stripped_tokens_iff`: the normalised text determines the tokens exactly when no raw string is
left open at the end of a line.
-/

namespace DistCompile

/-! ### Lexing -/

/-- The length of the ordinary token at the start of the rest of a line. -/
structure Dialect where
  munch : Str → Nat

/-- Where the lexer is at the end of a line. -/
inductive Mode where
  | code
  /-- in a raw string, with what closes it and what has been read of it -/
  | raw (close read : Str)
deriving DecidableEq, Repr

/-- `R`, with the prefixes for the encoding, and the quote. -/
def rawPrefixes : List Str :=
  ["R\"".toList, "LR\"".toList, "uR\"".toList, "UR\"".toList, "u8R\"".toList]

/-- A character of the delimiter. -/
def delimChar (c : Char) : Bool := !isSpace c && c ≠ '(' && c ≠ ')' && c ≠ '\\'

/-- The start of a raw string, what will close it, and the line behind the start. -/
def rawOpen (rest : Str) : Option (Str × Str × Str) :=
  rawPrefixes.findSome? fun start =>
    if start.isPrefixOf rest then
      let delim := (rest.drop start.length).takeWhile delimChar
      match rest.drop (start.length + delim.length) with
      | '(' :: body =>
          if delim.length ≤ 16 then some (start ++ delim ++ ['('], ')' :: delim ++ ['"'], body) else none
      | _ => none
    else none

/-- What stands before and behind the first `close`, which is never empty. -/
def findClose (close : Str) : Str → Option (Str × Str)
  | [] => none
  | c :: rest =>
      if close.isPrefixOf (c :: rest) then some ([], (c :: rest).drop close.length)
      else (findClose close rest).map fun found => (c :: found.1, found.2)

/-- The tokens that end on the rest of a line. Every step but the last takes a character. -/
def Dialect.scan (D : Dialect) : Nat → Mode → Str → List Str × Mode
  | 0, mode, _ => ([], mode)
  | fuel + 1, .raw close read, rest => match findClose close rest with
    | none => ([], .raw close (read ++ rest ++ ['\n']))
    | some (body, behind) =>
        let later := D.scan fuel .code behind
        ((read ++ body ++ close) :: later.1, later.2)
  | _ + 1, .code, [] => ([], .code)
  | fuel + 1, .code, c :: rest =>
      if isSpace c then D.scan fuel .code rest
      else match rawOpen (c :: rest) with
        | some (start, close, body) => D.scan fuel (.raw close start) body
        | none =>
            let later := D.scan fuel .code ((c :: rest).drop (max 1 (D.munch (c :: rest))))
            ((c :: rest).take (max 1 (D.munch (c :: rest))) :: later.1, later.2)

/-- One line. A line marker is none of the program. -/
def Dialect.line (D : Dialect) (mode : Mode) (line : Str) : List Str × Mode :=
  if mode = .code ∧ isMarker line = true then ([], .code) else D.scan (line.length + 1) mode line

/-- Several lines. -/
def Dialect.lex (D : Dialect) : Mode → List Str → List Str × Mode
  | mode, [] => ([], mode)
  | mode, line :: lines =>
      ((D.line mode line).1 ++ (D.lex (D.line mode line).2 lines).1, (D.lex (D.line mode line).2 lines).2)

/-- A raw string that is never closed. -/
def Mode.unclosed : Mode → List Str
  | .code => []
  | .raw _ read => [read]

def Dialect.tokensFrom (D : Dialect) (mode : Mode) (lines : List Str) : List Str :=
  (D.lex mode lines).1 ++ (D.lex mode lines).2.unclosed

/-- The tokens of a preprocessed text. -/
def Dialect.tokens (D : Dialect) (text : Str) : List Str := D.tokensFrom .code (text.splitOn '\n')

/-- No raw string is open at the end of a line. -/
def Dialect.OneLineRaws (D : Dialect) (text : Str) : Prop :=
  ∀ pre post, text.splitOn '\n' = pre ++ post → (D.lex .code pre).2 = .code

/-! ### The lines that are kept -/

/-- A line of blanks, as `strip_line_markers` looks for them. -/
def isBlank (line : Str) : Bool := line.all fun c => c = ' ' || c = '\t' || c = '\r'

/-- The line goes into the normalised text. -/
def keptLine (line : Str) : Bool := !isMarker line && !isBlank line

def keptLines (text : Str) : List Str := (text.splitOn '\n').filter keptLine

theorem splitOn_newline {text line : Str} (member : line ∈ text.splitOn '\n') : '\n' ∉ line := by
  intro inside
  have apart := splitOnP_solid (· == '\n') text line member '\n' inside
  simp at apart

section Lines

variable {line rest : Str}

theorem lineAt_line (newline : '\n' ∉ line) : lineAt (line ++ '\n' :: rest) = line := by
  rw [lineAt, List.takeWhile_append_of_pos fun c hc => by simpa using fun same : c = '\n' => newline (same ▸ hc)]
  simp

theorem lineAt_last (newline : '\n' ∉ line) : lineAt line = line :=
  List.takeWhile_eq_self_iff.mpr fun c hc => by simpa using fun same : c = '\n' => newline (same ▸ hc)

theorem isMarker_iff {l : Str} : isMarker l = true ↔ ∃ d more, l = '#' :: ' ' :: d :: more ∧ '0' ≤ d ∧ d ≤ '9' := by
  unfold isMarker
  split
  · rename_i d more
    simp
  · rename_i other
    constructor
    · intro no
      cases no
    · rintro ⟨d, more, rfl, -⟩
      exact absurd rfl (other d more)

/-- A marker is seen on its line. -/
theorem isMarker_line : isMarker (line ++ '\n' :: rest) = isMarker line := by
  rw [Bool.eq_iff_iff, isMarker_iff, isMarker_iff]
  constructor
  · rintro ⟨d, more, same, low, high⟩
    match line with
    | [] => simp at same
    | [c] => simp at same
    | [c, c'] =>
      obtain ⟨-, -, rfl, -⟩ : c = '#' ∧ c' = ' ' ∧ '\n' = d ∧ rest = more := by simpa using same
      exact absurd low (by decide)
    | c :: c' :: d' :: more' =>
      obtain ⟨rfl, rfl, rfl, -⟩ : c = '#' ∧ c' = ' ' ∧ d' = d ∧ more' ++ '\n' :: rest = more := by simpa using same
      exact ⟨d', more', rfl, low, high⟩
  · rintro ⟨d, more, rfl, digit⟩
    exact ⟨d, more ++ '\n' :: rest, rfl, digit⟩

theorem length_takeWhile_iff {p : Char → Bool} {l : Str} : l.length ≤ (l.takeWhile p).length ↔ l.all p = true := by
  rw [List.all_eq_true]
  constructor
  · intro long
    have whole := (List.takeWhile_prefix p).eq_of_length_le long
    exact List.takeWhile_eq_self_iff.mp whole
  · intro all
    rw [List.takeWhile_eq_self_iff.mpr all]

theorem blankLine_last (newline : '\n' ∉ line) : blankLine line = isBlank line := by
  rw [blankLine, lineAt_last newline, Bool.eq_iff_iff, decide_eq_true_iff]
  exact length_takeWhile_iff

theorem blankLine_line (newline : '\n' ∉ line) : blankLine (line ++ '\n' :: rest) = isBlank line := by
  have stops : ∀ l : Str, (l ++ '\n' :: rest).takeWhile (fun c => c = ' ' || c = '\t' || c = '\r') =
      l.takeWhile fun c => c = ' ' || c = '\t' || c = '\r' := by
    intro l
    induction l with
    | nil => simp
    | cons c l ih => simp only [List.cons_append, List.takeWhile_cons, ih]
  rw [blankLine, lineAt_line newline, stops, Bool.eq_iff_iff, decide_eq_true_iff]
  exact length_takeWhile_iff

theorem lineStarts_last (filled : line ≠ []) (newline : '\n' ∉ line) : lineStarts line = [line] := by
  have skip : ∀ line : Str, '\n' ∉ line → lineStarts.go line false = [] := by
    intro line newline
    induction line with
    | nil => rfl
    | cons c line ih =>
      simp only [List.mem_cons, not_or] at newline
      simp [lineStarts.go, Ne.symm newline.1, ih newline.2]
  cases line with
  | nil => exact absurd rfl filled
  | cons c line =>
    simp only [List.mem_cons, not_or] at newline
    simp [lineStarts, lineStarts.go, Ne.symm newline.1, skip line newline.2]

end Lines

/-- The normalised text is the kept lines. -/
theorem stripLineMarkers_eq (text : Str) : stripLineMarkers text = writeLines (keptLines text) := by
  induction size : text.length using Nat.strong_induction_on generalizing text with
  | _ n ih =>
    by_cases more : '\n' ∈ text
    · obtain ⟨line, rest, rfl, newline⟩ := List.eq_append_cons_of_mem more
      have smaller : rest.length < n := by
        rw [← size, List.length_append, List.length_cons]
        omega
      have later := ih _ smaller rest rfl
      rw [stripLineMarkers, lineStarts_next newline, List.flatMap_cons, isMarker_line, blankLine_line newline,
        lineAt_line newline, keptLines, List.splitOn_append_cons_self_of_not_mem newline, List.filter_cons]
      change _ ++ stripLineMarkers rest = _
      rw [later, keptLine]
      split
      · rfl
      · rfl
    · rw [keptLines, List.splitOn_eq_singleton more]
      by_cases filled : text = []
      · subst filled
        rfl
      · rw [stripLineMarkers, lineStarts_last filled more]
        simp only [List.flatMap_cons, List.flatMap_nil, List.append_nil, blankLine_last more, lineAt_last more]
        rw [List.filter_cons, keptLine]
        split
        · simp [writeLines]
        · rfl

/-- The normalised text determines the lines that it keeps. -/
theorem keptLines_eq_iff {a b : Str} : stripLineMarkers b = stripLineMarkers a ↔ keptLines b = keptLines a := by
  have lines : ∀ text, ∀ l ∈ keptLines text, '\n' ∉ l :=
    fun text l member => splitOn_newline (List.mem_of_mem_filter member)
  rw [stripLineMarkers_eq, stripLineMarkers_eq]
  constructor
  · intro same
    rw [← getLines_writeLines (lines b), same, getLines_writeLines (lines a)]
  · intro same
    rw [same]

/-! ### Dropped lines -/

section Lexing

variable (D : Dialect)

theorem Dialect.lex_append (mode : Mode) (pre post : List Str) :
    D.lex mode (pre ++ post) =
      ((D.lex mode pre).1 ++ (D.lex (D.lex mode pre).2 post).1, (D.lex (D.lex mode pre).2 post).2) := by
  induction pre generalizing mode with
  | nil => rfl
  | cons line pre ih => simp only [List.cons_append, lex, ih, List.append_assoc]

/-- Blanks are no tokens. -/
theorem Dialect.scan_blank (line : Str) (fuel : Nat) (enough : line.length < fuel) (blank : isBlank line = true) :
    D.scan fuel .code line = ([], .code) := by
  induction line generalizing fuel with
  | nil =>
    cases fuel with
    | zero => cases enough
    | succ fuel => rfl
  | cons c line ih =>
    cases fuel with
    | zero => cases enough
    | succ fuel =>
      simp only [isBlank, List.all_cons, Bool.and_eq_true] at blank
      have space : isSpace c = true := by
        have := blank.1
        simp only [Bool.or_eq_true, decide_eq_true_eq] at this
        rcases this with (rfl | rfl) | rfl <;> decide
      rw [scan, if_pos space]
      exact ih fuel (by simpa using enough) blank.2

/-- A line that is dropped means nothing between tokens. -/
theorem Dialect.line_dropped {line : Str} (dropped : keptLine line = false) : D.line .code line = ([], .code) := by
  unfold Dialect.line
  split
  · rfl
  · rename_i code
    have blank : isBlank line = true := by
      simp only [keptLine, Bool.and_eq_false_iff, Bool.not_eq_false'] at dropped
      exact dropped.resolve_left fun marker => code ⟨rfl, marker⟩
    exact D.scan_blank line _ (Nat.lt_succ_self _) blank

/-- No line of the text leaves a raw string open. -/
theorem Dialect.oneLineRaws_iff {text : Str} :
    D.OneLineRaws text ↔ ∀ line ∈ text.splitOn '\n', (D.line .code line).2 = .code := by
  constructor
  · intro closed line member
    obtain ⟨pre, post, split⟩ := List.append_of_mem member
    have before := closed pre (line :: post) split
    have after := closed (pre ++ [line]) post (by simp [split])
    rw [D.lex_append, before] at after
    exact after
  · intro each pre post split
    have inside : ∀ line ∈ pre, (D.line .code line).2 = .code :=
      fun line member => each line (by rw [split]; simp [member])
    clear split
    induction pre with
    | nil => rfl
    | cons line pre ih =>
      rw [lex, inside line (by simp)]
      exact ih fun l member => inside l (by simp [member])

/-- Then the tokens are those of the kept lines, one after the other. -/
theorem Dialect.tokens_kept {text : Str} (closed : D.OneLineRaws text) :
    D.tokens text = (keptLines text).flatMap fun line => (D.line .code line).1 := by
  have each := D.oneLineRaws_iff.mp closed
  rw [Dialect.tokens, keptLines]
  generalize text.splitOn '\n' = lines at each
  induction lines with
  | nil => rfl
  | cons line lines ih =>
    have later := ih fun l member => each l (by simp [member])
    rw [tokensFrom, lex, each line (by simp), List.append_assoc]
    change _ ++ D.tokensFrom .code lines = _
    rw [later, List.filter_cons]
    split
    · rfl
    · rename_i dropped
      rw [D.line_dropped (by simpa using dropped)]
      rfl

/-- Only the kept lines can leave a raw string open. -/
theorem Dialect.OneLineRaws.same_kept {a b : Str} (closed : D.OneLineRaws a) (same : keptLines b = keptLines a) :
    D.OneLineRaws b := by
  rw [D.oneLineRaws_iff] at closed ⊢
  intro line member
  by_cases kept : keptLine line = true
  · have here : line ∈ keptLines b := List.mem_filter.mpr ⟨member, kept⟩
    rw [same] at here
    exact closed line (List.mem_of_mem_filter here)
  · rw [D.line_dropped (by simpa using kept)]

/-! ### Open raw strings -/

/-- What is read of a raw string is a prefix of its token and has no other effect. -/
theorem Dialect.tokensFrom_raw {close : Str} (lines : List Str) :
    ∃ more later, ∀ read, D.tokensFrom (.raw close read) lines = (read ++ more) :: later := by
  induction lines with
  | nil => exact ⟨[], [], fun read => by simp [tokensFrom, lex, Mode.unclosed]⟩
  | cons line lines ih =>
    have here : ∀ read, D.line (.raw close read) line = D.scan (line.length + 1) (.raw close read) line :=
      fun read => if_neg (by simp)
    cases found : findClose close line with
    | none =>
      obtain ⟨more, later, rest⟩ := ih
      refine ⟨line ++ ['\n'] ++ more, later, fun read => ?_⟩
      have stays : D.line (.raw close read) line = ([], .raw close (read ++ line ++ ['\n'])) := by
        rw [here, scan, found]
      rw [tokensFrom, lex, stays, List.nil_append]
      change D.tokensFrom (.raw close (read ++ line ++ ['\n'])) lines = _
      rw [rest]
      simp
    | some parts =>
      refine ⟨parts.1 ++ close, (D.scan line.length .code parts.2).1 ++
        D.tokensFrom (D.scan line.length .code parts.2).2 lines, fun read => ?_⟩
      have ends : D.line (.raw close read) line = ((read ++ parts.1 ++ close) ::
          (D.scan line.length .code parts.2).1, (D.scan line.length .code parts.2).2) := by
        rw [here, scan, found]
      rw [tokensFrom, lex, ends]
      simp [tokensFrom]

/-- A blank line in an open raw string changes its token. -/
theorem Dialect.blank_in_raw {close read : Str} (post : List Str) :
    D.tokensFrom (.raw close read) ([] :: post) ≠ D.tokensFrom (.raw close read) post := by
  obtain ⟨more, later, from_⟩ : ∃ more later, ∀ read, D.tokensFrom (.raw close read) post = (read ++ more) :: later :=
    D.tokensFrom_raw post
  have longer : D.tokensFrom (.raw close read) ([] :: post) = D.tokensFrom (.raw close (read ++ ['\n'])) post := by
    have stays : D.line (.raw close read) [] = ([], .raw close (read ++ ['\n'])) := by
      rw [Dialect.line, if_neg (by simp)]
      simp [scan, findClose]
    rw [tokensFrom, lex, stays, List.nil_append]
    rfl
  rw [longer, from_, from_]
  intro same
  have lengths := congrArg List.length (List.cons.inj same).1
  simp only [List.length_append, List.length_singleton] at lengths
  omega

end Lexing

/-! ### Normalised texts -/

section Normalised

variable {D : Dialect} {a : Str}

/-- The text with a blank line more, where a raw string is open. -/
theorem exists_other_tokens (opened : ¬ D.OneLineRaws a) :
    ∃ b, stripLineMarkers b = stripLineMarkers a ∧ D.tokens b ≠ D.tokens a := by
  unfold Dialect.OneLineRaws at opened
  push Not at opened
  obtain ⟨pre, post, split, mode⟩ := opened
  have lines : ∀ l ∈ pre ++ [] :: post, '\n' ∉ l := by
    intro l member
    rcases List.mem_append.mp member with before | here
    · exact splitOn_newline (by rw [split]; simp [before])
    · rcases List.mem_cons.mp here with rfl | behind
      · simp
      · exact splitOn_newline (by rw [split]; simp [behind])
  have inserted : (['\n'].intercalate (pre ++ [] :: post)).splitOn '\n' = pre ++ [] :: post :=
    List.splitOn_intercalate '\n' lines (by simp)
  refine ⟨['\n'].intercalate (pre ++ [] :: post), ?_, ?_⟩
  · have blank : keptLine [] = false := rfl
    rw [keptLines_eq_iff, keptLines, keptLines, inserted, split, List.filter_append, List.filter_append,
      List.filter_cons, blank]
    rfl
  · cases raw : (D.lex .code pre).2 with
    | code => exact absurd raw mode
    | raw close read =>
      have cut : ∀ rest, D.tokensFrom .code (pre ++ rest) =
          (D.lex .code pre).1 ++ D.tokensFrom (.raw close read) rest := by
        intro rest
        rw [Dialect.tokensFrom, D.lex_append, raw, List.append_assoc]
        rfl
      rw [Dialect.tokens, Dialect.tokens, inserted, split, cut, cut]
      intro same
      exact D.blank_in_raw post (List.append_cancel_left same)

theorem tokens_of_stripped (closed : D.OneLineRaws a) {b : Str} (same : stripLineMarkers b = stripLineMarkers a) :
    D.tokens b = D.tokens a := by
  have kept := keptLines_eq_iff.mp same
  rw [D.tokens_kept closed, D.tokens_kept (closed.same_kept D kept), kept]

/-- The unit is keyed by its normalised text. -/
def CompileConfig.Normalises (cfg : CompileConfig) : Prop := cfg.lang = "c".toList ∧ cfg.debug = false

theorem CompileConfig.Normalises.keyText {cfg : CompileConfig} (normalises : cfg.Normalises) (text : Str) :
    keyText cfg text = stripLineMarkers text := by
  simp [DistCompile.keyText, normalises.1, normalises.2]

/-- A text shares its normalised form, and with collision-free sha256 its key, only with texts
of the same tokens exactly when no raw string of it is open at the end of a line. -/
theorem stripped_tokens_iff (D : Dialect) (a : Str) :
    ((∀ b, stripLineMarkers b = stripLineMarkers a → D.tokens b = D.tokens a) ↔ D.OneLineRaws a) ∧
    ∀ (H : Sha256) (cfg : CompileConfig), H.CollisionFree → cfg.Normalises →
      (∀ part ∈ compileParts cfg a, Fits part) →
      ((∀ b, (∀ part ∈ compileParts cfg b, Fits part) → compileKey H cfg b = compileKey H cfg a →
        D.tokens b = D.tokens a) ↔ D.OneLineRaws a) := by
  constructor
  · constructor
    · intro determined
      by_contra opened
      obtain ⟨b, same, other⟩ := exists_other_tokens opened
      exact other (determined b same)
    · exact fun closed b same => tokens_of_stripped closed same
  · intro H cfg free normalises fits
    constructor
    · intro determined
      by_contra opened
      obtain ⟨b, same, other⟩ := exists_other_tokens opened
      have parts : compileParts cfg b = compileParts cfg a := by
        rw [compileParts, compileParts, normalises.keyText, normalises.keyText, same]
      exact other (determined b (parts ▸ fits) (by rw [compileKey, compileKey, parts]))
    · intro closed b fits' same
      have parts := sha256HexParts_inj free fits' fits same
      simp only [compileParts, List.cons.injEq, true_and, and_true, normalises.keyText] at parts
      exact tokens_of_stripped closed parts

end Normalised

/-! ### A raw string over several lines -/

/-- The length of a literal behind its opening quote. -/
def literalLength (quote : Char) : Str → Nat
  | [] => 0
  | '\\' :: _ :: rest => 2 + literalLength quote rest
  | c :: rest => if c = quote then 1 else 1 + literalLength quote rest

/-- Words, literals and single signs. -/
def plainDialect : Dialect where
  munch
    | [] => 0
    | c :: rest =>
        if c = '"' || c = '\'' then 1 + literalLength c rest
        else if c.isAlphanum || c = '_' then ((c :: rest).takeWhile fun d => d.isAlphanum || d = '_').length
        else 1

def shortString : Str := "const char *s = R\"(x\ny)\";\n".toList

def longString : Str := "const char *s = R\"(x\n\ny)\";\n".toList

example : plainDialect.tokens shortString =
    ["const".toList, "char".toList, "*".toList, "s".toList, "=".toList, "R\"(x\ny)\"".toList, ";".toList] := by
  decide +kernel

/-- Two programs with one key: a string of two lines, and the same with a blank line between. -/
theorem blank_line_in_raw_string :
    stripLineMarkers longString = stripLineMarkers shortString ∧
    plainDialect.tokens longString ≠ plainDialect.tokens shortString ∧
    ∀ (H : Sha256) (cfg : CompileConfig), cfg.Normalises →
      compileKey H cfg longString = compileKey H cfg shortString := by
  have same : stripLineMarkers longString = stripLineMarkers shortString := by decide +kernel
  refine ⟨same, by decide +kernel, fun H cfg normalises => ?_⟩
  rw [compileKey, compileKey, compileParts, compileParts, normalises.keyText, normalises.keyText, same]

end DistCompile
