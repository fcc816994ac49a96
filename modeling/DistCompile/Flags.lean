import DistCompile.Lib.Interleave
import DistCompile.Preprocess

/-!
What `make_config` does with the flags of a manifest (`src/preprocess.cpp`).

Its loop takes one word or two, so what a word is taken for depends on all the words in front of
it: in `-D -I -D X` the `-I` is the operand of the first `-D`, and `X` that of the second. Here
this is read off the positions of the words, without the loop: a word is an operand if the one
before it takes a word and is no operand itself.
-/

namespace DistCompile

open DistCompile.Lib

/-! ### Flags and operands -/

/-- The word begins like a flag of the preprocessor, or is one. -/
def BeginsPp (f : Str) : Prop :=
  "-I".toList <+: f ∨ "-D".toList <+: f ∨ "-U".toList <+: f ∨
    f = "-include".toList ∨ f = "-isystem".toList ∨ f = "-iquote".toList

/-- A flag of the preprocessor that stands alone. -/
def StandsAlone (f : Str) : Prop :=
  f = "-I".toList ∨ f = "-D".toList ∨ f = "-U".toList ∨
    f = "-include".toList ∨ f = "-isystem".toList ∨ f = "-iquote".toList

instance : DecidablePred BeginsPp := fun f => by unfold BeginsPp; infer_instance

instance : DecidablePred StandsAlone := fun f => by unfold StandsAlone; infer_instance

/-- The word at a position belongs to the flag before it. -/
def operand (cflags : List Str) : Nat → Bool
  | 0 => false
  | i + 1 => (cflags[i]?).any (fun f => StandsAlone f) && !operand cflags i

/-- The word at a position is for the preprocessor. -/
def forPp (cflags : List Str) (i : Nat) : Bool :=
  (cflags[i]?).any (fun f => BeginsPp f) || operand cflags i

theorem ppFlag_iff {f : Str} : ppFlag f = true ↔ BeginsPp f := by
  simp only [ppFlag, BeginsPp, Bool.or_eq_true, List.isPrefixOf_iff_prefix, decide_eq_true_eq, or_assoc]

theorem takesWord_iff {f : Str} : takesWord f = true ↔ StandsAlone f := by
  simp only [takesWord, StandsAlone, Bool.or_eq_true, decide_eq_true_eq, or_assoc]

theorem debugFlag_iff {f : Str} : debugFlag f = true ↔ "-g".toList <+: f ∧ f ≠ "-g0".toList := by
  simp only [debugFlag, Bool.and_eq_true, List.isPrefixOf_iff_prefix, decide_eq_true_eq]

theorem StandsAlone.begins {f : Str} (alone : StandsAlone f) : BeginsPp f := by
  rcases alone with rfl | rfl | rfl | named
  · exact Or.inl (List.prefix_refl _)
  · exact Or.inr (Or.inl (List.prefix_refl _))
  · exact Or.inr (Or.inr (Or.inl (List.prefix_refl _)))
  · exact Or.inr (Or.inr (Or.inr named))

/-! ### Taking words off the front -/

section Front

variable {f word : Str} {rest : List Str}

/-- Behind a word that takes none the reading starts afresh. -/
theorem operand_succ (single : ¬ StandsAlone f) (i : Nat) : operand (f :: rest) (i + 1) = operand rest i := by
  induction i with
  | zero => simp [operand, single]
  | succ i ih => rw [operand, ih, operand, List.getElem?_cons_succ]

/-- And so it does behind a flag and its operand. -/
theorem operand_add_two (alone : StandsAlone f) (i : Nat) :
    operand (f :: word :: rest) (i + 2) = operand rest i := by
  induction i with
  | zero => simp [operand, alone]
  | succ i ih => rw [operand, ih, operand, List.getElem?_cons_succ, List.getElem?_cons_succ]

theorem forPp_zero (f : Str) (rest : List Str) : forPp (f :: rest) 0 = decide (BeginsPp f) := by
  simp [forPp, operand]

theorem forPp_succ (single : ¬ StandsAlone f) (i : Nat) : forPp (f :: rest) (i + 1) = forPp rest i := by
  rw [forPp, operand_succ single, List.getElem?_cons_succ, forPp]

theorem forPp_one (alone : StandsAlone f) : forPp (f :: word :: rest) 1 = true := by
  simp [forPp, operand, alone]

theorem forPp_add_two (alone : StandsAlone f) (i : Nat) : forPp (f :: word :: rest) (i + 2) = forPp rest i := by
  rw [forPp, operand_add_two alone, List.getElem?_cons_succ, List.getElem?_cons_succ, forPp]

end Front

/-! ### The loop -/

/-- The words at the positions for the preprocessor, and the others. -/
def ppWords (cflags : List Str) : List Str := pick (forPp cflags) cflags

def ccWords (cflags : List Str) : List Str := pick (fun i => !forPp cflags i) cflags

section Words

variable {f : Str} (word : Str) (rest : List Str)

/-- A flag without an operand. -/
theorem words_begins (single : ¬ StandsAlone f) (begins : BeginsPp f) :
    ppWords (f :: rest) = f :: ppWords rest ∧ ccWords (f :: rest) = ccWords rest := by
  simp [ppWords, ccWords, pick, forPp_zero, begins, forPp_succ single]

/-- A flag and its operand. -/
theorem words_alone (alone : StandsAlone f) :
    ppWords (f :: word :: rest) = f :: word :: ppWords rest ∧ ccWords (f :: word :: rest) = ccWords rest := by
  simp [ppWords, ccWords, pick, forPp_zero, alone.begins, forPp_one alone, forPp_add_two alone]

/-- A flag with nothing behind it. -/
theorem words_last (begins : BeginsPp f) : ppWords [f] = [f] ∧ ccWords [f] = [] := by
  simp [ppWords, ccWords, pick, forPp_zero, begins]

/-- A word for the compiler. -/
theorem words_other (other : ¬ BeginsPp f) :
    ppWords (f :: rest) = ppWords rest ∧ ccWords (f :: rest) = f :: ccWords rest := by
  have single : ¬ StandsAlone f := fun alone => other alone.begins
  simp [ppWords, ccWords, pick, forPp_zero, other, forPp_succ single]

end Words

/-- What the loop of `make_config` has made of the flags. -/
theorem sortFlags_eq (cflags : List Str) (c : CompileConfig) : sortFlags cflags c =
    { c with ppFlags := c.ppFlags ++ ppWords cflags, ccFlags := c.ccFlags ++ ccWords cflags
             debug := c.debug || (ccWords cflags).any debugFlag } := by
  induction cflags, c using sortFlags.induct with
  | case1 c => simp [sortFlags, ppWords, ccWords, pick]
  | case2 f c pp =>
    obtain ⟨forPp, forCc⟩ := words_last (ppFlag_iff.mp pp)
    rw [sortFlags, if_pos pp, forPp, forCc]
    simp
  | case3 f c pp =>
    obtain ⟨forPp, forCc⟩ := words_other [] (mt ppFlag_iff.mpr pp)
    rw [sortFlags, if_neg pp, forPp, forCc]
    simp [ppWords, ccWords, pick]
  | case4 f word rest c pp takes ih =>
    obtain ⟨forPp, forCc⟩ := words_alone word rest (takesWord_iff.mp takes)
    rw [sortFlags, if_pos pp, if_pos takes, ih, forPp, forCc]
    simp
  | case5 f word rest c pp takes ih =>
    obtain ⟨forPp, forCc⟩ := words_begins (word :: rest) (mt takesWord_iff.mpr takes) (ppFlag_iff.mp pp)
    rw [sortFlags, if_pos pp, if_neg takes, ih, forPp, forCc]
    simp
  | case6 f word rest c pp ih =>
    obtain ⟨forPp, forCc⟩ := words_other (word :: rest) (mt ppFlag_iff.mpr pp)
    rw [sortFlags, if_neg pp, ih, forPp, forCc]
    simp [Bool.or_assoc]

/-! ### The two groups -/

/-- The flags are split without loss. -/
structure Split (cflags : List Str) (c : CompileConfig) : Prop where
  whole : Interleaves c.ppFlags c.ccFlags cflags
  pp : c.ppFlags.Sublist cflags
  cc : c.ccFlags.Sublist cflags
  once : (c.ppFlags ++ c.ccFlags).Perm cflags
  /-- the first group is at the positions for the preprocessor -/
  positions : c.ppFlags = pick (forPp cflags) cflags
  others : c.ccFlags = pick (fun i => !forPp cflags i) cflags
  /-- a word of the first group begins like a flag of it, or is an operand -/
  words : ∀ f, f ∈ c.ppFlags ↔ ∃ i, cflags[i]? = some f ∧ (BeginsPp f ∨ operand cflags i = true)
  debug : c.debug = true ↔ ∃ f ∈ c.ccFlags, "-g".toList <+: f ∧ f ≠ "-g0".toList

section Config

variable (driver lang toolchain : Str) (cflags : List Str)

theorem makeConfig_ppFlags : (makeConfig driver lang toolchain cflags).ppFlags = ppWords cflags := by
  rw [makeConfig, sortFlags_eq]
  exact List.nil_append _

theorem makeConfig_ccFlags : (makeConfig driver lang toolchain cflags).ccFlags = ccWords cflags := by
  rw [makeConfig, sortFlags_eq]
  exact List.nil_append _

/-- `make_config` splits every list of flags without loss. -/
theorem makeConfig_split : Split cflags (makeConfig driver lang toolchain cflags) := by
  have parts : Interleaves (makeConfig driver lang toolchain cflags).ppFlags
      (makeConfig driver lang toolchain cflags).ccFlags cflags := by
    rw [makeConfig_ppFlags, makeConfig_ccFlags]
    exact interleaves_pick _ _
  refine ⟨parts, parts.sublist, parts.symm.sublist, parts.perm, makeConfig_ppFlags .., makeConfig_ccFlags ..,
    fun f => ?_, ?_⟩
  · rw [makeConfig_ppFlags, ppWords, mem_pick]
    refine exists_congr fun i => and_congr_right fun here => ?_
    simp [forPp, here]
  · rw [makeConfig_debug, List.any_eq_true]
    exact exists_congr fun f => and_congr_right fun _ => debugFlag_iff

end Config

end DistCompile
