import DistCompile.Lib.Framing
import Mathlib

/-!
The strings of the program and the functions on them that the coordinator and
the client share (`src/util.cpp`, `src/cas.cpp`, the helpers at the top of
`src/coordinator.cpp`).

A `std::string` is the list of its characters. sha256 comes from OpenSSL and is
a parameter (`Sha256`): all the program relies on is that a digest is a
non-empty text; that it is collision-free is an assumption of the theorems that
need it, stated there as injectivity.
-/

namespace DistCompile

open DistCompile.Lib

/-- `std::string`. -/
abbrev Str := List Char

-- decided along the text, not by going through all characters
instance (priority := 2000) (text : Str) (p : Char → Prop) [DecidablePred p] : Decidable (∀ c ∈ text, p c) :=
  List.decidableBAll p text

instance : LawfulBEq Str := inferInstance

/-- OpenSSL's sha256 as lower-case hex, by the properties the code relies on. -/
structure Sha256 where
  hex : Str → Str
  hex_ne_nil : ∀ data, hex data ≠ []

/-- No two texts share a digest. -/
def Sha256.CollisionFree (H : Sha256) : Prop := Function.Injective H.hex

/-- A hash given on some texts, as a table with the digests. On other texts it
is the text itself behind a mark that no digest starts with. -/
def Sha256.ofTable (table : List (Str × Str)) (filled : ∀ e ∈ table, e.2 ≠ []) : Sha256 where
  hex data := ((table.find? fun e => e.1 = data).map Prod.snd).getD ('x' :: data)
  hex_ne_nil data := by
    cases found : table.find? fun e => e.1 = data with
    | none => simp
    | some e => simpa using filled e (List.mem_of_find?_eq_some found)

/-- The text behind a digest of such a hash. -/
def Sha256.tableBlob (table : List (Str × Str)) (digest : Str) : Str :=
  ((table.find? fun e => e.2 = digest).map Prod.fst).getD digest.tail

theorem Sha256.ofTable_inverse {table : List (Str × Str)} (filled : ∀ e ∈ table, e.2 ≠ [])
    (apart : (table.map Prod.snd).Nodup) (marked : ∀ e ∈ table, e.2.head? ≠ some 'x') :
    Function.LeftInverse (Sha256.tableBlob table) (Sha256.ofTable table filled).hex := by
  intro data
  have lookup : ∀ x, (table.find? fun e => e.1 = data) = x →
      (Sha256.ofTable table filled).hex data = (x.map Prod.snd).getD ('x' :: data) := by
    rintro x rfl
    rfl
  cases found : table.find? fun e => e.1 = data with
  | none =>
    have absent : table.find? (fun e => e.2 = 'x' :: data) = none := by
      refine List.find?_eq_none.mpr fun e he => ?_
      rw [decide_eq_true_eq]
      exact fun same => marked e he (by rw [same]; rfl)
    rw [lookup _ found]
    simp [Sha256.tableBlob, absent]
  | some e =>
    have member := List.mem_of_find?_eq_some found
    have text : e.1 = data := by simpa using List.find?_some found
    rw [lookup _ found]
    cases back : table.find? fun d => d.2 = e.2 with
    | none => exact absurd (List.find?_eq_none.mp back e member) (by simp)
    | some d =>
      have same : d.2 = e.2 := by simpa using List.find?_some back
      have here := List.inj_on_of_nodup_map apart (List.mem_of_find?_eq_some back) member same
      simp [Sha256.tableBlob, back, here, text]

/-! ### Hashing of parts -/

/-- The bytes of `uint64_t len`, in memory order. -/
def lengthBytes (n : Nat) : Str := (digits 256 8 n).map Char.ofNat

/-- What `sha256_hex(parts)` feeds to the hash: each part behind its length. -/
def frameParts (parts : List Str) : Str := framed lengthBytes parts

/-- `sha256_hex(const std::vector<std::string>&)`. -/
def sha256HexParts (H : Sha256) (parts : List Str) : Str := H.hex (frameParts parts)

/-- A `std::string` is shorter than `2^64`. -/
def Fits (s : Str) : Prop := s.length < 2 ^ 64

instance (s : Str) : Decidable (Fits s) := by unfold Fits; infer_instance

@[simp] theorem length_lengthBytes (n : Nat) : (lengthBytes n).length = 8 := by
  simp [lengthBytes]

/-- The header reads back as the digits it was made from: all of them are bytes. -/
theorem map_toNat_lengthBytes (n : Nat) :
    (lengthBytes n).map Char.toNat = digits 256 8 n := by
  rw [lengthBytes, List.map_map]
  refine (List.map_congr_left fun d member => ?_).trans (List.map_id _)
  have small := digits_lt (by decide : 0 < 256) 8 n d member
  have valid : d.isValidChar := Or.inl (by omega)
  simp only [Function.comp_apply, id_eq, Char.ofNat, dif_pos valid]
  rfl

theorem lengthBytes_inj {m n : Nat} (hm : m < 2 ^ 64) (hn : n < 2 ^ 64)
    (same : lengthBytes m = lengthBytes n) : m = n := by
  have bytes := congrArg (List.map Char.toNat) same
  rw [map_toNat_lengthBytes, map_toNat_lengthBytes] at bytes
  exact digits_inj 8 (by simpa using hm) (by simpa using hn) bytes

/-- The framing of parts is unambiguous, for lists of any length. -/
theorem frameParts_inj {ps qs : List Str} (hp : ∀ p ∈ ps, Fits p) (hq : ∀ q ∈ qs, Fits q)
    (same : frameParts ps = frameParts qs) : ps = qs :=
  framed_inj length_lengthBytes (by decide) (fun _ _ => lengthBytes_inj) hp hq same

/-- With collision-free sha256 the hash of parts determines the parts. -/
theorem sha256HexParts_inj {H : Sha256} (free : H.CollisionFree) {ps qs : List Str}
    (hp : ∀ p ∈ ps, Fits p) (hq : ∀ q ∈ qs, Fits q)
    (same : sha256HexParts H ps = sha256HexParts H qs) : ps = qs :=
  frameParts_inj hp hq (free same)

/-! ### Digests, lines and names -/

/-- `valid_hash`: 64 lower-case hex digits. -/
def validHash (h : Str) : Bool :=
  h.length == 64 && h.all fun c => ('0' ≤ c && c ≤ '9') || ('a' ≤ c && c ≤ 'f')

/-- `join_lines`: newlines between the items. -/
def joinLines (v : List Str) : Str := ['\n'].intercalate v

/-- `split_lines`; the empty text has no lines. -/
def splitLines (s : Str) : List Str := if s = [] then [] else s.splitOn '\n'

/-- `flat_name`: every slash becomes an underscore. -/
def flatName (n : Str) : Str := n.map fun c => if c = '/' then '_' else c

/-- `pg_array(..., empty_is_null)`, element by element: the empty text is sent as
SQL NULL. -/
def emptyIsNull (s : Str) : Option Str := if s = [] then none else some s

theorem validHash_ne_nil {h : Str} (valid : validHash h = true) : h ≠ [] := by
  rintro rfl
  simp [validHash] at valid

theorem validHash_newline {h : Str} (valid : validHash h = true) : '\n' ∉ h := by
  intro member
  simp only [validHash, Bool.and_eq_true, List.all_eq_true] at valid
  have := valid.2 _ member
  revert this
  decide

theorem validHash_fits {h : Str} (valid : validHash h = true) : Fits h := by
  simp only [validHash, Bool.and_eq_true, beq_iff_eq] at valid
  simp [Fits, valid.1]

/-- Every digest is 64 lower-case hex digits. -/
def Sha256.Digests (H : Sha256) : Prop := ∀ data, validHash (H.hex data) = true

/-- Digests that tell the texts with an `A` from those without. -/
def Sha256.coarse : Sha256 where
  hex data := List.replicate 63 '0' ++ [if 'A' ∈ data then 'a' else 'b']
  hex_ne_nil _ := by simp

theorem Sha256.coarse_digests : Sha256.coarse.Digests := by
  intro data
  by_cases member : 'A' ∈ data
  · simp only [coarse, if_pos member]
    decide
  · simp only [coarse, if_neg member]
    decide

/-- The stored text of a list of lines is empty only when nothing is stored. -/
theorem joinLines_ne_nil {v : List Str} (some_line : v ≠ []) (blank : ∀ l ∈ v, l ≠ []) :
    joinLines v ≠ [] := by
  cases v with
  | nil => exact absurd rfl some_line
  | cons l ls =>
    have filled := blank l (by simp)
    cases ls with
    | nil => simpa [joinLines] using filled
    | cons m ms => simp [joinLines, List.intercalate_cons_cons]

/-- Lines read back as they were joined. The one list that does not survive is
the single empty line, which joins to the same text as no line at all. -/
theorem splitLines_joinLines {v : List Str} (lines : ∀ l ∈ v, '\n' ∉ l) (blank : ∀ l ∈ v, l ≠ []) :
    splitLines (joinLines v) = v := by
  by_cases none : v = []
  · subst none; rfl
  · rw [splitLines, if_neg (joinLines_ne_nil none blank)]
    exact List.splitOn_intercalate _ lines none

theorem joinLines_inj {v w : List Str} (lines : ∀ l ∈ v, '\n' ∉ l) (blank : ∀ l ∈ v, l ≠ [])
    (lines' : ∀ l ∈ w, '\n' ∉ l) (blank' : ∀ l ∈ w, l ≠ []) (same : joinLines v = joinLines w) :
    v = w := by
  rw [← splitLines_joinLines lines blank, same, splitLines_joinLines lines' blank']

@[simp] theorem flatName_eq_nil {n : Str} : flatName n = [] ↔ n = [] := by
  simp [flatName]

@[simp] theorem length_flatName (n : Str) : (flatName n).length = n.length := by
  simp [flatName]

theorem flatName_newline {n : Str} (line : '\n' ∉ n) : '\n' ∉ flatName n := by
  simp only [flatName, List.mem_map, not_exists, not_and]
  intro c member
  split
  · decide
  · rintro rfl; exact line member

/-- The decimal text of an `int`. -/
def decimal (n : Int) : Str := (toString n).toList

/-- The parts behind `action_key`: what runs, then each input's name and digest. -/
def actionParts (kind : Int) (toolchain args : Str) (names digests : List Str) : List Str :=
  ["dc-action-v1".toList, decimal kind, toolchain, args] ++
    (names.zip digests).flatMap fun p => [p.1, p.2]

/-- `action_key`. -/
def actionKey (H : Sha256) (kind : Int) (toolchain args : Str) (names digests : List Str) : Str :=
  sha256HexParts H (actionParts kind toolchain args names digests)

theorem actionKey_ne_nil (H : Sha256) (kind : Int) (toolchain args : Str)
    (names digests : List Str) : actionKey H kind toolchain args names digests ≠ [] :=
  H.hex_ne_nil _

end DistCompile
