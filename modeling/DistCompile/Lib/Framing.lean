import Mathlib.Algebra.Group.Nat.Defs
import Mathlib.Data.List.Basic

/-!
Length framing: a list of words is written as one word by putting in front of
each its length, in a header of fixed width. Over words whose length the header
tells apart, the framing determines the list.
-/

namespace DistCompile.Lib

variable {α : Type*}

/-- Every word behind the header of its length. -/
def framed (header : Nat → List α) (words : List (List α)) : List α :=
  words.flatMap fun w => header w.length ++ w

@[simp] theorem framed_nil (header : Nat → List α) : framed header [] = [] := rfl

@[simp] theorem framed_cons (header : Nat → List α) (w : List α) (ws : List (List α)) :
    framed header (w :: ws) = header w.length ++ (w ++ framed header ws) := by
  simp [framed]

/-- Headers of one positive width that are injective on the lengths satisfying
`fits` make the framing injective on the lists whose words all fit. -/
theorem framed_inj {header : Nat → List α} {width : Nat} {fits : Nat → Prop}
    (fixed : ∀ n, (header n).length = width) (positive : 0 < width)
    (tells : ∀ m n, fits m → fits n → header m = header n → m = n) :
    ∀ {ws vs : List (List α)}, (∀ w ∈ ws, fits w.length) → (∀ v ∈ vs, fits v.length) →
      framed header ws = framed header vs → ws = vs := by
  intro ws
  induction ws with
  | nil =>
    intro vs _ _ same
    cases vs with
    | nil => rfl
    | cons v vs =>
      have := congrArg List.length same
      simp only [framed_nil, framed_cons, List.length_nil, List.length_append, fixed] at this
      omega
  | cons w ws ih =>
    intro vs hw hv same
    cases vs with
    | nil =>
      have := congrArg List.length same
      simp only [framed_nil, framed_cons, List.length_nil, List.length_append, fixed] at this
      omega
    | cons v vs =>
      simp only [framed_cons] at same
      obtain ⟨heads, rest⟩ := List.append_inj same ((fixed _).trans (fixed _).symm)
      have lengths := tells _ _ (hw w (by simp)) (hv v (by simp)) heads
      obtain ⟨rfl, tails⟩ := List.append_inj rest lengths
      rw [ih (fun x hx => hw x (by simp [hx])) (fun x hx => hv x (by simp [hx])) tails]

/-! ### Little-endian headers -/

/-- The `width` low digits of `n` in base `base`, lowest first. -/
def digits (base : Nat) : Nat → Nat → List Nat
  | 0, _ => []
  | width + 1, n => n % base :: digits base width (n / base)

@[simp] theorem length_digits (base width n : Nat) : (digits base width n).length = width := by
  induction width generalizing n with
  | zero => rfl
  | succ width ih => simp [digits, ih]

theorem digits_lt {base : Nat} (positive : 0 < base) (width n : Nat) :
    ∀ d ∈ digits base width n, d < base := by
  induction width generalizing n with
  | zero => simp [digits]
  | succ width ih =>
    intro d member
    rcases List.mem_cons.mp member with rfl | rest
    · exact Nat.mod_lt _ positive
    · exact ih _ d rest

/-- The digits determine every number that fits in them. -/
theorem digits_inj {base : Nat} (width : Nat) {m n : Nat} (hm : m < base ^ width)
    (hn : n < base ^ width) (same : digits base width m = digits base width n) : m = n := by
  induction width generalizing m n with
  | zero => simp at hm hn; omega
  | succ width ih =>
    simp only [digits, List.cons.injEq] at same
    rw [Nat.pow_succ] at hm hn
    have high := ih (Nat.div_lt_of_lt_mul (by rwa [Nat.mul_comm])) (Nat.div_lt_of_lt_mul
      (by rwa [Nat.mul_comm])) same.2
    rw [← Nat.div_add_mod m base, ← Nat.div_add_mod n base, high, same.1]

end DistCompile.Lib
