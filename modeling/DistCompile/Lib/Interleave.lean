import Mathlib.Data.List.Basic

/-!
A list split in two by position.

`pick p l` is what stands in `l` at the positions that `p` accepts, in order. What it leaves is
picked by the complement, and the two interleave to the list again: so nothing is lost, nothing
comes twice, and each part is in the order of the list.
-/

namespace DistCompile.Lib

variable {α : Type*}

/-- The elements of a list at the positions `p` accepts. -/
def pick (p : Nat → Bool) : List α → List α
  | [] => []
  | a :: l => if p 0 then a :: pick (fun i => p (i + 1)) l else pick (fun i => p (i + 1)) l

/-- The third list is made of the first two, each in its order. -/
inductive Interleaves : List α → List α → List α → Prop where
  | nil : Interleaves [] [] []
  | left {a : α} {xs ys zs : List α} : Interleaves xs ys zs → Interleaves (a :: xs) ys (a :: zs)
  | right {a : α} {xs ys zs : List α} : Interleaves xs ys zs → Interleaves xs (a :: ys) (a :: zs)

section Pick

variable {p q : Nat → Bool} {a : α} {l : List α}

theorem pick_cons_of_true (here : p 0 = true) : pick p (a :: l) = a :: pick (fun i => p (i + 1)) l := by
  rw [pick, if_pos here]

theorem pick_cons_of_false (here : p 0 = false) : pick p (a :: l) = pick (fun i => p (i + 1)) l := by
  rw [pick, here, if_neg Bool.false_ne_true]

theorem mem_pick : a ∈ pick p l ↔ ∃ i, l[i]? = some a ∧ p i = true := by
  induction l generalizing p with
  | nil => simp [pick]
  | cons b l ih =>
    rw [← Nat.or_exists_add_one]
    simp only [List.getElem?_cons_zero, List.getElem?_cons_succ, Option.some.injEq, ← ih (p := fun i => p (i + 1))]
    cases here : p 0 with
    | true => simp [pick_cons_of_true here, eq_comm]
    | false => simp [pick_cons_of_false here]

/-- What is picked and what is left make up the list. -/
theorem interleaves_pick (p : Nat → Bool) (l : List α) : Interleaves (pick p l) (pick (fun i => !p i) l) l := by
  induction l generalizing p with
  | nil => exact .nil
  | cons a l ih =>
    cases here : p 0 with
    | true =>
      rw [pick_cons_of_true here, pick_cons_of_false (p := fun i => !p i) (by rw [here]; rfl)]
      exact .left (ih fun i => p (i + 1))
    | false =>
      rw [pick_cons_of_false here, pick_cons_of_true (p := fun i => !p i) (by rw [here]; rfl)]
      exact .right (ih fun i => p (i + 1))

end Pick

namespace Interleaves

variable {xs ys zs : List α}

theorem symm (parts : Interleaves xs ys zs) : Interleaves ys xs zs := by
  induction parts with
  | nil => exact .nil
  | left _ ih => exact .right ih
  | right _ ih => exact .left ih

/-- Each part is in the order of the list. -/
theorem sublist (parts : Interleaves xs ys zs) : xs.Sublist zs := by
  induction parts with
  | nil => exact .slnil
  | left _ ih => exact ih.cons_cons _
  | right _ ih => exact ih.cons _

/-- Together the parts are the list, up to order. -/
theorem perm (parts : Interleaves xs ys zs) : (xs ++ ys).Perm zs := by
  induction parts with
  | nil => exact .nil
  | left _ ih => exact ih.cons _
  | right _ ih => exact List.perm_middle.trans (ih.cons _)

end Interleaves

end DistCompile.Lib
