import DistCompile.Lib.Run
import Mathlib.Logic.Function.Basic

/-!
A loop that brings places up to date, one item after the other.

An item wants content with a digest at its place. A round leaves the place alone where it has
that digest, and else replaces what is there, if the write succeeds. At the end every item has what
it wants exactly if those at one place want the same and at each place that was not up to date
some write succeeded.
-/

namespace DistCompile.Lib

variable {Place Content Digest Item : Type*}

/-- The place holds content with this digest. -/
def HoldsAt (digest : Content → Digest) (disk : Place → Option Content) (q : Place) (h : Digest) : Prop :=
  ∃ c, disk q = some c ∧ digest c = h

/-- A round of the loop; `saves i` says that a write for `i` succeeds. -/
inductive Refresh [DecidableEq Place] (digest : Content → Digest) (place : Item → Place) (wanted : Item → Digest)
    (saves : Item → Prop) (disk : Place → Option Content) (i : Item) : (Place → Option Content) → Prop where
  | current (held : HoldsAt digest disk (place i) (wanted i)) : Refresh digest place wanted saves disk i disk
  | saved {c : Content} (right : digest c = wanted i) (succeeds : saves i) :
      Refresh digest place wanted saves disk i (Function.update disk (place i) (some c))
  | lost (fails : ¬ saves i) : Refresh digest place wanted saves disk i disk

namespace Refresh

variable [DecidableEq Place] {digest : Content → Digest} {place : Item → Place} {wanted : Item → Digest}
  {saves : Item → Prop} {disk disk' : Place → Option Content} {i : Item} {items : List Item} {q : Place} {h : Digest}

/-- A place keeps the digest that its items want. -/
theorem keeps (round : Refresh digest place wanted saves disk i disk') (agree : place i = q → wanted i = h)
    (held : HoldsAt digest disk q h) : HoldsAt digest disk' q h := by
  cases round with
  | current | lost => exact held
  | saved right succeeds =>
    rename_i c
    by_cases here : q = place i
    · exact ⟨c, by rw [here, Function.update_self], right.trans (agree here.symm)⟩
    · obtain ⟨c', found, right'⟩ := held
      exact ⟨c', by rw [Function.update_of_ne here, found], right'⟩

/-- An item whose write succeeds has what it wants. -/
theorem gains (round : Refresh digest place wanted saves disk i disk') (succeeds : saves i) :
    HoldsAt digest disk' (place i) (wanted i) := by
  cases round with
  | current held => exact held
  | saved right => exact ⟨_, Function.update_self _ _ _, right⟩
  | lost fails => exact absurd succeeds fails

/-- What a place holds it held before, or it was written. -/
theorem origin (round : Refresh digest place wanted saves disk i disk') (held : HoldsAt digest disk' q h) :
    HoldsAt digest disk q h ∨ (place i = q ∧ saves i) := by
  cases round with
  | current | lost => exact Or.inl held
  | saved right succeeds =>
    by_cases here : q = place i
    · exact Or.inr ⟨here.symm, succeeds⟩
    · obtain ⟨c, found, right'⟩ := held
      rw [Function.update_of_ne here] at found
      exact Or.inl ⟨c, found, right'⟩

theorem run_keeps (run : Runs (Refresh digest place wanted saves) disk items disk')
    (agree : ∀ i ∈ items, place i = q → wanted i = h) (held : HoldsAt digest disk q h) :
    HoldsAt digest disk' q h := by
  induction run with
  | nil => exact held
  | snoc _ last ih =>
    exact last.keeps (agree _ (by simp)) (ih fun i hi => agree i (List.mem_append_left _ hi))

theorem run_origin (run : Runs (Refresh digest place wanted saves) disk items disk')
    (held : HoldsAt digest disk' q h) : HoldsAt digest disk q h ∨ ∃ i ∈ items, place i = q ∧ saves i := by
  induction run with
  | nil => exact Or.inl held
  | snoc _ last ih =>
    rcases last.origin held with before | ⟨here, succeeds⟩
    · rcases ih before with start | ⟨i, hi, rest⟩
      · exact Or.inl start
      · exact Or.inr ⟨i, List.mem_append_left _ hi, rest⟩
    · exact Or.inr ⟨_, by simp, here, succeeds⟩

/-- Every item ends with what it wants exactly if the items at one place want the same, and each
place was up to date or is written. -/
theorem run_iff (run : Runs (Refresh digest place wanted saves) disk items disk') :
    (∀ i ∈ items, HoldsAt digest disk' (place i) (wanted i)) ↔
      (∀ i ∈ items, ∀ j ∈ items, place i = place j → wanted i = wanted j) ∧
        ∀ i ∈ items, HoldsAt digest disk (place i) (wanted i) ∨ ∃ j ∈ items, place j = place i ∧ saves j := by
  constructor
  · intro all
    refine ⟨fun i hi j hj same => ?_, fun i hi => run_origin run (all i hi)⟩
    obtain ⟨c, found, right⟩ := all i hi
    obtain ⟨c', found', right'⟩ := all j hj
    rw [same, found'] at found
    rw [← right, ← right', Option.some.inj found]
  · rintro ⟨agree, kept⟩ i hi
    have there : ∀ j ∈ items, place j = place i → wanted j = wanted i := fun j hj same => agree j hj i hi same
    rcases kept i hi with start | ⟨j, hj, same, succeeds⟩
    · exact run_keeps run there start
    · -- from the round of `j` on
      obtain ⟨before, after, rfl⟩ := List.append_of_mem hj
      obtain ⟨disk₁, disk₂, -, round, rest⟩ := run.split_at
      refine run_keeps rest (fun k hk => there k (by simp [hk])) ?_
      rw [← same, ← there j hj same]
      exact round.gains succeeds

end Refresh

end DistCompile.Lib
