import Mathlib.Logic.Relation
import Mathlib.Order.Basic

/-!
Waiting for locks.

Agents hold resources, and each wants at most one more. An agent waits for the one
that holds what it wants. Agents that wait for each other in a circle are
deadlocked. No circle closes when the resources have a rank and whoever waits wants
something of higher rank than all it holds (`Climbing.not_deadlocked`).
-/

namespace DistCompile.Lib

open Relation

variable {Agent Resource Rank : Type*} (wants : Agent → Option Resource)
  (holds : Agent → Resource → Prop)

/-- Agent `b` holds what agent `a` wants. -/
def WaitsFor (a b : Agent) : Prop := a ≠ b ∧ ∃ r, wants a = some r ∧ holds b r

/-- Some agents wait for each other in a circle. -/
def Deadlocked : Prop := ∃ a, TransGen (WaitsFor wants holds) a a

/-- Whoever waits for another agent wants a resource above all it holds. -/
def Climbing [LT Rank] (rank : Resource → Rank) : Prop :=
  ∀ a b r, a ≠ b → wants a = some r → holds b r → ∀ s, holds a s → rank s < rank r

variable {wants holds}

/-- Along a chain of waiting agents the ranks rise. -/
theorem Climbing.rises [Preorder Rank] {rank : Resource → Rank} (climbing : Climbing wants holds rank)
    {a b : Agent} (chain : TransGen (WaitsFor wants holds) a b) :
    ∃ r, holds b r ∧ ∀ s, holds a s → rank s < rank r := by
  induction chain with
  | single waits =>
    obtain ⟨other, r, wanted, held⟩ := waits
    exact ⟨r, held, climbing _ _ r other wanted held⟩
  | tail _ waits ih =>
    obtain ⟨r, held, above⟩ := ih
    obtain ⟨other, r', wanted, held'⟩ := waits
    have higher : rank r < rank r' := climbing _ _ r' other wanted held' r held
    exact ⟨r', held', fun s mine => (above s mine).trans higher⟩

theorem Climbing.not_deadlocked [Preorder Rank] {rank : Resource → Rank}
    (climbing : Climbing wants holds rank) : ¬ Deadlocked wants holds := by
  rintro ⟨a, circle⟩
  obtain ⟨r, held, above⟩ := climbing.rises circle
  exact lt_irrefl _ (above r held)

/-- Two agents that want what the other holds. -/
theorem deadlocked_of_pair {a b : Agent} (other : a ≠ b) {r s : Resource} (first : wants a = some r)
    (second : wants b = some s) (held : holds b r) (held' : holds a s) : Deadlocked wants holds :=
  ⟨a, (TransGen.single ⟨other, r, first, held⟩).tail ⟨other.symm, s, second, held'⟩⟩

end DistCompile.Lib
