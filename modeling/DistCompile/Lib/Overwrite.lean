import Mathlib.Data.List.Induction

/-!
Tables changed by writes that replace whole rows.

A write replaces the row that has the key of the one it brings, or leaves a row alone. A list of
writes then does the same: it leaves the rows of a key alone or replaces them by one that it brings.
-/

namespace DistCompile.Lib

variable {Row Key Write Table : Type*}

/-- `on r w` is row `r` after write `w`, and `brings w` is the row that `w` puts in place of the one
with its key. -/
structure Overwrites (key : Row → Key) (brings : Write → Row → Prop) (on : Row → Write → Row) : Prop where
  replaces : ∀ {r row : Row} {w : Write}, brings w row → key r = key row → on r w = row
  spares : ∀ {r : Row} {w : Write}, (∀ row, brings w row → key r ≠ key row) → on r w = r

namespace Overwrites

variable {key : Row → Key} {brings : Write → Row → Prop} {on : Row → Write → Row}

theorem on_key (overwrites : Overwrites key brings on) (r : Row) (w : Write) : key (on r w) = key r := by
  by_cases here : ∃ row, brings w row ∧ key r = key row
  · obtain ⟨row, brought, same⟩ := here
    rw [overwrites.replaces brought same, same]
  · rw [overwrites.spares fun row brought same => here ⟨row, brought, same⟩]

theorem foldl_key (overwrites : Overwrites key brings on) (writes : List Write) (r : Row) :
    key (writes.foldl on r) = key r := by
  induction writes generalizing r with
  | nil => rfl
  | cons w writes ih => exact (ih (on r w)).trans (overwrites.on_key r w)

/-- A row whose key no write brings stays. -/
theorem foldl_untouched (overwrites : Overwrites key brings on) {writes : List Write} {r : Row}
    (untouched : ∀ w ∈ writes, ∀ row, brings w row → key row ≠ key r) : writes.foldl on r = r := by
  induction writes with
  | nil => rfl
  | cons w writes ih =>
    have here : on r w = r := overwrites.spares fun row brought same => untouched w List.mem_cons_self row brought same.symm
    rw [List.foldl_cons, here]
    exact ih fun v member => untouched v (List.mem_cons_of_mem w member)

/-- The writes leave the rows of a key alone, or replace them all by the same one. -/
theorem foldl_cases (overwrites : Overwrites key brings on) (writes : List Write) (k : Key) :
    (∀ r, key r = k → writes.foldl on r = r) ∨
      ∃ w ∈ writes, ∃ row, brings w row ∧ ∀ r, key r = k → writes.foldl on r = row := by
  induction writes using List.reverseRecOn with
  | nil => exact Or.inl fun _ _ => rfl
  | append_singleton writes w ih =>
    have last : ∀ r, (writes ++ [w]).foldl on r = on (writes.foldl on r) w := fun r => by
      rw [List.foldl_append]
      rfl
    by_cases here : ∃ row, brings w row ∧ k = key row
    · obtain ⟨row, brought, same⟩ := here
      refine Or.inr ⟨w, by simp, row, brought, fun r is => ?_⟩
      rw [last, overwrites.replaces brought ((overwrites.foldl_key writes r).trans (is.trans same))]
    · have other : ∀ r, key r = k → on r w = r := fun r is =>
        overwrites.spares fun row brought same => here ⟨row, brought, is.symm.trans same⟩
      rcases ih with alone | ⟨v, member, row, brought, replaced⟩
      · refine Or.inl fun r is => ?_
        rw [last, alone r is, other r is]
      · refine Or.inr ⟨v, List.mem_append_left [w] member, row, brought, fun r is => ?_⟩
        rw [last, other _ ((overwrites.foldl_key writes r).trans is), replaced r is]

end Overwrites

/-- Writes that change a column row by row change it so together. -/
theorem foldl_column {apply : Table → Write → Table} {column : Table → List Row} {on : Row → Write → Row}
    (one : ∀ t w, column (apply t w) = (column t).map fun r => on r w) (writes : List Write) (t : Table) :
    column (writes.foldl apply t) = (column t).map fun r => writes.foldl on r := by
  induction writes generalizing t with
  | nil => exact (List.map_id' _).symm
  | cons w writes ih =>
    rw [List.foldl_cons, ih, one, List.map_map]
    rfl

/-- What no write changes, the writes do not change together. -/
theorem foldl_unchanged {Value : Type*} {apply : Table → Write → Table} {value : Table → Value}
    (one : ∀ t w, value (apply t w) = value t) (writes : List Write) (t : Table) :
    value (writes.foldl apply t) = value t := by
  induction writes generalizing t with
  | nil => rfl
  | cons w writes ih => rw [List.foldl_cons, ih, one]

end DistCompile.Lib
