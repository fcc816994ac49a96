import DistCompile.Text
import DistCompile.Lib.Kahn

/-!
The task graph (`src/graph.cpp`): validation and topological order, upward rank,
and the split into partitions.

`topo_order` is Kahn's algorithm behind a check that ids are indices and that
dependencies are other tasks of the graph, so its order is the library's
`kahnOrder` on task indices. The costs are 64-bit in the source; the model adds
them as integers.
-/

namespace DistCompile.Graph

open DistCompile.Lib

/-- `GraphTask`. -/
structure GraphTask where
  id : Int
  kind : Int
  cost : Int
  deps : List Int
deriving DecidableEq, Repr

/-- The dependencies of task `i` as indices. -/
def depsOf (t : List GraphTask) (i : Nat) : List Nat :=
  ((t[i]?.map (·.deps)).getD []).map Int.toNat

/-- `succ[d]`: one entry for each edge, in the order of the scan. -/
def succOf (t : List GraphTask) (d : Nat) : List Nat :=
  (List.range t.length).flatMap fun i => ((depsOf t i).filter (· = d)).map fun _ => i

/-- The first complaint of the checking loop. -/
def graphError (t : List GraphTask) : Option Str :=
  t.zipIdx.findSome? fun (x, i) =>
    if x.id ≠ i then some "task ids must be 0..n-1".toList
    else x.deps.findSome? fun (d : Int) =>
      if d < 0 ∨ d ≥ t.length ∨ d = i then
        some ("task ".toList ++ decimal i ++ " has a bad dependency ".toList ++ decimal d)
      else none

/-- `topo_order`; the error is the text put in `*err`. -/
def topoOrder (t : List GraphTask) : Except Str (List Nat) :=
  match graphError t with
  | some err => .error err
  | none =>
      let order := kahnOrder (List.range t.length) (depsOf t) (succOf t)
      if order.length ≠ t.length then .error "dependency cycle".toList else .ok order

/-! ### What an accepted graph is -/

/-- An order of the task indices with every dependency in front of its task. -/
structure IsTopoOrder (t : List GraphTask) (order : List Nat) : Prop where
  ids : ∀ (i : Nat) x, t[i]? = some x → x.id = i
  inRange : ∀ (i : Nat) x, t[i]? = some x → ∀ d ∈ x.deps, 0 ≤ d ∧ d < t.length ∧ d ≠ i
  perm : order.Perm (List.range t.length)
  before : ∀ pre i post, order = pre ++ i :: post → ∀ d ∈ depsOf t i, d ∈ pre

theorem graphError_eq_none {t : List GraphTask} (none : graphError t = none) :
    (∀ (i : Nat) x, t[i]? = some x → x.id = i) ∧
      ∀ (i : Nat) x, t[i]? = some x → ∀ d ∈ x.deps, 0 ≤ d ∧ d < t.length ∧ d ≠ i := by
  have checked : ∀ (i : Nat) x, t[i]? = some x → x.id = i ∧
      ∀ d ∈ x.deps, 0 ≤ d ∧ d < t.length ∧ d ≠ i := by
    intro i x found
    have pass := List.findSome?_eq_none_iff.mp none (x, i) (List.mk_mem_zipIdx_iff_getElem?.mpr found)
    simp only at pass
    split at pass
    · cases pass
    · rename_i same
      refine ⟨by simpa using same, fun d member => ?_⟩
      have := List.findSome?_eq_none_iff.mp pass d member
      split at this
      · cases this
      · rename_i good
        simp only [not_or, not_lt, ge_iff_le, not_le] at good
        exact ⟨good.1, good.2.1, good.2.2⟩
  exact ⟨fun i x found => (checked i x found).1, fun i x found => (checked i x found).2⟩

/-- `succOf` holds an edge as often as `depsOf` does. -/
theorem count_succOf (t : List GraphTask) (d i : Nat) :
    (succOf t d).count i = if i ∈ List.range t.length then (depsOf t i).count d else 0 := by
  rw [succOf, List.count_flatMap]
  have each : ∀ j, (List.count i ∘ fun j => ((depsOf t j).filter (· = d)).map fun _ => j) j =
      if j = i then (depsOf t i).count d else 0 := by
    intro j
    rw [Function.comp_apply]
    rw [List.map_const', List.count_replicate]
    by_cases same : j = i
    · subst same
      rw [if_pos (by simp), if_pos rfl, List.count_eq_countP, List.countP_eq_length_filter]
      congr 2
    · rw [if_neg (by simpa using same), if_neg same]
  rw [List.map_congr_left fun j _ => each j]
  clear each
  induction t.length with
  | zero => simp
  | succ n ih =>
    rw [List.range_succ, List.map_append, List.sum_append, ih]
    by_cases last : n = i
    · subst last; simp
    · have : i ∈ List.range n ++ [n] ↔ i ∈ List.range n := by simp [Ne.symm last]
      simp [last, Ne.symm last]

/-- A returned order is a permutation of the indices that respects the edges. -/
theorem topoOrder_ok {t : List GraphTask} {order : List Nat} (accepted : topoOrder t = .ok order) :
    IsTopoOrder t order := by
  unfold topoOrder at accepted
  cases valid : graphError t with
  | some err => simp [valid] at accepted
  | none =>
    simp only [valid] at accepted
    split at accepted
    · cases accepted
    · rename_i full
      cases accepted
      obtain ⟨ids, inRange⟩ := graphError_eq_none valid
      have topo := kahnOrder_topoOrder (List.nodup_range (n := t.length)) (count_succOf t)
      refine ⟨ids, inRange, ?_, topo.before⟩
      refine (List.subperm_of_subset topo.nodup topo.sub).perm_of_length_le ?_
      rw [not_not] at full
      rw [full, List.length_range]

/-- A graph in order is accepted when a number falls along its dependencies. -/
theorem topoOrder_falling {t : List GraphTask} (valid : graphError t = none) (rank : Nat → Nat)
    (falls : ∀ i ∈ List.range t.length, ∀ d ∈ depsOf t i, d ∈ List.range t.length ∧ rank d < rank i) :
    ∃ order, topoOrder t = .ok order := by
  have full := kahnOrder_complete (List.nodup_range (n := t.length)) (count_succOf t) falls
  have length := (List.subperm_of_subset List.nodup_range full).length_le
  have topo := kahnOrder_topoOrder (List.nodup_range (n := t.length)) (count_succOf t)
  have fits := (List.subperm_of_subset topo.nodup topo.sub).length_le
  rw [List.length_range] at length fits
  refine ⟨kahnOrder (List.range t.length) (depsOf t) (succOf t), ?_⟩
  simp only [topoOrder, valid]
  exact if_neg (not_not.mpr (le_antisymm fits length))

/-- A graph whose ids are indices and whose dependencies are earlier tasks is accepted. -/
theorem topoOrder_accepts {t : List GraphTask} (ids : ∀ (i : Nat) x, t[i]? = some x → x.id = i)
    (earlier : ∀ (i : Nat) x, t[i]? = some x → ∀ d ∈ x.deps, 0 ≤ d ∧ d < i) :
    ∃ order, topoOrder t = .ok order := by
  have valid : graphError t = none := by
    refine List.findSome?_eq_none_iff.mpr fun ⟨x, i⟩ member => ?_
    have found := List.mk_mem_zipIdx_iff_getElem?.mp member
    have inside := (List.getElem?_eq_some_iff.mp found).1
    simp only
    rw [if_neg (not_not.mpr (ids i x found))]
    refine List.findSome?_eq_none_iff.mpr fun d dep => if_neg ?_
    have := earlier i x found d dep
    omega
  refine topoOrder_falling valid id fun i known d dep => ?_
  rw [List.mem_range] at known ⊢
  obtain ⟨e, he, rfl⟩ := List.mem_map.mp dep
  rw [List.getElem?_eq_getElem known] at he
  have := earlier i t[i] (List.getElem?_eq_getElem known) e he
  simp only [id]
  omega

/-- What holds of a task whenever it holds of its dependencies holds of all. -/
theorem IsTopoOrder.induction {t : List GraphTask} {order : List Nat} (topo : IsTopoOrder t order)
    {P : Nat → Prop} (step : ∀ i ∈ order, (∀ d ∈ depsOf t i, P d) → P i) : ∀ i ∈ order, P i := by
  have prefixes : ∀ pre post, order = pre ++ post → ∀ i ∈ pre, P i := by
    intro pre
    induction pre using List.reverseRecOn with
    | nil => simp
    | append_singleton pre i ih =>
      intro post split j hj
      have earlier := ih (i :: post) (by simp [split])
      rcases List.mem_append.mp hj with old | new
      · exact earlier j old
      · obtain rfl := List.mem_singleton.mp new
        refine step j (by simp [split]) fun d hd => earlier d ?_
        exact topo.before pre j post (by simp [split]) d hd
  exact prefixes order [] (by simp)

/-- A dependency stands in front of its task. -/
theorem IsTopoOrder.idxOf_lt {t : List GraphTask} {order : List Nat} (topo : IsTopoOrder t order) {i d : Nat}
    (member : i ∈ order) (dep : d ∈ depsOf t i) : order.idxOf d < order.idxOf i := by
  obtain ⟨pre, post, split⟩ := List.append_of_mem member
  have before := topo.before pre i post split d dep
  have nodup : order.Nodup := topo.perm.nodup_iff.mpr List.nodup_range
  have later : i ∉ pre := by
    rw [split, List.nodup_append] at nodup
    exact fun h => nodup.2.2 i h i (by simp) rfl
  rw [split, List.idxOf_append_of_mem before, List.idxOf_append_of_notMem later]
  have := List.idxOf_lt_length_of_mem before
  omega

/-- `upward_rank`: own cost plus the highest rank among the tasks waiting on it,
in reverse topological order. -/
def upwardRank (t : List GraphTask) : Nat → Int :=
  let order := match topoOrder t with
    | .ok order => order
    | .error _ => []
  order.reverse.foldl (fun rank i =>
    Function.update rank i (((t[i]?.map (·.cost)).getD 0) +
      (succOf t i).foldl (fun best s => max best (rank s)) 0)) fun _ => 0

/-! ### Partitions -/

/-- `unit` and `units` while `partition` groups the tasks; -1 is no unit yet. -/
structure Units where
  unit : Nat → Int
  units : Nat

/-- The lambda `claim(kind)`: a task of this kind takes its unclaimed objects. -/
def claim (t : List GraphTask) (kind : Int) (u : Units) : Units :=
  t.zipIdx.foldl (fun u (x, i) =>
    if x.kind ≠ kind ∨ 0 ≤ u.unit i then u
    else
      { unit := (depsOf t i).foldl (fun unit d =>
          if (t[d]?.map (·.kind)) = some 0 ∧ unit d < 0 then Function.update unit d u.units else unit)
          (Function.update u.unit i u.units)
        units := u.units + 1 }) u

/-- Archives first, then links, then every task left over on its own. -/
def unitsOf (t : List GraphTask) : Units :=
  (List.range t.length).foldl (fun u i =>
    if u.unit i < 0 then ⟨Function.update u.unit i u.units, u.units + 1⟩ else u)
    (claim t 2 (claim t 1 ⟨fun _ => -1, 0⟩))

/-- A unit's cost: at least one for each of its tasks. -/
def unitCost (t : List GraphTask) (u : Units) (k : Nat) : Int :=
  (t.zipIdx.map fun (x, i) => if u.unit i = k then max 1 x.cost else 0).sum

/-- `std::min_element`: the first index of the smallest load. -/
def minIndex : List Int → Nat
  | [] => 0
  | [_] => 0
  | x :: rest => if rest.all (fun y => x ≤ y) then 0 else minIndex rest + 1

/-- `partition`: units in descending cost, each to the lightest partition. -/
def partition (t : List GraphTask) (parts : Int) : Nat → Int :=
  if parts ≤ 1 ∨ t.length = 0 then fun _ => 0
  else
    let u := unitsOf t
    let byCost := (List.range u.units).insertionSort fun a b => unitCost t u b ≤ unitCost t u a
    let placed := byCost.foldl (fun (p : List Int × (Nat → Int)) k =>
      let lightest := minIndex p.1
      (p.1.modify lightest (· + unitCost t u k), Function.update p.2 k (lightest : Int)))
      (List.replicate parts.toNat 0, fun _ => 0)
    fun i => placed.2 (u.unit i).toNat

end DistCompile.Graph
