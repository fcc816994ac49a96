import DistCompile.Graph

/-!
What `topo_order` accepts and what `upward_rank` computes (`src/graph.cpp`).

`topo_order` accepts exactly the graphs without a cycle whose ids are indices. A rank is the
cost of a path: the recursion over the tasks that wait on a task picks the most expensive one
(`upwardRank_eq`), and along the order every rank is final when it is read. The sums are 64-bit
in the source; `upwardRank64` has no result where one of them does not fit.
-/

namespace DistCompile.Graph

open DistCompile.Lib Relation

/-! ### Acyclic graphs -/

/-- `d` is a dependency of `i`. -/
def IsDep (t : List GraphTask) (d i : Nat) : Prop := d ∈ depsOf t i

/-- Ids are indices, dependencies are other tasks, and no task waits for itself. -/
structure IsDag (t : List GraphTask) : Prop where
  ids : ∀ (i : Nat) x, t[i]? = some x → x.id = i
  inRange : ∀ (i : Nat) x, t[i]? = some x → ∀ d ∈ x.deps, 0 ≤ d ∧ d < t.length ∧ d ≠ i
  acyclic : ∀ i, ¬ TransGen (IsDep t) i i

section Dag

variable {t : List GraphTask} {order : List Nat} {i d : Nat}

theorem lt_length_of_dep (dep : d ∈ depsOf t i) : i < t.length := by
  by_contra outside
  rw [depsOf, List.getElem?_eq_none (Nat.not_lt.mp outside)] at dep
  cases dep

theorem dep_lt_length (inRange : ∀ (i : Nat) x, t[i]? = some x → ∀ d ∈ x.deps, 0 ≤ d ∧ d < t.length ∧ d ≠ i)
    (dep : d ∈ depsOf t i) : d < t.length := by
  have known := lt_length_of_dep dep
  obtain ⟨e, he, rfl⟩ := List.mem_map.mp dep
  rw [List.getElem?_eq_getElem known] at he
  have := inRange i t[i] (List.getElem?_eq_getElem known) e he
  omega

theorem IsTopoOrder.mem_iff (topo : IsTopoOrder t order) : i ∈ order ↔ i < t.length := by
  rw [topo.perm.mem_iff, List.mem_range]

theorem IsTopoOrder.isDag (topo : IsTopoOrder t order) : IsDag t where
  ids := topo.ids
  inRange := topo.inRange
  acyclic := by
    have falls : ∀ d i, IsDep t d i → order.idxOf d < order.idxOf i := fun _ _ dep =>
      topo.idxOf_lt (topo.mem_iff.mpr (lt_length_of_dep dep)) dep
    exact not_transGen_self falls

theorem graphError_of_isDag (dag : IsDag t) : graphError t = none := by
  refine List.findSome?_eq_none_iff.mpr fun ⟨x, i⟩ member => ?_
  have found := List.mk_mem_zipIdx_iff_getElem?.mp member
  simp only
  rw [if_neg (not_not.mpr (dag.ids i x found))]
  refine List.findSome?_eq_none_iff.mpr fun d dep => if_neg ?_
  have := dag.inRange i x found d dep
  omega

/-- No acyclic graph is rejected. -/
theorem topoOrder_of_isDag (dag : IsDag t) : ∃ order, topoOrder t = .ok order := by
  have inside : ∀ i ∈ List.range t.length, ∀ d ∈ depsOf t i, d ∈ List.range t.length := fun i _ d dep =>
    List.mem_range.mpr (dep_lt_length dag.inRange dep)
  obtain ⟨rank, falls⟩ := exists_rank inside fun i _ => dag.acyclic i
  exact topoOrder_falling (graphError_of_isDag dag) rank fun i known d dep =>
    ⟨inside i known d dep, falls i known d dep⟩

theorem graphError_ne_nil {message : Str} (error : graphError t = some message) : message ≠ [] := by
  obtain ⟨⟨x, i⟩, -, found⟩ := List.exists_of_findSome?_eq_some error
  dsimp only at found
  split at found
  · cases found
    decide
  · obtain ⟨d, -, complaint⟩ := List.exists_of_findSome?_eq_some found
    simp only [Option.ite_none_right_eq_some, Option.some.injEq] at complaint
    rw [← complaint.2]
    simp

/-- `topo_order` is exact: it returns an order of all tasks, each behind its dependencies, for the
acyclic graphs, and a message for all others. -/
theorem topoOrder_exact (t : List GraphTask) :
    ((∃ order, topoOrder t = .ok order) ↔ IsDag t) ∧
      (∀ order, topoOrder t = .ok order → order.length = t.length ∧ order.Perm (List.range t.length) ∧
        ∀ pre i post, order = pre ++ i :: post → ∀ d ∈ depsOf t i, d ∈ pre) ∧
      ∀ message, topoOrder t = .error message → message ≠ [] := by
  refine ⟨⟨fun ⟨order, accepted⟩ => (topoOrder_ok accepted).isDag, topoOrder_of_isDag⟩, fun order accepted => ?_,
    fun message rejected => ?_⟩
  · have topo := topoOrder_ok accepted
    exact ⟨by rw [topo.perm.length_eq, List.length_range], topo.perm, topo.before⟩
  · rw [topoOrder] at rejected
    cases valid : graphError t with
    | some complaint =>
      simp only [valid, Except.error.injEq] at rejected
      exact rejected ▸ graphError_ne_nil valid
    | none =>
      simp only [valid] at rejected
      split at rejected
      · cases rejected
        decide
      · cases rejected

end Dag

/-! ### Critical paths -/

/-- The cost of task `i`. -/
def costOf (t : List GraphTask) (i : Nat) : Int := (t[i]?.map (·.cost)).getD 0

/-- A path from `i`: each task on it is a dependency of the next. -/
structure IsPath (t : List GraphTask) (i : Nat) (path : List Nat) : Prop where
  start : path.head? = some i
  steps : path.IsChain (IsDep t)

def pathCost (t : List GraphTask) (path : List Nat) : Int := (path.map (costOf t)).sum

/-- The cost of some path from `i`. -/
def IsPathCost (t : List GraphTask) (i : Nat) (cost : Int) : Prop :=
  ∃ path, IsPath t i path ∧ pathCost t path = cost

/-- A value of type `int64_t`; a sum that does not fit has none. -/
def int64 (n : Int) : Option Int := if -2 ^ 63 ≤ n ∧ n < 2 ^ 63 then some n else none

/-- The body of the loop of `upward_rank`: the rank of task `i`, given those of the tasks behind it. -/
def rankOf (t : List GraphTask) (rank : Nat → Int) (i : Nat) : Int :=
  costOf t i + (succOf t i).foldl (fun best s => max best (rank s)) 0

/-- The order that `upward_rank` walks. -/
def rankOrder (t : List GraphTask) : List Nat :=
  (match topoOrder t with
    | .ok order => order
    | .error _ => []).reverse

/-- `upward_rank` in 64-bit arithmetic. -/
def upwardRank64 (t : List GraphTask) : Option (Nat → Int) :=
  (rankOrder t).foldlM (fun rank i => (int64 (rankOf t rank i)).map (Function.update rank i)) fun _ => 0

section Rank

variable {t : List GraphTask} {order : List Nat} {i s : Nat} {rank : Nat → Int}

theorem upwardRank_evalOrder (t : List GraphTask) :
    upwardRank t = evalOrder (rankOf t) (rankOrder t) fun _ => 0 := rfl

theorem mem_succOf : s ∈ succOf t i ↔ i ∈ depsOf t s := by
  rw [← List.count_pos_iff, count_succOf, ← List.count_pos_iff (l := depsOf t s)]
  split
  · rfl
  · rename_i outside
    rw [List.mem_range, Nat.not_lt] at outside
    refine iff_of_false (lt_irrefl 0) fun dep => ?_
    have := lt_length_of_dep (List.count_pos_iff.mp dep)
    omega

/-- In the reverse order, the tasks that wait on a task are in front of it. -/
theorem succ_before (topo : IsTopoOrder t order) {pre post : List Nat} (split : order.reverse = pre ++ i :: post) :
    ∀ s ∈ succOf t i, s ∈ pre := by
  intro s waits
  have dep := mem_succOf.mp waits
  have member : s ∈ order := topo.mem_iff.mpr (lt_length_of_dep dep)
  have nodup : order.reverse.Nodup := (List.reverse_perm order).nodup_iff.mpr
    (topo.perm.nodup_iff.mpr List.nodup_range)
  have forward : order = post.reverse ++ i :: pre.reverse := by
    rw [← order.reverse_reverse, split]
    simp
  rw [forward] at member
  rcases List.mem_append.mp member with early | late
  · -- then the dependency would stand twice in the order
    obtain ⟨before, after, part⟩ := List.append_of_mem early
    have again := topo.before before s (after ++ i :: pre.reverse) (by rw [forward, part]; simp) i dep
    have twice : i ∈ post := by
      rw [← List.mem_reverse, part]
      exact List.mem_append_left _ again
    rw [split, List.nodup_append, List.nodup_cons] at nodup
    exact absurd twice nodup.2.1.1
  · rcases List.mem_cons.mp late with rfl | later
    · have := topo.isDag.acyclic s (.single dep)
      exact absurd this id
    · exact List.mem_reverse.mp later

theorem le_foldl_max (rank : Nat → Int) (l : List Nat) (b : Int) :
    b ≤ l.foldl (fun best s => max best (rank s)) b ∧ ∀ s ∈ l, rank s ≤ l.foldl (fun best s => max best (rank s)) b := by
  induction l generalizing b with
  | nil => simp
  | cons s l ih =>
    obtain ⟨start, all⟩ := ih (max b (rank s))
    refine ⟨(le_max_left _ _).trans start, fun u hu => ?_⟩
    rcases List.mem_cons.mp hu with rfl | later
    · exact (le_max_right _ _).trans start
    · exact all u later

theorem foldl_max_mem (rank : Nat → Int) (l : List Nat) (b : Int) :
    l.foldl (fun best s => max best (rank s)) b = b ∨ ∃ s ∈ l, l.foldl (fun best s => max best (rank s)) b = rank s := by
  induction l generalizing b with
  | nil => exact Or.inl rfl
  | cons s l ih =>
    rcases ih (max b (rank s)) with same | ⟨u, hu, same⟩
    · rcases max_choice b (rank s) with first | second
      · exact Or.inl (same.trans first)
      · exact Or.inr ⟨s, by simp, same.trans second⟩
    · exact Or.inr ⟨u, by simp [hu], same⟩

/-- Every rank is the cost of the task and the highest rank that waits on it. -/
theorem upwardRank_eq (topo : IsTopoOrder t order) (accepted : topoOrder t = .ok order) (known : i < t.length) :
    upwardRank t i = rankOf t (upwardRank t) i := by
  rw [upwardRank_evalOrder, rankOrder, accepted]
  have reads : ∀ (val val' : Nat → Int) v, (∀ s ∈ succOf t v, val s = val' s) → rankOf t val v = rankOf t val' v := by
    intro val val' v same
    rw [rankOf, rankOf]
    exact congrArg _ (List.foldl_ext _ _ 0 fun best s waits => by rw [same s waits])
  refine evalOrder_eq reads ?_ (fun pre v post split => succ_before topo split)
    _ (List.mem_reverse.mpr (topo.mem_iff.mpr known))
  exact (List.reverse_perm order).nodup_iff.mpr (topo.perm.nodup_iff.mpr List.nodup_range)

theorem IsPath.single (t : List GraphTask) (i : Nat) : IsPath t i [i] := ⟨rfl, .singleton i⟩

theorem IsPath.cons {path : List Nat} (waits : s ∈ succOf t i) (rest : IsPath t s path) : IsPath t i (i :: path) := by
  obtain ⟨start, steps⟩ := rest
  cases path with
  | nil => cases start
  | cons u path =>
    obtain rfl : u = s := Option.some.inj start
    exact ⟨rfl, List.isChain_cons_cons.mpr ⟨mem_succOf.mp waits, steps⟩⟩

@[simp] theorem pathCost_cons (path : List Nat) : pathCost t (i :: path) = costOf t i + pathCost t path := by
  simp [pathCost]

/-- No path costs more than the rank. -/
theorem pathCost_le (topo : IsTopoOrder t order) (accepted : topoOrder t = .ok order) {path : List Nat}
    (isPath : IsPath t i path) (known : i < t.length) : pathCost t path ≤ upwardRank t i := by
  induction path generalizing i with
  | nil => cases isPath.start
  | cons v path ih =>
    obtain rfl : v = i := Option.some.inj isPath.start
    rw [upwardRank_eq topo accepted known, rankOf, pathCost_cons]
    obtain ⟨start, all⟩ := le_foldl_max (upwardRank t) (succOf t v) 0
    cases path with
    | nil =>
      have none_ : pathCost t [] = 0 := rfl
      omega
    | cons s path =>
      obtain ⟨step, rest⟩ := List.isChain_cons_cons.mp isPath.steps
      have later := ih ⟨rfl, rest⟩ (lt_length_of_dep step)
      have := all s (mem_succOf.mpr step)
      omega

/-- Some path costs as much. -/
theorem upwardRank_isPathCost (topo : IsTopoOrder t order) (accepted : topoOrder t = .ok order)
    (known : i < t.length) : IsPathCost t i (upwardRank t i) := by
  have nodup : order.Nodup := topo.perm.nodup_iff.mpr List.nodup_range
  induction size : order.length - order.idxOf i using Nat.strong_induction_on generalizing i with
  | _ n ih =>
    have place := List.idxOf_lt_length_of_mem (topo.mem_iff.mpr known)
    rw [upwardRank_eq topo accepted known, rankOf]
    rcases foldl_max_mem (upwardRank t) (succOf t i) 0 with none_ | ⟨s, waits, best⟩
    · exact ⟨[i], .single t i, by rw [none_]; simp [pathCost]⟩
    · have dep := mem_succOf.mp waits
      have later := topo.idxOf_lt (topo.mem_iff.mpr (lt_length_of_dep dep)) dep
      obtain ⟨path, isPath, cost⟩ := ih _ (by omega) (lt_length_of_dep dep) rfl
      exact ⟨i :: path, .cons waits isPath, by rw [best, pathCost_cons, cost]⟩

/-- A fold whose every sum fits. -/
theorem foldlM_int64 {l : List Nat} {rank : Nat → Int}
    (fits : ∀ pre i post, l = pre ++ i :: post →
      int64 (rankOf t (evalOrder (rankOf t) pre rank) i) = some (rankOf t (evalOrder (rankOf t) pre rank) i)) :
    l.foldlM (fun rank i => (int64 (rankOf t rank i)).map (Function.update rank i)) rank =
      some (evalOrder (rankOf t) l rank) := by
  induction l generalizing rank with
  | nil => rfl
  | cons i l ih =>
    have first : int64 (rankOf t rank i) = some (rankOf t rank i) := fits [] i l rfl
    rw [List.foldlM_cons, first, Option.map_some, Option.bind_eq_bind, Option.bind_some]
    exact ih fun pre v post split => fits (i :: pre) v post (by rw [split]; rfl)

/-- When the costs of all paths fit, every sum that `upward_rank` makes fits. -/
theorem upwardRank64_eq (topo : IsTopoOrder t order) (accepted : topoOrder t = .ok order)
    (fits : ∀ i < t.length, ∀ cost, IsPathCost t i cost → int64 cost = some cost) :
    upwardRank64 t = some (upwardRank t) := by
  rw [upwardRank64, upwardRank_evalOrder]
  refine foldlM_int64 fun pre i post split => ?_
  rw [rankOrder, accepted] at split
  have nodup : order.reverse.Nodup := (List.reverse_perm order).nodup_iff.mpr
    (topo.perm.nodup_iff.mpr List.nodup_range)
  have known : i < t.length := topo.mem_iff.mp (List.mem_reverse.mp (by rw [split]; simp))
  have later : i ∉ post := by
    rw [split, List.nodup_append, List.nodup_cons] at nodup
    exact nodup.2.1.1
  -- the sum is the rank that the task keeps
  have final : rankOf t (evalOrder (rankOf t) pre fun _ => 0) i = upwardRank t i := by
    rw [upwardRank_evalOrder, rankOrder, accepted]
    exact (split ▸ evalOrder_at later _).symm
  rw [final]
  exact fits i known _ (upwardRank_isPathCost topo accepted known)

/-- `upward_rank` computes critical paths: a rank is the highest cost of a path that starts at the
task, so with costs that are not negative no task ranks above its dependencies. -/
theorem upwardRank_greatest (accepted : topoOrder t = .ok order)
    (fits : ∀ i < t.length, ∀ cost, IsPathCost t i cost → int64 cost = some cost) :
    ∃ rank, upwardRank64 t = some rank ∧
      (∀ i < t.length, IsGreatest {cost | IsPathCost t i cost} (rank i)) ∧
      ∀ i d, d ∈ depsOf t i → costOf t d + rank i ≤ rank d ∧ (0 ≤ costOf t d → rank i ≤ rank d) := by
  have topo := topoOrder_ok accepted
  refine ⟨upwardRank t, upwardRank64_eq topo accepted fits, fun i known => ⟨?_, ?_⟩, fun i d dep => ?_⟩
  · exact upwardRank_isPathCost topo accepted known
  · rintro cost ⟨path, isPath, rfl⟩
    exact pathCost_le topo accepted isPath known
  · have known : d < t.length := dep_lt_length topo.inRange dep
    have above := (le_foldl_max (upwardRank t) (succOf t d) 0).2 i (mem_succOf.mpr dep)
    rw [upwardRank_eq topo accepted known, rankOf]
    exact ⟨by omega, fun _ => by omega⟩

/-- Costs that are not negative fit when the ranks do. -/
theorem isPathCost_fits (accepted : topoOrder t = .ok order) (nonneg : ∀ i, 0 ≤ costOf t i)
    (small : ∀ i < t.length, upwardRank t i < 2 ^ 63) :
    ∀ i < t.length, ∀ cost, IsPathCost t i cost → int64 cost = some cost := by
  rintro i known cost ⟨path, isPath, rfl⟩
  have above := pathCost_le (topoOrder_ok accepted) accepted isPath known
  have below : 0 ≤ pathCost t path := List.sum_nonneg fun c hc => by
    obtain ⟨j, -, rfl⟩ := List.mem_map.mp hc
    exact nonneg j
  exact if_pos ⟨by omega, above.trans_lt (small i known)⟩

end Rank

/-- Two objects in an archive, and a link of it with a third. -/
def sampleGraph : List GraphTask :=
  [⟨0, 0, 100, []⟩, ⟨1, 0, 300, []⟩, ⟨2, 0, 50, []⟩, ⟨3, 1, 10, [0, 1]⟩, ⟨4, 2, 20, [2, 3]⟩]

theorem upwardRank_greatest_sample :
    ∃ rank, upwardRank64 sampleGraph = some rank ∧ IsGreatest {cost | IsPathCost sampleGraph 1 cost} (rank 1) ∧
      rank 4 ≤ rank 3 := by
  have accepted : topoOrder sampleGraph = .ok [0, 1, 2, 3, 4] := by decide +kernel
  have nonneg : ∀ i, 0 ≤ costOf sampleGraph i := by
    intro i
    rw [costOf]
    cases found : sampleGraph[i]? with
    | none => exact le_refl 0
    | some x =>
      have all : ∀ x ∈ sampleGraph, 0 ≤ x.cost := by decide
      exact all x (List.mem_of_getElem? found)
  have small : ∀ i < sampleGraph.length, upwardRank sampleGraph i < 2 ^ 63 := by decide +kernel
  obtain ⟨rank, computed, greatest, below⟩ :=
    upwardRank_greatest accepted (isPathCost_fits accepted nonneg small)
  exact ⟨rank, computed, greatest 1 (by decide), (below 4 3 (by decide)).2 (nonneg 3)⟩

end DistCompile.Graph
