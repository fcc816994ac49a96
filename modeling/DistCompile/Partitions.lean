import DistCompile.Units
import DistCompile.Lib.Greedy

/-!
How `partition` (`src/graph.cpp`) spreads the units over the partitions.

The units are taken in descending cost and each goes to the lightest partition, so their placement
is `Greedy` and its balance follows from the library. `partition64` has the 64-bit additions of the
source; where the costs fit, it is `partition`.
-/

namespace DistCompile.Graph

open DistCompile.Lib

/-! ### 64-bit sums -/

/-- An addition of `int64_t` values: exact where the sum fits, and any value where it overflows. -/
def IsAdd64 (add : Int → Int → Int) : Prop := ∀ a b, int64 (a + b) = some (a + b) → add a b = a + b

/-- The vector `cost`. -/
def unitCosts (add : Int → Int → Int) (t : List GraphTask) (u : Units) : Nat → Int :=
  t.zipIdx.foldl (fun cost (x, i) =>
    Function.update cost (u.unit i).toNat (add (cost (u.unit i).toNat) (max 1 x.cost))) fun _ => 0

/-- The vector `by_cost`. -/
def byCost (cost : Nat → Int) (units : Nat) : List Nat :=
  (List.range units).insertionSort fun a b => cost b ≤ cost a

/-- The body of the LPT loop, on `load` and `unit_part`. -/
def placeUnit (add : Int → Int → Int) (cost : Nat → Int) (p : List Int × (Nat → Int)) (k : Nat) :
    List Int × (Nat → Int) :=
  let lightest := minIndex p.1
  (p.1.modify lightest (add · (cost k)), Function.update p.2 k (lightest : Int))

/-- `load` and `unit_part` after the units of `order`. -/
def placeUnits (add : Int → Int → Int) (cost : Nat → Int) (parts : Int) (order : List Nat) :
    List Int × (Nat → Int) :=
  order.foldl (placeUnit add cost) (List.replicate parts.toNat 0, fun _ => 0)

/-- `partition` with the 64-bit additions of the source. -/
def partition64 (add : Int → Int → Int) (t : List GraphTask) (parts : Int) : Nat → Int :=
  if parts ≤ 1 ∨ t.length = 0 then fun _ => 0
  else
    let u := unitsOf t
    let cost := unitCosts add t u
    let placed := placeUnits add cost parts (byCost cost u.units)
    fun i => placed.2 (u.unit i).toNat

/-! ### The lightest partition -/

theorem minIndex_lt {l : List Int} (some_ : l ≠ []) : minIndex l < l.length := by
  fun_induction minIndex l with
  | case1 => exact absurd rfl some_
  | case2 => simp
  | case3 => simp
  | case4 x rest more other ih => simpa using ih more

theorem getElem_minIndex_le {l : List Int} (inside : minIndex l < l.length) : ∀ y ∈ l, l[minIndex l] ≤ y := by
  fun_induction minIndex l with
  | case1 => simp
  | case2 => simp
  | case3 x rest more lowest =>
    intro y member
    rcases List.mem_cons.mp member with rfl | later
    · exact le_refl _
    · simpa using List.all_eq_true.mp lowest y later
  | case4 x rest more other ih =>
    have below := ih (minIndex_lt more)
    simp only [List.getElem_cons_succ]
    intro y member
    rcases List.mem_cons.mp member with rfl | later
    · -- some later load is below the first
      simp only [List.all_eq_true, decide_eq_true_eq, not_forall, not_le] at other
      obtain ⟨z, hz, less⟩ := other
      exact (below z hz).trans less.le
    · exact below y later

section Place

variable (add : Int → Int → Int) (cost : Nat → Int) {t : List GraphTask} {parts : Int} (order : List Nat)

theorem placeUnits_append (k : Nat) :
    placeUnits add cost parts (order ++ [k]) = placeUnit add cost (placeUnits add cost parts order) k := by
  simp [placeUnits]

theorem placeUnits_length : (placeUnits add cost parts order).1.length = parts.toNat := by
  induction order using List.reverseRecOn with
  | nil => simp [placeUnits]
  | append_singleton order k ih => simpa [placeUnits_append, placeUnit] using ih

theorem minIndex_placeUnits (some_ : 1 ≤ parts) : minIndex (placeUnits add cost parts order).1 < parts.toNat := by
  have length : (placeUnits add cost parts order).1.length = parts.toNat := placeUnits_length add cost order
  rw [← length]
  refine minIndex_lt fun none => ?_
  rw [none, List.length_nil] at length
  omega

/-- Every unit is placed in one of the partitions. -/
theorem placeUnits_range (some_ : 1 ≤ parts) (k : Nat) :
    0 ≤ (placeUnits add cost parts order).2 k ∧ (placeUnits add cost parts order).2 k < parts := by
  induction order using List.reverseRecOn with
  | nil => exact ⟨le_refl 0, some_⟩
  | append_singleton order j ih =>
    have inside := minIndex_placeUnits add cost order some_
    rw [placeUnits_append]
    simp only [placeUnit]
    by_cases same : k = j
    · subst same
      rw [Function.update_self]
      omega
    · rw [Function.update_of_ne same]
      exact ih

variable {i j : Nat}

theorem partition64_range (some_ : 1 ≤ parts) :
    0 ≤ partition64 add t parts i ∧ partition64 add t parts i < parts := by
  rw [partition64]
  split
  · exact ⟨le_refl 0, some_⟩
  · exact placeUnits_range add _ _ some_ _

/-- A unit is not split. -/
theorem partition64_congr (same : (unitsOf t).unit i = (unitsOf t).unit j) :
    partition64 add t parts i = partition64 add t parts j := by
  rw [partition64]
  split
  · rfl
  · simp only [same]

/-- `partition` keeps groups together: an object is with its first archive, or else with its first
link, and the units that it places cover every task once. -/
theorem partition_local (some_ : 1 ≤ parts) :
    (∀ i < t.length, 0 ≤ partition64 add t parts i ∧ partition64 add t parts i < parts) ∧
      (∀ i a, kindOf t i = some 0 → IsFirstUser t 1 i a → partition64 add t parts i = partition64 add t parts a) ∧
      (∀ i l, kindOf t i = some 0 → (∀ a, kindOf t a = some 1 → i ∉ depsOf t a) → IsFirstUser t 2 i l →
        partition64 add t parts i = partition64 add t parts l) ∧
      (∀ i < t.length, ∃! k : Nat, k < (unitsOf t).units ∧ (unitsOf t).unit i = k) ∧
      (∀ k < (unitsOf t).units, ∃ i < t.length, (unitsOf t).unit i = k) ∧
      ∀ i j, (unitsOf t).unit i = (unitsOf t).unit j → partition64 add t parts i = partition64 add t parts j := by
  have grouped := unitsOf_grouped t
  refine ⟨fun i _ => partition64_range add some_, fun i a object user => ?_, fun i l object alone user => ?_,
    fun i known => ?_, grouped.used, fun i j => partition64_congr add⟩
  · exact partition64_congr add (grouped.archive i a object user)
  · exact partition64_congr add (grouped.link i l object alone user)
  · obtain ⟨own, small⟩ := grouped.inside i known
    exact ⟨((unitsOf t).unit i).toNat, ⟨by omega, by omega⟩, fun k ⟨_, here⟩ => by omega⟩

end Place

/-! ### Costs that fit -/

/-- What `partition` counts for a task. -/
def taskCost (x : GraphTask) : Int := max 1 x.cost

/-- The costs that `partition` counts fit together. -/
def CostsFit (t : List GraphTask) : Prop := (t.map taskCost).sum < 2 ^ 63

section Costs

variable {add : Int → Int → Int} {t : List GraphTask} {u : Units} {k : Nat}

theorem IsAdd64.eq (exact_ : IsAdd64 add) {a b : Int} (nonneg : 0 ≤ a + b) (fits : a + b < 2 ^ 63) :
    add a b = a + b :=
  exact_ a b (if_pos ⟨by omega, fits⟩)

theorem taskCost_pos (x : GraphTask) : 0 < taskCost x := lt_of_lt_of_le Int.one_pos (le_max_left 1 x.cost)

theorem map_zipIdx_taskCost (t : List GraphTask) : (t.zipIdx.map fun e => taskCost e.1) = t.map taskCost := by
  have fst : t.zipIdx.map Prod.fst = t := List.zipIdx_map_fst 0 t
  calc t.zipIdx.map (fun e => taskCost e.1) = (t.zipIdx.map Prod.fst).map taskCost := by rw [List.map_map]; rfl
    _ = t.map taskCost := by rw [fst]

/-- Loads that are added up one job at a time. -/
theorem IsAdd64.foldl_load {Job : Type*} (exact_ : IsAdd64 add) {cost : Job → Int} (place : Job → Nat)
    {jobs : List Job} (nonneg : ∀ j ∈ jobs, 0 ≤ cost j) (fits : (jobs.map cost).sum < 2 ^ 63) :
    jobs.foldl (fun load j => Function.update load (place j) (add (load (place j)) (cost j))) (fun _ => 0) =
      loadOf cost place jobs := by
  induction jobs using List.reverseRecOn with
  | nil => rfl
  | append_singleton jobs j ih =>
    have own := nonneg j (by simp)
    have front : ∀ i ∈ jobs, 0 ≤ cost i := fun i hi => nonneg i (by simp [hi])
    simp only [List.map_append, List.map_cons, List.map_nil, List.sum_append, List.sum_singleton] at fits
    rw [List.foldl_append, List.foldl_cons, List.foldl_nil, ih front (by omega)]
    funext p
    rw [loadOf_append, loadOf_cons, loadOf_nil, add_zero]
    by_cases here : p = place j
    · subst here
      have low : 0 ≤ loadOf cost place jobs (place j) := loadOf_nonneg front
      have high : loadOf cost place jobs (place j) ≤ (jobs.map cost).sum := loadOf_le_sum front
      rw [Function.update_self, if_pos rfl, exact_.eq (by omega) (by omega)]
    · rw [Function.update_of_ne here, if_neg (Ne.symm here), add_zero]

/-- A unit's cost as a load: the tasks are the jobs, the units the machines. -/
theorem unitCost_eq_loadOf (inside : ∀ i < t.length, 0 ≤ u.unit i) (k : Nat) :
    unitCost t u k = loadOf (fun e : GraphTask × Nat => taskCost e.1) (fun e => (u.unit e.2).toNat) t.zipIdx k := by
  have member : ∀ e ∈ t.zipIdx, 0 ≤ u.unit e.2 := fun e he => by
    have := (List.getElem?_eq_some_iff.mp (List.mk_mem_zipIdx_iff_getElem?.mp he)).1
    exact inside e.2 this
  rw [unitCost]
  generalize t.zipIdx = l at member
  induction l with
  | nil => rfl
  | cons e l ih =>
    obtain ⟨x, i⟩ := e
    have own : 0 ≤ u.unit i := member (x, i) List.mem_cons_self
    rw [List.map_cons, List.sum_cons, ih fun e he => member e (List.mem_cons_of_mem _ he), loadOf_cons]
    dsimp only
    congr 1
    by_cases here : u.unit i = k
    · rw [if_pos here, if_pos (by omega), taskCost]
    · rw [if_neg here, if_neg (by omega)]

/-- The sums of the vector `cost` are exact. -/
theorem unitCosts_eq (exact_ : IsAdd64 add) (fits : CostsFit t) (inside : ∀ i < t.length, 0 ≤ u.unit i) :
    unitCosts add t u = unitCost t u := by
  rw [CostsFit, ← map_zipIdx_taskCost] at fits
  have sums := exact_.foldl_load (fun e : GraphTask × Nat => (u.unit e.2).toNat)
    (fun e _ => (taskCost_pos e.1).le) fits
  exact sums.trans (funext fun k => (unitCost_eq_loadOf inside k).symm)

/-- The units share the cost of all tasks. -/
theorem sum_unitCost (inside : ∀ i < t.length, 0 ≤ u.unit i ∧ u.unit i < u.units) :
    ((List.range u.units).map (unitCost t u)).sum = (t.map taskCost).sum := by
  have member : ∀ e ∈ t.zipIdx, (u.unit e.2).toNat ∈ List.range u.units := fun e he => by
    have := inside e.2 (List.getElem?_eq_some_iff.mp (List.mk_mem_zipIdx_iff_getElem?.mp he)).1
    exact List.mem_range.mpr (by omega)
  rw [List.map_congr_left fun k _ => unitCost_eq_loadOf (fun i known => (inside i known).1) k, ← map_zipIdx_taskCost]
  exact sum_map_loadOf List.nodup_range member

/-- A unit has a task, which counts at least one. -/
theorem unitCost_pos (grouped : Grouped t u) (small : k < u.units) : 0 < unitCost t u k := by
  obtain ⟨i, known, here⟩ := grouped.used k small
  have member : (t[i], i) ∈ t.zipIdx := List.mk_mem_zipIdx_iff_getElem?.mpr (List.getElem?_eq_getElem known)
  rw [unitCost_eq_loadOf (fun i known => (grouped.inside i known).1)]
  have part : taskCost t[i] ≤ loadOf (fun e : GraphTask × Nat => taskCost e.1) (fun e => (u.unit e.2).toNat)
      t.zipIdx (u.unit i).toNat := le_loadOf (fun e _ => (taskCost_pos e.1).le) member
  have same : (u.unit i).toNat = k := by omega
  rw [same] at part
  exact (taskCost_pos _).trans_le part

end Costs

/-! ### The LPT loop -/

/-- What the LPT loop keeps: `load` holds the loads, and every unit went where the load was lowest. -/
structure Placed (cost : Nat → Int) (parts : Int) (order : List Nat) (s : List Int × (Nat → Int)) : Prop where
  loads : ∀ p < parts.toNat, s.1[p]? = some (loadOf cost s.2 order (p : Int))
  lowest : ∀ pre k post, order = pre ++ k :: post → ∀ p < parts.toNat,
    loadOf cost s.2 pre (s.2 k) ≤ loadOf cost s.2 pre (p : Int)

section Lpt

variable {add : Int → Int → Int} {cost : Nat → Int} {t : List GraphTask} {parts : Int} {order : List Nat}

theorem Placed.place {s : List Int × (Nat → Int)} {k : Nat} (placed : Placed cost parts order s)
    (length : s.1.length = parts.toNat) (inside : minIndex s.1 < s.1.length) (fresh : k ∉ order) :
    Placed cost parts (order ++ [k]) (placeUnit (· + ·) cost s k) := by
  have kept : ∀ {jobs : List Nat} (p : Int), (∀ j ∈ jobs, j ∈ order) →
      loadOf cost (placeUnit (· + ·) cost s k).2 jobs p = loadOf cost s.2 jobs p := fun p old =>
    loadOf_congr fun j hj => Function.update_of_ne (by rintro rfl; exact fresh (old j hj)) _ _
  have here : (placeUnit (· + ·) cost s k).2 k = (minIndex s.1 : Int) := Function.update_self _ _ _
  refine ⟨fun p small => ?_, fun pre j post split p small => ?_⟩
  · rw [loadOf_append, loadOf_cons, loadOf_nil, add_zero, kept _ fun j hj => hj, here]
    simp only [placeUnit, List.getElem?_modify, placed.loads p small]
    by_cases same : minIndex s.1 = p
    · simp [same]
    · simp [same]
  · rcases List.eq_nil_or_concat post with rfl | ⟨post, last, rfl⟩
    · -- the new unit
      obtain ⟨rfl, same⟩ := List.append_inj' split rfl
      obtain rfl := List.singleton_inj.mp same
      rw [here, kept _ fun j hj => hj, kept _ fun j hj => hj]
      have low := getElem_minIndex_le inside _ (List.mem_of_getElem? (placed.loads p small))
      have own := placed.loads (minIndex s.1) (length ▸ inside)
      rw [List.getElem?_eq_getElem inside] at own
      rwa [Option.some.inj own] at low
    · -- an older one
      have split' : order ++ [k] = (pre ++ j :: post) ++ [last] := by simpa using split
      obtain ⟨rfl, -⟩ := List.append_inj' split' rfl
      have old : (placeUnit (· + ·) cost s k).2 j = s.2 j :=
        Function.update_of_ne (by rintro rfl; simp at fresh) _ _
      rw [old, kept _ fun i hi => List.mem_append_left _ hi, kept _ fun i hi => List.mem_append_left _ hi]
      exact placed.lowest pre j post rfl p small

/-- The whole loop. -/
theorem placeUnits_placed (cost : Nat → Int) (some_ : 1 ≤ parts) (nodup : order.Nodup) :
    Placed cost parts order (placeUnits (· + ·) cost parts order) := by
  induction order using List.reverseRecOn with
  | nil =>
    refine ⟨fun p small => ?_, fun pre k post split => ?_⟩
    · simp [placeUnits, small]
    · simp at split
  | append_singleton order k ih =>
    obtain ⟨old, -, apart⟩ := List.nodup_append.mp nodup
    have length : (placeUnits (· + ·) cost parts order).1.length = parts.toNat := placeUnits_length (· + ·) cost order
    rw [placeUnits_append]
    exact (ih old).place length (length ▸ minIndex_placeUnits _ cost order some_) fun member =>
      apart k member k (by simp) rfl

/-- Its sums are exact. -/
theorem placeUnits_eq (exact_ : IsAdd64 add) (some_ : 1 ≤ parts) (nodup : order.Nodup)
    (nonneg : ∀ k ∈ order, 0 ≤ cost k) (fits : (order.map cost).sum < 2 ^ 63) :
    placeUnits add cost parts order = placeUnits (· + ·) cost parts order := by
  induction order using List.reverseRecOn with
  | nil => rfl
  | append_singleton order k ih =>
    have own := nonneg k (by simp)
    have front : ∀ j ∈ order, 0 ≤ cost j := fun j hj => nonneg j (by simp [hj])
    simp only [List.map_append, List.map_cons, List.map_nil, List.sum_append, List.sum_singleton] at fits
    have old := (List.nodup_append.mp nodup).1
    rw [placeUnits_append, placeUnits_append, ih old front (by omega)]
    have placed : Placed cost parts order (placeUnits (· + ·) cost parts order) := placeUnits_placed cost some_ old
    have own_ := placed.loads _ (minIndex_placeUnits (· + ·) cost order some_)
    -- the sum that is made is a load, and no load is above the total
    have low : ∀ p : Int, 0 ≤ loadOf cost (placeUnits (· + ·) cost parts order).2 order p := fun p => loadOf_nonneg front
    have high : ∀ p : Int, loadOf cost (placeUnits (· + ·) cost parts order).2 order p ≤ (order.map cost).sum :=
      fun p => loadOf_le_sum front
    refine Prod.ext (List.ext_getElem? fun p => ?_) rfl
    simp only [placeUnit, List.getElem?_modify]
    by_cases same : minIndex (placeUnits (· + ·) cost parts order).1 = p
    · subst same
      have lowest := low (minIndex (placeUnits (· + ·) cost parts order).1)
      have highest := high (minIndex (placeUnits (· + ·) cost parts order).1)
      rw [own_]
      simp only [if_pos, Option.map_eq_map, Option.map_some]
      rw [exact_.eq (by omega) (by omega)]
    · simp [same]

theorem byCost_perm (cost : Nat → Int) (units : Nat) : (byCost cost units).Perm (List.range units) :=
  List.perm_insertionSort _ _

theorem byCost_descending (cost : Nat → Int) (units : Nat) :
    (byCost cost units).Pairwise fun a b => cost b ≤ cost a := by
  have : Std.Total fun a b : Nat => cost b ≤ cost a := ⟨fun a b => le_total (cost b) (cost a)⟩
  have : IsTrans Nat fun a b => cost b ≤ cost a := ⟨fun _ _ _ ab bc => bc.trans ab⟩
  exact List.pairwise_insertionSort _ _

/-- Where the costs fit, `partition` is what the source computes. -/
theorem partition64_eq (exact_ : IsAdd64 add) (fits : CostsFit t) : partition64 add t parts = partition t parts := by
  have grouped := unitsOf_grouped t
  have costs := unitCosts_eq exact_ fits fun i known => (grouped.inside i known).1
  have perm := byCost_perm (unitCost t (unitsOf t)) (unitsOf t).units
  rw [partition64, partition]
  split
  · rfl
  · rename_i many
    have nonneg : ∀ k ∈ byCost (unitCost t (unitsOf t)) (unitsOf t).units, 0 ≤ unitCost t (unitsOf t) k := fun k hk =>
      (unitCost_pos grouped (List.mem_range.mp (perm.mem_iff.mp hk))).le
    have total : ((byCost (unitCost t (unitsOf t)) (unitsOf t).units).map (unitCost t (unitsOf t))).sum < 2 ^ 63 := by
      rw [(perm.map _).sum_eq, sum_unitCost grouped.inside]
      exact fits
    dsimp only
    rw [costs, placeUnits_eq exact_ (by omega) (perm.nodup_iff.mpr List.nodup_range) nonneg total]
    rfl

end Lpt

/-! ### Balance -/

/-- The load of a partition: what the units placed in it cost. -/
def partLoad (t : List GraphTask) {m : Nat} (place : Nat → Fin m) (p : Fin m) : Int :=
  loadOf (unitCost t (unitsOf t)) place (List.range (unitsOf t).units) p

/-- `part` sends the tasks of each unit to the unit's place. -/
def IsPlacement (t : List GraphTask) (part : Nat → Int) {m : Nat} (place : Nat → Fin m) : Prop :=
  ∀ i < t.length, part i = (place ((unitsOf t).unit i).toNat).val

/-- The highest load. -/
def IsMaxLoad (t : List GraphTask) {m : Nat} (place : Nat → Fin m) (load : Int) : Prop :=
  IsGreatest (Set.range (partLoad t place)) load

section Balance

variable {add : Int → Int → Int} {t : List GraphTask} {parts : Int}

/-- `partition` places the units greedily in descending cost. -/
theorem exists_greedy (t : List GraphTask) (many : 2 ≤ parts) :
    ∃ place : Nat → Fin parts.toNat, IsPlacement t (partition t parts) place ∧
      Greedy (unitCost t (unitsOf t)) place (byCost (unitCost t (unitsOf t)) (unitsOf t).units) := by
  have some_ : 1 ≤ parts := by omega
  have nodup := (byCost_perm (unitCost t (unitsOf t)) (unitsOf t).units).nodup_iff.mpr List.nodup_range
  have placed := placeUnits_placed (unitCost t (unitsOf t)) some_ nodup
  have range := placeUnits_range (· + ·) (unitCost t (unitsOf t))
    (byCost (unitCost t (unitsOf t)) (unitsOf t).units) some_
  have eq : ∀ i < t.length, partition t parts i = (placeUnits (· + ·) (unitCost t (unitsOf t)) parts
      (byCost (unitCost t (unitsOf t)) (unitsOf t).units)).2 ((unitsOf t).unit i).toNat := fun i known => by
    rw [partition, if_neg (by omega)]
    rfl
  generalize placeUnits (· + ·) (unitCost t (unitsOf t)) parts
    (byCost (unitCost t (unitsOf t)) (unitsOf t).units) = s at placed range eq
  have same : ∀ k (p : Fin parts.toNat),
      (⟨(s.2 k).toNat, by have := range k; omega⟩ : Fin parts.toNat) = p ↔ s.2 k = (p.val : Int) := fun k p => by
    have := range k
    rw [Fin.ext_iff]
    dsimp only
    omega
  refine ⟨fun k => ⟨(s.2 k).toNat, by have := range k; omega⟩, fun i known => ?_, fun pre k post split q => ?_⟩
  · have := range ((unitsOf t).unit i).toNat
    rw [eq i known]
    dsimp only
    omega
  · have low := placed.lowest pre k post split q.val q.isLt
    simp only [loadOf, same]
    rwa [Int.toNat_of_nonneg (range k).1]

/-- The load of a placement in the order of the loop. -/
theorem partLoad_eq {m : Nat} (place : Nat → Fin m) (p : Fin m) : partLoad t place p =
    loadOf (unitCost t (unitsOf t)) place (byCost (unitCost t (unitsOf t)) (unitsOf t).units) p :=
  (loadOf_perm (byCost_perm _ _)).symm

theorem mem_byCost {k : Nat} :
    k ∈ byCost (unitCost t (unitsOf t)) (unitsOf t).units ↔ k < (unitsOf t).units := by
  rw [(byCost_perm _ _).mem_iff, List.mem_range]

/-- `partition` is balanced up to one unit: without any one of its units, a partition has no more
load than any other, and with as many units as partitions none is empty. -/
theorem partition_balanced (exact_ : IsAdd64 add) (many : 2 ≤ parts) (fits : CostsFit t) :
    ∃ place : Nat → Fin parts.toNat, IsPlacement t (partition64 add t parts) place ∧
      (∀ k < (unitsOf t).units, ∀ q,
        partLoad t place (place k) - unitCost t (unitsOf t) k ≤ partLoad t place q) ∧
      (parts ≤ (unitsOf t).units → ∀ q : Fin parts.toNat, ∃ i < t.length, partition64 add t parts i = q.val) := by
  rw [partition64_eq exact_ fits]
  obtain ⟨place, isPlacement, greedy⟩ := exists_greedy t many
  have grouped := unitsOf_grouped t
  have positive : ∀ k ∈ byCost (unitCost t (unitsOf t)) (unitsOf t).units, 0 < unitCost t (unitsOf t) k :=
    fun k hk => unitCost_pos grouped (mem_byCost.mp hk)
  refine ⟨place, isPlacement, fun k small q => ?_, fun enough q => ?_⟩
  · rw [partLoad_eq, partLoad_eq]
    exact greedy.balanced (fun k hk => (positive k hk).le) (byCost_descending _ _) (mem_byCost.mpr small) q
  · have length : (byCost (unitCost t (unitsOf t)) (unitsOf t).units).length = (unitsOf t).units := by
      rw [(byCost_perm _ _).length_eq, List.length_range]
    obtain ⟨k, hk, here⟩ := greedy.exists_placed positive (by rw [Fintype.card_fin, length]; omega) q
    obtain ⟨i, known, number⟩ := grouped.used k (mem_byCost.mp hk)
    refine ⟨i, known, ?_⟩
    rw [isPlacement i known, number, Int.toNat_natCast, here]

/-- A placement has a highest load. -/
theorem exists_maxLoad (t : List GraphTask) {m : Nat} (some_ : 0 < m) (place : Nat → Fin m) :
    ∃ load, IsMaxLoad t place load := by
  obtain ⟨p, -, highest⟩ := Finset.exists_max_image Finset.univ (partLoad t place) ⟨⟨0, some_⟩, Finset.mem_univ _⟩
  exact ⟨partLoad t place p, ⟨p, rfl⟩, by rintro _ ⟨q, rfl⟩; exact highest q (Finset.mem_univ q)⟩

/-- Some placement has the lowest. -/
theorem exists_best (t : List GraphTask) {m : Nat} (some_ : 0 < m) :
    ∃ best, IsLeast {load | ∃ place : Nat → Fin m, IsMaxLoad t place load} best := by
  have grouped := unitsOf_grouped t
  obtain ⟨best, ⟨place, isMax⟩, least⟩ := Int.exists_least_of_bdd
    (P := fun load => ∃ place : Nat → Fin m, IsMaxLoad t place load)
    ⟨0, by
      rintro _ ⟨place, ⟨p, rfl⟩, -⟩
      exact loadOf_nonneg fun k hk => (unitCost_pos grouped (List.mem_range.mp hk)).le⟩
    (by
      obtain ⟨load, isMax⟩ := exists_maxLoad t some_ fun _ => ⟨0, some_⟩
      exact ⟨load, _, isMax⟩)
  exact ⟨best, ⟨place, isMax⟩, fun load isLoad => least load isLoad⟩

/-- `partition` is within `4/3 - 1/(3 m)` of the best placement of the same units. -/
theorem partition_near_best (exact_ : IsAdd64 add) (many : 2 ≤ parts) (fits : CostsFit t) :
    ∃ (place : Nat → Fin parts.toNat) (highest best : Int), IsPlacement t (partition64 add t parts) place ∧
      IsMaxLoad t place highest ∧ IsLeast {load | ∃ f : Nat → Fin parts.toNat, IsMaxLoad t f load} best ∧
      3 * parts * highest ≤ (4 * parts - 1) * best := by
  rw [partition64_eq exact_ fits]
  obtain ⟨place, isPlacement, greedy⟩ := exists_greedy t many
  have some_ : 0 < parts.toNat := by omega
  obtain ⟨highest, isHighest⟩ := exists_maxLoad t some_ place
  obtain ⟨best, isBest⟩ := exists_best t some_
  refine ⟨place, highest, best, isPlacement, isHighest, isBest, ?_⟩
  obtain ⟨⟨p, rfl⟩, -⟩ := isHighest
  obtain ⟨⟨f, -, below⟩, -⟩ := isBest
  have nonneg : ∀ k ∈ byCost (unitCost t (unitsOf t)) (unitsOf t).units, 0 ≤ unitCost t (unitsOf t) k :=
    fun k hk => (unitCost_pos (unitsOf_grouped t) (mem_byCost.mp hk)).le
  have limited : ∀ q, loadOf _ f (byCost (unitCost t (unitsOf t)) (unitsOf t).units) q ≤ best := fun q => by
    rw [← partLoad_eq]
    exact below ⟨q, rfl⟩
  have bound := greedy.near_best nonneg (byCost_descending _ _) f limited p
  rw [← partLoad_eq, Fintype.card_fin] at bound
  have count : ((parts.toNat : Nat) : Int) = parts := Int.toNat_of_nonneg (by omega)
  rwa [count] at bound

end Balance

/-! ### A graph with two units -/

/-- The addition of the hardware, which wraps around. -/
def addWrapped (a b : Int) : Int := Int.bmod (a + b) (2 ^ 64)

theorem isAdd64_addWrapped : IsAdd64 addWrapped := by
  intro a b fits
  rw [int64] at fits
  split at fits
  · exact Int.bmod_eq_of_le (by omega) (by omega)
  · cases fits

theorem partition_local_sample :
    partition64 addWrapped sampleGraph 2 1 = partition64 addWrapped sampleGraph 2 3 ∧
      partition64 addWrapped sampleGraph 2 2 = partition64 addWrapped sampleGraph 2 4 := by
  obtain ⟨-, archive, link, -⟩ := @partition_local addWrapped sampleGraph 2 (by decide)
  have archives : ∀ a, kindOf sampleGraph a = some 1 → 2 ∉ depsOf sampleGraph a := by
    intro a is dep
    have all : ∀ a < sampleGraph.length, 2 ∈ depsOf sampleGraph a → kindOf sampleGraph a ≠ some 1 := by decide
    exact all a (lt_length_of_kindOf is) dep is
  exact ⟨archive 1 3 (by decide) ⟨by decide, by decide, by decide⟩,
    link 2 4 (by decide) archives ⟨by decide, by decide, by decide⟩⟩

theorem sampleGraph_fits : CostsFit sampleGraph := by
  rw [CostsFit]
  decide

theorem partition_balanced_sample : ∃ i < sampleGraph.length, partition64 addWrapped sampleGraph 2 i = 1 := by
  obtain ⟨-, -, -, filled⟩ := @partition_balanced addWrapped sampleGraph 2 isAdd64_addWrapped (by decide) sampleGraph_fits
  exact filled (by decide) ⟨1, by decide⟩

theorem partition_near_best_sample : ∃ highest best, IsLeast {load | ∃ f : Nat → Fin 2, IsMaxLoad sampleGraph f load} best ∧
    3 * 2 * highest ≤ (4 * 2 - 1) * best ∧ ∃ place : Nat → Fin 2, IsMaxLoad sampleGraph place highest := by
  obtain ⟨place, highest, best, -, isHighest, isBest, bound⟩ :=
    @partition_near_best addWrapped sampleGraph 2 isAdd64_addWrapped (by decide) sampleGraph_fits
  exact ⟨highest, best, isBest, bound, place, isHighest⟩

end DistCompile.Graph
