import Mathlib.Algebra.BigOperators.Group.Finset.Basic
import Mathlib.Algebra.Order.BigOperators.Group.Finset
import Mathlib.Algebra.Order.BigOperators.Group.List
import Mathlib.Algebra.Order.Ring.Defs
import Mathlib.Data.Fintype.BigOperators
import Mathlib.Data.Fintype.Card
import Mathlib.Tactic.Linarith
import Mathlib.Tactic.Ring

/-!
Greedy placement of jobs on machines.

Jobs are placed one after the other, each on a machine whose load is lowest at its turn
(`Greedy`). When the jobs come in descending cost, the last job of a machine is its cheapest,
and the other machines had the load below it already: the loads differ by one job at most
(`Greedy.balanced`), and the highest is within `4/3 - 1/(3 m)` of what any placement on `m`
machines reaches (`Greedy.near_best`).
-/

namespace DistCompile.Lib

variable {Job Machine R : Type*} [DecidableEq Machine]

/-- What the jobs on a machine cost together. -/
def loadOf [AddCommMonoid R] (cost : Job → R) (place : Job → Machine) (jobs : List Job) (p : Machine) : R :=
  ((jobs.filter fun j => place j = p).map cost).sum

/-- Each job is placed where the load is lowest at its turn. -/
def Greedy [AddCommMonoid R] [LE R] (cost : Job → R) (place : Job → Machine) (jobs : List Job) : Prop :=
  ∀ pre j post, jobs = pre ++ j :: post → ∀ q, loadOf cost place pre (place j) ≤ loadOf cost place pre q

/-! ### Loads -/

section Loads

variable [AddCommMonoid R] {cost : Job → R} {place : Job → Machine} {jobs pre post : List Job} {j : Job} {p : Machine}

@[simp] theorem loadOf_nil : loadOf cost place [] p = 0 := rfl

theorem loadOf_append : loadOf cost place (pre ++ post) p = loadOf cost place pre p + loadOf cost place post p := by
  simp [loadOf]

theorem loadOf_cons : loadOf cost place (j :: jobs) p =
    (if place j = p then cost j else 0) + loadOf cost place jobs p := by
  by_cases here : place j = p
  · simp [loadOf, here]
  · simp [loadOf, here]

/-- A machine without a job has no load. -/
theorem loadOf_eq_zero (none : ∀ j ∈ jobs, place j ≠ p) : loadOf cost place jobs p = 0 := by
  rw [loadOf, List.filter_eq_nil_iff.mpr fun j hj => by simpa using none j hj]
  rfl

/-- Loads only depend on where their jobs are placed. -/
theorem loadOf_congr {place' : Job → Machine} (same : ∀ j ∈ jobs, place j = place' j) :
    loadOf cost place jobs p = loadOf cost place' jobs p := by
  rw [loadOf, loadOf, List.filter_congr fun j hj => by rw [same j hj]]

/-- Loads do not depend on the order of the jobs. -/
theorem loadOf_perm {jobs' : List Job} (perm : jobs.Perm jobs') :
    loadOf cost place jobs p = loadOf cost place jobs' p :=
  ((perm.filter _).map cost).sum_eq

/-- The machines share the cost of all jobs. -/
theorem sum_loadOf [Fintype Machine] (cost : Job → R) (place : Job → Machine) (jobs : List Job) :
    ∑ p, loadOf cost place jobs p = (jobs.map cost).sum := by
  induction jobs with
  | nil => simp
  | cons j jobs ih =>
    simp only [loadOf_cons, Finset.sum_add_distrib, ih, List.map_cons, List.sum_cons]
    rw [Finset.sum_ite_eq Finset.univ (place j) fun _ => cost j, if_pos (Finset.mem_univ _)]

theorem sum_map_ite {ps : List Machine} (nodup : ps.Nodup) (member : p ∈ ps) (c : R) :
    (ps.map fun q => if p = q then c else 0).sum = c := by
  induction ps with
  | nil => cases member
  | cons q ps ih =>
    obtain ⟨fresh, rest⟩ := List.nodup_cons.mp nodup
    rw [List.map_cons, List.sum_cons]
    by_cases here : p = q
    · subst here
      rw [if_pos rfl, List.sum_eq_zero, add_zero]
      intro d hd
      obtain ⟨q, hq, rfl⟩ := List.mem_map.mp hd
      exact if_neg fun same => fresh (by rwa [same])
    · rw [if_neg here, zero_add, ih rest ((List.mem_cons.mp member).resolve_left here)]

/-- The same for a list of machines that has the places of all jobs. -/
theorem sum_map_loadOf {ps : List Machine} (nodup : ps.Nodup) (member : ∀ j ∈ jobs, place j ∈ ps) :
    (ps.map (loadOf cost place jobs)).sum = (jobs.map cost).sum := by
  induction jobs with
  | nil =>
    refine List.sum_eq_zero fun c hc => ?_
    obtain ⟨q, -, rfl⟩ := List.mem_map.mp hc
    exact loadOf_nil
  | cons j jobs ih =>
    have step : ps.map (loadOf cost place (j :: jobs)) =
        ps.map fun q => (if place j = q then cost j else 0) + loadOf cost place jobs q :=
      List.map_congr_left fun q _ => loadOf_cons
    rw [step, List.sum_map_add, sum_map_ite nodup (member j List.mem_cons_self),
      ih fun i hi => member i (List.mem_cons_of_mem _ hi), List.map_cons, List.sum_cons]

variable [PartialOrder R] [IsOrderedAddMonoid R]

theorem loadOf_nonneg (nonneg : ∀ j ∈ jobs, 0 ≤ cost j) : 0 ≤ loadOf cost place jobs p :=
  List.sum_nonneg fun c hc => by
    obtain ⟨j, hj, rfl⟩ := List.mem_map.mp hc
    exact nonneg j (List.mem_of_mem_filter hj)

/-- No load is above the cost of all jobs. -/
theorem loadOf_le_sum (nonneg : ∀ j ∈ jobs, 0 ≤ cost j) : loadOf cost place jobs p ≤ (jobs.map cost).sum := by
  induction jobs with
  | nil => exact le_refl _
  | cons j jobs ih =>
    have rest := ih fun i hi => nonneg i (List.mem_cons_of_mem _ hi)
    rw [loadOf_cons, List.map_cons, List.sum_cons]
    refine add_le_add ?_ rest
    split
    · exact le_refl _
    · exact nonneg j List.mem_cons_self

/-- Later jobs add to the load. -/
theorem loadOf_le_append (nonneg : ∀ j ∈ post, 0 ≤ cost j) :
    loadOf cost place pre p ≤ loadOf cost place (pre ++ post) p := by
  rw [loadOf_append]
  exact le_add_of_nonneg_right (loadOf_nonneg nonneg)

/-- A job is part of the load of its machine. -/
theorem le_loadOf (nonneg : ∀ j ∈ jobs, 0 ≤ cost j) (member : j ∈ jobs) :
    cost j ≤ loadOf cost place jobs (place j) := by
  obtain ⟨before, after, rfl⟩ := List.append_of_mem member
  rw [loadOf_append, loadOf_cons, if_pos rfl]
  have front : 0 ≤ loadOf cost place before (place j) := loadOf_nonneg fun i hi => nonneg i (by simp [hi])
  have back : 0 ≤ loadOf cost place after (place j) := loadOf_nonneg fun i hi => nonneg i (by simp [hi])
  calc cost j ≤ cost j + loadOf cost place after (place j) := le_add_of_nonneg_right back
    _ ≤ _ := le_add_of_nonneg_left front

end Loads

/-! ### The last job of a machine -/

/-- The last element with a property. -/
theorem exists_last {α : Type*} {P : α → Prop} {l : List α} (some_ : ∃ a ∈ l, P a) :
    ∃ pre a post, l = pre ++ a :: post ∧ P a ∧ ∀ b ∈ post, ¬ P b := by
  induction l with
  | nil => simp at some_
  | cons x l ih =>
    by_cases later : ∃ a ∈ l, P a
    · obtain ⟨pre, a, post, rfl, holds, none⟩ := ih later
      exact ⟨x :: pre, a, post, rfl, holds, none⟩
    · obtain ⟨a, member, holds⟩ := some_
      rcases List.mem_cons.mp member with rfl | inside
      · exact ⟨[], a, l, rfl, holds, fun b hb here => later ⟨b, hb, here⟩⟩
      · exact absurd ⟨a, inside, holds⟩ later

section Last

variable [AddCommMonoid R] {cost : Job → R} {place : Job → Machine} {jobs pre post : List Job} {j last : Job}
  {p : Machine}

/-- Without later jobs on its machine, a job ends the load. -/
theorem loadOf_last (none : ∀ i ∈ post, place i ≠ place last) :
    loadOf cost place (pre ++ last :: post) (place last) = loadOf cost place pre (place last) + cost last := by
  rw [loadOf_append, loadOf_cons, if_pos rfl, loadOf_eq_zero none, add_zero]

omit [DecidableEq Machine] [AddCommMonoid R] in
/-- In descending order it is the cheapest. -/
theorem last_le [PartialOrder R] (descending : (pre ++ last :: post).Pairwise fun i j => cost j ≤ cost i)
    (none : ∀ i ∈ post, place i ≠ place last) (member : j ∈ pre ++ last :: post) (here : place j = place last) :
    cost last ≤ cost j := by
  rw [List.pairwise_append] at descending
  rcases List.mem_append.mp member with early | late
  · exact descending.2.2 j early last (by simp)
  · rcases List.mem_cons.mp late with rfl | later
    · exact le_refl _
    · exact absurd here (none j later)

end Last

/-! ### Balance -/

section Balance

variable [AddCommGroup R] [LinearOrder R] [IsOrderedAddMonoid R] {cost : Job → R} {place : Job → Machine}
  {jobs : List Job}

/-- Without any one of its jobs, a machine has no more load than any other. -/
theorem Greedy.balanced (greedy : Greedy cost place jobs) (nonneg : ∀ j ∈ jobs, 0 ≤ cost j)
    (descending : jobs.Pairwise fun i j => cost j ≤ cost i) {j : Job} (member : j ∈ jobs) (q : Machine) :
    loadOf cost place jobs (place j) - cost j ≤ loadOf cost place jobs q := by
  obtain ⟨pre, last, post, rfl, same, none⟩ := exists_last (P := fun i => place i = place j) ⟨j, member, rfl⟩
  have none' : ∀ i ∈ post, place i ≠ place last := fun i hi here => none i hi (here.trans same)
  have cheapest := last_le descending none' member same.symm
  have lowest := greedy pre last post rfl q
  have grows : loadOf cost place pre q ≤ loadOf cost place (pre ++ last :: post) q :=
    loadOf_le_append fun i hi => nonneg i (List.mem_append_right _ hi)
  rw [← same, loadOf_last none', sub_le_iff_le_add]
  exact add_le_add (lowest.trans grows) cheapest

/-- With as many jobs as machines, no machine is left empty. -/
theorem Greedy.exists_placed [Fintype Machine] (greedy : Greedy cost place jobs) (positive : ∀ j ∈ jobs, 0 < cost j)
    (many : Fintype.card Machine ≤ jobs.length) (q : Machine) : ∃ j ∈ jobs, place j = q := by
  by_contra none
  push Not at none
  -- while a machine is empty, no job joins another
  have apart : jobs.Pairwise fun i j => place i ≠ place j := by
    rw [List.pairwise_iff_forall_sublist]
    intro i j both together
    obtain ⟨front, back, rfl, first, second⟩ := List.cons_sublist_iff.mp both
    obtain ⟨mid, post, rfl⟩ := List.append_of_mem (List.singleton_sublist.mp second)
    have lowest := greedy (front ++ mid) j post (by simp) q
    have member : i ∈ front ++ mid := List.mem_append_left _ first
    have empty : loadOf cost place (front ++ mid) q = 0 := loadOf_eq_zero fun k hk =>
      none k (by rw [← List.append_assoc]; exact List.mem_append_left _ hk)
    have filled : cost i ≤ loadOf cost place (front ++ mid) (place i) := le_loadOf (fun k hk => (positive k (by
      rw [← List.append_assoc]; exact List.mem_append_left _ hk)).le) member
    rw [empty, ← together] at lowest
    exact absurd (positive i (List.mem_append_left _ first)) (not_lt.mpr (filled.trans lowest))
  have nodup : (q :: jobs.map place).Nodup := by
    refine List.nodup_cons.mpr ⟨fun member => ?_, List.pairwise_map.mpr apart⟩
    obtain ⟨j, hj, here⟩ := List.mem_map.mp member
    exact none j hj here
  have few := nodup.length_le_card
  rw [List.length_cons, List.length_map] at few
  omega

end Balance

/-! ### The distance from the best placement -/

section Best

variable [CommRing R] [LinearOrder R] [IsStrictOrderedRing R] {cost : Job → R} {place f : Job → Machine}
  {jobs pre post : List Job} {last : Job} {limit c : R}

/-- How many places a job takes: one that fits below the limit with nothing besides takes two. -/
def places (cost : Job → R) (limit c : R) (j : Job) : Nat := if limit < cost j + c then 2 else 1

omit [IsStrictOrderedRing R] in
theorem one_le_places (cost : Job → R) (limit c : R) (j : Job) : 1 ≤ places cost limit c j := by
  rw [places]
  split <;> omega

omit [IsStrictOrderedRing R] in
theorem places_le_two (cost : Job → R) (limit c : R) (j : Job) : places cost limit c j ≤ 2 := by
  rw [places]
  split <;> omega

/-- Jobs that cost more than a third of the limit take two places at most on a machine
that stays below it. -/
theorem sum_places_le (l : List Job) (small : ∀ j ∈ l, c ≤ cost j) (third : limit < 3 * c) (nonneg : 0 ≤ limit)
    (below : (l.map cost).sum ≤ limit) : (l.map (places cost limit c)).sum ≤ 2 := by
  have positive : 0 < c := by linarith
  match l with
  | [] => simp
  | [j] => simpa using places_le_two cost limit c j
  | [i, j] =>
    have hi := small i (by simp)
    have hj := small j (by simp)
    simp only [List.map_cons, List.map_nil, List.sum_cons, List.sum_nil, add_zero] at below ⊢
    rw [places, places, if_neg (not_lt.mpr (by linarith)), if_neg (not_lt.mpr (by linarith))]
  | i :: j :: k :: rest =>
    -- three of them are above the limit
    have hi := small i (by simp)
    have hj := small j (by simp)
    have hk := small k (by simp)
    have hrest : 0 ≤ (rest.map cost).sum := List.sum_nonneg fun d hd => by
      obtain ⟨n, hn, rfl⟩ := List.mem_map.mp hd
      exact positive.le.trans (small n (by simp [hn]))
    simp only [List.map_cons, List.sum_cons] at below
    linarith

omit [IsStrictOrderedRing R] in
/-- A machine on which one more job passes the limit has two places taken. -/
theorem two_le_sum_places (l : List Job) (single : c ≤ limit) (above : limit < (l.map cost).sum + c) :
    2 ≤ (l.map (places cost limit c)).sum := by
  match l with
  | [] =>
    simp only [List.map_nil, List.sum_nil, zero_add] at above
    exact absurd above (not_lt.mpr single)
  | [j] =>
    simp only [List.map_cons, List.map_nil, List.sum_cons, List.sum_nil, add_zero] at above ⊢
    rw [places, if_pos above]
  | i :: j :: rest =>
    have hi := one_le_places cost limit c i
    have hj := one_le_places cost limit c j
    simp only [List.map_cons, List.sum_cons]
    omega

variable [Fintype Machine]

/-- When the last job costs more than a third of what another placement needs, the greedy one
is no worse. -/
theorem Greedy.le_of_third (lowest : ∀ q, loadOf cost place pre (place last) ≤ loadOf cost place pre q)
    (small : ∀ j ∈ pre ++ [last], cost last ≤ cost j) (third : limit < 3 * cost last) (nonneg : 0 ≤ limit)
    (below : ∀ q, loadOf cost f (pre ++ [last]) q ≤ limit) :
    loadOf cost place pre (place last) + cost last ≤ limit := by
  by_contra above
  rw [not_le] at above
  have positive : 0 < cost last := by linarith
  have single : cost last ≤ limit :=
    (le_loadOf (fun j hj => positive.le.trans (small j hj)) (by simp)).trans (below (f last))
  -- the other placement has two places on each machine, and the greedy one has them taken before
  have other : ∑ q, loadOf (places cost limit (cost last)) f (pre ++ [last]) q ≤ ∑ _q : Machine, 2 :=
    Finset.sum_le_sum fun q _ => sum_places_le _ (fun j hj => small j (List.mem_of_mem_filter hj)) third nonneg (below q)
  have taken : ∑ _q : Machine, 2 ≤ ∑ q, loadOf (places cost limit (cost last)) place pre q :=
    Finset.sum_le_sum fun q _ => two_le_sum_places _ single (above.trans_le (by
      have := lowest q
      simp only [loadOf] at this ⊢
      linarith))
  rw [sum_loadOf] at other taken
  have one := one_le_places cost limit (cost last) last
  simp only [List.map_append, List.map_cons, List.map_nil, List.sum_append, List.sum_cons, List.sum_nil] at other
  omega

/-- For jobs in descending order: with `m` machines, no load is above
`4/3 - 1/(3 m)` times the highest load of another placement. -/
theorem Greedy.near_best (greedy : Greedy cost place jobs) (nonneg : ∀ j ∈ jobs, 0 ≤ cost j)
    (descending : jobs.Pairwise fun i j => cost j ≤ cost i) (f : Job → Machine)
    (below : ∀ q, loadOf cost f jobs q ≤ limit) (p : Machine) :
    3 * (Fintype.card Machine : R) * loadOf cost place jobs p ≤ (4 * (Fintype.card Machine : R) - 1) * limit := by
  have some_ : (1 : R) ≤ (Fintype.card Machine : R) := by
    exact_mod_cast Fintype.card_pos_iff.mpr ⟨p⟩
  have limited : 0 ≤ limit := (loadOf_nonneg nonneg).trans (below p)
  by_cases used : ∃ j ∈ jobs, place j = p
  · obtain ⟨pre, last, post, rfl, rfl, none⟩ := exists_last used
    have lowest := greedy pre last post rfl
    have regroup : pre ++ last :: post = (pre ++ [last]) ++ post := by simp
    have below' : ∀ q, loadOf cost f (pre ++ [last]) q ≤ limit := fun q =>
      (loadOf_le_append fun j hj => nonneg j (by simp [hj])).trans (regroup ▸ below q)
    rw [loadOf_last none]
    by_cases third : 3 * cost last ≤ limit
    · -- the loads in front of the last job are above its machine's, and all fit below the limit
      have front : (Fintype.card Machine : R) * loadOf cost place pre (place last) ≤ (pre.map cost).sum := by
        rw [← sum_loadOf cost place pre, ← nsmul_eq_mul, ← Finset.card_univ, ← Finset.sum_const]
        exact Finset.sum_le_sum fun q _ => lowest q
      have whole : (pre.map cost).sum + cost last ≤ (Fintype.card Machine : R) * limit := by
        have total := sum_loadOf cost f (pre ++ [last])
        simp only [List.map_append, List.map_cons, List.map_nil, List.sum_append, List.sum_cons, List.sum_nil,
          add_zero] at total
        rw [← total, ← nsmul_eq_mul, ← Finset.card_univ, ← Finset.sum_const]
        exact Finset.sum_le_sum fun q _ => below' q
      have spare := mul_le_mul_of_nonneg_left third (sub_nonneg.mpr some_)
      linarith
    · have small : ∀ j ∈ pre ++ [last], cost last ≤ cost j := by
        intro j member
        rcases List.mem_append.mp member with early | here
        · exact (List.pairwise_append.mp descending).2.2 j early last (by simp)
        · rw [List.mem_singleton.mp here]
      have best := Greedy.le_of_third lowest small (not_le.mp third) limited below'
      have scaled := mul_le_mul_of_nonneg_left best (zero_le_one.trans some_)
      have spare := mul_le_mul_of_nonneg_right some_ limited
      linarith
  · push Not at used
    rw [loadOf_eq_zero used, mul_zero]
    exact mul_nonneg (by linarith) limited

end Best

end DistCompile.Lib
