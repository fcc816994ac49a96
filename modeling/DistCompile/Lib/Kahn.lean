import Mathlib.Data.List.Nodup
import Mathlib.Logic.Function.Basic
import Mathlib.Data.List.Count
import Mathlib.Data.Finset.Card
import Mathlib.Logic.Relation
import Mathlib.Tactic.Common

/-!
Kahn's algorithm over any node type.

`deps v` lists what `v` waits for and `succ v` the nodes waiting for `v`, both
with repeated edges. In-degrees count edges, not nodes. The queue is the tail of
the order built so far, so the state of the loop is the processed prefix `done`,
the unprocessed rest `queue` and the remaining in-degrees.

`Progress` is the loop invariant: a node's in-degree is the number of its edges
from nodes not yet processed, and the nodes in the order are exactly those with
in-degree zero, each listed once and behind everything it waits for.
-/

namespace DistCompile.Lib

variable {V : Type*} [DecidableEq V]

/-- Count down every node of the list; nodes that reach zero are appended to
`found` in that order. -/
def relax (indeg : V → Int) (found : List V) : List V → (V → Int) × List V
  | [] => (indeg, found)
  | s :: rest =>
      relax (Function.update indeg s (indeg s - 1))
        (if indeg s - 1 = 0 then found ++ [s] else found) rest

/-- The main loop. The fuel bounds the number of processed nodes. -/
def kahn (succ : V → List V) : Nat → List V → List V → (V → Int) → List V
  | fuel + 1, done, q :: queue, indeg =>
      kahn succ fuel (done ++ [q]) (queue ++ (relax indeg [] (succ q)).2) (relax indeg [] (succ q)).1
  | _, done, queue, _ => done ++ queue

/-- The order found from the nodes that wait for nothing. -/
def kahnOrder (nodes : List V) (deps succ : V → List V) : List V :=
  kahn succ nodes.length [] (nodes.filter fun v => (deps v).length = 0)
    fun v => ((deps v).length : Int)

/-! ### One relaxation -/

/-- When no node is counted down below zero, a pass lowers each in-degree by the
number of its edges and finds, once each, the nodes it brings to zero. -/
theorem relax_spec (l : List V) {indeg : V → Int} (found : List V)
    (enough : ∀ v, (l.count v : Int) ≤ indeg v) :
    (∀ v, (relax indeg found l).1 v = indeg v - l.count v) ∧
      ∃ new, (relax indeg found l).2 = found ++ new ∧ new.Nodup ∧
        ∀ v, v ∈ new ↔ v ∈ l ∧ indeg v = l.count v := by
  induction l generalizing indeg found with
  | nil => exact ⟨by simp [relax], [], by simp [relax]⟩
  | cons s rest ih =>
    have here := enough s
    rw [List.count_cons_self] at here
    have enough' : ∀ v, (rest.count v : Int) ≤ Function.update indeg s (indeg s - 1) v := by
      intro v
      by_cases same : v = s
      · subst same
        rw [Function.update_self]
        omega
      · rw [Function.update_of_ne same]
        have := enough v
        rwa [List.count_cons_of_ne (Ne.symm same)] at this
    obtain ⟨lowered, new, grown, nodup, exactly⟩ :=
      ih (if indeg s - 1 = 0 then found ++ [s] else found) enough'
    refine ⟨fun v => ?_, ?_⟩
    · rw [relax, lowered]
      by_cases same : v = s
      · subst same
        rw [Function.update_self, List.count_cons_self]
        omega
      · rw [Function.update_of_ne same, List.count_cons_of_ne (Ne.symm same)]
    · by_cases zero : indeg s - 1 = 0
      · have absent : s ∉ rest := fun member => by
          have := List.count_pos_iff.mpr member
          omega
        refine ⟨s :: new, ?_, ?_, fun v => ?_⟩
        · rw [relax, grown, if_pos zero, List.append_assoc]
          rfl
        · exact List.nodup_cons.mpr ⟨fun member => absent ((exactly s).mp member).1, nodup⟩
        · rw [List.mem_cons, exactly v]
          by_cases same : v = s
          · subst same
            rw [List.count_cons_self, List.count_eq_zero_of_not_mem absent]
            simp
            omega
          · simp [same, List.count_cons_of_ne (Ne.symm same)]
      · refine ⟨new, by rw [relax, grown, if_neg zero], nodup, fun v => ?_⟩
        rw [exactly v]
        by_cases same : v = s
        · subst same
          rw [Function.update_self, List.count_cons_self]
          constructor
          · rintro ⟨-, rest_eq⟩
            exact ⟨by simp, by omega⟩
          · rintro ⟨-, all_eq⟩
            exact ⟨List.count_pos_iff.mp (by omega), by omega⟩
        · simp [same, List.count_cons_of_ne (Ne.symm same)]

/-! ### The loop invariant -/

/-- The state of the loop over a graph: `nodes` is the carrier. -/
structure Progress (nodes : List V) (deps : V → List V) (done queue : List V)
    (indeg : V → Int) : Prop where
  nonneg : ∀ v, 0 ≤ indeg v
  counts : ∀ v ∈ nodes, indeg v = (deps v).countP (fun d => d ∉ done)
  listed : ∀ v, v ∈ done ++ queue ↔ v ∈ nodes ∧ indeg v = 0
  nodup : (done ++ queue).Nodup
  before : ∀ pre v post, done ++ queue = pre ++ v :: post → ∀ d ∈ deps v, d ∈ pre

/-- What a returned order promises. -/
structure TopoOrder (nodes : List V) (deps : V → List V) (order : List V) : Prop where
  nodup : order.Nodup
  sub : ∀ v ∈ order, v ∈ nodes
  before : ∀ pre v post, order = pre ++ v :: post → ∀ d ∈ deps v, d ∈ pre

variable {nodes : List V} {deps succ : V → List V}

theorem Progress.topoOrder {done queue : List V} {indeg : V → Int}
    (p : Progress nodes deps done queue indeg) : TopoOrder nodes deps (done ++ queue) :=
  ⟨p.nodup, fun v member => ((p.listed v).mp member).1, p.before⟩

/-- A node that is neither processed nor among `done` loses its edges from the
node processed next. -/
private theorem countP_not_mem_snoc (l done : List V) {q : V} (fresh : q ∉ done) :
    l.countP (fun d => d ∉ done) = l.countP (fun d => d ∉ done ++ [q]) + l.count q := by
  induction l with
  | nil => simp
  | cons d l ih =>
    rw [List.countP_cons, List.countP_cons, List.count_cons, ih]
    by_cases same : d = q
    · subst same; simp [fresh]; omega
    · by_cases seen : d ∈ done
      · simp [seen, same]
      · simp [seen, same]; omega

/-- Processing the head of the queue keeps the invariant. -/
theorem Progress.next {done queue : List V} {q : V} {indeg : V → Int}
    (edges : ∀ d, ∀ v, (succ d).count v = if v ∈ nodes then (deps v).count d else 0)
    (p : Progress nodes deps done (q :: queue) indeg) :
    Progress nodes deps (done ++ [q]) (queue ++ (relax indeg [] (succ q)).2)
      (relax indeg [] (succ q)).1 := by
  have fresh : q ∉ done := fun member =>
    List.disjoint_of_nodup_append p.nodup member (by simp)
  have enough : ∀ v, ((succ q).count v : Int) ≤ indeg v := by
    intro v
    rw [edges]
    by_cases known : v ∈ nodes
    · rw [if_pos known, p.counts v known, countP_not_mem_snoc _ _ fresh]
      omega
    · rw [if_neg known]
      exact p.nonneg v
  obtain ⟨lowered, new, found, newNodup, exactly⟩ := relax_spec (succ q) [] enough
  rw [List.nil_append] at found
  have counts' : ∀ v ∈ nodes, (relax indeg [] (succ q)).1 v =
      (deps v).countP (fun d => d ∉ done ++ [q]) := by
    intro v known
    rw [lowered, p.counts v known, countP_not_mem_snoc _ _ fresh, edges, if_pos known]
    omega
  -- A found node had an edge left before, so it was not in the order yet.
  have isNew : ∀ v ∈ new, v ∈ nodes ∧ v ∉ done ++ q :: queue ∧
      (relax indeg [] (succ q)).1 v = 0 := by
    intro v member
    obtain ⟨waiting, last⟩ := (exactly v).mp member
    have positive := List.count_pos_iff.mpr waiting
    refine ⟨?_, fun old => ?_, by rw [lowered]; omega⟩
    · by_contra unknown
      rw [edges, if_neg unknown] at positive
      omega
    · have := ((p.listed v).mp old).2
      omega
  have behind : ∀ v ∈ new, ∀ d ∈ deps v, d ∈ done ++ q :: queue := by
    intro v member d dep
    obtain ⟨known, -, zero⟩ := isNew v member
    rw [counts' v known, Int.natCast_eq_zero, List.countP_eq_zero] at zero
    have processed : d ∈ done ++ [q] := by simpa only [decide_eq_true_eq, not_not] using zero d dep
    rcases List.mem_append.mp processed with old | last
    · exact List.mem_append_left _ old
    · exact List.mem_append_right _ (by simp [List.mem_singleton.mp last])
  have regroup : done ++ [q] ++ (queue ++ new) = (done ++ q :: queue) ++ new := by simp
  rw [found]
  refine ⟨fun v => ?_, counts', fun v => ?_, ?_, ?_⟩
  · rw [lowered]
    have := enough v
    omega
  · rw [regroup, List.mem_append, p.listed]
    constructor
    · rintro (⟨known, zero⟩ | member)
      · refine ⟨known, ?_⟩
        have := enough v
        rw [lowered]
        omega
      · exact ⟨(isNew v member).1, (isNew v member).2.2⟩
    · rintro ⟨known, zero⟩
      rw [lowered] at zero
      by_cases waiting : v ∈ succ q
      · exact Or.inr ((exactly v).mpr ⟨waiting, by omega⟩)
      · rw [List.count_eq_zero_of_not_mem waiting] at zero
        exact Or.inl ⟨known, by omega⟩
  · rw [regroup]
    exact p.nodup.append newNodup fun v old member => (isNew v member).2.1 old
  · intro pre v post split d dep
    rw [regroup] at split
    rcases List.append_eq_append_iff.mp split with ⟨mid, hpre, hnew⟩ | ⟨mid, hold, hpost⟩
    · -- `v` is a found node with the whole old order before it
      rw [hpre]
      exact List.mem_append_left _ (behind v (by rw [hnew]; simp) d dep)
    · cases mid with
      | nil =>
        rw [List.nil_append] at hpost
        rw [List.append_nil] at hold
        exact hold ▸ behind v (by rw [← hpost]; simp) d dep
      | cons w mid =>
        simp only [List.cons_append, List.cons.injEq] at hpost
        obtain ⟨rfl, -⟩ := hpost
        exact p.before pre v mid hold d dep

/-- At the start the queue holds the nodes that wait for nothing. -/
theorem Progress.start (nodes : List V) (deps : V → List V) (distinct : nodes.Nodup) :
    Progress nodes deps [] (nodes.filter fun v => (deps v).length = 0)
      fun v => ((deps v).length : Int) where
  nonneg v := Int.natCast_nonneg _
  counts v _ := by simp
  listed v := by simp
  nodup := by simpa using distinct.filter _
  before pre v post split d dep := by
    have member : v ∈ nodes.filter fun v => (deps v).length = 0 := by
      rw [List.nil_append] at split
      rw [split]; simp
    have none := (List.mem_filter.mp member).2
    rw [decide_eq_true_eq, List.length_eq_zero_iff] at none
    simp [none] at dep

theorem kahn_topoOrder (edges : ∀ d, ∀ v, (succ d).count v = if v ∈ nodes then (deps v).count d else 0)
    (fuel : Nat) : ∀ {done queue : List V} {indeg : V → Int},
      Progress nodes deps done queue indeg →
        TopoOrder nodes deps (kahn succ fuel done queue indeg) := by
  induction fuel with
  | zero =>
    intro done queue indeg p
    simpa [kahn] using p.topoOrder
  | succ fuel ih =>
    intro done queue indeg p
    cases queue with
    | nil => simpa [kahn] using p.topoOrder
    | cons q queue => exact ih (p.next edges)

/-- Whatever is returned is a duplicate-free list of nodes in which everything a
node waits for stands before it. -/
theorem kahnOrder_topoOrder (distinct : nodes.Nodup)
    (edges : ∀ d, ∀ v, (succ d).count v = if v ∈ nodes then (deps v).count d else 0) :
    TopoOrder nodes deps (kahnOrder nodes deps succ) :=
  kahn_topoOrder edges _ (Progress.start nodes deps distinct)

/-- With the queue empty, nothing is left when a rank falls along the edges. -/
theorem Progress.complete {done : List V} {indeg : V → Int} (p : Progress nodes deps done [] indeg)
    {rank : V → Nat} (falls : ∀ v ∈ nodes, ∀ d ∈ deps v, d ∈ nodes ∧ rank d < rank v) :
    ∀ v ∈ nodes, v ∈ done := by
  intro v
  induction level : rank v using Nat.strongRecOn generalizing v with
  | _ n ih =>
    intro known
    have zero : indeg v = 0 := by
      rw [p.counts v known, Int.natCast_eq_zero, List.countP_eq_zero]
      intro d dep
      obtain ⟨inside, lower⟩ := falls v known d dep
      simpa using ih (rank d) (level ▸ lower) d rfl inside
    simpa using (p.listed v).mpr ⟨known, zero⟩

theorem kahn_complete (edges : ∀ d, ∀ v, (succ d).count v = if v ∈ nodes then (deps v).count d else 0)
    {rank : V → Nat} (falls : ∀ v ∈ nodes, ∀ d ∈ deps v, d ∈ nodes ∧ rank d < rank v) (fuel : Nat) :
    ∀ {done queue : List V} {indeg : V → Int}, Progress nodes deps done queue indeg →
      nodes.length ≤ done.length + fuel → ∀ v ∈ nodes, v ∈ kahn succ fuel done queue indeg := by
  induction fuel with
  | zero =>
    intro done queue indeg p enough
    -- the order holds no node twice, so it is full and the queue is empty
    have fits := (List.subperm_of_subset p.nodup p.topoOrder.sub).length_le
    rw [List.length_append] at fits
    obtain rfl : queue = [] := List.length_eq_zero_iff.mp (by omega)
    simpa [kahn] using p.complete falls
  | succ fuel ih =>
    intro done queue indeg p enough
    cases queue with
    | nil => simpa [kahn] using p.complete falls
    | cons q queue =>
      refine ih (p.next edges) ?_
      rw [List.length_append, List.length_singleton]
      omega

/-- Kahn's algorithm lists every node of a graph along whose edges a rank falls. -/
theorem kahnOrder_complete (distinct : nodes.Nodup)
    (edges : ∀ d, ∀ v, (succ d).count v = if v ∈ nodes then (deps v).count d else 0)
    {rank : V → Nat} (falls : ∀ v ∈ nodes, ∀ d ∈ deps v, d ∈ nodes ∧ rank d < rank v) :
    ∀ v ∈ nodes, v ∈ kahnOrder nodes deps succ :=
  kahn_complete edges falls _ (Progress.start nodes deps distinct) (by simp)

omit [DecidableEq V] in
/-- A rank along a relation shows that it has no cycle. -/
theorem not_transGen_self {R : V → V → Prop} {rank : V → Nat} (rises : ∀ d v, R d v → rank d < rank v) (v : V) :
    ¬ Relation.TransGen R v v := by
  have chain : ∀ {d v}, Relation.TransGen R d v → rank d < rank v := by
    intro d v path
    induction path with
    | single edge => exact rises _ _ edge
    | tail _ edge ih => exact ih.trans (rises _ _ edge)
  exact fun cycle => lt_irrefl _ (chain cycle)

/-- Among finitely many nodes, the number of nodes that a node waits for is a rank when
nothing waits for itself. -/
theorem exists_rank (inside : ∀ v ∈ nodes, ∀ d ∈ deps v, d ∈ nodes)
    (acyclic : ∀ v ∈ nodes, ¬ Relation.TransGen (fun d v => d ∈ deps v) v v) :
    ∃ rank : V → Nat, ∀ v ∈ nodes, ∀ d ∈ deps v, rank d < rank v := by
  classical
  let ancestors (v : V) := nodes.toFinset.filter fun d => Relation.TransGen (fun d v => d ∈ deps v) d v
  refine ⟨fun v => (ancestors v).card, fun v known d dep => Finset.card_lt_card ?_⟩
  rw [Finset.ssubset_iff_of_subset]
  · refine ⟨d, ?_, fun self => ?_⟩
    · exact Finset.mem_filter.mpr ⟨List.mem_toFinset.mpr (inside v known d dep), .single dep⟩
    · exact acyclic d (inside v known d dep) (Finset.mem_filter.mp self).2
  · intro u above
    obtain ⟨member, path⟩ := Finset.mem_filter.mp above
    exact Finset.mem_filter.mpr ⟨member, path.tail dep⟩

/-! ### Evaluation along an order -/

/-- Compute the value of each node from the values so far, in the given order. -/
def evalOrder {A : Type*} (f : (V → A) → V → A) (order : List V) (val : V → A) : V → A :=
  order.foldl (fun val v => Function.update val v (f val v)) val

section EvalOrder

variable {A : Type*} {f : (V → A) → V → A} {deps : V → List V}

theorem evalOrder_of_not_mem {order : List V} {val : V → A} {v : V} (absent : v ∉ order) :
    evalOrder f order val v = val v := by
  induction order generalizing val with
  | nil => rfl
  | cons u order ih =>
    rw [List.mem_cons, not_or] at absent
    rw [evalOrder, List.foldl_cons]
    exact (ih absent.2).trans (Function.update_of_ne absent.1 _ _)

/-- A node gets its value from those in front of it, and keeps it. -/
theorem evalOrder_at {pre post : List V} {v : V} (later : v ∉ post) (val : V → A) :
    evalOrder f (pre ++ v :: post) val v = f (evalOrder f pre val) v := by
  have split : evalOrder f (pre ++ v :: post) val =
      evalOrder f post (Function.update (evalOrder f pre val) v (f (evalOrder f pre val) v)) := by
    rw [evalOrder, List.foldl_append, List.foldl_cons]
    rfl
  rw [split, evalOrder_of_not_mem later, Function.update_self]

/-- When the value of a node only depends on nodes in front of it, the result
solves the equations `val v = f val v`. -/
theorem evalOrder_eq (local_ : ∀ val val' v, (∀ d ∈ deps v, val d = val' d) → f val v = f val' v)
    {order : List V} (nodup : order.Nodup)
    (before : ∀ pre v post, order = pre ++ v :: post → ∀ d ∈ deps v, d ∈ pre) (val : V → A)
    {v : V} (member : v ∈ order) : evalOrder f order val v = f (evalOrder f order val) v := by
  obtain ⟨pre, post, rfl⟩ := List.append_of_mem member
  rw [List.nodup_append, List.nodup_cons] at nodup
  obtain ⟨-, ⟨later, -⟩, apart⟩ := nodup
  rw [evalOrder_at later]
  refine local_ _ _ v fun d hd => ?_
  have early := before pre v post rfl d hd
  have here : d ≠ v := fun h => apart d early v (by simp) h
  have late : d ∉ post := fun h => apart d early d (by simp [h]) rfl
  have split : evalOrder f (pre ++ v :: post) val =
      evalOrder f post (Function.update (evalOrder f pre val) v (f (evalOrder f pre val) v)) := by
    rw [evalOrder, List.foldl_append, List.foldl_cons]
    rfl
  rw [split, evalOrder_of_not_mem late, Function.update_of_ne here]

end EvalOrder

end DistCompile.Lib
