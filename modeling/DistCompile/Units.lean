import DistCompile.Schedule

/-!
The units of `partition` (`src/graph.cpp`): which tasks it keeps together.

Two passes claim objects, one for the archives and one for the links, and a third gives the
tasks left over a unit each. `Claimed` says what a pass has done after the first tasks: every
task of its kind has a unit of its own, and an object nobody had claimed is in the unit of the
first that depends on it.
-/

namespace DistCompile.Graph

/-! ### Passes over the tasks -/

/-- A loop over the tasks with their indices, by an invariant that counts the tasks done. -/
theorem foldl_zipIdx {α β : Type*} {f : β → α × Nat → β} {l : List α} {P : Nat → β → Prop} {b : β} (start : P 0 b)
    (step : ∀ i x b, l[i]? = some x → P i b → P (i + 1) (f b (x, i))) : P l.length (l.zipIdx.foldl f b) := by
  have rest : ∀ (l' : List α) (n : Nat) (b : β), (∀ i, l'[i]? = l[n + i]?) → P n b →
      P (n + l'.length) ((l'.zipIdx n).foldl f b) := by
    intro l'
    induction l' with
    | nil => exact fun n b _ holds => holds
    | cons x l' ih =>
      intro n b same holds
      have here : l[n]? = some x := (same 0).symm
      have next := ih (n + 1) (f b (x, n)) (fun i => by
        rw [← List.getElem?_cons_succ (a := x), same (i + 1)]
        congr 1
        omega) (step n x b here holds)
      rw [List.zipIdx_cons, List.foldl_cons, List.length_cons]
      rwa [Nat.add_right_comm] at next
  simpa using rest l 0 b (fun i => by rw [Nat.zero_add]) start

/-- The kind of task `i`. -/
def kindOf (t : List GraphTask) (i : Nat) : Option Int := t[i]?.map (·.kind)

/-- Task `i` takes a new unit and its unclaimed objects: the body of the loop of `claim`. -/
def Units.take (t : List GraphTask) (u : Units) (i : Nat) : Units :=
  { unit := (depsOf t i).foldl (fun unit d =>
      if (t[d]?.map (·.kind)) = some 0 ∧ unit d < 0 then Function.update unit d u.units else unit)
      (Function.update u.unit i u.units)
    units := u.units + 1 }

theorem foldl_claim {t : List GraphTask} (deps : List Nat) (unit : Nat → Int) {n : Int} (own : 0 ≤ n) (j : Nat) :
    deps.foldl (fun unit d =>
      if (t[d]?.map (·.kind)) = some 0 ∧ unit d < 0 then Function.update unit d n else unit) unit j =
      if j ∈ deps ∧ kindOf t j = some 0 ∧ unit j < 0 then n else unit j := by
  induction deps generalizing unit with
  | nil => simp
  | cons d deps ih =>
    rw [List.foldl_cons, ih]
    by_cases claims : (t[d]?.map (·.kind)) = some 0 ∧ unit d < 0
    · rw [if_pos claims]
      by_cases same : j = d
      · subst same
        rw [Function.update_self, if_neg (by omega), if_pos ⟨by simp, claims⟩]
      · rw [Function.update_of_ne same]
        simp [same]
    · rw [if_neg claims]
      by_cases same : j = d
      · subst same
        have none : ¬ (kindOf t j = some 0 ∧ unit j < 0) := claims
        rw [if_neg fun all => none all.2, if_neg fun all => none all.2]
      · simp [same]

theorem Units.take_unit (t : List GraphTask) (u : Units) (i j : Nat) :
    (u.take t i).unit j =
      if j = i ∨ (j ∈ depsOf t i ∧ kindOf t j = some 0 ∧ u.unit j < 0) then (u.units : Int) else u.unit j := by
  simp only [Units.take]
  rw [foldl_claim _ _ (Int.natCast_nonneg _)]
  by_cases same : j = i
  · subst same
    rw [Function.update_self, if_neg (by omega), if_pos (Or.inl rfl)]
  · rw [Function.update_of_ne same]
    simp [same]

/-- What a pass for a kind has made of the units after the first `i` tasks. -/
structure Claimed (t : List GraphTask) (kind : Int) (u₀ : Units) (i : Nat) (u : Units) : Prop where
  /-- The tasks of the kind have a new unit each. -/
  own : ∀ a < i, kindOf t a = some kind → (u₀.units : Int) ≤ u.unit a
  /-- An unclaimed object is in the unit of the first that depends on it. -/
  first : ∀ j, kindOf t j = some 0 → u₀.unit j < 0 → ∀ a < i, kindOf t a = some kind → j ∈ depsOf t a →
    (∀ b < a, kindOf t b = some kind → j ∉ depsOf t b) → u.unit j = u.unit a
  /-- All others are as they were. -/
  others : ∀ j, (kindOf t j = some kind → i ≤ j) →
    (kindOf t j = some 0 → u₀.unit j < 0 → ∀ a < i, kindOf t a = some kind → j ∉ depsOf t a) → u.unit j = u₀.unit j
  numbers : u₀.units ≤ u.units
  below : ∀ j, u.unit j < u.units
  used : ∀ n, u₀.units ≤ n → n < u.units → ∃ a < i, u.unit a = (n : Int)

section Claim

variable {t : List GraphTask} {kind : Int} {u₀ u : Units} {i j : Nat} {x : GraphTask}

theorem Claimed.start (below : ∀ j, u₀.unit j < u₀.units) : Claimed t kind u₀ 0 u₀ :=
  ⟨fun a early => absurd early (Nat.not_lt_zero a), fun _ _ _ a early => absurd early (Nat.not_lt_zero a),
    fun _ _ _ => rfl, le_refl _, below, fun _ low high => absurd low (Nat.not_le.mpr high)⟩

/-- A task of another kind. -/
theorem Claimed.skip (c : Claimed t kind u₀ i u) (other : kindOf t i ≠ some kind) : Claimed t kind u₀ (i + 1) u := by
  have before : ∀ {a}, a < i + 1 → kindOf t a = some kind → a < i := fun {a} early is =>
    lt_of_le_of_ne (Nat.le_of_lt_succ early) fun same => other (same ▸ is)
  refine ⟨fun a early is => c.own a (before early is) is,
    fun j object free a early is => c.first j object free a (before early is) is, fun j later apart => ?_, c.numbers,
    c.below, fun n low high => ?_⟩
  · exact c.others j (fun is => (later is).trans' (Nat.le_succ i)) fun object free a early =>
      apart object free a (early.trans (Nat.lt_succ_self i))
  · obtain ⟨a, early, here⟩ := c.used n low high
    exact ⟨a, early.trans (Nat.lt_succ_self i), here⟩

/-- A task of the kind takes a unit. -/
theorem Claimed.take (c : Claimed t kind u₀ i u) (action : kind ≠ 0) (is : kindOf t i = some kind) :
    Claimed t kind u₀ (i + 1) (u.take t i) := by
  have notObject : ∀ {a}, kindOf t a = some kind → kindOf t a ≠ some 0 := fun is object =>
    action (Option.some.inj (is.symm.trans object))
  have here : (u.take t i).unit i = u.units := by rw [Units.take_unit, if_pos (Or.inl rfl)]
  have kept : ∀ a, kindOf t a = some kind → a ≠ i → (u.take t i).unit a = u.unit a := by
    intro a isKind other
    rw [Units.take_unit, if_neg]
    rintro (same | ⟨-, object, -⟩)
    · exact other same
    · exact notObject isKind object
  refine ⟨fun a early isKind => ?_, fun j object free a early isKind dep lowest => ?_, fun j later apart => ?_,
    c.numbers.trans (Nat.le_succ _), fun j => ?_, fun n low high => ?_⟩
  · by_cases same : a = i
    · subst same
      rw [here]
      exact_mod_cast c.numbers
    · rw [kept a isKind same]
      exact c.own a (by omega) isKind
  · have notHere : j ≠ i := fun same => notObject is (same ▸ object)
    by_cases same : a = i
    · subst same
      -- nobody claimed it in this pass
      have still : u.unit j = u₀.unit j := c.others j (fun isKind => absurd object (notObject isKind))
        fun _ _ b early isKind' => lowest b early isKind'
      rw [here, Units.take_unit, if_pos (Or.inr ⟨dep, object, still ▸ free⟩)]
    · have before : a < i := by omega
      have joined := c.first j object free a before isKind dep lowest
      have taken := c.own a before isKind
      rw [kept a isKind same, Units.take_unit, if_neg, joined]
      rintro (same' | ⟨-, -, free'⟩)
      · exact notHere same'
      · omega
  · have notHere : j ≠ i := by
      rintro rfl
      exact absurd (later is) (Nat.not_succ_le_self j)
    have still : u.unit j = u₀.unit j := c.others j (fun isKind => (later isKind).trans' (Nat.le_succ i))
      fun object free a early => apart object free a (early.trans (Nat.lt_succ_self i))
    rw [Units.take_unit, if_neg, still]
    rintro (same | ⟨dep, object, free⟩)
    · exact notHere same
    · exact apart object (still ▸ free) i (Nat.lt_succ_self i) is dep
  · have := c.below j
    change _ < ((u.units + 1 : Nat) : Int)
    rw [Units.take_unit]
    split <;> omega
  · rcases Nat.lt_succ_iff_lt_or_eq.mp high with before | rfl
    · obtain ⟨a, early, number⟩ := c.used n low before
      refine ⟨a, early.trans (Nat.lt_succ_self i), ?_⟩
      rw [Units.take_unit, if_neg, number]
      rintro (same | ⟨-, -, free⟩)
      · omega
      · rw [number] at free
        omega
    · exact ⟨i, Nat.lt_succ_self i, here⟩

/-- A pass over all tasks. -/
theorem claim_claimed (action : kind ≠ 0) (unclaimed : ∀ j, kindOf t j = some kind → u₀.unit j < 0)
    (below : ∀ j, u₀.unit j < u₀.units) : Claimed t kind u₀ t.length (claim t kind u₀) := by
  refine foldl_zipIdx (P := Claimed t kind u₀) (Claimed.start below) fun i x u found c => ?_
  have kindAt : kindOf t i = some x.kind := by rw [kindOf, found]; rfl
  dsimp only
  by_cases is : x.kind = kind
  · have free : u.unit i < 0 := by
      have still : u.unit i = u₀.unit i := c.others i (fun _ => le_refl i) fun object =>
        absurd (is ▸ kindAt ▸ object) (by simpa using action)
      rw [still]
      exact unclaimed i (is ▸ kindAt)
    rw [if_neg (by rintro (other | taken); exacts [other is, absurd free (not_lt.mpr taken)])]
    exact c.take action (is ▸ kindAt)
  · rw [if_pos (Or.inl is)]
    exact c.skip fun same => is (Option.some.inj (kindAt.symm.trans same))

/-- A unit once taken is kept. -/
theorem Claimed.kept (c : Claimed t kind u₀ i u) (taken : 0 ≤ u₀.unit j) (other : kindOf t j ≠ some kind) :
    u.unit j = u₀.unit j :=
  c.others j (fun is => absurd is other) fun _ free => absurd taken (not_le.mpr free)

end Claim

/-! ### The tasks left over -/

/-- What the last pass has made of the units after the first `i` tasks. -/
structure Filled (u₀ : Units) (i : Nat) (u : Units) : Prop where
  inside : ∀ j < i, 0 ≤ u.unit j
  kept : ∀ j, 0 ≤ u₀.unit j ∨ i ≤ j → u.unit j = u₀.unit j
  numbers : u₀.units ≤ u.units
  below : ∀ j, u.unit j < u.units
  used : ∀ n, u₀.units ≤ n → n < u.units → ∃ j < i, u.unit j = (n : Int)

theorem fill_filled {u₀ : Units} (below : ∀ j, u₀.unit j < u₀.units) (n : Nat) :
    Filled u₀ n ((List.range n).foldl (fun u i =>
      if u.unit i < 0 then ⟨Function.update u.unit i u.units, u.units + 1⟩ else u) u₀) := by
  induction n with
  | zero =>
    exact ⟨fun j early => absurd early (Nat.not_lt_zero j), fun _ _ => rfl, le_refl _, below,
      fun _ low high => absurd low (Nat.not_le.mpr high)⟩
  | succ i ih =>
    rw [List.range_succ, List.foldl_append, List.foldl_cons, List.foldl_nil]
    generalize (List.range i).foldl _ u₀ = u at ih ⊢
    split
    · rename_i free
      refine ⟨fun j early => ?_, fun j keeps => ?_, ih.numbers.trans (Nat.le_succ _), fun j => ?_, fun n low high => ?_⟩
      · by_cases same : j = i
        · subst same
          simp
        · simpa [Function.update_of_ne same] using ih.inside j (by omega)
      · have still := ih.kept j (keeps.imp_right fun later => (Nat.le_succ i).trans later)
        have other : j ≠ i := by
          rintro rfl
          omega
        simpa [Function.update_of_ne other] using still
      · have := ih.below j
        by_cases same : j = i
        · subst same
          simp
        · simp only [Function.update_of_ne same]
          omega
      · rcases Nat.lt_succ_iff_lt_or_eq.mp high with before | rfl
        · obtain ⟨j, early, number⟩ := ih.used n low before
          refine ⟨j, early.trans (Nat.lt_succ_self i), ?_⟩
          simp only [Function.update_of_ne (Nat.ne_of_lt early), number]
        · exact ⟨i, Nat.lt_succ_self i, by simp⟩
    · rename_i taken
      refine ⟨fun j early => ?_, fun j keeps => ih.kept j (keeps.imp_right fun later => (Nat.le_succ i).trans later),
        ih.numbers, ih.below, fun n low high => ?_⟩
      · rcases Nat.lt_succ_iff_lt_or_eq.mp early with before | rfl
        · exact ih.inside j before
        · exact not_lt.mp taken
      · obtain ⟨j, early, number⟩ := ih.used n low high
        exact ⟨j, early.trans (Nat.lt_succ_self i), number⟩

/-! ### The units -/

/-- The lowest task of a kind that depends on `i`. -/
structure IsFirstUser (t : List GraphTask) (kind : Int) (i a : Nat) : Prop where
  is : kindOf t a = some kind
  dep : i ∈ depsOf t a
  first : ∀ b < a, kindOf t b = some kind → i ∉ depsOf t b

/-- The units are numbered without gaps, cover all tasks, and keep an object with its first
archive, or else with its first link. -/
structure Grouped (t : List GraphTask) (u : Units) : Prop where
  inside : ∀ i < t.length, 0 ≤ u.unit i ∧ u.unit i < u.units
  used : ∀ k < u.units, ∃ i < t.length, u.unit i = (k : Int)
  archive : ∀ i a, kindOf t i = some 0 → IsFirstUser t 1 i a → u.unit i = u.unit a
  link : ∀ i l, kindOf t i = some 0 → (∀ a, kindOf t a = some 1 → i ∉ depsOf t a) → IsFirstUser t 2 i l →
    u.unit i = u.unit l

theorem lt_length_of_kindOf {t : List GraphTask} {i : Nat} {kind : Int} (is : kindOf t i = some kind) :
    i < t.length := by
  by_contra outside
  rw [kindOf, List.getElem?_eq_none (Nat.not_lt.mp outside)] at is
  cases is

/-- What the three passes of `partition` group. -/
theorem unitsOf_grouped (t : List GraphTask) : Grouped t (unitsOf t) := by
  have other : ∀ {i : Nat} {k k' : Int}, kindOf t i = some k → k ≠ k' → kindOf t i ≠ some k' :=
    fun is differ same => differ (Option.some.inj (is.symm.trans same))
  have fresh : ∀ j, (⟨fun _ => -1, 0⟩ : Units).unit j < 0 := fun _ => show (-1 : Int) < 0 by decide
  have archives : Claimed t 1 ⟨fun _ => -1, 0⟩ t.length (claim t 1 ⟨fun _ => -1, 0⟩) :=
    claim_claimed (by decide) (fun j _ => fresh j) fresh
  have links : Claimed t 2 (claim t 1 ⟨fun _ => -1, 0⟩) t.length (claim t 2 (claim t 1 ⟨fun _ => -1, 0⟩)) := by
    refine claim_claimed (by decide) (fun j is => ?_) archives.below
    rw [archives.others j (fun is' => absurd is' (other is (by decide))) fun object =>
      absurd object (other is (by decide))]
    exact fresh j
  have rest : Filled (claim t 2 (claim t 1 ⟨fun _ => -1, 0⟩)) t.length (unitsOf t) := fill_filled links.below t.length
  refine ⟨fun i known => ⟨rest.inside i known, rest.below i⟩, fun k small => ?_, fun i a object user => ?_,
    fun i l object alone user => ?_⟩
  · by_cases last : (claim t 2 (claim t 1 ⟨fun _ => -1, 0⟩)).units ≤ k
    · exact rest.used k last small
    · rw [Nat.not_le] at last
      by_cases second : (claim t 1 ⟨fun _ => -1, 0⟩).units ≤ k
      · obtain ⟨i, known, number⟩ := links.used k second last
        exact ⟨i, known, by rw [rest.kept i (Or.inl (by omega)), number]⟩
      · obtain ⟨i, known, number⟩ := archives.used k (Nat.zero_le k) (Nat.not_le.mp second)
        have taken : 0 ≤ (claim t 1 ⟨fun _ => -1, 0⟩).unit i := by omega
        have notLink : kindOf t i ≠ some 2 := fun is => by
          rw [archives.others i (fun is' => absurd is' (other is (by decide))) fun object =>
            absurd object (other is (by decide))] at taken
          exact absurd taken (not_le.mpr (fresh i))
        have kept := links.kept taken notLink
        exact ⟨i, known, by rw [rest.kept i (Or.inl (by omega)), kept, number]⟩
  · have known := lt_length_of_kindOf user.is
    have own := archives.own a known user.is
    have joined := archives.first i object (fresh i) a known user.is user.dep user.first
    have keptObject := links.kept (j := i) (by rw [joined]; exact own) (other object (by decide))
    have keptArchive := links.kept (j := a) own (other user.is (by decide))
    rw [rest.kept i (Or.inl (by rw [keptObject, joined]; exact own)),
      rest.kept a (Or.inl (by rw [keptArchive]; exact own)), keptObject, keptArchive, joined]
  · have known := lt_length_of_kindOf user.is
    have free : (claim t 1 ⟨fun _ => -1, 0⟩).unit i < 0 := by
      rw [archives.others i (fun is => absurd is (other object (by decide))) fun _ _ a _ is => alone a is]
      exact fresh i
    have own := (Int.natCast_nonneg _).trans (links.own l known user.is)
    have joined := links.first i object free l known user.is user.dep user.first
    rw [rest.kept i (Or.inl (by rw [joined]; exact own)), rest.kept l (Or.inl own), joined]

end DistCompile.Graph
