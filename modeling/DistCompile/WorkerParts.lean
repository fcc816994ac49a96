import DistCompile.LiveWorkers

/-!
The partition of a worker over its life (`register_worker` and `partition_of` in
`src/coordinator.cpp`).

The coordinator remembers partitions in `worker_part_`. Both handlers write it, each after a
statement of its own, and `parts_mu_` is free in between; a worker without a row is remembered
with -1, and what is remembered is not looked up again until the coordinator restarts.
`Directory` is this memory over the table of `Registry`, with the calls between their steps.

`dc-worker` starts its slots when `RegisterWorker` has been answered, so its calls of `ClaimTask`
find its row (`Registered`). No commit is lost here: without `--durable` a crash of the database
may take a registration back.
-/

namespace DistCompile

open DistCompile.Lib

/-! ### Partitions in the table -/

namespace Registry

/-- `SELECT part FROM workers WHERE id = $1`. -/
def partOf (s : Registry) (worker : Str) : Option Int :=
  (s.workers.find? fun w => w.id = worker).map WorkerRow.part

/-- Partitions are counts, and nobody has counted more rows than there are. -/
structure Counted (s : Registry) : Prop where
  parts : ∀ (i : Nat) (w : WorkerRow), s.workers[i]? = some w → 0 ≤ w.part ∧ w.part ≤ i
  pending : ∀ r ∈ s.pending, r.count ≤ s.workers.length

section Steps

variable {s s' : Registry} {e : RegistryEvent} {worker : Str}

/-- What a step does to the rows: their ids and partitions stay, and a worker that had no row may
get one, with what its `INSERT` has counted. -/
theorem Step.rows (taken : Step s e s') :
    ((∀ r, e = .registered r → s.knows r.worker = true) ∧
      ∃ f : WorkerRow → WorkerRow, (∀ w, (f w).id = w.id ∧ (f w).part = w.part) ∧ s'.workers = s.workers.map f) ∨
    ∃ r, e = .registered r ∧ r ∈ s.pending ∧ s'.workers = s.workers ++ [⟨r.worker, r.count, r.began⟩] := by
  have sees (at_ : Int) (v : Str) : ∃ f : WorkerRow → WorkerRow, (∀ w, (f w).id = w.id ∧ (f w).part = w.part) ∧
      (s.seen v at_).workers = s.workers.map f := by
    refine ⟨_, fun w => ?_, rfl⟩
    split <;> exact ⟨rfl, rfl⟩
  have same : ∃ f : WorkerRow → WorkerRow, (∀ w, (f w).id = w.id ∧ (f w).part = w.part) ∧
      s.workers = s.workers.map f := ⟨id, fun _ => ⟨rfl, rfl⟩, (List.map_id _).symm⟩
  cases taken with
  | register => exact .inl ⟨fun _ isEnd => (by cases isEnd), same⟩
  | @registered r pending =>
    by_cases known : s.knows r.worker = true
    · rw [insert, if_pos known]
      refine .inl ⟨fun _ isEnd => ?_, sees _ _⟩
      cases isEnd
      exact known
    · rw [insert, if_neg known]
      exact .inr ⟨r, rfl, pending, rfl⟩
  | failed _ => exact .inl ⟨fun _ isEnd => (by cases isEnd), same⟩
  | heartbeat => exact .inl ⟨fun _ isEnd => (by cases isEnd), sees _ _⟩
  | pass => exact .inl ⟨fun _ isEnd => (by cases isEnd), same⟩

/-- A worker keeps its partition in the table. -/
theorem Step.partOf {part : Int} (taken : Step s e s') (has : s.partOf worker = some part) :
    s'.partOf worker = some part := by
  obtain ⟨w, found, rfl⟩ := Option.map_eq_some_iff.mp has
  obtain ⟨-, f, keeps, rows⟩ | ⟨r, -, -, rows⟩ := taken.rows
  · have same : ((fun w : WorkerRow => decide (w.id = worker)) ∘ f) = fun w => decide (w.id = worker) :=
      funext fun w => by rw [Function.comp_apply, (keeps w).1]
    rw [Registry.partOf, rows, List.find?_map, same, found]
    exact congrArg some (keeps w).2
  · rw [Registry.partOf, rows, List.find?_append, found]
    rfl

theorem knows_iff : s.knows worker = true ↔ ∃ part, s.partOf worker = some part := by
  rw [knows, Registry.partOf, List.any_eq_true]
  constructor
  · rintro ⟨w, member, same⟩
    obtain ⟨v, found⟩ := Option.isSome_iff_exists.mp
      (List.find?_isSome (p := fun w : WorkerRow => decide (w.id = worker)).mpr ⟨w, member, same⟩)
    exact ⟨v.part, by rw [found]; rfl⟩
  · rintro ⟨part, has⟩
    obtain ⟨w, found, -⟩ := Option.map_eq_some_iff.mp has
    exact ⟨w, List.mem_of_find?_eq_some found, List.find?_some (p := fun w : WorkerRow => decide (w.id = worker)) found⟩

theorem serial_of_known (known : ∀ r, e = .registered r → s.knows r.worker = true) : s.Serial e := by
  cases e with
  | registered r => exact Or.inl (known r rfl)
  | _ => trivial

/-- Calls under way are taken up and ended; `INSERT`s begin with the count of the rows. -/
theorem Step.pending (taken : Step s e s') :
    ∀ r ∈ s'.pending, r ∈ s.pending ∨ r.count = s.workers.length := by
  intro r member
  cases taken with
  | register =>
    obtain here | begun := List.mem_append.mp member
    · exact .inl here
    · rw [List.mem_singleton.mp begun]
      exact .inr rfl
  | registered _ => exact .inl (List.mem_of_mem_erase member)
  | failed _ => exact .inl (List.mem_of_mem_erase member)
  | heartbeat => exact .inl member
  | pass => exact .inl member

theorem Step.length_le (taken : Step s e s') : s.workers.length ≤ s'.workers.length := by
  obtain ⟨-, f, -, rows⟩ | ⟨r, -, -, rows⟩ := taken.rows
  · rw [rows, List.length_map]
  · rw [rows, List.length_append]
    exact Nat.le_add_right _ _

theorem Counted.step (counted : s.Counted) (taken : Step s e s') : s'.Counted where
  parts i w found := by
    obtain ⟨-, f, keeps, rows⟩ | ⟨r, -, pending, rows⟩ := taken.rows
    · rw [rows, List.getElem?_map] at found
      obtain ⟨v, before, rfl⟩ := Option.map_eq_some_iff.mp found
      rw [(keeps v).2]
      exact counted.parts i v before
    · rw [rows] at found
      by_cases old : i < s.workers.length
      · exact counted.parts i w (List.getElem?_append_left old ▸ found)
      · rw [List.getElem?_append_right (Nat.le_of_not_lt old)] at found
        obtain rfl := List.mem_singleton.mp (List.mem_of_getElem? found)
        have few := counted.pending r pending
        exact ⟨Int.natCast_nonneg _, Int.ofNat_le.mpr (few.trans (Nat.le_of_not_lt old))⟩
  pending r member := by
    obtain before | begun := taken.pending r member
    · exact (counted.pending r before).trans taken.length_le
    · exact begun.le.trans taken.length_le

end Steps

theorem Counted.partOf_nonneg {s : Registry} (counted : s.Counted) {worker : Str} {part : Int}
    (has : s.partOf worker = some part) : 0 ≤ part := by
  obtain ⟨w, found, rfl⟩ := Option.map_eq_some_iff.mp has
  obtain ⟨i, row⟩ := List.mem_iff_getElem?.mp (List.mem_of_find?_eq_some found)
  exact (counted.parts i w row).1

/-- Different counts that start at zero are the positions. -/
theorem eq_range_of_le {parts : List Int} (counts : ∀ (i : Nat) (part : Int), parts[i]? = some part → 0 ≤ part ∧ part ≤ i)
    (distinct : parts.Nodup) : parts = (List.range parts.length).map Nat.cast := by
  induction parts using List.reverseRecOn with
  | nil => rfl
  | append_singleton parts part ih =>
    have last : (parts ++ [part])[parts.length]? = some part := by simp
    have bounds := counts _ _ last
    have before : parts = (List.range parts.length).map Nat.cast :=
      ih (fun i p found => counts i p (by
        rw [List.getElem?_append_left (List.getElem?_eq_some_iff.mp found).1]
        exact found)) (List.nodup_append.mp distinct).1
    have new : part ∉ parts := fun member =>
      (List.nodup_append.mp distinct).2.2 part member part (List.mem_singleton.mpr rfl) rfl
    have here : part = parts.length := by
      by_contra other
      refine new (before ▸ List.mem_map.mpr ⟨part.toNat, List.mem_range.mpr ?_, ?_⟩) <;> omega
    rw [List.length_append, List.length_singleton, List.range_succ, List.map_append, ← before, List.map_singleton,
      ← here]

theorem Counted.numbered {s : Registry} (counted : s.Counted) (distinct : (s.workers.map WorkerRow.part).Nodup) :
    s.Numbered := by
  have positions := eq_range_of_le (fun i part found => by
    rw [List.getElem?_map] at found
    obtain ⟨w, row, rfl⟩ := Option.map_eq_some_iff.mp found
    exact counted.parts i w row) distinct
  rwa [List.length_map] at positions

theorem Numbered.distinct {s : Registry} (numbered : s.Numbered) : (s.workers.map WorkerRow.part).Nodup := by
  rw [numbered]
  exact List.nodup_range.map fun _ _ same => Int.ofNat.inj same

theorem counted_of_run {events : List RegistryEvent} {s : Registry} (run : Runs Step {} events s) : s.Counted :=
  run.invariant ⟨fun _ _ found => (by cases found), List.forall_mem_nil _⟩ fun taken counted => counted.step taken

end Registry

/-- No two workers share a partition exactly when every worker that got a row had counted all rows
there were: no other worker got its row between the count and the end of the `INSERT`. -/
theorem own_partitions_iff {events : List RegistryEvent} {s : Registry} (run : Runs Registry.Step {} events s) :
    (s.workers.map WorkerRow.part).Nodup ↔ Runs (Meets Registry.Step Registry.Serial) {} events s := by
  constructor
  · -- partitions stay, so those of an earlier table are different as well
    intro distinct
    induction run with
    | nil => exact .nil
    | @snoc s t events e before last ih =>
      obtain ⟨known, f, keeps, rows⟩ | ⟨r, rfl, pending, rows⟩ := last.rows
      · have parts : t.workers.map WorkerRow.part = s.workers.map WorkerRow.part := by
          rw [rows, List.map_map]
          exact List.map_congr_left fun w _ => (keeps w).2
        exact (ih (parts ▸ distinct)).snoc ⟨Registry.serial_of_known known, last⟩
      · have numbered : t.Numbered := (Registry.counted_of_run (before.snoc last)).numbered distinct
        have new : t.workers[s.workers.length]? = some ⟨r.worker, r.count, r.began⟩ := by
          rw [rows, List.getElem?_append_right le_rfl, Nat.sub_self]
          rfl
        have counted : r.count = s.workers.length := Int.ofNat.inj (numbered.part new)
        rw [rows, List.map_append] at distinct
        exact (ih (List.nodup_append.mp distinct).1).snoc ⟨Or.inr counted, last⟩
  · intro serial
    exact (serial.invariant (P := Registry.Numbered) rfl fun taken numbered => numbered.step taken.1 taken.2).distinct

/-- Two workers that register at the same time. -/
theorem own_partitions_iff_overlapping : ∃ events s, Runs Registry.Step {} events s ∧ s.workers.length = 2 ∧
    ¬ Runs (Meets Registry.Step Registry.Serial) {} events s := by
  have first : Registry.Step { pending := [⟨"v".toList, 0, 0⟩, ⟨"w".toList, 0, 0⟩] } (.registered ⟨"v".toList, 0, 0⟩)
      { workers := [⟨"v".toList, 0, 0⟩], pending := [⟨"w".toList, 0, 0⟩] } := .registered (by simp)
  have second : Registry.Step { workers := [⟨"v".toList, 0, 0⟩], pending := [⟨"w".toList, 0, 0⟩] }
      (.registered ⟨"w".toList, 0, 0⟩) { workers := [⟨"v".toList, 0, 0⟩, ⟨"w".toList, 0, 0⟩] } := .registered (by simp)
  have run := (((Runs.nil.snoc (.register : Registry.Step {} (.register "v".toList) _)).snoc
    (.register : Registry.Step _ (.register "w".toList) _)).snoc first).snoc second
  exact ⟨_, _, run, rfl, fun serial => absurd ((own_partitions_iff run).mpr serial) (by decide)⟩

/-! ### Partitions the coordinator remembers -/

/-- How far a call of `claim_task` is with the partition of its worker. -/
inductive Lookup where
  | starts
  /-- the worker is not in `worker_part_` -/
  | misses
  /-- the statement has returned this -/
  | reads (part : Int)
  /-- `partition_of` has returned: the call claims with this partition -/
  | claims (part : Int)
deriving DecidableEq, Repr

/-- The partition a call has in hand. -/
def Lookup.part : Lookup → Option Int
  | .reads part | .claims part => some part
  | .starts | .misses => none

/-- The table, `worker_part_`, the calls of `register_worker` whose `INSERT` has returned, and those of
`claim_task`. -/
structure Directory where
  table : Registry := {}
  workerPart : Str → Option Int := fun _ => none
  returned : List (Str × Int) := []
  calls : Nat → Option (Str × Lookup) := fun _ => none

inductive DirectoryEvent where
  /-- something happens at the table that no handler goes on from -/
  | table (e : RegistryEvent)
  | returned (r : Registration)
  | remember (worker : Str) (part : Int)
  | call (j : Nat) (worker : Str)
  | look (j : Nat)
  | select (j : Nat)
  | store (j : Nat)
  | leave (j : Nat)
  | restart

namespace Directory

def setCall (d : Directory) (j : Nat) (worker : Str) (l : Lookup) : Directory :=
  { d with calls := Function.update d.calls j (some (worker, l)) }

/-- `worker_part_[worker] = part`. -/
def setPart (d : Directory) (worker : Str) (part : Int) : Directory :=
  { d with workerPart := Function.update d.workerPart worker (some part) }

inductive Step : Directory → DirectoryEvent → Directory → Prop where
  | table {d : Directory} {e : RegistryEvent} {table : Registry} : Registry.Step d.table e table →
      Step d (.table e) { d with table }
  | returned {d : Directory} {r : Registration} {table : Registry} {part : Int} :
      Registry.Step d.table (.registered r) table → table.partOf r.worker = some part →
      Step d (.returned r) { d with table, returned := (r.worker, part) :: d.returned }
  | remember {d : Directory} {worker : Str} {part : Int} : (worker, part) ∈ d.returned →
      Step d (.remember worker part) { d.setPart worker part with returned := d.returned.erase (worker, part) }
  | call {d : Directory} {j : Nat} {worker : Str} : d.calls j = none →
      Step d (.call j worker) (d.setCall j worker .starts)
  | look {d : Directory} {j : Nat} {worker : Str} : d.calls j = some (worker, .starts) →
      Step d (.look j) (d.setCall j worker ((d.workerPart worker).elim .misses .claims))
  | select {d : Directory} {j : Nat} {worker : Str} : d.calls j = some (worker, .misses) →
      Step d (.select j) (d.setCall j worker (.reads ((d.table.partOf worker).getD (-1))))
  | store {d : Directory} {j : Nat} {worker : Str} {part : Int} : d.calls j = some (worker, .reads part) →
      Step d (.store j) ((d.setPart worker part).setCall j worker (.claims part))
  | leave {d : Directory} {j : Nat} : Step d (.leave j) { d with calls := Function.update d.calls j none }
  | restart {d : Directory} : Step d .restart { table := d.table }

/-- The worker calls `ClaimTask` when it has a row. -/
def Registered (worker : Str) (d : Directory) : DirectoryEvent → Prop
  | .call _ v => v = worker → d.table.knows worker = true
  | _ => True

/-- What is remembered of the worker, and what its calls have in hand, is in its row; and it has one
when it calls. -/
structure Knows (worker : Str) (d : Directory) : Prop where
  remembered : ∀ part, d.workerPart worker = some part → d.table.partOf worker = some part
  returned : ∀ part, (worker, part) ∈ d.returned → d.table.partOf worker = some part
  row : ∀ j l, d.calls j = some (worker, l) → d.table.knows worker = true
  inHand : ∀ j l part, d.calls j = some (worker, l) → l.part = some part → d.table.partOf worker = some part

section Steps

variable {d d' : Directory} {e : DirectoryEvent} {worker : Str}

theorem Knows.start (table : Registry) : Knows worker { table } where
  remembered _ found := by cases found
  returned _ member := by cases member
  row _ _ calling := by cases calling
  inHand _ _ _ calling := by cases calling

/-- What a step does to the table is a step of the table. -/
theorem Step.at_table (taken : Step d e d') : d'.table = d.table ∨ ∃ e', Registry.Step d.table e' d'.table := by
  cases taken with
  | table at_ => exact .inr ⟨_, at_⟩
  | returned at_ _ => exact .inr ⟨_, at_⟩
  | _ => exact .inl rfl

theorem Step.partOf {part : Int} (taken : Step d e d') (has : d.table.partOf worker = some part) :
    d'.table.partOf worker = some part := by
  obtain same | ⟨_, at_⟩ := taken.at_table
  · rw [same, has]
  · exact at_.partOf has

theorem Step.counted (taken : Step d e d') (counted : d.table.Counted) : d'.table.Counted := by
  obtain same | ⟨_, at_⟩ := taken.at_table
  · rwa [same]
  · exact counted.step at_

theorem Knows.at_table (knows : d.Knows worker) {table : Registry}
    (keeps : ∀ part, d.table.partOf worker = some part → table.partOf worker = some part) :
    Knows worker { d with table } where
  remembered part found := keeps part (knows.remembered part found)
  returned part member := keeps part (knows.returned part member)
  row j l calling := by
    obtain ⟨part, has⟩ := Registry.knows_iff.mp (knows.row j l calling)
    exact Registry.knows_iff.mpr ⟨part, keeps part has⟩
  inHand j l part calling held := keeps part (knows.inHand j l part calling held)

/-- A call goes on with a partition that is in the row of its worker. -/
theorem Knows.setCall (knows : d.Knows worker) (j : Nat) {v : Str} {l : Lookup}
    (row : v = worker → d.table.knows worker = true)
    (held : v = worker → ∀ part, l.part = some part → d.table.partOf worker = some part) :
    Knows worker (d.setCall j v l) where
  remembered := knows.remembered
  returned := knows.returned
  row i k calling := by
    simp only [Directory.setCall, Function.update_apply] at calling
    split at calling
    · cases calling
      exact row rfl
    · exact knows.row i k calling
  inHand i k part calling has := by
    simp only [Directory.setCall, Function.update_apply] at calling
    split at calling
    · cases calling
      exact held rfl part has
    · exact knows.inHand i k part calling has

/-- `worker_part_` is written with a partition that is in the row of the worker. -/
theorem Knows.setPart (knows : d.Knows worker) {v : Str} {part : Int}
    (has : v = worker → d.table.partOf worker = some part) : Knows worker (d.setPart v part) where
  remembered p found := by
    simp only [Directory.setPart, Function.update_apply] at found
    split at found
    · rename_i same
      cases found
      exact has same.symm
    · exact knows.remembered p found
  returned := knows.returned
  row := knows.row
  inHand := knows.inHand

theorem Knows.step (knows : d.Knows worker) (registered : Registered worker d e) (taken : Step d e d') :
    d'.Knows worker := by
  cases taken with
  | table at_ => exact knows.at_table fun _ has => at_.partOf has
  | @returned r table part at_ found =>
    have kept : Knows worker { d with table } := knows.at_table fun _ has => at_.partOf has
    refine { kept with returned := fun p member => ?_ }
    obtain new | before := List.mem_cons.mp member
    · cases new
      exact found
    · exact kept.returned p before
  | @remember v part member =>
    have kept := knows.setPart (v := v) fun same => knows.returned part (same ▸ member)
    exact { kept with returned := fun p here => kept.returned p (List.mem_of_mem_erase here) }
  | call _ => exact knows.setCall _ registered fun _ _ none_ => by cases none_
  | @look j v calling =>
    refine knows.setCall _ (fun same => knows.row j _ (same ▸ calling)) fun same part held => ?_
    subst same
    cases known : d.workerPart v with
    | none =>
      rw [known] at held
      cases held
    | some p =>
      rw [known] at held
      cases held
      exact knows.remembered _ known
  | @select j v calling =>
    refine knows.setCall _ (fun same => knows.row j _ (same ▸ calling)) fun same part held => ?_
    subst same
    -- the call was made with a row in the table, and rows stay
    obtain ⟨q, has⟩ := Registry.knows_iff.mp (knows.row j _ calling)
    rw [has] at held
    cases held
    exact has
  | @store j v part calling =>
    have has : v = worker → d.table.partOf worker = some part := fun same => by
      subst same
      exact knows.inHand j _ part calling rfl
    refine (knows.setPart has).setCall _ (fun same => knows.row j _ (same ▸ calling)) fun same p held => ?_
    cases held
    exact has same
  | leave =>
    refine { knows with row := fun i l calling => ?_, inHand := fun i l part calling has => ?_ }
    all_goals
      simp only [Function.update_apply] at calling
      split at calling
      · cases calling
    · exact knows.row i l calling
    · exact knows.inHand i l part calling has
  | restart => exact .start _

end Steps

/-- Runs in which the worker calls `ClaimTask` when it has a row. -/
abbrev Run (worker : Str) : Directory → List DirectoryEvent → Directory → Prop :=
  Runs (Meets Step (Registered worker))

theorem Run.next {worker : Str} {events : List DirectoryEvent} {d d' d'' : Directory} {e : DirectoryEvent}
    (run : Run worker d events d') (taken : Step d' e d'') (registered : Registered worker d' e) :
    Run worker d (events ++ [e]) d'' := run.snoc ⟨registered, taken⟩

theorem Knows.run {worker : Str} {events : List DirectoryEvent} {d d' : Directory} (knows : d.Knows worker)
    (run : Run worker d events d') : d'.Knows worker :=
  run.invariant (P := Directory.Knows worker) knows fun taken before => before.step taken.1 taken.2

end Directory

/-- A worker keeps its partition. In every interleaving of `RegisterWorker` and `ClaimTask` calls, by any
workers, with registrations repeated, failed or unanswered and with restarts of the coordinator: when
the worker calls only after its registration, each of its calls claims with the partition of its row,
which is the same ever after. -/
theorem worker_part_kept {worker : Str} {events later : List DirectoryEvent} {d d' : Directory}
    (run : Directory.Run worker {} events d) {j : Nat} {part : Int}
    (claims : d.calls j = some (worker, .claims part)) (rest : Directory.Run worker d later d') :
    0 ≤ part ∧ d'.table.partOf worker = some part ∧
      ∀ i part', d'.calls i = some (worker, .claims part') → part' = part := by
  have knows : d.Knows worker := (Directory.Knows.start {}).run run
  have has : d.table.partOf worker = some part := knows.inHand j _ part claims rfl
  have still : d'.table.partOf worker = some part :=
    rest.invariant (P := fun d => d.table.partOf worker = some part) has fun taken before => taken.2.partOf before
  have counted : d.table.Counted := run.invariant (P := fun d => d.table.Counted)
    ⟨fun _ _ found => (by cases found), List.forall_mem_nil _⟩ fun taken before => taken.2.counted before
  refine ⟨counted.partOf_nonneg has, still, fun i part' claims' => ?_⟩
  have has' := (knows.run rest).inHand i _ part' claims' rfl
  rw [still] at has'
  exact (Option.some.inj has').symm

/-- The coordinator restarts between the registration of a worker and its second call. -/
theorem worker_part_kept_restarted : ∃ events d, Directory.Run "w".toList {} events d ∧
    d.calls 1 = some ("w".toList, .claims 0) ∧
    ∀ later d', Directory.Run "w".toList d later d' → d'.table.partOf "w".toList = some 0 := by
  have registered : Registry.Step { pending := [⟨"w".toList, 0, 0⟩] } (.registered ⟨"w".toList, 0, 0⟩)
      { workers := [⟨"w".toList, 0, 0⟩] } := .registered (by simp)
  have calls (j : Nat) (d : Directory) (free : d.calls j = none) :
      Directory.Step d (.call j "w".toList) (d.setCall j "w".toList .starts) := .call free
  have run : ∃ events d, Directory.Run "w".toList {} events d ∧ d.calls 1 = some ("w".toList, .claims 0) :=
    ⟨_, _, ((((((((((Directory.Run.next .nil (.table .register) trivial).next (.returned registered rfl) trivial).next
      (.remember (List.mem_singleton.mpr rfl)) trivial).next (calls 0 _ rfl) fun _ => rfl).next
      (.look (j := 0) rfl) trivial).next .restart trivial).next (calls 1 _ rfl) fun _ => rfl).next
      (.look (j := 1) rfl) trivial).next (.select (j := 1) rfl) trivial).next (.store (j := 1) rfl) trivial), rfl⟩
  obtain ⟨events, d, run, claims⟩ := run
  exact ⟨events, d, run, claims, fun _ _ rest => (worker_part_kept run claims rest).2.1⟩

end DistCompile
