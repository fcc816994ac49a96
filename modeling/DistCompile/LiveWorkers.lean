import DistCompile.Coordinator
import DistCompile.Lib.Run

/-!
Partitions and live workers (`register_worker`, `heartbeat`, `live_partitions` and
`partition_of` in `src/coordinator.cpp`).

A worker gets its partition when its id is seen for the first time: the number of workers
registered so far, as the `INSERT` counts them at its start. Rows stay, a worker started again
under the default id is a new worker, and a new build is split into one partition more than the
highest one of a worker seen in the last 30 seconds. `partitions_track_iff`: these are the
partitions of live workers exactly when the live workers are the ones registered first.
-/

namespace DistCompile

open DistCompile.Lib

/-- A row of `workers`, without the columns that only the operator reads. -/
structure WorkerRow where
  id : Str
  part : Int
  lastSeen : Int
deriving DecidableEq, Repr

/-- A `RegisterWorker` call under way: what its `INSERT` counted, and when it began. -/
structure Registration where
  worker : Str
  count : Nat
  began : Int
deriving DecidableEq, Repr

/-- The table, the clock of the database and the calls under way. -/
structure Registry where
  workers : List WorkerRow := []
  now : Int := 0
  pending : List Registration := []
deriving DecidableEq, Repr

inductive RegistryEvent where
  | register (worker : Str)
  | registered (r : Registration)
  | failed (r : Registration)
  | heartbeat (worker : Str)
  | pass (microseconds : Nat)
deriving DecidableEq, Repr

namespace Registry

/-- `last_seen = at_` for the worker. -/
def seen (s : Registry) (worker : Str) (at_ : Int) : Registry :=
  { s with workers := s.workers.map fun w => if w.id = worker then { w with lastSeen := at_ } else w }

/-- The worker has a row. -/
def knows (s : Registry) (worker : Str) : Bool := s.workers.any fun w => w.id = worker

/-- The end of the `INSERT ... ON CONFLICT (id) DO UPDATE`. -/
def insert (s : Registry) (r : Registration) : Registry :=
  if s.knows r.worker then s.seen r.worker r.began
  else { s with workers := s.workers ++ [⟨r.worker, r.count, r.began⟩] }

inductive Step : Registry → RegistryEvent → Registry → Prop where
  | register {s : Registry} {worker : Str} :
      Step s (.register worker) { s with pending := s.pending ++ [⟨worker, s.workers.length, s.now⟩] }
  | registered {s : Registry} {r : Registration} : r ∈ s.pending →
      Step s (.registered r) { s.insert r with pending := s.pending.erase r }
  | failed {s : Registry} {r : Registration} : r ∈ s.pending →
      Step s (.failed r) { s with pending := s.pending.erase r }
  | heartbeat {s : Registry} {worker : Str} : Step s (.heartbeat worker) (s.seen worker s.now)
  | pass {s : Registry} {microseconds : Nat} :
      Step s (.pass microseconds) { s with now := s.now + microseconds }

/-- The workers seen in the last 30 seconds. -/
def live (s : Registry) : List WorkerRow := s.workers.filter fun w => s.now - 30 * second < w.lastSeen

/-- `live_partitions`. -/
def livePartitions (s : Registry) : Int :=
  max 1 (((s.live.map WorkerRow.part).max?.map (· + 1)).getD 1)

/-- Live workers have partitions of their own, as many as there are live workers, and these are
the partitions of a new build. -/
structure Tracks (s : Registry) : Prop where
  distinct : (s.live.map WorkerRow.part).Nodup
  count : s.livePartitions = max 1 (s.live.length : Int)
  parts : ∀ part : Int, part ∈ s.live.map WorkerRow.part ↔ 0 ≤ part ∧ part < s.livePartitions

/-- A worker that is registered for the first time has counted all workers: no other was
registered meanwhile. -/
def Serial (s : Registry) : RegistryEvent → Prop
  | .registered r => s.knows r.worker = true ∨ r.count = s.workers.length
  | _ => True

/-- Partitions count the workers in the order of their registration. -/
def Numbered (s : Registry) : Prop :=
  s.workers.map WorkerRow.part = (List.range s.workers.length).map Nat.cast

theorem seen_parts (s : Registry) (worker : Str) (at_ : Int) :
    (s.seen worker at_).workers.map WorkerRow.part = s.workers.map WorkerRow.part := by
  rw [seen, List.map_map]
  refine List.map_congr_left fun w _ => ?_
  rw [Function.comp_apply]
  split <;> rfl

theorem Numbered.seen {s : Registry} (numbered : s.Numbered) (worker : Str) (at_ : Int) :
    (s.seen worker at_).Numbered := by
  rw [Numbered, seen_parts, numbered, Registry.seen, List.length_map]

theorem Numbered.step {s s' : Registry} {e : RegistryEvent} (numbered : s.Numbered) (serial : s.Serial e)
    (taken : Step s e s') : s'.Numbered := by
  cases taken with
  | register => exact numbered
  | @registered r _ =>
    change (s.insert r).Numbered
    unfold insert
    split
    · exact numbered.seen _ _
    · rename_i new
      have counted : r.count = s.workers.length := serial.resolve_left new
      rw [Numbered, List.map_append, numbered, List.length_append, List.length_singleton, List.range_succ,
        List.map_append, counted]
      rfl
  | failed _ => exact numbered
  | heartbeat => exact numbered.seen _ _
  | pass => exact numbered

/-- Filtering by position. -/
theorem filter_eq_take {α : Type} {l : List α} {p : α → Bool} {m : Nat}
    (first : ∀ (i : Nat) a, l[i]? = some a → (p a = true ↔ i < m)) : l.filter p = l.take m := by
  induction l generalizing m with
  | nil => simp
  | cons a l ih =>
    have here := first 0 a rfl
    cases m with
    | zero =>
      have dropped : ¬ p a = true := fun holds => absurd (here.mp holds) (Nat.lt_irrefl 0)
      have rest : l.filter p = l.take 0 := ih fun i b found => by simpa using first (i + 1) b found
      rw [List.filter_cons_of_neg dropped, rest]
      rfl
    | succ m =>
      have rest : l.filter p = l.take m := ih fun i b found => by simpa using first (i + 1) b found
      rw [List.filter_cons_of_pos (here.mpr (Nat.succ_pos m)), rest]
      rfl

theorem Numbered.part {s : Registry} (numbered : s.Numbered) {i : Nat} {w : WorkerRow}
    (found : s.workers[i]? = some w) : w.part = i := by
  have entry := congrArg (fun l => l[i]?) numbered
  have inside := (List.getElem?_eq_some_iff.mp found).1
  simp only [List.getElem?_map, found, List.getElem?_range inside, Option.map_some] at entry
  exact Option.some.inj entry

theorem livePartitions_of_parts {s : Registry} {m : Nat} (filled : 0 < m)
    (parts : s.live.map WorkerRow.part = (List.range m).map Nat.cast) : s.livePartitions = m := by
  have highest : (s.live.map WorkerRow.part).max? = some ((m - 1 : Nat) : Int) := by
    rw [parts, List.max?_eq_some_iff]
    constructor
    · exact List.mem_map_of_mem (List.mem_range.mpr (by omega))
    · intro part member
      obtain ⟨i, hi, rfl⟩ := List.mem_map.mp member
      have := List.mem_range.mp hi
      omega
  rw [livePartitions, highest]
  simp only [Option.map_some, Option.getD_some]
  omega

/-- When the live workers are the first ones. -/
theorem Numbered.tracks {s : Registry} (numbered : s.Numbered) (some_live : s.live ≠ [])
    (first : s.live <+: s.workers) : s.Tracks := by
  have parts : s.live.map WorkerRow.part = (List.range s.live.length).map Nat.cast := by
    have start := List.prefix_iff_eq_take.mp first
    have counted : s.live.length ≤ s.workers.length := first.length_le
    conv_lhs => rw [start, List.map_take, numbered, ← List.map_take, List.take_range, Nat.min_eq_left counted]
  have filled := List.length_pos_of_ne_nil some_live
  have total := livePartitions_of_parts filled parts
  refine ⟨?_, by omega, fun part => ?_⟩
  · rw [parts]
    exact List.nodup_range.map fun _ _ same => Int.ofNat.inj same
  · rw [parts, total, List.mem_map]
    constructor
    · rintro ⟨i, hi, rfl⟩
      have := List.mem_range.mp hi
      omega
    · rintro ⟨low, high⟩
      exact ⟨part.toNat, List.mem_range.mpr (by omega), by omega⟩

/-- When their partitions are those of a new build. -/
theorem Tracks.first {s : Registry} (numbered : s.Numbered) (tracks : s.Tracks) :
    s.live ≠ [] ∧ s.live <+: s.workers := by
  have some_live : s.live ≠ [] := by
    intro none
    have zero : (0 : Int) ∈ s.live.map WorkerRow.part :=
      (tracks.parts 0).mpr ⟨le_rfl, by unfold livePartitions; omega⟩
    rw [none] at zero
    cases zero
  have filled := List.length_pos_of_ne_nil some_live
  have total : s.livePartitions = s.live.length := by
    rw [tracks.count]
    omega
  have taken : s.live = s.workers.take s.live.length := by
    refine filter_eq_take fun i w found => ?_
    have member : (w.part ∈ s.live.map WorkerRow.part) ↔ i < s.live.length := by
      rw [tracks.parts, total, numbered.part found]
      omega
    rw [← member, List.mem_map]
    constructor
    · intro isLive
      exact ⟨w, List.mem_filter.mpr ⟨List.mem_of_getElem? found, isLive⟩, rfl⟩
    · -- the worker with this partition is the one at this position
      rintro ⟨v, hv, same⟩
      obtain ⟨inTable, isLive⟩ := List.mem_filter.mp hv
      obtain ⟨j, found'⟩ := List.mem_iff_getElem?.mp inTable
      rw [numbered.part found, numbered.part found'] at same
      obtain rfl : j = i := by omega
      rw [found] at found'
      rw [Option.some.inj found']
      exact isLive
  exact ⟨some_live, taken ▸ List.take_prefix _ _⟩

end Registry

/-- In every run in which workers are registered one after the other, the partitions of a new
build are those of the live workers exactly when there are live workers and these are the
workers registered first. -/
theorem partitions_track_iff {events : List RegistryEvent} {s : Registry}
    (run : Runs (Meets Registry.Step Registry.Serial) {} events s) :
    s.Tracks ↔ s.live ≠ [] ∧ s.live <+: s.workers := by
  have numbered : s.Numbered := run.invariant (P := Registry.Numbered) rfl
    fun taken numbered => numbered.step taken.1 taken.2
  constructor
  · exact Registry.Tracks.first numbered
  · rintro ⟨some_live, first⟩
    exact numbered.tracks some_live first

namespace Registry

/-- The registration of a worker, undisturbed. -/
def joined (s : Registry) (worker : Str) : Registry := s.insert ⟨worker, s.workers.length, s.now⟩

theorem joined_runs (s : Registry) (idle : s.pending = []) (worker : Str) :
    ∃ events, Runs (Meets Step Serial) s events (s.joined worker) := by
  have begun : Meets Step Serial s (.register worker) { s with pending := [⟨worker, s.workers.length, s.now⟩] } := by
    have step : Step s (.register worker) _ := .register
    rw [idle] at step
    exact ⟨trivial, step⟩
  have ended : Meets Step Serial { s with pending := [⟨worker, s.workers.length, s.now⟩] }
      (.registered ⟨worker, s.workers.length, s.now⟩) (s.joined worker) := by
    have step : Step { s with pending := [⟨worker, s.workers.length, s.now⟩] } (.registered _) _ :=
      .registered (List.mem_singleton.mpr rfl)
    have same : { insert { s with pending := [⟨worker, s.workers.length, s.now⟩] } ⟨worker, s.workers.length, s.now⟩
        with pending := [Registration.mk worker s.workers.length s.now].erase ⟨worker, s.workers.length, s.now⟩ } =
        s.joined worker := by
      rw [joined, insert, insert, List.erase_cons_head]
      split
      · rename_i known
        rw [if_pos (show s.knows worker = true from known), seen, seen, idle]
      · rename_i new
        rw [if_neg (show ¬ s.knows worker = true from new), idle]
    rw [same] at step
    exact ⟨Or.inr rfl, step⟩
  exact ⟨_, (Runs.nil.snoc begun).snoc ended⟩

end Registry

/-- Two workers that are both live. -/
theorem partitions_track_iff_two : ∃ events s, Runs (Meets Registry.Step Registry.Serial) {} events s ∧
    s.live.length = 2 ∧ s.Tracks := by
  obtain ⟨first, run⟩ := Registry.joined_runs {} rfl "v".toList
  obtain ⟨second, rest⟩ := Registry.joined_runs (Registry.joined {} "v".toList) rfl "w".toList
  exact ⟨_, _, run.trans rest, by decide, (partitions_track_iff (run.trans rest)).mpr (by decide)⟩

/-- A worker is started again under a new id: 31 seconds later one worker is live, and a new
build is split into two partitions. Two workers that register at the same time share one. -/
theorem restarted_worker_untracked :
    (∃ events s, Runs (Meets Registry.Step Registry.Serial) {} events s ∧ s.live.length = 1 ∧
      s.livePartitions = 2 ∧ ¬ s.Tracks) ∧
    ∃ events s, Runs Registry.Step {} events s ∧ s.live.length = 2 ∧ s.livePartitions = 1 ∧ ¬ s.Tracks := by
  constructor
  · obtain ⟨first, run⟩ := Registry.joined_runs {} rfl "host-1".toList
    have passed : Meets Registry.Step Registry.Serial (Registry.joined {} "host-1".toList) (.pass 31000000) _ :=
      ⟨trivial, .pass⟩
    obtain ⟨second, rest⟩ := Registry.joined_runs
      { Registry.joined {} "host-1".toList with now := 31000000 } rfl "host-2".toList
    refine ⟨_, _, (run.snoc passed).trans rest, by decide, by decide, fun tracks => ?_⟩
    exact absurd tracks.count (by decide)
  · have begun : Registry.Step {} (.register "v".toList) { pending := [⟨"v".toList, 0, 0⟩] } := .register
    have begun' : Registry.Step { pending := [⟨"v".toList, 0, 0⟩] } (.register "w".toList)
        { pending := [⟨"v".toList, 0, 0⟩, ⟨"w".toList, 0, 0⟩] } := .register
    have ended : Registry.Step { pending := [⟨"v".toList, 0, 0⟩, ⟨"w".toList, 0, 0⟩] }
        (.registered ⟨"v".toList, 0, 0⟩) { workers := [⟨"v".toList, 0, 0⟩], pending := [⟨"w".toList, 0, 0⟩] } :=
      .registered (by simp)
    have ended' : Registry.Step { workers := [⟨"v".toList, 0, 0⟩], pending := [⟨"w".toList, 0, 0⟩] }
        (.registered ⟨"w".toList, 0, 0⟩) { workers := [⟨"v".toList, 0, 0⟩, ⟨"w".toList, 0, 0⟩] } :=
      .registered (by simp)
    refine ⟨_, _, (((Runs.nil.snoc begun).snoc begun').snoc ended).snoc ended', by decide, by decide, fun tracks => ?_⟩
    exact absurd tracks.count (by decide)

end DistCompile
