import DistCompile.Lib.Run
import Mathlib.Data.List.Basic

/-!
The coordinator's connection pool (`Pool` in `src/db.h`, `src/db.cpp`).

`Pool::get` pops a connection from `idle_` under the mutex, drops the mutex and
only then looks at it: a connection that went bad is replaced by a new `Conn`,
whose constructor throws `DbError` when the server is still away. The threads of
the coordinator therefore interleave at the boundaries of the locked section,
and a connection that left `idle_` is in the hands of a `get` call (`taken`)
until the call returns a `Lease` or throws.

The slots that exist are the idle connections plus the outstanding ones.
`run_slots` counts them over every run: a failed reconnect destroys the popped
connection and puts nothing back, so each one costs a slot for good, and nothing
else does.
-/

namespace DistCompile.Pool

open DistCompile.Lib

/-- A libpq connection, by what `Conn::ok` reads: `PQstatus == CONNECTION_OK`. -/
structure Conn where
  ok : Bool
deriving DecidableEq, Repr

/-- `Pool`: the idle vector, and the connections outside it. `taken` are those
popped by a `get` call that has not returned yet, `leased` those owned by a live
`Lease`. -/
structure State where
  idle : List Conn
  taken : List Conn
  leased : List Conn
deriving DecidableEq, Repr

/-- `Pool::Pool(conninfo, size)`: every connection is opened up front. -/
def init (size : Nat) : State := ⟨List.replicate size ⟨true⟩, [], []⟩

/-- Connections outside `idle_`: a lease is outstanding from the moment `get`
takes its connection out. -/
def State.outstanding (p : State) : Nat := p.taken.length + p.leased.length

/-- The slots the pool still has. -/
def State.slots (p : State) : Nat := p.idle.length + p.outstanding

inductive Event where
  /-- the locked section of `get`: `idle_.back()` is moved out -/
  | take
  /-- the rest of `get` for the `i`-th taken connection, which is `ok()` -/
  | handOver (i : Nat)
  /-- ... which is not: `make_unique<Conn>` succeeds -/
  | reconnect (i : Nat)
  /-- ... or throws `DbError`; unwinding destroys the old connection -/
  | reconnectFails (i : Nat)
  /-- `~Lease`: `give_back` -/
  | giveBack (i : Nat)
  /-- the server drops a connection, wherever it is -/
  | goBadIdle (i : Nat)
  | goBadTaken (i : Nat)
  | goBadLeased (i : Nat)
deriving DecidableEq, Repr

/-- One event; `none` when it cannot happen (an empty `idle_` makes `get` wait). -/
def step (p : State) : Event → Option State
  | .take => match p.idle.getLast? with
    | some c => some { p with idle := p.idle.dropLast, taken := c :: p.taken }
    | none => none
  | .handOver i => match p.taken[i]? with
    | some c => if c.ok then
        some { p with taken := p.taken.eraseIdx i, leased := c :: p.leased } else none
    | none => none
  | .reconnect i => match p.taken[i]? with
    | some c => if c.ok then none else
        some { p with taken := p.taken.eraseIdx i, leased := ⟨true⟩ :: p.leased }
    | none => none
  | .reconnectFails i => match p.taken[i]? with
    | some c => if c.ok then none else some { p with taken := p.taken.eraseIdx i }
    | none => none
  | .giveBack i => match p.leased[i]? with
    | some c => some { p with idle := p.idle ++ [c], leased := p.leased.eraseIdx i }
    | none => none
  | .goBadIdle i => some { p with idle := p.idle.modify i fun _ => ⟨false⟩ }
  | .goBadTaken i => some { p with taken := p.taken.modify i fun _ => ⟨false⟩ }
  | .goBadLeased i => some { p with leased := p.leased.modify i fun _ => ⟨false⟩ }

/-- The runs of the pool are the runs of this relation. -/
def Step (p : State) (e : Event) (p' : State) : Prop := step p e = some p'

/-- A failed reconnect, whichever `get` call it happens in. -/
def Event.isFailedReconnect : Event → Bool
  | .reconnectFails _ => true
  | _ => false

/-! ### What one step does to the slots -/

/-- Removing an element that is there shortens the list by one. -/
private theorem length_eraseIdx_succ {α : Type} {l : List α} {i : Nat} {c : α}
    (found : l[i]? = some c) : (l.eraseIdx i).length + 1 = l.length := by
  obtain ⟨inside, -⟩ := List.getElem?_eq_some_iff.mp found
  rw [List.length_eraseIdx, if_pos inside]
  omega

/-- Every step keeps the slots, except that a failed reconnect loses one. -/
theorem step_slots {p p' : State} {e : Event} (taken : step p e = some p') :
    p'.slots + (if e.isFailedReconnect then 1 else 0) = p.slots := by
  cases e with
  | take =>
    cases h : p.idle.getLast? with
    | none => simp [step, h] at taken
    | some c =>
      have nonempty : p.idle ≠ [] := by rintro e; simp [e] at h
      have := List.length_pos_iff.mpr nonempty
      simp only [step, h, Option.some.injEq] at taken
      subst taken
      simp only [State.slots, State.outstanding, List.length_dropLast, List.length_cons,
        Event.isFailedReconnect]
      simp only [Bool.false_eq_true, if_false]
      omega
  | handOver i =>
    cases h : p.taken[i]? with
    | none => simp [step, h] at taken
    | some c =>
      have shorter := length_eraseIdx_succ h
      simp only [step, h] at taken
      split at taken
      · cases taken
        simp only [State.slots, State.outstanding, List.length_cons, Event.isFailedReconnect,
          Bool.false_eq_true, if_false]
        omega
      · cases taken
  | reconnect i =>
    cases h : p.taken[i]? with
    | none => simp [step, h] at taken
    | some c =>
      have shorter := length_eraseIdx_succ h
      simp only [step, h] at taken
      split at taken
      · cases taken
      · cases taken
        simp only [State.slots, State.outstanding, List.length_cons, Event.isFailedReconnect,
          Bool.false_eq_true, if_false]
        omega
  | reconnectFails i =>
    cases h : p.taken[i]? with
    | none => simp [step, h] at taken
    | some c =>
      have shorter := length_eraseIdx_succ h
      simp only [step, h] at taken
      split at taken
      · cases taken
      · cases taken
        simp only [State.slots, State.outstanding, Event.isFailedReconnect, if_true]
        omega
  | giveBack i =>
    cases h : p.leased[i]? with
    | none => simp [step, h] at taken
    | some c =>
      have shorter := length_eraseIdx_succ h
      simp only [step, h, Option.some.injEq] at taken
      subst taken
      simp only [State.slots, State.outstanding, List.length_append, List.length_singleton,
        Event.isFailedReconnect, Bool.false_eq_true, if_false]
      omega
  | goBadIdle i | goBadTaken i | goBadLeased i =>
    simp only [step, Option.some.injEq] at taken
    subst taken
    simp [State.slots, State.outstanding, Event.isFailedReconnect]

/-- Over a whole run, the slots left and the failed reconnects add up to the
size the pool was built with. -/
theorem run_slots {size : Nat} {es : List Event} {p : State}
    (run : Runs Step (init size) es p) :
    p.slots + es.countP Event.isFailedReconnect = size := by
  induction run with
  | nil => simp [init, State.slots, State.outstanding]
  | snoc _ last ih =>
    have one := step_slots last
    rw [List.countP_append, List.countP_singleton]
    omega

/-! ### The pool law -/

/-- What the pool promises in a state: no slot is lost, and once everything is
returned a `get` finds its wait condition `!idle_.empty()` true. -/
def State.Sound (p : State) (size : Nat) : Prop :=
  p.slots = size ∧ (p.outstanding = 0 → 0 < size → p.idle ≠ [])

/-- In every run, over every interleaving, the pool keeps its promise in the
state reached exactly when no reconnect of the run has failed. -/
theorem sound_iff_no_failed_reconnect {size : Nat} {es : List Event} {p : State}
    (run : Runs Step (init size) es p) :
    p.Sound size ↔ ∀ e ∈ es, e.isFailedReconnect = false := by
  have total := run_slots run
  constructor
  · rintro ⟨slots, -⟩ e member
    have none : es.countP Event.isFailedReconnect = 0 := by omega
    simpa using List.countP_eq_zero.mp none e member
  · intro clean
    have none : es.countP Event.isFailedReconnect = 0 :=
      List.countP_eq_zero.mpr fun e member => by simp [clean e member]
    refine ⟨by omega, fun returned positive empty => ?_⟩
    simp only [State.slots, empty, List.length_nil] at total
    omega

/-- An outage with no failed reconnect: the connection goes bad while idle, the
next `get` replaces it and gives it back. -/
theorem sound_after_clean_outage : State.Sound ⟨[⟨true⟩], [], []⟩ 1 := by
  have run : Runs Step (init 1) [.goBadIdle 0, .take, .reconnect 0, .giveBack 0]
      ⟨[⟨true⟩], [], []⟩ := Runs.of_foldlM rfl
  exact (sound_iff_no_failed_reconnect run).mpr (by decide)

/-- A pool of one connection: the server goes away, one `get` fails to
reconnect, and from then on `idle_` stays empty with no lease outstanding, so
every later `get` waits for ever. -/
theorem failed_reconnect_empties_pool :
    ∃ p, Runs Step (init 1) [.goBadIdle 0, .take, .reconnectFails 0] p ∧
      p.outstanding = 0 ∧ p.slots ≠ 1 ∧
      ∀ es q, Runs Step p es q → step q .take = none := by
  refine ⟨⟨[], [], []⟩, Runs.of_foldlM rfl, rfl, by decide, ?_⟩
  intro es q run
  have empty : q = ⟨[], [], []⟩ :=
    run.invariant (P := fun q => q = ⟨[], [], []⟩) rfl fun {a e b} taken before => by
      subst before
      cases e <;> simp_all [Step, step]
  subst empty
  rfl

end DistCompile.Pool
