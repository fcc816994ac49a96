import DistCompile.Lib.EventCount
import DistCompile.Sessions

/-!
Waiting for work (`claim_task`, `wake_workers` and their callers in `src/coordinator.cpp`).

A call of `ClaimTask` that finds nothing sleeps until a handler raises `ready_gen_` or until its
timer runs out. The handlers raise it after their commit, and signal after that; in between other
handlers commit, other calls look, and this one may be anywhere in its round. The two claim
statements see different tables, and `SKIP LOCKED` passes over the rows that sessions hold.

`Desk` is the coordinator with these calls, on top of the sessions of `World`. It is an event
count (`Board`): what is shared are the tables, and what a look can miss is in `Look.Covers`.

The mutexes are held only within a step. `ready_gen_` is a `uint64_t`, here a `Nat`: it would have
to be raised 2^64 times between a look and the sleep after it.
-/

namespace DistCompile.Sessions

open DistCompile.Lib

/-! ### Calls that wait -/

/-- A `ClaimRequest`, with the partition of the worker. -/
structure Ask where
  worker : Str
  toolchain : Str
  part : Int

/-- What `claim_steal` has seen when it found nothing. -/
structure Look (n : Nat) where
  world : World n
  now : Int

/-- Where a call of `claim_task` is in its loop. -/
inductive Round (n : Nat) where
  | starts
  /-- it has read `ready_gen_` -/
  | armed (seen : Nat)
  /-- `claim_own` has found nothing -/
  | passed (seen : Nat)
  /-- nor has `claim_steal` -/
  | missed (seen : Nat) (look : Look n)
  /-- in `wait_for` -/
  | asleep (seen : Nat) (look : Look n)
  /-- signalled, before it has the mutex again -/
  | woken (seen : Nat) (look : Look n)

/-- `notify_all`. -/
def Round.signal {n : Nat} : Round n → Round n
  | .asleep seen look => .woken seen look
  | other => other

/-- The coordinator: its sessions, whether the last pass of the reaper on each has returned rows,
the handlers between their commit and `wake_workers`, those between `ready_gen_++` and
`notify_all`, and the calls of `ClaimTask`. -/
structure Desk (n : Nat) where
  world : World n := {}
  reaped : Fin n → Bool := fun _ => false
  readyGen : Nat := 0
  owed : Nat := 0
  notifying : Nat := 0
  calls : Nat → Option (Ask × Round n) := fun _ => none

/-- What happens at the desk. -/
inductive DeskEvent (n : Nat) where
  /-- a session, or a statement outside the sessions, but for claims -/
  | act (a : Act n)
  /-- a commit that the handler takes for failed, as the connection breaks before the reply -/
  | unanswered (i : Fin n)
  | raise
  | notify
  | call (j : Nat) (ask : Ask)
  | read (j : Nat)
  | claimOwn (j : Nat) (now : Int) (uid : Option Nat)
  | claimSteal (j : Nat) (now : Int) (uid : Option Nat)
  /-- the deadline has passed, the caller has gone, or the database has thrown -/
  | leave (j : Nat)
  | wait (j : Nat)
  | spurious (j : Nat)
  | recheck (j : Nat)
  | timeout (j : Nat)
  /-- the coordinator stops and comes back -/
  | restart

/-- Claims are made by the calls of `ClaimTask`. -/
def Act.isClaim {n : Nat} : Act n → Bool
  | .claim _ _ _ _ _ => true
  | _ => false

/-- The handler that ends with this step goes on to `wake_workers`; `reaped` says whether the pass
of the reaper has returned rows. -/
def World.wakes {n : Nat} (w : World n) (reaped : Fin n → Bool) : Act n → Bool
  | .commit i => match w.sessions i with
      | .completing _ | .submitting _ _ => true
      | .reaping _ => reaped i
      | .idle => false
  | _ => false

/-- `r.size()` of the reaper. -/
def World.reaps {n : Nat} (w : World n) (reaped : Fin n → Bool) : Act n → Fin n → Bool
  | .reap i now uids => Function.update reaped i (w.com.tasks.any fun t => w.reaches uids t && leaseExpired now t)
  | _ => reaped

namespace Desk

variable {n : Nat}

def setRound (d : Desk n) (j : Nat) (ask : Ask) (round : Round n) : Desk n :=
  { d with calls := Function.update d.calls j (some (ask, round)) }

def answer (d : Desk n) (j : Nat) : Desk n := { d with calls := Function.update d.calls j none }

/-- The coordinator stops and comes back. -/
def restarted (d : Desk n) : Desk n := { world := { d.world with sessions := fun _ => .idle } }

/-- What one claim statement does for call `j`: with a uid it hands out that task, or the coordinator
goes down over its kind; without one it has to find nothing. -/
def claim (H : Sha256) (o : Options) (d : Desk n) (j : Nat) (ask : Ask) (part : Option Int) (now : Int) (uid : Option Nat)
    (missed : Round n) : Option (Desk n) :=
  match uid with
  | some uid => (d.world.step H o (.claim ask.worker ask.toolchain part now uid)).map fun world =>
      if (world.com.task? uid).any fun t => kindName t.kind = none then { d with world }.restarted
      else { d with world }.answer j
  | none => if d.world.claimCandidates ask.worker ask.toolchain part now = [] then some (d.setRound j ask missed) else none

/-- The condition of `wait_for`, under the mutex. -/
def check (d : Desk n) (seen : Nat) (look : Look n) : Round n :=
  if d.readyGen ≠ seen then .starts else .asleep seen look

/-- One step. -/
def step (H : Sha256) (o : Options) (d : Desk n) : DeskEvent n → Option (Desk n)
  | .act a =>
      if a.isClaim then none
      else (d.world.step H o a).map fun world =>
        { d with world, reaped := d.world.reaps d.reaped a, owed := d.owed + (d.world.wakes d.reaped a).toNat }
  | .unanswered i => (d.world.step H o (.commit i)).map fun world => { d with world }
  | .raise =>
      if 0 < d.owed then some { d with readyGen := d.readyGen + 1, owed := d.owed - 1, notifying := d.notifying + 1 }
      else none
  | .notify =>
      if 0 < d.notifying then
        some { d with notifying := d.notifying - 1, calls := fun j => (d.calls j).map fun c => (c.1, c.2.signal) }
      else none
  | .call j ask => if d.calls j = none then some (d.setRound j ask .starts) else none
  | .read j => match d.calls j with
      | some (ask, .starts) => some (d.setRound j ask (.armed d.readyGen))
      | _ => none
  | .claimOwn j now uid => match d.calls j with
      | some (ask, .armed seen) => d.claim H o j ask (some ask.part) now uid (.passed seen)
      | _ => none
  | .claimSteal j now uid => match d.calls j with
      | some (ask, .passed seen) => d.claim H o j ask none now uid (.missed seen ⟨d.world, now⟩)
      | _ => none
  | .leave j => some (d.answer j)
  | .wait j => match d.calls j with
      | some (ask, .missed seen look) => some (d.setRound j ask (d.check seen look))
      | _ => none
  | .spurious j => match d.calls j with
      | some (ask, .asleep seen look) => some (d.setRound j ask (.woken seen look))
      | _ => none
  | .recheck j => match d.calls j with
      | some (ask, .woken seen look) => some (d.setRound j ask (d.check seen look))
      | _ => none
  | .timeout j => match d.calls j with
      | some (ask, .asleep _ _) | some (ask, .woken _ _) => some (d.setRound j ask .starts)
      | _ => none
  | .restart => some d.restarted

/-- The steps as a relation. -/
def Step (H : Sha256) (o : Options) (d : Desk n) (e : DeskEvent n) (d' : Desk n) : Prop := d.step H o e = some d'

/-- Commits are answered, and no pass of the reaper is cut off. -/
def Answered (d : Desk n) : DeskEvent n → Prop
  | .unanswered _ => False
  | .act (.abort i) => ∀ stack, d.world.sessions i ≠ .reaping stack
  | _ => True

/-- A wake-up is on its way. -/
def Stirs (d : Desk n) : Prop :=
  0 < d.owed ∨ 0 < d.notifying ∨ ∃ i stack, d.world.sessions i = .reaping stack ∧ d.reaped i = true

end Desk

/-- The statement passed over the task: a session held its row, or it had failed on this worker
less than three seconds before. -/
def Look.PassesOver {n : Nat} (look : Look n) (worker : Str) (t : TaskRow) : Prop :=
  t ∈ look.world.com.tasks ∧ ((∃ i, Lock.task t.uid ∈ (look.world.sessions i).locks) ∨
    (t.lastFailedBy = some worker ∧ ∀ at_, t.readyAt = some at_ → look.now ≤ at_ + 3 * second))

/-! ### What the tables gain -/

section Ready

variable {H : Sha256} {o : Options} {n : Nat} {w w' : World n} {a : Act n}

/-- Every ready row of the second tables is in the first. -/
def ReadyIn (db db' : Db) : Prop := ∀ t ∈ db'.tasks, t.state = .ready → t ∈ db.tasks

theorem ReadyIn.of_tasks {db db' : Db} (same : db'.tasks = db.tasks) : ReadyIn db db' := fun _ ht _ => same ▸ ht

/-- An `UPDATE` that makes no row ready. -/
theorem ReadyIn.update {uids : List Nat} {f : TaskRow → TaskRow}
    (kept : ∀ t ∈ w.com.tasks, w.reaches uids t = true → (f t).state = .ready → f t = t) :
    ReadyIn w.com (w.update uids f) := by
  intro u hu ready
  obtain ⟨t, ht, rfl⟩ := List.mem_map.mp hu
  split at ready
  · rename_i reached
    rw [if_pos reached, kept t ht reached ready]
    exact ht
  · rename_i other
    rw [if_neg other]
    exact ht

/-- No statement of a session writes to the committed rows of tasks, only commits do. -/
theorem Session.exec_tasks {s s' : Session} {has : Str → Bool} {free : Lock → Bool} {com com' : Db} (sound : s.Sound com)
    (ran : s.exec H o has free com = some (com', s')) : com'.tasks = com.tasks := by
  cases s with
  | idle => cases ran
  | completing tx =>
    simp only [Session.exec] at ran
    split at ran
    · cases ran
    · split at ran <;> cases ran
      rfl
  | submitting sub stage =>
    obtain ⟨⟨db, next⟩, staged, same⟩ := Option.map_eq_some_iff.mp ran
    cases same
    unfold Stage.exec at staged
    split at staged <;> first | (cases staged; done) | (cases staged; rfl) | (split at staged <;> cases staged <;> rfl)
  | reaping stack =>
    simp only [Session.exec] at ran
    split at ran
    · cases ran
    · rename_i s rest
      split at ran
      · cases ran
        obtain ⟨build, counts, -⟩ := sound s (by simp)
        obtain ⟨task, cache, -⟩ : (∀ row, (DistCompile.exec H o com s).write ≠ some (.task row)) ∧ _ := exec_countOf counts
        rw [Outcome.db]
        cases write : (DistCompile.exec H o com s).write with
        | none => rfl
        | some row =>
          cases row with
          | task row => exact absurd write (task row)
          | cache row => exact absurd write (cache row)
          | build row => rfl
      · cases ran

/-- Only the commits of handlers that go on to `wake_workers`, and the reaper when it has found
something, make tasks ready. -/
theorem World.Step.readyIn (step : World.Step H o w a w') (inv : w.Inv)
    (commits : ∀ i, a = .commit i → ∃ stack, w.sessions i = .reaping stack)
    (reaps : ∀ i now uids, a = .reap i now uids → ∀ t ∈ w.com.tasks, w.reaches uids t = true → leaseExpired now t = false) :
    ReadyIn w.com w'.com := by
  by_cases acts : ∃ i, a = .exec i ∨ a = .commit i
  · obtain ⟨i, rfl | rfl⟩ := acts
    · obtain ⟨⟨com, s⟩, ran, rfl⟩ := Option.map_eq_some_iff.mp step
      exact .of_tasks (Session.exec_tasks (inv.sound i) ran)
    · obtain ⟨com, ran, rfl⟩ := Option.map_eq_some_iff.mp step
      obtain ⟨stack, is⟩ := commits i rfl
      rw [is] at ran
      cases stack <;> cases ran
      exact .of_tasks rfl
  cases step.move with
  | putBlob | complete | submit | abort => exact .of_tasks rfl
  | session act => exact absurd ⟨_, act.imp_right And.left⟩ acts
  | @reap i now uids idle =>
    refine ReadyIn.update fun t ht reached _ => ?_
    rw [reapRow, reaps i now uids rfl t ht reached]
    rfl
  | claim ht ready free =>
    intro u hu state
    rcases (Db.mem_apply_task ht (by rfl)).mp hu with rfl | ⟨old, -⟩
    · cases state
    · exact old
  | heartbeat =>
    refine ReadyIn.update fun t ht reached ready => ?_
    unfold heartbeatRow at ready ⊢
    split_ifs at ready ⊢ with leased
    · simp only [leasedTo, Bool.and_eq_true, decide_eq_true_eq] at leased
      exact absurd (leased.2.symm.trans ready) (by decide)
    · rfl

end Ready

/-! ### The desk is an event count -/

section Board

variable {H : Sha256} {o : Options} {n : Nat} {d d' : Desk n} {e : DeskEvent n} {events : List (DeskEvent n)}

/-- A step of the sessions that is answered, from tables in order. -/
def Changes (H : Sha256) (o : Options) (s : World n × (Fin n → Bool)) (owes : Bool) (s' : World n × (Fin n → Bool)) : Prop :=
  s.1.Inv ∧ ∃ a, World.Step H o s.1 a s'.1 ∧ (∀ i stack, a = .abort i → s.1.sessions i ≠ .reaping stack) ∧
    s'.2 = s.1.reaps s.2 a ∧ owes = s.1.wakes s.2 a

/-- `claim_steal` finds nothing. -/
def Misses (_ : Nat) (s : World n × (Fin n → Bool)) (look : Ask × Look n) : Prop :=
  look.2.world = s.1 ∧ s.1.claimCandidates look.1.worker look.1.toolchain none look.2.now = []

/-- The reaper has made tasks ready, and is still at work. -/
def Pending (s : World n × (Fin n → Bool)) : Prop := ∃ i stack, s.1.sessions i = .reaping stack ∧ s.2 i = true

/-- The look has seen all the tasks that are ready. -/
def Covers (look : Ask × Look n) (s : World n × (Fin n → Bool)) : Prop := ReadyIn look.2.world.com s.1.com

theorem law : Board.Law (Changes H o (n := n)) Misses Pending Covers where
  sees := by
    rintro j s look ⟨same, -⟩
    exact .of_tasks (congrArg (fun w => w.com.tasks) same.symm)
  stays := by
    rintro ⟨w, reaped⟩ ⟨w', reaped'⟩ ⟨inv, a, step, finishes, rfl, owes⟩ ⟨i, stack, is, found⟩
    by_cases acts : a.actor = some i
    · cases a with
      | putBlob | claim | heartbeat => cases acts
      | complete | submit | reap =>
        cases acts
        simp only [World.Step, World.step] at step is
        simp [is] at step
      | exec =>
        cases acts
        obtain ⟨⟨com, s⟩, ran, rfl⟩ := Option.map_eq_some_iff.mp step
        simp only at is ran
        rw [is] at ran
        cases stack with
        | nil => cases ran
        | cons top rest =>
          simp only [Session.exec] at ran
          split at ran <;> cases ran
          exact ⟨i, (DistCompile.exec H o w.com top).next ++ rest, by simp [World.set], found⟩
      | commit =>
        cases acts
        simp only [World.wakes] at owes is found
        rw [is] at owes
        exact absurd (owes.trans found) Bool.false_ne_true
      | abort =>
        cases acts
        exact absurd is (finishes i stack rfl)
    · refine ⟨i, stack, ((World.Inv.move inv step.move).2.still i acts).trans is, ?_⟩
      cases a with
      | reap j =>
        exact (Function.update_of_ne (fun same => acts (congrArg some same.symm)) _ _).trans found
      | _ => exact found
  adds := by
    rintro ⟨w, reaped⟩ ⟨w', reaped'⟩ look ⟨inv, a, step, finishes, rfl, owes⟩ quiet covers t ht ready
    refine covers t (step.readyIn inv (fun i commit => ?_) (fun i now uids reap u hu reached => ?_) t ht ready) ready
    · subst commit
      simp only [World.wakes] at owes
      cases session : w.sessions i with
      | reaping stack => exact ⟨stack, rfl⟩
      | idle =>
        simp [World.Step, World.step, session, Session.commit] at step
      | completing | submitting =>
        rw [session] at owes
        cases owes
    · subst reap
      by_contra expired
      simp only [World.Step, World.step] at step
      split at step <;> cases step
      refine quiet ⟨i, w.gaveUp o now uids, by simp [World.set], ?_⟩
      refine (Function.update_self _ _ _).trans (List.any_eq_true.mpr ⟨u, hu, ?_⟩)
      rw [reached, Bool.true_and]
      exact Bool.not_eq_false _ ▸ expired

/-- A call as a thread. -/
def sleeper : Option (Ask × Round n) → Sleeper (Ask × Look n)
  | none | some (_, .starts) => .out
  | some (_, .armed seen) | some (_, .passed seen) => .armed seen
  | some (ask, .missed seen look) => .missed seen (ask, look)
  | some (ask, .asleep seen look) => .asleep seen (ask, look)
  | some (ask, .woken seen look) => .woken seen (ask, look)

def Desk.board (d : Desk n) : Board (World n × (Fin n → Bool)) (Ask × Look n) where
  shared := (d.world, d.reaped)
  count := d.readyGen
  owed := d.owed
  signals := d.notifying
  threads j := sleeper (d.calls j)

theorem board_setRound (j : Nat) (ask : Ask) (round : Round n) :
    (d.setRound j ask round).board = d.board.setThread j (sleeper (some (ask, round))) := by
  have threads : (fun i => sleeper (Function.update d.calls j (some (ask, round)) i)) =
      Function.update (fun i => sleeper (d.calls i)) j (sleeper (some (ask, round))) := by
    funext i
    simp only [Function.update_apply]
    split <;> rfl
  simp only [Desk.board, Desk.setRound, Board.setThread, threads]

theorem board_answer (j : Nat) : (d.answer j).board = d.board.setThread j .out := by
  have threads : (fun i => sleeper (Function.update d.calls j none i)) =
      Function.update (fun i => sleeper (d.calls i)) j .out := by
    funext i
    simp only [Function.update_apply]
    split <;> rfl
  simp only [Desk.board, Desk.answer, Board.setThread, threads]

theorem board_notify : (fun j => sleeper ((d.calls j).map fun c => (c.1, c.2.signal))) =
    fun j => (sleeper (d.calls j)).signal := by
  funext j
  rcases d.calls j with - | ⟨ask, round⟩
  · rfl
  · cases round <;> rfl

/-- The condition of `wait_for` sends a call back to its start or to sleep. -/
theorem board_check {j seen : Nat} {ask : Ask} {look : Look n}
    (place : d.board.threads j = .missed seen (ask, look) ∨ d.board.threads j = .woken seen (ask, look)) :
    Board.Step (Changes H o) Misses d.board (d.setRound j ask (d.check seen look)).board := by
  rw [board_setRound, Desk.check]
  split
  · exact .leave
  · rename_i current
    exact .sleep place (not_not.mp current).symm

/-- A claim statement finds a task, and the call is answered, or it goes on. -/
theorem board_claim {j : Nat} {ask : Ask} {part : Option Int} {now : Int} {uid : Option Nat} {missed : Round n}
    (claimed : d.claim H o j ask part now uid missed = some d') (inv : d.world.Inv)
    (goes : d.world.claimCandidates ask.worker ask.toolchain part now = [] →
      Relation.ReflTransGen (Board.Step (Changes H o) Misses) d.board (d.setRound j ask missed).board) :
    Relation.ReflTransGen (Board.Step (Changes H o) Misses) d.board d'.board := by
  cases uid with
  | none =>
    simp only [Desk.claim] at claimed
    split at claimed <;> cases claimed
    exact goes (by assumption)
  | some uid =>
    obtain ⟨world, ran, rfl⟩ := Option.map_eq_some_iff.mp claimed
    have found : Changes H o (d.world, d.reaped) false (world, d.reaped) :=
      ⟨inv, _, ran, (fun _ _ same => by cases same), rfl, rfl⟩
    have changed : Board.Step (Changes H o) Misses d.board
        { d.board with shared := (world, d.reaped), owed := d.board.owed + Bool.toNat false } := .change found
    refine .tail (.single changed) ?_
    split
    · exact .restart
    · rw [board_answer]
      exact .leave

/-- Every step at the desk is a step of the event count, or two. -/
theorem Desk.Step.board (step : Desk.Step H o d e d') (answered : d.Answered e) (inv : d.world.Inv) :
    Relation.ReflTransGen (Board.Step (Changes H o) Misses) d.board d'.board := by
  unfold Desk.Step at step
  have thread : ∀ {j : Nat} {call : Option (Ask × Round n)}, d.calls j = call → d.board.threads j = sleeper call :=
    fun is => congrArg sleeper is
  cases e with
  | act a =>
    simp only [Desk.step] at step
    split at step
    · cases step
    · obtain ⟨world, ran, rfl⟩ := Option.map_eq_some_iff.mp step
      refine .single (.change ⟨inv, a, ran, fun i stack abort => ?_, rfl, rfl⟩)
      subst abort
      exact answered stack
  | unanswered i => exact answered.elim
  | raise =>
    simp only [Desk.step] at step
    split at step <;> cases step
    exact .single (.raise (by assumption))
  | notify =>
    simp only [Desk.step] at step
    split at step <;> cases step
    rename_i sent
    have signalled : Board.Step (Changes H o) Misses d.board _ := .signal sent
    refine .single ?_
    simpa only [Desk.board, board_notify] using signalled
  | call j ask =>
    simp only [Desk.step] at step
    split at step <;> cases step
    rw [board_setRound]
    exact .single .leave
  | read j =>
    simp only [Desk.step] at step
    split at step <;> cases step
    rename_i found
    rw [board_setRound]
    exact .single (.arm (thread found))
  | claimOwn j now uid =>
    simp only [Desk.step] at step
    split at step
    · rename_i ask seen found
      refine board_claim step inv fun _ => ?_
      -- the event count has one look where `claim_task` has two statements
      have armed : d.board.threads j = .armed seen := thread found
      have same : d.board.setThread j (.armed seen) = d.board := by
        rw [Board.setThread, ← armed, Function.update_eq_self]
      rw [board_setRound, sleeper, same]
    · cases step
  | claimSteal j now uid =>
    simp only [Desk.step] at step
    split at step
    · rename_i ask seen found
      refine board_claim step inv fun none_ => ?_
      rw [board_setRound]
      exact .single (.look (thread found) ⟨rfl, none_⟩)
    · cases step
  | leave j =>
    cases step
    rw [board_answer]
    exact .single .leave
  | wait j =>
    simp only [Desk.step] at step
    split at step <;> cases step
    rename_i found
    exact .single (board_check (Or.inl (thread found)))
  | spurious j =>
    simp only [Desk.step] at step
    split at step <;> cases step
    rename_i found
    rw [board_setRound]
    exact .single (.spurious (thread found))
  | recheck j =>
    simp only [Desk.step] at step
    split at step <;> cases step
    rename_i found
    exact .single (board_check (Or.inr (thread found)))
  | timeout j =>
    simp only [Desk.step] at step
    split at step <;> cases step
    all_goals
      rw [board_setRound]
      exact .single .leave
  | restart =>
    cases step
    exact .single .restart

theorem restarted_inv (inv : d.world.Inv) : d.restarted.world.Inv :=
  ⟨inv.tables, fun _ => trivial, by simp [Desk.restarted, Session.locks], by simp [Desk.restarted, Session.locks]⟩

theorem claim_inv {j : Nat} {ask : Ask} {part : Option Int} {now : Int} {uid : Option Nat} {missed : Round n}
    (claimed : d.claim H o j ask part now uid missed = some d') (inv : d.world.Inv) : d'.world.Inv := by
  cases uid with
  | none =>
    simp only [Desk.claim] at claimed
    split at claimed <;> cases claimed
    exact inv
  | some uid =>
    obtain ⟨world, ran, rfl⟩ := Option.map_eq_some_iff.mp claimed
    have moved := (inv.move (World.Step.move ran)).1
    split
    · exact restarted_inv moved
    · exact moved

/-- The sessions stay in order. -/
theorem Desk.Step.inv (step : Desk.Step H o d e d') (inv : d.world.Inv) : d'.world.Inv := by
  unfold Desk.Step at step
  cases e with
  | act a =>
    simp only [Desk.step] at step
    split at step
    · cases step
    · obtain ⟨world, ran, rfl⟩ := Option.map_eq_some_iff.mp step
      exact (inv.move (World.Step.move ran)).1
  | unanswered i =>
    obtain ⟨world, ran, rfl⟩ := Option.map_eq_some_iff.mp step
    exact (inv.move (World.Step.move ran)).1
  | claimOwn | claimSteal =>
    simp only [Desk.step] at step
    split at step
    · exact claim_inv step inv
    · cases step
  | leave =>
    cases step
    exact inv
  | restart =>
    cases step
    exact restarted_inv inv
  | _ =>
    simp only [Desk.step] at step
    split at step <;> cases step <;> exact inv

/-- No wake-up is lost. In every run in which commits are answered and the reaper is not cut off:
while a call of `ClaimTask` is asleep and no wake-up is on its way, every task of its toolchain that
is ready was passed over by its last look, as it was locked or had just failed on this worker. -/
theorem no_wakeup_lost (run : Runs (Meets (Desk.Step H o) Desk.Answered) ({} : Desk n) events d) {j seen : Nat} {ask : Ask}
    {look : Look n} (asleep : d.calls j = some (ask, .asleep seen look)) (still : ¬ d.Stirs) :
    ∀ t ∈ d.world.com.tasks, t.state = .ready → t.toolchain = ask.toolchain → look.PassesOver ask.worker t := by
  obtain ⟨inv, reached⟩ := run.invariant (P := fun d => d.world.Inv ∧ d.board.Reached Misses Pending Covers)
    ⟨World.Inv.start, Board.reached_start _⟩
    fun step holds => ⟨step.2.inv holds.1, holds.2.steps law (step.2.board step.1 holds.1)⟩
  simp only [Desk.Stirs, not_or, not_lt, Nat.le_zero] at still
  obtain ⟨owed, signals, quiet⟩ := still
  obtain ⟨⟨s, same, none_⟩, covers⟩ := reached.sleeper (congrArg sleeper asleep) owed signals quiet
  intro t ht ready chain
  have here : t ∈ look.world.com.tasks := covers t ht ready
  refine ⟨here, ?_⟩
  -- the statement chose from all rows that are free and claimable
  by_contra found
  rw [not_or, not_exists, not_and] at found
  obtain ⟨free, rested⟩ := found
  have candidate : t ∈ look.world.claimCandidates ask.worker ask.toolchain none look.now := by
    refine List.mem_filter.mpr ⟨here, ?_⟩
    rw [World.unlocked_iff.mpr free, claimable]
    simp only [ready, chain, decide_true, Bool.true_and, Option.all_none, Bool.and_true, Bool.or_eq_true,
      decide_eq_true_eq, Option.any_eq_true]
    by_cases failed : t.lastFailedBy = some ask.worker
    · have old := rested failed
      push Not at old
      obtain ⟨at_, is, passed⟩ := old
      exact Or.inr ⟨at_, is, by omega⟩
    · exact Or.inl failed
  rw [same, none_] at candidate
  cases candidate

end Board

def oneSession : Fin 1 := Fin.last 0

/-- A handler from its beginning to the wake-up. -/
def wakingActs (a : Act 1) (statements : Nat) : List (DeskEvent 1) :=
  (a :: List.replicate statements (.exec oneSession) ++ [Act.commit oneSession]).map .act ++ [.raise, .notify]

def failedAsk : Ask := ⟨"w".toList, "gcc".toList, 0⟩

/-- A call that claims from its own partition. -/
def claimingEvents (j : Nat) (now : Int) (uid : Option Nat) : List (DeskEvent 1) :=
  [.call j failedAsk, .read j, .claimOwn j now uid]

def failedResult : TaskResult := ⟨1, 1, "w".toList, false, true, [], [], 1⟩

/-- The object is handed out, fails on the worker, and is ready again; the worker asks for more. -/
def failedEvents : List (DeskEvent 1) :=
  .act (.putBlob "int f;".toList []) :: wakingActs (.submit oneSession sampleSpec 1) 9 ++ claimingEvents 0 0 (some 1) ++
    wakingActs (.complete oneSession 5 failedResult) 1 ++ claimingEvents 1 second none ++ [.claimSteal 1 second none, .wait 1]

/-- Call `j` is asleep, and a task that it could ask for is ready. -/
def Desk.sleepsOn (d : Desk 1) (j : Nat) : Bool :=
  match d.calls j with
  | some (ask, .asleep _ _) => d.world.com.tasks.any fun t => t.state = .ready && t.toolchain = ask.toolchain
  | _ => false

theorem failedEvents_run : (failedEvents.foldlM (Desk.step sampleSha {}) {}).any (fun d =>
    d.sleepsOn 1 && decide (d.owed = 0) && decide (d.notifying = 0) && !d.reaped oneSession) = true := by
  decide +kernel

/-- No commit is lost and no handler cut off. -/
def DeskEvent.plain {n : Nat} : DeskEvent n → Bool
  | .unanswered _ | .act (.abort _) => false
  | _ => true

theorem no_wakeup_lost_failed : ∃ events d ask seen look t, Runs (Meets (Desk.Step sampleSha {}) Desk.Answered) ({} : Desk 1) events d ∧
    d.calls 1 = some (ask, .asleep seen look) ∧ t ∈ d.world.com.tasks ∧ t.state = .ready ∧ look.PassesOver ask.worker t := by
  obtain ⟨d, ran, facts⟩ := (Option.any_eq_true _ _).mp failedEvents_run
  simp only [Bool.and_eq_true, decide_eq_true_eq, Bool.not_eq_true'] at facts
  obtain ⟨⟨⟨sleeps, owed⟩, notifying⟩, reaped⟩ := facts
  have plain : ∀ e ∈ failedEvents, e.plain = true := by decide
  have run : Runs (Meets (Desk.Step sampleSha {}) Desk.Answered) ({} : Desk 1) failedEvents d := by
    refine ((Runs.of_foldlM ran).meets plain).mono fun {a e b} taken => ⟨?_, taken.2⟩
    cases e with
    | unanswered => exact absurd taken.1 Bool.false_ne_true
    | act a =>
      cases a with
      | abort => exact absurd taken.1 Bool.false_ne_true
      | _ => trivial
    | _ => trivial
  unfold Desk.sleepsOn at sleeps
  split at sleeps
  · rename_i ask seen look asleep
    simp only [List.any_eq_true, Bool.and_eq_true, decide_eq_true_eq] at sleeps
    obtain ⟨t, ht, ready, chain⟩ := sleeps
    have still : ¬ d.Stirs := by
      rintro (more | more | ⟨i, stack, -, found⟩)
      · omega
      · omega
      · rw [Subsingleton.elim i oneSession, reaped] at found
        cases found
    exact ⟨failedEvents, d, ask, seen, look, t, run, asleep, ht, ready, no_wakeup_lost run asleep still t ht ready chain⟩
  · cases sleeps

end DistCompile.Sessions
