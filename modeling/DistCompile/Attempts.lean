import DistCompile.Moves
import DistCompile.Serve

/-!
The attempts of a task (`try_claim`, the retry branch of `CompleteTask` and `reap_loop`
in `src/coordinator.cpp`), over runs of calls with any submitted graph.

Each claim raises `attempts` by one and returns the new value, so the replies for one
task read 1, 2, 3, ...; a task whose kind has no name gets no replies, as the coordinator
goes down over each of its claims. A claimed task comes back into the queue in two places only, and
both compare `attempts` with `max_attempts` first; `make_ready`, which does not, never
reaches a task that has been claimed.
-/

namespace DistCompile

open DistCompile.Lib

/-! ### The log of claims -/

/-- The attempt a call hands out. -/
def Call.hands : Call → Option (Nat × Nat)
  | .claimTask _ _ _ _ (some a) => some (a.taskUid, a.attempt)
  | _ => none

/-- The attempts handed out, oldest first. -/
def handedOut (calls : List Call) : List (Nat × Nat) := calls.filterMap Call.hands

/-- Those of one task. -/
def attemptsOf (uid : Nat) (calls : List Call) : List Nat :=
  ((handedOut calls).filter fun p => p.1 = uid).map Prod.snd

theorem handedOut_append (calls more : List Call) : handedOut (calls ++ more) = handedOut calls ++ handedOut more :=
  List.filterMap_append

theorem attemptsOf_append (uid : Nat) (calls more : List Call) :
    attemptsOf uid (calls ++ more) = attemptsOf uid calls ++ attemptsOf uid more := by
  simp [attemptsOf, handedOut_append]

theorem attemptsOf_other {uid : Nat} {call : Call} (other : ∀ a, call.hands ≠ some (uid, a)) :
    attemptsOf uid [call] = [] := by
  cases hands : call.hands with
  | none => simp [attemptsOf, handedOut, hands]
  | some p =>
    have : p.1 ≠ uid := fun same => other p.2 (by rw [hands, ← same])
    simp [attemptsOf, handedOut, hands, this]

theorem attemptsOf_hands {uid attempt : Nat} {call : Call} (hands : call.hands = some (uid, attempt)) :
    attemptsOf uid [call] = [attempt] := by
  simp [attemptsOf, handedOut, hands]

/-- The call takes the running attempt back: it was reported as a transient failure, or
its lease has run out. -/
def Call.Releases (c : Coordinator) (call : Call) (uid attempt : Nat) : Prop :=
  ∃ t ∈ c.db.tasks, t.uid = uid ∧ t.attempts = attempt ∧ t.state = .running ∧ call.takesBack c t

/-- Some call of a run to `d` has taken the attempt back. -/
def Released (H : Sha256) (o : Options) (calls : List Call) (d : Coordinator) (uid attempt : Nat) : Prop :=
  ∃ before call after c c', calls = before ++ call :: after ∧ Runs (Step H o) {} before c ∧
    Step H o c call c' ∧ Runs (Step H o) c' after d ∧ call.Releases c uid attempt

theorem Released.later {H : Sha256} {o : Options} {calls : List Call} {d d' : Coordinator} {uid attempt : Nat}
    (released : Released H o calls d uid attempt) {call : Call} (step : Step H o d call d') :
    Released H o (calls ++ [call]) d' uid attempt := by
  obtain ⟨before, earlier, after, c, c', rfl, run, first, rest, releases⟩ := released
  exact ⟨before, earlier, after ++ [call], c, c', by simp, run, first, .snoc rest step, releases⟩

/-! ### The invariant -/

/-- A task that still counts down has not been claimed and is not in the queue. -/
def Unclaimed (state : TaskState) (attempts : Nat) : Prop :=
  attempts = 0 ∧ (state = .waiting ∨ state = .cached)

theorem Unclaimed.closed {state : TaskState} {attempts : Nat} (young : Unclaimed state attempts) :
    state.open = false := by
  rcases young.2 with rfl | rfl <;> rfl

/-- `max(1, max_attempts)`. -/
def Options.attemptLimit (o : Options) : Int := max 1 o.maxAttempts

/-- The number of attempts of a task that were handed out; the others the coordinator has not
survived. -/
def TaskRow.handed (t : TaskRow) : Nat := if kindName t.kind = none then 0 else t.attempts

theorem TaskRow.handed_le (t : TaskRow) : t.handed ≤ t.attempts := by
  unfold TaskRow.handed
  split
  · exact Nat.zero_le _
  · exact le_rfl

theorem TaskRow.handed_eq {t t' : TaskRow} (kind : t'.kind = t.kind) (attempts : t'.attempts = t.attempts) :
    t'.handed = t.handed := by
  rw [TaskRow.handed, TaskRow.handed, kind, attempts]

/-- What the log of a run says of the rows. -/
structure Logged (H : Sha256) (o : Options) (calls : List Call) (c : Coordinator) : Prop where
  counting : Counting Unclaimed c.db
  attempts : ∀ t ∈ c.db.tasks, attemptsOf t.uid calls = List.range' 1 t.handed
  absent : ∀ uid, (∀ t ∈ c.db.tasks, t.uid ≠ uid) → attemptsOf uid calls = []
  bound : ∀ t ∈ c.db.tasks, (t.attempts : Int) ≤ o.attemptLimit
  ready : ∀ t ∈ c.db.tasks, t.state = .ready → (t.attempts : Int) < o.attemptLimit
  released : ∀ t ∈ c.db.tasks, t.state = .ready → 0 < t.attempts → Released H o calls c t.uid t.attempts

section Runs

variable {H : Sha256} {o : Options} {calls : List Call} {call : Call} {c c' : Coordinator}

theorem takesBack_counted {t : TaskRow} {pendingDeps : Int}
    (takes : call.takesBack c { t with pendingDeps }) : call.takesBack c t := by
  cases call with
  | completeTask r now accepted =>
    obtain ⟨s, stack, takes⟩ := takes
    refine ⟨s, stack, ?_⟩
    cases s with
    | retry r now => exact takes
    | _ => exact takes
  | reap now => exact takes
  | _ => exact takes

/-- A call that hands out an attempt claims a ready row. -/
theorem Step.claims (step : Step H o c call c') {uid attempt : Nat} (hands : call.hands = some (uid, attempt)) :
    ∃ t ∈ c.db.tasks, t.state = .ready ∧ t.uid = uid ∧ attempt = t.attempts + 1 ∧ kindName t.kind ≠ none ∧
      ∃ worker now, claimedRow o worker now t ∈ c'.db.tasks := by
  cases step with
  | @claimTask worker toolchain part now t picked named =>
    obtain ⟨ht, ready, -⟩ := mem_of_picked picked
    cases hands
    exact ⟨t, ht, ready, rfl, rfl, named, worker, now, List.mem_map.mpr ⟨t, ht, if_pos rfl⟩⟩
  | _ => cases hands

/-- No call submits a row that has been claimed or is in the queue while it counts down. -/
theorem Step.unclaimed (step : Step H o c call c') (counting : Counting Unclaimed c.db) :
    Arises o Unclaimed c call c' := by
  refine step.arises Unclaimed.closed counting fun spec live reply _ order w accepted walked id counts => ⟨rfl, ?_⟩
  exact (walk_counts accepted walked counts).imp_right And.left

/-- The row of a task that is not claimed by the call. -/
theorem Logged.old_row (logged : Logged H o calls c) (run : Runs (Step H o) {} calls c)
    (step : Step H o c call c') {t' : TaskRow} (origin : Origin o Unclaimed c call t')
    (other : ∀ a, call.hands ≠ some (t'.uid, a)) :
    attemptsOf t'.uid (calls ++ [call]) = List.range' 1 t'.handed ∧ (t'.attempts : Int) ≤ o.attemptLimit ∧
      (t'.state = .ready → (t'.attempts : Int) < o.attemptLimit) ∧
      (t'.state = .ready → 0 < t'.attempts → Released H o (calls ++ [call]) c' t'.uid t'.attempts) := by
  rw [attemptsOf_append, attemptsOf_other other, List.append_nil]
  have limit : (0 : Int) < o.attemptLimit := by unfold Options.attemptLimit; omega
  cases origin with
  | moved t ht moves =>
    have same := moves.same
    rw [TaskRow.handed_eq same.kind same.attempts, same.uid, same.attempts]
    have taken : 0 < t.attempts → t'.state = .ready →
        t.state = .ready ∨ t.state = .running ∧ call.takesBack c t ∧ (t.attempts : Int) < o.maxAttempts :=
      moves.ready (fun young => young.1) takesBack_counted
    refine ⟨logged.attempts t ht, logged.bound t ht, fun queued => ?_, fun queued claimed => ?_⟩
    · by_cases claimed : 0 < t.attempts
      · rcases taken claimed queued with ready | ⟨-, -, few⟩
        · exact logged.ready t ht ready
        · unfold Options.attemptLimit
          omega
      · omega
    · rcases taken claimed queued with ready | ⟨running, takes, -⟩
      · exact (logged.released t ht ready claimed).later step
      · exact ⟨calls, call, [], c, c', rfl, run, step, .nil, t, ht, rfl, rfl, running, takes⟩
  | claimed t worker toolchain part now ht ready row reply =>
    subst row
    rcases reply with ⟨is, -⟩ | ⟨-, unnamed⟩
    · exact absurd (by rw [is]; rfl) (other (t.attempts + 1))
    · -- nobody has heard of the attempt
      have before := logged.attempts t ht
      rw [TaskRow.handed, if_pos unnamed] at before
      have few := logged.ready t ht ready
      rw [TaskRow.handed, if_pos (show kindName (claimedRow o worker now t).kind = none from unnamed)]
      refine ⟨before, ?_, fun queued => ?_, fun queued => ?_⟩
      · change ((t.attempts + 1 : Nat) : Int) ≤ _
        omega
      · cases queued
      · cases queued
  | beaten t ht worker now row =>
    have same : t'.uid = t.uid ∧ t'.kind = t.kind ∧ t'.attempts = t.attempts ∧ t'.state = t.state := by
      rw [row]
      unfold heartbeatRow
      split <;> exact ⟨rfl, rfl, rfl, rfl⟩
    rw [TaskRow.handed_eq same.2.1 same.2.2.1, same.1, same.2.2.1, same.2.2.2]
    exact ⟨logged.attempts t ht, logged.bound t ht, logged.ready t ht,
      fun queued claimed => (logged.released t ht queued claimed).later step⟩
  | new uid unclaimed =>
    have none : attemptsOf t'.uid calls = [] := by
      refine logged.absent t'.uid fun t ht same => ?_
      have := logged.counting.uids.fresh t ht
      omega
    have unhanded : t'.handed = 0 := Nat.le_zero.mp (t'.handed_le.trans unclaimed.le)
    rw [none, unhanded, unclaimed]
    exact ⟨rfl, by exact_mod_cast limit.le, fun _ => by exact_mod_cast limit, fun _ claimed => absurd claimed (by simp)⟩

theorem Logged.step (logged : Logged H o calls c) (run : Runs (Step H o) {} calls c)
    (step : Step H o c call c') : Logged H o (calls ++ [call]) c' := by
  have arises := step.unclaimed logged.counting
  have rows : ∀ t' ∈ c'.db.tasks,
      attemptsOf t'.uid (calls ++ [call]) = List.range' 1 t'.handed ∧ (t'.attempts : Int) ≤ o.attemptLimit ∧
      (t'.state = .ready → (t'.attempts : Int) < o.attemptLimit) ∧
      (t'.state = .ready → 0 < t'.attempts → Released H o (calls ++ [call]) c' t'.uid t'.attempts) := by
    intro t' ht'
    by_cases handed : ∃ a, call.hands = some (t'.uid, a)
    · obtain ⟨a, hands⟩ := handed
      obtain ⟨t, ht, ready, uid, rfl, named, worker, now, member⟩ := step.claims hands
      have row : t' = claimedRow o worker now t :=
        List.inj_on_of_nodup_map arises.counting.uids.unique ht' member uid.symm
      have few := logged.ready t ht ready
      rw [attemptsOf_append, attemptsOf_hands hands, row]
      refine ⟨?_, ?_, fun queued => ?_, fun queued => ?_⟩
      · have after : (claimedRow o worker now t).handed = t.attempts + 1 := if_neg named
        have before : t.handed = t.attempts := if_neg named
        rw [after]
        change attemptsOf t.uid calls ++ [t.attempts + 1] = List.range' 1 (t.attempts + 1)
        rw [logged.attempts t ht, before, List.range'_concat]
        simp [Nat.add_comm]
      · change ((t.attempts + 1 : Nat) : Int) ≤ _
        omega
      · cases queued
      · cases queued
    · exact logged.old_row run step (arises.origin t' ht') fun a hands => handed ⟨a, hands⟩
  refine ⟨arises.counting, fun t' ht' => (rows t' ht').1, fun uid absent => ?_, fun t' ht' => (rows t' ht').2.1,
    fun t' ht' => (rows t' ht').2.2.1, fun t' ht' => (rows t' ht').2.2.2⟩
  have before : ∀ t ∈ c.db.tasks, t.uid ≠ uid := by
    intro t ht same
    obtain ⟨t', ht', kept⟩ := arises.kept t ht
    exact absent t' ht' (kept.trans same)
  have other : ∀ a, call.hands ≠ some (uid, a) := by
    intro a hands
    obtain ⟨t, ht, -, same, -⟩ := step.claims hands
    exact before t ht same
  rw [attemptsOf_append, logged.absent uid before, attemptsOf_other other, List.append_nil]

theorem Runs.logged (run : Runs (Step H o) {} calls c) : Logged H o calls c := by
  induction run with
  | nil => exact ⟨.empty _, by simp, fun _ _ => rfl, by simp, by simp, by simp⟩
  | snoc before last ih => exact ih.step before last

/-- The coordinator goes down over the call. -/
def Call.crashes : Call → Bool
  | .claimCrash _ _ _ _ _ => true
  | _ => false

/-- Nobody has claimed a task whose kind has no name. -/
def Untouched (db : Db) : Prop := ∀ t ∈ db.tasks, kindName t.kind = none → t.attempts = 0

theorem Step.untouched (step : Step H o c call c') (counting : Counting Unclaimed c.db) (up : call.crashes = false)
    (untouched : Untouched c.db) : Untouched c'.db := by
  intro t' ht' unnamed
  cases (step.unclaimed counting).origin t' ht' with
  | moved t ht moves =>
    rw [moves.same.attempts]
    exact untouched t ht (moves.same.kind ▸ unnamed)
  | claimed t worker toolchain part now ht ready row reply =>
    subst row
    rcases reply with ⟨-, named⟩ | ⟨rfl, -⟩
    · exact absurd unnamed named
    · cases up
  | beaten t ht worker now row =>
    have same : t'.kind = t.kind ∧ t'.attempts = t.attempts := by
      rw [row]
      unfold heartbeatRow
      split <;> exact ⟨rfl, rfl⟩
    rw [same.2]
    exact untouched t ht (same.1 ▸ unnamed)
  | new uid unclaimed => exact unclaimed

/-- In a run that the coordinator survives, every attempt was handed out. -/
theorem Runs.handed (run : Runs (Step H o) {} calls c) (up : ∀ call ∈ calls, call.crashes = false) :
    ∀ t ∈ c.db.tasks, t.handed = t.attempts := by
  obtain ⟨-, untouched⟩ := (run.meets up).invariant (P := fun c => Counting Unclaimed c.db ∧ Untouched c.db)
    ⟨.empty _, by simp [Untouched]⟩ fun step holds =>
      ⟨(step.2.unclaimed holds.1).counting, step.2.untouched holds.1 step.1 holds.2⟩
  intro t ht
  unfold TaskRow.handed
  split
  · exact (untouched t ht (by assumption)).symm
  · rfl

theorem Logged.attemptsOf_eq (logged : Logged H o calls c) (uid : Nat) :
    ∃ n : Nat, (n : Int) ≤ o.attemptLimit ∧ attemptsOf uid calls = List.range' 1 n := by
  by_cases known : ∃ t ∈ c.db.tasks, t.uid = uid
  · obtain ⟨t, ht, rfl⟩ := known
    exact ⟨t.handed, (Int.ofNat_le.mpr t.handed_le).trans (logged.bound t ht), logged.attempts t ht⟩
  · refine ⟨0, ?_, logged.absent uid fun t ht same => known ⟨t, ht, same⟩⟩
    unfold Options.attemptLimit
    omega

/-- Attempts of one task that are all different are different as pairs. -/
theorem handedOut_nodup (each : ∀ uid, (attemptsOf uid calls).Nodup) : (handedOut calls).Nodup := by
  rw [List.nodup_iff_sublist]
  intro p twice
  have kept : List.Sublist [p, p] ((handedOut calls).filter fun q => q.1 = p.1) := by
    simpa using twice.filter fun q => q.1 = p.1
  exact List.nodup_iff_sublist.mp (each p.1) p.2 (kept.map Prod.snd)

/-- For every run of calls: no attempt is handed out twice; those of a task are
1, 2, 3, ..., at most `max(1, max_attempts)` of them; a further attempt is handed out only
after the one before was taken back; a task in the queue has attempts left. -/
theorem claims_exclusive (run : Runs (Step H o) {} calls c) :
    (handedOut calls).Nodup ∧
    (∀ uid, ∃ n : Nat, (n : Int) ≤ o.attemptLimit ∧ attemptsOf uid calls = List.range' 1 n) ∧
    (∀ before call after uid attempt, calls = before ++ call :: after →
      call.hands = some (uid, attempt + 1) → 0 < attempt →
        ∃ d d', Runs (Step H o) {} before d ∧ Step H o d call d' ∧ Runs (Step H o) d' after c ∧
          Released H o before d uid attempt) ∧
    ∀ t ∈ c.db.tasks, t.state = .ready → (t.attempts : Int) < o.attemptLimit := by
  have logged := Runs.logged run
  refine ⟨handedOut_nodup fun uid => ?_, logged.attemptsOf_eq, ?_, logged.ready⟩
  · obtain ⟨n, -, attempts⟩ := logged.attemptsOf_eq uid
    rw [attempts]
    exact List.nodup_range'
  · rintro before call after uid attempt rfl hands claimed
    obtain ⟨d, d', earlier, step, rest⟩ := run.split_at
    obtain ⟨t, ht, ready, rfl, number, -⟩ := step.claims hands
    obtain rfl : attempt = t.attempts := by omega
    exact ⟨d, d', earlier, step, rest, (Runs.logged earlier).released t ht ready claimed⟩

end Runs

/-- The compile task of the sample, reported as a transient failure once. -/
def retriedRequests : List Request :=
  [.putBlob "int f;".toList [], .submitBuild sampleSpec 1,
    .claimTask "v".toList "gcc".toList 0 0 1,
    .completeTask ⟨1, 1, "v".toList, false, true, [], "disk full".toList, 0⟩ 0 4,
    .claimTask "w".toList "gcc".toList 0 0 1]

theorem retriedRequests_served :
    (serveAll sampleSha {} {} retriedRequests).any (fun r => decide (handedOut r.1 = [(1, 1), (1, 2)])) = true := by
  decide +kernel

theorem claims_exclusive_retried :
    ∃ calls c, Runs (Step sampleSha {}) {} calls c ∧ handedOut calls = [(1, 1), (1, 2)] ∧
      (handedOut calls).Nodup ∧
      (∀ uid, ∃ n : Nat, (n : Int) ≤ Options.attemptLimit {} ∧ attemptsOf uid calls = List.range' 1 n) := by
  obtain ⟨⟨calls, c⟩, served, handed⟩ := (Option.any_eq_true _ _).mp retriedRequests_served
  have run := serveAll_runs served
  exact ⟨calls, c, run, by simpa using handed, (claims_exclusive run).1, (claims_exclusive run).2.1⟩

end DistCompile
