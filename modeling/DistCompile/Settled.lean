import DistCompile.Moves
import DistCompile.Serve

/-!
Tasks that are done, cached or failed (`submit`, `finished` and `make_ready` in
`src/coordinator.cpp`).

The statements that end a task or take it back ask for an open or running row. Those of
`make_ready` ask for nothing; they reach the task whose counter has just come down to
zero. With the specs of `dcc` such a task waits. But `submit` looks up the key of a
compile task without regard to its dependencies, so a spec in which a compile task lists
some can insert it as cached with a positive counter, and the last countdown then queues
it again (`cached_task_requeued`). `Call.Unforeseen` is the condition that excludes this.
-/

namespace DistCompile

open DistCompile.Lib DistCompile.Graph

/-- `done`, `cached` or `failed`. -/
def TaskState.settled : TaskState → Bool
  | .done | .cached | .failed => true
  | _ => false

theorem settled_not_open {s : TaskState} (settled : s.settled = true) : s.open = false := by
  cases s
  all_goals first | rfl | cases settled

/-- A task that still counts down waits. -/
def Waits (state : TaskState) (attempts : Nat) : Prop := state = .waiting ∧ attempts = 0

theorem Waits.closed {state : TaskState} {attempts : Nat} (young : Waits state attempts) :
    state.open = false := by
  rw [young.1]
  rfl

/-- The walk finds no compile task in the cache while a dependency of it has no output. -/
def Call.Unforeseen (H : Sha256) (c : Coordinator) : Call → Prop
  | .submitBuild spec _ _ => ∀ order w, topoOrder spec.graph = .ok order →
      walk H c.blobs.has c.db.outputs spec order = .ok w → ∀ ts ∈ spec.tasks, ts.kind = COMPILE →
        (∃ d ∈ ts.depIds, (w.row d).output = []) → c.db.outputs ts.key = none
  | _ => True

theorem Call.Flat.unforeseen {H : Sha256} {c : Coordinator} {call : Call} (flat : call.Flat) : call.Unforeseen H c := by
  cases call with
  | submitBuild spec live reply =>
    rintro order w - - ts member compile ⟨d, hd, unknown⟩
    exact absurd unknown (BuildSpec.Flat.supplies flat w ts member compile d hd)
  | _ => trivial

/-- The columns that a settled row keeps. -/
structure TaskRow.Kept (t t' : TaskRow) : Prop where
  uid : t'.uid = t.uid
  state : t'.state = t.state
  key : t'.key = t.key
  output : t'.output = t.output

theorem TaskRow.Kept.refl (t : TaskRow) : t.Kept t := ⟨rfl, rfl, rfl, rfl⟩

theorem TaskRow.Kept.trans {t t' t'' : TaskRow} (first : t.Kept t') (second : t'.Kept t'') : t.Kept t'' :=
  ⟨second.uid.trans first.uid, second.state.trans first.state, second.key.trans first.key,
    second.output.trans first.output⟩

section Rows

variable {H : Sha256} {o : Options} {back : TaskRow → Prop} {t t' : TaskRow}

theorem TaskRow.Move.kept (move : t.Move o Waits back t') (settled : t.state.settled = true) : t.Kept t' := by
  cases move with
  | ended same pending wasOpen closed =>
    rw [settled_not_open settled] at wasOpen
    cases wasOpen
  | requeued same pending running allowed state =>
    rw [running] at settled
    cases settled
  | counted => exact ⟨rfl, rfl, rfl, rfl⟩
  | made same pending young zero state =>
    rw [young.1] at settled
    cases settled

theorem TaskRow.Moves.kept (moves : TaskRow.Moves o Waits back t t') (settled : t.state.settled = true) :
    t.Kept t' := by
  induction moves with
  | refl => exact .refl t
  | tail _ move ih => exact ih.trans (move.kept (ih.state ▸ settled))

end Rows

section Calls

variable {H : Sha256} {o : Options} {calls : List Call} {call : Call} {c c' : Coordinator}

theorem Step.waits (step : Step H o c call c') (counting : Counting Waits c.db) (plain : call.Unforeseen H c) :
    Arises o Waits c call c' := by
  refine step.arises Waits.closed counting fun spec live reply same order w accepted walked id counts => ⟨?_, rfl⟩
  subst same
  rcases walk_counts accepted walked counts with waits | ⟨-, ts, found, compile, unknown, hit⟩
  · exact waits
  · exact absurd (plain order w accepted walked ts (List.mem_of_getElem? found) compile unknown) hit

/-- One call keeps a settled row. -/
theorem Step.keeps_settled (step : Step H o c call c') (counting : Counting Waits c.db)
    (plain : call.Unforeseen H c) {t t' : TaskRow} (ht : t ∈ c.db.tasks) (settled : t.state.settled = true)
    (ht' : t' ∈ c'.db.tasks) (same : t'.uid = t.uid) : t.Kept t' := by
  have unique : ∀ u ∈ c.db.tasks, u.uid = t.uid → u = t := fun u hu =>
    List.inj_on_of_nodup_map counting.uids.unique hu ht
  cases (step.waits counting plain).origin t' ht' with
  | moved u hu moves =>
    obtain rfl := unique u hu (moves.same.uid.symm.trans same)
    exact moves.kept settled
  | claimed u worker toolchain part now hu ready row reply =>
    obtain rfl := unique u hu (by rw [row] at same; exact same)
    rw [ready] at settled
    cases settled
  | beaten u hu worker now row =>
    subst row
    unfold heartbeatRow at same ⊢
    split at same
    · rename_i leased
      obtain rfl := unique u hu same
      simp only [leasedTo, Bool.and_eq_true, decide_eq_true_eq] at leased
      rw [leased.2] at settled
      cases settled
    · rename_i other
      obtain rfl := unique u hu same
      rw [if_neg other]
      exact .refl u
  | new uid unclaimed =>
    have := counting.uids.fresh t ht
    omega

/-- The invariant holds in every state that such calls reach. -/
theorem Runs.waits (run : Runs (Meets (Step H o) fun c call => call.Unforeseen H c) {} calls c) :
    Counting Waits c.db :=
  run.invariant (P := fun c => Counting Waits c.db) (.empty _)
    fun step counting => (step.2.waits counting step.1).counting

theorem Runs.keeps_settled (counting : Counting Waits c.db)
    (run : Runs (Meets (Step H o) fun c call => call.Unforeseen H c) c calls c') {t : TaskRow}
    (ht : t ∈ c.db.tasks) (settled : t.state.settled = true) :
    Counting Waits c'.db ∧ ∃ t' ∈ c'.db.tasks, t.Kept t' := by
  refine run.invariant (P := fun c' => Counting Waits c'.db ∧ ∃ t' ∈ c'.db.tasks, t.Kept t')
    ⟨counting, t, ht, .refl t⟩ fun {d call d'} step holds => ?_
  obtain ⟨counting, u, hu, kept⟩ := holds
  have arises := step.2.waits counting step.1
  obtain ⟨u', hu', same⟩ := arises.kept u hu
  have settled' : u.state.settled = true := kept.state ▸ settled
  exact ⟨arises.counting, u', hu', kept.trans (step.2.keeps_settled counting step.1 hu settled' hu' same)⟩

/-- In every run in which no compile task is found in the cache at its submit while a dependency
of it has no output: once a task is done, cached or failed, its state, key and output stay. -/
theorem settled_tasks_stay {later : List Call}
    (run : Runs (Meets (Step H o) fun c call => call.Unforeseen H c) {} calls c) {t : TaskRow}
    (ht : t ∈ c.db.tasks) (settled : t.state.settled = true)
    (rest : Runs (Meets (Step H o) fun c call => call.Unforeseen H c) c later c') :
    (∃ t' ∈ c'.db.tasks, t'.uid = t.uid) ∧
      ∀ t' ∈ c'.db.tasks, t'.uid = t.uid → t'.state = t.state ∧ t'.key = t.key ∧ t'.output = t.output := by
  obtain ⟨counting, u, hu, kept⟩ := Runs.keeps_settled (Runs.waits run) rest ht settled
  refine ⟨⟨u, hu, kept.uid⟩, fun t' ht' same => ?_⟩
  rw [List.inj_on_of_nodup_map counting.uids.unique ht' hu (same.trans kept.uid.symm)]
  exact ⟨kept.state, kept.key, kept.output⟩

end Calls

/-! ### A compile task with dependencies -/

/-- The source alone, so that its key gets into the cache. -/
def aloneSpec : BuildSpec where
  toolchain := "gcc".toList
  tasks := [⟨0, COMPILE, "obj/f.c.o".toList, [], sampleKey, sampleInput, ["cc".toList], 10⟩]

/-- The same compile task behind another one. -/
def behindSpec : BuildSpec where
  toolchain := "gcc".toList
  tasks := [
    ⟨0, COMPILE, "obj/g.c.o".toList, [], sampleAction, sampleInput, ["cc".toList], 10⟩,
    ⟨1, COMPILE, "obj/f.c.o".toList, [0], sampleKey, sampleInput, ["cc".toList], 10⟩]

/-- The result of a compile of the sample. -/
def compiledResult (uid : Nat) : TaskResult := ⟨uid, 1, "w".toList, true, false, sampleOutput, [], 5⟩

/-- Compile the source. -/
def compiledRequests : List Request :=
  [.putBlob "int f;".toList [], .putBlob "o:int f;".toList [], .submitBuild aloneSpec 1,
    .claimTask "w".toList "gcc".toList 0 0 1, .completeTask (compiledResult 1) 0 10]

/-- Submit it in a library: what is done stays done. -/
theorem compiledRequests_served :
    (serveAll sampleSha {} {} compiledRequests).any (fun r =>
      r.1.all (fun call => call.Flat) && r.2.db.tasks.any (fun t => t.uid = 1 && t.state = .done) &&
      (serveAll sampleSha {} r.2 [.submitBuild sampleSpec 1]).any fun r' =>
        r'.1.all fun call => call.Flat) = true := by
  decide +kernel

/-- A flat run meets the condition. -/
theorem unforeseen_of_flat {H : Sha256} {o : Options} {calls : List Call} {c c' : Coordinator}
    (run : Runs (Step H o) c calls c') (flat : ∀ call ∈ calls, call.Flat) :
    Runs (Meets (Step H o) fun c call => call.Unforeseen H c) c calls c' :=
  (run.meets flat).mono fun step => ⟨step.1.unforeseen, step.2⟩

theorem settled_tasks_stay_compiled :
    ∃ before c t later c', Runs (Meets (Step sampleSha {}) fun c call => call.Unforeseen sampleSha c) {} before c ∧
      t ∈ c.db.tasks ∧ t.state = .done ∧
      Runs (Meets (Step sampleSha {}) fun c call => call.Unforeseen sampleSha c) c later c' ∧
      ∃ t' ∈ c'.db.tasks, t'.uid = t.uid := by
  obtain ⟨⟨before, c⟩, served, holds⟩ := (Option.any_eq_true _ _).mp compiledRequests_served
  simp only [Bool.and_eq_true, List.all_eq_true, List.any_eq_true, decide_eq_true_eq] at holds
  obtain ⟨⟨flat, t, ht, -, done⟩, after⟩ := holds
  obtain ⟨⟨later, c'⟩, served', flat'⟩ := (Option.any_eq_true _ _).mp after
  simp only [List.all_eq_true, decide_eq_true_eq] at flat'
  have run := unforeseen_of_flat (serveAll_runs served) flat
  have rest := unforeseen_of_flat (serveAll_runs served') flat'
  exact ⟨before, c, t, later, c', run, ht, done, rest,
    (settled_tasks_stay run ht (by rw [done]; rfl) rest).1⟩

/-- Submit it behind another task, and compile that. -/
def behindRequests : List Request := compiledRequests ++ [.submitBuild behindSpec 1]

def laterRequests : List Request :=
  [.claimTask "w".toList "gcc".toList 0 0 2, .completeTask (compiledResult 2) 0 20]

theorem behindSpec_served :
    (serveAll sampleSha {} {} behindRequests).any (fun r =>
      r.2.db.tasks.any (fun t => t.uid = 3 && t.state = .cached && t.output = some sampleOutput) &&
      (serveAll sampleSha {} r.2 laterRequests).any fun r' =>
        r'.2.db.tasks.any fun t => t.uid = 3 && t.state = .ready) = true := by
  decide +kernel

/-- The second task is in the cache when it is submitted; when the first one is done it
goes back into the queue. -/
theorem cached_task_requeued :
    ∃ before c t later c' t', Runs (Step sampleSha {}) {} before c ∧ t ∈ c.db.tasks ∧
      t.state = .cached ∧ Runs (Step sampleSha {}) c later c' ∧ t' ∈ c'.db.tasks ∧ t'.uid = t.uid ∧
      t'.state = .ready := by
  obtain ⟨⟨before, c⟩, served, holds⟩ := (Option.any_eq_true _ _).mp behindSpec_served
  rw [Bool.and_eq_true, List.any_eq_true] at holds
  obtain ⟨⟨t, ht, cached⟩, after⟩ := holds
  obtain ⟨⟨later, c'⟩, served', requeued⟩ := (Option.any_eq_true _ _).mp after
  obtain ⟨t', ht', ready⟩ := List.any_eq_true.mp requeued
  simp only [Bool.and_eq_true, decide_eq_true_eq] at cached ready
  exact ⟨before, c, t, later, c', t', serveAll_runs served, ht, cached.1.2, serveAll_runs served', ht',
    ready.1.trans cached.1.1.symm, ready.2⟩

end DistCompile
