import DistCompile.Coordinator

/-!
The coordinator as a function on requests.

`Step` leaves open which of several equally urgent tasks a claim hands out. A
`Request` settles it, so that a list of requests can be served by evaluation
(`serveAll`); what it returns is a run.
-/

namespace DistCompile

open DistCompile.Lib

/-- A call, before its reply. A claim names the task it gets, a completion the
number of statements it may take. -/
inductive Request where
  | putBlob (data expect : Str)
  | submitBuild (spec : BuildSpec) (live : Int)
  | claimTask (worker toolchain : Str) (part now : Int) (uid : Nat)
  | completeTask (r : TaskResult) (now : Int) (fuel : Nat)
  | heartbeat (worker : Str) (now : Int)
  | reap (now : Int)

/-- The call with its reply, and the state after it. -/
def serve (H : Sha256) (o : Options) (c : Coordinator) : Request → Option (Call × Coordinator)
  | .putBlob data expect => match c.blobs.put H data expect with
    | some blobs => some (.putBlob data expect true, { c with blobs })
    | none => some (.putBlob data expect false, c)
  | .submitBuild spec live =>
      some (.submitBuild spec live (submitBuild H o c.blobs.has c.db live spec).2,
        { c with db := (submitBuild H o c.blobs.has c.db live spec).1 })
  | .claimTask worker toolchain part now uid =>
      match (claimCandidates c.db worker toolchain part now).find? fun t => t.uid = uid with
      | some t =>
          if ∀ u ∈ claimCandidates c.db worker toolchain part now, u.priority ≤ t.priority then
            some (if kindName t.kind = none then .claimCrash worker toolchain part now t.uid
                else .claimTask worker toolchain part now (some (assignmentOf (claimedRow o worker now t))),
              { c with db := c.db.apply (.task (claimedRow o worker now t)) })
          else none
      | none => none
  | .completeTask r now fuel =>
      (run H o fuel ⟨c.db, completeTask c.blobs.has c.blobs.sizeOf now r, []⟩).map fun cfg =>
        (.completeTask r now (accepts c.db (completeTask c.blobs.has c.blobs.sizeOf now r)),
          { c with db := cfg.db })
  | .heartbeat worker now => some (.heartbeat worker now, { c with db := heartbeat o c.db worker now })
  | .reap now => some (.reap now, { c with db := reap H o c.db now })

/-- The calls of a list of requests, and the state after them. -/
def serveAll (H : Sha256) (o : Options) : Coordinator → List Request → Option (List Call × Coordinator)
  | c, [] => some ([], c)
  | c, r :: requests => match serve H o c r with
    | none => none
    | some (call, c') => (serveAll H o c' requests).map fun after => (call :: after.1, after.2)

section Serve

variable {H : Sha256} {o : Options}

theorem serve_step {c c' : Coordinator} {r : Request} {call : Call} (served : serve H o c r = some (call, c')) :
    Step H o c call c' := by
  cases r with
  | putBlob data expect =>
    rw [serve] at served
    split at served
    · rename_i stored
      cases served
      exact .putBlob stored
    · rename_i refused
      cases served
      exact .putRefused refused
  | submitBuild spec live =>
    cases served
    exact .submitBuild
  | claimTask worker toolchain part now uid =>
    rw [serve] at served
    split at served
    · rename_i t found
      split_ifs at served with first unnamed
      · cases served
        exact .claimCrash ⟨List.mem_of_find?_eq_some found, first⟩ unnamed
      · cases served
        exact .claimTask ⟨List.mem_of_find?_eq_some found, first⟩ unnamed
    · cases served
  | completeTask r now fuel =>
    obtain ⟨cfg, ran, same⟩ := Option.map_eq_some_iff.mp served
    cases same
    exact .completeTask ran
  | heartbeat worker now =>
    cases served
    exact .heartbeat
  | reap now =>
    cases served
    exact .reap

/-- What was served is a run. -/
theorem serveAll_runs {c c' : Coordinator} {requests : List Request} {calls : List Call}
    (served : serveAll H o c requests = some (calls, c')) : Runs (Step H o) c calls c' := by
  induction requests generalizing c calls with
  | nil =>
    cases served
    exact .nil
  | cons r requests ih =>
    rw [serveAll] at served
    split at served
    · cases served
    · rename_i call middle first
      obtain ⟨after, rest, same⟩ := Option.map_eq_some_iff.mp served
      cases same
      exact (Runs.nil.snoc (serve_step first)).trans (ih rest)

end Serve

end DistCompile
