import DistCompile.EndToEnd
import DistCompile.Serve

/-!
Crashes of the database without synchronous commits (`main` in `src/coordinator.cpp`).

With `synchronous_commit=off` a crash can take back the last commits: the tables and the
serial counters are again what they were at an earlier commit. The blob store, the workers
and the results they still have to deliver are as they were. `World` adds to the coordinator
the earlier commits it can fall back to, and, for the statements only, a log of all calls,
the submission each build of the tables comes from and the task each assignment was handed
out for.

A completion finds its task by `uid`. What is lost with a crash is harmless as long as no
uid that has been handed out goes back to the counter: then it names the same task in every
later state (`Recalls`), and the result of a lost attempt is as good as that of another one.
-/

namespace DistCompile.AsyncCommit

open DistCompile.Lib DistCompile.Graph

/-! ### The protocol with crashes -/

/-- Committed tables, and the submission each build in them comes from, as its place in
the log. -/
structure Committed where
  db : Db := {}
  born : Nat → Option Nat := fun _ => none

/-- A task is a submission and the task's id in its spec. This is the one stored as `uid`. -/
def Committed.taskOf (s : Committed) (uid : Nat) : Option (Nat × Nat) :=
  (s.db.task? uid).bind fun t => (s.born t.buildId).map fun n => (n, t.id)

/-- An assignment as a worker got it, and the task it was made from. -/
structure Handout where
  toolchain : Str
  assignment : Assignment
  task : Option (Nat × Nat)

/-- The database with the commits before the last one, oldest first, the blob store, and
the calls so far, those lost in a crash included. -/
structure World where
  now : Committed := {}
  past : List Committed := []
  blobs : Blobs := []
  log : List Call := []
  handed : List Handout := []

/-- An accepted submit makes a build. -/
def Committed.bear (s : Committed) (n : Nat) : Call → Nat → Option Nat
  | .submitBuild _ _ (.ok (build, _)) => Function.update s.born build (some n)
  | _ => s.born

/-- What a call hands out. -/
def Committed.hand (s : Committed) : Call → List Handout
  | .claimTask _ toolchain _ _ (some a) => [⟨toolchain, a, s.taskOf a.taskUid⟩]
  | _ => []

/-- The world after a call that left the coordinator in state `c`. -/
def World.after (w : World) (call : Call) (c : Coordinator) : World where
  now := ⟨c.db, w.now.bear w.log.length call⟩
  past := w.past ++ [w.now]
  blobs := c.blobs
  log := w.log ++ [call]
  handed := w.handed ++ w.now.hand call

/-- A call, or a crash that leaves the commit number `commit` as the last one. -/
inductive Turn where
  | call (call : Call)
  | crash (commit : Nat)

inductive World.Step (H : Sha256) (o : Options) : World → Turn → World → Prop where
  | call {w : World} {call : Call} {c : Coordinator} :
      DistCompile.Step H o ⟨w.now.db, w.blobs⟩ call c → World.Step H o w (.call call) (w.after call c)
  | crash {w : World} {commit : Nat} {s : Committed} :
      w.past[commit]? = some s →
      World.Step H o w (.crash commit) { w with now := s, past := w.past.take commit }

/-- Results come from assignments, however old, and an ok result is what the tool makes
of the blobs its assignment names. -/
def Turn.Honest (H : Sha256) (tool : Tool) (w : World) : Turn → Prop
  | .call (.completeTask r _ _) => ∃ h ∈ w.handed, h.assignment.taskUid = r.taskUid ∧
      h.assignment.attempt = r.attempt ∧
      (r.ok = true → HonestResult H tool h.toolchain h.assignment r)
  | _ => True

/-- A crash takes no uid back that has been handed out. -/
def Turn.Spares (w : World) : Turn → Prop
  | .crash commit => ∀ s, w.past[commit]? = some s → ∀ h ∈ w.handed, h.assignment.taskUid < s.db.nextUid
  | _ => True

/-! ### Submissions -/

/-- The spec accepted by the call number `n`. -/
def specAt (log : List Call) (n : Nat) : Option BuildSpec :=
  match log[n]? with
  | some (.submitBuild spec _ (.ok _)) => some spec
  | _ => none

theorem specAt_eq_some {log : List Call} {n : Nat} {spec : BuildSpec} :
    specAt log n = some spec ↔ ∃ live reply, log[n]? = some (.submitBuild spec live (.ok reply)) := by
  unfold specAt
  constructor
  · intro found
    split at found
    · rename_i here
      cases found
      exact ⟨_, _, here⟩
    · cases found
  · rintro ⟨live, reply, here⟩
    rw [here]

theorem specAt_append {log : List Call} {n : Nat} {spec : BuildSpec} (call : Call)
    (found : specAt log n = some spec) : specAt (log ++ [call]) n = some spec := by
  obtain ⟨live, reply, here⟩ := specAt_eq_some.mp found
  refine specAt_eq_some.mpr ⟨live, reply, ?_⟩
  rw [List.getElem?_append_left (List.getElem?_eq_some_iff.mp here).1, here]

theorem specAt_cases {log : List Call} {n : Nat} {spec : BuildSpec} {call : Call}
    (found : specAt (log ++ [call]) n = some spec) :
    specAt log n = some spec ∨ (n = log.length ∧ ∃ live reply, call = .submitBuild spec live (.ok reply)) := by
  obtain ⟨live, reply, here⟩ := specAt_eq_some.mp found
  rcases Nat.lt_trichotomy n log.length with old | new | beyond
  · rw [List.getElem?_append_left old] at here
    exact Or.inl (specAt_eq_some.mpr ⟨live, reply, here⟩)
  · subst new
    rw [List.getElem?_concat_length, Option.some.injEq] at here
    exact Or.inr ⟨rfl, live, reply, here⟩
  · rw [List.getElem?_eq_none (by simp only [List.length_append, List.length_singleton]; omega)] at here
    cases here

theorem specAt_new {log : List Call} {spec : BuildSpec} {live : Int} {reply : Nat × Nat} :
    specAt (log ++ [.submitBuild spec live (.ok reply)]) log.length = some spec :=
  specAt_eq_some.mpr ⟨live, reply, List.getElem?_concat_length⟩

theorem specAt_submitted {log : List Call} {n : Nat} {spec : BuildSpec} (found : specAt log n = some spec) :
    spec ∈ submitted log := by
  obtain ⟨live, reply, here⟩ := specAt_eq_some.mp found
  exact List.mem_filterMap.mpr ⟨_, List.mem_of_getElem? here, rfl⟩

/-- The specs of the builds in committed tables. -/
def Committed.env (s : Committed) (log : List Call) (build : Nat) : Option BuildSpec :=
  (s.born build).bind (specAt log)

section Invariant

variable {H : Sha256} {blob : Str → Str} {tool : Tool} {o : Options}

/-! ### Committed tables and their order -/

/-- Committed tables are consistent and tell the truth about the specs they come from. -/
structure Truthful (H : Sha256) (blob : Str → Str) (tool : Tool) (log : List Call) (s : Committed) :
    Prop where
  base : Consistent H s.db
  faithful : Faithful H blob tool (s.env log) s.db
  builds : ∀ b n, s.born b = some n → b < s.db.nextBuild ∧ ∃ spec, specAt log n = some spec

theorem Truthful.env_append {log : List Call} {s : Committed} (truth : Truthful H blob tool log s)
    (call : Call) : s.env (log ++ [call]) = s.env log := by
  funext b
  unfold Committed.env
  cases born : s.born b with
  | none => rfl
  | some n =>
    obtain ⟨-, spec, found⟩ := truth.builds b n born
    rw [Option.bind_some, Option.bind_some, found, specAt_append call found]

theorem Truthful.append {log : List Call} {s : Committed} (truth : Truthful H blob tool log s)
    (call : Call) : Truthful H blob tool (log ++ [call]) s where
  base := truth.base
  faithful := by
    rw [truth.env_append call]
    exact truth.faithful
  builds b n born := by
    obtain ⟨bound, spec, found⟩ := truth.builds b n born
    exact ⟨bound, spec, specAt_append call found⟩

/-- `t` was committed after `s`: the rows of `s` are still there, and the others have uids
that the counter had not reached. -/
structure Older (s t : Committed) : Prop where
  uids : s.db.nextUid ≤ t.db.nextUid
  keeps : ∀ v ∈ s.db.tasks, ∃ u ∈ t.db.tasks, u.uid = v.uid ∧ u.slot = v.slot
  rows : ∀ u ∈ t.db.tasks, u.uid < s.db.nextUid → ∃ v ∈ s.db.tasks, v.uid = u.uid ∧ v.slot = u.slot
  born : ∀ b n, s.born b = some n → t.born b = some n

theorem Older.trans {s t u : Committed} (first : Older s t) (second : Older t u) : Older s u where
  uids := first.uids.trans second.uids
  keeps v hv := by
    obtain ⟨w, hw, uid, slot⟩ := first.keeps v hv
    obtain ⟨x, hx, uid', slot'⟩ := second.keeps w hw
    exact ⟨x, hx, uid'.trans uid, slot'.trans slot⟩
  rows x hx old := by
    obtain ⟨w, hw, uid', slot'⟩ := second.rows x hx (lt_of_lt_of_le old first.uids)
    obtain ⟨v, hv, uid, slot⟩ := first.rows w hw (uid' ▸ old)
    exact ⟨v, hv, uid.trans uid', slot.trans slot'⟩
  born b n found := second.born b n (first.born b n found)

theorem taskOf_eq_some {s : Committed} (keyed : s.db.Keyed) {uid n id : Nat} :
    s.taskOf uid = some (n, id) ↔
      ∃ t ∈ s.db.tasks, t.uid = uid ∧ s.born t.buildId = some n ∧ t.id = id := by
  simp only [Committed.taskOf, Option.bind_eq_some_iff, Option.map_eq_some_iff, Prod.mk.injEq,
    Db.task?_eq_some keyed]
  constructor
  · rintro ⟨t, ⟨ht, same⟩, m, born, rfl, rfl⟩
    exact ⟨t, ht, same, born, rfl⟩
  · rintro ⟨t, ht, same, born, rfl⟩
    exact ⟨t, ⟨ht, same⟩, n, born, rfl, rfl⟩

/-- A uid names the same task later on. -/
theorem Older.taskOf {s t : Committed} (older : Older s t) (keyed : s.db.Keyed) (keyed' : t.db.Keyed)
    {uid : Nat} {task : Nat × Nat} (found : s.taskOf uid = some task) : t.taskOf uid = some task := by
  obtain ⟨v, hv, same, born, id⟩ := (taskOf_eq_some keyed).mp found
  obtain ⟨u, hu, uids, slot⟩ := older.keeps v hv
  refine (taskOf_eq_some keyed').mpr ⟨u, hu, uids.trans same, ?_, ?_⟩
  · rw [show u.buildId = v.buildId from congrArg Prod.fst slot]
    exact older.born _ _ born
  · exact (congrArg Prod.snd slot).trans id

/-- And it did so before, if the counter had passed it. -/
theorem Older.taskOf_before {log : List Call} {s t : Committed} (older : Older s t)
    (truth : Truthful H blob tool log s) (keyed' : t.db.Keyed) {uid : Nat} {task : Nat × Nat}
    (old : uid < s.db.nextUid) (found : t.taskOf uid = some task) : s.taskOf uid = some task := by
  obtain ⟨u, hu, rfl, born, id⟩ := (taskOf_eq_some keyed').mp found
  obtain ⟨v, hv, same, slot⟩ := older.rows u hu old
  obtain ⟨spec, -, env, -⟩ := truth.faithful.placed v hv
  obtain ⟨n, here, -⟩ := Option.bind_eq_some_iff.mp env
  have later := older.born _ _ here
  rw [show v.buildId = u.buildId from congrArg Prod.fst slot, born, Option.some.injEq] at later
  refine (taskOf_eq_some truth.base.keyed).mpr ⟨v, hv, same, later ▸ here, ?_⟩
  exact (congrArg Prod.snd slot).trans id

/-! ### Worlds -/

/-- The handout asked for the reference value of its task, and its uid still names that task. -/
def Recalls (H : Sha256) (blob : Str → Str) (tool : Tool) (log : List Call) (s : Committed)
    (h : Handout) : Prop :=
  ∃ n id spec, h.task = some (n, id) ∧ s.taskOf h.assignment.taskUid = some (n, id) ∧
    specAt log n = some spec ∧ ∀ blobs, blobs.map H.hex = h.assignment.inputs →
      tool h.toolchain h.assignment.kind h.assignment.args (h.assignment.inputNames.zip blobs) =
        reference blob tool spec id

/-- What is kept while crashes spare the uids handed out. -/
structure Sound (H : Sha256) (blob : Str → Str) (tool : Tool) (w : World) : Prop where
  states : ∀ s ∈ w.past ++ [w.now], Truthful H blob tool w.log s
  order : (w.past ++ [w.now]).Pairwise Older
  accepted : ∀ n spec, specAt w.log n = some spec →
    badCompileTask spec = none ∧ ∃ order, topoOrder spec.graph = .ok order
  handed : ∀ h ∈ w.handed, Recalls H blob tool w.log w.now h

variable {w : World} {call : Call} {c : Coordinator}

theorem Sound.now (sound : Sound H blob tool w) : Truthful H blob tool w.log w.now :=
  sound.states w.now (by simp)

/-- The specs of the log are lawful, by whichever number they are looked up. -/
theorem lawful_of_log {log : List Call} {env : Nat → Option BuildSpec}
    (accepted : ∀ n spec, specAt log n = some spec →
      badCompileTask spec = none ∧ ∃ order, topoOrder spec.graph = .ok order)
    (shaped : ∀ spec ∈ submitted log, spec.Shaped H) (agree : KeysAgree blob tool (submitted log))
    (known : ∀ b spec, env b = some spec → ∃ n, specAt log n = some spec) :
    Lawful H blob tool env where
  shaped b spec found := by
    obtain ⟨n, here⟩ := known b spec found
    exact shaped spec (specAt_submitted here)
  accepted b spec found := by
    obtain ⟨n, here⟩ := known b spec found
    exact (accepted n spec here).2
  inputs b spec found ts member compile := by
    obtain ⟨n, here⟩ := known b spec found
    exact (compileTask_valid (accepted n spec here).1 member compile).2
  agree b b' spec spec' found found' := by
    obtain ⟨n, here⟩ := known b spec found
    obtain ⟨n', here'⟩ := known b' spec' found'
    exact agree spec (specAt_submitted here) spec' (specAt_submitted here')

theorem env_known {log : List Call} {s : Committed} :
    ∀ b spec, s.env log b = some spec → ∃ n, specAt log n = some spec := by
  intro b spec found
  obtain ⟨n, -, here⟩ := Option.bind_eq_some_iff.mp found
  exact ⟨n, here⟩

/-- The specs of an accepted submit have passed the checks. -/
theorem accepted_append (accepted : ∀ n spec, specAt w.log n = some spec →
      badCompileTask spec = none ∧ ∃ order, topoOrder spec.graph = .ok order)
    (step : DistCompile.Step H o ⟨w.now.db, w.blobs⟩ call c) :
    ∀ n spec, specAt (w.log ++ [call]) n = some spec →
      badCompileTask spec = none ∧ ∃ order, topoOrder spec.graph = .ok order := by
  intro n spec found
  rcases specAt_cases found with old | ⟨-, live, reply, rfl⟩
  · exact accepted n spec old
  · generalize answer : (Except.ok reply : Except Status (Nat × Nat)) = a at step
    cases step with
    | submitBuild =>
      rcases ran : submitBuild H o w.blobs.has w.now.db live spec with ⟨db', e | pair⟩
      · rw [ran] at answer
        cases answer
      · obtain ⟨good, -, order, -, -, -, topo, -⟩ := submitBuild_ok ran
        exact ⟨good, order, topo⟩

theorem bear_other {s : Committed} {n : Nat}
    (other : ∀ spec live b k, call ≠ .submitBuild spec live (.ok (b, k))) : s.bear n call = s.born := by
  unfold Committed.bear
  split
  · exact absurd rfl (other _ _ _ _)
  · rfl

/-- An honest ok result is the reference output of the task its uid names now. -/
theorem Sound.honest (sound : Sound H blob tool w) {r : TaskResult} {now : Int} {accepted : Bool}
    (honest : (Turn.call (.completeTask r now accepted)).Honest H tool w) (more : Call) :
    r.ok = true → ∀ t ∈ w.now.db.tasks, t.uid = r.taskUid →
      ∀ spec, w.now.env (w.log ++ [more]) t.buildId = some spec → r.output = refDigest H blob tool spec t.id := by
  intro ok t ht uid spec hb
  obtain ⟨h, member, sameUid, -, result⟩ := honest
  obtain ⟨-, -, blobs, inputs, output⟩ := result ok
  obtain ⟨n, id, spec', -, named, found, value⟩ := sound.handed h member
  obtain ⟨u, hu, here, born, rfl⟩ := (taskOf_eq_some sound.now.base.keyed).mp named
  obtain rfl := sound.now.base.keyed.uid_inj hu ht (here.trans (sameUid.trans uid.symm))
  have known : w.now.env (w.log ++ [more]) u.buildId = some spec' := by
    rw [Committed.env, born, Option.bind_some, specAt_append more found]
  rw [hb, Option.some.injEq] at known
  rw [output, value blobs inputs, known]
  rfl

/-- A call that makes no build. -/
theorem Sound.commit_other (free : H.CollisionFree) (sound : Sound H blob tool w)
    (step : DistCompile.Step H o ⟨w.now.db, w.blobs⟩ call c) (honest : (Turn.call call).Honest H tool w)
    (lawful : Lawful H blob tool (w.now.env (w.log ++ [call])))
    (other : ∀ spec live b n, call ≠ .submitBuild spec live (.ok (b, n))) :
    Truthful H blob tool (w.log ++ [call]) (w.after call c).now ∧ Older w.now (w.after call c).now := by
  have truth := sound.now.append call
  have same : (w.after call c).now = ⟨c.db, w.now.born⟩ := by rw [World.after, bear_other other]
  obtain ⟨base, faithful, fixed, builds, uids⟩ := truth.faithful.step free lawful truth.base step other (by
    rintro r now accepted rfl s stack
    exact completeTask_sound (sound.honest honest _) stack)
  rw [same]
  refine ⟨⟨base, faithful, fun b n born => ?_⟩, ⟨uids, fun v hv => ?_, fun u hu _ => ?_, fun _ _ born => born⟩⟩
  · obtain ⟨bound, spec, found⟩ := truth.builds b n born
    exact ⟨lt_of_lt_of_le bound builds, spec, found⟩
  · obtain ⟨u, hu, columns⟩ := Db.mem_of_fixed fixed hv
    exact ⟨u, hu, uid_of_fixed columns, slot_of_fixed columns⟩
  · obtain ⟨v, hv, columns⟩ := Db.mem_of_fixed fixed.symm hu
    exact ⟨v, hv, uid_of_fixed columns, slot_of_fixed columns⟩

/-- An accepted submit. -/
theorem Sound.commit_submit (free : H.CollisionFree) (sound : Sound H blob tool w) {spec : BuildSpec}
    {live : Int} {build cached : Nat} {db' : Db} (flat : spec.Flat)
    (ran : submitBuild H o w.blobs.has w.now.db live spec = (db', .ok (build, cached)))
    (lawful : Lawful H blob tool
      (((w.after (.submitBuild spec live (.ok (build, cached))) ⟨db', w.blobs⟩).now).env
        (w.log ++ [.submitBuild spec live (.ok (build, cached))]))) :
    Truthful H blob tool (w.log ++ [.submitBuild spec live (.ok (build, cached))])
        (w.after (.submitBuild spec live (.ok (build, cached))) ⟨db', w.blobs⟩).now ∧
      Older w.now (w.after (.submitBuild spec live (.ok (build, cached))) ⟨db', w.blobs⟩).now := by
  have truth := sound.now.append (.submitBuild spec live (.ok (build, cached)))
  obtain rfl : build = w.now.db.nextBuild := (submitBuild_ok ran).2.1
  have born : ∀ b n, w.now.born b = some n →
      Function.update w.now.born w.now.db.nextBuild (some w.log.length) b = some n := by
    intro b n found
    have bound := (truth.builds b n found).1
    rw [Function.update_of_ne (by omega), found]
  have specs : ∀ b s, w.now.env (w.log ++ [.submitBuild spec live (.ok (w.now.db.nextBuild, cached))]) b = some s →
      (w.after (.submitBuild spec live (.ok (w.now.db.nextBuild, cached))) ⟨db', w.blobs⟩).now.env
        (w.log ++ [.submitBuild spec live (.ok (w.now.db.nextBuild, cached))]) b = some s := by
    intro b s found
    obtain ⟨n, here, known⟩ := Option.bind_eq_some_iff.mp found
    exact Option.bind_eq_some_iff.mpr ⟨n, born b n here, known⟩
  have here : (w.after (.submitBuild spec live (.ok (w.now.db.nextBuild, cached))) ⟨db', w.blobs⟩).now.env
      (w.log ++ [.submitBuild spec live (.ok (w.now.db.nextBuild, cached))]) w.now.db.nextBuild = some spec :=
    Option.bind_eq_some_iff.mpr ⟨w.log.length, Function.update_self .., specAt_new⟩
  obtain ⟨base, faithful, serials, rows, new, fixed⟩ :=
    truth.faithful.submit (c := ⟨w.now.db, w.blobs⟩) free lawful truth.base flat specs here ran
  have nextBuild : db'.nextBuild = w.now.db.nextBuild + 1 := congrArg Prod.fst serials
  have nextUid : db'.nextUid = w.now.db.nextUid + spec.tasks.length := congrArg Prod.snd serials
  refine ⟨⟨base, faithful, fun b n found => ?_⟩, ⟨?_, fun v hv => ?_, fun u hu old => ?_, born⟩⟩
  · change Function.update w.now.born w.now.db.nextBuild (some w.log.length) b = some n at found
    change b < db'.nextBuild ∧ _
    by_cases fresh : b = w.now.db.nextBuild
    · subst fresh
      rw [Function.update_self, Option.some.injEq] at found
      exact ⟨by omega, spec, found ▸ specAt_new⟩
    · rw [Function.update_of_ne fresh] at found
      obtain ⟨bound, known⟩ := truth.builds b n found
      exact ⟨by omega, known⟩
  · change w.now.db.nextUid ≤ db'.nextUid
    omega
  · have columns : v.fixed ∈ db'.tasks.map TaskRow.fixed := by
      rw [fixed]
      exact List.mem_map_of_mem (List.mem_append_left _ hv)
    obtain ⟨u, hu, same⟩ := List.mem_map.mp columns
    exact ⟨u, hu, uid_of_fixed same, slot_of_fixed same⟩
  · have columns : u.fixed ∈ (w.now.db.tasks ++ rows).map TaskRow.fixed := by
      rw [← fixed]
      exact List.mem_map_of_mem hu
    obtain ⟨v, hv, same⟩ := List.mem_map.mp columns
    rcases List.mem_append.mp hv with before | added
    · exact ⟨v, before, uid_of_fixed same, slot_of_fixed same⟩
    · have later := (new v added).2
      rw [uid_of_fixed same] at later
      exact absurd old (not_lt.mpr later)

theorem Sound.commit (free : H.CollisionFree) (sound : Sound H blob tool w)
    (step : DistCompile.Step H o ⟨w.now.db, w.blobs⟩ call c) (honest : (Turn.call call).Honest H tool w)
    (shaped : ∀ spec ∈ submitted (w.log ++ [call]), spec.Shaped H)
    (agree : KeysAgree blob tool (submitted (w.log ++ [call]))) :
    Truthful H blob tool (w.log ++ [call]) (w.after call c).now ∧ Older w.now (w.after call c).now := by
  have accepted := accepted_append sound.accepted step
  by_cases submits : ∃ spec live b n, call = .submitBuild spec live (.ok (b, n))
  · obtain ⟨spec, live, build, cached, rfl⟩ := submits
    have flat := (shaped spec (specAt_submitted specAt_new)).flat
    generalize reply : (Except.ok (build, cached) : Except Status (Nat × Nat)) = answer at step
    cases step with
    | submitBuild =>
      rcases ran : submitBuild H o w.blobs.has w.now.db live spec with ⟨db', e | pair⟩
      · rw [ran] at reply
        cases reply
      · rw [ran] at reply
        cases reply
        exact sound.commit_submit free flat ran (lawful_of_log accepted shaped agree env_known)
  · exact sound.commit_other free step honest (lawful_of_log accepted shaped agree env_known)
      fun spec live b n same => submits ⟨spec, live, b, n, same⟩

/-- A handout stands for its task as long as its uid does. -/
theorem Recalls.later {log : List Call} {s t : Committed} {h : Handout}
    (recalls : Recalls H blob tool log s h) (older : Older s t) (keyed : s.db.Keyed)
    (keyed' : t.db.Keyed) (call : Call) : Recalls H blob tool (log ++ [call]) t h := by
  obtain ⟨n, id, spec, task, named, found, value⟩ := recalls
  exact ⟨n, id, spec, task, older.taskOf keyed keyed' named, specAt_append call found, value⟩

/-- A claim hands out what the row of its task asks for. -/
theorem Sound.claims (inverse : Function.LeftInverse blob H.hex) (sound : Sound H blob tool w)
    (lawful : Lawful H blob tool (w.now.env w.log))
    (step : DistCompile.Step H o ⟨w.now.db, w.blobs⟩ call c) {h : Handout} (handed : h ∈ w.now.hand call) :
    Recalls H blob tool w.log w.now h := by
  unfold Committed.hand at handed
  split at handed
  · obtain rfl := List.mem_singleton.mp handed
    cases step with
    | claimTask picked =>
      obtain ⟨ht, ready, sameToolchain⟩ := mem_of_picked picked
      obtain ⟨u, hu, uid, spec, hb, value⟩ :=
        sound.now.faithful.asks inverse lawful sound.now.base ht ready
      obtain ⟨n, born, found⟩ := Option.bind_eq_some_iff.mp hb
      have named := (taskOf_eq_some sound.now.base.keyed).mpr ⟨u, hu, uid, born, rfl⟩
      rw [sameToolchain] at value
      exact ⟨n, u.id, spec, named, named, found, value⟩
  · cases handed

theorem Sound.after (inverse : Function.LeftInverse blob H.hex) (sound : Sound H blob tool w)
    (step : DistCompile.Step H o ⟨w.now.db, w.blobs⟩ call c) (honest : (Turn.call call).Honest H tool w)
    (shaped : ∀ spec ∈ submitted (w.log ++ [call]), spec.Shaped H)
    (agree : KeysAgree blob tool (submitted (w.log ++ [call]))) : Sound H blob tool (w.after call c) := by
  obtain ⟨truth, older⟩ := sound.commit inverse.injective step honest shaped agree
  have accepted := accepted_append sound.accepted step
  have lawful : Lawful H blob tool (w.now.env w.log) := by
    rw [← sound.now.env_append call]
    exact lawful_of_log accepted shaped agree env_known
  have keyed := sound.now.base.keyed
  refine ⟨fun s hs => ?_, ?_, accepted, fun h hh => ?_⟩
  · rcases List.mem_append.mp hs with before | here
    · exact (sound.states s before).append call
    · obtain rfl := List.mem_singleton.mp here
      exact truth
  · refine List.pairwise_append.mpr ⟨sound.order, List.pairwise_singleton _ _, fun s hs t ht => ?_⟩
    obtain rfl := List.mem_singleton.mp ht
    rcases List.mem_append.mp hs with before | here
    · exact ((List.pairwise_append.mp sound.order).2.2 s before w.now (by simp)).trans older
    · obtain rfl := List.mem_singleton.mp here
      exact older
  · rcases List.mem_append.mp hh with before | new
    · exact (sound.handed h before).later older keyed truth.base.keyed call
    · exact (sound.claims inverse lawful step new).later older keyed truth.base.keyed call

/-- A crash that takes no handed-out uid back. -/
theorem Sound.crash (sound : Sound H blob tool w) {commit : Nat} {s : Committed}
    (found : w.past[commit]? = some s) (spared : ∀ h ∈ w.handed, h.assignment.taskUid < s.db.nextUid) :
    Sound H blob tool { w with now := s, past := w.past.take commit } := by
  have member : s ∈ w.past := List.mem_of_getElem? found
  have truth := sound.states s (List.mem_append_left _ member)
  have older : Older s w.now := (List.pairwise_append.mp sound.order).2.2 s member w.now (by simp)
  -- what is left is the beginning of what there was
  have left : w.past.take commit ++ [s] = (w.past ++ [w.now]).take (commit + 1) := by
    have bound := (List.getElem?_eq_some_iff.mp found).1
    rw [List.take_append_of_le_length (by omega), List.take_add_one, found]
    rfl
  refine ⟨fun t ht => ?_, ?_, sound.accepted, fun h hh => ?_⟩
  · rw [left] at ht
    exact sound.states t (List.mem_of_mem_take ht)
  · rw [left]
    exact sound.order.sublist (List.take_sublist _ _)
  · obtain ⟨n, id, spec, task, named, known, value⟩ := sound.handed h hh
    exact ⟨n, id, spec, task, older.taskOf_before truth sound.now.base.keyed (spared h hh) named, known,
      value⟩

theorem Runs.sound (inverse : Function.LeftInverse blob H.hex) {turns : List Turn}
    (run : Runs (Meets (World.Step H o) fun w turn => turn.Honest H tool w ∧ turn.Spares w) {} turns w)
    (shaped : ∀ spec ∈ submitted w.log, spec.Shaped H) (agree : KeysAgree blob tool (submitted w.log)) :
    Sound H blob tool w := by
  induction run with
  | nil =>
    refine ⟨fun s hs => ?_, List.pairwise_singleton _ _, by simp [specAt], by simp⟩
    obtain rfl : s = {} := by simpa using hs
    exact ⟨Consistent.empty H, ⟨by simp, by simp, by simp⟩, by simp⟩
  | snoc _ last ih =>
    obtain ⟨⟨honest, spares⟩, step⟩ := last
    cases step with
    | @call call c step =>
      refine (ih (fun spec hs => shaped spec (submitted_append call hs)) ?_).after inverse step honest
        shaped agree
      exact fun spec hs spec' hs' => agree spec (submitted_append call hs) spec' (submitted_append call hs')
    | crash found => exact (ih shaped agree).crash found (spares _ found)

/-! ### The result -/

/-- A cache row holds the output of the action its key names, whichever accepted spec
the action is read from. -/
structure CacheSound (H : Sha256) (blob : Str → Str) (tool : Tool) (log : List Call) (row : CacheRow) :
    Prop where
  named : ∃ n spec, ∃ (id : Nat) (ts : TaskSpec), specAt log n = some spec ∧ spec.tasks[id]? = some ts ∧
    InputsValid H blob tool spec ts ∧ row.key = taskKey H blob tool spec ts
  output : ∀ n spec (id : Nat) (ts : TaskSpec), specAt log n = some spec → spec.tasks[id]? = some ts →
    InputsValid H blob tool spec ts → row.key = taskKey H blob tool spec ts →
      row.output = refDigest H blob tool spec id

/-- Whatever crashes lose, as long as they take no handed-out uid back: the cache tells the
truth, and a result is accepted only for the task its assignment was made from. -/
theorem lost_commits_harmless (inverse : Function.LeftInverse blob H.hex) {turns : List Turn}
    (run : Runs (Meets (World.Step H o) fun w turn => turn.Honest H tool w ∧ turn.Spares w) {} turns w)
    (shaped : ∀ spec ∈ submitted w.log, spec.Shaped H) (agree : KeysAgree blob tool (submitted w.log)) :
    (∀ row ∈ w.now.db.cache, CacheSound H blob tool w.log row) ∧
      ∀ h ∈ w.handed, ∀ r now w', World.Step H o w (.call (.completeTask r now true)) w' →
        h.assignment.taskUid = r.taskUid →
          ∃ task, h.task = some task ∧ w.now.taskOf r.taskUid = some task := by
  have sound := Runs.sound inverse run shaped agree
  have lawful : Lawful H blob tool (specAt w.log) :=
    lawful_of_log sound.accepted shaped agree fun n spec found => ⟨n, found⟩
  constructor
  · intro row member
    obtain ⟨b, spec, id, ts, hb, found, valid, key, output⟩ := sound.now.faithful.cache row member
    obtain ⟨n, here⟩ := env_known b spec hb
    refine ⟨⟨n, spec, id, ts, here, found, valid, key⟩, fun n' spec' id' ts' here' found' valid' key' => ?_⟩
    have pair : SoundPair H blob tool (specAt w.log) row.key row.output :=
      ⟨n, spec, id, ts, here, found, valid, key, output⟩
    exact pair.output_eq inverse.injective lawful here' found' valid' key'
  · intro h member r now w' _ uid
    obtain ⟨n, id, -, task, named, -⟩ := sound.handed h member
    exact ⟨(n, id), task, uid ▸ named⟩

end Invariant

/-! ### A uid handed out twice -/

section Samples

variable (H : Sha256) (o : Options) (tool : Tool)

/-- Whether a result is what the tool makes of `blobs`, for an assignment handed out. -/
def Turn.honestOn (blobs : List Str) (w : World) : Turn → Bool
  | .call (.completeTask r _ _) => w.handed.any fun h => h.assignment.taskUid = r.taskUid &&
      h.assignment.attempt = r.attempt && blobs.map H.hex = h.assignment.inputs &&
      r.output = H.hex (tool h.toolchain h.assignment.kind h.assignment.args
        (h.assignment.inputNames.zip blobs))
  | _ => true

/-- The same as `Spares`, to be evaluated. -/
def Turn.sparing (w : World) : Turn → Bool
  | .crash commit => w.past[commit]?.all fun s => w.handed.all fun h => h.assignment.taskUid < s.db.nextUid
  | _ => true

/-- A request, or a crash, while `good` holds. -/
def World.play (good : World → Turn → Bool) : World → List (Request ⊕ Nat) → Option (List Turn × World)
  | w, [] => some ([], w)
  | w, .inl r :: rest => match serve H o ⟨w.now.db, w.blobs⟩ r with
    | some (call, c) => if good w (.call call) then
        (World.play good (w.after call c) rest).map fun p => (.call call :: p.1, p.2)
      else none
    | none => none
  | w, .inr commit :: rest => match w.past[commit]? with
    | some s => if good w (.crash commit) then
        (World.play good { w with now := s, past := w.past.take commit } rest).map fun p =>
          (.crash commit :: p.1, p.2)
      else none
    | none => none

variable {H o tool}

theorem Turn.honest_of_on {blobs : List Str} {w : World} {turn : Turn}
    (honest : turn.honestOn H tool blobs w = true) : turn.Honest H tool w := by
  unfold Turn.honestOn at honest
  split at honest
  · obtain ⟨h, member, holds⟩ := List.any_eq_true.mp honest
    simp only [Bool.and_eq_true, decide_eq_true_eq] at holds
    obtain ⟨⟨⟨uid, attempt⟩, inputs⟩, output⟩ := holds
    exact ⟨h, member, uid, attempt, fun _ => ⟨uid, attempt, blobs, inputs, output⟩⟩
  · rename_i other
    unfold Turn.Honest
    split
    · exact absurd rfl (other _ _ _)
    · trivial

theorem Turn.spares_of_sparing {w : World} {turn : Turn} (sparing : turn.sparing w = true) :
    turn.Spares w := by
  cases turn with
  | call call => trivial
  | crash commit =>
    intro s found h member
    rw [Turn.sparing, found, Option.all_some, List.all_eq_true] at sparing
    exact of_decide_eq_true (sparing h member)

theorem World.play_runs {good : World → Turn → Bool} {w w' : World} {requests : List (Request ⊕ Nat)}
    {turns : List Turn} (played : World.play H o good w requests = some (turns, w')) :
    Runs (Meets (World.Step H o) fun w turn => good w turn = true) w turns w' := by
  induction requests generalizing w turns with
  | nil =>
    cases played
    exact .nil
  | cons request rest ih =>
    cases request with
    | inl r =>
      rw [World.play] at played
      split at played
      · rename_i call c served
        split_ifs at played with holds
        obtain ⟨p, after, same⟩ := Option.map_eq_some_iff.mp played
        cases same
        exact (Runs.nil.snoc ⟨holds, .call (serve_step served)⟩).trans (ih after)
      · cases played
    | inr commit =>
      rw [World.play] at played
      split at played
      · rename_i s found
        split_ifs at played with holds
        obtain ⟨p, after, same⟩ := Option.map_eq_some_iff.mp played
        cases same
        exact (Runs.nil.snoc ⟨holds, .crash found⟩).trans (ih after)
      · cases played

end Samples

/-- A second source, its compile key and its object. -/
def otherKey : Str := "d00551d010ee6b18164e2749d40e020bf8184b5151bf205c0eeb4f1d1a6a4ad8".toList
def otherInput : Str := "8f2cceaf7815a9cca984e48b0d292f23ed2b7aa68e12fe708e9529f198119208".toList
def otherOutput : Str := "013d3771c88a03ffba65453fdc94ade45a8e4ad9e4cd066386a45c0614fd3f57".toList

def crashTable : List (Str × Str) := sampleTable ++ [
  (frameParts ["dc-compile-v1".toList, "gcc".toList, "c".toList, [], "int g;".toList], otherKey),
  ("int g;".toList, otherInput),
  ("o:int g;".toList, otherOutput)]

def crashSha : Sha256 := Sha256.ofTable crashTable (by decide +kernel)

/-- A build of one object. -/
def objectSpec (name key input : Str) : BuildSpec where
  toolchain := "gcc".toList
  tasks := [⟨0, COMPILE, name, [], key, input, ["cc".toList], 10⟩]

def firstSpec : BuildSpec := objectSpec "obj/f.c.o".toList sampleKey sampleInput
def secondSpec : BuildSpec := objectSpec "obj/g.c.o".toList otherKey otherInput

theorem objectSpec_shaped {name source key input : Str} (filled : name ≠ [] ∧ '\n' ∉ name ∧ Fits name)
    (fits : Fits source)
    (hash : key = sha256HexParts crashSha ["dc-compile-v1".toList, "gcc".toList, "c".toList, [], source]) :
    (objectSpec name key input).Shaped crashSha where
  toolchain := (by decide : Fits "gcc".toList)
  tasks ts member := by
    obtain rfl := List.mem_singleton.mp member
    refine ⟨fun _ => ⟨rfl, ["gcc".toList, "c".toList, [], source], hash, fun p hp => ?_⟩,
      fun action => absurd rfl action, filled, (by decide : ∀ a ∈ ["cc".toList], a ≠ [] ∧ '\n' ∉ a),
      (by decide : Fits (joinLines ["cc".toList]))⟩
    simp only [List.mem_cons, List.not_mem_nil, or_false] at hp
    rcases hp with rfl | rfl | rfl | rfl
    · decide
    · decide
    · decide
    · exact fits

theorem crashSpecs_shaped : ∀ spec ∈ [firstSpec, secondSpec], spec.Shaped crashSha := by
  intro spec member
  simp only [List.mem_cons, List.not_mem_nil, or_false] at member
  rcases member with rfl | rfl
  · exact objectSpec_shaped (by decide) (by decide : Fits "int f;".toList) (by decide +kernel)
  · exact objectSpec_shaped (by decide) (by decide : Fits "int g;".toList) (by decide +kernel)

theorem crashSpecs_agree (blob : Str → Str) (tool : Tool) : KeysAgree blob tool [firstSpec, secondSpec] := by
  intro spec member spec' member' ts hts ts' hts' _ _ key
  simp only [List.mem_cons, List.not_mem_nil, or_false] at member member'
  rcases member with rfl | rfl <;> rcases member' with rfl | rfl <;>
    obtain rfl := List.mem_singleton.mp hts <;> obtain rfl := List.mem_singleton.mp hts'
  · rfl
  · exact absurd key (by decide +kernel)
  · exact absurd key (by decide +kernel)
  · rfl

theorem crashSha_inverse : Function.LeftInverse (Sha256.tableBlob crashTable) crashSha.hex :=
  Sha256.ofTable_inverse _ (by decide +kernel) (by decide +kernel)

/-- Up to the claim of the first object. -/
def claimRequests : List (Request ⊕ Nat) := [
  .inl (.putBlob "int f;".toList []), .inl (.putBlob "int g;".toList []),
  .inl (.putBlob "o:int f;".toList []), .inl (.submitBuild firstSpec 1),
  .inl (.claimTask "w".toList "gcc".toList 0 0 1)]

/-- The result of the first object. -/
def firstResult : TaskResult := ⟨1, 1, "w".toList, true, false, sampleOutput, [], 5⟩

/-- The claim is lost, the submit is not; then the result comes in. -/
def sparedRequests : List (Request ⊕ Nat) :=
  claimRequests ++ [.inr 4, .inl (.completeTask firstResult 0 10)]

theorem spared_played :
    (World.play crashSha {} (fun w turn => turn.honestOn crashSha sampleTool ["int f;".toList] w && turn.sparing w)
      {} sparedRequests).any (fun r => submitted r.2.log = [firstSpec] && r.2.now.db.cache.length = 1 &&
        r.2.handed.length = 1) = true := by
  decide +kernel

theorem lost_commits_harmless_spared :
    ∃ turns w, Runs (Meets (World.Step crashSha {}) fun w turn =>
        turn.Honest crashSha sampleTool w ∧ turn.Spares w) {} turns w ∧ w.now.db.cache ≠ [] ∧
      w.handed ≠ [] ∧
      ∀ row ∈ w.now.db.cache, CacheSound crashSha (Sha256.tableBlob crashTable) sampleTool w.log row := by
  obtain ⟨⟨turns, w⟩, played, holds⟩ := (Option.any_eq_true _ _).mp spared_played
  simp only [Bool.and_eq_true, decide_eq_true_eq] at holds
  obtain ⟨⟨log, cached⟩, handed⟩ := holds
  have run : Runs (Meets (World.Step crashSha {}) fun w turn =>
      turn.Honest crashSha sampleTool w ∧ turn.Spares w) {} turns w :=
    (World.play_runs played).mono fun step =>
      ⟨⟨Turn.honest_of_on (Bool.and_eq_true_iff.mp step.1).1,
        Turn.spares_of_sparing (Bool.and_eq_true_iff.mp step.1).2⟩, step.2⟩
  have first : ∀ spec ∈ [firstSpec], spec ∈ [firstSpec, secondSpec] := by simp
  refine ⟨turns, w, run, List.ne_nil_of_length_pos (by omega), List.ne_nil_of_length_pos (by omega),
    (lost_commits_harmless crashSha_inverse run ?_ ?_).1⟩
  · rw [log]
    exact fun spec hs => crashSpecs_shaped spec (first spec hs)
  · rw [log]
    exact fun spec hs spec' hs' =>
      crashSpecs_agree _ _ spec (first spec hs) spec' (first spec' hs')

/-- The submit is lost too, and the next one gets its uid. -/
def reusedRequests : List (Request ⊕ Nat) := claimRequests ++ [.inr 3, .inl (.submitBuild secondSpec 1)]

theorem reused_played :
    (World.play crashSha {} (fun w turn => turn.honestOn crashSha sampleTool ["int f;".toList] w)
      {} reusedRequests).any (fun r => submitted r.2.log = [firstSpec, secondSpec] &&
        specAt r.2.log 5 = some secondSpec &&
        (Turn.call (.completeTask firstResult 0 true)).honestOn crashSha sampleTool ["int f;".toList] r.2 &&
        r.2.handed.any (fun h => h.assignment.taskUid = 1 && h.task = some (3, 0)) &&
        r.2.now.taskOf 1 = some (5, 0) &&
        accepts r.2.now.db (completeTask r.2.blobs.has r.2.blobs.sizeOf 0 firstResult) &&
        (run crashSha {} 10 ⟨r.2.now.db, completeTask r.2.blobs.has r.2.blobs.sizeOf 0 firstResult, []⟩).any
          fun cfg => cfg.db.cache.any fun row => row.key = otherKey && row.output = sampleOutput) = true := by
  decide +kernel

/-- The late result of the first object is accepted for the second, and the cache then has
the first object under the key of the second. -/
theorem handed_uid_reused :
    ∃ turns w w' h, Runs (Meets (World.Step crashSha {}) fun w turn => turn.Honest crashSha sampleTool w) {} turns w ∧
      (∀ spec ∈ submitted w.log, spec.Shaped crashSha) ∧
      KeysAgree (Sha256.tableBlob crashTable) sampleTool (submitted w.log) ∧ h ∈ w.handed ∧
      h.assignment.taskUid = firstResult.taskUid ∧
      (Turn.call (.completeTask firstResult 0 true)).Honest crashSha sampleTool w ∧
      World.Step crashSha {} w (.call (.completeTask firstResult 0 true)) w' ∧
      w.now.taskOf firstResult.taskUid ≠ h.task ∧
      ∃ row ∈ w'.now.db.cache,
        ¬ CacheSound crashSha (Sha256.tableBlob crashTable) sampleTool w'.log row := by
  obtain ⟨⟨turns, w⟩, played, holds⟩ := (Option.any_eq_true _ _).mp reused_played
  simp only [Bool.and_eq_true, decide_eq_true_eq] at holds
  obtain ⟨⟨⟨⟨⟨⟨log, second⟩, honest⟩, handed⟩, named⟩, accepted⟩, completed⟩ := holds
  obtain ⟨h, member, task⟩ := List.any_eq_true.mp handed
  simp only [Bool.and_eq_true, decide_eq_true_eq] at task
  obtain ⟨cfg, ran, stored⟩ := (Option.any_eq_true _ _).mp completed
  obtain ⟨row, inCache, wrong⟩ := List.any_eq_true.mp stored
  simp only [Bool.and_eq_true, decide_eq_true_eq] at wrong
  have step : DistCompile.Step crashSha {} ⟨w.now.db, w.blobs⟩ (.completeTask firstResult 0 true)
      ⟨cfg.db, w.blobs⟩ := by
    have complete := DistCompile.Step.completeTask (c := ⟨w.now.db, w.blobs⟩) ran
    rwa [accepted] at complete
  refine ⟨turns, w, w.after (.completeTask firstResult 0 true) ⟨cfg.db, w.blobs⟩, h,
    (World.play_runs played).mono fun step => ⟨Turn.honest_of_on step.1, step.2⟩, ?_, ?_, member, task.1,
    Turn.honest_of_on honest, .call step, ?_, row, inCache, fun sound => ?_⟩
  · rw [log]
    exact crashSpecs_shaped
  · rw [log]
    exact crashSpecs_agree _ _
  · rw [show firstResult.taskUid = 1 from rfl, named, task.2]
    simp
  · have output := sound.output 5 secondSpec 0 _ (specAt_append _ second) rfl (by simp [InputsValid, TaskSpec.depIds])
      wrong.1
    rw [wrong.2] at output
    exact absurd output (by decide +kernel)

end DistCompile.AsyncCommit
