import DistCompile.Verdicts

/-!
What `dcc` sees of a build (`get_build` in `src/coordinator.cpp`, the end of step 5 of `build` in
`src/dcc.cpp`).

`get_build` has three statements and no transaction: the state of the build, the counts and the
rows can come from different tables. `dcc` polls until the state is not "running" and then asks
once more, for the rows. Between two looks other sessions go on (`Sees`), but what a look has seen
stays: the tasks of a build that has been committed, what is settled of them (`Onward`), and the
result.
-/

namespace DistCompile

open DistCompile.Lib

/-! ### Replies -/

/-- `TaskStatus`. -/
structure TaskStatus where
  id : Nat
  state : TaskState
  output : Str
  worker : Str
  attempts : Nat
  log : Str
  execMs : Int
deriving DecidableEq, Repr

/-- `BuildStatus`. -/
structure BuildStatus where
  buildId : Nat
  state : BuildState
  total : Nat
  finished : Nat
  cached : Nat
  running : Nat
  tasks : List TaskStatus := []
deriving DecidableEq, Repr

/-- The rows of a build. -/
def Db.ofBuild (db : Db) (build : Nat) : List TaskRow := db.tasks.filter fun t => t.buildId = build

/-- A row of `build_tasks`. -/
def TaskRow.status (t : TaskRow) : TaskStatus where
  id := t.id
  state := t.state
  output := t.output.getD []
  worker := t.leaseOwner.getD []
  attempts := t.attempts
  log := t.log.getD []
  execMs := t.execMs.getD 0

/-- `build_tasks`, `ORDER BY id`. -/
def Db.statuses (db : Db) (build : Nat) : List TaskStatus :=
  ((db.ofBuild build).map TaskRow.status).insertionSort fun s s' => s.id ≤ s'.id

/-- `get_build`, whose statements `build_state`, `build_counts` and `build_tasks` see the tables
`states`, `counts` and `rows`. -/
def getBuild (states counts rows : Db) (build : Nat) (full : Bool) : Except Str BuildStatus :=
  match states.build? build with
  | none => .error ("no build ".toList ++ decimal build)
  | some b => .ok
      { buildId := build
        state := b.state
        total := (counts.ofBuild build).length
        finished := (counts.ofBuild build).countP fun t => t.state.finished
        cached := (counts.ofBuild build).countP fun t => t.state = .cached
        running := (counts.ofBuild build).countP fun t => t.state = .running
        tasks := if full then rows.statuses build else [] }

/-- The tasks that `dcc` reports when the build has failed. -/
def BuildStatus.failures (reply : BuildStatus) : List TaskStatus := reply.tasks.filter fun t => t.state = .failed

/-- What a reply about `n` tasks says adds up. -/
structure BuildStatus.AddsUp (reply : BuildStatus) (build n : Nat) : Prop where
  buildId : reply.buildId = build
  total : reply.total = n
  cached : reply.cached ≤ reply.finished
  running : reply.finished + reply.running ≤ reply.total

/-- A later reply takes nothing back. -/
structure BuildStatus.Ahead (reply later : BuildStatus) : Prop where
  total : later.total = reply.total
  finished : reply.finished ≤ later.finished
  cached : reply.cached ≤ later.cached
  closed : reply.state ≠ .running → later.state = reply.state

/-- The reply with the rows of the `n` tasks bears out its result. -/
structure BuildStatus.BornOut (reply : BuildStatus) (n : Nat) : Prop where
  closed : reply.state ≠ .running
  ids : reply.tasks.map TaskStatus.id = List.range n
  done : reply.state = .done → reply.finished = reply.total ∧ reply.running = 0 ∧
    ∀ s ∈ reply.tasks, s.state.finished = true
  failed : reply.state = .failed → reply.failures ≠ []

/-! ### Counting by row -/

section Counts

variable {rows rows' : List TaskRow} {p p' : TaskRow → Bool}

/-- What is counted of the rows is found again in the rows after. -/
theorem countP_le_of_uids (unique : (rows.map TaskRow.uid).Nodup)
    (found : ∀ t ∈ rows, p t = true → ∃ u ∈ rows', u.uid = t.uid ∧ p' u = true) : rows.countP p ≤ rows'.countP p' := by
  have subset : (rows.filter p).map TaskRow.uid ⊆ (rows'.filter p').map TaskRow.uid := by
    intro uid member
    obtain ⟨t, ht, rfl⟩ := List.mem_map.mp member
    obtain ⟨here, counted⟩ := List.mem_filter.mp ht
    obtain ⟨u, hu, same, counted'⟩ := found t here counted
    exact List.mem_map.mpr ⟨u, List.mem_filter.mpr ⟨hu, counted'⟩, same⟩
  have bound := ((unique.sublist ((List.filter_sublist).map TaskRow.uid)).subperm subset).length_le
  rwa [List.length_map, List.length_map, ← List.countP_eq_length_filter, ← List.countP_eq_length_filter] at bound

end Counts

namespace Sessions

/-! ### The tables later -/

section Advance

variable {db db' db'' : Db} {build n : Nat}

theorem Advance.trans (first : Advance Onward db db') (second : Advance Onward db' db'') : Advance Onward db db'' := by
  refine ⟨fun t ht => ?_, fun t'' ht'' => ?_, fun b hb => ?_, fun b'' hb'' => ?_,
    first.nextBuild.trans second.nextBuild, first.nextUid.trans second.nextUid⟩
  · obtain ⟨t', ht', before⟩ := first.tasks t ht
    obtain ⟨t'', ht'', after⟩ := second.tasks t' ht'
    exact ⟨t'', ht'', before.trans after⟩
  · rcases second.origin t'' ht'' with ⟨t', ht', after⟩ | unknown
    · rcases first.origin t' ht' with ⟨t, ht, before⟩ | unknown
      · exact Or.inl ⟨t, ht, before.trans after⟩
      · exact Or.inr (after.same.buildId ▸ unknown)
    · exact Or.inr fun known => unknown (first.known known)
  · obtain ⟨b', hb', before⟩ := first.builds b hb
    obtain ⟨b'', hb'', after⟩ := second.builds b' hb'
    exact ⟨b'', hb'', before.trans after⟩
  · rcases second.opened b'' hb'' with ⟨b', hb', after⟩ | unknown
    · rcases first.opened b' hb' with ⟨b, hb, before⟩ | unknown
      · exact Or.inl ⟨b, hb, before.trans after⟩
      · exact Or.inr (after.id ▸ unknown)
    · exact Or.inr fun known => unknown (first.known known)

/-- The tasks of a committed build are there later, and no others. -/
theorem Advance.ofBuild (adv : Advance Onward db db') (known : Known db build) :
    (∀ t ∈ db.ofBuild build, ∃ t' ∈ db'.ofBuild build, Onward t t') ∧
      ∀ t' ∈ db'.ofBuild build, ∃ t ∈ db.ofBuild build, Onward t t' := by
  constructor
  · intro t ht
    obtain ⟨here, own⟩ := List.mem_filter.mp ht
    obtain ⟨t', ht', onward⟩ := adv.tasks t here
    exact ⟨t', List.mem_filter.mpr ⟨ht', by rw [onward.same.buildId]; exact own⟩, onward⟩
  · intro t' ht'
    obtain ⟨here, own⟩ := List.mem_filter.mp ht'
    rcases adv.origin t' here with ⟨t, ht, onward⟩ | unknown
    · exact ⟨t, List.mem_filter.mpr ⟨ht, by rw [← onward.same.buildId]; exact own⟩, onward⟩
    · rw [of_decide_eq_true own] at unknown
      exact absurd known unknown

theorem ofBuild_uids (tables : Indexed db) : ((db.ofBuild build).map TaskRow.uid).Nodup :=
  tables.uids.unique.sublist ((List.filter_sublist).map TaskRow.uid)

theorem ofBuild_ids (unique : (db.tasks.map TaskRow.slot).Nodup) : ((db.ofBuild build).map TaskRow.id).Nodup := by
  have slots := unique.sublist ((List.filter_sublist (p := fun t => decide (t.buildId = build))).map TaskRow.slot)
  have paired : (db.ofBuild build).map TaskRow.slot = ((db.ofBuild build).map TaskRow.id).map (Prod.mk build) := by
    rw [List.map_map]
    refine List.map_congr_left fun t ht => ?_
    rw [TaskRow.slot, of_decide_eq_true (List.mem_filter.mp ht).2]
    rfl
  rw [show db.tasks.filter _ = db.ofBuild build from rfl, paired] at slots
  exact slots.of_map _

theorem mem_statuses {s : TaskStatus} : s ∈ db.statuses build ↔ ∃ t ∈ db.tasks, t.buildId = build ∧ t.status = s := by
  rw [Db.statuses, List.mem_insertionSort, List.mem_map]
  simp only [Db.ofBuild, List.mem_filter, decide_eq_true_eq, and_assoc]

/-- The build is committed, and its tasks are numbered `0 .. n - 1`. -/
structure Numbered (db : Db) (build n : Nat) : Prop where
  known : Known db build
  ids : ((db.ofBuild build).map TaskRow.id).Perm (List.range n)

theorem Numbered.advance (numbered : Numbered db build n) (adv : Advance Onward db db') (tables : Indexed db') :
    Numbered db' build n := by
  refine ⟨adv.known numbered.known, ?_⟩
  obtain ⟨kept, origin⟩ := adv.ofBuild numbered.known
  have id_eq : ∀ {t t' : TaskRow}, Onward t t' → t'.id = t.id := fun onward => congrArg Prod.snd onward.same.slot
  refine (List.perm_ext_iff_of_nodup (ofBuild_ids tables.slots) List.nodup_range).mpr fun id => ?_
  rw [← numbered.ids.mem_iff, List.mem_map, List.mem_map]
  constructor
  · rintro ⟨t', ht', rfl⟩
    obtain ⟨t, ht, onward⟩ := origin t' ht'
    exact ⟨t, ht, (id_eq onward).symm⟩
  · rintro ⟨t, ht, rfl⟩
    obtain ⟨t', ht', onward⟩ := kept t ht
    exact ⟨t', ht', id_eq onward⟩

/-- Rows numbered `0 .. n - 1` are sent in this order. -/
theorem statuses_ids (ids : ((db.ofBuild build).map TaskRow.id).Perm (List.range n)) :
    (db.statuses build).map TaskStatus.id = List.range n := by
  have perm : ((db.statuses build).map TaskStatus.id).Perm (List.range n) := by
    refine ((List.perm_insertionSort _ _).map TaskStatus.id).trans ?_
    rw [List.map_map]
    exact ids
  have sorted : ((db.statuses build).map TaskStatus.id).Pairwise (· ≤ ·) :=
    List.pairwise_map.mpr (List.pairwise_insertionSort _ _)
  exact perm.eq_of_pairwise (fun _ _ _ _ => Nat.le_antisymm) sorted List.pairwise_le_range

/-- The rows of the reply are in the order of the spec. -/
theorem Numbered.statuses (numbered : Numbered db build n) : (db.statuses build).map TaskStatus.id = List.range n :=
  statuses_ids numbered.ids

/-- The row of a task is sent in its place. -/
theorem status_at (ids : ((db.ofBuild build).map TaskRow.id).Perm (List.range n)) {id : Nat} (small : id < n) :
    ∃ t ∈ db.tasks, t.buildId = build ∧ t.id = id ∧ (db.statuses build)[id]? = some t.status := by
  have place := congrArg (fun l => l[id]?) (statuses_ids ids)
  simp only [List.getElem?_map, List.getElem?_range small] at place
  obtain ⟨s, here, rfl⟩ := Option.map_eq_some_iff.mp place
  obtain ⟨t, ht, own, rfl⟩ := mem_statuses.mp (List.mem_of_getElem? here)
  exact ⟨t, ht, own, rfl, here⟩

theorem Numbered.total (numbered : Numbered db build n) : (db.ofBuild build).length = n := by
  have length := numbered.ids.length_eq
  rwa [List.length_map, List.length_range] at length

end Advance

/-! ### Looks at a build -/

section Looks

variable {H : Sha256} {o : Options} {m : Nat} {w w' w'' : World m} {build n : Nat} {full : Bool}
  {answer : Except Str BuildStatus} {reply later : BuildStatus} {polls : List BuildStatus}

/-- What holds between any two steps. -/
structure Orderly (w : World m) : Prop where
  fair : w.Fair
  flat : ∀ i, (w.sessions i).Flat

/-- Sessions go on for a while. -/
def Goes (H : Sha256) (o : Options) (w w' : World m) : Prop :=
  ∃ acts, Runs (Meets (World.Step H o) fun _ a => a.Flat) w acts w'

/-- A call of `GetBuild`: its statements see the tables at three moments. -/
def Sees (H : Sha256) (o : Options) (w : World m) (build : Nat) (full : Bool) (answer : Except Str BuildStatus)
    (w' : World m) : Prop :=
  ∃ states counts, Goes H o w states ∧ Goes H o states counts ∧ Goes H o counts w' ∧
    getBuild states.com counts.com w'.com build full = answer

/-- `dcc` polls until the build does not run any more, and asks for the rows. -/
inductive Awaits (H : Sha256) (o : Options) (build : Nat) : World m → List BuildStatus → BuildStatus → World m → Prop where
  | closed {w w' w'' : World m} {poll reply : BuildStatus} : Sees H o w build false (.ok poll) w' →
      poll.state ≠ .running → Sees H o w' build true (.ok reply) w'' → Awaits H o build w [poll] reply w''
  | running {w w' w'' : World m} {poll reply : BuildStatus} {polls : List BuildStatus} :
      Sees H o w build false (.ok poll) w' → poll.state = .running → Awaits H o build w' polls reply w'' →
      Awaits H o build w (poll :: polls) reply w''

theorem Goes.trans (first : Goes H o w w') (second : Goes H o w' w'') : Goes H o w w'' := by
  obtain ⟨acts, first⟩ := first
  obtain ⟨acts', second⟩ := second
  exact ⟨acts ++ acts', first.trans second⟩

theorem Goes.onward (goes : Goes H o w w') (orderly : Orderly w) : Orderly w' ∧ Advance Onward w.com w'.com := by
  obtain ⟨acts, run⟩ := goes
  refine run.invariant (P := fun v => Orderly v ∧ Advance Onward w.com v.com) ⟨orderly, .refl Onward.refl _⟩ ?_
  rintro v a v' ⟨flat, step⟩ ⟨before, adv⟩
  obtain ⟨fair, onward⟩ := before.fair.move (fun i _ => (before.flat i).unforeseen) step.move
  exact ⟨⟨fair, flat_sessions before.flat flat step.move⟩, adv.trans onward⟩

theorem Sees.goes (sees : Sees H o w build full answer w') : Goes H o w w' := by
  obtain ⟨states, counts, first, second, third, -⟩ := sees
  exact (first.trans second).trans third

/-- A build that has been committed is found. -/
theorem build?_of_known {db : Db} (known : Known db build) : ∃ b ∈ db.builds, b.id = build ∧ db.build? build = some b := by
  obtain ⟨b, hb, id⟩ := known
  have found : (db.build? build).isSome = true := List.find?_isSome.mpr ⟨b, hb, by simpa using id⟩
  obtain ⟨b', here⟩ := Option.isSome_iff_exists.mp found
  exact ⟨b', List.mem_of_find?_eq_some here, by simpa using List.find?_some here, here⟩

/-- Of the rows of a later moment no fewer count. -/
theorem Advance.countP_le {db db' : Db} (adv : Advance Onward db db') (tables : Indexed db) (known : Known db build)
    {p : TaskRow → Bool} (kept : ∀ {t t' : TaskRow}, Onward t t' → p t = true → p t' = true) :
    (db.ofBuild build).countP p ≤ (db'.ofBuild build).countP p := by
  refine countP_le_of_uids (ofBuild_uids tables) fun t ht counted => ?_
  obtain ⟨t', ht', onward⟩ := (adv.ofBuild known).1 t ht
  exact ⟨t', ht', onward.same.uid, kept onward counted⟩

/-- What one call has found: the build, and what was counted and listed later. -/
theorem Sees.found (sees : Sees H o w build full answer w') (orderly : Orderly w) (numbered : Numbered w.com build n) :
    ∃ states counts b, Goes H o w states ∧ Goes H o states counts ∧ Goes H o counts w' ∧ b ∈ states.com.builds ∧
      b.id = build ∧ answer = .ok
        { buildId := build
          state := b.state
          total := (counts.com.ofBuild build).length
          finished := (counts.com.ofBuild build).countP fun t => t.state.finished
          cached := (counts.com.ofBuild build).countP fun t => t.state = .cached
          running := (counts.com.ofBuild build).countP fun t => t.state = .running
          tasks := if full then w'.com.statuses build else [] } := by
  obtain ⟨states, counts, first, second, third, rfl⟩ := sees
  obtain ⟨-, adv⟩ := first.onward orderly
  obtain ⟨b, hb, id, found⟩ := build?_of_known (adv.known numbered.known)
  exact ⟨states, counts, b, first, second, third, hb, id, by rw [getBuild, found]⟩

/-- A closed build of earlier tables is the one that is found later. -/
theorem Advance.same_build {db db' : Db} (adv : Advance Onward db db') (tables : Indexed db') {b b' : BuildRow}
    (hb : b ∈ db.builds) (hb' : b' ∈ db'.builds) (same : b'.id = b.id) (closed : b.state ≠ .running) : b' = b := by
  obtain ⟨r, hr, after⟩ := adv.builds b hb
  rw [after.closed closed] at hr
  exact List.inj_on_of_nodup_map tables.ids hb' hr same

theorem Orderly.tables (orderly : Orderly w) : Indexed w.com := orderly.fair.inv.tables

theorem Sees.addsUp (sees : Sees H o w build full (.ok reply) w') (orderly : Orderly w)
    (numbered : Numbered w.com build n) : reply.AddsUp build n := by
  obtain ⟨states, counts, b, first, second, -, -, -, is⟩ := sees.found orderly numbered
  obtain ⟨after, adv⟩ := (first.trans second).onward orderly
  rw [Except.ok.injEq] at is
  have total := (numbered.advance adv after.tables).total
  rw [is]
  refine ⟨rfl, total, List.countP_mono_left fun t _ cached => ?_, ?_⟩
  · rw [of_decide_eq_true cached]
    rfl
  · -- no task is counted twice
    have apart : ∀ rows : List TaskRow, (rows.countP fun t => t.state.finished) +
        (rows.countP fun t => t.state = .running) ≤ rows.length := by
      intro rows
      have others := List.countP_mono_left (l := rows) (p := fun t => t.state = .running)
        (q := fun t => !t.state.finished) fun t _ running => by rw [of_decide_eq_true running]; rfl
      have split := List.length_eq_countP_add_countP (l := rows) (fun t => t.state.finished)
      simp only [Bool.not_eq_true, Bool.decide_eq_false] at split
      omega
    exact apart _

/-- Of two calls in a row the second says no less. -/
theorem Sees.ahead {full' : Bool} (first : Sees H o w build full (.ok reply) w')
    (second : Sees H o w' build full' (.ok later) w'') (orderly : Orderly w) (numbered : Numbered w.com build n) :
    reply.Ahead later := by
  obtain ⟨after, adv⟩ := first.goes.onward orderly
  have numbered' := numbered.advance adv after.tables
  have total := (first.addsUp orderly numbered).total
  have total' := (second.addsUp after numbered').total
  obtain ⟨states, counts, b, toStates, toCounts, rest, hb, id, is⟩ := first.found orderly numbered
  obtain ⟨states', counts', b', toStates', toCounts', -, hb', id', is'⟩ := second.found after numbered'
  rw [Except.ok.injEq] at is is'
  obtain ⟨between, adv₁⟩ := toStates.onward orderly
  obtain ⟨counted, adv₂⟩ := toCounts.onward between
  have between' := ((toCounts.trans rest).trans toStates').onward between
  have onward := ((rest.trans toStates').trans toCounts').onward counted
  have known : Known counts.com build := adv₂.known (adv₁.known numbered.known)
  refine ⟨total'.trans total.symm, ?_, ?_, fun closed => ?_⟩
  · rw [is, is']
    exact onward.2.countP_le counted.tables known fun step finished => step.finished finished
  · rw [is, is']
    refine onward.2.countP_le counted.tables known fun step cached => ?_
    have state := of_decide_eq_true cached
    rw [(step.kept (by rw [state]; rfl)).state]
    exact cached
  · rw [is] at closed
    rw [is, is', between'.2.same_build between'.1.tables hb hb' (id'.trans id.symm) closed]

/-- What is listed with a result bears it out. -/
theorem Sees.bornOut (sees : Sees H o w build true (.ok reply) w') (orderly : Orderly w)
    (numbered : Numbered w.com build n) (closed : reply.state ≠ .running) : reply.BornOut n := by
  obtain ⟨states, counts, b, toStates, toCounts, rest, hb, rfl, is⟩ := sees.found orderly numbered
  rw [Except.ok.injEq, if_pos rfl] at is
  obtain ⟨found, adv⟩ := toStates.onward orderly
  obtain ⟨counted, adv₁⟩ := toCounts.onward found
  obtain ⟨listed, adv₂⟩ := rest.onward counted
  have whole := adv.trans (adv₁.trans adv₂)
  have verdict := found.fair.judged.verdicts b hb
  have known : Known states.com b.id := ⟨b, hb, rfl⟩
  refine ⟨closed, ?_, fun done => ?_, fun failed => ?_⟩
  · rw [is]
    exact (numbered.advance whole listed.tables).statuses
  · rw [is] at done ⊢
    have finished := adv₁.finished known (verdict.done done)
    have ofBuild : ∀ t ∈ counts.com.ofBuild b.id, t.state.finished = true := fun t ht =>
      finished t (List.mem_filter.mp ht).1 (of_decide_eq_true (List.mem_filter.mp ht).2)
    refine ⟨List.countP_eq_length.mpr ofBuild, List.countP_eq_zero.mpr fun t ht running => ?_, fun s listed => ?_⟩
    · have none := ofBuild t ht
      rw [of_decide_eq_true running] at none
      cases none
    · obtain ⟨t, ht, own, rfl⟩ := mem_statuses.mp listed
      exact adv₂.finished (adv₁.known known) finished t ht own
  · rw [is] at failed
    obtain ⟨t, ht, own, state⟩ := adv₂.hasFailed (adv₁.hasFailed (verdict.failed failed))
    refine List.ne_nil_of_mem (a := t.status) (List.mem_filter.mpr ⟨?_, decide_eq_true state⟩)
    rw [is]
    exact mem_statuses.mpr ⟨t, ht, own, rfl⟩

theorem Goes.sees (goes : Goes H o w w') (sees : Sees H o w' build full answer w'') : Sees H o w build full answer w'' := by
  obtain ⟨states, counts, first, rest⟩ := sees
  exact ⟨states, counts, goes.trans first, rest⟩

theorem Awaits.sees (awaits : Awaits H o build w polls reply w') {r : BuildStatus} (member : r ∈ polls ++ [reply]) :
    ∃ full v, Sees H o w build full (.ok r) v := by
  induction awaits with
  | closed poll _ last =>
    rcases List.mem_append.mp member with here | here
    · rw [List.mem_singleton.mp here]
      exact ⟨false, _, poll⟩
    · rw [List.mem_singleton.mp here]
      exact ⟨true, _, poll.goes.sees last⟩
  | running poll _ _ ih =>
    rcases List.mem_cons.mp member with rfl | later
    · exact ⟨false, _, poll⟩
    · obtain ⟨full, v, sees⟩ := ih later
      exact ⟨full, v, poll.goes.sees sees⟩

theorem Awaits.pairwise (awaits : Awaits H o build w polls reply w') (orderly : Orderly w)
    (numbered : Numbered w.com build n) : (polls ++ [reply]).Pairwise BuildStatus.Ahead := by
  induction awaits with
  | closed poll _ last =>
    refine List.pairwise_pair.mpr ?_
    exact poll.ahead last orderly numbered
  | running poll _ rest ih =>
    obtain ⟨after, adv⟩ := poll.goes.onward orderly
    refine List.pairwise_cons.mpr ⟨fun r member => ?_, ih after (numbered.advance adv after.tables)⟩
    obtain ⟨full, v, sees⟩ := rest.sees member
    exact poll.ahead sees orderly numbered

/-- The last call follows a poll with a result. -/
theorem Awaits.last (awaits : Awaits H o build w polls reply w') (orderly : Orderly w) (numbered : Numbered w.com build n) :
    ∃ v, Goes H o w v ∧ Sees H o v build true (.ok reply) w' ∧ reply.state ≠ .running := by
  induction awaits with
  | closed poll closed last =>
    refine ⟨_, poll.goes, last, ?_⟩
    rwa [(poll.ahead last orderly numbered).closed closed]
  | running poll _ _ ih =>
    obtain ⟨after, adv⟩ := poll.goes.onward orderly
    obtain ⟨v, goes, rest⟩ := ih after (numbered.advance adv after.tables)
    exact ⟨v, poll.goes.trans goes, rest⟩

/-- A result that a call has found is the result for good. -/
theorem Sees.final (sees : Sees H o w build full (.ok reply) w') (orderly : Orderly w) (numbered : Numbered w.com build n)
    (closed : reply.state ≠ .running) (goes : Goes H o w' w'') : ∀ b ∈ w''.com.builds, b.id = build → b.state = reply.state := by
  obtain ⟨states, counts, b, toStates, toCounts, rest, hb, id, is⟩ := sees.found orderly numbered
  rw [Except.ok.injEq] at is
  obtain ⟨between, -⟩ := toStates.onward orderly
  obtain ⟨after, adv⟩ := ((toCounts.trans rest).trans goes).onward between
  intro b' hb' id'
  rw [is] at closed ⊢
  rw [adv.same_build after.tables hb hb' (id'.trans id.symm) closed]

/-- A submit commits: its build has the tasks of its spec. -/
theorem Numbered.committed {i : Fin m} {sub : Submission} {row : BuildRow} {uid : Nat} {walk : Walk} (orderly : Orderly w)
    (ready : w.sessions i = .submitting sub (.maybeFinish row uid walk [])) (step : World.Step H o w (.commit i) w') :
    Orderly w' ∧ Numbered w'.com row.id sub.spec.tasks.length := by
  have after := (Goes.onward (H := H) (o := o) ⟨[.commit i], .snoc .nil ⟨trivial, step⟩⟩ orderly).1
  have absent : Absent w.com (sub.own row.id uid walk) := by
    have sound := orderly.fair.inv.sound i
    rw [ready] at sound
    exact sound.1
  simp only [World.Step, World.step, ready, Session.commit, Option.map_some, Option.some.injEq] at step
  subst step
  refine ⟨after, ⟨row, List.mem_append_right _ (List.mem_singleton.mpr rfl), rfl⟩, ?_⟩
  have old : w.com.tasks.filter (fun t => t.buildId = row.id) = [] := by
    refine List.filter_eq_nil_iff.mpr fun t ht own => ?_
    exact absent.builds row.id mem_own_build (of_decide_eq_true own ▸ orderly.tables.known t ht)
  have own : (insertedTasks sub.spec sub.rank sub.part row.id uid walk.row).filter (fun t => t.buildId = row.id) =
      insertedTasks sub.spec sub.rank sub.part row.id uid walk.row := by
    refine List.filter_eq_self.mpr fun t ht => ?_
    obtain ⟨id, ts, -, rfl⟩ := mem_insertedTasks.mp ht
    exact decide_eq_true rfl
  have rows : (sub.inserted w.com row uid walk).ofBuild row.id =
      insertedTasks sub.spec sub.rank sub.part row.id uid walk.row := by
    rw [Db.ofBuild, Submission.inserted, List.filter_append, old, own, List.nil_append]
  have ids : (insertedTasks sub.spec sub.rank sub.part row.id uid walk.row).map TaskRow.id =
      List.range sub.spec.tasks.length := by
    rw [insertedTasks, List.map_map, List.range_eq_range', ← List.zipIdx_map_snd]
    rfl
  change (((sub.inserted w.com row uid walk).ofBuild row.id).map TaskRow.id).Perm _
  rw [rows, ids]

section Build

variable {acts : List (Act m)} {w₀ : World m} {i : Fin m} {sub : Submission} {row : BuildRow} {uid : Nat} {walk : Walk}

/-- In every interleaving, while the statements of `GetBuild` see different tables: when `dcc` stops
waiting the reply has the rows of all the tasks in the order of the spec; if it says "done" all of
them are finished, if it says "failed" one of them is listed as failed; and the result it names
is the result of the build for good. -/
theorem awaited_reply_final (run : Runs (Meets (World.Step H o) fun _ a => a.Flat) ({} : World m) acts w₀)
    (ready : w₀.sessions i = .submitting sub (.maybeFinish row uid walk []))
    (committed : World.Step H o w₀ (.commit i) w) (awaits : Awaits H o row.id w polls reply w') :
    reply.BornOut sub.spec.tasks.length ∧
      ∀ w'', Goes H o w' w'' → ∀ b ∈ w''.com.builds, b.id = row.id → b.state = reply.state := by
  obtain ⟨fair, flat⟩ := Runs.fair run
  obtain ⟨orderly, numbered⟩ := Numbered.committed ⟨fair, flat⟩ ready committed
  obtain ⟨v, goes, sees, closed⟩ := awaits.last orderly numbered
  obtain ⟨orderly', adv⟩ := goes.onward orderly
  have numbered' := numbered.advance adv orderly'.tables
  exact ⟨sees.bornOut orderly' numbered' closed, fun w'' later => sees.final orderly' numbered' closed later⟩

/-- In every interleaving: from the commit of its submit on a build is found by every call, the
replies that `dcc` prints add up over the tasks of the spec, and no later one takes back what an
earlier one has counted as finished or cached. -/
theorem polls_advance (run : Runs (Meets (World.Step H o) fun _ a => a.Flat) ({} : World m) acts w₀)
    (ready : w₀.sessions i = .submitting sub (.maybeFinish row uid walk []))
    (committed : World.Step H o w₀ (.commit i) w) :
    (∀ full answer w', Sees H o w row.id full answer w' → ∃ r, answer = .ok r) ∧
      ∀ polls reply w', Awaits H o row.id w polls reply w' →
        (∀ r ∈ polls ++ [reply], r.AddsUp row.id sub.spec.tasks.length) ∧ (polls ++ [reply]).Pairwise BuildStatus.Ahead := by
  obtain ⟨fair, flat⟩ := Runs.fair run
  obtain ⟨orderly, numbered⟩ := Numbered.committed ⟨fair, flat⟩ ready committed
  refine ⟨fun full answer w' sees => ?_, fun polls reply w' awaits => ⟨fun r member => ?_, awaits.pairwise orderly numbered⟩⟩
  · obtain ⟨_, _, _, _, _, _, _, _, is⟩ := sees.found orderly numbered
    exact ⟨_, is⟩
  · obtain ⟨full, v, sees⟩ := awaits.sees member
    exact sees.addsUp orderly numbered

end Build

end Looks

/-- A build of one source: the submit before its commit, and what comes after. -/
def submitActs : List (Act 2) := compiledActs.take 11

def compileActs : List (Act 2) := compiledActs.drop 12

/-- A poll right after the commit finds the build running, the next one finds it done. -/
theorem polled_run : (submitActs.foldlM (World.step sampleSha {}) {}).any (fun w₀ =>
    (submitActs ++ compileActs).all (fun a => a.Flat) && match w₀.sessions 0 with
      | .submitting _ (.maybeFinish row _ _ []) => (w₀.step sampleSha {} (.commit 0)).any fun w =>
          (compileActs.foldlM (World.step sampleSha {}) w).any fun w' =>
            ((w.com.build? row.id).any fun b => b.state = .running) && (w'.com.build? row.id).any fun b => b.state = .done
      | _ => false) = true := by
  decide +kernel

theorem Goes.refl {H : Sha256} {o : Options} {m : Nat} (w : World m) : Goes H o w w := ⟨[], .nil⟩

/-- A call that sees the tables of one moment. -/
theorem Sees.of_build {H : Sha256} {o : Options} {m : Nat} {w w' : World m} {build : Nat} {b : BuildRow} (full : Bool)
    (goes : Goes H o w w') (found : w'.com.build? build = some b) :
    ∃ reply, Sees H o w build full (.ok reply) w' ∧ reply.state = b.state := by
  cases is : getBuild w'.com w'.com w'.com build full with
  | error e =>
    rw [getBuild, found] at is
    cases is
  | ok reply =>
    refine ⟨reply, ⟨w', w', goes, .refl w', .refl w', is⟩, ?_⟩
    rw [getBuild, found, Except.ok.injEq] at is
    rw [← is]

/-- `dcc` waits for the build of one source. -/
theorem polled_sample : ∃ acts w₀ sub row uid walk w polls reply w',
    Runs (Meets (World.Step sampleSha {}) fun _ a => a.Flat) ({} : World 2) acts w₀ ∧
      w₀.sessions 0 = .submitting sub (.maybeFinish row uid walk []) ∧ World.Step sampleSha {} w₀ (.commit 0) w ∧
      Awaits sampleSha {} row.id w polls reply w' ∧ reply.state = .done ∧ polls.length = 2 := by
  obtain ⟨w₀, ran, holds⟩ := (Option.any_eq_true _ _).mp polled_run
  rw [Bool.and_eq_true, List.all_eq_true] at holds
  obtain ⟨flat, holds⟩ := holds
  simp only [decide_eq_true_eq, List.mem_append] at flat
  split at holds
  · rename_i sub row uid walk ready
    obtain ⟨w, committed, holds⟩ := (Option.any_eq_true _ _).mp holds
    obtain ⟨w', rest, holds⟩ := (Option.any_eq_true _ _).mp holds
    rw [Bool.and_eq_true] at holds
    obtain ⟨b, found, running⟩ := (Option.any_eq_true _ _).mp holds.1
    obtain ⟨b', found', done⟩ := (Option.any_eq_true _ _).mp holds.2
    have goes : Goes sampleSha {} w w' := ⟨_, (Runs.of_foldlM rest).meets fun a member => flat a (Or.inr member)⟩
    obtain ⟨first, poll, same⟩ := Sees.of_build false (.refl w) found
    obtain ⟨second, again, same'⟩ := Sees.of_build false goes found'
    obtain ⟨reply, last, state⟩ := Sees.of_build true (.refl w') found'
    rw [of_decide_eq_true running] at same
    rw [of_decide_eq_true done] at same' state
    refine ⟨submitActs, w₀, sub, row, uid, walk, w, [first, second], reply, w',
      (Runs.of_foldlM ran).meets fun a member => flat a (Or.inl member), ready, committed, ?_, state, rfl⟩
    exact .running poll same (.closed again (by simp [same']) last)
  · cases holds

theorem awaited_reply_final_compiled : ∃ sub : Submission, ∃ reply : BuildStatus,
    reply.state = .done ∧ reply.BornOut sub.spec.tasks.length := by
  obtain ⟨acts, w₀, sub, row, uid, walk, w, polls, reply, w', run, ready, committed, awaits, done, -⟩ := polled_sample
  exact ⟨sub, reply, done, (awaited_reply_final run ready committed awaits).1⟩

theorem polls_advance_compiled : ∃ polls : List BuildStatus, polls.length = 2 ∧ polls.Pairwise BuildStatus.Ahead := by
  obtain ⟨acts, w₀, sub, row, uid, walk, w, polls, reply, w', run, ready, committed, awaits, -, two⟩ := polled_sample
  have pairwise := ((polls_advance run ready committed).2 polls reply w' awaits).2
  exact ⟨polls, two, (List.pairwise_append.mp pairwise).1⟩

end Sessions

end DistCompile
