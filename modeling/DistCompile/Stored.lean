import DistCompile.Assignments
import DistCompile.Client

/-!
What the tables refer to is there (`CompleteTask`, `submit` and `make_ready` in
`src/coordinator.cpp`, `Cas::has` and `Cas::put` in `src/cas.cpp`).

No call removes a blob or a cache row, and no call gives a cached key another output.
So a reference that is good when it is written stays good. It is checked in two places
(`CompleteTask` asks for the output before its transaction, `submit` for the input of a
compile task that is not cached) and copied from there: from a result into the cache,
from the cache into tasks, from the outputs of tasks into the inputs of others.
-/

namespace DistCompile

open DistCompile.Lib DistCompile.Graph

/-! ### The cache and the blobs grow -/

/-- Every key with an output keeps it. -/
def Db.Remembers (db db' : Db) : Prop :=
  ∀ key output, db.outputs key = some output → db'.outputs key = some output

theorem Db.Remembers.refl (db : Db) : db.Remembers db := fun _ _ hit => hit

theorem Db.Remembers.trans {db db' db'' : Db} (first : db.Remembers db') (second : db'.Remembers db'') :
    db.Remembers db'' := fun key output hit => second key output (first key output hit)

theorem Db.remembers_of_cache {db db' : Db} (same : db'.cache = db.cache) : db.Remembers db' := by
  intro key output hit
  rwa [Db.outputs, Db.cached?, same]

/-- Rewriting cache rows under their keys. -/
theorem Db.remembers_map {db db' : Db} {f : CacheRow → CacheRow} (rows : db'.cache = db.cache.map f)
    (keys : ∀ c, (f c).key = c.key)
    (outputs : ∀ c ∈ db.cache, db.outputs c.key = some c.output → (f c).output = c.output) :
    db.Remembers db' := by
  intro key output hit
  obtain ⟨c, found, rfl⟩ := Option.map_eq_some_iff.mp hit
  have here : c.key = key := by simpa using List.find?_some found
  have same : ((fun c : CacheRow => decide (c.key = key)) ∘ f) = fun c => decide (c.key = key) := by
    funext c
    simp [keys]
  rw [Db.outputs, Db.cached?, rows, List.find?_map, same]
  have kept := outputs c (List.mem_of_find?_eq_some found) (here ▸ hit)
  change Option.map _ (Option.map f (db.cached? key)) = _
  rw [found, Option.map_some, Option.map_some, kept]

theorem Db.remembers_apply_cache {db : Db} {row : CacheRow}
    (sound : ∀ output, db.outputs row.key = some output → row.output = output) :
    db.Remembers (db.apply (.cache row)) := by
  unfold Db.apply
  dsimp only
  split
  · refine Db.remembers_map (f := fun c => if c.key = row.key then row else c) rfl (fun c => ?_)
      fun c _ hit => ?_
    · split
      · rename_i same
        exact same.symm
      · rfl
    · split
      · rename_i same
        exact sound _ (same ▸ hit)
      · rfl
  · intro key output hit
    obtain ⟨c, found, rfl⟩ := Option.map_eq_some_iff.mp hit
    rw [Db.outputs, Db.cached?, List.find?_append]
    change Option.map _ ((db.cached? key).or _) = _
    rw [found]
    rfl

section Statements

variable {H : Sha256} {o : Options} {db : Db}

/-- A statement writes a new key, or a key with its output. -/
theorem exec_cache {s : Stmt} {row : CacheRow} (wrote : (exec H o db s).write = some (.cache row)) :
    ∀ output, db.outputs row.key = some output → row.output = output := by
  intro output hit
  cases exec_caches wrote with
  | put unknown =>
    rw [Db.outputs, unknown] at hit
    cases hit
  | hit found =>
    rw [Db.outputs, found] at hit
    exact Option.some.inj hit

/-- After `cache_put` the key is known. -/
theorem cachePut_known {build id : Nat} {key output : Str} {size : Int} :
    (((exec H o db (.cachePut build id key output size)).db db).outputs key).isSome = true := by
  simp only [exec, Outcome.db]
  split
  · rename_i known
    simpa [Db.outputs] using known
  · rename_i unknown
    rw [Option.not_isSome_iff_eq_none] at unknown
    have absent := List.find?_eq_none.mp unknown
    have none_ : (db.cache.any fun c => decide (c.key = key)) = false := by
      simpa [List.any_eq_false] using absent
    simp only [Option.elim_some, Db.apply, none_, Bool.false_eq_true, if_false, Db.outputs, Db.cached?,
      List.find?_append]
    change (Option.map _ ((db.cached? key).or _)).isSome = true
    simp [unknown]

theorem exec_remembers (s : Stmt) : db.Remembers ((exec H o db s).db db) := by
  rcases write : (exec H o db s).write with _ | row | row | row
  · rw [Outcome.db, write]
    exact .refl db
  · rw [Outcome.db, write]
    exact Db.remembers_of_cache rfl
  · rw [Outcome.db, write]
    exact Db.remembers_of_cache rfl
  · rw [Outcome.db, write]
    exact Db.remembers_apply_cache (exec_cache write)

theorem run_remembers {fuel : Nat} {c c' : Cfg} (ran : run H o fuel c = some c') : c.db.Remembers c'.db :=
  (run_induction (P := fun c' => c.db.Remembers c'.db) (fun kept _ => kept.trans (exec_remembers _)) ran (.refl _)).1

theorem maybeFinish_remembers (build : Nat) : db.Remembers (db.maybeFinish H o build) :=
  maybeFinish_induction (P := fun db' => db.Remembers db') (.refl db) run_remembers

theorem insertRows_remembers {spec : BuildSpec} {rank part : Nat → Int} {w : Walk} :
    db.Remembers (insertRows db spec rank part w) := by
  refine Db.remembers_map rfl (fun c => ?_) fun c _ _ => ?_
  · split <;> rfl
  · split <;> rfl

theorem submitBuild_remembers {has : Str → Bool} {live : Int} {spec : BuildSpec} :
    db.Remembers (submitBuild H o has db live spec).1 := by
  rcases ran : submitBuild H o has db live spec with ⟨db', e | ⟨build, cached⟩⟩
  · obtain ⟨builds, uids, rfl⟩ := submitBuild_error ran
    exact Db.remembers_of_cache rfl
  · obtain ⟨-, -, order, rank, part, w, -, -, -, rfl⟩ := submitBuild_ok ran
    exact insertRows_remembers.trans (maybeFinish_remembers _)

end Statements

theorem Blobs.has_after_put {H : Sha256} {blobs blobs' : Blobs} {data expect : Str}
    (put : blobs.put H data expect = some blobs') {hash : Str} (has : blobs.has hash = true) :
    blobs'.has hash = true := by
  unfold Blobs.put at put
  split_ifs at put
  · cases put
    exact has
  · cases put
    rw [Blobs.has, Bool.and_eq_true] at has ⊢
    exact ⟨has.1, by rw [List.any_append, has.2, Bool.true_or]⟩

section Calls

variable {H : Sha256} {o : Options} {calls : List Call} {call : Call} {c c' : Coordinator}

theorem Step.remembers (step : Step H o c call c') : c.db.Remembers c'.db := by
  cases step with
  | putBlob _ => exact .refl _
  | putRefused _ => exact .refl _
  | submitBuild => exact submitBuild_remembers
  | claimTask _ _ | claimCrash _ _ => exact Db.remembers_of_cache rfl
  | claimNothing _ => exact .refl _
  | completeTask ran => exact run_remembers ran
  | heartbeat => exact Db.remembers_of_cache rfl
  | reap =>
    exact reap_induction (H := H) (o := o) (P := fun db => c.db.Remembers db)
      (fun build kept => kept.trans (maybeFinish_remembers build)) (Db.remembers_of_cache rfl)

theorem Step.holds (step : Step H o c call c') {hash : Str} (has : c.blobs.has hash = true) :
    c'.blobs.has hash = true := by
  cases step with
  | putBlob put => exact Blobs.has_after_put put has
  | _ => exact has

end Calls

/-! ### References -/

/-- `Cas::get`, which `GetBlob` answers with: NOT_FOUND where there is nothing. -/
def Blobs.get (blobs : Blobs) (hash : Str) : Option Str :=
  if validHash hash then (blobs.find? fun f => f.1 = hash).map Prod.snd else none

theorem Blobs.get_of_has {blobs : Blobs} {hash : Str} (has : blobs.has hash = true) :
    blobs.get hash ≠ none := by
  rw [Blobs.has, Bool.and_eq_true, List.any_eq_true] at has
  obtain ⟨valid, f, hf, here⟩ := has
  rw [Blobs.get, if_pos valid, ne_eq, Option.map_eq_none_iff, List.find?_eq_none]
  exact fun none => none f hf here

/-- The digests in the inputs column. -/
def TaskRow.digests (t : TaskRow) : List Str := splitLines (t.inputs.getD [])

/-- What a row refers to is there. -/
structure TaskRow.Backed (has : Str → Bool) (t : TaskRow) : Prop where
  key : t.state.finished = true ∨ t.state.open = true → t.key ≠ none
  output : t.state.finished = true → ∃ output, t.output = some output ∧ has output = true
  inputs : t.state.open = true → ∀ d ∈ t.digests, has d = true

/-- The cache has a row for the key of the task. -/
def Db.Knows (db : Db) (t : TaskRow) : Prop := (db.outputs (t.key.getD [])).isSome = true

theorem Db.Remembers.knows {db db' : Db} (kept : db.Remembers db') {t : TaskRow} (knows : db.Knows t) :
    db'.Knows t := by
  obtain ⟨output, hit⟩ := Option.isSome_iff_exists.mp knows
  exact Option.isSome_iff_exists.mpr ⟨output, kept _ _ hit⟩

/-- What the values carried by a statement refer to. -/
def Stmt.Refers (has : Str → Bool) (db : Db) : Stmt → Prop
  | .complete r _ => has r.output = true
  | .cachePut _ _ _ output _ => has output = true
  | .markCached _ _ key output => has output = true ∧ (db.outputs key).isSome = true
  | _ => True

/-- The tables between two calls. -/
structure Referring (has : Str → Bool) (db : Db) : Prop where
  cache : ∀ row ∈ db.cache, has row.output = true
  rows : ∀ t ∈ db.tasks, t.Backed has
  known : ∀ t ∈ db.tasks, t.state.finished = true → db.Knows t

/-- In the middle of a completion: the task that was just marked done is in the cache
after the next statement. -/
structure ReferringMid (has : Str → Bool) (c : Cfg) : Prop where
  cache : ∀ row ∈ c.db.cache, has row.output = true
  rows : ∀ t ∈ c.db.tasks, t.Backed has
  known : ∀ t ∈ c.db.tasks, t.state.finished = true → c.db.Knows t ∨
    ∃ build id output size, c.stack.head? = some (.cachePut build id (t.key.getD []) output size)
  carried : ∀ s ∈ c.stack, s.Refers has c.db

namespace ReferringMid

variable {H : Sha256} {o : Options} {has : Str → Bool} {com : Db} {c : Cfg} {s : Stmt} {rest : List Stmt}

/-- What is finished is in the cache after the statement on top. -/
theorem known_after (f : ReferringMid has c) (top : c.stack = s :: rest) (o : Options) {t : TaskRow}
    (ht : t ∈ c.db.tasks) (done : t.state.finished = true) : ((exec H o c.db s).db c.db).Knows t := by
  rcases f.known t ht done with known | ⟨build, id, output, size, next⟩
  · exact (exec_remembers s).knows known
  · rw [top, List.head?_cons, Option.some.injEq] at next
    subst next
    exact cachePut_known

theorem rest_carried (m : Mid H com c) (top : c.stack = s :: rest) (db : Db) :
    ∀ n ∈ rest, n.Refers has db := by
  intro n member
  have loop := m.rest_loops top n member
  cases n with
  | lockRow uid => trivial
  | countDown build id uid => trivial
  | _ => cases loop

/-- The digests of the dependencies that `make_ready` reads. -/
theorem inputDigests_held (f : ReferringMid has c) (m : Mid H com c) (base : Consistent H com) {t : TaskRow}
    (ht : t ∈ c.db.tasks) (settled : ¬ 0 < t.pendingDeps) :
    ∀ d ∈ c.db.inputDigests t.slot, has d = true := by
  intro digest member
  obtain ⟨u, hu, rfl⟩ := List.mem_map.mp member
  obtain ⟨hu, d, hd, target, source⟩ := mem_inputsOf hu
  obtain ⟨v, hv, slot, done⟩ := m.ready base ht settled d hd target
  rw [(m.keyed base.keyed).slot_inj hv hu (slot.trans source)] at done
  obtain ⟨output, stored, held⟩ := (f.rows u hu).output done
  rw [stored]
  exact held

/-- Joined digests split again. -/
theorem digests_joined {t : TaskRow} (digests : List Str) (column : t.inputs.getD [] = joinLines digests)
    (valid : ∀ d ∈ digests, has d = true) (hashes : ∀ d, has d = true → validHash d = true) :
    ∀ d ∈ t.digests, has d = true := by
  intro d member
  rw [TaskRow.digests, column,
    splitLines_joinLines (fun l hl => validHash_newline (hashes l (valid l hl)))
      fun l hl => validHash_ne_nil (hashes l (valid l hl))] at member
  exact valid d member

/-- The row that a statement writes. -/
theorem exec_backed (hashes : ∀ d, has d = true → validHash d = true) (f : ReferringMid has c) (m : Mid H com c)
    (base : Consistent H com) (top : c.stack = s :: rest) {row : TaskRow}
    (wrote : (exec H o c.db s).write = some (.task row)) : row.Backed has := by
  have k := m.keyed base.keyed
  have ok := m.ok s (by simp [top])
  have refers := f.carried s (by simp [top])
  obtain ⟨t, ht, next, -, rewrites⟩ := exec_rewrites wrote
  have backed := f.rows t ht
  cases rewrites with
  | complete found isOpen =>
    exact ⟨fun _ => backed.key (Or.inr isOpen), fun _ => ⟨_, rfl, refers⟩, fun isOpen => by cases isOpen⟩
  | retry found running attempt =>
    have isOpen : t.state.open = true := by rw [running]; rfl
    refine ⟨fun _ => backed.key (Or.inr isOpen), fun done => ?_, fun _ => backed.inputs isOpen⟩
    rw [requeue_unfinished] at done
    cases done
  | fail found isOpen =>
    refine ⟨fun settled => ?_, fun done => (by cases done), fun isOpen => (by cases isOpen)⟩
    rcases settled with done | isOpen
    · cases done
    · cases isOpen
  | countDown => exact ⟨backed.key, backed.output, backed.inputs⟩
  | markCached => exact ⟨fun _ => by simp, fun _ => ⟨_, rfl, refers.1⟩, fun isOpen => by cases isOpen⟩
  | markReady =>
    obtain ⟨-, same, u, hu, slot, -, -⟩ := ok
    obtain rfl := k.slot_inj hu ht slot
    have zero := m.zero u ht (by rw [top]; rfl)
    have held := f.inputDigests_held m base ht (by omega)
    rw [TaskRow.slot, ← same] at held
    exact ⟨fun _ => by simp, fun done => (by cases done), fun _ => digests_joined _ rfl held hashes⟩

/-- A row that a statement finishes is in the cache, or is put there next. -/
theorem exec_known (f : ReferringMid has c) (top : c.stack = s :: rest) {row : TaskRow}
    (wrote : (exec H o c.db s).write = some (.task row)) (done : row.state.finished = true) :
    ((exec H o c.db s).db c.db).Knows row ∨
      ∃ build id output size, (exec H o c.db s).next = [.cachePut build id (row.key.getD []) output size] := by
  have refers := f.carried s (by simp [top])
  obtain ⟨t, ht, next, follows, rewrites⟩ := exec_rewrites wrote
  rw [follows]
  cases rewrites with
  | complete => exact Or.inr ⟨_, _, _, _, rfl⟩
  | retry =>
    rw [requeue_unfinished] at done
    cases done
  | fail | markReady => cases done
  | countDown => exact Or.inl (f.known_after (t := t) top o ht done)
  | markCached => exact Or.inl ((exec_remembers _).knows refers.2)

/-- The output that a statement puts into the cache. -/
theorem exec_held (f : ReferringMid has c) (top : c.stack = s :: rest) {row : CacheRow}
    (wrote : (exec H o c.db s).write = some (.cache row)) : has row.output = true := by
  have refers := f.carried s (by simp [top])
  cases exec_caches wrote with
  | put => exact refers
  | @hit _ _ _ _ row found => exact f.cache row (mem_of_cached? found).1

/-- What follows a statement. -/
theorem next_refers (f : ReferringMid has c) (top : c.stack = s :: rest) :
    ∀ n ∈ (exec H o c.db s).next, n.Refers has ((exec H o c.db s).db c.db) := by
  intro n member
  have refers := f.carried s (by simp [top])
  rcases exec_hands member with plain | hands
  · cases n with
    | complete | cachePut | markCached => cases plain
    | _ => trivial
  · cases hands with
    | put => exact refers
    | @mark _ _ _ _ row found =>
      have hit : c.db.outputs row.key = some row.output := by rw [Db.outputs, found]; rfl
      exact ⟨f.cache row (mem_of_cached? found).1, Option.isSome_iff_exists.mpr ⟨_, exec_remembers _ _ _ hit⟩⟩

theorem exec (hashes : ∀ d, has d = true → validHash d = true) (f : ReferringMid has c) (m : Mid H com c)
    (base : Consistent H com) (o : Options) (top : c.stack = s :: rest) :
    ReferringMid has (c.after (exec H o c.db s) rest) := by
  have carried : ∀ n ∈ (c.after (DistCompile.exec H o c.db s) rest).stack,
      n.Refers has ((DistCompile.exec H o c.db s).db c.db) := fun n member => by
    rcases List.mem_append.mp member with new | old
    · exact f.next_refers top n new
    · exact rest_carried m top _ n old
  have known : ∀ t ∈ c.db.tasks, t.state.finished = true →
      ((DistCompile.exec H o c.db s).db c.db).Knows t := fun t ht done => f.known_after top o ht done
  rcases write : (DistCompile.exec H o c.db s).write with _ | row | row | row
  · have same : (DistCompile.exec H o c.db s).db c.db = c.db := by rw [Outcome.db, write]; rfl
    exact ⟨fun r hr => f.cache r (by simpa [Cfg.after, same] using hr),
      fun t ht => f.rows t (by simpa [Cfg.after, same] using ht),
      fun t ht done => Or.inl (known t (by simpa [Cfg.after, same] using ht) done), carried⟩
  · have after : (DistCompile.exec H o c.db s).db c.db = c.db.apply (.task row) := by rw [Outcome.db, write]; rfl
    have origin : ∀ t ∈ ((DistCompile.exec H o c.db s).db c.db).tasks, t = row ∨ t ∈ c.db.tasks := by
      intro t ht
      rw [after] at ht
      obtain ⟨u, hu, rfl⟩ := List.mem_map.mp ht
      split
      · exact Or.inl rfl
      · exact Or.inr hu
    refine ⟨fun r hr => ?_, fun t ht => ?_, fun t ht done => ?_, carried⟩
    · exact f.cache r (by simpa [Cfg.after, after, Db.apply] using hr)
    · rcases origin t ht with rfl | old
      · exact f.exec_backed hashes m base top write
      · exact f.rows t old
    · rcases origin t ht with rfl | old
      · rcases f.exec_known top write done with there | ⟨build, id, output, size, next⟩
        · exact Or.inl there
        · exact Or.inr ⟨build, id, output, size, by simp [Cfg.after, next]⟩
      · exact Or.inl (known t old done)
  · have after : (DistCompile.exec H o c.db s).db c.db = c.db.apply (.build row) := by rw [Outcome.db, write]; rfl
    exact ⟨fun r hr => f.cache r (by simpa [Cfg.after, after, Db.apply] using hr),
      fun t ht => f.rows t (by simpa [Cfg.after, after, Db.apply] using ht),
      fun t ht done => Or.inl (known t (by simpa [Cfg.after, after, Db.apply] using ht) done), carried⟩
  · have after : (DistCompile.exec H o c.db s).db c.db = c.db.apply (.cache row) := by rw [Outcome.db, write]; rfl
    have tasks : ((DistCompile.exec H o c.db s).db c.db).tasks = c.db.tasks := by
      rw [after, Db.apply_cache_tasks]
    refine ⟨fun r hr => ?_, fun t ht => f.rows t (tasks ▸ ht), fun t ht done => Or.inl (known t (tasks ▸ ht) done),
      carried⟩
    change r ∈ ((DistCompile.exec H o c.db s).db c.db).cache at hr
    rw [after] at hr
    rcases Db.mem_apply_cache hr with rfl | old
    · exact f.exec_held top write
    · exact f.cache r old

end ReferringMid

/-! ### Every call -/

section Tables

variable {H : Sha256} {o : Options} {has : Str → Bool} {db : Db}

/-- A transaction that starts with one statement. -/
theorem Referring.run (hashes : ∀ d, has d = true → validHash d = true) (base : Consistent H db)
    (r : Referring has db) {s : Stmt} (start : Mid H db ⟨db, [s], []⟩) (refers : s.Refers has db) {fuel : Nat}
    {c : Cfg} (ran : DistCompile.run H o fuel ⟨db, [s], []⟩ = some c) : Referring has c.db := by
  have first : ReferringMid has ⟨db, [s], []⟩ :=
    ⟨r.cache, r.rows, fun t ht done => Or.inl (r.known t ht done), by simpa using refers⟩
  obtain ⟨⟨-, last⟩, empty⟩ := run_induction (P := fun c => Mid H db c ∧ ReferringMid has c)
    (fun ⟨m, f⟩ top => ⟨m.exec base o top, f.exec hashes m base o top⟩) ran ⟨start, first⟩
  refine ⟨last.cache, last.rows, fun t ht done => ?_⟩
  rcases last.known t ht done with known | ⟨_, _, _, _, next⟩
  · exact known
  · rw [empty] at next
    cases next

theorem Referring.maybeFinish (hashes : ∀ d, has d = true → validHash d = true) (base : Consistent H db)
    (r : Referring has db) (build : Nat) : Referring has (db.maybeFinish H o build) :=
  maybeFinish_induction (P := Referring has) r
    (r.run hashes base (Mid.start base (s := .progress build) trivial rfl rfl) trivial)

/-- Claims, heartbeats and the reaper. -/
theorem Referring.relabel (r : Referring has db) {f : TaskRow → TaskRow}
    (rows : ∀ t ∈ db.tasks, Relabel t (f t)) : Referring has { db with tasks := db.tasks.map f } := by
  refine ⟨r.cache, fun u hu => ?_, fun u hu done => ?_⟩
  · obtain ⟨t, ht, rfl⟩ := List.mem_map.mp hu
    have backed := r.rows t ht
    have same := rows t ht
    rcases same.state with unchanged | ⟨wasOpen, -, unfinished⟩
    · rw [unchanged]
      exact backed
    · refine ⟨fun _ => ?_, fun done => ?_, fun _ => ?_⟩
      · rw [same.key]
        exact backed.key (Or.inr wasOpen)
      · rw [unfinished] at done
        cases done
      · rw [TaskRow.digests, same.inputs]
        exact backed.inputs wasOpen
  · obtain ⟨t, ht, rfl⟩ := List.mem_map.mp hu
    have same := rows t ht
    rw [same.finished] at done
    rw [Db.Knows, same.key]
    exact r.known t ht done

/-- A compile task is queued only after its input was found. -/
theorem walk_uploaded {cache : Str → Option Str} {spec : BuildSpec} {order : List Nat} {w : Walk}
    (ran : walk H has cache spec order = .ok w) {i : Nat} {ts : TaskSpec} (found : spec.tasks[i]? = some ts)
    (compile : ts.kind = COMPILE) (ready : (w.row i).state = .ready) : has ts.input = true := by
  have kept : ∀ i, (w.row i).state = .ready → ∀ ts, spec.tasks[i]? = some ts → ts.kind = COMPILE →
      has ts.input = true := by
    refine foldlM_ok (P := fun w : Walk => ∀ i, (w.row i).state = .ready → ∀ ts, spec.tasks[i]? = some ts →
      ts.kind = COMPILE → has ts.input = true) (fun {v v' id} _ holds next => ?_) (fun _ ready => by cases ready) ran
    have updated {r : Resolved} := @Function.forall_update_iff _ _ _ v.row id r fun i r => r.state = .ready →
      ∀ ts, spec.tasks[i]? = some ts → ts.kind = COMPILE → has ts.input = true
    cases walkTask_visits next with
    | outside => exact holds
    | cached | waiting => exact updated.mpr ⟨fun ready => (by cases ready), fun i _ => holds i⟩
    | ready found _ _ uploaded =>
      refine updated.mpr ⟨fun _ ts' found' compile => ?_, fun i _ => holds i⟩
      obtain rfl := Option.some.inj (found.symm.trans found')
      exact uploaded compile
  exact kept i ready ts found compile

section Insert

variable {spec : BuildSpec} {order : List Nat} {rank part : Nat → Int} {w : Walk}

/-- A task that does not wait has its key. -/
theorem walked_key (good : badCompileTask spec = none) (topo : IsTopoOrder spec.graph order)
    (walked : Walked H db.outputs spec order w) {id : Nat} {ts : TaskSpec} (found : spec.tasks[id]? = some ts)
    (zero : ts.kind ≠ COMPILE → (w.row id).pending = 0) : (w.row id).key ≠ [] := by
  have s := settled_of_walked topo walked found
  by_cases compile : ts.kind = COMPILE
  · rw [s.key]
    simp only [resolveInputs, compile, if_true]
    exact validHash_ne_nil (compileTask_valid good (List.mem_of_getElem? found) compile).1
  · rw [s.key, (resolveInputs_action compile (s.pending ▸ zero compile)).1]
    exact actionKey_ne_nil H _ _ _ _ _

/-- An output that the walk found is that of a cache row. -/
theorem walked_output (r : Referring has db) (topo : IsTopoOrder spec.graph order)
    (walked : Walked H db.outputs spec order w) {id : Nat} {ts : TaskSpec} (found : spec.tasks[id]? = some ts)
    (filled : (w.row id).output ≠ []) : has (w.row id).output = true := by
  rcases (settled_of_walked topo walked found).state with ⟨-, -, hit⟩ | ⟨-, -, empty⟩ | ⟨-, -, empty⟩
  · obtain ⟨c, cached, same⟩ := Option.map_eq_some_iff.mp hit
    rw [← same]
    exact r.cache c (List.mem_of_find?_eq_some cached)
  · exact absurd empty filled
  · exact absurd empty filled

theorem Referring.insertRows (hashes : ∀ d, has d = true → validHash d = true) (base : Consistent H db)
    (r : Referring has db) (good : badCompileTask spec = none) (topo : IsTopoOrder spec.graph order)
    (ran : walk H has db.outputs spec order = .ok w) (walked : Walked H db.outputs spec order w) :
    Referring has (insertRows db spec rank part w) := by
  refine ⟨fun row hr => ?_, fun t ht => ?_, fun t ht done => ?_⟩
  · obtain ⟨c, hc, rfl⟩ := List.mem_map.mp hr
    split
    · exact r.cache c hc
    · exact r.cache c hc
  · rcases List.mem_append.mp ht with old | new
    · exact r.rows t old
    · obtain ⟨id, ts, found, rfl⟩ := mem_insertedTasks.mp new
      have s := settled_of_walked topo walked found
      have keyed : (ts.kind ≠ COMPILE → (w.row id).pending = 0) → emptyIsNull (w.row id).key ≠ none := by
        intro zero
        rw [emptyIsNull, if_neg (walked_key good topo walked found zero)]
        simp
      rcases s.state with ⟨state, zero, hit⟩ | ⟨state, zero, -⟩ | ⟨state, -, -⟩
      · have filled := validHash_ne_nil (outputs_valid base _ _ hit)
        refine ⟨fun _ => keyed zero, fun _ => ⟨(w.row id).output, ?_, walked_output r topo walked found filled⟩,
          fun isOpen => ?_⟩
        · simp only [insertedTask, emptyIsNull, if_neg filled]
        · simp only [insertedTask, state] at isOpen
          cases isOpen
      · refine ⟨fun _ => keyed fun _ => zero, fun done => ?_, fun _ => ?_⟩
        · simp only [insertedTask, state] at done
          cases done
        · have column : (emptyIsNull (w.row id).inputs).getD [] = (w.row id).inputs := by
            rw [emptyIsNull]
            split
            · rename_i empty
              rw [empty]
              rfl
            · rfl
          by_cases compile : ts.kind = COMPILE
          · refine ReferringMid.digests_joined [ts.input] ?_ (fun d hd => ?_) hashes
            · refine column.trans (s.inputs.trans ?_)
              simp [resolveInputs, compile, joinLines]
            · obtain rfl := List.mem_singleton.mp hd
              exact walk_uploaded ran found compile state
          · refine ReferringMid.digests_joined (ts.depIds.map fun d => (w.row d).output) ?_
              (fun d hd => ?_) hashes
            · exact column.trans (s.inputs.trans (resolveInputs_action compile (s.pending ▸ zero)).2.1)
            · obtain ⟨d, edge, rfl⟩ := List.mem_map.mp hd
              obtain ⟨td, dep⟩ := dep_found topo found edge
              refine walked_output r topo walked dep ?_
              have none_missing := s.pending.symm.trans zero
              rw [resolveInputs_pending_eq, List.countP_eq_zero] at none_missing
              simpa using none_missing d edge
      · refine ⟨fun settled => ?_, fun done => ?_, fun isOpen => ?_⟩
        · simp only [insertedTask, state] at settled
          rcases settled with done | isOpen
          · cases done
          · cases isOpen
        · simp only [insertedTask, state] at done
          cases done
        · simp only [insertedTask, state] at isOpen
          cases isOpen
  · rcases List.mem_append.mp ht with old | new
    · exact insertRows_remembers.knows (r.known t old done)
    · obtain ⟨id, ts, found, rfl⟩ := mem_insertedTasks.mp new
      rcases (settled_of_walked topo walked found).state with ⟨-, zero, hit⟩ | ⟨state, -⟩ | ⟨state, -⟩
      · have key : (insertedTask spec rank part db.nextBuild (db.nextUid + id) w.row ts id).key.getD [] =
            (w.row id).key := by
          simp only [insertedTask, emptyIsNull, if_neg (walked_key good topo walked found zero),
            Option.getD_some]
        rw [Db.Knows, key]
        exact Option.isSome_iff_exists.mpr ⟨_, insertRows_remembers _ _ hit⟩
      · simp only [insertedTask, state] at done
        cases done
      · simp only [insertedTask, state] at done
        cases done

end Insert

theorem Referring.submitBuild (hashes : ∀ d, has d = true → validHash d = true) (base : Consistent H db)
    (r : Referring has db) {live : Int} {spec : BuildSpec} (flat : spec.Flat) :
    Referring has (submitBuild H o has db live spec).1 := by
  rcases ran : DistCompile.submitBuild H o has db live spec with ⟨db', e | ⟨build, cached⟩⟩
  · obtain ⟨builds, uids, rfl⟩ := submitBuild_error ran
    exact ⟨r.cache, r.rows, r.known⟩
  · obtain ⟨good, -, order, rank, part, w, accepted, walk, unique, rfl⟩ := submitBuild_ok ran
    have topo := topoOrder_ok accepted
    have walked := walk_walked topo walk
    exact (r.insertRows hashes base good topo walk walked).maybeFinish hashes
      (base.insertRows (flat.supplies _) topo walked unique) _

end Tables

/-! ### Every run -/

/-- Compile tasks have no dependencies, archives and links have some. -/
def BuildSpec.Layered (spec : BuildSpec) : Prop := ∀ ts ∈ spec.tasks, ts.kind = COMPILE ↔ ts.deps = []

def Call.Layered : Call → Prop
  | .submitBuild spec _ _ => spec.Layered
  | _ => True

instance : DecidablePred BuildSpec.Layered := fun spec =>
  inferInstanceAs (Decidable (∀ ts ∈ spec.tasks, ts.kind = COMPILE ↔ ts.deps = []))

instance : DecidablePred Call.Layered
  | .submitBuild spec _ _ => inferInstanceAs (Decidable spec.Layered)
  | .putBlob _ _ _ | .claimTask _ _ _ _ _ | .claimCrash _ _ _ _ _ | .completeTask _ _ _ | .heartbeat _ _
  | .reap _ => isTrue trivial

theorem Call.Layered.flat {call : Call} (layered : call.Layered) : call.Flat := by
  cases call with
  | submitBuild spec live reply => exact fun ts member => (layered ts member).mp
  | _ => trivial

/-- The specs of `dcc` are layered. -/
theorem buildSpec_layered {glob : Str → List Str} {m : Manifest} (valid : m.Valid glob) (toolchain : Str)
    (partitions : Int) (p : Prepared) : (buildSpec m toolchain partitions p).Layered := by
  have some_source : ∀ t ∈ m.targets, objectDeps (unitTask m toolchain p) t ≠ [] := by
    intro t ht none
    obtain ⟨s, hs⟩ := List.exists_mem_of_ne_nil _ (valid.targets t ht).sources
    have member : unitTask m toolchain p s ∈ objectDeps (unitTask m toolchain p) t :=
      mem_objectDeps.mpr ⟨s, hs, rfl⟩
    rw [none] at member
    cases member
  intro ts member
  obtain ⟨id, found⟩ := List.mem_iff_getElem?.mp member
  cases emitted_of_mem valid.names found with
  | compile _ _ => exact iff_of_true rfl rfl
  | archive ht _ =>
    refine iff_of_false (show (ARCHIVE : TaskKind) ≠ COMPILE by decide) ?_
    simpa [archiveTask] using some_source _ ht
  | link ht _ =>
    refine iff_of_false (show (LINK : TaskKind) ≠ COMPILE by decide) ?_
    simp [linkTask, some_source _ ht]

/-- Every reference in the tables is good. -/
structure Coordinator.Intact (c : Coordinator) : Prop where
  cache : ∀ row ∈ c.db.cache, validHash row.output = true ∧ c.blobs.has row.output = true
  output : ∀ t ∈ c.db.tasks, t.state = .done ∨ t.state = .cached →
    ∃ output, t.output = some output ∧ validHash output = true ∧ c.blobs.has output = true
  cached : ∀ t ∈ c.db.tasks, t.state = .done ∨ t.state = .cached →
    ∃ key, t.key = some key ∧ ∃ row ∈ c.db.cache, row.key = key
  queued : ∀ t ∈ c.db.tasks, t.state = .ready ∨ t.state = .running →
    t.key ≠ none ∧ ∀ d ∈ t.digests, c.blobs.has d = true

section Runs

variable {H : Sha256} {o : Options} {calls : List Call} {call : Call} {c c' : Coordinator}

theorem Blobs.has_valid {blobs : Blobs} {hash : Str} (has : blobs.has hash = true) : validHash hash = true := by
  rw [Blobs.has, Bool.and_eq_true] at has
  exact has.1

theorem Referring.mono {has has' : Str → Bool} {db : Db} (r : Referring has db)
    (more : ∀ hash, has hash = true → has' hash = true) : Referring has' db where
  cache row hr := more _ (r.cache row hr)
  rows t ht :=
    ⟨(r.rows t ht).key, fun done => ((r.rows t ht).output done).imp fun _ h => ⟨h.1, more _ h.2⟩,
      fun isOpen d hd => more d ((r.rows t ht).inputs isOpen d hd)⟩
  known := r.known

theorem Referring.intact (r : Referring c.blobs.has c.db) : c.Intact := by
  have finished : ∀ t : TaskRow, t.state = .done ∨ t.state = .cached → t.state.finished = true := by
    rintro t (done | cached)
    · rw [done]
      rfl
    · rw [cached]
      rfl
  refine ⟨fun row hr => ⟨Blobs.has_valid (r.cache row hr), r.cache row hr⟩, fun t ht done => ?_,
    fun t ht done => ?_, fun t ht queued => ?_⟩
  · obtain ⟨output, stored, held⟩ := (r.rows t ht).output (finished t done)
    exact ⟨output, stored, Blobs.has_valid held, held⟩
  · obtain ⟨key, stored⟩ := Option.ne_none_iff_exists'.mp ((r.rows t ht).key (Or.inl (finished t done)))
    obtain ⟨output, hit⟩ := Option.isSome_iff_exists.mp (r.known t ht (finished t done))
    obtain ⟨row, found, -⟩ := Option.map_eq_some_iff.mp hit
    rw [stored, Option.getD_some] at found
    exact ⟨key, stored, row, List.mem_of_find?_eq_some found, by simpa using List.find?_some found⟩
  · have isOpen : t.state.open = true := by
      rcases queued with ready | running
      · rw [ready]
        rfl
      · rw [running]
        rfl
    exact ⟨(r.rows t ht).key (Or.inr isOpen), (r.rows t ht).inputs isOpen⟩

theorem Step.referring (step : Step H o c call c') (flat : call.Flat) (base : Consistent H c.db)
    (r : Referring c.blobs.has c.db) : Referring c'.blobs.has c'.db := by
  have hashes : ∀ d, c.blobs.has d = true → validHash d = true := fun _ => Blobs.has_valid
  cases step with
  | putBlob put => exact r.mono fun _ => Blobs.has_after_put put
  | putRefused _ => exact r
  | submitBuild => exact r.submitBuild hashes base flat
  | claimTask picked _ | claimCrash picked _ =>
    obtain ⟨ht, ready, -⟩ := mem_of_picked picked
    exact r.relabel fun _ hu => base.keyed.of_written ht rfl (claimedRow_relabel ready) .refl hu
  | claimNothing _ => exact r
  | @completeTask result now _ cfg ran =>
    obtain ⟨s, stack, start⟩ := completeTask_start base c.blobs now result
    have refers : s.Refers c.blobs.has c.db := by
      unfold DistCompile.completeTask at stack
      split_ifs at stack with missing ok retryable
      · cases stack
        trivial
      · cases stack
        simpa [ok, Stmt.Refers] using missing
      · cases stack
        trivial
      · cases stack
        trivial
    rw [stack] at ran
    exact r.run hashes base start refers ran
  | heartbeat => exact r.relabel fun t _ => heartbeatRow_relabel o _ _ t
  | @reap now =>
    have rows := fun t (_ : t ∈ c.db.tasks) => reapRow_relabel o now t
    exact (reap_induction (H := H) (o := o) (P := fun db => Consistent H db ∧ Referring c.blobs.has db)
      (fun build ⟨base, r⟩ => ⟨(base.maybeFinish build).2, r.maybeFinish hashes base build⟩)
      ⟨base.relabel rows, r.relabel rows⟩).2

theorem Runs.layered (run : Runs (Meets (Step H o) fun _ call => call.Layered) {} calls c) :
    Runs (Meets (Step H o) fun _ call => call.Flat) {} calls c ∧
      ∀ spec ∈ submitted calls, spec.Layered := by
  induction run with
  | nil => exact ⟨.nil, by simp [submitted]⟩
  | @snoc a b calls call _ last ih =>
    refine ⟨ih.1.snoc ⟨last.1.flat, last.2⟩, fun spec member => ?_⟩
    rw [submitted, List.filterMap_append] at member
    rcases List.mem_append.mp member with old | new
    · exact ih.2 spec old
    · cases call with
      | submitBuild spec' live reply =>
        obtain rfl := List.mem_singleton.mp new
        exact last.1
      | _ => cases new

theorem Runs.referring (run : Runs (Meets (Step H o) fun _ call => call.Flat) {} calls c) :
    Consistent H c.db ∧ Referring c.blobs.has c.db :=
  run.invariant (P := fun c => Consistent H c.db ∧ Referring c.blobs.has c.db)
    ⟨Consistent.empty H, by simp, by simp, by simp⟩
    fun step holds => ⟨step.2.consistent step.1 holds.1, step.2.referring step.1 holds.1 holds.2⟩

/-- The inputs column of a ready task of a layered spec is not NULL. -/
theorem inputs_stored {env : Nat → Option BuildSpec} {db : Db} (base : Consistent H db)
    (placed : ∀ t ∈ db.tasks, Placed env db t) (layered : ∀ b spec, env b = some spec → spec.Layered)
    {t : TaskRow} (ht : t ∈ db.tasks) (ready : t.state = .ready) : t.inputs ≠ none := by
  obtain ⟨spec, ts, hb, found, built, inputs⟩ := placed t ht
  have shape := layered _ _ hb ts (List.mem_of_getElem? found)
  by_cases compile : ts.kind = COMPILE
  · rw [(built.compile compile).2.1]
    simp
  · have settled : t.state ≠ .waiting := by rw [ready]; simp
    have valid := base.inputs_valid ht settled
    have cols := base.columns t ht settled (built.kind ▸ compile)
    have some_dep : db.inputDigests t.slot ≠ [] := by
      intro none
      have names := inputNames_eq placed base.keyed base.linked hb inputs
      rw [Db.inputDigests, List.map_eq_nil_iff] at none
      rw [Db.inputNames, none] at names
      exact compile (shape.mpr (by simpa [TaskSpec.depIds] using names.symm))
    rw [stores_text (cols.inputs (by rw [ready]; rfl))
      (joinLines_ne_nil some_dep fun l hl => validHash_ne_nil (valid l hl))]
    simp

/-- In every state that calls with layered specs reach, whatever the tables refer to is
stored, and what a claim hands out can be fetched from then on. -/
theorem references_hold (run : Runs (Meets (Step H o) fun _ call => call.Layered) {} calls c) :
    c.Intact ∧ ∀ worker toolchain part now a c', Step H o c (.claimTask worker toolchain part now (some a)) c' →
      ∀ later c'', Runs (Step H o) c' later c'' → ∀ d ∈ a.inputs, c''.blobs.get d ≠ none := by
  obtain ⟨flat, layered⟩ := Runs.layered run
  obtain ⟨base, referring⟩ := Runs.referring flat
  refine ⟨referring.intact, fun worker toolchain part now a c' claim later c'' rest d hd => ?_⟩
  cases claim with
  | @claimTask _ _ _ _ t picked =>
    obtain ⟨ht, ready, -⟩ := mem_of_picked picked
    have column := inputs_stored base (Runs.recorded flat).placed
      (fun b spec found => layered spec (mem_submitted found)) ht ready
    obtain ⟨text, stored⟩ := Option.ne_none_iff_exists'.mp column
    have digest : d ∈ t.digests := by
      simpa [assignmentOf, claimedRow, stored, TaskRow.digests] using hd
    have held := (referring.intact.queued t ht (Or.inl ready)).2 d digest
    exact Blobs.get_of_has (rest.invariant (P := fun c => c.blobs.has d = true) held
      fun step held => step.holds held)

end Runs

theorem tidyRequests_layered :
    (serveAll sampleSha {} {} tidyRequests).any (fun r => r.1.all (fun call => call.Layered) &&
      (serve sampleSha {} r.2 (.claimTask "w".toList "gcc".toList 0 0 2)).any fun r' =>
        r'.1.assignment.any fun a => a.kind = ARCHIVE && a.inputs = [sampleOutput]) = true := by
  decide +kernel

/-- The claim of a library: its object can be fetched. -/
theorem references_hold_library :
    ∃ calls c c' a, Runs (Meets (Step sampleSha {}) fun _ call => call.Layered) {} calls c ∧
      Step sampleSha {} c (.claimTask "w".toList "gcc".toList 0 0 (some a)) c' ∧
      a.inputs = [sampleOutput] ∧ c.Intact ∧ c'.blobs.get sampleOutput ≠ none := by
  obtain ⟨⟨calls, c⟩, served, holds⟩ := (Option.any_eq_true _ _).mp tidyRequests_layered
  rw [Bool.and_eq_true, List.all_eq_true] at holds
  obtain ⟨layered, claimed⟩ := holds
  obtain ⟨⟨call, c'⟩, served', assigned⟩ := (Option.any_eq_true _ _).mp claimed
  obtain ⟨a, found, facts⟩ := (Option.any_eq_true _ _).mp assigned
  obtain rfl := serve_claim served' found
  simp only [Bool.and_eq_true, decide_eq_true_eq] at facts
  have run := (serveAll_runs served).meets fun call member => of_decide_eq_true (layered call member)
  obtain ⟨intact, fetched⟩ := references_hold run
  exact ⟨calls, c, c', a, run, serve_step served', facts.2, intact,
    fetched _ _ _ _ _ _ (serve_step served') [] c' .nil sampleOutput (by simp [facts.2])⟩

end DistCompile
