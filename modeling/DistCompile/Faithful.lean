import DistCompile.Placed
import DistCompile.Reference

/-!
Every stored output is the reference value of its task.

`Faithful` ties the tables to the specs of the builds (`env`): a row has the
columns of its task and its edges in the order of the spec, the output of a
finished row is the digest of the reference value, and a cache row holds the
reference output of some task with that key. That equal keys mean equal
reference values (`reference_of_taskKey`) is where the framing of the hash, the
shape of the specs and the agreement of compile keys come in; a cache hit is then
as good as a run. The statements of a completion keep this, whichever route the
output takes.
-/

namespace DistCompile

open DistCompile.Lib DistCompile.Graph

/-! ### Specs of the shape `dcc` emits -/

/-- A task as `dcc` makes it. Compile keys come from `compile_key`. -/
structure TaskSpec.Shaped (H : Sha256) (ts : TaskSpec) : Prop where
  compile : ts.kind = COMPILE → ts.deps = [] ∧ ∃ parts,
    ts.key = sha256HexParts H ("dc-compile-v1".toList :: parts) ∧ ∀ p ∈ parts, Fits p
  action : ts.kind ≠ COMPILE → (ts.kind = ARCHIVE ∨ ts.kind = LINK) ∧ ts.deps ≠ [] ∧ ts.deps.Nodup
  name : ts.name ≠ [] ∧ '\n' ∉ ts.name ∧ Fits ts.name
  args : ∀ a ∈ ts.args, a ≠ [] ∧ '\n' ∉ a
  fits : Fits (joinLines ts.args)

structure BuildSpec.Shaped (H : Sha256) (spec : BuildSpec) : Prop where
  toolchain : Fits spec.toolchain
  tasks : ∀ ts ∈ spec.tasks, ts.Shaped H

theorem BuildSpec.Shaped.flat {H : Sha256} {spec : BuildSpec} (shaped : spec.Shaped H) : spec.Flat :=
  fun ts member compile => ((shaped.tasks ts member).compile compile).1

section Keys

variable (H : Sha256) (blob : Str → Str) (tool : Tool)

/-- The digest of a task's reference output. -/
def refDigest (spec : BuildSpec) (id : Nat) : Str := H.hex (reference blob tool spec id)

/-- The key of a task whose inputs are the reference outputs. -/
def taskKey (spec : BuildSpec) (ts : TaskSpec) : Str :=
  if ts.kind = COMPILE then ts.key
  else actionKey H ts.kind spec.toolchain (joinLines ts.args) (ts.depIds.map spec.flatNameOf)
    (ts.depIds.map (refDigest H blob tool spec))

/-- The specs behind the builds: shaped, accepted, and with compile keys that
determine the result of the run. -/
structure Lawful (env : Nat → Option BuildSpec) : Prop where
  shaped : ∀ b spec, env b = some spec → spec.Shaped H
  accepted : ∀ b spec, env b = some spec → ∃ order, topoOrder spec.graph = .ok order
  inputs : ∀ b spec, env b = some spec → ∀ ts ∈ spec.tasks, ts.kind = COMPILE →
    validHash ts.input = true
  agree : ∀ b b' spec spec', env b = some spec → env b' = some spec' →
    ∀ ts ∈ spec.tasks, ∀ ts' ∈ spec'.tasks, ts.kind = COMPILE → ts'.kind = COMPILE →
      ts.key = ts'.key → runTask blob tool spec (fun _ => []) ts =
        runTask blob tool spec' (fun _ => []) ts'

/-- Task `id` of `spec` has reference digests that can be stored as its inputs. -/
def InputsValid (spec : BuildSpec) (ts : TaskSpec) : Prop :=
  ∀ d ∈ ts.depIds, validHash (refDigest H blob tool spec d) = true

/-- What a cache row holds: the output of a task with that key. -/
def SoundPair (env : Nat → Option BuildSpec) (key output : Str) : Prop :=
  ∃ b spec id ts, env b = some spec ∧ spec.tasks[id]? = some ts ∧
    InputsValid H blob tool spec ts ∧ key = taskKey H blob tool spec ts ∧
    output = refDigest H blob tool spec id

end Keys

/-! ### Equal keys, equal outputs -/

section Determined

variable {H : Sha256} {blob : Str → Str} {tool : Tool} {env : Nat → Option BuildSpec}

theorem runTask_compile {spec : BuildSpec} {ts : TaskSpec} (compile : ts.kind = COMPILE)
    (val val' : Nat → Str) : runTask blob tool spec val ts = runTask blob tool spec val' ts := by
  simp [runTask, inputFiles, compile]

/-- Names and digests can be read back from the parts of an action key. -/
private theorem pairs_inj {v w : List (Str × Str)}
    (same : (v.flatMap fun p => [p.1, p.2]) = w.flatMap fun p => [p.1, p.2]) : v = w := by
  induction v generalizing w with
  | nil =>
    cases w with
    | nil => rfl
    | cons q w => simp at same
  | cons p v ih =>
    cases w with
    | nil => simp at same
    | cons q w =>
      simp only [List.flatMap_cons, List.cons_append, List.nil_append, List.cons.injEq] at same
      obtain ⟨first, second, rest⟩ := same
      rw [ih rest, Prod.ext first second]

theorem decimal_action {k k' : TaskKind} (hk : k = ARCHIVE ∨ k = LINK) (hk' : k' = ARCHIVE ∨ k' = LINK)
    (same : decimal k = decimal k') : k = k' := by
  rcases hk with rfl | rfl <;> rcases hk' with rfl | rfl
  · rfl
  · exact absurd same (by decide)
  · exact absurd same (by decide)
  · rfl

/-- The parts behind an action key all fit. -/
theorem actionParts_fits {spec : BuildSpec} (shaped : spec.Shaped H) {order : List Nat}
    (topo : IsTopoOrder spec.graph order) {id : Nat} {ts : TaskSpec}
    (found : spec.tasks[id]? = some ts) (action : ts.kind ≠ COMPILE)
    (valid : InputsValid H blob tool spec ts) :
    ∀ p ∈ actionParts ts.kind spec.toolchain (joinLines ts.args) (ts.depIds.map spec.flatNameOf)
      (ts.depIds.map (refDigest H blob tool spec)), Fits p := by
  have task := shaped.tasks ts (List.mem_of_getElem? found)
  intro p hp
  simp only [actionParts, List.cons_append, List.nil_append, List.mem_cons] at hp
  rcases hp with rfl | rfl | rfl | rfl | pair
  · decide
  · rcases (task.action action).1 with kind | kind <;> rw [kind] <;> decide
  · exact shaped.toolchain
  · exact task.fits
  · obtain ⟨⟨name, digest⟩, member, here⟩ := List.mem_flatMap.mp pair
    rw [List.zip_map'] at member
    obtain ⟨d, hd, same⟩ := List.mem_map.mp member
    simp only [Prod.mk.injEq] at same
    obtain ⟨td, dep⟩ := dep_found topo found hd
    simp only [List.mem_cons, List.not_mem_nil, or_false] at here
    rcases here with rfl | rfl
    · rw [← same.1, flatNameOf_found dep, Fits, length_flatName]
      exact (shaped.tasks td (List.mem_of_getElem? dep)).name.2.2
    · rw [← same.2]
      exact validHash_fits (valid d hd)

/-- A compile key is no action key: the first parts differ. -/
theorem compile_ne_action (free : H.CollisionFree) {parts parts' : List Str}
    (hp : ∀ p ∈ parts, Fits p) (hp' : ∀ p ∈ "dc-action-v1".toList :: parts', Fits p) :
    sha256HexParts H ("dc-compile-v1".toList :: parts) ≠
      sha256HexParts H ("dc-action-v1".toList :: parts') := by
  intro same
  have first := congrArg List.head? (sha256HexParts_inj free
    (fun p member => (List.mem_cons.mp member).elim (fun h => h ▸ by decide) (hp p)) hp' same)
  rw [List.head?_cons, List.head?_cons] at first
  exact absurd first (by decide)

/-- Tasks with equal keys have equal reference outputs. -/
theorem reference_of_taskKey (free : H.CollisionFree) (lawful : Lawful H blob tool env)
    {b b' : Nat} {spec spec' : BuildSpec} {id id' : Nat} {ts ts' : TaskSpec}
    (hb : env b = some spec) (hb' : env b' = some spec') (found : spec.tasks[id]? = some ts)
    (found' : spec'.tasks[id']? = some ts') (valid : InputsValid H blob tool spec ts)
    (valid' : InputsValid H blob tool spec' ts')
    (same : taskKey H blob tool spec ts = taskKey H blob tool spec' ts') :
    reference blob tool spec id = reference blob tool spec' id' := by
  obtain ⟨order, accepted⟩ := lawful.accepted b spec hb
  obtain ⟨order', accepted'⟩ := lawful.accepted b' spec' hb'
  have shaped := lawful.shaped b spec hb
  have shaped' := lawful.shaped b' spec' hb'
  have member := List.mem_of_getElem? found
  have member' := List.mem_of_getElem? found'
  rw [reference_eq accepted found, reference_eq accepted' found']
  unfold taskKey at same
  by_cases compile : ts.kind = COMPILE
  · obtain ⟨-, parts, key, fits⟩ := (shaped.tasks ts member).compile compile
    by_cases compile' : ts'.kind = COMPILE
    · rw [if_pos compile, if_pos compile'] at same
      rw [runTask_compile compile _ fun _ => [], runTask_compile compile' _ fun _ => []]
      exact lawful.agree b b' spec spec' hb hb' ts member ts' member' compile compile' same
    · rw [if_pos compile, if_neg compile', key] at same
      exact absurd same (compile_ne_action free fits
        (actionParts_fits shaped' (topoOrder_ok accepted') found' compile' valid'))
  · have fits := actionParts_fits shaped (topoOrder_ok accepted) found compile valid
    by_cases compile' : ts'.kind = COMPILE
    · obtain ⟨-, parts, key, fits'⟩ := (shaped'.tasks ts' member').compile compile'
      rw [if_neg compile, if_pos compile', key] at same
      exact absurd same.symm (compile_ne_action free fits' fits)
    · have fits' := actionParts_fits shaped' (topoOrder_ok accepted') found' compile' valid'
      rw [if_neg compile, if_neg compile'] at same
      have parts := sha256HexParts_inj free fits fits' same
      simp only [actionParts, List.cons_append, List.nil_append, List.cons.injEq, true_and] at parts
      obtain ⟨kind, toolchain, args, inputs⟩ := parts
      have kinds := decimal_action ((shaped.tasks ts member).action compile).1
        ((shaped'.tasks ts' member').action compile').1 kind
      have sameArgs : ts.args = ts'.args := joinLines_inj
        (fun a ha => ((shaped.tasks ts member).args a ha).2)
        (fun a ha => ((shaped.tasks ts member).args a ha).1)
        (fun a ha => ((shaped'.tasks ts' member').args a ha).2)
        (fun a ha => ((shaped'.tasks ts' member').args a ha).1) args
      -- equal names and equal digests are equal names and equal values
      have files := pairs_inj inputs
      rw [List.zip_map', List.zip_map'] at files
      have values : (ts.depIds.map fun d => (spec.flatNameOf d, reference blob tool spec d)) =
          ts'.depIds.map fun d => (spec'.flatNameOf d, reference blob tool spec' d) := by
        have inj : Function.Injective fun p : Str × Str => (p.1, H.hex p.2) := by
          rintro ⟨n, v⟩ ⟨n', v'⟩ same
          simp only [Prod.mk.injEq] at same
          exact Prod.ext same.1 (free same.2)
        refine List.map_injective_iff.mpr inj ?_
        rw [List.map_map, List.map_map]
        exact files
      simp only [runTask, inputFiles, if_neg compile', values, sameArgs, kinds,
        toolchain]

theorem SoundPair.output_eq (free : H.CollisionFree) (lawful : Lawful H blob tool env)
    {key output : Str} (sound : SoundPair H blob tool env key output) {b id : Nat}
    {spec : BuildSpec} {ts : TaskSpec} (hb : env b = some spec) (found : spec.tasks[id]? = some ts)
    (valid : InputsValid H blob tool spec ts) (same : key = taskKey H blob tool spec ts) :
    output = refDigest H blob tool spec id := by
  obtain ⟨b', spec', id', ts', hb', found', valid', key', rfl⟩ := sound
  rw [refDigest, refDigest, reference_of_taskKey free lawful hb' hb found' found valid' valid
    (key'.symm.trans same)]

end Determined

/-! ### Rows and their tasks -/

/-- The tables tell the truth about the specs. -/
structure Faithful (H : Sha256) (blob : Str → Str) (tool : Tool) (env : Nat → Option BuildSpec)
    (db : Db) : Prop where
  placed : ∀ t ∈ db.tasks, Placed env db t
  outputs : ∀ t ∈ db.tasks, t.state.finished = true → ∀ spec, env t.buildId = some spec →
    t.output = some (refDigest H blob tool spec t.id)
  cache : ∀ row ∈ db.cache, SoundPair H blob tool env row.key row.output

section Inputs

variable {H : Sha256} {blob : Str → Str} {tool : Tool} {env : Nat → Option BuildSpec} {db : Db}

/-- Once the dependencies are finished, the digests are the reference ones. -/
theorem Faithful.inputDigests (f : Faithful H blob tool env db) (k : db.Keyed) (l : db.Linked)
    {t : TaskRow} {spec : BuildSpec} {ts : TaskSpec} (hb : env t.buildId = some spec)
    (inputs : db.inputIds t.slot = ts.depIds)
    (ready : ∀ d ∈ db.deps, d.target = t.slot → db.Finished d.source) :
    db.inputDigests t.slot = ts.depIds.map (refDigest H blob tool spec) := by
  refine map_inputsOf f.placed k l hb inputs _ _ fun u hu build edge _ _ _ => ?_
  obtain ⟨d, hd, target, source⟩ := edge
  obtain ⟨v, hv, slot, done⟩ := ready d hd target
  rw [k.slot_inj hv hu (slot.trans source)] at done
  rw [f.outputs u hu done spec (build ▸ hb), Option.getD_some]

/-- The key a ready action gets is the key of its task. -/
theorem Faithful.keyOf (f : Faithful H blob tool env db) (k : db.Keyed) (l : db.Linked)
    {t : TaskRow} {spec : BuildSpec} {ts : TaskSpec} (hb : env t.buildId = some spec)
    (built : Built spec ts t) (action : t.kind ≠ COMPILE) (inputs : db.inputIds t.slot = ts.depIds)
    (ready : ∀ d ∈ db.deps, d.target = t.slot → db.Finished d.source) :
    db.keyOf H t = taskKey H blob tool spec ts := by
  rw [built.kind] at action
  rw [Db.keyOf, inputNames_eq f.placed k l hb inputs, f.inputDigests k l hb inputs ready, taskKey,
    if_neg action, built.kind, built.args, built.toolchain]

/-- Outputs of finished dependencies can be stored as inputs. -/
theorem Faithful.inputsValid (f : Faithful H blob tool env db)
    (output : ∀ t ∈ db.tasks, t.state.finished = true → HasOutput t) {t : TaskRow}
    {spec : BuildSpec} {ts : TaskSpec} (hb : env t.buildId = some spec)
    (inputs : db.inputIds t.slot = ts.depIds)
    (ready : ∀ d ∈ db.deps, d.target = t.slot → db.Finished d.source) :
    InputsValid H blob tool spec ts := by
  intro id hid
  rw [← inputs, Db.inputIds] at hid
  obtain ⟨d, hd, rfl⟩ := List.mem_map.mp hid
  rw [List.mem_insertionSort, List.mem_filter] at hd
  obtain ⟨member, target⟩ := hd
  simp only [Bool.and_eq_true, decide_eq_true_eq] at target
  obtain ⟨u, hu, slot, done⟩ := ready d member (by simp [TaskDep.target, target])
  obtain ⟨digest, stored, valid⟩ := output u hu done
  have build : u.buildId = t.buildId := (congrArg Prod.fst slot).trans target.1
  have id : u.id = d.dep := congrArg Prod.snd slot
  have right := f.outputs u hu done spec (build ▸ hb)
  rw [stored, id, Option.some.injEq] at right
  rw [right] at valid
  exact valid

end Inputs

/-! ### The statements of a completion -/

/-- What the values carried by a statement stand for. -/
def Stmt.Sound (H : Sha256) (blob : Str → Str) (tool : Tool) (env : Nat → Option BuildSpec)
    (db : Db) : Stmt → Prop
  | .complete r _ => ∀ t ∈ db.tasks, t.uid = r.taskUid → ∀ spec, env t.buildId = some spec →
      r.output = refDigest H blob tool spec t.id
  | .cachePut _ _ key output _ => SoundPair H blob tool env key output
  | .markCached build id _ output => ∀ spec, env build = some spec →
      output = refDigest H blob tool spec id
  | _ => True

section Statements

variable {H : Sha256} {blob : Str → Str} {tool : Tool} {env : Nat → Option BuildSpec} {db : Db}

/-- A row version whose output, if it is finished, is right. -/
theorem Faithful.write (f : Faithful H blob tool env db) {t row : TaskRow} (ht : t ∈ db.tasks)
    (fixed : row.fixed = t.fixed)
    (right : row.state.finished = true → ∀ spec, env row.buildId = some spec →
      row.output = some (refDigest H blob tool spec row.id)) :
    Faithful H blob tool env (db.apply (.task row)) where
  placed u hu := by
    rcases (Db.mem_apply_task ht fixed).mp hu with rfl | ⟨old, -⟩
    · exact (f.placed t ht).of_fixed rfl fixed
    · exact (f.placed u old).of_fixed rfl rfl
  outputs u hu := by
    rcases (Db.mem_apply_task ht fixed).mp hu with rfl | ⟨old, -⟩
    · exact right
    · exact f.outputs u old
  cache := f.cache

/-- An outcome that writes no task, and only what is sound into the cache. -/
theorem Faithful.quiet (f : Faithful H blob tool env db) {out : Outcome} (q : out.Quiet)
    (sound : ∀ row, out.write = some (.cache row) → SoundPair H blob tool env row.key row.output) :
    Faithful H blob tool env (out.db db) where
  placed t ht := (f.placed t (q.tasks db ▸ ht)).of_fixed (q.deps db) rfl
  outputs t ht := f.outputs t (q.tasks db ▸ ht)
  cache := by
    obtain ⟨write, next, event⟩ := out
    rcases write with _ | row | row | row
    · exact f.cache
    · exact absurd rfl (q.task row)
    · exact f.cache
    · intro r hr
      rcases Db.mem_apply_cache hr with rfl | old
      · exact sound r rfl
      · exact f.cache r old

/-- What the task in a slot is: its spec, and that its inputs are known. -/
theorem Faithful.action (f : Faithful H blob tool env db) {com : Db} {c : Cfg} (here : c.db = db)
    (m : Mid H com c) (base : Consistent H com) {t : TaskRow} (ht : t ∈ db.tasks)
    (action : t.kind ≠ COMPILE) (settled : ¬ 0 < t.pendingDeps) :
    ∃ spec ts, env t.buildId = some spec ∧ spec.tasks[t.id]? = some ts ∧
      InputsValid H blob tool spec ts ∧ db.keyOf H t = taskKey H blob tool spec ts := by
  subst here
  have k := m.keyed base.keyed
  have l := m.grows.linked base.linked
  have ready := m.ready base ht settled
  obtain ⟨spec, ts, hb, found, built, inputs⟩ := f.placed t ht
  exact ⟨spec, ts, hb, found, f.inputsValid m.output hb inputs ready,
    f.keyOf k l hb built action inputs ready⟩

/-- The key and output an accepted result puts into the cache. -/
theorem Faithful.completed (f : Faithful H blob tool env db) (lawful : Lawful H blob tool env)
    {com : Db} {c : Cfg} (here : c.db = db) (m : Mid H com c) (base : Consistent H com) {t : TaskRow}
    (ht : t ∈ db.tasks) (wasOpen : t.state.open = true) {output : Str}
    (right : ∀ spec, env t.buildId = some spec → output = refDigest H blob tool spec t.id) :
    SoundPair H blob tool env (t.key.getD []) output := by
  subst here
  have settled := open_not_waiting wasOpen
  by_cases compile : t.kind = COMPILE
  · obtain ⟨spec, ts, hb, found, built, -⟩ := f.placed t ht
    have isCompile : ts.kind = COMPILE := built.kind ▸ compile
    have noDeps := ((lawful.shaped _ _ hb).tasks ts (List.mem_of_getElem? found)).compile isCompile
    refine ⟨t.buildId, spec, t.id, ts, hb, found, ?_, ?_, right spec hb⟩
    · intro d hd
      simp [TaskSpec.depIds, noDeps.1] at hd
    · rw [(built.compile isCompile).1, taskKey, if_pos isCompile, Option.getD_some]
  · obtain ⟨spec, ts, hb, found, valid, key⟩ :=
      f.action rfl m base ht compile (m.not_pending ht settled)
    refine ⟨t.buildId, spec, t.id, ts, hb, found, valid, ?_, right spec hb⟩
    rw [(m.columns t ht settled compile).key, key, Option.getD_some]

/-- Every statement keeps the tables faithful. -/
theorem Faithful.exec {c : Cfg} {com : Db} (f : Faithful H blob tool env c.db) (m : Mid H com c)
    (base : Consistent H com) (o : Options) {s : Stmt} {rest : List Stmt} (top : c.stack = s :: rest)
    (sound : s.Sound H blob tool env c.db) : Faithful H blob tool env ((exec H o c.db s).db c.db) := by
  have ok := m.ok s (by simp [top])
  rcases write : (DistCompile.exec H o c.db s).write with _ | row | row | row
  · exact f.quiet ⟨by simp [write], by simp [write]⟩ (by simp [write])
  · rw [Outcome.db, write]
    obtain ⟨t, ht, next, -, rewrites⟩ := exec_rewrites write
    cases rewrites with
    | complete found =>
      exact f.write ht rfl fun _ spec hb => congrArg some (sound t ht (mem_of_task? found).2 spec hb)
    | retry =>
      refine f.write ht rfl fun done => ?_
      rw [requeue_unfinished] at done
      cases done
    | fail => exact f.write ht rfl fun done => by cases done
    | countDown => exact f.write ht rfl (f.outputs t ht)
    | markCached =>
      obtain ⟨-, u, hu, slot, action, -⟩ := ok
      obtain rfl := (m.keyed base.keyed).slot_inj hu ht slot
      exact f.write ht (by simp [TaskRow.fixed, action, TaskRow.slot])
        fun _ spec hb => congrArg some (sound spec hb)
    | markReady =>
      obtain ⟨-, -, u, hu, slot, action, -⟩ := ok
      obtain rfl := (m.keyed base.keyed).slot_inj hu ht slot
      exact f.write ht (by simp [TaskRow.fixed, action, TaskRow.slot]) fun done => by cases done
  · exact f.quiet ⟨by simp [write], by simp [write]⟩ (by simp [write])
  · have caches := exec_caches write
    have quiet : (DistCompile.exec H o c.db s).Quiet := by
      refine ⟨by simp [write], fun r wrote => ?_⟩
      obtain rfl : row = r := by simpa [write] using wrote
      cases caches with
      | put => exact ok
      | @hit _ _ _ _ row found => exact m.cache row (mem_of_cached? found).1
    refine f.quiet quiet fun r wrote => ?_
    obtain rfl : row = r := by simpa [write] using wrote
    cases caches with
    | put => exact sound
    | @hit _ _ _ _ row found => exact f.cache row (mem_of_cached? found).1

/-- What follows a statement carries what is right. -/
theorem Faithful.exec_next {c : Cfg} {com : Db} (free : H.CollisionFree) (lawful : Lawful H blob tool env)
    (f : Faithful H blob tool env c.db) (m : Mid H com c) (base : Consistent H com) {o : Options}
    {s : Stmt} {rest : List Stmt} (top : c.stack = s :: rest) (sound : s.Sound H blob tool env c.db) (db : Db) :
    ∀ n ∈ (DistCompile.exec H o c.db s).next, n.Sound H blob tool env db := by
  intro n member
  have ok := m.ok s (by simp [top])
  rcases exec_hands member with plain | hands
  · cases n with
    | complete | cachePut | markCached => cases plain
    | _ => trivial
  · cases hands with
    | put found isOpen =>
      obtain ⟨ht, uid⟩ := mem_of_task? found
      exact f.completed lawful rfl m base ht isOpen (sound _ ht uid)
    | @mark build id _ _ row found =>
      -- a hit under the task's key is the task's reference output
      obtain ⟨-, -, t, ht, slot, action, key_eq⟩ := ok
      have zero := m.zero t ht (by rw [top, slot]; rfl)
      intro spec' hb'
      obtain ⟨spec, ts, hb, located, valid, taskKey⟩ := f.action rfl m base ht action (by omega)
      have build_eq : t.buildId = build := congrArg Prod.fst slot
      have id_eq : t.id = id := congrArg Prod.snd slot
      rw [build_eq, hb'] at hb
      cases hb
      rw [id_eq] at located
      have pair := f.cache row (mem_of_cached? found).1
      exact pair.output_eq free lawful hb' located valid (key_eq.trans taskKey)

/-- A transaction under way that keeps the tables faithful. -/
structure FaithfulMid (H : Sha256) (blob : Str → Str) (tool : Tool) (env : Nat → Option BuildSpec)
    (com : Db) (c : Cfg) : Prop where
  mid : Mid H com c
  faithful : Faithful H blob tool env c.db
  sound : ∀ s ∈ c.stack, s.Sound H blob tool env c.db

theorem FaithfulMid.exec {o : Options} {com : Db} {c : Cfg} {s : Stmt} {rest : List Stmt} (free : H.CollisionFree)
    (lawful : Lawful H blob tool env) (base : Consistent H com)
    (f : FaithfulMid H blob tool env com c) (top : c.stack = s :: rest) :
    FaithfulMid H blob tool env com (c.after (DistCompile.exec H o c.db s) rest) := by
  have sound := f.sound s (by simp [top])
  refine ⟨f.mid.exec base o top, f.faithful.exec f.mid base o top sound, fun n hn => ?_⟩
  rcases List.mem_append.mp hn with new | old
  · exact f.faithful.exec_next free lawful f.mid base top sound _ n new
  · have loop := f.mid.rest_loops top n old
    cases n <;> trivial

/-- A completed transaction leaves faithful tables. -/
theorem Faithful.run {o : Options} {com : Db} (free : H.CollisionFree)
    (lawful : Lawful H blob tool env) (base : Consistent H com)
    (f : Faithful H blob tool env com) {s : Stmt} (start : Mid H com ⟨com, [s], []⟩)
    (sound : s.Sound H blob tool env com) {fuel : Nat} {c : Cfg}
    (ran : DistCompile.run H o fuel ⟨com, [s], []⟩ = some c) : Faithful H blob tool env c.db :=
  (run_induction (P := FaithfulMid H blob tool env com) (fun f => f.exec free lawful base) ran
    ⟨start, f, by simpa using sound⟩).1.faithful

theorem Faithful.maybeFinish {o : Options} (free : H.CollisionFree)
    (lawful : Lawful H blob tool env) (base : Consistent H db) (f : Faithful H blob tool env db)
    (build : Nat) : Faithful H blob tool env (db.maybeFinish H o build) :=
  maybeFinish_induction (P := Faithful H blob tool env) f
    (f.run free lawful base (Mid.start base (s := .progress build) trivial rfl rfl) trivial)

end Statements

end DistCompile
