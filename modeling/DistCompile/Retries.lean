import DistCompile.Resolution
import DistCompile.Resubmit

/-!
`submit` inside `transaction` (`src/db.h`, `src/coordinator.cpp`).

A try of the transaction ends at a statement that a deadlock or a serialization failure hits; its
work on the tables is rolled back and the next try starts over, with the tables it finds then. The
reply is not part of the tables: `rep->set_cached(rep->cached() + 1)` is not undone. The walk of a
try is cut at its statements, so a try that fails leaves the tasks counted that it had visited.
-/

namespace DistCompile

open DistCompile.Lib DistCompile.Graph

/-! ### Tries -/

/-- What one try finds: the tables, the uploaded files, and the statement, counted from `BEGIN`,
that fails with a deadlock or a serialization failure. -/
structure Try where
  db : Db
  has : Str → Bool := fun _ => true
  fails : Option Nat := none

/-- `SELECT output FROM cache WHERE key = $1`. -/
def Try.cache (t : Try) (key : Str) : Option Str := (t.db.cached? key).map (·.output)

/-- How a try ends without a commit: with a rollback, after which the reply says `cached`, or for good. -/
inductive Stop where
  | rolledBack (cached : Nat)
  | refused (status : Status)
deriving DecidableEq, Repr

/-- The walk, in which `cached` is that of the reply, and the number of statements issued. -/
structure Cursor where
  walk : Walk
  issued : Nat

/-- The iteration issues `cache_get`. -/
def asks (H : Sha256) (spec : BuildSpec) (w : Walk) (id : Nat) : Bool :=
  match spec.tasks[id]? with
  | none => false
  | some ts =>
      let r := resolveInputs H spec w.row ts
      ts.kind ≠ COMPILE && r.pending = 0 && (w.hits r.key).isNone

/-- One iteration of the walk. -/
def visit (H : Sha256) (spec : BuildSpec) (t : Try) (s : Cursor) (id : Nat) : Except Stop Cursor :=
  if asks H spec s.walk id ∧ t.fails = some s.issued then .error (.rolledBack s.walk.cached)
  else match walkTask H t.has t.cache spec s.walk id with
    | .error status => .error (.refused status)
    | .ok w => .ok ⟨w, if asks H spec s.walk id then s.issued + 1 else s.issued⟩

/-- The statements behind the walk. -/
inductive Closing where
  | cacheHits | insertTasks | insertDeps | progress | buildDone | commit
deriving DecidableEq, Repr

def closing (spec : BuildSpec) (w : Walk) : List Closing :=
  let hit := fun i => decide ((w.row i).state = .cached)
  (if (List.range spec.tasks.length).any hit then [.cacheHits] else []) ++ [.insertTasks] ++
    (if spec.tasks.any fun ts => ts.deps ≠ [] then [.insertDeps] else []) ++ [.progress] ++
    (if (List.range spec.tasks.length).all hit then [.buildDone] else []) ++ [.commit]

/-- The values of a statement do not fit the table. -/
def Closing.misfit (spec : BuildSpec) : Closing → Prop
  | .insertTasks => ∃ ts ∈ spec.tasks, ¬ smallint ts.kind
  | .insertDeps => ∃ ts ∈ spec.tasks, ¬ ts.depIds.Nodup
  | _ => False

instance (spec : BuildSpec) (c : Closing) : Decidable (c.misfit spec) := by
  cases c <;> unfold Closing.misfit <;> infer_instance

/-- Issues them, from number `n` on. -/
def close (spec : BuildSpec) (t : Try) (cached : Nat) : Nat → List Closing → Except Stop Unit
  | _, [] => .ok ()
  | n, c :: rest =>
      if t.fails = some n then .error (.rolledBack cached)
      else if c.misfit spec then .error (.refused .unavailable)
      else close spec t cached (n + 1) rest

section Submit

variable (H : Sha256) (spec : BuildSpec) (order : List Nat) (rank part : Nat → Int)

/-- One try of the transaction, with the reply as the tries before it left it: what the reply says
and the inserted tasks. `BEGIN`, `new_build` and `cache_lookup` come first. -/
def tryOnce (t : Try) (cached : Nat) : Except Stop (Nat × List TaskRow) :=
  if t.fails.any (· < 3) then .error (.rolledBack cached)
  else match order.foldlM (visit H spec t) ⟨⟨fun _ => {}, lookupCompileKeys t.cache spec, cached⟩, 3⟩ with
    | .error stop => .error stop
    | .ok s => match close spec t s.walk.cached s.issued (closing spec s.walk) with
      | .error stop => .error stop
      | .ok _ => .ok (s.walk.cached, insertedTasks spec rank part t.db.nextBuild t.db.nextUid s.walk.row)

/-- A reply: the try that committed, the number that `cached` says, and the tasks of the build. -/
structure Submitted where
  attempt : Nat
  cached : Nat
  tasks : List TaskRow
deriving DecidableEq, Repr

/-- `transaction`, with `left` tries left and the reply as it is. -/
def transaction (tries : Nat → Try) : (left attempt cached : Nat) → Except Status Submitted
  | 0, _, _ => .error .unavailable
  | left + 1, attempt, cached =>
      match tryOnce H spec order rank part (tries attempt) cached with
      | .ok (cached, tasks) => .ok ⟨attempt, cached, tasks⟩
      | .error (.rolledBack cached) => transaction tries left (attempt + 1) cached
      | .error (.refused status) => .error status

/-- `submit_build` of an accepted spec: six tries, and a new reply. -/
def submitTries (tries : Nat → Try) : Except Status Submitted := transaction H spec order rank part tries 6 0 0

end Submit

/-! ### What a try counts -/

/-- The key of a task that nothing has to be known for. -/
def ownKey (H : Sha256) (spec : BuildSpec) (ts : TaskSpec) : Str :=
  if ts.kind = COMPILE then ts.key else actionKey H ts.kind spec.toolchain (joinLines ts.args) [] []

/-- The cache has the output of a task whose key does not depend on other tasks. -/
def FoundAlone (H : Sha256) (spec : BuildSpec) (t : Try) (id : Nat) : Prop :=
  ∃ ts, spec.tasks[id]? = some ts ∧ (ts.kind = COMPILE ∨ ts.deps = []) ∧ (t.cache (ownKey H spec ts)).isSome = true

/-- An action without inputs whose key is not found among those of the compile tasks: it takes a
`cache_get` of its own. -/
def looksUp (H : Sha256) (spec : BuildSpec) (t : Try) (id : Nat) : Bool :=
  match spec.tasks[id]? with
  | none => false
  | some ts => ts.kind ≠ COMPILE && ts.deps.isEmpty && (lookupCompileKeys t.cache spec (ownKey H spec ts)).isNone

/-- The tasks in front of look-up number `k`. -/
def beforeLookup (H : Sha256) (spec : BuildSpec) (t : Try) : List Nat → Nat → List Nat
  | [], _ => []
  | id :: order, k =>
      if looksUp H spec t id then
        match k with
        | 0 => []
        | k + 1 => id :: beforeLookup H spec t order k
      else id :: beforeLookup H spec t order k

/-- The tasks that a try visits before its statement number `f`, as long as it counts none. -/
def visitedBefore (H : Sha256) (spec : BuildSpec) (t : Try) (order : List Nat) (f : Nat) : List Nat :=
  if f < 3 then [] else beforeLookup H spec t order (f - 3)

/-- A try that is rolled back has counted nothing. -/
def CountsNothing (H : Sha256) (spec : BuildSpec) (order : List Nat) (t : Try) : Prop :=
  ∀ f, t.fails = some f → ∀ id ∈ visitedBefore H spec t order f, ¬ FoundAlone H spec t id

section Count

variable {H : Sha256} {spec : BuildSpec} {t : Try} {s s' : Cursor} {w w' : Walk} {id : Nat} {order : List Nat}

/-- An iteration counts its task when it finds it. -/
theorem walkTask_cached {has : Str → Bool} {cache : Str → Option Str} {ts : TaskSpec}
    (found : spec.tasks[id]? = some ts) (ran : walkTask H has cache spec w id = .ok w') :
    w'.cached = w.cached + if (w'.row id).state = .cached then 1 else 0 := by
  cases walkTask_visits ran with
  | outside missing =>
    rw [found] at missing
    cases missing
  | cached | ready | waiting => simp

theorem walkTask_mono {has : Str → Bool} {cache : Str → Option Str} (ran : walkTask H has cache spec w id = .ok w') :
    w.cached ≤ w'.cached := by
  cases found : spec.tasks[id]? with
  | none =>
    rw [walkTask, found] at ran
    cases ran
    exact le_refl _
  | some ts => exact (walkTask_cached found ran).symm ▸ Nat.le_add_right _ _

/-- Nothing has been found so far. -/
structure Fresh (spec : BuildSpec) (t : Try) (w : Walk) : Prop where
  outputs : ∀ i, (w.row i).output = []
  hits : w.hits = lookupCompileKeys t.cache spec

/-- What an iteration knows of its task then. -/
theorem Fresh.resolved (fresh : Fresh spec t w) (ts : TaskSpec) :
    (resolveInputs H spec w.row ts).pending = ts.deps.length ∧
      (resolveInputs H spec w.row ts).output = [] ∧
      (ts.kind = COMPILE ∨ ts.deps = [] → (resolveInputs H spec w.row ts).key = ownKey H spec ts) ∧
      (ts.kind ≠ COMPILE → ts.deps ≠ [] → (resolveInputs H spec w.row ts).key = []) := by
  have pending : (ts.depIds.countP fun d => (w.row d).output = []) = ts.deps.length := by
    rw [List.countP_eq_length.mpr fun d _ => by simpa using fresh.outputs d, TaskSpec.depIds, List.length_map]
  have known : (ts.depIds.filter fun d => (w.row d).output ≠ []) = [] :=
    List.filter_eq_nil_iff.mpr fun d _ => by simpa using fresh.outputs d
  rw [resolveInputs]
  simp only [pending, known, List.map_nil]
  refine ⟨?_, ?_, ?_, ?_⟩
  · split_ifs <;> rfl
  · split_ifs <;> rfl
  · intro alone
    rw [ownKey]
    split
    · rfl
    · rename_i action
      rw [alone.resolve_left action]
      simp
  · intro action deps
    rw [if_neg action, if_neg (by simpa using deps)]

theorem Fresh.asks_eq (fresh : Fresh spec t w) : asks H spec w id = looksUp H spec t id := by
  rw [asks, looksUp]
  cases found : spec.tasks[id]? with
  | none => rfl
  | some ts =>
    obtain ⟨pending, -, key, -⟩ := fresh.resolved (H := H) ts
    dsimp only
    rw [pending]
    by_cases alone : ts.deps = []
    · rw [key (Or.inr alone), fresh.hits, alone]
      rfl
    · have some_ : ts.deps.length ≠ 0 := by simpa using alone
      simp [alone]

/-- What an iteration finds while nothing has been found: the output under its own key. -/
theorem Fresh.finds (fresh : Fresh spec t w) (valid : badCompileTask spec = none) {ts : TaskSpec}
    (member : ts ∈ spec.tasks) :
    hitFor H t.cache spec w ts = (if ts.kind = COMPILE ∨ ts.deps = [] then t.cache (ownKey H spec ts) else none) ∧
      (hitFor H t.cache spec w ts = none → hitsAfter H t.cache spec w ts = w.hits) := by
  obtain ⟨pending, -, key, nokey⟩ := fresh.resolved (H := H) ts
  by_cases compile : ts.kind = COMPILE
  · have own : ownKey H spec ts = ts.key := if_pos compile
    have filled : ts.key ≠ [] := by
      have checked := List.find?_eq_none.mp valid ts member
      simp only [compile, decide_true, Bool.true_and, Bool.not_eq_true', Bool.not_eq_false, Bool.and_eq_true] at checked
      exact validHash_ne_nil checked.1
    rw [hitFor, hitsAfter_compile compile, key (Or.inl compile), own, if_neg filled, if_pos (Or.inl compile),
      fresh.hits, lookupCompileKeys_compile member compile]
    exact ⟨rfl, fun _ => rfl⟩
  · by_cases alone : ts.deps = []
    · have filled : ownKey H spec ts ≠ [] := by
        rw [ownKey, if_neg compile]
        exact actionKey_ne_nil H _ _ _ _ _
      rw [hitFor, key (Or.inr alone), if_neg filled, if_pos (Or.inr alone), hitsAfter, key (Or.inr alone), pending,
        fresh.hits]
      cases looked : lookupCompileKeys t.cache spec (ownKey H spec ts) with
      | none =>
        rw [if_pos ⟨compile, by simp [alone], rfl⟩, Function.update_self]
        refine ⟨rfl, fun none_ => ?_⟩
        rw [none_, ← looked, Function.update_eq_self]
      | some output =>
        rw [if_neg (by simp), looked, lookupCompileKeys_some looked]
        exact ⟨rfl, fun bad => by cases bad⟩
    · have neither : ¬ (ts.kind = COMPILE ∨ ts.deps = []) := not_or.mpr ⟨compile, alone⟩
      rw [hitFor, nokey compile alone, if_pos rfl, if_neg neither]
      refine ⟨rfl, fun _ => if_neg fun asks => ?_⟩
      rw [pending] at asks
      exact alone (List.length_eq_zero_iff.mp asks.2.1)

/-- So its own key decides. -/
theorem Fresh.foundAlone_iff (fresh : Fresh spec t w) (valid : badCompileTask spec = none) {ts : TaskSpec}
    (found : spec.tasks[id]? = some ts) : FoundAlone H spec t id ↔ (hitFor H t.cache spec w ts).isSome = true := by
  rw [(fresh.finds valid (List.mem_of_getElem? found)).1]
  constructor
  · rintro ⟨ts', found', alone, hit⟩
    obtain rfl := Option.some.inj (found.symm.trans found')
    rwa [if_pos alone]
  · intro hit
    split at hit
    · rename_i alone
      exact ⟨ts, found, alone, hit⟩
    · cases hit

/-- A miss changes nothing. -/
theorem Fresh.missed (fresh : Fresh spec t w) (valid : badCompileTask spec = none) {ts : TaskSpec}
    (found : spec.tasks[id]? = some ts) (miss : hitFor H t.cache spec w ts = none) (state : TaskState) (cached : Nat) :
    Fresh spec t ⟨Function.update w.row id { resolveInputs H spec w.row ts with state },
      hitsAfter H t.cache spec w ts, cached⟩ where
  outputs := (Function.forall_update_iff w.row fun _ r => r.output = []).mpr
    ⟨resolveInputs_output, fun i _ => fresh.outputs i⟩
  hits := ((fresh.finds valid (List.mem_of_getElem? found)).2 miss).trans fresh.hits

/-- An iteration while nothing has been found. -/
theorem Fresh.step (fresh : Fresh spec t w) (valid : badCompileTask spec = none)
    (ran : walkTask H t.has t.cache spec w id = .ok w') :
    FoundAlone H spec t id ∧ w'.cached = w.cached + 1 ∨
      ¬ FoundAlone H spec t id ∧ w'.cached = w.cached ∧ Fresh spec t w' := by
  have lost : ∀ {ts}, spec.tasks[id]? = some ts → hitFor H t.cache spec w ts = none → ¬ FoundAlone H spec t id :=
    fun found miss alone => by
      rw [fresh.foundAlone_iff valid found, miss] at alone
      cases alone
  cases walkTask_visits ran with
  | outside missing =>
    refine Or.inr ⟨fun ⟨ts, found, _⟩ => ?_, rfl, fresh⟩
    rw [found] at missing
    cases missing
  | cached found hit => exact Or.inl ⟨(fresh.foundAlone_iff valid found).mpr (by rw [hit]; rfl), rfl⟩
  | ready found miss => exact Or.inr ⟨lost found miss, rfl, fresh.missed valid found miss .ready _⟩
  | waiting found miss => exact Or.inr ⟨lost found miss, rfl, fresh.missed valid found miss .waiting _⟩

/-- What the reply says where the walk ends, unless the spec is refused. -/
def replyAfter : Except Stop Cursor → Option Nat
  | .ok s => some s.walk.cached
  | .error (.rolledBack cached) => some cached
  | .error (.refused _) => none

/-- The first iteration fails at its statement, or the walk goes on. -/
theorem replyAfter_cons {c : Nat} (reply : replyAfter ((id :: order).foldlM (visit H spec t) s) = some c) :
    (asks H spec s.walk id = true ∧ t.fails = some s.issued) ∧ c = s.walk.cached ∨
      ¬ (asks H spec s.walk id = true ∧ t.fails = some s.issued) ∧
        ∃ w, walkTask H t.has t.cache spec s.walk id = .ok w ∧ replyAfter (order.foldlM (visit H spec t)
          ⟨w, if asks H spec s.walk id then s.issued + 1 else s.issued⟩) = some c := by
  rw [List.foldlM_cons, visit] at reply
  split at reply
  · rename_i hit
    cases reply
    exact Or.inl ⟨hit, rfl⟩
  · rename_i spared
    cases ran : walkTask H t.has t.cache spec s.walk id with
    | error status => rw [ran] at reply; cases reply
    | ok w =>
      rw [ran] at reply
      exact Or.inr ⟨spared, w, rfl, reply⟩

/-- The reply never goes down. -/
theorem replyAfter_mono {c : Nat} (reply : replyAfter (order.foldlM (visit H spec t) s) = some c) :
    s.walk.cached ≤ c := by
  induction order generalizing s with
  | nil =>
    cases reply
    exact le_refl _
  | cons id order ih =>
    rcases replyAfter_cons reply with ⟨-, rfl⟩ | ⟨-, w, ran, rest⟩
    · exact le_refl _
    · exact (walkTask_mono ran).trans (ih rest)

theorem beforeLookup_stop (asked : looksUp H spec t id = true) : beforeLookup H spec t (id :: order) 0 = [] := by
  simp [beforeLookup, asked]

theorem beforeLookup_look (asked : looksUp H spec t id = true) (k : Nat) :
    beforeLookup H spec t (id :: order) (k + 1) = id :: beforeLookup H spec t order k := by
  simp [beforeLookup, asked]

theorem beforeLookup_skip (silent : looksUp H spec t id ≠ true) (k : Nat) :
    beforeLookup H spec t (id :: order) k = id :: beforeLookup H spec t order k := by
  cases k <;> simp [beforeLookup, silent]

/-- While nothing has been found, a walk that fails at statement `f` or behind its end counts nothing
exactly when none of the tasks in front of `f` is found. -/
theorem Fresh.reply_iff (valid : badCompileTask spec = none) {f c : Nat} (fails : t.fails = some f)
    (fresh : Fresh spec t s.walk) (ahead : s.issued ≤ f)
    (reply : replyAfter (order.foldlM (visit H spec t) s) = some c) :
    c = s.walk.cached ↔ ∀ id ∈ beforeLookup H spec t order (f - s.issued), ¬ FoundAlone H spec t id := by
  induction order generalizing s with
  | nil =>
    cases reply
    simp [beforeLookup]
  | cons id order ih =>
    have looks : asks H spec s.walk id = looksUp H spec t id := fresh.asks_eq
    rcases replyAfter_cons reply with ⟨⟨asked, here⟩, rfl⟩ | ⟨spared, w, ran, rest⟩
    · -- the look-up of this task fails
      rw [fails, Option.some.injEq] at here
      rw [here, Nat.sub_self, beforeLookup_stop (looks ▸ asked)]
      simp
    · have ahead' : (if asks H spec s.walk id then s.issued + 1 else s.issued) ≤ f := by
        split
        · rename_i asked
          have later : s.issued ≠ f := fun here => spared ⟨asked, by rw [fails, here]⟩
          omega
        · exact ahead
      have visited : beforeLookup H spec t (id :: order) (f - s.issued) =
          id :: beforeLookup H spec t order (f - if asks H spec s.walk id then s.issued + 1 else s.issued) := by
        split
        · rename_i asked
          rw [if_pos asked] at ahead'
          have next : f - s.issued = f - (s.issued + 1) + 1 := by omega
          rw [next, beforeLookup_look (looks ▸ asked)]
        · rename_i silent
          exact beforeLookup_skip (looks ▸ silent) _
      rw [visited, List.forall_mem_cons]
      have grows := replyAfter_mono rest
      rcases fresh.step valid ran with ⟨found, counted⟩ | ⟨lost, same, fresh'⟩
      · exact iff_of_false (by dsimp only at grows; omega) fun all => all.1 found
      · have later := ih (s := ⟨w, _⟩) fresh' ahead' rest
        rw [same] at later
        rw [later]
        exact ⟨fun all => ⟨lost, all⟩, And.right⟩

/-- Only the failing statement rolls back. -/
theorem fails_of_rolledBack {c : Nat} (stopped : order.foldlM (visit H spec t) s = .error (.rolledBack c)) :
    ∃ f, t.fails = some f := by
  obtain ⟨s', id, -, -, failed⟩ := foldlM_error (P := fun _ => True) (fun _ _ => trivial) trivial stopped
  rw [visit] at failed
  split at failed
  · rename_i hit
    exact ⟨_, hit.2⟩
  · split at failed <;> cases failed

theorem close_rolledBack {cached c n : Nat} {rest : List Closing}
    (stopped : close spec t cached n rest = .error (.rolledBack c)) : c = cached ∧ ∃ f, t.fails = some f := by
  induction rest generalizing n with
  | nil => cases stopped
  | cons statement rest ih =>
    rw [close] at stopped
    split at stopped
    · rename_i here
      cases stopped
      exact ⟨rfl, _, here⟩
    · split at stopped
      · cases stopped
      · exact ih stopped

/-- The walk that a try starts with. -/
def startOf (spec : BuildSpec) (t : Try) (cached : Nat) : Cursor :=
  ⟨⟨fun _ => {}, lookupCompileKeys t.cache spec, cached⟩, 3⟩

theorem fresh_startOf (cached : Nat) : Fresh spec t (startOf spec t cached).walk := ⟨fun _ => rfl, rfl⟩

variable {rank part : Nat → Int}

/-- A try that is rolled back leaves the reply as it found it exactly when it counts nothing. -/
theorem tryOnce_rolledBack (valid : badCompileTask spec = none) {cached c : Nat}
    (stopped : tryOnce H spec order rank part t cached = .error (.rolledBack c)) :
    cached ≤ c ∧ (c = cached ↔ CountsNothing H spec order t) := by
  have counts : ∀ {f}, t.fails = some f → (CountsNothing H spec order t ↔
      ∀ id ∈ visitedBefore H spec t order f, ¬ FoundAlone H spec t id) := fun {f} fails => by
    rw [CountsNothing, fails]
    exact ⟨fun all => all f rfl, fun all g same => by cases same; exact all⟩
  rw [tryOnce] at stopped
  split at stopped
  · rename_i early
    cases stopped
    cases fails : t.fails with
    | none => simp [fails] at early
    | some f =>
      refine ⟨le_refl _, iff_of_true rfl ((counts fails).mpr ?_)⟩
      rw [visitedBefore, if_pos (by simpa [fails] using early)]
      simp
  · rename_i late
    have walked : replyAfter (order.foldlM (visit H spec t) (startOf spec t cached)) = some c ∧
        ∃ f, t.fails = some f := by
      rw [startOf]
      split at stopped
      · rename_i stop walk
        cases stopped
        exact ⟨by rw [walk]; rfl, fails_of_rolledBack walk⟩
      · rename_i s walk
        split at stopped
        · rename_i stop closed
          cases stopped
          obtain ⟨rfl, fails⟩ := close_rolledBack closed
          exact ⟨by rw [walk]; rfl, fails⟩
        · cases stopped
    obtain ⟨reply, f, fails⟩ := walked
    have ahead : 3 ≤ f := by
      rw [fails] at late
      simpa using late
    refine ⟨replyAfter_mono reply, ?_⟩
    rw [counts fails, visitedBefore, if_neg (by omega)]
    exact (fresh_startOf cached).reply_iff valid fails ahead reply

theorem visit_ok (ran : visit H spec t s id = .ok s') : walkTask H t.has t.cache spec s.walk id = .ok s'.walk := by
  rw [visit] at ran
  split at ran
  · cases ran
  · cases walked : walkTask H t.has t.cache spec s.walk id with
    | error status => rw [walked] at ran; cases ran
    | ok w =>
      rw [walked] at ran
      cases ran
      rfl

/-- A walk that goes through counts the tasks that it makes cached. -/
theorem foldlM_visit_cached (nodup : order.Nodup) (known : ∀ id ∈ order, id < spec.tasks.length)
    (ran : order.foldlM (visit H spec t) s = .ok s') :
    s'.walk.cached = s.walk.cached + order.countP fun id => (s'.walk.row id).state = .cached := by
  induction order generalizing s with
  | nil =>
    cases ran
    rfl
  | cons id order ih =>
    obtain ⟨fresh, nodup⟩ := List.nodup_cons.mp nodup
    obtain ⟨s₁, first, rest⟩ := foldlM_cons_ok ran
    have own := visit_ok first
    have stays : s'.walk.row id = s₁.walk.row id :=
      foldlM_ok (P := fun u : Cursor => u.walk.row id = s₁.walk.row id)
        (fun {_ _ j} member same next =>
          (walkTask_other (visit_ok next) fun here : id = j => fresh (here ▸ member)).trans same) rfl rest
    rw [ih nodup (fun i hi => known i (List.mem_cons_of_mem _ hi)) rest,
      walkTask_cached (List.getElem?_eq_getElem (known id List.mem_cons_self)) own, List.countP_cons, stays]
    split
    · rename_i cached
      simp [cached]
      omega
    · rename_i other
      simp [other]

/-- The inserted tasks that are cached. -/
theorem countP_insertedTasks (build uid : Nat) (row : Nat → Resolved) :
    ((insertedTasks spec rank part build uid row).countP fun r => r.state = .cached) =
      (List.range spec.tasks.length).countP fun id => (row id).state = .cached := by
  have ids : spec.tasks.zipIdx.map Prod.snd = List.range spec.tasks.length := by
    rw [List.zipIdx_map_snd, List.range_eq_range']
  rw [insertedTasks, List.countP_map, ← ids, List.countP_map]
  rfl

/-- The try that commits adds what it inserts as cached. -/
theorem tryOnce_committed (accepted : topoOrder spec.graph = .ok order) {cached c : Nat} {tasks : List TaskRow}
    (committed : tryOnce H spec order rank part t cached = .ok (c, tasks)) :
    c = cached + tasks.countP fun r => r.state = .cached := by
  have topo := topoOrder_ok accepted
  have perm : order.Perm (List.range spec.tasks.length) := by
    simpa [BuildSpec.graph] using topo.perm
  rw [tryOnce] at committed
  split at committed
  · cases committed
  · split at committed
    · cases committed
    · rename_i s walk
      split at committed
      · cases committed
      · cases committed
        have counted := foldlM_visit_cached (perm.nodup_iff.mpr List.nodup_range)
          (fun id member => List.mem_range.mp (perm.mem_iff.mp member)) walk
        rw [countP_insertedTasks, ← perm.countP_eq]
        exact counted

/-- A run of the transaction: what the tries before the commit leave in the reply is added to what
the last one inserts. -/
theorem transaction_reply (valid : badCompileTask spec = none) (accepted : topoOrder spec.graph = .ok order)
    {tries : Nat → Try} {left attempt cached : Nat} {r : Submitted}
    (committed : transaction H spec order rank part tries left attempt cached = .ok r) :
    attempt ≤ r.attempt ∧ ∃ before, cached ≤ before ∧
      r.cached = before + (r.tasks.countP fun row => row.state = .cached) ∧
      (before = cached ↔ ∀ k, attempt ≤ k → k < r.attempt → CountsNothing H spec order (tries k)) := by
  induction left generalizing attempt cached with
  | zero => cases committed
  | succ left ih =>
    rw [transaction] at committed
    split at committed
    · rename_i c tasks done
      cases committed
      exact ⟨le_refl _, cached, le_refl _, tryOnce_committed accepted done,
        iff_of_true rfl fun k low high => absurd high (Nat.not_lt.mpr low)⟩
    · rename_i c stopped
      obtain ⟨grows, nothing⟩ := tryOnce_rolledBack valid stopped
      obtain ⟨later, before, low, sum, rest⟩ := ih committed
      refine ⟨Nat.le_of_succ_le later, before, grows.trans low, sum, ?_⟩
      constructor
      · rintro rfl k from_ high
        have same : c = before := le_antisymm low grows
        rcases Nat.eq_or_lt_of_le from_ with rfl | next
        · exact nothing.mp same
        · exact rest.mp same.symm k next high
      · intro all
        have same : c = cached := nothing.mpr (all attempt (le_refl _) later)
        rw [← same]
        exact rest.mpr fun k from_ high => all k (Nat.le_of_succ_le from_) high
    · cases committed

/-- `SubmitReply.cached` is the number of tasks that were inserted as cached exactly when every try
that was rolled back counted nothing. -/
theorem reply_cached_iff (valid : badCompileTask spec = none) (accepted : topoOrder spec.graph = .ok order)
    {tries : Nat → Try} {r : Submitted} (committed : submitTries H spec order rank part tries = .ok r) :
    r.cached = (r.tasks.countP fun row => row.state = .cached) ↔
      ∀ k < r.attempt, CountsNothing H spec order (tries k) := by
  obtain ⟨-, before, -, sum, rest⟩ := transaction_reply valid accepted committed
  rw [sum, Nat.add_eq_right, rest]
  exact ⟨fun all k high => all k (Nat.zero_le k) high, fun all k _ high => all k high⟩

end Count

/-! ### A try and `submit` -/

section Once

variable {H : Sha256} {spec : BuildSpec} {t : Try} {s s' : Cursor} {w : Walk} {order : List Nat}

/-- The iterations that no statement stops are those of the walk. -/
theorem foldlM_visit_walk (ran : order.foldlM (visit H spec t) s = .ok s') :
    order.foldlM (walkTask H t.has t.cache spec) s.walk = .ok s'.walk := by
  induction order generalizing s with
  | nil =>
    cases ran
    rfl
  | cons id order ih =>
    obtain ⟨s₁, first, rest⟩ := foldlM_cons_ok ran
    exact foldlM_cons_ok_iff.mpr ⟨s₁.walk, visit_ok first, ih rest⟩

/-- Where no statement fails, the walk goes through. -/
theorem foldlM_visit_calm (calm : t.fails = none)
    (ran : order.foldlM (walkTask H t.has t.cache spec) s.walk = .ok w) :
    ∃ n, order.foldlM (visit H spec t) s = .ok ⟨w, n⟩ := by
  induction order generalizing s with
  | nil =>
    cases ran
    exact ⟨s.issued, rfl⟩
  | cons id order ih =>
    obtain ⟨w₁, first, rest⟩ := foldlM_cons_ok ran
    obtain ⟨n, through⟩ := ih (s := ⟨w₁, if asks H spec s.walk id then s.issued + 1 else s.issued⟩) rest
    refine ⟨n, foldlM_cons_ok_iff.mpr ⟨_, ?_, through⟩⟩
    rw [visit, calm, if_neg (by simp), first]

theorem close_fits {cached n : Nat} {rest : List Closing} (closed : close spec t cached n rest = .ok ()) :
    ∀ c ∈ rest, ¬ c.misfit spec := by
  induction rest generalizing n with
  | nil => simp
  | cons c rest ih =>
    rw [close] at closed
    split at closed
    · cases closed
    · split at closed
      · cases closed
      · rename_i fits
        exact List.forall_mem_cons.mpr ⟨fits, ih closed⟩

theorem close_calm (calm : t.fails = none) {cached n : Nat} {rest : List Closing}
    (fit : ∀ c ∈ rest, ¬ c.misfit spec) : close spec t cached n rest = .ok () := by
  induction rest generalizing n with
  | nil => rfl
  | cons c rest ih =>
    rw [close, calm, if_neg (by simp), if_neg (fit c List.mem_cons_self)]
    exact ih fun d member => fit d (List.mem_cons_of_mem c member)

/-- What the inserts ask of the spec. -/
theorem closing_fits (build : Nat) : (∀ c ∈ closing spec w, ¬ c.misfit spec) ↔
    (∀ ts ∈ spec.tasks, smallint ts.kind) ∧ ((insertedDeps spec build).map TaskDep.primaryKey).Nodup := by
  rw [insertedDeps_nodup]
  constructor
  · intro fit
    have kinds : ¬ Closing.insertTasks.misfit spec := fit _ (by simp [closing])
    refine ⟨by simpa [Closing.misfit] using kinds, fun ts member => ?_⟩
    by_cases some_ : ts.deps = []
    · simp [TaskSpec.depIds, some_]
    · have edges : ¬ Closing.insertDeps.misfit spec :=
        fit _ (by simpa [closing] using ⟨ts, member, some_⟩)
      by_contra twice
      exact edges ⟨ts, member, twice⟩
  · rintro ⟨kinds, edges⟩ c - bad
    cases c with
    | insertTasks =>
      obtain ⟨ts, member, wide⟩ := bad
      exact wide (kinds ts member)
    | insertDeps =>
      obtain ⟨ts, member, twice⟩ := bad
      exact twice (edges ts member)
    | cacheHits | progress | buildDone | commit => exact bad

variable {o : Options} {rank part : Nat → Int} {c : Nat}

/-- The first try, when it commits, is `submit`. -/
theorem tryOnce_submit {tasks : List TaskRow} (committed : tryOnce H spec order rank part t 0 = .ok (c, tasks)) :
    ∃ db, submit H o t.has t.db spec order rank part = (db, .ok (t.db.nextBuild, c)) ∧
      db.tasks = t.db.tasks ++ tasks := by
  rw [tryOnce] at committed
  split at committed
  · cases committed
  · split at committed
    · cases committed
    · rename_i s walk_
      split at committed
      · cases committed
      · rename_i closed
        cases committed
        have walked : walk H t.has (fun key => (t.db.cached? key).map (·.output)) spec order = .ok s.walk :=
          foldlM_visit_walk walk_
        rw [submit, walked]
        dsimp only
        obtain ⟨kinds, unique⟩ := (closing_fits t.db.nextBuild).mp (close_fits closed)
        rw [if_neg (not_not.mpr kinds), if_pos unique]
        exact ⟨_, rfl, by rw [maybeFinish_tasks]; rfl⟩

/-- And `submit` is the first try, when no statement fails. -/
theorem submit_tryOnce (calm : t.fails = none) {db : Db} {build : Nat}
    (accepted : submit H o t.has t.db spec order rank part = (db, .ok (build, c))) :
    ∃ tasks, tryOnce H spec order rank part t 0 = .ok (c, tasks) := by
  rw [submit] at accepted
  split at accepted
  · cases accepted
  · rename_i w walked
    split at accepted
    · cases accepted
    · rename_i kinds
      split at accepted
      · rename_i unique
        cases accepted
        obtain ⟨n, through⟩ := foldlM_visit_calm (s := startOf spec t 0) calm walked
        rw [startOf] at through
        rw [tryOnce, if_neg (by simp [calm]), through]
        dsimp only
        rw [close_calm calm ((closing_fits t.db.nextBuild).mpr ⟨not_not.mp kinds, unique⟩)]
        exact ⟨_, rfl⟩
      · cases accepted

end Once

/-! ### A deadlock behind a look-up -/

/-- The object of the sample is in the cache, and a deadlock hits statement `f` of the first try. -/
def sampleTries (f k : Nat) : Try := { db := { cache := sampleCache }, fails := if k = 0 then some f else none }

/-- The two tasks of the sample, submitted with a deadlock at statement `f`. -/
def sampleSubmit (f : Nat) : Except Status Submitted :=
  submitTries sampleSha sampleSpec [0, 1] (upwardRank sampleSpec.graph) (partition sampleSpec.graph 1) (sampleTries f)

theorem topoOrder_sample : topoOrder sampleSpec.graph = .ok [0, 1] := by decide +kernel

/-- The `UPDATE` of the hit counts is the victim: the reply counts the object twice. -/
theorem reply_counts_twice :
    badCompileTask sampleSpec = none ∧ topoOrder sampleSpec.graph = .ok [0, 1] ∧
      ∃ r, sampleSubmit 4 = .ok r ∧ r.cached = 2 ∧ (r.tasks.countP fun row => row.state = .cached) = 1 := by
  have reply : (sampleSubmit 4).toOption.map (fun r => (r.cached, r.tasks.countP fun row => row.state = .cached)) =
      some (2, 1) := by decide +kernel
  refine ⟨by decide +kernel, topoOrder_sample, ?_⟩
  cases submitted : sampleSubmit 4 with
  | error status =>
    rw [submitted] at reply
    cases reply
  | ok r =>
    rw [submitted] at reply
    obtain ⟨twice, once⟩ := Prod.mk.inj (Option.some.inj reply)
    exact ⟨r, rfl, twice, once⟩

/-- A deadlock in front of the walk does no harm. -/
theorem reply_counts_once :
    ∃ r, sampleSubmit 2 = .ok r ∧ r.attempt = 1 ∧ r.cached = r.tasks.countP fun row => row.state = .cached := by
  have second : (sampleSubmit 2).toOption.map (·.attempt) = some 1 := by decide +kernel
  cases submitted : sampleSubmit 2 with
  | error status =>
    rw [submitted] at second
    cases second
  | ok r =>
    rw [submitted] at second
    have attempt : r.attempt = 1 := Option.some.inj second
    refine ⟨r, rfl, attempt, (reply_cached_iff (by decide +kernel) topoOrder_sample submitted).mpr fun k before => ?_⟩
    have first : k = 0 := by omega
    subst first
    intro f fails
    cases fails
    simp [visitedBefore]

end DistCompile
