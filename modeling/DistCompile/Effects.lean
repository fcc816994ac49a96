import DistCompile.Db

/-!
What a statement does to a row, read off `exec` once.

`Rewrites` has one case for each branch of `exec` that updates a task, with the statements that
follow, `Caches` one for each that writes to the cache, and `Hands` one for each that passes an
output on to a later statement.
-/

namespace DistCompile

variable {H : Sha256} {o : Options} {db : Db} {s : Stmt}

/-- Statement `s` makes `row` of the row `t` it finds, and `next` follows. -/
inductive Rewrites (o : Options) (db : Db) : (s : Stmt) → (t row : TaskRow) → (next : List Stmt) → Prop where
  | complete {r : TaskResult} {size : Int} {t : TaskRow} (found : db.task? r.taskUid = some t)
      (isOpen : t.state.open = true) : Rewrites o db (.complete r size) t
        { t with state := .done, output := some r.output, execMs := some r.execMs, leaseOwner := some r.worker }
        [.cachePut t.buildId t.id (t.key.getD []) r.output size]
  | retry {r : TaskResult} {now : Int} {t : TaskRow} (found : db.task? r.taskUid = some t)
      (running : t.state = .running) (attempt : t.attempts = r.attempt) : Rewrites o db (.retry r now) t
        { t with state := requeue o t.attempts, leaseOwner := none, lastFailedBy := t.leaseOwner,
                 readyAt := some now, log := some r.log }
        (if requeue o t.attempts = .failed then maybeFinish t.buildId else [])
  | fail {r : TaskResult} {t : TaskRow} (found : db.task? r.taskUid = some t) (isOpen : t.state.open = true) :
      Rewrites o db (.fail r) t { t with state := .failed, log := some r.log, execMs := some r.execMs }
        (maybeFinish t.buildId)
  | countDown {build id : Nat} {t : TaskRow} :
      Rewrites o db (.countDown build id t.uid) t { t with pendingDeps := t.pendingDeps - 1 }
        (if t.pendingDeps - 1 = 0 then makeReady build t.id else [])
  | markCached {key output : Str} {t : TaskRow} :
      Rewrites o db (.markCached t.buildId t.id key output) t
        { t with state := .cached, key := some key, output := some output } (finished t.buildId t.id)
  | markReady {key : Str} {names digests : List Str} {t : TaskRow} :
      Rewrites o db (.markReady t.buildId t.id key names digests) t
        { t with state := .ready, key := some key, inputs := some (joinLines digests),
                 inputNames := some (joinLines names) } []

/-- Statement `s` puts `row` into the cache. -/
inductive Caches (db : Db) : (s : Stmt) → (row : CacheRow) → Prop where
  | put {build id : Nat} {key output : Str} {size : Int} (unknown : db.cached? key = none) :
      Caches db (.cachePut build id key output size) ⟨key, output, size, 0⟩
  | hit {build id : Nat} {names digests : List Str} {row : CacheRow} (found : db.cached? row.key = some row) :
      Caches db (.cacheHit build id row.key names digests) { row with hits := row.hits + 1 }

/-- The statement carries an output. -/
def Stmt.carries : Stmt → Bool
  | .complete .. | .cachePut .. | .markCached .. => true
  | _ => false

/-- Statement `s` hands an output to the statement `n` that follows it. -/
inductive Hands (db : Db) : (s n : Stmt) → Prop where
  | put {r : TaskResult} {size : Int} {t : TaskRow} (found : db.task? r.taskUid = some t)
      (isOpen : t.state.open = true) :
      Hands db (.complete r size) (.cachePut t.buildId t.id (t.key.getD []) r.output size)
  | mark {build id : Nat} {names digests : List Str} {row : CacheRow} (found : db.cached? row.key = some row) :
      Hands db (.cacheHit build id row.key names digests) (.markCached build id row.key row.output)

theorem mem_of_task? {uid : Nat} {t : TaskRow} (found : db.task? uid = some t) : t ∈ db.tasks ∧ t.uid = uid :=
  ⟨List.mem_of_find?_eq_some found, by simpa using List.find?_some found⟩

theorem mem_of_taskAt? {build id : Nat} {t : TaskRow} (found : db.taskAt? build id = some t) :
    t ∈ db.tasks ∧ t.buildId = build ∧ t.id = id :=
  ⟨List.mem_of_find?_eq_some found, by simpa using List.find?_some found⟩

theorem mem_of_cached? {key : Str} {row : CacheRow} (found : db.cached? key = some row) :
    row ∈ db.cache ∧ row.key = key :=
  ⟨List.mem_of_find?_eq_some found, by simpa using List.find?_some found⟩

/-- The task rows that statements write. -/
theorem exec_rewrites {row : TaskRow} (written : (exec H o db s).write = some (.task row)) :
    ∃ t ∈ db.tasks, ∃ next, (exec H o db s).next = next ∧ Rewrites o db s t row next := by
  cases s with
  | complete r size =>
    simp only [exec] at written ⊢
    split at written
    · rename_i t found
      split at written
      · rename_i isOpen
        cases written
        rw [if_pos isOpen]
        exact ⟨t, (mem_of_task? found).1, _, rfl, .complete found isOpen⟩
      · cases written
    · cases written
  | retry r now =>
    simp only [exec] at written ⊢
    split at written
    · rename_i t found
      split at written
      · rename_i current
        cases written
        rw [if_pos current]
        exact ⟨t, (mem_of_task? found).1, _, rfl, .retry found current.1 current.2⟩
      · cases written
    · cases written
  | fail r =>
    simp only [exec] at written ⊢
    split at written
    · rename_i t found
      split at written
      · rename_i isOpen
        cases written
        rw [if_pos isOpen]
        exact ⟨t, (mem_of_task? found).1, _, rfl, .fail found isOpen⟩
      · cases written
    · cases written
  | countDown build id uid =>
    simp only [exec] at written ⊢
    split at written
    · rename_i t found
      obtain ⟨ht, rfl⟩ := mem_of_task? found
      cases written
      exact ⟨t, ht, _, rfl, .countDown⟩
    · cases written
  | markCached build id key output =>
    simp only [exec] at written ⊢
    split at written
    · rename_i t found
      obtain ⟨ht, rfl, rfl⟩ := mem_of_taskAt? found
      cases written
      exact ⟨t, ht, _, rfl, .markCached⟩
    · cases written
  | markReady build id key names digests =>
    simp only [exec] at written ⊢
    split at written
    · rename_i t found
      obtain ⟨ht, rfl, rfl⟩ := mem_of_taskAt? found
      cases written
      exact ⟨t, ht, _, rfl, .markReady⟩
    · cases written
  | _ => simp only [exec] at written; grind

/-- The cache rows that statements write. -/
theorem exec_caches {row : CacheRow} (written : (exec H o db s).write = some (.cache row)) :
    Caches db s row := by
  cases s with
  | cachePut build id key output size =>
    simp only [exec] at written ⊢
    split at written
    · cases written
    · rename_i unknown
      cases written
      exact .put (Option.not_isSome_iff_eq_none.mp unknown)
  | cacheHit build id key names digests =>
    simp only [exec] at written ⊢
    split at written
    · rename_i c found
      obtain ⟨-, rfl⟩ := mem_of_cached? found
      cases written
      exact .hit found
    · cases written
  | _ => simp only [exec] at written; grind

/-- The statements that follow `dependents`. -/
theorem mem_next_dependents {build id : Nat} {n : Stmt} (member : n ∈ (exec H o db (.dependents build id)).next) :
    (∃ t ∈ db.dependents build id, n = .lockRow t.uid ∨ n = .countDown build id t.uid) ∨
      db.dependents build id = [] ∧ n = .progress build := by
  simp only [exec, List.mem_append, List.mem_map] at member
  rcases member with (⟨t, ht, rfl⟩ | ⟨t, ht, rfl⟩) | last
  · exact Or.inl ⟨t, ht, Or.inl rfl⟩
  · exact Or.inl ⟨t, ht, Or.inr rfl⟩
  · split at last
    · rename_i empty
      exact Or.inr ⟨by simpa using empty, by simpa [maybeFinish] using last⟩
    · cases last

/-- A statement that follows carries no output, or it is one that it was handed. -/
theorem exec_hands {n : Stmt} (member : n ∈ (exec H o db s).next) : n.carries = false ∨ Hands db s n := by
  cases s with
  | complete r size =>
    simp only [exec] at member
    split at member
    · rename_i t found
      split at member
      · rename_i isOpen
        rw [List.mem_singleton.mp member]
        exact Or.inr (.put found isOpen)
      · cases member
    · cases member
  | cacheHit build id key names digests =>
    simp only [exec] at member
    split at member
    · rename_i row found
      obtain ⟨-, rfl⟩ := mem_of_cached? found
      rw [List.mem_singleton.mp member]
      exact Or.inr (.mark found)
    · rw [List.mem_singleton.mp member]
      exact Or.inl rfl
  | dependents build id =>
    rcases mem_next_dependents member with ⟨t, -, rfl | rfl⟩ | ⟨-, rfl⟩ <;> exact Or.inl rfl
  | _ =>
    simp only [exec, finished, makeReady, maybeFinish] at member
    grind [Stmt.carries]

end DistCompile
