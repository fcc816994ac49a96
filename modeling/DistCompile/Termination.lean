import DistCompile.Cascade
import DistCompile.Finish

/-!
Calls of `finished` and `make_ready` in one completion (`src/coordinator.cpp`).

The two call each other, driven by counters and cache hits in the tables. A counter only goes
down, and `make_ready` is called when a countdown brings it to zero: so there are at most as many
such calls as there are positive counters, and at most one for each task. `finished` is called by
`make_ready`, and once for the task that is completed. That this task does not come up again takes
a graph without cycles: its counter is lowered by the calls for its dependencies alone, and every
call is for a task that depends on it.

Neither what the counters are nor what the cache holds plays a part.
-/

namespace DistCompile

open DistCompile.Lib

/-! ### The calls -/

/-- The statement on top of the stack is issued. -/
def Issues (H : Sha256) (o : Options) (c : Cfg) (s : Stmt) (c' : Cfg) : Prop :=
  ∃ rest, c.stack = s :: rest ∧ c' = c.after (exec H o c.db s) rest

/-- The statement begins a call of `finished`. -/
def Stmt.callsFinished : Stmt → Option (Nat × Nat)
  | .dependents build id => some (build, id)
  | _ => none

/-- The statement begins a call of `make_ready`. -/
def Stmt.callsMakeReady : Stmt → Option (Nat × Nat)
  | .taskInfo build id => some (build, id)
  | _ => none

/-- The tasks for which `finished` is called, in the order of the calls. -/
def finishedCalls (stmts : List Stmt) : List (Nat × Nat) := stmts.filterMap Stmt.callsFinished

def makeReadyCalls (stmts : List Stmt) : List (Nat × Nat) := stmts.filterMap Stmt.callsMakeReady

/-- The call of `finished` that a statement begins or may lead to, not counting what its
countdowns lead to. -/
def Stmt.finishes : Stmt → Option (Nat × Nat)
  | .cachePut build id _ _ _ | .dependents build id | .taskInfo build id | .depOutputs build id _ _ _
  | .cacheHit build id _ _ _ | .markCached build id _ _ => some (build, id)
  | _ => none

/-- No task depends on itself. -/
def Db.Acyclic (db : Db) : Prop := ∀ s, ¬ Relation.TransGen db.DependsOn s s

/-- Ranks that go up along the edges leave no cycle. -/
theorem Db.Layered.acyclic {db : Db} (layered : db.Layered) : db.Acyclic := by
  obtain ⟨rank, up⟩ := layered
  have falls : ∀ s u, Relation.TransGen db.DependsOn s u → rank u < rank s := by
    intro s u chain
    induction chain with
    | single edge =>
      obtain ⟨d, hd, rfl, rfl⟩ := edge
      exact up d hd
    | tail _ edge ih =>
      obtain ⟨d, hd, rfl, rfl⟩ := edge
      exact (up d hd).trans ih
  exact fun s cycle => lt_irrefl _ (falls s s cycle)

/-- The statements of a transaction, at most `fuel` of them. -/
def issued (H : Sha256) (o : Options) : Nat → Cfg → List Stmt
  | 0, _ => []
  | fuel + 1, c => match c.stack with
    | [] => []
    | s :: rest => s :: issued H o fuel (c.after (exec H o c.db s) rest)

/-- A transaction that has ended issued these. -/
theorem run_issued {H : Sha256} {o : Options} {fuel : Nat} {c c' : Cfg} (ran : run H o fuel c = some c') :
    Runs (Issues H o) c (issued H o fuel c) c' := by
  induction fuel generalizing c with
  | zero =>
    rw [run] at ran
    split at ran
    · cases ran
      exact .nil
    · cases ran
  | succ fuel ih =>
    cases top : c.stack with
    | nil =>
      simp only [run, Cfg.step, top, Option.some.injEq] at ran
      simp only [issued, top]
      rw [ran]
      exact .nil
    | cons s rest =>
      simp only [run, Cfg.step, top] at ran
      simp only [issued, top]
      exact (Runs.nil.snoc ⟨rest, top, rfl⟩).trans (ih ran)

/-! ### No call twice -/

/-- What a statement says of its task: it depends on `root`. A countdown is about a row that
waits for the task. The statement is not one of those that a transaction begins with. -/
def Stmt.Under (db : Db) (root : Nat × Nat) : Stmt → Prop
  | .complete _ _ | .retry _ _ | .fail _ => False
  | .cachePut build id _ _ _ | .dependents build id | .taskInfo build id | .depOutputs build id _ _ _
  | .cacheHit build id _ _ _ | .markCached build id _ _ => Relation.ReflTransGen db.DependsOn (build, id) root
  | .countDown build id uid => Relation.ReflTransGen db.DependsOn (build, id) root ∧
      ∃ t ∈ db.tasks, t.uid = uid ∧ t.buildId = build ∧ db.DependsOn t.slot (build, id)
  | _ => True

/-- The calls of `finished` begun and those that the stack may lead to. -/
def allFinished (stmts : List Stmt) (c : Cfg) : List (Nat × Nat) :=
  finishedCalls stmts ++ c.stack.filterMap Stmt.finishes

/-- The calls of `make_ready` begun and those on the stack. -/
def allMakeReady (stmts : List Stmt) (c : Cfg) : List (Nat × Nat) := makeReadyCalls stmts ++ makeReadyCalls c.stack

/-- A completion of `root` that has issued `stmts`. -/
structure Unfolding (deps : List TaskDep) (root : Nat × Nat) (stmts : List Stmt) (c : Cfg) : Prop where
  keyed : c.db.Keyed
  deps : c.db.deps = deps
  finished : (allFinished stmts c).Nodup
  makeReady : (allMakeReady stmts c).Nodup
  /-- whom `make_ready` has not called is the completed task -/
  caller : ∀ s ∈ allFinished stmts c, s = root ∨ s ∈ allMakeReady stmts c
  /-- a call of `make_ready` means a counter that has come to zero -/
  zero : ∀ t ∈ c.db.tasks, t.slot ∈ allMakeReady stmts c → t.pendingDeps ≤ 0
  under : ∀ s ∈ c.stack, s.Under c.db root

section Once

variable {H : Sha256} {o : Options} {db db' : Db} {f : TaskRow → TaskRow} {root : Nat × Nat} {s : Stmt}
  {rest stmts : List Stmt} {c : Cfg}

theorem dependsOn_of_deps (same : db'.deps = db.deps) : db'.DependsOn = db.DependsOn := by
  funext s u
  rw [Db.DependsOn, Db.DependsOn, same]

theorem Lowers.dependsOn (lowers : Lowers db db' f) : db'.DependsOn = db.DependsOn := dependsOn_of_deps lowers.deps

theorem Stmt.Under.later (under : s.Under db root) (lowers : Lowers db db' f) : s.Under db' root := by
  cases s with
  | countDown build id uid =>
    obtain ⟨path, t, ht, rfl, rfl, waits⟩ := under
    refine ⟨lowers.dependsOn ▸ path, f t, ?_, lowers.uid t ht, congrArg Prod.fst (lowers.slot t ht), ?_⟩
    · rw [lowers.tasks]
      exact List.mem_map_of_mem ht
    · rw [lowers.dependsOn, lowers.slot t ht]
      exact waits
  | cachePut | dependents | taskInfo | depOutputs | cacheHit | markCached =>
    rw [Stmt.Under] at under ⊢
    rwa [lowers.dependsOn]
  | complete | retry | fail => exact under
  | lockRow | markReady | progress | buildFailed | buildDone => trivial

/-- The statements that follow are about the same task, or about one that waits for it. -/
theorem exec_under (k : db.Keyed) (under : s.Under db root) : ∀ n ∈ (exec H o db s).next, n.Under db root := by
  intro n member
  cases s with
  | complete | retry | fail => exact under.elim
  | dependents build id =>
    rcases mem_next_dependents member with ⟨t, ht, rfl | rfl⟩ | ⟨-, rfl⟩
    · trivial
    · obtain ⟨hmem, build_eq, d, hd, source, target⟩ := mem_dependents ht
      exact ⟨under, t, hmem, rfl, build_eq, d, hd, target.symm, source⟩
    · trivial
  | countDown build id uid =>
    obtain ⟨path, t, ht, rfl, rfl, waits⟩ := under
    have found := (Db.task?_eq_some k).mpr ⟨ht, rfl⟩
    simp only [exec, found] at member
    split at member
    · rw [List.mem_singleton.mp member]
      exact .head waits path
    · cases member
  | cachePut | taskInfo | depOutputs | cacheHit | markCached =>
    rw [Stmt.Under] at under
    simp only [exec, finished] at member
    grind [Stmt.Under]
  | lockRow | markReady | progress | buildFailed | buildDone =>
    simp only [exec] at member
    grind [Stmt.Under]

/-- What a statement adds to the calls: it begins the call it stands for or drops it, or it is a
countdown that comes to zero. -/
theorem exec_calls (under : s.Under db root) :
    ((finishedCalls [s] ++ (exec H o db s).next.filterMap Stmt.finishes).Sublist s.finishes.toList ∧
        makeReadyCalls (exec H o db s).next = []) ∨
      ∃ build id, ∃ t ∈ db.tasks, s = .countDown build id t.uid ∧ t.pendingDeps - 1 = 0 ∧
        (exec H o db s).next = makeReady build t.id ∧
        (exec H o db s).db db = db.apply (.task { t with pendingDeps := t.pendingDeps - 1 }) := by
  cases s with
  | complete | retry | fail => exact under.elim
  | dependents build id =>
    refine Or.inl ⟨?_, ?_⟩
    · have none_ : (exec H o db (.dependents build id)).next.filterMap Stmt.finishes = [] := by
        refine List.filterMap_eq_nil_iff.mpr fun n member => ?_
        rcases mem_next_dependents member with ⟨t, -, rfl | rfl⟩ | ⟨-, rfl⟩ <;> rfl
      rw [none_]
      exact List.Sublist.refl _
    · refine List.filterMap_eq_nil_iff.mpr fun n member => ?_
      rcases mem_next_dependents member with ⟨t, -, rfl | rfl⟩ | ⟨-, rfl⟩ <;> rfl
  | countDown build id uid =>
    cases found : db.task? uid with
    | none =>
      simp only [exec, found]
      exact Or.inl ⟨List.nil_sublist _, rfl⟩
    | some t =>
      obtain ⟨ht, rfl⟩ := mem_of_task? found
      by_cases zero : t.pendingDeps - 1 = 0
      · refine Or.inr ⟨build, id, t, ht, rfl, zero, ?_, ?_⟩
        · simp only [exec, found, zero, if_true]
        · simp only [exec, found, Outcome.db, Option.elim_some]
      · simp only [exec, found, zero, if_false]
        exact Or.inl ⟨List.nil_sublist _, rfl⟩
  | taskInfo | cacheHit | markCached | markReady | progress | buildFailed | buildDone =>
    refine Or.inl ?_
    simp only [exec, finished, finishedCalls, makeReadyCalls]
    repeat' split
    all_goals simp [Stmt.finishes, Stmt.callsFinished, Stmt.callsMakeReady]
  | cachePut | depOutputs | lockRow =>
    exact Or.inl ⟨List.Sublist.refl _, rfl⟩

theorem finishedCalls_append (l l' : List Stmt) : finishedCalls (l ++ l') = finishedCalls l ++ finishedCalls l' :=
  List.filterMap_append

theorem makeReadyCalls_append (l l' : List Stmt) :
    makeReadyCalls (l ++ l') = makeReadyCalls l ++ makeReadyCalls l' := List.filterMap_append

section Step

variable {deps : List TaskDep} (unfolding : Unfolding deps root stmts c) (top : c.stack = s :: rest)

/-- The calls of `finished` after a statement. -/
theorem allFinished_after : allFinished (stmts ++ [s]) (c.after (exec H o c.db s) rest) =
    finishedCalls stmts ++ (finishedCalls [s] ++ (exec H o c.db s).next.filterMap Stmt.finishes ++
      rest.filterMap Stmt.finishes) := by
  simp only [allFinished, Cfg.after, finishedCalls_append, List.filterMap_append, List.append_assoc]

/-- The calls of `make_ready` after a statement. -/
theorem allMakeReady_after : allMakeReady (stmts ++ [s]) (c.after (exec H o c.db s) rest) =
    makeReadyCalls stmts ++ (makeReadyCalls [s] ++ makeReadyCalls (exec H o c.db s).next ++ makeReadyCalls rest) := by
  simp only [allMakeReady, Cfg.after, makeReadyCalls_append, List.append_assoc]

include top in
theorem allFinished_top : allFinished stmts c =
    finishedCalls stmts ++ (s.finishes.toList ++ rest.filterMap Stmt.finishes) := by
  rw [allFinished, top, List.filterMap_cons]
  cases s.finishes <;> rfl

include top in
theorem allMakeReady_top : allMakeReady stmts c = makeReadyCalls stmts ++ (makeReadyCalls [s] ++ makeReadyCalls rest) := by
  rw [allMakeReady, top, ← List.singleton_append, makeReadyCalls_append]

include unfolding top in
theorem Unfolding.under_after {f : TaskRow → TaskRow} (lowers : Lowers c.db ((exec H o c.db s).db c.db) f) :
    ∀ n ∈ (c.after (exec H o c.db s) rest).stack, n.Under (c.after (exec H o c.db s) rest).db root := by
  intro n member
  rcases List.mem_append.mp member with next | later
  · exact (exec_under unfolding.keyed (unfolding.under s (by simp [top])) n next).later lowers
  · exact (unfolding.under n (by simp [top, later])).later lowers

include unfolding top in
/-- A statement that makes no new call. -/
theorem Unfolding.quiet (fewer : (finishedCalls [s] ++ (exec H o c.db s).next.filterMap Stmt.finishes).Sublist
    s.finishes.toList) (no : makeReadyCalls (exec H o c.db s).next = []) :
    Unfolding deps root (stmts ++ [s]) (c.after (exec H o c.db s) rest) := by
  obtain ⟨f, lowers⟩ := exec_lowers (H := H) (o := o) unfolding.keyed s
  have made : allMakeReady (stmts ++ [s]) (c.after (exec H o c.db s) rest) = allMakeReady stmts c := by
    rw [allMakeReady_after, allMakeReady_top top, no, List.append_nil]
  have sub : (allFinished (stmts ++ [s]) (c.after (exec H o c.db s) rest)).Sublist (allFinished stmts c) := by
    rw [allFinished_after, allFinished_top top]
    exact (List.Sublist.refl _).append (fewer.append (List.Sublist.refl _))
  refine ⟨lowers.keyed unfolding.keyed, lowers.deps.trans unfolding.deps, unfolding.finished.sublist sub, ?_, ?_, ?_,
    unfolding.under_after top lowers⟩
  · rw [made]
    exact unfolding.makeReady
  · rw [made]
    exact fun x member => unfolding.caller x (sub.subset member)
  · intro u hu member
    rw [made] at member
    obtain ⟨t, ht, rfl⟩ := List.mem_map.mp (lowers.tasks ▸ hu)
    rw [lowers.slot t ht] at member
    exact (lowers.pending t ht).trans (unfolding.zero t ht member)

include unfolding top in
/-- A countdown that comes to zero, in a graph without cycles: its task is new to both functions. -/
theorem Unfolding.fresh (acyclic : c.db.Acyclic) {build id : Nat} {t : TaskRow} (ht : t ∈ c.db.tasks)
    (countdown : s = .countDown build id t.uid) (zero : t.pendingDeps - 1 = 0) :
    t.slot ∉ allMakeReady stmts c ∧ t.slot ∉ allFinished stmts c := by
  have positive : t.slot ∉ allMakeReady stmts c := by
    intro member
    have := unfolding.zero t ht member
    omega
  refine ⟨positive, fun member => ?_⟩
  rcases unfolding.caller _ member with completed | called
  · have under := unfolding.under s (by simp [top])
    rw [countdown] at under
    obtain ⟨path, u, hu, uid, -, waits⟩ := under
    rw [unfolding.keyed.uid_inj hu ht uid, completed] at waits
    exact acyclic root (Relation.TransGen.head' waits path)
  · exact positive called

include unfolding top in
/-- Every statement keeps the calls apart. -/
theorem Unfolding.exec (o : Options) (acyclic : c.db.Acyclic) :
    Unfolding deps root (stmts ++ [s]) (c.after (DistCompile.exec H o c.db s) rest) := by
  rcases exec_calls (H := H) (o := o) (unfolding.under s (by simp [top])) with
    ⟨fewer, no⟩ | ⟨build, id, t, ht, countdown, zero, next, tables⟩
  · exact unfolding.quiet top fewer no
  · obtain ⟨newReady, newFinished⟩ := unfolding.fresh top acyclic ht countdown zero
    have build_eq : t.slot = (build, t.id) := by
      have under := unfolding.under s (by simp [top])
      rw [countdown] at under
      obtain ⟨-, u, hu, uid, same, -⟩ := under
      rw [unfolding.keyed.uid_inj hu ht uid] at same
      rw [TaskRow.slot, same]
    have lowers : Lowers c.db (c.db.apply (.task { t with pendingDeps := t.pendingDeps - 1 })) _ :=
      lowers_task unfolding.keyed ht rfl rfl (Int.sub_le_self _ (by omega))
    rw [← tables] at lowers
    have made : (allMakeReady (stmts ++ [s]) (c.after (DistCompile.exec H o c.db s) rest)).Perm
        (t.slot :: allMakeReady stmts c) := by
      rw [allMakeReady_after, allMakeReady_top top, next, countdown, build_eq]
      exact List.perm_middle
    have called : (allFinished (stmts ++ [s]) (c.after (DistCompile.exec H o c.db s) rest)).Perm
        (t.slot :: allFinished stmts c) := by
      rw [allFinished_after, allFinished_top top, next, countdown, build_eq]
      exact List.perm_middle
    refine ⟨lowers.keyed unfolding.keyed, lowers.deps.trans unfolding.deps, ?_, ?_, fun x member => ?_,
      fun u hu member => ?_, unfolding.under_after top lowers⟩
    · exact called.nodup_iff.mpr (List.nodup_cons.mpr ⟨newFinished, unfolding.finished⟩)
    · exact made.nodup_iff.mpr (List.nodup_cons.mpr ⟨newReady, unfolding.makeReady⟩)
    · rcases List.mem_cons.mp (called.mem_iff.mp member) with rfl | old
      · exact Or.inr (made.mem_iff.mpr List.mem_cons_self)
      · exact (unfolding.caller x old).imp_right fun here => made.mem_iff.mpr (List.mem_cons_of_mem _ here)
    · obtain ⟨v, hv, rfl⟩ := List.mem_map.mp (lowers.tasks ▸ hu)
      by_cases same : v.uid = t.uid
      · rw [if_pos same]
        exact zero.le
      · rw [if_neg same] at member ⊢
        rcases List.mem_cons.mp (made.mem_iff.mp member) with slot | old
        · exact absurd (congrArg TaskRow.uid (unfolding.keyed.slot_inj hv ht slot)) same
        · exact unfolding.zero v hv old

end Step

/-- What a completion begins with. -/
def Stmt.begins : Stmt → Bool
  | .complete _ _ | .retry _ _ | .fail _ => true
  | _ => false

/-- The first statement of a completion leads to at most one call of `finished`. -/
theorem exec_first (first : s.begins = true) : ∃ root,
    ((exec H o db s).next.filterMap Stmt.finishes).Sublist [root] ∧ makeReadyCalls (exec H o db s).next = [] ∧
      ∀ n ∈ (exec H o db s).next, n.Under db root := by
  have next : (∃ build id key output size, (exec H o db s).next = [.cachePut build id key output size]) ∨
      (exec H o db s).next = [] ∨ ∃ build, (exec H o db s).next = [.progress build] := by
    cases s with
    | complete | retry | fail =>
      simp only [exec, maybeFinish]
      grind
    | _ => cases first
  rcases next with ⟨build, id, key, output, size, next⟩ | next | ⟨build, next⟩
  · rw [next]
    exact ⟨(build, id), List.Sublist.refl _, rfl, fun n member => by rw [List.mem_singleton.mp member]; exact .refl⟩
  · rw [next]
    exact ⟨(0, 0), List.nil_sublist _, rfl, fun n member => by cases member⟩
  · rw [next]
    exact ⟨(0, 0), List.nil_sublist _, rfl, fun n member => by rw [List.mem_singleton.mp member]; trivial⟩

theorem Unfolding.begin (k : db.Keyed) (first : s.begins = true) (trace : List Event) :
    ∃ root, Unfolding db.deps root [s] (Cfg.after ⟨db, [s], trace⟩ (DistCompile.exec H o db s) []) := by
  obtain ⟨f, lowers⟩ := exec_lowers (H := H) (o := o) k s
  obtain ⟨root, one, no, under⟩ := @exec_first H o db s first
  have begins : finishedCalls [s] = [] ∧ makeReadyCalls [s] = [] := by
    cases s with
    | complete | retry | fail => exact ⟨rfl, rfl⟩
    | _ => cases first
  have finished : allFinished [s] (Cfg.after ⟨db, [s], trace⟩ (DistCompile.exec H o db s) []) =
      (DistCompile.exec H o db s).next.filterMap Stmt.finishes := by
    rw [allFinished, begins.1, Cfg.after, List.append_nil, List.nil_append]
  have made : allMakeReady [s] (Cfg.after ⟨db, [s], trace⟩ (DistCompile.exec H o db s) []) = [] := by
    rw [allMakeReady, begins.2, Cfg.after, List.append_nil, no, List.nil_append]
  refine ⟨root, lowers.keyed k, lowers.deps, ?_, ?_, fun x member => ?_, fun t ht member => ?_, fun n member => ?_⟩
  · rw [finished]
    exact (List.nodup_singleton root).sublist one
  · rw [made]
    exact List.nodup_nil
  · rw [finished] at member
    exact Or.inl (List.mem_singleton.mp (one.subset member))
  · rw [made] at member
    cases member
  · rw [Cfg.after, List.append_nil] at member
    exact (under n member).later lowers

/-- What a completion has issued is nothing yet, or its calls are apart. -/
theorem unfolding_of_runs (k : db.Keyed) (acyclic : db.Acyclic) (first : s.begins = true)
    (run : Runs (Issues H o) ⟨db, [s], []⟩ stmts c) :
    (stmts = [] ∧ c = ⟨db, [s], []⟩) ∨ ∃ root, Unfolding db.deps root stmts c := by
  generalize start : (⟨db, [s], []⟩ : Cfg) = c₀ at run
  induction run with
  | nil => exact Or.inl ⟨rfl, rfl⟩
  | snoc _ last ih =>
    obtain ⟨rest, top, rfl⟩ := last
    rcases ih with ⟨rfl, rfl⟩ | ⟨root, unfolding⟩
    · subst start
      cases top
      exact Or.inr (Unfolding.begin k first [])
    · have cycles : Db.Acyclic _ := fun x chain => acyclic x (dependsOn_of_deps unfolding.deps ▸ chain)
      exact Or.inr ⟨root, unfolding.exec top o cycles⟩

end Once

theorem completeTask_begins (has : Str → Bool) (sizeOf : Str → Int) (now : Int) (r : TaskResult) :
    ∃ s : Stmt, completeTask has sizeOf now r = [s] ∧ s.begins = true := by
  unfold completeTask
  split_ifs
  all_goals exact ⟨_, rfl, rfl⟩

/-- From any tables whose dependencies have no cycle, whatever the counters and the cache are: a
completion ends, and it calls `finished` and `make_ready` at most once for each task. -/
theorem completion_calls_once {H : Sha256} {o : Options} {db : Db} (k : db.Keyed) (acyclic : db.Acyclic)
    (has : Str → Bool) (sizeOf : Str → Int) (now : Int) (r : TaskResult) :
    (∃ fuel c, run H o fuel ⟨db, completeTask has sizeOf now r, []⟩ = some c) ∧
      ∀ stmts c, Runs (Issues H o) ⟨db, completeTask has sizeOf now r, []⟩ stmts c →
        (makeReadyCalls stmts).Nodup ∧ (finishedCalls stmts).Nodup := by
  refine ⟨run_ends o k, fun stmts c run => ?_⟩
  obtain ⟨s, begins, first⟩ := completeTask_begins has sizeOf now r
  rw [begins] at run
  rcases unfolding_of_runs k acyclic first run with ⟨rfl, -⟩ | ⟨root, unfolding⟩
  · exact ⟨List.nodup_nil, List.nodup_nil⟩
  · exact ⟨unfolding.makeReady.sublist (List.sublist_append_left _ _),
      unfolding.finished.sublist (List.sublist_append_left _ _)⟩

/-- The sample, with its library in the cache. -/
def cachedSample : Db :=
  { sampleCoordinator.db with cache := [⟨sampleAction, "o:lib".toList, 5, 0⟩] }

def objectResult : TaskResult where
  taskUid := 1
  attempt := 1
  worker := "w".toList
  ok := true
  retryable := false
  output := sampleOutput
  log := []
  execMs := 7

/-- The object completes the archive as well. -/
theorem completion_calls_once_cached : ∃ stmts c,
    Runs (Issues sampleSha {}) ⟨cachedSample, completeTask (fun _ => true) (fun _ => 8) 3 objectResult, []⟩ stmts c ∧
      c.stack = [] ∧ finishedCalls stmts = [(1, 0), (1, 1)] ∧ makeReadyCalls stmts = [(1, 1)] ∧
      (makeReadyCalls stmts).Nodup ∧ (finishedCalls stmts).Nodup := by
  have keyed : cachedSample.Keyed := ⟨by decide +kernel, by decide +kernel⟩
  have layered : cachedSample.Layered := ⟨Prod.snd, by decide +kernel⟩
  obtain ⟨-, once⟩ := completion_calls_once (H := sampleSha) (o := {}) keyed layered.acyclic (fun _ => true)
    (fun _ => 8) 3 objectResult
  have ends : (run sampleSha {} 20 ⟨cachedSample, completeTask (fun _ => true) (fun _ => 8) 3 objectResult,
      []⟩).any (fun c => c.stack = []) := by decide +kernel
  obtain ⟨c, ran, empty⟩ := (Option.any_eq_true _ _).mp ends
  have issues := run_issued ran
  exact ⟨_, c, issues, by simpa using empty, by decide +kernel, by decide +kernel, once _ _ issues⟩

end DistCompile
