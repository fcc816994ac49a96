import DistCompile.ReadCommitted

/-!
Every edge is counted once, and the transaction that reaches zero sees every
input.

Three facts about the traces of transactions. The values that the countdowns of
one task return go down by one from the committed counter (`Descends`). A
countdown to zero is followed by the `dep_outputs` query of that task, which finds
all dependencies with their outputs (`Answered`). And the edges counted are those
leaving the tasks that were finished (`Mid.edges`). Each is kept by a statement,
survives the commits of others, and adds up over the committed history.
-/

namespace DistCompile

open DistCompile.Lib

/-! ### Values returned by countdowns -/

/-- What `RETURNING pending_deps` gave for the task in slot `s`, in order. -/
def countdowns (s : Nat × Nat) (trace : List Event) : List Int :=
  trace.filterMap fun
    | .counted build _ task left => if (build, task) = s then some left else none
    | _ => none

/-- The first `k` values below `start`. -/
def descending (start : Int) (k : Nat) : List Int := (List.range k).map fun i => start - 1 - i

theorem descending_succ (start : Int) (k : Nat) :
    descending start (k + 1) = descending start k ++ [start - 1 - k] := by
  simp [descending, List.range_succ]

theorem descending_append (start : Int) (k l : Nat) :
    descending start k ++ descending (start - k) l = descending start (k + l) := by
  induction l with
  | zero => simp [descending]
  | succ l ih =>
    rw [descending_succ, ← List.append_assoc, ih, ← Nat.add_assoc, descending_succ]
    congr 2
    push_cast
    omega

/-- Zero is reached at most once, by the last of `start` countdowns. -/
theorem count_zero_descending {start : Int} {k : Nat} (positive : 0 < start) (bound : k ≤ start) :
    (descending start k).count 0 = if (k : Int) = start then 1 else 0 := by
  induction k with
  | zero =>
    rw [if_neg (by omega)]
    rfl
  | succ k ih =>
    rw [descending_succ, List.count_append, ih (by omega), if_neg (by omega), List.count_singleton]
    have same : (start - 1 - (k : Int) == 0) = decide (((k + 1 : Nat) : Int) = start) := by
      rw [Bool.eq_iff_iff]
      simp only [beq_iff_eq, decide_eq_true_eq]
      omega
    rw [same]
    simp

theorem countdowns_append (s : Nat × Nat) (v w : List Event) :
    countdowns s (v ++ w) = countdowns s v ++ countdowns s w := List.filterMap_append ..

theorem countedEdges_append (v w : List Event) :
    countedEdges (v ++ w) = countedEdges v ++ countedEdges w := List.filterMap_append ..

/-- The countdowns of every task go down by one from the committed counter. -/
def Descends (com : Db) (trace : List Event) : Prop :=
  ∀ u ∈ com.tasks, countdowns u.slot trace =
    descending u.pendingDeps (entering u.slot (countedEdges trace))

/-- Only `count_down` counts. -/
theorem countdowns_quiet (H : Sha256) (o : Options) (db : Db) {s : Stmt}
    (other : ∀ build id uid, s ≠ .countDown build id uid) (slot : Nat × Nat) :
    countdowns slot (exec H o db s).event.toList = [] ∧
      countedEdges (exec H o db s).event.toList = [] := by
  cases s with
  | countDown build id uid => exact absurd rfl (other build id uid)
  | _ =>
    simp only [exec]
    grind [countdowns, countedEdges, Option.toList]

theorem Descends.exec {H : Sha256} {o : Options} {com : Db} {c : Cfg} (m : Mid H com c)
    (base : Consistent H com) {s : Stmt} {rest : List Stmt} (top : c.stack = s :: rest)
    (down : Descends com c.trace) :
    Descends com (c.trace ++ (exec H o c.db s).event.toList) := by
  intro u hu
  rw [countdowns_append, countedEdges_append, entering_append, down u hu]
  by_cases counts : ∃ build id uid, s = .countDown build id uid
  · obtain ⟨build, id, uid, rfl⟩ := counts
    obtain ⟨t, ht, uid_eq, build_eq⟩ := m.ok (.countDown build id uid) (by simp [top])
    have found := (Db.task?_eq_some (m.keyed base.keyed)).mpr ⟨ht, uid_eq⟩
    have slot : (build, t.id) = t.slot := by rw [TaskRow.slot, build_eq]
    simp only [DistCompile.exec, found, Option.toList_some, countdowns, countedEdges,
      List.filterMap_cons, List.filterMap_nil, slot]
    by_cases here : t.slot = u.slot
    · -- the row's counter is the committed one less what was counted before
      have same : t.uid = u.uid := by
        obtain ⟨v, hv, vsame⟩ := Db.mem_of_fixed m.grows.fixed.symm ht
        have : v = u := base.keyed.slot_inj hv hu ((slot_of_fixed vsame).trans here)
        rw [← this, uid_of_fixed vsame]
      have counter := m.counts t ht u hu same
      rw [here] at counter
      have one : entering u.slot [(build, id, t.id)] = 1 := by
        simp [entering, ← here, ← slot]
      have value : t.pendingDeps - 1 =
          u.pendingDeps - 1 - (entering u.slot (countedEdges c.trace) : Int) := by omega
      rw [if_pos here, one, descending_succ, value]
      rfl
    · have zero : entering u.slot [(build, id, t.id)] = 0 := by
        simp only [entering, List.countP_singleton, slot]
        simp [here]
      rw [if_neg here, zero]
      simp
  · simp only [not_exists] at counts
    obtain ⟨noValue, noEdge⟩ := countdowns_quiet H o c.db counts u.slot
    rw [noValue, noEdge]
    simp [entering]

/-! ### Inputs seen by the transaction that reaches zero -/

/-- The edges into slot `s`, `ORDER BY pos`. -/
def Db.sortedDeps (db : Db) (s : Nat × Nat) : List TaskDep :=
  (db.deps.filter fun d => d.build = s.1 && d.task = s.2).insertionSort fun d e => d.pos ≤ e.pos

/-- The rows `dep_outputs` returned for slot `s`: for each edge in `pos` order the
name and the non-null output of the finished dependency. -/
def Answer (db : Db) (s : Nat × Nat) (rows : List (Str × Option Str)) : Prop :=
  List.Forall₂ (fun (d : TaskDep) row => ∃ t ∈ db.tasks, t.slot = d.source ∧
    t.state.finished = true ∧ row = (t.name, t.output) ∧ row.2 ≠ none) (db.sortedDeps s) rows

/-- The task whose `dep_outputs` is the next query of the transaction. -/
def awaiting : List Stmt → Option (Nat × Nat)
  | .taskInfo build id :: _ | .depOutputs build id _ _ _ :: _ => some (build, id)
  | _ => none

/-- Every countdown to zero is followed by the inputs of its task, except that the
last one may still await them. -/
def Answered (db : Db) (open_ : Option (Nat × Nat)) (trace : List Event) : Prop :=
  ∀ pre build dep task post, trace = pre ++ .counted build dep task 0 :: post →
    (post = [] ∧ open_ = some (build, task)) ∨
      ∃ rows later, post = .inputs build task rows :: later ∧ Answer db (build, task) rows

theorem Answer.grow {db db' : Db} (g : Db.Grows db db') {s : Nat × Nat} {rows : List (Str × Option Str)}
    (answer : Answer db s rows) : Answer db' s rows := by
  unfold Answer Db.sortedDeps at *
  rw [g.deps]
  refine answer.imp fun d row seen => ?_
  obtain ⟨t, ht, slot, done, rest⟩ := seen
  exact ⟨t, g.keeps t ht done, slot, done, rest⟩

theorem Answered.grow {db db' : Db} (g : Db.Grows db db') {open_ : Option (Nat × Nat)}
    {trace : List Event} (answered : Answered db open_ trace) : Answered db' open_ trace := by
  intro pre build dep task post split
  rcases answered pre build dep task post split with last | ⟨rows, later, next, answer⟩
  · exact Or.inl last
  · exact Or.inr ⟨rows, later, next, answer.grow g⟩

/-- A trace with one more event, seen from an event in it. -/
theorem snoc_eq_append_cons {α : Type} {trace pre post : List α} {e x : α}
    (split : trace ++ [e] = pre ++ x :: post) :
    (post = [] ∧ pre = trace ∧ x = e) ∨ ∃ post', post = post' ++ [e] ∧ trace = pre ++ x :: post' := by
  rcases List.eq_nil_or_concat post with rfl | ⟨post', last, rfl⟩
  · obtain ⟨same, rest⟩ := List.append_inj' split rfl
    cases rest
    exact Or.inl ⟨rfl, same.symm, rfl⟩
  · rw [List.concat_eq_append, ← List.cons_append, ← List.append_assoc] at split
    obtain ⟨same, rest⟩ := List.append_inj' split rfl
    cases rest
    exact Or.inr ⟨post', List.concat_eq_append .., same⟩

theorem Answered.weaken {db : Db} {open_ : Option (Nat × Nat)} {trace : List Event}
    (answered : Answered db none trace) : Answered db open_ trace := by
  intro pre build dep task post split
  rcases answered pre build dep task post split with ⟨-, impossible⟩ | later
  · cases impossible
  · exact Or.inr later

/-- With nothing awaited, an event that starts nothing else. -/
theorem Answered.snoc {db : Db} {open_ : Option (Nat × Nat)} {trace : List Event} {e : Event}
    (answered : Answered db none trace)
    (new : ∀ build dep task, e = .counted build dep task 0 → open_ = some (build, task)) :
    Answered db open_ (trace ++ [e]) := by
  intro pre build dep task post split
  rcases snoc_eq_append_cons split with ⟨rfl, -, here⟩ | ⟨post', rfl, before⟩
  · exact Or.inl ⟨rfl, new build dep task here.symm⟩
  · rcases answered pre build dep task post' before with ⟨-, impossible⟩ | ⟨rows, later, rfl, answer⟩
    · cases impossible
    · exact Or.inr ⟨rows, later ++ [e], rfl, answer⟩

/-- The awaited inputs arrive. -/
theorem Answered.arrive {db : Db} {trace : List Event} {build task : Nat}
    {rows : List (Str × Option Str)} (answered : Answered db (some (build, task)) trace)
    (answer : Answer db (build, task) rows) :
    Answered db none (trace ++ [.inputs build task rows]) := by
  intro pre build' dep task' post split
  rcases snoc_eq_append_cons split with ⟨-, -, here⟩ | ⟨post', rfl, before⟩
  · cases here
  · rcases answered pre build' dep task' post' before with ⟨rfl, here⟩ | ⟨rows', later, rfl, answer'⟩
    · cases here
      exact Or.inr ⟨rows, [], rfl, answer⟩
    · exact Or.inr ⟨rows', _, rfl, answer'⟩

/-- What `dep_outputs` returns once every dependency is finished. -/
theorem answer_of_ready {H : Sha256} {com : Db} {c : Cfg} (m : Mid H com c) (base : Consistent H com)
    {s : Nat × Nat} (ready : ∀ d ∈ c.db.deps, d.target = s → c.db.Finished d.source) :
    Answer c.db s ((c.db.inputsOf s.1 s.2).map fun t => (t.name, t.output)) := by
  have k := m.keyed base.keyed
  have each : ∀ d ∈ c.db.sortedDeps s, c.db.Finished d.source := by
    intro d hd
    rw [Db.sortedDeps, List.mem_insertionSort, List.mem_filter] at hd
    simp only [Bool.and_eq_true, decide_eq_true_eq] at hd
    exact ready d hd.1 (by rw [TaskDep.target, hd.2.1, hd.2.2])
  change List.Forall₂ _ (c.db.sortedDeps s) (((c.db.sortedDeps s).flatMap _).map _)
  revert each
  induction c.db.sortedDeps s with
  | nil => exact fun _ => .nil
  | cons d deps ih =>
    intro each
    obtain ⟨t, ht, slot, done⟩ := each d (by simp)
    rw [List.flatMap_cons, List.map_append, Db.filter_slot k ht slot]
    obtain ⟨output, stored, -⟩ := m.output t ht done
    exact .cons ⟨t, ht, slot, done, rfl, by simp [stored]⟩ (ih fun e he => each e (by simp [he]))

theorem Answered.exec {H : Sha256} {o : Options} {com : Db} {c : Cfg} (m : Mid H com c)
    (base : Consistent H com) {s : Stmt} {rest : List Stmt} (top : c.stack = s :: rest)
    (answered : Answered c.db (awaiting c.stack) c.trace) :
    Answered ((exec H o c.db s).db c.db) (awaiting ((exec H o c.db s).next ++ rest))
      (c.trace ++ (exec H o c.db s).event.toList) := by
  have k := m.keyed base.keyed
  have ok := m.ok s (by simp [top])
  have g := m.exec_grows base o top
  rw [top] at answered
  have silent : awaiting (s :: rest) = none → (DistCompile.exec H o c.db s).event = none →
      Answered ((DistCompile.exec H o c.db s).db c.db)
        (awaiting ((DistCompile.exec H o c.db s).next ++ rest))
        (c.trace ++ (DistCompile.exec H o c.db s).event.toList) := by
    intro nothing quiet
    rw [quiet, Option.toList_none, List.append_nil]
    rw [nothing] at answered
    exact (answered.grow g).weaken
  cases s with
  | countDown build id uid =>
    obtain ⟨t, ht, uid_eq, build_eq⟩ := ok
    have found := (Db.task?_eq_some k).mpr ⟨ht, uid_eq⟩
    simp only [DistCompile.exec, found, Option.toList_some] at g ⊢
    refine (answered.grow g).snoc fun build' dep task here => ?_
    simp only [Event.counted.injEq] at here
    rw [if_pos here.2.2.2, ← here.1, ← here.2.2.1]
    rfl
  | depOutputs build id kind args toolchain =>
    obtain ⟨t, ht, slot, -⟩ := ok
    have subj : subject c.stack = some t.slot := by rw [top, slot]; rfl
    have zero := m.zero t ht subj
    have ready := m.ready base ht (by omega)
    rw [slot] at ready
    exact (answered.arrive (answer_of_ready m base ready))
  | taskInfo build id =>
    obtain ⟨t, ht, slot, -⟩ := ok
    simp only [DistCompile.exec, (Db.taskAt?_eq_some k).mpr ⟨ht, slot⟩]
    rw [Option.toList_none, List.append_nil]
    exact answered
  | progress build =>
    refine (answered.grow g).snoc fun build' dep task here => ?_
    cases here
  | _ => exact silent rfl (by simp only [DistCompile.exec] <;> grind)

/-! ### Commits of others -/

section Rebase

variable {H : Sha256} {com com' : Db} {tx : Tx}

theorem length_countdowns (s : Nat × Nat) (trace : List Event) :
    (countdowns s trace).length = entering s (countedEdges trace) := by
  induction trace with
  | nil => rfl
  | cons e trace ih =>
    rw [← List.singleton_append, countdowns_append, countedEdges_append, entering_append,
      List.length_append, ih]
    congr 1
    cases e with
    | counted build dep task left =>
      by_cases here : (build, task) = s
      · simp [countdowns, countedEdges, entering, here]
      · simp [countdowns, countedEdges, entering, here]
    | inputs build task rows => rfl
    | progressed build left failed => rfl

theorem Descends.rebase (good : tx.Good H com)
    (rb : Rebase tx.locks com com') (down : Descends com tx.trace) : Descends com' tx.trace := by
  intro u hu
  by_cases locked : Lock.task u.uid ∈ tx.locks
  · exact down u ((rb.mem_locked locked).mp hu)
  · -- no edge into an unlocked row has been counted
    obtain ⟨r, hr, same⟩ := Db.mem_of_fixed rb.grows.fixed.symm hu
    have inView := (mem_view_unlocked good.owns (by rwa [uid_of_fixed same])).mpr hr
    have counted := good.mid.counts r inView r hr rfl
    have none_ : entering u.slot (countedEdges tx.trace) = 0 := by
      rw [← slot_of_fixed same]
      simp only [Tx.cfg] at counted
      omega
    have empty := length_countdowns u.slot tx.trace
    rw [none_] at empty ⊢
    rw [List.length_eq_zero_iff.mp empty]
    rfl

end Rebase

/-- Edges finished in two stages. -/
theorem newEdges_trans {com₀ com db : Db} (first : Db.Grows com₀ com) (second : Db.Grows com db) :
    (newEdges com₀ com ++ newEdges com db).Perm (newEdges com₀ db) := by
  have split : (com₀.deps.filter fun d => db.Finished d.source ∧ ¬ com₀.Finished d.source) =
      com₀.deps.filter fun d => (db.Finished d.source ∧ ¬ com.Finished d.source) ∨
        (com.Finished d.source ∧ ¬ com₀.Finished d.source) := by
    refine List.filter_congr fun d _ => ?_
    rw [decide_eq_decide]
    constructor
    · rintro ⟨done, fresh⟩
      by_cases mid : com.Finished d.source
      · exact Or.inr ⟨mid, fresh⟩
      · exact Or.inl ⟨done, mid⟩
    · rintro (⟨done, fresh⟩ | ⟨done, fresh⟩)
      · exact ⟨done, fun before => fresh (first.finished before)⟩
      · exact ⟨second.finished done, fresh⟩
  rw [newEdges, newEdges, newEdges, split, first.deps, ← List.map_append]
  refine List.Perm.map _ (filter_or_perm _ _ ?_ _).symm
  rintro d ⟨-, fresh⟩ ⟨done, -⟩
  exact fresh done

/-! ### The committed history -/

/-- What holds of the history of a run that started from `com₀`. -/
structure History (H : Sha256) (com₀ : Db) {n : Nat} (w : World n) : Prop where
  inv : w.Inv H
  grows : Db.Grows com₀ w.com
  edges : (countedEdges w.history.flatten).Perm (newEdges com₀ w.com)
  down : Descends com₀ w.history.flatten
  counts : ∀ t ∈ w.com.tasks, ∀ u ∈ com₀.tasks, t.uid = u.uid →
    t.pendingDeps + entering t.slot (countedEdges w.history.flatten) = u.pendingDeps
  answered : ∀ trace ∈ w.history, Answered w.com none trace
  txDown : ∀ i tx, w.txs i = some tx → Descends w.com tx.trace
  txAnswered : ∀ i tx, w.txs i = some tx →
    Answered (tx.view w.com) (awaiting tx.stack) tx.trace

section History

variable {H : Sha256} {o : Options} {n : Nat} {com₀ : Db} {w w' : World n} {a : Act n}

theorem descends_nil (com : Db) : Descends com [] := fun _ _ => rfl

theorem answered_nil (db : Db) (open_ : Option (Nat × Nat)) : Answered db open_ [] := by
  intro pre build dep task post split
  cases pre <;> cases split

theorem History.start (base : Consistent H com₀) :
    History H com₀ (⟨com₀, fun _ => none, []⟩ : World n) where
  inv := .start base fun _ => rfl
  grows := .refl com₀
  edges := by simp [countedEdges, newEdges]
  down := descends_nil com₀
  counts t ht u hu same := by
    rw [base.keyed.uid_inj ht hu same]
    simp [countedEdges, entering]
  answered := by simp
  txDown i tx running := by cases running
  txAnswered i tx running := by cases running

/-- The commit of a transaction appends its trace. -/
theorem History.commit (h : History H com₀ w) {i : Fin n} {tx : Tx} (runs : w.txs i = some tx)
    (empty : tx.stack = []) (inv : World.Inv H
      (⟨tx.view w.com, Function.update w.txs i none, w.history ++ [tx.trace]⟩ : World n)) :
    History H com₀ (⟨tx.view w.com, Function.update w.txs i none, w.history ++ [tx.trace]⟩ : World n) := by
  have good := h.inv.good i tx runs
  have g : Db.Grows w.com (tx.view w.com) := good.mid.grows
  have flat : (w.history ++ [tx.trace]).flatten = w.history.flatten ++ tx.trace := by simp
  have others : ∀ j tx', Function.update w.txs i none j = some tx' →
      w.txs j = some tx' ∧ Rebase tx'.locks w.com (tx.view w.com) := by
    intro j tx' running
    rw [Function.update_apply] at running
    split at running
    · cases running
    · rename_i away
      exact ⟨running, good.rebase_of_commit (h.inv.apart i j tx tx' (Ne.symm away) runs running)⟩
  refine ⟨inv, h.grows.trans g, ?_, ?_, ?_, ?_, ?_, ?_⟩
  · have mine := good.mid.edges
    simp only [Tx.cfg, empty, dueEdges, List.flatMap_nil, List.append_nil] at mine
    rw [flat, countedEdges_append]
    exact (h.edges.append mine).trans (newEdges_trans h.grows g)
  · intro u hu
    obtain ⟨t, ht, same⟩ := Db.mem_of_fixed h.grows.fixed hu
    have slot := slot_of_fixed same
    have later := h.txDown i tx runs t ht
    have counter := h.counts t ht u hu (uid_of_fixed same)
    rw [slot] at later counter
    have here : t.pendingDeps =
        u.pendingDeps - (entering u.slot (countedEdges w.history.flatten) : Int) := by omega
    rw [flat, countdowns_append, countedEdges_append, entering_append, h.down u hu, later, here,
      descending_append]
  · intro t ht u hu same
    obtain ⟨v, hv, vsame⟩ := Db.mem_of_fixed g.fixed.symm ht
    have later := good.mid.counts t ht v hv (uid_of_fixed vsame).symm
    have before := h.counts v hv u hu ((uid_of_fixed vsame).trans same)
    rw [slot_of_fixed vsame] at before
    simp only [Tx.cfg] at later
    rw [flat, countedEdges_append, entering_append]
    push_cast
    omega
  · intro trace member
    rcases List.mem_append.mp member with old | new
    · exact (h.answered trace old).grow g
    · rw [List.mem_singleton.mp new]
      have mine := h.txAnswered i tx runs
      rw [empty] at mine
      exact mine
  · intro j tx' running
    obtain ⟨before, rb⟩ := others j tx' running
    exact (h.txDown j tx' before).rebase (h.inv.good j tx' before) rb
  · intro j tx' running
    obtain ⟨before, rb⟩ := others j tx' running
    have good' := h.inv.good j tx' before
    exact (h.txAnswered j tx' before).grow
      (view_grows_rebase good'.owns rb h.inv.base.keyed good'.mid.grows)

/-- A claim leaves the history as it is. -/
theorem History.claim (h : History H com₀ w) {worker : Str} {now : Int} {t : TaskRow}
    (ht : t ∈ w.com.tasks) (ready : t.state = .ready)
    (free : ∀ j tx, w.txs j = some tx → Lock.task t.uid ∉ tx.locks)
    (inv : World.Inv H { w with com := w.com.apply (.task (claimedRow o worker now t)) }) :
    History H com₀ { w with com := w.com.apply (.task (claimedRow o worker now t)) } := by
  have unfinished : t.state.finished = false := by rw [ready]; rfl
  have fixed : (claimedRow o worker now t).fixed = t.fixed := rfl
  have g : Db.Grows w.com (w.com.apply (.task (claimedRow o worker now t))) :=
    Db.grows_apply_task h.inv.base.keyed ht fixed unfinished
  refine ⟨inv, h.grows.trans g, ?_, h.down, ?_, fun trace member => (h.answered trace member).grow g,
    ?_, ?_⟩
  · have same : newEdges com₀ (w.com.apply (.task (claimedRow o worker now t))) =
        newEdges com₀ w.com := newEdges_unfinished h.inv.base.keyed ht fixed unfinished rfl
    change (countedEdges w.history.flatten).Perm (newEdges com₀ (w.com.apply _))
    rw [same]
    exact h.edges
  · intro v hv u hu same
    rcases (Db.mem_apply_task ht fixed).mp hv with rfl | ⟨old, -⟩
    · exact h.counts t ht u hu same
    · exact h.counts v old u hu same
  · intro j tx running
    exact (h.txDown j tx running).rebase (h.inv.good j tx running)
      (rebase_of_claim h.inv.base ht ready (free j tx running))
  · intro j tx running
    have good := h.inv.good j tx running
    exact (h.txAnswered j tx running).grow (view_grows_rebase good.owns
      (rebase_of_claim h.inv.base ht ready (free j tx running)) h.inv.base.keyed good.mid.grows)

/-- Every step keeps the history right. -/
theorem History.move (h : History H com₀ w) (taken : World.Move H o w a w') : History H com₀ w' := by
  have inv := h.inv.move taken
  cases taken with
  | @begin i blobs now r idle =>
    refine ⟨inv, h.grows, h.edges, h.down, h.counts, h.answered, fun j tx running => ?_,
      fun j tx running => ?_⟩
    · rw [setTx_txs] at running
      split at running
      · cases running
        exact descends_nil _
      · exact h.txDown j tx running
    · rw [setTx_txs] at running
      split at running
      · cases running
        exact answered_nil _ _
      · exact h.txAnswered j tx running
  | @exec i tx s rest runs top enabled =>
    have good := h.inv.good i tx runs
    refine ⟨inv, h.grows, h.edges, h.down, h.counts, h.answered, fun j tx' running => ?_,
      fun j tx' running => ?_⟩
    · rw [setTx_txs] at running
      split at running
      · cases running
        exact (h.txDown i tx runs).exec good.mid h.inv.base top
      · exact h.txDown j tx' running
    · rw [setTx_txs] at running
      split at running
      · cases running
        change Answered (Tx.view _ w.com) _ _
        rw [Tx.view_after]
        exact Answered.exec good.mid h.inv.base top (h.txAnswered i tx runs)
      · exact h.txAnswered j tx' running
  | commit runs empty => exact h.commit runs empty inv
  | @abort i tx runs =>
    refine ⟨inv, h.grows, h.edges, h.down, h.counts, h.answered, fun j tx' running => ?_,
      fun j tx' running => ?_⟩
    · rw [setTx_txs] at running
      split at running
      · cases running
      · exact h.txDown j tx' running
    · rw [setTx_txs] at running
      split at running
      · cases running
      · exact h.txAnswered j tx' running
  | claim ht ready free => exact h.claim ht ready free inv

end History

/-! ### Exactly once -/

/-- What the committed transactions did about the edges and tasks of `com₀`. -/
structure ExactlyOnce (com₀ : Db) {n : Nat} (w : World n) : Prop where
  /-- no edge is counted down twice -/
  edges : (countedEdges w.history.flatten).Nodup
  /-- one transaction saw the counter reach zero, once all dependencies were finished -/
  once : ∀ u ∈ com₀.tasks, u.state = .waiting →
    (w.history.filter fun trace => 0 ∈ countdowns u.slot trace).length =
      if ∀ d ∈ w.com.deps, d.target = u.slot → w.com.Finished d.source then 1 else 0
  /-- its next query returned every input -/
  inputs : ∀ trace ∈ w.history, ∀ pre build dep task post,
    trace = pre ++ .counted build dep task 0 :: post →
      ∃ rows later, post = .inputs build task rows :: later ∧ Answer w.com (build, task) rows

/-- Lists that hold an element at most once between them: as many hold it as it
occurs. -/
theorem length_filter_mem {α : Type} [DecidableEq α] (x : α) (ls : List (List α))
    (once : ls.flatten.count x ≤ 1) : (ls.filter fun l => x ∈ l).length = ls.flatten.count x := by
  induction ls with
  | nil => rfl
  | cons l ls ih =>
    rw [List.flatten_cons, List.count_append] at once ⊢
    have rest := ih (by omega)
    by_cases member : x ∈ l
    · have here := List.count_pos_iff.mpr member
      rw [List.filter_cons_of_pos (by simpa using member), List.length_cons, rest]
      omega
    · rw [List.filter_cons_of_neg (by simpa using member), rest, List.count_eq_zero.mpr member,
        Nat.zero_add]

theorem countdowns_flatten (s : Nat × Nat) (history : List (List Event)) :
    countdowns s history.flatten = (history.map (countdowns s)).flatten := by
  induction history with
  | nil => rfl
  | cons trace history ih => rw [List.flatten_cons, countdowns_append, ih]; rfl

theorem History.exactlyOnce {H : Sha256} {com₀ : Db} {n : Nat} {w : World n}
    (base : Consistent H com₀) (h : History H com₀ w) : ExactlyOnce com₀ w where
  edges := by
    refine h.edges.nodup_iff.mpr ?_
    exact (List.Sublist.map _ List.filter_sublist).nodup base.edges
  once u hu waits := by
    obtain ⟨t, ht, same⟩ := Db.mem_of_fixed h.grows.fixed hu
    have slot := slot_of_fixed same
    have counter := h.counts t ht u hu (uid_of_fixed same)
    have pending := h.inv.base.pending t ht
    rw [slot] at counter pending
    have positive := (base.waiting u hu).mp waits
    have zeros : (countdowns u.slot w.history.flatten).count 0 =
        if (entering u.slot (countedEdges w.history.flatten) : Int) = u.pendingDeps then 1 else 0 := by
      rw [h.down u hu]
      exact count_zero_descending positive (by omega)
    have settled : (entering u.slot (countedEdges w.history.flatten) : Int) = u.pendingDeps ↔
        ∀ d ∈ w.com.deps, d.target = u.slot → w.com.Finished d.source := by
      rw [← unfinishedDeps_eq_zero]
      omega
    have total := length_filter_mem 0 (w.history.map (countdowns u.slot)) (by
      rw [← countdowns_flatten, zeros]
      split
      · exact le_refl 1
      · exact Nat.zero_le 1)
    rw [← countdowns_flatten, zeros, List.filter_map, List.length_map] at total
    simp only [← settled]
    exact total
  inputs trace member pre build dep task post split := by
    rcases h.answered trace member pre build dep task post split with ⟨-, impossible⟩ | later
    · cases impossible
    · exact later

/-- From every reachable state, over every interleaving of completions: each edge
is counted once, one committed transaction sees each waiting task become ready,
and that transaction sees all its inputs. -/
theorem completions_count_once {H : Sha256} {o : Options} {calls : List Call} {c : Coordinator}
    (reached : Runs (Meets (Step H o) fun _ call => call.Flat) {} calls c) {n : Nat}
    {acts : List (Act n)} {w : World n}
    (run : Runs (World.Step H o) ⟨c.db, fun _ => none, []⟩ acts w) : ExactlyOnce c.db w := by
  have base := Runs.consistent reached
  refine History.exactlyOnce base ?_
  exact run.invariant (P := History H c.db) (History.start base) fun taken h => h.move taken.move

/-- The object of the sample, reported twice: the second report waits for the
first to commit and then finds the task done. -/
def sampleActs : List (Act 2) :=
  let blobs : Blobs := [(sampleOutput, "o:int f;".toList)]
  let result : TaskResult := ⟨1, 1, "w".toList, true, false, sampleOutput, [], 7⟩
  [.begin 0 blobs 0 result, .exec 0, .begin 1 blobs 0 result] ++ List.replicate 8 (.exec 0) ++
    [.commit 0, .exec 1, .commit 1]

theorem completions_count_once_sample :
    ∃ calls c acts, ∃ w : World 2,
      Runs (Meets (Step sampleSha {}) fun _ call => call.Flat) {} calls c ∧
      Runs (World.Step sampleSha {}) ⟨c.db, fun _ => none, []⟩ acts w ∧
      w.history.map List.length = [2, 0] ∧ ExactlyOnce c.db w := by
  obtain ⟨calls, reached⟩ := sample_reached
  have replay : (sampleActs.foldlM (World.step sampleSha {})
      ⟨sampleCoordinator.db, fun _ => none, []⟩).map (fun w => w.history.map List.length) =
      some [2, 0] := by decide +kernel
  obtain ⟨w, ran, lengths⟩ := Option.map_eq_some_iff.mp replay
  have run := Runs.of_foldlM ran
  exact ⟨calls, sampleCoordinator, sampleActs, w, reached, run, lengths,
    completions_count_once reached run⟩

end DistCompile
