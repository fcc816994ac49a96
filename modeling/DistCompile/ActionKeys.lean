import DistCompile.ManifestGraph
import DistCompile.Worker

/-!
What an action key identifies (`action_key` in `src/coordinator.cpp`, `sha256_hex(parts)` in
`src/util.cpp`).

An archive or link action is its kind, its toolchain, its arguments and its inputs in order,
each a file name and a digest. The key frames the four fixed parts and then one pair for each
input; the arguments go in as one text. For the tasks of `dcc` the action is also what the
worker does: an archive has no arguments, and a link has at least its driver.
-/

namespace DistCompile

/-- What an archive or link task runs, and on what. -/
structure Action where
  kind : TaskKind
  toolchain : Str
  args : List Str
  inputs : List (Str × Str)
deriving DecidableEq, Repr

namespace Action

/-- Its key, as `submit` and `make_ready` compute it. -/
def key (H : Sha256) (a : Action) : Str :=
  actionKey H a.kind a.toolchain (joinLines a.args) (a.inputs.map Prod.fst) (a.inputs.map Prod.snd)

/-- The assignment of the action, up to the task it is handed out for. -/
def assignment (a : Action) (taskUid attempt : Nat) (name : Str) : Assignment :=
  ⟨taskUid, attempt, a.kind, name, a.inputs.map Prod.snd, a.inputs.map Prod.fst, a.args⟩

/-- The command line of the action, whether or not its driver is allowed. -/
def argv (a : Action) : List Str :=
  if a.kind = ARCHIVE then ["ar".toList, "rcsD".toList, "out".toList] ++ a.inputs.map Prod.fst
  else a.args.take 1 ++ ["-o".toList, "out".toList] ++ a.inputs.map Prod.fst ++ a.args.drop 1

/-- The parts have the sizes strings have. -/
structure Sized (a : Action) : Prop where
  toolchain : Fits a.toolchain
  args : Fits (joinLines a.args)
  inputs : ∀ input ∈ a.inputs, Fits input.1 ∧ Fits input.2

/-- An archive or a link with words as arguments. -/
structure Proper (a : Action) : Prop extends a.Sized where
  kind : a.kind = ARCHIVE ∨ a.kind = LINK
  words : ∀ w ∈ a.args, w ≠ [] ∧ '\n' ∉ w

/-- The arguments are as `dcc` gives them. -/
structure OfDcc (a : Action) : Prop where
  archive : a.kind = ARCHIVE → a.args = []
  link : a.kind = LINK → a.args ≠ []

/-- The worker would run the same command on the same input files. -/
structure SameRun (a b : Action) : Prop where
  toolchain : a.toolchain = b.toolchain
  argv : a.argv = b.argv
  inputs : a.inputs = b.inputs

/-- What `execute` runs. -/
theorem commandLine_assignment {a : Action} (kind : a.kind = ARCHIVE ∨ a.kind = LINK) {taskUid attempt : Nat}
    {name : Str} {line : List Str} (runs : commandLine (a.assignment taskUid attempt name) = .ok line) :
    line = a.argv := by
  have action : ¬ a.kind = COMPILE := by
    rcases kind with is | is <;> rw [is] <;> decide
  unfold commandLine at runs
  rw [assignment] at runs
  rw [if_neg action] at runs
  unfold argv
  split at runs
  · rename_i archive
    rw [if_pos archive]
    exact (Except.ok.inj runs).symm
  · rename_i link
    rw [if_neg link]
    split at runs
    · rename_i driver flags given
      split at runs
      · have args : a.args = driver :: flags := given
        rw [args]
        exact (Except.ok.inj runs).symm
      · cases runs
    · cases runs

theorem parts_inputs (inputs : List (Str × Str)) :
    (inputs.map Prod.fst).zip (inputs.map Prod.snd) = inputs := by
  rw [List.zip_map']
  exact List.map_id inputs

theorem Proper.fits {a : Action} (proper : a.Proper) :
    ∀ part ∈ actionParts a.kind a.toolchain (joinLines a.args) (a.inputs.map Prod.fst) (a.inputs.map Prod.snd),
      Fits part := by
  have small : Fits (decimal a.kind) := by
    rcases proper.kind with is | is <;> rw [is] <;> decide
  intro part member
  rw [actionParts, parts_inputs] at member
  simp only [List.cons_append, List.nil_append, List.mem_cons] at member
  rcases member with rfl | rfl | rfl | rfl | member
  · decide
  · exact small
  · exact proper.toSized.toolchain
  · exact proper.toSized.args
  · obtain ⟨input, inside, here⟩ := List.mem_flatMap.mp member
    simp only [List.mem_cons, List.not_mem_nil, or_false] at here
    rcases here with rfl | rfl
    · exact (proper.toSized.inputs input inside).1
    · exact (proper.toSized.inputs input inside).2

/-- Pairs written one behind the other read back. -/
theorem pairs_inj {inputs inputs' : List (Str × Str)}
    (same : inputs.flatMap (fun p => [p.1, p.2]) = inputs'.flatMap fun p => [p.1, p.2]) : inputs = inputs' := by
  induction inputs generalizing inputs' with
  | nil =>
    cases inputs' with
    | nil => rfl
    | cons input' inputs' => cases same
  | cons input inputs ih =>
    cases inputs' with
    | nil => cases same
    | cons input' inputs' =>
      simp only [List.flatMap_cons, List.cons_append, List.nil_append, List.cons.injEq] at same
      obtain ⟨name, digest, rest⟩ := same
      rw [Prod.ext name digest, ih rest]

/-- Equal keys are keys of one action. -/
theorem key_eq_iff {H : Sha256} (free : H.CollisionFree) {a b : Action} (pa : a.Proper) (pb : b.Proper) :
    a.key H = b.key H ↔ a = b := by
  constructor
  · intro same
    have parts := sha256HexParts_inj free pa.fits pb.fits same
    rw [actionParts, actionParts, parts_inputs, parts_inputs] at parts
    simp only [List.cons_append, List.nil_append, List.cons.injEq, true_and] at parts
    obtain ⟨kind, toolchain, args, inputs⟩ := parts
    have kinds : a.kind = b.kind := by
      rcases pa.kind with is | is <;> rcases pb.kind with is' | is' <;> rw [is, is'] at kind ⊢ <;>
        exact absurd kind (by decide)
    have words : a.args = b.args := joinLines_inj (fun w hw => (pa.words w hw).2) (fun w hw => (pa.words w hw).1)
      (fun w hw => (pb.words w hw).2) (fun w hw => (pb.words w hw).1) args
    cases a
    cases b
    simp only [mk.injEq]
    exact ⟨kinds, toolchain, words, pairs_inj inputs⟩
  · rintro rfl
    rfl

/-- On the tasks of `dcc` the command and the files are the whole action. -/
theorem eq_iff_sameRun {a b : Action} (pa : a.Proper) (pb : b.Proper) (da : a.OfDcc) (db : b.OfDcc) :
    a = b ↔ a.SameRun b := by
  constructor
  · rintro rfl
    exact ⟨rfl, rfl, rfl⟩
  · intro same
    have archives : ¬ LINK = ARCHIVE := by decide
    have driven : ∀ c : Action, c.kind = LINK → c.OfDcc → ∃ driver flags, c.args = driver :: flags := by
      intro c isLink ofDcc
      exact List.exists_cons_of_ne_nil (ofDcc.link isLink)
    have both : a.kind = b.kind ∧ a.args = b.args := by
      have argv := same.argv
      unfold Action.argv at argv
      rw [same.inputs] at argv
      rcases pa.kind with ka | ka
      · rcases pb.kind with kb | kb
        · exact ⟨ka.trans kb.symm, (da.archive ka).trans (db.archive kb).symm⟩
        · obtain ⟨driver, flags, given⟩ := driven b kb db
          rw [if_pos ka, kb, if_neg archives, given] at argv
          simp at argv
      · obtain ⟨driver, flags, given⟩ := driven a ka da
        rcases pb.kind with kb | kb
        · rw [ka, if_neg archives, if_pos kb, given] at argv
          simp at argv
        · obtain ⟨driver', flags', given'⟩ := driven b kb db
          rw [ka, kb, if_neg archives, if_neg archives, given, given'] at argv
          rw [ka, kb, given, given']
          simpa using argv
    cases a
    cases b
    simp only [mk.injEq]
    exact ⟨both.1, same.toolchain, both.2, same.inputs⟩

end Action

/-- The action of a task of a spec on the given inputs. -/
def TaskSpec.action (ts : TaskSpec) (toolchain : Str) (inputs : List (Str × Str)) : Action :=
  ⟨ts.kind, toolchain, ts.args, inputs⟩

/-- `submit` computes it when all dependencies are known. -/
theorem resolveInputs_keyed {H : Sha256} {spec : BuildSpec} {row : Nat → Resolved} {ts : TaskSpec}
    (action : ts.kind ≠ COMPILE) (known : ∀ d ∈ ts.depIds, (row d).output ≠ []) :
    (resolveInputs H spec row ts).key =
      (ts.action spec.toolchain (ts.depIds.map fun d => (spec.flatNameOf d, (row d).output))).key H := by
  have all : ts.depIds.filter (fun d => (row d).output ≠ []) = ts.depIds :=
    List.filter_eq_self.mpr fun d hd => by simpa using known d hd
  have none : ts.depIds.countP (fun d => (row d).output = []) = 0 :=
    List.countP_eq_zero.mpr fun d hd => by simpa using known d hd
  simp only [resolveInputs, if_neg action, all, none, if_true, Action.key, TaskSpec.action, List.map_map]
  rfl

/-- `make_ready` computes it from the rows. -/
theorem depOutputs_keyed {H : Sha256} {o : Options} {db : Db} {build id : Nat} {kind : TaskKind} {toolchain : Str}
    {args : List Str} : ∃ names digests, (exec H o db (.depOutputs build id kind (joinLines args) toolchain)).next =
      [.cacheHit build id ((Action.mk kind toolchain args
        ((db.inputsOf build id).map fun t => (flatName t.name, t.output.getD []))).key H) names digests] := by
  simp only [exec, Action.key, List.map_map]
  exact ⟨_, _, rfl⟩

/-- The arguments of the archives and links of `dcc` are words of the manifest: none for an
archive, the driver and the flags for a link. -/
theorem dcc_action {glob : Str → List Str} {text : Str} {m : Manifest} (accepted : parseManifest glob text = .ok m)
    {toolchain : Str} {partitions : Int} {p : Prepared} {ts : TaskSpec}
    (member : ts ∈ (buildSpec m toolchain partitions p).tasks) (action : ts.kind ≠ COMPILE)
    {inputs : List (Str × Str)} (sized : (ts.action toolchain inputs).Sized) :
    (ts.action toolchain inputs).Proper ∧ (ts.action toolchain inputs).OfDcc := by
  have valid := parseManifest_valid accepted
  have word : ∀ {w : Str}, IsWord w → w ≠ [] ∧ '\n' ∉ w := fun isWord => ⟨isWord.filled, isWord.newline⟩
  have apart : ARCHIVE ≠ LINK := by decide
  obtain ⟨i, found⟩ := List.mem_iff_getElem?.mp member
  rcases tasks_cases found with ⟨_, rfl⟩ | ⟨t, -, -, -, rfl⟩ | ⟨t, -, -, -, rfl⟩
  · exact absurd rfl action
  · exact ⟨⟨sized, Or.inl rfl, by simp [TaskSpec.action, archiveTask]⟩, fun _ => rfl,
      fun isLink => absurd isLink apart⟩
  · refine ⟨⟨sized, Or.inr rfl, fun w member => ?_⟩, fun isArchive => absurd isArchive apart.symm,
      fun _ => by simp [TaskSpec.action, linkTask]⟩
    rcases List.mem_cons.mp member with rfl | flag
    · split
      · exact word valid.drivers.2
      · exact word valid.drivers.1
    · exact word (valid.ldflags w flag)

/-- The text that is hashed determines the parts, for lists of any length. With collision-free
sha256, two archive or link actions have equal keys exactly when they agree in kind, toolchain,
arguments and inputs; and for any two archive or link tasks of `dcc`, whatever their manifests,
exactly when the worker would run the same command on the same input files. -/
theorem action_keys_exact :
    (∀ ps qs : List Str, (∀ part ∈ ps, Fits part) → (∀ part ∈ qs, Fits part) →
      frameParts ps = frameParts qs → ps = qs) ∧
    (∀ H : Sha256, H.CollisionFree → ∀ a b : Action, a.Proper → b.Proper →
      (a.key H = b.key H ↔
        a.kind = b.kind ∧ a.toolchain = b.toolchain ∧ a.args = b.args ∧ a.inputs = b.inputs)) ∧
    ∀ H : Sha256, H.CollisionFree → ∀ glob text m glob' text' m', parseManifest glob text = .ok m →
      parseManifest glob' text' = .ok m' → ∀ toolchain partitions p toolchain' partitions' p',
      ∀ ts ∈ (buildSpec m toolchain partitions p).tasks, ∀ ts' ∈ (buildSpec m' toolchain' partitions' p').tasks,
      ts.kind ≠ COMPILE → ts'.kind ≠ COMPILE → ∀ inputs inputs', (ts.action toolchain inputs).Sized →
      (ts'.action toolchain' inputs').Sized →
        ((ts.action toolchain inputs).key H = (ts'.action toolchain' inputs').key H ↔
          (ts.action toolchain inputs).SameRun (ts'.action toolchain' inputs')) := by
  refine ⟨fun ps qs hp hq same => frameParts_inj hp hq same, fun H free a b pa pb => ?_, ?_⟩
  · rw [Action.key_eq_iff free pa pb]
    cases a
    cases b
    simp only [Action.mk.injEq]
  · intro H free _ _ m _ _ m' accepted accepted' toolchain _ p toolchain' _ p' ts member ts' member' action action'
      inputs inputs' sized sized'
    obtain ⟨pa, da⟩ := dcc_action accepted member action sized
    obtain ⟨pb, db⟩ := dcc_action accepted' member' action' sized'
    rw [Action.key_eq_iff free pa pb, Action.eq_iff_sameRun pa pb da db]

/-- Linking the same object under two names. -/
def linkOf (name : Str) : Action := ⟨LINK, "13.3.0".toList, ["gcc".toList], [(name, List.replicate 64 'a')]⟩

theorem linkOf_proper : (linkOf "a.o".toList).Proper ∧ (linkOf "b.o".toList).Proper :=
  ⟨⟨⟨by decide, by decide, by decide⟩, by decide, by decide⟩, ⟨⟨by decide, by decide, by decide⟩, by decide, by decide⟩⟩

theorem action_keys_exact_renamed : ∃ H : Sha256, H.CollisionFree ∧
    (linkOf "a.o".toList).key H ≠ (linkOf "b.o".toList).key H := by
  have free : (Sha256.ofTable [] (by simp)).CollisionFree :=
    (Sha256.ofTable_inverse (by simp) (by simp) (by simp)).injective
  refine ⟨_, free, fun same => ?_⟩
  have exact_ := (action_keys_exact.2.1 _ free _ _ linkOf_proper.1 linkOf_proper.2).mp same
  exact absurd exact_.2.2.2 (by decide)

end DistCompile
