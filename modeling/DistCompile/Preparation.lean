import DistCompile.Uploads

/-!
The steps of a build in front of its submit, in one go (`run_preprocess` and steps 1 to 3 of
`build` in `src/dcc.cpp`).

`prepare` is what a build does and says up to `SubmitBuild`: the runs of the preprocessor,
the calls to the coordinator with what they carry, and the message it ends with. What the
files look like, how each preprocessor run ends and what the coordinator replies are
arguments (`Surroundings`).

The loop behind the first parallel one reports an error. Behind the second there is no such
loop: a unit whose second run fails keeps the digest of the state file and an empty text.

Where no run and no call fails, the steps of `Uploads` lead to the same submit (`prepare_steps`).
-/

namespace DistCompile.Uploads

open DistCompile.Lib DistCompile.Incremental

/-! ### What a build does -/

/-- What a build meets: the tree as each unit's thread sees it, the outcomes of the
preprocessor in the two parallel loops, and the replies, each with the message of a failed
call. `putBlobs k` is the error of the `k`-th upload. -/
structure Surroundings where
  root : Str := ".".toList
  tree : Str → Tree
  first : Str → Preprocessed
  second : Str → Preprocessed
  checkCache : Except Str (List Str)
  findMissing : Except Str (List Str)
  putBlobs : Nat → Option Str := fun _ => none

/-- What a build does: a preprocessor run of a unit, a call, the report of a unit's error, or
an exception with its message. A blob comes with the unit it is made of. -/
inductive Effect where
  | preprocess (src : Str) (outcome : Preprocessed)
  | checkCache (keys : List Str)
  | findMissing (hashes : List Str)
  | putBlobs (batch : List (Str × Blob))
  | submitBuild (spec : BuildSpec)
  | report (src error : Str)
  | failed (message : Str)
deriving DecidableEq

section Steps

variable (H : Sha256) (s : Setup) (e : Surroundings)

/-- The saved unit that the first loop reuses. -/
def reusable (src : Str) : Option SourceUnit :=
  (loadState s.file (stateConfig H s.m s.toolchain) src).filter fun old => stillValid (e.tree src) e.root old

/-- The first loop, for one unit. -/
def keyUnit (src : Str) : TextUnit :=
  match reusable H s e src with
  | some old => reuseUnit { src } old
  | none => runPreprocess H s { src } (e.first src)

/-- The preprocessor runs of the first loop. -/
def keyRuns : List Effect :=
  ((unitSources s.m).filter fun src => (reusable H s e src).isNone).map fun src => .preprocess src (e.first src)

/-- The unit whose error is reported. -/
def firstError : Option Str := (unitSources s.m).find? fun src => (keyUnit H s e src).error ≠ []

/-- `need`. -/
def needed (hits : List Str) : List Str := (unitSources s.m).filter fun src => (keyUnit H s e src).key ∉ hits

/-- The units without a text among them: those the second loop preprocesses. -/
def textless (hits : List Str) : List Str := (needed H s e hits).filter fun src => !(keyUnit H s e src).fresh

/-- A unit after the second loop. -/
def textUnit (hits : List Str) (src : Str) : TextUnit :=
  if src ∈ textless H s e hits then runPreprocess H s (keyUnit H s e src) (e.second src) else keyUnit H s e src

/-- The blobs that the loop over `need` sends, batch by batch; the last call of `flush` sends
nothing where the batch is empty. -/
def batches (units : Str → TextUnit) : List Str → List Str → List (Str × Blob) → List (List (Str × Blob))
  | [], _, batch => if batch = [] then [] else [batch]
  | src :: rest, toSend, batch =>
      if (units src).digest ∈ toSend then
        let batch := batch ++ [(src, ⟨(units src).digest, (units src).text⟩)]
        let toSend := toSend.filter fun h => h ≠ (units src).digest
        if full (batch.map Prod.snd) then batch :: batches units rest toSend []
        else batches units rest toSend batch
      else batches units rest toSend batch

/-- The uploads from the `k`-th on, and what follows them: a failed one ends the build. -/
def upload (spec : BuildSpec) : Nat → List (List (Str × Blob)) → List Effect
  | _, [] => [.submitBuild spec]
  | k, batch :: rest => .putBlobs batch :: match e.putBlobs k with
    | some message => [.failed ("upload: ".toList ++ message)]
    | none => upload spec (k + 1) rest

/-- The spec made of these units. -/
def specOf (units : Str → TextUnit) : BuildSpec :=
  buildSpec s.m s.toolchain s.partitions
    { key := fun src => (units src).key, digest := fun src => (units src).digest
      cost := fun src => (units src).cost.toInt }

/-- Step 3, with the reply of `CheckCache`. -/
def send (hits : List Str) : List Effect :=
  (textless H s e hits).map (fun src => .preprocess src (e.second src)) ++
    .findMissing ((needed H s e hits).map fun src => (textUnit H s e hits src).digest) ::
      match e.findMissing with
      | .error message => [.failed ("coordinator: ".toList ++ message)]
      | .ok missing => upload e (specOf s (textUnit H s e hits)) 0
          (batches (textUnit H s e hits) (needed H s e hits) missing [])

/-- `build` up to `SubmitBuild`. -/
def prepare : List Effect :=
  keyRuns H s e ++ match firstError H s e with
    | some src => [.report src (keyUnit H s e src).error]
    | none => .checkCache ((unitSources s.m).map fun src => (keyUnit H s e src).key) ::
        match e.checkCache with
        | .error message => [.failed ("coordinator: ".toList ++ message)]
        | .ok hits => send H s e hits

end Steps

/-! ### A failed preprocessor run -/

/-- A unit fails in a build, and with which error. -/
def Fails (effects : List Effect) (src error : Str) : Prop := .preprocess src (.error error) ∈ effects

/-- What is said of a build: nothing is uploaded for a unit that fails, a build with such
a unit is not submitted but ends with the error of one, and the blobs have their hashes. -/
structure Upright (H : Sha256) (effects : List Effect) : Prop where
  withheld : ∀ src error, Fails effects src error → ∀ batch, .putBlobs batch ∈ effects → ∀ b ∈ batch, b.1 ≠ src
  stopped : ∀ src error, Fails effects src error → ∀ spec, .submitBuild spec ∉ effects
  reported : ∀ src error, Fails effects src error →
    ∃ src' error', Fails effects src' error' ∧ .report src' error' ∈ effects
  hashed : ∀ batch, .putBlobs batch ∈ effects → ∀ b ∈ batch, H.hex b.2.data = b.2.hash

/-- The first loop over the units finds an error: some run failed in the first parallel loop,
and the preprocessor said something. -/
def Noticed (H : Sha256) (s : Setup) (e : Surroundings) : Prop :=
  ∃ src ∈ unitSources s.m, reusable H s e src = none ∧ ∃ error, e.first src = .error error ∧ error ≠ []

/-- No run fails: neither of a unit without a saved key that is still valid, nor of one whose
saved key the coordinator does not report as cached. -/
structure Succeeds (H : Sha256) (s : Setup) (e : Surroundings) : Prop where
  first : ∀ src ∈ unitSources s.m, reusable H s e src = none → ∃ result, e.first src = .ok result
  second : ∀ hits, e.checkCache = .ok hits → ∀ src ∈ unitSources s.m, ∀ old,
    reusable H s e src = some old → old.key ∉ hits → ∃ result, e.second src = .ok result

section Failures

variable {H : Sha256} {s : Setup} {e : Surroundings} {src error : Str} {hits : List Str}

/-! ### What a build consists of -/

theorem keyUnit_reused {old : SourceUnit} (saved : reusable H s e src = some old) :
    keyUnit H s e src = reuseUnit { src } old := by
  rw [keyUnit, saved]

theorem keyUnit_run (unsaved : reusable H s e src = none) :
    keyUnit H s e src = runPreprocess H s { src } (e.first src) := by
  rw [keyUnit, unsaved]

/-- A unit has the error of its run. -/
theorem keyUnit_error (erring : (keyUnit H s e src).error ≠ []) :
    reusable H s e src = none ∧ e.first src = .error (keyUnit H s e src).error := by
  cases saved : reusable H s e src with
  | some old =>
    rw [keyUnit_reused saved] at erring
    exact absurd rfl erring
  | none =>
    rw [keyUnit_run saved] at erring ⊢
    cases outcome : e.first src with
    | error error => exact ⟨rfl, rfl⟩
    | ok result =>
      rw [outcome] at erring
      exact absurd rfl erring

theorem firstError_none (unnoticed : ¬ Noticed H s e) : firstError H s e = none := by
  refine List.find?_eq_none.mpr fun src member erring => unnoticed ?_
  have filled : (keyUnit H s e src).error ≠ [] := of_decide_eq_true erring
  obtain ⟨unsaved, outcome⟩ := keyUnit_error filled
  exact ⟨src, member, unsaved, _, outcome, filled⟩

theorem firstError_some (noticed : Noticed H s e) : ∃ src, firstError H s e = some src := by
  obtain ⟨src, member, unsaved, error, outcome, filled⟩ := noticed
  refine Option.isSome_iff_exists.mp (List.find?_isSome.mpr ⟨src, member, ?_⟩)
  rw [decide_eq_true_eq, keyUnit_run unsaved, outcome]
  exact filled

theorem mem_keyRuns {effect : Effect} : effect ∈ keyRuns H s e ↔
    ∃ src ∈ unitSources s.m, reusable H s e src = none ∧ .preprocess src (e.first src) = effect := by
  simp [keyRuns, and_assoc]

/-- A run of the first loop is part of every build. -/
theorem fails_first (member : src ∈ unitSources s.m) (unsaved : reusable H s e src = none)
    (outcome : e.first src = .error error) : Fails (prepare H s e) src error :=
  List.mem_append_left _ (mem_keyRuns.mpr ⟨src, member, unsaved, by rw [outcome]⟩)

/-- An upload ends with a submit or an error; in front of it there are blobs only. -/
theorem mem_upload {spec : BuildSpec} {k : Nat} {rest : List (List (Str × Blob))} {effect : Effect}
    (member : effect ∈ upload e spec k rest) : effect = .submitBuild spec ∨ (∃ message, effect = .failed message) ∨
      ∃ batch ∈ rest, effect = .putBlobs batch := by
  induction rest generalizing k with
  | nil => exact Or.inl (List.mem_singleton.mp member)
  | cons batch rest ih =>
    rw [upload] at member
    rcases List.mem_cons.mp member with rfl | later
    · exact Or.inr (Or.inr ⟨batch, by simp, rfl⟩)
    · split at later
      · exact Or.inr (Or.inl ⟨_, List.mem_singleton.mp later⟩)
      · rcases ih later with submit | failed | ⟨batch', inRest, rfl⟩
        · exact Or.inl submit
        · exact Or.inr (Or.inl failed)
        · exact Or.inr (Or.inr ⟨batch', List.mem_cons_of_mem batch inRest, rfl⟩)

/-- Every blob that is sent is the digest and the text of a needed unit. -/
theorem mem_batches {units : Str → TextUnit} {rest toSend : List Str} {batch sent : List (Str × Blob)}
    (member : sent ∈ batches units rest toSend batch) {b : Str × Blob} (hb : b ∈ sent) :
    b ∈ batch ∨ (b.1 ∈ rest ∧ b.2 = ⟨(units b.1).digest, (units b.1).text⟩) := by
  induction rest generalizing toSend batch with
  | nil =>
    rw [batches] at member
    split at member
    · cases member
    · rw [List.mem_singleton.mp member] at hb
      exact Or.inl hb
  | cons src rest ih =>
    -- the batch after this round
    have grown : ∀ {c : Str × Blob}, c ∈ batch ++ [(src, ⟨(units src).digest, (units src).text⟩)] →
        c ∈ batch ∨ (c.1 ∈ src :: rest ∧ c.2 = ⟨(units c.1).digest, (units c.1).text⟩) := by
      intro c hc
      rcases List.mem_append.mp hc with old | new
      · exact Or.inl old
      · rw [List.mem_singleton.mp new]
        exact Or.inr ⟨by simp, rfl⟩
    rw [batches] at member
    split at member
    · dsimp only at member
      split at member
      · rcases List.mem_cons.mp member with rfl | later
        · exact grown hb
        · rcases ih later with none_ | ⟨here, made⟩
          · cases none_
          · exact Or.inr ⟨by simp [here], made⟩
      · rcases ih member with earlier | ⟨here, made⟩
        · exact grown earlier
        · exact Or.inr ⟨by simp [here], made⟩
    · rcases ih member with earlier | ⟨here, made⟩
      · exact Or.inl earlier
      · exact Or.inr ⟨by simp [here], made⟩

/-- What a build is made of in which the first loop finds no error. -/
inductive Part (H : Sha256) (s : Setup) (e : Surroundings) : Effect → Prop where
  | key {src : Str} {outcome : Preprocessed} (unit : src ∈ unitSources s.m) (unsaved : reusable H s e src = none)
      (ran : e.first src = outcome) : Part H s e (.preprocess src outcome)
  | ask {keys : List Str} : Part H s e (.checkCache keys)
  | again {hits : List Str} {src : Str} {outcome : Preprocessed} (reply : e.checkCache = .ok hits)
      (without : src ∈ textless H s e hits) (ran : e.second src = outcome) : Part H s e (.preprocess src outcome)
  | find {hashes : List Str} : Part H s e (.findMissing hashes)
  | put {hits missing : List Str} {batch : List (Str × Blob)} (reply : e.checkCache = .ok hits)
      (sent : batch ∈ batches (textUnit H s e hits) (needed H s e hits) missing []) : Part H s e (.putBlobs batch)
  | submit {spec : BuildSpec} : Part H s e (.submitBuild spec)
  | failed {message : Str} : Part H s e (.failed message)

theorem mem_send (reply : e.checkCache = .ok hits) {effect : Effect} (member : effect ∈ send H s e hits) :
    Part H s e effect := by
  rw [send] at member
  rcases List.mem_append.mp member with run | later
  · obtain ⟨src, without, rfl⟩ := List.mem_map.mp run
    exact .again reply without rfl
  · rcases List.mem_cons.mp later with rfl | later
    · exact .find
    · split at later
      · rw [List.mem_singleton.mp later]
        exact .failed
      · rcases mem_upload later with rfl | ⟨_, rfl⟩ | ⟨batch, sent, rfl⟩
        · exact .submit
        · exact .failed
        · exact .put reply sent

theorem mem_prepare (unnoticed : ¬ Noticed H s e) {effect : Effect} (member : effect ∈ prepare H s e) :
    Part H s e effect := by
  rw [prepare, firstError_none unnoticed] at member
  rcases List.mem_append.mp member with run | later
  · obtain ⟨src, unit, unsaved, rfl⟩ := mem_keyRuns.mp run
    exact .key unit unsaved rfl
  · rcases List.mem_cons.mp later with rfl | later
    · exact .ask
    · split at later
      · rw [List.mem_singleton.mp later]
        exact .failed
      · rename_i hits reply
        exact mem_send reply later

/-- A needed unit without a text is one whose saved key was reused. -/
theorem textless_saved (succeeds : ∀ src ∈ unitSources s.m, reusable H s e src = none → ∃ result, e.first src = .ok result)
    (without : src ∈ textless H s e hits) :
    src ∈ unitSources s.m ∧ ∃ old, reusable H s e src = some old ∧ old.key ∉ hits := by
  obtain ⟨member, stale⟩ := List.mem_filter.mp without
  obtain ⟨unit, unknown⟩ := List.mem_filter.mp member
  refine ⟨unit, ?_⟩
  cases saved : reusable H s e src with
  | none =>
    obtain ⟨result, outcome⟩ := succeeds src unit saved
    rw [keyUnit_run saved, outcome] at stale
    cases stale
  | some old =>
    rw [keyUnit_reused saved] at unknown
    exact ⟨old, rfl, of_decide_eq_true unknown⟩

theorem mem_textless (unit : src ∈ unitSources s.m) {old : SourceUnit} (saved : reusable H s e src = some old)
    (uncached : old.key ∉ hits) : src ∈ textless H s e hits := by
  refine List.mem_filter.mpr ⟨List.mem_filter.mpr ⟨unit, ?_⟩, ?_⟩
  · rw [keyUnit_reused saved]
    exact decide_eq_true uncached
  · rw [keyUnit_reused saved]
    rfl

/-! ### When a build is upright -/

/-- An error that the first loop finds ends the build. -/
theorem upright_of_noticed (noticed : Noticed H s e) : Upright H (prepare H s e) := by
  obtain ⟨src, found⟩ := firstError_some noticed
  have filled : (keyUnit H s e src).error ≠ [] := by simpa using List.find?_some found
  obtain ⟨unsaved, outcome⟩ := keyUnit_error filled
  have effects : prepare H s e = keyRuns H s e ++ [.report src (keyUnit H s e src).error] := by
    rw [prepare, found]
  have only : ∀ {effect : Effect}, effect ∈ prepare H s e →
      (∃ src outcome, effect = .preprocess src outcome) ∨ ∃ src error, effect = .report src error := by
    intro effect member
    rw [effects] at member
    rcases List.mem_append.mp member with run | report
    · obtain ⟨src, -, -, rfl⟩ := mem_keyRuns.mp run
      exact Or.inl ⟨_, _, rfl⟩
    · exact Or.inr ⟨_, _, List.mem_singleton.mp report⟩
  have noPut : ∀ batch, .putBlobs batch ∉ prepare H s e := by
    intro batch member
    rcases only member with ⟨_, _, other⟩ | ⟨_, _, other⟩
    · cases other
    · cases other
  have noSubmit : ∀ spec, .submitBuild spec ∉ prepare H s e := by
    intro spec member
    rcases only member with ⟨_, _, other⟩ | ⟨_, _, other⟩
    · cases other
    · cases other
  exact {
    withheld := fun _ _ _ batch put => absurd put (noPut batch)
    stopped := fun _ _ _ => noSubmit
    reported := fun _ _ _ => ⟨src, _, fails_first (List.mem_of_find?_eq_some found) unsaved outcome, by simp [effects]⟩
    hashed := fun batch put => absurd put (noPut batch) }

/-- A unit that is needed has its text and the digest of it. -/
theorem textUnit_hashed (succeeds : Succeeds H s e) (reply : e.checkCache = .ok hits)
    (member : src ∈ needed H s e hits) :
    H.hex (textUnit H s e hits src).text = (textUnit H s e hits src).digest := by
  rw [textUnit]
  split
  · rename_i without
    obtain ⟨unit, old, saved, uncached⟩ := textless_saved succeeds.first without
    obtain ⟨result, outcome⟩ := succeeds.second hits reply src unit old saved uncached
    rw [outcome]
    rfl
  · rename_i kept
    -- it was preprocessed in the first loop
    obtain ⟨unit, unknown⟩ := List.mem_filter.mp member
    cases saved : reusable H s e src with
    | none =>
      obtain ⟨result, outcome⟩ := succeeds.first src unit saved
      rw [keyUnit_run saved, outcome]
      rfl
    | some old =>
      rw [keyUnit_reused saved] at unknown
      exact absurd (mem_textless unit saved (of_decide_eq_true unknown)) kept

theorem upright_of_succeeds (unnoticed : ¬ Noticed H s e) (succeeds : Succeeds H s e) :
    Upright H (prepare H s e) := by
  have good : ∀ src error, ¬ Fails (prepare H s e) src error := by
    intro src error fails
    cases mem_prepare unnoticed fails with
    | key unit unsaved ran =>
      obtain ⟨result, outcome⟩ := succeeds.first src unit unsaved
      rw [outcome] at ran
      cases ran
    | again reply without ran =>
      obtain ⟨unit, old, saved, uncached⟩ := textless_saved succeeds.first without
      obtain ⟨result, outcome⟩ := succeeds.second _ reply src unit old saved uncached
      rw [outcome] at ran
      cases ran
  exact {
    withheld := fun src error fails => absurd fails (good src error)
    stopped := fun src error fails => absurd fails (good src error)
    reported := fun src error fails => absurd fails (good src error)
    hashed := by
      intro batch put b hb
      cases mem_prepare unnoticed put with
      | put reply sent =>
        rcases mem_batches sent hb with none_ | ⟨here, made⟩
        · cases none_
        · rw [made]
          exact textUnit_hashed succeeds reply here }

/-- A run of the second loop is part of a build whose first loop finds no error. -/
theorem fails_second (unnoticed : ¬ Noticed H s e) (reply : e.checkCache = .ok hits)
    (without : src ∈ textless H s e hits) (outcome : e.second src = .error error) :
    Fails (prepare H s e) src error := by
  have run : .preprocess src (.error error) ∈ send H s e hits :=
    List.mem_append_left _ (List.mem_map.mpr ⟨src, without, by rw [outcome]⟩)
  rw [Fails, prepare, firstError_none unnoticed, reply]
  exact List.mem_append_right _ (List.mem_cons_of_mem _ run)

end Failures

/-- Whatever the manifest, the state file, the replies and the outcomes of the preprocessor
are: failed runs are heeded exactly if the first loop finds an error or no run fails. -/
theorem failures_heeded_iff (H : Sha256) (s : Setup) (e : Surroundings) :
    Upright H (prepare H s e) ↔ Noticed H s e ∨ Succeeds H s e := by
  by_cases noticed : Noticed H s e
  · exact iff_of_true (upright_of_noticed noticed) (Or.inl noticed)
  constructor
  · intro upright
    -- no error is reported, so no run has failed
    have good : ∀ src error, ¬ Fails (prepare H s e) src error := by
      intro src error fails
      obtain ⟨src', error', -, report⟩ := upright.reported src error fails
      cases mem_prepare noticed report
    refine Or.inr ⟨fun src unit unsaved => ?_, fun hits reply src unit old saved uncached => ?_⟩
    · cases outcome : e.first src with
      | ok result => exact ⟨result, rfl⟩
      | error error => exact absurd (fails_first unit unsaved outcome) (good src error)
    · cases outcome : e.second src with
      | ok result => exact ⟨result, rfl⟩
      | error error =>
        have fails := fails_second noticed reply (mem_textless unit saved uncached) outcome
        exact absurd fails (good src error)
  · rintro (here | succeeds)
    · exact absurd here noticed
    · exact upright_of_succeeds noticed succeeds

/-- The unit of the sample project in the state file. -/
def staleUnit : SourceUnit where
  src := sampleSource
  key := sampleKey
  digest := Sha256.coarse.hex ['A']
  cost := 1
  deps := [⟨1, 1, sampleSource⟩]

/-- A build of the sample project that has been built before. -/
def staleSetup : Setup where
  m := sampleManifest
  toolchain := "gcc".toList
  file := saveState (stateConfig Sha256.coarse sampleManifest "gcc".toList) [staleUnit]

def preprocessorError : Str := "gcc: fatal error: out of memory".toList

/-- The source has not changed, its object is not cached, and the preprocessor fails. -/
def staleSurroundings (missing : List Str) (refusal : Option Str) : Surroundings where
  root := sampleRoot
  tree _ := sampleTree ['A'] 1
  first _ := .error []
  second _ := .error preprocessorError
  checkCache := .ok []
  findMissing := .ok missing
  putBlobs _ := refusal

/-- How the coordinator refuses a blob that does not match. -/
def refusal (hash : Str) : Str := "blob ".toList ++ hash ++ " doesn't match its contents".toList

theorem stale_effects :
    prepare Sha256.coarse staleSetup (staleSurroundings [staleUnit.digest] (some (refusal staleUnit.digest))) =
      [.checkCache [sampleKey], .preprocess sampleSource (.error preprocessorError), .findMissing [staleUnit.digest],
        .putBlobs [(sampleSource, ⟨staleUnit.digest, []⟩)],
        .failed ("upload: ".toList ++ refusal staleUnit.digest)] ∧
    prepare Sha256.coarse staleSetup (staleSurroundings [] none) =
      [.checkCache [sampleKey], .preprocess sampleSource (.error preprocessorError), .findMissing [staleUnit.digest],
        .submitBuild (specOf staleSetup fun _ => { staleUnit with error := preprocessorError })] := by
  decide +kernel

/-- The failed unit is uploaded with a digest that its empty text does not have. Where its old
text is still stored, the build is submitted. Its error is never reported. -/
theorem failed_unit_sent : ∃ s e e' src error,
    Fails (prepare Sha256.coarse s e) src error ∧ Fails (prepare Sha256.coarse s e') src error ∧
      (∃ batch, .putBlobs batch ∈ prepare Sha256.coarse s e ∧
        ∃ b ∈ batch, b.1 = src ∧ Sha256.coarse.hex b.2.data ≠ b.2.hash) ∧
      (∃ spec, .submitBuild spec ∈ prepare Sha256.coarse s e') ∧
      ∀ src' error', .report src' error' ∉ prepare Sha256.coarse s e ∧ .report src' error' ∉ prepare Sha256.coarse s e' := by
  refine ⟨staleSetup, staleSurroundings [staleUnit.digest] (some (refusal staleUnit.digest)),
    staleSurroundings [] none, sampleSource, preprocessorError, ?_⟩
  obtain ⟨sent, submitted⟩ := stale_effects
  rw [Fails, Fails, sent, submitted]
  have stale : Sha256.coarse.hex [] ≠ staleUnit.digest := by decide
  have put : .putBlobs [(sampleSource, ⟨staleUnit.digest, []⟩)] ∈
      prepare Sha256.coarse staleSetup (staleSurroundings [staleUnit.digest] (some (refusal staleUnit.digest))) := by
    simp [sent]
  rw [sent] at put
  exact ⟨by simp, by simp, ⟨_, put, _, List.mem_singleton_self _, rfl, stale⟩,
    ⟨_, List.mem_of_getLast? rfl⟩, by simp⟩

/-! ### The same build step by step -/

/-- The digests of needed units that are not in the store. -/
def missing (H : Sha256) (s : Setup) (e : Surroundings) (c : Coordinator) (hits : List Str) : List Str :=
  ((needed H s e hits).map fun src => (textUnit H s e hits src).digest).filter fun h => !c.blobs.has h

/-- The replies are those of a coordinator that nobody else calls meanwhile. -/
structure Answers (H : Sha256) (s : Setup) (e : Surroundings) (c : Coordinator) (hits : List Str) : Prop where
  checkCache : e.checkCache = .ok hits
  cached : ∀ src ∈ unitSources s.m, (keyUnit H s e src).key ∈ hits ↔ (c.db.cached? (keyUnit H s e src).key).isSome = true
  findMissing : e.findMissing = .ok (missing H s e c hits)
  putBlobs : ∀ k, e.putBlobs k = none

/-- The store after the uploads. -/
def stored (H : Sha256) (blobs : Blobs) (sent : List (List (Str × Blob))) : Blobs :=
  sent.flatten.foldl (fun blobs b => (blobs.put H b.2.data b.2.hash).getD blobs) blobs

theorem stored_cons (H : Sha256) (blobs : Blobs) (batch : List (Str × Blob)) (rest : List (List (Str × Blob))) :
    stored H blobs (batch :: rest) = stored H (stored H blobs [batch]) rest := by
  simp [stored]

/-- The units of the client after the first loop, and after the second. -/
def firstUnits (H : Sha256) (s : Setup) (e : Surroundings) (v : Str) : TextUnit :=
  if v ∈ unitSources s.m then keyUnit H s e v else { src := v }

def secondUnits (H : Sha256) (s : Setup) (e : Surroundings) (hits : List Str) (v : Str) : TextUnit :=
  if v ∈ textless H s e hits then runPreprocess H s (firstUnits H s e v) (e.second v) else firstUnits H s e v

section Stepwise

variable {H : Sha256} {o : Options} {s : Setup} {e : Surroundings} {c : Coordinator} {d d' : Dcc} {act : Act}
  {hits : List Str}

theorem next_silent (client : d.next H s c act = some d') (silent : d.call s act = none) :
    Next H o s ⟨c, d⟩ act ⟨c, d'⟩ :=
  ⟨client, by rw [silent]; rfl⟩

/-- A parallel loop whose phase allows a step for each unit. -/
theorem loop_steps (phase : List Str → Phase) (becomes : Str → TextUnit → TextUnit)
    (step : ∀ (d : Dcc) src due, ∃ act, Next H o s ⟨c, { d with phase := phase (src :: due) }⟩ act
      ⟨c, d.set src (becomes src (d.units src)) (phase due)⟩)
    {due : List Str} (apart : due.Nodup) (d : Dcc) :
    ∃ acts, Runs (Next H o s) ⟨c, { d with phase := phase due }⟩ acts
      ⟨c, { d with units := fun v => if v ∈ due then becomes v (d.units v) else d.units v, phase := phase [] }⟩ := by
  induction due generalizing d with
  | nil =>
    simp only [List.not_mem_nil, if_false]
    exact ⟨[], .nil⟩
  | cons src due ih =>
    obtain ⟨fresh, apart⟩ := List.nodup_cons.mp apart
    obtain ⟨act, first⟩ := step d src due
    obtain ⟨acts, later⟩ := ih apart (d.set src (becomes src (d.units src)) (phase due))
    have units : (fun v => if v ∈ src :: due then becomes v (d.units v) else d.units v) = fun v =>
        if v ∈ due then becomes v ((d.set src (becomes src (d.units src)) (phase due)).units v)
        else (d.set src (becomes src (d.units src)) (phase due)).units v := by
      funext v
      by_cases here : v = src
      · subst here
        simp [Dcc.set, fresh]
      · simp [Dcc.set, here]
    rw [units]
    exact ⟨[act] ++ acts, (Runs.nil.snoc first).trans later⟩

/-- The first loop. -/
theorem key_steps : ∃ acts, Runs (Next H o s) (start s c) acts ⟨c, { units := firstUnits H s e, phase := .keying [] }⟩ := by
  refine loop_steps .keying (fun v u => match reusable H s e v with
    | some old => reuseUnit u old
    | none => runPreprocess H s u (e.first v)) (fun d src due => ?_) (unitSources_nodup s.m) (start s c).dcc
  cases saved : reusable H s e src with
  | none => exact ⟨.preprocess src (e.first src), next_silent (by simp [Dcc.next, Dcc.set]) rfl⟩
  | some old =>
    obtain ⟨loaded, -⟩ := Option.filter_eq_some_iff.mp saved
    exact ⟨.reuse src, next_silent (by simp [Dcc.next, Dcc.set, loaded]) rfl⟩

/-- The second loop. -/
theorem redo_steps {due : List Str} (apart : due.Nodup) (d : Dcc) :
    ∃ acts, Runs (Next H o s) ⟨c, { d with phase := .redoing due }⟩ acts
      ⟨c, { d with units := fun v => if v ∈ due then runPreprocess H s (d.units v) (e.second v) else d.units v
                   phase := .redoing [] }⟩ :=
  loop_steps .redoing (fun v u => runPreprocess H s u (e.second v))
    (fun d src due => ⟨.redo src (e.second src), next_silent (by simp [Dcc.next, Dcc.set]) rfl⟩) apart d

/-- `FindMissing` looks up one digest after the other. -/
theorem find_steps (d : Dcc) (left missing : List Str) :
    ∃ acts, Runs (Next H o s) ⟨c, { d with phase := .asking left missing }⟩ acts
      ⟨c, { d with phase := .asking [] (missing ++ left.filter fun h => !c.blobs.has h) }⟩ := by
  induction left generalizing missing with
  | nil =>
    rw [List.filter_nil, List.append_nil]
    exact ⟨[], .nil⟩
  | cons h left ih =>
    obtain ⟨acts, later⟩ := ih (if c.blobs.has h then missing else missing ++ [h])
    have first : Next H o s ⟨c, { d with phase := .asking (h :: left) missing }⟩ .find
        ⟨c, { d with phase := .asking left (if c.blobs.has h then missing else missing ++ [h]) }⟩ :=
      next_silent rfl rfl
    have all : (if c.blobs.has h then missing else missing ++ [h]) ++ left.filter (fun h => !c.blobs.has h) =
        missing ++ (h :: left).filter fun h => !c.blobs.has h := by
      cases has : c.blobs.has h <;> simp [has]
    rw [all] at later
    exact ⟨[.find] ++ acts, (Runs.nil.snoc first).trans later⟩

/-- The blobs of one batch are stored, one after the other. -/
theorem put_steps (d : Dcc) (rest toSend : List Str) {batch : List (Str × Blob)} (blobs : Blobs)
    (hashed : ∀ b ∈ batch, H.hex b.2.data = b.2.hash) :
    ∃ acts, Runs (Next H o s) ⟨{ c with blobs }, { d with phase := .putting (batch.map Prod.snd) rest toSend }⟩ acts
      ⟨{ c with blobs := stored H blobs [batch] }, { d with phase := .putting [] rest toSend }⟩ := by
  induction batch generalizing blobs with
  | nil => exact ⟨[], .nil⟩
  | cons b batch ih =>
    obtain ⟨blobs', put⟩ : ∃ blobs', blobs.put H b.2.data b.2.hash = some blobs' := by
      rw [Blobs.put, if_neg (fun refused => refused.2 (hashed b List.mem_cons_self).symm)]
      split
      · exact ⟨_, rfl⟩
      · exact ⟨_, rfl⟩
    obtain ⟨acts, later⟩ := ih blobs' fun b hb => hashed b (List.mem_cons_of_mem _ hb)
    have first : Next H o s
        ⟨{ c with blobs }, { d with phase := .putting ((b :: batch).map Prod.snd) rest toSend }⟩ (.put true)
        ⟨{ c with blobs := blobs' }, { d with phase := .putting (batch.map Prod.snd) rest toSend }⟩ :=
      ⟨rfl, .putBlob put⟩
    have all : stored H blobs [b :: batch] = stored H blobs' [batch] := by
      simp [stored, put]
    rw [all]
    exact ⟨[.put true] ++ acts, (Runs.nil.snoc first).trans later⟩

/-- A full batch, or the last one: its blobs are stored, and the next batch is empty. -/
theorem flush_steps (d : Dcc) (rest toSend : List Str) {batch : List (Str × Blob)} (blobs : Blobs)
    (hashed : ∀ b ∈ batch, H.hex b.2.data = b.2.hash) :
    ∃ acts, Runs (Next H o s) ⟨{ c with blobs }, { d with phase := .putting (batch.map Prod.snd) rest toSend }⟩ acts
      ⟨{ c with blobs := stored H blobs [batch] }, { d with phase := .sending rest toSend [] }⟩ := by
  obtain ⟨acts, puts⟩ := put_steps (o := o) (s := s) (c := c) d rest toSend blobs hashed
  exact ⟨acts ++ [.sent], puts.snoc (next_silent rfl rfl)⟩

/-- The loop over `need`, batch by batch. -/
theorem send_steps (d : Dcc) {rest : List Str} (toSend : List Str) {batch : List (Str × Blob)} (blobs : Blobs)
    (texts : ∀ src ∈ rest, H.hex (d.units src).text = (d.units src).digest)
    (hashed : ∀ b ∈ batch, H.hex b.2.data = b.2.hash) :
    ∃ acts, Runs (Next H o s) ⟨{ c with blobs }, { d with phase := .sending rest toSend (batch.map Prod.snd) }⟩ acts
      ⟨{ c with blobs := stored H blobs (batches d.units rest toSend batch) }, { d with phase := .submitting }⟩ := by
  induction rest generalizing toSend batch blobs with
  | nil =>
    by_cases empty : batch = []
    · subst empty
      exact ⟨[.flush], Runs.nil.snoc (next_silent rfl rfl)⟩
    · rw [batches, if_neg empty]
      have first : Next H o s ⟨{ c with blobs }, { d with phase := .sending [] toSend (batch.map Prod.snd) }⟩ .flush
          ⟨{ c with blobs }, { d with phase := .putting (batch.map Prod.snd) [] toSend }⟩ :=
        next_silent (by simp [Dcc.next, empty]) rfl
      obtain ⟨acts, puts⟩ := flush_steps (o := o) (s := s) (c := c) d [] toSend blobs hashed
      exact ⟨[.flush] ++ acts ++ [.flush], ((Runs.nil.snoc first).trans puts).snoc (next_silent rfl rfl)⟩
  | cons src rest ih =>
    have first : Next H o s
        ⟨{ c with blobs }, { d with phase := .sending (src :: rest) toSend (batch.map Prod.snd) }⟩ .visit
        ⟨{ c with blobs }, { d with phase := visit d src rest toSend (batch.map Prod.snd) }⟩ :=
      next_silent rfl rfl
    have later := fun v hv => texts v (List.mem_cons_of_mem _ hv)
    rw [batches]
    split
    · rename_i missing
      obtain ⟨more, is⟩ : ∃ more, more = batch ++ [(src, (⟨(d.units src).digest, (d.units src).text⟩ : Blob))] :=
        ⟨_, rfl⟩
      have visited : visit d src rest toSend (batch.map Prod.snd) =
          if full (more.map Prod.snd) then
            .putting (more.map Prod.snd) rest (toSend.filter fun h => h ≠ (d.units src).digest)
          else .sending rest (toSend.filter fun h => h ≠ (d.units src).digest) (more.map Prod.snd) := by
        simp [visit, missing, is]
      have grown : ∀ b ∈ more, H.hex b.2.data = b.2.hash := by
        intro b hb
        rcases List.mem_append.mp (is ▸ hb) with old | new
        · exact hashed b old
        · rw [List.mem_singleton.mp new]
          exact texts src List.mem_cons_self
      rw [visited] at first
      dsimp only
      rw [← is]
      split
      · rename_i enough
        rw [if_pos enough] at first
        obtain ⟨acts, puts⟩ := flush_steps (o := o) (s := s) (c := c) d rest
          (toSend.filter fun h => h ≠ (d.units src).digest) blobs grown
        obtain ⟨acts', run⟩ := @ih _ [] (stored H blobs [more]) later (List.forall_mem_nil _)
        rw [stored_cons]
        exact ⟨[.visit] ++ acts ++ acts', ((Runs.nil.snoc first).trans puts).trans run⟩
      · rename_i small
        rw [if_neg small] at first
        obtain ⟨acts, run⟩ := ih _ blobs later grown
        exact ⟨[.visit] ++ acts, (Runs.nil.snoc first).trans run⟩
    · rename_i present
      rw [visit, if_neg present] at first
      obtain ⟨acts, run⟩ := ih toSend blobs later hashed
      exact ⟨[.visit] ++ acts, (Runs.nil.snoc first).trans run⟩

theorem batches_congr {units units' : Str → TextUnit} {rest : List Str}
    (same : ∀ src ∈ rest, units src = units' src) (toSend : List Str) (batch : List (Str × Blob)) :
    batches units rest toSend batch = batches units' rest toSend batch := by
  induction rest generalizing toSend batch with
  | nil => rfl
  | cons src rest ih =>
    have here := same src List.mem_cons_self
    have later := fun src member => same src (List.mem_cons_of_mem _ member)
    simp only [batches, here, ih later]

/-- What a build does up to its submit, when nothing fails. -/
theorem prepare_eq (unnoticed : ¬ Noticed H s e) (answers : Answers H s e c hits) :
    prepare H s e = keyRuns H s e ++ .checkCache ((unitSources s.m).map fun src => (keyUnit H s e src).key) ::
      ((textless H s e hits).map (fun src => .preprocess src (e.second src)) ++
        .findMissing ((needed H s e hits).map fun src => (textUnit H s e hits src).digest) ::
          ((batches (textUnit H s e hits) (needed H s e hits) (missing H s e c hits) []).map .putBlobs ++
            [.submitBuild (specOf s (textUnit H s e hits))])) := by
  have uploads : ∀ (rest : List (List (Str × Blob))) k spec,
      upload e spec k rest = rest.map .putBlobs ++ [.submitBuild spec] := by
    intro rest
    induction rest with
    | nil => exact fun _ _ => rfl
    | cons batch rest ih =>
      intro k spec
      rw [upload, answers.putBlobs]
      dsimp only
      rw [ih, List.map_cons, List.cons_append]
  rw [prepare, firstError_none unnoticed, answers.checkCache]
  dsimp only
  rw [send, answers.findMissing]
  dsimp only
  rw [uploads]

theorem firstUnits_unit (member : src ∈ unitSources s.m) : firstUnits H s e src = keyUnit H s e src := if_pos member

theorem secondUnits_unit (member : src ∈ unitSources s.m) : secondUnits H s e hits src = textUnit H s e hits src := by
  rw [secondUnits, textUnit, firstUnits_unit member]

theorem unit_of_needed (member : src ∈ needed H s e hits) : src ∈ unitSources s.m := (List.mem_filter.mp member).1

/-- Up to `CheckCache`. -/
theorem checking_steps (unnoticed : ¬ Noticed H s e) :
    ∃ acts, Runs (Next H o s) (start s c) acts ⟨c, { units := firstUnits H s e, phase := .checking }⟩ := by
  obtain ⟨acts, keys⟩ := key_steps (H := H) (o := o) (s := s) (e := e) (c := c)
  have good : ∀ src ∈ unitSources s.m, (firstUnits H s e src).error = [] := by
    intro src member
    rw [firstUnits_unit member]
    by_contra erring
    obtain ⟨unsaved, outcome⟩ := keyUnit_error erring
    exact unnoticed ⟨src, member, unsaved, _, outcome, erring⟩
  refine ⟨acts ++ [.keyed], keys.snoc (next_silent ?_ rfl)⟩
  simp only [Dcc.next]
  rw [if_pos good]

/-- `CheckCache` and the second loop. -/
theorem redone_steps (answers : Answers H s e c hits) :
    ∃ acts, Runs (Next H o s) ⟨c, { units := firstUnits H s e, phase := .checking }⟩ acts
      ⟨c, { units := secondUnits H s e hits, need := needed H s e hits, phase := .redoing [] }⟩ := by
  have needs : ((unitSources s.m).filter fun src => (c.db.cached? (firstUnits H s e src).key).isNone) =
      needed H s e hits := by
    refine List.filter_congr fun src member => ?_
    rw [firstUnits_unit member, Bool.eq_iff_iff, decide_eq_true_eq, answers.cached src member,
      Option.isNone_iff_eq_none, Option.isSome_iff_ne_none, not_not]
  have stale : ((needed H s e hits).filter fun src => !(firstUnits H s e src).fresh) = textless H s e hits :=
    List.filter_congr fun src member => by rw [firstUnits_unit (unit_of_needed member)]
  have first : Next H o s ⟨c, { units := firstUnits H s e, phase := .checking }⟩ .checkCache
      ⟨c, { units := firstUnits H s e, need := needed H s e hits, phase := .redoing (textless H s e hits) }⟩ :=
    next_silent (by simp only [Dcc.next]; rw [needs, stale]) rfl
  have apart : (textless H s e hits).Nodup := ((unitSources_nodup s.m).filter _).filter _
  obtain ⟨acts, runs⟩ := redo_steps (H := H) (o := o) (s := s) (e := e) (c := c) apart
    { units := firstUnits H s e, need := needed H s e hits, phase := .checking }
  exact ⟨[.checkCache] ++ acts, (Runs.nil.snoc first).trans runs⟩

/-- `FindMissing`. -/
theorem found_steps (hits : List Str) : ∃ acts, Runs (Next H o s)
    ⟨c, { units := secondUnits H s e hits, need := needed H s e hits, phase := .redoing [] }⟩ acts
    ⟨c, { units := secondUnits H s e hits, need := needed H s e hits
          phase := .sending (needed H s e hits) (missing H s e c hits) [] }⟩ := by
  have digests : ((needed H s e hits).map fun src => (secondUnits H s e hits src).digest) =
      (needed H s e hits).map fun src => (textUnit H s e hits src).digest :=
    List.map_congr_left fun src member => by rw [secondUnits_unit (unit_of_needed member)]
  have first : Next H o s
      ⟨c, { units := secondUnits H s e hits, need := needed H s e hits, phase := .redoing [] }⟩ .redone
      ⟨c, { units := secondUnits H s e hits, need := needed H s e hits
            phase := .asking ((needed H s e hits).map fun src => (textUnit H s e hits src).digest) [] }⟩ :=
    next_silent (by rw [← digests]; rfl) rfl
  obtain ⟨acts, finds⟩ := find_steps (H := H) (o := o) (s := s) (c := c)
    { units := secondUnits H s e hits, need := needed H s e hits, phase := .checking }
    ((needed H s e hits).map fun src => (textUnit H s e hits src).digest) []
  exact ⟨[.redone] ++ acts ++ [.found], ((Runs.nil.snoc first).trans finds).snoc (next_silent rfl rfl)⟩

/-- A build in which no run fails, in steps: it comes to its submit with the spec, and the store
with the blobs, that `prepare` says. -/
theorem prepare_steps (succeeds : Succeeds H s e) (unnoticed : ¬ Noticed H s e) (answers : Answers H s e c hits) :
    ∃ acts d, Runs (Next H o s) (start s c) acts
        ⟨{ c with blobs := stored H c.blobs (batches (textUnit H s e hits) (needed H s e hits) (missing H s e c hits) []) },
          d⟩ ∧ d.phase = .submitting ∧ d.spec s = specOf s (textUnit H s e hits) := by
  obtain ⟨acts, checking⟩ := checking_steps (o := o) (c := c) unnoticed
  obtain ⟨acts', redone⟩ := redone_steps (o := o) answers
  obtain ⟨acts'', found⟩ := found_steps (o := o) (H := H) (s := s) (e := e) (c := c) hits
  have texts : ∀ src ∈ needed H s e hits,
      H.hex (secondUnits H s e hits src).text = (secondUnits H s e hits src).digest := fun src member => by
    rw [secondUnits_unit (unit_of_needed member)]
    exact textUnit_hashed succeeds answers.checkCache member
  obtain ⟨acts₃, sent⟩ := send_steps (H := H) (o := o) (s := s) (c := c)
    { units := secondUnits H s e hits, need := needed H s e hits, phase := .checking } (missing H s e c hits) c.blobs
    texts (List.forall_mem_nil _)
  rw [batches_congr fun src member => secondUnits_unit (unit_of_needed member)] at sent
  refine ⟨acts ++ acts' ++ acts'' ++ acts₃, _, ((checking.trans redone).trans found).trans sent, rfl, ?_⟩
  refine buildSpec_congr _ _ fun src member => ?_
  simp only [Dcc.prepared, secondUnits_unit member, and_self]

end Stepwise

end DistCompile.Uploads
