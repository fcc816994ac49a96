import DistCompile.Incremental
import DistCompile.ManifestGraph
import DistCompile.Stored

/-!
The upload protocol of the client (`build` in `src/dcc.cpp`, steps 1 to 5; `check_cache`,
`FindMissing` and `PutBlobs` in `src/coordinator.cpp`).

A build asks which of its keys are cached, preprocesses the other units again where it
has no text, asks which of their digests are missing and sends those. By the time it
submits, both answers are old: other clients, workers and the reaper have gone on. `Next`
interleaves the build with any calls of theirs; `FindMissing` and `PutBlobs` are cut at
every blob. What the preprocessor does and what the state file says are arguments.

The answers stay right because the cache and the blob store only grow. That units are
merged by key and blobs by digest does no harm either: the unit a compile task is made
of is one of the units, and each was found in the cache or has its text in the store.
-/

namespace DistCompile.Uploads

open DistCompile.Lib DistCompile.Incremental

/-! ### The client -/

/-- `Unit`: what the state file keeps of it, its text, and whether it was preprocessed
in this run. -/
structure TextUnit extends SourceUnit where
  text : Str := []
  fresh : Bool := false

/-- A build: its manifest, the version of its compiler, its options and the text of the
state file. -/
structure Setup where
  m : Manifest
  toolchain : Str
  partitions : Int := 0
  file : Str := []

/-- What a preprocessor run ends with: an error, or the text and the stamps. -/
abbrev Preprocessed := Except Str (Str × List FileStamp)

/-- `run_preprocess`. -/
def runPreprocess (H : Sha256) (s : Setup) (u : TextUnit) : Preprocessed → TextUnit
  | .error e => { u with error := e }
  | .ok (text, deps) =>
      { u with key := compileKey H (unitConfig s.m s.toolchain u.src) text
               digest := H.hex text
               cost := Int64.ofNat text.length
               text := text
               fresh := true
               deps := deps }

/-- A unit of the first loop whose stamps are still valid. -/
def reuseUnit (u : TextUnit) (old : SourceUnit) : TextUnit :=
  { u with key := old.key, digest := old.digest, cost := old.cost, deps := old.deps }

/-- `Blob`. -/
structure Blob where
  hash : Str
  data : Str
deriving DecidableEq, Repr

/-- Where the build is: the units a parallel loop has still to do, the hashes
`FindMissing` has still to look up, the units and blobs that are still to be sent. -/
inductive Phase where
  | keying (due : List Str)
  | checking
  | redoing (due : List Str)
  | asking (left missing : List Str)
  | sending (rest toSend : List Str) (batch : List Blob)
  | putting (left : List Blob) (rest toSend : List Str)
  | submitting
  | ended

/-- The variables of `build`; a unit is found by its source. -/
structure Dcc where
  units : Str → TextUnit
  need : List Str := []
  phase : Phase

def Dcc.prepared (d : Dcc) : Prepared where
  key src := (d.units src).key
  digest src := (d.units src).digest
  cost src := (d.units src).cost.toInt

/-- The spec of step 4. -/
def Dcc.spec (s : Setup) (d : Dcc) : BuildSpec := buildSpec s.m s.toolchain s.partitions d.prepared

/-- One unit of a parallel loop is done. -/
def Dcc.set (d : Dcc) (src : Str) (u : TextUnit) (phase : Phase) : Dcc :=
  { d with units := Function.update d.units src u, phase }

/-- `batch_bytes > (32 << 20)`. -/
def full (batch : List Blob) : Bool := 2 ^ 25 < (batch.map fun b => b.data.length).sum

/-- One round of the loop over `need`: `to_send.erase` tells whether the blob is missing. -/
def visit (d : Dcc) (src : Str) (rest toSend : List Str) (batch : List Blob) : Phase :=
  if (d.units src).digest ∈ toSend then
    let batch := batch ++ [⟨(d.units src).digest, (d.units src).text⟩]
    let toSend := toSend.filter fun h => h ≠ (d.units src).digest
    if full batch then .putting batch rest toSend else .sending rest toSend batch
  else .sending rest toSend batch

inductive Act where
  /-- a call of another client, a worker or the reaper -/
  | other (call : Call)
  | reuse (src : Str)
  | preprocess (src : Str) (outcome : Preprocessed)
  | keyed
  | checkCache
  | redo (src : Str) (outcome : Preprocessed)
  | redone
  | find
  | found
  | visit
  | flush
  | put (stored : Bool)
  | sent
  | submitBuild (live : Int) (reply : Except Status (Nat × Nat))
  /-- an error, an exception or the end of the process -/
  | quit

/-- A step of the client, which sees the cache and the blobs of its call. A call that is
repeated counts with its last reply. -/
def Dcc.next (H : Sha256) (s : Setup) (c : Coordinator) (d : Dcc) : Act → Option Dcc
  | .other _ => some d
  | .reuse src => match d.phase, loadState s.file (stateConfig H s.m s.toolchain) src with
    | .keying due, some old =>
        if src ∈ due then some (d.set src (reuseUnit (d.units src) old) (.keying (due.erase src)))
        else none
    | _, _ => none
  | .preprocess src outcome => match d.phase with
    | .keying due =>
        if src ∈ due then
          some (d.set src (runPreprocess H s (d.units src) outcome) (.keying (due.erase src)))
        else none
    | _ => none
  | .keyed => match d.phase with
    | .keying [] =>
        if ∀ src ∈ unitSources s.m, (d.units src).error = [] then some { d with phase := .checking }
        else none
    | _ => none
  | .checkCache => match d.phase with
    | .checking =>
        let need := (unitSources s.m).filter fun src => (c.db.cached? (d.units src).key).isNone
        some { d with need, phase := .redoing (need.filter fun src => !(d.units src).fresh) }
    | _ => none
  | .redo src outcome => match d.phase with
    | .redoing due =>
        if src ∈ due then
          some (d.set src (runPreprocess H s (d.units src) outcome) (.redoing (due.erase src)))
        else none
    | _ => none
  | .redone => match d.phase with
    | .redoing [] => some { d with phase := .asking (d.need.map fun src => (d.units src).digest) [] }
    | _ => none
  | .find => match d.phase with
    | .asking (h :: left) missing =>
        some { d with phase := .asking left (if c.blobs.has h then missing else missing ++ [h]) }
    | _ => none
  | .found => match d.phase with
    | .asking [] missing => some { d with phase := .sending d.need missing [] }
    | _ => none
  | .visit => match d.phase with
    | .sending (src :: rest) toSend batch => some { d with phase := Uploads.visit d src rest toSend batch }
    | _ => none
  | .flush => match d.phase with
    | .sending [] toSend batch =>
        if batch = [] then some { d with phase := .submitting }
        else some { d with phase := .putting batch [] toSend }
    | _ => none
  | .put stored => match d.phase with
    | .putting (_ :: left) rest toSend =>
        some { d with phase := if stored then .putting left rest toSend else .ended }
    | _ => none
  | .sent => match d.phase with
    | .putting [] rest toSend => some { d with phase := .sending rest toSend [] }
    | _ => none
  | .submitBuild _ _ => match d.phase with
    | .submitting => some d
    | _ => none
  | .quit => some { d with phase := .ended }

/-- The call that a step makes, where it changes the coordinator. -/
def Dcc.call (s : Setup) (d : Dcc) : Act → Option Call
  | .other call => some call
  | .put stored => match d.phase with
    | .putting (b :: _) _ _ => some (.putBlob b.data b.hash stored)
    | _ => none
  | .submitBuild live reply => some (.submitBuild (d.spec s) live reply)
  | _ => none

/-- The coordinator and one build. -/
structure World where
  coordinator : Coordinator
  dcc : Dcc

/-- The coordinator makes the step that the call asks for. -/
def Served (H : Sha256) (o : Options) (c : Coordinator) (call : Option Call) (c' : Coordinator) : Prop :=
  match call with
  | none => c' = c
  | some call => Step H o c call c'

structure Next (H : Sha256) (o : Options) (s : Setup) (w : World) (act : Act) (w' : World) : Prop where
  client : w.dcc.next H s w.coordinator act = some w'.dcc
  served : Served H o w.coordinator (w.dcc.call s act) w'.coordinator

/-- The build after it has read the manifest and the state file. -/
def start (s : Setup) (c : Coordinator) : World where
  coordinator := c
  dcc := { units := fun src => { src }, phase := .keying (unitSources s.m) }

/-! ### Why a submit is refused -/

section Submit

variable {H : Sha256} {o : Options} {has : Str → Bool}

/-- The walk gives up at a compile task that is not cached and whose input is missing. -/
theorem walk_error {cache : Str → Option Str} {spec : BuildSpec} {order : List Nat} {e : Status}
    (failed : walk H has cache spec order = .error e) : ∃ ts ∈ spec.tasks, ts.kind = COMPILE ∧
      has ts.input = false ∧ (ts.key = [] ∨ cache ts.key = none) := by
  -- a key that is looked up on the way gets what the cache says
  have keeps : ∀ {w w' : Walk} {id : Nat},
      (∀ ts ∈ spec.tasks, ts.kind = COMPILE → w.hits ts.key = cache ts.key) →
      walkTask H has cache spec w id = .ok w' →
        ∀ ts ∈ spec.tasks, ts.kind = COMPILE → w'.hits ts.key = cache ts.key := by
    intro w w' id known stepped
    have hits : ∀ t : TaskSpec, ∀ ts ∈ spec.tasks, ts.kind = COMPILE →
        hitsAfter H cache spec w t ts.key = cache ts.key := by
      intro t ts member compile
      rw [hitsAfter]
      split
      · by_cases same : ts.key = (resolveInputs H spec w.row t).key
        · rw [same, Function.update_self]
        · rw [Function.update_of_ne same]
          exact known ts member compile
      · exact known ts member compile
    cases walkTask_visits stepped with
    | outside => exact known
    | cached | ready | waiting => exact hits _
  obtain ⟨w, id, -, known, here⟩ := foldlM_error
    (P := fun w : Walk => ∀ ts ∈ spec.tasks, ts.kind = COMPILE → w.hits ts.key = cache ts.key) keeps
    (fun ts member compile => lookupCompileKeys_compile member compile) failed
  obtain ⟨ts, found, compile, missing, miss⟩ := walkTask_refuses here
  have member := List.mem_of_getElem? found
  refine ⟨ts, member, compile, missing, ?_⟩
  rw [hitFor, resolveInputs_compile compile, hitsAfter_compile compile] at miss
  split at miss
  · rename_i empty
    exact Or.inl empty
  · exact Or.inr ((known ts member compile).symm.trans miss)

/-- A failed precondition is a compile task without key in the cache and without input
in the store. -/
theorem submitBuild_precondition {db : Db} {live : Int} {spec : BuildSpec} {message : Str}
    (refused : (submitBuild H o has db live spec).2 = .error (.failedPrecondition message)) :
    ∃ ts ∈ spec.tasks, ts.kind = COMPILE ∧ validHash ts.input = true ∧ has ts.input = false ∧
      db.outputs ts.key = none := by
  unfold submitBuild at refused
  split at refused
  · cases refused
  · rename_i good
    split at refused
    · cases refused
    · unfold submit at refused
      split at refused
      · rename_i failed
        obtain ⟨ts, member, compile, missing, unknown⟩ := walk_error failed
        obtain ⟨key, input⟩ := compileTask_valid good member compile
        exact ⟨ts, member, compile, input, missing, unknown.resolve_left (validHash_ne_nil key)⟩
      · split at refused
        · cases refused
        · split at refused <;> cases refused

end Submit

/-- A compile task is made of a unit. -/
theorem compileTask_unit {m : Manifest} {toolchain : Str} {partitions : Int} {p : Prepared} {ts : TaskSpec}
    (member : ts ∈ (buildSpec m toolchain partitions p).tasks) (compile : ts.kind = COMPILE) :
    ∃ src ∈ unitSources m, ts.key = p.key src ∧ ts.input = p.digest src := by
  have compiled : ts ∈ (buildSpec m toolchain partitions p).ofKind COMPILE :=
    List.mem_filter.mpr ⟨member, by simpa using compile⟩
  rw [ofKind_compile] at compiled
  obtain ⟨id, found⟩ := List.mem_iff_getElem?.mp compiled
  obtain ⟨src, first, rfl⟩ := (compiles_interned m toolchain p).made id ts found
  exact ⟨src, List.mem_of_find?_eq_some first, rfl, rfl⟩

/-! ### The invariant -/

/-- A digest that `submit` can ask for is in the store. -/
def Held (c : Coordinator) (h : Str) : Prop := validHash h = true → c.blobs.has h = true

/-- The units that are not needed are in the cache. -/
def Cached (s : Setup) (c : Coordinator) (d : Dcc) : Prop :=
  ∀ src ∈ unitSources s.m, src ∉ d.need → (c.db.outputs (d.units src).key).isSome = true

/-- A digest is stored, or a unit that has it is still to be visited, or a blob to be sent. -/
def Due (c : Coordinator) (d : Dcc) (rest toSend : List Str) (blobs : List Blob) (h : Str) : Prop :=
  Held c h ∨ (h ∈ toSend ∧ ∃ src ∈ rest, (d.units src).digest = h) ∨ ∃ b ∈ blobs, b.hash = h

/-- What holds of a build between two of its steps. -/
def Sound (s : Setup) (c : Coordinator) (d : Dcc) : Prop :=
  match d.phase with
  | .keying _ | .checking | .ended => True
  | .redoing due => Cached s c d ∧ ∀ src ∈ due, src ∈ d.need
  | .asking left missing => Cached s c d ∧ ∀ src ∈ d.need,
      Held c (d.units src).digest ∨ (d.units src).digest ∈ left ∨ (d.units src).digest ∈ missing
  | .sending rest toSend batch => Cached s c d ∧ ∀ src ∈ d.need, Due c d rest toSend batch (d.units src).digest
  | .putting left rest toSend => Cached s c d ∧ ∀ src ∈ d.need, Due c d rest toSend left (d.units src).digest
  | .submitting => Cached s c d ∧ ∀ src ∈ d.need, Held c (d.units src).digest

section Invariant

variable {H : Sha256} {o : Options} {s : Setup} {c c' : Coordinator} {d d' : Dcc}

/-- The cache and the store have only grown. -/
structure Later (c c' : Coordinator) : Prop where
  cache : c.db.Remembers c'.db
  blobs : ∀ h, c.blobs.has h = true → c'.blobs.has h = true

theorem later_of_step {call : Call} (step : Step H o c call c') : Later c c' :=
  ⟨step.remembers, fun _ => step.holds⟩

theorem Held.later {h : Str} (held : Held c h) (later : Later c c') : Held c' h :=
  fun valid => later.blobs h (held valid)

theorem Cached.later (cached : Cached s c d) (later : Later c c') : Cached s c' d := by
  intro src member unneeded
  obtain ⟨output, hit⟩ := Option.isSome_iff_exists.mp (cached src member unneeded)
  exact Option.isSome_iff_exists.mpr ⟨output, later.cache _ _ hit⟩

theorem Due.later {rest toSend : List Str} {blobs : List Blob} {h : Str} (due : Due c d rest toSend blobs h)
    (later : Later c c') : Due c' d rest toSend blobs h := due.imp_left fun held => held.later later

/-- What others do changes nothing for the build. -/
theorem Sound.later (sound : Sound s c d) (later : Later c c') : Sound s c' d := by
  unfold Sound at sound ⊢
  split
  · trivial
  · trivial
  · trivial
  · rename_i due phase
    rw [phase] at sound
    exact ⟨sound.1.later later, sound.2⟩
  · rename_i left missing phase
    rw [phase] at sound
    exact ⟨sound.1.later later, fun src needed => (sound.2 src needed).imp_left fun held => held.later later⟩
  · rename_i rest toSend batch phase
    rw [phase] at sound
    exact ⟨sound.1.later later, fun src needed => (sound.2 src needed).later later⟩
  · rename_i left rest toSend phase
    rw [phase] at sound
    exact ⟨sound.1.later later, fun src needed => (sound.2 src needed).later later⟩
  · rename_i phase
    rw [phase] at sound
    exact ⟨sound.1.later later, fun src needed => (sound.2 src needed).later later⟩

/-- One round of the loop over `need`. -/
theorem visit_due {src : Str} {rest toSend : List Str} {batch : List Blob} (cached : Cached s c d)
    (due : ∀ u ∈ d.need, Due c d (src :: rest) toSend batch (d.units u).digest) :
    Sound s c { d with phase := visit d src rest toSend batch } := by
  unfold visit
  split
  · rename_i missing
    -- the blob of this unit goes into the batch, and with it every unit that has its digest
    have sent : ∀ u ∈ d.need, Due c d rest (toSend.filter fun h => h ≠ (d.units src).digest)
        (batch ++ [⟨(d.units src).digest, (d.units src).text⟩]) (d.units u).digest := by
      intro u needed
      rcases due u needed with held | ⟨listed, v, hv, same⟩ | ⟨b, hb, same⟩
      · exact Or.inl held
      · by_cases here : (d.units u).digest = (d.units src).digest
        · exact Or.inr (Or.inr ⟨_, List.mem_append_right _ (List.mem_singleton.mpr rfl), here.symm⟩)
        · refine Or.inr (Or.inl ⟨List.mem_filter.mpr ⟨listed, by simpa using here⟩, v, ?_, same⟩)
          rcases List.mem_cons.mp hv with rfl | later
          · exact absurd same.symm here
          · exact later
      · exact Or.inr (Or.inr ⟨b, List.mem_append_left _ hb, same⟩)
    dsimp only
    split
    · exact ⟨cached, sent⟩
    · exact ⟨cached, sent⟩
  · rename_i present
    refine ⟨cached, fun u needed => ?_⟩
    rcases due u needed with held | ⟨listed, v, hv, same⟩ | batched
    · exact Or.inl held
    · refine Or.inr (Or.inl ⟨listed, v, ?_, same⟩)
      rcases List.mem_cons.mp hv with rfl | later
      · exact absurd (same ▸ listed) present
      · exact later
    · exact Or.inr (Or.inr batched)

/-- A unit that is preprocessed again was needed. -/
theorem redo_cached {src : Str} {u : TextUnit} {phase : Phase} (cached : Cached s c d) (needed : src ∈ d.need) :
    Cached s c (d.set src u phase) := by
  intro v member unneeded
  have other : v ≠ src := by
    rintro rfl
    exact unneeded needed
  simp only [Dcc.set, Function.update_of_ne other]
  exact cached v member unneeded

/-- One digest is looked up. -/
theorem find_asked {h : Str} {left missing : List Str} {digest : Str}
    (asked : Held c digest ∨ digest ∈ h :: left ∨ digest ∈ missing) :
    Held c digest ∨ digest ∈ left ∨ digest ∈ if c.blobs.has h then missing else missing ++ [h] := by
  rcases asked with held | listed | missed
  · exact Or.inl held
  · rcases List.mem_cons.mp listed with here | later
    · by_cases has : c.blobs.has h = true
      · exact Or.inl fun _ => here ▸ has
      · rw [if_neg has]
        exact Or.inr (Or.inr (List.mem_append_right _ (List.mem_singleton.mpr here)))
    · exact Or.inr (Or.inl later)
  · refine Or.inr (Or.inr ?_)
    split
    · exact missed
    · exact List.mem_append_left _ missed

/-- One blob has been stored. -/
theorem Due.put {b : Blob} {left : List Blob} {rest toSend : List Str} {h : Str}
    (due : Due c d rest toSend (b :: left) h) (stored : Held c b.hash) : Due c d rest toSend left h := by
  rcases due with held | visited | ⟨b', hb', same⟩
  · exact Or.inl held
  · exact Or.inr (Or.inl visited)
  · rcases List.mem_cons.mp hb' with rfl | later
    · exact Or.inl (same ▸ stored)
    · exact Or.inr (Or.inr ⟨b', later, same⟩)

/-- A step of the client keeps the invariant, if a blob is stored when `put` says so. -/
theorem Sound.next {act : Act} (sound : Sound s c d) (stepped : d.next H s c act = some d')
    (stored : act = .put true → ∀ b left rest toSend, d.phase = .putting (b :: left) rest toSend →
      Held c b.hash) : Sound s c d' := by
  cases act with
  | other call =>
    cases stepped
    exact sound
  | reuse src =>
    simp only [Dcc.next] at stepped
    split at stepped
    · split_ifs at stepped
      cases stepped
      trivial
    · cases stepped
  | preprocess src outcome =>
    simp only [Dcc.next] at stepped
    split at stepped
    · split_ifs at stepped
      cases stepped
      trivial
    · cases stepped
  | keyed =>
    simp only [Dcc.next] at stepped
    split at stepped
    · split_ifs at stepped
      cases stepped
      trivial
    · cases stepped
  | checkCache =>
    simp only [Dcc.next] at stepped
    split at stepped
    · cases stepped
      refine ⟨fun src member unneeded => ?_, fun src due => (List.mem_filter.mp due).1⟩
      have known : ¬ (c.db.cached? (d.units src).key).isNone = true := fun none =>
        unneeded (List.mem_filter.mpr ⟨member, none⟩)
      simpa [Db.outputs, Option.isSome_iff_ne_none] using known
    · cases stepped
  | redo src outcome =>
    simp only [Dcc.next] at stepped
    split at stepped
    · rename_i due phase
      rw [Sound, phase] at sound
      split_ifs at stepped with listed
      cases stepped
      exact ⟨redo_cached sound.1 (sound.2 src listed), fun u hu => sound.2 u (List.mem_of_mem_erase hu)⟩
    · cases stepped
  | redone =>
    simp only [Dcc.next] at stepped
    split at stepped
    · rename_i phase
      rw [Sound, phase] at sound
      cases stepped
      exact ⟨sound.1, fun src needed => Or.inr (Or.inl (List.mem_map.mpr ⟨src, needed, rfl⟩))⟩
    · cases stepped
  | find =>
    simp only [Dcc.next] at stepped
    split at stepped
    · rename_i h left missing phase
      rw [Sound, phase] at sound
      cases stepped
      exact ⟨sound.1, fun src needed => find_asked (sound.2 src needed)⟩
    · cases stepped
  | found =>
    simp only [Dcc.next] at stepped
    split at stepped
    · rename_i missing phase
      rw [Sound, phase] at sound
      cases stepped
      refine ⟨sound.1, fun src needed => ?_⟩
      rcases sound.2 src needed with held | listed | missed
      · exact Or.inl held
      · cases listed
      · exact Or.inr (Or.inl ⟨missed, src, needed, rfl⟩)
    · cases stepped
  | visit =>
    simp only [Dcc.next] at stepped
    split at stepped
    · rename_i src rest toSend batch phase
      rw [Sound, phase] at sound
      cases stepped
      exact visit_due sound.1 sound.2
    · cases stepped
  | flush =>
    simp only [Dcc.next] at stepped
    split at stepped
    · rename_i toSend batch phase
      rw [Sound, phase] at sound
      split_ifs at stepped with empty
      · cases stepped
        refine ⟨sound.1, fun src needed => ?_⟩
        rcases sound.2 src needed with held | ⟨-, u, hu, -⟩ | ⟨b, hb, -⟩
        · exact held
        · cases hu
        · rw [empty] at hb
          cases hb
      · cases stepped
        exact sound
    · cases stepped
  | put ok =>
    simp only [Dcc.next] at stepped
    split at stepped
    · rename_i b left rest toSend phase
      rw [Sound, phase] at sound
      cases stepped
      cases ok with
      | false => trivial
      | true =>
        exact ⟨sound.1, fun src needed => (sound.2 src needed).put (stored rfl _ _ _ _ phase)⟩
    · cases stepped
  | sent =>
    simp only [Dcc.next] at stepped
    split at stepped
    · rename_i rest toSend phase
      rw [Sound, phase] at sound
      cases stepped
      exact sound
    · cases stepped
  | submitBuild live reply =>
    simp only [Dcc.next] at stepped
    split at stepped
    · cases stepped
      exact sound
    · cases stepped
  | quit =>
    cases stepped
    trivial

/-- A blob that was accepted is stored under the hash it was sent with. -/
theorem held_of_put {data hash : Str} (step : Step H o c (.putBlob data hash true) c') : Held c' hash := by
  intro valid
  cases step with
  | putBlob put =>
    rename_i blobs
    unfold Blobs.put at put
    split_ifs at put with refused present
    · cases put
      have same : hash = H.hex data := by
        by_contra other
        exact refused ⟨validHash_ne_nil valid, other⟩
      rw [same]
      exact present
    · cases put
      have same : hash = H.hex data := by
        by_contra other
        exact refused ⟨validHash_ne_nil valid, other⟩
      rw [Blobs.has, valid, Bool.true_and, List.any_append, same]
      simp

theorem Next.sound {w w' : World} {act : Act} (next : Next H o s w act w')
    (sound : Sound s w.coordinator w.dcc) : Sound s w'.coordinator w'.dcc := by
  obtain ⟨client, served⟩ := next
  cases call : w.dcc.call s act with
  | none =>
    rw [call] at served
    have same : w'.coordinator = w.coordinator := served
    rw [same]
    refine sound.next client fun stored b left rest toSend phase => ?_
    simp [stored, Dcc.call, phase] at call
  | some made =>
    rw [call] at served
    have step : Step H o w.coordinator made w'.coordinator := served
    have later := sound.later (later_of_step step)
    -- a step with a call does not look at the coordinator
    have blind : w.dcc.next H s w'.coordinator act = w.dcc.next H s w.coordinator act := by
      cases act with
      | other _ | put _ | submitBuild _ _ => rfl
      | _ => cases call
    refine later.next (blind.trans client) fun stored b left rest toSend phase => ?_
    subst stored
    simp only [Dcc.call, phase, Option.some.injEq] at call
    subst call
    exact held_of_put step

end Invariant

/-! ### Every run -/

/-- However a build's calls and those of others interleave, whatever the state file says
and the preprocessor does: a submit that `dcc` reaches is not turned down for an input
that is not uploaded. -/
theorem inputs_uploaded {H : Sha256} {o : Options} {s : Setup} {c : Coordinator} {acts : List Act}
    {w w' : World} {live : Int} {reply : Except Status (Nat × Nat)}
    (run : Runs (Next H o s) (start s c) acts w) (submit : Next H o s w (.submitBuild live reply) w') :
    ∀ name, reply ≠ .error (.failedPrecondition ("input of ".toList ++ name ++ " not uploaded".toList)) := by
  rintro name rfl
  have sound := run.invariant (P := fun w : World => Sound s w.coordinator w.dcc) trivial fun next => next.sound
  obtain ⟨client, served⟩ := submit
  have step : Step H o w.coordinator (.submitBuild (w.dcc.spec s) live _) w'.coordinator := served
  have phase : w.dcc.phase = .submitting := by
    simp only [Dcc.next] at client
    split at client
    · assumption
    · cases client
  rw [Sound, phase] at sound
  generalize w'.coordinator = c' at step
  generalize message : Except.error _ = reply at step
  cases step with
  | submitBuild =>
    obtain ⟨ts, member, compile, valid, missing, unknown⟩ := submitBuild_precondition message.symm
    obtain ⟨src, hs, sameKey, sameInput⟩ := compileTask_unit member compile
    have key : ts.key = (w.dcc.units src).key := sameKey
    have input : ts.input = (w.dcc.units src).digest := sameInput
    by_cases needed : src ∈ w.dcc.need
    · rw [input] at valid missing
      rw [sound.2 src needed valid] at missing
      cases missing
    · have known := sound.1 src hs needed
      rw [← key, unknown] at known
      cases known

/-- A step whose call, if it makes one, stores a blob. -/
def perform (H : Sha256) (s : Setup) (w : World) (act : Act) : Option World := do
  let d ← w.dcc.next H s w.coordinator act
  match w.dcc.call s act with
  | none => some ⟨w.coordinator, d⟩
  | some (.putBlob data hash true) =>
      (w.coordinator.blobs.put H data hash).map fun blobs => ⟨{ w.coordinator with blobs }, d⟩
  | _ => none

theorem perform_next {H : Sha256} {o : Options} {s : Setup} {w w' : World} {act : Act}
    (performed : perform H s w act = some w') : Next H o s w act w' := by
  obtain ⟨d, client, rest⟩ := Option.bind_eq_some_iff.mp performed
  split at rest
  · rename_i silent
    cases rest
    exact ⟨client, by rw [silent]; rfl⟩
  · rename_i data hash call
    obtain ⟨blobs, put, rfl⟩ := Option.map_eq_some_iff.mp rest
    exact ⟨client, by rw [call]; exact .putBlob put⟩
  · cases rest

/-- One library of one source, which is not known yet. -/
def sampleSetup : Setup where
  m := { targets := [{ isLib := true, name := "f".toList, sources := ["f.c".toList] }] }
  toolchain := "gcc".toList

/-- The key and the digest of the source. -/
def uploadSha : Sha256 := Sha256.ofTable [
  (frameParts (compileParts (unitConfig sampleSetup.m sampleSetup.toolchain "f.c".toList) "int f;".toList),
    sampleKey),
  ("int f;".toList, sampleInput)] (by decide)

def sampleActs : List Act :=
  [.preprocess "f.c".toList (.ok ("int f;".toList, [])), .keyed, .checkCache, .redone, .find, .found, .visit,
    .flush, .put true, .sent, .flush]

theorem sampleActs_performed : (sampleActs.foldlM (perform uploadSha sampleSetup) (start sampleSetup {})).any
    (fun w => (match w.dcc.phase with | .submitting => true | _ => false) &&
      match (submitBuild uploadSha {} w.coordinator.blobs.has w.coordinator.db 1 (w.dcc.spec sampleSetup)).2 with
      | .ok reply => reply = (1, 0)
      | .error _ => false) = true := by
  decide +kernel

/-- The build of the sample uploads its source and is accepted. -/
theorem inputs_uploaded_sample :
    ∃ acts w w' reply, Runs (Next uploadSha {} sampleSetup) (start sampleSetup {}) acts w ∧
      Next uploadSha {} sampleSetup w (.submitBuild 1 reply) w' ∧ reply = .ok (1, 0) ∧
      ∀ name, reply ≠ .error (.failedPrecondition ("input of ".toList ++ name ++ " not uploaded".toList)) := by
  obtain ⟨w, performed, holds⟩ := (Option.any_eq_true _ _).mp sampleActs_performed
  rw [Bool.and_eq_true] at holds
  have run : Runs (Next uploadSha {} sampleSetup) (start sampleSetup {}) sampleActs w :=
    (Runs.of_foldlM performed).mono perform_next
  have phase : w.dcc.phase = .submitting := by
    have there := holds.1
    split at there
    · assumption
    · cases there
  have submit : Next uploadSha {} sampleSetup w (.submitBuild 1 _) ⟨_, w.dcc⟩ :=
    ⟨by simp only [Dcc.next, phase], Step.submitBuild⟩
  refine ⟨_, w, _, _, run, submit, ?_, inputs_uploaded run submit⟩
  have there := holds.2
  split at there
  · rename_i reply accepted
    rw [accepted, of_decide_eq_true there]
  · cases there

end DistCompile.Uploads
