import DistCompile.Lib.Run
import DistCompile.Text

/-!
The content-addressed blob store (`src/cas.cpp`) and the atomic write it rests on
(`write_file_atomic` in `src/util.cpp`).

Any number of `put` calls run side by side, each in a thread of some process. A call
checks the store, opens a temporary file of its own, writes through an `std::ofstream`,
closes it and renames the file to the path of the blob. Every one of these is a step,
every one can fail, and a process can crash between any two of them.

The stream holds data back: bytes reach the file at any time between the open and the
close (`Event.spill`), and the close flushes the rest. Nobody looks at the result of the
close, so a flush that fails there (`Event.closeFails`) is followed by the rename.
-/

namespace DistCompile.Cas

open DistCompile.Lib

/-! ### Paths -/

/-- `Cas::path_of`. -/
def pathOf (root hash : Str) : Str := root ++ '/' :: hash.take 2 ++ '/' :: hash.drop 2

/-- A thread of a process: `getpid()` and `pthread_self()`. -/
structure Thread where
  pid : Nat
  self : Nat
deriving DecidableEq, Repr

/-- `.tmp.%d.%lx`. -/
def tmpSuffix (t : Thread) : Str :=
  ".tmp.".toList ++ Nat.toDigits 10 t.pid ++ '.' :: Nat.toDigits 16 t.self

def tmpPath (root hash : Str) (t : Thread) : Str := pathOf root hash ++ tmpSuffix t

/-! ### The store -/

/-- Where a `put` call is. `written` counts the bytes that are in the file. -/
inductive Stage where
  /-- the store does not have the blob -/
  | checked
  /-- in `f.write` -/
  | writing (written : Nat)
  /-- `f.write` has returned, the stream is good -/
  | wrote (written : Nat)
  /-- the stream is destroyed -/
  | closed (written : Nat)
deriving DecidableEq, Repr

/-- A `put` call past its checks. -/
structure Put where
  data : Str
  stage : Stage := .checked
deriving DecidableEq, Repr

/-- The file system and the calls under way; a thread has one at a time. -/
structure Store where
  files : Str → Option Str
  puts : Thread → Option Put := fun _ => none

/-- `Cas::has`. -/
def has (root : Str) (s : Store) (hash : Str) : Bool := validHash hash && (s.files (pathOf root hash)).isSome

/-- `Cas::get`. -/
def get (root : Str) (s : Store) (hash : Str) : Option Str :=
  if validHash hash then s.files (pathOf root hash) else none

inductive Event where
  | begin (t : Thread) (data expect : Str)
  | create (t : Thread)
  | createFails (t : Thread)
  | spill (t : Thread) (bytes : Nat)
  | write (t : Thread)
  | writeFails (t : Thread)
  | close (t : Thread)
  | closeFails (t : Thread)
  | rename (t : Thread)
  | renameFails (t : Thread)
  | crash (pid : Nat)
deriving DecidableEq, Repr

/-- What `put` does with its arguments before it writes anything: its result, or
`none` when it goes on. -/
def putChecks (H : Sha256) (root : Str) (s : Store) (data expect : Str) : Option Str :=
  if expect ≠ [] ∧ expect ≠ H.hex data then some []
  else if has root s (H.hex data) then some (H.hex data)
  else none

section Steps

variable (H : Sha256) (root : Str)

/-- The temporary file of a call. -/
def Put.tmp (p : Put) (t : Thread) : Str := tmpPath root (H.hex p.data) t

/-- A step of a call that stays under way, with what it leaves in its temporary file. -/
def Store.goOn (s : Store) (t : Thread) (p : Put) (stage : Stage) (tmp : Option Str) : Store where
  files := Function.update s.files (p.tmp H root t) tmp
  puts := Function.update s.puts t (some { p with stage })

/-- The call of a thread returns. -/
def Store.return_ (s : Store) (t : Thread) : Store := { s with puts := Function.update s.puts t none }

/-- One step: the store after it, and what `put` returns if it ends a call. -/
def next (s : Store) : Event → Option (Store × Option Str)
  | .begin t data expect =>
      match s.puts t, putChecks H root s data expect with
      | some _, _ => none
      | none, some result => some (s, some result)
      | none, none => some ({ s with puts := Function.update s.puts t (some { data }) }, none)
  | .create t =>
      match s.puts t with
      | some ⟨data, .checked⟩ => some (s.goOn H root t ⟨data, .checked⟩ (.writing 0) (some []), none)
      | _ => none
  | .createFails t =>
      match s.puts t with
      | some ⟨_, .checked⟩ => some (s.return_ t, some [])
      | _ => none
  | .spill t bytes =>
      match s.puts t with
      | some ⟨data, .writing n⟩ => if n + bytes ≤ data.length then
          some (s.goOn H root t ⟨data, .writing n⟩ (.writing (n + bytes)) (some (data.take (n + bytes))), none)
          else none
      | some ⟨data, .wrote n⟩ => if n + bytes ≤ data.length then
          some (s.goOn H root t ⟨data, .wrote n⟩ (.wrote (n + bytes)) (some (data.take (n + bytes))), none)
          else none
      | _ => none
  | .write t =>
      match s.puts t with
      | some ⟨data, .writing n⟩ =>
          some (s.goOn H root t ⟨data, .writing n⟩ (.wrote n) (some (data.take n)), none)
      | _ => none
  | .writeFails t =>
      match s.puts t with
      | some ⟨_, .writing _⟩ => some (s.return_ t, some [])
      | _ => none
  | .close t =>
      match s.puts t with
      | some ⟨data, .wrote n⟩ =>
          some (s.goOn H root t ⟨data, .wrote n⟩ (.closed data.length) (some data), none)
      | _ => none
  | .closeFails t =>
      match s.puts t with
      | some ⟨data, .wrote n⟩ => if n < data.length then
          some (s.goOn H root t ⟨data, .wrote n⟩ (.closed n) (some (data.take n)), none)
          else none
      | _ => none
  | .rename t =>
      match s.puts t with
      | some ⟨data, .closed n⟩ =>
          let p : Put := ⟨data, .closed n⟩
          some ({ files := Function.update (Function.update s.files (pathOf root (H.hex data))
                    (s.files (p.tmp H root t))) (p.tmp H root t) none
                  puts := Function.update s.puts t none }, some (H.hex data))
      | _ => none
  | .renameFails t =>
      match s.puts t with
      | some ⟨data, .closed n⟩ =>
          let p : Put := ⟨data, .closed n⟩
          some ({ files := Function.update s.files (p.tmp H root t) none
                  puts := Function.update s.puts t none }, some [])
      | _ => none
  | .crash pid => some ({ s with puts := fun t => if t.pid = pid then none else s.puts t }, none)

/-- The step relation. -/
def Step (s : Store) (e : Event) (s' : Store) : Prop := ∃ result, next H root s e = some (s', result)

end Steps

/-! ### Names -/

section Names

variable {root h h' : Str} {t t' : Thread}

theorem length_pathOf (valid : validHash h = true) : (pathOf root h).length = root.length + 66 := by
  simp only [validHash, Bool.and_eq_true, beq_iff_eq] at valid
  simp [pathOf, valid.1]

/-- Different blobs have different paths. -/
theorem pathOf_inj (valid : validHash h = true) (valid' : validHash h' = true)
    (same : pathOf root h = pathOf root h') : h = h' := by
  simp only [validHash, Bool.and_eq_true, beq_iff_eq] at valid valid'
  simp only [pathOf, List.append_assoc, List.cons_append] at same
  have rest := (List.cons.inj (List.append_cancel_left same)).2
  obtain ⟨front, back⟩ := List.append_inj rest (by simp [valid.1, valid'.1])
  rw [← List.take_append_drop 2 h, front, (List.cons.inj back).2, List.take_append_drop]

/-- A temporary file is no blob. -/
theorem tmpPath_ne_pathOf (valid : validHash h = true) (valid' : validHash h' = true) :
    tmpPath root h t ≠ pathOf root h' := by
  intro same
  have lengths := congrArg List.length same
  rw [tmpPath, List.length_append, length_pathOf valid, length_pathOf valid', tmpSuffix] at lengths
  simp at lengths

/-- Hex numbers read differently when they are different. -/
theorem toDigits_hex_inj {m n : Nat} (same : Nat.toDigits 16 m = Nat.toDigits 16 n) : m = n := by
  have digit : ∀ i < 16, ∀ j < 16, Nat.digitChar i = Nat.digitChar j → i = j := by decide
  induction m using Nat.strongRecOn generalizing n with
  | ind m ih =>
    rw [Nat.toDigits_eq_if (by decide), Nat.toDigits_eq_if (n := n) (by decide)] at same
    have positive : ∀ k, 0 < (Nat.toDigits 16 k).length := fun k => Nat.length_toDigits_pos
    split_ifs at same with small small' small'
    · exact digit m small n small' (by simpa using same)
    · have := congrArg List.length same
      have := positive (n / 16)
      simp only [List.length_append, List.length_singleton] at *
      omega
    · have := congrArg List.length same
      have := positive (m / 16)
      simp only [List.length_append, List.length_singleton] at *
      omega
    · obtain ⟨front, last⟩ := List.append_inj' same rfl
      have high := ih (m / 16) (by omega) front
      have low := digit _ (Nat.mod_lt m (by decide)) _ (Nat.mod_lt n (by decide)) (by simpa using last)
      omega

theorem tmpSuffix_inj (same : tmpSuffix t = tmpSuffix t') : t = t' := by
  have noDot : ∀ n, '.' ∉ Nat.toDigits 10 n := fun n member =>
    absurd (Nat.isDigit_of_mem_toDigits (by decide) (by decide) member) (by decide)
  simp only [tmpSuffix, List.append_assoc] at same
  have parts := congrArg (List.splitOn '.') (List.append_cancel_left same)
  rw [List.splitOn_append_cons_self_of_not_mem (noDot _), List.splitOn_append_cons_self_of_not_mem (noDot _)]
    at parts
  have pid := (List.cons.inj parts).1
  rw [pid] at same
  have self := (List.cons.inj (List.append_cancel_left (List.append_cancel_left same))).2
  have pid' : t.pid = t'.pid := by
    rw [← Nat.ofDigitChars_ten_toDigits (n := t.pid), pid, Nat.ofDigitChars_ten_toDigits]
  cases t
  cases t'
  rw [Thread.mk.injEq]
  exact ⟨pid', toDigits_hex_inj self⟩

/-- Two threads never share a temporary file. -/
theorem tmpPath_inj (valid : validHash h = true) (valid' : validHash h' = true)
    (same : tmpPath root h t = tmpPath root h' t') : t = t' :=
  tmpSuffix_inj (List.append_inj same (by rw [length_pathOf valid, length_pathOf valid'])).2

end Names

/-! ### The invariant -/

section Invariant

variable (H : Sha256) (root : Str)

/-- Every blob has the bytes its name says. -/
def Correct (s : Store) : Prop :=
  ∀ h bytes, validHash h = true → s.files (pathOf root h) = some bytes → H.hex bytes = h

/-- What the temporary file of a call holds. -/
def Put.Holds (p : Put) (tmp : Option Str) : Prop :=
  match p.stage with
  | .checked => True
  | .writing n => tmp = some (p.data.take n)
  | .wrote n => tmp = some (p.data.take n)
  | .closed _ => tmp = some p.data

structure Sound (s : Store) : Prop where
  correct : Correct H root s
  puts : ∀ t p, s.puts t = some p → p.Holds (s.files (p.tmp H root t))

end Invariant

/-! ### What a step does -/

/-- No flush at a close fails. -/
def Flushed (_ : Store) (e : Event) : Prop := ∀ t, e ≠ .closeFails t

/-- A step ends or begins calls, changes the temporary file of a call, or is a rename. -/
inductive Effect (H : Sha256) (root : Str) (s : Store) (e : Event) : Store → Option Str → Prop where
  | calls {puts : Thread → Option Put} {result : Option Str}
      (fewer : ∀ u q, puts u = some q → s.puts u = some q ∨ q.stage = .checked) :
      Effect H root s e { s with puts } result
  | own {t : Thread} {p : Put} {stage : Stage} {tmp : Option Str} (running : s.puts t = some p)
      (holds : Flushed s e → p.Holds (s.files (p.tmp H root t)) → Put.Holds { p with stage } tmp) :
      Effect H root s e (s.goOn H root t p stage tmp) none
  | renamed {t : Thread} {p : Put} {n : Nat} (running : s.puts t = some p) (closed : p.stage = .closed n) :
      Effect H root s e
        { files := Function.update (Function.update s.files (pathOf root (H.hex p.data))
            (s.files (p.tmp H root t))) (p.tmp H root t) none
          puts := Function.update s.puts t none } (some (H.hex p.data))
  | removed {t : Thread} {p : Put} :
      Effect H root s e
        { files := Function.update s.files (p.tmp H root t) none
          puts := Function.update s.puts t none } (some [])

section Keeps

variable {H : Sha256} {root : Str} {s s' : Store} {t u : Thread} {p q : Put}

theorem fewer_return (u : Thread) (q : Put) (running : Function.update s.puts t none u = some q) :
    s.puts u = some q ∨ q.stage = .checked := by
  by_cases same : u = t
  · subst same
    rw [Function.update_self] at running
    cases running
  · rw [Function.update_of_ne same] at running
    exact Or.inl running

theorem next_effect {e : Event} {result : Option Str} (step : next H root s e = some (s', result)) :
    Effect H root s e s' result := by
  cases e with
  | begin t data expect =>
    rw [next] at step
    split at step
    · cases step
    · cases step
      exact .calls fun u q running => Or.inl running
    · cases step
      refine .calls fun u q running => ?_
      by_cases same : u = t
      · subst same
        rw [Function.update_self, Option.some_inj] at running
        exact Or.inr (running ▸ rfl)
      · rw [Function.update_of_ne same] at running
        exact Or.inl running
  | create t =>
    rw [next] at step
    split at step
    · rename_i data running
      cases step
      exact .own running fun _ _ => rfl
    · cases step
  | createFails t =>
    rw [next] at step
    split at step
    · cases step
      exact .calls fewer_return
    · cases step
  | spill t bytes =>
    rw [next] at step
    split at step
    · rename_i data n running
      split at step
      · cases step
        exact .own running fun _ _ => rfl
      · cases step
    · rename_i data n running
      split at step
      · cases step
        exact .own running fun _ _ => rfl
      · cases step
    · cases step
  | write t =>
    rw [next] at step
    split at step
    · rename_i data n running
      cases step
      exact .own running fun _ _ => rfl
    · cases step
  | writeFails t =>
    rw [next] at step
    split at step
    · cases step
      exact .calls fewer_return
    · cases step
  | close t =>
    rw [next] at step
    split at step
    · rename_i data n running
      cases step
      exact .own running fun _ _ => rfl
    · cases step
  | closeFails t =>
    rw [next] at step
    split at step
    · rename_i data n running
      split at step
      · cases step
        exact .own running fun flushed => absurd rfl (flushed t)
      · cases step
    · cases step
  | rename t =>
    rw [next] at step
    split at step
    · rename_i data n running
      cases step
      exact .renamed running rfl
    · cases step
  | renameFails t =>
    rw [next] at step
    split at step
    · cases step
      exact .removed
    · cases step
  | crash pid =>
    cases step
    refine .calls fun u q running => ?_
    split at running
    · cases running
    · exact Or.inl running

/-- A step that does not end a call with a hash leaves every blob as it was. -/
theorem Effect.blobs_kept {e : Event} {result : Option Str} (digests : H.Digests)
    (effect : Effect H root s e s' result) (failed : ∀ h, result = some h → h = []) {h : Str}
    (valid : validHash h = true) : s'.files (pathOf root h) = s.files (pathOf root h) := by
  cases effect with
  | calls => rfl
  | own => exact Function.update_of_ne (Ne.symm (tmpPath_ne_pathOf (digests _) valid)) _ _
  | renamed running closed => exact absurd (failed _ rfl) (H.hex_ne_nil _)
  | removed => exact Function.update_of_ne (Ne.symm (tmpPath_ne_pathOf (digests _) valid)) _ _

/-- A call that only touches its own file disturbs no other. -/
theorem other_tmp (digests : H.Digests) (other : u ≠ t) (files : Str → Option Str) (tmp : Option Str) :
    Function.update files (p.tmp H root t) tmp (q.tmp H root u) = files (q.tmp H root u) :=
  Function.update_of_ne (fun path => other (tmpPath_inj (digests _) (digests _) path)) _ _

/-- The invariant of the calls after one of them has ended and its file is gone. -/
theorem Sound.ended (digests : H.Digests) (sound : Sound H root s) {files : Str → Option Str}
    (kept : ∀ u (q : Put), files (q.tmp H root u) = s.files (q.tmp H root u)) (u : Thread) (q : Put)
    (running : Function.update s.puts t none u = some q) :
    q.Holds (Function.update files (p.tmp H root t) none (q.tmp H root u)) := by
  by_cases same : u = t
  · subst same
    rw [Function.update_self] at running
    cases running
  · rw [Function.update_of_ne same] at running
    rw [other_tmp digests same, kept]
    exact sound.puts u q running

theorem Effect.sound {e : Event} {result : Option Str} (digests : H.Digests) (sound : Sound H root s)
    (flushed : Flushed s e) (effect : Effect H root s e s' result) : Sound H root s' := by
  have noTmp : ∀ {h : Str} {p : Put} {t : Thread}, validHash h = true → pathOf root h ≠ p.tmp H root t :=
    fun valid => Ne.symm (tmpPath_ne_pathOf (digests _) valid)
  cases effect with
  | calls fewer =>
    refine ⟨sound.correct, fun u q running => ?_⟩
    rcases fewer u q running with old | new
    · exact sound.puts u q old
    · rw [Put.Holds, new]
      trivial
  | @own t p stage tmp running holds =>
    constructor
    · intro h bytes valid found
      exact sound.correct h bytes valid ((Function.update_of_ne (noTmp valid) _ _).symm.trans found)
    · intro u q running'
      change Function.update s.puts t _ u = some q at running'
      change q.Holds (Function.update s.files _ tmp _)
      by_cases same : u = t
      · subst same
        rw [Function.update_self, Option.some_inj] at running'
        subst running'
        rw [show Put.tmp H root { p with stage } u = p.tmp H root u from rfl, Function.update_self]
        exact holds flushed (sound.puts u p running)
      · rw [Function.update_of_ne same] at running'
        rw [other_tmp digests same]
        exact sound.puts u q running'
  | @renamed t p n running closed =>
    have whole : s.files (p.tmp H root t) = some p.data := by
      have holds := sound.puts t p running
      rwa [Put.Holds, closed] at holds
    constructor
    · intro h bytes valid found
      change Function.update (Function.update s.files _ _) _ _ _ = _ at found
      rw [Function.update_of_ne (noTmp valid)] at found
      by_cases same : h = H.hex p.data
      · subst same
        rw [Function.update_self, whole, Option.some_inj] at found
        rw [found]
      · rw [Function.update_of_ne fun path => same (pathOf_inj valid (digests _) path)] at found
        exact sound.correct h bytes valid found
    · exact sound.ended digests fun u q => Function.update_of_ne (Ne.symm (noTmp (digests _))) _ _
  | removed =>
    constructor
    · intro h bytes valid found
      exact sound.correct h bytes valid ((Function.update_of_ne (noTmp valid) _ _).symm.trans found)
    · exact sound.ended digests fun u q => rfl

end Keeps

/-! ### The store over whole runs -/

/-- In every run in which no flush at a close fails: a file at the path of a hash has
that hash, what the store has it can deliver, and a step that does not end a call with a
hash (so every step of a failed call) leaves all blobs as they were. -/
theorem blobs_correct {H : Sha256} (digests : H.Digests) {root : Str} {start s : Store}
    (correct : Correct H root start) (idle : ∀ t, start.puts t = none) {events : List Event}
    (run : Runs (Meets (Step H root) Flushed) start events s) :
    Correct H root s ∧
    (∀ h, has root s h = true → ∃ bytes, get root s h = some bytes ∧ H.hex bytes = h) ∧
    ∀ e s' result, next H root s e = some (s', result) → (∀ h, result = some h → h = []) →
      ∀ h, validHash h = true → s'.files (pathOf root h) = s.files (pathOf root h) := by
  have begun : Sound H root start := ⟨correct, fun t p running => by simp [idle t] at running⟩
  have sound : Sound H root s := run.invariant begun fun step sound => by
    obtain ⟨flushed, result, step⟩ := step
    exact (next_effect step).sound digests sound flushed
  refine ⟨sound.correct, fun h held => ?_, fun e s' result step failed h valid => ?_⟩
  · rw [has, Bool.and_eq_true] at held
    obtain ⟨bytes, found⟩ := Option.isSome_iff_exists.mp held.2
    exact ⟨bytes, by rw [get, if_pos held.1, found], sound.correct h bytes held.1 found⟩
  · exact (next_effect step).blobs_kept digests failed valid

/-- An empty store. -/
def emptyStore : Store := { files := fun _ => none }

/-- One writer, which closes its file in this way. -/
def onePut (close : Thread → Event) : List Event :=
  [.begin ⟨1, 1⟩ ['A'] [], .create ⟨1, 1⟩, .write ⟨1, 1⟩, close ⟨1, 1⟩, .rename ⟨1, 1⟩]

def sampleRoot : Str := "store".toList

/-- The step function of the sample, without the results. -/
def sampleNext (s : Store) (e : Event) : Option Store := (next Sha256.coarse sampleRoot s e).map Prod.fst

theorem sampleNext_runs {events : List Event} {s s' : Store} (computed : events.foldlM sampleNext s = some s') :
    Runs (Step Sha256.coarse sampleRoot) s events s' := by
  refine (Runs.of_foldlM computed).mono fun {a e b} step => ?_
  obtain ⟨⟨b', result⟩, next, rfl⟩ := Option.map_eq_some_iff.mp step
  exact ⟨result, next⟩

/-- What the one writer leaves behind. -/
theorem onePut_leaves : ((onePut .close).foldlM sampleNext emptyStore).any (fun s =>
      has sampleRoot s (Sha256.coarse.hex ['A'])) = true ∧
    ((onePut .closeFails).foldlM sampleNext emptyStore).any (fun s =>
      get sampleRoot s (Sha256.coarse.hex ['A']) = some []) = true := by
  decide +kernel

theorem blobs_correct_one_put :
    ∃ s bytes, Runs (Meets (Step Sha256.coarse sampleRoot) Flushed) emptyStore (onePut .close) s ∧
      get sampleRoot s (Sha256.coarse.hex ['A']) = some bytes ∧
      Sha256.coarse.hex bytes = Sha256.coarse.hex ['A'] := by
  obtain ⟨s, reached, held⟩ := (Option.any_eq_true _ _).mp onePut_leaves.1
  have flushed : ∀ e ∈ onePut .close, ∀ t, e ≠ .closeFails t := by
    simp [onePut]
  have run : Runs (Meets (Step Sha256.coarse sampleRoot) Flushed) emptyStore (onePut .close) s :=
    (sampleNext_runs reached).meets flushed
  obtain ⟨bytes, found, right⟩ := (blobs_correct Sha256.coarse_digests (fun h bytes _ found => by cases found)
    (fun t => rfl) run).2.1 _ held
  exact ⟨s, bytes, run, found, right⟩

/-- The flush at the close fails, the file is renamed all the same: the store has the
blob without its bytes. -/
theorem unflushed_blob_stored :
    ∃ s, Runs (Step Sha256.coarse sampleRoot) emptyStore (onePut .closeFails) s ∧
      has sampleRoot s (Sha256.coarse.hex ['A']) = true ∧
      get sampleRoot s (Sha256.coarse.hex ['A']) = some [] ∧
      Sha256.coarse.hex [] ≠ Sha256.coarse.hex ['A'] := by
  obtain ⟨s, reached, left⟩ := (Option.any_eq_true _ _).mp onePut_leaves.2
  rw [decide_eq_true_eq] at left
  have held : has sampleRoot s (Sha256.coarse.hex ['A']) = true := by
    have valid := Sha256.coarse_digests ['A']
    rw [get, if_pos valid] at left
    rw [has, valid, left]
    rfl
  exact ⟨s, sampleNext_runs reached, held, left, by decide⟩

end DistCompile.Cas
