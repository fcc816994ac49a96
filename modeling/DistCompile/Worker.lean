import DistCompile.Coordinator

/-!
What a worker does with an assignment (`Worker::execute` in `src/worker.cpp`).

The inputs are written into a fresh directory, each under the name it was sent
with, and the tool runs there on the names. Everything outside the process, from
the fetched blobs to the tool, is a `Machine`.
-/

namespace DistCompile

open DistCompile.Lib

/-- The files of the work directory. -/
abbrev WorkDir := Str → Option Str

/-- `ProcResult`, as `execute` reads it. -/
structure ProcResult where
  exitCode : Int
  output : Str

/-- The world of one execution: what `fetch` returns for a digest, whether the
directory could be made, which files can be written, what the tool does, whether
the output fits into the local cache, and the error text of the upload. -/
structure Machine where
  fetch : Str → Option Str
  mkdtemp : Bool
  writes : Str → Bool
  runProcess : List Str → WorkDir → ProcResult × WorkDir
  keeps : Str → Bool
  upload : Str → Str → Option Str

/-- The lambda `fail`. -/
structure Failure where
  log : Str
  retryable : Bool
deriving DecidableEq, Repr

/-- One iteration of the write loop, for a digest and the name it goes under. -/
def writeInput (w : Machine) (dir : WorkDir) (input : Str × Str) : Except Failure WorkDir :=
  match w.fetch input.1 with
  | none => .error ⟨"could not fetch input ".toList ++ input.1, true⟩
  | some data =>
      if '/' ∈ input.2 then .error ⟨"bad input name".toList, false⟩
      else if w.writes input.2 then .ok (Function.update dir input.2 (some data))
      else .error ⟨"disk write failed".toList, true⟩

/-- `execute` up to the end of the write loop. -/
def writeInputs (w : Machine) (a : Assignment) : Except Failure WorkDir :=
  if a.inputs.length ≠ a.inputNames.length then .error ⟨"inputs and names don't line up".toList, false⟩
  else if w.mkdtemp then (a.inputs.zip a.inputNames).foldlM (writeInput w) fun _ => none
  else .error ⟨"mkdtemp failed".toList, true⟩

/-- `kAllowedDrivers`. -/
def allowedDrivers : List Str :=
  ["gcc".toList, "g++".toList, "cc".toList, "c++".toList, "clang".toList, "clang++".toList]

/-- The command line of an assignment. -/
def commandLine (a : Assignment) : Except Failure (List Str) :=
  if a.kind = COMPILE then
    match a.args with
    | driver :: flags =>
        if driver ∈ allowedDrivers then
          .ok (driver :: flags ++ ["-c".toList, "in.i".toList, "-o".toList, "out".toList])
        else .error ⟨"compiler not allowed".toList, false⟩
    | [] => .error ⟨"compiler not allowed".toList, false⟩
  else if a.kind = ARCHIVE then .ok (["ar".toList, "rcsD".toList, "out".toList] ++ a.inputNames)
  else
    match a.args with
    | driver :: flags =>
        if driver ∈ allowedDrivers then
          .ok ([driver, "-o".toList, "out".toList] ++ a.inputNames ++ flags)
        else .error ⟨"linker driver not allowed".toList, false⟩
    | [] => .error ⟨"linker driver not allowed".toList, false⟩

/-- The output and the log of a successful execution. -/
structure Executed where
  output : Str
  log : Str
deriving DecidableEq, Repr

/-- `Worker::execute`. -/
def execute (H : Sha256) (w : Machine) (a : Assignment) : Except Failure Executed :=
  match writeInputs w a with
  | .error e => .error e
  | .ok dir => match commandLine a with
    | .error e => .error e
    | .ok argv =>
        let (pr, dir) := w.runProcess argv dir
        if pr.exitCode ≠ 0 then
          .error ⟨if pr.output = [] then "exit ".toList ++ decimal pr.exitCode else pr.output, false⟩
        else match dir "out".toList with
          | none => .error ⟨"no output file".toList, false⟩
          | some out =>
              -- `cache_.put` returns the empty hash when it cannot write
              let h := if w.keeps out then H.hex out else []
              match w.upload h out with
              | some message => .error ⟨"upload failed: ".toList ++ message, true⟩
              | none => .ok ⟨h, pr.output⟩

/-! ### The directory after the write loop -/

section Inputs

variable {w : Machine}

/-- A write changes the file of that name and no other. -/
theorem writeInput_ok {dir dir' : WorkDir} {input : Str × Str} (written : writeInput w dir input = .ok dir') :
    ∃ data, w.fetch input.1 = some data ∧ dir' = Function.update dir input.2 (some data) := by
  unfold writeInput at written
  split at written
  · cases written
  · rename_i data fetched
    split_ifs at written
    cases written
    exact ⟨data, fetched, rfl⟩

/-- Files whose name does not come up again stay as they are. -/
theorem writeInputs_keeps {inputs : List (Str × Str)} {dir dir' : WorkDir}
    (written : inputs.foldlM (writeInput w) dir = .ok dir') {name : Str}
    (absent : name ∉ inputs.map Prod.snd) : dir' name = dir name := by
  induction inputs generalizing dir with
  | nil =>
    cases written
    rfl
  | cons input inputs ih =>
    obtain ⟨middle, first, rest⟩ := foldlM_cons_ok written
    obtain ⟨data, -, rfl⟩ := writeInput_ok first
    rw [List.map_cons, List.mem_cons, not_or] at absent
    rw [ih rest absent.2, Function.update_of_ne absent.1]

/-- Under distinct names every input is there at the end. -/
theorem writeInputs_holds {inputs : List (Str × Str)} {dir dir' : WorkDir}
    (written : inputs.foldlM (writeInput w) dir = .ok dir') (apart : (inputs.map Prod.snd).Nodup) :
    ∀ input ∈ inputs, dir' input.2 = w.fetch input.1 := by
  induction inputs generalizing dir with
  | nil => simp
  | cons input inputs ih =>
    obtain ⟨middle, first, rest⟩ := foldlM_cons_ok written
    rw [List.map_cons, List.nodup_cons] at apart
    intro other member
    rcases List.mem_cons.mp member with rfl | later
    · obtain ⟨data, fetched, rfl⟩ := writeInput_ok first
      rw [writeInputs_keeps rest apart.1, Function.update_self, fetched]
    · exact ih rest apart.2 other later

/-- The write loop of an assignment. -/
theorem writeInputs_ok {a : Assignment} {dir : WorkDir} (written : writeInputs w a = .ok dir) :
    a.inputs.length = a.inputNames.length ∧
      (a.inputs.zip a.inputNames).foldlM (writeInput w) (fun _ => none) = .ok dir := by
  unfold writeInputs at written
  split_ifs at written with lengths
  exact ⟨not_not.mp lengths, written⟩

end Inputs

end DistCompile
