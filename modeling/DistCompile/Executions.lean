import DistCompile.Assignments
import DistCompile.EndToEnd
import DistCompile.ToolErrors
import DistCompile.Stored

/-!
The workers compute the reference (`Worker::fetch`, `Worker::execute` and `loop` in
`src/worker.cpp`).

Here the results are not taken for honest: they are those of `execute`, on hosts whose processes
do what the tool does (`Host.RunsTool`). What is left to show is that the files a process reads
are the blobs the assignment names, under their names, and that a result which comes in late,
twice or from a dead worker is still that of an assignment handed out.

An output that the local cache could not keep is reported as ok under the empty digest; the
coordinator does not have such a blob and takes the result for a transient failure
(`Call.repaired`).
-/

namespace DistCompile

open DistCompile.Lib

/-! ### Fetching inputs -/

/-- Every file of the cache has the digest of its data. -/
def Blobs.Right (H : Sha256) (cache : Blobs) : Prop := ∀ f ∈ cache, f.1 = H.hex f.2

/-- `Cas::put` of a worker's cache, where a write can fail. -/
def Blobs.keep (H : Sha256) (cache : Blobs) (writes : Bool) (data expect : Str) : Str × Blobs :=
  if expect ≠ [] ∧ expect ≠ H.hex data then ([], cache)
  else if cache.has (H.hex data) then (H.hex data, cache)
  else if writes then (H.hex data, cache ++ [(H.hex data, data)]) else ([], cache)

/-- `Worker::fetch`. `getBlob` is the reply of the coordinator, none if there is no such blob. -/
def fetch (H : Sha256) (cache : Blobs) (getBlob : Str → Option Str) (writes : Bool) (digest : Str) :
    Option Str × Blobs :=
  match cache.get digest with
  | some data => (some data, cache)
  | none => match getBlob digest with
    | none => (none, cache)
    | some data =>
        let kept := cache.keep H writes data digest
        if kept.1 = [] then (none, kept.2) else (some data, kept.2)

section Fetch

variable {H : Sha256} {cache : Blobs} {getBlob : Str → Option Str} {writes : Bool} {digest data expect : Str}

theorem Blobs.Right.get (right : cache.Right H) (found : cache.get digest = some data) : H.hex data = digest := by
  unfold Blobs.get at found
  split at found
  · obtain ⟨f, here, rfl⟩ := Option.map_eq_some_iff.mp found
    rw [← right f (List.mem_of_find?_eq_some here)]
    simpa using List.find?_some here
  · cases found

theorem Blobs.Right.keep (right : cache.Right H) : (cache.keep H writes data expect).2.Right H := by
  unfold Blobs.keep
  split_ifs
  · exact right
  · exact right
  · intro f hf
    rcases List.mem_append.mp hf with old | new
    · exact right f old
    · rw [List.mem_singleton.mp new]
  · exact right

/-- The data fetched has the digest asked for, whatever the coordinator sends. -/
theorem fetch_right (right : cache.Right H) (filled : digest ≠ []) :
    (fetch H cache getBlob writes digest).2.Right H ∧
      ∀ data, (fetch H cache getBlob writes digest).1 = some data → H.hex data = digest := by
  unfold fetch
  split
  · rename_i data found
    exact ⟨right, fun _ same => Option.some.inj same ▸ right.get found⟩
  · split
    · exact ⟨right, by simp⟩
    · rename_i data sent
      dsimp only
      split_ifs with refused
      · exact ⟨right.keep, by simp⟩
      · refine ⟨right.keep, fun _ same => Option.some.inj same ▸ ?_⟩
        by_contra other
        refine refused ?_
        rw [Blobs.keep, if_pos ⟨filled, fun same => other same.symm⟩]

end Fetch

/-! ### Executions -/

/-- The host runs the tool on `a`: its inputs come from `fetch`, with a cache that is right, and a
process that exits with zero has made its output of the files that the command names. -/
structure Host.RunsTool (H : Sha256) (tool : Tool) (toolchain : Str) (host : Host) (a : Assignment) : Prop where
  fetches : ∀ digest, ∃ cache getBlob writes, Blobs.Right H cache ∧
    host.fetch digest = (DistCompile.fetch H cache getBlob writes digest).1
  makes : ∀ argv dir dir' output out, commandLine a = .ok argv → (∀ name ∈ a.inputNames, (dir name).isSome) →
    host.process argv dir = (.exited 0 output, dir') → dir' "out".toList = some out →
    out = tool toolchain a.kind a.args (a.inputNames.map fun name => (name, (dir name).getD []))

/-- The names of the inputs are distinct, and no input is left blank. -/
structure Assignment.Apart (a : Assignment) : Prop where
  names : a.inputNames.Nodup
  inputs : [] ∉ a.inputs

section Execute

variable {H : Sha256} {tool : Tool} {toolchain : Str} {host : Host} {a : Assignment} {done : Executed}

/-- Only fetched inputs are written. -/
theorem writeInputs_fetched {w : Machine} {inputs : List (Str × Str)} {dir dir' : WorkDir}
    (written : inputs.foldlM (writeInput w) dir = .ok dir') : ∀ input ∈ inputs, (w.fetch input.1).isSome := by
  induction inputs generalizing dir with
  | nil => simp
  | cons input inputs ih =>
    obtain ⟨middle, first, rest⟩ := foldlM_cons_ok written
    obtain ⟨data, fetched, -⟩ := writeInput_ok first
    intro other member
    rcases List.mem_cons.mp member with rfl | later
    · rw [fetched]
      rfl
    · exact ih rest other later

/-- The files that were written are the blobs, under the names. -/
theorem named_files {fetch : Str → Option Str} {inputs names : List Str} {dir : WorkDir}
    (lengths : inputs.length = names.length) (holds : ∀ input ∈ inputs.zip names, dir input.2 = fetch input.1) :
    names.map (fun name => (name, (dir name).getD [])) = names.zip (inputs.map fun d => (fetch d).getD []) := by
  induction inputs generalizing names with
  | nil =>
    rw [List.eq_nil_of_length_eq_zero lengths.symm]
    rfl
  | cons d inputs ih =>
    cases names with
    | nil => cases lengths
    | cons name names =>
      rw [List.map_cons, List.map_cons, List.zip_cons_cons, holds (d, name) (by simp)]
      rw [ih (Nat.succ.inj lengths) fun input member => holds input (by simp [member])]

/-- What it takes for `execute` to succeed. -/
theorem execute_ok (executed : execute H host.machine a = .ok done) (stored : done.output ≠ []) :
    ∃ dir argv output dir' out, writeInputs host.machine a = .ok dir ∧ commandLine a = .ok argv ∧
      host.process argv dir = (.exited 0 output, dir') ∧ dir' "out".toList = some out ∧ done.output = H.hex out := by
  unfold execute at executed
  split at executed
  · cases executed
  · rename_i dir written
    split at executed
    · cases executed
    · rename_i argv line
      dsimp only at executed
      split_ifs at executed with failed
      split at executed
      · cases executed
      · rename_i out made
        split at executed
        · cases executed
        · cases executed
          have zero : (runProcess (host.process argv dir).1).exitCode = 0 := not_not.mp failed
          have kept : host.keeps out = true := by
            by_contra lost
            exact stored (if_neg lost)
          cases ended : (host.process argv dir).1 with
          | exited status output =>
            rw [ended] at zero
            have status_eq : status = 0 := Fin.ext (by simpa [runProcess] using zero)
            exact ⟨dir, argv, output, (host.process argv dir).2, out, written, line,
              Prod.ext (by rw [ended, status_eq]) rfl, made, if_pos kept⟩
          | _ =>
            rw [ended] at zero
            simp [runProcess] at zero

/-- The tool has run on the blobs of the inputs, each under its own name. -/
theorem execute_honest (runs : host.RunsTool H tool toolchain a) (apart : a.Apart)
    (executed : execute H host.machine a = .ok done) (stored : done.output ≠ []) :
    ∃ blobs, blobs.map H.hex = a.inputs ∧
      done.output = H.hex (tool toolchain a.kind a.args (a.inputNames.zip blobs)) := by
  obtain ⟨dir, argv, output, dir', out, written, line, ran, made, digest⟩ := execute_ok executed stored
  obtain ⟨lengths, loop⟩ := writeInputs_ok written
  have firsts : (a.inputs.zip a.inputNames).map Prod.fst = a.inputs := List.map_fst_zip lengths.le
  have seconds : (a.inputs.zip a.inputNames).map Prod.snd = a.inputNames := List.map_snd_zip lengths.ge
  have holds : ∀ input ∈ a.inputs.zip a.inputNames, dir input.2 = host.fetch input.1 :=
    writeInputs_holds loop (by rw [seconds]; exact apart.names)
  have fetched : ∀ input ∈ a.inputs.zip a.inputNames, (host.fetch input.1).isSome := writeInputs_fetched loop
  have present : ∀ name ∈ a.inputNames, (dir name).isSome := by
    intro name member
    rw [← seconds] at member
    obtain ⟨input, here, rfl⟩ := List.mem_map.mp member
    rw [holds input here]
    exact fetched input here
  refine ⟨a.inputs.map fun d => (host.fetch d).getD [], ?_, ?_⟩
  · have right : ∀ d ∈ a.inputs, H.hex ((host.fetch d).getD []) = d := by
      intro d member
      rw [← firsts] at member
      obtain ⟨input, here, rfl⟩ := List.mem_map.mp member
      obtain ⟨data, sent⟩ := Option.isSome_iff_exists.mp (fetched input here)
      obtain ⟨cache, getBlob, writes, sound, is⟩ := runs.fetches input.1
      have filled : input.1 ≠ [] := fun blank => apart.inputs (blank ▸ firsts ▸ List.mem_map_of_mem here)
      rw [sent, Option.getD_some]
      exact (fetch_right sound filled).2 data (is ▸ sent)
    rw [List.map_map]
    exact (List.map_congr_left right).trans (List.map_id _)
  · rw [digest, runs.makes argv dir dir' output out line present ran made, named_files lengths holds]

end Execute

/-! ### The log -/

/-- The outputs that a task reads have distinct names on the worker. -/
def BuildSpec.NamesApart (spec : BuildSpec) : Prop := ∀ ts ∈ spec.tasks, (ts.depIds.map spec.flatNameOf).Nodup

/-- An ok result is what a host that runs the tool made of an assignment handed out before. -/
def TaskResult.Reported (H : Sha256) (tool : Tool) (calls : List Call) (r : TaskResult) : Prop :=
  r.ok = true → ∃ worker toolchain part now a, ∃ host : Host, .claimTask worker toolchain part now (some a) ∈ calls ∧
    host.RunsTool H tool toolchain a ∧ r = host.result H worker a

/-- Every completion delivers such a result. -/
def AllReported (H : Sha256) (tool : Tool) (calls : List Call) : Prop :=
  ∀ pre r now accepted post, calls = pre ++ .completeTask r now accepted :: post → r.Reported H tool pre

/-- An output that was not kept counts as a transient failure. -/
def Call.repaired : Call → Call
  | .completeTask r now accepted =>
      .completeTask (if r.ok = true ∧ r.output = [] then retryCopy r "output blob missing".toList else r) now accepted
  | call => call

section Log

variable {H : Sha256} {tool : Tool} {o : Options} {calls : List Call} {call : Call} {c c' : Coordinator}

theorem Blobs.has_nil (blobs : Blobs) : blobs.has [] = false := by simp [Blobs.has, validHash]

/-- The coordinator handles both results alike. -/
theorem Step.repaired (step : Step H o c call c') : Step H o c call.repaired c' := by
  cases step with
  | @completeTask r now fuel cfg ran =>
    by_cases lost : r.ok = true ∧ r.output = []
    · have alike : DistCompile.completeTask c.blobs.has c.blobs.sizeOf now (retryCopy r "output blob missing".toList) =
          DistCompile.completeTask c.blobs.has c.blobs.sizeOf now r := by
        simp [DistCompile.completeTask, retryCopy, lost.1, lost.2, Blobs.has_nil]
      rw [Call.repaired, if_pos lost, ← alike]
      rw [← alike] at ran
      exact .completeTask ran
    · rw [Call.repaired, if_neg lost]
      exact .completeTask ran
  | putBlob put => exact .putBlob put
  | putRefused refused => exact .putRefused refused
  | submitBuild => exact .submitBuild
  | claimTask picked named => exact .claimTask picked named
  | claimCrash picked unnamed => exact .claimCrash picked unnamed
  | claimNothing none => exact .claimNothing none
  | heartbeat => exact .heartbeat
  | reap => exact .reap

theorem submitted_repaired (calls : List Call) : submitted (calls.map Call.repaired) = submitted calls := by
  rw [submitted, List.filterMap_map]
  refine List.filterMap_congr fun call _ => ?_
  cases call <;> rfl

theorem specOf_repaired (calls : List Call) : specOf (calls.map Call.repaired) = specOf calls := by
  funext build
  rw [specOf, List.findSome?_map]
  refine congrArg (List.findSome? · calls) (funext fun call => ?_)
  cases call <;> rfl

theorem claim_repaired {worker toolchain : Str} {part now : Int} {reply : Option Assignment} :
    .claimTask worker toolchain part now reply ∈ calls.map Call.repaired ↔
      .claimTask worker toolchain part now reply ∈ calls := by
  rw [List.mem_map]
  constructor
  · rintro ⟨call, member, same⟩
    cases call <;> first | exact same ▸ member | cases same
  · intro member
    exact ⟨_, member, rfl⟩

/-- Where an entry of a log with one more call stands. -/
theorem snoc_split {calls pre post : List Call} {call entry : Call} (split : calls ++ [call] = pre ++ entry :: post) :
    (pre = calls ∧ entry = call) ∨ ∃ before, calls = pre ++ entry :: before := by
  rcases List.eq_nil_or_concat post with rfl | ⟨before, last, rfl⟩
  · obtain ⟨same, is⟩ := List.append_inj' split rfl
    exact Or.inl ⟨same.symm, (List.singleton_injective is).symm⟩
  · rw [List.concat_eq_append, ← List.cons_append, ← List.append_assoc] at split
    exact Or.inr ⟨before, (List.append_inj' split rfl).1⟩

/-- The kinds of the tasks of `dcc` have names. -/
theorem TaskSpec.Shaped.named {ts : TaskSpec} (task : ts.Shaped H) : kindName ts.kind ≠ none := by
  by_cases compile : ts.kind = COMPILE
  · rw [compile]
    decide
  · rcases (task.action compile).1 with kind | kind <;> rw [kind] <;> decide

/-- The specs of `dcc` are tidy. -/
theorem BuildSpec.Shaped.tidy {spec : BuildSpec} (shaped : spec.Shaped H) {order : List Nat}
    (accepted : Graph.topoOrder spec.graph = .ok order) {id : Nat} {ts : TaskSpec} (found : spec.tasks[id]? = some ts) :
    ts.Tidy spec := by
  have task := shaped.tasks ts (List.mem_of_getElem? found)
  refine ⟨⟨fun a ha => (task.args a ha).2, fun blank => ?_⟩, fun action => ?_⟩
  · exact (task.args [] (by rw [blank]; simp)).1 rfl
  · refine ⟨(task.action action).2.1, fun l hl => ?_, fun blank => ?_⟩
    · obtain ⟨d, hd, rfl⟩ := List.mem_map.mp hl
      obtain ⟨td, dep⟩ := dep_found (Graph.topoOrder_ok accepted) found hd
      rw [flatNameOf_found dep]
      exact flatName_newline (shaped.tasks td (List.mem_of_getElem? dep)).name.2.1
    · obtain ⟨d, hd, name⟩ := List.mem_map.mp (show [] ∈ ts.depIds.map spec.flatNameOf by rw [blank]; simp)
      obtain ⟨td, dep⟩ := dep_found (Graph.topoOrder_ok accepted) found hd
      rw [flatNameOf_found dep] at name
      exact (shaped.tasks td (List.mem_of_getElem? dep)).name.1 (by simpa [flatName] using name)

end Log

section Honest

variable {H : Sha256} {blob : Str → Str} {tool : Tool} {o : Options} {calls : List Call} {call : Call} {c c' : Coordinator}

theorem Honest.snoc (honest : Honest H tool calls)
    (last : ∀ r now accepted, call = .completeTask r now accepted → r.ok = true → ∃ worker toolchain part claimed a,
      .claimTask worker toolchain part claimed (some a) ∈ calls ∧ HonestResult H tool toolchain a r) :
    Honest H tool (calls ++ [call]) := by
  intro pre r now accepted post split ok
  rcases snoc_split split with ⟨rfl, rfl⟩ | ⟨before, rfl⟩
  · exact last r now accepted rfl ok
  · exact honest pre r now accepted before rfl ok

theorem AllReported.init (reported : AllReported H tool (calls ++ [call])) : AllReported H tool calls :=
  fun pre r now accepted post split => reported pre r now accepted (post ++ [call]) (by simp [split])

/-- What a slot reports of an assignment that was handed out. -/
theorem TaskResult.Reported.honest {r : TaskResult} {now : Int} {accepted : Bool} (reported : r.Reported H tool calls)
    (apart : ∀ worker toolchain part now a, .claimTask worker toolchain part now (some a) ∈ calls → a.Apart)
    {r' : TaskResult} (is : (Call.completeTask r now accepted).repaired = .completeTask r' now accepted)
    (ok : r'.ok = true) : ∃ worker toolchain part claimed a,
      .claimTask worker toolchain part claimed (some a) ∈ calls ∧ HonestResult H tool toolchain a r' := by
  rw [Call.repaired] at is
  split_ifs at is with lost
  · cases is
    cases ok
  · cases is
    obtain ⟨worker, toolchain, part, claimed, a, host, handed, runs, result⟩ := reported ok
    obtain ⟨uid, attempt, -⟩ := host.result_echoes (H := H) worker a
    refine ⟨worker, toolchain, part, claimed, a, handed, by rw [result, uid], by rw [result, attempt], ?_⟩
    cases executed : execute H host.machine a with
    | error f =>
      rw [result, Host.result, executed] at ok
      cases ok
    | ok done =>
      have output : r.output = done.output := by rw [result, Host.result, executed]
      obtain ⟨blobs, inputs, made⟩ := execute_honest runs (apart _ _ _ _ _ handed) executed
        fun blank => lost ⟨ok, output.trans blank⟩
      exact ⟨blobs, inputs, output.trans made⟩

/-- What a ready row is handed out with. -/
theorem Kept.apart (kept : Kept H blob tool calls c) (apart : ∀ spec ∈ submitted calls, spec.NamesApart)
    {t : TaskRow} (ht : t ∈ c.db.tasks) (ready : t.state = .ready) (worker : Str) (now : Int) :
    (assignmentOf (claimedRow o worker now t)).Apart := by
  obtain ⟨spec, ts, known, found, built, inputs⟩ := kept.faithful.placed t ht
  obtain ⟨order, accepted⟩ := kept.lawful.accepted _ _ known
  have member := List.mem_of_getElem? found
  have tidy := (kept.lawful.shaped _ _ known).tidy accepted found
  have valid := kept.lawful.inputs _ _ known ts member
  have named : kindName t.kind ≠ none := built.kind ▸ ((kept.lawful.shaped _ _ known).tasks ts member).named
  have formed := kept.consistent.wellFormed kept.faithful.placed o worker now ht ready known built inputs tidy named valid
  by_cases compile : ts.kind = COMPILE
  · obtain ⟨input, name⟩ := formed.compile compile
    refine ⟨by rw [name]; exact List.nodup_singleton _, fun blank => ?_⟩
    rw [input, List.mem_singleton] at blank
    exact validHash_ne_nil (valid compile) blank.symm
  · obtain ⟨digests, names⟩ := formed.action compile
    rw [← kept.consistent.digests_eq kept.faithful.placed ht ready known inputs] at digests
    have same := List.map_injective_iff.mpr (Option.some_injective _) digests
    refine ⟨by rw [names]; exact apart spec (mem_submitted known) ts member, fun blank => ?_⟩
    rw [same] at blank
    exact validHash_ne_nil (kept.consistent.inputs_valid ht (by rw [ready]; simp) [] blank) rfl

/-- The log of such completions is honest, and everything holds that does under honest results. -/
theorem Runs.executed (inverse : Function.LeftInverse blob H.hex) (run : Runs (Step H o) {} calls c)
    (shaped : ∀ spec ∈ submitted calls, spec.Shaped H) (agree : KeysAgree blob tool (submitted calls))
    (apart : ∀ spec ∈ submitted calls, spec.NamesApart) (reported : AllReported H tool calls) :
    Kept H blob tool (calls.map Call.repaired) c ∧ Honest H tool (calls.map Call.repaired) ∧
      ∀ worker toolchain part now a, .claimTask worker toolchain part now (some a) ∈ calls → a.Apart := by
  induction run with
  | nil =>
    have honest : Honest H tool [] := fun pre r now accepted post split => by simp at split
    have start : Runs (Step H o) {} [] {} := .nil
    exact ⟨Runs.kept inverse start shaped agree honest, honest, by simp⟩
  | @snoc t u calls call front last ih =>
    have specs : ∀ spec ∈ submitted calls, spec ∈ submitted (calls ++ [call]) := fun spec => submitted_append call
    obtain ⟨kept, honest, handed⟩ := ih (fun spec member => shaped spec (specs spec member))
      (fun spec hs spec' hs' => agree spec (specs spec hs) spec' (specs spec' hs'))
      (fun spec member => apart spec (specs spec member)) reported.init
    have log : (calls ++ [call]).map Call.repaired = calls.map Call.repaired ++ [call.repaired] := by simp
    have honest' : Honest H tool (calls.map Call.repaired ++ [call.repaired]) := by
      refine honest.snoc fun r' now accepted is ok => ?_
      cases call with
      | completeTask r now₀ accepted₀ =>
        obtain ⟨rfl, rfl⟩ : now₀ = now ∧ accepted₀ = accepted := by
          rw [Call.repaired] at is
          cases is
          exact ⟨rfl, rfl⟩
        obtain ⟨worker, toolchain, part, claimed, a, given, result⟩ :=
          (reported calls r now₀ accepted₀ [] rfl).honest handed is ok
        exact ⟨worker, toolchain, part, claimed, a, claim_repaired.mpr given, result⟩
      | _ => cases is
    refine ⟨?_, log ▸ honest', fun worker toolchain part now a member => ?_⟩
    · rw [log]
      rw [← submitted_repaired, log] at shaped agree
      exact kept.step inverse last.repaired shaped agree honest'
    · rcases List.mem_append.mp member with old | new
      · exact handed worker toolchain part now a old
      · obtain rfl := List.mem_singleton.mp new
        cases last with
        | claimTask picked =>
          obtain ⟨ht, ready, -⟩ := mem_of_picked picked
          refine kept.apart (fun spec member => ?_) ht ready worker now
          rw [submitted_repaired] at member
          exact apart spec (specs spec member)

end Honest

/-! ### The fleet -/

/-- What stands behind a slot: its claim asks for the toolchain of its worker, its assignment was
handed out for that toolchain, its result is one that may be reported. -/
def Slot.Sourced (H : Sha256) (tool : Tool) (calls : List Call) (s : Fleet) (worker toolchain : Str) : Slot → Prop
  | .idle => True
  | .claiming call => call < s.nextCall ∧
      (∀ asked, .claimRequest call worker asked ∈ s.net → asked = toolchain) ∧
      ∀ a, .claimReply call worker (some a) ∈ s.net →
        ∃ part now, .claimTask worker toolchain part now (some a) ∈ calls
  | .working a => ∃ part now, .claimTask worker toolchain part now (some a) ∈ calls
  | .reporting r _ _ => r.Reported H tool calls

def Message.Sourced (H : Sha256) (tool : Tool) (calls : List Call) (nextCall : Nat) : Message → Prop
  | .completeRequest _ r => r.Reported H tool calls
  | m => ∀ call, m.claimCall = some call → call < nextCall

/-- What stands behind the slots and the messages, given the calls that were handled. -/
structure Fleet.Sourced (H : Sha256) (tool : Tool) (calls : List Call) (s : Fleet) : Prop where
  net : ∀ m ∈ s.net, m.Sourced H tool calls s.nextCall
  slots : ∀ w p, s.procs w = some p → ∀ slot ∈ p.slots, slot.Sourced H tool calls s w p.toolchain

/-- Hosts run the tool on what their slot works on. -/
def Fleet.RunsTool (H : Sha256) (tool : Tool) (s : Fleet) : WorkEvent → Prop
  | .execute worker i host => ∀ p a, s.procs worker = some p → p.slots[i]? = some (.working a) →
      host.RunsTool H tool p.toolchain a
  | _ => True

section Fleet

variable {H : Sha256} {tool : Tool} {o : Options} {calls calls' : List Call} {s s' : Fleet} {worker toolchain : Str}

theorem TaskResult.Reported.mono {r : TaskResult} (reported : r.Reported H tool calls)
    (log : ∀ call ∈ calls, call ∈ calls') : r.Reported H tool calls' := by
  intro ok
  obtain ⟨worker, toolchain, part, now, a, host, handed, rest⟩ := reported ok
  exact ⟨worker, toolchain, part, now, a, host, log _ handed, rest⟩

theorem Message.Sourced.mono {m : Message} {next next' : Nat} (sourced : m.Sourced H tool calls next)
    (log : ∀ call ∈ calls, call ∈ calls') (later : next ≤ next') : m.Sourced H tool calls' next' := by
  cases m with
  | completeRequest call r => exact TaskResult.Reported.mono sourced log
  | _ => exact fun call is => (sourced call is).trans_le later

/-- A slot that stays as it is, while no message of an old claim comes up. -/
theorem Slot.Sourced.mono {slot : Slot} (sourced : slot.Sourced H tool calls s worker toolchain)
    (log : ∀ call ∈ calls, call ∈ calls') (later : s.nextCall ≤ s'.nextCall)
    (claims : ∀ m ∈ s'.net, ∀ call, m.claimCall = some call → call < s.nextCall → m ∈ s.net) :
    slot.Sourced H tool calls' s' worker toolchain := by
  cases slot with
  | idle => trivial
  | claiming call =>
    obtain ⟨old, asked, granted⟩ := sourced
    refine ⟨old.trans_le later, fun chain sent => asked chain (claims _ sent call rfl old), fun a sent => ?_⟩
    obtain ⟨part, now, handed⟩ := granted a (claims _ sent call rfl old)
    exact ⟨part, now, log _ handed⟩
  | working a =>
    obtain ⟨part, now, handed⟩ := sourced
    exact ⟨part, now, log _ handed⟩
  | reporting r call tries => exact TaskResult.Reported.mono sourced log

/-- What a step leaves as it is, and what it adds. -/
theorem Fleet.Sourced.moves (sourced : s.Sourced H tool calls) (log : ∀ call ∈ calls, call ∈ calls')
    (later : s.nextCall ≤ s'.nextCall)
    (claims : ∀ m ∈ s'.net, ∀ call, m.claimCall = some call → call < s.nextCall → m ∈ s.net)
    (net : ∀ m ∈ s'.net, m ∈ s.net ∨ m.Sourced H tool calls' s'.nextCall)
    (slots : ∀ w q, s'.procs w = some q → ∀ slot ∈ q.slots, slot.Sourced H tool calls' s' w q.toolchain ∨
      ∃ p, s.procs w = some p ∧ slot ∈ p.slots ∧ p.toolchain = q.toolchain) : s'.Sourced H tool calls' := by
  refine ⟨fun m member => ?_, fun w q live slot member => ?_⟩
  · rcases net m member with old | new
    · exact (sourced.net m old).mono log later
    · exact new
  · rcases slots w q live slot member with new | ⟨p, alive, old, same⟩
    · exact new
    · exact same ▸ (sourced.slots w p alive slot old).mono log later claims

/-- The slots after one of them has moved on. -/
theorem Fleet.slots_setSlot {p : Proc} {i : Nat} {new : Slot} (live : s.procs worker = some p) :
    ∀ w q, (s.setSlot worker p i new).procs w = some q → ∀ slot ∈ q.slots,
      (w = worker ∧ q.toolchain = p.toolchain ∧ slot = new) ∨
        ∃ p', s.procs w = some p' ∧ slot ∈ p'.slots ∧ p'.toolchain = q.toolchain := by
  intro w q running slot member
  simp only [Fleet.setSlot, Fleet.setProc, Function.update_apply] at running
  split at running
  · rename_i same
    subst same
    cases running
    rcases List.mem_or_eq_of_mem_set member with old | here
    · exact Or.inr ⟨p, live, old, rfl⟩
    · exact Or.inl ⟨rfl, rfl, here⟩
  · exact Or.inr ⟨q, running, member, rfl⟩

/-- A slot moves on and takes a message from the net. -/
theorem Fleet.Sourced.receives (sourced : s.Sourced H tool calls) {p : Proc} {i : Nat} {new : Slot} {m : Message}
    (live : s.procs worker = some p) (fine : new.Sourced H tool calls ((s.setSlot worker p i new).take m) worker p.toolchain) :
    ((s.setSlot worker p i new).take m).Sourced H tool calls := by
  refine sourced.moves (fun _ => id) le_rfl (fun _ member _ _ _ => List.mem_of_mem_erase member)
    (fun _ member => Or.inl (List.mem_of_mem_erase member)) fun w q running slot member => ?_
  rcases slots_setSlot live w q running slot member with ⟨rfl, same, rfl⟩ | old
  · exact Or.inl (same ▸ fine)
  · exact Or.inr old

/-- A slot sends its result, under a new call. -/
theorem Fleet.Sourced.sends (sourced : s.Sourced H tool calls) {p : Proc} {i tries : Nat} {r : TaskResult}
    (live : s.procs worker = some p) (reported : r.Reported H tool calls) :
    ((s.setSlot worker p i (.reporting r s.nextCall tries)).call fun call => .completeRequest call r).Sourced
      H tool calls := by
  refine sourced.moves (fun _ => id) (Nat.le_succ _) (fun m member call is old => ?_) (fun m member => ?_)
    fun w q running slot member => ?_
  · rcases List.mem_append.mp member with before | new
    · exact before
    · rw [List.mem_singleton.mp new] at is
      cases is
  · rcases List.mem_append.mp member with before | new
    · exact Or.inl before
    · exact Or.inr (List.mem_singleton.mp new ▸ reported)
  · rcases slots_setSlot live w q running slot member with ⟨rfl, -, rfl⟩ | old
    · exact Or.inl reported
    · exact Or.inr old

/-- A message is handled by the coordinator, or lost; what comes back does not belong to a claim. -/
theorem Fleet.Sourced.handled (sourced : s.Sourced H tool calls) (log : ∀ call ∈ calls, call ∈ calls') {coord : Coordinator}
    {net : List Message} (messages : ∀ m ∈ net, m ∈ s.net ∨ m.claimCall = none ∧ m.Sourced H tool calls' s.nextCall) :
    Fleet.Sourced H tool calls' { s with coord, net } := by
  refine sourced.moves log le_rfl (fun m member call is _ => ?_) (fun m member => (messages m member).imp_right And.right)
    fun w q running slot member => Or.inr ⟨q, running, member, rfl⟩
  rcases messages m member with old | ⟨none, -⟩
  · exact old
  · rw [none] at is
    cases is

/-- A claim is answered. -/
theorem Fleet.Sourced.answered (sourced : s.Sourced H tool calls) {call : Nat} {reply : Option Assignment}
    {part now : Int} {coord : Coordinator} (asked : .claimRequest call worker toolchain ∈ s.net) :
    Fleet.Sourced H tool (calls ++ [.claimTask worker toolchain part now reply])
      { (s.take (.claimRequest call worker toolchain)).send (.claimReply call worker reply) with coord } := by
  have log : ∀ c ∈ calls, c ∈ calls ++ [.claimTask worker toolchain part now reply] := fun c => List.mem_append_left _
  have old : call < s.nextCall := sourced.net _ asked call rfl
  refine ⟨fun m member => ?_, fun w p live slot member => ?_⟩
  · rcases List.mem_append.mp member with before | new
    · exact (sourced.net m (List.mem_of_mem_erase before)).mono log le_rfl
    · rw [List.mem_singleton.mp new]
      exact fun c is => Option.some.inj is ▸ old
  · have was := sourced.slots w p live slot member
    cases slot with
    | claiming c =>
      obtain ⟨made, requests, granted⟩ := was
      refine ⟨made, fun chain sent => ?_, fun a sent => ?_⟩
      · rcases List.mem_append.mp sent with before | new
        · exact requests chain (List.mem_of_mem_erase before)
        · cases List.mem_singleton.mp new
      · rcases List.mem_append.mp sent with before | new
        · obtain ⟨part', now', handed⟩ := granted a (List.mem_of_mem_erase before)
          exact ⟨part', now', log _ handed⟩
        · cases List.mem_singleton.mp new
          obtain rfl := requests _ asked
          exact ⟨part, now, List.mem_append_right _ (List.mem_singleton.mpr rfl)⟩
    | idle => trivial
    | working a =>
      obtain ⟨part', now', handed⟩ := was
      exact ⟨part', now', log _ handed⟩
    | reporting r c tries => exact TaskResult.Reported.mono was log

/-- A slot makes a claim. -/
theorem Fleet.Sourced.claims (sourced : s.Sourced H tool calls) {p : Proc} {i : Nat} (live : s.procs worker = some p) :
    ((s.setSlot worker p i (.claiming s.nextCall)).call fun call => .claimRequest call worker p.toolchain).Sourced
      H tool calls := by
  have fresh : ∀ m ∈ s.net, m.claimCall ≠ some s.nextCall := by
    intro m member is
    have sent := sourced.net m member
    cases m with
    | completeRequest => cases is
    | _ => exact absurd (sent _ is) (lt_irrefl _)
  refine sourced.moves (fun _ => id) (Nat.le_succ _) (fun m member call is old => ?_) (fun m member => ?_)
    fun w q running slot member => ?_
  · rcases List.mem_append.mp member with before | new
    · exact before
    · rw [List.mem_singleton.mp new] at is
      exact absurd (Option.some.inj is) old.ne'
  · rcases List.mem_append.mp member with before | new
    · exact Or.inl before
    · rw [List.mem_singleton.mp new]
      exact Or.inr fun call is => Option.some.inj is ▸ Nat.lt_succ_self _
  · rcases slots_setSlot live w q running slot member with ⟨rfl, same, rfl⟩ | old
    · refine Or.inl ⟨Nat.lt_succ_self _, fun chain sent => ?_, fun a sent => ?_⟩
      · rcases List.mem_append.mp sent with before | new
        · exact absurd rfl (fresh _ before)
        · cases List.mem_singleton.mp new
          exact same.symm
      · rcases List.mem_append.mp sent with before | new
        · exact absurd rfl (fresh _ before)
        · cases List.mem_singleton.mp new
    · exact Or.inr old

/-- A slot stops waiting. -/
theorem Fleet.Sourced.gives (sourced : s.Sourced H tool calls) {p : Proc} {i : Nat} (live : s.procs worker = some p) :
    (s.setSlot worker p i .idle).Sourced H tool calls := by
  refine sourced.moves (fun _ => id) le_rfl (fun _ member _ _ _ => member) (fun _ => Or.inl)
    fun w q running slot member => ?_
  rcases slots_setSlot live w q running slot member with ⟨-, -, rfl⟩ | old
  · exact Or.inl trivial
  · exact Or.inr old

theorem Fleet.Sourced.step {e : FleetEvent} (sourced : s.Sourced H tool calls) (quiet : e.isReport = false)
    (taken : Fleet.Step H o s e s') : s'.Sourced H tool (calls ++ e.call?.toList) ∧
      ∀ r now accepted, e.call? = some (.completeTask r now accepted) → r.Reported H tool calls := by
  have log : ∀ (new : List Call), ∀ call ∈ calls, call ∈ calls ++ new := fun new call => List.mem_append_left new
  have silent : e.call? = none → s'.Sourced H tool calls → s'.Sourced H tool (calls ++ e.call?.toList) ∧
      ∀ r now accepted, e.call? = some (.completeTask r now accepted) → r.Reported H tool calls := by
    intro none holds
    rw [none]
    exact ⟨by simpa using holds, by simp⟩
  cases taken with
  | start dead =>
    refine silent rfl (sourced.moves (fun _ => id) le_rfl (fun _ member _ _ _ => member) (fun _ => Or.inl)
      fun w q running slot member => ?_)
    simp only [Fleet.setProc, Function.update_apply] at running
    split at running
    · cases running
      rw [List.eq_of_mem_replicate member]
      exact Or.inl trivial
    · exact Or.inr ⟨q, running, member, rfl⟩
  | crash =>
    refine silent rfl (sourced.moves (fun _ => id) le_rfl (fun _ member _ _ _ => member) (fun _ => Or.inl)
      fun w q running slot member => ?_)
    simp only [Fleet.setProc, Function.update_apply] at running
    split at running
    · cases running
    · exact Or.inr ⟨q, running, member, rfl⟩
  | claim live found => exact silent rfl (sourced.claims live)
  | serveClaim asked step => exact ⟨sourced.answered asked, by simp [FleetEvent.call?]⟩
  | crashClaim asked step =>
    exact ⟨sourced.handled (log _) fun m member => Or.inl (List.mem_of_mem_erase member), by simp [FleetEvent.call?]⟩
  | @receiveTask w p i call a live found sent =>
    have waits := sourced.slots w p live _ (List.mem_of_getElem? found)
    exact silent rfl (sourced.receives live (waits.2.2 a sent))
  | receiveNothing live found sent => exact silent rfl (sourced.receives live trivial)
  | abandonClaim live found => exact silent rfl (sourced.gives live)
  | report => cases quiet
  | @resend w p i call tries r live found =>
    exact silent rfl (sourced.sends live (sourced.slots w p live _ (List.mem_of_getElem? found)))
  | @serveComplete call r now accepted coord sent step =>
    have reported : r.Reported H tool calls := sourced.net _ sent
    refine ⟨sourced.handled (log _) fun m member => ?_, fun r' now' accepted' same => ?_⟩
    · rcases List.mem_append.mp member with before | new
      · exact Or.inl (List.mem_of_mem_erase before)
      · rw [List.mem_singleton.mp new]
        exact Or.inr ⟨rfl, fun c is => by cases is⟩
    · cases same
      exact reported
  | receiveComplete live found sent => exact silent rfl (sourced.receives live trivial)
  | giveUp live found => exact silent rfl (sourced.gives live)
  | beat live =>
    refine silent rfl (sourced.handled (fun _ => id) fun m member => ?_)
    rcases List.mem_append.mp member with before | new
    · exact Or.inl before
    · rw [List.mem_singleton.mp new]
      exact Or.inr ⟨rfl, fun c is => by cases is⟩
  | serveBeat sent step =>
    exact ⟨sourced.handled (log _) fun m member => Or.inl (List.mem_of_mem_erase member), by simp [FleetEvent.call?]⟩
  | lose sent =>
    exact silent rfl (sourced.handled (fun _ => id) fun m member => Or.inl (List.mem_of_mem_erase member))
  | @other call coord isOther step =>
    refine ⟨sourced.handled (log _) fun m => Or.inl, fun r now accepted same => ?_⟩
    cases same
    cases isOther

theorem Fleet.Sourced.work {e : WorkEvent} (sourced : s.Sourced H tool calls) (runs : s.RunsTool H tool e)
    (taken : Fleet.Work H o s e s') : s'.Sourced H tool (calls ++ e.call?.toList) ∧
      ∀ r now accepted, e.call? = some (.completeTask r now accepted) → r.Reported H tool calls := by
  cases taken with
  | fleet quiet step => exact sourced.step quiet step
  | @execute _ w p i a host live found step =>
    have handed := sourced.slots w p live _ (List.mem_of_getElem? found)
    obtain ⟨part, now, given⟩ := handed
    have reported : (host.result H w a).Reported H tool calls := fun _ =>
      ⟨w, p.toolchain, part, now, a, host, given, runs p a live found, rfl⟩
    cases step with
    | report alive holds =>
      refine ⟨?_, by simp [WorkEvent.call?]⟩
      simpa [WorkEvent.call?] using sourced.sends alive reported
  | @inject _ w p i a live found step =>
    have reported : (injectedFailure w a).Reported H tool calls := fun ok => by cases ok
    cases step with
    | report alive holds =>
      refine ⟨?_, by simp [WorkEvent.call?]⟩
      simpa [WorkEvent.call?] using sourced.sends alive reported

theorem AllReported.snoc {call : Call} (reported : AllReported H tool calls)
    (last : ∀ r now accepted, call = .completeTask r now accepted → r.Reported H tool calls) :
    AllReported H tool (calls ++ [call]) := by
  intro pre r now accepted post split
  rcases snoc_split split with ⟨rfl, rfl⟩ | ⟨before, rfl⟩
  · exact last r now accepted rfl
  · exact reported pre r now accepted before rfl

/-- In every run of the fleet the completions that the coordinator handles deliver results of
executions. -/
theorem Runs.sourced {events : List WorkEvent}
    (run : Runs (Meets (Fleet.Work H o) (Fleet.RunsTool H tool)) {} events s) :
    s.Sourced H tool (callsOf events) ∧ AllReported H tool (callsOf events) := by
  induction run with
  | nil => exact ⟨⟨by simp, by simp⟩, fun pre r now accepted post split => by simp [callsOf] at split⟩
  | @snoc t u events e _ last ih =>
    obtain ⟨sourced, last'⟩ := ih.1.work last.1 last.2
    cases made : e.call? with
    | none =>
      have same : callsOf (events ++ [e]) = callsOf events := by simp [callsOf, made]
      rw [made] at sourced
      exact ⟨same ▸ by simpa using sourced, same ▸ ih.2⟩
    | some call =>
      have more : callsOf (events ++ [e]) = callsOf events ++ [call] := by simp [callsOf, made]
      rw [made] at sourced last'
      exact ⟨more ▸ sourced, more ▸ ih.2.snoc fun r now accepted is => last' r now accepted (congrArg some is)⟩

end Fleet

end DistCompile
