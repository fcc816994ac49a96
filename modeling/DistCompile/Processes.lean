import DistCompile.Lib.Multiplex
import DistCompile.ToolErrors

/-!
How a process is run (`run_process` in `src/util.cpp`).

After the fork the parent reads what the child writes, from one pipe for both of its streams or,
with `split_stderr`, from one for each, until every pipe has come to its end; then it waits for the
child. At the deadline it kills the child and takes what it has. `Capture` is the parent with its
`Reader` over the two pipes, whose writers are all processes that have a write end open: the child,
what it has started, and the children of other threads that were forked meanwhile, as the pipes
are not closed on `exec`.

The clock is not modelled: `poll` may return zero whenever there is nothing to read. `pipe` and
`fork` have succeeded (`Ending.notForked` is the other case).
-/

namespace DistCompile

open DistCompile.Lib

/-- `fds[0]` and `fds[1]`. -/
inductive Fd where
  | out
  | err
deriving DecidableEq

instance : Fintype Fd := ⟨{.out, .err}, fun k => by cases k <;> simp⟩

/-- How the child has ended. -/
inductive Death where
  | exited (status : Fin 256)
  | killed

/-- The end of the child, when everything it has written is known. -/
def Death.ending : Death → Str → Ending
  | .exited status, output => .exited status output
  | .killed, output => .killed output

/-- Where `run_process` is. -/
inductive RunPhase where
  | reads
  /-- in `waitpid` -/
  | waits (timedOut : Bool)
  | returned (result : ProcResult) (err : Str)

structure Capture where
  reader : Reader Fd Char
  child : Option Death := none
  phase : RunPhase := .reads

inductive CaptureEvent where
  | io (e : ReadEvent Fd Char)
  /-- `poll` is interrupted by a signal -/
  | interrupted
  /-- `poll` returns zero -/
  | expires
  /-- `poll` fails for another reason -/
  | pollFails
  | drained
  | dies (death : Death)
  | waited

/-- What happens at the pipes. -/
def CaptureEvent.io? : CaptureEvent → Option (ReadEvent Fd Char)
  | .io e => some e
  | _ => none

namespace Capture

/-- What `run_process` makes of the end of the child. -/
def result (timedOut : Bool) (death : Death) (output : Str) : ProcResult :=
  match timedOut, death with
  | true, _ => ⟨-1, output ++ "\n[timed out]".toList⟩
  | false, .exited status => ⟨status.val, output⟩
  | false, .killed => ⟨-1, output⟩

/-- The array that is given to `poll`, and the size of `buf`. -/
def fds : List Fd := [.out, .err]
def bufSize : Nat := 65536

/-- The pipes that are read. -/
def opened (split : Bool) : Fd → Bool
  | .out => true
  | .err => split

/-- At the first `poll`: `out` and, with `split_stderr`, `err` have that many write ends. -/
def start (split : Bool) (out err : Nat) : Capture where
  reader :=
    { pipes := fun k => { writers := match k with | .out => out | .err => if split then err else 0 }
      isOpen := opened split }

/-- The pipes have room for `capacity` bytes. -/
inductive Step (capacity : Nat) (c : Capture) : CaptureEvent → Capture → Prop where
  | writer {e : ReadEvent Fd Char} {reader : Reader Fd Char} : e.own = false →
      c.reader.Step capacity bufSize fds e reader → Step capacity c (.io e) { c with reader }
  | reads {e : ReadEvent Fd Char} {reader : Reader Fd Char} : c.phase = .reads → e.own = true →
      c.reader.Step capacity bufSize fds e reader → Step capacity c (.io e) { c with reader }
  | interrupted : c.phase = .reads → c.reader.todo = [] → Step capacity c .interrupted c
  | expires : c.phase = .reads → c.reader.todo = [] → (∃ k, c.reader.isOpen k = true) → c.reader.ready fds = [] →
      Step capacity c .expires { c with phase := .waits true }
  | pollFails : c.phase = .reads → c.reader.todo = [] → (∃ k, c.reader.isOpen k = true) →
      Step capacity c .pollFails { c with phase := .waits false }
  | drained : c.phase = .reads → c.reader.todo = [] → (∀ k, c.reader.isOpen k = false) →
      Step capacity c .drained { c with phase := .waits false }
  | dies {death : Death} : c.child = none → Step capacity c (.dies death) { c with child := some death }
  | waited {timedOut : Bool} {death : Death} : c.phase = .waits timedOut → c.child = some death →
      Step capacity c .waited
        { c with phase := .returned (result timedOut death (c.reader.sink .out)) (c.reader.sink .err) }

/-- Neither `poll` nor a read fails. -/
def Unfailing (_ : Capture) : CaptureEvent → Prop
  | .pollFails => False
  | .io e => e.isFail = false
  | _ => True

abbrev Run (capacity : Nat) : Capture → List CaptureEvent → Capture → Prop :=
  Runs (Meets (Step capacity) Unfailing)

/-- What has happened at the pipes. -/
def ios (events : List CaptureEvent) : List (ReadEvent Fd Char) := events.filterMap CaptureEvent.io?

/-- What has been written to a pipe. -/
abbrev written (k : Fd) (events : List CaptureEvent) : Str := ReadEvent.written k (ios events)

/-- What holds of `run_process` after the events, in every state of a run. -/
structure Pumps (capacity : Nat) (events : List CaptureEvent) (c : Capture) : Prop where
  /-- nothing is lost or put out of order -/
  streams : ∀ k, c.reader.sink k ++ (c.reader.pipes k).buffer = written k events
  /-- the next read does not block -/
  prompt : ∀ k, c.phase = .reads → c.reader.todo.head? = some k → (c.reader.pipes k).readable = true
  /-- what is in a pipe is taken out by the parent alone, before it looks at the deadline: a writer
  that waits for room in one pipe does not wait for what happens at the other -/
  drains : ∀ k, c.phase = .reads → c.reader.isOpen k = true → (c.reader.pipes k).buffer ≠ [] →
    (∀ c', ¬ Step capacity c .expires c') ∧ ∃ (own : List (ReadEvent Fd Char)) (c' : Capture), Runs (Step capacity) c (own.map .io) c' ∧
      (∀ e ∈ own, e.own = true ∧ e.isFail = false) ∧ (c'.reader.pipes k).buffer.length < (c.reader.pipes k).buffer.length
  /-- the loop does not spin -/
  polls : (ios events).countP ReadEvent.isPoll ≤ (written .out events).length + (written .err events).length + 3
  /-- without a timeout the result has everything that was ever written and the child's exit code -/
  returns : ∀ result err, c.phase = .returned result err → .expires ∉ events →
    ∃ death, c.child = some death ∧ result = runProcess (death.ending (written .out events)) ∧
      err = written .err events ∧ ∀ k, (c.reader.pipes k).writers = 0
  /-- with one it has a beginning of it, and no exit code -/
  timesOut : ∀ result err, c.phase = .returned result err → .expires ∈ events →
    ∃ text, text <+: written .out events ∧ err <+: written .err events ∧
      result = runProcess (.timedOut text) ∧ result.exitCode = -1

section Proofs

variable {capacity : Nat} {split : Bool} {c c' : Capture} {e : CaptureEvent} {events : List CaptureEvent}

theorem fds_nodup : fds.Nodup := by decide

/-- How the parent has left its loop: `timed_out` says whether `poll` has run out, and if it has not
every pipe has come to its end. -/
def Left (c : Capture) (timedOut : Bool) (events : List CaptureEvent) : Prop :=
  (timedOut = true ↔ .expires ∈ events) ∧ (timedOut = false → ∀ k, c.reader.isOpen k = false)

theorem Left.snoc {timedOut : Bool} (left : c.Left timedOut events) (other : e ≠ .expires)
    (same : c'.reader.isOpen = c.reader.isOpen) : c'.Left timedOut (events ++ [e]) := by
  refine ⟨left.1.trans ?_, fun inTime k => ?_⟩
  · simp [other.symm]
  · rw [same]
    exact left.2 inTime k

/-- What a state without failures has kept of the run before it. -/
structure Sound (split : Bool) (events : List CaptureEvent) (c : Capture) : Prop where
  collecting : c.reader.Collecting (opened split) (ios events)
  unfailing : ∀ e ∈ ios events, e.isFail = false
  polls : (ios events).countP ReadEvent.isPoll ≤ c.reader.gained + min 1 c.reader.todo.length
  /-- a pipe that is not read has no writers -/
  unused : ∀ k, opened split k = false → (c.reader.pipes k).buffer = [] ∧ (c.reader.pipes k).writers = 0
  reads : c.phase = .reads → .expires ∉ events
  waits : ∀ timedOut, c.phase = .waits timedOut → c.Left timedOut events
  returned : ∀ r err, c.phase = .returned r err → ∃ timedOut death, c.child = some death ∧
    r = result timedOut death (c.reader.sink .out) ∧ err = c.reader.sink .err ∧ c.Left timedOut events

theorem ios_snoc (events : List CaptureEvent) (e : CaptureEvent) : ios (events ++ [e]) = ios events ++ e.io?.toList := by
  rw [ios, List.filterMap_append]
  cases e <;> rfl

theorem Sound.start (split : Bool) (out err : Nat) : Sound split [] (start split out err) where
  collecting := .start _
  unfailing := List.forall_mem_nil _
  polls := Nat.zero_le _
  unused k closed := by
    cases k with
    | out => cases closed
    | err =>
      obtain rfl : split = false := closed
      exact ⟨rfl, rfl⟩
  reads _ := List.not_mem_nil
  waits _ phase := by cases phase
  returned _ _ phase := by cases phase

/-- A step at the pipes. -/
theorem Sound.io (sound : Sound split events c) {e : ReadEvent Fd Char} {reader : Reader Fd Char}
    (good : e.isFail = false) (at_ : c.reader.Step capacity bufSize fds e reader)
    (keeps : c.phase ≠ .reads → reader.sink = c.reader.sink ∧ reader.isOpen = c.reader.isOpen) :
    Sound split (events ++ [.io e]) { c with reader } where
  collecting := by
    rw [ios_snoc]
    exact sound.collecting.step fds_nodup at_
  unfailing := by
    rw [ios_snoc]
    exact List.forall_mem_append.mpr ⟨sound.unfailing, List.forall_mem_singleton.mpr good⟩
  polls := by
    rw [ios_snoc]
    exact sound.collecting.polls_step at_ sound.polls
  unused k closed := at_.unused (sound.unused k closed)
  reads phase := by
    have before := sound.reads phase
    simpa using before
  waits timedOut phase :=
    (sound.waits timedOut phase).snoc (by simp) (keeps (by rw [phase]; simp)).2
  returned r err phase := by
    obtain ⟨sinks, opens⟩ := keeps (by rw [phase]; simp)
    obtain ⟨timedOut, death, ended, is, errIs, left⟩ := sound.returned r err phase
    exact ⟨timedOut, death, ended, by rw [sinks]; exact is, by rw [sinks]; exact errIs, left.snoc (by simp) opens⟩

/-- A step elsewhere. -/
theorem Sound.beside (sound : Sound split events c) (silent : e.io? = none) (same : c'.reader = c.reader)
    (reads : c'.phase = .reads → .expires ∉ events ++ [e])
    (waits : ∀ timedOut, c'.phase = .waits timedOut → c'.Left timedOut (events ++ [e]))
    (returned : ∀ r err, c'.phase = .returned r err → ∃ timedOut death, c'.child = some death ∧
      r = result timedOut death (c.reader.sink .out) ∧ err = c.reader.sink .err ∧
      c'.Left timedOut (events ++ [e])) : Sound split (events ++ [e]) c' := by
  have still : ios (events ++ [e]) = ios events := by rw [ios_snoc, silent]; exact List.append_nil _
  constructor
  · rw [still, same]
    exact sound.collecting
  · rw [still]
    exact sound.unfailing
  · rw [still, same]
    exact sound.polls
  · rw [same]
    exact sound.unused
  · exact reads
  · exact waits
  · rw [same]
    exact returned

theorem Sound.step (sound : Sound split events c) (unfailing : Unfailing c e) (taken : Step capacity c e c') :
    Sound split (events ++ [e]) c' := by
  cases taken with
  | writer others at_ => exact sound.io unfailing at_ fun _ => at_.of_writer others
  | reads phase _ at_ => exact sound.io unfailing at_ fun other => absurd phase other
  | interrupted phase _ =>
    refine sound.beside rfl rfl (fun _ => ?_) (fun _ other => ?_) fun _ _ other => ?_
    · simpa using sound.reads phase
    · rw [phase] at other
      cases other
    · rw [phase] at other
      cases other
  | expires _ _ _ _ =>
    refine sound.beside rfl rfl (fun other => by cases other) (fun timedOut waits => ?_) fun _ _ other => by cases other
    cases waits
    exact ⟨by simp, fun inTime => by cases inTime⟩
  | pollFails _ _ _ => exact unfailing.elim
  | drained phase _ closed =>
    refine sound.beside rfl rfl (fun other => by cases other) (fun timedOut waits => ?_) fun _ _ other => by cases other
    cases waits
    exact ⟨by simpa using sound.reads phase, fun _ => closed⟩
  | dies running =>
    refine sound.beside rfl rfl (fun phase => by simpa using sound.reads phase)
      (fun timedOut phase => (sound.waits timedOut phase).snoc (by simp) rfl) fun r err phase => ?_
    obtain ⟨_, death, ended, -⟩ := sound.returned r err phase
    rw [running] at ended
    cases ended
  | @waited timedOut death phase ended =>
    refine sound.beside rfl rfl (fun other => by cases other) (fun _ other => by cases other) fun r err returned => ?_
    cases returned
    exact ⟨timedOut, death, ended, rfl, rfl, (sound.waits timedOut phase).snoc (by simp) rfl⟩

theorem Sound.run {more : List CaptureEvent} (sound : Sound split events c)
    (run : Run capacity c more c') : Sound split (events ++ more) c' := by
  induction run with
  | nil => simpa using sound
  | snoc _ last ih =>
    rw [← List.append_assoc]
    exact ih.step last.1 last.2

theorem Run.next {events : List CaptureEvent} {a b c : Capture} {e : CaptureEvent} (run : Run capacity a events b)
    (taken : Step capacity b e c) (good : Unfailing b e) : Run capacity a (events ++ [e]) c := run.snoc ⟨good, taken⟩

/-- What the reader does alone the parent does. -/
theorem reads_alone {reader : Reader Fd Char} {own : List (ReadEvent Fd Char)} (phase : c.phase = .reads)
    (all : ∀ e ∈ own, e.own = true ∧ e.isFail = false)
    (run : Runs (Reader.Step capacity bufSize fds) c.reader own reader) :
    Runs (Step capacity) c (own.map .io) { c with reader } := by
  induction run with
  | nil => exact .nil
  | snoc _ last ih =>
    obtain ⟨rest, here⟩ := List.forall_mem_append.mp all
    rw [List.map_append]
    exact (ih rest).snoc (.reads phase (here _ (List.mem_singleton.mpr rfl)).1 last)

/-- All that was written has been read from a pipe that has come to its end. -/
theorem Sound.whole (sound : Sound split events c) (closed : ∀ k, c.reader.isOpen k = false) (k : Fd) :
    c.reader.sink k = written k events ∧ (c.reader.pipes k).writers = 0 := by
  have ended : (c.reader.pipes k).buffer = [] ∧ (c.reader.pipes k).writers = 0 := by
    cases used : opened split k with
    | false => exact sound.unused k used
    | true => exact sound.collecting.ended sound.unfailing k used (closed k)
  have stream := sound.collecting.stream k
  rw [ended.1, List.append_nil] at stream
  exact ⟨stream, ended.2⟩

theorem Sound.pumps (sound : Sound split events c) : Pumps capacity events c where
  streams := sound.collecting.stream
  prompt k _ next := (sound.collecting.ready k (List.mem_of_mem_head? next)).2
  drains k phase isOpen filled := by
    have listed : k ∈ fds := by cases k <;> decide
    constructor
    · intro c' expired
      cases expired with
      | expires _ _ _ none_ =>
        have found : k ∈ c.reader.ready fds := List.mem_filter.mpr ⟨listed, by
          rw [isOpen, Bool.true_and, Pipe.readable_iff]
          exact Or.inl filled⟩
        rw [none_] at found
        cases found
    · obtain ⟨reader, ⟨own, run, all⟩, less⟩ :=
        sound.collecting.drains capacity fds_nodup (by decide : 0 < bufSize) listed isOpen filled
      exact ⟨own, _, reads_alone phase all run, all, less⟩
  polls := by
    have collected (k : Fd) : (c.reader.sink k).length ≤ (written k events).length := by
      rw [written, ← sound.collecting.stream k, List.length_append]
      exact Nat.le_add_right _ _
    have ends (b : Bool) : (!b).toNat ≤ 1 := Bool.toNat_le _
    have bound := sound.polls
    have parts : c.reader.gained = ((c.reader.sink .out).length + (!c.reader.isOpen .out).toNat) +
        ((c.reader.sink .err).length + (!c.reader.isOpen .err).toNat) := by
      rw [Reader.gained]
      exact Finset.sum_pair (by decide)
    have := collected .out
    have := collected .err
    have := ends (c.reader.isOpen .out)
    have := ends (c.reader.isOpen .err)
    omega
  returns r err phase inTime := by
    obtain ⟨timedOut, death, ended, rfl, rfl, late, closed⟩ := sound.returned r err phase
    obtain rfl : timedOut = false := Bool.eq_false_iff.mpr fun expired => inTime (late.mp expired)
    have whole := sound.whole (closed rfl)
    refine ⟨death, ended, ?_, (whole .err).1, fun k => (whole k).2⟩
    rw [(whole .out).1]
    cases death <;> rfl
  timesOut r err phase expired := by
    obtain ⟨timedOut, death, -, rfl, rfl, late, -⟩ := sound.returned r err phase
    obtain rfl : timedOut = true := late.mpr expired
    exact ⟨_, ⟨_, sound.collecting.stream .out⟩, ⟨_, sound.collecting.stream .err⟩, rfl, rfl⟩

end Proofs

end Capture

/-- `run_process` in every interleaving with the writers of its pipes, whatever their capacity, and with
the end of the child, as long as `poll` and the reads do not fail: what it has read of a pipe, with
what is still in the pipe, is what was written; its reads do not block; it makes room in each pipe by
itself, so no writer waits for good; and what it returns has the whole output of the child and its
exit code, or after a timeout a beginning of the output and none. -/
theorem run_process_pumps {capacity : Nat} {split : Bool} {out err : Nat} {events : List CaptureEvent} {c : Capture}
    (run : Capture.Run capacity (Capture.start split out err) events c) : c.Pumps capacity events :=
  ((Capture.Sound.start split out err).run run).pumps

/-- A child writes to both of its streams, closes them and exits; the parent polls twice. -/
theorem run_process_pumps_warning : ∃ events c,
    Capture.Run 4096 (Capture.start true 1 1) events c ∧
      c.phase = .returned ⟨0, ['x']⟩ ['w'] ∧ c.Pumps 4096 events := by
  have writes (c : Capture) (k : Fd) (data : Str) (alive : 0 < (c.reader.pipes k).writers)
      (room : (c.reader.pipes k).buffer.length + data.length ≤ 4096) : Capture.Step 4096 c (.io (.write k data)) _ :=
    .writer rfl (.write alive room)
  have exits (c : Capture) (status : Fin 256) (running : c.child = none) :
      Capture.Step 4096 c (.dies (.exited status)) _ := .dies running
  have begins : Capture.Run 4096 (Capture.start true 1 1) [] _ := .nil
  have run : ∃ events c, Capture.Run 4096 (Capture.start true 1 1) events c ∧
      c.phase = .returned ⟨0, ['x']⟩ ['w'] :=
    ⟨_, _, ((((((((((((begins.next (writes _ .err ['w'] (by decide) (by decide)) rfl).next
      (writes _ .out ['x'] (by decide) (by decide)) rfl).next
      (.writer rfl (.close (k := Fd.out) (by decide))) rfl).next (.writer rfl (.close (k := Fd.err) (by decide))) rfl).next
      (exits _ 0 rfl) trivial).next (.reads rfl rfl (.poll rfl (by decide))) rfl).next
      (.reads rfl rfl (.read (k := Fd.out) (n := 1) rfl (by decide) (by decide) (by decide))) rfl).next
      (.reads rfl rfl (.read (k := Fd.err) (n := 1) rfl (by decide) (by decide) (by decide))) rfl).next
      (.reads rfl rfl (.poll rfl (by decide))) rfl).next (.reads rfl rfl (.eof (k := Fd.out) rfl rfl rfl)) rfl).next
      (.reads rfl rfl (.eof (k := Fd.err) rfl rfl rfl)) rfl).next
      (.drained rfl rfl (fun k => by cases k <;> rfl)) trivial).next (.waited rfl rfl) trivial, rfl⟩
  obtain ⟨events, c, run, returned⟩ := run
  exact ⟨events, c, run, returned, run_process_pumps run⟩

end DistCompile
