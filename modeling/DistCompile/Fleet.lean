import DistCompile.Counters
import DistCompile.Lease

/-!
Workers, coordinator and the messages between them (`src/worker.cpp`,
`with_retry` in `src/rpc.h`).

A worker process has slots that claim, execute and report in a loop, and a thread
that sends heartbeats. Every try of a call is a call of its own with a request and
a reply; any message may be lost, late, or handled after its sender has given up
or died. A slot that gives up on a claim just claims again.

The heartbeat extends every running row under the worker's name. Whether the
worker holds these attempts depends on what happened to the messages:
`heartbeat_renews_lost_claim` runs into a lease nobody works on. `Fleet.Keeps` is
the condition under which it does not (`heartbeats_extend_held`).
-/

namespace DistCompile

open DistCompile.Lib

/-! ### Processes and messages -/

/-- A slot of a worker, by where its `loop` is. -/
inductive Slot where
  | idle
  /-- in `ClaimTask`, waiting for the reply to `call` -/
  | claiming (call : Nat)
  /-- in `execute` -/
  | working (a : Assignment)
  /-- in `CompleteTask`, waiting for the reply to `call`, with `tries` tries left -/
  | reporting (r : TaskResult) (call tries : Nat)
deriving DecidableEq, Repr

/-- The slot has received the assignment of the attempt and has not finished
reporting it. -/
def Slot.holds (uid attempt : Nat) : Slot → Bool
  | .working a => a.taskUid = uid && a.attempt = attempt
  | .reporting r _ _ => r.taskUid = uid && r.attempt = attempt
  | _ => false

/-- A live worker process. -/
structure Proc where
  toolchain : Str
  slots : List Slot
deriving DecidableEq, Repr

inductive Message where
  | claimRequest (call : Nat) (worker toolchain : Str)
  | claimReply (call : Nat) (worker : Str) (task : Option Assignment)
  | completeRequest (call : Nat) (r : TaskResult)
  | completeReply (call : Nat)
  | heartbeat (worker : Str)
deriving DecidableEq, Repr

/-- Everything: the coordinator, the live processes by worker id, and the messages
in flight. -/
structure Fleet where
  coord : Coordinator := {}
  procs : Str → Option Proc := fun _ => none
  net : List Message := []
  nextCall : Nat := 0

namespace Fleet

def setProc (s : Fleet) (worker : Str) (p : Option Proc) : Fleet :=
  { s with procs := Function.update s.procs worker p }

/-- One slot of a live process moves on. -/
def setSlot (s : Fleet) (worker : Str) (p : Proc) (i : Nat) (slot : Slot) : Fleet :=
  s.setProc worker (some { p with slots := p.slots.set i slot })

/-- A message leaves the net. -/
def take (s : Fleet) (m : Message) : Fleet := { s with net := s.net.erase m }

def send (s : Fleet) (m : Message) : Fleet := { s with net := s.net ++ [m] }

/-- A call is made under the next number. -/
def call (s : Fleet) (m : Nat → Message) : Fleet :=
  { s with net := s.net ++ [m s.nextCall], nextCall := s.nextCall + 1 }

theorem setProc_self (s : Fleet) (worker : Str) (p : Option Proc) :
    (s.setProc worker p).procs worker = p := by
  simp [setProc]

end Fleet

/-- What can happen. -/
inductive FleetEvent where
  | start (worker toolchain : Str) (slots : Nat)
  | crash (worker : Str)
  | claim (worker : Str) (i : Nat)
  | serveClaim (call : Nat) (worker toolchain : Str) (part now : Int) (reply : Option Assignment)
  /-- the coordinator goes down over the claim, and comes back -/
  | crashClaim (call : Nat) (worker toolchain : Str) (part now : Int) (taskUid : Nat)
  | receiveClaim (worker : Str) (i : Nat) (reply : Option Assignment)
  | abandonClaim (worker : Str) (i : Nat)
  | report (worker : Str) (i : Nat) (r : TaskResult)
  | resend (worker : Str) (i : Nat)
  | serveComplete (call : Nat) (r : TaskResult) (now : Int) (accepted : Bool)
  | receiveComplete (worker : Str) (i : Nat)
  | giveUp (worker : Str) (i : Nat)
  | beat (worker : Str)
  | serveBeat (worker : Str) (now : Int)
  | lose (m : Message)
  | other (call : Call)

/-- The calls of clients and of the reaper. -/
def Call.isOther : Call → Bool
  | .submitBuild _ _ _ | .putBlob _ _ _ | .reap _ => true
  | _ => false

/-- The tries of `with_retry` after the first. -/
def retries : Nat := 7

inductive Fleet.Step (H : Sha256) (o : Options) : Fleet → FleetEvent → Fleet → Prop where
  | start {s : Fleet} {worker toolchain : Str} {slots : Nat} : s.procs worker = none →
      Step H o s (.start worker toolchain slots)
        (s.setProc worker (some ⟨toolchain, List.replicate slots .idle⟩))
  | crash {s : Fleet} {worker : Str} : Step H o s (.crash worker) (s.setProc worker none)
  | claim {s : Fleet} {worker : Str} {p : Proc} {i : Nat} : s.procs worker = some p →
      p.slots[i]? = some .idle →
      Step H o s (.claim worker i) ((s.setSlot worker p i (.claiming s.nextCall)).call
        fun call => .claimRequest call worker p.toolchain)
  | serveClaim {s : Fleet} {worker toolchain : Str} {call : Nat} {part now : Int}
      {reply : Option Assignment} {coord : Coordinator} :
      .claimRequest call worker toolchain ∈ s.net →
      DistCompile.Step H o s.coord (.claimTask worker toolchain part now reply) coord →
      Step H o s (.serveClaim call worker toolchain part now reply)
        { (s.take (.claimRequest call worker toolchain)).send (.claimReply call worker reply) with
          coord }
  | crashClaim {s : Fleet} {worker toolchain : Str} {call taskUid : Nat} {part now : Int} {coord : Coordinator} :
      .claimRequest call worker toolchain ∈ s.net →
      DistCompile.Step H o s.coord (.claimCrash worker toolchain part now taskUid) coord →
      Step H o s (.crashClaim call worker toolchain part now taskUid)
        { s.take (.claimRequest call worker toolchain) with coord }
  | receiveTask {s : Fleet} {worker : Str} {p : Proc} {i call : Nat} {a : Assignment} :
      s.procs worker = some p → p.slots[i]? = some (.claiming call) →
      .claimReply call worker (some a) ∈ s.net →
      Step H o s (.receiveClaim worker i (some a))
        ((s.setSlot worker p i (.working a)).take (.claimReply call worker (some a)))
  | receiveNothing {s : Fleet} {worker : Str} {p : Proc} {i call : Nat} :
      s.procs worker = some p → p.slots[i]? = some (.claiming call) →
      .claimReply call worker none ∈ s.net →
      Step H o s (.receiveClaim worker i none)
        ((s.setSlot worker p i .idle).take (.claimReply call worker none))
  | abandonClaim {s : Fleet} {worker : Str} {p : Proc} {i call : Nat} : s.procs worker = some p →
      p.slots[i]? = some (.claiming call) →
      Step H o s (.abandonClaim worker i) (s.setSlot worker p i .idle)
  | report {s : Fleet} {worker : Str} {p : Proc} {i : Nat} {a : Assignment} {r : TaskResult} :
      s.procs worker = some p → p.slots[i]? = some (.working a) →
      r.taskUid = a.taskUid → r.attempt = a.attempt → r.worker = worker →
      Step H o s (.report worker i r)
        ((s.setSlot worker p i (.reporting r s.nextCall retries)).call
          fun call => .completeRequest call r)
  | resend {s : Fleet} {worker : Str} {p : Proc} {i call tries : Nat} {r : TaskResult} :
      s.procs worker = some p → p.slots[i]? = some (.reporting r call (tries + 1)) →
      Step H o s (.resend worker i)
        ((s.setSlot worker p i (.reporting r s.nextCall tries)).call fun call => .completeRequest call r)
  | serveComplete {s : Fleet} {call : Nat} {r : TaskResult} {now : Int} {accepted : Bool}
      {coord : Coordinator} : .completeRequest call r ∈ s.net →
      DistCompile.Step H o s.coord (.completeTask r now accepted) coord →
      Step H o s (.serveComplete call r now accepted)
        { (s.take (.completeRequest call r)).send (.completeReply call) with coord }
  | receiveComplete {s : Fleet} {worker : Str} {p : Proc} {i call tries : Nat} {r : TaskResult} :
      s.procs worker = some p → p.slots[i]? = some (.reporting r call tries) →
      .completeReply call ∈ s.net →
      Step H o s (.receiveComplete worker i)
        ((s.setSlot worker p i .idle).take (.completeReply call))
  | giveUp {s : Fleet} {worker : Str} {p : Proc} {i call tries : Nat} {r : TaskResult} :
      s.procs worker = some p → p.slots[i]? = some (.reporting r call tries) →
      Step H o s (.giveUp worker i) (s.setSlot worker p i .idle)
  | beat {s : Fleet} {worker : Str} : (s.procs worker).isSome →
      Step H o s (.beat worker) (s.send (.heartbeat worker))
  | serveBeat {s : Fleet} {worker : Str} {now : Int} {coord : Coordinator} :
      .heartbeat worker ∈ s.net → DistCompile.Step H o s.coord (.heartbeat worker now) coord →
      Step H o s (.serveBeat worker now) { s.take (.heartbeat worker) with coord }
  | lose {s : Fleet} {m : Message} : m ∈ s.net → Step H o s (.lose m) (s.take m)
  | other {s : Fleet} {call : Call} {coord : Coordinator} : call.isOther = true →
      DistCompile.Step H o s.coord call coord → Step H o s (.other call) { s with coord }

/-! ### The condition -/

/-- No attempt is let go while the coordinator still has it running under the
worker's name, and a heartbeat finds its worker alive and no task on its way there:

* a worker starts under an id that owns no running row;
* a task is granted only to a dead worker or to a slot that still waits for it, and the
  coordinator goes down over a claim only when the worker is dead;
* a granted reply to a live worker is not lost, and its slot does not stop waiting,
  before the row is requeued or finished;
* a slot gives up reporting only when its attempt no longer runs. -/
def Fleet.Keeps (s : Fleet) : FleetEvent → Prop
  | .start worker _ _ => ∀ t ∈ s.coord.db.tasks, leasedTo worker t = false
  | .serveClaim call worker _ _ _ (some _) => ∀ p, s.procs worker = some p → .claiming call ∈ p.slots
  | .crashClaim _ worker _ _ _ _ => s.procs worker = none
  | .lose (.claimReply _ worker (some a)) =>
      (s.procs worker).isSome → ¬ s.coord.db.Leased worker a.taskUid a.attempt
  | .abandonClaim worker i => ∀ p call a, s.procs worker = some p → p.slots[i]? = some (.claiming call) →
      .claimReply call worker (some a) ∈ s.net → ¬ s.coord.db.Leased worker a.taskUid a.attempt
  | .giveUp worker i => ∀ p r call tries, s.procs worker = some p →
      p.slots[i]? = some (.reporting r call tries) → ¬ s.coord.db.Leased worker r.taskUid r.attempt
  | .serveBeat worker _ => (s.procs worker).isSome ∧ ∀ call a,
      .claimReply call worker (some a) ∈ s.net → ¬ s.coord.db.Leased worker a.taskUid a.attempt
  | _ => True

/-! ### The invariant -/

def Message.call? : Message → Option Nat
  | .claimRequest call _ _ | .claimReply call _ _ | .completeRequest call _ | .completeReply call =>
      some call
  | .heartbeat _ => none

/-- The call of a claim message. -/
def Message.claimCall : Message → Option Nat
  | .claimRequest call _ _ | .claimReply call _ _ => some call
  | _ => none

/-- Every attempt that runs under the name of a live worker is held by one of its
slots, or its assignment is on the way to a slot that waits for it. -/
structure Fleet.Inv (s : Fleet) : Prop where
  uids : s.coord.db.Uids
  calls : (s.net.filterMap Message.claimCall).Nodup
  made : ∀ m ∈ s.net, ∀ call, m.call? = some call → call < s.nextCall
  reports : ∀ w p, s.procs w = some p → ∀ r call tries, .reporting r call tries ∈ p.slots →
    call < s.nextCall
  granted : ∀ call w a, .claimReply call w (some a) ∈ s.net → s.coord.db.Issued a.taskUid a.attempt
  issued : ∀ w p, s.procs w = some p → ∀ slot ∈ p.slots, ∀ uid attempt,
    slot.holds uid attempt = true → s.coord.db.Issued uid attempt
  same : ∀ call r, .completeRequest call r ∈ s.net → ∀ w p, s.procs w = some p →
    ∀ r' tries, .reporting r' call tries ∈ p.slots → r' = r
  past : ∀ call, .completeReply call ∈ s.net → ∀ w p, s.procs w = some p →
    ∀ r tries, .reporting r call tries ∈ p.slots → ¬ s.coord.db.RunsAttempt r.taskUid r.attempt
  held : ∀ w p, s.procs w = some p → ∀ uid attempt, s.coord.db.Leased w uid attempt →
    (∃ slot ∈ p.slots, slot.holds uid attempt = true) ∨
    ∃ call a, .claimReply call w (some a) ∈ s.net ∧ .claiming call ∈ p.slots ∧
      a.taskUid = uid ∧ a.attempt = attempt

namespace Fleet.Inv

variable {H : Sha256} {o : Options} {s : Fleet}

/-- A call of the coordinator in which no attempt begins. -/
theorem ends (inv : s.Inv) {coord : Coordinator} (uids : coord.db.Uids)
    (ends : Ends s.coord.db coord.db) : Fleet.Inv { s with coord } where
  uids := uids
  calls := inv.calls
  made := inv.made
  reports := inv.reports
  granted call w a member := ends.issued _ _ (inv.granted call w a member)
  issued w p live slot member uid attempt holds :=
    ends.issued _ _ (inv.issued w p live slot member uid attempt holds)
  same := inv.same
  past call member w p live r tries reporting running :=
    inv.past call member w p live r tries reporting (ends.runs _ _ running)
  held w p live uid attempt leased := inv.held w p live uid attempt (ends.leased _ _ _ leased)

/-- A message leaves the net. -/
theorem take (inv : s.Inv) (m : Message)
    (safe : ∀ call w a, m = .claimReply call w (some a) → ∀ p, s.procs w = some p →
      .claiming call ∈ p.slots → s.coord.db.Leased w a.taskUid a.attempt →
      ∃ slot ∈ p.slots, slot.holds a.taskUid a.attempt = true) : (s.take m).Inv where
  uids := inv.uids
  calls := inv.calls.sublist (List.erase_sublist.filterMap _)
  made m' member := inv.made m' (List.mem_of_mem_erase member)
  reports := inv.reports
  granted call w a member := inv.granted call w a (List.mem_of_mem_erase member)
  issued := inv.issued
  same call r member := inv.same call r (List.mem_of_mem_erase member)
  past call member := inv.past call (List.mem_of_mem_erase member)
  held w p live uid attempt leased := by
    rcases inv.held w p live uid attempt leased with held | ⟨call, a, member, waits, rfl, rfl⟩
    · exact Or.inl held
    · by_cases here : m = .claimReply call w (some a)
      · exact Or.inl (safe call w a here p live waits leased)
      · exact Or.inr ⟨call, a, (List.mem_erase_of_ne (Ne.symm here)).mpr member, waits, rfl, rfl⟩

/-- A new call. -/
theorem call (inv : s.Inv) (m : Nat → Message)
    (request : (∃ w toolchain, m s.nextCall = .claimRequest s.nextCall w toolchain) ∨
      ∃ r, m s.nextCall = .completeRequest s.nextCall r) : (s.call m).Inv where
  uids := inv.uids
  calls := by
    change ((s.net ++ [m s.nextCall]).filterMap _).Nodup
    rcases request with ⟨w, toolchain, isClaim⟩ | ⟨r, isReport⟩
    · rw [isClaim, List.filterMap_append, List.nodup_append]
      refine ⟨inv.calls, by simp [List.filterMap, Message.claimCall], fun a ha b hb same => ?_⟩
      obtain ⟨m', member, isCall⟩ := List.mem_filterMap.mp ha
      have old := inv.made m' member a (by cases m' <;> simp_all [Message.claimCall, Message.call?])
      have : b = s.nextCall := by simpa [Message.claimCall] using hb
      omega
    · have none_ : [m s.nextCall].filterMap Message.claimCall = [] := by rw [isReport]; rfl
      rw [List.filterMap_append, none_, List.append_nil]
      exact inv.calls
  made m' member call isCall := by
    rcases List.mem_append.mp member with old | new
    · exact Nat.lt_succ_of_lt (inv.made m' old call isCall)
    · obtain rfl := List.mem_singleton.mp new
      have : call = s.nextCall := by
        rcases request with ⟨w, toolchain, is⟩ | ⟨r, is⟩
        · rw [is] at isCall; exact (Option.some.inj isCall).symm
        · rw [is] at isCall; exact (Option.some.inj isCall).symm
      exact this ▸ Nat.lt_succ_self _
  reports w p live r call tries member := Nat.lt_succ_of_lt (inv.reports w p live r call tries member)
  granted call w a member := by
    rcases List.mem_append.mp member with old | new
    · exact inv.granted call w a old
    · rcases request with ⟨_, _, is⟩ | ⟨_, is⟩ <;> simp [is] at new
  issued := inv.issued
  same call r member w p live r' tries reporting := by
    rcases List.mem_append.mp member with old | new
    · exact inv.same call r old w p live r' tries reporting
    · -- no slot waits for a call that has just been made
      have made := inv.reports w p live r' call tries reporting
      have : call = s.nextCall := by
        rcases request with ⟨_, _, is⟩ | ⟨_, is⟩
        · simp [is] at new
        · simp only [is, List.mem_singleton, Message.completeRequest.injEq] at new
          exact new.1
      omega
  past call member := by
    rcases List.mem_append.mp member with old | new
    · exact inv.past call old
    · rcases request with ⟨_, _, is⟩ | ⟨_, is⟩ <;> simp [is] at new
  held w p live uid attempt leased := by
    rcases inv.held w p live uid attempt leased with held | ⟨call, a, member, waits, same⟩
    · exact Or.inl held
    · exact Or.inr ⟨call, a, List.mem_append_left _ member, waits, same⟩

/-- The members of a list after one entry is replaced. -/
theorem mem_set_or {α : Type} {l : List α} {i : Nat} {old new x : α} (found : l[i]? = some old)
    (member : x ∈ l) : x ∈ l.set i new ∨ x = old := by
  obtain ⟨j, here⟩ := List.mem_iff_getElem?.mp member
  by_cases same : i = j
  · subst same
    rw [found] at here
    exact Or.inr (Option.some.inj here).symm
  · exact Or.inl (List.mem_iff_getElem?.mpr ⟨j, by rw [List.getElem?_set_ne same]; exact here⟩)

/-- A slot moves on: what it may let go, and what it may wait for. -/
theorem slot (inv : s.Inv) {w : Str} {p : Proc} {i : Nat} {old new : Slot} (live : s.procs w = some p)
    (found : p.slots[i]? = some old)
    (issued : ∀ uid attempt, new.holds uid attempt = true → s.coord.db.Issued uid attempt)
    (lets : ∀ uid attempt, s.coord.db.Leased w uid attempt → old.holds uid attempt = true →
      new.holds uid attempt = true)
    (waits : ∀ call a, old = .claiming call → .claimReply call w (some a) ∈ s.net →
      s.coord.db.Leased w a.taskUid a.attempt → new.holds a.taskUid a.attempt = true)
    (reports : ∀ r call tries, new = .reporting r call tries → call < s.nextCall ∧
      (∀ r', .completeRequest call r' ∈ s.net → r = r') ∧ .completeReply call ∉ s.net) :
    (s.setSlot w p i new).Inv := by
  -- a slot of the fleet after the step is the new one or was there before
  have slots : ∀ v q, (s.setSlot w p i new).procs v = some q → ∀ slot ∈ q.slots,
      slot = new ∨ ∃ q', s.procs v = some q' ∧ slot ∈ q'.slots := by
    intro v q running slot member
    simp only [Fleet.setSlot, Fleet.setProc, Function.update_apply] at running
    split at running
    · rename_i same
      subst same
      cases running
      rcases List.mem_or_eq_of_mem_set member with before | here
      · exact Or.inr ⟨p, live, before⟩
      · exact Or.inl here
    · exact Or.inr ⟨q, running, member⟩
  refine ⟨inv.uids, inv.calls, inv.made, ?_, inv.granted, ?_, ?_, ?_, ?_⟩
  · intro v q running r call tries member
    rcases slots v q running _ member with here | ⟨q', before, was⟩
    · exact (reports r call tries here.symm).1
    · exact inv.reports v q' before r call tries was
  · intro v q running slot member uid attempt holds
    rcases slots v q running _ member with rfl | ⟨q', before, was⟩
    · exact issued uid attempt holds
    · exact inv.issued v q' before slot was uid attempt holds
  · intro call r sent v q running r' tries member
    rcases slots v q running _ member with here | ⟨q', before, was⟩
    · exact (reports r' call tries here.symm).2.1 r sent
    · exact inv.same call r sent v q' before r' tries was
  · intro call answered v q running r tries member
    rcases slots v q running _ member with here | ⟨q', before, was⟩
    · exact absurd answered (reports r call tries here.symm).2.2
    · exact inv.past call answered v q' before r tries was
  · intro v q running uid attempt leased
    simp only [Fleet.setSlot, Fleet.setProc, Function.update_apply] at running
    split at running
    · rename_i same
      subst same
      cases running
      have member : new ∈ p.slots.set i new :=
        List.mem_iff_getElem?.mpr ⟨i, List.getElem?_set_self (List.getElem?_eq_some_iff.mp found).1⟩
      rcases inv.held v p live uid attempt leased with ⟨slot, was, holds⟩ | ⟨call, a, sent, was, rfl, rfl⟩
      · rcases mem_set_or found was with still | rfl
        · exact Or.inl ⟨slot, still, holds⟩
        · exact Or.inl ⟨new, member, lets uid attempt leased holds⟩
      · rcases mem_set_or found was with still | here
        · exact Or.inr ⟨call, a, sent, still, rfl, rfl⟩
        · exact Or.inl ⟨new, member, waits call a here.symm sent leased⟩
    · exact inv.held v q running uid attempt leased

/-- A claim is answered. A granted attempt is new, and it is on its way to a slot
that waits for it. -/
theorem answer (inv : s.Inv) {call : Nat} {w toolchain : Str} {reply : Option Assignment}
    {coord : Coordinator} (asked : .claimRequest call w toolchain ∈ s.net) (uids : coord.db.Uids)
    (issued : ∀ uid attempt, s.coord.db.Issued uid attempt → coord.db.Issued uid attempt)
    (runs : ∀ uid attempt, coord.db.RunsAttempt uid attempt → s.coord.db.Issued uid attempt →
      s.coord.db.RunsAttempt uid attempt)
    (granted : ∀ a, reply = some a → coord.db.Issued a.taskUid a.attempt)
    (leased : ∀ v uid attempt, coord.db.Leased v uid attempt → s.coord.db.Leased v uid attempt ∨
      (v = w ∧ ∃ a, reply = some a ∧ a.taskUid = uid ∧ a.attempt = attempt))
    (waits : ∀ a, reply = some a → ∀ p, s.procs w = some p → .claiming call ∈ p.slots) :
    Fleet.Inv { (s.take (.claimRequest call w toolchain)).send (.claimReply call w reply) with
      coord } := by
  have rest := inv.take (.claimRequest call w toolchain) (by simp)
  have perm := List.Perm.filterMap Message.claimCall (List.perm_cons_erase asked)
  refine ⟨uids, ?_, fun m member c isCall => ?_, rest.reports, fun c v a member => ?_,
    fun v p live slot member uid attempt holds => ?_, fun c r member => ?_,
    fun c member v p live r tries reporting running => ?_, fun v p live uid attempt isLeased => ?_⟩
  · change ((s.net.erase _ ++ [_]).filterMap _).Nodup
    rw [List.filterMap_append]
    refine (List.Perm.nodup_iff ?_).mp inv.calls
    exact perm.trans (List.perm_append_singleton call _).symm
  · rcases List.mem_append.mp member with before | new
    · exact rest.made m before c isCall
    · obtain rfl := List.mem_singleton.mp new
      exact inv.made _ asked c isCall
  · rcases List.mem_append.mp member with before | new
    · exact issued _ _ (rest.granted c v a before)
    · have here := List.mem_singleton.mp new
      simp only [Message.claimReply.injEq] at here
      exact granted a here.2.2.symm
  · exact issued _ _ (rest.issued v p live slot member uid attempt holds)
  · rcases List.mem_append.mp member with before | new
    · exact rest.same c r before
    · simp at new
  · rcases List.mem_append.mp member with before | new
    · have out := rest.issued v p live _ reporting r.taskUid r.attempt (by simp [Slot.holds])
      exact rest.past c before v p live r tries reporting (runs _ _ running out)
    · simp at new
  · rcases leased v uid attempt isLeased with before | ⟨rfl, a, rfl, rfl, rfl⟩
    · rcases rest.held v p live uid attempt before with held | ⟨c, a, member, claiming, same⟩
      · exact Or.inl held
      · exact Or.inr ⟨c, a, List.mem_append_left _ member, claiming, same⟩
    · exact Or.inr ⟨call, a, List.mem_append_right _ (by simp), waits a rfl p live, rfl, rfl⟩

/-- The coordinator goes down over a claim: nobody learns of the attempt. -/
theorem unanswered (inv : s.Inv) {w toolchain : Str} {call uid attempt : Nat} {coord : Coordinator}
    (uids : coord.db.Uids) (begins : Begins s.coord.db coord.db w uid attempt) (dead : s.procs w = none) :
    Fleet.Inv { s.take (.claimRequest call w toolchain) with coord } := by
  have rest := inv.take (.claimRequest call w toolchain) (by simp)
  refine ⟨uids, rest.calls, rest.made, rest.reports, fun c v a member => begins.issued _ _ (rest.granted c v a member),
    fun v p live slot member u n holds => begins.issued _ _ (rest.issued v p live slot member u n holds), rest.same,
    fun c member v p live r tries reporting running => ?_, fun v p live u n leased => ?_⟩
  · have out := rest.issued v p live _ reporting r.taskUid r.attempt (by simp [Slot.holds])
    rcases begins.runs _ _ running with before | ⟨uid, attempt⟩
    · exact rest.past c member v p live r tries reporting before
    · exact begins.unissued (uid ▸ attempt ▸ out)
  · rcases begins.leased v u n leased with before | ⟨rfl, -, -⟩
    · exact rest.held v p live u n before
    · cases dead.symm.trans live

/-- The calls in which no attempt begins. -/
theorem of_call (inv : s.Inv) {call : Call} {coord : Coordinator}
    (taken : DistCompile.Step H o s.coord call coord)
    (quiet : ∀ worker toolchain part now reply, call ≠ .claimTask worker toolchain part now reply)
    (stays : ∀ worker toolchain part now uid, call ≠ .claimCrash worker toolchain part now uid) :
    Fleet.Inv { s with coord } := by
  have uids := inv.uids
  cases taken with
  | putBlob _ => exact inv.ends uids (.refl _)
  | putRefused _ => exact inv.ends uids (.refl _)
  | submitBuild =>
    obtain ⟨uids', ends⟩ := submitBuild_tables uids
    exact inv.ends uids' ends
  | claimTask _ _ => exact absurd rfl (quiet _ _ _ _ _)
  | claimCrash _ _ => exact absurd rfl (stays _ _ _ _ _)
  | claimNothing _ => exact absurd rfl (quiet _ _ _ _ _)
  | completeTask ran =>
    obtain ⟨uids', ends⟩ := run_tables uids ran
    exact inv.ends uids' ends
  | @heartbeat worker now =>
    exact inv.ends (uids.of_rows rfl rfl fun t _ => (heartbeatRow_ends o worker now t).uid)
      (Ends.of_rows rfl fun t _ => heartbeatRow_ends o worker now t)
  | @reap now =>
    obtain ⟨uids', ends⟩ := reap_tables (H := H) (o := o) uids now
    exact inv.ends uids' ends

/-- A completion is answered: its attempt is over. -/
theorem completed (inv : s.Inv) {call : Nat} {r : TaskResult} {now : Int} {accepted : Bool}
    {coord : Coordinator} (asked : .completeRequest call r ∈ s.net)
    (taken : DistCompile.Step H o s.coord (.completeTask r now accepted) coord) :
    Fleet.Inv { (s.take (.completeRequest call r)).send (.completeReply call) with coord } := by
  have after := inv.of_call taken (by simp) (by simp)
  have rest := after.take (.completeRequest call r) (by simp)
  have ended : ¬ coord.db.RunsAttempt r.taskUid r.attempt := by
    cases taken with
    | completeTask ran => exact completeTask_ends inv.uids ran
  refine ⟨rest.uids, ?_, fun m member c isCall => ?_, rest.reports, fun c v a member => ?_, rest.issued,
    fun c r' member => ?_, fun c member v p live r' tries reporting => ?_,
    fun v p live uid attempt leased => ?_⟩
  · change ((s.net.erase _ ++ [_]).filterMap _).Nodup
    rw [List.filterMap_append]
    exact (List.append_nil _).symm ▸ rest.calls
  · rcases List.mem_append.mp member with before | new
    · exact rest.made m before c isCall
    · obtain rfl := List.mem_singleton.mp new
      exact inv.made _ asked c isCall
  · rcases List.mem_append.mp member with before | new
    · exact rest.granted c v a before
    · simp at new
  · rcases List.mem_append.mp member with before | new
    · exact rest.same c r' before
    · simp at new
  · rcases List.mem_append.mp member with before | new
    · exact rest.past c before v p live r' tries reporting
    · obtain rfl : c = call := by simpa using new
      rw [inv.same c r asked v p live r' tries reporting]
      exact ended
  · rcases rest.held v p live uid attempt leased with held | ⟨c, a, member, claiming, same⟩
    · exact Or.inl held
    · exact Or.inr ⟨c, a, List.mem_append_left _ member, claiming, same⟩

/-- A worker id gets a new process, or none. -/
theorem proc (inv : s.Inv) {w : Str} {new : Option Proc}
    (fresh : ∀ p, new = some p → (∀ slot ∈ p.slots, slot = .idle) ∧
      ∀ uid attempt, ¬ s.coord.db.Leased w uid attempt) : (s.setProc w new).Inv := by
  have procs : ∀ v q, (s.setProc w new).procs v = some q → s.procs v = some q ∨
      (v = w ∧ ∀ slot ∈ q.slots, slot = .idle) := by
    intro v q running
    simp only [Fleet.setProc, Function.update_apply] at running
    split at running
    · rename_i same
      exact Or.inr ⟨same, (fresh q running).1⟩
    · exact Or.inl running
  refine ⟨inv.uids, inv.calls, inv.made, ?_, inv.granted, ?_, ?_, ?_, ?_⟩
  · intro v q running r call tries member
    rcases procs v q running with before | ⟨-, idle⟩
    · exact inv.reports v q before r call tries member
    · cases idle _ member
  · intro v q running slot member uid attempt holds
    rcases procs v q running with before | ⟨-, idle⟩
    · exact inv.issued v q before slot member uid attempt holds
    · rw [idle slot member] at holds
      cases holds
  · intro call r sent v q running r' tries member
    rcases procs v q running with before | ⟨-, idle⟩
    · exact inv.same call r sent v q before r' tries member
    · cases idle _ member
  · intro call answered v q running r tries member
    rcases procs v q running with before | ⟨-, idle⟩
    · exact inv.past call answered v q before r tries member
    · cases idle _ member
  · intro v q running uid attempt leased
    simp only [Fleet.setProc, Function.update_apply] at running
    split at running
    · rename_i same
      exact absurd (same ▸ leased) ((fresh q running).2 uid attempt)
    · exact inv.held v q running uid attempt leased

/-- There is one claim message for a call. -/
theorem claim_unique (inv : s.Inv) {m m' : Message} (member : m ∈ s.net) (member' : m' ∈ s.net)
    {call : Nat} (isCall : m.claimCall = some call) (isCall' : m'.claimCall = some call) : m = m' := by
  by_contra other
  have perm := List.Perm.filterMap Message.claimCall (List.perm_cons_erase member)
  rw [List.filterMap_cons_some isCall] at perm
  have calls := (List.Perm.nodup_iff perm).mp inv.calls
  refine (List.nodup_cons.mp calls).1 (List.mem_filterMap.mpr ⟨m', ?_, isCall'⟩)
  exact (List.mem_erase_of_ne (Ne.symm other)).mpr member'

/-- A slot receives the task it waited for. -/
theorem received (inv : s.Inv) {w : Str} {p : Proc} {i call : Nat} {a : Assignment}
    (live : s.procs w = some p) (found : p.slots[i]? = some (.claiming call))
    (sent : .claimReply call w (some a) ∈ s.net) :
    ((s.setSlot w p i (.working a)).take (.claimReply call w (some a))).Inv := by
  have held : Slot.holds a.taskUid a.attempt (.working a) = true := by simp [Slot.holds]
  have moved : (s.setSlot w p i (.working a)).Inv := by
    refine inv.slot live found (fun uid attempt holds => ?_) (by simp [Slot.holds])
      (fun c b waited sent' _ => ?_) (by simp)
    · simp only [Slot.holds, Bool.and_eq_true, decide_eq_true_eq] at holds
      obtain ⟨rfl, rfl⟩ := holds
      exact inv.granted call w a sent
    · obtain rfl : call = c := by simpa using waited
      have same := inv.claim_unique sent sent' rfl rfl
      simp only [Message.claimReply.injEq, Option.some.injEq, true_and] at same
      exact same ▸ held
  refine moved.take _ fun c v b isReply q running _ _ => ?_
  simp only [Message.claimReply.injEq, Option.some.injEq] at isReply
  obtain ⟨rfl, rfl, rfl⟩ := isReply
  simp only [Fleet.setSlot, Fleet.setProc, Function.update_self, Option.some.injEq] at running
  subst running
  exact ⟨_, List.mem_iff_getElem?.mpr ⟨i, List.getElem?_set_self (List.getElem?_eq_some_iff.mp found).1⟩,
    held⟩

/-- A slot reports under a call that has just been made. -/
theorem reported (inv : s.Inv) {w : Str} {p : Proc} {i tries : Nat} {old : Slot} {r : TaskResult}
    (live : s.procs w = some p) (found : p.slots[i]? = some old)
    (holds : ∀ uid attempt, old.holds uid attempt =
      Slot.holds uid attempt (.reporting r s.nextCall tries))
    (busy : ∀ call, old ≠ .claiming call) :
    ((s.setSlot w p i (.reporting r s.nextCall tries)).call fun call => .completeRequest call r).Inv := by
  have made := inv.call (fun call => .completeRequest call r) (Or.inr ⟨r, rfl⟩)
  refine made.slot live found (fun uid attempt here => ?_) (fun uid attempt _ here => ?_)
    (fun call _ waited => absurd waited (busy call)) fun r' call tries' is => ?_
  · exact inv.issued w p live old (List.mem_of_getElem? found) uid attempt ((holds uid attempt).trans here)
  · rw [← holds]
    exact here
  · obtain ⟨rfl, rfl, rfl⟩ : r = r' ∧ s.nextCall = call ∧ tries = tries' := by simpa using is
    refine ⟨Nat.lt_succ_self _, fun r' sent => ?_, fun answered => ?_⟩
    · rcases List.mem_append.mp sent with before | new
      · exact absurd (inv.made _ before s.nextCall rfl) (Nat.lt_irrefl _)
      · simpa using (List.mem_singleton.mp new).symm
    · rcases List.mem_append.mp answered with before | new
      · exact absurd (inv.made _ before s.nextCall rfl) (Nat.lt_irrefl _)
      · simp at new

theorem beat (inv : s.Inv) (w : Str) : (s.send (.heartbeat w)).Inv := by
  have old : ∀ m ∈ (s.send (.heartbeat w)).net, m = .heartbeat w ∨ m ∈ s.net := by
    intro m member
    rcases List.mem_append.mp member with before | new
    · exact Or.inr before
    · exact Or.inl (List.mem_singleton.mp new)
  refine ⟨inv.uids, ?_, fun m member call isCall => ?_, inv.reports, fun call v a member => ?_, inv.issued,
    fun call r member => ?_, fun call member => ?_, fun v p live uid attempt leased => ?_⟩
  · change ((s.net ++ [_]).filterMap _).Nodup
    rw [List.filterMap_append]
    exact (List.append_nil _).symm ▸ inv.calls
  · rcases old m member with rfl | before
    · cases isCall
    · exact inv.made m before call isCall
  · exact inv.granted call v a ((old _ member).resolve_left (by simp))
  · exact inv.same call r ((old _ member).resolve_left (by simp))
  · exact inv.past call ((old _ member).resolve_left (by simp))
  · rcases inv.held v p live uid attempt leased with held | ⟨call, a, member, claiming, same⟩
    · exact Or.inl held
    · exact Or.inr ⟨call, a, List.mem_append_left _ member, claiming, same⟩

/-- Every step that keeps the condition keeps the invariant. -/
theorem step {s' : Fleet} {e : FleetEvent} (inv : s.Inv) (keeps : s.Keeps e)
    (taken : Fleet.Step H o s e s') : s'.Inv := by
  cases taken with
  | @start worker toolchain slots dead =>
    refine inv.proc fun p new => ⟨fun slot member => ?_, ?_⟩
    · cases new
      exact List.eq_of_mem_replicate member
    · rintro uid attempt ⟨t, ht, -, -, row⟩
      rw [keeps t ht] at row
      cases row
  | crash => exact inv.proc (by simp)
  | @claim worker p i live found =>
    have made := inv.call (fun call => .claimRequest call worker p.toolchain) (Or.inl ⟨_, _, rfl⟩)
    exact made.slot live found (by simp [Slot.holds]) (by simp [Slot.holds]) (by simp) (by simp)
  | @serveClaim worker toolchain call part now reply coord asked claimed =>
    cases claimed with
    | @claimTask _ _ _ _ t picked _ =>
      obtain ⟨ht, -, -⟩ := mem_of_picked picked
      obtain ⟨uids, begins⟩ := claim_begins (o := o) inv.uids ht worker now
      refine inv.answer asked uids begins.issued (fun uid attempt running out => ?_) (fun a is => ?_)
        (fun v uid attempt leased => ?_) fun a is p live => ?_
      · rcases begins.runs uid attempt running with before | ⟨rfl, rfl⟩
        · exact before
        · exact absurd out begins.unissued
      · cases is
        exact begins.new
      · rcases begins.leased v uid attempt leased with before | ⟨rfl, rfl, rfl⟩
        · exact Or.inl before
        · exact Or.inr ⟨rfl, _, rfl, rfl, rfl⟩
      · cases is
        exact keeps p live
    | claimNothing _ =>
      exact inv.answer asked inv.uids (fun _ _ h => h) (fun _ _ h _ => h) (by simp)
        (fun _ _ _ h => Or.inl h) (by simp)
  | @crashClaim worker toolchain call taskUid part now coord asked claimed =>
    cases claimed with
    | claimCrash picked _ =>
      obtain ⟨uids, begins⟩ := claim_begins (o := o) inv.uids (mem_of_picked picked).1 worker now
      exact inv.unanswered uids begins keeps
  | receiveTask live found sent => exact inv.received live found sent
  | @receiveNothing worker p i call live found sent =>
    refine (inv.slot live found (by simp [Slot.holds]) (by simp [Slot.holds]) (fun c a waited granted _ => ?_)
      (by simp)).take _ (by simp)
    obtain rfl : call = c := by simpa using waited
    have same := inv.claim_unique sent granted rfl rfl
    simp at same
  | @abandonClaim worker p i call live found =>
    refine inv.slot live found (by simp [Slot.holds]) (by simp [Slot.holds]) (fun c a waited granted leased => ?_)
      (by simp)
    obtain rfl : call = c := by simpa using waited
    exact absurd leased (keeps p call a live found granted)
  | report live found uid attempt _ =>
    exact inv.reported live found (by simp [Slot.holds, uid, attempt]) (by simp)
  | resend live found => exact inv.reported live found (by simp [Slot.holds]) (by simp)
  | serveComplete asked handled => exact inv.completed asked handled
  | @receiveComplete worker p i call tries r live found answered =>
    refine (inv.slot live found (by simp [Slot.holds]) (fun uid attempt leased holds => ?_) (by simp)
      (by simp)).take _ (by simp)
    simp only [Slot.holds, Bool.and_eq_true, decide_eq_true_eq] at holds
    obtain ⟨rfl, rfl⟩ := holds
    exact absurd leased.runs
      (inv.past call answered worker p live r tries (List.mem_of_getElem? found))
  | @giveUp worker p i call tries r live found =>
    refine inv.slot live found (by simp [Slot.holds]) (fun uid attempt leased holds => ?_) (by simp) (by simp)
    simp only [Slot.holds, Bool.and_eq_true, decide_eq_true_eq] at holds
    obtain ⟨rfl, rfl⟩ := holds
    exact absurd leased (keeps p r call tries live found)
  | beat _ => exact inv.beat _
  | serveBeat _ handled => exact (inv.of_call handled (by simp) (by simp)).take _ (by simp)
  | @lose m member =>
    refine inv.take m fun call w a is p live _ leased => ?_
    subst is
    exact absurd leased (keeps (by simp [live]))
  | other isOther taken =>
    refine inv.of_call taken (fun worker toolchain part now reply is => ?_) fun worker toolchain part now uid is => ?_ <;>
    · subst is
      cases isOther

theorem empty : Fleet.Inv {} where
  uids := ⟨by simp, by simp⟩
  calls := by simp
  made := by simp
  reports := by simp
  granted := by simp
  issued := by simp
  same := by simp
  past := by simp
  held := by simp

end Fleet.Inv

/-! ### Heartbeats -/

/-- The heartbeat of `worker` extends only attempts that a live slot of the worker
has received and has not finished reporting. -/
def Fleet.ExtendsHeld (s : Fleet) (worker : Str) : Prop :=
  ∀ t ∈ s.coord.db.tasks, leasedTo worker t = true →
    ∃ p slot, s.procs worker = some p ∧ slot ∈ p.slots ∧ slot.holds t.uid t.attempts = true

/-- In every run that lets no attempt go while it runs, every heartbeat extends only
what its worker holds. -/
theorem heartbeats_extend_held {H : Sha256} {o : Options} {events : List FleetEvent} {s s' : Fleet}
    {worker : Str} {now : Int} (run : Runs (Meets (Fleet.Step H o) Fleet.Keeps) {} events s)
    (beat : Meets (Fleet.Step H o) Fleet.Keeps s (.serveBeat worker now) s') :
    s.ExtendsHeld worker := by
  have inv : s.Inv := run.invariant (P := Fleet.Inv) Fleet.Inv.empty
    fun taken inv => inv.step taken.1 taken.2
  intro t ht row
  have leased : s.coord.db.Leased worker t.uid t.attempts := ⟨t, ht, rfl, rfl, row⟩
  obtain ⟨p, live⟩ := Option.isSome_iff_exists.mp beat.1.1
  rcases inv.held worker p live t.uid t.attempts leased with
    ⟨slot, member, holds⟩ | ⟨call, a, sent, -, uid, attempt⟩
  · exact ⟨p, slot, live, member, holds⟩
  · exact absurd (uid ▸ attempt ▸ leased) (beat.1.2 call a sent)

/-- The sample build, and one worker with one slot. -/
def sampleWorker : Str := "w".toList

def idleProc : Proc := ⟨"gcc".toList, [.idle]⟩

def idleFleet : Fleet := Fleet.setProc { coord := sampleCoordinator } sampleWorker (some idleProc)

/-- The worker has asked for a task. -/
def askingProc : Proc := ⟨"gcc".toList, [.claiming 0]⟩

def askedFleet : Fleet :=
  (idleFleet.setSlot sampleWorker idleProc 0 (.claiming 0)).call
    fun call => .claimRequest call sampleWorker "gcc".toList

theorem asked_live : askedFleet.procs sampleWorker = some askingProc := by
  rw [askedFleet, Fleet.call, Fleet.setSlot, Fleet.setProc_self]
  rfl

theorem asked_reached : ∃ events,
    Runs (Meets (Fleet.Step sampleSha {}) Fleet.Keeps) {} events askedFleet := by
  have uploaded : Meets (Fleet.Step sampleSha {}) Fleet.Keeps {}
      (.other (.putBlob "int f;".toList [] true)) { coord := ⟨{}, [(sampleInput, "int f;".toList)]⟩ } :=
    ⟨trivial, .other rfl (.putBlob rfl)⟩
  have submitted : Meets (Fleet.Step sampleSha {}) Fleet.Keeps
      { coord := ⟨{}, [(sampleInput, "int f;".toList)]⟩ } (.other (.submitBuild sampleSpec 1 _))
      { coord := sampleCoordinator } := ⟨trivial, .other rfl .submitBuild⟩
  have nobody : ∀ t ∈ sampleCoordinator.db.tasks, leasedTo sampleWorker t = false := by decide +kernel
  have started : Meets (Fleet.Step sampleSha {}) Fleet.Keeps { coord := sampleCoordinator }
      (.start sampleWorker "gcc".toList 1) idleFleet := ⟨nobody, .start rfl⟩
  have asked : Meets (Fleet.Step sampleSha {}) Fleet.Keeps idleFleet (.claim sampleWorker 0) askedFleet :=
    ⟨trivial, .claim (Fleet.setProc_self _ _ _) rfl⟩
  exact ⟨_, (((Runs.nil.snoc uploaded).snoc submitted).snoc started).snoc asked⟩

/-- The compile task is granted; the reply is on its way. -/
def sampleRow : TaskRow := (sampleCoordinator.db.task? 1).get (by decide +kernel)

def sampleAssignment : Assignment := assignmentOf (claimedRow {} sampleWorker 0 sampleRow)

def grantedFleet : Fleet :=
  { (askedFleet.take (.claimRequest 0 sampleWorker "gcc".toList)).send
      (.claimReply 0 sampleWorker (some sampleAssignment)) with
    coord := { sampleCoordinator with
               db := sampleCoordinator.db.apply (.task (claimedRow {} sampleWorker 0 sampleRow)) } }

theorem granted_reached : ∃ events,
    Runs (Meets (Fleet.Step sampleSha {}) Fleet.Keeps) {} events grantedFleet := by
  obtain ⟨events, run⟩ := asked_reached
  have picked : Picked (claimCandidates sampleCoordinator.db sampleWorker "gcc".toList 0 0) sampleRow := by
    unfold Picked
    decide +kernel
  have waits : askedFleet.Keeps
      (.serveClaim 0 sampleWorker "gcc".toList 0 0 (some sampleAssignment)) := by
    intro p live
    rw [asked_live] at live
    cases live
    simp [askingProc]
  have granted : Fleet.Step sampleSha {} askedFleet
      (.serveClaim 0 sampleWorker "gcc".toList 0 0 (some sampleAssignment)) grantedFleet :=
    .serveClaim (by simp [askedFleet, Fleet.call, idleFleet, Fleet.setSlot, Fleet.setProc])
      (.claimTask picked (by decide +kernel))
  exact ⟨_, run.snoc ⟨waits, granted⟩⟩

/-- The reply arrives, and a heartbeat is sent. -/
def heldFleet : Fleet :=
  ((grantedFleet.setSlot sampleWorker askingProc 0 (.working sampleAssignment)).take
    (.claimReply 0 sampleWorker (some sampleAssignment))).send (.heartbeat sampleWorker)

/-- The reply is lost, the slot stops waiting, and a heartbeat is sent. -/
def lostFleet : Fleet :=
  ((grantedFleet.take (.claimReply 0 sampleWorker (some sampleAssignment))).setSlot sampleWorker
    askingProc 0 .idle).send (.heartbeat sampleWorker)

/-- A heartbeat while the slot works on its task. -/
theorem heartbeats_extend_held_sample : ∃ events s s',
    Runs (Meets (Fleet.Step sampleSha {}) Fleet.Keeps) {} events s ∧
    Meets (Fleet.Step sampleSha {}) Fleet.Keeps s (.serveBeat sampleWorker 1) s' ∧
    (∃ t ∈ s.coord.db.tasks, leasedTo sampleWorker t = true) ∧ s.ExtendsHeld sampleWorker := by
  obtain ⟨events, run⟩ := granted_reached
  have live : grantedFleet.procs sampleWorker = some askingProc := asked_live
  have received : Meets (Fleet.Step sampleSha {}) Fleet.Keeps grantedFleet
      (.receiveClaim sampleWorker 0 (some sampleAssignment)) _ :=
    ⟨trivial, .receiveTask live rfl (List.mem_append_right _ (by simp))⟩
  have beat : Meets (Fleet.Step sampleSha {}) Fleet.Keeps _ (.beat sampleWorker) heldFleet :=
    ⟨trivial, .beat (by rw [Fleet.take, Fleet.setSlot, Fleet.setProc_self]; rfl)⟩
  have netOf : heldFleet.net = [.heartbeat sampleWorker] := by decide +kernel
  have clear_ : heldFleet.Keeps (.serveBeat sampleWorker 1) := by
    constructor
    · rw [heldFleet, Fleet.send, Fleet.take, Fleet.setSlot, Fleet.setProc_self]; rfl
    · simp [netOf]
  have served : Meets (Fleet.Step sampleSha {}) Fleet.Keeps heldFleet (.serveBeat sampleWorker 1) _ :=
    ⟨clear_, .serveBeat (by simp [netOf]) .heartbeat⟩
  have reached := (run.snoc received).snoc beat
  exact ⟨_, heldFleet, _, reached, served, by decide +kernel, heartbeats_extend_held reached served⟩

/-- The reply to a claim is lost and the slot claims again; the next heartbeat renews
the lease of the lost attempt, which no slot has received. -/
theorem heartbeat_renews_lost_claim : ∃ events s s',
    Runs (Fleet.Step sampleSha {}) {} events s ∧
    Fleet.Step sampleSha {} s (.serveBeat sampleWorker 1) s' ∧ ¬ s.ExtendsHeld sampleWorker := by
  obtain ⟨events, run⟩ := granted_reached
  have live : grantedFleet.procs sampleWorker = some askingProc := asked_live
  have lost : Fleet.Step sampleSha {} grantedFleet
      (.lose (.claimReply 0 sampleWorker (some sampleAssignment))) _ :=
    .lose (List.mem_append_right _ (by simp))
  have abandoned : Fleet.Step sampleSha {}
      (grantedFleet.take (.claimReply 0 sampleWorker (some sampleAssignment)))
      (.abandonClaim sampleWorker 0) _ := .abandonClaim live rfl
  have beat : Fleet.Step sampleSha {} _ (.beat sampleWorker) lostFleet :=
    .beat (by rw [Fleet.setSlot, Fleet.setProc_self]; rfl)
  have netOf : lostFleet.net = [.heartbeat sampleWorker] := by decide +kernel
  refine ⟨_, lostFleet, _, ((run.forget.snoc lost).snoc abandoned).snoc beat,
    .serveBeat (by simp [netOf]) .heartbeat, fun held => ?_⟩
  have leased : ∃ t ∈ lostFleet.coord.db.tasks, leasedTo sampleWorker t = true := by decide +kernel
  obtain ⟨t, ht, row⟩ := leased
  obtain ⟨p, slot, running, member, holds⟩ := held t ht row
  rw [lostFleet, Fleet.send, Fleet.setSlot, Fleet.setProc_self] at running
  cases running
  have idle : slot = .idle := by simpa [askingProc] using member
  rw [idle] at holds
  cases holds

end DistCompile
