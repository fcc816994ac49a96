import DistCompile.Lib.Run
import Mathlib.Algebra.Order.BigOperators.Group.Finset
import Mathlib.Algebra.Order.Ring.Nat
import Mathlib.Data.Fintype.BigOperators

/-!
Reading several pipes at once.

A reader waits until one of its pipes has something to read or has lost its last writer. From each
pipe that was ready it then takes some of what is there, or finds that the pipe has come to its end
and closes it. Writers may do anything in between that a pipe of bounded capacity lets them do.

In every interleaving what the reader has taken from a pipe, with what is still in the pipe, is what
was written to it; a read never blocks; a pipe that is not closed is emptied by the reader alone;
and each wait is answered by items or by the end of a pipe.
-/

namespace DistCompile.Lib

variable {Fd Item : Type*}

/-- What has been written and not been read, and the write ends that are open. -/
structure Pipe (Item : Type*) where
  buffer : List Item := []
  writers : Nat := 0

/-- A read returns at once: with items, or with the end of the pipe. -/
def Pipe.readable (p : Pipe Item) : Bool := !p.buffer.isEmpty || p.writers == 0

theorem Pipe.readable_iff {p : Pipe Item} : p.readable = true ↔ p.buffer ≠ [] ∨ p.writers = 0 := by
  simp [Pipe.readable]

/-- The pipes, those the reader has not closed, what it has taken from each, and those found ready
that it has not come to yet. With none of these it waits. -/
structure Reader (Fd Item : Type*) where
  pipes : Fd → Pipe Item
  isOpen : Fd → Bool
  sink : Fd → List Item := fun _ => []
  todo : List Fd := []

inductive ReadEvent (Fd Item : Type*) where
  | write (k : Fd) (data : List Item)
  /-- a write end is duplicated -/
  | share (k : Fd)
  /-- a write end is closed -/
  | close (k : Fd)
  | poll
  | read (n : Nat)
  | eof
  /-- the read fails, and the reader closes the pipe -/
  | fail

namespace ReadEvent

/-- The reader's own steps. -/
def own : ReadEvent Fd Item → Bool
  | .write _ _ | .share _ | .close _ => false
  | .poll | .read _ | .eof | .fail => true

def isPoll : ReadEvent Fd Item → Bool
  | .poll => true
  | _ => false

def isFail : ReadEvent Fd Item → Bool
  | .fail => true
  | _ => false

variable [DecidableEq Fd]

def dataOf (k : Fd) : ReadEvent Fd Item → List Item
  | .write i data => if i = k then data else []
  | _ => []

/-- What is written to a pipe in the course of the events. -/
def written (k : Fd) (events : List (ReadEvent Fd Item)) : List Item := events.flatMap (dataOf k)

end ReadEvent

namespace Reader

section Steps

variable [DecidableEq Fd]

def setPipe (r : Reader Fd Item) (k : Fd) (p : Pipe Item) : Reader Fd Item :=
  { r with pipes := Function.update r.pipes k p }

/-- Takes the items from the pipe. -/
def takes (r : Reader Fd Item) (k : Fd) (n : Nat) : Reader Fd Item where
  pipes := Function.update r.pipes k { r.pipes k with buffer := (r.pipes k).buffer.drop n }
  isOpen := r.isOpen
  sink := Function.update r.sink k (r.sink k ++ (r.pipes k).buffer.take n)
  todo := r.todo.tail

/-- Closes the pipe. -/
def drops (r : Reader Fd Item) (k : Fd) : Reader Fd Item :=
  { r with isOpen := Function.update r.isOpen k false, todo := r.todo.tail }

section Fields

variable {r : Reader Fd Item} {i k : Fd} {p : Pipe Item} {n : Nat}

@[simp] theorem setPipe_self : (r.setPipe k p).pipes k = p := Function.update_self ..

theorem setPipe_of_ne (other : i ≠ k) : (r.setPipe k p).pipes i = r.pipes i := Function.update_of_ne other ..

@[simp] theorem takes_self : (r.takes k n).pipes k = { r.pipes k with buffer := (r.pipes k).buffer.drop n } :=
  Function.update_self ..

theorem takes_of_ne (other : i ≠ k) : (r.takes k n).pipes i = r.pipes i := Function.update_of_ne other ..

@[simp] theorem takes_sink_self : (r.takes k n).sink k = r.sink k ++ (r.pipes k).buffer.take n := Function.update_self ..

theorem takes_sink_of_ne (other : i ≠ k) : (r.takes k n).sink i = r.sink i := Function.update_of_ne other ..

@[simp] theorem drops_self : (r.drops k).isOpen k = false := Function.update_self ..

theorem drops_of_ne (other : i ≠ k) : (r.drops k).isOpen i = r.isOpen i := Function.update_of_ne other ..

end Fields

/-- The pipes that make `poll` return, in its order. -/
def ready (fds : List Fd) (r : Reader Fd Item) : List Fd := fds.filter fun k => r.isOpen k && (r.pipes k).readable

/-- Pipes have the given capacity, reads ask for `chunk` items. -/
inductive Step (capacity chunk : Nat) (fds : List Fd) (r : Reader Fd Item) : ReadEvent Fd Item → Reader Fd Item → Prop where
  | write {k : Fd} {data : List Item} : 0 < (r.pipes k).writers →
      (r.pipes k).buffer.length + data.length ≤ capacity →
      Step capacity chunk fds r (.write k data) (r.setPipe k { r.pipes k with buffer := (r.pipes k).buffer ++ data })
  | share {k : Fd} : 0 < (r.pipes k).writers →
      Step capacity chunk fds r (.share k) (r.setPipe k { r.pipes k with writers := (r.pipes k).writers + 1 })
  | close {k : Fd} : 0 < (r.pipes k).writers →
      Step capacity chunk fds r (.close k) (r.setPipe k { r.pipes k with writers := (r.pipes k).writers - 1 })
  | poll : r.todo = [] → r.ready fds ≠ [] → Step capacity chunk fds r .poll { r with todo := r.ready fds }
  | read {k : Fd} {n : Nat} : r.todo.head? = some k → 0 < n → n ≤ chunk → n ≤ (r.pipes k).buffer.length →
      Step capacity chunk fds r (.read n) (r.takes k n)
  | eof {k : Fd} : r.todo.head? = some k → (r.pipes k).buffer = [] → (r.pipes k).writers = 0 →
      Step capacity chunk fds r .eof (r.drops k)
  | fail {k : Fd} : r.todo.head? = some k → Step capacity chunk fds r .fail (r.drops k)

end Steps

/-! ### What has been collected -/

section Collected

variable [DecidableEq Fd] {capacity chunk : Nat} {fds : List Fd} {opened : Fd → Bool} {r r' : Reader Fd Item}
  {e : ReadEvent Fd Item} {events : List (ReadEvent Fd Item)}

open ReadEvent

/-- What a reader that began with the pipes `opened`, all empty, has come to after the events. -/
structure Collecting (opened : Fd → Bool) (events : List (ReadEvent Fd Item)) (r : Reader Fd Item) : Prop where
  stream : ∀ k, r.sink k ++ (r.pipes k).buffer = written k events
  ready : ∀ k ∈ r.todo, r.isOpen k = true ∧ (r.pipes k).readable = true
  once : r.todo.Nodup
  within : ∀ k, r.isOpen k = true → opened k = true
  ended : (∀ e ∈ events, e.isFail = false) → ∀ k, opened k = true → r.isOpen k = false →
    (r.pipes k).buffer = [] ∧ (r.pipes k).writers = 0

theorem Collecting.start (writers : Fd → Nat) :
    Collecting opened [] ({ pipes := fun k => { writers := writers k }, isOpen := opened } : Reader Fd Item) where
  stream _ := rfl
  ready _ member := absurd member List.not_mem_nil
  once := List.nodup_nil
  within _ isOpen := isOpen
  ended _ _ isOpen closed := absurd (isOpen.symm.trans closed) nofun

theorem written_snoc (k : Fd) (events : List (ReadEvent Fd Item)) (e : ReadEvent Fd Item) :
    written k (events ++ [e]) = written k events ++ e.dataOf k := by
  rw [written, written, List.flatMap_append, List.flatMap_singleton]

/-- A writer changes a pipe that is not without writers. -/
theorem Collecting.setPipe (collecting : Collecting opened events r) {k : Fd} {p : Pipe Item} {data : List Item}
    (adds : ∀ i, e.dataOf i = if k = i then data else []) (buffer : p.buffer = (r.pipes k).buffer ++ data)
    (alive : 0 < (r.pipes k).writers) : Collecting opened (events ++ [e]) (r.setPipe k p) where
  stream i := by
    rw [written_snoc, adds, ← collecting.stream i, List.append_assoc]
    by_cases same : k = i
    · subst same
      rw [if_pos rfl, setPipe_self, buffer]
      rfl
    · rw [if_neg same, setPipe_of_ne (Ne.symm same), List.append_nil]
      rfl
  ready i member := by
    obtain ⟨isOpen, readable⟩ := collecting.ready i member
    refine ⟨isOpen, ?_⟩
    by_cases same : i = k
    · subst same
      have filled : (r.pipes i).buffer ≠ [] := (Pipe.readable_iff.mp readable).resolve_right alive.ne'
      rw [setPipe_self, Pipe.readable_iff, buffer]
      exact Or.inl (List.append_ne_nil_of_left_ne_nil filled _)
    · rw [setPipe_of_ne same]
      exact readable
  once := collecting.once
  within := collecting.within
  ended sound i isOpen closed := by
    have before := collecting.ended (fun e member => sound e (List.mem_append_left _ member)) i isOpen closed
    have other : i ≠ k := fun same => alive.ne' (same ▸ before.2)
    rw [setPipe_of_ne other]
    exact before

theorem Collecting.tail (collecting : Collecting opened events r) : r.todo.tail.Nodup :=
  collecting.once.sublist (List.tail_sublist _)

/-- A pipe that was found ready behind the next one is another. -/
theorem Collecting.later (collecting : Collecting opened events r) {i k : Fd} (next : r.todo.head? = some k)
    (member : i ∈ r.todo.tail) : i ∈ r.todo ∧ i ≠ k := by
  obtain ⟨rest, todo⟩ : ∃ rest, r.todo = k :: rest := List.head?_eq_some_iff.mp next
  have once := List.nodup_cons.mp (todo ▸ collecting.once)
  refine ⟨List.mem_of_mem_tail member, fun same => once.1 ?_⟩
  rw [todo] at member
  exact same ▸ member

/-- The reader closes the pipe it has come to. -/
theorem Collecting.drops (collecting : Collecting opened events r) {k : Fd} (quiet : ∀ i, e.dataOf i = [])
    (next : r.todo.head? = some k)
    (done : (∀ e' ∈ events ++ [e], e'.isFail = false) → (r.pipes k).buffer = [] ∧ (r.pipes k).writers = 0) :
    Collecting opened (events ++ [e]) (r.drops k) := by
  refine ⟨fun i => ?_, fun i member => ?_, collecting.tail, fun i isOpen => ?_, fun sound i isOpen closed => ?_⟩
  · rw [written_snoc, quiet, List.append_nil]
    exact collecting.stream i
  · obtain ⟨before, other⟩ := collecting.later next member
    rw [drops_of_ne other]
    exact collecting.ready i before
  · by_cases same : i = k
    · rw [same, drops_self] at isOpen
      cases isOpen
    · rw [drops_of_ne same] at isOpen
      exact collecting.within i isOpen
  · by_cases same : i = k
    · rw [same]
      exact done sound
    · rw [drops_of_ne same] at closed
      exact collecting.ended (fun e member => sound e (List.mem_append_left _ member)) i isOpen closed

theorem Collecting.step (distinct : fds.Nodup) (collecting : Collecting opened events r)
    (taken : Step capacity chunk fds r e r') : Collecting opened (events ++ [e]) r' := by
  have silent (quiet : ∀ k, e.dataOf k = []) (k : Fd) : written k (events ++ [e]) = written k events := by
    rw [written_snoc, quiet, List.append_nil]
  have sound_before (sound : ∀ e' ∈ events ++ [e], e'.isFail = false) : ∀ e ∈ events, e.isFail = false :=
    fun e member => sound e (List.mem_append_left _ member)
  cases taken with
  | write alive _ => exact collecting.setPipe (fun _ => rfl) rfl alive
  | share alive => exact collecting.setPipe (fun _ => (ite_self ([] : List Item)).symm) (List.append_nil _).symm alive
  | close alive => exact collecting.setPipe (fun _ => (ite_self ([] : List Item)).symm) (List.append_nil _).symm alive
  | poll _ _ =>
    exact {
      stream := fun k => by rw [silent (fun _ => rfl) k, ← collecting.stream k]
      ready := fun k member => by simpa using (List.mem_filter.mp member).2
      once := distinct.filter _
      within := collecting.within
      ended := fun sound => collecting.ended (sound_before sound) }
  | @read k n next _ _ _ =>
    have here := collecting.ready k (List.mem_of_mem_head? next)
    refine ⟨fun i => ?_, fun i member => ?_, collecting.tail, collecting.within, fun sound i isOpen closed => ?_⟩
    · rw [silent (fun _ => rfl) i, ← collecting.stream i]
      by_cases same : i = k
      · subst same
        rw [takes_self, takes_sink_self, List.append_assoc, List.take_append_drop]
      · rw [takes_of_ne same, takes_sink_of_ne same]
    · obtain ⟨before, other⟩ := collecting.later next member
      rw [takes_of_ne other]
      exact collecting.ready i before
    · have other : i ≠ k := fun same => by
        rw [same] at closed
        exact absurd (here.1.symm.trans closed) nofun
      rw [takes_of_ne other]
      exact collecting.ended (sound_before sound) i isOpen closed
  | eof next empty alone => exact collecting.drops (fun _ => rfl) next fun _ => ⟨empty, alone⟩
  | fail next =>
    refine collecting.drops (fun _ => rfl) next fun sound => ?_
    exact absurd (sound _ (List.mem_append_right _ (List.mem_singleton.mpr rfl))) nofun

/-- Nobody can write to a pipe without writers. -/
theorem Step.unused (taken : Step capacity chunk fds r e r') {k : Fd}
    (unused : (r.pipes k).buffer = [] ∧ (r.pipes k).writers = 0) :
    (r'.pipes k).buffer = [] ∧ (r'.pipes k).writers = 0 := by
  have elsewhere {i : Fd} (alive : 0 < (r.pipes i).writers) : k ≠ i := fun same => alive.ne' (same ▸ unused.2)
  cases taken with
  | write alive _ => rwa [setPipe_of_ne (elsewhere alive)]
  | share alive => rwa [setPipe_of_ne (elsewhere alive)]
  | close alive => rwa [setPipe_of_ne (elsewhere alive)]
  | @read i n _ _ _ _ =>
    by_cases same : k = i
    · subst same
      rw [takes_self, unused.1, List.drop_nil]
      exact ⟨rfl, unused.2⟩
    · rwa [takes_of_ne same]
  | _ => exact unused

/-- Writers leave to the reader what it has. -/
theorem Step.of_writer (taken : Step capacity chunk fds r e r') (others : e.own = false) :
    r'.sink = r.sink ∧ r'.isOpen = r.isOpen := by
  cases taken with
  | write _ _ => exact ⟨rfl, rfl⟩
  | share _ => exact ⟨rfl, rfl⟩
  | close _ => exact ⟨rfl, rfl⟩
  | _ => cases others

/-! ### No writer waits for good -/

/-- The reader comes to the next pipe it has found ready, and leaves the others alone. -/
theorem Collecting.next (capacity : Nat) (fds : List Fd) (collecting : Collecting opened events r) (asks : 0 < chunk) {k : Fd} {rest : List Fd}
    (todo : r.todo = k :: rest) : ∃ e r', Step capacity chunk fds r e r' ∧ (e.own = true ∧ e.isFail = false) ∧
      r'.todo = rest ∧ (∀ i, i ≠ k → r'.pipes i = r.pipes i ∧ r'.isOpen i = r.isOpen i) ∧
      ((r.pipes k).buffer ≠ [] → (r'.pipes k).buffer.length < (r.pipes k).buffer.length) := by
  have head : r.todo.head? = some k := by rw [todo]; rfl
  have readable := (collecting.ready k (todo ▸ List.mem_cons_self)).2
  cases buffer : (r.pipes k).buffer with
  | nil =>
    have alone : (r.pipes k).writers = 0 := (Pipe.readable_iff.mp readable).resolve_left (not_not.mpr buffer)
    exact ⟨.eof, _, .eof head buffer alone, ⟨rfl, rfl⟩, congrArg List.tail todo,
      fun i other => ⟨rfl, drops_of_ne other⟩, fun filled => absurd rfl filled⟩
  | cons item items =>
    refine ⟨.read 1, _, .read head Nat.one_pos asks (by rw [buffer]; exact Nat.succ_pos _), ⟨rfl, rfl⟩,
      congrArg List.tail todo, fun i other => ⟨takes_of_ne other, rfl⟩, fun _ => ?_⟩
    rw [takes_self, buffer]
    exact Nat.lt_succ_self _

/-- Steps of the reader alone, none of which fails. -/
def Alone (capacity chunk : Nat) (fds : List Fd) (r r' : Reader Fd Item) : Prop :=
  ∃ own, Runs (Step capacity chunk fds) r own r' ∧ ∀ e ∈ own, e.own = true ∧ e.isFail = false

theorem Alone.trans {r'' : Reader Fd Item} (first : Alone capacity chunk fds r r')
    (second : Alone capacity chunk fds r' r'') : Alone capacity chunk fds r r'' := by
  obtain ⟨own, run, all⟩ := first
  obtain ⟨own', run', all'⟩ := second
  exact ⟨own ++ own', run.trans run', List.forall_mem_append.mpr ⟨all, all'⟩⟩

theorem Alone.single (taken : Step capacity chunk fds r e r') (own : e.own = true ∧ e.isFail = false) :
    Alone capacity chunk fds r r' := ⟨[e], Runs.nil.snoc taken, List.forall_mem_singleton.mpr own⟩

/-- The reader comes past the pipes in front. -/
theorem Collecting.passes (capacity : Nat) (distinct : fds.Nodup) (asks : 0 < chunk) {pre post : List Fd}
    (collecting : Collecting opened events r) (todo : r.todo = pre ++ post) :
    ∃ r', Alone capacity chunk fds r r' ∧ (∃ events, Collecting opened events r') ∧ r'.todo = post ∧
      ∀ i, i ∉ pre → r'.pipes i = r.pipes i ∧ r'.isOpen i = r.isOpen i := by
  induction pre generalizing r events with
  | nil => exact ⟨r, ⟨[], .nil, List.forall_mem_nil _⟩, ⟨events, collecting⟩, todo, fun _ _ => ⟨rfl, rfl⟩⟩
  | cons k pre ih =>
    obtain ⟨e, r₁, taken, own, todo₁, others, -⟩ := collecting.next capacity fds asks todo
    obtain ⟨r₂, alone, collecting₂, todo₂, others₂⟩ := ih (collecting.step distinct taken) todo₁
    refine ⟨r₂, (Alone.single taken own).trans alone, collecting₂, todo₂, fun i out => ?_⟩
    obtain ⟨other, out⟩ := not_or.mp (mt List.mem_cons.mpr out)
    exact ⟨(others₂ i out).1.trans (others i other).1, (others₂ i out).2.trans (others i other).2⟩

/-- What is in an open pipe is taken out, however the writers go on. -/
theorem Collecting.drains (capacity : Nat) (distinct : fds.Nodup) (asks : 0 < chunk) (collecting : Collecting opened events r) {k : Fd}
    (listed : k ∈ fds) (isOpen : r.isOpen k = true) (filled : (r.pipes k).buffer ≠ []) :
    ∃ r', Alone capacity chunk fds r r' ∧ (r'.pipes k).buffer.length < (r.pipes k).buffer.length := by
  have found : ∀ {events} {r : Reader Fd Item}, Collecting opened events r → k ∈ r.todo → (r.pipes k).buffer ≠ [] →
      ∃ r', Alone capacity chunk fds r r' ∧ (r'.pipes k).buffer.length < (r.pipes k).buffer.length := by
    intro events r collecting member filled
    obtain ⟨pre, post, todo⟩ := List.append_of_mem member
    have front : k ∉ pre := fun before =>
      (List.nodup_append.mp (todo ▸ collecting.once)).2.2 k before k List.mem_cons_self rfl
    obtain ⟨r₁, alone, ⟨events₁, collecting₁⟩, todo₁, others⟩ :=
      collecting.passes capacity distinct asks todo
    obtain ⟨e, r₂, taken, own, -, -, less⟩ := collecting₁.next capacity fds asks todo₁
    have same := (others k front).1
    exact ⟨r₂, alone.trans (.single taken own), by rw [← same]; exact less (same ▸ filled)⟩
  by_cases member : k ∈ r.todo
  · exact found collecting member filled
  · -- it is found ready by the next wait
    obtain ⟨r₁, alone, ⟨events₁, collecting₁⟩, todo₁, others⟩ :=
      collecting.passes capacity distinct asks (List.append_nil r.todo).symm
    obtain ⟨same, still⟩ := others k member
    have ready : k ∈ r₁.ready fds := List.mem_filter.mpr ⟨listed, by
      rw [still, isOpen, same, Bool.true_and, Pipe.readable_iff]
      exact Or.inl filled⟩
    have polled : Step capacity chunk fds r₁ .poll { r₁ with todo := r₁.ready fds } :=
      .poll todo₁ (List.ne_nil_of_mem ready)
    obtain ⟨r₂, alone₂, less⟩ := found (collecting₁.step distinct polled) ready (same ▸ filled)
    exact ⟨r₂, (alone.trans (.single polled ⟨rfl, rfl⟩)).trans alone₂, same ▸ less⟩

/-! ### No wait is in vain -/

/-- What the reader has got out of its waits: items, and ends of pipes. -/
def gained [Fintype Fd] (r : Reader Fd Item) : Nat := ∑ k, ((r.sink k).length + (!r.isOpen k).toNat)

theorem gained_takes [Fintype Fd] {k : Fd} {n : Nat} (some_ : 0 < n) (there : n ≤ (r.pipes k).buffer.length) :
    r.gained < (r.takes k n).gained := by
  have items : ((r.takes k n).sink k).length = (r.sink k).length + n := by
    rw [takes_sink_self, List.length_append, List.length_take_of_le there]
  refine Finset.sum_lt_sum (fun i _ => ?_) ⟨k, Finset.mem_univ k, ?_⟩
  · by_cases same : i = k
    · subst same
      rw [items]
      exact Nat.add_le_add_right (Nat.le_add_right _ _) _
    · rw [takes_sink_of_ne same]
      exact le_rfl
  · rw [items]
    exact Nat.add_lt_add_right (Nat.lt_add_of_pos_right some_) _

theorem gained_drops [Fintype Fd] {k : Fd} (isOpen : r.isOpen k = true) : r.gained < (r.drops k).gained := by
  refine Finset.sum_lt_sum (fun i _ => ?_) ⟨k, Finset.mem_univ k, ?_⟩
  · by_cases same : i = k
    · subst same
      rw [isOpen]
      exact Nat.le_add_right _ _
    · rw [drops_of_ne same]
      exact le_rfl
  · rw [drops_self, isOpen]
    exact Nat.lt_succ_self _

/-- Each wait is followed by an item or by the end of a pipe. -/
theorem Collecting.polls_step [Fintype Fd] (collecting : Collecting opened events r)
    (taken : Step capacity chunk fds r e r')
    (bound : events.countP ReadEvent.isPoll ≤ r.gained + min 1 r.todo.length) :
    (events ++ [e]).countP ReadEvent.isPoll ≤ r'.gained + min 1 r'.todo.length := by
  rw [List.countP_append, List.countP_singleton]
  have closes {k : Fd} (head : r.todo.head? = some k) : r.gained < (r.drops k).gained :=
    gained_drops (collecting.ready k (List.mem_of_mem_head? head)).1
  cases taken with
  | write _ _ => exact bound
  | share _ => exact bound
  | close _ => exact bound
  | poll empty found =>
    have waiting := List.length_pos_of_ne_nil found
    rw [empty, List.length_nil] at bound
    simp only [ReadEvent.isPoll, if_true]
    change _ ≤ r.gained + min 1 (r.ready fds).length
    omega
  | read _ some_ _ there =>
    have more := gained_takes (r := r) some_ there
    simp only [ReadEvent.isPoll, Bool.false_eq_true, if_false]
    omega
  | eof head _ _ =>
    have more := closes head
    simp only [ReadEvent.isPoll, Bool.false_eq_true, if_false]
    omega
  | fail head =>
    have more := closes head
    simp only [ReadEvent.isPoll, Bool.false_eq_true, if_false]
    omega

end Collected

end Reader

end DistCompile.Lib
