import DistCompile.Lib.Run
import Mathlib.Data.Nat.Basic
import Mathlib.Logic.Function.Basic
import Mathlib.Logic.Relation

/-!
An event count: threads that look for something and sleep until it may be there.

A thread reads the count, looks, and sleeps if it has found nothing and the count is still the
same. Whoever changes what is looked at raises the count afterwards and then signals the sleepers.
Between the change and the signal others go on. The count is what closes the gap between a look
and the sleep after it: nobody sleeps on a look that is out of date, but for changes whose signal
is still under way (`Board.Reached.sleeper`).

What is shared, what a look is and which changes owe a signal are arguments. A change that owes
none must add nothing to find, or leave the signal to a later one (`Law.stays`).
-/

namespace DistCompile.Lib

variable {σ Look : Type*}

/-- Where a thread is: the count it has read, and what it saw when it looked. -/
inductive Sleeper (Look : Type*) where
  | out
  | armed (seen : Nat)
  | missed (seen : Nat) (look : Look)
  | asleep (seen : Nat) (look : Look)
  | woken (seen : Nat) (look : Look)

namespace Sleeper

/-- The count it has read. -/
def seen? : Sleeper Look → Option Nat
  | out => none
  | armed seen | missed seen _ | asleep seen _ | woken seen _ => some seen

/-- Its last look in this round. -/
def look? : Sleeper Look → Option Look
  | out | armed _ => none
  | missed _ look | asleep _ look | woken _ look => some look

/-- A signal. -/
def signal : Sleeper Look → Sleeper Look
  | asleep seen look => woken seen look
  | other => other

@[simp] theorem signal_seen? (s : Sleeper Look) : s.signal.seen? = s.seen? := by cases s <;> rfl

@[simp] theorem signal_look? (s : Sleeper Look) : s.signal.look? = s.look? := by cases s <;> rfl

end Sleeper

/-- What is shared, the count, the changes that still have to raise it, the signals that still have
to be sent, and the threads. -/
structure Board (σ Look : Type*) where
  shared : σ
  count : Nat := 0
  owed : Nat := 0
  signals : Nat := 0
  threads : Nat → Sleeper Look := fun _ => .out

namespace Board

def setThread (b : Board σ Look) (j : Nat) (s : Sleeper Look) : Board σ Look :=
  { b with threads := Function.update b.threads j s }

/-- `change s owes s'` are the changes of what is shared, `misses j s look` the looks of thread `j`
that find nothing. -/
inductive Step (change : σ → Bool → σ → Prop) (misses : Nat → σ → Look → Prop) (b : Board σ Look) : Board σ Look → Prop where
  | change {s' : σ} {owes : Bool} : change b.shared owes s' →
      Step change misses b { b with shared := s', owed := b.owed + owes.toNat }
  | raise : 0 < b.owed → Step change misses b { b with count := b.count + 1, owed := b.owed - 1, signals := b.signals + 1 }
  | signal : 0 < b.signals →
      Step change misses b { b with signals := b.signals - 1, threads := fun j => (b.threads j).signal }
  | arm {j : Nat} : b.threads j = .out → Step change misses b (b.setThread j (.armed b.count))
  | look {j seen : Nat} {look : Look} : b.threads j = .armed seen → misses j b.shared look →
      Step change misses b (b.setThread j (.missed seen look))
  | leave {j : Nat} : Step change misses b (b.setThread j .out)
  | sleep {j seen : Nat} {look : Look} : b.threads j = .missed seen look ∨ b.threads j = .woken seen look → seen = b.count →
      Step change misses b (b.setThread j (.asleep seen look))
  /-- a signal that nobody has sent -/
  | spurious {j seen : Nat} {look : Look} : b.threads j = .asleep seen look →
      Step change misses b (b.setThread j (.woken seen look))
  | restart {s' : σ} : Step change misses b { shared := s' }

/-- What the changes have to obey: `covers look s` says that `look` has seen all there is in `s`. -/
structure Law (change : σ → Bool → σ → Prop) (misses : Nat → σ → Look → Prop) (pending : σ → Prop)
    (covers : Look → σ → Prop) : Prop where
  sees : ∀ {j s look}, misses j s look → covers look s
  stays : ∀ {s s'}, change s false s' → pending s → pending s'
  adds : ∀ {s s' look}, change s false s' → ¬ pending s' → covers look s → covers look s'

/-- What holds in every state that can be reached. -/
structure Reached (misses : Nat → σ → Look → Prop) (pending : σ → Prop) (covers : Look → σ → Prop) (b : Board σ Look) :
    Prop where
  seen : ∀ j seen, (b.threads j).seen? = some seen → seen ≤ b.count
  missed : ∀ j look, (b.threads j).look? = some look → ∃ s, misses j s look
  covered : ∀ j look, (b.threads j).look? = some look → (b.threads j).seen? = some b.count → b.owed = 0 →
    ¬ pending b.shared → covers look b.shared
  asleep : ∀ j seen look, b.threads j = .asleep seen look → seen = b.count ∨ 0 < b.signals

section Reached

variable {change : σ → Bool → σ → Prop} {misses : Nat → σ → Look → Prop} {pending : σ → Prop} {covers : Look → σ → Prop}
  {b b' : Board σ Look} {j : Nat} {s : Sleeper Look}

theorem setThread_threads (i : Nat) : (b.setThread j s).threads i = if i = j then s else b.threads i := by
  simp [setThread, Function.update_apply]

/-- A thread moves on. What it has read and seen has to hold. -/
theorem Reached.setThread (reached : b.Reached misses pending covers) (seen : ∀ n, s.seen? = some n → n ≤ b.count)
    (missed : ∀ look, s.look? = some look → (∃ s, misses j s look) ∧
      (s.seen? = some b.count → b.owed = 0 → ¬ pending b.shared → covers look b.shared))
    (asleep : ∀ n look, s = .asleep n look → n = b.count ∨ 0 < b.signals) :
    (b.setThread j s).Reached misses pending covers where
  seen i n := by
    rw [setThread_threads]
    split
    · exact seen n
    · exact reached.seen i n
  missed i look := by
    rw [setThread_threads]
    split
    · rename_i here
      exact fun is => here ▸ (missed look is).1
    · exact reached.missed i look
  covered i look := by
    rw [setThread_threads]
    split
    · exact fun is => (missed look is).2
    · exact reached.covered i look
  asleep i n look := by
    rw [setThread_threads]
    split
    · exact asleep n look
    · exact reached.asleep i n look

theorem Step.reached (law : Law change misses pending covers) (step : Step change misses b b')
    (reached : b.Reached misses pending covers) : b'.Reached misses pending covers := by
  cases step with
  | @change s' owes changes =>
    refine ⟨reached.seen, reached.missed, fun j look is current owed quiet => ?_, reached.asleep⟩
    cases owes with
    | true => cases owed
    | false =>
      have before : covers look b.shared :=
        reached.covered j look is current owed fun pending => quiet (law.stays changes pending)
      exact law.adds changes quiet before
  | raise owed =>
    refine ⟨fun j seen is => Nat.le_succ_of_le (reached.seen j seen is), reached.missed,
      fun j look _ current => ?_, fun _ _ _ _ => Or.inr (Nat.succ_pos _)⟩
    -- nobody has read the count that comes now
    exact absurd (reached.seen j _ current) (Nat.not_succ_le_self _)
  | signal sent =>
    refine ⟨fun j seen is => ?_, fun j look is => ?_, fun j look is current => ?_, fun j seen look is => ?_⟩
    · exact reached.seen j seen (by simpa using is)
    · exact reached.missed j look (by simpa using is)
    · exact reached.covered j look (by simpa using is) (by simpa using current)
    · exfalso
      change (b.threads j).signal = .asleep seen look at is
      cases phase : b.threads j <;> rw [phase] at is <;> cases is
  | arm out =>
    exact reached.setThread (fun n is => Nat.le_of_eq (Option.some.inj is).symm) (fun look is => by cases is) fun n look is => by cases is
  | @look j seen look armed misses =>
    refine reached.setThread (fun n is => reached.seen j n (armed ▸ is)) (fun look' is => ?_) fun n look is => by cases is
    cases is
    exact ⟨⟨b.shared, misses⟩, fun _ _ _ => law.sees misses⟩
  | leave =>
    exact reached.setThread (fun n is => by cases is) (fun look is => by cases is) fun n look is => by cases is
  | @sleep j seen look place current =>
    have is : (b.threads j).seen? = some seen ∧ (b.threads j).look? = some look := by
      rcases place with phase | phase <;> rw [phase] <;> exact ⟨rfl, rfl⟩
    refine reached.setThread (fun n same => reached.seen j n (is.1.trans same)) (fun look' same => ?_)
      fun n look' same => by cases same; exact Or.inl current
    cases same
    exact ⟨reached.missed j look is.2, fun now => reached.covered j look is.2 (is.1.trans now)⟩
  | @spurious j seen look phase =>
    have is : (b.threads j).seen? = some seen ∧ (b.threads j).look? = some look := by
      rw [phase]
      exact ⟨rfl, rfl⟩
    refine reached.setThread (fun n same => reached.seen j n (is.1.trans same)) (fun look' same => ?_)
      fun n look' same => by cases same
    cases same
    exact ⟨reached.missed j look is.2, fun now => reached.covered j look is.2 (is.1.trans now)⟩
  | restart => exact ⟨by simp [Sleeper.seen?], by simp [Sleeper.look?], by simp [Sleeper.look?], by simp⟩

/-- At the start nobody has looked. -/
theorem reached_start (s : σ) : Board.Reached misses pending covers { shared := s } :=
  ⟨by simp [Sleeper.seen?], by simp [Sleeper.look?], by simp [Sleeper.look?], by simp⟩

theorem Reached.steps (law : Law change misses pending covers) (reached : b.Reached misses pending covers)
    (steps : Relation.ReflTransGen (Step change misses) b b') : b'.Reached misses pending covers := by
  induction steps with
  | refl => exact reached
  | tail _ last ih => exact last.reached law ih

/-- Nobody sleeps on a look that is out of date while no signal is under way. -/
theorem Reached.sleeper (reached : b.Reached misses pending covers) {seen : Nat} {look : Look}
    (asleep : b.threads j = .asleep seen look) (owed : b.owed = 0) (signals : b.signals = 0) (quiet : ¬ pending b.shared) :
    (∃ s, misses j s look) ∧ covers look b.shared := by
  have is : (b.threads j).seen? = some seen ∧ (b.threads j).look? = some look := by
    rw [asleep]
    exact ⟨rfl, rfl⟩
  have current : seen = b.count := by
    rcases reached.asleep j seen look asleep with same | sent
    · exact same
    · omega
  exact ⟨reached.missed j look is.2, reached.covered j look is.2 (by rw [is.1, current]) owed quiet⟩

end Reached

end Board

end DistCompile.Lib
