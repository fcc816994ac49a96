import DistCompile.Lib.Run
import Mathlib.Algebra.BigOperators.Group.Finset.Piecewise
import Mathlib.Data.Fintype.BigOperators
import Mathlib.Data.List.Nodup

/-!
A loop whose rounds are shared out among threads by a counter.

Every thread draws the next index from the counter, works on the place of that item, and goes on
until the index is behind the last item. In every interleaving each item is worked on once and by
one thread, the loop ends after the same number of steps, and the places are then what a loop in
order makes of them.
-/

namespace DistCompile.Lib

variable {Place Cell : Type*}

/-- A thread: between two rounds, in the round of an index, or behind the loop. -/
inductive Hand where
  | free
  | busy (i : Nat)
  | gone
deriving DecidableEq

/-- The steps until the thread is behind the loop, when it draws no further item. -/
def Hand.left : Hand → Nat
  | free => 1
  | busy _ => 2
  | gone => 0

/-- The counter, the threads and the places. -/
structure Crew (jobs : Nat) (Place Cell : Type*) where
  next : Nat := 0
  hands : Fin jobs → Hand := fun _ => .free
  cells : Place → Cell

inductive CrewEvent (jobs : Nat) where
  /-- the thread draws an index of the list -/
  | take (t : Fin jobs) (i : Nat)
  | finish (t : Fin jobs) (i : Nat)
  /-- the thread draws an index behind the list -/
  | leave (t : Fin jobs)

/-- The index whose round has ended. -/
def CrewEvent.finished? {jobs : Nat} : CrewEvent jobs → Option Nat
  | finish _ i => some i
  | take _ _ | leave _ => none

namespace Crew

variable {jobs : Nat}

def setHand (c : Crew jobs Place Cell) (t : Fin jobs) (h : Hand) : Crew jobs Place Cell :=
  { c with hands := Function.update c.hands t h }

/-- `f p` is the round of the item at place `p`. -/
inductive Step [DecidableEq Place] (items : List Place) (f : Place → Cell → Cell) (c : Crew jobs Place Cell) :
    CrewEvent jobs → Crew jobs Place Cell → Prop where
  | take {t : Fin jobs} : c.hands t = .free → c.next < items.length →
      Step items f c (.take t c.next) { c.setHand t (.busy c.next) with next := c.next + 1 }
  | finish {t : Fin jobs} {i : Nat} {p : Place} : c.hands t = .busy i → items[i]? = some p →
      Step items f c (.finish t i) { c.setHand t .free with cells := Function.update c.cells p (f p (c.cells p)) }
  | leave {t : Fin jobs} : c.hands t = .free → items.length ≤ c.next →
      Step items f c (.leave t) { c.setHand t .gone with next := c.next + 1 }

/-- All threads have left the loop. -/
def Joined (c : Crew jobs Place Cell) : Prop := ∀ t, c.hands t = .gone

/-- The rounds that have ended, in this order. -/
def finished (events : List (CrewEvent jobs)) : List Nat := events.filterMap CrewEvent.finished?

/-- What holds during the loop, when the rounds of `ended` have ended. -/
structure Working (items : List Place) (f : Place → Cell → Cell) (before : Place → Cell) (ended : List Nat)
    (c : Crew jobs Place Cell) : Prop where
  drawn : ∀ t i, c.hands t = .busy i → i < c.next ∧ i < items.length
  apart : ∀ t u i, c.hands t = .busy i → c.hands u = .busy i → t = u
  once : ended.Nodup
  mem : ∀ i, i ∈ ended ↔ (i < c.next ∧ i < items.length) ∧ ∀ t, c.hands t ≠ .busy i
  gone : ∀ t, c.hands t = .gone → items.length ≤ c.next
  worked : ∀ i ∈ ended, ∀ p, items[i]? = some p → c.cells p = f p (before p)
  spared : ∀ p, (∀ i ∈ ended, items[i]? ≠ some p) → c.cells p = before p

/-- The steps that are left. -/
def left (items : List Place) (c : Crew jobs Place Cell) : Nat := 2 * (items.length - c.next) + ∑ t, (c.hands t).left

theorem setHand_hands (c : Crew jobs Place Cell) (t u : Fin jobs) (h : Hand) :
    (c.setHand t h).hands u = if u = t then h else c.hands u := by
  simp [setHand, Function.update_apply]

theorem sum_left (hands : Fin jobs → Hand) (t : Fin jobs) (h : Hand) :
    ∑ u, (Function.update hands t h u).left + (hands t).left = ∑ u, (hands u).left + h.left := by
  have rest : ∑ u ∈ {t}ᶜ, (Function.update hands t h u).left = ∑ u ∈ {t}ᶜ, (hands u).left :=
    Finset.sum_congr rfl fun u member => by
      rw [Function.update_of_ne (by simpa using member)]
  rw [Fintype.sum_eq_add_sum_compl t, Fintype.sum_eq_add_sum_compl t fun u => (hands u).left, rest,
    Function.update_self]
  omega

section Working

variable [DecidableEq Place] {items : List Place} {f : Place → Cell → Cell} {before : Place → Cell} {ended : List Nat}
  {c c' : Crew jobs Place Cell} {e : CrewEvent jobs} {events : List (CrewEvent jobs)}

omit [DecidableEq Place] in
theorem working_start : Working items f before [] ({ cells := before } : Crew jobs Place Cell) :=
  ⟨by simp, by simp, List.nodup_nil, by simp, by simp, by simp, by simp⟩

theorem Step.working (step : Step items f c e c') (apart : items.Nodup) (working : c.Working items f before ended) :
    c'.Working items f before (ended ++ e.finished?.toList) := by
  have place_inj : ∀ {i j p}, items[i]? = some p → items[j]? = some p → i = j := fun first second =>
    (List.getElem?_inj (List.getElem?_eq_some_iff.mp first).1 apart).mp (first.trans second.symm)
  cases step with
  | @take t free more =>
    have end_ : ended ++ (CrewEvent.take t c.next).finished?.toList = ended := List.append_nil ended
    rw [end_]
    refine ⟨fun u i busy => ?_, fun u v i busy busy' => ?_, working.once, fun i => ?_, fun u gone => ?_, working.worked,
      working.spared⟩
    · simp only [setHand_hands] at busy
      split at busy
      · cases busy
        exact ⟨Nat.lt_succ_self _, more⟩
      · exact ⟨Nat.lt_succ_of_lt (working.drawn u i busy).1, (working.drawn u i busy).2⟩
    · simp only [setHand_hands] at busy busy'
      split at busy <;> split at busy'
      · rename_i here there
        exact here.trans there.symm
      · cases busy
        exact absurd (working.drawn v _ busy').1 (lt_irrefl _)
      · cases busy'
        exact absurd (working.drawn u _ busy).1 (lt_irrefl _)
      · exact working.apart u v i busy busy'
    · rw [working.mem i]
      constructor
      · rintro ⟨⟨drawn, small⟩, idle⟩
        refine ⟨⟨Nat.lt_succ_of_lt drawn, small⟩, fun u busy => ?_⟩
        simp only [setHand_hands] at busy
        split at busy
        · cases busy
          exact lt_irrefl _ drawn
        · exact idle u busy
      · rintro ⟨⟨drawn, small⟩, idle⟩
        have other : i ≠ c.next := by
          rintro rfl
          exact idle t (by simp [setHand])
        refine ⟨⟨by dsimp only at drawn; omega, small⟩, fun u busy => ?_⟩
        by_cases here : u = t
        · rw [here, free] at busy
          cases busy
        · exact idle u (by simp [setHand_hands, here, busy])
    · simp only [setHand_hands] at gone
      split at gone
      · cases gone
      · exact Nat.le_succ_of_le (working.gone u gone)
  | @finish t i p busy place =>
    have fresh : i ∉ ended := fun member => ((working.mem i).mp member).2 t busy
    have still : ∀ u j, (c.setHand t .free).hands u = .busy j → u ≠ t ∧ c.hands u = .busy j := by
      intro u j held
      simp only [setHand_hands] at held
      split at held
      · cases held
      · exact ⟨by assumption, held⟩
    refine ⟨fun u j held => working.drawn u j (still u j held).2, fun u v j held held' =>
      working.apart u v j (still u j held).2 (still v j held').2, ?_, fun j => ?_, fun u gone => ?_,
      fun j member q here => ?_, fun q spared => ?_⟩
    · exact List.nodup_append.mpr ⟨working.once, List.nodup_singleton i, fun j old k new => by
        rintro rfl
        exact fresh (List.mem_singleton.mp new ▸ old)⟩
    · rw [List.mem_append, working.mem j]
      constructor
      · rintro (⟨bounds, idle⟩ | new)
        · exact ⟨bounds, fun u held => idle u (still u j held).2⟩
        · obtain rfl := List.mem_singleton.mp new
          exact ⟨working.drawn t j busy, fun u held => (still u j held).1 (working.apart u t j (still u j held).2 busy)⟩
      · rintro ⟨bounds, idle⟩
        by_cases here : j = i
        · exact Or.inr (List.mem_singleton.mpr here)
        · refine Or.inl ⟨bounds, fun u held => ?_⟩
          by_cases own : u = t
          · rw [own, busy] at held
            exact here (Hand.busy.inj held).symm
          · exact idle u (by simp [setHand_hands, own, held])
    · simp only [setHand_hands] at gone
      split at gone
      · cases gone
      · exact working.gone u gone
    · by_cases same : q = p
      · subst same
        obtain rfl := place_inj here place
        have untouched : c.cells q = before q := working.spared q fun k old there =>
          fresh (place_inj place there ▸ old)
        simp [untouched]
      · have old : j ∈ ended := by
          rcases List.mem_append.mp member with old | new
          · exact old
          · rw [List.mem_singleton.mp new, place] at here
            exact absurd (Option.some.inj here).symm same
        exact (Function.update_of_ne same _ _).trans (working.worked j old q here)
    · have other : q ≠ p := by
        rintro rfl
        exact spared i (List.mem_append_right _ (List.mem_singleton_self i)) place
      exact (Function.update_of_ne other _ _).trans (working.spared q fun j old => spared j (List.mem_append_left _ old))
  | @leave t free behind =>
    have end_ : ended ++ (CrewEvent.leave t).finished?.toList = ended := List.append_nil ended
    have still : ∀ u i, (c.setHand t .gone).hands u = .busy i ↔ c.hands u = .busy i := by
      intro u i
      rw [setHand_hands]
      split
      · rename_i here
        rw [here, free]
        simp
      · rfl
    rw [end_]
    refine ⟨fun u i busy => ?_, fun u v i busy busy' => ?_, working.once, fun i => ?_, fun u gone => ?_, working.worked,
      working.spared⟩
    · have drawn := working.drawn u i ((still u i).mp busy)
      exact ⟨Nat.lt_succ_of_lt drawn.1, drawn.2⟩
    · exact working.apart u v i ((still u i).mp busy) ((still v i).mp busy')
    · rw [working.mem i]
      simp only [ne_eq, still]
      exact and_congr_left fun _ => ⟨fun bounds => ⟨Nat.lt_succ_of_lt bounds.1, bounds.2⟩,
        fun bounds => ⟨lt_of_lt_of_le bounds.2 behind, bounds.2⟩⟩
    · exact Nat.le_succ_of_le behind

theorem Step.left (step : Step items f c e c') : c'.left items + 1 = c.left items := by
  cases step with
  | @take t free more =>
    have sum := sum_left c.hands t (.busy c.next)
    rw [free] at sum
    simp only [Crew.left, setHand, Hand.left] at sum ⊢
    omega
  | @finish t i p busy place =>
    have sum := sum_left c.hands t .free
    rw [busy] at sum
    simp only [Crew.left, setHand, Hand.left] at sum ⊢
    omega
  | @leave t free behind =>
    have sum := sum_left c.hands t .gone
    rw [free] at sum
    simp only [Crew.left, setHand, Hand.left] at sum ⊢
    omega

theorem run_working (run : Runs (Step items f) ({ cells := before } : Crew jobs Place Cell) events c) (apart : items.Nodup) :
    c.Working items f before (finished events) := by
  induction run with
  | nil => exact working_start
  | @snoc c d events e _ last ih =>
    have split : finished (events ++ [e]) = finished events ++ e.finished?.toList := by
      cases ends : e.finished? <;> simp [finished, ends]
    rw [split]
    exact last.working apart ih

theorem run_left (run : Runs (Step items f) c events c') : c'.left items + events.length = c.left items := by
  induction run with
  | nil => rfl
  | snoc _ last ih =>
    rw [List.length_append, List.length_singleton, ← ih, ← last.left]
    omega

/-- As long as a thread is in the loop there is a step. -/
theorem Working.continues (working : c.Working items f before ended) {t : Fin jobs} (inside : c.hands t ≠ .gone) :
    ∃ e c', Step items f c e c' := by
  cases hand : c.hands t with
  | gone => exact absurd hand inside
  | free =>
    rcases Nat.lt_or_ge c.next items.length with more | behind
    · exact ⟨_, _, .take hand more⟩
    · exact ⟨_, _, .leave hand behind⟩
  | busy i =>
    exact ⟨_, _, .finish hand (List.getElem?_eq_getElem (working.drawn t i hand).2)⟩

/-- Every run can go on to the end of the loop. -/
theorem Working.ends (working : c.Working items f before ended) (apart : items.Nodup) :
    ∃ events c', Runs (Step items f) c events c' ∧ c'.Joined := by
  induction size : c.left items generalizing c ended with
  | zero =>
    refine ⟨[], c, .nil, fun t => ?_⟩
    by_contra inside
    obtain ⟨e, c', step⟩ := working.continues inside
    have := step.left
    omega
  | succ k ih =>
    by_cases joined : c.Joined
    · exact ⟨[], c, .nil, joined⟩
    · obtain ⟨t, inside⟩ := not_forall.mp joined
      obtain ⟨e, c', step⟩ := working.continues inside
      have less := step.left
      obtain ⟨events, c'', run, joined'⟩ := ih (step.working apart working) (by omega)
      exact ⟨[e] ++ events, c'', Runs.trans (Runs.nil.snoc step) run, joined'⟩

omit [DecidableEq Place] in
/-- Behind the loop every item has been worked on once, and nothing else. -/
theorem Working.joined (working : c.Working items f before ended) (some_ : 0 < jobs) (joined : c.Joined) :
    ended.Perm (List.range items.length) ∧ ((∀ p ∈ items, c.cells p = f p (before p)) ∧ ∀ p ∉ items, c.cells p = before p) ∧
      c.left items = 0 := by
  have behind : items.length ≤ c.next := working.gone ⟨0, some_⟩ (joined _)
  have all : ∀ i, i ∈ ended ↔ i < items.length := by
    intro i
    rw [working.mem i]
    refine ⟨fun member => member.1.2, fun small => ⟨⟨lt_of_lt_of_le small behind, small⟩, fun t busy => ?_⟩⟩
    rw [joined t] at busy
    cases busy
  refine ⟨(List.perm_ext_iff_of_nodup working.once List.nodup_range).mpr fun i => by rw [all, List.mem_range], ⟨fun p member => ?_,
    fun p absent => working.spared p fun i _ here => absent (List.mem_of_getElem? here)⟩, ?_⟩
  · obtain ⟨i, here⟩ := List.mem_iff_getElem?.mp member
    exact working.worked i ((all i).mpr (List.getElem?_eq_some_iff.mp here).1) p here
  · have hands : ∀ t, (c.hands t).left = 0 := fun t => by
      rw [joined t]
      rfl
    simp [left, hands, behind]

end Working

end Crew

end DistCompile.Lib
