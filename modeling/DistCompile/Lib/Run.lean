import Mathlib.Data.List.Induction

/-!
Runs of a labelled transition relation.

A system is a relation `step s l s'`: in state `s` the event `l` may happen and
leads to `s'`. `Runs step s ls s'` says that the events `ls`, in this order, lead
from `s` to `s'`. A condition on the steps of a run is a second relation that
each of its steps has to meet (`Meets`), so a result about conditioned runs is a
result about `Runs (Meets step cond)`.
-/

namespace DistCompile.Lib

variable {State Label : Type*}

/-- The finite runs of `step`, with the events in the order they happened. -/
inductive Runs (step : State → Label → State → Prop) : State → List Label → State → Prop where
  | nil {s : State} : Runs step s [] s
  | snoc {s t u : State} {ls : List Label} {l : Label} :
      Runs step s ls t → step t l u → Runs step s (ls ++ [l]) u

/-- The steps of `step` that happen in a state, and with an event, meeting `cond`. -/
def Meets (step : State → Label → State → Prop) (cond : State → Label → Prop) :
    State → Label → State → Prop :=
  fun s l s' => cond s l ∧ step s l s'

namespace Runs

variable {step : State → Label → State → Prop} {cond : State → Label → Prop}
  {s t u : State} {ls ms : List Label}

/-- Run induction: what holds at the start and is kept by every step holds at
the end of every run. -/
theorem invariant {P : State → Prop} (run : Runs step s ls t) (start : P s)
    (keeps : ∀ {a l b}, step a l b → P a → P b) : P t := by
  induction run with
  | nil => exact start
  | snoc _ last ih => exact keeps last ih

theorem trans (first : Runs step s ls t) (second : Runs step t ms u) :
    Runs step s (ls ++ ms) u := by
  induction second with
  | nil => simpa using first
  | snoc _ last ih => rw [← List.append_assoc]; exact .snoc ih last

/-- A run passes through the states between its events. -/
theorem split (run : Runs step s (ls ++ ms) u) : ∃ t, Runs step s ls t ∧ Runs step t ms u := by
  induction ms using List.reverseRecOn generalizing u with
  | nil => exact ⟨u, by simpa using run, .nil⟩
  | append_singleton ms l ih =>
    rw [← List.append_assoc] at run
    generalize whole : ls ++ ms ++ [l] = events at run
    cases run with
    | nil => simp at whole
    | snoc before last =>
      obtain ⟨front, same⟩ := List.append_inj' whole rfl
      cases same
      obtain ⟨t, first, second⟩ := ih (front ▸ before)
      exact ⟨t, first, .snoc second last⟩

/-- The states around one event of a run. -/
theorem split_at {l : Label} (run : Runs step s (ls ++ l :: ms) u) :
    ∃ a b, Runs step s ls a ∧ step a l b ∧ Runs step b ms u := by
  rw [← List.singleton_append, ← List.append_assoc] at run
  obtain ⟨b, first, second⟩ := run.split
  generalize whole : ls ++ [l] = events at first
  cases first with
  | nil => simp at whole
  | snoc before last =>
    obtain ⟨front, same⟩ := List.append_inj' whole rfl
    cases same
    exact ⟨_, b, front ▸ before, last, second⟩

/-- A run of a relation is a run of every relation that allows its steps. -/
theorem mono {step' : State → Label → State → Prop} (run : Runs step s ls t)
    (allows : ∀ {a l b}, step a l b → step' a l b) : Runs step' s ls t := by
  induction run with
  | nil => exact .nil
  | snoc _ last ih => exact .snoc ih (allows last)

/-- A conditioned run is a run. -/
theorem forget (run : Runs (Meets step cond) s ls t) : Runs step s ls t := run.mono And.right

/-- A run whose events all meet a condition. -/
theorem meets {good : Label → Prop} (run : Runs step s ls t) (all : ∀ l ∈ ls, good l) :
    Runs (Meets step fun _ l => good l) s ls t := by
  induction run with
  | nil => exact .nil
  | snoc _ last ih =>
    exact .snoc (ih fun l hl => all l (by simp [hl])) ⟨all _ (by simp), last⟩

/-- A run of a step function is computed by folding it over the events. -/
theorem of_foldlM {next : State → Label → Option State} (computed : ls.foldlM next s = some t) :
    Runs (fun a l b => next a l = some b) s ls t := by
  induction ls using List.reverseRecOn generalizing t with
  | nil => cases computed; exact .nil
  | append_singleton ls l ih =>
    rw [List.foldlM_append] at computed
    cases h : ls.foldlM next s with
    | none => simp [h] at computed
    | some r => exact .snoc (ih h) (by simpa [h] using computed)

end Runs

/-! ### Folds that can fail -/

section Fold

variable {ε α β : Type*} {f : β → α → Except ε β} {l : List α} {a : α} {b c : β}

/-- The first step of a fold that succeeded. -/
theorem foldlM_cons_ok (ran : (a :: l).foldlM f b = .ok c) :
    ∃ d, f b a = .ok d ∧ l.foldlM f d = .ok c := by
  rw [List.foldlM_cons] at ran
  cases first : f b a with
  | error e =>
    rw [first] at ran
    cases ran
  | ok d =>
    rw [first] at ran
    exact ⟨d, rfl, ran⟩

theorem foldlM_cons_ok_iff : (a :: l).foldlM f b = .ok c ↔ ∃ d, f b a = .ok d ∧ l.foldlM f d = .ok c := by
  refine ⟨foldlM_cons_ok, fun ⟨d, first, rest⟩ => ?_⟩
  rw [List.foldlM_cons, first]
  exact rest

/-- A fold that succeeded is a run of its steps. -/
theorem Runs.of_foldlM_ok (computed : l.foldlM f b = .ok c) : Runs (fun b a d => f b a = .ok d) b l c := by
  induction l using List.reverseRecOn generalizing c with
  | nil =>
    cases computed
    exact .nil
  | append_singleton l a ih =>
    rw [List.foldlM_append] at computed
    cases before : l.foldlM f b with
    | error e =>
      rw [before] at computed
      cases computed
    | ok d =>
      rw [before] at computed
      obtain ⟨_, last, rest⟩ := foldlM_cons_ok computed
      cases rest
      exact .snoc (ih before) last

/-- What holds at the start and is kept by every step holds at the end. -/
theorem foldlM_ok {P : β → Prop} (keeps : ∀ {b d : β} {a : α}, a ∈ l → P b → f b a = .ok d → P d)
    (start : P b) (ran : l.foldlM f b = .ok c) : P c := by
  induction l generalizing b with
  | nil =>
    cases ran
    exact start
  | cons a l ih =>
    obtain ⟨d, first, rest⟩ := foldlM_cons_ok ran
    exact ih (fun member => keeps (List.mem_cons_of_mem a member)) (keeps (by simp) start first) rest

/-- A fold that failed did so at an element, in a state that was kept until then. -/
theorem foldlM_error {e : ε} {P : β → Prop} (keeps : ∀ {b d : β} {a : α}, P b → f b a = .ok d → P d)
    (start : P b) (failed : l.foldlM f b = .error e) : ∃ b a, a ∈ l ∧ P b ∧ f b a = .error e := by
  induction l generalizing b with
  | nil => cases failed
  | cons a l ih =>
    rw [List.foldlM_cons] at failed
    cases first : f b a with
    | error e' =>
      rw [first] at failed
      cases failed
      exact ⟨b, a, by simp, start, first⟩
    | ok d =>
      rw [first] at failed
      obtain ⟨b', a', member, holds, here⟩ := ih (keeps start first) failed
      exact ⟨b', a', List.mem_cons_of_mem a member, holds, here⟩

/-- A fold whose every step can be made, given what holds of the elements before it. -/
theorem foldlM_total {P : List α → β → Prop}
    (step : ∀ {pre : List α} {a : α} {post : List α} {b : β}, l = pre ++ a :: post → P pre b →
      ∃ d, f b a = .ok d ∧ P (pre ++ [a]) d)
    (start : P [] b) : ∃ c, l.foldlM f b = .ok c ∧ P l c := by
  have rest : ∀ (post pre : List α) (b : β), l = pre ++ post → P pre b →
      ∃ c, post.foldlM f b = .ok c ∧ P l c := by
    intro post
    induction post with
    | nil =>
      intro pre b split holds
      exact ⟨b, rfl, by rwa [split, List.append_nil]⟩
    | cons a post ih =>
      intro pre b split holds
      obtain ⟨d, first, next⟩ := step split holds
      obtain ⟨c, later, done⟩ := ih (pre ++ [a]) d (by simp [split]) next
      refine ⟨c, ?_, done⟩
      rw [List.foldlM_cons, first]
      exact later
  exact rest l [] b rfl start

end Fold

end DistCompile.Lib
