import DistCompile.Lib.ParallelFor
import DistCompile.Preparation

/-!
The parallel loops of a build (`parallel_for` and steps 1 and 3 of `build` in `src/dcc.cpp`).

`DistCompile.Preparation` takes the units one after the other. In the code the threads of
`parallel_for` draw their indices from one counter, and each body reads and writes the unit of its
index. However the threads take turns, every body runs once, no two threads are at one unit, and
the units behind the loops are those of `prepare`.
-/

namespace DistCompile.Uploads

open DistCompile.Lib DistCompile.Incremental

section Bodies

variable (H : Sha256) (s : Setup) (e : Surroundings)

/-- `jobs`, from `-j` and the number of processors. -/
def jobsOf (requested : Int) (hardware : Nat) : Nat := if 0 < requested then requested.toNat else max 1 hardware

/-- The body of the loop over the units. -/
def keyBody (u : TextUnit) : TextUnit :=
  match reusable H s e u.src with
  | some old => reuseUnit u old
  | none => runPreprocess H s u (e.first u.src)

/-- The body of the loop over `need`. -/
def textBody (u : TextUnit) : TextUnit := if u.fresh then u else runPreprocess H s u (e.second u.src)

/-- The units before the loops. -/
def blankUnits (src : Str) : TextUnit := { src }

end Bodies

/-- `parallel_for` over the units `items`. -/
def ParallelFor {jobs : Nat} (items : List Str) (body : TextUnit → TextUnit) :
    Crew jobs Str TextUnit → CrewEvent jobs → Crew jobs Str TextUnit → Prop :=
  Crew.Step items fun _ => body

/-- However the threads take turns, the loop makes `after` of the units `before`. -/
structure Loops (jobs : Nat) (items : List Str) (body : TextUnit → TextUnit) (before after : Str → TextUnit) : Prop where
  ends : ∀ events (c : Crew jobs Str TextUnit), Runs (ParallelFor items body) { cells := before } events c →
    ∃ more c', Runs (ParallelFor items body) c more c' ∧ c'.Joined
  apart : ∀ events (c : Crew jobs Str TextUnit), Runs (ParallelFor items body) { cells := before } events c →
    ∀ t u i, c.hands t = .busy i → c.hands u = .busy i → t = u
  result : ∀ events (c : Crew jobs Str TextUnit), Runs (ParallelFor items body) { cells := before } events c → c.Joined →
    c.cells = after ∧ (Crew.finished events).Perm (List.range items.length) ∧ events.length = 2 * items.length + jobs

section Loops

variable {H : Sha256} {s : Setup} {e : Surroundings} {hits : List Str} {src : Str}

theorem jobsOf_pos (requested : Int) (hardware : Nat) : 0 < jobsOf requested hardware := by
  unfold jobsOf
  split <;> omega

/-- A loop over distinct units. -/
theorem Loops.of_nodup {jobs : Nat} (some_ : 0 < jobs) {items : List Str} (apart : items.Nodup) {body : TextUnit → TextUnit}
    {before after : Str → TextUnit} (made : ∀ src ∈ items, body (before src) = after src)
    (spared : ∀ src ∉ items, before src = after src) :
    Loops jobs items body before after where
  ends events c run := (Crew.run_working run apart).ends apart
  apart events c run := (Crew.run_working run apart).apart
  result events c run joined := by
    obtain ⟨perm, ⟨worked, kept⟩, none_left⟩ := (Crew.run_working run apart).joined some_ joined
    refine ⟨funext fun src => ?_, perm, ?_⟩
    · by_cases member : src ∈ items
      · exact (worked src member).trans (made src member)
      · exact (kept src member).trans (spared src member)
    have steps := Crew.run_left run
    have start : ({ cells := before } : Crew jobs Str TextUnit).left items = 2 * items.length + jobs := by
      simp [Crew.left, Hand.left]
    omega

theorem keyBody_blank (src : Str) : keyBody H s e (blankUnits src) = keyUnit H s e src := rfl

theorem runPreprocess_src (u : TextUnit) (outcome : Preprocessed) : (runPreprocess H s u outcome).src = u.src := by
  cases outcome <;> rfl

theorem firstUnits_src (src : Str) : (firstUnits H s e src).src = src := by
  rw [firstUnits]
  split
  · rw [keyUnit]
    split
    · rfl
    · exact runPreprocess_src _ _
  · rfl

/-- The parallel loops of a build leave the units that it goes on with in `prepare`, with any `-j`
and on any machine. -/
theorem parallel_loops_exact (H : Sha256) (s : Setup) (e : Surroundings) (hits : List Str) (requested : Int) (hardware : Nat) :
    Loops (jobsOf requested hardware) (unitSources s.m) (keyBody H s e) blankUnits (firstUnits H s e) ∧
      Loops (jobsOf requested hardware) (needed H s e hits) (textBody H s e) (firstUnits H s e) (secondUnits H s e hits) := by
  constructor
  · refine .of_nodup (jobsOf_pos _ _) (unitSources_nodup s.m) (fun src member => ?_) fun src absent => ?_
    · rw [keyBody_blank, firstUnits_unit member]
    · rw [firstUnits, if_neg absent, blankUnits]
  · refine .of_nodup (jobsOf_pos _ _) ((unitSources_nodup s.m).filter _) (fun src (member : src ∈ needed H s e hits) => ?_)
      fun src (absent : src ∉ needed H s e hits) => ?_
    · have stale : src ∈ textless H s e hits ↔ (firstUnits H s e src).fresh = false := by
        rw [textless, List.mem_filter, firstUnits_unit (unit_of_needed member)]
        simp [member]
      rw [secondUnits, textBody, firstUnits_src]
      cases fresh : (firstUnits H s e src).fresh <;> simp [stale, fresh]
    · have idle : src ∉ textless H s e hits := fun member => absent (List.mem_filter.mp member).1
      rw [secondUnits, if_neg idle]

end Loops

end DistCompile.Uploads
