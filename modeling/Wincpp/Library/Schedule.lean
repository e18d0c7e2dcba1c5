import Mathlib.Data.List.Basic
import Mathlib.Tactic.Common

/-! Interleavings.

Several parties share a state; `step s i` is what the state becomes when the party `i` takes its next
step. A schedule lists the parties in the order in which they move, so that the runs of all schedules
are all the interleavings.
-/
namespace Schedule
set_option autoImplicit false

variable {σ ι : Type*} (step : σ → ι → σ)

def run (s : σ) (schedule : List ι) : σ := schedule.foldl step s

@[simp] theorem run_nil (s : σ) : run step s [] = s := rfl

@[simp] theorem run_cons (s : σ) (i : ι) (schedule : List ι) :
    run step s (i :: schedule) = run step (step s i) schedule := rfl

theorem run_append (s : σ) (xs ys : List ι) :
    run step s (xs ++ ys) = run step (run step s xs) ys := List.foldl_append

variable {step}

/-- What every step keeps, every interleaving keeps. -/
theorem run_keeps {inv : σ → Prop} (hstep : ∀ s i, inv s → inv (step s i)) {s : σ} (hs : inv s)
    (schedule : List ι) : inv (run step s schedule) := by
  induction schedule generalizing s with
  | nil => exact hs
  | cons i schedule ih => exact ih (hstep s i hs)

theorem run_unchanged {α : Type*} (view : σ → α) {i : ι}
    (hother : ∀ s j, j ≠ i → view (step s j) = view s) {schedule : List ι} (h : i ∉ schedule) (s : σ) :
    view (run step s schedule) = view s := by
  induction schedule generalizing s with
  | nil => rfl
  | cons j schedule ih =>
    rw [List.mem_cons, not_or] at h
    rw [run_cons, ih h.2, hother s j (Ne.symm h.1)]

/-- If the party `i` gets closer to its end with each of its own steps, and no other step takes it
further away, the number of its steps bounds what is left to it. -/
theorem run_rank_le [DecidableEq ι] (rank : σ → ℕ) {i : ι}
    (hown : ∀ s, rank (step s i) ≤ rank s - 1) (hother : ∀ s j, j ≠ i → rank (step s j) ≤ rank s)
    (s : σ) (schedule : List ι) : rank (run step s schedule) ≤ rank s - schedule.count i := by
  induction schedule generalizing s with
  | nil => exact Nat.le_refl _
  | cons j schedule ih =>
    have hrest := ih (step s j)
    rw [run_cons]
    by_cases hj : j = i
    · subst hj
      have := hown s
      rw [List.count_cons_self]
      omega
    · have := hother s j hj
      rw [List.count_cons_of_ne hj]
      omega

end Schedule
