import Mathlib.Data.List.Induction
import Mathlib.Tactic.Common

/-! Functions that are overwritten piece by piece.

A patch is a partial function; `overlays` writes patches over a function, one after the other. What the
result is at a place is decided by the last patch that is defined there (`overlays_last`), and where
none is, nothing has changed (`overlays_untouched`).
-/
namespace Overlay
set_option autoImplicit false

variable {ι α : Type*}

def overlay (f : ι → α) (patch : ι → Option α) : ι → α := fun i => (patch i).getD (f i)

def overlays (f : ι → α) (patches : List (ι → Option α)) : ι → α := patches.foldl overlay f

@[simp] theorem overlays_nil (f : ι → α) : overlays f [] = f := rfl

@[simp] theorem overlays_cons (f : ι → α) (patch : ι → Option α) (patches : List (ι → Option α)) :
    overlays f (patch :: patches) = overlays (overlay f patch) patches := rfl

theorem overlays_append (f : ι → α) (ps qs : List (ι → Option α)) :
    overlays f (ps ++ qs) = overlays (overlays f ps) qs := List.foldl_append

theorem overlay_of_some {f : ι → α} {patch : ι → Option α} {i : ι} {a : α} (h : patch i = some a) :
    overlay f patch i = a := by
  rw [overlay, h, Option.getD_some]

theorem overlay_of_none {f : ι → α} {patch : ι → Option α} {i : ι} (h : patch i = none) :
    overlay f patch i = f i := by
  rw [overlay, h, Option.getD_none]

theorem overlays_untouched {f : ι → α} {patches : List (ι → Option α)} {i : ι}
    (h : ∀ patch ∈ patches, patch i = none) : overlays f patches i = f i := by
  induction patches generalizing f with
  | nil => rfl
  | cons patch patches ih =>
    rw [overlays_cons, ih fun q hq => h q (List.mem_cons_of_mem _ hq)]
    exact overlay_of_none (h patch List.mem_cons_self)

theorem overlays_last {f : ι → α} {pre post : List (ι → Option α)} {patch : ι → Option α} {i : ι}
    {a : α} (h : patch i = some a) (hpost : ∀ q ∈ post, q i = none) :
    overlays f (pre ++ patch :: post) i = a := by
  rw [overlays_append, overlays_cons, overlays_untouched hpost]
  exact overlay_of_some h

/-- Every place either has the value of the last patch that is defined there, or is untouched. -/
theorem exists_last (patches : List (ι → Option α)) (i : ι) :
    (∃ pre patch post a, patches = pre ++ patch :: post ∧ patch i = some a ∧
      ∀ q ∈ post, q i = none) ∨ ∀ q ∈ patches, q i = none := by
  induction patches using List.reverseRecOn with
  | nil => exact .inr fun q hq => absurd hq List.not_mem_nil
  | append_singleton ps p ih =>
    cases hp : p i with
    | some a => exact .inl ⟨ps, p, [], a, rfl, hp, fun q hq => absurd hq List.not_mem_nil⟩
    | none =>
      have hlast : ∀ q ∈ [p], q i = none := fun q hq => List.mem_singleton.mp hq ▸ hp
      rcases ih with ⟨pre, q, post, a, rfl, hq, hpost⟩ | hnone
      · refine .inl ⟨pre, q, post ++ [p], a, by simp, hq, fun q' hq' => ?_⟩
        rcases List.mem_append.mp hq' with h | h
        · exact hpost q' h
        · exact hlast q' h
      · refine .inr fun q hq => ?_
        rcases List.mem_append.mp hq with h | h
        · exact hnone q h
        · exact hlast q h

/-! ## Lists as patches -/

/-- The list, from the place `a` on. -/
def window (a : ℕ) (xs : List α) : ℕ → Option α := fun i => if a ≤ i then xs[i - a]? else none

theorem window_add (a : ℕ) (xs : List α) (i : ℕ) : window a xs (a + i) = xs[i]? := by
  rw [window, if_pos (Nat.le_add_right a i), Nat.add_sub_cancel_left]

theorem window_eq_none_iff {a i : ℕ} {xs : List α} :
    window a xs i = none ↔ i < a ∨ a + xs.length ≤ i := by
  unfold window
  split
  · rw [List.getElem?_eq_none_iff]
    omega
  · simp only [true_iff]
    omega

end Overlay
