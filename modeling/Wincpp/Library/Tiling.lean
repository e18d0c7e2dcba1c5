import Mathlib.Algebra.Order.Ring.Nat
import Mathlib.Tactic.Common

/-! Tilings of an interval of natural numbers by labelled intervals, from left to right. -/
namespace Tiling
set_option autoImplicit false

structure Tile (α : Type*) where
  base : ℕ
  size : ℕ
  label : α
  deriving DecidableEq, Repr

variable {α : Type*}

def Tile.stop (t : Tile α) : ℕ := t.base + t.size

/-- The tiles are non-empty and cover `[b, e)` one after the other. -/
def Tiles : ℕ → List (Tile α) → ℕ → Prop
  | b, [], e => b = e
  | b, t :: ts, e => t.base = b ∧ 0 < t.size ∧ Tiles t.stop ts e

instance Tiles.decidable : (b : ℕ) → (ts : List (Tile α)) → (e : ℕ) → Decidable (Tiles b ts e)
  | b, [], e => inferInstanceAs (Decidable (b = e))
  | b, t :: ts, e =>
    have := Tiles.decidable t.stop ts e
    inferInstanceAs (Decidable (t.base = b ∧ 0 < t.size ∧ Tiles t.stop ts e))

namespace Tiles
variable {b e : ℕ} {ts : List (Tile α)}

theorem le (h : Tiles b ts e) : b ≤ e := by
  induction ts generalizing b with
  | nil => exact h.le
  | cons t ts ih =>
    obtain ⟨hb, hs, ht⟩ := h
    have := ih ht
    unfold Tile.stop at this
    omega

theorem append {us : List (Tile α)} (h : Tiles b (ts ++ us) e) :
    ∃ m, Tiles b ts m ∧ Tiles m us e := by
  induction ts generalizing b with
  | nil => exact ⟨b, rfl, h⟩
  | cons t ts ih =>
    obtain ⟨hb, hs, ht⟩ := h
    obtain ⟨m, hm, hu⟩ := ih ht
    exact ⟨m, ⟨hb, hs, hm⟩, hu⟩

theorem mem (h : Tiles b ts e) : ∀ t ∈ ts, b ≤ t.base ∧ 0 < t.size ∧ t.stop ≤ e := by
  induction ts generalizing b with
  | nil => intro t ht; cases ht
  | cons t ts ih =>
    obtain ⟨hb, hs, ht⟩ := h
    intro u hu
    rcases List.mem_cons.mp hu with rfl | hu
    · exact ⟨by omega, hs, ht.le⟩
    · obtain ⟨h1, h2, h3⟩ := ih ht u hu
      unfold Tile.stop at h1
      exact ⟨by omega, h2, h3⟩

theorem sorted (h : Tiles b ts e) : ts.Pairwise fun t u => t.stop ≤ u.base := by
  induction ts generalizing b with
  | nil => exact .nil
  | cons t ts ih =>
    obtain ⟨-, -, ht⟩ := h
    exact .cons (fun u hu => (ht.mem u hu).1) (ih ht)

/-- The tile that holds a given number, and what lies on either side of it. -/
theorem split (h : Tiles b ts e) {a : ℕ} (hb : b ≤ a) (he : a < e) :
    ∃ pre t post, ts = pre ++ t :: post ∧ t.base ≤ a ∧ a < t.stop ∧
      Tiles b pre t.base ∧ Tiles t.stop post e := by
  induction ts generalizing b with
  | nil =>
    have : b = e := h
    omega
  | cons t ts ih =>
    obtain ⟨htb, hs, ht⟩ := h
    by_cases ha : a < t.stop
    · exact ⟨[], t, ts, rfl, by omega, ha, htb.symm, ht⟩
    · obtain ⟨pre, u, post, rfl, h1, h2, h3, h4⟩ := ih ht (by omega)
      exact ⟨t :: pre, u, post, rfl, h1, h2, ⟨htb, hs, h3⟩, h4⟩

theorem eq_of_mem (h : Tiles b ts e) {t u : Tile α} (ht : t ∈ ts) (hu : u ∈ ts) {a : ℕ}
    (hta : t.base ≤ a) (hat : a < t.stop) (hua : u.base ≤ a) (hau : a < u.stop) : t = u := by
  induction ts generalizing b with
  | nil => cases ht
  | cons v ts ih =>
    obtain ⟨-, -, hts⟩ := h
    rcases List.mem_cons.mp ht with rfl | ht'
    · rcases List.mem_cons.mp hu with rfl | hu'
      · rfl
      · have := (hts.mem u hu').1
        omega
    · rcases List.mem_cons.mp hu with rfl | hu'
      · have := (hts.mem t ht').1
        omega
      · exact ih hts ht' hu'

theorem dvd {d : ℕ} (h : Tiles b ts e) (hb : d ∣ b) (hd : ∀ t ∈ ts, d ∣ t.size) :
    (∀ t ∈ ts, d ∣ t.base) ∧ d ∣ e := by
  induction ts generalizing b with
  | nil =>
    have : b = e := h
    exact ⟨fun t ht => absurd ht List.not_mem_nil, this ▸ hb⟩
  | cons t ts ih =>
    obtain ⟨rfl, -, ht⟩ := h
    obtain ⟨h1, h2⟩ := ih ht (Nat.dvd_add hb (hd t (by simp))) fun u hu => hd u (by simp [hu])
    refine ⟨fun u hu => ?_, h2⟩
    rcases List.mem_cons.mp hu with rfl | hu
    · exact hb
    · exact h1 u hu

end Tiles

/-- In a sorted list, what is taken up to the first failure of `p` is what has no failure at or
before it. -/
theorem mem_takeWhile_iff_of_sorted {key : α → ℕ} {p : α → Bool} {xs : List α} {x : α}
    (h : xs.Pairwise fun y z => key y < key z) (hx : x ∈ xs) :
    x ∈ xs.takeWhile p ↔ ∀ y ∈ xs, key y ≤ key x → p y = true := by
  induction xs with
  | nil => cases hx
  | cons y xs ih =>
    obtain ⟨hy, hxs⟩ := List.pairwise_cons.mp h
    cases hp : p y with
    | false =>
      have hle : key y ≤ key x := by
        rcases List.mem_cons.mp hx with rfl | hx
        · exact le_rfl
        · exact (hy x hx).le
      rw [List.takeWhile_cons_of_neg (by simp [hp])]
      refine ⟨fun hmem => absurd hmem List.not_mem_nil, fun hall => ?_⟩
      have := hall y (by simp) hle
      rw [hp] at this
      cases this
    | true =>
      rw [List.takeWhile_cons_of_pos hp, List.mem_cons, List.forall_mem_cons]
      rcases List.mem_cons.mp hx with rfl | hx'
      · refine ⟨fun _ => ⟨fun _ => hp, fun z hz hle => ?_⟩, fun _ => .inl rfl⟩
        have := hy z hz
        omega
      · have hne : x ≠ y := by
          rintro rfl
          exact absurd (hy x hx') (lt_irrefl _)
        rw [ih hxs hx']
        simp [hne, hp]

end Tiling
