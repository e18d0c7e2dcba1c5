import Mathlib.Data.List.Chain
import Mathlib.Data.Nat.Find
import Wincpp.Library.Sweep

/-! Greedy left-to-right selections of hits that are at least a given width apart. -/
namespace Search
set_option autoImplicit false

/-- `Greedy H w i ks`: `ks` lists the hits picked from `i` on, each the least one that starts at or
after the end of the one before it. -/
inductive Greedy (H : ℕ → Prop) (w : ℕ) : ℕ → List ℕ → Prop
  | done {i : ℕ} : (∀ k, i ≤ k → ¬ H k) → Greedy H w i []
  | pick {i k : ℕ} {ks : List ℕ} :
      IsLeast {j | i ≤ j ∧ H j} k → Greedy H w (k + w) ks → Greedy H w i (k :: ks)

/-- What makes `ks` the greedy list of the hits of `H`, spelled out. -/
structure IsGreedyList (H : ℕ → Prop) (w : ℕ) (ks : List ℕ) : Prop where
  hit : ∀ k ∈ ks, H k
  apart : ks.IsChain fun a b => a + w ≤ b
  first : IsFirst H ks.head?
  next : ks.IsChain fun a b => IsLeast {j | a + w ≤ j ∧ H j} b
  last : ∀ k, ks.getLast? = some k → ∀ j, k + w ≤ j → ¬ H j

namespace Greedy
variable {H : ℕ → Prop} {w : ℕ}

theorem unique {i : ℕ} {ks ks' : List ℕ} (h : Greedy H w i ks) (h' : Greedy H w i ks') :
    ks = ks' := by
  induction h generalizing ks' with
  | done hno =>
    cases h' with
    | done _ => rfl
    | pick hk _ => exact absurd hk.1.2 (hno _ hk.1.1)
  | pick hk _ ih =>
    cases h' with
    | done hno => exact absurd hk.1.2 (hno _ hk.1.1)
    | pick hk' hks' =>
      cases hk.unique hk'
      rw [ih hks']

/-- Hits below a bound can be picked, since each pick moves on by the width. -/
theorem exists_greedy {n : ℕ} (hw : 0 < w) (hbound : ∀ k, H k → k < n) (i : ℕ) :
    ∃ ks, Greedy H w i ks := by
  induction hm : n - i using Nat.strong_induction_on generalizing i with
  | _ m ih =>
    by_cases hex : ∃ k, i ≤ k ∧ H k
    · classical
      obtain ⟨hle, hk⟩ := Nat.find_spec hex
      have hlt := hbound _ hk
      obtain ⟨ks, hks⟩ := ih (n - (Nat.find hex + w)) (by omega) (Nat.find hex + w) rfl
      exact ⟨_, .pick ⟨⟨hle, hk⟩, fun j hj => Nat.find_min' hex hj⟩ hks⟩
    · exact ⟨[], .done fun k hk hH => hex ⟨k, hk, hH⟩⟩

theorem mem {i : ℕ} {ks : List ℕ} (h : Greedy H w i ks) : ∀ k ∈ ks, i ≤ k ∧ H k := by
  induction h with
  | done _ => exact fun k hk => absurd hk List.not_mem_nil
  | pick hk _ ih =>
    intro j hj
    rcases List.mem_cons.mp hj with rfl | hj
    · exact hk.1
    · have := ih j hj
      have := hk.1.1
      exact ⟨by omega, (ih j hj).2⟩

/-- Each pick takes up room in front of the bound. -/
theorem length_le {i n : ℕ} {ks : List ℕ} (h : Greedy H w i ks) (hw : 0 < w)
    (hbound : ∀ k, H k → k + w ≤ n) (hi : i ≤ n) : i + ks.length ≤ n := by
  induction h with
  | done _ => exact hi
  | @pick i k ks hk _ ih =>
    have hrest := ih (hbound k hk.1.2)
    have hle := hk.1.1
    rw [List.length_cons]
    omega

theorem mem_of_isLeast {i k : ℕ} {ks : List ℕ} (h : Greedy H w i ks)
    (hk : IsLeast {j | i ≤ j ∧ H j} k) : k ∈ ks := by
  cases h with
  | done hno => exact absurd hk.1.2 (hno k hk.1.1)
  | pick hk' _ =>
    rw [hk.unique hk']
    exact List.mem_cons_self

theorem next {i : ℕ} {ks : List ℕ} (h : Greedy H w i ks) :
    ks.IsChain fun a b => IsLeast {j | a + w ≤ j ∧ H j} b := by
  induction h with
  | done _ => exact List.IsChain.nil
  | pick _ hks ih =>
    cases hks with
    | done _ => exact List.IsChain.singleton _
    | pick hk' _ => exact List.IsChain.cons_cons hk' ih

theorem last {i : ℕ} {ks : List ℕ} (h : Greedy H w i ks) :
    ∀ k, ks.getLast? = some k → ∀ j, k + w ≤ j → ¬ H j := by
  induction h with
  | done _ => intro k hk; cases hk
  | pick hk hks ih =>
    cases hks with
    | done hno =>
      intro k hlast
      cases hlast
      exact hno
    | pick _ _ =>
      intro k hlast
      rw [List.getLast?_cons_cons] at hlast
      exact ih k hlast

theorem isGreedyList {i : ℕ} {ks : List ℕ} (h : Greedy H w i ks) (hi : ∀ k, H k → i ≤ k) :
    IsGreedyList H w ks where
  hit k hk := (h.mem k hk).2
  apart := h.next.imp fun _ _ hb => hb.1.1
  first := by
    cases h with
    | done hno => exact fun k hk => hno k (hi k hk) hk
    | pick hk _ => exact ⟨hk.1.2, fun j hj => hk.2 ⟨hi j hj, hj⟩⟩
  next := h.next
  last := h.last

theorem map_add {H' : ℕ → Prop} {b i : ℕ} {ks : List ℕ} (hH : ∀ k, H' (b + k) ↔ H k)
    (h : Greedy H w i ks) : Greedy H' w (b + i) (ks.map fun k => b + k) := by
  induction h with
  | done hno =>
    refine .done fun k hk hk' => hno (k - b) (by omega) ?_
    rw [← hH, Nat.add_sub_cancel' (by omega)]
    exact hk'
  | @pick i k ks hk _ ih =>
    rw [List.map_cons]
    refine .pick ⟨⟨Nat.add_le_add_left hk.1.1 b, (hH _).mpr hk.1.2⟩, fun j hj => ?_⟩
      (by rw [Nat.add_assoc]; exact ih)
    obtain ⟨hij, hj⟩ := hj
    have hj' : H (j - b) := by
      rw [← hH, Nat.add_sub_cancel' (by omega)]
      exact hj
    have hle : k ≤ j - b := hk.2 ⟨by omega, hj'⟩
    omega

end Greedy
end Search
