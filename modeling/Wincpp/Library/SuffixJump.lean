import Mathlib.Data.Nat.Find
import Wincpp.Library.MaskedWord

/-! Words that a jump by the matched suffix loses.

If a word is not `SuffixSafe`, there is a text with a single place of it, and as much of any other
letter behind it as one likes, in which the search comes to its end without having found it
(`exists_lost`). All words that end in three equal letters are of that kind
(`not_suffixSafe_of_three`).
-/
namespace Search
set_option autoImplicit false

variable {α : Type*} {p : List α}

/-! ## A text in which the word is lost -/

/-- The word stands in the text, and the search does not find it, however far the letter `x`, which the
word does not contain, goes on behind it. -/
theorem exists_lost [DecidableEq α] [Nontrivial α] {q : List (Option α)} (T : BadCharTable q)
    (h : ¬ SuffixSafe p) {x : α} (hx : x ∉ p) :
    ∃ ys : List α, ys.length < 2 * p.length ∧ ∀ n,
      (∃ k, OccursAt (p.map some) (ys ++ List.replicate n x) k) ∧
      (turbo T p (ys ++ List.replicate n x)).run (0, 0) = none := by
  obtain ⟨ys, i, d, hlength, htrap⟩ := exists_suffixTrap h
  have hlt := (htrap []).lt
  refine ⟨ys, by omega, fun n => ⟨⟨d, (htrap _).occurs⟩, ?_⟩⟩
  have htrap := htrap (List.replicate n x)
  generalize he : ys ++ List.replicate n x = text at htrap
  have htext : text.length = d + p.length + n := by
    rw [← he, List.length_append, hlength, List.length_replicate]
  -- no place lies behind `d`: the last letter of the word would be `x` there
  have hbehind : ∀ k, d < k → ¬ OccursAt (p.map some) text k := by
    intro k hk hocc
    rw [occursAt_map_some, htext] at hocc
    have hletter := hocc.2 (p.length - 1) (by omega)
    have hfill : text[k + (p.length - 1)]? = some x := by
      rw [← he, List.getElem?_append_right (by omega), List.getElem?_replicate, if_pos (by omega)]
    rw [hfill] at hletter
    exact hx (List.mem_of_getElem? hletter.symm)
  have hbound : 0 < (turbo T p text).bound := by
    simp only [turbo, htext]
    omega
  have hnext := htrap.next_gt T
  rw [Sweep.run_of_miss _ hbound htrap.miss]
  cases hrun : (turbo T p text).run ((turbo T p text).next (0, 0)) with
  | none => rfl
  | some k =>
    obtain ⟨hle, -, hhit⟩ := Sweep.run_sound _ _ hrun
    have hpos : (turbo T p text).pos ((turbo T p text).next (0, 0)) =
        ((turbo T p text).next (0, 0)).1 := rfl
    exact absurd hhit (hbehind k (by omega))

/-! ## Three equal letters at the end -/

/-- A word that ends in three equal letters is not safe: the run of that letter at its end is found
again one place further to the left, behind the letter before the run or running out of the word. -/
theorem not_suffixSafe_of_three {z : α} (hlength : 3 ≤ p.length)
    (hend : ∀ k, p.length - 3 ≤ k → k < p.length → p[k]? = some z) : ¬ SuffixSafe p := by
  classical
  intro hsafe
  have hex : ∃ j, ∀ k, j ≤ k → k < p.length → p[k]? = some z := ⟨_, hend⟩
  have hrun := Nat.find_spec hex
  have hle : Nat.find hex ≤ p.length - 3 := Nat.find_min' hex hend
  obtain ⟨hpos, hbefore⟩ := hsafe (Nat.find hex) 1 (by omega) (by omega) fun k hk hk1 => by
    rw [hrun k (by omega) (by omega), hrun (k + 1) (by omega) hk1]
  refine Nat.find_min hex (m := Nat.find hex - 1) (by omega) fun k hk hkp => ?_
  rcases Nat.lt_or_ge k (Nat.find hex) with hlt | hge
  · have hk : k = Nat.find hex - 1 := by omega
    rw [hk, hbefore, hrun _ le_rfl (by omega)]
  · exact hrun k hge hkp

end Search
