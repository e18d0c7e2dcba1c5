import Mathlib.Tactic.Common

/-! Strings that end in front of the first terminator.

A list spells at most one string, and it spells one as soon as it has a terminator. A window of the list
spells the same string exactly when it reaches beyond the terminator (`spells_take_iff`).
-/
namespace Terminated
set_option autoImplicit false

variable {α : Type*} {z : α} {xs ys t t' : List α}

/-- `xs` starts with the string `t` and the terminator `z`, which does not occur in `t`. -/
def Spells (z : α) (xs t : List α) : Prop := z ∉ t ∧ t ++ [z] <+: xs

theorem spells_append (h : z ∉ t) (rest : List α) : Spells z (t ++ z :: rest) t := by
  refine ⟨h, rest, ?_⟩
  rw [List.append_assoc]
  rfl

theorem Spells.exists_eq (h : Spells z xs t) : ∃ rest, xs = t ++ z :: rest := by
  obtain ⟨rest, hrest⟩ := h.2
  refine ⟨rest, ?_⟩
  rw [← hrest, List.append_assoc]
  rfl

theorem Spells.append (h : Spells z xs t) (ys : List α) : Spells z (xs ++ ys) t :=
  ⟨h.1, h.2.trans (List.prefix_append xs ys)⟩

theorem Spells.mem (h : Spells z xs t) : z ∈ xs := by
  obtain ⟨rest, rfl⟩ := h.exists_eq
  simp

theorem Spells.length_lt (h : Spells z xs t) : t.length < xs.length := by
  obtain ⟨rest, rfl⟩ := h.exists_eq
  rw [List.length_append, List.length_cons]
  omega

/-- A window of `n` elements has room for the terminator if the string is shorter than `n`. -/
theorem spells_take_iff {n : ℕ} : Spells z (xs.take n) t ↔ Spells z xs t ∧ t.length < n := by
  unfold Spells
  rw [List.prefix_take_iff, List.length_append, List.length_singleton, Nat.add_one_le_iff, and_assoc]

/-- A list is the string that it spells together with what follows it, if a terminator follows. -/
theorem spells_append_iff : Spells z (xs ++ ys) xs ↔ z ∉ xs ∧ ys.head? = some z := by
  unfold Spells
  rw [List.prefix_append_right_inj, List.cons_prefix_iff, List.head?_eq_some_iff]
  simp

section Decidable
variable [DecidableEq α]

theorem takeWhile_append (h : z ∉ t) (ys : List α) :
    (t ++ ys).takeWhile (· ≠ z) = t ++ ys.takeWhile (· ≠ z) := by
  apply List.takeWhile_append_of_pos
  intro x hx
  rw [decide_eq_true_eq]
  rintro rfl
  exact h hx

theorem Spells.takeWhile_eq (h : Spells z xs t) : xs.takeWhile (· ≠ z) = t := by
  obtain ⟨rest, rfl⟩ := h.exists_eq
  rw [takeWhile_append h.1, List.takeWhile_cons_of_neg (by simp), List.append_nil]

theorem spells_takeWhile (h : z ∈ xs) : Spells z xs (xs.takeWhile (· ≠ z)) := by
  obtain ⟨t, rest, rfl, hno⟩ := List.eq_append_cons_of_mem h
  have hspells := spells_append hno rest
  rw [hspells.takeWhile_eq]
  exact hspells

theorem spells_iff : Spells z xs t ↔ z ∈ xs ∧ xs.takeWhile (· ≠ z) = t := by
  constructor
  · intro h
    exact ⟨h.mem, h.takeWhile_eq⟩
  · rintro ⟨h, rfl⟩
    exact spells_takeWhile h

end Decidable

theorem Spells.unique (h : Spells z xs t) (h' : Spells z xs t') : t = t' := by
  classical
  rw [← h.takeWhile_eq, h'.takeWhile_eq]

theorem exists_spells_iff : (∃ t, Spells z xs t) ↔ z ∈ xs := by
  classical
  constructor
  · rintro ⟨t, h⟩
    exact h.mem
  · intro h
    exact ⟨_, spells_takeWhile h⟩

end Terminated
