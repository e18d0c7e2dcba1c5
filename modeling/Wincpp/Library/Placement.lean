import Mathlib.Tactic.Common

/-! Where the parts of a long list stand.

A file format puts its parts one behind the other and refers to them by their offsets. `Stands` follows a
part through the nesting of appends and repetitions.
-/
namespace Placement
set_option autoImplicit false

variable {α β : Type*}

/-- The part stands in the whole at the offset. -/
def Stands (part whole : List α) (offset : ℕ) : Prop :=
  ∃ front rest, whole = front ++ (part ++ rest) ∧ front.length = offset

variable {part part' whole : List α} {offset : ℕ}

theorem stands_self (whole : List α) : Stands whole whole 0 := ⟨[], [], by simp, rfl⟩

theorem Stands.at_eq {offset' : ℕ} (h : Stands part whole offset) (ho : offset = offset') :
    Stands part whole offset' := ho ▸ h

theorem Stands.left (h : Stands (part ++ part') whole offset) : Stands part whole offset := by
  obtain ⟨front, rest, rfl, hlen⟩ := h
  exact ⟨front, part' ++ rest, by rw [List.append_assoc], hlen⟩

theorem Stands.right (h : Stands (part ++ part') whole offset) :
    Stands part' whole (offset + part.length) := by
  obtain ⟨front, rest, rfl, hlen⟩ := h
  exact ⟨front ++ part, rest, by simp only [List.append_assoc], by rw [List.length_append, hlen]⟩

theorem Stands.length_le (h : Stands part whole offset) : offset + part.length ≤ whole.length := by
  obtain ⟨front, rest, rfl, hlen⟩ := h
  rw [List.length_append, List.length_append]
  omega

theorem Stands.drop (h : Stands part whole offset) : ∃ rest, whole.drop offset = part ++ rest := by
  obtain ⟨front, rest, rfl, hlen⟩ := h
  exact ⟨rest, by rw [← hlen, List.drop_left]⟩

theorem Stands.slice (h : Stands part whole offset) :
    (whole.drop offset).take part.length = part := by
  obtain ⟨rest, hrest⟩ := h.drop
  rw [hrest, List.take_left]

/-- The parts of a repetition stand behind the parts in front of them. -/
theorem Stands.flatMap {f : β → List α} {xs : List β} (h : Stands (xs.flatMap f) whole offset) {i : ℕ}
    {x : β} (hx : xs[i]? = some x) :
    Stands (f x) whole (offset + ((xs.take i).flatMap f).length) := by
  obtain ⟨hi, hget⟩ := List.getElem?_eq_some_iff.mp hx
  have hsplit : xs.flatMap f = (xs.take i).flatMap f ++ (f x ++ (xs.drop (i + 1)).flatMap f) := by
    rw [← List.flatMap_cons, ← hget, ← List.drop_eq_getElem_cons hi, ← List.flatMap_append,
      List.take_append_drop]
  rw [hsplit] at h
  exact h.right.left

theorem flatMap_length {f : β → List α} {w : ℕ} {xs : List β} (hf : ∀ x ∈ xs, (f x).length = w) :
    (xs.flatMap f).length = w * xs.length := by
  induction xs with
  | nil => rfl
  | cons x xs ih =>
    obtain ⟨hx, hxs⟩ := List.forall_mem_cons.mp hf
    rw [List.flatMap_cons, List.length_append, hx, ih hxs, List.length_cons, Nat.mul_succ, Nat.add_comm]

/-- Parts of the same length stand in a row. -/
theorem Stands.flatMap_const {f : β → List α} {w : ℕ} {xs : List β} (hf : ∀ x ∈ xs, (f x).length = w)
    (h : Stands (xs.flatMap f) whole offset) {i : ℕ} {x : β} (hx : xs[i]? = some x) :
    Stands (f x) whole (offset + w * i) := by
  have hi := (List.getElem?_eq_some_iff.mp hx).1
  have hlen : ((xs.take i).flatMap f).length = w * i := by
    rw [flatMap_length fun x hmem => hf x (List.mem_of_mem_take hmem), List.length_take,
      Nat.min_eq_left (Nat.le_of_lt hi)]
  rw [← hlen]
  exact h.flatMap hx

end Placement
