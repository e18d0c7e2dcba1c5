import Mathlib.Tactic.Common

/-! Functions that are overwritten by a constant on a part of their domain, and stacks of patches.

A patch that has saved a single value can be taken back exactly when the function had that value on
the whole area of the patch. On a stack of such patches the topmost one can be taken back, however the
areas overlap (`Stacked.undo`).
-/
namespace Overwrite
set_option autoImplicit false

variable {ι α : Type*}

def overwrite (area : ι → Bool) (value : α) (f : ι → α) : ι → α :=
  fun i => if area i then value else f i

theorem overwrite_of_mem {area : ι → Bool} {i : ι} (h : area i = true) (value : α) (f : ι → α) :
    overwrite area value f i = value := if_pos h

@[simp] theorem overwrite_overwrite (area : ι → Bool) (value value' : α) (f : ι → α) :
    overwrite area value (overwrite area value' f) = overwrite area value f := by
  funext i
  unfold overwrite
  split <;> rfl

theorem overwrite_eq_self_iff {area : ι → Bool} {value : α} {f : ι → α} :
    overwrite area value f = f ↔ ∀ i, area i = true → f i = value := by
  constructor
  · intro h i hi
    rw [← h]
    exact overwrite_of_mem hi value f
  · intro h
    funext i
    unfold overwrite
    split
    · rename_i hi
      exact (h i hi).symm
    · rfl

/-- An area, the value that is written to it, and the value that is kept for taking it back. -/
structure Patch (ι α : Type*) where
  area : ι → Bool
  value : α
  saved : α

/-- The function under the patches of a stack, whose topmost patch is the first of the list. -/
def applied (f : ι → α) : List (Patch ι α) → ι → α
  | [] => f
  | patch :: patches => overwrite patch.area patch.value (applied f patches)

/-- Each patch has saved the value that its whole area had before. -/
def Stacked (f : ι → α) : List (Patch ι α) → Prop
  | [] => True
  | patch :: patches =>
    (∀ i, patch.area i = true → applied f patches i = patch.saved) ∧ Stacked f patches

theorem Stacked.undo {f : ι → α} {patch : Patch ι α} {patches : List (Patch ι α)}
    (h : Stacked f (patch :: patches)) :
    overwrite patch.area patch.saved (applied f (patch :: patches)) = applied f patches := by
  rw [applied, overwrite_overwrite, overwrite_eq_self_iff]
  exact h.1

/-! ## Patches that are taken back from the middle of the stack -/

/-- The topmost patch over a place. -/
def topmost (patches : List (Patch ι α)) (i : ι) : Option (Patch ι α) :=
  patches.find? fun patch => patch.area i

theorem applied_append (f : ι → α) (newer older : List (Patch ι α)) (i : ι) :
    applied f (newer ++ older) i = ((topmost newer i).map Patch.value).getD (applied f older i) := by
  induction newer with
  | nil => rfl
  | cons patch newer ih =>
    rw [List.cons_append, applied, overwrite, ih]
    simp only [topmost, List.find?_cons]
    cases patch.area i <;> rfl

/-- The stack is as if the patch had never been there exactly when the patches above it agree with what
it has saved. -/
theorem Stacked.take_back_iff {f : ι → α} {newer older : List (Patch ι α)} {patch : Patch ι α}
    (h : Stacked f (patch :: older)) :
    overwrite patch.area patch.saved (applied f (newer ++ patch :: older)) = applied f (newer ++ older) ↔
      ∀ i, patch.area i = true → ∀ top, topmost newer i = some top → top.value = patch.saved := by
  rw [funext_iff]
  refine forall_congr' fun i => ?_
  rw [overwrite, applied_append, applied_append]
  by_cases hi : patch.area i = true
  · rw [if_pos hi]
    cases htop : topmost newer i with
    | none =>
      rw [Option.map_none, Option.getD_none, h.1 i hi]
      simp
    | some top =>
      rw [Option.map_some, Option.getD_some]
      simp [hi, eq_comm]
  · have hbelow : applied f (patch :: older) i = applied f older i := if_neg hi
    rw [if_neg hi, hbelow]
    simp [hi]

/-- Patches that have no place in common with a patch do not notice that it is gone. -/
theorem Stacked.remove {f : ι → α} {newer older : List (Patch ι α)} {patch : Patch ι α}
    (h : Stacked f (newer ++ patch :: older))
    (hapart : ∀ top ∈ newer, ∀ i, top.area i = true → patch.area i = false) :
    Stacked f (newer ++ older) := by
  induction newer with
  | nil => exact h.2
  | cons top newer ih =>
    obtain ⟨htop, hapart⟩ := List.forall_mem_cons.mp hapart
    refine ⟨fun i hi => ?_, ih h.2 hapart⟩
    have hbelow : applied f (patch :: older) i = applied f older i :=
      if_neg (by rw [htop i hi]; exact Bool.false_ne_true)
    have happlied : applied f (newer ++ patch :: older) i = applied f (newer ++ older) i := by
      rw [applied_append, applied_append, hbelow]
    exact happlied.symm.trans (h.1 i hi)

theorem Stacked.append_right {f : ι → α} {newer older : List (Patch ι α)}
    (h : Stacked f (newer ++ older)) : Stacked f older := by
  induction newer with
  | nil => exact h
  | cons top newer ih => exact ih h.2

end Overwrite
