import Mathlib.Data.List.Basic
import Mathlib.Tactic.Common

/-! Texts that consist of words with a separator between them.

When no word contains the first letter of the separator, the words can be read back from the text. Only
the empty list and the list of a single empty word have the same text.
-/
namespace SeparatedText
set_option autoImplicit false

variable {α : Type*}

/-- The words one after the other, with the separator between them. -/
def joined (separator : List α) : List (List α) → List α
  | [] => []
  | [word] => word
  | word :: next :: words => word ++ separator ++ joined separator (next :: words)

@[simp] theorem joined_nil (separator : List α) : joined separator [] = [] := rfl

/-- A text in which each word is followed by a separator, except for the last one. -/
theorem joined_cons (separator word : List α) (words : List (List α)) :
    joined separator (word :: words) =
      word ++ if words = [] then [] else separator ++ joined separator words := by
  cases words with
  | nil => exact (List.append_nil word).symm
  | cons next words => rw [joined, if_neg (List.cons_ne_nil _ _), List.append_assoc]

/-- Dropping the separator behind the last word. -/
theorem joined_eq_take (separator : List α) {words : List (List α)} (h : words ≠ []) :
    joined separator words ++ separator = words.flatMap fun word => word ++ separator := by
  induction words with
  | nil => exact absurd rfl h
  | cons word words ih =>
    rw [joined_cons, List.flatMap_cons]
    split
    · rename_i hnil
      rw [hnil, List.append_nil, List.flatMap_nil, List.append_nil]
    · rename_i hne
      rw [← ih hne, List.append_assoc, List.append_assoc, List.append_assoc]

/-- A word ends where the text ends or a separator begins. -/
def Ends (first : α) (rest : List α) : Prop := ∀ a ∈ rest.head?, a = first

theorem word_unique {first : α} {word word' rest rest' : List α} (hword : first ∉ word)
    (hword' : first ∉ word') (hrest : Ends first rest) (hrest' : Ends first rest')
    (h : word ++ rest = word' ++ rest') : word = word' ∧ rest = rest' := by
  induction word generalizing word' with
  | nil =>
    cases word' with
    | nil => exact ⟨rfl, h⟩
    | cons a word' =>
      rw [List.nil_append] at h
      have ha : a = first := hrest a (by rw [h]; rfl)
      exact absurd (ha ▸ List.mem_cons_self) hword'
  | cons a word ih =>
    rw [List.mem_cons, not_or] at hword
    cases word' with
    | nil =>
      rw [List.nil_append] at h
      have ha : a = first := hrest' a (by rw [← h]; rfl)
      exact absurd ha.symm hword.1
    | cons b word' =>
      rw [List.mem_cons, not_or] at hword'
      obtain ⟨rfl, htail⟩ := List.cons.inj h
      obtain ⟨rfl, hrest⟩ := ih hword.2 hword'.2 htail
      exact ⟨rfl, hrest⟩

/-- The words of a text, none of which is empty, can be read back. -/
theorem joined_injective {first : α} {separator : List α} {words words' : List (List α)}
    (hwords : ∀ word ∈ words, word ≠ [] ∧ first ∉ word)
    (hwords' : ∀ word ∈ words', word ≠ [] ∧ first ∉ word)
    (h : joined (first :: separator) words = joined (first :: separator) words') :
    words = words' := by
  have hends : ∀ rest : List (List α),
      Ends first (if rest = [] then [] else first :: separator ++ joined (first :: separator) rest) := by
    intro rest a ha
    split at ha
    · cases ha
    · cases ha
      rfl
  induction words generalizing words' with
  | nil =>
    cases words' with
    | nil => rfl
    | cons word words' =>
      rw [joined_cons] at h
      exact absurd (List.append_eq_nil_iff.mp h.symm).1 (hwords' word List.mem_cons_self).1
  | cons word words ih =>
    obtain ⟨hword, hwords⟩ := List.forall_mem_cons.mp hwords
    cases words' with
    | nil =>
      rw [joined_cons] at h
      exact absurd (List.append_eq_nil_iff.mp h).1 hword.1
    | cons word' words' =>
      obtain ⟨hword', hothers⟩ := List.forall_mem_cons.mp hwords'
      rw [joined_cons, joined_cons] at h
      obtain ⟨rfl, hrest⟩ := word_unique hword.2 hword'.2 (hends words) (hends words') h
      congr 1
      by_cases hnil : words = []
      · by_cases hnil' : words' = []
        · rw [hnil, hnil']
        · rw [if_pos hnil, if_neg hnil'] at hrest
          cases hrest
      · by_cases hnil' : words' = []
        · rw [if_neg hnil, if_pos hnil'] at hrest
          cases hrest
        · rw [if_neg hnil, if_neg hnil'] at hrest
          exact ih hwords hothers (List.append_cancel_left hrest)

end SeparatedText
