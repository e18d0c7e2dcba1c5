import Mathlib.Logic.Nontrivial.Basic
import Wincpp.Library.Sweep

/-! Occurrences of masked words, and which jumps of a right-to-left comparison are safe.

A masked word leaves some of its letters open. Two ways to jump after a miss are studied.

* Bad character: the letter under the last window position decides (`BadCharTable`). The table
  only knows the letters that the word fixes, so it is safe for every text exactly when no open
  letter is passed over (`forall_horspool_iff`).
* Matched suffix: the jump is as long as the part of the word that matched. That is safe for every
  text exactly when no suffix overlaps itself too closely (`forall_turbo_iff`).
-/
namespace Search
set_option autoImplicit false
variable {α : Type*}

/-! ## Occurrences -/

/-- The word `p` occurs in the text `xs` at `k`: it fits, and every letter that it fixes is met. -/
def OccursAt (p : List (Option α)) (xs : List α) (k : ℕ) : Prop :=
  k + p.length ≤ xs.length ∧ ∀ i a, p[i]? = some (some a) → xs[k + i]? = some a

def AllOpen (p : List (Option α)) : Prop := ∀ i, i < p.length → p[i]? = some none

theorem occursAt_map_some (p xs : List α) (k : ℕ) :
    OccursAt (p.map some) xs k ↔
      k + p.length ≤ xs.length ∧ ∀ i, i < p.length → xs[k + i]? = p[i]? := by
  constructor
  · rintro ⟨hlen, hmeet⟩
    refine ⟨by simpa using hlen, fun i hi => ?_⟩
    rw [List.getElem?_eq_getElem hi]
    exact hmeet i p[i] (by simp [hi])
  · rintro ⟨hlen, hmeet⟩
    refine ⟨by simpa using hlen, fun i a ha => ?_⟩
    have hi : i < p.length := by
      have := (List.getElem?_eq_some_iff.mp ha).1
      simpa using this
    rw [hmeet i hi]
    simpa [hi] using ha

theorem occursAt_drop {p : List (Option α)} {xs : List α} {n k : ℕ} (hn : n ≤ xs.length) :
    OccursAt p (xs.drop n) k ↔ OccursAt p xs (n + k) := by
  unfold OccursAt
  rw [List.length_drop]
  simp only [List.getElem?_drop, Nat.add_assoc]
  apply and_congr_left
  intro _
  omega

theorem AllOpen.occursAt {p : List (Option α)} (h : AllOpen p) {xs : List α} {k : ℕ}
    (hk : k + p.length ≤ xs.length) : OccursAt p xs k := by
  refine ⟨hk, fun i a ha => ?_⟩
  have hi : i < p.length := (List.getElem?_eq_some_iff.mp ha).1
  rw [h i hi] at ha
  cases ha

/-- The letter under the last position of the window `w` is also a letter of any occurrence that
starts inside that window, so the word leaves that letter open or fixes it to the same value. -/
theorem OccursAt.letter {p : List (Option α)} {xs : List α} {w d : ℕ} {b : α}
    (h : OccursAt p xs (w + d)) (hd : d < p.length) (hb : xs[w + (p.length - 1)]? = some b) :
    p[p.length - 1 - d]? = some none ∨ p[p.length - 1 - d]? = some (some b) := by
  have hi : p.length - 1 - d < p.length := by omega
  have hp := List.getElem?_eq_getElem hi
  cases hl : p[p.length - 1 - d] with
  | none => exact Or.inl (by rw [hp, hl])
  | some a =>
    have hx := h.2 _ a (by rw [hp, hl])
    have he : w + d + (p.length - 1 - d) = w + (p.length - 1) := by omega
    rw [he, hb] at hx
    exact Or.inr (by rw [hp, hl, hx])

/-! ## Comparing a window from its right end -/

/-- The last index below `n` at which the comparison fails. -/
def lastFailure (ok : ℕ → Bool) : ℕ → Option ℕ
  | 0 => none
  | i + 1 => if ok i then lastFailure ok i else some i

theorem lastFailure_eq_none_iff (ok : ℕ → Bool) (n : ℕ) :
    lastFailure ok n = none ↔ ∀ i, i < n → ok i = true := by
  induction n with
  | zero => simp [lastFailure]
  | succ n ih =>
    rw [lastFailure]
    split
    · rename_i hok
      rw [ih]
      constructor
      · intro h i hi
        rcases Nat.lt_succ_iff_lt_or_eq.mp hi with h' | rfl
        · exact h i h'
        · exact hok
      · exact fun h i hi => h i (by omega)
    · rename_i hok
      constructor
      · intro h
        cases h
      · intro h
        exact absurd (h n (by omega)) hok

theorem lastFailure_eq_some {ok : ℕ → Bool} {n i : ℕ} (h : lastFailure ok n = some i) :
    i < n ∧ ok i = false ∧ ∀ k, i < k → k < n → ok k = true := by
  induction n with
  | zero => cases h
  | succ n ih =>
    rw [lastFailure] at h
    split at h
    · rename_i hok
      obtain ⟨hi, hf, hk⟩ := ih h
      refine ⟨by omega, hf, fun k hik hkn => ?_⟩
      rcases Nat.lt_succ_iff_lt_or_eq.mp hkn with h' | rfl
      · exact hk k hik h'
      · exact hok
    · rename_i hok
      cases h
      exact ⟨by omega, by simpa using hok, fun k h1 h2 => by omega⟩

theorem lastFailure_eq_some_of {ok : ℕ → Bool} {n i : ℕ} (hi : i < n) (hf : ok i = false)
    (hk : ∀ k, i < k → k < n → ok k = true) : lastFailure ok n = some i := by
  cases h : lastFailure ok n with
  | none =>
    have := (lastFailure_eq_none_iff ok n).mp h i hi
    rw [hf] at this
    cases this
  | some j =>
    obtain ⟨hj, hjf, hjk⟩ := lastFailure_eq_some h
    rcases Nat.lt_trichotomy i j with hlt | rfl | hgt
    · rw [hk j hlt hj] at hjf; cases hjf
    · rfl
    · rw [hjk i hgt hi] at hf; cases hf

def meetsAt [DecidableEq α] (p : List (Option α)) (xs : List α) (w i : ℕ) : Bool :=
  match p[i]? with
  | some (some a) => xs[w + i]? == some a
  | _ => true

theorem meetsAt_iff [DecidableEq α] (p : List (Option α)) (xs : List α) (w i : ℕ) :
    meetsAt p xs w i = true ↔ ∀ a, p[i]? = some (some a) → xs[w + i]? = some a := by
  unfold meetsAt
  split
  · rename_i a ha
    rw [ha]
    simp only [beq_iff_eq, Option.some.injEq, forall_eq']
  · rename_i hno
    simp only [true_iff]
    exact fun a ha => absurd ha (hno a)

theorem lastFailure_meetsAt_iff [DecidableEq α] (p : List (Option α)) (xs : List α) (w : ℕ)
    (hw : w + p.length ≤ xs.length) :
    lastFailure (meetsAt p xs w) p.length = none ↔ OccursAt p xs w := by
  rw [lastFailure_eq_none_iff]
  constructor
  · intro h
    refine ⟨hw, fun i a ha => ?_⟩
    exact (meetsAt_iff p xs w i).mp (h i (List.getElem?_eq_some_iff.mp ha).1) a ha
  · exact fun h i _ => (meetsAt_iff p xs w i).mpr (h.2 i)

/-! ## Bad-character jumps -/

/-- A table of jumps for the word `p`. A letter that `p` fixes before its last position jumps to
the last such place; every other letter jumps over the whole word. -/
structure BadCharTable (p : List (Option α)) where
  shift : α → ℕ
  shift_pos : ∀ a, 0 < shift a
  shift_le_length : ∀ a, shift a ≤ p.length
  shift_le : ∀ a j, j + 1 < p.length → p[j]? = some (some a) → shift a ≤ p.length - 1 - j
  shift_eq : ∀ a, shift a < p.length →
    ∃ j, j + 1 < p.length ∧ p[j]? = some (some a) ∧ shift a = p.length - 1 - j

/-- The jump of the letter `a` that the first `n` positions of `p` ask for. -/
def badCharShift [DecidableEq α] (p : List (Option α)) (n : ℕ) (a : α) : ℕ :=
  (lastFailure (fun j => p[j]? != some (some a)) n).elim p.length fun j => p.length - 1 - j

theorem badCharShift_succ [DecidableEq α] (p : List (Option α)) (n : ℕ) (a : α) :
    badCharShift p (n + 1) a =
      if p[n]? = some (some a) then p.length - 1 - n else badCharShift p n a := by
  unfold badCharShift
  rw [lastFailure]
  by_cases h : p[n]? = some (some a)
  · simp [h]
  · simp [h]

def badCharTable [DecidableEq α] (p : List (Option α)) (hp : 0 < p.length) : BadCharTable p where
  shift := badCharShift p (p.length - 1)
  shift_pos a := by
    unfold badCharShift
    cases h : lastFailure (fun j => p[j]? != some (some a)) (p.length - 1) with
    | none => exact hp
    | some j =>
      have := (lastFailure_eq_some h).1
      simp only [Option.elim_some]
      omega
  shift_le_length a := by
    unfold badCharShift
    cases lastFailure (fun j => p[j]? != some (some a)) (p.length - 1) with
    | none => exact le_refl _
    | some j => simp only [Option.elim_some]; omega
  shift_le a j hj hpj := by
    unfold badCharShift
    cases h : lastFailure (fun j => p[j]? != some (some a)) (p.length - 1) with
    | none =>
      have := (lastFailure_eq_none_iff _ _).mp h j (by omega)
      simp [hpj] at this
    | some j' =>
      have hle : j ≤ j' := by
        by_contra hlt
        have := (lastFailure_eq_some h).2.2 j (by omega) (by omega)
        simp [hpj] at this
      simp only [Option.elim_some]
      omega
  shift_eq a ha := by
    unfold badCharShift at ha ⊢
    cases h : lastFailure (fun j => p[j]? != some (some a)) (p.length - 1) with
    | none => rw [h] at ha; exact absurd ha (lt_irrefl _)
    | some j =>
      obtain ⟨hj, hf, -⟩ := lastFailure_eq_some h
      exact ⟨j, by omega, by simpa using hf, rfl⟩

namespace BadCharTable
variable {p : List (Option α)} (T : BadCharTable p)

def shiftAt (xs : List α) (w : ℕ) : ℕ := (xs[w + (p.length - 1)]?).elim 1 T.shift

theorem shiftAt_pos (xs : List α) (w : ℕ) : 0 < T.shiftAt xs w := by
  unfold shiftAt
  cases xs[w + (p.length - 1)]? with
  | none => exact Nat.one_pos
  | some b => exact T.shift_pos b

theorem shiftAt_of_letter {xs : List α} {w : ℕ} {b : α} (hb : xs[w + (p.length - 1)]? = some b) :
    T.shiftAt xs w = T.shift b := by
  rw [shiftAt, hb]
  rfl

/-- The jump passes over an occurrence only if the letter that decides the jump lies under an open
position of that occurrence. -/
theorem open_of_jump {xs : List α} {w d : ℕ} {b : α} (hb : xs[w + (p.length - 1)]? = some b)
    (hd : 0 < d) (hdn : d < p.length) (hds : d < T.shift b) (h : OccursAt p xs (w + d)) :
    p[p.length - 1 - d]? = some none ∧
      ∀ j, p.length - 1 - d < j → j + 1 < p.length → p[j]? ≠ some (some b) := by
  have hstrict : ∀ j, p.length - 1 - d ≤ j → j + 1 < p.length → p[j]? ≠ some (some b) := by
    intro j hj hjn hpj
    have := T.shift_le b j hjn hpj
    omega
  refine ⟨?_, fun j hj => hstrict j (by omega)⟩
  rcases h.letter hdn hb with ho | hs
  · exact ho
  · exact absurd hs (hstrict _ (le_refl _) (by omega))

def sweep (xs : List α) : Sweep ℕ where
  pos := id
  next w := w + T.shiftAt xs w
  bound := xs.length + 1 - p.length
  hit := OccursAt p xs
  advance w _ _ := by
    have := T.shiftAt_pos xs w
    simp only [id_eq]
    omega

end BadCharTable

/-- Every open letter before the last position is followed, still before the last position, by
fixed letters of every value. -/
def OpenShadowed (p : List (Option α)) : Prop :=
  ∀ i, i + 1 < p.length → p[i]? = some none →
    ∀ a, ∃ j, i < j ∧ j + 1 < p.length ∧ p[j]? = some (some a)

theorem openShadowed_of_fixed {p : List (Option α)}
    (h : ∀ i, i + 1 < p.length → p[i]? ≠ some none) : OpenShadowed p :=
  fun i hi ho => absurd ho (h i hi)

theorem letter_of_window {p : List (Option α)} {xs : List α} {w : ℕ} (hp : 0 < p.length)
    (hw : w < xs.length + 1 - p.length) : ∃ b, xs[w + (p.length - 1)]? = some b :=
  ⟨_, List.getElem?_eq_getElem (by omega)⟩

theorem OpenShadowed.noJumpOver {p : List (Option α)} (h : OpenShadowed p) (hp : 0 < p.length)
    (T : BadCharTable p) (xs : List α) (w : ℕ) : (T.sweep xs).NoJumpOver w := by
  intro t ht _ k htk hk _ hocc
  obtain ⟨b, hb⟩ := letter_of_window hp ((T.sweep xs).visits_lt ht)
  simp only [BadCharTable.sweep, id_eq] at htk hk hb
  rw [T.shiftAt_of_letter hb] at hk
  obtain ⟨d, rfl⟩ := Nat.exists_eq_add_of_lt htk
  have hds : d + 1 < T.shift b := by omega
  rw [Nat.add_assoc] at hocc
  have hdn : d + 1 < p.length := lt_of_lt_of_le hds (T.shift_le_length b)
  obtain ⟨hopen, hnone⟩ := T.open_of_jump hb (by omega) hdn hds hocc
  obtain ⟨j, hj, hjn, hpj⟩ := h _ (by omega) hopen b
  exact hnone j hj hjn hpj

theorem AllOpen.noJumpOver {p : List (Option α)} (h : AllOpen p) (T : BadCharTable p)
    (xs : List α) (w : ℕ) : (T.sweep xs).NoJumpOver w := by
  intro t ht hmiss
  have hb : t < xs.length + 1 - p.length := (T.sweep xs).visits_lt ht
  have hfit : t + p.length ≤ xs.length := by omega
  exact absurd (h.occursAt hfit) hmiss

/-! ### A text on which the table fails -/

/-- A text in which `p` occurs at `d`, whose letter at the end of the window `0` is `b`, and whose
other letters avoid what `p` asks for in the window `0` wherever they can. -/
def decoyLetter (p : List (Option α)) (other : α → α) (d : ℕ) (b : α) (x : ℕ) : α :=
  match (if d ≤ x then p[x - d]? else none) with
  | some (some c) => c
  | _ =>
    if x = p.length - 1 then b
    else match p[x]? with
      | some (some c) => other c
      | _ => b

def decoy (p : List (Option α)) (other : α → α) (d : ℕ) (b : α) : List α :=
  (List.range (p.length + d)).map (decoyLetter p other d b)

section Decoy
variable {p : List (Option α)} {other : α → α} {d : ℕ} {b : α}

@[simp] theorem decoy_length : (decoy p other d b).length = p.length + d := by simp [decoy]

theorem decoy_getElem? {x : ℕ} (hx : x < p.length + d) :
    (decoy p other d b)[x]? = some (decoyLetter p other d b x) := by
  simp [decoy, hx]

theorem decoy_occursAt : OccursAt p (decoy p other d b) d := by
  refine ⟨by rw [decoy_length]; omega, fun i a ha => ?_⟩
  have hi : i < p.length := (List.getElem?_eq_some_iff.mp ha).1
  rw [decoy_getElem? (by omega), decoyLetter, if_pos (by omega), Nat.add_sub_cancel_left, ha]

theorem decoy_last (hd : d < p.length) (ho : p[p.length - 1 - d]? = some none) :
    (decoy p other d b)[p.length - 1]? = some b := by
  rw [decoy_getElem? (by omega), decoyLetter, if_pos (by omega), ho]
  simp

/-- If the decoy met `p` at `0`, no letter before the last position would be fixed: going back by
`d` from such a position one reaches a letter that the text chose to be different. -/
theorem decoy_fixed_last (hother : ∀ c, other c ≠ c) (hd : 0 < d)
    (h : OccursAt p (decoy p other d b) 0) (j : ℕ) :
    j + 1 < p.length → ∀ c, p[j]? ≠ some (some c) := by
  induction j using Nat.strong_induction_on with
  | _ j ih =>
    intro hj c hc
    have hx := h.2 j c hc
    rw [Nat.zero_add, decoy_getElem? (by omega), decoyLetter] at hx
    have hback : ∀ c', ¬ (d ≤ j ∧ p[j - d]? = some (some c')) := by
      rintro c' ⟨hdj, hc'⟩
      exact ih (j - d) (by omega) (by omega) c' hc'
    split at hx
    · rename_i c' hc'
      split at hc'
      · exact hback c' ⟨‹_›, hc'⟩
      · cases hc'
    · rw [if_neg (by omega), hc] at hx
      exact hother c (Option.some.inj hx)

end Decoy

/-- Where the shadowing condition fails there is a text on which the first window misses and the
jump from it passes over an occurrence. -/
theorem exists_jump_over [Nontrivial α] {p : List (Option α)} (T : BadCharTable p)
    (hfixed : ¬ AllOpen p) (h : ¬ OpenShadowed p) :
    ∃ xs : List α, xs.length < 2 * p.length ∧ ¬ (T.sweep xs).NoJumpOver 0 := by
  obtain ⟨other, hother⟩ : ∃ other : α → α, ∀ c, other c ≠ c :=
    ⟨fun c => (exists_ne c).choose, fun c => (exists_ne c).choose_spec⟩
  simp only [OpenShadowed, not_forall, not_exists, not_and] at h
  obtain ⟨i, hi, hopen, b₀, hb₀⟩ := h
  simp only [AllOpen, not_forall] at hfixed
  obtain ⟨j₀, hj₀, hjopen⟩ := hfixed
  have hd : p.length - 1 - (p.length - 1 - i) = i := by omega
  -- any unshadowed letter that the last position does not ask for makes the first window miss
  suffices hmiss : ∃ b, (∀ j, i < j → j + 1 < p.length → p[j]? ≠ some (some b)) ∧
      ¬ OccursAt p (decoy p other (p.length - 1 - i) b) 0 by
    obtain ⟨b, hb, hmiss⟩ := hmiss
    have hlast : (decoy p other (p.length - 1 - i) b)[0 + (p.length - 1)]? = some b := by
      rw [Nat.zero_add]
      exact decoy_last (by omega) (by rw [hd]; exact hopen)
    have hshift : p.length - 1 - i < T.shift b := by
      by_contra hle
      obtain ⟨j, hj, hpj, hs⟩ := T.shift_eq b (by omega)
      rcases Nat.lt_or_ge i j with hij | hij
      · exact hb j hij hj hpj
      · have hji : j = i := by omega
        rw [hji, hopen] at hpj
        cases hpj
    refine ⟨decoy p other (p.length - 1 - i) b, by rw [decoy_length]; omega, fun hno => ?_⟩
    have hbound : 0 < (decoy p other (p.length - 1 - i) b).length + 1 - p.length := by
      rw [decoy_length]; omega
    refine hno 0 (.here hbound) hmiss (p.length - 1 - i) ?_ ?_ ?_ decoy_occursAt
    · simp only [BadCharTable.sweep, id_eq]; omega
    · simp only [BadCharTable.sweep, id_eq, T.shiftAt_of_letter hlast]; omega
    · simp only [BadCharTable.sweep, decoy_length]; omega
  by_cases hex : ∃ j c, j + 1 < p.length ∧ p[j]? = some (some c)
  · obtain ⟨j, c, hj, hc⟩ := hex
    exact ⟨b₀, hb₀, fun hocc => decoy_fixed_last hother (by omega) hocc j hj c hc⟩
  · have hnone : ∀ j c, j + 1 < p.length → p[j]? ≠ some (some c) :=
      fun j c hj hc => hex ⟨j, c, hj, hc⟩
    -- the only fixed letter is the last one; ask for a different letter there
    obtain ⟨c, hc⟩ : ∃ c, p[j₀]? = some (some c) := by
      have hp := List.getElem?_eq_getElem hj₀
      cases hl : p[j₀] with
      | none => exact absurd (by rw [hp, hl]) hjopen
      | some c => exact ⟨c, by rw [hp, hl]⟩
    have hlastj : j₀ = p.length - 1 := by
      by_contra hne
      exact hnone j₀ c (by omega) hc
    refine ⟨other c, fun j _ hj => hnone j _ hj, fun hocc => ?_⟩
    have hx := hocc.2 j₀ c hc
    rw [Nat.zero_add, hlastj, decoy_last (by omega) (by rw [hd]; exact hopen)] at hx
    exact hother c (Option.some.inj hx)

/-- **When the bad-character table is safe.** The table is safe for every text exactly when all
letters of the word are open or every open letter before the last is shadowed. -/
theorem forall_horspool_iff [Nontrivial α] {p : List (Option α)} (hp : 0 < p.length)
    (T : BadCharTable p) :
    (∀ xs : List α, xs.length < 2 * p.length → (T.sweep xs).NoJumpOver 0) ↔
      AllOpen p ∨ OpenShadowed p := by
  constructor
  · intro h
    by_contra hno
    rw [not_or] at hno
    obtain ⟨xs, hlen, hjump⟩ := exists_jump_over T hno.1 hno.2
    exact hjump (h xs hlen)
  · rintro (ho | hs) xs -
    · exact ho.noJumpOver T xs 0
    · exact hs.noJumpOver hp T xs 0

/-! ## Jumps by the matched suffix -/

def sameLetter [DecidableEq α] (p xs : List α) (w i : ℕ) : Bool := xs[w + i]? == p[i]?

/-- The length of the suffix of `p` that matches in the window `w`, when the window is a miss. -/
def matchedSuffix [DecidableEq α] (p xs : List α) (w : ℕ) : ℕ :=
  (lastFailure (sameLetter p xs w) p.length).elim 0 fun i => p.length - 1 - i

/-- A search whose state carries the jump left by the previous window. Such a jump is dropped at
the next window, which then moves by the table alone; a window without one moves by the larger of
the table's jump and the length of its matched suffix. -/
def turbo [DecidableEq α] {q : List (Option α)} (T : BadCharTable q) (p xs : List α) :
    Sweep (ℕ × ℕ) where
  pos := Prod.fst
  next s :=
    if 0 < s.2 then (s.1 + max 1 (T.shiftAt xs s.1), 0)
    else (s.1 + max (T.shiftAt xs s.1) (matchedSuffix p xs s.1), matchedSuffix p xs s.1)
  bound := xs.length + 1 - p.length
  hit := OccursAt (p.map some) xs
  advance s _ _ := by
    have := T.shiftAt_pos xs s.1
    split <;> simp only <;> omega

/-- No suffix of `p` is found again, fewer places to the left than it is long, behind a different
letter or running out of the word. -/
def SuffixSafe (p : List α) : Prop :=
  ∀ i d, 0 < d → d + i + 1 < p.length →
    (∀ k, i < k + d → k + d < p.length → p[k]? = p[k + d]?) → d ≤ i ∧ p[i - d]? = p[i]?

section Turbo
variable [DecidableEq α] {p : List α}

theorem lastFailure_sameLetter_iff (p xs : List α) (w : ℕ) (hw : w + p.length ≤ xs.length) :
    lastFailure (sameLetter p xs w) p.length = none ↔ OccursAt (p.map some) xs w := by
  simp only [lastFailure_eq_none_iff, occursAt_map_some, sameLetter, beq_iff_eq, hw, true_and]

theorem SuffixSafe.noJumpOver (h : SuffixSafe p) (hp : 0 < p.length) {q : List (Option α)}
    (hq : q = p.map some) (T : BadCharTable q) (xs : List α) (s : ℕ × ℕ) :
    (turbo T p xs).NoJumpOver s := by
  subst hq
  intro t ht hmiss k htk hk _ hocc
  have hw : t.1 < xs.length + 1 - p.length := (turbo T p xs).visits_lt ht
  change t.1 < k at htk
  change ¬ OccursAt (p.map some) xs t.1 at hmiss
  change OccursAt (p.map some) xs k at hocc
  obtain ⟨d, rfl⟩ : ∃ d, k = t.1 + d := ⟨k - t.1, by omega⟩
  obtain ⟨b, hb⟩ : ∃ b, xs[t.1 + ((p.map some).length - 1)]? = some b :=
    letter_of_window (by simpa using hp) (by simpa using hw)
  have hlen : (p.map some).length = p.length := List.length_map _
  -- the table alone never passes over an occurrence of an unmasked word
  have htable : T.shiftAt xs t.1 ≤ d := by
    rw [T.shiftAt_of_letter hb]
    by_contra hlt
    have hdn : d < (p.map some).length := lt_of_lt_of_le (by omega) (T.shift_le_length b)
    obtain ⟨hopen, -⟩ := T.open_of_jump hb (by omega) hdn (by omega) hocc
    simp at hopen
  obtain ⟨i, hi⟩ : ∃ i, lastFailure (sameLetter p xs t.1) p.length = some i := by
    rw [← Option.isSome_iff_exists, Option.isSome_iff_ne_none]
    exact fun e => hmiss ((lastFailure_sameLetter_iff p xs t.1 (by omega)).mp e)
  have hsuffix : matchedSuffix p xs t.1 = p.length - 1 - i := by rw [matchedSuffix, hi]; rfl
  obtain ⟨hin, hfail, hmatch⟩ := lastFailure_eq_some hi
  have hd : d < p.length - 1 - i := by
    have hnext : t.1 + d < t.1 + max (max 1 (T.shiftAt xs t.1)) (matchedSuffix p xs t.1) := by
      apply lt_of_lt_of_le hk
      simp only [turbo]
      split <;> simp only <;> omega
    omega
  rw [occursAt_map_some] at hocc
  obtain ⟨hfit, hmeet⟩ := hocc
  obtain ⟨hdi, hlet⟩ := h i d (by omega) (by omega) fun k hk1 hk2 => by
    have h1 := hmeet k (by omega)
    have h2 : xs[t.1 + (k + d)]? = p[k + d]? := by
      simpa [sameLetter] using hmatch (k + d) hk1 hk2
    rw [← h1, ← h2]
    congr 1
    omega
  have h3 := hmeet (i - d) (by omega)
  rw [show t.1 + d + (i - d) = t.1 + i by omega, hlet] at h3
  simp [sameLetter, h3] at hfail

/-- The first window of the text fails at `i` and matches behind it, and the word stands at `d`, in
front of where the matched suffix leads. -/
structure SuffixTrap (p xs : List α) (i d : ℕ) : Prop where
  pos : 0 < d
  lt : d + i + 1 < p.length
  fails : sameLetter p xs 0 i = false
  meets : ∀ k, i < k → k < p.length → sameLetter p xs 0 k = true
  occurs : OccursAt (p.map some) xs d

namespace SuffixTrap
variable {xs : List α} {i d : ℕ}

theorem miss (h : SuffixTrap p xs i d) : ¬ OccursAt (p.map some) xs 0 := by
  rw [occursAt_map_some]
  rintro ⟨-, hall⟩
  have hlt := h.lt
  have hletter := hall i (by omega)
  have hfail := h.fails
  rw [sameLetter, beq_eq_false_iff_ne] at hfail
  exact hfail hletter

/-- After the first window the search goes on behind `d`. -/
theorem next_gt (h : SuffixTrap p xs i d) {q : List (Option α)} (T : BadCharTable q) :
    d < ((turbo T p xs).next (0, 0)).1 := by
  have hlt := h.lt
  have hsuffix : matchedSuffix p xs 0 = p.length - 1 - i := by
    rw [matchedSuffix, lastFailure_eq_some_of (by omega) h.fails h.meets]
    rfl
  simp only [turbo, lt_irrefl, if_false, hsuffix]
  omega

end SuffixTrap

/-- A text on which the first window matches exactly the letters after `i` and in which `p` occurs
at `d`. -/
def suffixDecoy (p : List α) (other : α → α) (i d : ℕ) : List α :=
  ((p.take d).mapIdx fun x c => if x = i then other c else c) ++ p

section Decoy
omit [DecidableEq α]
variable {i d x : ℕ} (other : α → α) (zs : List α)

theorem suffixDecoy_length (hd : d ≤ p.length) :
    (suffixDecoy p other i d).length = d + p.length := by
  simp only [suffixDecoy, List.length_append, List.length_mapIdx, List.length_take]
  omega

theorem suffixDecoy_left (hx : x < d) (hd : d ≤ p.length) :
    (suffixDecoy p other i d ++ zs)[x]? = (p[x]?).map fun c => if x = i then other c else c := by
  rw [suffixDecoy, List.append_assoc, List.getElem?_append_left (by simp; omega),
    List.getElem?_mapIdx, List.getElem?_take_of_lt hx]

theorem suffixDecoy_right (hx : x < p.length) (hd : d ≤ p.length) :
    (suffixDecoy p other i d ++ zs)[d + x]? = p[x]? := by
  have hlength : ((p.take d).mapIdx fun x c => if x = i then other c else c).length = d := by
    simp; omega
  rw [suffixDecoy, List.append_assoc, List.getElem?_append_right (by omega), hlength,
    Nat.add_sub_cancel_left, List.getElem?_append_left hx]

end Decoy

/-- A word that is not safe has a text that is a trap, whatever follows behind it. -/
theorem exists_suffixTrap [Nontrivial α] (h : ¬ SuffixSafe p) :
    ∃ ys : List α, ∃ i d, ys.length = d + p.length ∧ ∀ zs, SuffixTrap p (ys ++ zs) i d := by
  obtain ⟨other, hother⟩ : ∃ other : α → α, ∀ c, other c ≠ c :=
    ⟨fun c => (exists_ne c).choose, fun c => (exists_ne c).choose_spec⟩
  simp only [SuffixSafe, not_forall] at h
  obtain ⟨i, d, hd, hdi, hover, hno⟩ := h
  have hdp : d ≤ p.length := by omega
  have hlength := suffixDecoy_length (i := i) other hdp
  refine ⟨suffixDecoy p other i d, i, d, hlength, fun zs => ⟨hd, hdi, ?_, fun k hik hk => ?_, ?_⟩⟩
  · rw [sameLetter, Nat.zero_add, beq_eq_false_iff_ne]
    rcases Nat.lt_or_ge i d with hlt | hge
    · rw [suffixDecoy_left other zs hlt hdp, List.getElem?_eq_getElem (by omega)]
      simpa using hother _
    · have hletter := suffixDecoy_right (i := i) (x := i - d) other zs (by omega) hdp
      rw [Nat.add_sub_cancel' hge] at hletter
      rw [hletter]
      exact fun e => hno ⟨hge, e⟩
  · rw [sameLetter, Nat.zero_add, beq_iff_eq]
    rcases Nat.lt_or_ge k d with hlt | hge
    · rw [suffixDecoy_left other zs hlt hdp, List.getElem?_eq_getElem hk]
      simp only [Option.map_some, if_neg (by omega : ¬ k = i)]
    · have hletter := suffixDecoy_right (i := i) (x := k - d) other zs (by omega) hdp
      have hsame := hover (k - d) (by omega) (by omega)
      rw [Nat.add_sub_cancel' hge] at hletter
      rw [Nat.sub_add_cancel hge] at hsame
      rw [hletter, hsame]
  · rw [occursAt_map_some, List.length_append]
    exact ⟨by omega, fun x hx => suffixDecoy_right other zs hx hdp⟩

theorem exists_jump_over_suffix [Nontrivial α] {q : List (Option α)} (T : BadCharTable q)
    (h : ¬ SuffixSafe p) :
    ∃ xs : List α, xs.length < 2 * p.length ∧ ¬ (turbo T p xs).NoJumpOver (0, 0) := by
  obtain ⟨ys, i, d, hlength, htrap⟩ := exists_suffixTrap h
  have htrap := htrap []
  rw [List.append_nil] at htrap
  have hpos := htrap.pos
  have hlt := htrap.lt
  refine ⟨ys, by omega, fun hjump => ?_⟩
  have hbound : 0 < ys.length + 1 - p.length := by omega
  refine hjump (0, 0) (.here hbound) htrap.miss d hpos (htrap.next_gt T) ?_ htrap.occurs
  simp only [turbo]
  omega

/-- **When the jumps by the matched suffix are safe.** -/
theorem forall_turbo_iff [Nontrivial α] (hp : 0 < p.length) {q : List (Option α)}
    (hq : q = p.map some) (T : BadCharTable q) :
    (∀ xs : List α, xs.length < 2 * p.length → (turbo T p xs).NoJumpOver (0, 0)) ↔
      SuffixSafe p := by
  constructor
  · intro h
    by_contra hno
    obtain ⟨xs, hlen, hjump⟩ := exists_jump_over_suffix T hno
    exact hjump (h xs hlen)
  · intro h xs _
    exact h.noJumpOver hp hq T xs (0, 0)

end Turbo

/-! ## Words that occur in the same texts -/

section Separation

/-- A text of the word's length, in which its open letters are filled. -/
def filled (p : List (Option α)) (filler : α) : List α := p.map fun a => a.getD filler

@[simp] theorem filled_length (p : List (Option α)) (filler : α) :
    (filled p filler).length = p.length := List.length_map _

theorem filled_getElem? {p : List (Option α)} {filler : α} {i : ℕ} {a : Option α} (h : p[i]? = some a) :
    (filled p filler)[i]? = some (a.getD filler) := by
  rw [filled, List.getElem?_map, h, Option.map_some]

theorem occursAt_filled (p : List (Option α)) (filler : α) : OccursAt p (filled p filler) 0 := by
  refine ⟨by rw [Nat.zero_add, filled_length], fun i a ha => ?_⟩
  rw [Nat.zero_add, filled_getElem? ha, Option.getD_some]

theorem not_occursAt_filled_of_ne {p q : List (Option α)} {filler a b : α} {i : ℕ} {c : Option α}
    (hp : p[i]? = some c) (hc : c.getD filler = b) (hq : q[i]? = some (some a)) (hne : b ≠ a) :
    ¬ OccursAt q (filled p filler) 0 := by
  intro hocc
  have hmeet := hocc.2 i a hq
  rw [Nat.zero_add, filled_getElem? hp, hc] at hmeet
  exact hne (Option.some.inj hmeet)

/-- Of two different words, one occurs in a text of its own length in which the other does not. -/
theorem exists_separating [Nontrivial α] {p q : List (Option α)} (hne : p ≠ q) :
    ∃ filler, ¬ OccursAt q (filled p filler) 0 ∨ ¬ OccursAt p (filled q filler) 0 := by
  obtain ⟨x⟩ : Nonempty α := inferInstance
  by_cases hlen : p.length = q.length
  · obtain ⟨i, hi⟩ : ∃ i, p[i]? ≠ q[i]? := by
      by_contra hall
      exact hne (List.ext_getElem? fun i => by_contra fun h => hall ⟨i, h⟩)
    cases hp : p[i]? with
    | none =>
      rw [hp, List.getElem?_eq_none (hlen ▸ List.getElem?_eq_none_iff.mp hp)] at hi
      exact absurd rfl hi
    | some a =>
      cases hq : q[i]? with
      | none =>
        rw [hq, List.getElem?_eq_none (hlen ▸ List.getElem?_eq_none_iff.mp hq)] at hi
        exact absurd rfl hi
      | some b =>
        have hab : a ≠ b := fun he => hi (by rw [hp, hq, he])
        cases b with
        | none =>
          cases a with
          | none => exact absurd rfl hab
          | some a =>
            obtain ⟨filler, hfiller⟩ := exists_ne a
            exact ⟨filler, .inr (not_occursAt_filled_of_ne hq rfl hp hfiller)⟩
        | some b =>
          obtain ⟨filler, hfiller⟩ := exists_ne b
          refine ⟨filler, .inl (not_occursAt_filled_of_ne hp rfl hq ?_)⟩
          cases a with
          | none => exact hfiller
          | some a => exact fun he => hab (congrArg some he)
  · refine ⟨x, ?_⟩
    rcases Nat.lt_or_gt_of_ne hlen with hlt | hgt
    · left
      intro hocc
      have hfit := hocc.1
      rw [filled_length] at hfit
      omega
    · right
      intro hocc
      have hfit := hocc.1
      rw [filled_length] at hfit
      omega

end Separation

end Search
