import Wincpp.Patterns.Horspool

/-! What `index_of< naive_t >` computes.

The inner loop is bounded by the pattern alone. At a position whose comparison runs out, because the
buffer or the `int` that counts the pattern's bytes ends before a byte differs, it reads behind the
buffer, overflows, or takes the wildcards at the pattern's end for a match. The outer loop gets there
exactly when the pattern does not occur in front of that position (`indexesFirst_naive_iff`).
-/
namespace Wincpp.Scanner
open Search
set_option autoImplicit false

/-- The pattern agrees with the buffer from `w` on up to the end of the buffer, or on its first
`2 ^ 31` bytes, and is longer than that. -/
def RunsOut (pattern : Pattern) (buffer : Span) (w : ℕ) : Prop :=
  w < buffer.size ∧ min (buffer.size - w) (2 ^ 31) < pattern.size ∧
    ∀ i < min (buffer.size - w) (2 ^ 31), meetsAt pattern.word buffer.bytes w i = true

variable {pattern : Pattern} {buffer : Span}

/-! ## One position -/

theorem differs_eq_true {i w : ℕ} (hi : i < pattern.size)
    (h : differs pattern buffer i (w + i) = .ok true) :
    w + i < buffer.size ∧ meetsAt pattern.word buffer.bytes w i = false := by
  have hlt : w + i < buffer.size := by
    obtain ⟨m, hm⟩ := pattern.exists_mask hi
    rw [differs, index_of_getElem? hm, Run.ok_bind] at h
    cases m with
    | false => cases h
    | true =>
      obtain ⟨b, -, h⟩ := Run.bind_eq_ok h
      obtain ⟨c, hc, -⟩ := Run.bind_eq_ok h
      obtain ⟨n, hn, hc⟩ := Run.bind_eq_ok hc
      have hn : (n : ℤ) = w + i := sizeT_eq_ok hn
      have hlt : n < buffer.size := (List.getElem?_eq_some_iff.mp (getElem?_of_index hc)).1
      omega
  rw [differs_ok pattern buffer hi hlt] at h
  exact ⟨hlt, by simpa using h⟩

/-- A byte that differs before the comparison runs out ends it. -/
theorem naiveMatch_of_differs {w i : ℕ} (hi : i < pattern.size) (hw : w + i < buffer.size)
    (hint : i < 2 ^ 31) (hm : meetsAt pattern.word buffer.bytes w i = false) (rest : ℕ)
    (hrest : rest ≤ pattern.size) (hge : pattern.size - rest ≤ i) :
    naiveMatch pattern buffer w rest = .ok false := by
  induction rest with
  | zero => omega
  | succ rest ih =>
    rw [naiveMatch, differs_ok pattern buffer (by omega) (by omega), Run.ok_bind]
    cases hm' : meetsAt pattern.word buffer.bytes w (pattern.size - (rest + 1)) with
    | false => rfl
    | true =>
      have hne : i ≠ pattern.size - (rest + 1) := by
        rintro rfl
        rw [hm] at hm'
        cases hm'
      have hnext : int32 (((pattern.size - (rest + 1) : ℕ) : ℤ) + 1) =
          .ok (((pattern.size - (rest + 1) : ℕ) : ℤ) + 1) := if_pos (by omega)
      rw [Bool.not_true, if_neg Bool.false_ne_true, if_neg (by omega), hnext, Run.ok_bind]
      exact ih (by omega) (by omega)

theorem naiveMatch_of_meets {w : ℕ} (hw : w + pattern.size ≤ buffer.size)
    (hint : pattern.size ≤ 2 ^ 31)
    (hmeets : ∀ i < pattern.size, meetsAt pattern.word buffer.bytes w i = true) (rest : ℕ)
    (hpos : 0 < rest) (hrest : rest ≤ pattern.size) :
    naiveMatch pattern buffer w rest = .ok true := by
  induction rest with
  | zero => omega
  | succ rest ih =>
    rw [naiveMatch, differs_ok pattern buffer (by omega) (by omega), Run.ok_bind,
      hmeets _ (by omega), Bool.not_true, if_neg Bool.false_ne_true]
    split
    · rfl
    · have hnext : int32 (((pattern.size - (rest + 1) : ℕ) : ℤ) + 1) =
          .ok (((pattern.size - (rest + 1) : ℕ) : ℤ) + 1) := if_pos (by omega)
      rw [hnext, Run.ok_bind]
      exact ih (by omega) (by omega)

/-- Only a byte that differs before the comparison runs out makes a position a miss. -/
theorem naiveMatch_eq_false {w : ℕ} (rest : ℕ) (hpos : 0 < rest) (hrest : rest ≤ pattern.size)
    (hint : pattern.size - rest < 2 ^ 31) (h : naiveMatch pattern buffer w rest = .ok false) :
    ∃ i < pattern.size, w + i < buffer.size ∧ i < 2 ^ 31 ∧
      meetsAt pattern.word buffer.bytes w i = false := by
  induction rest with
  | zero => omega
  | succ rest ih =>
    obtain ⟨d, hd, h⟩ := Run.bind_eq_ok h
    cases d with
    | true =>
      obtain ⟨hw, hm⟩ := differs_eq_true (by omega) hd
      exact ⟨_, by omega, hw, hint, hm⟩
    | false =>
      rw [if_neg Bool.false_ne_true] at h
      split at h
      · cases h
      · obtain ⟨z, hz, h⟩ := Run.bind_eq_ok h
        have hlt := int32_lt hz
        exact ih (by omega) (by omega) (by omega) h

theorem size_le_of_naiveMatch {w : ℕ} (rest : ℕ) (hpos : 0 < rest) (hrest : rest ≤ pattern.size)
    (hint : pattern.size - rest < 2 ^ 31) (h : naiveMatch pattern buffer w rest = .ok true) :
    pattern.size ≤ 2 ^ 31 := by
  induction rest with
  | zero => omega
  | succ rest ih =>
    obtain ⟨d, -, h⟩ := Run.bind_eq_ok h
    split at h
    · cases h
    · split at h
      · omega
      · obtain ⟨z, hz, h⟩ := Run.bind_eq_ok h
        have hlt := int32_lt hz
        exact ih (by omega) (by omega) (by omega) h

/-- A position at which the comparison does not run out is answered correctly. -/
theorem naiveMatch_ok {w : ℕ} (hpos : 0 < pattern.size) (hw : w < buffer.size)
    (h : ¬ RunsOut pattern buffer w) :
    (OccursAt pattern.word buffer.bytes w ∧ naiveMatch pattern buffer w pattern.size = .ok true) ∨
      (¬ OccursAt pattern.word buffer.bytes w ∧
        naiveMatch pattern buffer w pattern.size = .ok false) := by
  by_cases hall : ∀ i < min pattern.size (min (buffer.size - w) (2 ^ 31)),
      meetsAt pattern.word buffer.bytes w i = true
  · have hlong : pattern.size ≤ min (buffer.size - w) (2 ^ 31) := by
      by_contra hlt
      exact h ⟨hw, by omega, fun i hi => hall i (by omega)⟩
    have hmeets : ∀ i < pattern.size, meetsAt pattern.word buffer.bytes w i = true :=
      fun i hi => hall i (by omega)
    refine .inl ⟨⟨by rw [pattern.word_length]; exact (by omega : w + pattern.size ≤ buffer.size),
      fun i a ha => ?_⟩, naiveMatch_of_meets (by omega) (by omega) hmeets _ hpos (le_refl _)⟩
    have hi : i < pattern.size := by
      rw [← pattern.word_length]
      exact (List.getElem?_eq_some_iff.mp ha).1
    exact (meetsAt_iff _ _ _ _).mp (hmeets i hi) a ha
  · obtain ⟨i, hi, hm⟩ : ∃ i < min pattern.size (min (buffer.size - w) (2 ^ 31)),
        meetsAt pattern.word buffer.bytes w i = false := by
      simpa only [not_forall, Bool.not_eq_true, exists_prop] using hall
    refine .inr ⟨fun hocc => ?_, naiveMatch_of_differs (i := i) (by omega) (by omega) (by omega) hm _
      (le_refl _) (by omega)⟩
    rw [(meetsAt_iff _ _ _ _).mpr (hocc.2 i)] at hm
    cases hm

/-! ## The loop -/

theorem naiveLoop_ok (hpos : 0 < pattern.size)
    (hreach : ∀ w, RunsOut pattern buffer w → ∃ w' < w, OccursAt pattern.word buffer.bytes w')
    (rest : ℕ) (hrest : rest ≤ buffer.size)
    (hbefore : ∀ k < buffer.size - rest, ¬ OccursAt pattern.word buffer.bytes k) :
    ∃ r, naiveLoop pattern buffer rest = .ok (encode r) ∧
      IsFirst (OccursAt pattern.word buffer.bytes) r := by
  have hmax := buffer.size_lt_max
  induction rest with
  | zero =>
    refine ⟨none, rfl, fun k hk => ?_⟩
    have hlen : k + pattern.size ≤ buffer.size := pattern.word_length ▸ hk.1
    exact hbefore k (by omega) hk
  | succ rest ih =>
    have hno : ¬ RunsOut pattern buffer (buffer.size - (rest + 1)) := by
      intro hout
      obtain ⟨w', hlt, hocc⟩ := hreach _ hout
      exact hbefore w' hlt hocc
    rw [naiveLoop]
    rcases naiveMatch_ok hpos (by omega) hno with ⟨hocc, hm⟩ | ⟨hocc, hm⟩
    · refine ⟨some (buffer.size - (rest + 1)), ?_, hocc, fun k hk => ?_⟩
      · rw [hm, Run.ok_bind, if_pos rfl, int64_natCast (by omega), encode_some]
      · by_contra hlt
        exact hbefore k (by omega) hk
    · rw [hm, Run.ok_bind, if_neg Bool.false_ne_true]
      apply ih (by omega)
      intro k hk hk'
      rcases Nat.lt_or_ge k (buffer.size - (rest + 1)) with hlt | hge
      · exact hbefore k hlt hk'
      · have he : k = buffer.size - (rest + 1) := by omega
        exact hocc (he ▸ hk')

/-- A run that returns, although a comparison runs out, has taken one of the positions up to there for
a match. -/
theorem naiveLoop_of_runsOut {w : ℕ} (hpos : 0 < pattern.size) (hout : RunsOut pattern buffer w)
    (rest : ℕ) (hrest : rest ≤ buffer.size) (hw : buffer.size - rest ≤ w) {z : ℤ}
    (h : naiveLoop pattern buffer rest = .ok z) :
    ∃ k ≤ w, z = k ∧ naiveMatch pattern buffer k pattern.size = .ok true := by
  induction rest with
  | zero =>
    have hlt := hout.1
    omega
  | succ rest ih =>
    obtain ⟨found, hfound, h⟩ := Run.bind_eq_ok h
    cases found with
    | true =>
      rw [if_pos rfl] at h
      exact ⟨_, hw, int64_eq_ok h, hfound⟩
    | false =>
      have hne : buffer.size - (rest + 1) ≠ w := by
        rintro rfl
        obtain ⟨i, hi, hlt, hint, hm⟩ :=
          naiveMatch_eq_false _ hpos (le_refl _) (by omega) hfound
        rw [hout.2.2 i (by omega)] at hm
        cases hm
      rw [if_neg Bool.false_ne_true] at h
      exact ih (by omega) (by omega) h

/-- The search stays inside the buffer and returns the first occurrence exactly when every position at
which a comparison runs out lies behind an occurrence. -/
theorem indexesFirst_naive_iff (pattern : Pattern) (buffer : Span) (hsize : 1 ≤ pattern.size) :
    IndexesFirst pattern buffer .naive ↔
      ∀ w, RunsOut pattern buffer w → ∃ w' < w, OccursAt pattern.word buffer.bytes w' := by
  constructor
  · rintro ⟨r, hr, hfirst⟩ w hout
    by_contra hno
    have hloop : naiveLoop pattern buffer buffer.size = .ok (encode r) := hr
    have hstart : buffer.size - buffer.size ≤ w := by omega
    obtain ⟨k, hk, hz, hm⟩ := naiveLoop_of_runsOut hsize hout buffer.size le_rfl hstart hloop
    have hr : r = some k := encode_injective (hz.trans (encode_some k).symm)
    subst hr
    have hocc : OccursAt pattern.word buffer.bytes k := hfirst.1
    have he : k = w := by
      by_contra hne
      exact hno ⟨k, by omega, hocc⟩
    -- the pattern occurs at `w`, so that only its length can make the comparison run out
    have hfit : k + pattern.size ≤ buffer.size := pattern.word_length ▸ hocc.1
    have hint := size_le_of_naiveMatch _ hsize (le_refl _) (by omega) hm
    have hshort := hout.2.1
    omega
  · intro hreach
    exact naiveLoop_ok hsize hreach buffer.size (le_refl _) fun k hk => by omega

/-- The buffer ends in the first byte of the pattern. -/
theorem indexesFirst_naive_overread :
    ¬ IndexesFirst (.ofBytes [1, 2]) ⟨[0, 1], by decide⟩ .naive := by
  rintro ⟨r, hr, -⟩
  have herror : indexOf (.ofBytes [1, 2]) ⟨[0, 1], by decide⟩ .naive = .error .outOfRange := by decide
  rw [herror] at hr
  cases hr

theorem indexesFirst_naive_iff_sig :
    IndexesFirst (.ofMask [1, 0] ['x', '?'] (by decide)) ⟨[0, 1, 2, 1], by decide⟩ .naive ↔
      ∀ w, RunsOut (.ofMask [1, 0] ['x', '?'] (by decide)) ⟨[0, 1, 2, 1], by decide⟩ w →
        ∃ w' < w, OccursAt (Pattern.ofMask [1, 0] ['x', '?'] (by decide)).word [0, 1, 2, 1] w' :=
  indexesFirst_naive_iff (.ofMask [1, 0] ['x', '?'] (by decide)) ⟨[0, 1, 2, 1], by decide⟩ (by decide)

end Wincpp.Scanner
