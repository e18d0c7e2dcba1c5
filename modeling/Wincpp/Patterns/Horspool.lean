import Mathlib.Tactic.IntervalCases
import Wincpp.Patterns.Scanner

/-! What `index_of< bmh_t >` computes.

The loop is the bad-character sweep of the pattern's masked word (`indexOfBmh_eq`), so that the
results about sweeps and tables say when it finds the first occurrence.
-/
namespace Wincpp.Scanner
open Search
set_option autoImplicit false

variable (pattern : Pattern) (buffer : Span)

def encode (r : Option ℕ) : ℤ := r.elim (-1) fun k => (k : ℤ)

@[simp] theorem encode_none : encode none = -1 := rfl
@[simp] theorem encode_some (k : ℕ) : encode (some k) = (k : ℤ) := rfl

/-! ## The skip table -/

/-- After `i` rounds the table holds, for every byte, the jump that the first `i` positions of the
pattern ask for. -/
theorem skipTable_ok (i : ℕ) (hi : i ≤ pattern.size) :
    ∃ table, skipTable pattern i = .ok table ∧ ∀ a, skip table a = badCharShift pattern.word i a := by
  induction i with
  | zero =>
    refine ⟨_, rfl, fun a => ?_⟩
    simp [skip, badCharShift, lastFailure]
  | succ i ih =>
    obtain ⟨table, htable, hskip⟩ := ih (by omega)
    obtain ⟨b, hb⟩ := pattern.exists_byte (i := i) (by omega)
    obtain ⟨m, hm⟩ := pattern.exists_mask (i := i) (by omega)
    have hword := Pattern.word_getElem? hb hm
    simp only [skipTable, htable, index_of_getElem? hm, index_of_getElem? hb, Run.ok_bind,
      Run.pure_eq_ok, badCharShift_succ, hword, Option.some.injEq, Pattern.word_length]
    cases m with
    | false => exact ⟨table, rfl, fun a => by simp [hskip a]⟩
    | true =>
      refine ⟨_, rfl, fun a => ?_⟩
      simp only [skip, Vector.getElem_set, UInt8.toNat_inj, if_true, Option.some.injEq]
      split
      · rfl
      · exact hskip a

/-! ## One window -/

theorem int64_size_sub_one {n : ℕ} (h : n < 2 ^ 63) :
    int64 ((n : ℤ) - 1) = .ok ((n : ℤ) - 1) ∧ ((n : ℤ) - 1 + 1).toNat = n :=
  ⟨if_pos (by omega), by omega⟩

theorem lastByte_ok {n w : ℕ} {b : UInt8} (hn : 0 < n)
    (hb : buffer.bytes[w + (n - 1)]? = some b) : buffer.byteAt ((w : ℤ) + n - 1) = .ok b := by
  have h := Span.byteAt_natCast hb
  rwa [show ((w + (n - 1) : ℕ) : ℤ) = (w : ℤ) + n - 1 by omega] at h

theorem differs_ok {i w : ℕ} (hi : i < pattern.size) (hw : w + i < buffer.size) :
    differs pattern buffer i (w + i) = .ok (!meetsAt pattern.word buffer.bytes w i) := by
  obtain ⟨b, hb⟩ := pattern.exists_byte hi
  obtain ⟨m, hm⟩ := pattern.exists_mask hi
  obtain ⟨c, hc⟩ := buffer.exists_byte hw
  have hread : buffer.byteAt ((w : ℤ) + i) = .ok c := by
    have := Span.byteAt_natCast hc
    rwa [Nat.cast_add] at this
  rw [differs, index_of_getElem? hm, Run.ok_bind, meetsAt, Pattern.word_getElem? hb hm]
  cases m with
  | false => simp
  | true => simp [index_of_getElem? hb, hread, hc, bne, eq_comm]

theorem bmhMatch_ok {w : ℕ} (hw : w + pattern.size ≤ buffer.size) (k : ℕ) (hk : k ≤ pattern.size) :
    bmhMatch pattern buffer w k =
      .ok (encode (lastFailure (meetsAt pattern.word buffer.bytes w) k)) := by
  induction k with
  | zero => rfl
  | succ k ih =>
    rw [bmhMatch, differs_ok pattern buffer (by omega) (by omega), Run.ok_bind, lastFailure,
      ih (by omega)]
    cases meetsAt pattern.word buffer.bytes w k <;> rfl

/-! ## The loop -/

def horspool (h : 0 < pattern.word.length) : Sweep ℕ :=
  (badCharTable pattern.word h).sweep buffer.bytes

theorem horspool_bound (h : 0 < pattern.word.length) :
    (horspool pattern buffer h).bound = buffer.size + 1 - pattern.size := by
  rw [← pattern.word_length]
  rfl

variable {pattern} in
theorem skip_bounds (h : 0 < pattern.word.length) {table : Vector ℕ 256}
    (htable : ∀ a, skip table a = (badCharTable pattern.word h).shift a) (a : UInt8) :
    0 < skip table a ∧ skip table a ≤ pattern.size := by
  rw [htable a, ← pattern.word_length]
  exact ⟨BadCharTable.shift_pos _ a, BadCharTable.shift_le_length _ a⟩

theorem bmhLoop_eq (h : 0 < pattern.word.length) (hfit : pattern.size ≤ buffer.size)
    {table : Vector ℕ 256}
    (htable : ∀ a, skip table a = (badCharTable pattern.word h).shift a) (fuel w : ℕ)
    (hpos : 0 < fuel) (hfuel : buffer.size + 1 < w + fuel + pattern.size) :
    bmhLoop pattern buffer table (buffer.size - pattern.size) fuel w =
      .ok (encode ((horspool pattern buffer h).run w)) := by
  have hsize : 0 < pattern.size := pattern.word_length ▸ h
  have hmax := buffer.size_lt_max
  have hbound := horspool_bound pattern buffer h
  induction fuel generalizing w with
  | zero => omega
  | succ fuel ih =>
    rw [bmhLoop]
    by_cases hw : w + pattern.size ≤ buffer.size
    · obtain ⟨hstart, hcount⟩ := int64_size_sub_one (n := pattern.size) (by omega)
      rw [if_pos (by omega), hstart, Run.ok_bind, hcount,
        bmhMatch_ok pattern buffer hw _ (le_refl _), Run.ok_bind]
      have hwb : (horspool pattern buffer h).pos w < (horspool pattern buffer h).bound := by
        rw [hbound]
        exact (by omega : w < buffer.size + 1 - pattern.size)
      have hiff := lastFailure_meetsAt_iff pattern.word buffer.bytes w
        (by rw [pattern.word_length]; exact hw)
      rw [pattern.word_length] at hiff
      cases hl : lastFailure (meetsAt pattern.word buffer.bytes w) pattern.size with
      | none =>
        rw [Sweep.run_of_hit _ hwb (hiff.mp hl)]
        rfl
      | some i =>
        have hmiss : ¬ (horspool pattern buffer h).hit w := fun ho => by
          rw [hiff.mpr ho] at hl
          cases hl
        rw [Sweep.run_of_miss _ hwb hmiss, encode_some, if_neg (by omega)]
        obtain ⟨b, hb⟩ := buffer.exists_byte (i := w + (pattern.size - 1)) (by omega)
        have hnext : (horspool pattern buffer h).next w = w + skip table b := by
          rw [htable b, ← BadCharTable.shiftAt_of_letter (badCharTable pattern.word h)
            (by rw [pattern.word_length]; exact hb : _ = some b)]
          rfl
        obtain ⟨hadv, hle⟩ := skip_bounds h htable b
        have hmove := int64_natCast (n := w + skip table b) (by omega)
        rw [Nat.cast_add] at hmove
        rw [lastByte_ok buffer hsize hb, Run.ok_bind, hmove, Run.ok_bind, hnext, ← Nat.cast_add]
        exact ih (w + skip table b) (by omega) (by omega)
    · rw [if_neg (by omega), Sweep.run_of_bound_le]
      · rfl
      · rw [hbound]
        exact (by omega : buffer.size + 1 - pattern.size ≤ w)

/-! ## The result -/

theorem cannotMatch_eq_true :
    cannotMatch pattern buffer = true ↔ pattern.size = 0 ∨ buffer.size < pattern.size := by
  simp only [cannotMatch, Bool.or_eq_true, decide_eq_true_eq]
  omega

/-- What a search sets up before its loop: the skip table and the last window. -/
theorem setup_ok (h : 0 < pattern.word.length) (hfit : pattern.size ≤ buffer.size) :
    ∃ table, skipTable pattern (pattern.size - 1) = .ok table ∧
      (∀ a, skip table a = (badCharTable pattern.word h).shift a) ∧
      int64 ((buffer.size : ℤ) - pattern.size) = .ok ((buffer.size : ℤ) - pattern.size) := by
  have hsize : 0 < pattern.size := pattern.word_length ▸ h
  have hmax := buffer.size_lt_max
  obtain ⟨table, htable, hskip⟩ := skipTable_ok pattern (pattern.size - 1) (by omega)
  refine ⟨table, htable, fun a => ?_, if_pos (by omega)⟩
  rw [hskip a, ← pattern.word_length]
  rfl

theorem indexOfBmh_eq (h : 0 < pattern.word.length) :
    indexOfBmh pattern buffer = .ok (encode ((horspool pattern buffer h).run 0)) := by
  have hsize : 0 < pattern.size := pattern.word_length ▸ h
  rw [indexOfBmh]
  split
  · rename_i hc
    rw [cannotMatch_eq_true] at hc
    rw [Sweep.run_of_bound_le]
    · rfl
    · have : buffer.size + 1 - pattern.word.length ≤ 0 := by rw [pattern.word_length]; omega
      exact this
  · rename_i hc
    rw [cannotMatch_eq_true] at hc
    obtain ⟨table, htable, hskip, hlast⟩ := setup_ok pattern buffer h (by omega)
    rw [htable, Run.ok_bind, hlast, Run.ok_bind]
    exact bmhLoop_eq pattern buffer h (by omega) hskip _ 0 (by omega) (by omega)

/-! ## When the first occurrence is found -/

/-- `index_of` returns the least offset at which the pattern occurs in the buffer, and `-1` when
there is none. -/
def IndexesFirst (algorithm : Algorithm) : Prop :=
  ∃ r, indexOf pattern buffer algorithm = .ok (encode r) ∧
    IsFirst (OccursAt pattern.word buffer.bytes) r

/-- `find` returns the least offset at which the pattern occurs in the buffer, and `nullopt` when
there is none. -/
def FindsFirst (algorithm : Algorithm) : Prop :=
  ∃ r, find pattern buffer algorithm = .ok r ∧ IsFirst (OccursAt pattern.word buffer.bytes) r

theorem encode_injective {r r' : Option ℕ} (h : encode r = encode r') : r = r' := by
  cases r with
  | none =>
    cases r' with
    | none => rfl
    | some k => rw [encode_none, encode_some] at h; omega
  | some k =>
    cases r' with
    | none => rw [encode_none, encode_some] at h; omega
    | some k' => rw [encode_some, encode_some, Nat.cast_inj] at h; rw [h]

theorem indexOf_of_find {algorithm : Algorithm} {r : Option ℕ}
    (h : find pattern buffer algorithm = .ok r) :
    indexOf pattern buffer algorithm = .ok (encode r) := by
  obtain ⟨z, hz, hr⟩ := Run.bind_eq_ok h
  rw [hz]
  split at hr
  · unfold sizeT at hr
    split at hr
    · cases hr
      rw [encode_some, Int.toNat_of_nonneg (by omega)]
    · cases hr
  · rename_i hne
    cases hr
    rw [encode_none, not_not.mp hne]

theorem find_of_indexOf {algorithm : Algorithm} {r : Option ℕ}
    (h : indexOf pattern buffer algorithm = .ok (encode r)) (hr : ∀ k, r = some k → k < 2 ^ 64) :
    find pattern buffer algorithm = .ok r := by
  rw [find, h, Run.ok_bind]
  cases r with
  | none => rfl
  | some k =>
    rw [encode_some, if_pos (by omega), sizeT_natCast (hr k rfl)]
    rfl

theorem findsFirst_iff_indexesFirst (algorithm : Algorithm) :
    FindsFirst pattern buffer algorithm ↔ IndexesFirst pattern buffer algorithm := by
  have hmax := buffer.size_lt_max
  constructor
  · rintro ⟨r, hr, hfirst⟩
    exact ⟨r, indexOf_of_find pattern buffer hr, hfirst⟩
  · rintro ⟨r, hr, hfirst⟩
    refine ⟨r, find_of_indexOf pattern buffer hr fun k hk => ?_, hfirst⟩
    subst hk
    have hlen : k + pattern.word.length ≤ buffer.size := hfirst.1.1
    omega

theorem hitFrom_zero_horspool (h : 0 < pattern.word.length) (k : ℕ) :
    (horspool pattern buffer h).HitFrom 0 k ↔ OccursAt pattern.word buffer.bytes k := by
  constructor
  · rintro ⟨-, -, hocc⟩
    exact hocc
  · intro hocc
    have hlen := hocc.1
    refine ⟨Nat.zero_le k, ?_, hocc⟩
    exact (by omega : k < buffer.bytes.length + 1 - pattern.word.length)

/-- A search that runs a sweep whose hits are the occurrences finds the first one exactly when no
jump of the sweep passes over one. -/
theorem indexesFirst_iff_noJumpOver {σ : Type} {S : Sweep σ} {s : σ} {algorithm : Algorithm}
    (hrun : indexOf pattern buffer algorithm = .ok (encode (S.run s)))
    (hhit : ∀ k, S.HitFrom s k ↔ OccursAt pattern.word buffer.bytes k) :
    IndexesFirst pattern buffer algorithm ↔ S.NoJumpOver s := by
  rw [← Sweep.run_isFirst_iff]
  refine ⟨fun ⟨r, hr, hfirst⟩ => ?_, fun hfirst => ⟨_, hrun, hfirst.congr hhit⟩⟩
  rw [encode_injective (Except.ok.inj (hrun.symm.trans hr))]
  exact hfirst.congr fun k => (hhit k).symm

theorem indexesFirst_bmh_iff_noJumpOver (h : 0 < pattern.word.length) :
    IndexesFirst pattern buffer .bmh ↔ (horspool pattern buffer h).NoJumpOver 0 :=
  indexesFirst_iff_noJumpOver pattern buffer (indexOfBmh_eq pattern buffer h)
    (hitFrom_zero_horspool pattern buffer h)

theorem findsFirst_bmh_iff_noJumpOver (h : 0 < pattern.word.length) :
    FindsFirst pattern buffer .bmh ↔ (horspool pattern buffer h).NoJumpOver 0 := by
  rw [findsFirst_iff_indexesFirst, indexesFirst_bmh_iff_noJumpOver pattern buffer h]

theorem indexesFirst_bmh_of_openShadowed (h : 0 < pattern.size) (hs : OpenShadowed pattern.word) :
    IndexesFirst pattern buffer .bmh := by
  have hw : 0 < pattern.word.length := by rw [pattern.word_length]; exact h
  rw [indexesFirst_bmh_iff_noJumpOver pattern buffer hw]
  exact hs.noJumpOver hw _ _ 0

/-- Whatever its wildcards are, the search reports only occurrences. -/
theorem indexOf_bmh_sound (h : 0 < pattern.size) :
    ∃ r, indexOf pattern buffer .bmh = .ok (encode r) ∧
      ∀ k, r = some k → OccursAt pattern.word buffer.bytes k := by
  have hw : 0 < pattern.word.length := by rw [pattern.word_length]; exact h
  refine ⟨_, indexOfBmh_eq pattern buffer hw, fun k hk => ?_⟩
  exact (Sweep.run_sound _ 0 hk).2.2

theorem find_bmh_ok (h : 0 < pattern.size) : ∃ r, find pattern buffer .bmh = .ok r := by
  obtain ⟨r, hr, hocc⟩ := indexOf_bmh_sound pattern buffer h
  refine ⟨r, find_of_indexOf pattern buffer hr fun k hk => ?_⟩
  have hlen := (hocc k hk).1
  have hmax := buffer.size_lt
  omega

theorem indexOf_bmh_of_occursAt_zero (h : 0 < pattern.size)
    (hocc : OccursAt pattern.word buffer.bytes 0) :
    indexOf pattern buffer .bmh = .ok (encode (some 0)) := by
  have hw : 0 < pattern.word.length := by rw [pattern.word_length]; exact h
  have hlen := hocc.1
  rw [indexOf, indexOfBmh_eq pattern buffer hw, Sweep.run_of_hit _ ?_ hocc]
  · rfl
  · exact (by omega : 0 < buffer.bytes.length + 1 - pattern.word.length)

theorem find_bmh_sound (h : 0 < pattern.size) {k : ℕ}
    (hk : find pattern buffer .bmh = .ok (some k)) : OccursAt pattern.word buffer.bytes k := by
  obtain ⟨r, hr, hocc⟩ := indexOf_bmh_sound pattern buffer h
  rw [indexOf_of_find pattern buffer hk] at hr
  exact hocc k (encode_injective (Except.ok.inj hr)).symm

/-- The search finds the first occurrence in a buffer exactly when none of its jumps passes over
one, and does so in every buffer exactly when all bytes of the pattern are wildcards or every
wildcard before the last byte is followed, still before the last byte, by strict bytes of all 256
values. -/
theorem findsFirst_bmh_iff (aob : List UInt8) (smask : List Char)
    (haob : smask.length ≤ aob.length) (hsize : 0 < (Pattern.ofMask aob smask haob).word.length) :
    (∀ buffer, FindsFirst (.ofMask aob smask haob) buffer .bmh ↔
      (horspool (.ofMask aob smask haob) buffer hsize).NoJumpOver 0) ∧
    (2 * smask.length ≤ 2 ^ 63 →
      ((∀ buffer, FindsFirst (.ofMask aob smask haob) buffer .bmh) ↔
        AllOpen (Pattern.ofMask aob smask haob).word ∨
          OpenShadowed (Pattern.ofMask aob smask haob).word)) := by
  refine ⟨fun buffer => findsFirst_bmh_iff_noJumpOver _ buffer hsize, fun hlen => ?_⟩
  have hword : (Pattern.ofMask aob smask haob).word.length = smask.length := Pattern.word_length _
  constructor
  · intro hall
    have : Nontrivial UInt8 := ⟨0, 1, by decide⟩
    rw [← forall_horspool_iff hsize (badCharTable _ hsize)]
    intro xs hxs
    exact (findsFirst_bmh_iff_noJumpOver _ ⟨xs, by omega⟩ hsize).mp (hall _)
  · intro hsafe buffer
    rw [findsFirst_bmh_iff_noJumpOver _ buffer hsize]
    rcases hsafe with hopen | hshadowed
    · exact hopen.noJumpOver _ _ 0
    · exact hshadowed.noJumpOver hsize _ _ 0

/-- The window `00 01 05` of the buffer `00 01 05 02` misses and is left by three bytes, because
`05` is no strict byte of `01 ? 02`; the occurrence at offset 1 has that byte under its wildcard. -/
theorem findsFirst_bmh_skipped :
    ¬ FindsFirst (.ofMask [1, 0, 2] ['x', '?', 'x'] (by decide)) ⟨[0, 1, 5, 2], by decide⟩ .bmh := by
  rintro ⟨r, hr, hfirst⟩
  have hnone : find (.ofMask [1, 0, 2] ['x', '?', 'x'] (by decide)) ⟨[0, 1, 5, 2], by decide⟩ .bmh =
      .ok none := by decide
  rw [hnone] at hr
  cases hr
  refine hfirst 1 ⟨by decide, fun i a ha => ?_⟩
  have hi : i < 3 := (List.getElem?_eq_some_iff.mp ha).1
  interval_cases i <;> simp_all [Pattern.word, Pattern.ofMask]

theorem findsFirst_bmh_iff_sig :
    (∀ buffer, FindsFirst (.ofMask [0x48, 0x8b, 0, 0x05] ['x', 'x', '?', 'x'] (by decide)) buffer .bmh ↔
      (horspool (.ofMask [0x48, 0x8b, 0, 0x05] ['x', 'x', '?', 'x'] (by decide)) buffer
        (by decide)).NoJumpOver 0) ∧
    ((∀ buffer, FindsFirst (.ofMask [0x48, 0x8b, 0, 0x05] ['x', 'x', '?', 'x'] (by decide)) buffer .bmh) ↔
      AllOpen (Pattern.ofMask [0x48, 0x8b, 0, 0x05] ['x', 'x', '?', 'x'] (by decide)).word ∨
        OpenShadowed (Pattern.ofMask [0x48, 0x8b, 0, 0x05] ['x', 'x', '?', 'x'] (by decide)).word) := by
  have h := findsFirst_bmh_iff [0x48, 0x8b, 0, 0x05] ['x', 'x', '?', 'x'] (by decide) (by decide)
  exact ⟨h.1, h.2 (by decide)⟩

end Wincpp.Scanner
