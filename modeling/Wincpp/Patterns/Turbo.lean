import Wincpp.Patterns.Horspool

/-! What `index_of< tbm_t >` computes.

The loop is the sweep that jumps by the larger of the skip table's entry and the length of the
matched suffix, and forgets that length one window later (`indexOfTbm_eq`). The matched suffix is
no safe jump in general, so the first occurrence is found for some patterns only.
-/
namespace Wincpp.Scanner
open Search
set_option autoImplicit false

variable (pattern : Pattern) (buffer : Span)

theorem tbmMatch_ok {w : ℕ} (hw : w + pattern.size ≤ buffer.size) (k : ℕ) (hk : k ≤ pattern.size) :
    tbmMatch pattern buffer w k =
      .ok (encode (lastFailure (sameLetter pattern.bytes buffer.bytes w) k)) := by
  induction k with
  | zero => rfl
  | succ k ih =>
    obtain ⟨b, hb⟩ := pattern.exists_byte (i := k) (by omega)
    obtain ⟨c, hc⟩ := buffer.exists_byte (i := w + k) (by omega)
    have hread : buffer.byteAt ((w : ℤ) + k) = .ok c := by
      have := Span.byteAt_natCast hc
      rwa [Nat.cast_add] at this
    rw [tbmMatch, index_of_getElem? hb, Run.ok_bind, hread, Run.ok_bind, lastFailure, sameLetter,
      hb, hc, ih (by omega)]
    by_cases he : b = c
    · simp [he]
    · simp [he, Ne.symm he]

def turboSweep (h : 0 < pattern.word.length) : Sweep (ℕ × ℕ) :=
  turbo (badCharTable pattern.word h) pattern.bytes buffer.bytes

theorem turboSweep_bound (h : 0 < pattern.word.length) :
    (turboSweep pattern buffer h).bound = buffer.size + 1 - pattern.size := by
  rw [← pattern.bytes_length]
  rfl

theorem tbmShift_ok {i : ℕ} (hi : i < pattern.size) (hmax : pattern.size < 2 ^ 63) :
    tbmShift pattern i 0 = .ok ((pattern.size - 1 - i : ℕ) : ℤ) := by
  rw [tbmShift, sizeT_natCast (by omega), Run.ok_bind]
  split
  · have h := int64_natCast (n := pattern.size - 1 - i) (by omega)
    rwa [show ((pattern.size - 1 - i : ℕ) : ℤ) = (pattern.size : ℤ) - 1 - i by omega] at h ⊢
  · rw [show pattern.size - 1 - i = 0 by omega]
    rfl

theorem tbmLoop_eq (h : 0 < pattern.word.length) (hfit : pattern.size ≤ buffer.size)
    {table : Vector ℕ 256}
    (htable : ∀ a, skip table a = (badCharTable pattern.word h).shift a) (fuel w t : ℕ)
    (hpos : 0 < fuel) (hfuel : buffer.size + 1 < w + fuel + pattern.size) :
    tbmLoop pattern buffer table (buffer.size - pattern.size) fuel w t =
      .ok (encode ((turboSweep pattern buffer h).run (w, t))) := by
  have hsize : 0 < pattern.size := pattern.word_length ▸ h
  have hmax := buffer.size_lt_max
  have hbound := turboSweep_bound pattern buffer h
  induction fuel generalizing w t with
  | zero => omega
  | succ fuel ih =>
    rw [tbmLoop]
    by_cases hw : w + pattern.size ≤ buffer.size
    · obtain ⟨hstart, hcount⟩ := int64_size_sub_one (n := pattern.size) (by omega)
      rw [if_pos (by omega), hstart, Run.ok_bind, hcount,
        tbmMatch_ok pattern buffer hw _ (le_refl _), Run.ok_bind]
      have hwb : (turboSweep pattern buffer h).pos (w, t) < (turboSweep pattern buffer h).bound := by
        rw [hbound]
        exact (by omega : w < buffer.size + 1 - pattern.size)
      have hiff := lastFailure_sameLetter_iff pattern.bytes buffer.bytes w
        (by rw [pattern.bytes_length]; exact hw)
      rw [pattern.bytes_length] at hiff
      cases hl : lastFailure (sameLetter pattern.bytes buffer.bytes w) pattern.size with
      | none =>
        rw [Sweep.run_of_hit _ hwb (hiff.mp hl)]
        rfl
      | some i =>
        have hmiss : ¬ (turboSweep pattern buffer h).hit w := fun ho => by
          rw [hiff.mpr ho] at hl
          cases hl
        have hi := (lastFailure_eq_some hl).1
        rw [Sweep.run_of_miss _ hwb hmiss, encode_some, if_neg (by omega)]
        obtain ⟨b, hb⟩ := buffer.exists_byte (i := w + (pattern.size - 1)) (by omega)
        have hshift : (badCharTable pattern.word h).shiftAt buffer.bytes w = skip table b := by
          rw [htable b]
          exact BadCharTable.shiftAt_of_letter _ (by rw [pattern.word_length]; exact hb)
        have hsuffix : matchedSuffix pattern.bytes buffer.bytes w = pattern.size - 1 - i := by
          rw [matchedSuffix, pattern.bytes_length, hl]
          rfl
        obtain ⟨hadv, hle⟩ := skip_bounds h htable b
        rw [lastByte_ok buffer hsize hb, Run.ok_bind, int64_natCast (by omega), Run.ok_bind]
        rcases Nat.eq_zero_or_pos t with rfl | ht
        · have hnext : (turboSweep pattern buffer h).next (w, 0) =
              (w + max (skip table b) (pattern.size - 1 - i), pattern.size - 1 - i) := by
            simp only [turboSweep, turbo, lt_irrefl, if_false, hshift, hsuffix]
          have hmove := int64_natCast (n := w + max (skip table b) (pattern.size - 1 - i)) (by omega)
          rw [Nat.cast_add, Nat.cast_max] at hmove
          rw [if_neg (by omega), Nat.cast_zero, tbmShift_ok pattern hi (by omega), Run.ok_bind, hmove,
            Run.ok_bind, hnext, ← Nat.cast_max, ← Nat.cast_add]
          exact ih _ _ (by omega) (by omega)
        · have hnext : (turboSweep pattern buffer h).next (w, t) = (w + max 1 (skip table b), 0) := by
            simp only [turboSweep, turbo, ht, if_true, hshift]
          have hmove := int64_natCast (n := w + max 1 (skip table b)) (by omega)
          rw [if_pos (by omega), max_eq_left (by omega), hnext]
          rw [Nat.cast_add, Nat.cast_max, Nat.cast_one] at hmove
          rw [hmove, Run.ok_bind, ← Nat.cast_one, ← Nat.cast_max, ← Nat.cast_add]
          exact ih _ 0 (by omega) (by omega)
    · rw [if_neg (by omega), Sweep.run_of_bound_le]
      · rfl
      · rw [hbound]
        exact (by omega : buffer.size + 1 - pattern.size ≤ w)

theorem indexOfTbm_eq (h : 0 < pattern.word.length) :
    indexOfTbm pattern buffer = .ok (encode ((turboSweep pattern buffer h).run (0, 0))) := by
  have hsize : 0 < pattern.size := pattern.word_length ▸ h
  rw [indexOfTbm]
  split
  · rename_i hc
    rw [cannotMatch_eq_true] at hc
    rw [Sweep.run_of_bound_le]
    · rfl
    · have : buffer.size + 1 - pattern.bytes.length ≤ 0 := by rw [pattern.bytes_length]; omega
      exact this
  · rename_i hc
    rw [cannotMatch_eq_true] at hc
    obtain ⟨table, htable, hskip, hlast⟩ := setup_ok pattern buffer h (by omega)
    rw [htable, Run.ok_bind, hlast, Run.ok_bind]
    exact tbmLoop_eq pattern buffer h (by omega) hskip _ 0 0 (by omega) (by omega)

/-! ## When the first occurrence is found -/

theorem indexesFirst_tbm_iff_noJumpOver (h : 0 < pattern.word.length) (hs : pattern.Strict) :
    IndexesFirst pattern buffer .tbm ↔ (turboSweep pattern buffer h).NoJumpOver (0, 0) := by
  refine indexesFirst_iff_noJumpOver pattern buffer (indexOfTbm_eq pattern buffer h) fun k => ?_
  rw [hs.word_eq]
  refine ⟨fun ⟨_, _, hocc⟩ => hocc, fun hocc => ?_⟩
  have hlen := hocc.1
  rw [List.length_map] at hlen
  refine ⟨Nat.zero_le k, ?_, hocc⟩
  exact (by omega : k < buffer.bytes.length + 1 - pattern.bytes.length)

theorem find_tbm_ok (h : 0 < pattern.size) :
    ∃ r, find pattern buffer .tbm = .ok r ∧ ∀ k, r = some k → k + pattern.size ≤ buffer.size := by
  have hw : 0 < pattern.word.length := by rw [pattern.word_length]; exact h
  have hmax := buffer.size_lt_max
  have hfit : ∀ k, (turboSweep pattern buffer hw).run (0, 0) = some k →
      k + pattern.size ≤ buffer.size := by
    intro k hk
    have hbound := (Sweep.run_sound _ (0, 0) hk).2.1
    rw [turboSweep_bound] at hbound
    omega
  refine ⟨_, find_of_indexOf pattern buffer (indexOfTbm_eq pattern buffer hw) fun k hk => ?_, hfit⟩
  have := hfit k hk
  omega

/-- Every byte is compared, also those under wildcards. -/
theorem find_tbm_sound (h : 0 < pattern.size) {k : ℕ}
    (hk : find pattern buffer .tbm = .ok (some k)) :
    OccursAt (pattern.bytes.map some) buffer.bytes k := by
  have hw : 0 < pattern.word.length := by rw [pattern.word_length]; exact h
  have hrun := indexOf_of_find pattern buffer hk
  rw [indexOf, indexOfTbm_eq pattern buffer hw] at hrun
  exact (Sweep.run_sound _ (0, 0) (encode_injective (Except.ok.inj hrun))).2.2

/-- A copy of a strict pattern is found behind as many bytes that the pattern does not contain. -/
theorem find_tbm_behind (hpos : 0 < pattern.size) (hs : pattern.Strict) {x : UInt8}
    (hx : x ∉ pattern.bytes) (hlen : 2 * pattern.size ≤ buffer.size)
    (hfill : ∀ i < pattern.size, buffer.bytes[i]? = some x)
    (hcopy : ∀ i < pattern.size, buffer.bytes[pattern.size + i]? = pattern.bytes[i]?) :
    find pattern buffer .tbm = .ok (some pattern.size) := by
  have hw : 0 < pattern.word.length := by rw [pattern.word_length]; exact hpos
  have hmax := buffer.size_lt_max
  have hbytes := pattern.bytes_length
  have hbuffer : buffer.bytes.length = buffer.size := rfl
  have hother : ∀ i, i < pattern.size → pattern.bytes[i]? ≠ some x :=
    fun i _ he => hx (List.mem_of_getElem? he)
  -- the last byte of the first window is no byte of the pattern
  have hshift : (badCharTable pattern.word hw).shiftAt buffer.bytes 0 = pattern.size := by
    rw [BadCharTable.shiftAt_of_letter _ (b := x)
      (by rw [Nat.zero_add, pattern.word_length]; exact hfill _ (by omega))]
    by_contra hne
    have hle := (badCharTable pattern.word hw).shift_le_length x
    obtain ⟨j, hj, hletter, -⟩ := (badCharTable pattern.word hw).shift_eq x (by
      rw [pattern.word_length] at hle ⊢
      omega)
    rw [pattern.word_length] at hj
    rw [hs.word_eq, List.getElem?_map, Option.map_eq_some_iff] at hletter
    obtain ⟨a, ha, he⟩ := hletter
    rw [Option.some.inj he] at ha
    exact hother j (by omega) ha
  have hsuffix : matchedSuffix pattern.bytes buffer.bytes 0 = 0 := by
    have hfail : sameLetter pattern.bytes buffer.bytes 0 (pattern.size - 1) = false := by
      rw [sameLetter, Nat.zero_add, hfill _ (by omega), beq_eq_false_iff_ne]
      exact (hother _ (by omega)).symm
    rw [matchedSuffix, hbytes, lastFailure_eq_some_of (by omega) hfail fun k _ _ => by omega]
    simp
  have hmiss : ¬ OccursAt (pattern.bytes.map some) buffer.bytes 0 := by
    intro hocc
    rw [occursAt_map_some] at hocc
    have hfirst := hocc.2 0 (by omega)
    rw [Nat.add_zero, hfill 0 hpos] at hfirst
    exact hother 0 hpos hfirst.symm
  have hhit : OccursAt (pattern.bytes.map some) buffer.bytes pattern.size := by
    rw [occursAt_map_some]
    exact ⟨by omega, fun i hi => hcopy i (by omega)⟩
  have hnext : (turboSweep pattern buffer hw).next (0, 0) = (pattern.size, 0) := by
    simp only [turboSweep, turbo, lt_irrefl, if_false, hshift, hsuffix, Nat.zero_add, Nat.max_zero]
  have hbound := turboSweep_bound pattern buffer hw
  apply find_of_indexOf pattern buffer
  · have h0 : (turboSweep pattern buffer hw).pos (0, 0) < (turboSweep pattern buffer hw).bound := by
      rw [hbound]
      exact (by omega : 0 < buffer.size + 1 - pattern.size)
    have h1 : (turboSweep pattern buffer hw).pos (pattern.size, 0) <
        (turboSweep pattern buffer hw).bound := by
      rw [hbound]
      exact (by omega : pattern.size < buffer.size + 1 - pattern.size)
    rw [indexOf, indexOfTbm_eq pattern buffer hw, Sweep.run_of_miss _ h0 hmiss, hnext,
      Sweep.run_of_hit _ h1 hhit]
    rfl
  · intro k hk
    cases hk
    omega

/-- For a strict pattern the search returns the first occurrence in a buffer exactly when none of
its jumps passes over one, and does so in every buffer exactly when no suffix of the pattern is
found again, fewer places to the left than it is long, behind a different byte or the pattern's
start. -/
theorem indexesFirst_tbm_iff (hsize : 0 < pattern.word.length) (hs : pattern.Strict) :
    (∀ buffer, IndexesFirst pattern buffer .tbm ↔
      (turboSweep pattern buffer hsize).NoJumpOver (0, 0)) ∧
    (2 * pattern.size ≤ 2 ^ 63 →
      ((∀ buffer, IndexesFirst pattern buffer .tbm) ↔ SuffixSafe pattern.bytes)) := by
  refine ⟨fun buffer => indexesFirst_tbm_iff_noJumpOver pattern buffer hsize hs, fun hlen => ?_⟩
  have hbytes : 0 < pattern.bytes.length := by
    rwa [pattern.bytes_length, ← pattern.word_length]
  constructor
  · intro hall
    have : Nontrivial UInt8 := ⟨0, 1, by decide⟩
    rw [← forall_turbo_iff hbytes hs.word_eq (badCharTable _ hsize)]
    intro xs hxs
    rw [pattern.bytes_length] at hxs
    exact (indexesFirst_tbm_iff_noJumpOver pattern ⟨xs, by omega⟩ hsize hs).mp (hall _)
  · intro hsafe buffer
    rw [indexesFirst_tbm_iff_noJumpOver pattern buffer hsize hs]
    exact hsafe.noJumpOver hbytes hs.word_eq _ _ _

/-- The address `0x401000` of a vtable, eight bytes into a buffer that is zero before it. The window
at 0 matches the five zeros at the end of the address. The next windows are 5 and 6, in front of the
occurrence; the one at 6 matches three zeros, and the jump to 9 passes over the occurrence. -/
theorem indexesFirst_tbm_skipped :
    ¬ IndexesFirst (.ofBytes [0, 0x10, 0x40, 0, 0, 0, 0, 0])
      ⟨[0, 0, 0, 0, 0, 0, 0, 0, 0, 0x10, 0x40, 0, 0, 0, 0, 0], by decide⟩ .tbm := by
  rintro ⟨r, hr, hfirst⟩
  have hnone : indexOf (.ofBytes [0, 0x10, 0x40, 0, 0, 0, 0, 0])
      ⟨[0, 0, 0, 0, 0, 0, 0, 0, 0, 0x10, 0x40, 0, 0, 0, 0, 0], by decide⟩ .tbm =
        .ok (encode none) := by decide
  rw [hnone] at hr
  rw [← encode_injective (Except.ok.inj hr)] at hfirst
  apply hfirst 8
  rw [Pattern.ofBytes_word, occursAt_map_some]
  exact ⟨by decide, by decide⟩

theorem indexesFirst_tbm_iff_high_address :
    (∀ buffer, IndexesFirst (.ofBytes [0x78, 0x56, 0x34, 0x12, 0xf6, 0x7f, 0, 0]) buffer .tbm ↔
      (turboSweep (.ofBytes [0x78, 0x56, 0x34, 0x12, 0xf6, 0x7f, 0, 0]) buffer
        (by decide)).NoJumpOver (0, 0)) ∧
    ((∀ buffer, IndexesFirst (.ofBytes [0x78, 0x56, 0x34, 0x12, 0xf6, 0x7f, 0, 0]) buffer .tbm) ↔
      SuffixSafe ([0x78, 0x56, 0x34, 0x12, 0xf6, 0x7f, 0, 0] : List UInt8)) := by
  have h := indexesFirst_tbm_iff (.ofBytes [0x78, 0x56, 0x34, 0x12, 0xf6, 0x7f, 0, 0]) (by decide)
    (Pattern.ofBytes_strict _)
  exact ⟨h.1, h.2 (by decide)⟩

end Wincpp.Scanner
