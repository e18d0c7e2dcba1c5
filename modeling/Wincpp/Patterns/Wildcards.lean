import Wincpp.Patterns.Turbo

/-! Which searches look at the bytes that are stored under wildcards.

The naive, the Horspool and the Raita loop read a byte of the pattern only behind its mask, so that
they treat patterns alike that agree on their strict bytes (`indexOf_congr`). The turbo loop compares
every byte: on the buffer that holds the pattern's own bytes it tells any two byte arrays apart.
-/
namespace Wincpp
open Search
set_option autoImplicit false

/-- Equal size, equal mask, and equal strict bytes. -/
structure Pattern.Agrees (pattern pattern' : Pattern) : Prop where
  size_eq : pattern.size = pattern'.size
  mask_eq : pattern.mask = pattern'.mask
  bytes_eq : ∀ i : ℕ, pattern.mask[i]? = some true → pattern.bytes[i]? = pattern'.bytes[i]?

namespace Scanner
variable {pattern pattern' : Pattern} {buffer : Span}

/-! ## The searches that read behind the mask -/

theorem differs_congr (h : pattern.Agrees pattern') (i : ℕ) (z : ℤ) :
    differs pattern buffer i z = differs pattern' buffer i z := by
  rw [differs, differs, ← h.mask_eq]
  cases hm : pattern.mask[i]? with
  | none => simp only [index, hm, Run.error_bind]
  | some m =>
    rw [index_of_getElem? hm, Run.ok_bind, Run.ok_bind]
    cases m with
    | false => rfl
    | true => simp only [index, h.bytes_eq i hm]

theorem skipTable_congr (h : pattern.Agrees pattern') (i : ℕ) :
    skipTable pattern i = skipTable pattern' i := by
  induction i with
  | zero => rw [skipTable, skipTable, h.size_eq]
  | succ i ih =>
    rw [skipTable, skipTable, ih, ← h.mask_eq, h.size_eq]
    cases hm : pattern.mask[i]? with
    | none => simp only [index, hm, Run.error_bind]
    | some m =>
      rw [index_of_getElem? hm]
      cases m with
      | false => rfl
      | true => simp only [index, h.bytes_eq i hm]

theorem cannotMatch_congr (h : pattern.Agrees pattern') :
    cannotMatch pattern buffer = cannotMatch pattern' buffer := by
  rw [cannotMatch, cannotMatch, h.size_eq]

theorem naiveMatch_congr (h : pattern.Agrees pattern') (it rest : ℕ) :
    naiveMatch pattern buffer it rest = naiveMatch pattern' buffer it rest := by
  induction rest with
  | zero => rfl
  | succ rest ih => simp only [naiveMatch, h.size_eq, differs_congr h, ih]

theorem naiveLoop_congr (h : pattern.Agrees pattern') (rest : ℕ) :
    naiveLoop pattern buffer rest = naiveLoop pattern' buffer rest := by
  induction rest with
  | zero => rfl
  | succ rest ih => simp only [naiveLoop, h.size_eq, naiveMatch_congr h, ih]

theorem bmhMatch_congr (h : pattern.Agrees pattern') (bufferIdx : ℤ) (k : ℕ) :
    bmhMatch pattern buffer bufferIdx k = bmhMatch pattern' buffer bufferIdx k := by
  induction k with
  | zero => rfl
  | succ k ih => simp only [bmhMatch, differs_congr h, ih]

theorem bmhLoop_congr (h : pattern.Agrees pattern') (table : Vector ℕ 256) (last : ℤ) (fuel : ℕ)
    (bufferIdx : ℤ) :
    bmhLoop pattern buffer table last fuel bufferIdx =
      bmhLoop pattern' buffer table last fuel bufferIdx := by
  induction fuel generalizing bufferIdx with
  | zero => rfl
  | succ fuel ih => simp only [bmhLoop, h.size_eq, bmhMatch_congr h, ih]

theorem raitaMatch_congr (h : pattern.Agrees pattern') (bufferIdx : ℤ) (lastIdx rest : ℕ) :
    raitaMatch pattern buffer bufferIdx lastIdx rest =
      raitaMatch pattern' buffer bufferIdx lastIdx rest := by
  induction rest with
  | zero => rfl
  | succ rest ih => simp only [raitaMatch, differs_congr h, ih]

theorem raitaLoop_congr (h : pattern.Agrees pattern') (table : Vector ℕ 256) (lastIdx midIdx : ℕ)
    (last : ℤ) (fuel : ℕ) (bufferIdx : ℤ) :
    raitaLoop pattern buffer table lastIdx midIdx last fuel bufferIdx =
      raitaLoop pattern' buffer table lastIdx midIdx last fuel bufferIdx := by
  induction fuel generalizing bufferIdx with
  | zero => rfl
  | succ fuel ih => simp only [raitaLoop, raitaWindow, differs_congr h, raitaMatch_congr h, ih]

theorem indexOf_congr (h : pattern.Agrees pattern') {algorithm : Algorithm}
    (ha : algorithm ≠ .tbm) (buffer : Span) :
    indexOf pattern buffer algorithm = indexOf pattern' buffer algorithm := by
  cases algorithm with
  | naive => exact naiveLoop_congr h buffer.size
  | bmh =>
    simp only [indexOf, indexOfBmh, cannotMatch_congr h, skipTable_congr h, bmhLoop_congr h, h.size_eq]
  | raita =>
    simp only [indexOf, indexOfRaita, cannotMatch_congr h, skipTable_congr h, raitaLoop_congr h,
      h.size_eq]
  | tbm => exact absurd rfl ha

/-! ## `find` and `find_all` -/

/-- `find` and `find_all` cannot tell the patterns apart. -/
def SameResults (algorithm : Algorithm) (pattern pattern' : Pattern) : Prop :=
  ∀ buffer, find pattern buffer algorithm = find pattern' buffer algorithm ∧
    ∀ fuel, findAll pattern buffer algorithm fuel = findAll pattern' buffer algorithm fuel

theorem sameResults_of_indexOf {algorithm : Algorithm} (hsize : pattern.size = pattern'.size)
    (h : ∀ buffer, indexOf pattern buffer algorithm = indexOf pattern' buffer algorithm) :
    SameResults algorithm pattern pattern' := by
  intro buffer
  refine ⟨by rw [find, find, h buffer], fun fuel => ?_⟩
  suffices hloop : ∀ i results, findAllLoop pattern buffer algorithm fuel i results =
      findAllLoop pattern' buffer algorithm fuel i results from hloop 0 []
  induction fuel with
  | zero => exact fun _ _ => rfl
  | succ fuel ih =>
    intro i results
    simp only [findAllLoop, h, hsize, ih]

/-! ## The turbo search on a pattern's own bytes -/

/-- The bytes of a pattern as a buffer. -/
def own (pattern : Pattern) (hsize : pattern.size < 2 ^ 63) : Span :=
  ⟨pattern.bytes, pattern.bytes_length.symm ▸ hsize⟩

theorem find_tbm_own (hsize : pattern.size < 2 ^ 63) (hpos : 0 < pattern.size) :
    find pattern (own pattern hsize) .tbm = .ok (some 0) := by
  have hw : 0 < pattern.word.length := by rw [pattern.word_length]; exact hpos
  apply find_of_indexOf
  · rw [indexOf, indexOfTbm_eq _ _ hw, Sweep.run_of_hit]
    · rfl
    · have : 0 < pattern.bytes.length + 1 - pattern.bytes.length := by omega
      exact this
    · have hocc : OccursAt (pattern.bytes.map some) pattern.bytes 0 := by
        rw [occursAt_map_some]
        exact ⟨by omega, fun i _ => by rw [Nat.zero_add]⟩
      exact hocc
  · intro k hk
    cases hk
    decide

theorem bytes_eq_of_find_tbm_own (hsize : pattern.size < 2 ^ 63) (hpos : 0 < pattern.size)
    (hlen : pattern.size = pattern'.size)
    (h : find pattern' (own pattern hsize) .tbm = .ok (some 0)) : pattern.bytes = pattern'.bytes := by
  have hocc := find_tbm_sound pattern' (own pattern hsize) (by omega) h
  rw [occursAt_map_some] at hocc
  apply List.ext_getElem?
  intro i
  by_cases hi : i < pattern'.bytes.length
  · have := hocc.2 i hi
    rwa [Nat.zero_add] at this
  · have hle : pattern.bytes.length ≤ i := by
      rw [pattern.bytes_length, hlen, ← pattern'.bytes_length]
      omega
    rw [List.getElem?_eq_none hle, List.getElem?_eq_none (by omega)]

/-! ## Which searches ignore the wildcards -/

/-- The same pattern with another byte stored at one position. -/
def withByte (pattern : Pattern) (i : ℕ) (b : UInt8) : Pattern where
  bytes := pattern.bytes.set i b
  mask := pattern.mask
  size := pattern.size
  bytes_length := List.length_set.trans pattern.bytes_length
  mask_length := pattern.mask_length

theorem agrees_withByte {i : ℕ} (hi : pattern.mask[i]? = some false) (b : UInt8) :
    pattern.Agrees (withByte pattern i b) where
  size_eq := rfl
  mask_eq := rfl
  bytes_eq := by
    intro k hk
    have hne : i ≠ k := by
      rintro rfl
      rw [hi] at hk
      cases hk
    exact (List.getElem?_set_ne hne).symm

theorem strict_iff_forall_agrees :
    pattern.Strict ↔ ∀ pattern', pattern.Agrees pattern' → pattern.bytes = pattern'.bytes := by
  constructor
  · intro hs pattern' h
    apply List.ext_getElem?
    intro i
    by_cases hi : i < pattern.size
    · obtain ⟨m, hm⟩ := pattern.exists_mask hi
      apply h.bytes_eq i
      rw [hm, hs m (List.mem_of_getElem? hm)]
    · have hsize := h.size_eq
      rw [List.getElem?_eq_none (by rw [pattern.bytes_length]; omega),
        List.getElem?_eq_none (by rw [pattern'.bytes_length]; omega)]
  · intro hall m hm
    obtain ⟨i, hi⟩ := List.mem_iff_getElem?.mp hm
    cases m with
    | true => rfl
    | false =>
      have hlt : i < pattern.size := by
        rw [← pattern.mask_length]
        exact (List.getElem?_eq_some_iff.mp hi).1
      obtain ⟨b, hb⟩ := pattern.exists_byte hlt
      have : Nontrivial UInt8 := ⟨0, 1, by decide⟩
      obtain ⟨c, hc⟩ := exists_ne b
      have hbytes : pattern.bytes = pattern.bytes.set i c := hall _ (agrees_withByte hi c)
      have hset : (pattern.bytes.set i c)[i]? = some c :=
        List.getElem?_set_self (by rw [pattern.bytes_length]; exact hlt)
      rw [← hbytes, hb] at hset
      exact absurd (Option.some.inj hset).symm hc

theorem sameResults_iff_bytes_eq {algorithm : Algorithm} (hsize : pattern.size < 2 ^ 63)
    (h : pattern.Agrees pattern') :
    SameResults algorithm pattern pattern' ↔
      algorithm ≠ .tbm ∨ pattern.bytes = pattern'.bytes := by
  constructor
  · intro hsame
    by_cases ha : algorithm = .tbm
    · subst ha
      right
      rcases Nat.eq_zero_or_pos pattern.size with h0 | hpos
      · have hempty : pattern.bytes = [] := List.length_eq_zero_iff.mp (by rw [pattern.bytes_length, h0])
        have hempty' : pattern'.bytes = [] :=
          List.length_eq_zero_iff.mp (by rw [pattern'.bytes_length, ← h.size_eq, h0])
        rw [hempty, hempty']
      · apply bytes_eq_of_find_tbm_own hsize hpos h.size_eq
        rw [← (hsame (own pattern hsize)).1, find_tbm_own hsize hpos]
    · exact Or.inl ha
  · rintro (ha | hbytes)
    · exact sameResults_of_indexOf h.size_eq (indexOf_congr h ha)
    · have heq : pattern = pattern' := by
        cases pattern
        cases pattern'
        simp only [Pattern.mk.injEq]
        exact ⟨hbytes, h.mask_eq, h.size_eq⟩
      subst heq
      exact fun _ => ⟨rfl, fun _ => rfl⟩

/-- Patterns that agree on their strict bytes have the same results on every buffer exactly when
the algorithm is not the turbo one or they have the same bytes under their wildcards as well. So the
turbo search ignores the wildcards of the patterns without any. -/
theorem sameResults_iff (algorithm : Algorithm) (pattern : Pattern) (hsize : pattern.size < 2 ^ 63) :
    (∀ pattern', pattern.Agrees pattern' →
      (SameResults algorithm pattern pattern' ↔
        algorithm ≠ .tbm ∨ pattern.bytes = pattern'.bytes)) ∧
    ((∀ pattern', pattern.Agrees pattern' → SameResults algorithm pattern pattern') ↔
      algorithm ≠ .tbm ∨ pattern.Strict) := by
  refine ⟨fun pattern' h => sameResults_iff_bytes_eq hsize h, fun hall => ?_, fun hcond pattern' h => ?_⟩
  · by_cases ha : algorithm = .tbm
    · right
      rw [strict_iff_forall_agrees]
      intro pattern' h
      exact ((sameResults_iff_bytes_eq hsize h).mp (hall pattern' h)).resolve_left fun hne => hne ha
    · exact Or.inl ha
  · rw [sameResults_iff_bytes_eq hsize h]
    exact hcond.imp_right fun hs => strict_iff_forall_agrees.mp hs pattern' h

/-- `01 ?` with `00` or `07` under the wildcard, and the buffer `01 00`. -/
theorem sameResults_tbm_wildcard :
    ¬ ∀ algorithm pattern pattern', pattern.Agrees pattern' →
      SameResults algorithm pattern pattern' := by
  intro hall
  have hfind := (hall .tbm (.ofMask [1, 0] ['x', '?'] (by decide))
    (.ofMask [1, 7] ['x', '?'] (by decide))
    ⟨rfl, rfl, fun i hi => by
      match i with
      | 0 => rfl
      | 1 => cases hi
      | _ + 2 => cases hi⟩ ⟨[1, 0], by decide⟩).1
  revert hfind
  decide

theorem sameResults_iff_sig :
    (∀ pattern', (Pattern.ofMask [0x48, 0, 0x05] ['x', '?', 'x'] (by decide)).Agrees pattern' →
      SameResults .bmh (.ofMask [0x48, 0, 0x05] ['x', '?', 'x'] (by decide)) pattern') ∧
    ¬ ∀ pattern', (Pattern.ofMask [0x48, 0, 0x05] ['x', '?', 'x'] (by decide)).Agrees pattern' →
      SameResults .tbm (.ofMask [0x48, 0, 0x05] ['x', '?', 'x'] (by decide)) pattern' := by
  constructor
  · exact (sameResults_iff .bmh (.ofMask [0x48, 0, 0x05] ['x', '?', 'x'] (by decide)) (by decide)).2.mpr
      (Or.inl (by decide))
  · rw [(sameResults_iff .tbm (.ofMask [0x48, 0, 0x05] ['x', '?', 'x'] (by decide)) (by decide)).2]
    unfold Pattern.Strict
    decide

end Scanner
end Wincpp
