import Wincpp.Patterns.FindAll
import Wincpp.Patterns.Raita
import Wincpp.Patterns.Turbo

/-! What the three table searches have in common.

Every round of `index_of< bmh_t >`, `index_of< tbm_t >` and `index_of< raita_t >` that misses moves its
window on by at least one byte, since no entry of the skip table is zero. So the loops end, look at
ascending windows that lie inside the buffer, and report only matches (`indexOf_safe`). Raita's loop
finds the first occurrence of the same patterns as Horspool's, except for patterns of one byte.
-/
namespace Wincpp.Scanner
open Search
set_option autoImplicit false

/-! ## Traces of searches with a state -/

section Trace
variable {σ : Type} {round : σ → Run (Option σ)} {pos : σ → ℤ} {last : ℤ}

/-- If each round either accepts its window or moves on to the right, the search ends. -/
theorem traceBy_ok (Inv : σ → Prop) (hnat : ∀ s, Inv s → ∃ w : ℕ, pos s = w)
    (hround : ∀ s, Inv s → pos s ≤ last →
      round s = .ok none ∨ ∃ s', round s = .ok (some s') ∧ Inv s' ∧ pos s < pos s')
    (fuel : ℕ) (s : σ) (hs : Inv s) (hpos : 0 < fuel) (hfuel : last + 1 < pos s + fuel) :
    ∃ (ws : List ℕ) (r : Option ℕ),
      traceBy round pos last fuel s = .ok (ws.map Nat.cast, encode r) ∧
      ws.Pairwise (· < ·) ∧ (∀ w ∈ ws, pos s ≤ w ∧ (w : ℤ) ≤ last) ∧
      ∀ k, r = some k → ∃ s', Inv s' ∧ pos s' = k ∧ pos s' ≤ last ∧ round s' = .ok none := by
  induction fuel generalizing s with
  | zero => omega
  | succ fuel ih =>
    rw [traceBy]
    by_cases hle : pos s ≤ last
    · obtain ⟨w, hw⟩ := hnat s hs
      rcases hround s hs hle with hnone | ⟨s', hsome, hs', hlt⟩
      · refine ⟨[w], some w, ?_, List.pairwise_singleton .., fun v hv => ?_, fun k hk => ?_⟩
        · rw [if_pos hle, hnone, Run.ok_bind, hw]
          rfl
        · rw [List.mem_singleton.mp hv]
          omega
        · cases hk
          exact ⟨s, hs, hw, hle, hnone⟩
      · obtain ⟨ws, r, htrace, hascending, hrange, haccepted⟩ := ih s' hs' (by omega) (by omega)
        refine ⟨w :: ws, r, ?_, .cons (fun v hv => ?_) hascending, fun v hv => ?_, haccepted⟩
        · rw [if_pos hle, hsome, Run.ok_bind]
          simp only [htrace, Run.ok_bind, hw]
          rfl
        · have := (hrange v hv).1
          omega
        · rcases List.mem_cons.mp hv with rfl | hv
          · omega
          · have := hrange v hv
            omega
    · exact ⟨[], none, by rw [if_neg hle]; rfl, .nil, by simp, fun k hk => by cases hk⟩

end Trace

variable (pattern : Pattern) (buffer : Span)

/-- One round of the loop of `index_of< tbm_t >`, on the window and the turbo shift. -/
def tbmRound (table : Vector ℕ 256) (s : ℤ × ℤ) : Run (Option (ℤ × ℤ)) := do
  let start ← int64 (pattern.size - 1)
  let i ← tbmMatch pattern buffer s.1 (start + 1).toNat
  if i < 0 then
    return none
  else
    let shift ← int64 (skip table (← buffer.byteAt (s.1 + pattern.size - 1)))
    if s.2 > 0 then
      return some (← int64 (s.1 + max (max 1 shift) 0), 0)
    else
      let turboShift ← tbmShift pattern i s.2
      return some (← int64 (s.1 + max shift turboShift), turboShift)

/-- The windows that a search with the given rounds looks at, and its result. -/
def windowsBy {σ : Type} (round : Vector ℕ 256 → σ → Run (Option σ)) (pos : σ → ℤ) (s : σ) :
    Run (List ℤ × ℤ) :=
  if cannotMatch pattern buffer then
    return ([], -1)
  else do
    let table ← skipTable pattern (pattern.size - 1)
    traceBy (round table) pos (← int64 (buffer.size - pattern.size)) (buffer.size + 1) s

/-- The windows that the turbo search looks at, and its result. -/
def turboWindows : Run (List ℤ × ℤ) :=
  windowsBy pattern buffer (tbmRound pattern buffer) Prod.fst (0, 0)

variable {pattern buffer}

theorem windows_eq_windowsBy {round : Vector ℕ 256 → ℤ → Run (Option ℤ)} :
    windows pattern buffer round = windowsBy pattern buffer round id 0 := by
  rw [windows, windowsBy]
  simp only [trace_eq_traceBy]

theorem indexOfTbm_eq_turboWindows :
    indexOfTbm pattern buffer = Prod.snd <$> turboWindows pattern buffer := by
  have hloop : ∀ (table : Vector ℕ 256) (last : ℤ) (fuel : ℕ) (s : ℤ × ℤ),
      tbmLoop pattern buffer table last fuel s.1 s.2 =
        Prod.snd <$> traceBy (tbmRound pattern buffer table) Prod.fst last fuel s := by
    intro table last fuel s
    refine eq_traceBy (fun fuel s => tbmLoop pattern buffer table last fuel s.1 s.2)
      (fun s => rfl) (fun fuel s => ?_) fuel s
    simp only [tbmLoop, tbmRound, bind_assoc]
    congr! 5 with start i
    split
    · rfl
    · simp only [bind_assoc]
      congr! 4 with b shift
      split <;> simp only [bind_assoc, pure_bind]
  rw [indexOfTbm, turboWindows, windowsBy]
  split
  · rfl
  · simp only [map_bind, ← hloop]

/-! ## One round -/

/-- The last byte of a window is read, and the window moves on by its entry in the table. -/
theorem exists_move {table : Vector ℕ 256} (hskip : ∀ a, 0 < skip table a ∧ skip table a ≤ pattern.size)
    (hpos : 0 < pattern.size) {w : ℕ} (hw : w + pattern.size ≤ buffer.size) :
    ∃ b, buffer.byteAt ((w : ℤ) + pattern.size - 1) = .ok b ∧ 0 < skip table b ∧
      int64 ((w : ℤ) + skip table b) = .ok ((w + skip table b : ℕ) : ℤ) := by
  have hmax := buffer.size_lt_max
  obtain ⟨b, hb⟩ := buffer.exists_byte (i := w + (pattern.size - 1)) (by omega)
  obtain ⟨hadv, hle⟩ := hskip b
  have hmove := int64_natCast (n := w + skip table b) (by omega)
  refine ⟨b, lastByte_ok buffer hpos hb, hadv, ?_⟩
  rw [← Nat.cast_add]
  exact hmove

theorem bmhRound_ok {table : Vector ℕ 256} (hskip : ∀ a, 0 < skip table a ∧ skip table a ≤ pattern.size)
    (hpos : 0 < pattern.size) {w : ℕ} (hw : w + pattern.size ≤ buffer.size) :
    (OccursAt pattern.word buffer.bytes w ∧ bmhRound pattern buffer table w = .ok none) ∨
      ∃ w' : ℕ, bmhRound pattern buffer table w = .ok (some (w' : ℤ)) ∧ w < w' := by
  have hmax := buffer.size_lt_max
  obtain ⟨hstart, hcount⟩ := int64_size_sub_one (n := pattern.size) (by omega)
  have hiff := lastFailure_meetsAt_iff pattern.word buffer.bytes w
    (by rw [pattern.word_length]; exact hw)
  rw [pattern.word_length] at hiff
  rw [bmhRound, hstart, Run.ok_bind, hcount, bmhMatch_ok pattern buffer hw _ (le_refl _), Run.ok_bind]
  cases hl : lastFailure (meetsAt pattern.word buffer.bytes w) pattern.size with
  | none => exact .inl ⟨hiff.mp hl, rfl⟩
  | some i =>
    obtain ⟨b, hb, hadv, hmove⟩ := exists_move hskip hpos hw
    refine .inr ⟨w + skip table b, ?_, by omega⟩
    rw [encode_some, if_neg (by omega), hb, Run.ok_bind, hmove]
    rfl

/-- A window of one byte is accepted by no comparison: the counter that starts behind the first byte
does not end at it. -/
theorem raitaWindow_one (h : pattern.size = 1) {w : ℕ} (hw : w + pattern.size ≤ buffer.size) :
    raitaWindow pattern buffer w (pattern.size - 1) (pattern.size / 2) = .ok false := by
  have hfirst := differs_ok pattern buffer (i := 0) (w := w) (by omega) (by omega)
  have hfirst' := hfirst
  rw [Nat.cast_zero, Int.add_zero] at hfirst'
  rw [raitaWindow, h, show 1 - 1 = 0 from rfl, show 1 / 2 = 0 from rfl, hfirst, hfirst']
  cases meetsAt pattern.word buffer.bytes w 0 <;> rfl

theorem raitaRound_ok {table : Vector ℕ 256}
    (hskip : ∀ a, 0 < skip table a ∧ skip table a ≤ pattern.size) (hpos : 0 < pattern.size) {w : ℕ}
    (hw : w + pattern.size ≤ buffer.size) :
    (2 ≤ pattern.size ∧ OccursAt pattern.word buffer.bytes w ∧
        raitaRound pattern buffer table w = .ok none) ∨
      ∃ w' : ℕ, raitaRound pattern buffer table w = .ok (some (w' : ℤ)) ∧ w < w' := by
  by_cases h : 2 ≤ pattern.size
  · rw [← bmhRound_eq_raitaRound h table hw]
    exact (bmhRound_ok hskip hpos hw).imp_left fun hocc => ⟨h, hocc⟩
  · obtain ⟨b, hb, hadv, hmove⟩ := exists_move hskip hpos hw
    have hlast : (w : ℤ) + (pattern.size - 1 : ℕ) = (w : ℤ) + pattern.size - 1 := by omega
    refine .inr ⟨w + skip table b, ?_, by omega⟩
    rw [raitaRound, raitaWindow_one (by omega) hw, Run.ok_bind, if_neg Bool.false_ne_true, hlast, hb,
      Run.ok_bind, hmove]
    rfl

theorem tbmRound_ok {table : Vector ℕ 256} (hskip : ∀ a, 0 < skip table a ∧ skip table a ≤ pattern.size)
    (hpos : 0 < pattern.size) {w t : ℕ} (hw : w + pattern.size ≤ buffer.size) :
    (OccursAt pattern.word buffer.bytes w ∧ tbmRound pattern buffer table (w, t) = .ok none) ∨
      ∃ w' t' : ℕ, tbmRound pattern buffer table (w, t) = .ok (some (w', t')) ∧ w < w' := by
  have hmax := buffer.size_lt_max
  obtain ⟨hstart, hcount⟩ := int64_size_sub_one (n := pattern.size) (by omega)
  have hiff := lastFailure_sameLetter_iff pattern.bytes buffer.bytes w
    (by rw [pattern.bytes_length]; exact hw)
  rw [pattern.bytes_length] at hiff
  rw [tbmRound, hstart, Run.ok_bind, hcount, tbmMatch_ok pattern buffer hw _ (le_refl _), Run.ok_bind]
  cases hl : lastFailure (sameLetter pattern.bytes buffer.bytes w) pattern.size with
  | none => exact .inl ⟨pattern.occursAt_word (hiff.mp hl), rfl⟩
  | some i =>
    have hi := (lastFailure_eq_some hl).1
    obtain ⟨b, hb, hadv, -⟩ := exists_move hskip hpos hw
    have hle := (hskip b).2
    right
    rw [encode_some, if_neg (by omega), hb, Run.ok_bind, int64_natCast (by omega), Run.ok_bind]
    rcases Nat.eq_zero_or_pos t with rfl | ht
    · have hmove := int64_natCast (n := w + max (skip table b) (pattern.size - 1 - i)) (by omega)
      refine ⟨w + max (skip table b) (pattern.size - 1 - i), pattern.size - 1 - i, ?_, by omega⟩
      rw [if_neg (by omega), Nat.cast_zero, tbmShift_ok pattern hi (by omega), Run.ok_bind,
        ← Nat.cast_max, ← Nat.cast_add, hmove]
      rfl
    · have hmove := int64_natCast (n := w + max 1 (skip table b)) (by omega)
      refine ⟨w + max 1 (skip table b), 0, ?_, by omega⟩
      rw [if_pos (by omega), max_eq_left (by omega), ← Nat.cast_one, ← Nat.cast_max, ← Nat.cast_add,
        hmove]
      rfl

/-! ## Whole searches -/

/-- A search that stays inside its arrays, converts no number to another one, ends, looks at ascending
windows of the buffer, and reports only a match. -/
def SearchesSafely (pattern : Pattern) (buffer : Span) (search : Run (List ℤ × ℤ))
    (algorithm : Algorithm) : Prop :=
  ∃ (ws : List ℕ) (r : Option ℕ), search = .ok (ws.map Nat.cast, encode r) ∧
    indexOf pattern buffer algorithm = .ok (encode r) ∧ ws.Pairwise (· < ·) ∧
    (∀ w ∈ ws, w + pattern.size ≤ buffer.size) ∧
    ∀ k, r = some k → OccursAt pattern.word buffer.bytes k

theorem windowsBy_ok {σ : Type} {round : Vector ℕ 256 → σ → Run (Option σ)} {pos : σ → ℤ}
    (Inv : σ → Prop) (hnat : ∀ s, Inv s → ∃ w : ℕ, pos s = w) {Accepts : ℕ → Prop}
    (hround : ∀ table, (∀ a, 0 < skip table a ∧ skip table a ≤ pattern.size) → 0 < pattern.size →
      ∀ s (w : ℕ), Inv s → pos s = w → w + pattern.size ≤ buffer.size →
        (Accepts w ∧ round table s = .ok none) ∨
          ∃ s', round table s = .ok (some s') ∧ Inv s' ∧ pos s < pos s')
    {s : σ} (hs : Inv s) (hzero : pos s = 0) :
    ∃ (ws : List ℕ) (r : Option ℕ),
      windowsBy pattern buffer round pos s = .ok (ws.map Nat.cast, encode r) ∧
      ws.Pairwise (· < ·) ∧ (∀ w ∈ ws, w + pattern.size ≤ buffer.size) ∧ ∀ k, r = some k → Accepts k := by
  rw [windowsBy]
  split
  · exact ⟨[], none, rfl, .nil, by simp, fun k hk => by cases hk⟩
  · rename_i hc
    rw [cannotMatch_eq_true] at hc
    have hword : 0 < pattern.word.length := by rw [pattern.word_length]; omega
    obtain ⟨table, htable, hskip, hlast⟩ := setup_ok pattern buffer hword (by omega)
    have hbounds := skip_bounds hword hskip
    rw [htable, Run.ok_bind, hlast, Run.ok_bind]
    have hstep := hround table hbounds (by omega)
    have hmiss : ∀ s, Inv s → pos s ≤ (buffer.size : ℤ) - pattern.size → round table s = .ok none ∨
        ∃ s', round table s = .ok (some s') ∧ Inv s' ∧ pos s < pos s' := by
      intro s hs hle
      obtain ⟨w, hw⟩ := hnat s hs
      exact (hstep s w hs hw (by omega)).imp_left And.right
    obtain ⟨ws, r, htrace, hascending, hrange, haccepted⟩ :=
      traceBy_ok Inv hnat hmiss (buffer.size + 1) s hs (by omega) (by omega)
    refine ⟨ws, r, htrace, hascending, fun w hw => ?_, fun k hk => ?_⟩
    · have := (hrange w hw).2
      omega
    · obtain ⟨s', hs', hk', hle, hnone⟩ := haccepted k hk
      rcases hstep s' k hs' hk' (by omega) with ⟨hacc, -⟩ | ⟨s'', hsome, -⟩
      · exact hacc
      · cases hnone.symm.trans hsome

theorem windows_bmh_ok (pattern : Pattern) (buffer : Span) : ∃ (ws : List ℕ) (r : Option ℕ),
    windows pattern buffer (bmhRound pattern buffer) = .ok (ws.map Nat.cast, encode r) ∧
      ws.Pairwise (· < ·) ∧ (∀ w ∈ ws, w + pattern.size ≤ buffer.size) ∧
      ∀ k, r = some k → OccursAt pattern.word buffer.bytes k := by
  rw [windows_eq_windowsBy]
  refine windowsBy_ok (fun z => ∃ w : ℕ, z = (w : ℤ)) (fun _ h => h) ?_ ⟨0, rfl⟩ rfl
  rintro table hskip hpos z w - rfl hw
  rcases bmhRound_ok hskip hpos hw with h | ⟨w', hw', hlt⟩
  · exact .inl h
  · exact .inr ⟨w', hw', ⟨w', rfl⟩, Nat.cast_lt.mpr hlt⟩

/-- Raita's loop accepts no window of a pattern of one byte. -/
theorem windows_raita_ok (pattern : Pattern) (buffer : Span) : ∃ (ws : List ℕ) (r : Option ℕ),
    windows pattern buffer (raitaRound pattern buffer) = .ok (ws.map Nat.cast, encode r) ∧
      ws.Pairwise (· < ·) ∧ (∀ w ∈ ws, w + pattern.size ≤ buffer.size) ∧
      ∀ k, r = some k → 2 ≤ pattern.size ∧ OccursAt pattern.word buffer.bytes k := by
  rw [windows_eq_windowsBy]
  refine windowsBy_ok (fun z => ∃ w : ℕ, z = (w : ℤ)) (fun _ h => h) ?_ ⟨0, rfl⟩ rfl
  rintro table hskip hpos z w - rfl hw
  rcases raitaRound_ok hskip hpos hw with ⟨hsize, hocc, h⟩ | ⟨w', hw', hlt⟩
  · exact .inl ⟨⟨hsize, hocc⟩, h⟩
  · exact .inr ⟨w', hw', ⟨w', rfl⟩, Nat.cast_lt.mpr hlt⟩

theorem turboWindows_ok (pattern : Pattern) (buffer : Span) : ∃ (ws : List ℕ) (r : Option ℕ),
    turboWindows pattern buffer = .ok (ws.map Nat.cast, encode r) ∧
      ws.Pairwise (· < ·) ∧ (∀ w ∈ ws, w + pattern.size ≤ buffer.size) ∧
      ∀ k, r = some k → OccursAt pattern.word buffer.bytes k := by
  rw [turboWindows]
  refine windowsBy_ok (fun s => ∃ w t : ℕ, s = ((w : ℤ), (t : ℤ))) ?_ ?_ ⟨0, 0, rfl⟩ rfl
  · rintro s ⟨w, t, rfl⟩
    exact ⟨w, rfl⟩
  · rintro table hskip hpos s w ⟨w, t, rfl⟩ hw hfit
    cases hw
    rcases tbmRound_ok hskip hpos hfit with h | ⟨w', t', hw', hlt⟩
    · exact .inl h
    · exact .inr ⟨(w', t'), hw', ⟨w', t', rfl⟩, Nat.cast_lt.mpr hlt⟩

/-- Whatever the pattern and its wildcards are, each of the three searches ends, since every round
that misses moves its window on, reads inside its arrays, and reports only a match. -/
theorem indexOf_safe (pattern : Pattern) (buffer : Span) :
    SearchesSafely pattern buffer (windows pattern buffer (bmhRound pattern buffer)) .bmh ∧
      SearchesSafely pattern buffer (turboWindows pattern buffer) .tbm ∧
      SearchesSafely pattern buffer (windows pattern buffer (raitaRound pattern buffer)) .raita := by
  refine ⟨?_, ?_, ?_⟩
  · obtain ⟨ws, r, hws, h⟩ := windows_bmh_ok pattern buffer
    exact ⟨ws, r, hws, by rw [indexOf, indexOfBmh_eq_windows, hws, Run.map_ok], h⟩
  · obtain ⟨ws, r, hws, h⟩ := turboWindows_ok pattern buffer
    exact ⟨ws, r, hws, by rw [indexOf, indexOfTbm_eq_turboWindows, hws, Run.map_ok], h⟩
  · obtain ⟨ws, r, hws, hascending, hrange, hocc⟩ :=
      windows_raita_ok pattern buffer
    exact ⟨ws, r, hws, by rw [indexOf, indexOfRaita_eq_windows, hws, Run.map_ok], hascending, hrange,
      fun k hk => (hocc k hk).2⟩

/-! ## The first occurrence -/

theorem indexOf_raita_eq_bmh_of_two_le (h : 2 ≤ pattern.size) :
    indexOf pattern buffer .raita = indexOf pattern buffer .bmh := by
  rw [indexOf, indexOf, indexOfRaita_eq_windows, indexOfBmh_eq_windows, windows_bmh_eq_raita h]

theorem indexOf_raita_one (h : pattern.size = 1) :
    indexOf pattern buffer .raita = .ok (encode none) := by
  obtain ⟨ws, r, hws, -, -, hocc⟩ := windows_raita_ok pattern buffer
  have hnone : r = none := by
    cases r with
    | none => rfl
    | some k =>
      have := (hocc k rfl).1
      omega
  rw [indexOf, indexOfRaita_eq_windows, hws, hnone, Run.map_ok]

/-- For a strict pattern the search returns the first occurrence exactly when the pattern has at least
two bytes or does not occur. -/
theorem indexesFirst_raita_iff (pattern : Pattern) (buffer : Span) (hsize : 1 ≤ pattern.size)
    (hs : pattern.Strict) :
    IndexesFirst pattern buffer .raita ↔
      2 ≤ pattern.size ∨ ∀ k, ¬ OccursAt pattern.word buffer.bytes k := by
  constructor
  · rintro ⟨r, hr, hfirst⟩
    by_cases h : 2 ≤ pattern.size
    · exact .inl h
    · rw [indexOf_raita_one (by omega)] at hr
      rw [← encode_injective (Except.ok.inj hr)] at hfirst
      exact .inr hfirst
  · intro hcond
    by_cases h : 2 ≤ pattern.size
    · have hbmh := indexesFirst_bmh_of_openShadowed pattern buffer hsize (openShadowed_of_strict hs)
      rwa [IndexesFirst, indexOf_raita_eq_bmh_of_two_le h]
    · exact ⟨none, indexOf_raita_one (by omega), hcond.resolve_left h⟩

/-- The byte `01` in the buffer `01`. -/
theorem indexesFirst_raita_missed :
    ¬ IndexesFirst (.ofBytes [1]) ⟨[1], by decide⟩ .raita := by
  rintro ⟨r, hr, hfirst⟩
  have hnone : indexOf (.ofBytes [1]) ⟨[1], by decide⟩ .raita = .ok (encode none) := by decide
  rw [hnone] at hr
  rw [← encode_injective (Except.ok.inj hr)] at hfirst
  apply hfirst 0
  rw [Pattern.ofBytes_word, occursAt_map_some]
  exact ⟨by decide, by decide⟩

theorem indexesFirst_raita_iff_pair :
    IndexesFirst (.ofBytes [1, 2]) ⟨[1, 1, 2], by decide⟩ .raita := by
  rw [indexesFirst_raita_iff (.ofBytes [1, 2]) ⟨[1, 1, 2], by decide⟩ (by decide)
    (Pattern.ofBytes_strict _)]
  exact .inl (by decide)

end Wincpp.Scanner
