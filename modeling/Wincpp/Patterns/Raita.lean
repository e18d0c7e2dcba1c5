import Wincpp.Patterns.Horspool

/-! What `index_of< raita_t >` computes.

The loop looks at the last, the first and the middle byte of a window before the remaining ones, and
moves on by the same table as `index_of< bmh_t >`. For patterns of at least two bytes both loops
accept the same windows (`bmhRound_eq_raitaRound`), so that they look at the same windows one after
the other and have the same result. For a pattern of one byte the last comparison counts from 1 up to
0, and no window is accepted.
-/
namespace Wincpp.Scanner
open Search
set_option autoImplicit false

/-! ## Rounds -/

section Trace
variable (round : ℤ → Run (Option ℤ)) (last : ℤ)

/-- The windows that a search looks at, and its result. A round at a window says where the search
goes on from, or `none` when it accepts the window. -/
def trace : ℕ → ℤ → Run (List ℤ × ℤ)
  | 0, _ => .error .outOfFuel
  | fuel + 1, w =>
    if w ≤ last then do
      match ← round w with
      | none => return ([w], w)
      | some w' =>
        let (ws, r) ← trace fuel w'
        return (w :: ws, r)
    else
      return ([], -1)

variable {round last}

theorem trace_congr {round' : ℤ → Run (Option ℤ)}
    (hround : ∀ w : ℕ, (w : ℤ) ≤ last → round w = round' w)
    (hnext : ∀ (w : ℕ) (z : ℤ), round w = .ok (some z) → ∃ n : ℕ, z = n) (fuel w : ℕ) :
    trace round last fuel w = trace round' last fuel w := by
  induction fuel generalizing w with
  | zero => rfl
  | succ fuel ih =>
    rw [trace, trace]
    by_cases hw : (w : ℤ) ≤ last
    · rw [if_pos hw, if_pos hw, ← hround w hw]
      cases hr : round w with
      | error e => rfl
      | ok o =>
        cases o with
        | none => rfl
        | some z =>
          obtain ⟨n, rfl⟩ := hnext w z hr
          simp only [Run.ok_bind, ih n]
    · rw [if_neg hw, if_neg hw]

end Trace

/-! ### Rounds that hand on a state -/

section TraceBy
variable {σ : Type} (round : σ → Run (Option σ)) (pos : σ → ℤ) (last : ℤ)

/-- The windows that a search looks at, and its result, for a search whose rounds hand on a state. -/
def traceBy : ℕ → σ → Run (List ℤ × ℤ)
  | 0, _ => .error .outOfFuel
  | fuel + 1, s =>
    if pos s ≤ last then do
      match ← round s with
      | none => return ([pos s], pos s)
      | some s' =>
        let (ws, r) ← traceBy fuel s'
        return (pos s :: ws, r)
    else
      return ([], -1)

variable {round pos last}

theorem trace_eq_traceBy {round : ℤ → Run (Option ℤ)} (fuel : ℕ) (w : ℤ) :
    trace round last fuel w = traceBy round id last fuel w := by
  induction fuel generalizing w with
  | zero => rfl
  | succ fuel ih =>
    rw [trace, traceBy]
    by_cases hw : w ≤ last
    · rw [if_pos hw, if_pos (show id w ≤ last from hw)]
      congr! 2 with o
      cases o with
      | none => rfl
      | some w' => simp only [ih, id_eq]
    · rw [if_neg hw, if_neg (show ¬ id w ≤ last from hw)]

/-- A loop that goes on from where its round says yields the result of the trace. -/
theorem eq_traceBy (loop : ℕ → σ → Run ℤ) (hzero : ∀ s, loop 0 s = .error .outOfFuel)
    (hsucc : ∀ fuel s, loop (fuel + 1) s = if pos s ≤ last then round s >>= fun
      | none => .ok (pos s)
      | some s' => loop fuel s' else .ok (-1)) (fuel : ℕ) (s : σ) :
    loop fuel s = Prod.snd <$> traceBy round pos last fuel s := by
  induction fuel generalizing s with
  | zero => exact hzero s
  | succ fuel ih =>
    rw [hsucc, traceBy]
    by_cases hs : pos s ≤ last
    · rw [if_pos hs, if_pos hs, map_bind]
      congr! 2 with o
      cases o with
      | none => rfl
      | some s' => simp only [ih, map_eq_pure_bind, bind_assoc, pure_bind]
    · rw [if_neg hs, if_neg hs]
      rfl

theorem eq_trace {round : ℤ → Run (Option ℤ)} {loop : ℕ → ℤ → Run ℤ}
    (hzero : ∀ w, loop 0 w = .error .outOfFuel)
    (hsucc : ∀ fuel w, loop (fuel + 1) w = if w ≤ last then round w >>= fun
      | none => .ok w
      | some w' => loop fuel w' else .ok (-1)) (fuel : ℕ) (w : ℤ) :
    loop fuel w = Prod.snd <$> trace round last fuel w := by
  rw [trace_eq_traceBy]
  refine eq_traceBy loop hzero (fun fuel w => ?_) fuel w
  rw [hsucc, id_eq]
  by_cases hw : w ≤ last
  · rw [if_pos hw, if_pos hw]
    congr 1
    funext o
    cases o <;> rfl
  · rw [if_neg hw, if_neg hw]

end TraceBy

variable (pattern : Pattern) (buffer : Span)

/-- One round of the loop of `index_of< bmh_t >`. -/
def bmhRound (table : Vector ℕ 256) (bufferIdx : ℤ) : Run (Option ℤ) := do
  let start ← int64 (pattern.size - 1)
  let patternIdx ← bmhMatch pattern buffer bufferIdx (start + 1).toNat
  if patternIdx < 0 then
    return none
  else
    let lastByte ← buffer.byteAt (bufferIdx + pattern.size - 1)
    return some (← int64 (bufferIdx + skip table lastByte))

/-- One round of the loop of `index_of< raita_t >`. -/
def raitaRound (table : Vector ℕ 256) (bufferIdx : ℤ) : Run (Option ℤ) := do
  if ← raitaWindow pattern buffer bufferIdx (pattern.size - 1) (pattern.size / 2) then
    return none
  else
    let lastByte ← buffer.byteAt (bufferIdx + (pattern.size - 1 : ℕ))
    return some (← int64 (bufferIdx + skip table lastByte))

/-- The windows that a search with the given rounds looks at, and its result. -/
def windows (round : Vector ℕ 256 → ℤ → Run (Option ℤ)) : Run (List ℤ × ℤ) :=
  if cannotMatch pattern buffer then
    return ([], -1)
  else do
    let table ← skipTable pattern (pattern.size - 1)
    trace (round table) (← int64 (buffer.size - pattern.size)) (buffer.size + 1) 0

variable {pattern buffer}

theorem bmhLoop_eq_trace (table : Vector ℕ 256) (last : ℤ) (fuel : ℕ) (w : ℤ) :
    bmhLoop pattern buffer table last fuel w =
      Prod.snd <$> trace (bmhRound pattern buffer table) last fuel w := by
  refine eq_trace (fun w => rfl) (fun fuel w => ?_) fuel w
  rw [bmhLoop, bmhRound]
  simp only [bind_assoc]
  congr! 5 with start i
  split
  · rfl
  · simp only [bind_assoc, pure_bind]

theorem raitaLoop_eq_trace (table : Vector ℕ 256) (last : ℤ) (fuel : ℕ) (w : ℤ) :
    raitaLoop pattern buffer table (pattern.size - 1) (pattern.size / 2) last fuel w =
      Prod.snd <$> trace (raitaRound pattern buffer table) last fuel w := by
  refine eq_trace (fun w => rfl) (fun fuel w => ?_) fuel w
  rw [raitaLoop, raitaRound]
  simp only [bind_assoc]
  congr! 3 with accepted
  split
  · rfl
  · simp only [bind_assoc, pure_bind]

theorem indexOfBmh_eq_windows :
    indexOfBmh pattern buffer = Prod.snd <$> windows pattern buffer (bmhRound pattern buffer) := by
  rw [indexOfBmh, windows]
  split
  · rfl
  · simp only [bmhLoop_eq_trace, map_bind]

theorem indexOfRaita_eq_windows :
    indexOfRaita pattern buffer =
      Prod.snd <$> windows pattern buffer (raitaRound pattern buffer) := by
  rw [indexOfRaita, windows]
  split
  · rfl
  · simp only [raitaLoop_eq_trace, map_bind]

/-! ## One window -/

theorem raitaMatch_ok {w lastIdx : ℕ} (hlast : lastIdx < pattern.size)
    (hw : w + pattern.size ≤ buffer.size) (rest : ℕ) (hrest : rest < lastIdx) :
    ∃ j, raitaMatch pattern buffer w lastIdx rest = .ok j ∧
      (j = lastIdx ↔
        ∀ i, lastIdx - rest ≤ i → i < lastIdx → meetsAt pattern.word buffer.bytes w i = true) := by
  induction rest with
  | zero =>
    refine ⟨max 1 lastIdx, rfl, ⟨fun _ i h1 h2 => by omega, fun _ => by omega⟩⟩
  | succ rest ih =>
    obtain ⟨j, hj, hiff⟩ := ih (by omega)
    rw [raitaMatch, differs_ok pattern buffer (by omega) (by omega), Run.ok_bind]
    cases hm : meetsAt pattern.word buffer.bytes w (lastIdx - (rest + 1)) with
    | false =>
      refine ⟨_, rfl, ⟨fun h => by omega, fun h => ?_⟩⟩
      rw [h _ (le_refl _) (by omega)] at hm
      cases hm
    | true =>
      refine ⟨j, hj, hiff.trans ⟨fun h i h1 h2 => ?_, fun h i h1 h2 => h i (by omega) h2⟩⟩
      rcases Nat.eq_or_lt_of_le h1 with rfl | h1
      · exact hm
      · exact h i (by omega) h2

/-- The last, the first and the middle byte together with the positions from 1 up to the last one
are the whole pattern. -/
theorem raitaWindow_ok (h : 2 ≤ pattern.size) {w : ℕ} (hw : w + pattern.size ≤ buffer.size) :
    raitaWindow pattern buffer w (pattern.size - 1) (pattern.size / 2) =
      .ok (lastFailure (meetsAt pattern.word buffer.bytes w) pattern.size).isNone := by
  have hlast : pattern.size - 1 < pattern.size := by omega
  obtain ⟨j, hj, hiff⟩ := raitaMatch_ok hlast hw (pattern.size - 1 - 1) (by omega)
  have hall := lastFailure_eq_none_iff (meetsAt pattern.word buffer.bytes w) pattern.size
  have hfirst := differs_ok pattern buffer (i := 0) (w := w) (by omega) (by omega)
  rw [Nat.cast_zero, Int.add_zero] at hfirst
  have hmissed : ∀ i, i < pattern.size → meetsAt pattern.word buffer.bytes w i = false →
      (lastFailure (meetsAt pattern.word buffer.bytes w) pattern.size).isNone = false := by
    intro i hi hm
    rw [Bool.eq_false_iff, ne_eq, Option.isNone_iff_eq_none, hall]
    intro hmeets
    rw [hmeets i hi] at hm
    cases hm
  rw [raitaWindow, differs_ok pattern buffer (by omega) (by omega), Run.ok_bind]
  cases hlastMeets : meetsAt pattern.word buffer.bytes w (pattern.size - 1) with
  | false => exact congrArg _ (hmissed _ (by omega) hlastMeets).symm
  | true =>
    rw [Bool.not_true, if_neg Bool.false_ne_true, hfirst, Run.ok_bind]
    cases hfirstMeets : meetsAt pattern.word buffer.bytes w 0 with
    | false => exact congrArg _ (hmissed _ (by omega) hfirstMeets).symm
    | true =>
      rw [Bool.not_true, if_neg Bool.false_ne_true,
        differs_ok pattern buffer (by omega) (by omega), Run.ok_bind]
      cases hmidMeets : meetsAt pattern.word buffer.bytes w (pattern.size / 2) with
      | false => exact congrArg _ (hmissed _ (by omega) hmidMeets).symm
      | true =>
        rw [Bool.not_true, if_neg Bool.false_ne_true, hj, Run.ok_bind, Run.pure_eq_ok]
        apply congrArg
        rw [Bool.eq_iff_iff, beq_iff_eq, Option.isNone_iff_eq_none, hiff, hall]
        constructor
        · intro hmeets i hi
          -- position 0 is covered by the first byte, the last position by the last byte
          by_cases h0 : i = 0
          · rw [h0]
            exact hfirstMeets
          · by_cases hl : i = pattern.size - 1
            · rw [hl]
              exact hlastMeets
            · exact hmeets i (by omega) (by omega)
        · exact fun hmeets i _ hi => hmeets i (by omega)

theorem bmhMatch_eq_neg_one_iff {w : ℕ} (hw : w + pattern.size ≤ buffer.size) :
    bmhMatch pattern buffer w pattern.size = .ok (-1) ↔
      lastFailure (meetsAt pattern.word buffer.bytes w) pattern.size = none := by
  rw [bmhMatch_ok pattern buffer hw _ (le_refl _), ← encode_none]
  exact ⟨fun h => encode_injective (Except.ok.inj h), fun h => by rw [h]⟩

/-! ## Both searches -/

theorem bmhRound_eq_raitaRound (h : 2 ≤ pattern.size) (table : Vector ℕ 256) {w : ℕ}
    (hw : w + pattern.size ≤ buffer.size) :
    bmhRound pattern buffer table w = raitaRound pattern buffer table w := by
  have hmax := buffer.size_lt_max
  obtain ⟨hstart, hcount⟩ := int64_size_sub_one (n := pattern.size) (by omega)
  rw [bmhRound, raitaRound, hstart, Run.ok_bind, hcount, bmhMatch_ok pattern buffer hw _ (le_refl _),
    raitaWindow_ok h hw, Run.ok_bind, Run.ok_bind]
  cases lastFailure (meetsAt pattern.word buffer.bytes w) pattern.size with
  | none => rw [encode_none, if_pos (by omega), Option.isNone_none, if_pos rfl]
  | some i =>
    rw [encode_some, if_neg (by omega), Option.isNone_some, if_neg Bool.false_ne_true,
      show (w : ℤ) + pattern.size - 1 = (w : ℤ) + (pattern.size - 1 : ℕ) by omega]

theorem bmhRound_next {table : Vector ℕ 256} {w : ℕ} {z : ℤ}
    (h : bmhRound pattern buffer table w = .ok (some z)) : ∃ n : ℕ, z = n := by
  obtain ⟨start, -, h⟩ := Run.bind_eq_ok h
  obtain ⟨i, -, h⟩ := Run.bind_eq_ok h
  split at h
  · cases h
  · obtain ⟨b, -, h⟩ := Run.bind_eq_ok h
    obtain ⟨n, hn, h⟩ := Run.bind_eq_ok h
    cases h
    exact ⟨w + skip table b, by rw [int64_eq_ok hn, Nat.cast_add]⟩

theorem windows_bmh_eq_raita (h : 2 ≤ pattern.size) :
    windows pattern buffer (bmhRound pattern buffer) =
      windows pattern buffer (raitaRound pattern buffer) := by
  have hmax := buffer.size_lt_max
  rw [windows, windows]
  split
  · rfl
  · rename_i hc
    rw [cannotMatch_eq_true] at hc
    have hlast : int64 ((buffer.size : ℤ) - pattern.size) = .ok ((buffer.size : ℤ) - pattern.size) :=
      if_pos (by omega)
    rw [hlast]
    congr! 2 with table
    rw [Run.ok_bind, Run.ok_bind]
    exact trace_congr (fun w hw => bmhRound_eq_raitaRound h table (by omega))
      (fun _ _ => bmhRound_next) _ 0

theorem indexOf_raita_eq_bmh (h : 2 ≤ pattern.size) :
    (∃ ws r, indexOf pattern buffer .bmh = .ok r ∧ indexOf pattern buffer .raita = .ok r ∧
      windows pattern buffer (bmhRound pattern buffer) = .ok (ws, r) ∧
      windows pattern buffer (raitaRound pattern buffer) = .ok (ws, r)) ∧
    ∀ w : ℕ, w + pattern.size ≤ buffer.size →
      (raitaWindow pattern buffer w (pattern.size - 1) (pattern.size / 2) = .ok true ↔
        bmhMatch pattern buffer w pattern.size = .ok (-1)) := by
  constructor
  · obtain ⟨r, hr, -⟩ := indexOf_bmh_sound pattern buffer (by omega)
    have hwindows := hr
    rw [indexOf, indexOfBmh_eq_windows] at hwindows
    obtain ⟨⟨ws, r'⟩, hws, rfl⟩ := Run.map_eq_ok hwindows
    have hraita := hws
    rw [windows_bmh_eq_raita h] at hraita
    refine ⟨ws, _, hr, ?_, hws, hraita⟩
    rw [indexOf, indexOfRaita_eq_windows, hraita, Run.map_ok]
  · intro w hw
    rw [raitaWindow_ok h hw, bmhMatch_eq_neg_one_iff hw, ← Option.isNone_iff_eq_none]
    exact ⟨Except.ok.inj, fun h => congrArg _ h⟩

theorem indexOf_raita_eq_bmh_sig :
    ∃ ws, windows (.ofBytes [1, 2]) ⟨[3, 1, 1, 2], by decide⟩
        (bmhRound (.ofBytes [1, 2]) ⟨[3, 1, 1, 2], by decide⟩) = .ok (ws, 2) ∧
      windows (.ofBytes [1, 2]) ⟨[3, 1, 1, 2], by decide⟩
        (raitaRound (.ofBytes [1, 2]) ⟨[3, 1, 1, 2], by decide⟩) = .ok (ws, 2) := by
  obtain ⟨ws, r, hbmh, -, hws, hws'⟩ :=
    (@indexOf_raita_eq_bmh (.ofBytes [1, 2]) ⟨[3, 1, 1, 2], by decide⟩ (by decide)).1
  have hr : indexOf (.ofBytes [1, 2]) ⟨[3, 1, 1, 2], by decide⟩ .bmh = .ok 2 := by decide
  rw [hr] at hbmh
  cases hbmh
  exact ⟨ws, hws, hws'⟩

end Wincpp.Scanner
