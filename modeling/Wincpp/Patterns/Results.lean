import Wincpp.Patterns.Naive
import Wincpp.Patterns.Safety
import Wincpp.Patterns.Wildcards

/-! What `find_all` returns with each of the four algorithms.

The loop of `find_all` knows nothing of the algorithm but what `index_of` returns for the rest of the
buffer. With the three searches that jump it ends on every buffer of fewer than `2 ^ 31` bytes, with
matches that do not overlap (`findAll_apart`). Which of the four list the occurrences greedily on all
such buffers is `findAll_lists_iff`; on a single buffer the naive one does so exactly when no comparison
runs out outside of a match (`findAll_naive_iff`).
-/
namespace Wincpp.Scanner
open Search
set_option autoImplicit false

/-! ## What `index_of` may return -/

/-- Whatever the wildcards are, a search that jumps returns, and reports only an occurrence. -/
theorem indexOf_sound {algorithm : Algorithm} (ha : algorithm ≠ .naive) (pattern : Pattern)
    (buffer : Span) :
    ∃ r, indexOf pattern buffer algorithm = .ok (encode r) ∧
      ∀ k, r = some k → OccursAt pattern.word buffer.bytes k := by
  cases algorithm with
  | naive => exact absurd rfl ha
  | bmh =>
    obtain ⟨ws, r, hws, -, -, hocc⟩ := windows_bmh_ok pattern buffer
    exact ⟨r, by rw [indexOf, indexOfBmh_eq_windows, hws, Run.map_ok], hocc⟩
  | raita =>
    obtain ⟨ws, r, hws, -, -, hocc⟩ := windows_raita_ok pattern buffer
    exact ⟨r, by rw [indexOf, indexOfRaita_eq_windows, hws, Run.map_ok], fun k hk => (hocc k hk).2⟩
  | tbm =>
    obtain ⟨ws, r, hws, -, -, hocc⟩ := turboWindows_ok pattern buffer
    exact ⟨r, by rw [indexOf, indexOfTbm_eq_turboWindows, hws, Run.map_ok], hocc⟩

variable {pattern : Pattern} {buffer : Span} {algorithm : Algorithm}

theorem naiveLoop_eq_ok (rest : ℕ) (hrest : rest ≤ buffer.size) {z : ℤ}
    (h : naiveLoop pattern buffer rest = .ok z) :
    ∃ r, z = encode r ∧ ∀ k, r = some k → k < buffer.size := by
  induction rest with
  | zero =>
    cases h
    exact ⟨none, rfl, fun k hk => by cases hk⟩
  | succ rest ih =>
    obtain ⟨found, -, h⟩ := Run.bind_eq_ok h
    cases found with
    | true =>
      rw [if_pos rfl] at h
      refine ⟨some (buffer.size - (rest + 1)), int64_eq_ok h, fun k hk => ?_⟩
      cases hk
      omega
    | false => exact ih (by omega) h

/-- A result is `-1` or an offset in the buffer. -/
theorem indexOf_eq_ok (hsize : 0 < pattern.size) {z : ℤ}
    (h : indexOf pattern buffer algorithm = .ok z) :
    ∃ r, z = encode r ∧ ∀ k, r = some k → k < buffer.size := by
  by_cases ha : algorithm = .naive
  · subst ha
    exact naiveLoop_eq_ok buffer.size le_rfl h
  · obtain ⟨r, hr, hocc⟩ := indexOf_sound ha pattern buffer
    refine ⟨r, Except.ok.inj (h.symm.trans hr), fun k hk => ?_⟩
    have hfit : k + pattern.size ≤ buffer.size := pattern.word_length ▸ (hocc k hk).1
    omega

theorem indexOf_empty (hbuf : buffer.size = 0) (hsize : 0 < pattern.size) :
    indexOf pattern buffer algorithm = .ok (encode none) := by
  have hc : cannotMatch pattern buffer = true := by
    rw [cannotMatch_eq_true]
    omega
  cases algorithm with
  | naive => rw [indexOf, indexOfNaive, hbuf]; rfl
  | bmh => rw [indexOf, indexOfBmh, if_pos hc]; rfl
  | raita => rw [indexOf, indexOfRaita, if_pos hc]; rfl
  | tbm => rw [indexOf, indexOfTbm, if_pos hc]; rfl

/-! ## Rounds -/

/-- The results are only added to. -/
theorem findAllLoop_prefix {fuel : ℕ} {i : ℤ} {results L : List ℕ}
    (h : findAllLoop pattern buffer algorithm fuel i results = .ok L) : ∃ ks, L = results ++ ks := by
  induction fuel generalizing i results with
  | zero => cases h
  | succ fuel ih =>
    rw [findAllLoop] at h
    split at h
    · obtain ⟨z, -, h⟩ := Run.bind_eq_ok h
      split at h
      · cases h
        exact ⟨[], (List.append_nil _).symm⟩
      · obtain ⟨ks, rfl⟩ := ih h
        exact ⟨_, List.append_assoc ..⟩
    · cases h
      exact ⟨[], (List.append_nil _).symm⟩

/-- What a run of the loop from a cursor inside the buffer tells about its first round. -/
theorem findAllLoop_first (hsize : 0 < pattern.size) {i fuel : ℕ} (hi : i < buffer.size)
    {results ks : List ℕ}
    (h : findAllLoop pattern buffer algorithm (fuel + 1) i results = .ok (results ++ ks)) :
    indexOf pattern (buffer.subspan i) algorithm = .ok (encode (ks.head?.map fun k => k - i)) ∧
      ∀ k ∈ ks.head?, i ≤ k := by
  have hmax := buffer.size_lt_max
  rw [findAllLoop, asSize_natCast (by omega), if_pos hi] at h
  obtain ⟨z, hz, h⟩ := Run.bind_eq_ok h
  obtain ⟨r, rfl, hr⟩ := indexOf_eq_ok hsize hz
  cases r with
  | none =>
    rw [encode_none, if_pos rfl] at h
    obtain rfl : ks = [] := List.self_eq_append_right.mp (Except.ok.inj h)
    exact ⟨hz, by simp⟩
  | some k =>
    have hk := hr k rfl
    rw [Span.subspan_size] at hk
    rw [encode_some, if_neg (by omega), ← Nat.cast_add i k, asSize_natCast (by omega)] at h
    obtain ⟨rest, hrest⟩ := findAllLoop_prefix h
    rw [List.append_assoc, List.append_cancel_left_eq, List.singleton_append] at hrest
    subst hrest
    rw [List.head?_cons, Option.map_some, Nat.add_sub_cancel_left]
    refine ⟨hz, fun j hj => ?_⟩
    cases hj
    omega

/-! ## Searches that jump -/

/-- Whatever the wildcards of the pattern are: with a search that jumps, `find_all` reports only
occurrences; on a buffer of fewer than `2 ^ 31` bytes it ends, its results do not overlap, and the
first of them is the result of `find`. -/
theorem findAll_apart (algorithm : Algorithm) (ha : algorithm ≠ .naive) (pattern : Pattern)
    (buffer : Span) (hsize : 0 < pattern.size) :
    (∀ fuel L, findAll pattern buffer algorithm fuel = .ok L →
      ∀ k ∈ L, OccursAt pattern.word buffer.bytes k) ∧
    (buffer.size < 2 ^ 31 → ∃ ks,
      (∀ fuel, buffer.size < fuel → findAll pattern buffer algorithm fuel = .ok ks) ∧
      ks.Pairwise (fun a b => a + pattern.size ≤ b) ∧
      find pattern buffer algorithm = .ok ks.head?) := by
  constructor
  · intro fuel L h
    exact findAllLoop_sound pattern buffer (indexOf_sound ha pattern) fuel 0 [] L (by decide)
      (by decide) h fun _ hk => absurd hk List.not_mem_nil
  · intro hbuf
    obtain ⟨ks, hks, hapart, -, hfirst⟩ := findAll_of_sound (indexOf_sound ha pattern) hsize hbuf
    exact ⟨ks, hks, hapart, hfirst⟩

theorem findAll_apart_wildcard :
    ∃ ks, (∀ fuel, 5 < fuel → findAll (.ofMask [1, 0] ['x', '?'] (by decide))
        ⟨[1, 1, 0, 1, 0], by decide⟩ .tbm fuel = .ok ks) ∧ ks.Pairwise (fun a b => a + 2 ≤ b) ∧
      find (.ofMask [1, 0] ['x', '?'] (by decide)) ⟨[1, 1, 0, 1, 0], by decide⟩ .tbm =
        .ok ks.head? :=
  (findAll_apart .tbm (by decide) (.ofMask [1, 0] ['x', '?'] (by decide))
    ⟨[1, 1, 0, 1, 0], by decide⟩ (by decide)).2 (by decide)

/-! ## Raita and Horspool -/

/-- `find` and `find_all` return the same with the Raita search as with the Horspool search, on buffers
of every size, unless the pattern has exactly one byte: that the Raita search never finds. -/
theorem raita_eq_bmh_iff (pattern : Pattern) :
    (∀ buffer, find pattern buffer .raita = find pattern buffer .bmh ∧
      ∀ fuel, findAll pattern buffer .raita fuel = findAll pattern buffer .bmh fuel) ↔
      pattern.size ≠ 1 := by
  constructor
  · intro hall hone
    have hlen : pattern.size < 2 ^ 63 := by omega
    have hocc : OccursAt pattern.word (own pattern hlen).bytes 0 := by
      apply pattern.occursAt_word
      rw [occursAt_map_some]
      exact ⟨by simp [own], fun i _ => by rw [Nat.zero_add]; rfl⟩
    have hbmh := find_of_indexOf _ _
      (indexOf_bmh_of_occursAt_zero pattern (own pattern hlen) (by omega) hocc)
      (fun k hk => by cases hk; decide)
    have hmissed : indexOf pattern (own pattern hlen) .raita = .ok (encode none) :=
      indexOf_raita_one hone
    have hraita := find_of_indexOf _ _ hmissed fun k hk => by cases hk
    rw [← (hall _).1, hraita] at hbmh
    cases hbmh
  · intro hne buffer
    have hindex : ∀ buffer, indexOf pattern buffer .raita = indexOf pattern buffer .bmh := by
      intro buffer
      rcases Nat.lt_or_ge 1 pattern.size with hlt | hle
      · exact indexOf_raita_eq_bmh_of_two_le hlt
      · have hc : cannotMatch pattern buffer = true := by
          rw [cannotMatch_eq_true]
          omega
        rw [indexOf, indexOf, indexOfRaita, indexOfBmh, if_pos hc, if_pos hc]
    refine ⟨by rw [find, find, hindex], fun fuel => ?_⟩
    suffices hloop : ∀ i results, findAllLoop pattern buffer .raita fuel i results =
        findAllLoop pattern buffer .bmh fuel i results from hloop 0 []
    induction fuel with
    | zero => exact fun _ _ => rfl
    | succ fuel ih =>
      intro i results
      simp only [findAllLoop, hindex, ih]

/-! ## The naive search -/

theorem runsOut_subspan {i w : ℕ} :
    RunsOut pattern (buffer.subspan i) w ↔ RunsOut pattern buffer (i + w) := by
  have hmeets : ∀ j, meetsAt pattern.word (buffer.subspan i).bytes w j =
      meetsAt pattern.word buffer.bytes (i + w) j := by
    intro j
    simp only [meetsAt, Span.subspan, List.getElem?_drop, Nat.add_assoc]
  simp only [RunsOut, hmeets, Span.subspan_size]
  have hsub : buffer.size - i - w = buffer.size - (i + w) := by omega
  rw [hsub]
  refine and_congr_left fun _ => ?_
  omega

/-- A search that returns rightly although a comparison would run out has returned before that. -/
theorem naive_of_runsOut (hsize : 0 < pattern.size) {w : ℕ} (hout : RunsOut pattern buffer w)
    {r : Option ℕ} (h : indexOf pattern buffer .naive = .ok (encode r))
    (hocc : ∀ k, r = some k → OccursAt pattern.word buffer.bytes k) : ∃ k < w, r = some k := by
  have hstart : buffer.size - buffer.size ≤ w := by omega
  obtain ⟨k, hk, hz, hm⟩ := naiveLoop_of_runsOut hsize hout buffer.size le_rfl hstart h
  have hr : r = some k := encode_injective (hz.trans (encode_some k).symm)
  refine ⟨k, Nat.lt_of_le_of_ne hk fun he => ?_, hr⟩
  subst he
  have hfit : k + pattern.size ≤ buffer.size := pattern.word_length ▸ (hocc k hr).1
  have hint := size_le_of_naiveMatch _ hsize le_rfl (by omega) hm
  have hshort := hout.2.1
  omega

/-- Where no comparison runs out but behind the first occurrence, the search finds that. -/
theorem naive_of_reach (hsize : 0 < pattern.size)
    (h : ∀ w, RunsOut pattern buffer w → ∃ w' < w, OccursAt pattern.word buffer.bytes w') {r : Option ℕ}
    (hr : IsFirst (OccursAt pattern.word buffer.bytes) r) :
    indexOf pattern buffer .naive = .ok (encode r) := by
  obtain ⟨r', hr', hfirst⟩ :=
    naiveLoop_ok hsize h buffer.size le_rfl fun k hk => absurd hk (by omega)
  rw [hfirst.unique hr] at hr'
  exact hr'

theorem findAllLoop_naive_of_inside (hsize : 0 < pattern.size) (hbuf : buffer.size < 2 ^ 31) {i : ℕ}
    {ks : List ℕ} (hks : Greedy (OccursAt pattern.word buffer.bytes) pattern.size i ks)
    (hi : i ≤ buffer.size)
    (h : ∀ w, i ≤ w → RunsOut pattern buffer w → ∃ k ∈ ks, k < w ∧ w < k + pattern.size) (fuel : ℕ)
    (hfuel : buffer.size < i + fuel) (results : List ℕ) :
    findAllLoop pattern buffer .naive fuel i results = .ok (results ++ ks) := by
  obtain ⟨fuel, rfl⟩ : ∃ n, fuel = n + 1 := ⟨fuel - 1, by omega⟩
  induction hks generalizing fuel results with
  | @done i hno =>
    have hnone : indexOf pattern (buffer.subspan i) .naive = .ok (encode none) := by
      refine naive_of_reach hsize (fun w hw => ?_) (isFirst_subspan_none hi hno)
      obtain ⟨k, hk, -⟩ := h (i + w) (Nat.le_add_right ..) (runsOut_subspan.mp hw)
      cases hk
    rw [findAllLoop_of_none (by omega) hnone, List.append_nil]
  | @pick i k ks hk hks ih =>
    have hfit : k + pattern.size ≤ buffer.size := pattern.word_length ▸ hk.1.2.1
    have hle := hk.1.1
    have hsome : indexOf pattern (buffer.subspan i) .naive = .ok (encode (some (k - i))) := by
      refine naive_of_reach hsize (fun w hw => ?_) (isFirst_subspan_some hi hk)
      obtain ⟨j, hj, hjw, -⟩ := h (i + w) (Nat.le_add_right ..) (runsOut_subspan.mp hw)
      have hkj : k ≤ j := by
        rcases List.mem_cons.mp hj with rfl | hj
        · exact le_rfl
        · have := (hks.mem j hj).1
          omega
      refine ⟨k - i, by omega, (occursAt_drop hi).mpr ?_⟩
      rw [Nat.add_sub_cancel' hle]
      exact hk.1.2
    have hcursor : i + (k - i) = k := Nat.add_sub_cancel' hle
    obtain ⟨fuel, rfl⟩ : ∃ n, fuel = n + 1 := ⟨fuel - 1, by omega⟩
    rw [findAllLoop_of_some (by omega) hsome (by omega), hcursor,
      ih hfit (fun w hw hout => ?_) (results ++ [k]) fuel (by omega), List.append_assoc,
      List.singleton_append]
    obtain ⟨j, hj, hjw, hwj⟩ := h w (by omega) hout
    rcases List.mem_cons.mp hj with rfl | hj
    · omega
    · exact ⟨j, hj, hjw, hwj⟩

theorem inside_of_findAllLoop_naive (hsize : 0 < pattern.size) (hbuf : buffer.size < 2 ^ 31) {i w : ℕ}
    {ks : List ℕ} (hks : Greedy (OccursAt pattern.word buffer.bytes) pattern.size i ks) (hw : i ≤ w)
    (hout : RunsOut pattern buffer w) (fuel : ℕ) (results : List ℕ)
    (h : findAllLoop pattern buffer .naive fuel i results = .ok (results ++ ks)) :
    ∃ k ∈ ks, k < w ∧ w < k + pattern.size := by
  induction hks generalizing fuel results with
  | @done i hno =>
    have hlt : i < buffer.size := lt_of_le_of_lt hw hout.1
    cases fuel with
    | zero => cases h
    | succ fuel =>
      have hsub : RunsOut pattern (buffer.subspan i) (w - i) := by
        rwa [runsOut_subspan, Nat.add_sub_cancel' hw]
      obtain ⟨hindex, -⟩ := findAllLoop_first hsize hlt h
      obtain ⟨k, -, hk⟩ := naive_of_runsOut hsize hsub hindex fun k hk => by cases hk
      cases hk
  | @pick i k ks hk hks ih =>
    have hlt : i < buffer.size := lt_of_le_of_lt hw hout.1
    have hfit : k + pattern.size ≤ buffer.size := pattern.word_length ▸ hk.1.2.1
    have hle := hk.1.1
    cases fuel with
    | zero => cases h
    | succ fuel =>
      have hsub : RunsOut pattern (buffer.subspan i) (w - i) := by
        rwa [runsOut_subspan, Nat.add_sub_cancel' hw]
      obtain ⟨hindex, -⟩ := findAllLoop_first hsize hlt h
      rw [List.head?_cons, Option.map_some] at hindex
      obtain ⟨j, hj, he⟩ := naive_of_runsOut hsize hsub hindex fun j hj => by
        cases hj
        exact (isFirst_subspan_some hlt.le hk).1
      cases he
      rcases Nat.lt_or_ge w (k + pattern.size) with hinside | hbehind
      · exact ⟨k, List.mem_cons_self, by omega, hinside⟩
      · have hcursor : i + (k - i) = k := Nat.add_sub_cancel' hle
        have happend : results ++ k :: ks = results ++ [k] ++ ks := List.append_cons ..
        rw [findAllLoop_of_some hlt hindex (by omega), hcursor, happend] at h
        obtain ⟨j, hj, hjw⟩ := ih hbehind fuel (results ++ [k]) h
        exact ⟨j, List.mem_cons_of_mem _ hj, hjw⟩

/-- On a buffer of fewer than `2 ^ 31` bytes, `find_all< naive_t >` returns the greedy list of the
occurrences exactly when every position at which a comparison runs out lies inside one of them. -/
theorem findAll_naive_iff (pattern : Pattern) (buffer : Span) (hsize : 0 < pattern.size)
    (hbuf : buffer.size < 2 ^ 31) (ks : List ℕ)
    (hks : Greedy (OccursAt pattern.word buffer.bytes) pattern.size 0 ks) :
    (∀ fuel, buffer.size < fuel → findAll pattern buffer .naive fuel = .ok ks) ↔
      ∀ w, RunsOut pattern buffer w → ∃ k ∈ ks, k < w ∧ w < k + pattern.size := by
  constructor
  · intro h w hw
    exact inside_of_findAllLoop_naive hsize hbuf hks (Nat.zero_le w) hw (buffer.size + 1) []
      (h _ (by omega))
  · intro h fuel hfuel
    exact findAllLoop_naive_of_inside hsize hbuf hks (Nat.zero_le _) (fun w _ => h w) fuel (by omega) []

/-- The buffer ends in the first byte of the pattern, inside the last match. -/
theorem findAll_naive_iff_overlap :
    (∀ fuel, 5 < fuel →
      findAll (.ofBytes [1, 2, 1]) ⟨[0, 0, 1, 2, 1], by decide⟩ .naive fuel = .ok [2]) ↔
      ∀ w, RunsOut (.ofBytes [1, 2, 1]) ⟨[0, 0, 1, 2, 1], by decide⟩ w →
        ∃ k ∈ [2], k < w ∧ w < k + 3 := by
  refine findAll_naive_iff (.ofBytes [1, 2, 1]) ⟨[0, 0, 1, 2, 1], by decide⟩ (by decide) (by decide)
    [2] ?_
  have hocc : ∀ k, OccursAt (Pattern.ofBytes [1, 2, 1]).word [0, 0, 1, 2, 1] k ↔ k = 2 := by
    intro k
    rw [Pattern.ofBytes_word, occursAt_map_some]
    refine ⟨fun ⟨hlen, hmeet⟩ => ?_, fun hk => hk ▸ ⟨by decide, by decide⟩⟩
    have hle : k ≤ 2 := Nat.le_of_add_le_add_right hlen
    interval_cases k
    · have := hmeet 0 (by decide)
      cases this
    · have := hmeet 0 (by decide)
      cases this
    · rfl
  refine .pick ⟨⟨by decide, (hocc 2).mpr rfl⟩, fun j hj => ((hocc j).mp hj.2).ge⟩ (.done fun k hk => ?_)
  rw [hocc]
  change 5 ≤ k at hk
  omega

/-! ## All buffers -/

/-- `find_all` returns the greedy list of the occurrences. -/
def ListsGreedily (pattern : Pattern) (buffer : Span) (algorithm : Algorithm) : Prop :=
  ∃ ks, (∀ fuel, buffer.size < fuel → findAll pattern buffer algorithm fuel = .ok ks) ∧
    Greedy (OccursAt pattern.word buffer.bytes) pattern.size 0 ks

/-- `find_all` can only be right where `index_of` is. -/
theorem ListsGreedily.indexesFirst (hsize : 0 < pattern.size)
    (h : ListsGreedily pattern buffer algorithm) : IndexesFirst pattern buffer algorithm := by
  obtain ⟨ks, hks, hgreedy⟩ := h
  have hfirst := (hgreedy.isGreedyList fun k _ => Nat.zero_le k).first
  refine ⟨ks.head?, ?_, hfirst⟩
  rcases Nat.eq_zero_or_pos buffer.size with hzero | hpos
  · have hnil : ks = [] := by
      cases ks with
      | nil => rfl
      | cons k ks =>
        have hfit : k + pattern.size ≤ buffer.size := pattern.word_length ▸ hfirst.1.1
        omega
    rw [indexOf_empty hzero hsize, hnil]
    rfl
  · have hrun : findAllLoop pattern buffer algorithm (buffer.size + 1) (0 : ℕ) [] = .ok ([] ++ ks) :=
      hks _ (by omega)
    have hindex := (findAllLoop_first hsize hpos hrun).1
    have hhead : (ks.head?.map fun k => k - 0) = ks.head? := by cases ks <;> rfl
    rwa [hhead] at hindex

/-- On which strict patterns the algorithms list the occurrences greedily, in every buffer of fewer
than `2 ^ 31` bytes: the Horspool search on all of them, the Raita search on those of at least two
bytes, the turbo search on those without a suffix that comes too close to itself, and the naive one on
those of a single byte. -/
theorem findAll_lists_iff (pattern : Pattern) (hsize : 0 < pattern.size) (hs : pattern.Strict)
    (hlen : 2 * pattern.size ≤ 2 ^ 31) (algorithm : Algorithm) :
    (∀ buffer : Span, buffer.size < 2 ^ 31 → ListsGreedily pattern buffer algorithm) ↔
      match algorithm with
      | .naive => pattern.size = 1
      | .bmh => True
      | .raita => 2 ≤ pattern.size
      | .tbm => SuffixSafe pattern.bytes := by
  have hword : 0 < pattern.word.length := by rwa [pattern.word_length]
  have hbmh : ∀ sub, IndexesFirst pattern sub .bmh := fun sub =>
    indexesFirst_bmh_of_openShadowed pattern sub hsize (openShadowed_of_strict hs)
  cases algorithm with
  | naive =>
    constructor
    · intro hall
      by_contra hne
      obtain ⟨b, hb⟩ := pattern.exists_byte hsize
      obtain ⟨r, hr, hfirst⟩ := (hall ⟨[b], by simp⟩ (by simp [Span.size])).indexesFirst hsize
      have hout : RunsOut pattern ⟨[b], by simp⟩ 0 := by
        refine ⟨by simp [Span.size], by simp [Span.size]; omega, fun i hi => ?_⟩
        obtain rfl : i = 0 := by
          simp only [Span.size, List.length_singleton] at hi
          omega
        rw [meetsAt_iff, hs.word_eq, List.getElem?_map, hb]
        intro a ha
        simpa using ha
      obtain ⟨k, hk, -⟩ := naive_of_runsOut hsize hout hr fun k hk => by
        subst hk
        exact hfirst.1
      omega
    · intro hone buffer hbuf
      refine findAll_greedy pattern buffer hsize (fun sub => ?_) hbuf
      have hno : ∀ w, ¬ RunsOut pattern sub w := by
        rintro w ⟨hw, hshort, -⟩
        omega
      exact naiveLoop_ok hsize (fun w hw => absurd hw (hno w)) sub.size le_rfl
        fun k hk => absurd hk (by omega)
  | bmh => exact ⟨fun _ => trivial, fun _ buffer hbuf => findAll_greedy pattern buffer hsize hbmh hbuf⟩
  | raita =>
    constructor
    · intro hall
      by_contra hlt
      have hone : pattern.size = 1 := by omega
      have hown : pattern.size < 2 ^ 63 := by omega
      have hbuf : (own pattern hown).size < 2 ^ 31 := by
        rw [Span.size, own, pattern.bytes_length]
        omega
      obtain ⟨r, hr, hfirst⟩ := (hall (own pattern hown) hbuf).indexesFirst hsize
      rw [indexOf_raita_one hone] at hr
      rw [← encode_injective (Except.ok.inj hr)] at hfirst
      apply hfirst 0
      apply pattern.occursAt_word
      rw [occursAt_map_some]
      exact ⟨by simp [own], fun i _ => by rw [Nat.zero_add]; rfl⟩
    · intro htwo buffer hbuf
      refine findAll_greedy pattern buffer hsize (fun sub => ?_) hbuf
      obtain ⟨r, hr, hfirst⟩ := hbmh sub
      exact ⟨r, by rw [indexOf_raita_eq_bmh_of_two_le htwo, hr], hfirst⟩
  | tbm =>
    have hbytes : 0 < pattern.bytes.length := by rwa [pattern.bytes_length]
    constructor
    · intro hall
      have : Nontrivial UInt8 := ⟨0, 1, by decide⟩
      change SuffixSafe pattern.bytes
      rw [← forall_turbo_iff hbytes hs.word_eq (badCharTable _ hword)]
      intro xs hxs
      rw [pattern.bytes_length] at hxs
      have hlists := hall ⟨xs, by omega⟩ (show xs.length < 2 ^ 31 by omega)
      exact (indexesFirst_tbm_iff_noJumpOver pattern ⟨xs, by omega⟩ hword hs).mp
        (hlists.indexesFirst hsize)
    · intro hsafe buffer hbuf
      refine findAll_greedy pattern buffer hsize (fun sub => ?_) hbuf
      rw [indexesFirst_tbm_iff_noJumpOver pattern sub hword hs]
      exact SuffixSafe.noJumpOver hsafe hbytes hs.word_eq _ _ _

/-- The address of a vtable as `find_instance_of` looks for it. -/
theorem findAll_lists_iff_vtable :
    ¬ ∀ buffer : Span, buffer.size < 2 ^ 31 →
      ListsGreedily (.ofBytes [0, 0x10, 0x40, 0, 0, 0, 0, 0]) buffer .tbm := by
  rw [findAll_lists_iff (.ofBytes [0, 0x10, 0x40, 0, 0, 0, 0, 0]) (by decide)
    (Pattern.ofBytes_strict _) (by decide) .tbm]
  intro hsafe
  have hlast := hsafe 3 1 (by decide) (by decide) fun k hk hlt => by
    have hlow : 3 ≤ k := Nat.lt_succ_iff.mp hk
    have hhigh : k < 7 := Nat.lt_of_succ_lt_succ hlt
    interval_cases k <;> rfl
  revert hlast
  decide

end Wincpp.Scanner
