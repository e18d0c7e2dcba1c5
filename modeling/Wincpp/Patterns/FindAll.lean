import Wincpp.Library.Greedy
import Wincpp.Patterns.Horspool

/-! What `find_all` computes.

As long as the 32-bit cursor is exact (`checkedLoop`), the loop lists the occurrences greedily from the
left; on a buffer of fewer than `2 ^ 31` bytes it always is. On larger buffers the cursor may wrap, but
whatever the loop reports is still an occurrence (`findAll_bmh_sound`).
-/
namespace Wincpp.Scanner
open Search
set_option autoImplicit false

variable (pattern : Pattern) (buffer : Span)

/-! ## One round -/

section Rounds
variable {pattern buffer} {algorithm : Algorithm} {i : ℕ}

theorem findAllLoop_of_none (hi : i < 2 ^ 64)
    (hr : indexOf pattern (buffer.subspan i) algorithm = .ok (encode none)) (fuel : ℕ)
    (results : List ℕ) :
    findAllLoop pattern buffer algorithm (fuel + 1) i results = .ok results := by
  rw [findAllLoop, asSize_natCast hi, hr]
  split
  · rw [Run.ok_bind, encode_none, if_pos rfl]
    rfl
  · rfl

/-- As long as the cursor stays below `2 ^ 31`, a result moves it behind the match. -/
theorem findAllLoop_of_some {k : ℕ} (hi : i < buffer.size)
    (hr : indexOf pattern (buffer.subspan i) algorithm = .ok (encode (some k)))
    (hnext : i + k + pattern.size < 2 ^ 31) (fuel : ℕ) (results : List ℕ) :
    findAllLoop pattern buffer algorithm (fuel + 1) i results =
      findAllLoop pattern buffer algorithm fuel (i + k + pattern.size : ℕ) (results ++ [i + k]) := by
  have hcursor : asInt32 ((i : ℤ) + k + pattern.size) = ((i + k + pattern.size : ℕ) : ℤ) := by
    rw [asInt32_of_bounds (by omega) (by omega)]
    omega
  have hpush : asSize ((i : ℤ) + k) = i + k := by
    rw [← Nat.cast_add, asSize_natCast (by omega)]
  rw [findAllLoop, asSize_natCast (by omega), if_pos hi, hr, Run.ok_bind, encode_some,
    if_neg (by omega), hcursor, hpush]

/-- From `2 ^ 31` up to `2 ^ 32` the cursor becomes negative, which ends the loop. -/
theorem findAllLoop_of_negative {k : ℕ} (hi : i < buffer.size)
    (hr : indexOf pattern (buffer.subspan i) algorithm = .ok (encode (some k)))
    (hlow : 2 ^ 31 ≤ i + k + pattern.size) (hhigh : i + k + pattern.size < 2 ^ 32) (fuel : ℕ)
    (results : List ℕ) :
    findAllLoop pattern buffer algorithm (fuel + 2) i results = .ok (results ++ [i + k]) := by
  have hmax := buffer.size_lt_max
  have hcursor : asInt32 ((i : ℤ) + k + pattern.size) = i + k + pattern.size - 2 ^ 32 := by
    rw [asInt32, Int.bmod_def]
    omega
  have hpast : buffer.size ≤ asSize ((i : ℤ) + k + pattern.size - 2 ^ 32) := by
    rw [asSize]
    omega
  have hpush : asSize ((i : ℤ) + k) = i + k := by
    rw [← Nat.cast_add, asSize_natCast (by omega)]
  rw [findAllLoop, asSize_natCast (by omega), if_pos hi, hr, Run.ok_bind, encode_some,
    if_neg (by omega), hcursor, hpush, findAllLoop, if_neg (by omega)]
  rfl

end Rounds

/-! ## The checked loop -/

/-- The loop of `find_all`, stopped at the first conversion that changes the value of the cursor. -/
def checkedLoop (pattern : Pattern) (buffer : Span) (algorithm : Algorithm) :
    ℕ → ℤ → List ℕ → Run (List ℕ)
  | 0, _, _ => .error .outOfFuel
  | fuel + 1, i, results => do
    let offset ← sizeT i
    if offset < buffer.size then do
      let result ← indexOf pattern (buffer.subspan offset) algorithm
      if result = -1 then
        return results
      else
        let next ← int32 (i + result + pattern.size)
        checkedLoop pattern buffer algorithm fuel next (results ++ [← sizeT (i + result)])
    else
      return results

section Checked
variable {pattern buffer} {algorithm : Algorithm}

/-- What the checked loop returns, `find_all` returns. -/
theorem checkedLoop_below (fuel : ℕ) (i : ℤ) (results : List ℕ) :
    Run.Below (checkedLoop pattern buffer algorithm fuel i results)
      (findAllLoop pattern buffer algorithm fuel i results) := by
  induction fuel generalizing i results with
  | zero =>
    intro L hL
    cases hL
  | succ fuel ih =>
    intro L hL
    rw [checkedLoop] at hL
    rw [findAllLoop]
    obtain ⟨offset, hoffset, hL⟩ := Run.bind_eq_ok hL
    rw [asSize_of_sizeT hoffset]
    split at hL
    · rename_i hlt
      obtain ⟨result, hresult, hL⟩ := Run.bind_eq_ok hL
      rw [if_pos hlt, hresult, Run.ok_bind]
      split at hL
      · rename_i hnone
        rw [if_pos hnone]
        exact hL
      · rename_i hsome
        obtain ⟨next, hnext, hL⟩ := Run.bind_eq_ok hL
        obtain ⟨found, hfound, hL⟩ := Run.bind_eq_ok hL
        rw [if_neg hsome, asInt32_of_int32 hnext, asSize_of_sizeT hfound]
        exact ih _ _ L hL
    · rename_i hend
      rw [if_neg hend]
      exact hL

variable {i : ℕ}

theorem checkedLoop_of_none (hi : i < 2 ^ 64)
    (hr : indexOf pattern (buffer.subspan i) algorithm = .ok (encode none)) (fuel : ℕ)
    (results : List ℕ) :
    checkedLoop pattern buffer algorithm (fuel + 1) i results = .ok results := by
  rw [checkedLoop, sizeT_natCast hi, Run.ok_bind, hr]
  split
  · rw [Run.ok_bind, encode_none, if_pos rfl]
    rfl
  · rfl

theorem checkedLoop_of_some {k : ℕ} (hi : i < buffer.size)
    (hr : indexOf pattern (buffer.subspan i) algorithm = .ok (encode (some k))) (fuel : ℕ)
    (results : List ℕ) :
    checkedLoop pattern buffer algorithm (fuel + 1) i results =
      int32 (i + k + pattern.size : ℕ) >>= fun next => sizeT (i + k : ℕ) >>= fun offset =>
        checkedLoop pattern buffer algorithm fuel next (results ++ [offset]) := by
  have hmax := buffer.size_lt_max
  rw [checkedLoop, sizeT_natCast (by omega), Run.ok_bind, if_pos hi, hr, Run.ok_bind, encode_some,
    if_neg (by omega), Nat.cast_add, Nat.cast_add]

end Checked

/-! ## The greedy list -/

section Picks
variable {pattern buffer} {algorithm : Algorithm} {i : ℕ}

theorem isFirst_subspan_none (hi : i ≤ buffer.size)
    (hno : ∀ k, i ≤ k → ¬ OccursAt pattern.word buffer.bytes k) :
    IsFirst (OccursAt pattern.word (buffer.subspan i).bytes) none := fun k hk =>
  hno (i + k) (Nat.le_add_right ..) ((occursAt_drop hi).mp hk)

theorem isFirst_subspan_some {k : ℕ} (hi : i ≤ buffer.size)
    (hk : IsLeast {j | i ≤ j ∧ OccursAt pattern.word buffer.bytes j} k) :
    IsFirst (OccursAt pattern.word (buffer.subspan i).bytes) (some (k - i)) := by
  refine ⟨(occursAt_drop hi).mpr ?_, fun j hj => ?_⟩
  · rw [Nat.add_sub_cancel' hk.1.1]
    exact hk.1.2
  · have hle : k ≤ i + j := hk.2 ⟨Nat.le_add_right .., (occursAt_drop hi).mp hj⟩
    omega

variable (hfirst : ∀ sub, IndexesFirst pattern sub algorithm)
include hfirst

theorem indexOf_of_isFirst {r : Option ℕ}
    (h : IsFirst (OccursAt pattern.word (buffer.subspan i).bytes) r) :
    indexOf pattern (buffer.subspan i) algorithm = .ok (encode r) := by
  obtain ⟨r', hr, hleast⟩ := hfirst (buffer.subspan i)
  rw [hr, hleast.unique h]

theorem indexOf_of_done (hi : i ≤ buffer.size)
    (hno : ∀ k, i ≤ k → ¬ OccursAt pattern.word buffer.bytes k) :
    indexOf pattern (buffer.subspan i) algorithm = .ok (encode none) :=
  indexOf_of_isFirst hfirst (isFirst_subspan_none hi hno)

theorem indexOf_of_pick (hi : i ≤ buffer.size) {k : ℕ}
    (hk : IsLeast {j | i ≤ j ∧ OccursAt pattern.word buffer.bytes j} k) :
    indexOf pattern (buffer.subspan i) algorithm = .ok (encode (some (k - i))) :=
  indexOf_of_isFirst hfirst (isFirst_subspan_some hi hk)

/-- As long as the picks end below `2 ^ 31`, the loop adds them to the results. -/
theorem checkedLoop_of_greedy {ks : List ℕ}
    (h : Greedy (OccursAt pattern.word buffer.bytes) pattern.size i ks) (hsize : 0 < pattern.size)
    (hks : ∀ k ∈ ks, k + pattern.size < 2 ^ 31) (hi : i ≤ buffer.size) (fuel : ℕ)
    (hfuel : ks.length < fuel) (results : List ℕ) :
    checkedLoop pattern buffer algorithm fuel i results = .ok (results ++ ks) := by
  have hmax := buffer.size_lt_max
  induction h generalizing fuel results with
  | done hno =>
    obtain ⟨fuel, rfl⟩ : ∃ n, fuel = n + 1 := ⟨fuel - 1, by omega⟩
    rw [List.append_nil]
    exact checkedLoop_of_none (by omega) (indexOf_of_done hfirst hi hno) fuel results
  | @pick i k ks hk hrest ih =>
    obtain ⟨fuel, rfl⟩ : ∃ n, fuel = n + 1 := ⟨fuel - 1, by omega⟩
    have hik : i + (k - i) = k := Nat.add_sub_cancel' hk.1.1
    have hfit : k + pattern.size ≤ buffer.size := pattern.word_length ▸ hk.1.2.1
    have hend := hks k List.mem_cons_self
    have hle := hk.1.1
    rw [List.length_cons] at hfuel
    have hchecked := ih (fun j hj => hks j (List.mem_cons_of_mem _ hj)) hfit fuel (by omega)
      (results ++ [k])
    rw [List.append_assoc, List.singleton_append] at hchecked
    have hnext : int32 ((k + pattern.size : ℕ) : ℤ) = .ok ((k + pattern.size : ℕ) : ℤ) :=
      if_pos (by omega)
    rw [checkedLoop_of_some (by omega) (indexOf_of_pick hfirst hi hk), hik, hnext, Run.ok_bind,
      sizeT_natCast (by omega), Run.ok_bind]
    exact hchecked

end Picks

/-- On a buffer of fewer than `2 ^ 31` bytes no pick ends behind that. -/
theorem findAll_greedy {algorithm : Algorithm} (hsize : 0 < pattern.size)
    (hfirst : ∀ sub, IndexesFirst pattern sub algorithm) (hbuf : buffer.size < 2 ^ 31) :
    ∃ ks, (∀ fuel, buffer.size < fuel → findAll pattern buffer algorithm fuel = .ok ks) ∧
      Greedy (OccursAt pattern.word buffer.bytes) pattern.size 0 ks := by
  have hfit : ∀ k, OccursAt pattern.word buffer.bytes k → k + pattern.size ≤ buffer.size :=
    fun k hk => pattern.word_length ▸ hk.1
  obtain ⟨ks, hks⟩ := Greedy.exists_greedy hsize (fun k hk => by
    have := hfit k hk
    exact (by omega : k < buffer.size)) 0
  have hlength := hks.length_le hsize hfit (Nat.zero_le _)
  refine ⟨ks, fun fuel hfuel => ?_, hks⟩
  apply checkedLoop_below
  refine checkedLoop_of_greedy hfirst hks hsize (fun k hk => ?_) (Nat.zero_le _) fuel (by omega) []
  have := hfit k (hks.mem k hk).2
  omega

theorem openShadowed_of_strict_before_last {pattern : Pattern}
    (h : ∀ i, i + 1 < pattern.size → pattern.mask[i]? = some true) : OpenShadowed pattern.word := by
  apply openShadowed_of_fixed
  intro i hi hopen
  rw [pattern.word_length] at hi
  obtain ⟨b, hb⟩ := pattern.exists_byte (i := i) (by omega)
  rw [Pattern.word_getElem? hb (h i hi)] at hopen
  simp at hopen

theorem openShadowed_of_strict {pattern : Pattern} (h : pattern.Strict) :
    OpenShadowed pattern.word := by
  apply openShadowed_of_strict_before_last
  intro i hi
  obtain ⟨m, hm⟩ := pattern.exists_mask (i := i) (by omega)
  rw [hm, h m (List.mem_of_getElem? hm)]

/-- `find_all< bmh_t >` ends on every buffer of fewer than `2 ^ 31` bytes, with the greedy list of
the occurrences of a pattern that is strict before its last byte. -/
theorem findAll_bmh_greedy (hsize : 1 ≤ pattern.size)
    (hstrict : ∀ i, i + 1 < pattern.size → pattern.mask[i]? = some true)
    (hbuf : buffer.size < 2 ^ 31) :
    ∃ ks, (∀ fuel, buffer.size < fuel → findAll pattern buffer .bmh fuel = .ok ks) ∧
      IsGreedyList (OccursAt pattern.word buffer.bytes) pattern.size ks := by
  obtain ⟨ks, hks, hgreedy⟩ := findAll_greedy pattern buffer hsize
    (fun sub => indexesFirst_bmh_of_openShadowed pattern sub hsize
      (openShadowed_of_strict_before_last hstrict)) hbuf
  exact ⟨ks, hks, hgreedy.isGreedyList fun k _ => Nat.zero_le k⟩

theorem findAll_bmh_greedy_overlap :
    ∃ ks, (∀ fuel, 7 < fuel → findAll (.ofMask [1, 2, 9] ['x', 'x', '?'] (by decide))
        ⟨[1, 2, 1, 2, 1, 2, 3], by decide⟩ .bmh fuel = .ok ks) ∧
      IsGreedyList (OccursAt (Pattern.ofMask [1, 2, 9] ['x', 'x', '?'] (by decide)).word
        [1, 2, 1, 2, 1, 2, 3]) 3 ks := by
  refine findAll_bmh_greedy (.ofMask [1, 2, 9] ['x', 'x', '?'] (by decide))
    ⟨[1, 2, 1, 2, 1, 2, 3], by decide⟩ (by decide) (fun i hi => ?_) (by decide)
  have hi' : i < 2 := by
    have : i + 1 < 3 := hi
    omega
  interval_cases i <;> rfl

theorem findAllLoop_fuelMono (algorithm : Algorithm) (i : ℤ) (results : List ℕ) :
    Run.FuelMono fun fuel => findAllLoop pattern buffer algorithm fuel i results := by
  intro n
  induction n generalizing i results with
  | zero =>
    intro m _ L h
    cases h
  | succ n ih =>
    intro m hle
    obtain ⟨m, rfl⟩ : ∃ k, m = k + 1 := ⟨m - 1, by omega⟩
    simp only [findAllLoop]
    split
    · apply Run.Below.bind (Run.Below.refl _)
      intro result
      split
      · exact Run.Below.refl _
      · exact ih _ _ m (by omega)
    · exact Run.Below.refl _

theorem findAll_fuelMono (algorithm : Algorithm) :
    Run.FuelMono (findAll pattern buffer algorithm) :=
  findAllLoop_fuelMono pattern buffer algorithm 0 []

/-! ## The order of the results -/

section Apart
variable {pattern buffer} {algorithm : Algorithm}
  (hsound : ∀ sub, ∃ r, indexOf pattern sub algorithm = .ok (encode r) ∧
    ∀ k, r = some k → OccursAt pattern.word sub.bytes k)
include hsound

/-- The results of a sound search do not overlap, and the first of them is what a single search of the
rest of the buffer finds. -/
theorem findAllLoop_apart (hsize : 0 < pattern.size) (hbuf : buffer.size < 2 ^ 31) (fuel i : ℕ)
    (results : List ℕ) (hi : i ≤ buffer.size) (hfuel : buffer.size < i + fuel) :
    ∃ ks, findAllLoop pattern buffer algorithm fuel i results = .ok (results ++ ks) ∧
      ks.Pairwise (fun a b => a + pattern.size ≤ b) ∧
      (∀ k ∈ ks, i ≤ k ∧ OccursAt pattern.word buffer.bytes k) ∧
      indexOf pattern (buffer.subspan i) algorithm = .ok (encode (ks.head?.map fun k => k - i)) := by
  induction fuel generalizing i results with
  | zero => omega
  | succ fuel ih =>
    obtain ⟨r, hr, hocc⟩ := hsound (buffer.subspan i)
    cases r with
    | none =>
      refine ⟨[], ?_, .nil, by simp, hr⟩
      rw [findAllLoop_of_none (by omega) hr, List.append_nil]
    | some k =>
      have hk : OccursAt pattern.word buffer.bytes (i + k) := (occursAt_drop hi).mp (hocc k rfl)
      have hfit : i + k + pattern.size ≤ buffer.size := pattern.word_length ▸ hk.1
      obtain ⟨ks, hks, hapart, hmem, -⟩ :=
        ih (i + k + pattern.size) (results ++ [i + k]) hfit (by omega)
      refine ⟨(i + k) :: ks, ?_, .cons (fun j hj => (hmem j hj).1) hapart, fun j hj => ?_, ?_⟩
      · rw [findAllLoop_of_some (by omega) hr (by omega), hks, List.append_assoc,
          List.singleton_append]
      · rcases List.mem_cons.mp hj with rfl | hj
        · exact ⟨Nat.le_add_right i k, hk⟩
        · have hle := (hmem j hj).1
          exact ⟨by omega, (hmem j hj).2⟩
      · rw [hr, List.head?_cons, Option.map_some, Nat.add_sub_cancel_left]

/-- `find_all` with a sound search ends, and `find` is the first of its results. -/
theorem findAll_of_sound (hsize : 0 < pattern.size) (hbuf : buffer.size < 2 ^ 31) :
    ∃ ks, (∀ fuel, buffer.size < fuel → findAll pattern buffer algorithm fuel = .ok ks) ∧
      ks.Pairwise (fun a b => a + pattern.size ≤ b) ∧
      (∀ k ∈ ks, k + pattern.size ≤ buffer.size) ∧
      find pattern buffer algorithm = .ok ks.head? := by
  obtain ⟨ks, hks, hapart, hmem, hfirst⟩ :=
    findAllLoop_apart hsound hsize hbuf (buffer.size + 1) 0 [] (by omega) (by omega)
  have hfit : ∀ k ∈ ks, k + pattern.size ≤ buffer.size := fun k hk =>
    pattern.word_length ▸ (hmem k hk).2.1
  refine ⟨ks, fun fuel hfuel => ?_, hapart, hfit, ?_⟩
  · exact findAll_fuelMono pattern buffer algorithm _ _ hfuel ks hks
  · have hsub : buffer.subspan 0 = buffer := rfl
    have hhead : (ks.head?.map fun k => k - 0) = ks.head? := by cases ks <;> rfl
    rw [hsub, hhead] at hfirst
    apply find_of_indexOf pattern buffer hfirst
    intro k hk
    have := hfit k (List.mem_of_mem_head? hk)
    omega

end Apart

/-! ## Soundness without a bound on the buffer -/

/-- A cursor that passes the loop's test is a true offset, for a negative one is compared as a very
large number. -/
theorem cursor_of_lt {i : ℤ} (hlo : -2 ^ 31 ≤ i) (hhi : i < 2 ^ 31) (h : asSize i < buffer.size) :
    0 ≤ i ∧ (asSize i : ℤ) = i := by
  have hmax := buffer.size_lt_max
  unfold asSize at h ⊢
  omega

theorem findAllLoop_sound {algorithm : Algorithm}
    (hsound : ∀ sub, ∃ r, indexOf pattern sub algorithm = .ok (encode r) ∧
      ∀ k, r = some k → OccursAt pattern.word sub.bytes k)
    (fuel : ℕ) (i : ℤ) (results L : List ℕ) (hlo : -2 ^ 31 ≤ i) (hhi : i < 2 ^ 31)
    (h : findAllLoop pattern buffer algorithm fuel i results = .ok L)
    (hres : ∀ k ∈ results, OccursAt pattern.word buffer.bytes k) :
    ∀ k ∈ L, OccursAt pattern.word buffer.bytes k := by
  induction fuel generalizing i results with
  | zero => cases h
  | succ fuel ih =>
    rw [findAllLoop] at h
    split at h
    · rename_i hlt
      obtain ⟨hi0, hi⟩ := cursor_of_lt buffer hlo hhi hlt
      obtain ⟨r, hr, hocc⟩ := hsound (buffer.subspan (asSize i))
      rw [hr, Run.ok_bind] at h
      cases r with
      | none =>
        cases h
        exact hres
      | some k =>
        rw [encode_some, if_neg (by omega)] at h
        have hk := (occursAt_drop (by exact hlt.le)).mp (hocc k rfl)
        have hmax := buffer.size_lt_max
        have hfit : asSize i + k + pattern.size ≤ buffer.size := pattern.word_length ▸ hk.1
        have hpush : asSize (i + k) = asSize i + k := by
          rw [← hi, ← Nat.cast_add, asSize_natCast (by omega), asSize_natCast (by omega)]
        refine ih _ _ ?_ ?_ h fun j hj => ?_
        · unfold asInt32
          have := Int.le_bmod (x := i + k + pattern.size) (m := 2 ^ 32) (by decide)
          omega
        · unfold asInt32
          have := Int.bmod_lt (x := i + k + pattern.size) (m := 2 ^ 32) (by decide)
          omega
        · rcases List.mem_append.mp hj with hj | hj
          · exact hres j hj
          · rw [List.mem_singleton.mp hj, hpush]
            exact hk
    · cases h
      exact hres

theorem findAll_bmh_sound (hsize : 0 < pattern.size) {fuel : ℕ} {L : List ℕ}
    (h : findAll pattern buffer .bmh fuel = .ok L) :
    ∀ k ∈ L, OccursAt pattern.word buffer.bytes k :=
  findAllLoop_sound pattern buffer (fun sub => indexOf_bmh_sound pattern sub hsize) fuel 0 [] L
    (by decide) (by decide) h fun _ hk => absurd hk List.not_mem_nil

end Wincpp.Scanner
