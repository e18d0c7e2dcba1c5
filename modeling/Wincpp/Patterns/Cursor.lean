import Wincpp.Patterns.FindAll

/-! The cursor of `find_all`.

It is an `int`, although the offsets that it takes are as large as the buffer. It keeps its value
exactly as long as every match that is picked from the left ends below `2 ^ 31`
(`cursorExact_iff`). From `2 ^ 31` up to `2 ^ 32` it becomes negative, which the loop's test takes for
a very large number, so that the matches behind are lost; from `2 ^ 32` on it may come back to the
start of the buffer.
-/
namespace Wincpp.Scanner
open Search
set_option autoImplicit false

/-- The cursor never changes its value, and `find_all` ends with the greedy list of the matches. -/
def CursorExact (pattern : Pattern) (buffer : Span) (algorithm : Algorithm) : Prop :=
  ∃ ks, Run.Returns (fun fuel => checkedLoop pattern buffer algorithm fuel 0 []) ks ∧
    Run.Returns (findAll pattern buffer algorithm) ks ∧
    IsGreedyList (OccursAt pattern.word buffer.bytes) pattern.size ks

variable {pattern : Pattern} {buffer : Span} {algorithm : Algorithm}

section Picks
variable (hfirst : ∀ sub, IndexesFirst pattern sub algorithm) {i : ℕ}
include hfirst

/-- A pick whose end does not fit into the cursor stops the checked loop. -/
theorem lt_of_checkedLoop {ks : List ℕ}
    (h : Greedy (OccursAt pattern.word buffer.bytes) pattern.size i ks) (hsize : 0 < pattern.size)
    (hi : i ≤ buffer.size) {fuel : ℕ} {results L : List ℕ}
    (hL : checkedLoop pattern buffer algorithm fuel i results = .ok L) :
    ∀ k ∈ ks, k + pattern.size < 2 ^ 31 := by
  induction h generalizing fuel results with
  | done _ => exact fun k hk => absurd hk List.not_mem_nil
  | @pick i k ks hk hrest ih =>
    cases fuel with
    | zero => cases hL
    | succ fuel =>
      have hik : i + (k - i) = k := Nat.add_sub_cancel' hk.1.1
      have hfit : k + pattern.size ≤ buffer.size := pattern.word_length ▸ hk.1.2.1
      have hilt : i < buffer.size := by
        have := hk.1.1
        omega
      rw [checkedLoop_of_some hilt (indexOf_of_pick hfirst hi hk), hik] at hL
      obtain ⟨next, hnext, hL⟩ := Run.bind_eq_ok hL
      obtain ⟨offset, -, hL⟩ := Run.bind_eq_ok hL
      have hlt := int32_lt hnext
      rw [int32_eq_ok hnext] at hL
      intro j hj
      rcases List.mem_cons.mp hj with rfl | hj
      · omega
      · exact ih hfit hL j hj

theorem cursorExact_iff_of_first (hsize : 0 < pattern.size) :
    CursorExact pattern buffer algorithm ↔
      ∀ ks, Greedy (OccursAt pattern.word buffer.bytes) pattern.size 0 ks →
        ∀ k ∈ ks, k + pattern.size < 2 ^ 31 := by
  constructor
  · rintro ⟨L, ⟨fuel, hL⟩, -, -⟩ ks hks
    exact lt_of_checkedLoop hfirst hks hsize (Nat.zero_le _) (hL 0)
  · intro hends
    obtain ⟨ks, hks⟩ := Greedy.exists_greedy hsize (fun k (hk : OccursAt _ _ k) => by
      have hfit : k + pattern.size ≤ buffer.size := pattern.word_length ▸ hk.1
      exact (by omega : k < buffer.size)) 0
    refine ⟨ks, ⟨ks.length + 1, fun more => ?_⟩, ⟨ks.length + 1, fun more => ?_⟩,
      hks.isGreedyList fun k _ => Nat.zero_le k⟩
    · exact checkedLoop_of_greedy hfirst hks hsize (hends ks hks) (Nat.zero_le _) _ (by omega) []
    · exact checkedLoop_below _ _ _ _ (checkedLoop_of_greedy hfirst hks hsize (hends ks hks)
        (Nat.zero_le _) _ (by omega) [])

end Picks

/-- With Horspool's search, and with each search that finds first occurrences, the cursor keeps its
value and `find_all` works as on a small buffer exactly when every match of the strict pattern that is
picked from the left ends below `2 ^ 31`. -/
theorem cursorExact_iff (pattern : Pattern) (buffer : Span) (hsize : 1 ≤ pattern.size)
    (hs : pattern.Strict) :
    (CursorExact pattern buffer .bmh ↔
      ∀ ks, Greedy (OccursAt pattern.word buffer.bytes) pattern.size 0 ks →
        ∀ k ∈ ks, k + pattern.size < 2 ^ 31) ∧
    ∀ algorithm, (∀ sub, IndexesFirst pattern sub algorithm) →
      (CursorExact pattern buffer algorithm ↔
        ∀ ks, Greedy (OccursAt pattern.word buffer.bytes) pattern.size 0 ks →
          ∀ k ∈ ks, k + pattern.size < 2 ^ 31) :=
  ⟨cursorExact_iff_of_first (fun sub => indexesFirst_bmh_of_openShadowed pattern sub hsize
    (openShadowed_of_strict hs)) hsize, fun _ hfirst => cursorExact_iff_of_first hfirst hsize⟩

/-! ### A match at the limit -/

def zerosThenOnes (n : ℕ) : List UInt8 := List.replicate n 0 ++ [1, 1]

theorem zerosThenOnes_length (n : ℕ) : (zerosThenOnes n).length = n + 2 := by
  rw [zerosThenOnes, List.length_append, List.length_replicate]
  rfl

theorem occursAt_zerosThenOnes {n k : ℕ} :
    OccursAt (Pattern.ofBytes [1]).word (zerosThenOnes n) k ↔ k = n ∨ k = n + 1 := by
  rw [Pattern.ofBytes_word, occursAt_map_some, zerosThenOnes_length, zerosThenOnes]
  constructor
  · rintro ⟨hlen, hmeets⟩
    have hlen : k + 1 ≤ n + 2 := hlen
    by_contra hno
    have hone := hmeets 0 (by decide)
    rw [List.getElem?_append_left (by rw [List.length_replicate]; omega),
      List.getElem?_replicate_of_lt (by omega)] at hone
    cases hone
  · intro hk
    refine ⟨(by omega : k + 1 ≤ n + 2), fun i hi => ?_⟩
    have hi : i < 1 := hi
    obtain rfl : i = 0 := by omega
    rw [List.getElem?_append_right (by rw [List.length_replicate]; omega), List.length_replicate]
    rcases hk with rfl | rfl
    · rw [Nat.add_zero, Nat.sub_self]
      rfl
    · rw [Nat.add_zero, Nat.add_sub_cancel_left]
      rfl

variable {n : ℕ}

theorem isLeast_zerosThenOnes :
    IsLeast {k | 0 ≤ k ∧ OccursAt (Pattern.ofBytes [1]).word (zerosThenOnes n) k} n := by
  refine ⟨⟨n.zero_le, occursAt_zerosThenOnes.mpr (.inl rfl)⟩, fun k hk => ?_⟩
  rcases occursAt_zerosThenOnes.mp hk.2 with rfl | rfl
  · exact le_rfl
  · exact Nat.le_succ n

/-- `01` at `2 ^ 31 - 1` and at `2 ^ 31`: the first match takes the cursor to `-2 ^ 31`, and the
second is lost. -/
theorem findAll_bmh_loses_match (hn : n + 1 = 2 ^ 31)
    (hlen : (zerosThenOnes n).length < 2 ^ 63) :
    Run.Returns (findAll (.ofBytes [1]) ⟨zerosThenOnes n, hlen⟩ .bmh) [n] := by
  have hstrict := Pattern.ofBytes_strict [1]
  have hr : indexOf (.ofBytes [1]) (Span.subspan ⟨zerosThenOnes n, hlen⟩ 0) .bmh =
      .ok (encode (some (n - 0))) :=
    indexOf_of_pick (fun sub => indexesFirst_bmh_of_openShadowed (.ofBytes [1]) sub (by decide)
      (openShadowed_of_strict hstrict)) (Nat.zero_le _) isLeast_zerosThenOnes
  have hsize : Span.size ⟨zerosThenOnes n, hlen⟩ = n + 2 := zerosThenOnes_length n
  have hend : 0 + (n - 0) + (Pattern.ofBytes [1]).size = n + 1 := by
    rw [Pattern.ofBytes_size]
    simp
  refine ⟨2, fun more => ?_⟩
  have hloop := findAllLoop_of_negative (by omega) hr (by omega) (by omega) more []
  rw [Nat.sub_zero, Nat.zero_add, List.nil_append] at hloop
  rw [findAll, Nat.add_comm]
  exact hloop

/-- The 32-bit cursor does lose a match. -/
theorem findAll_bmh_truncated :
    ∃ buffer : Span, buffer.bytes = zerosThenOnes (2 ^ 31 - 1) ∧
      Run.Returns (findAll (.ofBytes [1]) buffer .bmh) [2 ^ 31 - 1] ∧
      OccursAt (Pattern.ofBytes [1]).word buffer.bytes (2 ^ 31) ∧
      ¬ CursorExact (.ofBytes [1]) buffer .bmh := by
  -- the length stays a variable, so that nothing evaluates the buffer
  generalize hn : 2 ^ 31 - 1 = n
  have hn : n + 1 = 2 ^ 31 := by omega
  have hlen : (zerosThenOnes n).length < 2 ^ 63 := by
    rw [zerosThenOnes_length]
    omega
  have hfound := findAll_bmh_loses_match hn hlen
  have hlost := occursAt_zerosThenOnes.mpr (.inr hn.symm)
  refine ⟨⟨zerosThenOnes n, hlen⟩, rfl, hfound, hlost, ?_⟩
  rintro ⟨ks, -, hks, hgreedy⟩
  rw [hks.unique hfound] at hgreedy
  exact hgreedy.last n rfl (2 ^ 31) (le_of_eq hn) hlost

theorem cursorExact_iff_pair :
    (CursorExact (.ofBytes [1]) ⟨[0, 1], by decide⟩ .bmh ↔
      ∀ ks, Greedy (OccursAt (Pattern.ofBytes [1]).word [0, 1]) 1 0 ks →
        ∀ k ∈ ks, k + 1 < 2 ^ 31) ∧
    ∀ algorithm, (∀ sub, IndexesFirst (.ofBytes [1]) sub algorithm) →
      (CursorExact (.ofBytes [1]) ⟨[0, 1], by decide⟩ algorithm ↔
        ∀ ks, Greedy (OccursAt (Pattern.ofBytes [1]).word [0, 1]) 1 0 ks →
          ∀ k ∈ ks, k + 1 < 2 ^ 31) :=
  cursorExact_iff (.ofBytes [1]) ⟨[0, 1], by decide⟩ (by decide) (Pattern.ofBytes_strict [1])

end Wincpp.Scanner
