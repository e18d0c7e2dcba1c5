import Mathlib.Tactic.IntervalCases
import Wincpp.Library.SuffixJump
import Wincpp.Memory.Unread

/-! Which objects `find_instance_of` can find.

The regions are searched for the address of the vtable with the turbo search, which loses some words.
Addresses below `2 ^ 40` end in three 0 bytes, and all of them can be lost; of the addresses above, those
whose highest bytes stand again at certain places among the lower ones (`ClearVtable`). A process can be
given for each of them in which `find_instance_of` returns `nullopt` in spite of an instance.
-/
namespace Wincpp
open LittleEndian Search
set_option autoImplicit false

/-- The sixth of the eight bytes of the address is needed. The last two, three or four of the eight are
not the first ones as well, and the last four do not stand behind the first byte. -/
def ClearVtable (v : ℕ) : Prop :=
  2 ^ 40 ≤ v ∧ ¬ (encode 8 v).drop 6 <+: encode 8 v ∧ ¬ (encode 8 v).drop 5 <+: encode 8 v ∧
    ¬ (encode 8 v).drop 4 <+: encode 8 v ∧ ¬ (encode 8 v).drop 4 <+: (encode 8 v).drop 1

instance (v : ℕ) : Decidable (ClearVtable v) := inferInstanceAs (Decidable (_ ∧ _))

/-! ## Words of eight bytes -/

/-- What it takes to look at a word of eight letters. -/
theorem suffixSafe_eight {p : List UInt8} (hp : p.length = 8) :
    SuffixSafe p ↔ ∀ i n, 0 < n → n + i < 7 →
      (∀ k < 8 - n, i < k + n → p[k]? = p[k + n]?) → n ≤ i ∧ p[i - n]? = p[i]? := by
  unfold SuffixSafe
  rw [hp]
  constructor
  · intro h i n hn hni hover
    exact h i n hn (by omega) fun k hk hk8 => hover k (by omega) hk
  · intro h i n hn hni hover
    exact h i n hn (by omega) fun k hk hk8 => hover k hk8 (by omega)

/-- For an address whose sixth byte is its highest. -/
theorem suffixSafe_iff_of_ne_zero {a b c d e f : UInt8} (hf : f ≠ 0) :
    SuffixSafe [a, b, c, d, e, f, 0, 0] ↔
      ¬ (a = 0 ∧ b = 0) ∧ ¬ (a = f ∧ b = 0 ∧ c = 0) ∧ ¬ (a = e ∧ b = f ∧ c = 0 ∧ d = 0) ∧
        ¬ (b = e ∧ c = f ∧ d = 0 ∧ e = 0) := by
  rw [suffixSafe_eight rfl]
  constructor
  · intro h
    refine ⟨?_, ?_, ?_, ?_⟩
    · rintro ⟨rfl, rfl⟩
      have hle := (h 0 6 (by decide) (by decide) fun k hk _ => by interval_cases k <;> rfl).1
      omega
    · rintro ⟨rfl, rfl, rfl⟩
      have hle := (h 1 5 (by decide) (by decide) fun k hk _ => by interval_cases k <;> rfl).1
      omega
    · rintro ⟨rfl, rfl, rfl, rfl⟩
      have hle := (h 2 4 (by decide) (by decide) fun k hk _ => by interval_cases k <;> rfl).1
      omega
    · rintro ⟨rfl, rfl, rfl, rfl⟩
      -- the letter before the four is the one that they follow, so that five letters stand again
      have ha : a = 0 := by
        simpa using (h 3 3 (by decide) (by decide) fun k hk hk3 => by
          interval_cases k <;> first | rfl | omega).2
      subst ha
      have hle := (h 2 3 (by decide) (by decide) fun k hk _ => by interval_cases k <;> rfl).1
      omega
  · rintro ⟨h6, h5, h4, h3⟩ i n hn hni hover
    exfalso
    obtain rfl | rfl | rfl | rfl | rfl | rfl :
        n = 1 ∨ n = 2 ∨ n = 3 ∨ n = 4 ∨ n = 5 ∨ n = 6 := by omega
    · exact hf (by simpa using hover 5 (by omega) (by omega))
    · exact hf (by simpa using hover 5 (by omega) (by omega))
    · exact h3 ⟨by simpa using hover 1 (by omega) (by omega),
        by simpa using hover 2 (by omega) (by omega), by simpa using hover 3 (by omega) (by omega),
        by simpa using hover 4 (by omega) (by omega)⟩
    · exact h4 ⟨by simpa using hover 0 (by omega) (by omega),
        by simpa using hover 1 (by omega) (by omega), by simpa using hover 2 (by omega) (by omega),
        by simpa using hover 3 (by omega) (by omega)⟩
    · exact h5 ⟨by simpa using hover 0 (by omega) (by omega),
        by simpa using hover 1 (by omega) (by omega), by simpa using hover 2 (by omega) (by omega)⟩
    · exact h6 ⟨by simpa using hover 0 (by omega) (by omega),
        by simpa using hover 1 (by omega) (by omega)⟩

theorem encode_user {v : ℕ} (hv : v < 2 ^ 48) :
    ∃ a b c d e f : UInt8, encode 8 v = [a, b, c, d, e, f, 0, 0] ∧ (f ≠ 0 ↔ 2 ^ 40 ≤ v) := by
  have he : encode 8 v = encode 6 v ++ [0, 0] := by
    rw [encode_append 6 2 v, Nat.div_eq_of_lt (by omega), encode_zero]
    rfl
  refine ⟨.ofNat v, .ofNat (v / 256), .ofNat (v / 256 / 256), .ofNat (v / 256 / 256 / 256),
    .ofNat (v / 256 / 256 / 256 / 256), .ofNat (v / 256 / 256 / 256 / 256 / 256), he, ?_⟩
  rw [Ne, ← UInt8.toNat_inj, UInt8.toNat_ofNat', UInt8.toNat_zero]
  omega

theorem suffixSafe_vtable_iff {v : ℕ} (hv : v < 2 ^ 48) : SuffixSafe (encode 8 v) ↔ ClearVtable v := by
  obtain ⟨a, b, c, d, e, f, he, hf⟩ := encode_user hv
  unfold ClearVtable
  rw [← hf, he]
  by_cases hzero : f = 0
  · subst hzero
    refine ⟨fun h => absurd h (not_suffixSafe_of_three (z := 0) (by simp) fun k hk hk8 => ?_),
      fun h => absurd rfl h.1⟩
    simp only [List.length_cons, List.length_nil] at hk hk8
    interval_cases k <;> rfl
  · rw [suffixSafe_iff_of_ne_zero hzero]
    simp [hzero, eq_comm]

/-! ## One region -/

theorem Pattern.ofInt_natCast {w v : ℕ} (hv : v < 256 ^ w) :
    Pattern.ofInt w (v : ℤ) = .ofBytes (encode w v) := by
  have hmod : ((v : ℤ) % 256 ^ w).toNat = v := by
    have hcast : ((v : ℤ) % 256 ^ w) = ((v % 256 ^ w : ℕ) : ℤ) := by push_cast; rfl
    rw [hcast, Int.toNat_natCast, Nat.mod_eq_of_lt hv]
  rw [Pattern.ofInt, hmod]

namespace FindInstance
variable {p : Process} {object : Object} {region : Region} {v a k : ℕ}

theorem scanFor_eq (object : Object) (hread : p.readable region.address region.size = true)
    (hsize : region.size < 2 ^ 63) :
    ∃ buffer : Span, buffer.bytes = p.slice region.address region.size ∧
      p.scanFor object region = Scanner.find (.ofInt 8 object.vtable) buffer .tbm := by
  obtain ⟨buffer, hbuffer, hbytes⟩ := p.read_of_readable hsize hread
  exact ⟨buffer, hbytes, by rw [Process.scanFor, hbuffer, Run.ok_bind]⟩

/-- A match is an instance. -/
theorem holds_of_scanFor (hread : p.readable region.address region.size = true)
    (hstop : region.stop < 2 ^ 63) (hk : p.scanFor object region = .ok (some k)) :
    region.Holds p (.ofInt 8 object.vtable) (region.address + k) := by
  have hsize : region.size < 2 ^ 63 := by
    unfold Region.stop at hstop
    omega
  obtain ⟨buffer, hbytes, hfind⟩ := scanFor_eq object hread hsize
  rw [hfind] at hk
  have hocc := Scanner.find_tbm_sound (.ofInt 8 object.vtable) buffer (by simp) hk
  rwa [← (Pattern.ofInt_strict 8 object.vtable).word_eq, hbytes, Region.holds_iff hstop] at hocc

/-- An address that the search cannot lose is found in every region that holds it. -/
theorem scanFor_of_safe (hsafe : SuffixSafe (Pattern.ofInt 8 object.vtable).bytes)
    (hread : p.readable region.address region.size = true) (hstop : region.stop < 2 ^ 63)
    (ha : region.Holds p (.ofInt 8 object.vtable) a) :
    p.scanFor object region ≠ .ok none := by
  have hsize : region.size < 2 ^ 63 := by
    unfold Region.stop at hstop
    omega
  obtain ⟨buffer, hbytes, hfind⟩ := scanFor_eq object hread hsize
  have hstrict := Pattern.ofInt_strict 8 object.vtable
  have hword : 0 < (Pattern.ofInt 8 object.vtable).word.length := by
    rw [Pattern.word_length, Pattern.ofInt_size]
    decide
  obtain ⟨o, ho, hfirst⟩ : Scanner.IndexesFirst (.ofInt 8 object.vtable) buffer .tbm :=
    (Scanner.indexesFirst_tbm_iff_noJumpOver _ buffer hword hstrict).mpr
      (hsafe.noJumpOver (by rwa [hstrict.word_eq, List.length_map] at hword) hstrict.word_eq _ _ _)
  intro hnone
  have hindex := Scanner.indexOf_of_find _ buffer (hfind.symm.trans hnone)
  rw [Scanner.encode_injective (Except.ok.inj (ho.symm.trans hindex))] at hfirst
  have hlow := ha.1
  have hholds : region.Holds p (.ofInt 8 object.vtable) (region.address + (a - region.address)) := by
    rwa [Nat.add_sub_cancel' hlow]
  refine hfirst (a - region.address) ?_
  rwa [hbytes, Region.holds_iff hstop]

/-! ## All regions -/

/-- Whatever the process and the order of the steps: when all invocations have finished, there is a
result exactly if one of the candidate regions holds the address `v` of the vtable. -/
def DetectsInstances (v : ℕ) : Prop :=
  ∀ (p : Process) (object : Object) (compare : Region → Bool) (fuel : ℕ) (regionList : List Region)
    (scan : Region → Option ℕ) (schedule : List ℕ), object.vtable = v →
    candidates p.layout compare fuel = .ok regionList →
    (∀ r ∈ regionList, p.readable r.address r.size = true ∧ r.address ≠ 0) →
    (∀ r ∈ regionList, p.scanFor object r = .ok (scan r)) →
    Complete regionList (after regionList scan schedule) →
    ((after regionList scan schedule).result ≠ none ↔
      ∃ r ∈ regionList, ∃ a, r.Holds p (.ofInt 8 v) a)

/-- A result is an instance, in every order of the steps. -/
theorem holds_of_result {compare : Region → Bool} {fuel : ℕ} {regionList : List Region}
    {scan : Region → Option ℕ} {schedule : List ℕ}
    (hlist : candidates p.layout compare fuel = .ok regionList)
    (hread : ∀ r ∈ regionList, p.readable r.address r.size = true)
    (hscan : ∀ r ∈ regionList, p.scanFor object r = .ok (scan r))
    (ha : (after regionList scan schedule).result = some a) :
    ∃ r ∈ regionList, r.Holds p (.ofInt 8 object.vtable) a := by
  have hinv : Inv regionList scan (after regionList scan schedule) := Inv.after schedule
  obtain ⟨rfl, hne⟩ := State.result_eq_some_iff.mp ha
  obtain ⟨r, hr, hmatch⟩ := hinv.address.resolve_left hne
  obtain ⟨k, hk, hka⟩ := Option.map_eq_some_iff.mp hmatch
  have hwalked : r ∈ wholeSpace.walked p.layout := by
    have hr := hr
    rw [candidates_eq hlist] at hr
    exact (List.mem_filter.mp hr).1
  have hstop := Memory.walked_stop_lt hwalked
  have hholds := holds_of_scanFor (hread r hr) hstop ((hscan r hr).trans (congrArg _ hk))
  refine ⟨r, hr, ?_⟩
  have hhigh := hholds.2.1
  rw [← hka, Nat.mod_eq_of_lt (by omega)]
  exact hholds

theorem detectsInstances_of_safe (hsafe : SuffixSafe (Pattern.ofInt 8 v).bytes) :
    DetectsInstances v := by
  rintro p object compare fuel regionList scan schedule rfl hlist hread hscan hcomplete
  have hinv : Inv regionList scan (after regionList scan schedule) := Inv.after schedule
  constructor
  · intro hne
    obtain ⟨a, ha⟩ := Option.ne_none_iff_exists'.mp hne
    obtain ⟨r, hr, hholds⟩ := holds_of_result hlist (fun r hr => (hread r hr).1) hscan ha
    exact ⟨r, hr, a, hholds⟩
  · rintro ⟨r, hr, a, ha⟩
    have hwalked : ∀ r ∈ regionList, r ∈ wholeSpace.walked p.layout := by
      intro r hr
      rw [candidates_eq hlist] at hr
      exact (List.mem_filter.mp hr).1
    have hstop := Memory.walked_stop_lt (hwalked r hr)
    have hfound : scan r ≠ none := by
      intro hnone
      exact scanFor_of_safe hsafe (hread r hr).1 hstop ha ((hscan r hr).trans (congrArg _ hnone))
    obtain ⟨r', hr', hmatch⟩ := hinv.published hcomplete hr hfound
    obtain ⟨k, hk, hka⟩ := Option.map_eq_some_iff.mp hmatch
    have hinside := match_inside (hwalked r' hr') ((hscan r' hr').trans (congrArg _ hk))
    have hpos := (hread r' hr').2
    rw [result_of_published (by omega)]
    exact Option.some_ne_none _

/-! ## A process in which an instance is lost -/

/-- A heap of two pages that holds `ys`, and `x` behind it. -/
def lostProcess (ys : List UInt8) (x : UInt8) : Process where
  layout := sampleHeaps
  type := .remoteT
  bytes a := (ys[a - 0x1000]?).getD x
  readable _ _ := true
  fresh _ _ _ := 0
  userSpace := sampleHeapProcess.userSpace

def lostRegion : Region := ⟨⟨memCommit, pageReadwrite, memPrivate⟩, 0x1000, 0x2000⟩

theorem candidates_lostRegion :
    candidates sampleHeaps (fun r => r.address == 0x1000) 6 = .ok [lostRegion] := by
  decide

theorem lostProcess_slice {ys : List UInt8} {x : UInt8} (hys : ys.length ≤ 0x2000) :
    (lostProcess ys x).slice 0x1000 0x2000 = ys ++ List.replicate (0x2000 - ys.length) x := by
  apply List.ext_getElem?
  intro i
  by_cases hi : i < 0x2000
  · rw [Process.slice_getElem? _ hi, Nat.mod_eq_of_lt (by omega)]
    change some ((ys[0x1000 + i - 0x1000]?).getD x) = _
    rw [Nat.add_sub_cancel_left]
    by_cases hlt : i < ys.length
    · rw [List.getElem?_append_left hlt, List.getElem?_eq_getElem hlt, Option.getD_some]
    · rw [List.getElem?_append_right (by omega), List.getElem?_eq_none (by omega),
        List.getElem?_replicate, if_pos (by omega), Option.getD_none]
  · rw [List.getElem?_eq_none (by simpa using hi), List.getElem?_eq_none (by simp; omega)]

theorem not_detectsInstances (hlost : ¬ SuffixSafe (Pattern.ofInt 8 v).bytes) :
    ¬ DetectsInstances v := by
  have hstrict := Pattern.ofInt_strict 8 v
  have hlength : (Pattern.ofInt 8 v).bytes.length = 8 := by
    rw [Pattern.bytes_length, Pattern.ofInt_size]
  have hword : 0 < (Pattern.ofInt 8 v).word.length := by
    rw [Pattern.word_length, Pattern.ofInt_size]
    decide
  have : Nontrivial UInt8 := ⟨0, 1, by decide⟩
  obtain ⟨x, hx⟩ := exists_other_byte (Pattern.ofInt 8 v).bytes (by omega)
  obtain ⟨ys, hys, hlost⟩ :=
    exists_lost (badCharTable (Pattern.ofInt 8 v).word hword) hlost hx
  obtain ⟨⟨k, hocc⟩, hrun⟩ := hlost (0x2000 - ys.length)
  have hslice : (lostProcess ys x).slice lostRegion.address lostRegion.size =
      ys ++ List.replicate (0x2000 - ys.length) x := lostProcess_slice (by omega)
  intro hdetects
  let object : Object := ⟨v, .ofBytes []⟩
  have hscan : (lostProcess ys x).scanFor object lostRegion = .ok none := by
    have hread : (lostProcess ys x).readable lostRegion.address lostRegion.size = true := rfl
    obtain ⟨buffer, hbytes, hfind⟩ := scanFor_eq object hread (by decide)
    rw [hfind]
    apply Scanner.find_of_indexOf _ _ _ fun k hk => by cases hk
    rw [Scanner.indexOf, Scanner.indexOfTbm_eq _ _ hword, Scanner.turboSweep, hbytes, hslice]
    exact congrArg _ (congrArg _ hrun)
  have hinv : Inv [lostRegion] (fun _ => none) (after [lostRegion] (fun _ => none) [0, 0, 0, 0]) :=
    .after [0, 0, 0, 0]
  have hnone := hinv.result_eq_none
    fun _ _ => rfl
  refine (hdetects (lostProcess ys x) object (fun r => r.address == 0x1000) 6 [lostRegion]
    (fun _ => none) [0, 0, 0, 0] rfl candidates_lostRegion ?_ ?_ (by unfold Complete; decide)).mpr ?_
    hnone
  · exact fun r hr => ⟨rfl, by cases List.mem_singleton.mp hr; decide⟩
  · exact fun r hr => List.mem_singleton.mp hr ▸ hscan
  · refine ⟨lostRegion, List.mem_singleton_self _, lostRegion.address + k, ?_⟩
    rw [← Region.holds_iff (by decide), hslice, hstrict.word_eq]
    exact hocc

/-- `find_instance_of` can be relied on for the vtables of an address space of 48 bits at exactly the
addresses that are clear. For all others there is a process in which an instance stands in a heap that
is searched, and the result is `nullopt`. -/
theorem detectsInstances_iff (v : ℕ) (hv : v < 2 ^ 48) : DetectsInstances v ↔ ClearVtable v := by
  have hbytes : (Pattern.ofInt 8 v).bytes = encode 8 v := by
    rw [Pattern.ofInt_natCast (by omega), Pattern.ofBytes_bytes]
  rw [← suffixSafe_vtable_iff hv, ← hbytes]
  exact ⟨fun h => by_contra fun hlost => not_detectsInstances hlost h, detectsInstances_of_safe⟩

/-- The vtable of an image that is loaded above 4 GiB, and one of an image that is not. -/
theorem detectsInstances_iff_image :
    (DetectsInstances 0x7ff612345678 ↔ ClearVtable 0x7ff612345678) ∧
      (DetectsInstances 0x401000 ↔ ClearVtable 0x401000) :=
  ⟨detectsInstances_iff 0x7ff612345678 (by decide), detectsInstances_iff 0x401000 (by decide)⟩

example : ClearVtable 0x7ff612345678 ∧ ¬ ClearVtable 0x401000 := by decide

end FindInstance
end Wincpp
