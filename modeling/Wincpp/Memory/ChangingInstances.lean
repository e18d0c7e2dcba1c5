import Wincpp.Memory.ChangingSearch
import Wincpp.Memory.VtableSearch

/-! The search for an instance in a process that goes on running.

`find_instance_of` walks over all regions first. Then each candidate is read at a moment of its own, in
whatever order the invocations come to it, and its memory may have been freed or used for other regions
in the meantime. What is returned was an instance when its region was read, and an instance that stays
is not overlooked (`findInstanceDuring_exact`).
-/
namespace Wincpp
open Tiling LittleEndian Search
set_option autoImplicit false

namespace FindInstance

/-- The first loop of `find_instance_of`, for a process that goes on running. -/
def candidatesDuring (C : Course) (compare : Region → Bool) (fuel : ℕ) : Run (List Region) :=
  regions.forInDuring C (fun _ region regionList =>
    .ok (.yield (if isCandidate compare region then regionList ++ [region] else regionList))) fuel []

theorem candidatesDuring_still (p : Process) (compare : Region → Bool) (fuel : ℕ) :
    candidatesDuring (Course.still p) compare fuel = candidates p.layout compare fuel :=
  forInDuring_still p regions fuel []

/-- The region `R` is a candidate that is there at every moment, can be read and keeps an instance at
`a`. -/
structure InstanceStays (C : Course) (object : Object) (compare : Region → Bool) (R : Tile Attributes)
    (a : ℕ) : Prop where
  mem : ∀ t, R ∈ (C.process t).layout.regions
  candidate : isCandidate compare ⟨seen 0 R⟩ = true
  read : ∀ t, (C.process t).readable R.base R.size = true
  holds : ∀ t, (C.process t).HoldsAt (.ofInt 8 object.vtable) a
  inside : R.base ≤ a ∧ a + 8 ≤ R.stop

variable {C : Course} {object : Object} {compare : Region → Bool}

theorem pageBase_base {R : Tile Attributes} {L : Layout} (h : R ∈ L.regions) :
    pageBase R.base = R.base := Layout.pageBase_of_dvd (Layout.base_dvd h)

/-- What is a region all the time is one of the regions of the walk. -/
theorem mem_of_stays {R : Tile Attributes} {rs : List Region} {b : ℕ}
    (htiles : Tiles b (rs.map Region.tile) C.top) (hb : b ≤ R.base)
    (hreports : ∀ r ∈ rs, ∃ u, (C.process u).Reports r)
    (hR : ∀ t, R ∈ (C.process t).layout.regions) : ⟨seen 0 R⟩ ∈ rs := by
  have hfits := (C.process 0).layout.tiles.mem R (hR 0)
  rw [C.top_eq] at hfits
  have hpos : R.base < R.stop := by
    unfold Tile.stop
    omega
  obtain ⟨pre, t, post, hsplit, hlow, hhigh, -⟩ := htiles.split hb (by omega : R.base < C.top)
  have ht : t ∈ rs.map Region.tile := by
    rw [hsplit]
    simp
  obtain ⟨r, hr, rfl⟩ := List.mem_map.mp ht
  obtain ⟨u, hu⟩ := hreports r hr
  obtain ⟨v, hv, hlabel, hbase, hstop, -⟩ := hu.tile
  have hlow' : r.address ≤ R.base := hlow
  have hhigh' : R.base < r.stop := hhigh
  obtain rfl := (C.process u).layout.tiles.eq_of_mem hv (hR u) (a := R.base) (by omega) (by omega)
    (Nat.le_refl _) hpos
  have haddress : r.address = pageBase (max 0 v.base) := by
    rw [Nat.zero_max, pageBase_base hv]
    omega
  rwa [← Memory.eq_seen_of_stop_eq hlabel haddress hstop]

/-- The candidates of a walk: each was reported as one at some moment, and whatever stays as one is
among them. -/
theorem exists_candidatesDuring (C : Course) (h : 0 < C.top) (compare : Region → Bool) :
    ∃ regionList, Run.Returns (candidatesDuring C compare) regionList ∧
      (∀ r ∈ regionList, isCandidate compare r = true ∧ ∃ u, (C.process u).Reports r) ∧
      ∀ R, (∀ t, R ∈ (C.process t).layout.regions) → isCandidate compare ⟨seen 0 R⟩ = true →
        ⟨seen 0 R⟩ ∈ regionList := by
  obtain ⟨rs, htiles, -, hreports, hrun⟩ := C.exists_walk h
  refine ⟨rs.filter (isCandidate compare), ⟨C.top / pageSize + 2, fun more => ?_⟩, ?_, ?_⟩
  · rw [candidatesDuring, hrun _ _ _ _ (Nat.le_add_right ..), foldRegions_filter, Run.ok_bind,
      List.nil_append]
    rfl
  · intro r hr
    obtain ⟨hmem, hcandidate⟩ := List.mem_filter.mp hr
    exact ⟨hcandidate, hreports r hmem⟩
  · intro R hR hcandidate
    exact List.mem_filter.mpr ⟨mem_of_stays htiles (Nat.zero_le _) hreports hR, hcandidate⟩

theorem seen_region {R : Tile Attributes} {L : Layout} (hR : R ∈ L.regions) :
    Region.address ⟨seen 0 R⟩ = R.base ∧ Region.size ⟨seen 0 R⟩ = R.size := by
  have haddress : Region.address ⟨seen 0 R⟩ = R.base := by
    change pageBase (max 0 R.base) = R.base
    rw [Nat.zero_max, pageBase_base hR]
  refine ⟨haddress, ?_⟩
  change R.stop - Region.address ⟨seen 0 R⟩ = R.size
  rw [haddress, Tile.stop, Nat.add_sub_cancel_left]

theorem InstanceStays.holds_seen {R : Tile Attributes} {a : ℕ}
    (hstays : InstanceStays C object compare R a) (t : ℕ) :
    Region.Holds (C.process t) (.ofInt 8 object.vtable) ⟨seen 0 R⟩ a := by
  obtain ⟨haddress, hsize⟩ := seen_region (hstays.mem t)
  have hinside := hstays.inside
  refine ⟨haddress ▸ hinside.1, ?_, hstays.holds t⟩
  rw [Pattern.ofInt_size, Region.stop, haddress, hsize]
  exact hinside.2

/-- A match stood in what was read. -/
theorem foundAt_of_scanFor {p : Process} {region : Region} {k : ℕ} (hstop : region.stop < 2 ^ 63)
    (hk : p.scanFor object region = .ok (some k)) :
    region.FoundAt p (.ofInt 8 object.vtable) ((region.address + k) % 2 ^ 64) := by
  obtain ⟨buffer, hread, hfind⟩ := Run.bind_eq_ok hk
  have hocc := Scanner.find_tbm_sound (.ofInt 8 object.vtable) buffer (by simp) hfind
  rw [← (Pattern.ofInt_strict 8 object.vtable).word_eq] at hocc
  have hlt := scanFor_lt hk
  unfold Region.stop at hstop
  rw [Nat.mod_eq_of_lt (by omega)]
  exact (Region.foundAt_iff hread k).mpr hocc

/-- The search for an instance while the process goes on running. The regions are collected in a walk
that ends. Then each is read at some moment, and the invocations take their steps in any order. A result
is an address at which the vtable stood in what was read of a candidate, which was one when the walk
came to it; and it stood in memory then, if the region could be read. An instance that stays is not
overlooked, if the vtable is one that the search cannot lose. -/
theorem findInstanceDuring_exact (C : Course) (h : 0 < C.top) (object : Object)
    (compare : Region → Bool) :
    ∃ regionList, Run.Returns (candidatesDuring C compare) regionList ∧
      ∀ (moment : Region → ℕ) (scan : Region → Option ℕ),
        (∀ r ∈ regionList, (C.process (moment r)).scanFor object r = .ok (scan r)) →
        ∀ schedule,
          (∀ a, (after regionList scan schedule).result = some a →
            ∃ r ∈ regionList, isCandidate compare r = true ∧ (∃ u, (C.process u).Reports r) ∧
              r.FoundAt (C.process (moment r)) (.ofInt 8 object.vtable) a ∧
              ((C.process (moment r)).readable r.address r.size = true →
                (C.process (moment r)).HoldsAt (.ofInt 8 object.vtable) a)) ∧
          (object.vtable < 2 ^ 48 → ClearVtable object.vtable →
            Complete regionList (after regionList scan schedule) →
            (∀ r ∈ regionList, r.address ≠ 0) →
            ∀ R a, InstanceStays C object compare R a →
              (after regionList scan schedule).result ≠ none) := by
  obtain ⟨regionList, hreturns, hlist, hstays⟩ := exists_candidatesDuring C h compare
  refine ⟨regionList, hreturns, fun moment scan hscan schedule => ?_⟩
  have hinv : Inv regionList scan (after regionList scan schedule) := Inv.after schedule
  have hfound : ∀ r ∈ regionList, ∀ a, matchOf scan r = some a →
      r.FoundAt (C.process (moment r)) (.ofInt 8 object.vtable) a := by
    intro r hr a ha
    obtain ⟨k, hk, rfl⟩ := Option.map_eq_some_iff.mp ha
    obtain ⟨-, u, hu⟩ := hlist r hr
    exact foundAt_of_scanFor hu.stop_lt ((hscan r hr).trans (congrArg _ hk))
  constructor
  · intro a ha
    obtain ⟨rfl, hne⟩ := State.result_eq_some_iff.mp ha
    obtain ⟨r, hr, hmatch⟩ := hinv.address.resolve_left hne
    obtain ⟨hcandidate, u, hu⟩ := hlist r hr
    have hat := hfound r hr _ hmatch
    refine ⟨r, hr, hcandidate, ⟨u, hu⟩, hat, fun hread => ?_⟩
    exact ((Region.foundAt_iff_holds hu.stop_lt hread).mp hat).2.2
  · intro hv hclear hcomplete hpos R a hinstance
    have hr := hstays R hinstance.mem hinstance.candidate
    have hsafe : SuffixSafe (Pattern.ofInt 8 object.vtable).bytes := by
      have hfits : object.vtable < 256 ^ 8 := by omega
      rw [Pattern.ofInt_natCast hfits, Pattern.ofBytes_bytes]
      exact (suffixSafe_vtable_iff hv).mpr hclear
    have hscanned : scan ⟨seen 0 R⟩ ≠ none := by
      intro hnone
      obtain ⟨-, u, hu⟩ := hlist _ hr
      obtain ⟨haddress, hsize⟩ := seen_region (hinstance.mem 0)
      refine scanFor_of_safe hsafe ?_ hu.stop_lt (hinstance.holds_seen (moment ⟨seen 0 R⟩))
        ((hscan _ hr).trans (congrArg _ hnone))
      rw [haddress, hsize]
      exact hinstance.read _
    obtain ⟨r, hr', hmatch⟩ := hinv.published hcomplete hr hscanned
    have hlow := (hfound r hr' _ hmatch).inside.1
    have := hpos r hr'
    rw [result_of_published (by omega)]
    exact Option.some_ne_none _

/-! ### An instance that stays -/

def stayingInstance : Object := ⟨0x7ff612345678, .ofBytes []⟩

def instanceProcess (L : Layout) (h : L.top < 2 ^ 63) : Process where
  layout := L
  type := .remoteT
  bytes x := if 0x3010 ≤ x then (encode 8 0x7ff612345678).getD (x - 0x3010) 0 else 0
  readable _ _ := true
  fresh _ _ _ := 0
  userSpace := h

/-- The two heaps in front of the one with the instance are one heap at every other moment. -/
def instanceCourse : Course where
  process t := if t % 2 = 0 then instanceProcess Memory.cutLayout (Memory.cutProcess 0).userSpace
    else instanceProcess Memory.wholeLayout (Memory.wholeProcess 0).userSpace
  top := 0x4000
  top_eq t := by split <;> rfl

theorem instanceCourse_cases (t : ℕ) :
    instanceCourse.process t = instanceProcess Memory.cutLayout (Memory.cutProcess 0).userSpace ∨
      instanceCourse.process t =
        instanceProcess Memory.wholeLayout (Memory.wholeProcess 0).userSpace := by
  simp only [instanceCourse]
  split
  · exact .inl rfl
  · exact .inr rfl

theorem instanceProcess_holds {L : Layout} (h : L.top < 2 ^ 63) :
    (instanceProcess L h).HoldsAt (.ofInt 8 stayingInstance.vtable) 0x3010 := by
  rw [Pattern.ofInt_natCast (by decide), Process.holdsAt_ofBytes_iff (by decide)]
  rfl

theorem instanceStays_sample : InstanceStays instanceCourse stayingInstance (fun _ => true)
    ⟨0x3000, 0x1000, ⟨memCommit, pageReadwrite, 0x20000⟩⟩ 0x3010 where
  mem t := by
    rcases instanceCourse_cases t with h | h <;> rw [h]
    · exact List.mem_of_getElem? (i := 3) rfl
    · exact List.mem_of_getElem? (i := 2) rfl
  candidate := by decide
  read t := by rcases instanceCourse_cases t with h | h <;> rw [h] <;> rfl
  holds t := by rcases instanceCourse_cases t with h | h <;> rw [h] <;> exact instanceProcess_holds _
  inside := by decide

/-- The page at the address 0 is free at all moments. -/
theorem instanceCourse_address_ne {r : Region} (hr : isCandidate (fun _ => true) r = true) {u : ℕ}
    (hu : (instanceCourse.process u).Reports r) : r.address ≠ 0 := by
  obtain ⟨t, ht, hlabel, hbase, -, -⟩ := hu.tile
  have hfree : ∀ t ∈ (instanceCourse.process u).layout.regions, t.base = 0 →
      t.label.state = memFree := by
    rcases instanceCourse_cases u with h | h <;> rw [h]
    · exact (by decide : ∀ t ∈ Memory.cutLayout.regions, t.base = 0 → t.label.state = memFree)
    · exact (by decide : ∀ t ∈ Memory.wholeLayout.regions, t.base = 0 → t.label.state = memFree)
  intro hzero
  have hstate : r.state = memFree := by
    rw [Region.state, hlabel]
    exact hfree t ht (by omega)
  simp only [isCandidate, hstate, Bool.and_eq_true] at hr
  exact absurd hr.1.2 (by decide)

theorem findInstanceDuring_exact_stays :
    ∃ regionList, Run.Returns (candidatesDuring instanceCourse fun _ => true) regionList ∧
      ∀ (moment : Region → ℕ) (scan : Region → Option ℕ),
        (∀ r ∈ regionList,
          (instanceCourse.process (moment r)).scanFor stayingInstance r = .ok (scan r)) →
        ∀ schedule,
          (∀ a, (after regionList scan schedule).result = some a → ∃ r ∈ regionList,
            r.FoundAt (instanceCourse.process (moment r)) (.ofInt 8 0x7ff612345678) a) ∧
          (Complete regionList (after regionList scan schedule) →
            (after regionList scan schedule).result ≠ none) := by
  obtain ⟨regionList, hreturns, hexact⟩ :=
    findInstanceDuring_exact instanceCourse (by decide) stayingInstance fun _ => true
  refine ⟨regionList, hreturns, fun moment scan hscan schedule => ?_⟩
  obtain ⟨hsound, hfinds⟩ := hexact moment scan hscan schedule
  refine ⟨fun a ha => ?_, fun hcomplete => ?_⟩
  · obtain ⟨r, hr, -, -, hat, -⟩ := hsound a ha
    exact ⟨r, hr, hat⟩
  · refine hfinds (by decide) (by decide) hcomplete (fun r hr => ?_) _ _ instanceStays_sample
    obtain ⟨regionList', hreturns', hreported, -⟩ :=
      exists_candidatesDuring instanceCourse (by decide) fun _ => true
    rw [hreturns.unique hreturns'] at hr
    obtain ⟨hcandidate, u, hu⟩ := hreported r hr
    exact instanceCourse_address_ne hcandidate hu

end FindInstance
end Wincpp
