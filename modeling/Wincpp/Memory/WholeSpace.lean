import Wincpp.Memory.Instances

/-! The walk over the whole address space: `regions( start )` with the default `stop`.

The end iterator has the sentinel address, which an iterator takes behind the last region, so the
walk always ends. What it yields are the regions from `start` on, the first one cut at the page of
`start`; they tile the rest of the address space (`tiles_walk`). The loops of `find_instance_of` and
of `pointer_t::operator bool` are folds over that list.
-/
namespace Wincpp
open Tiling
set_option autoImplicit false

/-! ## Pointers -/

/-- `memory_t::contains`, for a region. -/
def Region.contains (r : Region) (address : ℕ) : Bool :=
  r.address ≤ address && address ≤ (r.address + r.size) % 2 ^ 64

/-- `pointer_t::operator bool`. -/
def pointerIsValid (L : Layout) (address : ℕ) (fuel : ℕ) : Run Bool :=
  if address ≠ 0 then
    regions.forIn L (fun region _ =>
      if region.contains address then .ok (.done true) else .ok (.yield false)) fuel false
  else
    .ok false

/-! ## The regions of the walk -/

/-- What the walk from `start` yields. -/
def walk (L : Layout) (start : ℕ) : List Region :=
  (L.regionsFrom start).map fun t => ⟨seen start t⟩

def Region.tile (r : Region) : Tile Attributes := ⟨r.address, r.size, r.mbi.toAttributes⟩

theorem Region.tile_injective : Function.Injective Region.tile := by
  rintro ⟨⟨attributes, baseAddress, regionSize⟩⟩ ⟨⟨attributes', baseAddress', regionSize'⟩⟩ h
  simp only [Region.tile, Region.address, Region.size, Tile.mk.injEq] at h
  obtain ⟨rfl, rfl, rfl⟩ := h
  rfl

theorem yields_walk {L : Layout} {start : ℕ} (h : start < L.top) :
    (regions start).Yields L (walk L start) := by
  obtain ⟨n, hn⟩ := forIn_to_end collect h []
  have hfold : ∀ rs acc : List Region, foldRegions collect rs acc = .ok (.yield (acc ++ rs)) := by
    intro rs acc
    induction rs generalizing acc with
    | nil => simp [foldRegions]
    | cons r rs ih => simp [foldRegions, collect, ih]
  refine ⟨n, fun more => ?_⟩
  rw [RegionList.toList, hn, hfold]
  rfl

theorem seen_tile {L : Layout} {start : ℕ} {t : Tile Attributes} (ht : t ∈ L.regions)
    (h : start ≤ t.base) : (⟨seen start t⟩ : Region).tile = t := by
  have hbase : pageBase t.base = t.base := Layout.pageBase_of_dvd (Layout.base_dvd ht)
  have hstop : t.stop - t.base = t.size := by unfold Tile.stop; omega
  simp only [Region.tile, Region.address, Region.size, seen, reported, max_eq_right h, hbase, hstop]

theorem map_tile_eq {L : Layout} {start : ℕ} {ts : List (Tile Attributes)}
    (h : ∀ t ∈ ts, t ∈ L.regions ∧ start ≤ t.base) :
    (ts.map fun t => (⟨seen start t⟩ : Region)).map Region.tile = ts := by
  rw [List.map_map]
  conv_rhs => rw [← List.map_id ts]
  apply List.map_congr_left
  intro t ht
  exact seen_tile (h t ht).1 (h t ht).2

/-- The regions of the walk tile the address space from the page of `start` on. -/
theorem tiles_walk {L : Layout} {start : ℕ} (h : start < L.top) :
    Tiles (pageBase start) ((walk L start).map Region.tile) L.top := by
  obtain ⟨pre, r, post, he, hfrom, hb, hs, htiles⟩ := L.regionsFrom_split h
  have hpost : ∀ t ∈ post, t ∈ L.regions ∧ start ≤ t.base := by
    intro t ht
    have hbase := (htiles.mem t ht).1
    exact ⟨by rw [he]; simp [ht], by omega⟩
  have hle := Layout.pageBase_le start
  have htile : (⟨seen start r⟩ : Region).tile =
      ⟨pageBase start, r.stop - pageBase start, r.label⟩ := by
    simp only [Region.tile, Region.address, Region.size, seen, max_eq_left hb]
    rfl
  rw [walk, hfrom, List.map_cons, List.map_cons, map_tile_eq hpost, htile]
  have hstop : pageBase start + (r.stop - pageBase start) = r.stop := by omega
  refine ⟨rfl, Nat.sub_pos_of_lt (by omega), ?_⟩
  rw [Tile.stop, hstop]
  exact htiles

/-- From the address 0 on, the walk yields the regions of the process as they are. -/
theorem map_tile_walk_zero (L : Layout) : (walk L 0).map Region.tile = L.regions := by
  have hfrom : L.regionsFrom 0 = L.regions := by
    rw [Layout.regionsFrom, List.filter_eq_self]
    intro t ht
    have := (L.tiles.mem t ht).2.1
    rw [decide_eq_true_eq, Tile.stop]
    omega
  rw [walk, hfrom, map_tile_eq fun t ht => ⟨ht, Nat.zero_le _⟩]

theorem walk_ascending {L : Layout} {start : ℕ} (h : start < L.top) :
    (walk L start).Pairwise fun r r' => r.address < r'.address := by
  have htiles := tiles_walk h
  have hsorted := List.pairwise_map.mp htiles.sorted
  apply hsorted.imp_of_mem
  intro r r' hr hr' hle
  have hpos : 0 < r.size := (htiles.mem _ (List.mem_map_of_mem hr)).2.1
  have hle : r.address + r.size ≤ r'.address := hle
  omega

/-- Every address from the page of `start` on lies in one region of the walk. -/
theorem existsUnique_walk {L : Layout} {start : ℕ} (h : start < L.top) (a : ℕ) :
    (∃! r, r ∈ walk L start ∧ r.address ≤ a ∧ a < r.stop) ↔ pageBase start ≤ a ∧ a < L.top := by
  have htiles := tiles_walk h
  constructor
  · rintro ⟨r, ⟨hr, hlow, hhigh⟩, -⟩
    obtain ⟨hbase, -, hstop⟩ := htiles.mem _ (List.mem_map_of_mem hr)
    exact ⟨hbase.trans hlow, lt_of_lt_of_le hhigh hstop⟩
  · rintro ⟨hlow, hhigh⟩
    obtain ⟨pre, t, post, he, hb, hs, -⟩ := htiles.split hlow hhigh
    have ht : t ∈ (walk L start).map Region.tile := by rw [he]; simp
    obtain ⟨r, hr, rfl⟩ := List.mem_map.mp ht
    refine ⟨r, ⟨hr, hb, hs⟩, fun r' ⟨hr', hb', hs'⟩ => ?_⟩
    exact Region.tile_injective (htiles.eq_of_mem (List.mem_map_of_mem hr') ht hb' hs' hb hs)

theorem foldRegions_contains (address : ℕ) (rs : List Region) :
    (foldRegions (fun region _ =>
      if region.contains address then .ok (.done true) else .ok (.yield false)) rs false >>=
        fun step => (.ok step.value : Run Bool)) = .ok (rs.any fun r => r.contains address) := by
  induction rs with
  | nil => rfl
  | cons r rs ih =>
    rw [foldRegions, List.any_cons]
    cases r.contains address with
    | true => rfl
    | false => exact ih

theorem pointerIsValid_returns {L : Layout} (h : 0 < L.top) (address : ℕ) :
    Run.Returns (pointerIsValid L address)
      (address != 0 && (walk L 0).any fun r => r.contains address) := by
  by_cases ha : address = 0
  · subst ha
    exact ⟨0, fun _ => rfl⟩
  · obtain ⟨n, hn⟩ := forIn_to_end (fun region _ =>
      if region.contains address then .ok (.done true) else .ok (.yield false)) h false
    refine ⟨n, fun more => ?_⟩
    rw [pointerIsValid, if_pos ha, hn, foldRegions_contains, walk, bne_iff_ne.mpr ha, Bool.true_and]

/-! ## The whole walk -/

/-- The walk from `start` ends with regions that ascend and tile the address space from the page of
`start` up to the top, so that every address there lies in one of them. Each of them is what is left
of a region of the process. `find_instance_of` filters, and the check of a pointer searches, a walk
that yields all regions of the process. -/
theorem regions_tile (L : Layout) (start : ℕ) (h : start < L.top) :
    (∃ rs, (regions start).Yields L rs ∧
      rs.Pairwise (fun r r' => r.address < r'.address) ∧
      Tiles (pageBase start) (rs.map Region.tile) L.top ∧
      (∀ a, (∃! r, r ∈ rs ∧ r.address ≤ a ∧ a < r.stop) ↔ pageBase start ≤ a ∧ a < L.top) ∧
      ∀ r ∈ rs, ∃ t ∈ L.regions, r.mbi.toAttributes = t.label ∧ t.base ≤ r.address ∧
        r.stop = t.stop) ∧
    ∃ rs, regions.Yields L rs ∧ rs.map Region.tile = L.regions ∧
      (∀ compare, Run.Returns (candidates L compare) (rs.filter (isCandidate compare))) ∧
      ∀ address, Run.Returns (pointerIsValid L address)
        (address != 0 && rs.any fun r => r.contains address) := by
  have htop : 0 < L.top := by omega
  constructor
  · refine ⟨walk L start, yields_walk h, walk_ascending h, tiles_walk h, existsUnique_walk h, ?_⟩
    intro r hr
    obtain ⟨t, ht, rfl⟩ := List.mem_map.mp hr
    have hfilter := List.mem_filter.mp ht
    have hs : start < t.stop := of_decide_eq_true hfilter.2
    have hb : t.base < t.stop := by
      have := (L.tiles.mem t hfilter.1).2.1
      rw [Tile.stop]
      omega
    have haddress : t.base ≤ (seen start t).baseAddress :=
      Layout.le_pageBase (Layout.base_dvd hfilter.1) (le_max_right ..)
    exact ⟨t, hfilter.1, rfl, haddress, Layout.reported_end (max_lt hs hb)⟩
  · exact ⟨walk L 0, yields_walk htop, map_tile_walk_zero L, FindInstance.candidates_returns htop,
      pointerIsValid_returns htop⟩

/-- From `0x1800`, in the middle of the second region, the walk starts at its page `0x1000`. -/
theorem regions_tile_inside :
    (∃ rs, (regions 0x1800).Yields sampleLayout rs ∧
      Tiles 0x1000 (rs.map Region.tile) 0x6000) ∧
    ∃ rs, regions.Yields sampleLayout rs ∧ rs.map Region.tile = sampleLayout.regions := by
  obtain ⟨⟨rs, hyields, -, htiles, -⟩, ⟨rs', hyields', htiles', -⟩⟩ :=
    regions_tile sampleLayout 0x1800 (by decide)
  exact ⟨⟨rs, hyields, htiles⟩, ⟨rs', hyields', htiles'⟩⟩

end Wincpp
