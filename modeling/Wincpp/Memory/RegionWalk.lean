import Wincpp.Memory.Region

/-! The walk over a region list.

From an address below the top of the address space the iterator goes through all regions up to the
top (`StandsOn.next_cons`); behind the last one it takes the sentinel address and keeps the last
region (`StandsOn.next_nil`). The loop ends only where the address of the iterator is the address of
the end iterator, so it ends with the regions asked for exactly when `stop` is the first address of
a region (`yields_intersecting_iff`).
-/
namespace Wincpp
open Tiling
set_option autoImplicit false

/-! ## One step -/

/-- The iterator stands on the region `r` of a walk that started at `start`; the regions `rest` lie
behind it. -/
structure StandsOn (L : Layout) (start : ℕ) (it : RegionIterator) (r : Tile Attributes)
    (rest : List (Tile Attributes)) : Prop where
  mbi : it.mbi = seen start r
  behind : start < r.stop
  tiles : Tiles r.stop rest L.top
  mem : ∀ t ∈ r :: rest, t ∈ L.regions

namespace StandsOn
variable {L : Layout} {start : ℕ} {it : RegionIterator} {r : Tile Attributes}
  {rest : List (Tile Attributes)}

theorem end_eq (h : StandsOn L start it r rest) :
    (it.mbi.baseAddress + it.mbi.regionSize) % 2 ^ 64 = r.stop := by
  have hr := h.mem r List.mem_cons_self
  have hs : max start r.base < r.stop := by
    have hpos := (L.tiles.mem r hr).2.1
    have hb := h.behind
    unfold Tile.stop at hb ⊢
    omega
  have hle := h.tiles.le
  have htop := L.top_lt
  rw [h.mbi, seen, Layout.reported_end hs]
  exact Nat.mod_eq_of_lt (by omega)

theorem next_cons {t : Tile Attributes} (h : StandsOn L start it r (t :: rest)) :
    StandsOn L start (it.next L) t rest ∧ (it.next L).address = t.base := by
  obtain ⟨hb, hpos, hrest⟩ := h.tiles
  have ht : t ∈ L.regions := h.mem t (by simp)
  have hbehind := h.behind
  have hstop : t.base < t.stop := by unfold Tile.stop; omega
  have hq : L.virtualQueryEx r.stop = some (seen start t) := by
    rw [Layout.virtualQueryEx_of_mem ht (by omega) (by omega), seen, max_eq_right (by omega), hb]
  have hnext : it.next L = ⟨r.stop, seen start t⟩ := by
    simp only [RegionIterator.next, h.end_eq, hq]
  rw [hnext]
  exact ⟨⟨rfl, by omega, hrest, fun u hu => h.mem u (List.mem_cons_of_mem _ hu)⟩, hb.symm⟩

theorem next_nil (h : StandsOn L start it r []) : it.next L = ⟨sentinel, it.mbi⟩ := by
  have htop : r.stop = L.top := h.tiles
  have hq : L.virtualQueryEx r.stop = none := Layout.virtualQueryEx_of_le htop.ge
  simp only [RegionIterator.next, h.end_eq, hq]

theorem stale (h : StandsOn L start it r []) :
    StandsOn L start (it.next L) r [] ∧ (it.next L).address = sentinel := by
  rw [h.next_nil]
  exact ⟨⟨h.mbi, h.behind, h.tiles, h.mem⟩, rfl⟩

theorem region_eq (h : StandsOn L start it r rest) : it.region = ⟨seen start r⟩ := by
  rw [RegionIterator.region, h.mbi]

theorem stop_le_base (h : StandsOn L start it r rest) {t : Tile Attributes} (ht : t ∈ rest) :
    r.stop ≤ t.base := (h.tiles.mem t ht).1

end StandsOn

theorem create_standsOn {L : Layout} {start : ℕ} (h : start < L.top) :
    ∃ it r rest, RegionIterator.create L start = .ok it ∧ it.address = start ∧
      L.regionsFrom start = r :: rest ∧ r.base ≤ start ∧ StandsOn L start it r rest := by
  obtain ⟨pre, r, post, he, hfrom, hb, hs, htiles⟩ := L.regionsFrom_split h
  have hmem : ∀ t ∈ r :: post, t ∈ L.regions := by
    intro t ht
    rw [he]
    exact List.mem_append_right _ ht
  have hr := hmem r List.mem_cons_self
  have htop := L.top_lt
  have hne : start ≠ sentinel := by unfold sentinel; omega
  refine ⟨⟨start, seen start r⟩, r, post, ?_, rfl, hfrom, hb, ⟨rfl, hs, htiles, hmem⟩⟩
  rw [RegionIterator.create, if_pos hne, Layout.virtualQueryEx_of_mem hr hb hs, seen,
    max_eq_left hb]

theorem create_of_top_le {L : Layout} {a : ℕ} (hne : a ≠ sentinel) (h : L.top ≤ a) :
    RegionIterator.create L a = .error .terminate := by
  rw [RegionIterator.create, if_pos hne, Layout.virtualQueryEx_of_le h]

theorem create_ok {L : Layout} {a : ℕ} (h : a = sentinel ∨ a < L.top) :
    ∃ it, RegionIterator.create L a = .ok it ∧ it.address = a := by
  rcases h with rfl | h
  · exact ⟨⟨sentinel, default⟩, by rw [RegionIterator.create, if_neg (by simp)], rfl⟩
  · obtain ⟨it, r, rest, hit, ha, -⟩ := create_standsOn h
    exact ⟨it, hit, ha⟩

/-! ## Collecting the regions -/

section Collect
variable {L : Layout} {start stop : ℕ}

theorem forRegions_collect_succ {fuel : ℕ} {it : RegionIterator} {acc : List Region}
    (h : it.address ≠ stop) :
    forRegions L collect stop (fuel + 1) it acc =
      forRegions L collect stop fuel (it.next L) (acc ++ [it.region]) := by
  rw [forRegions, if_pos h]
  rfl

/-- If a region behind the iterator starts at `stop`, the walk ends there. -/
theorem forRegions_collect_of_boundary {it : RegionIterator} {r t : Tile Attributes}
    {pre post : List (Tile Attributes)} (h : StandsOn L start it r (pre ++ t :: post))
    (ht : t.base = stop) (ha : it.address ≠ stop) (acc : List Region) {fuel : ℕ}
    (hfuel : pre.length + 2 ≤ fuel) :
    forRegions L collect stop fuel it acc =
      .ok (acc ++ (r :: pre).map fun t => ⟨seen start t⟩) := by
  induction pre generalizing it r acc fuel with
  | nil =>
    obtain ⟨fuel, rfl⟩ : ∃ n, fuel = n + 2 := ⟨fuel - 2, by simp at hfuel; omega⟩
    obtain ⟨-, hnext⟩ := h.next_cons
    rw [forRegions_collect_succ ha, forRegions, if_neg (by rw [hnext]; exact fun e => e ht),
      h.region_eq]
    rfl
  | cons u pre ih =>
    obtain ⟨fuel, rfl⟩ : ∃ n, fuel = n + 1 := ⟨fuel - 1, by omega⟩
    obtain ⟨hstands, hnext⟩ := h.next_cons
    have hne : (it.next L).address ≠ stop := by
      have hle := hstands.stop_le_base (t := t) (by simp)
      have hpos := (L.tiles.mem u (h.mem u (by simp))).2.1
      unfold Tile.stop at hle
      rw [hnext]
      omega
    rw [forRegions_collect_succ ha, ih hstands hne _ (by simp at hfuel; omega), h.region_eq]
    simp

/-- If none does, the walk goes on for ever. -/
theorem forRegions_collect_of_not_boundary {it : RegionIterator} {r : Tile Attributes}
    {rest : List (Tile Attributes)} (h : StandsOn L start it r rest)
    (hno : ∀ t ∈ rest, t.base ≠ stop) (hstop : stop ≠ sentinel) (ha : it.address ≠ stop)
    (acc : List Region) (fuel : ℕ) :
    forRegions L collect stop fuel it acc = .error .outOfFuel := by
  induction fuel generalizing it r rest acc with
  | zero => rfl
  | succ fuel ih =>
    rw [forRegions_collect_succ ha]
    cases rest with
    | nil =>
      obtain ⟨hstands, hnext⟩ := h.stale
      exact ih hstands (by simp) (by rw [hnext]; exact hstop.symm) _
    | cons t rest =>
      obtain ⟨hstands, hnext⟩ := h.next_cons
      exact ih hstands (fun u hu => hno u (by simp [hu]))
        (by rw [hnext]; exact hno t (by simp)) _

end Collect

/-! ## Which walks end -/

/-- The regions that intersect `[start, stop)`, as they are reported to a walk from `start`. -/
def Layout.intersecting (L : Layout) (start stop : ℕ) : List Region :=
  (L.regions.filter fun r => start < r.stop ∧ r.base < stop).map fun r => ⟨seen start r⟩

/-- The iteration from `begin()` to `end()` ends and yields `rs`. -/
def RegionList.Yields (L : Layout) (list : RegionList) (rs : List Region) : Prop :=
  Run.Returns (list.toList L) rs

theorem intersecting_of_boundary {L : Layout} {start stop : ℕ} {r t : Tile Attributes}
    {pre post : List (Tile Attributes)} (hfrom : L.regionsFrom start = r :: (pre ++ t :: post))
    (hb : r.base ≤ start) (hlt : start < stop) (htiles : Tiles r.stop (pre ++ t :: post) L.top)
    (ht : t.base = stop) :
    L.intersecting start stop = (r :: pre).map fun t => ⟨seen start t⟩ := by
  have hfilter : (L.regions.filter fun r => start < r.stop ∧ r.base < stop) = r :: pre := by
    have hand : (L.regions.filter fun r => start < r.stop ∧ r.base < stop) =
        (L.regionsFrom start).filter fun r => r.base < stop := by
      rw [Layout.regionsFrom, List.filter_filter]
      congr 1
      funext u
      simp only [Bool.decide_and, Bool.and_comm]
    obtain ⟨m, hpre, hpost⟩ := htiles.append
    have hm : m = stop := hpost.1.symm.trans ht
    have h1 : pre.filter (fun u => u.base < stop) = pre := by
      rw [List.filter_eq_self]
      intro u hu
      have := hpre.mem u hu
      unfold Tile.stop at this
      simp only [decide_eq_true_eq]
      omega
    have h2 : (t :: post).filter (fun u => u.base < stop) = [] := by
      rw [List.filter_eq_nil_iff]
      intro u hu
      have := (hpost.mem u hu).1
      simp only [decide_eq_true_eq]
      omega
    rw [hand, hfrom, List.filter_cons_of_pos (by simp; omega), List.filter_append, h1, h2,
      List.append_nil]
  rw [Layout.intersecting, hfilter]

theorem toList_eq_bind (L : Layout) (start stop fuel : ℕ) :
    (regions start stop).toList L fuel =
      (RegionIterator.create L start >>= fun first => RegionIterator.create L stop >>= fun last =>
        forRegions L collect last.address fuel first []) := rfl

theorem not_yields {L : Layout} {start stop : ℕ} (hlt : start < stop) (hstop : stop ≠ sentinel)
    (hno : ∀ t ∈ L.regions, t.base ≠ stop) (rs : List Region) :
    ¬ (regions start stop).Yields L rs := by
  intro ⟨fuel, h⟩
  have h := h 0
  rw [toList_eq_bind] at h
  obtain ⟨first, hfirst, h⟩ := Run.bind_eq_ok h
  obtain ⟨last, hlast, h⟩ := Run.bind_eq_ok h
  by_cases htop : stop < L.top
  · obtain ⟨it, r, rest, hit, ha, -, -, hstands⟩ := create_standsOn (hlt.trans htop)
    obtain ⟨it', hit', ha'⟩ := create_ok (Or.inr htop)
    cases hfirst.symm.trans hit
    cases hlast.symm.trans hit'
    rw [ha', forRegions_collect_of_not_boundary hstands
      (fun t ht => hno t (hstands.mem t (by simp [ht]))) hstop (by omega)] at h
    cases h
  · rw [create_of_top_le hstop (by omega)] at hlast
    cases hlast

theorem yields_intersecting {L : Layout} {start stop : ℕ} (hlt : start < stop)
    {t : Tile Attributes} (ht : t ∈ L.regions) (hbase : t.base = stop) :
    (regions start stop).Yields L (L.intersecting start stop) := by
  have hpos := L.tiles.mem t ht
  have htop : stop < L.top := by
    unfold Tile.stop at hpos
    omega
  obtain ⟨it, r, rest, hit, ha, hfrom, hb, hstands⟩ := create_standsOn (hlt.trans htop)
  obtain ⟨it', hit', ha'⟩ := create_ok (Or.inr htop)
  have hmem : t ∈ r :: rest := by
    rw [← hfrom, Layout.regionsFrom, List.mem_filter, decide_eq_true_eq]
    exact ⟨ht, by unfold Tile.stop; omega⟩
  rcases List.mem_cons.mp hmem with rfl | hmem
  · omega
  obtain ⟨pre, post, rfl⟩ := List.append_of_mem hmem
  refine ⟨pre.length + 2, fun more => ?_⟩
  rw [toList_eq_bind, hit, Run.ok_bind, hit', Run.ok_bind, ha',
    forRegions_collect_of_boundary hstands hbase (by omega) [] (by omega),
    intersecting_of_boundary hfrom hb hlt hstands.tiles hbase]
  rfl

/-- Iterating from `start` to `stop` ends with exactly the regions in between if and only if `stop`
is the first address of a region. -/
theorem yields_intersecting_iff (L : Layout) (start stop : ℕ) (hlt : start < stop)
    (hstop : stop ≠ sentinel) :
    (regions start stop).Yields L (L.intersecting start stop) ↔ ∃ t ∈ L.regions, t.base = stop := by
  refine ⟨fun h => ?_, fun ⟨t, ht, hbase⟩ => yields_intersecting hlt ht hbase⟩
  by_contra hno
  exact not_yields hlt hstop (fun t ht hb => hno ⟨t, ht, hb⟩) _ h

/-- An address space of five regions: free, readable and writable, no access, readable and writable,
free. -/
def sampleLayout : Layout where
  top := 0x6000
  regions := [⟨0, 0x1000, ⟨memFree, pageNoaccess, 0⟩⟩,
    ⟨0x1000, 0x2000, ⟨memCommit, pageReadwrite, 0x20000⟩⟩,
    ⟨0x3000, 0x1000, ⟨memCommit, pageNoaccess, 0x20000⟩⟩,
    ⟨0x4000, 0x1000, ⟨memCommit, pageReadwrite, 0x20000⟩⟩,
    ⟨0x5000, 0x1000, ⟨memFree, pageNoaccess, 0⟩⟩]
  tiles := by decide
  aligned := by decide
  top_lt := by decide

/-- The walk over `[0x1000, 0x1800)`, half of the second region, does not end. -/
theorem not_yields_inside_region :
    ¬ (regions 0x1000 0x1800).Yields sampleLayout (sampleLayout.intersecting 0x1000 0x1800) :=
  not_yields (by decide) (by decide) (by decide) _

theorem yields_intersecting_iff_boundary :
    (regions 0x1800 0x4000).Yields sampleLayout (sampleLayout.intersecting 0x1800 0x4000) ↔
      ∃ t ∈ sampleLayout.regions, t.base = 0x4000 :=
  yields_intersecting_iff sampleLayout 0x1800 0x4000 (by decide) (by decide)

end Wincpp
