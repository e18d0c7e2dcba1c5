import Mathlib.Data.List.TakeWhile
import Wincpp.Memory.RegionWalk
import Wincpp.Patterns.FindAll

/-! Memory objects and their searches (`memory/memory.hpp`, `memory/memory.cpp`).

Both searches walk over the regions from the object's address on and leave the loop at the first
region that `is_valid_region` refuses. The regions up to there are the ones that get scanned
(`Memory.scanned`); the loop is the loop body run over them (`forRegions_scan_stop`), unless every
region up to the top of the address space is valid (`forRegions_scan_end`).
-/
namespace Wincpp
open Tiling Search
set_option autoImplicit false

/-- `memory_t`: the range `[address, address + size)` of a process. -/
structure Memory where
  address : ℕ
  size : ℕ
  range : address + size < 2 ^ 64

namespace Memory
variable (m : Memory)

def stop : ℕ := (m.address + m.size) % 2 ^ 64

theorem stop_eq : m.stop = m.address + m.size := Nat.mod_eq_of_lt m.range

theorem stop_lt : m.stop < 2 ^ 64 := Nat.mod_lt _ (by decide)

/-- `memory_t::regions`. -/
def regions : RegionList := Wincpp.regions m.address m.stop

def isValidRegion (region : Region) : Bool :=
  region.address < m.stop && region.state == memCommit &&
    !hasFlag region.protection pageNoaccess && !hasFlag region.protection pageGuard

def findBody (p : Process) (pattern : Pattern) (region : Region) (found : Option ℕ) :
    Run (ForInStep (Option ℕ)) := do
  if !m.isValidRegion region then
    return .done found
  else
    let bytes ← p.read region.address region.size
    match ← Scanner.find pattern bytes .bmh with
    | some result => return .done (some ((region.address + result) % 2 ^ 64))
    | none => return .yield none

def find (p : Process) (pattern : Pattern) (fuel : ℕ) : Run (Option ℕ) :=
  m.regions.forIn p.layout (m.findBody p pattern) fuel none

/-- The loop body of `find_all`; the fuel is for the scan of one region. -/
def findAllBody (p : Process) (pattern : Pattern) (fuel : ℕ) (region : Region) (results : List ℕ) :
    Run (ForInStep (List ℕ)) := do
  if !m.isValidRegion region then
    return .done results
  else
    let bytes ← p.read region.address region.size
    let offsets ← Scanner.findAll pattern bytes .bmh fuel
    return .yield (results ++ offsets.map fun result => (region.address + result) % 2 ^ 64)

def findAll (p : Process) (pattern : Pattern) (fuel : ℕ) : Run (List ℕ) :=
  m.regions.forIn p.layout (m.findAllBody p pattern fuel) fuel []

/-- The regions from the object's address up to the top of the address space, as the walk reports
them. -/
def walked (L : Layout) : List Region := (L.regionsFrom m.address).map fun r => ⟨seen m.address r⟩

/-- The regions that the searches scan. -/
def scanned (L : Layout) : List Region :=
  if m.size = 0 then [] else (m.walked L).takeWhile m.isValidRegion

/-- The queries for the object's first address and for its end, which `begin()` and `end()` make,
succeed. -/
def Opens (L : Layout) : Prop :=
  (m.address = sentinel ∨ m.address < L.top) ∧ (m.stop = sentinel ∨ m.stop < L.top)

/-- A walk that finds nothing ends. -/
def Ends (L : Layout) : Prop :=
  m.size = 0 ∨ m.stop = sentinel ∨ ∃ r ∈ m.walked L, m.isValidRegion r = false

instance (L : Layout) : Decidable (m.Opens L) := inferInstanceAs (Decidable (_ ∧ _))

instance (L : Layout) : Decidable (m.Ends L) := inferInstanceAs (Decidable (_ ∨ _ ∨ _))

end Memory

/-! ## Loops that leave at the first invalid region -/

section Scan
variable {σ : Type} {L : Layout} {body : Region → σ → Run (ForInStep σ)} {valid : Region → Bool}
  {start stop : ℕ}

theorem forRegions_succ {fuel : ℕ} {it : RegionIterator} {s : σ} (h : it.address ≠ stop) :
    forRegions L body stop (fuel + 1) it s =
      (body it.region s >>= fun step => match step with
        | .done s => .ok s
        | .yield s => forRegions L body stop fuel (it.next L) s) := by
  rw [forRegions, if_pos h]
  rfl

theorem forRegions_at_stop {fuel : ℕ} {it : RegionIterator} {s : σ} (h : it.address = stop) :
    forRegions L body stop (fuel + 1) it s = .ok s := by
  rw [forRegions, if_neg (by simp [h])]
  rfl

/-- If some region behind the iterator is not valid, the loop is its body run over the valid ones
before it. -/
theorem forRegions_scan_stop (hinvalid : ∀ r s, valid r = false → body r s = .ok (.done s))
    {it : RegionIterator} {r : Tile Attributes} {rest : List (Tile Attributes)}
    (h : StandsOn L start it r rest) (ha : it.address ≠ stop)
    (hvalid : ∀ t ∈ rest, valid ⟨seen start t⟩ = true → t.base ≠ stop)
    (hex : ∃ t ∈ r :: rest, valid ⟨seen start t⟩ = false) (s : σ) {fuel : ℕ}
    (hfuel : rest.length + 2 ≤ fuel) :
    forRegions L body stop fuel it s =
      (foldRegions body (((r :: rest).map fun t => ⟨seen start t⟩).takeWhile valid) s >>=
        fun step => .ok step.value) := by
  induction rest generalizing it r s fuel with
  | nil =>
    obtain ⟨fuel, rfl⟩ : ∃ n, fuel = n + 1 := ⟨fuel - 1, by omega⟩
    obtain ⟨t, ht, hv⟩ := hex
    cases List.mem_singleton.mp ht
    rw [forRegions_succ ha, h.region_eq, hinvalid _ _ hv]
    simp [hv, foldRegions]
  | cons t rest ih =>
    obtain ⟨fuel, rfl⟩ : ∃ n, fuel = n + 1 := ⟨fuel - 1, by omega⟩
    rw [forRegions_succ ha, h.region_eq, List.map_cons]
    cases hv : valid ⟨seen start r⟩ with
    | false =>
      rw [hinvalid _ _ hv, List.takeWhile_cons_of_neg (by simp [hv])]
      rfl
    | true =>
      obtain ⟨hstands, hnext⟩ := h.next_cons
      have hex' : ∃ u ∈ t :: rest, valid ⟨seen start u⟩ = false := by
        obtain ⟨u, hu, huv⟩ := hex
        rcases List.mem_cons.mp hu with rfl | hu
        · rw [hv] at huv; cases huv
        · exact ⟨u, hu, huv⟩
      rw [List.takeWhile_cons_of_pos hv, foldRegions]
      cases hbody : body ⟨seen start r⟩ s with
      | error e => rfl
      | ok step =>
        cases step with
        | done s' => rfl
        | yield s' =>
          simp only [Run.ok_bind]
          by_cases hend : t.base = stop
          · -- the loop ends by reaching `stop`, where the next region is not valid either
            have htv : valid ⟨seen start t⟩ = false := by
              by_contra hne
              exact hvalid t (by simp) (by simpa using hne) hend
            obtain ⟨fuel, rfl⟩ : ∃ n, fuel = n + 1 := ⟨fuel - 1, by simp at hfuel; omega⟩
            rw [forRegions_at_stop (by rw [hnext, hend]), List.map_cons,
              List.takeWhile_cons_of_neg (by simp [htv])]
            rfl
          · exact ih hstands (by rw [hnext]; exact hend)
              (fun u hu => hvalid u (by simp [hu])) hex' s' (by simp at hfuel ⊢; omega)

variable (body) in
/-- If all regions up to the top are valid, the loop is its body run over all of them, and then goes
on from an iterator that has the sentinel address and the last region. -/
theorem forRegions_scan_end {it : RegionIterator} {r : Tile Attributes}
    {rest : List (Tile Attributes)} (h : StandsOn L start it r rest) (ha : it.address ≠ stop)
    (hne : ∀ t ∈ rest, t.base ≠ stop) :
    ∃ it' u, StandsOn L start it' u [] ∧ it'.address = sentinel ∧ u ∈ r :: rest ∧ ∀ fuel s,
      forRegions L body stop (rest.length + 1 + fuel) it s =
        (foldRegions body ((r :: rest).map fun t => ⟨seen start t⟩) s >>= fun step =>
          match step with
          | .done s => .ok s
          | .yield s => forRegions L body stop fuel it' s) := by
  induction rest generalizing it r with
  | nil =>
    obtain ⟨hstands, hnext⟩ := h.stale
    refine ⟨it.next L, r, hstands, hnext, List.mem_cons_self, fun fuel s => ?_⟩
    rw [List.length_nil, Nat.zero_add, Nat.add_comm, forRegions_succ ha, h.region_eq]
    simp only [List.map_cons, List.map_nil, foldRegions]
    cases body ⟨seen start r⟩ s with
    | error e => rfl
    | ok step => cases step <;> rfl
  | cons t rest ih =>
    obtain ⟨hstands, hnext⟩ := h.next_cons
    obtain ⟨it', u, hu, hsent, hmem, hrun⟩ := ih hstands
      (by rw [hnext]; exact hne t (by simp)) fun u hu => hne u (by simp [hu])
    refine ⟨it', u, hu, hsent, List.mem_cons_of_mem _ hmem, fun fuel s => ?_⟩
    rw [List.length_cons, show rest.length + 1 + 1 + fuel = (rest.length + 1 + fuel) + 1 by omega,
      forRegions_succ ha, h.region_eq, List.map_cons, foldRegions]
    cases body ⟨seen start r⟩ s with
    | error e => rfl
    | ok step =>
      cases step with
      | done s' => rfl
      | yield s' => exact hrun fuel s'

/-- Without a `stop` of its own the loop is its body run over all regions up to the top. -/
theorem forIn_to_end (body : Region → σ → Run (ForInStep σ)) (h : start < L.top) (s : σ) :
    ∃ n, ∀ more, (Wincpp.regions start).forIn L body (n + more) s =
      (foldRegions body ((L.regionsFrom start).map fun t => ⟨seen start t⟩) s >>= fun step =>
        .ok step.value) := by
  obtain ⟨it, r, rest, hit, ha, hfrom, -, hstands⟩ := create_standsOn h
  obtain ⟨last, hlast, hend⟩ := create_ok (L := L) (.inl (rfl : sentinel = sentinel))
  have htop := L.top_lt
  have hne : it.address ≠ sentinel := by unfold sentinel; omega
  have hbases : ∀ t ∈ rest, t.base ≠ sentinel := by
    intro t ht
    have hmem := (L.tiles.mem t (hstands.mem t (List.mem_cons_of_mem _ ht))).2
    unfold Tile.stop at hmem
    unfold sentinel
    omega
  obtain ⟨it', u, -, hsent, -, hrun⟩ := forRegions_scan_end body hstands hne hbases
  refine ⟨rest.length + 1 + 1, fun more => ?_⟩
  rw [RegionList.forIn, Wincpp.regions, hit, Run.ok_bind, hlast, Run.ok_bind, hend, Nat.add_assoc,
    hrun, hfrom, Nat.add_comm 1]
  congr 1
  funext step
  cases step with
  | done s' => rfl
  | yield s' => exact forRegions_at_stop hsent

/-- An iterator that has run out of regions stays on the last one. Unless the body leaves the loop
or fails, the loop goes on for ever. -/
theorem forRegions_stale_ne_ok {it : RegionIterator} {u : Tile Attributes}
    (h : StandsOn L start it u []) (ha : it.address = sentinel) (hstop : stop ≠ sentinel)
    (hbody : ∀ s s', body ⟨seen start u⟩ s ≠ .ok (.done s')) (fuel : ℕ) (s s' : σ) :
    forRegions L body stop fuel it s ≠ .ok s' :=
  Run.loop_ne_ok (fun it => StandsOn L start it u [] ∧ it.address = sentinel)
    (forRegions L body stop) (fun it => body it.region) (·.next L) (fun _ _ => rfl)
    (fun _ _ _ hit => forRegions_succ (by rw [hit.2]; exact hstop.symm))
    (fun _ hit => hit.1.stale) (fun _ s s' hit => by rw [hit.1.region_eq]; exact hbody s s')
    fuel it ⟨h, ha⟩ s s'

end Scan

namespace Memory
variable {m : Memory} {L : Layout}

theorem valid_address_lt {r : Region} (h : m.isValidRegion r = true) : r.address < m.stop := by
  simp only [isValidRegion, Bool.and_eq_true, decide_eq_true_eq] at h
  exact h.1.1.1

/-! ## The scanned regions -/

theorem valid_of_scanned {r : Region} (h : r ∈ m.scanned L) :
    m.isValidRegion r = true := by
  rw [scanned] at h
  split at h
  · cases h
  · exact List.mem_takeWhile_imp h

theorem scanned_subset {r : Region} (h : r ∈ m.scanned L) : r ∈ m.walked L := by
  rw [scanned] at h
  split at h
  · cases h
  · exact (List.takeWhile_sublist _).subset h

theorem seen_spec {t : Tile Attributes} (ht : t ∈ L.regionsFrom m.address) :
    t ∈ L.regions ∧ m.address < t.stop ∧ t.base ≤ (⟨seen m.address t⟩ : Region).address ∧
      (⟨seen m.address t⟩ : Region).stop = t.stop := by
  obtain ⟨ht, hbehind⟩ := List.mem_filter.mp ht
  have hbehind : m.address < t.stop := by simpa using hbehind
  have hpos := (L.tiles.mem t ht).2.1
  refine ⟨ht, hbehind, Layout.le_pageBase (Layout.base_dvd ht) (le_max_right _ _), ?_⟩
  refine Layout.reported_end (max_lt hbehind ?_)
  unfold Tile.stop
  omega

theorem walked_stop_lt {p : Process} {r : Region} (h : r ∈ m.walked p.layout) : r.stop < 2 ^ 63 := by
  obtain ⟨t, ht, rfl⟩ := List.mem_map.mp h
  obtain ⟨ht, -, -, hstop⟩ := seen_spec ht
  have := (p.layout.tiles.mem t ht).2.2
  have := p.userSpace
  omega

/-- The first region starts less than a page before the object. -/
theorem walked_address_lt {r : Region} (h : r ∈ m.walked L) : m.address < r.address + pageSize := by
  obtain ⟨t, -, rfl⟩ := List.mem_map.mp h
  exact lt_of_le_of_lt (le_max_left _ _) (Layout.lt_pageBase_add _)

theorem walked_sorted (m : Memory) (L : Layout) :
    (m.walked L).Pairwise fun r s => r.stop ≤ s.address := by
  rw [walked, List.pairwise_map]
  refine List.Pairwise.imp_of_mem (fun {t u} ht hu hle => ?_) (L.tiles.sorted.filter _)
  obtain ⟨-, -, -, hstop⟩ := seen_spec ht
  obtain ⟨-, -, hbase, -⟩ := seen_spec hu
  omega

theorem scanned_sorted (m : Memory) (L : Layout) :
    (m.scanned L).Pairwise fun r s => r.stop ≤ s.address := by
  rw [scanned]
  split
  · exact .nil
  · exact (m.walked_sorted L).sublist (List.takeWhile_sublist _)

theorem isValidRegion_seen (t : Tile Attributes) :
    m.isValidRegion ⟨seen m.address t⟩ =
      (decide ((⟨seen m.address t⟩ : Region).address < m.stop) && t.label.readable) := by
  simp only [isValidRegion, Attributes.readable, Bool.and_assoc]
  rfl

theorem seen_injective {t u : Tile Attributes} (ht : t ∈ L.regionsFrom m.address)
    (hu : u ∈ L.regionsFrom m.address) (h : seen m.address t = seen m.address u) : t = u := by
  obtain ⟨ht, -, -, htstop⟩ := seen_spec ht
  obtain ⟨hu, -, -, hustop⟩ := seen_spec hu
  have hstop : t.stop = u.stop := by rw [← htstop, ← hustop, h]
  have htpos := (L.tiles.mem t ht).2.1
  have hupos := (L.tiles.mem u hu).2.1
  unfold Tile.stop at hstop
  refine L.tiles.eq_of_mem ht hu (a := t.stop - 1) ?_ ?_ ?_ ?_ <;> unfold Tile.stop <;> omega

theorem eq_seen {r : Region} (hr : r ∈ m.walked L) {t : Tile Attributes} (ht : t ∈ L.regions) {a : ℕ}
    (hra : r.address ≤ a) (har : a < r.stop) (hta : t.base ≤ a) (hat : a < t.stop) :
    r = ⟨seen m.address t⟩ := by
  obtain ⟨u, hu, rfl⟩ := List.mem_map.mp hr
  obtain ⟨hu, -, hbase, hstop⟩ := seen_spec hu
  rw [L.tiles.eq_of_mem hu ht (by omega) (by omega) hta hat]

/-- No address lies in two regions of the walk. -/
theorem walked_unique {r r' : Region} (hr : r ∈ m.walked L) (hr' : r' ∈ m.walked L) {a : ℕ}
    (hlow : r.address ≤ a) (hhigh : a < r.stop) (hlow' : r'.address ≤ a) (hhigh' : a < r'.stop) :
    r = r' := by
  obtain ⟨t, ht, rfl⟩ := List.mem_map.mp hr'
  obtain ⟨htmem, -, hbase, hstop⟩ := seen_spec ht
  exact eq_seen hr htmem hlow hhigh (hbase.trans hlow') (by omega)

theorem mem_scanned_iff {t : Tile Attributes} (hsize : m.size ≠ 0)
    (ht : t ∈ L.regionsFrom m.address) :
    ⟨seen m.address t⟩ ∈ m.scanned L ↔
      ∀ u ∈ L.regionsFrom m.address, u.base ≤ t.base →
        m.isValidRegion ⟨seen m.address u⟩ = true := by
  have hsorted : (L.regionsFrom m.address).Pairwise fun t u => t.base < u.base := by
    refine List.Pairwise.imp_of_mem (fun {t u} ht hu hle => ?_) (L.tiles.sorted.filter _)
    have := (L.tiles.mem t (List.mem_filter.mp ht).1).2.1
    unfold Tile.stop at hle
    omega
  have hmem := mem_takeWhile_iff_of_sorted (p := m.isValidRegion ∘ fun t => ⟨seen m.address t⟩)
    hsorted ht
  rw [scanned, if_neg hsize, walked, List.takeWhile_map, List.mem_map]
  refine ⟨fun ⟨u, hu, he⟩ => hmem.mp ?_, fun h => ⟨t, hmem.mpr h, rfl⟩⟩
  have hu' := (List.takeWhile_sublist _).subset hu
  rwa [← seen_injective hu' ht (Region.mk.inj he)]

/-- A region that starts inside the object is scanned exactly when it and all regions of the object
before it are readable. -/
theorem mem_scanned_iff_readable {t : Tile Attributes} (ht : t ∈ L.regions)
    (hstart : m.address ≤ t.base) (hlt : t.base < m.stop) :
    ⟨seen m.address t⟩ ∈ m.scanned L ↔
      ∀ u ∈ L.regions, m.address < u.stop → u.base ≤ t.base → u.label.readable = true := by
  have hpos := (L.tiles.mem t ht).2.1
  have hfrom : ∀ u, u ∈ L.regionsFrom m.address ↔ u ∈ L.regions ∧ m.address < u.stop := by
    intro u
    rw [Layout.regionsFrom, List.mem_filter, decide_eq_true_eq]
  have hbehind : m.address < t.stop := by
    unfold Tile.stop
    omega
  rw [stop_eq] at hlt
  rw [mem_scanned_iff (by omega) ((hfrom t).mpr ⟨ht, hbehind⟩)]
  refine ⟨fun h u hu hend hle => ?_, fun h u hu hle => ?_⟩
  · have hvalid := h u ((hfrom u).mpr ⟨hu, hend⟩) hle
    rw [isValidRegion_seen, Bool.and_eq_true] at hvalid
    exact hvalid.2
  · obtain ⟨hu, hend⟩ := (hfrom u).mp hu
    have haddr : (⟨seen m.address u⟩ : Region).address ≤ max m.address u.base :=
      Layout.pageBase_le _
    rw [isValidRegion_seen, h u hu hend hle, Bool.and_true, decide_eq_true_eq, stop_eq]
    omega

/-! ## The loop of a search -/

theorem forIn_of_not_opens {σ : Type} {body : Region → σ → Run (ForInStep σ)} (h : ¬ m.Opens L)
    (fuel : ℕ) (s : σ) : m.regions.forIn L body fuel s = .error .terminate := by
  have hcreate : ∀ a, ¬ (a = sentinel ∨ a < L.top) →
      RegionIterator.create L a = .error .terminate := by
    intro a ha
    exact create_of_top_le (fun e => ha (.inl e)) (not_lt.mp fun e => ha (.inr e))
  rw [RegionList.forIn, regions, Wincpp.regions]
  by_cases ha : m.address = sentinel ∨ m.address < L.top
  · obtain ⟨it, hit, -⟩ := create_ok ha
    rw [hit, Run.ok_bind, hcreate _ fun e => h ⟨ha, e⟩]
    rfl
  · rw [hcreate _ ha]
    rfl

/-- The walk of an object that is not empty starts on the region of its first address. -/
theorem Opens.standsOn (h : m.Opens L) (hsize : m.size ≠ 0) :
    ∃ it r rest, StandsOn L m.address it r rest ∧ it.address ≠ m.stop ∧
      m.walked L = (r :: rest).map (fun t => ⟨seen m.address t⟩) ∧
      (∀ t ∈ rest, m.isValidRegion ⟨seen m.address t⟩ = true → t.base ≠ m.stop) ∧
      ∀ (σ : Type) (body : Region → σ → Run (ForInStep σ)) (fuel : ℕ) (s : σ),
        m.regions.forIn L body fuel s = forRegions L body m.stop fuel it s := by
  have hlt : m.address < m.stop := by rw [stop_eq]; omega
  have htop : m.address < L.top := by
    have hrange := m.range
    have hstart := h.1
    unfold sentinel at hstart
    rw [stop_eq] at hlt
    omega
  obtain ⟨it, r, rest, hit, hstart, hfrom, hb, hstands⟩ := create_standsOn htop
  obtain ⟨last, hlast, hend⟩ := create_ok h.2
  refine ⟨it, r, rest, hstands, by omega, by rw [walked, hfrom], fun t ht hv => ?_,
    fun σ body fuel s => ?_⟩
  · have hge := hstands.stop_le_base ht
    have hseen : (seen m.address t).baseAddress = t.base :=
      Layout.seen_base (hstands.mem t (by simp [ht])) (by have := hstands.behind; omega)
    have hvalid := valid_address_lt hv
    rw [Region.address, hseen] at hvalid
    omega
  · rw [RegionList.forIn, regions, Wincpp.regions, hit, Run.ok_bind, hlast, Run.ok_bind, hend]

section Loop
variable {σ : Type} {body : Region → σ → Run (ForInStep σ)}

theorem forIn_of_empty (h : m.Opens L) (hsize : m.size = 0) (fuel : ℕ) (s : σ) :
    m.regions.forIn L body (fuel + 1) s = .ok s := by
  obtain ⟨first, hfirst, hstart⟩ := create_ok h.1
  obtain ⟨last, hlast, hstop⟩ := create_ok h.2
  rw [RegionList.forIn, regions, Wincpp.regions, hfirst, Run.ok_bind, hlast, Run.ok_bind,
    forRegions_at_stop (by rw [hstart, hstop, stop_eq, hsize, Nat.add_zero])]

theorem scanned_of_valid (hsize : m.size ≠ 0) (h : ∀ r ∈ m.walked L, m.isValidRegion r = true) :
    m.scanned L = m.walked L := by
  rw [scanned, if_neg hsize, List.takeWhile_eq_self_iff.mpr h]

variable (body) in
/-- If all regions are valid, the loop is its body run over them; then it goes on with an iterator
that stays on the last region. -/
theorem forIn_of_valid (h : m.Opens L) (hsize : m.size ≠ 0)
    (hall : ∀ r ∈ m.walked L, m.isValidRegion r = true) :
    ∃ last u, StandsOn L m.address last u [] ∧ last.address = sentinel ∧
      ⟨seen m.address u⟩ ∈ m.scanned L ∧ ∀ fuel s,
      m.regions.forIn L body ((m.walked L).length + fuel) s =
        (foldRegions body (m.scanned L) s >>= fun step =>
          match step with
          | .done s => .ok s
          | .yield s => forRegions L body m.stop fuel last s) := by
  obtain ⟨it, r, rest, hstands, hne, hwalked, hbase, hloop⟩ := h.standsOn hsize
  have hvalid : ∀ t ∈ r :: rest, m.isValidRegion ⟨seen m.address t⟩ = true := fun t ht =>
    hall _ (by rw [hwalked]; exact List.mem_map_of_mem ht)
  obtain ⟨last, u, hu, hsent, hmem, hrun⟩ := forRegions_scan_end body hstands hne
    fun t ht => hbase t ht (hvalid t (List.mem_cons_of_mem _ ht))
  refine ⟨last, u, hu, hsent, ?_, fun fuel s => ?_⟩
  · rw [scanned_of_valid hsize hall, hwalked]
    exact List.mem_map_of_mem hmem
  · rw [hloop, scanned_of_valid hsize hall, hwalked, List.length_map, List.length_cons]
    exact hrun fuel s

theorem forIn_of_ends (h : m.Opens L) (he : m.Ends L)
    (hinvalid : ∀ r s, m.isValidRegion r = false → body r s = .ok (.done s)) (fuel : ℕ) (s : σ) :
    m.regions.forIn L body ((m.walked L).length + 1 + fuel) s =
      (foldRegions body (m.scanned L) s >>= fun step => .ok step.value) := by
  by_cases hsize : m.size = 0
  · rw [Nat.add_right_comm, forIn_of_empty h hsize, scanned, if_pos hsize]
    rfl
  by_cases hall : ∀ r ∈ m.walked L, m.isValidRegion r = true
  · have hstop : m.stop = sentinel := by
      rcases he with he | he | ⟨r, hr, hv⟩
      · exact absurd he hsize
      · exact he
      · simp [hall r hr] at hv
    obtain ⟨last, u, -, hsent, -, hrun⟩ := forIn_of_valid body h hsize hall
    rw [Nat.add_assoc, hrun, Nat.add_comm 1]
    congr 1
    funext step
    cases step with
    | done s' => rfl
    | yield s' => exact forRegions_at_stop (by rw [hsent, hstop])
  · obtain ⟨it, r, rest, hstands, hne, hwalked, hbase, hloop⟩ := h.standsOn hsize
    have hex : ∃ t ∈ r :: rest, m.isValidRegion ⟨seen m.address t⟩ = false := by
      by_contra hno
      apply hall
      intro w hw
      rw [hwalked] at hw
      obtain ⟨t, ht, rfl⟩ := List.mem_map.mp hw
      by_contra hv
      exact hno ⟨t, ht, by simpa using hv⟩
    rw [hloop, scanned, if_neg hsize, hwalked, List.length_map, List.length_cons]
    exact forRegions_scan_stop hinvalid hstands hne hbase hex s (by omega)

end Loop
end Memory
end Wincpp
