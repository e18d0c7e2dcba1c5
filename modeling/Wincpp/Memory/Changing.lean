import Wincpp.Memory.Reach
import Wincpp.Memory.WholeSpace

/-! Walks over the regions of a process that goes on running.

The loops over regions ask the operating system once a round and read the region in between, while the
threads of the process allocate, free, protect and write memory. A `Course` says what the process is at
each moment. The loops of this module take every answer at a moment of its own; in a process that
stands still they are the loops of `Region` (`forInDuring_still`).

An answer that is out of date still ends where a region ended, and the next query starts there. So the
walk stays a tiling of the address space (`walkDuring_tiles`).
-/
namespace Wincpp
open Tiling
set_option autoImplicit false

/-- What the process is at each moment. Where its address space ends does not change. -/
structure Course where
  process : ℕ → Process
  top : ℕ
  top_eq : ∀ t, (process t).layout.top = top

/-- The process stands still. -/
def Course.still (p : Process) : Course := ⟨fun _ => p, p.layout.top, fun _ => rfl⟩

/-! ## A heap that grows and shrinks -/

def heapLayout : Layout where
  top := 0x7000
  regions := [⟨0, 0x1000, ⟨memFree, pageNoaccess, 0⟩⟩,
    ⟨0x1000, 0x1000, ⟨memCommit, pageReadwrite, memPrivate⟩⟩,
    ⟨0x2000, 0x1000, ⟨memCommit, 0x02, memPrivate⟩⟩,
    ⟨0x3000, 0x1000, ⟨memCommit, pageReadwrite, 0x1000000⟩⟩,
    ⟨0x4000, 0x3000, ⟨memFree, pageNoaccess, 0⟩⟩]
  tiles := by decide
  aligned := by decide
  top_lt := by decide

/-- The two pages before the image are one region, and the page behind it is in use. -/
def grownLayout : Layout where
  top := 0x7000
  regions := [⟨0, 0x1000, ⟨memFree, pageNoaccess, 0⟩⟩,
    ⟨0x1000, 0x2000, ⟨memCommit, pageReadwrite, memPrivate⟩⟩,
    ⟨0x3000, 0x1000, ⟨memCommit, pageReadwrite, 0x1000000⟩⟩,
    ⟨0x4000, 0x3000, ⟨memCommit, pageReadwrite, memPrivate⟩⟩]
  tiles := by decide
  aligned := by decide
  top_lt := by decide

/-- Four marked bytes stay where they are while the layout goes to and fro. -/
def sampleCourse : Course where
  process t := if t % 2 = 0 then .marked heapLayout (by decide) 0x3010 4
    else .marked grownLayout (by decide) 0x3010 4
  top := 0x7000
  top_eq t := by split <;> rfl

theorem sampleCourse_cases (t : ℕ) :
    sampleCourse.process t = .marked heapLayout (by decide) 0x3010 4 ∨
      sampleCourse.process t = .marked grownLayout (by decide) 0x3010 4 := by
  simp only [sampleCourse]
  split
  · exact .inl rfl
  · exact .inr rfl

/-! ## Loops over regions -/

section Loop
variable {σ : Type} (C : Course) (body : Process → Region → σ → Run (ForInStep σ))

/-- The rounds of a loop over regions: the body runs at the moment `t`, `operator++` asks at `t + 1`. -/
def forRegionsDuring (stop : ℕ) : ℕ → ℕ → RegionIterator → σ → Run σ
  | 0, _, _, _ => .error .outOfFuel
  | fuel + 1, t, it, s =>
    if it.address ≠ stop then do
      match ← body (C.process t) it.region s with
      | .done s => return s
      | .yield s => forRegionsDuring stop fuel (t + 2) (it.next (C.process (t + 1)).layout) s
    else
      return s

def RegionList.forInDuring (list : RegionList) (fuel : ℕ) (s : σ) : Run σ := do
  let first ← RegionIterator.create (C.process 0).layout list.start
  let last ← RegionIterator.create (C.process 1).layout list.stop
  forRegionsDuring C body last.address fuel 2 first s

variable {C body}

theorem forRegionsDuring_succ {stop fuel t : ℕ} {it : RegionIterator} {s : σ}
    (h : it.address ≠ stop) :
    forRegionsDuring C body stop (fuel + 1) t it s =
      (body (C.process t) it.region s >>= fun step => match step with
        | .done s => .ok s
        | .yield s =>
          forRegionsDuring C body stop fuel (t + 2) (it.next (C.process (t + 1)).layout) s) := by
  rw [forRegionsDuring, if_pos h]
  rfl

theorem forRegionsDuring_at_stop {stop fuel t : ℕ} {it : RegionIterator} {s : σ}
    (h : it.address = stop) : forRegionsDuring C body stop (fuel + 1) t it s = .ok s := by
  rw [forRegionsDuring, if_neg (by simp [h])]
  rfl

theorem forRegionsDuring_still (p : Process) (stop fuel t : ℕ) (it : RegionIterator) (s : σ) :
    forRegionsDuring (Course.still p) body stop fuel t it s =
      forRegions p.layout (body p) stop fuel it s := by
  induction fuel generalizing t it s with
  | zero => rfl
  | succ fuel ih =>
    by_cases h : it.address = stop
    · rw [forRegionsDuring_at_stop h, forRegions_at_stop h]
    · rw [forRegionsDuring_succ h, forRegions_succ h]
      congr 1
      funext step
      cases step with
      | done s' => rfl
      | yield s' => exact ih _ _ _

/-- In a process that stands still the loop is the loop over its layout. -/
theorem forInDuring_still (p : Process) (list : RegionList) (fuel : ℕ) (s : σ) :
    list.forInDuring (Course.still p) body fuel s = list.forIn p.layout (body p) fuel s := by
  simp only [RegionList.forInDuring, RegionList.forIn, forRegionsDuring_still]
  rfl

end Loop

/-! ## Answers of the operating system -/

/-- A query of the process has the region as its answer. -/
def Process.Reports (p : Process) (r : Region) : Prop :=
  ∃ a, p.layout.virtualQueryEx a = some r.mbi

theorem Layout.virtualQueryEx_eq_some {L : Layout} {a : ℕ} {mbi : Mbi}
    (h : L.virtualQueryEx a = some mbi) :
    ∃ t ∈ L.regions, t.base ≤ a ∧ a < t.stop ∧ mbi = reported a t := by
  obtain ⟨t, ht, rfl⟩ := Option.map_eq_some_iff.mp h
  have hspec := List.find?_some ht
  rw [decide_eq_true_eq] at hspec
  exact ⟨t, List.mem_of_find?_eq_some ht, hspec.1, hspec.2, rfl⟩

theorem Layout.virtualQueryEx_of_lt {L : Layout} {a : ℕ} (h : a < L.top) :
    ∃ t ∈ L.regions, t.base ≤ a ∧ a < t.stop ∧ L.virtualQueryEx a = some (reported a t) := by
  obtain ⟨pre, t, post, he, hb, hs, -⟩ := L.tiles.split (Nat.zero_le a) h
  have ht : t ∈ L.regions := by rw [he]; simp
  exact ⟨t, ht, hb, hs, virtualQueryEx_of_mem ht hb hs⟩

theorem Layout.add_pageSize_le {a b : ℕ} (ha : pageSize ∣ a) (hb : pageSize ∣ b) (h : a < b) :
    a + pageSize ≤ b := by
  have := Nat.le_of_dvd (Nat.sub_pos_of_lt h) (Nat.dvd_sub hb ha)
  omega

/-- An answer is what is left of a region of that moment. -/
theorem Process.Reports.tile {p : Process} {r : Region} (h : p.Reports r) :
    ∃ t ∈ p.layout.regions, r.mbi.toAttributes = t.label ∧ t.base ≤ r.address ∧
      r.stop = t.stop ∧ r.address < r.stop := by
  obtain ⟨a, ha⟩ := h
  obtain ⟨t, ht, hb, hs, he⟩ := Layout.virtualQueryEx_eq_some ha
  have hend := Layout.reported_end hs
  have hle := Layout.pageBase_le a
  rw [← he] at hend
  have haddress : r.address = pageBase a := by rw [Region.address, he]; rfl
  have hstop : r.stop = t.stop := hend
  refine ⟨t, ht, by rw [he]; rfl, ?_, hstop, by omega⟩
  rw [haddress]
  exact Layout.le_pageBase (Layout.base_dvd ht) hb

theorem Process.Reports.stop_dvd {p : Process} {r : Region} (h : p.Reports r) : pageSize ∣ r.stop := by
  obtain ⟨t, ht, -, -, hstop, -⟩ := h.tile
  rw [hstop, Tile.stop]
  exact Nat.dvd_add (Layout.base_dvd ht) (p.layout.aligned t ht)

theorem Process.Reports.stop_le {p : Process} {r : Region} (h : p.Reports r) :
    r.stop ≤ p.layout.top := by
  obtain ⟨t, ht, -, -, hstop, -⟩ := h.tile
  rw [hstop]
  exact (p.layout.tiles.mem t ht).2.2

theorem Process.Reports.stop_lt {p : Process} {r : Region} (h : p.Reports r) : r.stop < 2 ^ 63 :=
  lt_of_le_of_lt h.stop_le p.userSpace

/-- The region was the answer to a query before the moment `t`. -/
def Course.Reported (C : Course) (t : ℕ) (r : Region) : Prop := ∃ u < t, (C.process u).Reports r

namespace Course
variable {C : Course}

theorem top_lt (C : Course) : C.top < 2 ^ 63 := C.top_eq 0 ▸ (C.process 0).userSpace

theorem Reported.mono {t t' : ℕ} {r : Region} (h : C.Reported t r) (hle : t ≤ t') :
    C.Reported t' r := by
  obtain ⟨u, hu, hr⟩ := h
  exact ⟨u, by omega, hr⟩

theorem Reported.stop_le {t : ℕ} {r : Region} (h : C.Reported t r) : r.stop ≤ C.top := by
  obtain ⟨u, -, hr⟩ := h
  exact C.top_eq u ▸ hr.stop_le

theorem Reported.stop_dvd {t : ℕ} {r : Region} (h : C.Reported t r) : pageSize ∣ r.stop := by
  obtain ⟨u, -, hr⟩ := h
  exact hr.stop_dvd

theorem Reported.stop_lt {t : ℕ} {r : Region} (h : C.Reported t r) : r.stop < 2 ^ 63 := by
  obtain ⟨u, -, hr⟩ := h
  exact hr.stop_lt

theorem Reported.lt_stop {t : ℕ} {r : Region} (h : C.Reported t r) : r.address < r.stop := by
  obtain ⟨u, -, hr⟩ := h
  obtain ⟨-, -, -, -, -, hlt⟩ := hr.tile
  exact hlt

/-- One step of the iterator, at the moment `t`: the answer of that moment starts where the last one
ended; behind the top the iterator takes the sentinel address and keeps what it has. -/
theorem Reported.next {t : ℕ} {it : RegionIterator} (h : C.Reported t it.region) :
    (it.region.stop < C.top ∧ (it.next (C.process t).layout).address = it.region.stop ∧
      (it.next (C.process t).layout).region.address = it.region.stop ∧
      (C.process t).Reports (it.next (C.process t).layout).region) ∨
    (it.region.stop = C.top ∧ it.next (C.process t).layout = ⟨sentinel, it.mbi⟩) := by
  have hlt := h.stop_lt
  have haddress : (it.mbi.baseAddress + it.mbi.regionSize) % 2 ^ 64 = it.region.stop := by
    change it.region.stop % 2 ^ 64 = it.region.stop
    exact Nat.mod_eq_of_lt (by omega)
  rcases Nat.lt_or_eq_of_le h.stop_le with hstop | hstop
  · left
    obtain ⟨u, -, -, -, hquery⟩ :=
      Layout.virtualQueryEx_of_lt (L := (C.process t).layout) (by rw [C.top_eq]; exact hstop)
    have hnext : it.next (C.process t).layout = ⟨it.region.stop, reported it.region.stop u⟩ := by
      simp only [RegionIterator.next, haddress, hquery]
    rw [hnext]
    exact ⟨hstop, rfl, Layout.pageBase_of_dvd h.stop_dvd, _, hquery⟩
  · right
    have hquery : (C.process t).layout.virtualQueryEx it.region.stop = none :=
      Layout.virtualQueryEx_of_le (by rw [C.top_eq, hstop])
    exact ⟨hstop, by simp only [RegionIterator.next, haddress, hquery]⟩

theorem Reported.next_reported {t : ℕ} {it : RegionIterator} (h : C.Reported t it.region) :
    C.Reported (t + 1) (it.next (C.process t).layout).region := by
  rcases h.next with ⟨-, -, -, hreports⟩ | ⟨-, hnext⟩
  · exact ⟨t, by omega, hreports⟩
  · rw [hnext]
    exact h.mono (by omega)

theorem create_reports {start : ℕ} (h : start < C.top) (t : ℕ) :
    ∃ it, RegionIterator.create (C.process t).layout start = .ok it ∧ it.address = start ∧
      it.region.address = pageBase start ∧ (C.process t).Reports it.region := by
  have htop := (C.process t).layout.top_lt
  have hstart : start < (C.process t).layout.top := by rw [C.top_eq]; exact h
  obtain ⟨u, -, -, -, hquery⟩ := Layout.virtualQueryEx_of_lt hstart
  refine ⟨⟨start, reported start u⟩, ?_, rfl, rfl, start, hquery⟩
  rw [RegionIterator.create, if_pos (by unfold sentinel; omega), hquery]

/-! ## The walk over the whole address space -/

/-- The rounds up to the top: the regions behind the iterator tile what is left of the address space,
and a body that does not look at the process is run over them. -/
theorem Reported.rounds {t : ℕ} {it : RegionIterator} (h : C.Reported t it.region)
    (hne : it.address ≠ sentinel) :
    ∃ rs, Tiles it.region.stop (rs.map Region.tile) C.top ∧
      (∀ r ∈ rs, ∃ u, (C.process u).Reports r) ∧ rs.length * pageSize ≤ C.top - it.region.stop ∧
      ∀ (σ : Type) (body : Region → σ → Run (ForInStep σ)) (fuel : ℕ) (s : σ),
        forRegionsDuring C (fun _ => body) sentinel (rs.length + 2 + fuel) t it s =
          (foldRegions body (it.region :: rs) s >>= fun step => .ok step.value) := by
  induction hm : C.top - it.region.stop using Nat.strong_induction_on generalizing t it with
  | _ m ih =>
    subst hm
    have hreported := (h.mono (by omega : t ≤ t + 1)).next_reported
    rcases (h.mono (by omega : t ≤ t + 1)).next with
      ⟨hlt, hnext, haddress, hreports⟩ | ⟨htop, hnext⟩
    · have hstop := h.stop_lt
      have hgrow := hreported.lt_stop
      have hfits := hreported.stop_le
      have hpage : it.region.stop + pageSize ≤ (it.next (C.process (t + 1)).layout).region.stop := by
        rw [haddress] at hgrow
        exact Layout.add_pageSize_le h.stop_dvd hreported.stop_dvd hgrow
      have hpos : 0 < pageSize := by decide
      obtain ⟨rs, htiles, hmem, hcount, hrun⟩ := ih _ (by omega) hreported
        (by rw [hnext]; unfold sentinel; omega) rfl
      refine ⟨(it.next (C.process (t + 1)).layout).region :: rs, ⟨haddress, ?_, htiles⟩, ?_, ?_, ?_⟩
      · unfold Region.stop at hgrow
        exact (by omega : 0 < (it.next (C.process (t + 1)).layout).region.size)
      · intro r hr
        rcases List.mem_cons.mp hr with rfl | hr
        · exact ⟨_, hreports⟩
        · exact hmem r hr
      · rw [List.length_cons, Nat.succ_mul]
        omega
      · intro σ body fuel s
        rw [List.length_cons, show rs.length + 1 + 2 + fuel = rs.length + 2 + fuel + 1 by omega,
          forRegionsDuring_succ hne, foldRegions]
        cases body it.region s with
        | error e => rfl
        | ok step =>
          cases step with
          | done s' => rfl
          | yield s' => exact hrun σ body fuel s'
    · refine ⟨[], htop, by simp, by simp, fun σ body fuel s => ?_⟩
      rw [List.length_nil, show 0 + 2 + fuel = fuel + 1 + 1 by omega, forRegionsDuring_succ hne,
        foldRegions]
      cases body it.region s with
      | error e => rfl
      | ok step =>
        cases step with
        | done s' => rfl
        | yield s' =>
          have hend : (it.next (C.process (t + 1)).layout).address = sentinel := by rw [hnext]
          change forRegionsDuring C (fun _ => body) sentinel (fuel + 1) (t + 2) _ s' = .ok s'
          exact forRegionsDuring_at_stop hend

end Course

/-- The regions of a walk. Every loop over them that does not read the process is a fold. -/
theorem Course.exists_walk (C : Course) {start : ℕ} (h : start < C.top) :
    ∃ rs, Tiles (pageBase start) (rs.map Region.tile) C.top ∧
      rs.length ≤ C.top / pageSize + 1 ∧ (∀ r ∈ rs, ∃ u, (C.process u).Reports r) ∧
      ∀ (σ : Type) (body : Region → σ → Run (ForInStep σ)) (s : σ) (fuel : ℕ),
        C.top / pageSize + 2 ≤ fuel →
        (regions start).forInDuring C (fun _ => body) fuel s =
          (foldRegions body rs s >>= fun step => .ok step.value) := by
  obtain ⟨it, hit, hstart, haddress, hreports⟩ := C.create_reports h 0
  obtain ⟨last, hlast, hend⟩ :=
    create_ok (L := (C.process 1).layout) (.inl (rfl : sentinel = sentinel))
  have hreported : C.Reported 2 it.region := ⟨0, by omega, hreports⟩
  have hgrow := hreported.lt_stop
  have hstop := hreported.stop_lt
  have hle := Layout.pageBase_le start
  have htop := C.top_lt
  obtain ⟨rs, htiles, hmem, hcount, hrun⟩ := hreported.rounds
    (by rw [hstart]; unfold sentinel; omega)
  have hlength : rs.length ≤ C.top / pageSize := by
    rw [Nat.le_div_iff_mul_le (by decide)]
    omega
  refine ⟨it.region :: rs, ⟨haddress, ?_, htiles⟩, by simpa using hlength, ?_, ?_⟩
  · unfold Region.stop at hgrow
    exact (by omega : 0 < it.region.size)
  · intro r hr
    rcases List.mem_cons.mp hr with rfl | hr
    · exact ⟨0, hreports⟩
    · exact hmem r hr
  · intro σ body s fuel hfuel
    obtain ⟨more, rfl⟩ := Nat.exists_eq_add_of_le hfuel
    have hsplit : C.top / pageSize + 2 + more =
        rs.length + 2 + (C.top / pageSize - rs.length + more) := by omega
    rw [RegionList.forInDuring, regions, hit, Run.ok_bind, hlast, Run.ok_bind, hend, hsplit, hrun]

/-- `pointer_t::operator bool`, for a process that goes on running. -/
def pointerIsValidDuring (C : Course) (address : ℕ) (fuel : ℕ) : Run Bool :=
  if address ≠ 0 then
    regions.forInDuring C (fun _ region _ =>
      if region.contains address then .ok (.done true) else .ok (.yield false)) fuel false
  else
    .ok false

/-- Whatever the process does meanwhile, the walk from `start` ends, after a round for each page at
most. Its regions tile the address space from the page of `start` up to the top, and each is what was
left of a region at some moment. Every loop over them that does not read the process is a fold over
one such list. -/
theorem walkDuring_tiles (C : Course) (start : ℕ) (h : start < C.top) :
    ∃ rs, Tiles (pageBase start) (rs.map Region.tile) C.top ∧
      rs.length ≤ C.top / pageSize + 1 ∧
      (∀ r ∈ rs, ∃ u, ∃ t ∈ (C.process u).layout.regions, r.mbi.toAttributes = t.label ∧
        t.base ≤ r.address ∧ r.stop = t.stop) ∧
      ∀ (σ : Type) (body : Region → σ → Run (ForInStep σ)) (s : σ) (fuel : ℕ),
        C.top / pageSize + 2 ≤ fuel →
        (regions start).forInDuring C (fun _ => body) fuel s =
          (foldRegions body rs s >>= fun step => .ok step.value) := by
  obtain ⟨rs, htiles, hlength, hmem, hrun⟩ := C.exists_walk h
  refine ⟨rs, htiles, hlength, fun r hr => ?_, hrun⟩
  obtain ⟨u, hu⟩ := hmem r hr
  obtain ⟨t, ht, hlabel, hbase, hstop, -⟩ := hu.tile
  exact ⟨u, t, ht, hlabel, hbase, hstop⟩

/-- The walk from `0x1800`, over pages that are one region at some moments and two at others. -/
theorem walkDuring_tiles_heap :
    ∃ rs : List Region, Tiles 0x1000 (rs.map Region.tile) 0x7000 ∧ rs.length ≤ 8 := by
  obtain ⟨rs, htiles, hlength, -⟩ := walkDuring_tiles sampleCourse 0x1800 (by decide)
  exact ⟨rs, htiles, hlength⟩

/-- The check of a pointer accepts exactly the addresses up to the top, the top included, and not only
those in memory that is there. -/
theorem pointerIsValidDuring_returns (C : Course) (h : 0 < C.top) (address : ℕ) :
    Run.Returns (pointerIsValidDuring C address) (address != 0 && decide (address ≤ C.top)) := by
  by_cases ha : address = 0
  · subst ha
    exact ⟨0, fun _ => rfl⟩
  obtain ⟨rs, htiles, -, -, hrun⟩ := C.exists_walk h
  have htop := C.top_lt
  have hany : (rs.any fun r => r.contains address) = decide (address ≤ C.top) := by
    rw [Bool.eq_iff_iff, List.any_eq_true, decide_eq_true_eq]
    constructor
    · rintro ⟨r, hr, hcontains⟩
      have hstop := (htiles.mem _ (List.mem_map_of_mem hr)).2.2
      change r.address + r.size ≤ C.top at hstop
      simp only [Region.contains, Bool.and_eq_true, decide_eq_true_eq] at hcontains
      rw [Nat.mod_eq_of_lt (by omega)] at hcontains
      omega
    · intro hle
      obtain ⟨pre, t, post, he, hb, hs, -⟩ := htiles.split (a := address - 1)
        (by rw [show pageBase 0 = 0 from rfl]; omega) (by omega)
      have ht : t ∈ rs.map Region.tile := by rw [he]; simp
      obtain ⟨r, hr, rfl⟩ := List.mem_map.mp ht
      have hstop := (htiles.mem _ ht).2.2
      change r.address + r.size ≤ C.top at hstop
      change r.address ≤ address - 1 at hb
      change address - 1 < r.address + r.size at hs
      refine ⟨r, hr, ?_⟩
      simp only [Region.contains, Bool.and_eq_true, decide_eq_true_eq]
      rw [Nat.mod_eq_of_lt (by omega)]
      omega
  refine ⟨C.top / pageSize + 2, fun more => ?_⟩
  rw [pointerIsValidDuring, if_pos ha, hrun Bool _ false _ (by omega), foldRegions_contains, hany,
    bne_iff_ne.mpr ha, Bool.true_and]

/-- The address `0x10` is never in use. -/
theorem pointerIsValidDuring_returns_free :
    Run.Returns (pointerIsValidDuring sampleCourse 0x10) true :=
  pointerIsValidDuring_returns sampleCourse (by decide) 0x10

end Wincpp
