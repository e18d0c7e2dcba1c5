import Wincpp.Memory.Changing
import Wincpp.Patterns.Results

/-! The searches of a memory object in a process that goes on running.

A search visits the address space from left to right, and reads each region at a moment of its own. So
what it reports was a match at some moment (`searchesDuring_sound`), and it cannot miss a match that
stays where it is (`findDuring_stays`).
-/
namespace Wincpp
open Tiling
set_option autoImplicit false

namespace Memory
variable (m : Memory)

/-- `memory_t::find`, for a process that goes on running. -/
def findDuring (C : Course) (pattern : Pattern) (fuel : ℕ) : Run (Option ℕ) :=
  m.regions.forInDuring C (fun p => m.findBody p pattern) fuel none

/-- `memory_t::find_all`, for a process that goes on running. -/
def findAllDuring (C : Course) (pattern : Pattern) (fuel : ℕ) : Run (List ℕ) :=
  m.regions.forInDuring C (fun p => m.findAllBody p pattern fuel) fuel []

theorem findDuring_still (p : Process) (pattern : Pattern) (fuel : ℕ) :
    m.findDuring (Course.still p) pattern fuel = m.find p pattern fuel :=
  forInDuring_still p m.regions fuel none

theorem findAllDuring_still (p : Process) (pattern : Pattern) (fuel : ℕ) :
    m.findAllDuring (Course.still p) pattern fuel = m.findAll p pattern fuel :=
  forInDuring_still p m.regions fuel []

end Memory

section Keeps
variable {σ : Type} {C : Course} {body : Process → Region → σ → Run (ForInStep σ)}

/-- What each round keeps, whatever the process is at its moment, the loop keeps. -/
theorem forRegionsDuring_keeps {I : σ → Prop} {stop fuel t : ℕ} {it : RegionIterator} {s s' : σ}
    (hbody : ∀ t r s step, C.Reported t r → I s → body (C.process t) r s = .ok step →
      I step.value)
    (hit : C.Reported t it.region) (hs : I s)
    (h : forRegionsDuring C body stop fuel t it s = .ok s') : I s' := by
  induction fuel generalizing t it s with
  | zero => cases h
  | succ fuel ih =>
    by_cases hstop : it.address = stop
    · rw [forRegionsDuring_at_stop hstop] at h
      cases h
      exact hs
    · rw [forRegionsDuring_succ hstop] at h
      obtain ⟨step, hstep, h⟩ := Run.bind_eq_ok h
      have hkeep := hbody t _ s step hit hs hstep
      cases step with
      | done s'' =>
        cases h
        exact hkeep
      | yield s'' => exact ih (hit.mono (by omega : t ≤ t + 1)).next_reported hkeep h

theorem RegionIterator.create_address {L : Layout} {a : ℕ} {it : RegionIterator}
    (h : RegionIterator.create L a = .ok it) : it.address = a := by
  unfold create at h
  split at h
  · split at h
    · cases h
      rfl
    · cases h
  · cases h
    rfl

/-- The loop of a memory object starts on an answer of the first moment, unless it has no round. -/
theorem forInDuring_cases {m : Memory} {fuel : ℕ} {s s' : σ}
    (h : m.regions.forInDuring C body fuel s = .ok s') :
    s' = s ∨ m.size ≠ 0 ∧ ∃ it, it.address = m.address ∧
      it.region.address = pageBase m.address ∧ (C.process 0).Reports it.region ∧
      forRegionsDuring C body m.stop fuel 2 it s = .ok s' := by
  obtain ⟨first, hfirst, h⟩ := Run.bind_eq_ok h
  obtain ⟨last, hlast, h⟩ := Run.bind_eq_ok h
  rw [RegionIterator.create_address hlast] at h
  have hstart := RegionIterator.create_address hfirst
  have hrange := m.range
  have hstop := m.stop_eq
  by_cases hsize : m.size = 0
  · left
    cases fuel with
    | zero => cases h
    | succ fuel =>
      rw [forRegionsDuring_at_stop (by rw [hstart]; change m.address = m.stop; omega)] at h
      exact (Except.ok.inj h).symm
  · right
    have hlt : m.address < C.top := by
      by_contra hge
      have hne : m.address ≠ sentinel := by unfold sentinel; omega
      cases (create_of_top_le hne (by rw [C.top_eq]; omega)).symm.trans hfirst
    obtain ⟨it, hit, ha, hbase, hreports⟩ := C.create_reports hlt 0
    cases hit.symm.trans hfirst
    exact ⟨hsize, _, ha, hbase, hreports, h⟩

end Keeps

namespace Memory
variable {m : Memory} {C : Course} {pattern : Pattern}

/-- The pattern stood at `a` in what was read of a region at some moment, and the region was valid when
it was reported before that. -/
def MatchedDuring (m : Memory) (C : Course) (pattern : Pattern) (a : ℕ) : Prop :=
  ∃ t r, C.Reported t r ∧ m.isValidRegion r = true ∧ r.FoundAt (C.process t) pattern a

theorem findBody_matched (hsize : 0 < pattern.size) {t : ℕ} {r : Region} {o : Option ℕ}
    {step : ForInStep (Option ℕ)} (hr : C.Reported t r)
    (ho : ∀ a, o = some a → m.MatchedDuring C pattern a)
    (h : m.findBody (C.process t) pattern r o = .ok step) :
    ∀ a, step.value = some a → m.MatchedDuring C pattern a := by
  cases hv : m.isValidRegion r with
  | false =>
    rw [findBody_of_invalid r o hv] at h
    cases h
    exact ho
  | true =>
    rw [findBody_of_valid hv] at h
    obtain ⟨o', ho', h⟩ := Run.bind_eq_ok h
    cases o' with
    | none =>
      cases h
      intro a ha
      cases ha
    | some b =>
      cases h
      intro a ha
      cases ha
      exact ⟨t, r, hr, hv, Region.find_foundAt hsize hr.stop_lt ho'⟩

theorem findAllBody_matched (hsize : 0 < pattern.size) {t fuel : ℕ} {r : Region} {as : List ℕ}
    {step : ForInStep (List ℕ)} (hr : C.Reported t r)
    (has : ∀ a ∈ as, m.MatchedDuring C pattern a)
    (h : m.findAllBody (C.process t) pattern fuel r as = .ok step) :
    ∀ a ∈ step.value, m.MatchedDuring C pattern a := by
  cases hv : m.isValidRegion r with
  | false =>
    rw [findAllBody_of_invalid fuel r as hv] at h
    cases h
    exact has
  | true =>
    rw [findAllBody_of_valid hv] at h
    obtain ⟨bs, hbs, h⟩ := Run.bind_eq_ok h
    cases h
    intro a ha
    rcases List.mem_append.mp ha with ha | ha
    · exact has a ha
    · exact ⟨t, r, hr, hv, Region.findAll_foundAt hsize hr.stop_lt hbs ha⟩

theorem findDuring_matched (hsize : 0 < pattern.size) {fuel a : ℕ}
    (h : m.findDuring C pattern fuel = .ok (some a)) : m.MatchedDuring C pattern a := by
  rcases forInDuring_cases h with h | ⟨-, it, -, -, hreports, h⟩
  · cases h
  · refine forRegionsDuring_keeps (I := fun o => ∀ a, o = some a → m.MatchedDuring C pattern a)
      (fun t r o step hr ho hstep => findBody_matched hsize hr ho hstep)
      ⟨0, by omega, hreports⟩ (fun a ha => ?_) h a rfl
    cases ha

theorem findAllDuring_matched (hsize : 0 < pattern.size) {fuel : ℕ} {as : List ℕ}
    (h : m.findAllDuring C pattern fuel = .ok as) : ∀ a ∈ as, m.MatchedDuring C pattern a := by
  rcases forInDuring_cases h with rfl | ⟨-, it, -, -, hreports, h⟩
  · exact fun a ha => absurd ha List.not_mem_nil
  · exact forRegionsDuring_keeps (I := fun as => ∀ a ∈ as, m.MatchedDuring C pattern a)
      (fun t r as step hr has hstep => findAllBody_matched hsize hr has hstep)
      ⟨0, by omega, hreports⟩ (fun a ha => absurd ha List.not_mem_nil) h

/-! ### The order of the results -/

theorem region_findAll_apart (hsize : 0 < pattern.size) {p : Process} {r : Region} {fuel : ℕ}
    {as : List ℕ} (hstop : r.stop < 2 ^ 63) (hsmall : r.size < 2 ^ 31)
    (h : r.findAll p pattern fuel = .ok as) :
    as.Pairwise (fun a b => a + pattern.size ≤ b) ∧
      ∀ a ∈ as, r.address ≤ a ∧ a + pattern.size ≤ r.stop := by
  have hinside : ∀ a ∈ as, r.address ≤ a ∧ a + pattern.size ≤ r.stop := fun a ha =>
    (Region.findAll_foundAt hsize hstop h ha).inside
  refine ⟨?_, hinside⟩
  obtain ⟨buffer, hread, h⟩ := Run.bind_eq_ok h
  obtain ⟨ks, hks, h⟩ := Run.bind_eq_ok h
  cases h
  have hbuffer : buffer.size = r.size := p.read_length hread
  have hbuf : buffer.size < 2 ^ 31 := by omega
  obtain ⟨ks', hks', hapart, hfit, -⟩ := Scanner.findAll_of_sound
    (fun sub => Scanner.indexOf_bmh_sound pattern sub hsize) hsize hbuf
  have hmono := Scanner.findAll_fuelMono pattern buffer .bmh
  have heq : ks = ks' :=
    (hmono.returns hks).unique (hmono.returns (hks' _ (Nat.lt_succ_self _)))
  subst heq
  rw [List.pairwise_map]
  refine List.Pairwise.imp_of_mem (fun {k l} hk hl hle => ?_) hapart
  have hfitk := hfit k hk
  have hfitl := hfit l hl
  unfold Region.stop at hstop
  rw [Nat.mod_eq_of_lt (by omega), Nat.mod_eq_of_lt (by omega)]
  omega

/-- An iterator that has run out of regions does not come back: a body that never leaves the loop
keeps it going for ever. -/
theorem forRegionsDuring_stale_ne_ok {σ : Type} {body : Process → Region → σ → Run (ForInStep σ)}
    {stop t : ℕ} {it : RegionIterator} (h : C.Reported t it.region) (htop : it.region.stop = C.top)
    (ha : it.address = sentinel) (hstop : stop ≠ sentinel)
    (hbody : ∀ t s s', body (C.process t) it.region s ≠ .ok (.done s')) (fuel : ℕ) (s s' : σ) :
    forRegionsDuring C body stop fuel t it s ≠ .ok s' := by
  -- a position is a moment, with the iterator at that moment
  refine Run.loop_ne_ok (fun x => C.Reported x.1 x.2.region ∧ x.2.region.stop = C.top ∧
      x.2.address = sentinel ∧ x.2.region = it.region)
    (fun fuel x => forRegionsDuring C body stop fuel x.1 x.2)
    (fun x => body (C.process x.1) x.2.region)
    (fun x => (x.1 + 2, x.2.next (C.process (x.1 + 1)).layout)) (fun _ _ => rfl)
    (fun _ _ _ hx => forRegionsDuring_succ (by rw [hx.2.2.1]; exact hstop.symm))
    (fun x hx => ?_) (fun x s s' hx => by rw [hx.2.2.2]; exact hbody x.1 s s')
    fuel (t, it) ⟨h, htop, ha, rfl⟩ s s'
  obtain ⟨hreported, hend, -, hregion⟩ := hx
  have hnextReported := (hreported.mono (by omega : x.1 ≤ x.1 + 1)).next_reported
  rcases (hreported.mono (by omega : x.1 ≤ x.1 + 1)).next with ⟨hlt, -⟩ | ⟨-, hnext⟩
  · omega
  · rw [hnext] at hnextReported ⊢
    exact ⟨hnextReported, hend, rfl, hregion⟩

theorem forRegionsDuring_findAll_apart (hsize : 0 < pattern.size)
    (hsmall : ∀ t, ∀ R ∈ (C.process t).layout.regions, R.size < 2 ^ 31) {stop fuel more t : ℕ}
    {it : RegionIterator} {results as : List ℕ} (hit : C.Reported t it.region)
    (hresults : results.Pairwise fun a b => a + pattern.size ≤ b)
    (hbefore : ∀ a ∈ results, a + pattern.size ≤ it.region.address)
    (h : forRegionsDuring C (fun p => m.findAllBody p pattern more) stop fuel t it results = .ok as) :
    as.Pairwise fun a b => a + pattern.size ≤ b := by
  induction fuel generalizing t it results with
  | zero => cases h
  | succ fuel ih =>
    by_cases hstop : it.address = stop
    · rw [forRegionsDuring_at_stop hstop] at h
      cases h
      exact hresults
    rw [forRegionsDuring_succ hstop] at h
    obtain ⟨step, hstep, h⟩ := Run.bind_eq_ok h
    cases hv : m.isValidRegion it.region with
    | false =>
      rw [findAllBody_of_invalid more _ _ hv] at hstep
      cases hstep
      cases h
      exact hresults
    | true =>
      rw [findAllBody_of_valid hv] at hstep
      obtain ⟨bs, hbs, hstep⟩ := Run.bind_eq_ok hstep
      cases hstep
      have hregion : it.region.size < 2 ^ 31 := by
        obtain ⟨u, -, hr⟩ := hit
        obtain ⟨R, hR, -, hbase, hend, -⟩ := hr.tile
        have := hsmall u R hR
        unfold Region.stop Tile.stop at hend
        omega
      obtain ⟨hapart, hinside⟩ := region_findAll_apart hsize hit.stop_lt hregion hbs
      have happend : (results ++ bs).Pairwise fun a b => a + pattern.size ≤ b := by
        rw [List.pairwise_append]
        exact ⟨hresults, hapart, fun a ha b hb => (hbefore a ha).trans (hinside b hb).1⟩
      have h : forRegionsDuring C (fun p => m.findAllBody p pattern more) stop fuel (t + 2)
          (it.next (C.process (t + 1)).layout) (results ++ bs) = .ok as := h
      have hreported := (hit.mono (by omega : t ≤ t + 1)).next_reported
      rcases (hit.mono (by omega : t ≤ t + 1)).next with ⟨-, -, haddress, -⟩ | ⟨htop, hnext⟩
      · refine ih hreported happend (fun a ha => ?_) h
        rw [haddress]
        rcases List.mem_append.mp ha with ha | ha
        · have := hbefore a ha
          have := hit.lt_stop
          omega
        · exact (hinside a ha).2
      · rw [hnext] at h hreported
        by_cases hend : sentinel = stop
        · cases fuel with
          | zero => cases h
          | succ fuel =>
            rw [forRegionsDuring_at_stop (show RegionIterator.address ⟨sentinel, it.mbi⟩ = stop from hend)]
              at h
            cases h
            exact happend
        · -- all rounds from here on scan the last region again
          refine absurd h (forRegionsDuring_stale_ne_ok hreported htop rfl (Ne.symm hend)
            (fun u s s' => ?_) fuel _ as)
          have hvalid : m.isValidRegion (RegionIterator.region ⟨sentinel, it.mbi⟩) = true := hv
          rw [findAllBody_of_valid hvalid]
          cases (RegionIterator.region ⟨sentinel, it.mbi⟩).findAll (C.process u) pattern more <;> simp

/-! ### What stays is found -/

/-- The region `R` is there at every moment, can be read and keeps the pattern at `a`; the regions
before it, however they are cut, stay such that a search goes through them. -/
structure Stays (m : Memory) (C : Course) (pattern : Pattern) (R : Tile Attributes) (a : ℕ) : Prop where
  mem : ∀ t, R ∈ (C.process t).layout.regions
  readable : R.label.readable = true
  read : ∀ t, (C.process t).readable (seen m.address R).baseAddress (seen m.address R).regionSize = true
  holds : ∀ t, (C.process t).HoldsAt pattern a
  start : m.address ≤ a ∧ R.base ≤ a
  stop : a < m.stop ∧ a + pattern.size ≤ R.stop
  before : ∀ t r, C.Reported t r → m.address < r.stop → r.stop ≤ R.base →
    r.mbi.toAttributes.readable = true ∧ ∃ buffer, (C.process t).read r.address r.size = .ok buffer

theorem isValidRegion_of_readable {r : Region} (h : r.mbi.toAttributes.readable = true)
    (hlt : r.address < m.stop) : m.isValidRegion r = true := by
  simp only [Attributes.readable, Bool.and_eq_true] at h
  simp only [isValidRegion, Region.state, Region.protection, hlt, decide_true, Bool.true_and,
    Bool.and_eq_true]
  exact h

theorem eq_seen_of_stop_eq {r : Region} {R : Tile Attributes} {start : ℕ}
    (hlabel : r.mbi.toAttributes = R.label) (haddress : r.address = pageBase (max start R.base))
    (hstop : r.stop = R.stop) : r = ⟨seen start R⟩ := by
  apply Region.tile_injective
  have hsize : r.size = R.stop - r.address := by
    rw [← hstop, Region.stop, Nat.add_sub_cancel_left]
  rw [Region.tile, hlabel, hsize, haddress]
  rfl

namespace Stays
variable {R : Tile Attributes} {a : ℕ}

/-- An answer either ends before the region or is the region. -/
theorem cases (h : m.Stays C pattern R a) (hsize : 0 < pattern.size) {t x : ℕ} {r : Region}
    (hr : (C.process t).Reports r) (haddress : r.address = pageBase x) (hx : m.address ≤ x)
    (hle : x ≤ max m.address R.base) :
    r.stop ≤ R.base ∨ r = ⟨seen m.address R⟩ := by
  obtain ⟨u, hu, hlabel, hbase, hstop, hlt⟩ := hr.tile
  have hR := h.mem t
  have hpage : x < r.stop := by
    have hnext := Layout.add_pageSize_le (haddress ▸ Nat.dvd_mul_left ..) hr.stop_dvd hlt
    have := Layout.lt_pageBase_add x
    omega
  have hux : u.base ≤ x := hbase.trans (haddress ▸ Layout.pageBase_le x)
  have hpos : R.base < R.stop := by
    have := ((C.process t).layout.tiles.mem R hR).2.1
    unfold Tile.stop
    omega
  have hstart := h.start
  have hend := h.stop
  by_cases hxR : R.base ≤ x
  · -- the address lies in the region itself
    right
    have hxstop : x < R.stop := by
      have := hle.trans (max_le hstart.1 hstart.2)
      omega
    obtain rfl := (C.process t).layout.tiles.eq_of_mem hu hR hux (by omega) hxR hxstop
    have hmax : max m.address u.base = x := le_antisymm (max_le hx hxR) hle
    exact eq_seen_of_stop_eq hlabel (by rw [haddress, hmax]) hstop
  · left
    by_contra hgt
    obtain rfl := (C.process t).layout.tiles.eq_of_mem hu hR (a := R.base) (by omega) (by omega)
      le_rfl hpos
    exact hxR hux

/-- The round at the region itself ends the search. -/
theorem found (h : m.Stays C pattern R a) (hsize : 0 < pattern.size) (hstrict : pattern.Strict)
    {t : ℕ} {it : RegionIterator} (hregion : it.region = ⟨seen m.address R⟩)
    (hreported : C.Reported t it.region) (hne : it.address ≠ m.stop) :
    ∃ b ≤ a, ∀ fuel, forRegionsDuring C (fun p => m.findBody p pattern) m.stop (fuel + 1) t it none =
      .ok (some b) := by
  have hR := h.mem 0
  have hbase : R.base ≤ it.region.address := by
    rw [hregion]
    exact Layout.le_pageBase (Layout.base_dvd hR) (le_max_right ..)
  have hpos : max m.address R.base < R.stop := by
    have hstart := h.start
    have hstop := h.stop
    omega
  have hstop : it.region.stop = R.stop := by
    rw [hregion]
    exact Layout.reported_end hpos
  have haddress : it.region.address ≤ a := by
    rw [hregion]
    exact (Layout.pageBase_le _).trans (max_le h.start.1 h.start.2)
  have hholds : it.region.Holds (C.process t) pattern a :=
    ⟨haddress, hstop ▸ h.stop.2, h.holds t⟩
  have hread : (C.process t).readable it.region.address it.region.size = true := by
    rw [hregion]
    exact h.read t
  obtain ⟨o, ho, hfirst⟩ := Region.find_isFirst hsize hstrict hreported.stop_lt hread
  have hvalid : m.isValidRegion it.region = true := by
    refine isValidRegion_of_readable ?_ (lt_of_le_of_lt haddress h.stop.1)
    rw [hregion]
    exact h.readable
  cases o with
  | none => exact absurd hholds (hfirst a)
  | some b =>
    refine ⟨b, hfirst.2 hholds, fun fuel => ?_⟩
    rw [forRegionsDuring_succ hne, findBody_of_valid hvalid, ho]
    rfl

/-- The rounds up to the region: each goes on behind the last, or finds something before it. -/
theorem rounds (h : m.Stays C pattern R a) (hsize : 0 < pattern.size) (hstrict : pattern.Strict)
    {t : ℕ} {it : RegionIterator} (hreported : C.Reported t it.region)
    (hle : it.address ≤ a) (hbehind : m.address < it.region.stop)
    (hcases : it.region.stop ≤ R.base ∨ it.region = ⟨seen m.address R⟩) :
    ∃ b ≤ a, ∃ n, ∀ more, forRegionsDuring C (fun p => m.findBody p pattern) m.stop (n + more) t it
      none = .ok (some b) := by
  have hne : it.address ≠ m.stop := by
    have := h.stop
    omega
  induction hm : R.stop - it.region.stop using Nat.strong_induction_on generalizing t it with
  | _ k ih =>
    subst hm
    rcases hcases with hbase | hregion
    · have hstop := h.stop
      have hstart := h.start
      have hgrow := hreported.lt_stop
      have hpos := ((C.process t).layout.tiles.mem R (h.mem t)).2.1
      have hend : R.stop = R.base + R.size := rfl
      obtain ⟨hreadable, buffer, hbuffer⟩ := h.before t _ hreported hbehind hbase
      have hvalid : m.isValidRegion it.region = true :=
        isValidRegion_of_readable hreadable (by omega)
      obtain ⟨o, ho, -⟩ := Region.find_of_read hsize hstrict hreported.stop_lt hbuffer
      cases o with
      | some b =>
        have hinside := (Region.find_foundAt hsize hreported.stop_lt ho).inside
        refine ⟨b, by omega, 1, fun more => ?_⟩
        rw [Nat.add_comm, forRegionsDuring_succ hne, findBody_of_valid hvalid, ho]
        rfl
      | none =>
        have hnext := (hreported.mono (by omega : t ≤ t + 1)).next
        have hnextReported := (hreported.mono (by omega : t ≤ t + 1)).next_reported
        have hfits : R.stop ≤ C.top :=
          C.top_eq 0 ▸ ((C.process 0).layout.tiles.mem R (h.mem 0)).2.2
        rcases hnext with ⟨-, haddress, hregion, hreports⟩ | ⟨htop, -⟩
        · have hpage := Layout.pageBase_of_dvd hreported.stop_dvd
          have hlt := hnextReported.lt_stop
          obtain ⟨b, hb, n, hrun⟩ := ih _ (by omega) hnextReported (by omega) (by omega)
            (h.cases hsize hreports (hregion.trans hpage.symm) hbehind.le (le_max_of_le_right hbase))
            (by omega) rfl
          refine ⟨b, hb, n + 1, fun more => ?_⟩
          rw [Nat.add_right_comm, forRegionsDuring_succ hne, findBody_of_valid hvalid, ho]
          exact hrun more
        · omega
    · obtain ⟨b, hb, hrun⟩ := h.found hsize hstrict hregion hreported hne
      exact ⟨b, hb, 1, fun more => by rw [Nat.add_comm]; exact hrun more⟩

theorem returns (h : m.Stays C pattern R a) (hsize : 0 < pattern.size) (hstrict : pattern.Strict)
    (hopen : m.stop = sentinel ∨ m.stop < C.top) :
    ∃ b ≤ a, Run.Returns (m.findDuring C pattern) (some b) := by
  have hfits : R.stop ≤ C.top := C.top_eq 0 ▸ ((C.process 0).layout.tiles.mem R (h.mem 0)).2.2
  have hstop := h.stop
  have hstart := h.start
  obtain ⟨it, hit, haddress, hbase, hreports⟩ := C.create_reports (by omega : m.address < C.top) 0
  obtain ⟨last, hlast, hend⟩ := create_ok (L := (C.process 1).layout) (a := m.stop)
    (by rw [C.top_eq]; exact hopen)
  have hbehind : m.address < it.region.stop := by
    obtain ⟨-, -, -, -, -, hlt⟩ := hreports.tile
    have hnext := Layout.add_pageSize_le (hbase ▸ Nat.dvd_mul_left ..) hreports.stop_dvd hlt
    have := Layout.lt_pageBase_add m.address
    omega
  obtain ⟨b, hb, n, hrun⟩ := h.rounds hsize hstrict (t := 2) ⟨0, by omega, hreports⟩ (by omega)
    hbehind (h.cases hsize hreports hbase le_rfl (le_max_left ..))
  refine ⟨b, hb, n, fun more => ?_⟩
  rw [findDuring, RegionList.forInDuring, regions, Wincpp.regions, hit, Run.ok_bind, hlast,
    Run.ok_bind, hend]
  exact hrun more

end Stays

/-- A search cannot miss what stays. Whatever the process does elsewhere meanwhile, `find` ends with a
result that does not lie behind a match in a region that is there all the time. -/
theorem findDuring_stays (hsize : 0 < pattern.size) (hstrict : pattern.Strict)
    {R : Tile Attributes} {a : ℕ} (hopen : m.stop = sentinel ∨ m.stop < C.top)
    (h : m.Stays C pattern R a) :
    ∃ b ≤ a, Run.Returns (m.findDuring C pattern) (some b) ∧ m.MatchedDuring C pattern b := by
  obtain ⟨b, hb, n, hrun⟩ := h.returns hsize hstrict hopen
  exact ⟨b, hb, ⟨n, hrun⟩, findDuring_matched hsize (hrun 0)⟩

def samplePages3 : Memory := ⟨0x1000, 0x3000, by decide⟩

theorem samplePages3_stays :
    samplePages3.Stays sampleCourse (ones 4) ⟨0x3000, 0x1000, ⟨memCommit, pageReadwrite, 0x1000000⟩⟩
      0x3010 where
  mem t := by rcases sampleCourse_cases t with h | h <;> rw [h] <;> decide
  readable := by decide
  read t := by rcases sampleCourse_cases t with h | h <;> rw [h] <;> rfl
  holds t := by
    rcases sampleCourse_cases t with h | h <;> rw [h] <;>
      exact (marked_holdsAt_iff (by decide)).mpr rfl
  start := by decide
  stop := by decide
  before t r hr hlow hhigh := by
    obtain ⟨u, -, hu⟩ := hr
    obtain ⟨R, hR, hlabel, hbase, hstop, hlt⟩ := hu.tile
    have hreadable : R.label.readable = true := by
      change 0x1000 < r.stop at hlow
      change r.stop ≤ 0x3000 at hhigh
      rw [hstop] at hlow hhigh
      have hall : ∀ L ∈ [heapLayout, grownLayout], ∀ R ∈ L.regions, 0x1000 < R.stop → R.stop ≤ 0x3000 →
          R.label.readable = true := by decide
      rcases sampleCourse_cases u with h | h <;> rw [h] at hR
      · exact hall heapLayout (by simp) R hR hlow hhigh
      · exact hall grownLayout (by simp) R hR hlow hhigh
    refine ⟨hlabel ▸ hreadable, ?_⟩
    have hsize : r.size < 2 ^ 63 := by
      have := hu.stop_lt
      unfold Region.stop at this
      omega
    apply Process.exists_read _ hsize
    rcases sampleCourse_cases t with h | h <;> rw [h] <;> exact .inl rfl

theorem findDuring_stays_heap :
    ∃ b ≤ 0x3010, Run.Returns (samplePages3.findDuring sampleCourse (ones 4)) (some b) ∧
      samplePages3.MatchedDuring sampleCourse (ones 4) b :=
  findDuring_stays (by decide) ones_strict (.inr (by decide)) samplePages3_stays

/-- Whatever the process does meanwhile, what the searches report was there: at the moment at which its
region was read, if the region could be read then, the bytes at the address were those of the pattern.
As long as no region has `2 ^ 31` bytes, the results of `find_all` ascend and do not overlap. -/
theorem searchesDuring_sound (m : Memory) (C : Course) (pattern : Pattern) (hsize : 0 < pattern.size)
    (fuel : ℕ) :
    (∀ a, m.findDuring C pattern fuel = .ok (some a) → m.MatchedDuring C pattern a) ∧
    (∀ as, m.findAllDuring C pattern fuel = .ok as → (∀ a ∈ as, m.MatchedDuring C pattern a) ∧
      ((∀ t, ∀ R ∈ (C.process t).layout.regions, R.size < 2 ^ 31) →
        as.Pairwise fun a b => a + pattern.size ≤ b)) ∧
    ∀ a, m.MatchedDuring C pattern a → ∃ t r, C.Reported t r ∧ m.isValidRegion r = true ∧
      r.address ≤ a ∧ a + pattern.size ≤ r.stop ∧
      ((C.process t).readable r.address r.size = true → (C.process t).HoldsAt pattern a) := by
  refine ⟨fun a => findDuring_matched hsize, fun as h => ⟨findAllDuring_matched hsize h, ?_⟩, ?_⟩
  · intro hsmall
    rcases forInDuring_cases h with rfl | ⟨-, it, -, -, hreports, h⟩
    · exact .nil
    · exact forRegionsDuring_findAll_apart hsize hsmall ⟨0, by omega, hreports⟩ .nil
        (fun a ha => absurd ha List.not_mem_nil) h
  · rintro a ⟨t, r, hr, hv, hfound⟩
    obtain ⟨hlow, hhigh⟩ := hfound.inside
    exact ⟨t, r, hr, hv, hlow, hhigh, fun hread =>
      ((Region.foundAt_iff_holds hr.stop_lt hread).mp hfound).2.2⟩

/-- The four bytes are found where they are. -/
theorem searchesDuring_sound_heap :
    ∃ b, (∃ fuel, samplePages3.findDuring sampleCourse (ones 4) fuel = .ok (some b)) ∧
      samplePages3.MatchedDuring sampleCourse (ones 4) b ∧
      ∃ t r, sampleCourse.Reported t r ∧ samplePages3.isValidRegion r = true ∧ r.address ≤ b ∧
        b + 4 ≤ r.stop ∧ ((sampleCourse.process t).readable r.address r.size = true →
          (sampleCourse.process t).HoldsAt (ones 4) b) := by
  obtain ⟨b, -, fuel, hfuel⟩ := samplePages3_stays.returns (by decide) ones_strict (.inr (by decide))
  have hsound := searchesDuring_sound samplePages3 sampleCourse (ones 4) (by decide) fuel
  exact ⟨b, ⟨fuel, hfuel 0⟩, hsound.1 b (hfuel 0), hsound.2.2 b (hsound.1 b (hfuel 0))⟩

end Memory

end Wincpp
