import Wincpp.Memory.Reach

/-! Objects that are cut into regions.

The object starts and ends on region boundaries, and all of its regions can be read. The search
compares the pattern with the bytes of one region at a time, so it finds the first place that lies
within one region, which is the first place in the object's bytes only if that one does not lie
across a cut. And it has to query the end of the object, which must lie below the top of the address
space.
-/
namespace Wincpp
open Tiling Search
set_option autoImplicit false

/-- A region starts at the address, or the address space ends there. -/
def Layout.Boundary (L : Layout) (a : ℕ) : Prop := (∃ t ∈ L.regions, t.base = a) ∨ a = L.top

/-- The object runs from one boundary to another, over readable regions, and they can be read. -/
structure Memory.Cut (m : Memory) (p : Process) : Prop where
  first : p.layout.Boundary m.address
  last : p.layout.Boundary m.stop
  readable : ∀ t ∈ p.layout.regions, m.address < t.stop → t.base < m.stop → t.label.readable = true
  reads : m.ReadsSucceed p

namespace Memory
variable {m : Memory} {L : Layout} {p q : Process} {pattern : Pattern}

/-- The pattern stands at `a` in the bytes of the object. -/
def FlatHolds (m : Memory) (p : Process) (pattern : Pattern) (a : ℕ) : Prop :=
  m.Inside pattern.size a ∧ p.HoldsAt pattern a

def WithinRegion (L : Layout) (n a : ℕ) : Prop :=
  ∃ t ∈ L.regions, t.base ≤ a ∧ a + n ≤ t.stop

/-- The two processes hold the same bytes in the object. -/
def SameBytes (m : Memory) (p q : Process) : Prop :=
  ∀ a, m.address ≤ a → a < m.stop → p.bytes a = q.bytes a

/-- `find` returns the first place of the pattern in the bytes of the object, in either process. -/
def FindsFlat (m : Memory) (p q : Process) (pattern : Pattern) : Prop :=
  ∃ o, Run.Returns (m.find p pattern) o ∧ Run.Returns (m.find q pattern) o ∧
    IsFirst (m.FlatHolds p pattern) o

/-- The end of the object can be queried, and the first place of the pattern in its bytes, if there
is one, lies within one region. -/
def Uncut (m : Memory) (p : Process) (pattern : Pattern) : Prop :=
  m.stop < p.layout.top ∧
    ∀ a, IsLeast {b | m.FlatHolds p pattern b} a → WithinRegion p.layout pattern.size a

theorem SameBytes.flatHolds_iff (h : m.SameBytes p q) (a : ℕ) :
    m.FlatHolds p pattern a ↔ m.FlatHolds q pattern a := by
  refine and_congr_right fun hinside => forall_congr' fun i => forall_congr' fun b => ?_
  apply imp_congr_right
  intro hb
  have hi : i < pattern.size := by
    rw [← pattern.word_length]
    exact (List.getElem?_eq_some_iff.mp hb).1
  have hstop := m.stop_eq
  unfold Inside at hinside
  rw [h (a + i) (by omega) (by omega)]

theorem base_lt_top {t : Tile Attributes} (ht : t ∈ L.regions) : t.base < L.top := by
  have := L.tiles.mem t ht
  unfold Tile.stop at this
  omega

theorem not_across {b : ℕ} (h : L.Boundary b) {t : Tile Attributes} (ht : t ∈ L.regions)
    (hlt : t.base < b) : t.stop ≤ b := by
  rcases h with ⟨u, hu, rfl⟩ | rfl
  · by_contra hcross
    have hpos := (L.tiles.mem u hu).2.1
    have he := L.tiles.eq_of_mem ht hu hlt.le (by omega) le_rfl (by unfold Tile.stop; omega)
    rw [he] at hlt
    omega
  · exact (L.tiles.mem t ht).2.2

namespace Cut

/-- The end of the object can be queried only below the top. -/
theorem opens_iff (h : m.Cut p) : m.Opens p.layout ↔ m.stop < p.layout.top := by
  have htop := p.userSpace
  have hle : m.stop ≤ p.layout.top := by
    rcases h.last with ⟨u, hu, hstop⟩ | hstop
    · exact hstop ▸ (base_lt_top hu).le
    · exact hstop.le
  have haddress : m.address ≤ m.stop := by rw [stop_eq]; omega
  unfold Opens sentinel
  omega

theorem ends (h : m.Cut p) (hlt : m.stop < p.layout.top) : m.Ends p.layout := by
  by_cases hsize : m.size = 0
  · exact .inl hsize
  obtain ⟨u, hu, hstop⟩ : ∃ u ∈ p.layout.regions, u.base = m.stop :=
    h.last.resolve_right hlt.ne
  have hpos := (p.layout.tiles.mem u hu).2.1
  have hle : m.address ≤ u.base := by rw [hstop, stop_eq]; omega
  have hseen : (⟨seen m.address u⟩ : Region).address = u.base := Layout.seen_base hu hle
  refine .inr (.inr ⟨⟨seen m.address u⟩, List.mem_map_of_mem (List.mem_filter.mpr ⟨hu, ?_⟩), ?_⟩)
  · rw [decide_eq_true_eq]
    unfold Tile.stop
    omega
  · rw [isValidRegion_seen, hseen, hstop]
    simp

/-- A region of the object is scanned as a whole, and nothing outside the object is. -/
theorem holds_iff (h : m.Cut p) (hsize : 0 < pattern.size) (a : ℕ) :
    m.Holds p pattern a ↔ m.FlatHolds p pattern a ∧ WithinRegion p.layout pattern.size a := by
  have hfrom : ∀ t ∈ p.layout.regions, m.address < t.stop → m.address ≤ t.base := by
    intro t ht hlt
    by_contra hcross
    have := not_across h.first ht (by omega)
    omega
  refine ⟨fun ⟨r, hr, hge, hle, hholds⟩ => ?_, fun ⟨⟨hinside, hholds⟩, t, ht, hge, hle⟩ => ?_⟩
  · have hvalid := valid_address_lt (valid_of_scanned hr)
    obtain ⟨t, ht, rfl⟩ := List.mem_map.mp (scanned_subset hr)
    obtain ⟨ht, hbehind, hbase, hend⟩ := seen_spec ht
    have htstop := not_across h.last ht (by omega)
    rw [stop_eq] at htstop
    have := hfrom t ht hbehind
    exact ⟨⟨⟨by omega, by omega⟩, hholds⟩, t, ht, by omega, by omega⟩
  · unfold Inside at hinside
    have hbehind : m.address < t.stop := by omega
    have hbase := hfrom t ht hbehind
    have hlt : t.base < m.stop := by rw [stop_eq]; omega
    have hmem : t ∈ p.layout.regionsFrom m.address :=
      List.mem_filter.mpr ⟨ht, by rw [decide_eq_true_eq]; exact hbehind⟩
    have hseen : (⟨seen m.address t⟩ : Region).address = t.base := Layout.seen_base ht hbase
    obtain ⟨-, -, -, hend⟩ := seen_spec hmem
    refine ⟨_, (mem_scanned_iff_readable ht hbase hlt).mpr fun u hu hub hle => ?_, by omega,
      by omega, hholds⟩
    exact h.readable u hu hub (by omega)

/-- If the end can be queried, `find` returns the first place that lies within one region. -/
theorem find_returns_iff (h : m.Cut p) (hsize : 0 < pattern.size) (hstrict : pattern.Strict)
    {o : Option ℕ} :
    Run.Returns (m.find p pattern) o ↔ m.stop < p.layout.top ∧
      IsFirst (fun a => m.FlatHolds p pattern a ∧ WithinRegion p.layout pattern.size a) o := by
  have hholds : m.Holds p pattern =
      fun a => m.FlatHolds p pattern a ∧ WithinRegion p.layout pattern.size a :=
    funext fun a => propext (h.holds_iff hsize a)
  rw [find_returns_strict_iff hsize hstrict h.reads, h.opens_iff, hholds]
  exact ⟨fun ⟨hlt, hfirst, _⟩ => ⟨hlt, hfirst⟩, fun ⟨hlt, hfirst⟩ => ⟨hlt, hfirst, fun _ => h.ends hlt⟩⟩

theorem returns_first_iff (h : m.Cut p) (hsize : 0 < pattern.size) (hstrict : pattern.Strict) :
    (∃ o, Run.Returns (m.find p pattern) o ∧ IsFirst (m.FlatHolds p pattern) o) ↔
      m.Uncut p pattern := by
  constructor
  · rintro ⟨o, hreturns, hflat⟩
    obtain ⟨hlt, hwithin⟩ := (h.find_returns_iff hsize hstrict).mp hreturns
    exact ⟨hlt, hwithin.and_iff.mp hflat⟩
  · rintro ⟨hlt, hleast⟩
    obtain ⟨o, hwithin⟩ :=
      exists_isFirst fun a => m.FlatHolds p pattern a ∧ WithinRegion p.layout pattern.size a
    exact ⟨o, (h.find_returns_iff hsize hstrict).mpr ⟨hlt, hwithin⟩, hwithin.and_iff.mpr hleast⟩

end Cut

/-- However the bytes of the object are cut into regions, `find` returns their first place of the
pattern, exactly when the end of the object can be queried and that place is not itself cut. Then the
result is the same for all cuts. -/
theorem findsFlat_iff (m : Memory) (p q : Process) (pattern : Pattern) (hp : m.Cut p)
    (hq : m.Cut q) (hsame : m.SameBytes p q) (hsize : 1 ≤ pattern.size)
    (hstrict : pattern.Strict) :
    m.FindsFlat p q pattern ↔ m.Uncut p pattern ∧ m.Uncut q pattern := by
  rw [← hp.returns_first_iff hsize hstrict, ← hq.returns_first_iff hsize hstrict]
  have hflat : m.FlatHolds p pattern = m.FlatHolds q pattern :=
    funext fun a => propext (hsame.flatHolds_iff a)
  unfold FindsFlat
  rw [← hflat]
  constructor
  · rintro ⟨o, hreturns, hreturns', hfirst⟩
    exact ⟨⟨o, hreturns, hfirst⟩, o, hreturns', hfirst⟩
  · rintro ⟨⟨o, hreturns, hfirst⟩, o', hreturns', hfirst'⟩
    cases hfirst.unique hfirst'
    exact ⟨o, hreturns, hreturns', hfirst⟩

/-- Three readable regions behind a free page; the middle one is read-only. -/
def cutLayout : Layout where
  top := 0x4000
  regions := [⟨0, 0x1000, ⟨memFree, pageNoaccess, 0⟩⟩,
    ⟨0x1000, 0x1000, ⟨memCommit, pageReadwrite, 0x20000⟩⟩,
    ⟨0x2000, 0x1000, ⟨memCommit, 0x02, 0x20000⟩⟩,
    ⟨0x3000, 0x1000, ⟨memCommit, pageReadwrite, 0x20000⟩⟩]
  tiles := by decide
  aligned := by decide
  top_lt := by decide

/-- The same address space with the first two readable regions in one. -/
def wholeLayout : Layout where
  top := 0x4000
  regions := [⟨0, 0x1000, ⟨memFree, pageNoaccess, 0⟩⟩,
    ⟨0x1000, 0x2000, ⟨memCommit, pageReadwrite, 0x20000⟩⟩,
    ⟨0x3000, 0x1000, ⟨memCommit, pageReadwrite, 0x20000⟩⟩]
  tiles := by decide
  aligned := by decide
  top_lt := by decide

def cutProcess (a : ℕ) : Process := .marked cutLayout (by decide) a 4

def wholeProcess (a : ℕ) : Process := .marked wholeLayout (by decide) a 4

def cutObject : Memory := ⟨0x1000, 0x2000, sampleRegion.range⟩

def cutLast : Memory := ⟨0x3000, 0x1000, by decide⟩

theorem cutObject_cut (a : ℕ) : cutObject.Cut (cutProcess a) where
  first := .inl (show ∃ t ∈ cutLayout.regions, t.base = cutObject.address by decide)
  last := .inl (show ∃ t ∈ cutLayout.regions, t.base = cutObject.stop by decide)
  readable := show ∀ t ∈ cutLayout.regions, cutObject.address < t.stop → t.base < cutObject.stop →
    t.label.readable = true by decide
  reads := fun _ _ => rfl

theorem cutObject_cut_whole (a : ℕ) : cutObject.Cut (wholeProcess a) where
  first := .inl (show ∃ t ∈ wholeLayout.regions, t.base = cutObject.address by decide)
  last := .inl (show ∃ t ∈ wholeLayout.regions, t.base = cutObject.stop by decide)
  readable := show ∀ t ∈ wholeLayout.regions, cutObject.address < t.stop →
    t.base < cutObject.stop → t.label.readable = true by decide
  reads := fun _ _ => rfl

theorem cutLast_cut (a : ℕ) : cutLast.Cut (cutProcess a) where
  first := .inl (show ∃ t ∈ cutLayout.regions, t.base = cutLast.address by decide)
  last := .inr rfl
  readable := show ∀ t ∈ cutLayout.regions, cutLast.address < t.stop → t.base < cutLast.stop →
    t.label.readable = true by decide
  reads := fun _ _ => rfl

/-- The only place of the pattern lies across the cut at `0x2000` and is not found; without the cut
it is. And an object that ends with the address space ends the process. -/
theorem find_across_cut :
    (cutObject.Cut (cutProcess 0x1ffe) ∧
      ¬ cutObject.FindsFlat (cutProcess 0x1ffe) (cutProcess 0x1ffe) (ones 4) ∧
      Run.Returns (cutObject.find (cutProcess 0x1ffe) (ones 4)) none ∧
      Run.Returns (cutObject.find (wholeProcess 0x1ffe) (ones 4)) (some 0x1ffe)) ∧
    cutLast.Cut (cutProcess 0x3000) ∧
      ¬ cutLast.FindsFlat (cutProcess 0x3000) (cutProcess 0x3000) (ones 4) := by
  have hflat : cutObject.FlatHolds (cutProcess 0x1ffe) (ones 4) 0x1ffe :=
    ⟨by decide, (marked_holdsAt_iff (by decide)).mpr rfl⟩
  have hnone : Run.Returns (cutObject.find (cutProcess 0x1ffe) (ones 4)) none := by
    refine ((cutObject_cut _).find_returns_iff (by decide) ones_strict).mpr ⟨by decide, ?_⟩
    rintro a ⟨⟨-, hholds⟩, hwithin⟩
    cases (marked_holdsAt_iff (by decide)).mp hholds
    have hcut : ¬ ∃ t ∈ cutLayout.regions, t.base ≤ 0x1ffe ∧ 0x1ffe + 4 ≤ t.stop := by decide
    exact hcut hwithin
  refine ⟨⟨cutObject_cut _, fun ⟨o, hreturns, _, hfirst⟩ => ?_, hnone,
    (marked_find_iff (by decide)).mpr ⟨rfl, by decide, by decide⟩⟩, cutLast_cut _,
    fun ⟨o, hreturns, _⟩ => ?_⟩
  · cases hreturns.unique hnone
    exact hfirst 0x1ffe hflat
  · obtain ⟨hlt, -⟩ := ((cutLast_cut _).find_returns_iff (by decide) ones_strict).mp hreturns
    exact absurd hlt (by decide)

theorem findsFlat_iff_cut :
    cutObject.FindsFlat (cutProcess 0x1800) (wholeProcess 0x1800) (ones 4) ↔
      cutObject.Uncut (cutProcess 0x1800) (ones 4) ∧
        cutObject.Uncut (wholeProcess 0x1800) (ones 4) :=
  findsFlat_iff cutObject (cutProcess 0x1800) (wholeProcess 0x1800) (ones 4) (cutObject_cut _)
    (cutObject_cut_whole _) (fun _ _ _ => rfl) (by decide) ones_strict

end Memory
end Wincpp
