import Wincpp.Memory.WholeSpace

/-! Which region holds an address, and which addresses are valid.

`memory_t::contains` takes the end of a region for one of its addresses. At an address that is not the
end of a region this makes no difference; at one that is, the region in front of it contains it too
(`membershipExact_iff`). A pointer is therefore valid at the top of the address space, and at no
further address that no region covers (`pointerIsValid_iff`).
-/
namespace Wincpp
open Tiling
set_option autoImplicit false

/-- The addresses of a region: `[address, address + size)`. -/
def Region.Covers (r : Region) (a : ℕ) : Prop := r.address ≤ a ∧ a < r.stop

instance (r : Region) (a : ℕ) : Decidable (r.Covers a) :=
  inferInstanceAs (Decidable (r.address ≤ a ∧ a < r.stop))

/-- The pointer at `a` is valid exactly when some region covers it. -/
def PointerExact (L : Layout) (rs : List Region) (a : ℕ) : Prop :=
  Run.Returns (pointerIsValid L a) (decide (a ≠ 0 ∧ ∃ r ∈ rs, r.Covers a))

/-- What the regions that a walk yields say about `a`. -/
structure MembershipExact (L : Layout) (rs : List Region) (a : ℕ) : Prop where
  contains : ∀ r ∈ rs, r.contains a = true ↔ r.Covers a
  once : ∀ r ∈ rs, ∀ r' ∈ rs, r.contains a = true → r'.contains a = true → r = r'
  valid : PointerExact L rs a

section Walk
variable {L : Layout} {a : ℕ}

theorem mem_walk_zero {r : Region} (hr : r ∈ walk L 0) : r.tile ∈ L.regions := by
  rw [← map_tile_walk_zero L]
  exact List.mem_map_of_mem hr

theorem exists_mem_walk_zero {t : Tile Attributes} (ht : t ∈ L.regions) :
    ∃ r ∈ walk L 0, r.tile = t := by
  rw [← map_tile_walk_zero L] at ht
  exact List.mem_map.mp ht

theorem stop_lt_of_mem_walk_zero {r : Region} (hr : r ∈ walk L 0) : r.stop < 2 ^ 64 :=
  lt_of_le_of_lt (L.tiles.mem _ (mem_walk_zero hr)).2.2 L.top_lt

theorem Region.contains_iff {r : Region} (h : r.stop < 2 ^ 64) :
    r.contains a = true ↔ r.address ≤ a ∧ a ≤ r.stop := by
  have hstop : (r.address + r.size) % 2 ^ 64 = r.stop := Nat.mod_eq_of_lt h
  rw [Region.contains, hstop, Bool.and_eq_true, decide_eq_true_eq, decide_eq_true_eq]

theorem Region.contains_iff_covers {r : Region} (h : r.stop < 2 ^ 64) (ha : a ≠ r.stop) :
    r.contains a = true ↔ r.Covers a := by
  rw [Region.contains_iff h, Region.Covers]
  omega

theorem Region.contains_stop {r : Region} (h : r.stop < 2 ^ 64) : r.contains r.stop = true :=
  (Region.contains_iff h).mpr ⟨Nat.le_add_right .., le_rfl⟩

theorem covered_iff (htop : 0 < L.top) : (∃ r ∈ walk L 0, r.Covers a) ↔ a < L.top := by
  have hunique := existsUnique_walk htop a
  constructor
  · rintro ⟨r, hr, -, hstop⟩
    exact lt_of_lt_of_le hstop (L.tiles.mem _ (mem_walk_zero hr)).2.2
  · intro ha
    obtain ⟨r, ⟨hr, hcovers⟩, -⟩ := hunique.mpr ⟨Nat.zero_le _, ha⟩
    exact ⟨r, hr, hcovers⟩

/-- Some region contains exactly the addresses up to the top, the top included. -/
theorem contained_iff (htop : 0 < L.top) :
    (∃ r ∈ walk L 0, r.contains a = true) ↔ a ≤ L.top := by
  constructor
  · rintro ⟨r, hr, hcontains⟩
    exact ((Region.contains_iff (stop_lt_of_mem_walk_zero hr)).mp hcontains).2.trans
      (L.tiles.mem _ (mem_walk_zero hr)).2.2
  · intro ha
    rcases Nat.lt_or_eq_of_le ha with hlt | rfl
    · obtain ⟨r, hr, hcovers⟩ := (covered_iff htop).mpr hlt
      exact ⟨r, hr, (Region.contains_iff (stop_lt_of_mem_walk_zero hr)).mpr
        ⟨hcovers.1, hcovers.2.le⟩⟩
    · -- the region of the last address ends at the top
      obtain ⟨r, hr, hcovers⟩ := (covered_iff (L := L) (a := L.top - 1) htop).mpr (by omega)
      have hle : r.stop ≤ L.top := (L.tiles.mem _ (mem_walk_zero hr)).2.2
      have hstop : r.stop = L.top := by
        have := hcovers.2
        omega
      exact ⟨r, hr, hstop ▸ Region.contains_stop (stop_lt_of_mem_walk_zero hr)⟩

theorem pointerExact_iff (htop : 0 < L.top) : PointerExact L (walk L 0) a ↔ a ≠ L.top := by
  have hreturns := pointerIsValid_returns htop a
  have hany : ((walk L 0).any fun r => r.contains a) = decide (a ≤ L.top) := by
    rw [Bool.eq_iff_iff, List.any_eq_true, decide_eq_true_eq]
    exact contained_iff htop
  rw [hany] at hreturns
  rw [PointerExact]
  constructor
  · rintro hexact rfl
    have hne : L.top ≠ 0 := by omega
    have h := hexact.unique hreturns
    simp [covered_iff htop, hne] at h
  · intro hne
    convert hreturns using 1
    rw [Bool.eq_iff_iff]
    simp only [covered_iff htop, decide_eq_true_eq, Bool.and_eq_true, bne_iff_ne]
    omega

theorem membershipExact_walk_iff (htop : 0 < L.top) :
    MembershipExact L (walk L 0) a ↔ ∀ t ∈ L.regions, a ≠ t.stop := by
  constructor
  · rintro ⟨hcontains, -, -⟩ t ht rfl
    obtain ⟨r, hr, rfl⟩ := exists_mem_walk_zero ht
    have hcovers := (hcontains r hr).mp (Region.contains_stop (stop_lt_of_mem_walk_zero hr))
    exact absurd hcovers.2 (lt_irrefl r.stop)
  · intro hends
    have hcontains : ∀ r ∈ walk L 0, r.contains a = true ↔ r.Covers a := fun r hr =>
      Region.contains_iff_covers (stop_lt_of_mem_walk_zero hr) (hends r.tile (mem_walk_zero hr))
    refine ⟨hcontains, fun r hr r' hr' hin hin' => ?_, (pointerExact_iff htop).mpr ?_⟩
    · have hcovers := (hcontains r hr).mp hin
      have hcovers' := (hcontains r' hr').mp hin'
      exact Region.tile_injective (L.tiles.eq_of_mem (mem_walk_zero hr) (mem_walk_zero hr')
        hcovers.1 hcovers.2 hcovers'.1 hcovers'.2)
    · -- the top is the end of the region of the last address
      rintro rfl
      obtain ⟨r, hr, hin⟩ := (contained_iff htop).mpr (le_refl L.top)
      have hlt := (covered_iff htop).mp ⟨r, hr, (hcontains r hr).mp hin⟩
      exact absurd hlt (lt_irrefl _)

end Walk

/-- The regions that `regions()` yields say exactly which of them holds an address, and whether a
pointer there is valid, unless the address is the end of a region. The validity alone is wrong at the
top of the address space only. -/
theorem membershipExact_iff (L : Layout) (a : ℕ) (htop : 0 < L.top) :
    ∃ rs, regions.Yields L rs ∧ (MembershipExact L rs a ↔ ∀ t ∈ L.regions, a ≠ t.stop) ∧
      (PointerExact L rs a ↔ a ≠ L.top) :=
  ⟨walk L 0, yields_walk htop, membershipExact_walk_iff htop, pointerExact_iff htop⟩

/-- Two regions contain `0x1000`, where one ends and the other one begins, and a pointer at the top
`0x6000` is valid. -/
theorem contains_boundary :
    ∃ rs, regions.Yields sampleLayout rs ∧
      (∃ r ∈ rs, ∃ r' ∈ rs, r ≠ r' ∧ r.contains 0x1000 = true ∧ r'.contains 0x1000 = true) ∧
      Run.Returns (pointerIsValid sampleLayout 0x6000) true ∧ ¬ (∃ r ∈ rs, r.Covers 0x6000) ∧
      ¬ MembershipExact sampleLayout rs 0x1000 ∧ ¬ MembershipExact sampleLayout rs 0x6000 := by
  have htwo : ∃ r ∈ walk sampleLayout 0, ∃ r' ∈ walk sampleLayout 0, r ≠ r' ∧
      r.contains 0x1000 = true ∧ r'.contains 0x1000 = true := by decide
  obtain ⟨r, hr, r', hr', hne, hin, hin'⟩ := htwo
  have hvalid := pointerIsValid_returns (L := sampleLayout) (by decide) 0x6000
  have htop : ¬ ∃ r ∈ walk sampleLayout 0, r.Covers 0x6000 := by decide
  refine ⟨walk sampleLayout 0, yields_walk (by decide), ⟨r, hr, r', hr', hne, hin, hin'⟩, hvalid, htop,
    fun h => hne (h.once r hr r' hr' hin hin'), fun h => ?_⟩
  have hinvalid := h.valid
  rw [PointerExact, decide_eq_false fun hcovers => htop hcovers.2] at hinvalid
  exact absurd (hinvalid.unique hvalid) (by decide)

theorem membershipExact_iff_boundary :
    ∃ rs, regions.Yields sampleLayout rs ∧
      (MembershipExact sampleLayout rs 0x1000 ↔ ∀ t ∈ sampleLayout.regions, 0x1000 ≠ t.stop) ∧
      (PointerExact sampleLayout rs 0x1000 ↔ 0x1000 ≠ sampleLayout.top) :=
  membershipExact_iff sampleLayout 0x1000 (by decide)

end Wincpp
