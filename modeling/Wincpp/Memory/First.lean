import Wincpp.Memory.Reach

/-! `find` against `find_all`.

In each region the two searches start with the same scan, so that `find` has the first result of
`find_all` (`Region.findAll_ascending`). Both go through the same regions from left to right and hand
on what they find in that order, so this is so for the whole walk as well (`scan_ascending`).
-/
namespace Wincpp
open Tiling Search
set_option autoImplicit false

variable {p : Process} {pattern : Pattern}

theorem Region.findAll_ascending {r : Region} (hsize : 0 < pattern.size) (hstop : r.stop < 2 ^ 63)
    (hsmall : r.size < 2 ^ 31) (hread : ∃ buffer, p.read r.address r.size = .ok buffer) :
    ∃ as, Run.Returns (fun fuel => r.findAll p pattern fuel) as ∧ as.Pairwise (· < ·) ∧
      (∀ a ∈ as, r.address ≤ a ∧ a < r.stop) ∧ r.find p pattern = .ok as.head? := by
  obtain ⟨buffer, hbuffer⟩ := hread
  have hlen : buffer.size = r.size := p.read_length hbuffer
  obtain ⟨ks, hks, hapart, hfit, hfind⟩ := Scanner.findAll_of_sound
    (fun sub => Scanner.indexOf_bmh_sound pattern sub hsize) hsize (by omega : buffer.size < 2 ^ 31)
  have haddress : ∀ k ∈ ks, (r.address + k) % 2 ^ 64 = r.address + k := by
    intro k hk
    have hlt := hfit k hk
    unfold Region.stop at hstop
    exact Nat.mod_eq_of_lt (by omega)
  refine ⟨ks.map fun k => (r.address + k) % 2 ^ 64, ⟨buffer.size + 1, fun more => ?_⟩, ?_, ?_, ?_⟩
  · have hfuel : buffer.size < buffer.size + 1 + more := by omega
    simp only [Region.findAll, hbuffer, Run.ok_bind, hks _ hfuel]
    rfl
  · rw [List.pairwise_map]
    apply hapart.imp_of_mem
    intro j k hj hk hle
    rw [haddress j hj, haddress k hk]
    omega
  · intro a ha
    obtain ⟨k, hk, rfl⟩ := List.mem_map.mp ha
    have hlt := hfit k hk
    rw [haddress k hk]
    unfold Region.stop
    omega
  · rw [Region.find, hbuffer, Run.ok_bind, hfind, Run.ok_bind, List.head?_map]
    rfl

theorem scan_ascending {rs : List Region} (hsorted : rs.Pairwise fun r r' => r.stop ≤ r'.address)
    (hscan : ∀ r ∈ rs, ∃ as, Run.Returns (fun fuel => r.findAll p pattern fuel) as ∧
      as.Pairwise (· < ·) ∧ (∀ a ∈ as, r.address ≤ a ∧ a < r.stop) ∧
      r.find p pattern = .ok as.head?) :
    ∃ as, Run.Returns (fun fuel => List.flatten <$> rs.mapM (·.findAll p pattern fuel)) as ∧
      as.Pairwise (· < ·) ∧ (∀ a ∈ as, ∃ r ∈ rs, r.address ≤ a ∧ a < r.stop) ∧
      rs.findSomeM? (·.find p pattern) = .ok as.head? := by
  induction rs with
  | nil => exact ⟨[], ⟨0, fun _ => rfl⟩, .nil, by simp, rfl⟩
  | cons r rs ih =>
    obtain ⟨hbefore, hsorted⟩ := List.pairwise_cons.mp hsorted
    obtain ⟨as, has, hascending, hrange, hfind⟩ := hscan r (by simp)
    obtain ⟨bs, hbs, hascending', hrange', hfind'⟩ := ih hsorted fun s hs => hscan s (by simp [hs])
    refine ⟨as ++ bs, ?_, ?_, fun a ha => ?_, ?_⟩
    · have hcons : (fun fuel => List.flatten <$> (r :: rs).mapM (·.findAll p pattern fuel)) =
          fun fuel => r.findAll p pattern fuel >>= fun as =>
            (List.flatten <$> rs.mapM (·.findAll p pattern fuel)) >>= fun bs => .ok (as ++ bs) := by
        funext fuel
        simp [List.mapM_cons]
      rw [hcons]
      exact has.bind (hbs.bind (Run.returns_const.mpr rfl))
    · rw [List.pairwise_append]
      refine ⟨hascending, hascending', fun a ha b hb => ?_⟩
      obtain ⟨s, hs, hlow, -⟩ := hrange' b hb
      exact lt_of_lt_of_le (hrange a ha).2 ((hbefore s hs).trans hlow)
    · rcases List.mem_append.mp ha with ha | ha
      · exact ⟨r, by simp, hrange a ha⟩
      · obtain ⟨s, hs, hrange⟩ := hrange' a ha
        exact ⟨s, by simp [hs], hrange⟩
    · rw [List.findSomeM?_cons, hfind, Run.ok_bind]
      cases as with
      | nil => exact hfind'
      | cons a as => rfl

namespace Memory
variable {m : Memory}

/-- The first address behind the object opens the walk, and ends it. -/
theorem opens_of_region {L : Layout} (h : ∃ t ∈ L.regions, m.stop ≤ t.base) :
    m.Opens L ∧ m.Ends L := by
  obtain ⟨t, ht, hle⟩ := h
  obtain ⟨-, hpos, htop⟩ := L.tiles.mem t ht
  have hstop := m.stop_eq
  unfold Tile.stop at htop
  refine ⟨⟨.inr (by omega), .inr (by omega)⟩, .inr (.inr ⟨⟨seen m.address t⟩, ?_, ?_⟩)⟩
  · refine List.mem_map.mpr ⟨t, List.mem_filter.mpr ⟨ht, ?_⟩, rfl⟩
    rw [decide_eq_true_eq, Tile.stop]
    omega
  · have hseen : (⟨seen m.address t⟩ : Region).address = t.base :=
      Layout.seen_base ht (by omega)
    by_contra hvalid
    have hlt := valid_address_lt (Bool.of_not_eq_false hvalid)
    omega

theorem walked_size_le {L : Layout} {n : ℕ} (hsmall : ∀ t ∈ L.regions, t.size < n) {r : Region}
    (hr : r ∈ m.walked L) : r.size < n := by
  obtain ⟨t, ht, rfl⟩ := List.mem_map.mp hr
  obtain ⟨hmem, -, hbase, hstop⟩ := seen_spec ht
  have hsize := hsmall t hmem
  unfold Region.stop Tile.stop at hstop
  omega

/-- If a region starts behind the object and all regions are smaller than `2 ^ 31` bytes, `find_all`
returns an ascending list, and `find` its first address. -/
theorem find_eq_head (m : Memory) (p : Process) (pattern : Pattern) (hsize : 0 < pattern.size)
    (hregion : ∃ t ∈ p.layout.regions, m.stop ≤ t.base)
    (hsmall : ∀ t ∈ p.layout.regions, t.size < 2 ^ 31)
    (hread : ∀ r ∈ m.scanned p.layout, ∃ buffer, p.read r.address r.size = .ok buffer) :
    ∃ as, Run.Returns (m.findAll p pattern) as ∧ as.Pairwise (· < ·) ∧
      Run.Returns (m.find p pattern) as.head? := by
  obtain ⟨hopens, hends⟩ := opens_of_region hregion
  obtain ⟨as, has, hascending, -, hfind⟩ := scan_ascending (m.scanned_sorted p.layout) fun r hr =>
    Region.findAll_ascending hsize (walked_stop_lt (scanned_subset hr))
      (walked_size_le hsmall (scanned_subset hr)) (hread r hr)
  refine ⟨as, ?_, hascending, ?_⟩
  · rw [findAll_returns_iff]
    exact ⟨hopens, hends, has⟩
  · rw [find_returns_iff]
    exact ⟨hopens, hfind, fun _ => hends⟩

theorem find_eq_head_region :
    ∃ as, Run.Returns (sampleRegion.findAll (sampleProcess 0x1800) (ones 4)) as ∧
      as.Pairwise (· < ·) ∧
      Run.Returns (sampleRegion.find (sampleProcess 0x1800) (ones 4)) as.head? := by
  refine find_eq_head sampleRegion (sampleProcess 0x1800) (ones 4) (by decide) ?_ ?_ fun r hr => ?_
  · exact ⟨⟨0x4000, 0x1000, ⟨memCommit, pageReadwrite, 0x20000⟩⟩, by decide, by decide⟩
  · decide
  · have hstop := walked_stop_lt (scanned_subset hr)
    unfold Region.stop at hstop
    exact (sampleProcess 0x1800).exists_read (by omega) (.inr rfl)

end Memory
end Wincpp
