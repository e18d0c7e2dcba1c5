import Wincpp.Memory.Find

/-! Where the searches of a memory object look.

They scan whole regions, from the page of the object's first address up to the first region that
starts behind the object or cannot be read. So they also report what stands outside the object in
one of these regions (`reportsInside_iff`), and what stands in the object behind an unreadable
region is not found (`findsReadable_iff`).
-/
namespace Wincpp
open Tiling Search
set_option autoImplicit false

/-! ## A process with one marked place -/

def ones (n : ℕ) : Pattern := .ofBytes (List.replicate n 1)

/-- A process whose memory is readable and zero but for `n` bytes from `a` on, which are one. -/
def Process.marked (L : Layout) (h : L.top < 2 ^ 63) (a n : ℕ) : Process where
  layout := L
  type := .remoteT
  bytes x := if a ≤ x ∧ x < a + n then 1 else 0
  readable _ _ := true
  fresh _ _ _ := 0
  userSpace := h

section Marked
variable {L : Layout} {htop : L.top < 2 ^ 63} {a n : ℕ}

@[simp] theorem ones_size : (ones n).size = n := List.length_replicate

theorem ones_strict : (ones n).Strict := Pattern.ofBytes_strict _

theorem holdsAt_ones_iff {p : Process} {b : ℕ} :
    p.HoldsAt (ones n) b ↔ ∀ i, i < n → p.bytes (b + i) = 1 := by
  unfold Process.HoldsAt
  rw [ones, Pattern.ofBytes_word, List.map_replicate]
  refine ⟨fun h i hi => h i 1 (by simp [hi]), fun h i c hc => ?_⟩
  obtain ⟨hi, he⟩ := List.getElem?_eq_some_iff.mp hc
  rw [List.length_replicate] at hi
  rw [List.getElem_replicate] at he
  rw [h i hi, ← Option.some_inj.mp he]

theorem marked_holdsAt_iff (hn : 0 < n) {b : ℕ} :
    (Process.marked L htop a n).HoldsAt (ones n) b ↔ b = a := by
  have hbyte : ∀ x, (Process.marked L htop a n).bytes x = 1 ↔ a ≤ x ∧ x < a + n := by
    intro x
    simp [Process.marked]
  rw [holdsAt_ones_iff]
  refine ⟨fun h => ?_, fun h i hi => (hbyte _).mpr (by omega)⟩
  have hfirst := (hbyte _).mp (h 0 hn)
  have hlast := (hbyte _).mp (h (n - 1) (by omega))
  omega

/-- The marked place is found if it lies in a scanned region, and nothing else is found. -/
theorem marked_find_iff {m : Memory} (hn : 0 < n) {b : ℕ} :
    Run.Returns (m.find (Process.marked L htop a n) (ones n)) (some b) ↔
      b = a ∧ m.Opens L ∧ ∃ r ∈ m.scanned L, r.address ≤ a ∧ a + n ≤ r.stop := by
  have hholds : ∀ c, m.Holds (Process.marked L htop a n) (ones n) c ↔
      c = a ∧ ∃ r ∈ m.scanned L, r.address ≤ a ∧ a + n ≤ r.stop := by
    intro c
    simp only [Memory.Holds, Region.Holds, marked_holdsAt_iff hn, ones_size]
    refine ⟨fun ⟨r, hr, h1, h2, h3⟩ => ?_, fun ⟨h3, r, hr, h1, h2⟩ => ?_⟩
    · subst h3
      exact ⟨rfl, r, hr, h1, h2⟩
    · subst h3
      exact ⟨r, hr, h1, h2, rfl⟩
  rw [Memory.find_returns_strict_iff (by simpa using hn) ones_strict fun _ _ => rfl]
  refine ⟨fun ⟨hopens, hfirst, _⟩ => ?_, fun ⟨hb, hopens, hex⟩ => ⟨hopens, ?_, by simp⟩⟩
  · obtain ⟨hb, hex⟩ := (hholds b).mp hfirst.1
    exact ⟨hb, hopens, hex⟩
  · exact ⟨(hholds b).mpr ⟨hb, hex⟩, fun c hc => by rw [hb, ((hholds c).mp hc).1]⟩

end Marked

namespace Memory
variable (m : Memory)

/-! ## Results outside the object -/

def Inside (n a : ℕ) : Prop := m.address ≤ a ∧ a + n ≤ m.address + m.size

instance (n a : ℕ) : Decidable (m.Inside n a) := inferInstanceAs (Decidable (_ ∧ _))

/-- Whatever `find` and `find_all` report lies inside the object. -/
def ReportsInside (p : Process) (pattern : Pattern) : Prop :=
  (∀ a, Run.Returns (m.find p pattern) (some a) → m.Inside pattern.size a) ∧
    ∀ as, Run.Returns (m.findAll p pattern) as → ∀ a ∈ as, m.Inside pattern.size a

variable {m}

/-- The searches of an object report only addresses inside it, whatever the memory contains, exactly
when every scanned region that has room for the pattern lies inside the object. -/
theorem reportsInside_iff (m : Memory) (L : Layout) (htop : L.top < 2 ^ 63) (n : ℕ) (hn : 1 ≤ n) :
    (∀ p pattern, p.layout = L → pattern.size = n → m.ReportsInside p pattern) ↔
      (m.Opens L → ∀ r ∈ m.scanned L, n ≤ r.size → m.Inside r.size r.address) := by
  refine ⟨fun h hopens r hr hroom => ?_, fun h p pattern hL hsize => ?_⟩
  · have hplace : ∀ a, r.address ≤ a → a + n ≤ r.stop → m.Inside n a := by
      intro a hge hle
      have := (h (.marked L htop a n) (ones n) rfl ones_size).1 a
        ((marked_find_iff hn).mpr ⟨rfl, hopens, r, hr, hge, hle⟩)
      rwa [ones_size] at this
    have hfirst := hplace r.address le_rfl (by unfold Region.stop; omega)
    have hlast := hplace (r.stop - n) (by unfold Region.stop; omega) (by unfold Region.stop; omega)
    unfold Inside Region.stop at *
    omega
  · subst hL hsize
    have hinside : ∀ a, (m.Opens p.layout ∧ ∃ r ∈ m.scanned p.layout, r.FoundAt p pattern a) →
        m.Inside pattern.size a := by
      intro a ⟨hopens, r, hr, hfound⟩
      obtain ⟨hge, hle⟩ := hfound.inside
      have := h hopens r hr (by unfold Region.stop at hle; omega)
      unfold Inside Region.stop at *
      omega
    exact ⟨fun a ha => hinside a (find_foundAt hn ha),
      fun as has a ha => hinside a (findAll_foundAt hn has ha)⟩

def sampleProcess (a : ℕ) : Process := .marked sampleLayout (by decide) a 4

def sampleObject : Memory := ⟨0x1010, 16, by decide⟩

/-- The marked place is at the start of the object's region, in front of the object. -/
theorem not_reportsInside_page : ¬ sampleObject.ReportsInside (sampleProcess 0x1000) (ones 4) := by
  intro h
  have hscanned : ∃ r ∈ sampleObject.scanned sampleLayout, r.address ≤ 0x1000 ∧
      0x1000 + 4 ≤ r.stop := by decide
  have hfound : Run.Returns (sampleObject.find (sampleProcess 0x1000) (ones 4)) (some 0x1000) :=
    (marked_find_iff (by decide)).mpr ⟨rfl, by decide, hscanned⟩
  exact absurd (h.1 0x1000 hfound).1 (by decide)

def sampleRegion : Memory := ⟨0x1000, 0x2000, by decide⟩

theorem reportsInside_iff_region :
    (∀ p pattern, p.layout = sampleLayout → pattern.size = 4 →
        sampleRegion.ReportsInside p pattern) ↔
      (sampleRegion.Opens sampleLayout → ∀ r ∈ sampleRegion.scanned sampleLayout, 4 ≤ r.size →
        sampleRegion.Inside r.size r.address) :=
  reportsInside_iff sampleRegion sampleLayout (by decide) 4 (by decide)

/-! ## Places that are not found -/

/-- A readable region that starts inside the object holds the pattern at `a`, inside the object. -/
def HoldsReadable (m : Memory) (p : Process) (pattern : Pattern) (a : ℕ) : Prop :=
  ∃ t ∈ p.layout.regions, m.address ≤ t.base ∧ t.base < m.stop ∧ t.label.readable = true ∧
    t.base ≤ a ∧ a + pattern.size ≤ t.stop ∧ m.Inside pattern.size a ∧ p.HoldsAt pattern a

/-- If the pattern stands in a readable region of the object, then `find` has a result. -/
def FindsReadable (m : Memory) (p : Process) (pattern : Pattern) : Prop :=
  (∃ a, m.HoldsReadable p pattern a) → ∃ a, Run.Returns (m.find p pattern) (some a)

theorem exists_find_iff {p : Process} {pattern : Pattern} (hsize : 0 < pattern.size)
    (hstrict : pattern.Strict) (hread : m.ReadsSucceed p) :
    (∃ a, Run.Returns (m.find p pattern) (some a)) ↔
      m.Opens p.layout ∧ ∃ a, m.Holds p pattern a := by
  simp only [find_returns_strict_iff hsize hstrict hread]
  refine ⟨fun ⟨a, hopens, hfirst, _⟩ => ⟨hopens, a, hfirst.1⟩, fun ⟨hopens, a, ha⟩ => ?_⟩
  obtain ⟨o, -, hfirst⟩ := findSomeM?_isFirst hsize hstrict hread
  cases o with
  | none => exact absurd ha (hfirst a)
  | some b => exact ⟨b, hopens, hfirst, by simp⟩

/-- Whether something that stands in a readable region of the object is found. For one memory: the
end of the object can be queried and some scanned region holds the pattern. For all memories: the
end of the object can be queried and no region of the object before a readable one, in which there
is room for the pattern, is unreadable. -/
theorem findsReadable_iff (m : Memory) (L : Layout) (htop : L.top < 2 ^ 63) :
    (∀ p pattern, p.layout = L → 1 ≤ pattern.size → pattern.Strict → m.ReadsSucceed p →
      (m.FindsReadable p pattern ↔
        ((∃ a, m.HoldsReadable p pattern a) → m.Opens L ∧ ∃ a, m.Holds p pattern a))) ∧
    ∀ n, 1 ≤ n →
      ((∀ p pattern, p.layout = L → pattern.size = n → pattern.Strict → m.ReadsSucceed p →
          m.FindsReadable p pattern) ↔
        ∀ t ∈ L.regions, m.address ≤ t.base → t.base + n ≤ min t.stop m.stop →
          t.label.readable = true → m.Opens L ∧
            ∀ u ∈ L.regions, m.address < u.stop → u.base ≤ t.base → u.label.readable = true) := by
  have hone : ∀ p pattern, p.layout = L → 1 ≤ pattern.size → pattern.Strict → m.ReadsSucceed p →
      (m.FindsReadable p pattern ↔
        ((∃ a, m.HoldsReadable p pattern a) → m.Opens L ∧ ∃ a, m.Holds p pattern a)) := by
    intro p pattern hL hsize hstrict hread
    rw [FindsReadable, exists_find_iff hsize hstrict hread, hL]
  refine ⟨hone, fun n hn => ⟨fun h t ht hstart hroom hreadable => ?_, fun h => ?_⟩⟩
  · have hlt : t.base < m.stop := by omega
    have hmarked : m.HoldsReadable (.marked L htop t.base n) (ones n) t.base := by
      refine ⟨t, ht, hstart, hlt, hreadable, le_rfl, ?_, ⟨hstart, ?_⟩, ?_⟩
      · rw [ones_size]
        omega
      · rw [ones_size, ← stop_eq]
        omega
      · exact (marked_holdsAt_iff hn).mpr rfl
    obtain ⟨a, ha⟩ := h _ _ rfl ones_size ones_strict (fun _ _ => rfl) ⟨_, hmarked⟩
    obtain ⟨-, hopens, r, hr, hge, hle⟩ := (marked_find_iff hn).mp ha
    have hpos := (L.tiles.mem t ht).2.1
    have hr' := eq_seen (scanned_subset hr) ht hge (by omega) le_rfl (by unfold Tile.stop; omega)
    exact ⟨hopens, (mem_scanned_iff_readable ht hstart hlt).mp (hr' ▸ hr)⟩
  · intro p pattern hL hsize hstrict hread
    rw [hone p pattern hL (by omega) hstrict hread]
    intro ⟨a, t, ht, hstart, hlt, hreadable, hge, hle, hinside, hholds⟩
    subst hL hsize
    have hroom : t.base + pattern.size ≤ min t.stop m.stop := by
      have := hinside.2
      rw [stop_eq]
      omega
    obtain ⟨hopens, hall⟩ := h t ht hstart hroom hreadable
    have hseen : (⟨seen m.address t⟩ : Region).address = t.base := Layout.seen_base ht hstart
    have hmem : t ∈ p.layout.regionsFrom m.address :=
      List.mem_filter.mpr ⟨ht, by rw [decide_eq_true_eq]; omega⟩
    obtain ⟨-, -, -, hstop⟩ := seen_spec hmem
    exact ⟨hopens, a, _, (mem_scanned_iff_readable ht hstart hlt).mpr hall, by omega, by omega,
      hholds⟩

/-- The third and the fourth region; the third one cannot be accessed. -/
def sampleHeap : Memory := ⟨0x3000, 0x2000, by decide⟩

/-- The page behind the one that cannot be accessed is readable and holds the marked place. -/
theorem not_findsReadable_noaccess : ¬ sampleHeap.FindsReadable (sampleProcess 0x4800) (ones 4) := by
  intro h
  have hheap : ∃ t ∈ sampleLayout.regions, sampleHeap.address ≤ t.base ∧ t.base < sampleHeap.stop ∧
      t.label.readable = true ∧ t.base ≤ 0x4800 ∧ 0x4800 + 4 ≤ t.stop := by decide
  obtain ⟨t, ht, hstart, hlt, hreadable, hge, hle⟩ := hheap
  obtain ⟨a, ha⟩ := h ⟨0x4800, t, ht, hstart, hlt, hreadable, hge, hle, by decide,
    (marked_holdsAt_iff (by decide)).mpr rfl⟩
  obtain ⟨-, -, r, hr, -⟩ := (marked_find_iff (by decide)).mp ha
  have hnone : sampleHeap.scanned sampleLayout = [] := by decide
  rw [hnone] at hr
  cases hr

theorem findsReadable_iff_heap :
    ((∀ p pattern, p.layout = sampleLayout → 1 ≤ pattern.size → pattern.Strict →
        sampleHeap.ReadsSucceed p →
        (sampleHeap.FindsReadable p pattern ↔
          ((∃ a, sampleHeap.HoldsReadable p pattern a) →
            sampleHeap.Opens sampleLayout ∧ ∃ a, sampleHeap.Holds p pattern a))) ∧
      ((∀ p pattern, p.layout = sampleLayout → pattern.size = 4 → pattern.Strict →
          sampleHeap.ReadsSucceed p → sampleHeap.FindsReadable p pattern) ↔
        ∀ t ∈ sampleLayout.regions, sampleHeap.address ≤ t.base →
          t.base + 4 ≤ min t.stop sampleHeap.stop → t.label.readable = true →
            sampleHeap.Opens sampleLayout ∧ ∀ u ∈ sampleLayout.regions,
              sampleHeap.address < u.stop → u.base ≤ t.base → u.label.readable = true)) := by
  have h := findsReadable_iff sampleHeap sampleLayout (by decide)
  exact ⟨h.1, h.2 4 (by decide)⟩

end Memory
end Wincpp
