import Wincpp.Memory.Cut
import Wincpp.Memory.Instances

/-! What the searches make of reads that fail.

`memory_factory::read` returns its buffer whether `ReadProcessMemory` has filled it or not, so that
the searches scan the old contents of a freshly allocated buffer (`Process.fresh`). What they return
is independent of those contents only as far as no such scan decides anything.
-/
namespace Wincpp
open Tiling Search
set_option autoImplicit false

/-- The same process, with other contents of the freshly allocated buffers. -/
def Process.withFresh (p : Process) (fresh : ℕ → ℕ → ℕ → UInt8) : Process := { p with fresh := fresh }

/-- A region that has room for the pattern. -/
def Region.HasRoom (pattern : Pattern) (r : Region) : Prop := 0 < pattern.size ∧ pattern.size ≤ r.size

/-- The read of the region fails. -/
def Region.Unread (p : Process) (r : Region) : Prop := p.readable r.address r.size = false

/-- A search whose results do not depend on the contents of the freshly allocated buffers, and that
reports no address in a region which could not be read. -/
def IgnoresUnread {α : Type} [Membership ℕ α] (p : Process) (rs : List Region)
    (search : Process → α → Prop) : Prop :=
  (∀ fresh fresh' result, search (p.withFresh fresh) result ↔ search (p.withFresh fresh') result) ∧
  ∀ fresh result, search (p.withFresh fresh) result → ∀ a ∈ result, ∀ r ∈ rs, r.Unread p →
    ¬ (r.address ≤ a ∧ a < r.stop)

/-! ## Scans of one region -/

section Scan
variable {p : Process} {pattern : Pattern} {r : Region}

theorem read_withFresh (h : ¬ r.Unread p) (fresh : ℕ → ℕ → ℕ → UInt8) :
    (p.withFresh fresh).read r.address r.size = p.read r.address r.size := by
  have hread : p.readable r.address r.size = true := Bool.of_not_eq_false h
  unfold Process.read
  simp only [Process.withFresh, hread, if_true]
  rfl

theorem exists_read_withFresh (hp : p.type = .remoteT) (hstop : r.stop < 2 ^ 63)
    (fresh : ℕ → ℕ → ℕ → UInt8) :
    ∃ buffer, (p.withFresh fresh).read r.address r.size = .ok buffer := by
  unfold Region.stop at hstop
  exact Process.exists_read _ (by omega) (.inl hp)

theorem unread_buffer (hp : p.type = .remoteT) (hstop : r.stop < 2 ^ 63) (h : r.Unread p)
    (fresh : ℕ → ℕ → ℕ → UInt8) :
    ∃ buffer, (p.withFresh fresh).read r.address r.size = .ok buffer ∧
      buffer.bytes = (List.range r.size).map (fresh r.address r.size) := by
  obtain ⟨buffer, hread⟩ := exists_read_withFresh hp hstop fresh
  exact ⟨buffer, hread, (p.withFresh fresh).read_of_unreadable h hread⟩

theorem find_withFresh (h : ¬ r.Unread p) (fresh : ℕ → ℕ → ℕ → UInt8) :
    r.find (p.withFresh fresh) pattern = r.find p pattern := by
  rw [Region.find, read_withFresh h, Region.find]

theorem findAll_withFresh (h : ¬ r.Unread p) (fresh : ℕ → ℕ → ℕ → UInt8) (fuel : ℕ) :
    r.findAll (p.withFresh fresh) pattern fuel = r.findAll p pattern fuel := by
  rw [Region.findAll, read_withFresh h, Region.findAll]

theorem indexOf_of_no_room {buffer : Span} (h : ¬ (0 < pattern.size ∧ pattern.size ≤ buffer.size)) :
    Scanner.indexOf pattern buffer .bmh = .ok (-1) := by
  rw [Scanner.indexOf, Scanner.indexOfBmh, if_pos ((Scanner.cannotMatch_eq_true _ _).mpr (by omega))]
  rfl

theorem find_of_no_room {buffer : Span} (h : ¬ r.HasRoom pattern)
    (hread : p.read r.address r.size = .ok buffer) : r.find p pattern = .ok none := by
  have hlen : buffer.size = r.size := p.read_length hread
  rw [Region.find, hread, Run.ok_bind, Scanner.find, indexOf_of_no_room (by rw [hlen]; exact h)]
  rfl

theorem findAll_of_no_room {buffer : Span} (h : ¬ r.HasRoom pattern)
    (hread : p.read r.address r.size = .ok buffer) (fuel : ℕ) :
    r.findAll p pattern (fuel + 1) = .ok [] := by
  have hlen : buffer.size = r.size := p.read_length hread
  have hscan : Scanner.findAll pattern buffer .bmh (fuel + 1) = .ok [] := by
    apply Scanner.findAllLoop_of_none (i := 0) (by decide)
    have hsub : buffer.subspan 0 = buffer := rfl
    rw [hsub, indexOf_of_no_room (by rw [hlen]; exact h)]
    rfl
  rw [Region.findAll, hread, Run.ok_bind, hscan]
  rfl

theorem find_withFresh_of_no_room (hp : p.type = .remoteT) (hstop : r.stop < 2 ^ 63)
    (h : ¬ r.HasRoom pattern) (fresh : ℕ → ℕ → ℕ → UInt8) :
    r.find (p.withFresh fresh) pattern = .ok none := by
  obtain ⟨buffer, hread⟩ := exists_read_withFresh hp hstop fresh
  exact find_of_no_room h hread

theorem findAll_withFresh_of_no_room (hp : p.type = .remoteT) (hstop : r.stop < 2 ^ 63)
    (h : ¬ r.HasRoom pattern) (fresh : ℕ → ℕ → ℕ → UInt8) (fuel : ℕ) :
    r.findAll (p.withFresh fresh) pattern (fuel + 1) = .ok [] := by
  obtain ⟨buffer, hread⟩ := exists_read_withFresh hp hstop fresh
  exact findAll_of_no_room h hread fuel

end Scan

/-! ## Contents in which the pattern is found -/

/-- One copy of the pattern after the other. -/
def copies (pattern : Pattern) : ℕ → ℕ → ℕ → UInt8 :=
  fun _ _ i => (pattern.bytes[i % pattern.size]?).getD 0

section Copies
variable {p : Process} {pattern : Pattern} {r : Region}

theorem copies_occursAt {address size k : ℕ} (hk : pattern.size ∣ k)
    (hfit : k + pattern.size ≤ size) :
    OccursAt pattern.word ((List.range size).map (copies pattern address size)) k := by
  refine ⟨by simpa using hfit, fun i b hb => ?_⟩
  have hi : i < pattern.size := by
    rw [← pattern.word_length]
    exact (List.getElem?_eq_some_iff.mp hb).1
  obtain ⟨c, hc⟩ := pattern.exists_byte hi
  obtain ⟨m, hm⟩ := pattern.exists_mask hi
  rw [Pattern.word_getElem? hc hm] at hb
  have hbyte : c = b := by
    cases m with
    | true => exact Option.some.inj (Option.some.inj hb)
    | false => cases hb
  obtain ⟨j, rfl⟩ := hk
  have hmod : (pattern.size * j + i) % pattern.size = i := by
    rw [Nat.mul_add_mod, Nat.mod_eq_of_lt hi]
  have hlt : pattern.size * j + i < size := by omega
  simp [hlt, copies, hmod, hc, hbyte]

theorem findAllLoop_copies {buffer : Span} {address size : ℕ} (hpos : 0 < pattern.size)
    (hsmall : pattern.size < 2 ^ 31)
    (hbuffer : buffer.bytes = (List.range size).map (copies pattern address size))
    (fuel i : ℕ) (results : List ℕ) (hi : pattern.size ∣ i) (hlt : i < 2 ^ 31)
    (hfuel : size + 1 < i + fuel) (hle : i ≤ size) :
    ∃ ks, Scanner.findAllLoop pattern buffer .bmh fuel i results = .ok (results ++ ks) ∧
      (i + pattern.size ≤ size → i ∈ ks) := by
  have hsize : buffer.size = size := by rw [Span.size, hbuffer]; simp
  induction fuel generalizing i results with
  | zero => omega
  | succ fuel ih =>
    by_cases hfit : i + pattern.size ≤ size
    · have hocc : OccursAt pattern.word (buffer.subspan i).bytes 0 := by
        have hdrop : (buffer.subspan i).bytes = buffer.bytes.drop i := rfl
        have hlen : i ≤ buffer.bytes.length := by rw [hbuffer]; simpa using hle
        rw [hdrop, occursAt_drop hlen, Nat.add_zero, hbuffer]
        exact copies_occursAt hi hfit
      have hindex := Scanner.indexOf_bmh_of_occursAt_zero _ _ hpos hocc
      by_cases hwrap : i + pattern.size < 2 ^ 31
      · obtain ⟨ks, hks, -⟩ := ih (i + pattern.size) (results ++ [i])
          (Nat.dvd_add hi (Nat.dvd_refl _)) hwrap (by omega) hfit
        refine ⟨i :: ks, ?_, by simp⟩
        rw [Scanner.findAllLoop_of_some (by omega) hindex (by omega), Nat.add_zero, hks,
          List.append_assoc, List.singleton_append]
      · -- the cursor becomes negative, which the loop's test takes for a very large number
        obtain ⟨fuel, rfl⟩ : ∃ n, fuel = n + 1 := ⟨fuel - 1, by omega⟩
        refine ⟨[i], ?_, by simp⟩
        exact Scanner.findAllLoop_of_negative (by omega) hindex (by omega) (by omega) fuel results
    · refine ⟨[], ?_, fun h => absurd h hfit⟩
      rw [List.append_nil]
      apply Scanner.findAllLoop_of_none (by omega)
      exact indexOf_of_no_room (by rw [Span.subspan_size]; omega)

theorem find_copies (hp : p.type = .remoteT) (hstop : r.stop < 2 ^ 63) (hunread : r.Unread p)
    (hroom : r.HasRoom pattern) :
    r.find (p.withFresh (copies pattern)) pattern = .ok (some r.address) := by
  obtain ⟨buffer, hread, hbytes⟩ := unread_buffer hp hstop hunread (copies pattern)
  have hocc : OccursAt pattern.word buffer.bytes 0 := by
    rw [hbytes]
    exact copies_occursAt (Nat.dvd_zero _) (by rw [Nat.zero_add]; exact hroom.2)
  have hfind : Scanner.find pattern buffer .bmh = .ok (some 0) := by
    apply Scanner.find_of_indexOf _ _ (Scanner.indexOf_bmh_of_occursAt_zero _ _ hroom.1 hocc)
    intro k hk
    cases hk
    decide
  unfold Region.stop at hstop
  rw [Region.find, hread, Run.ok_bind, hfind, Run.ok_bind, Option.map_some, Nat.add_zero,
    Nat.mod_eq_of_lt (by omega)]
  rfl

theorem findAll_copies (hp : p.type = .remoteT) (hstop : r.stop < 2 ^ 63) (hunread : r.Unread p)
    (hroom : r.HasRoom pattern) (hsmall : pattern.size < 2 ^ 31) :
    ∃ as, Run.Returns (fun fuel => r.findAll (p.withFresh (copies pattern)) pattern fuel) as ∧
      r.address ∈ as := by
  obtain ⟨buffer, hread, hbytes⟩ := unread_buffer hp hstop hunread (copies pattern)
  obtain ⟨ks, hks, hfirst⟩ := findAllLoop_copies hroom.1 hsmall hbytes (r.size + 2) 0 []
    (Nat.dvd_zero _) (by decide) (by omega) (Nat.zero_le _)
  have hscan : r.findAll (p.withFresh (copies pattern)) pattern (r.size + 2) =
      .ok (ks.map fun k => (r.address + k) % 2 ^ 64) := by
    rw [Region.findAll, hread, Run.ok_bind, Scanner.findAll]
    exact congrArg (fun x => x >>= fun ks => pure (ks.map fun k => (r.address + k) % 2 ^ 64)) hks
  refine ⟨_, (Region.findAll_fuelMono _ pattern r).returns hscan, List.mem_map.mpr ⟨0, ?_, ?_⟩⟩
  · exact hfirst (by rw [Nat.zero_add]; exact hroom.2)
  · unfold Region.stop at hstop
    rw [Nat.add_zero, Nat.mod_eq_of_lt (by omega)]

end Copies

namespace Memory
variable {m : Memory} {p : Process} {pattern : Pattern}

/-! ## `find` -/

/-- Every scanned region whose read fails and that has room for the pattern lies behind a region in
which the pattern is found. -/
def FindsBeforeUnread (m : Memory) (p : Process) (pattern : Pattern) : Prop :=
  ∀ r ∈ m.scanned p.layout, r.Unread p → r.HasRoom pattern →
    ∃ r' ∈ m.scanned p.layout, r'.address < r.address ∧ ¬ r'.Unread p ∧
      ∃ a, r'.find p pattern = .ok (some a)

theorem scanned_stop_lt {r : Region} (hr : r ∈ m.scanned p.layout) : r.stop < 2 ^ 63 :=
  walked_stop_lt (scanned_subset hr)

theorem exists_find_withFresh (hp : p.type = .remoteT) (pattern : Pattern)
    (fresh : ℕ → ℕ → ℕ → UInt8) :
    ∃ o, (m.scanned p.layout).findSomeM? (·.find (p.withFresh fresh) pattern) = .ok o := by
  refine Run.findSomeM?_ok fun r hr => ?_
  by_cases hroom : r.HasRoom pattern
  · obtain ⟨buffer, hbuffer⟩ := exists_read_withFresh hp (scanned_stop_lt hr) fresh
    obtain ⟨o, ho⟩ := Scanner.find_bmh_ok pattern buffer hroom.1
    exact ⟨_, by rw [Region.find, hbuffer, Run.ok_bind, ho, Run.ok_bind]; rfl⟩
  · exact ⟨none, find_withFresh_of_no_room hp (scanned_stop_lt hr) hroom fresh⟩

/-- The scanned regions up to the first one with a result. -/
theorem before_first {r₀ : Region} {pre post : List Region}
    (he : m.scanned p.layout = pre ++ r₀ :: post) :
    (∀ r ∈ pre, r ∈ m.scanned p.layout ∧ r.address ≤ r₀.address) ∧
      ∀ r ∈ m.scanned p.layout, r.address < r₀.address → r ∈ pre := by
  have hsorted := m.scanned_sorted p.layout
  rw [he, List.pairwise_append, List.pairwise_cons] at hsorted
  refine ⟨fun r hr => ⟨by rw [he]; simp [hr], ?_⟩, fun r hr hlt => ?_⟩
  · have hle := hsorted.2.2 r hr r₀ (by simp)
    unfold Region.stop at hle
    omega
  · rw [he, List.mem_append, List.mem_cons] at hr
    rcases hr with hr | rfl | hr
    · exact hr
    · omega
    · have hle := hsorted.2.1.1 r hr
      unfold Region.stop at hle
      omega

/-- A result of the scan comes from a region that was read, and other contents of the fresh buffers
lead to the same result. -/
theorem find_some_withFresh (hp : p.type = .remoteT) (h : m.FindsBeforeUnread p pattern)
    {fresh : ℕ → ℕ → ℕ → UInt8} {a : ℕ}
    (ha : (m.scanned p.layout).findSomeM? (·.find (p.withFresh fresh) pattern) = .ok (some a)) :
    (∀ fresh', (m.scanned p.layout).findSomeM? (·.find (p.withFresh fresh') pattern) =
      .ok (some a)) ∧
    ∃ r ∈ m.scanned p.layout, ¬ r.Unread p ∧ r.address ≤ a ∧ a < r.stop := by
  obtain ⟨pre, r, post, he, hr, hpre⟩ := Run.findSomeM?_eq_some ha
  obtain ⟨hbefore, hmem⟩ := before_first he
  have hrmem : r ∈ m.scanned p.layout := by rw [he]; simp
  -- an unread region with room up to here would lie behind a result
  have hnoroom : ∀ s ∈ m.scanned p.layout, s.address ≤ r.address → s.Unread p →
      ¬ s.HasRoom pattern := by
    intro s hs hle hunread hroom
    obtain ⟨t, ht, hlt, hread, b, hb⟩ := h s hs hunread hroom
    have hnone := hpre t (hmem t ht (by omega))
    rw [find_withFresh hread, hb] at hnone
    cases hnone
  have hroom : r.HasRoom pattern := by
    by_contra hroom
    cases hr.symm.trans (find_withFresh_of_no_room hp (scanned_stop_lt hrmem) hroom fresh)
  have hread : ¬ r.Unread p := fun hunread => hnoroom r hrmem le_rfl hunread hroom
  refine ⟨fun fresh' => ?_, r, hrmem, hread, ?_⟩
  · rw [he]
    apply Run.findSomeM?_of_first
    · intro s hs
      obtain ⟨hsmem, hle⟩ := hbefore s hs
      by_cases hunread : s.Unread p
      · exact find_withFresh_of_no_room hp (scanned_stop_lt hsmem) (hnoroom s hsmem hle hunread) fresh'
      · rw [find_withFresh hunread, ← find_withFresh hunread fresh]
        exact hpre s hs
    · rw [find_withFresh hread, ← find_withFresh hread fresh]
      exact hr
  · have hinside := (Region.find_foundAt hroom.1 (scanned_stop_lt hrmem) hr).inside
    have hpos := hroom.1
    omega

theorem find_ignoresUnread_iff (hp : p.type = .remoteT) (m : Memory) (pattern : Pattern) :
    IgnoresUnread p (m.walked p.layout) (fun q o => Run.Returns (m.find q pattern) o) ↔
      (m.Opens p.layout → m.FindsBeforeUnread p pattern) := by
  constructor
  · rintro ⟨-, hreported⟩ hopens r hr hunread hroom
    by_contra hno
    have hrfind := find_copies hp (scanned_stop_lt hr) hunread hroom
    obtain ⟨o, ho⟩ := exists_find_withFresh (m := m) hp pattern (copies pattern)
    cases o with
    | none => cases hrfind.symm.trans (Run.findSomeM?_eq_none ho r hr)
    | some a =>
      have hreturns : Run.Returns (m.find (p.withFresh (copies pattern)) pattern) (some a) :=
        find_returns_iff.mpr ⟨hopens, ho, fun h => by cases h⟩
      -- the first region with a result can be read, so that it is not behind `r`
      obtain ⟨pre, s, post, he, hs, hpre⟩ := Run.findSomeM?_eq_some ho
      obtain ⟨-, hmem⟩ := before_first he
      have hsmem : s ∈ m.scanned p.layout := by rw [he]; simp
      have hinside := (Region.find_foundAt hroom.1 (scanned_stop_lt hsmem) hs).inside
      have hread : ¬ s.Unread p := by
        intro hsunread
        have hpos := hroom.1
        exact hreported _ _ hreturns a rfl s (scanned_subset hsmem) hsunread ⟨hinside.1, by omega⟩
      rw [find_withFresh hread] at hs
      rcases Nat.lt_or_ge s.address r.address with hlt | hge
      · exact hno ⟨s, hsmem, hlt, hread, a, hs⟩
      · rcases Nat.eq_or_lt_of_le hge with heq | hlt
        · have hpos := hroom.1
          have hroom' := hroom.2
          have hsame : r = s := walked_unique (scanned_subset hr) (scanned_subset hsmem) le_rfl
            (by unfold Region.stop; omega) heq.symm.le (by omega)
          exact hread (hsame ▸ hunread)
        · cases hrfind.symm.trans (hpre r (hmem r hr hlt))
  · intro h
    constructor
    · suffices hsome : ∀ fresh fresh' a, Run.Returns (m.find (p.withFresh fresh) pattern) a →
          Run.Returns (m.find (p.withFresh fresh') pattern) a from
        fun fresh fresh' a => ⟨hsome fresh fresh' a, hsome fresh' fresh a⟩
      intro fresh fresh' o hreturns
      obtain ⟨hopens, ho, hends⟩ := find_returns_iff.mp hreturns
      refine find_returns_iff.mpr ⟨hopens, ?_, hends⟩
      cases o with
      | some a => exact (find_some_withFresh hp (h hopens) ho).1 fresh'
      | none =>
        obtain ⟨o, ho'⟩ := exists_find_withFresh (m := m) hp pattern fresh'
        cases o with
        | none => exact ho'
        | some a => cases ho.symm.trans ((find_some_withFresh hp (h hopens) ho').1 fresh)
    · intro fresh o hreturns a ha r hr hunread hin
      obtain ⟨hopens, ho, -⟩ := find_returns_iff.mp hreturns
      cases ha
      obtain ⟨-, s, hs, hread, hlow, hhigh⟩ := find_some_withFresh hp (h hopens) ho
      have hsame := walked_unique hr (scanned_subset hs) hin.1 hin.2 hlow hhigh
      exact hread (hsame ▸ hunread)

/-! ## `find_all` -/

/-- No scanned region whose read fails has room for the pattern. -/
def UnreadWithoutRoom (m : Memory) (p : Process) (pattern : Pattern) : Prop :=
  ∀ r ∈ m.scanned p.layout, r.Unread p → ¬ r.HasRoom pattern

/-- The scans of the regions that can be read end. -/
def ReadScansEnd (m : Memory) (p : Process) (pattern : Pattern) : Prop :=
  ∀ r ∈ m.scanned p.layout, ¬ r.Unread p →
    ∃ as, Run.Returns (fun fuel => r.findAll p pattern fuel) as

theorem findAll_withFresh_eq (hp : p.type = .remoteT) (h : m.UnreadWithoutRoom p pattern)
    (fresh fresh' : ℕ → ℕ → ℕ → UInt8) {r : Region} (hr : r ∈ m.scanned p.layout) (fuel : ℕ) :
    r.findAll (p.withFresh fresh) pattern (fuel + 1) =
      r.findAll (p.withFresh fresh') pattern (fuel + 1) := by
  by_cases hunread : r.Unread p
  · have hnone := findAll_withFresh_of_no_room hp (scanned_stop_lt hr) (h r hr hunread)
    rw [hnone fresh, hnone fresh']
  · rw [findAll_withFresh hunread, findAll_withFresh hunread]

theorem readScansEnd_of_returns {fresh : ℕ → ℕ → ℕ → UInt8} {as : List ℕ}
    (h : Run.Returns (m.findAll (p.withFresh fresh) pattern) as) :
    m.Opens p.layout ∧ m.Ends p.layout ∧ m.ReadScansEnd p pattern := by
  obtain ⟨hopens, hends, hscans⟩ := exists_findAll_iff.mp ⟨as, h⟩
  refine ⟨hopens, hends, fun r hr hread => ?_⟩
  obtain ⟨bs, hbs⟩ := hscans r hr
  exact ⟨bs, by simpa only [findAll_withFresh hread] using hbs⟩

theorem findAll_ignoresUnread (hp : p.type = .remoteT)
    (h : m.Opens p.layout → m.Ends p.layout → m.ReadScansEnd p pattern →
      m.UnreadWithoutRoom p pattern) :
    IgnoresUnread p (m.walked p.layout) (fun q as => Run.Returns (m.findAll q pattern) as) := by
  constructor
  · suffices hsame : ∀ fresh fresh' as, Run.Returns (m.findAll (p.withFresh fresh) pattern) as →
        Run.Returns (m.findAll (p.withFresh fresh') pattern) as from
      fun fresh fresh' as => ⟨hsame fresh fresh' as, hsame fresh' fresh as⟩
    intro fresh fresh' as hreturns
    obtain ⟨hopens, hends, hread⟩ := readScansEnd_of_returns hreturns
    have hnoroom := h hopens hends hread
    obtain ⟨-, -, hscan⟩ := findAll_returns_iff.mp hreturns
    refine findAll_returns_iff.mpr ⟨hopens, hends, (Run.returns_congr 1 fun more => ?_).mp hscan⟩
    apply congrArg
    apply Run.mapM_congr
    intro r hr
    rw [Nat.add_comm]
    exact findAll_withFresh_eq hp hnoroom fresh fresh' hr more
  · intro fresh as hreturns a ha r hr hunread hin
    obtain ⟨hopens, hends, hread⟩ := readScansEnd_of_returns hreturns
    obtain ⟨s, hs, bs, ⟨fuel, hbs⟩, hab⟩ := (mem_iff_reports hreturns).mp ha
    have hroom : s.HasRoom pattern := by
      by_contra hroom
      cases (hbs 1).symm.trans
        (findAll_withFresh_of_no_room hp (scanned_stop_lt hs) hroom fresh fuel)
      cases hab
    have hsread : ¬ s.Unread p := fun hsunread => h hopens hends hread s hs hsunread hroom
    have hpos := hroom.1
    have hinside := (Region.findAll_foundAt hpos (scanned_stop_lt hs) (hbs 0) hab).inside
    have hsame := walked_unique hr (scanned_subset hs) hin.1 hin.2 hinside.1 (by omega)
    exact hsread (hsame ▸ hunread)

theorem unreadWithoutRoom_of_ignores (hp : p.type = .remoteT) (hsmall : pattern.size < 2 ^ 31)
    (h : IgnoresUnread p (m.walked p.layout) (fun q as => Run.Returns (m.findAll q pattern) as))
    (hopens : m.Opens p.layout) (hends : m.Ends p.layout) (hread : m.ReadScansEnd p pattern) :
    m.UnreadWithoutRoom p pattern := by
  intro r hr hunread hroom
  have hscans : ∀ s ∈ m.scanned p.layout, ∃ as,
      Run.Returns (fun fuel => s.findAll (p.withFresh (copies pattern)) pattern fuel) as := by
    intro s hs
    by_cases hsunread : s.Unread p
    · by_cases hsroom : s.HasRoom pattern
      · obtain ⟨as, has, -⟩ := findAll_copies hp (scanned_stop_lt hs) hsunread hsroom hsmall
        exact ⟨as, has⟩
      · exact ⟨[], (Region.findAll_fuelMono _ pattern s).returns
          (findAll_withFresh_of_no_room hp (scanned_stop_lt hs) hsroom (copies pattern) 0)⟩
    · simp only [findAll_withFresh hsunread]
      exact hread s hs hsunread
  obtain ⟨as, has⟩ := (exists_findAll_iff (p := p.withFresh (copies pattern))).mpr
    ⟨hopens, hends, hscans⟩
  obtain ⟨bs, hbs, hab⟩ := findAll_copies hp (scanned_stop_lt hr) hunread hroom hsmall
  have hmem : r.address ∈ as := (mem_iff_reports has).mpr ⟨r, hr, bs, hbs, hab⟩
  have hpos := hroom.1
  have hle := hroom.2
  exact h.2 _ as has _ hmem r (scanned_subset hr) hunread ⟨le_rfl, by unfold Region.stop; omega⟩

end Memory

/-! ## `find_instance_of` -/

namespace FindInstance

/-- What the scan of a region by the lambda finds. -/
def scanOf (p : Process) (object : Object) (region : Region) : Option ℕ :=
  (p.scanFor object region).toOption.join

/-- With some order of its steps, `find_instance_of` returns the result. -/
def MayReturn (object : Object) (compare : Region → Bool) (p : Process) (result : Option ℕ) : Prop :=
  ∃ regionList schedule, Run.Returns (candidates p.layout compare) regionList ∧
    Complete regionList (after regionList (scanOf p object) schedule) ∧
    (after regionList (scanOf p object) schedule).result = result

variable {p : Process} {object : Object} {compare : Region → Bool}

theorem after_congr {regions : List Region} {scan scan' : Region → Option ℕ}
    (h : ∀ r ∈ regions, scan r = scan' r) : after regions scan = after regions scan' := by
  have hstep : step regions scan = step regions scan' := by
    funext s i
    unfold step
    cases hr : regions[i]? with
    | none => rfl
    | some region => simp only [h region (List.mem_of_getElem? hr)]
  funext schedule
  rw [after, after, hstep]

theorem mem_walked {L : Layout} {regionList : List Region}
    (h : Run.Returns (candidates L compare) regionList) {r : Region} (hr : r ∈ regionList) :
    r ∈ wholeSpace.walked L := by
  obtain ⟨n, hn⟩ := h
  rw [candidates_eq (hn 0)] at hr
  exact (List.mem_filter.mp hr).1

theorem pageSize_le_size {L : Layout} {r : Region} (h : r ∈ wholeSpace.walked L) :
    pageSize ≤ r.size := by
  obtain ⟨t, ht, rfl⟩ := List.mem_map.mp h
  obtain ⟨hmem, -, -, hstop⟩ := Memory.seen_spec ht
  have haligned : pageSize ≤ t.size := Nat.le_of_dvd (L.tiles.mem t hmem).2.1 (L.aligned t hmem)
  have haddress : (⟨seen 0 t⟩ : Region).address = t.base := Layout.seen_base hmem (Nat.zero_le _)
  have hend : (⟨seen 0 t⟩ : Region).address + (⟨seen 0 t⟩ : Region).size = t.base + t.size := hstop
  have hsize : (⟨seen 0 t⟩ : Region).size = t.size := by omega
  exact haligned.trans hsize.ge

theorem scanFor_of_scanOf {r : Region} {k : ℕ} (h : scanOf p object r = some k) :
    p.scanFor object r = .ok (some k) := by
  unfold scanOf at h
  cases hscan : p.scanFor object r with
  | error e => rw [hscan] at h; cases h
  | ok o =>
    rw [hscan] at h
    have ho : o = some k := h
    rw [ho]

theorem scanOf_withFresh {r : Region} (h : ¬ r.Unread p) (fresh : ℕ → ℕ → ℕ → UInt8) :
    scanOf (p.withFresh fresh) object r = scanOf p object r := by
  rw [scanOf, Process.scanFor, read_withFresh h, scanOf, Process.scanFor]

theorem exists_other_byte (l : List UInt8) (h : l.length < 256) : ∃ x, x ∉ l := by
  by_contra hall
  have hnodup : ((List.range 256).map UInt8.ofNat).Nodup := by
    rw [List.Nodup, List.pairwise_map]
    apply List.nodup_range.imp_of_mem
    intro i j hi hj hne he
    rw [List.mem_range] at hi hj
    have hnat := congrArg UInt8.toNat he
    rw [UInt8.toNat_ofNat_of_lt' hi, UInt8.toNat_ofNat_of_lt' hj] at hnat
    exact hne hnat
  have hsub : (List.range 256).map UInt8.ofNat ⊆ l := fun x _ => by
    by_contra hx
    exact hall ⟨x, hx⟩
  have hle := hnodup.length_le_of_subset hsub
  rw [List.length_map, List.length_range] at hle
  omega

/-- Contents with a copy of the vtable behind eight other bytes. -/
def behind (object : Object) (x : UInt8) : ℕ → ℕ → ℕ → UInt8 := fun _ _ i =>
  if i < 8 then x else ((Pattern.ofInt 8 object.vtable).bytes[i - 8]?).getD 0

theorem scanOf_behind (hp : p.type = .remoteT) {r : Region} (hstop : r.stop < 2 ^ 63)
    (hunread : r.Unread p) (hsize : 16 ≤ r.size) {x : UInt8}
    (hx : x ∉ (Pattern.ofInt 8 object.vtable).bytes) :
    scanOf (p.withFresh (behind object x)) object r = some 8 := by
  obtain ⟨buffer, hread, hbytes⟩ := unread_buffer hp hstop hunread (behind object x)
  have hlen : buffer.size = r.size := Process.read_length _ hread
  have hvtable : (Pattern.ofInt 8 object.vtable).size = 8 := Pattern.ofInt_size ..
  have hfind : Scanner.find (.ofInt 8 object.vtable) buffer .tbm = .ok (some 8) := by
    rw [← hvtable]
    apply Scanner.find_tbm_behind _ _ (by rw [hvtable]; decide)
      (Pattern.ofInt_strict 8 object.vtable) hx
    · omega
    · intro i hi
      rw [hvtable] at hi
      rw [hbytes]
      simp [show i < r.size by omega, behind, hi]
    · intro i hi
      rw [hvtable] at hi ⊢
      obtain ⟨b, hb⟩ := (Pattern.ofInt 8 object.vtable).exists_byte (i := i) (by rw [hvtable]; exact hi)
      rw [hbytes, hb]
      simp [show 8 + i < r.size by omega, behind, hb]
  rw [scanOf, Process.scanFor, hread, Run.ok_bind, hfind]
  rfl

theorem mayReturn_ignoresUnread_iff (hp : p.type = .remoteT) (object : Object)
    (compare : Region → Bool) :
    IgnoresUnread p (wholeSpace.walked p.layout) (fun q o => MayReturn object compare q o) ↔
      ∀ regionList, Run.Returns (candidates p.layout compare) regionList →
        ∀ r ∈ regionList, ¬ r.Unread p := by
  constructor
  · rintro ⟨-, hreported⟩ regionList hlist r hr hunread
    obtain ⟨x, hx⟩ := exists_other_byte (Pattern.ofInt 8 object.vtable).bytes (by
      rw [Pattern.bytes_length, Pattern.ofInt_size]
      decide)
    have hwalked : r ∈ wholeSpace.walked p.layout := mem_walked hlist hr
    have hsize : 16 ≤ r.size := le_trans (by decide) (pageSize_le_size hwalked)
    have hstop := Memory.walked_stop_lt hwalked
    have hscan : scanOf (p.withFresh (behind object x)) object r = some 8 :=
      scanOf_behind hp hstop hunread hsize hx
    have hmatch : matchOf (scanOf (p.withFresh (behind object x)) object) r = some (r.address + 8) := by
      unfold Region.stop at hstop
      rw [matchOf, hscan, Option.map_some, Nat.mod_eq_of_lt (by omega)]
    obtain ⟨schedule, hc, haddress⟩ := exists_last_store hr hmatch
    refine hreported (behind object x) (some (r.address + 8)) ⟨regionList, schedule, hlist, hc, ?_⟩ _ rfl
      r hwalked hunread ⟨by omega, by unfold Region.stop; omega⟩
    exact State.result_eq_some_iff.mpr ⟨haddress, by omega⟩
  · intro h
    constructor
    · suffices hsame : ∀ fresh fresh' result, MayReturn object compare (p.withFresh fresh) result →
          MayReturn object compare (p.withFresh fresh') result from
        fun fresh fresh' result => ⟨hsame fresh fresh' result, hsame fresh' fresh result⟩
      rintro fresh fresh' result ⟨regionList, schedule, hlist, hc, hresult⟩
      have hafter : after regionList (scanOf (p.withFresh fresh) object) =
          after regionList (scanOf (p.withFresh fresh') object) := by
        apply after_congr
        intro r hr
        rw [scanOf_withFresh (h regionList hlist r hr), scanOf_withFresh (h regionList hlist r hr)]
      rw [hafter] at hc hresult
      exact ⟨regionList, schedule, hlist, hc, hresult⟩
    · rintro fresh result ⟨regionList, schedule, hlist, hc, hresult⟩ a ha r hr hunread hin
      cases ha
      obtain ⟨haddress, hne⟩ := State.result_eq_some_iff.mp hresult
      have hinv : Inv regionList (scanOf (p.withFresh fresh) object) _ := Inv.after schedule
      obtain ⟨s, hs, hmatch⟩ := hinv.address.resolve_left (by omega)
      obtain ⟨k, hk, he⟩ := Option.map_eq_some_iff.mp hmatch
      have hin' := match_inside (mem_walked hlist hs) (scanFor_of_scanOf hk)
      have hsame := Memory.walked_unique hr (mem_walked hlist hs) hin.1 hin.2 (by omega) (by omega)
      exact h regionList hlist r (hsame ▸ hs) hunread

end FindInstance

/-! ## All three searches -/

/-- `find` ignores the regions that could not be read exactly when each of them that has room for
the pattern lies behind a match, `find_all` exactly when none of them has room for the pattern
(unless it does not return at all), and `find_instance_of` exactly when it has only candidates that
can be read. -/
theorem ignoresUnread_iff (p : Process) (hp : p.type = .remoteT) (m : Memory) (pattern : Pattern)
    (object : Object) (compare : Region → Bool) :
    (IgnoresUnread p (m.walked p.layout) (fun q o => Run.Returns (m.find q pattern) o) ↔
      (m.Opens p.layout → m.FindsBeforeUnread p pattern)) ∧
    ((m.Opens p.layout → m.Ends p.layout → m.ReadScansEnd p pattern →
        m.UnreadWithoutRoom p pattern) →
      IgnoresUnread p (m.walked p.layout) (fun q as => Run.Returns (m.findAll q pattern) as)) ∧
    (pattern.size < 2 ^ 31 →
      IgnoresUnread p (m.walked p.layout) (fun q as => Run.Returns (m.findAll q pattern) as) →
      m.Opens p.layout → m.Ends p.layout → m.ReadScansEnd p pattern →
        m.UnreadWithoutRoom p pattern) ∧
    (IgnoresUnread p (FindInstance.wholeSpace.walked p.layout)
        (fun q o => FindInstance.MayReturn object compare q o) ↔
      ∀ regionList, Run.Returns (candidates p.layout compare) regionList →
        ∀ r ∈ regionList, ¬ r.Unread p) :=
  ⟨Memory.find_ignoresUnread_iff hp m pattern, Memory.findAll_ignoresUnread hp,
    Memory.unreadWithoutRoom_of_ignores hp, FindInstance.mayReturn_ignoresUnread_iff hp object compare⟩

/-- A process of two heaps that cannot be read. -/
def sampleUnread : Process := { FindInstance.sampleHeapProcess with readable := fun _ _ => false }

/-- `find` in the first heap returns what stands in the fresh buffer. -/
theorem not_ignoresUnread_heap :
    ¬ ∀ (p : Process) (m : Memory) (pattern : Pattern) (object : Object)
      (compare : Region → Bool), p.type = .remoteT →
      IgnoresUnread p (m.walked p.layout) (fun q o => Run.Returns (m.find q pattern) o) ∧
      IgnoresUnread p (m.walked p.layout) (fun q as => Run.Returns (m.findAll q pattern) as) ∧
      IgnoresUnread p (FindInstance.wholeSpace.walked p.layout)
        (fun q o => FindInstance.MayReturn object compare q o) := by
  intro hall
  have hignores := (hall sampleUnread Memory.sampleRegion (ones 4) FindInstance.sampleInstance
    (fun _ => true) rfl).1
  rw [Memory.find_ignoresUnread_iff rfl] at hignores
  have hscanned : ∃ r ∈ Memory.sampleRegion.scanned sampleUnread.layout,
      r.address = 0x1000 ∧ r.size = 0x2000 := by decide
  obtain ⟨r, hr, haddress, hsize⟩ := hscanned
  obtain ⟨r', hr', hlt, -⟩ := hignores (by decide) r hr rfl ⟨by decide, by rw [hsize]; decide⟩
  have hlow : ∀ r' ∈ Memory.sampleRegion.scanned sampleUnread.layout, 0x1000 ≤ r'.address := by decide
  have := hlow r' hr'
  omega

/-- A process of which the first of three heaps can be read; it holds a match. -/
def sampleReadFirst : Process :=
  { Memory.cutProcess 0x1800 with readable := fun address _ => address == 0x1000 }

theorem sampleReadFirst_scanned {r : Region} (hr : r ∈ Memory.cutObject.scanned Memory.cutLayout) :
    r.stop < 2 ^ 63 ∧ r.size < 2 ^ 31 ∧ (r.address = 0x1000 ∨ 0x1000 < r.address) :=
  (by decide : ∀ r ∈ Memory.cutObject.scanned Memory.cutLayout,
    r.stop < 2 ^ 63 ∧ r.size < 2 ^ 31 ∧ (r.address = 0x1000 ∨ 0x1000 < r.address)) r hr

theorem sampleReadFirst_finds : Memory.cutObject.FindsBeforeUnread sampleReadFirst (ones 4) := by
  have hfirst : ∃ r ∈ Memory.cutObject.scanned Memory.cutLayout, r.address = 0x1000 ∧
      r.address ≤ 0x1800 ∧ 0x1800 + 4 ≤ r.stop := by decide
  obtain ⟨r', hr', haddress, hge, hle⟩ := hfirst
  have hread : sampleReadFirst.readable r'.address r'.size = true := by
    rw [haddress]
    rfl
  have hmarked : (Memory.cutProcess 0x1800).HoldsAt (ones 4) 0x1800 :=
    (marked_holdsAt_iff (by decide)).mpr rfl
  have hholds : r'.Holds sampleReadFirst (ones 4) 0x1800 := ⟨hge, hle, hmarked⟩
  obtain ⟨o, ho, hleast⟩ := Region.find_isFirst (by decide : 0 < (ones 4).size) ones_strict
    (sampleReadFirst_scanned hr').1 hread
  intro r hr hunread _
  refine ⟨r', hr', ?_, by rw [Region.Unread, hread]; decide, ?_⟩
  · rcases (sampleReadFirst_scanned hr).2.2 with h | h
    · rw [Region.Unread, h] at hunread
      cases hunread
    · omega
  · cases o with
    | none => exact absurd hholds (hleast 0x1800)
    | some a => exact ⟨a, ho⟩

/-- The match stands before the heap that cannot be read. `find` stops there and `find_all` does not,
and `find_instance_of` is asked for the first heap only. -/
theorem ignoresUnread_iff_first :
    IgnoresUnread sampleReadFirst (Memory.cutObject.walked Memory.cutLayout)
        (fun q o => Run.Returns (Memory.cutObject.find q (ones 4)) o) ∧
      ¬ IgnoresUnread sampleReadFirst (Memory.cutObject.walked Memory.cutLayout)
        (fun q as => Run.Returns (Memory.cutObject.findAll q (ones 4)) as) ∧
      IgnoresUnread sampleReadFirst (FindInstance.wholeSpace.walked Memory.cutLayout)
        (fun q o => FindInstance.MayReturn FindInstance.sampleInstance (fun r => r.address == 0x1000)
          q o) := by
  obtain ⟨hfind, -, hroom, hinstance⟩ := ignoresUnread_iff sampleReadFirst rfl Memory.cutObject
    (ones 4) FindInstance.sampleInstance fun r => r.address == 0x1000
  refine ⟨hfind.mpr fun _ => sampleReadFirst_finds, fun hall => ?_, hinstance.mpr ?_⟩
  · have hsecond : ∃ r ∈ Memory.cutObject.scanned Memory.cutLayout, r.address = 0x2000 ∧
        4 ≤ r.size := by decide
    obtain ⟨r, hr, haddress, hsize⟩ := hsecond
    refine hroom (by decide) hall (by decide) (by decide) (fun r hr hread => ?_) r hr ?_
      ⟨by decide, hsize⟩
    · obtain ⟨hstop, hsmall, -⟩ := sampleReadFirst_scanned hr
      obtain ⟨as, has, -⟩ := Region.findAll_greedy (by decide : 0 < (ones 4).size) ones_strict hstop
        (Bool.of_not_eq_false hread) hsmall
      exact ⟨as, has⟩
    · rw [Region.Unread, haddress]
      rfl
  · rintro regionList ⟨fuel, hlist⟩ r hr hunread
    rw [FindInstance.candidates_eq (hlist 0)] at hr
    have hone : ∀ r ∈ (FindInstance.wholeSpace.walked Memory.cutLayout).filter
        (isCandidate fun r => r.address == 0x1000), r.address = 0x1000 := by decide
    rw [Region.Unread, hone r hr] at hunread
    cases hunread

end Wincpp
