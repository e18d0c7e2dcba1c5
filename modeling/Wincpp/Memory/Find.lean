import Wincpp.Memory.Memory

/-! What the searches of a memory object return.

* `Region.find`, `Region.findAll`: the scan of one region, and the addresses at which a pattern stands
  inside a region (`Region.Holds`).
* `find_returns_iff`, `findAll_returns_iff`: a search opens the walk, scans the regions of `scanned`
  one after the other and, unless it has found something, must also come to an end.
-/
namespace Wincpp
open Search
set_option autoImplicit false

/-! ## One region -/

/-- The bytes of the process at `a` match the pattern. -/
def Process.HoldsAt (p : Process) (pattern : Pattern) (a : ℕ) : Prop :=
  ∀ i b, pattern.word[i]? = some (some b) → p.bytes (a + i) = b

theorem Process.occursAt_slice {p : Process} {pattern : Pattern} {address size k : ℕ}
    (h : address + size < 2 ^ 64) :
    OccursAt pattern.word (p.slice address size) k ↔
      k + pattern.size ≤ size ∧ p.HoldsAt pattern (address + k) := by
  unfold OccursAt HoldsAt
  rw [slice_length, pattern.word_length]
  refine and_congr_right fun hk => forall_congr' fun i => forall_congr' fun b => ?_
  apply imp_congr_right
  intro hb
  have hi : i < pattern.size := by
    rw [← pattern.word_length]
    exact (List.getElem?_eq_some_iff.mp hb).1
  rw [p.slice_getElem? (by omega), ← Nat.add_assoc, Nat.mod_eq_of_lt (by omega), Option.some_inj]

theorem Process.holdsAt_ofBytes_iff {p : Process} {bs : List UInt8} {a : ℕ}
    (h : a + bs.length ≤ 2 ^ 64) : p.HoldsAt (.ofBytes bs) a ↔ p.slice a bs.length = bs := by
  unfold HoldsAt
  rw [Pattern.ofBytes_word]
  have hbyte : ∀ i, i < bs.length → (p.slice a bs.length)[i]? = some (p.bytes (a + i)) := by
    intro i hi
    rw [p.slice_getElem? hi, Nat.mod_eq_of_lt (by omega)]
  refine ⟨fun hh => List.ext_getElem? fun i => ?_, fun hh i b hb => ?_⟩
  · by_cases hi : i < bs.length
    · rw [hbyte i hi, hh i bs[i] (by simp [hi]), List.getElem?_eq_getElem hi]
    · rw [List.getElem?_eq_none (by simp; omega), List.getElem?_eq_none (by omega)]
  · have hi : i < bs.length := by
      have := (List.getElem?_eq_some_iff.mp hb).1
      simpa using this
    have hi' := hbyte i hi
    rw [hh] at hi'
    rw [List.getElem?_map, hi', Option.map_some, Option.some_inj, Option.some_inj] at hb
    exact hb

namespace Region

/-- The pattern stands at `a` and lies inside the region. -/
def Holds (p : Process) (pattern : Pattern) (r : Region) (a : ℕ) : Prop :=
  r.address ≤ a ∧ a + pattern.size ≤ r.stop ∧ p.HoldsAt pattern a

/-- What `memory_t::find` does with a region. -/
def find (p : Process) (pattern : Pattern) (r : Region) : Run (Option ℕ) := do
  let bytes ← p.read r.address r.size
  return (← Scanner.find pattern bytes .bmh).map fun result => (r.address + result) % 2 ^ 64

/-- What `memory_t::find_all` does with a region. -/
def findAll (p : Process) (pattern : Pattern) (fuel : ℕ) (r : Region) : Run (List ℕ) := do
  let bytes ← p.read r.address r.size
  return (← Scanner.findAll pattern bytes .bmh fuel).map fun result => (r.address + result) % 2 ^ 64

variable {p : Process} {pattern : Pattern} {r : Region} {a : ℕ}

theorem holds_iff (hstop : r.stop < 2 ^ 63) (k : ℕ) :
    OccursAt pattern.word (p.slice r.address r.size) k ↔ r.Holds p pattern (r.address + k) := by
  unfold stop at hstop
  rw [Process.occursAt_slice (by omega)]
  unfold Holds stop
  refine ⟨fun h => ⟨by omega, by omega, h.2⟩, fun h => ⟨by omega, h.2.2⟩⟩

/-- The pattern stands at the address in what a read of the region returns, whether the region can be
read or not. -/
def FoundAt (p : Process) (pattern : Pattern) (r : Region) (a : ℕ) : Prop :=
  ∃ buffer k, p.read r.address r.size = .ok buffer ∧ OccursAt pattern.word buffer.bytes k ∧
    a = r.address + k ∧ k + pattern.size ≤ r.size

theorem FoundAt.inside (h : r.FoundAt p pattern a) : r.address ≤ a ∧ a + pattern.size ≤ r.stop := by
  obtain ⟨buffer, k, -, -, rfl, hk⟩ := h
  unfold stop
  omega

theorem foundAt_iff {buffer : Span} (hread : p.read r.address r.size = .ok buffer) (k : ℕ) :
    r.FoundAt p pattern (r.address + k) ↔ OccursAt pattern.word buffer.bytes k := by
  constructor
  · rintro ⟨buffer', k', hread', hocc, hk, -⟩
    cases hread.symm.trans hread'
    rwa [Nat.add_left_cancel hk]
  · intro hocc
    have hlen := hocc.1
    have hbuffer : buffer.bytes.length = r.size := p.read_length hread
    rw [pattern.word_length, hbuffer] at hlen
    exact ⟨buffer, k, hread, hocc, rfl, hlen⟩

theorem foundAt_iff_holds (hstop : r.stop < 2 ^ 63) (hread : p.readable r.address r.size = true) :
    r.FoundAt p pattern a ↔ r.Holds p pattern a := by
  have hlt : r.size < 2 ^ 63 := by
    unfold stop at hstop
    omega
  obtain ⟨buffer, hbuffer, hbytes⟩ := p.read_of_readable hlt hread
  rcases Nat.lt_or_ge a r.address with hlt | hge
  · exact iff_of_false (fun h => absurd h.inside.1 hlt.not_ge) fun h => absurd h.1 hlt.not_ge
  · obtain ⟨k, rfl⟩ := Nat.exists_eq_add_of_le hge
    rw [foundAt_iff hbuffer, hbytes, holds_iff hstop]

theorem find_foundAt (hsize : 0 < pattern.size) (hstop : r.stop < 2 ^ 63)
    (h : r.find p pattern = .ok (some a)) : r.FoundAt p pattern a := by
  obtain ⟨buffer, hread, h⟩ := Run.bind_eq_ok h
  obtain ⟨o, ho, h⟩ := Run.bind_eq_ok h
  obtain ⟨k, rfl, hk⟩ := Option.map_eq_some_iff.mp (Except.ok.inj h)
  have hocc := Scanner.find_bmh_sound pattern buffer hsize ho
  have hlen := hocc.1
  have hbuffer : buffer.bytes.length = r.size := p.read_length hread
  rw [pattern.word_length, hbuffer] at hlen
  unfold stop at hstop
  rw [Nat.mod_eq_of_lt (by omega)] at hk
  exact ⟨buffer, k, hread, hocc, hk.symm, hlen⟩

theorem findAll_foundAt (hsize : 0 < pattern.size) (hstop : r.stop < 2 ^ 63) {fuel : ℕ}
    {rs : List ℕ} (h : r.findAll p pattern fuel = .ok rs) (ha : a ∈ rs) : r.FoundAt p pattern a := by
  obtain ⟨buffer, hread, h⟩ := Run.bind_eq_ok h
  obtain ⟨ks, hks, h⟩ := Run.bind_eq_ok h
  cases h
  obtain ⟨k, hk, rfl⟩ := List.mem_map.mp ha
  have hocc := Scanner.findAll_bmh_sound pattern buffer hsize hks k hk
  have hlen := hocc.1
  have hbuffer : buffer.bytes.length = r.size := p.read_length hread
  rw [pattern.word_length, hbuffer] at hlen
  unfold stop at hstop
  exact ⟨buffer, k, hread, hocc, Nat.mod_eq_of_lt (by omega), hlen⟩

/-- The scan of a region returns the first place of a strict pattern in what was read. -/
theorem find_of_read {buffer : Span} (hsize : 0 < pattern.size) (hstrict : pattern.Strict)
    (hstop : r.stop < 2 ^ 63) (hread : p.read r.address r.size = .ok buffer) :
    ∃ o, r.find p pattern = .ok o ∧ IsFirst (r.FoundAt p pattern) o := by
  obtain ⟨o, ho, hfirst⟩ := (Scanner.findsFirst_iff_indexesFirst pattern buffer .bmh).mpr
    (Scanner.indexesFirst_bmh_of_openShadowed pattern buffer hsize (Scanner.openShadowed_of_strict hstrict))
  refine ⟨o.map fun k => (r.address + k) % 2 ^ 64, ?_, ?_⟩
  · rw [find, hread, Run.ok_bind, ho]
    rfl
  · cases o with
    | none =>
      intro a ha
      obtain ⟨k, rfl⟩ := Nat.exists_eq_add_of_le ha.inside.1
      exact hfirst k ((foundAt_iff hread k).mp ha)
    | some k =>
      have hk := (foundAt_iff hread k).mpr hfirst.1
      have hinside := hk.inside.2
      rw [Option.map_some, Nat.mod_eq_of_lt (by omega)]
      refine ⟨hk, fun a ha => ?_⟩
      obtain ⟨j, rfl⟩ := Nat.exists_eq_add_of_le ha.inside.1
      exact Nat.add_le_add_left (hfirst.2 ((foundAt_iff hread j).mp ha)) r.address

theorem find_isFirst_foundAt (hsize : 0 < pattern.size) (hstrict : pattern.Strict)
    (hstop : r.stop < 2 ^ 63) {o : Option ℕ} (h : r.find p pattern = .ok o) :
    IsFirst (r.FoundAt p pattern) o := by
  obtain ⟨buffer, hread, -⟩ := Run.bind_eq_ok h
  obtain ⟨o', ho', hfirst⟩ := find_of_read hsize hstrict hstop hread
  cases ho'.symm.trans h
  exact hfirst

theorem find_isFirst (hsize : 0 < pattern.size) (hstrict : pattern.Strict) (hstop : r.stop < 2 ^ 63)
    (hread : p.readable r.address r.size = true) :
    ∃ o, r.find p pattern = .ok o ∧ IsFirst (r.Holds p pattern) o := by
  have hlt : r.size < 2 ^ 63 := by
    unfold stop at hstop
    omega
  obtain ⟨buffer, hbuffer, -⟩ := p.read_of_readable hlt hread
  obtain ⟨o, ho, hfirst⟩ := find_of_read hsize hstrict hstop hbuffer
  exact ⟨o, ho, hfirst.congr fun a => foundAt_iff_holds hstop hread⟩

/-- In a readable region of fewer than `2 ^ 31` bytes, all places of a strict pattern are found, as
far as they do not overlap. -/
theorem findAll_greedy (hsize : 0 < pattern.size) (hstrict : pattern.Strict)
    (hstop : r.stop < 2 ^ 63) (hread : p.readable r.address r.size = true)
    (hsmall : r.size < 2 ^ 31) :
    ∃ as, Run.Returns (fun fuel => r.findAll p pattern fuel) as ∧
      Greedy (r.Holds p pattern) pattern.size r.address as := by
  obtain ⟨buffer, hbuffer, hbytes⟩ := p.read_of_readable (by omega) hread
  have hlen : buffer.size = r.size := p.read_length hbuffer
  obtain ⟨ks, hks, hgreedy⟩ := Scanner.findAll_greedy pattern buffer hsize
    (fun sub => Scanner.indexesFirst_bmh_of_openShadowed pattern sub hsize
      (Scanner.openShadowed_of_strict hstrict)) (by omega)
  rw [hbytes] at hgreedy
  have hmap : ks.map (fun k => (r.address + k) % 2 ^ 64) = ks.map fun k => r.address + k := by
    apply List.map_congr_left
    intro k hk
    have hholds := (holds_iff hstop k).mp (hgreedy.mem k hk).2
    have hinside := hholds.2.1
    unfold stop at hinside hstop
    exact Nat.mod_eq_of_lt (by omega)
  refine ⟨ks.map fun k => r.address + k, ⟨buffer.size + 1, fun more => ?_⟩,
    hgreedy.map_add fun k => (holds_iff hstop k).symm⟩
  change r.findAll p pattern (buffer.size + 1 + more) = _
  rw [← hmap, findAll, hbuffer, Run.ok_bind, hks _ (by omega)]
  rfl

theorem findAll_fuelMono (p : Process) (pattern : Pattern) (r : Region) :
    Run.FuelMono fun fuel => r.findAll p pattern fuel := fun i j hle =>
  Run.Below.bind (Run.Below.refl _) fun bytes =>
    Run.Below.bind (Scanner.findAll_fuelMono pattern bytes .bmh i j hle) fun _ => Run.Below.refl _

end Region

/-! ## All scanned regions -/

namespace Memory
variable {m : Memory} {p : Process} {pattern : Pattern}

theorem findBody_of_valid {r : Region} (h : m.isValidRegion r = true) (found : Option ℕ) :
    m.findBody p pattern r found = (r.find p pattern >>= fun o =>
      match o with
      | some a => .ok (.done (some a))
      | none => .ok (.yield none)) := by
  rw [findBody, if_neg (by simp [h]), Region.find]
  cases p.read r.address r.size with
  | error e => rfl
  | ok buffer =>
    simp only [Run.ok_bind]
    cases Scanner.find pattern buffer .bmh with
    | error e => rfl
    | ok o => cases o <;> rfl

theorem findBody_of_invalid (r : Region) (found : Option ℕ) (h : m.isValidRegion r = false) :
    m.findBody p pattern r found = .ok (.done found) := by
  rw [findBody, if_pos (by simp [h])]
  rfl

theorem findAllBody_of_valid {r : Region} (h : m.isValidRegion r = true) (fuel : ℕ)
    (results : List ℕ) :
    m.findAllBody p pattern fuel r results =
      (r.findAll p pattern fuel >>= fun as => .ok (.yield (results ++ as))) := by
  rw [findAllBody, if_neg (by simp [h]), Region.findAll]
  cases p.read r.address r.size with
  | error e => rfl
  | ok buffer =>
    simp only [Run.ok_bind]
    cases Scanner.findAll pattern buffer .bmh fuel <;> rfl

theorem findAllBody_of_invalid (fuel : ℕ) (r : Region) (results : List ℕ)
    (h : m.isValidRegion r = false) :
    m.findAllBody p pattern fuel r results = .ok (.done results) := by
  rw [findAllBody, if_pos (by simp [h])]
  rfl

variable (p pattern) in
theorem foldRegions_findBody {rs : List Region} (h : ∀ r ∈ rs, m.isValidRegion r = true) :
    foldRegions (m.findBody p pattern) rs none = (rs.findSomeM? (·.find p pattern) >>= fun o =>
      match o with
      | some a => .ok (.done (some a))
      | none => .ok (.yield none)) := by
  induction rs with
  | nil => rfl
  | cons r rs ih =>
    rw [foldRegions, findBody_of_valid (h r (by simp)), List.findSomeM?_cons]
    cases r.find p pattern with
    | error e => rfl
    | ok o =>
      cases o with
      | some a => rfl
      | none => exact ih fun s hs => h s (by simp [hs])

variable (p pattern) in
theorem foldRegions_findAllBody {rs : List Region} (h : ∀ r ∈ rs, m.isValidRegion r = true)
    (fuel : ℕ) (results : List ℕ) :
    foldRegions (m.findAllBody p pattern fuel) rs results =
      ((List.flatten <$> rs.mapM (·.findAll p pattern fuel)) >>= fun as =>
        .ok (.yield (results ++ as))) := by
  induction rs generalizing results with
  | nil => simp [foldRegions]
  | cons r rs ih =>
    rw [foldRegions, findAllBody_of_valid (h r (by simp)), List.mapM_cons]
    cases r.findAll p pattern fuel with
    | error e => rfl
    | ok as =>
      simp only [Run.ok_bind]
      rw [ih fun s hs => h s (by simp [hs])]
      cases rs.mapM (·.findAll p pattern fuel) with
      | error e => rfl
      | ok ass => simp

theorem not_ends_iff {L : Layout} :
    ¬ m.Ends L ↔ m.size ≠ 0 ∧ m.stop ≠ sentinel ∧ ∀ r ∈ m.walked L, m.isValidRegion r = true := by
  simp [Ends]

theorem find_of_ends (hopens : m.Opens p.layout) (hends : m.Ends p.layout) (fuel : ℕ) :
    m.find p pattern ((m.walked p.layout).length + 1 + fuel) =
      (m.scanned p.layout).findSomeM? (·.find p pattern) := by
  rw [find, forIn_of_ends hopens hends findBody_of_invalid,
    foldRegions_findBody p pattern fun r hr => valid_of_scanned hr]
  cases (m.scanned p.layout).findSomeM? (·.find p pattern) with
  | error e => rfl
  | ok o => cases o <;> rfl

variable (pattern) in
/-- A walk that does not end by itself ends only with a result. -/
theorem find_of_not_ends (hopens : m.Opens p.layout) (hends : ¬ m.Ends p.layout) :
    (∀ a, (m.scanned p.layout).findSomeM? (·.find p pattern) = .ok (some a) →
      ∀ fuel, m.find p pattern ((m.walked p.layout).length + fuel) = .ok (some a)) ∧
    ((∀ a, (m.scanned p.layout).findSomeM? (·.find p pattern) ≠ .ok (some a)) →
      ∀ fuel o, m.find p pattern ((m.walked p.layout).length + fuel) ≠ .ok o) := by
  obtain ⟨hsize, hstop, hall⟩ := not_ends_iff.mp hends
  obtain ⟨last, u, hu, hsent, hmem, hrun⟩ :=
    forIn_of_valid (m.findBody p pattern) hopens hsize hall
  have hfold := foldRegions_findBody p pattern
    (fun r (hr : r ∈ m.scanned p.layout) => valid_of_scanned hr)
  refine ⟨fun a ha fuel => ?_, fun hno fuel o => ?_⟩
  · rw [find, hrun, hfold, ha]
    rfl
  · rw [find, hrun, hfold]
    cases hscan : (m.scanned p.layout).findSomeM? (·.find p pattern) with
    | error e => simp
    | ok o' =>
      cases o' with
      | some a => exact absurd hscan (hno a)
      | none =>
        refine forRegions_stale_ne_ok hu hsent hstop (fun s s' => ?_) fuel none o
        rw [findBody_of_valid (valid_of_scanned hmem), Run.findSomeM?_eq_none hscan _ hmem]
        simp

/-- What `find` returns: the result of the first scanned region that has one, or `nullopt` when no
scanned region has one and the walk ends. -/
theorem find_returns_iff {o : Option ℕ} :
    Run.Returns (m.find p pattern) o ↔ m.Opens p.layout ∧
      (m.scanned p.layout).findSomeM? (·.find p pattern) = .ok o ∧
      (o = none → m.Ends p.layout) := by
  by_cases hopens : m.Opens p.layout
  · by_cases hends : m.Ends p.layout
    · rw [Run.returns_iff_of_eq _ (find_of_ends hopens hends)]
      simp [hopens, hends]
    · obtain ⟨hsome, hnone⟩ := find_of_not_ends pattern hopens hends
      by_cases hex : ∃ a, (m.scanned p.layout).findSomeM? (·.find p pattern) = .ok (some a)
      · obtain ⟨a, ha⟩ := hex
        rw [Run.returns_iff_of_eq _ (hsome a ha), ha]
        refine ⟨fun h => ⟨hopens, h, fun hn => ?_⟩, fun h => h.2.1⟩
        cases hn.symm.trans (Except.ok.inj h).symm
      · refine ⟨fun h => ?_, fun h => ?_⟩
        · exact absurd h (Run.not_returns _ fun more => hnone (fun a ha => hex ⟨a, ha⟩) more o)
        · cases o with
          | none => exact absurd (h.2.2 rfl) hends
          | some a => exact absurd ⟨a, h.2.1⟩ hex
  · refine ⟨fun ⟨fuel, h⟩ => ?_, fun h => absurd h.1 hopens⟩
    have h := h 0
    rw [find, forIn_of_not_opens hopens] at h
    cases h

/-- What `find_all` returns: the results in all scanned regions one after the other, when the walk
ends. -/
theorem findAll_returns_iff {as : List ℕ} :
    Run.Returns (m.findAll p pattern) as ↔ m.Opens p.layout ∧ m.Ends p.layout ∧
      Run.Returns (fun fuel => List.flatten <$> (m.scanned p.layout).mapM (·.findAll p pattern fuel))
        as := by
  by_cases hopens : m.Opens p.layout
  swap
  · refine ⟨fun ⟨fuel, h⟩ => ?_, fun h => absurd h.1 hopens⟩
    have h := h 0
    rw [findAll, forIn_of_not_opens hopens] at h
    cases h
  have hfold := fun fuel => foldRegions_findAllBody p pattern
    (fun r (hr : r ∈ m.scanned p.layout) => valid_of_scanned hr) fuel []
  by_cases hends : m.Ends p.layout
  · have hrun : ∀ fuel, m.findAll p pattern ((m.walked p.layout).length + 1 + fuel) =
        List.flatten <$> (m.scanned p.layout).mapM
          (·.findAll p pattern ((m.walked p.layout).length + 1 + fuel)) := by
      intro fuel
      rw [findAll, forIn_of_ends hopens hends (findAllBody_of_invalid _), hfold]
      cases (m.scanned p.layout).mapM
        (·.findAll p pattern ((m.walked p.layout).length + 1 + fuel)) <;> rfl
    have hcongr : Run.Returns (m.findAll p pattern) as ↔
        Run.Returns (fun fuel => List.flatten <$>
          (m.scanned p.layout).mapM (·.findAll p pattern fuel)) as := Run.returns_congr _ hrun
    simp [hopens, hends, hcongr]
  · refine ⟨fun h => ?_, fun h => absurd h.2.1 hends⟩
    obtain ⟨hsize, hstop, hall⟩ := not_ends_iff.mp hends
    refine absurd h (Run.not_returns ((m.walked p.layout).length) fun more => ?_)
    obtain ⟨last, u, hu, hsent, hmem, hrun⟩ := forIn_of_valid (m.findAllBody p pattern _)
      hopens hsize hall
    rw [findAll, hrun, hfold]
    cases (m.scanned p.layout).mapM (·.findAll p pattern ((m.walked p.layout).length + more)) with
    | error e => simp
    | ok ass =>
      refine forRegions_stale_ne_ok hu hsent hstop (fun s s' => ?_) more _ as
      rw [findAllBody_of_valid (valid_of_scanned hmem)]
      cases Region.findAll p pattern ((m.walked p.layout).length + more) ⟨seen m.address u⟩ <;> simp

/-- `find_all` reports the address, in one of the scanned regions. -/
def Reports (m : Memory) (p : Process) (pattern : Pattern) (a : ℕ) : Prop :=
  ∃ r ∈ m.scanned p.layout, ∃ as, Run.Returns (fun fuel => r.findAll p pattern fuel) as ∧ a ∈ as

theorem mem_iff_reports {as : List ℕ} (h : Run.Returns (m.findAll p pattern) as) {a : ℕ} :
    a ∈ as ↔ m.Reports p pattern a := by
  obtain ⟨-, -, fuel, hscan⟩ := findAll_returns_iff.mp h
  have hscan := hscan 0
  rw [Run.mem_flatten_mapM hscan]
  refine ⟨fun ⟨r, hr, rs, hrs, ha⟩ => ⟨r, hr, rs, (r.findAll_fuelMono p pattern).returns hrs, ha⟩,
    fun ⟨r, hr, rs, hrs, ha⟩ => ?_⟩
  obtain ⟨ass, hass, -⟩ := Run.map_eq_ok hscan
  obtain ⟨cs, -, hcs⟩ := Run.mem_mapM hass hr
  rw [hrs.unique ((r.findAll_fuelMono p pattern).returns hcs)] at ha
  exact ⟨r, hr, cs, hcs, ha⟩

theorem exists_findAll_iff :
    (∃ as, Run.Returns (m.findAll p pattern) as) ↔ m.Opens p.layout ∧ m.Ends p.layout ∧
      ∀ r ∈ m.scanned p.layout, ∃ as, Run.Returns (fun fuel => r.findAll p pattern fuel) as := by
  simp only [findAll_returns_iff]
  refine ⟨fun ⟨as, hopens, hends, fuel, hscan⟩ => ⟨hopens, hends, fun r hr => ?_⟩,
    fun ⟨hopens, hends, hscans⟩ => ?_⟩
  · obtain ⟨ass, hass, -⟩ := Run.map_eq_ok (hscan 0)
    obtain ⟨cs, -, hcs⟩ := Run.mem_mapM hass hr
    exact ⟨cs, (r.findAll_fuelMono p pattern).returns hcs⟩
  · obtain ⟨as, has⟩ := Run.flatten_mapM_returns hscans
    exact ⟨as, hopens, hends, has⟩

/-- The pattern stands at `a` in what a read of a scanned region returns. -/
def FoundAt (m : Memory) (p : Process) (pattern : Pattern) (a : ℕ) : Prop :=
  ∃ r ∈ m.scanned p.layout, r.FoundAt p pattern a

theorem find_foundAt (hsize : 0 < pattern.size) {a : ℕ}
    (h : Run.Returns (m.find p pattern) (some a)) : m.Opens p.layout ∧ m.FoundAt p pattern a := by
  obtain ⟨hopens, hscan, -⟩ := find_returns_iff.mp h
  obtain ⟨pre, r, post, he, hr, -⟩ := Run.findSomeM?_eq_some hscan
  have hmem : r ∈ m.scanned p.layout := by
    rw [he]
    simp
  exact ⟨hopens, r, hmem, Region.find_foundAt hsize (walked_stop_lt (scanned_subset hmem)) hr⟩

theorem findAll_foundAt (hsize : 0 < pattern.size) {as : List ℕ}
    (h : Run.Returns (m.findAll p pattern) as) {a : ℕ} (ha : a ∈ as) :
    m.Opens p.layout ∧ m.FoundAt p pattern a := by
  obtain ⟨hopens, -, fuel, hscan⟩ := findAll_returns_iff.mp h
  obtain ⟨r, hmem, rs, hr, ha⟩ := (Run.mem_flatten_mapM (hscan 0)).mp ha
  have hstop := walked_stop_lt (scanned_subset hmem)
  exact ⟨hopens, r, hmem, Region.findAll_foundAt hsize hstop hr ha⟩

/-! ## Fuel -/

theorem find_fuelMono (m : Memory) (p : Process) (pattern : Pattern) :
    Run.FuelMono (m.find p pattern) := fun _ _ hle =>
  forIn_below p.layout _ (fun _ _ => Run.Below.refl _) m.regions none hle

theorem findAll_fuelMono (m : Memory) (p : Process) (pattern : Pattern) :
    Run.FuelMono (m.findAll p pattern) := by
  intro i j hle
  refine forIn_below p.layout _ (fun r results => ?_) m.regions [] hle
  rw [findAllBody, findAllBody]
  split
  · exact Run.Below.refl _
  · exact Run.Below.bind (Run.Below.refl _) fun bytes =>
      Run.Below.bind (Scanner.findAll_fuelMono pattern bytes .bmh i j hle) fun _ => Run.Below.refl _

/-! ## Strict patterns in readable memory -/

/-- The regions that the searches scan can be read. -/
def ReadsSucceed (m : Memory) (p : Process) : Prop :=
  ∀ r ∈ m.scanned p.layout, p.readable r.address r.size = true

/-- The pattern stands at `a` inside a scanned region. -/
def Holds (m : Memory) (p : Process) (pattern : Pattern) (a : ℕ) : Prop :=
  ∃ r ∈ m.scanned p.layout, r.Holds p pattern a

theorem foundAt_iff_holds (hread : m.ReadsSucceed p) (a : ℕ) :
    m.FoundAt p pattern a ↔ m.Holds p pattern a :=
  exists_congr fun r => and_congr_right fun hr =>
    Region.foundAt_iff_holds (walked_stop_lt (scanned_subset hr)) (hread r hr)

theorem find_holds (hsize : 0 < pattern.size) (hread : m.ReadsSucceed p) {a : ℕ}
    (h : Run.Returns (m.find p pattern) (some a)) : m.Holds p pattern a :=
  (foundAt_iff_holds hread a).mp (find_foundAt hsize h).2

theorem findAll_holds (hsize : 0 < pattern.size) (hread : m.ReadsSucceed p) {as : List ℕ}
    (h : Run.Returns (m.findAll p pattern) as) : ∀ a ∈ as, m.Holds p pattern a := fun a ha =>
  (foundAt_iff_holds hread a).mp (findAll_foundAt hsize h ha).2

theorem size_pos_of_find {a : ℕ} (h : Run.Returns (m.find p pattern) (some a)) : 0 < pattern.size := by
  obtain ⟨-, hscan, -⟩ := find_returns_iff.mp h
  obtain ⟨pre, r, post, -, hr, -⟩ := Run.findSomeM?_eq_some hscan
  obtain ⟨buffer, -, hr⟩ := Run.bind_eq_ok hr
  obtain ⟨o, ho, hr⟩ := Run.bind_eq_ok hr
  apply Nat.pos_of_ne_zero
  intro hsize
  have hnone : Scanner.find pattern buffer .bmh = .ok none := by
    rw [Scanner.find, Scanner.indexOf, Scanner.indexOfBmh,
      if_pos ((Scanner.cannotMatch_eq_true pattern buffer).mpr (.inl hsize))]
    rfl
  cases ho.symm.trans hnone
  cases hr

/-- The scans return the first places in their regions, which stand one behind the other. So the result
of the first scan that has one is the first place of a strict pattern in all that was read. -/
theorem isFirst_foundAt (hsize : 0 < pattern.size) (hstrict : pattern.Strict) {o : Option ℕ}
    (ho : (m.scanned p.layout).findSomeM? (·.find p pattern) = .ok o) :
    IsFirst (m.FoundAt p pattern) o := by
  have hfirst : ∀ r ∈ m.scanned p.layout, ∀ o, r.find p pattern = .ok o →
      IsFirst (r.FoundAt p pattern) o := fun r hr _ =>
    Region.find_isFirst_foundAt hsize hstrict (walked_stop_lt (scanned_subset hr))
  cases o with
  | none =>
    rintro a ⟨r, hr, ha⟩
    exact hfirst r hr none (Run.findSomeM?_eq_none ho r hr) a ha
  | some a =>
    obtain ⟨pre, r, post, he, hr, hpre⟩ := Run.findSomeM?_eq_some ho
    have hleast : IsLeast {b | r.FoundAt p pattern b} a := hfirst r (by rw [he]; simp) _ hr
    refine ⟨⟨r, by rw [he]; simp, hleast.1⟩, fun b ⟨s, hs, hb⟩ => ?_⟩
    have hsorted := m.scanned_sorted p.layout
    rw [he, List.pairwise_append, List.pairwise_cons] at hsorted
    have hnone := hfirst s hs none
    rw [he, List.mem_append, List.mem_cons] at hs
    rcases hs with hs | rfl | hs
    · exact absurd hb (hnone (hpre s hs) b)
    · exact hleast.2 hb
    · have hle := hsorted.2.1.1 s hs
      have hstop := hleast.1.inside.2
      have haddress := hb.inside.1
      omega

theorem find_isLeast_foundAt (hsize : 0 < pattern.size) (hstrict : pattern.Strict) {a : ℕ}
    (h : Run.Returns (m.find p pattern) (some a)) : IsLeast {a | m.FoundAt p pattern a} a :=
  isFirst_foundAt hsize hstrict (find_returns_iff.mp h).2.1

theorem findSomeM?_isFirst (hsize : 0 < pattern.size) (hstrict : pattern.Strict)
    (hread : m.ReadsSucceed p) :
    ∃ o, (m.scanned p.layout).findSomeM? (·.find p pattern) = .ok o ∧
      IsFirst (m.Holds p pattern) o := by
  obtain ⟨o, ho⟩ : ∃ o, (m.scanned p.layout).findSomeM? (·.find p pattern) = .ok o := by
    apply Run.findSomeM?_ok
    intro r hr
    obtain ⟨o, ho, -⟩ :=
      Region.find_isFirst hsize hstrict (walked_stop_lt (scanned_subset hr)) (hread r hr)
    exact ⟨o, ho⟩
  exact ⟨o, ho, (isFirst_foundAt hsize hstrict ho).congr (foundAt_iff_holds hread)⟩

theorem find_returns_strict_iff (hsize : 0 < pattern.size) (hstrict : pattern.Strict)
    (hread : m.ReadsSucceed p) {o : Option ℕ} :
    Run.Returns (m.find p pattern) o ↔
      m.Opens p.layout ∧ IsFirst (m.Holds p pattern) o ∧ (o = none → m.Ends p.layout) := by
  obtain ⟨o', ho', hfirst⟩ := findSomeM?_isFirst hsize hstrict hread
  rw [find_returns_iff, ho', Except.ok.injEq]
  refine and_congr_right fun _ => and_congr_left fun _ => ⟨fun h => h ▸ hfirst, hfirst.unique⟩

end Memory
end Wincpp
