import Wincpp.Modules.Rtti

/-! The three searches of `fetch_objects`, and the loop over the cross references. -/
namespace Wincpp
open LittleEndian Search Memory
set_option autoImplicit false

/-! ## Bytes of a process -/

namespace Process
variable {p : Process}

theorem decodeAt_slice {a n k w : ℕ} (h : k + w ≤ n) :
    decodeAt (p.slice a n) k w = decode (p.slice (a + k) w) := by
  rw [decodeAt, p.slice_drop_take h]

theorem decode_of_holdsAt_ofInt {w a : ℕ} {z : ℤ} (h : a + w ≤ 2 ^ 64)
    (hh : p.HoldsAt (.ofInt w z) a) : (decode (p.slice a w) : ℤ) = z % 256 ^ w := by
  rw [Pattern.ofInt, holdsAt_ofBytes_iff (by simpa using h), encode_length] at hh
  have hpos : (0 : ℤ) < 256 ^ w := by positivity
  have hge := Int.emod_nonneg z hpos.ne'
  have hlt : ((z % 256 ^ w).toNat : ℤ) < ((256 ^ w : ℕ) : ℤ) := by
    rw [Int.toNat_of_nonneg hge, Nat.cast_pow]
    exact Int.emod_lt_of_pos z hpos
  rw [hh, decode_encode_of_lt (Int.ofNat_lt.mp hlt), Int.toNat_of_nonneg hge]

end Process

/-! ## The loop -/

namespace Module
variable {m : Module}

theorem objectsLoop_mem {rdata : Section} {fuel : ℕ} {references : List ℕ} {acc objects : List Object}
    (h : m.objectsLoop rdata fuel references acc = .ok objects) {o : Object} :
    o ∈ objects ↔ o ∈ acc ∨ ∃ ref ∈ references, m.objectOf rdata fuel ref = .ok (some o) := by
  induction references generalizing acc with
  | nil =>
    cases h
    simp
  | cons ref references ih =>
    rw [objectsLoop] at h
    obtain ⟨x, hx, h⟩ := Run.bind_eq_ok h
    cases x with
    | none =>
      rw [ih h]
      simp [hx]
    | some o' =>
      rw [ih h]
      simp [hx, or_assoc, eq_comm]

theorem objectsLoop_ok {rdata : Section} {fuel : ℕ} {references : List ℕ} {acc objects : List Object}
    (h : m.objectsLoop rdata fuel references acc = .ok objects) :
    ∀ ref ∈ references, ∃ x, m.objectOf rdata fuel ref = .ok x := by
  induction references generalizing acc with
  | nil => simp
  | cons ref references ih =>
    rw [objectsLoop] at h
    obtain ⟨x, hx, h⟩ := Run.bind_eq_ok h
    intro ref' href'
    rcases List.mem_cons.mp href' with rfl | href'
    · exact ⟨x, hx⟩
    · cases x with
      | none => exact ih h ref' href'
      | some o => exact ih h ref' href'

theorem objectOf_some {rdata : Section} {fuel ref : ℕ} {o : Object}
    (h : m.objectOf rdata fuel ref = .ok (some o)) :
    ∃ s, m.process.readLocator (asSize (ref - 12)) = .ok o.col ∧ o.col.signature = 1 ∧
      rdata.find m.process (.ofInt 8 (asSize (ref - 12))) fuel = .ok (some s) ∧
      o.vtable = asSize (s + 8) := by
  obtain ⟨col, hcol, h⟩ := Run.bind_eq_ok h
  split at h
  · cases h
  · rename_i hsig
    obtain ⟨x, hx, h⟩ := Run.bind_eq_ok h
    cases x with
    | none => cases h
    | some s =>
      cases h
      exact ⟨s, hcol, not_not.mp hsig, hx, rfl⟩

theorem readLocator_of_readable {p : Process} {c : ℕ} (h : p.readable c 24 = true) :
    p.readLocator c = .ok (.ofBytes (p.slice c 24)) := by
  obtain ⟨buffer, hbuffer, hbytes⟩ := p.read_of_readable (by decide : 24 < 2 ^ 63) h
  rw [Process.readLocator, hbuffer, Run.ok_bind, hbytes]
  rfl

/-- Where the objects of a returned list come from. -/
theorem fetchObjects_mem {mangled : List UInt8} {fuel : ℕ} {objects : List Object}
    (h : m.fetchObjects mangled fuel = .ok objects) {o : Object} (ho : o ∈ objects) :
    ∃ data rdata result references, m.fetchSection (chars ".data") = .ok (some data) ∧
      m.fetchSection (chars ".rdata") = .ok (some rdata) ∧
      data.find m.process (.ofBytes mangled) fuel = .ok (some result) ∧
      rdata.findAll m.process (.ofInt 4 (m.typeDescriptorRva result)) fuel = .ok references ∧
      m.objectsLoop rdata fuel references [] = .ok objects ∧
      ∃ ref ∈ references, m.objectOf rdata fuel ref = .ok (some o) := by
  obtain ⟨data, hdata, h⟩ := Run.bind_eq_ok h
  obtain ⟨rdata, hrdata, h⟩ := Run.bind_eq_ok h
  cases data with
  | none =>
    cases h
    cases ho
  | some data =>
    cases rdata with
    | none =>
      cases h
      cases ho
    | some rdata =>
      obtain ⟨result, hresult, h⟩ := Run.bind_eq_ok h
      cases result with
      | none =>
        cases h
        cases ho
      | some result =>
        obtain ⟨references, hreferences, h⟩ := Run.bind_eq_ok h
        refine ⟨data, rdata, result, references, hdata, hrdata, hresult, hreferences, h, ?_⟩
        rcases (objectsLoop_mem h).mp ho with ho | ho
        · cases ho
        · exact ho

theorem typeDescriptorRva_eq (result : ℕ) :
    m.typeDescriptorRva result = asInt32 ((result : ℤ) - 16 - m.address) := by
  apply asInt32_congr
  unfold asSize
  omega

/-- The type descriptor offset of the locator in front of a cross reference is the number that the
reference holds. -/
theorem typeDescriptorOffset_eq {p : Process} {ref : ℕ} (href : ref + 4 ≤ 2 ^ 64) {z : ℤ}
    (h : p.HoldsAt (.ofInt 4 z) ref) :
    (CompleteObjectLocator.ofBytes (p.slice (asSize (ref - 12)) 24)).typeDescriptorOffset =
      asInt32 z := by
  have hslice : p.slice (asSize (ref - 12) + 12) 4 = p.slice ref 4 := by
    refine p.slice_congr ?_ 4
    unfold asSize
    omega
  have hdecode := Process.decode_of_holdsAt_ofInt href h
  have hfield : decodeAt (p.slice (asSize (ref - 12)) 24) 12 4 = decode (p.slice ref 4) := by
    rw [Process.decodeAt_slice (by decide), hslice]
  rw [CompleteObjectLocator.ofBytes_typeDescriptorOffset, hfield, hdecode]
  exact asInt32_congr (by omega)

/-! ## Runs that return -/

variable {data rdata : Section}

theorem fetchObjects_eq {mangled : List UInt8} (hdata : m.fetchSection (chars ".data") = .ok (some data))
    (hrdata : m.fetchSection (chars ".rdata") = .ok (some rdata)) (fuel : ℕ) :
    m.fetchObjects mangled fuel =
      (data.find m.process (.ofBytes mangled) fuel >>= fun result =>
        match result with
        | none => .ok []
        | some result =>
          rdata.findAll m.process (.ofInt 4 (m.typeDescriptorRva result)) fuel >>= fun references =>
            m.objectsLoop rdata fuel references []) := by
  rw [fetchObjects, hdata, Run.ok_bind, hrdata, Run.ok_bind]
  rfl

theorem objectOf_returns (hopens : rdata.Opens m.process.layout) (hends : rdata.Ends m.process.layout)
    (hreads : rdata.ReadsSucceed m.process) {ref : ℕ}
    (hlocator : m.process.type = .remoteT ∨ m.process.readable (asSize (ref - 12)) 24 = true) :
    ∃ x, Run.Returns (fun fuel => m.objectOf rdata fuel ref) x := by
  obtain ⟨buffer, hbuffer⟩ := m.process.exists_read (by decide : 24 < 2 ^ 63) hlocator
  obtain ⟨o, -, hfirst⟩ := findSomeM?_isFirst (by simp)
    (Pattern.ofInt_strict 8 (asSize (ref - 12))) hreads
  have hfind := (find_returns_strict_iff (by simp) (Pattern.ofInt_strict _ _) hreads).mpr
    ⟨hopens, hfirst, fun _ => hends⟩
  simp only [objectOf, Process.readLocator, hbuffer, Run.ok_bind, Run.pure_eq_ok]
  split
  · exact ⟨_, Run.returns_const.mpr rfl⟩
  · cases o with
    | none => exact ⟨_, hfind.bind (Run.returns_const.mpr rfl)⟩
    | some s => exact ⟨_, hfind.bind (Run.returns_const.mpr rfl)⟩

theorem objectOf_returns_some (hopens : rdata.Opens m.process.layout)
    (hreads : rdata.ReadsSucceed m.process) {ref c s : ℕ} (hc : asSize (ref - 12) = c)
    (hlocator : m.process.readable c 24 = true)
    (hsig : (CompleteObjectLocator.ofBytes (m.process.slice c 24)).signature = 1)
    (hslot : IsLeast {a | rdata.Holds m.process (.ofInt 8 c) a} s) :
    Run.Returns (fun fuel => m.objectOf rdata fuel ref)
      (some ⟨asSize (s + 8), .ofBytes (m.process.slice c 24)⟩) := by
  have hfind : Run.Returns (rdata.find m.process (.ofInt 8 c)) (some s) :=
    (find_returns_strict_iff (by simp) (Pattern.ofInt_strict _ _) hreads).mpr
      ⟨hopens, hslot, by simp⟩
  simp only [objectOf, hc, readLocator_of_readable hlocator, Run.ok_bind, hsig, ne_eq, not_true,
    if_false]
  exact hfind.bind (Run.returns_const.mpr rfl)

theorem objectsLoop_returns {references : List ℕ}
    (h : ∀ ref ∈ references, ∃ x, Run.Returns (fun fuel => m.objectOf rdata fuel ref) x)
    (acc : List Object) :
    ∃ objects, Run.Returns (fun fuel => m.objectsLoop rdata fuel references acc) objects := by
  induction references generalizing acc with
  | nil => exact ⟨acc, Run.returns_const.mpr rfl⟩
  | cons ref references ih =>
    obtain ⟨x, hx⟩ := h ref (by simp)
    have htail := fun acc => ih (fun r hr => h r (by simp [hr])) acc
    simp only [objectsLoop]
    cases x with
    | none => exact (htail acc).imp fun _ hrest => hx.bind hrest
    | some o => exact (htail (acc ++ [o])).imp fun _ hrest => hx.bind hrest

end Module
end Wincpp
