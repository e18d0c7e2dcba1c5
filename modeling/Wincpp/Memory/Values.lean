import Wincpp.Library.LittleEndian
import Wincpp.Library.Overlay
import Wincpp.Memory.Strings

/-! Typed values in the memory of a process (`read`, `write` and `operator[]` of `memory_factory`,
`memory/pointer.hpp`).

A value is copied as the bytes that it consists of, so that reading and searching look at the same
thing: `find` with the pattern of a value returns the first address at which that value is read
(`find_value_iff`).
-/
namespace Wincpp
open Overlay Search
set_option autoImplicit false

/-- A type whose values are copied as bytes, by what it takes to do so: each value consists of `size`
bytes, and all strings of `size` bytes are values. -/
structure Plain (α : Type) where
  size : ℕ
  toBytes : α → List UInt8
  ofBytes : List UInt8 → α
  toBytes_length : ∀ value, (toBytes value).length = size
  ofBytes_toBytes : ∀ value, ofBytes (toBytes value) = value
  toBytes_ofBytes : ∀ bytes : List UInt8, bytes.length = size → toBytes (ofBytes bytes) = bytes

/-- The unsigned integers of `w` bytes. -/
def Plain.unsigned (w : ℕ) : Plain (Fin (256 ^ w)) where
  size := w
  toBytes value := LittleEndian.encode w value
  ofBytes bytes := ⟨LittleEndian.decode (bytes.take w), by
    refine lt_of_lt_of_le (LittleEndian.decode_lt _) (Nat.pow_le_pow_right (by decide) ?_)
    exact List.length_take_le w bytes⟩
  toBytes_length value := LittleEndian.encode_length w value
  ofBytes_toBytes value := by
    apply Fin.ext
    have htake : (LittleEndian.encode w value).take w = LittleEndian.encode w value :=
      List.take_of_length_le (LittleEndian.encode_length w value).le
    rw [Fin.val_mk, htake, LittleEndian.decode_encode_of_lt value.isLt]
  toBytes_ofBytes bytes h := by
    rw [Fin.val_mk, List.take_of_length_le h.le, ← h, LittleEndian.encode_decode]

/-- `std::uintptr_t`. -/
def Plain.uintptr : Plain (Fin (256 ^ 8)) := .unsigned 8

namespace Process
variable {α : Type} (p : Process) (T : Plain α)

/-- `read< T >`. -/
def readValue (address : ℕ) : Run α := do
  return T.ofBytes (← p.read address T.size).bytes

/-- `write< T >`. -/
def writeValue (writable : ℕ → ℕ → Bool) (lastError : UInt32) (address : ℕ) (value : α) :
    Except WriteFailure Process := do
  let (p', _) ← p.write writable lastError address (T.toBytes value)
  return p'

end Process

/-- `pointer_t< T >`. -/
structure Pointer {α : Type} (T : Plain α) where
  address : ℕ
  deriving DecidableEq

namespace Pointer
variable {α β : Type} {T : Plain α}

/-- `value_t::operator T`. -/
def load (pointer : Pointer T) (p : Process) : Run α := p.readValue T pointer.address

/-- `value_t::operator=`. -/
def store (pointer : Pointer T) (p : Process) (writable : ℕ → ℕ → Bool) (lastError : UInt32)
    (value : α) : Except WriteFailure Process :=
  p.writeValue T writable lastError pointer.address value

/-- `operator pointer_t< U >`. -/
def cast (pointer : Pointer T) (U : Plain β) : Pointer U := ⟨pointer.address⟩

/-- `memory_factory::operator[]`. -/
def operatorIndex (address : ℕ) : Pointer Plain.uintptr := ⟨address⟩

end Pointer

/-! ## Reading -/

namespace Process
variable {α : Type} {p : Process} {T : Plain α} {a : ℕ} {value : α}

theorem readValue_eq_ok_iff (hsize : T.size < 2 ^ 63) (h : p.readable a T.size = true) :
    p.readValue T a = .ok value ↔ p.slice a T.size = T.toBytes value := by
  obtain ⟨buffer, hbuffer, hbytes⟩ := p.read_of_readable hsize h
  rw [readValue, hbuffer, Run.ok_bind, hbytes, Run.pure_eq_ok, Except.ok.injEq]
  constructor
  · rintro rfl
    exact (T.toBytes_ofBytes _ (p.slice_length a T.size)).symm
  · intro he
    rw [he, T.ofBytes_toBytes]

theorem slice_eq_iff {n : ℕ} {bytes : List UInt8} (hlength : bytes.length = n)
    (hin : a + n ≤ 2 ^ 64) :
    p.slice a n = bytes ↔ ∀ i b, bytes[i]? = some b → p.bytes (a + i) = b := by
  have hbyte : ∀ i < n, (p.slice a n)[i]? = some (p.bytes (a + i)) := by
    intro i hi
    rw [p.slice_getElem? hi, Nat.mod_eq_of_lt (by omega)]
  constructor
  · rintro rfl i b hb
    have hi : i < n := hlength ▸ (List.getElem?_eq_some_iff.mp hb).1
    exact Option.some.inj ((hbyte i hi).symm.trans hb)
  · intro h
    apply List.ext_getElem?
    intro i
    by_cases hi : i < n
    · have hget := List.getElem?_eq_getElem (l := bytes) (i := i) (by omega)
      rw [hbyte i hi, hget, h i _ hget]
    · rw [List.getElem?_eq_none (by simpa using hi), List.getElem?_eq_none (by omega)]

/-- The pattern of a value stands where the bytes of the value do. -/
theorem holdsAt_value_iff (hin : a + T.size ≤ 2 ^ 64) :
    p.HoldsAt (.ofBytes (T.toBytes value)) a ↔ p.slice a T.size = T.toBytes value := by
  rw [slice_eq_iff (T.toBytes_length value) hin, HoldsAt, Pattern.ofBytes_word]
  simp only [List.getElem?_map, Option.map_eq_some_iff, Option.some_inj]
  exact ⟨fun h i b hb => h i b ⟨b, hb, rfl⟩, fun h i b ⟨c, hc, hcb⟩ => hcb ▸ h i c hc⟩

end Process

namespace Memory
variable {α : Type} {T : Plain α} {p : Process} {m : Memory} {value : α}

/-- All parts of the regions that the searches scan can be read. -/
def PartsReadable (m : Memory) (p : Process) : Prop :=
  ∀ r ∈ m.scanned p.layout, ∀ b k, r.address ≤ b → b + k ≤ r.stop → p.readable b k = true

/-- The value is read at the address, and lies inside one of the scanned regions. -/
def ReadsAt (m : Memory) (p : Process) (T : Plain α) (value : α) (a : ℕ) : Prop :=
  ∃ r ∈ m.scanned p.layout, r.address ≤ a ∧ a + T.size ≤ r.stop ∧ p.readValue T a = .ok value

theorem holds_value_iff (hread : m.PartsReadable p) (a : ℕ) :
    m.Holds p (.ofBytes (T.toBytes value)) a ↔ m.ReadsAt p T value a := by
  refine exists_congr fun r => and_congr_right fun hr => ?_
  unfold Region.Holds
  rw [Pattern.ofBytes_size, T.toBytes_length]
  refine and_congr_right fun hlow => and_congr_right fun hhigh => ?_
  have hstop := walked_stop_lt (scanned_subset hr)
  rw [Process.holdsAt_value_iff (by omega),
    Process.readValue_eq_ok_iff (by omega) (hread r hr a T.size hlow hhigh)]

/-- The search for a value and the read of a value agree: in memory that can be read, `find` returns the
first address at which `read` returns the value, and `nullopt` when there is none. -/
theorem find_value_iff (m : Memory) (p : Process) (T : Plain α) (value : α) (hsize : 0 < T.size)
    (hread : m.PartsReadable p) (o : Option ℕ) :
    Run.Returns (m.find p (.ofBytes (T.toBytes value))) o ↔
      m.Opens p.layout ∧ IsFirst (m.ReadsAt p T value) o ∧ (o = none → m.Ends p.layout) := by
  have hpos : 0 < (Pattern.ofBytes (T.toBytes value)).size := by
    rwa [Pattern.ofBytes_size, T.toBytes_length]
  have hsucceed : m.ReadsSucceed p := fun r hr =>
    hread r hr r.address r.size le_rfl le_rfl
  rw [find_returns_strict_iff hpos (Pattern.ofBytes_strict _) hsucceed]
  have hiff : IsFirst (m.Holds p (.ofBytes (T.toBytes value))) o ↔ IsFirst (m.ReadsAt p T value) o :=
    ⟨fun h => h.congr (holds_value_iff hread), fun h => h.congr fun a => (holds_value_iff hread a).symm⟩
  rw [hiff]

/-- The number `0x01010101` in a process that is zero elsewhere. -/
theorem find_value_iff_marked :
    Run.Returns (sampleRegion.find (sampleProcess 0x1800)
        (.ofBytes ((Plain.unsigned 4).toBytes 0x01010101))) (some 0x1800) ↔
      sampleRegion.Opens sampleLayout ∧
        IsFirst (sampleRegion.ReadsAt (sampleProcess 0x1800) (.unsigned 4) 0x01010101) (some 0x1800) ∧
        (some 0x1800 = none → sampleRegion.Ends sampleLayout) :=
  find_value_iff sampleRegion (sampleProcess 0x1800) (.unsigned 4) 0x01010101 (by decide)
    (fun _ _ _ _ _ _ => rfl) (some 0x1800)

end Memory

end Wincpp
