import Wincpp.Memory.Strings
import Wincpp.Modules.Rtti

/-! Type descriptors (`object_t::type_descriptor` and `object_t::name` in `modules/object.cpp`).

The descriptor is copied with a fixed number of bytes. Its name is the C string in the copy, 16 bytes
into it, and a name that does not end inside the copy is read beyond it (`typeDescriptor_exact_iff`).
-/
namespace Wincpp
open LittleEndian
set_option autoImplicit false

/-- `BUFSIZ` of the C library of Windows. -/
def bufSiz : ℕ := 512

/-- `type_descriptor_t`. -/
structure TypeDescriptor where
  typeInfoVftable : ℕ
  spare : ℕ
  name : List UInt8
  deriving DecidableEq, Repr

namespace Object
variable (o : Object) (mod : Memory) (p : Process)

def typeDescriptorAddress : ℕ := asSize (mod.address + o.col.typeDescriptorOffset)

/-- `object_t::type_descriptor`, for an object of the module `mod`. -/
def typeDescriptor : Run TypeDescriptor := do
  let buffer ← p.read (o.typeDescriptorAddress mod) bufSiz
  let vtable := decodeAt buffer.bytes 0 8
  let signature := decodeAt buffer.bytes 8 4
  let name ← cString (buffer.bytes.drop 16)
  return ⟨vtable, signature, name⟩

/-- `object_t::name`. -/
def name : Run (List UInt8) := return (← o.typeDescriptor mod p).name

/-- The address of the name in the type descriptor. -/
def nameAddress : ℕ := o.typeDescriptorAddress mod + 16

/-- The name ends inside the copy of the descriptor: there is a 0 in the 496 bytes from its address on. -/
def NameInBuffer : Prop := ∃ i < bufSiz - 16, p.bytes ((o.nameAddress mod + i) % 2 ^ 64) = 0

variable {o mod p} {text : List UInt8}

theorem typeDescriptor_eq (h : p.readable (o.typeDescriptorAddress mod) bufSiz = true) :
    o.typeDescriptor mod p = (do
      let name ← cString (p.slice (o.nameAddress mod) (bufSiz - 16))
      return ⟨decode (p.slice (o.typeDescriptorAddress mod) 8),
        decode (p.slice (o.typeDescriptorAddress mod + 8) 4), name⟩) := by
  obtain ⟨buffer, hbuffer, hbytes⟩ := p.read_of_readable (by decide : bufSiz < 2 ^ 63) h
  have hvtable : decodeAt buffer.bytes 0 8 = decode (p.slice (o.typeDescriptorAddress mod) 8) := by
    rw [decodeAt, hbytes, p.slice_drop_take (by decide), Nat.add_zero]
  have hspare : decodeAt buffer.bytes 8 4 = decode (p.slice (o.typeDescriptorAddress mod + 8) 4) := by
    rw [decodeAt, hbytes, p.slice_drop_take (by decide)]
  have hname : buffer.bytes.drop 16 = p.slice (o.nameAddress mod) (bufSiz - 16) := by
    rw [hbytes, p.slice_drop (by decide), nameAddress]
  rw [typeDescriptor, hbuffer, Run.ok_bind, hvtable, hspare, hname]

/-- What is returned as the name is the whole string, of at most 495 bytes. -/
theorem name_eq_ok_iff (h : p.readable (o.typeDescriptorAddress mod) bufSiz = true) :
    o.name mod p = .ok text ↔ p.StringAt (o.nameAddress mod) text ∧ text.length < bufSiz - 16 := by
  rw [← Process.cString_slice_iff, name, typeDescriptor_eq h]
  cases cString (p.slice (o.nameAddress mod) (bufSiz - 16)) <;> simp

theorem zero_mem_slice_iff : 0 ∈ p.slice (o.nameAddress mod) (bufSiz - 16) ↔
    o.NameInBuffer mod p := by
  rw [Process.slice, List.mem_map]
  simp only [List.mem_range]
  rfl

theorem typeDescriptor_overread (h : p.readable (o.typeDescriptorAddress mod) bufSiz = true)
    (hlong : ¬ o.NameInBuffer mod p) : o.typeDescriptor mod p = .error .outOfRange := by
  rw [typeDescriptor_eq h, cString_of_notMem (by rwa [zero_mem_slice_iff]), Run.error_bind]

end Object

/-- A type descriptor is returned without a read beyond the copy, and with the complete name, exactly
when the name ends in the copy. -/
theorem typeDescriptor_exact_iff (o : Object) (mod : Memory) (p : Process)
    (h : p.readable (o.typeDescriptorAddress mod) bufSiz = true) :
    (∃ t, o.typeDescriptor mod p = .ok t ∧ p.StringAt (o.nameAddress mod) t.name) ↔
      o.NameInBuffer mod p := by
  rw [← Object.zero_mem_slice_iff, ← exists_cString_iff, Object.typeDescriptor_eq h]
  constructor
  · rintro ⟨t, ht, -⟩
    obtain ⟨text, htext, -⟩ := Run.bind_eq_ok ht
    exact ⟨text, htext⟩
  · rintro ⟨text, htext⟩
    rw [htext, Run.ok_bind]
    exact ⟨_, rfl, (p.cString_slice_iff.mp htext).1⟩

/-- A class with a name of 4080 bytes, whose type descriptor is at `0x1000`. -/
def longNamed : Object := ⟨0x401000, .ofBytes (List.replicate 24 0)⟩

def longProcess : Process := .marked sampleLayout (Memory.sampleProcess 0).userSpace 0x1000 0x1000

def longModule : Memory := ⟨0x1000, 0x2000, Memory.sampleRegion.range⟩

theorem longNamed_nameAddress : longNamed.nameAddress longModule = 0x1010 := by decide

theorem longProcess_bytes {i : ℕ} (h : i < 0xff0) :
    longProcess.bytes ((longNamed.nameAddress longModule + i) % 2 ^ 64) = 1 := by
  rw [longNamed_nameAddress]
  exact if_pos (by omega)

/-- The name ends at `0x2000`, and the copy of the descriptor at `0x1200`. -/
theorem typeDescriptor_longNamed :
    longProcess.StringAt (longNamed.nameAddress longModule) (List.replicate 0xff0 1) ∧
      longNamed.typeDescriptor longModule longProcess = .error .outOfRange := by
  constructor
  · refine Process.stringAt_iff _ |>.mpr ⟨by rw [List.mem_replicate]; decide, ?_, ?_⟩
    · rw [List.length_replicate, List.eq_replicate_iff]
      refine ⟨by simp, fun b hb => ?_⟩
      obtain ⟨i, hi, rfl⟩ := List.mem_map.mp hb
      exact longProcess_bytes (List.mem_range.mp hi)
    · rw [List.length_replicate]
      decide
  · apply Object.typeDescriptor_overread rfl
    rintro ⟨i, hi, hzero⟩
    have hone := longProcess_bytes (i := i) (by unfold bufSiz at hi; omega)
    rw [hzero] at hone
    cases hone

theorem typeDescriptor_exact_iff_sample :
    (∃ t, longNamed.typeDescriptor longModule (Memory.sampleProcess 0x1010) = .ok t ∧
        (Memory.sampleProcess 0x1010).StringAt (longNamed.nameAddress longModule) t.name) ↔
      longNamed.NameInBuffer longModule (Memory.sampleProcess 0x1010) :=
  typeDescriptor_exact_iff longNamed longModule (Memory.sampleProcess 0x1010) rfl

end Wincpp
