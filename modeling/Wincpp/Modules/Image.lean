import Wincpp.Core.CString
import Wincpp.Library.LittleEndian
import Wincpp.Memory.Find

/-! Module images and their sections (`modules/module.cpp`, `modules/section.cpp`).

A module keeps a copy of its image. The headers are read from that copy, and every access outside of
it stops the run.
-/
namespace Wincpp
open LittleEndian
set_option autoImplicit false

/-! ## Reading headers -/

/-- The `n` bytes at a (signed) offset of a buffer. -/
def Span.bytesAt (buffer : Span) (offset : ℤ) (n : ℕ) : Run (List UInt8) :=
  if 0 ≤ offset ∧ offset + n ≤ buffer.size then
    .ok ((buffer.bytes.drop offset.toNat).take n)
  else
    .error .outOfRange

theorem Span.bytesAt_length {buffer : Span} {offset : ℤ} {n : ℕ} {bytes : List UInt8}
    (h : buffer.bytesAt offset n = .ok bytes) : bytes.length = n := by
  rw [Span.bytesAt] at h
  split at h
  · cases h
    rename_i hbounds
    have hsize : buffer.bytes.length = buffer.size := rfl
    rw [List.length_take, List.length_drop]
    omega
  · cases h

/-- `IMAGE_SECTION_HEADER`. -/
structure SectionHeader where
  bytes : List UInt8
  deriving DecidableEq, Repr

namespace SectionHeader

/-- The name field. Comparing it as a `const char*` reads on behind its eight bytes. -/
def name (header : SectionHeader) : Run (List UInt8) := cString header.bytes

def virtualSize (header : SectionHeader) : ℕ := decodeAt header.bytes 8 4
def virtualAddress (header : SectionHeader) : ℕ := decodeAt header.bytes 12 4
def sizeOfRawData (header : SectionHeader) : ℕ := decodeAt header.bytes 16 4

end SectionHeader

/-! ## Modules and sections -/

/-- `module_t`, as its constructor leaves it: `buffer` is what was read of the image. -/
structure Module extends Memory where
  process : Process
  sizeOfImage : ℕ
  buffer : Span
  buffer_eq : process.read address sizeOfImage = .ok buffer
  loaded : address < process.layout.top

/-- `section_t`. -/
structure Section extends Memory where
  header : SectionHeader

/-- `section_t::name`: all eight bytes of the name field. -/
def Section.name (s : Section) : List UInt8 := s.header.bytes.take 8

namespace Module
variable (m : Module)

theorem address_lt : m.address < 2 ^ 63 := m.loaded.trans m.process.userSpace

/-- The constructor of `section_t`. -/
def sectionOf (header : SectionHeader) : Section where
  address := m.address + header.virtualAddress
  size := max header.sizeOfRawData header.virtualSize
  range := by
    have h1 := m.address_lt
    have h2 : header.virtualAddress < 2 ^ 32 := decodeAt_lt ..
    have h3 : header.sizeOfRawData < 2 ^ 32 := decodeAt_lt ..
    have h4 : header.virtualSize < 2 ^ 32 := decodeAt_lt ..
    omega
  header := header

/-- The offset of the NT headers, `e_lfanew` of the DOS header. -/
def ntHeaders : Run ℤ := return asInt32 (decode (← m.buffer.bytesAt 0x3c 4))

/-- The rounds of the loop over the section table at `first`. -/
def fetchSectionLoop (name : List UInt8) (first : ℤ) : ℕ → ℕ → Run (Option Section)
  | _, 0 => return none
  | i, rest + 1 => do
    let header ← SectionHeader.mk <$> m.buffer.bytesAt (first + 40 * i) 40
    if name = (← header.name) then
      return some (m.sectionOf header)
    else
      fetchSectionLoop name first (i + 1) rest

/-- `fetch_section`. The section table lies behind the optional header, whose size the file header
gives. -/
def fetchSection (name : List UInt8) : Run (Option Section) := do
  let nt ← m.ntHeaders
  let sizeOfOptionalHeader ← m.buffer.bytesAt (nt + 20) 2
  let numberOfSections ← m.buffer.bytesAt (nt + 6) 2
  m.fetchSectionLoop name (nt + 24 + decode sizeOfOptionalHeader) 0 (decode numberOfSections)

variable {m}

/-- A header of an image that could be read is what stands in memory. -/
theorem bytesAt_buffer (hread : m.process.readable m.address m.sizeOfImage = true) {offset : ℤ}
    {n : ℕ} (h0 : 0 ≤ offset) (h : offset + n ≤ m.sizeOfImage) :
    m.buffer.bytesAt offset n = .ok (m.process.slice (m.address + offset.toNat) n) := by
  have hsize : m.sizeOfImage < 2 ^ 63 := by
    have := m.process.read_length m.buffer_eq
    rw [← this]
    exact m.buffer.size_lt_max
  obtain ⟨buffer, hbuffer, hbytes⟩ := m.process.read_of_readable hsize hread
  cases hbuffer.symm.trans m.buffer_eq
  have hlen : m.buffer.size = m.sizeOfImage := m.process.read_length m.buffer_eq
  rw [Span.bytesAt, if_pos ⟨h0, by omega⟩, hbytes, m.process.slice_drop_take (by omega)]

/-- The header of a section that was found. -/
theorem header_of_fetchSection {name : List UInt8} {s : Section}
    (h : m.fetchSection name = .ok (some s)) :
    s = m.sectionOf s.header ∧ s.header.bytes.length = 40 ∧ s.header.name = .ok name := by
  have hloop : ∀ first i rest, m.fetchSectionLoop name first i rest = .ok (some s) →
      s = m.sectionOf s.header ∧ s.header.bytes.length = 40 ∧ s.header.name = .ok name := by
    intro first i rest
    induction rest generalizing i with
    | zero =>
      intro h
      cases h
    | succ rest ih =>
      intro h
      obtain ⟨header, hheader, h⟩ := Run.bind_eq_ok h
      obtain ⟨text, htext, h⟩ := Run.bind_eq_ok h
      obtain ⟨bytes, hbytes, rfl⟩ := Run.map_eq_ok hheader
      split at h
      · cases h
        subst_vars
        exact ⟨rfl, Span.bytesAt_length hbytes, htext⟩
      · exact ih _ h
  obtain ⟨nt, -, h⟩ := Run.bind_eq_ok h
  obtain ⟨size, -, h⟩ := Run.bind_eq_ok h
  obtain ⟨number, -, h⟩ := Run.bind_eq_ok h
  exact hloop _ _ _ h

theorem address_le_of_fetchSection {name : List UInt8} {s : Section}
    (h : m.fetchSection name = .ok (some s)) : m.address ≤ s.address := by
  rw [(header_of_fetchSection h).1]
  exact Nat.le_add_right ..

end Module
end Wincpp
