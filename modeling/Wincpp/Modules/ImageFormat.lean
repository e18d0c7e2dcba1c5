import Wincpp.Library.Placement
import Wincpp.Modules.ExportTable

/-! Images that are written and read back.

`ImageSpec.image` puts the headers, the section table and the export directory of an image one behind the
other, as the image format has them. `fetch_section` and `fetch_export` find in it exactly what was
written: for each name the first entry of that name, and nothing for any other name.
-/
namespace Wincpp
open LittleEndian Placement
set_option autoImplicit false

/-- A section to be written. -/
structure SectionSpec where
  name : List UInt8
  virtualSize : ℕ
  virtualAddress : ℕ
  sizeOfRawData : ℕ
  deriving DecidableEq, Repr

/-- What an image is made of: `named` has the names of the exports and the indices of their functions. -/
structure ImageSpec where
  sections : List SectionSpec
  functions : List ℕ
  named : List (List UInt8 × ℕ)
  deriving DecidableEq, Repr

def SectionSpec.headerBytes (s : SectionSpec) : List UInt8 :=
  s.name ++ List.replicate (8 - s.name.length) 0 ++ (encode 4 s.virtualSize ++
    (encode 4 s.virtualAddress ++ (encode 4 s.sizeOfRawData ++ List.replicate 20 0)))

namespace ImageSpec
variable (spec : ImageSpec)

/-! ## Offsets -/

def directoryAt : ℕ := 328 + 40 * spec.sections.length

def functionsAt : ℕ := spec.directoryAt + 40

def namesAt : ℕ := spec.functionsAt + 4 * spec.functions.length

def ordinalsAt : ℕ := spec.namesAt + 4 * spec.named.length

def stringsAt : ℕ := spec.ordinalsAt + 2 * spec.named.length

def cText (x : List UInt8 × ℕ) : List UInt8 := x.1 ++ [0]

/-- The offset of the `i`-th name. -/
def nameAt (i : ℕ) : ℕ := spec.stringsAt + ((spec.named.take i).flatMap cText).length

/-! ## The parts of the image -/

def dosHeader : List UInt8 := chars "MZ" ++ List.replicate 58 0 ++ encode 4 0x40

/-- The signature and the machine. -/
def signature : List UInt8 := chars "PE" ++ [0, 0] ++ encode 2 0x8664

/-- The signature, the file header and the optional header with its data directories. -/
def ntHeaders : List UInt8 :=
  signature ++ (encode 2 spec.sections.length ++
    (List.replicate 12 0 ++ (encode 2 240 ++ (List.replicate 114 0 ++
      (encode 4 spec.directoryAt ++ List.replicate 124 0)))))

def directory : List UInt8 :=
  List.replicate 20 0 ++ (encode 4 spec.functions.length ++ (encode 4 spec.named.length ++
    (encode 4 spec.functionsAt ++ (encode 4 spec.namesAt ++ encode 4 spec.ordinalsAt))))

def image : List UInt8 :=
  dosHeader ++ (spec.ntHeaders ++ (spec.sections.flatMap SectionSpec.headerBytes ++
    (spec.directory ++ (spec.functions.flatMap (encode 4) ++
      ((List.range spec.named.length).flatMap (fun i => encode 4 (spec.nameAt i)) ++
        (spec.named.flatMap (fun x => encode 2 x.2) ++ spec.named.flatMap cText))))))

/-- The names are C strings, those of the sections leave a byte of their field free, and all numbers
fit. -/
structure WellFormed : Prop where
  section_name : ∀ s ∈ spec.sections, IsSectionName s.name ∧ s.name.length < 8
  section_lt : ∀ s ∈ spec.sections,
    s.virtualSize < 2 ^ 32 ∧ s.virtualAddress < 2 ^ 32 ∧ s.sizeOfRawData < 2 ^ 32
  sections_lt : spec.sections.length < 2 ^ 16
  function_lt : ∀ rva ∈ spec.functions, rva < 2 ^ 32
  functions_le : spec.functions.length ≤ 2 ^ 16
  export_name : ∀ x ∈ spec.named, 0 ∉ x.1
  ordinal_lt : ∀ x ∈ spec.named, x.2 < spec.functions.length
  image_lt : spec.image.length < 2 ^ 31

variable {spec}

end ImageSpec

namespace SectionSpec
variable {s : SectionSpec}

theorem headerBytes_length (h : s.name.length < 8) : s.headerBytes.length = 40 := by
  simp only [headerBytes, List.length_append, encode_length, List.length_replicate]
  omega

/-- The header in the bytes of a section. -/
def header (s : SectionSpec) : SectionHeader := ⟨s.headerBytes⟩

theorem nameField_length (h : s.name.length < 8) :
    (s.name ++ List.replicate (8 - s.name.length) 0).length = 8 := by
  rw [List.length_append, List.length_replicate]
  omega

theorem header_named (h : s.name.length < 8) : s.header.Named s.name := by
  rw [SectionHeader.Named, header, headerBytes, List.take_left' (nameField_length h)]

theorem header_name (hname : 0 ∉ s.name) (h : s.name.length < 8) : s.header.name = .ok s.name := by
  obtain ⟨k, hk⟩ : ∃ k, 8 - s.name.length = k + 1 := ⟨7 - s.name.length, by omega⟩
  rw [SectionHeader.name, header, headerBytes, hk, List.replicate_succ, List.append_assoc]
  exact cString_append hname _

/-- The numbers of the header. -/
theorem header_fields (h : s.name.length < 8) (hsize : s.virtualSize < 2 ^ 32)
    (haddress : s.virtualAddress < 2 ^ 32) (hraw : s.sizeOfRawData < 2 ^ 32) :
    s.header.virtualSize = s.virtualSize ∧ s.header.virtualAddress = s.virtualAddress ∧
      s.header.sizeOfRawData = s.sizeOfRawData := by
  have hfields := (stands_self s.headerBytes).right
  rw [nameField_length h] at hfields
  have hnumber : ∀ {n offset : ℕ}, Stands (encode 4 n) s.headerBytes offset → n < 2 ^ 32 →
      decodeAt s.headerBytes offset 4 = n := by
    intro n offset hpart hn
    have hslice := hpart.slice
    rw [encode_length] at hslice
    rw [decodeAt, hslice, decode_encode_of_lt hn]
  exact ⟨hnumber hfields.left hsize, hnumber hfields.right.left haddress,
    hnumber hfields.right.right.left hraw⟩

end SectionSpec

namespace ImageSpec
variable {spec : ImageSpec}

/-! ## Where the parts stand -/

theorem dosHeader_length : dosHeader.length = 64 := by decide

theorem signature_length : signature.length = 6 := by decide

theorem ntHeaders_length : spec.ntHeaders.length = 264 := by
  simp only [ntHeaders, List.length_append, signature_length, encode_length, List.length_replicate]

theorem directory_length : spec.directory.length = 40 := by
  simp only [directory, List.length_append, encode_length, List.length_replicate]

theorem WellFormed.headerBytes_length (h : spec.WellFormed) :
    ∀ s ∈ spec.sections, s.headerBytes.length = 40 := fun s hs =>
  SectionSpec.headerBytes_length (h.section_name s hs).2

theorem stands_ntHeaders : Stands spec.ntHeaders spec.image 64 := by
  have hself := (stands_self spec.image).right.left
  rwa [dosHeader_length] at hself

theorem stands_sections : Stands (spec.sections.flatMap SectionSpec.headerBytes) spec.image 328 := by
  have hself := (stands_self spec.image).right.right.left
  rwa [dosHeader_length, ntHeaders_length] at hself

section Parts
variable (h : spec.WellFormed)
include h

/-- An offset of a part of the image fits into its field. -/
theorem WellFormed.lt_of_stands {part : List UInt8} {offset : ℕ}
    (hstands : Stands part spec.image offset) : offset < 256 ^ 4 := by
  have hle := hstands.length_le
  have hlt := h.image_lt
  omega

theorem stands_directory : Stands spec.directory spec.image spec.directoryAt := by
  have hself := (stands_self spec.image).right.right.right.left
  rwa [dosHeader_length, ntHeaders_length, flatMap_length h.headerBytes_length] at hself

theorem stands_functions : Stands (spec.functions.flatMap (encode 4)) spec.image spec.functionsAt := by
  have hself := (stands_self spec.image).right.right.right.right.left
  rwa [dosHeader_length, ntHeaders_length, flatMap_length h.headerBytes_length, directory_length] at hself

theorem stands_names : Stands ((List.range spec.named.length).flatMap fun i => encode 4 (spec.nameAt i))
    spec.image spec.namesAt := by
  have hself := (stands_self spec.image).right.right.right.right.right.left
  rwa [dosHeader_length, ntHeaders_length, flatMap_length h.headerBytes_length, directory_length,
    flatMap_length fun x _ => encode_length 4 x] at hself

theorem stands_ordinals : Stands (spec.named.flatMap fun x => encode 2 x.2) spec.image
    spec.ordinalsAt := by
  have hself := (stands_self spec.image).right.right.right.right.right.right.left
  rwa [dosHeader_length, ntHeaders_length, flatMap_length h.headerBytes_length, directory_length,
    flatMap_length fun x _ => encode_length 4 x, flatMap_length fun x _ => encode_length 4 (spec.nameAt x),
    List.length_range] at hself

theorem stands_strings : Stands (spec.named.flatMap cText) spec.image spec.stringsAt := by
  have hself := (stands_self spec.image).right.right.right.right.right.right.right
  rwa [dosHeader_length, ntHeaders_length, flatMap_length h.headerBytes_length, directory_length,
    flatMap_length fun x _ => encode_length 4 x, flatMap_length fun x _ => encode_length 4 (spec.nameAt x),
    List.length_range, flatMap_length fun x _ => encode_length 2 x.2] at hself

end Parts
end ImageSpec

/-! ## What is read of a part -/

namespace Span
variable {buffer : Span} {part : List UInt8} {offset : ℕ}

theorem inside_of_stands (h : Stands part buffer.bytes offset) : buffer.Inside offset part.length := by
  have hle := h.length_le
  exact ⟨by omega, by exact_mod_cast hle⟩

theorem sliceAt_of_stands (h : Stands part buffer.bytes offset) :
    buffer.sliceAt offset part.length = part := h.slice

theorem field_of_stands {w n : ℕ} (h : Stands (encode w n) buffer.bytes offset) (hn : n < 256 ^ w) :
    buffer.Inside offset w ∧ buffer.field offset w = n := by
  have hinside := inside_of_stands h
  have hslice := sliceAt_of_stands h
  rw [encode_length] at hinside hslice
  exact ⟨hinside, by rw [field, hslice, decode_encode_of_lt hn]⟩

theorem cStringAt_of_stands {text : List UInt8} (h : Stands (text ++ [0]) buffer.bytes offset)
    (htext : 0 ∉ text) : buffer.cStringAt offset = .ok text := by
  obtain ⟨rest, hrest⟩ := h.drop
  rw [cStringAt, hrest, List.append_assoc]
  exact cString_append htext rest

end Span

/-! ## The headers as the code reads them -/

namespace Module
open ImageSpec
variable {m : Module} {spec : ImageSpec}

section Headers
variable (hm : m.buffer.bytes = spec.image)
include hm

theorem lfanew_of_image : m.buffer.Inside 0x3c 4 ∧ m.lfanew = 0x40 := by
  have hstands : Stands (encode 4 0x40) m.buffer.bytes 0x3c :=
    hm ▸ (stands_self spec.image).left.right.at_eq (by decide)
  obtain ⟨hinside, hfield⟩ := Span.field_of_stands hstands (by decide)
  have hfield : m.buffer.field 0x3c 4 = 0x40 := hfield
  exact ⟨hinside, by rw [lfanew, hfield]; decide⟩

theorem sizeOfOptionalHeader_of_image :
    m.buffer.Inside (m.lfanew + 20) 2 ∧ m.buffer.field (m.lfanew + 20) 2 = 240 := by
  have hstands : Stands (encode 2 240) m.buffer.bytes 84 := hm ▸
    stands_ntHeaders.right.right.right.left.at_eq (by
      rw [signature_length, encode_length, List.length_replicate])
  rw [(lfanew_of_image hm).2]
  exact Span.field_of_stands hstands (by decide)

theorem numberOfSections_of_image (h : spec.sections.length < 2 ^ 16) :
    m.buffer.Inside (m.lfanew + 6) 2 ∧ m.numberOfSections = spec.sections.length := by
  have hstands : Stands (encode 2 spec.sections.length) m.buffer.bytes 70 := hm ▸
    stands_ntHeaders.right.left.at_eq (by rw [signature_length])
  rw [numberOfSections, (lfanew_of_image hm).2]
  exact Span.field_of_stands hstands h

variable (h : spec.WellFormed)
include h

theorem exportDirectory_of_image :
    m.buffer.Inside (m.lfanew + 136) 8 ∧ m.exportDirectory = spec.directoryAt := by
  have hstands : Stands (encode 4 spec.directoryAt ++ List.replicate 124 0) m.buffer.bytes 200 := hm ▸
    stands_ntHeaders.right.right.right.right.right.at_eq (by
      simp only [signature_length, encode_length, List.length_replicate])
  obtain ⟨-, hfield⟩ := Span.field_of_stands hstands.left (h.lt_of_stands (stands_directory h))
  have hle := hstands.length_le
  have hlen : (encode 4 spec.directoryAt ++ List.replicate 124 (0 : UInt8)).length = 128 := by
    rw [List.length_append, encode_length, List.length_replicate]
  have hsize : m.buffer.bytes.length = m.buffer.size := rfl
  rw [exportDirectory, (lfanew_of_image hm).2]
  exact ⟨⟨by omega, by omega⟩, hfield⟩

/-- The fields of the export directory. -/
theorem directory_of_image : m.buffer.Inside m.exportDirectory 40 ∧
    m.numberOfFunctions = spec.functions.length ∧ m.numberOfNames = spec.named.length ∧
    m.addressOfFunctions = spec.functionsAt ∧ m.addressOfNames = spec.namesAt ∧
    m.addressOfNameOrdinals = spec.ordinalsAt := by
  have hstands : Stands spec.directory m.buffer.bytes spec.directoryAt := hm ▸ stands_directory h
  have hinside := Span.inside_of_stands hstands
  rw [directory_length] at hinside
  have hfields := hstands.right
  rw [List.length_replicate] at hfields
  have hnumber : ∀ n, n < 2 ^ 31 → n < 256 ^ 4 := fun n hn => by omega
  have hfunctions := (stands_functions h).length_le
  have hnames := (stands_names h).length_le
  have hlt := h.image_lt
  rw [flatMap_length fun x _ => encode_length 4 x] at hfunctions
  rw [flatMap_length fun x _ => encode_length 4 (spec.nameAt x), List.length_range] at hnames
  rw [numberOfFunctions, numberOfNames, addressOfFunctions, addressOfNames, addressOfNameOrdinals,
    (exportDirectory_of_image hm h).2]
  have hplace : ∀ (offset : ℕ) {n : ℕ}, Stands (encode 4 n) m.buffer.bytes (spec.directoryAt + offset) →
      n < 256 ^ 4 → m.buffer.field (spec.directoryAt + offset) 4 = n := by
    intro offset n hpart hn
    have hfield := (Span.field_of_stands hpart hn).2
    rwa [Nat.cast_add] at hfield
  refine ⟨hinside, ?_, ?_, ?_, ?_, ?_⟩
  · exact hplace 20 hfields.left (by omega)
  · refine hplace 24 (hfields.right.left.at_eq ?_) (by omega)
    rw [encode_length]
  · refine hplace 28 (hfields.right.right.left.at_eq ?_)
      (h.lt_of_stands (stands_functions h))
    simp only [encode_length]
  · refine hplace 32 (hfields.right.right.right.left.at_eq ?_)
      (h.lt_of_stands (stands_names h))
    simp only [encode_length]
  · refine hplace 36 (hfields.right.right.right.right.at_eq ?_)
      (h.lt_of_stands (stands_ordinals h))
    simp only [encode_length]

/-! ### Exports -/

variable {i : ℕ} {x : List UInt8 × ℕ}

theorem name_of_image (hx : spec.named[i]? = some x) :
    m.nameRva i = spec.nameAt i ∧ m.buffer.cStringAt (m.nameRva i) = .ok x.1 := by
  have hi := (List.getElem?_eq_some_iff.mp hx).1
  have hstring : Stands (x.1 ++ [0]) spec.image (spec.nameAt i) := (stands_strings h).flatMap hx
  have hentry := (stands_names h).flatMap_const (fun k _ => encode_length 4 (spec.nameAt k))
    (List.getElem?_range hi)
  rw [← hm] at hentry
  obtain ⟨-, hfield⟩ := Span.field_of_stands hentry (h.lt_of_stands hstring)
  obtain ⟨-, -, -, -, hnames, -⟩ := directory_of_image hm h
  have hrva : m.nameRva i = spec.nameAt i := by
    rw [nameRva, hnames]
    exact hfield
  refine ⟨hrva, ?_⟩
  rw [hrva]
  exact Span.cStringAt_of_stands (hm ▸ hstring) (h.export_name x (List.mem_of_getElem? hx))

theorem ordinal_of_image (hx : spec.named[i]? = some x) : m.nameOrdinal i = x.2 := by
  have hlt := h.ordinal_lt x (List.mem_of_getElem? hx)
  have hle := h.functions_le
  have hentry := (stands_ordinals h).flatMap_const (fun x _ => encode_length 2 x.2) hx
  rw [← hm] at hentry
  obtain ⟨-, -, -, -, -, hordinals⟩ := directory_of_image hm h
  rw [nameOrdinal, hordinals]
  exact (Span.field_of_stands hentry (by omega)).2

theorem function_of_image {k rva : ℕ} (hrva : spec.functions[k]? = some rva) : m.functionRva k = rva := by
  have hentry := (stands_functions h).flatMap_const (fun x _ => encode_length 4 x) hrva
  rw [← hm] at hentry
  obtain ⟨-, -, -, hfunctions, -, -⟩ := directory_of_image hm h
  rw [functionRva, hfunctions]
  exact (Span.field_of_stands hentry (h.function_lt rva (List.mem_of_getElem? hrva))).2

theorem exportTable_of_image : m.ExportTable := by
  obtain ⟨hdirectory, hfunctionCount, hnameCount, hfunctions, hnames, hordinals⟩ :=
    directory_of_image hm h
  have hexists : ∀ i < m.numberOfNames, ∃ x, spec.named[i]? = some x := fun i hi =>
    ⟨_, List.getElem?_eq_getElem (by rwa [hnameCount] at hi)⟩
  refine ⟨(lfanew_of_image hm).1, (exportDirectory_of_image hm h).1, ?_, hdirectory, ?_, ?_, ?_,
    fun i hi => ?_, fun i hi => ?_⟩
  · rw [(exportDirectory_of_image hm h).2, directoryAt]
    omega
  · have hinside := Span.inside_of_stands (hm ▸ stands_names h)
    rwa [flatMap_length fun x _ => encode_length 4 (spec.nameAt x), List.length_range, ← hnameCount,
      ← hnames] at hinside
  · have hinside := Span.inside_of_stands (hm ▸ stands_ordinals h)
    rwa [flatMap_length fun x _ => encode_length 2 x.2, ← hnameCount, ← hordinals] at hinside
  · have hinside := Span.inside_of_stands (hm ▸ stands_functions h)
    rwa [flatMap_length fun x _ => encode_length 4 x, ← hfunctionCount, ← hfunctions] at hinside
  · obtain ⟨x, hx⟩ := hexists i hi
    exact (cString_eq_ok_iff.mp (name_of_image hm h hx).2).1
  · obtain ⟨x, hx⟩ := hexists i hi
    rw [ordinal_of_image hm h hx, hfunctionCount]
    exact h.ordinal_lt x (List.mem_of_getElem? hx)

theorem fetchExport_of_image (name : List UInt8) :
    m.fetchExport name = .ok ((spec.named.zipIdx.find? fun y => y.1.1 == name).map fun y =>
      m.exportAt name y.2) := by
  have htable := exportTable_of_image hm h
  obtain ⟨-, -, hnameCount, -⟩ := directory_of_image hm h
  rw [htable.fetchExport_eq, hnameCount, ← List.zipIdx_map_snd 0 spec.named]
  apply Run.findSomeM?_map_eq_find?
  rintro ⟨x, i⟩ hmem
  have hx : spec.named[i]? = some x := List.mk_mem_zipIdx_iff_getElem?.mp hmem
  have hi : i < m.numberOfNames := by
    rw [hnameCount]
    exact (List.getElem?_eq_some_iff.mp hx).1
  have hname := (name_of_image hm h hx).2
  have hentry := htable.entryInRange name hi
  by_cases he : x.1 = name
  · subst he
    rw [exportRound_eq_some hentry hname, if_pos (beq_self_eq_true _)]
  · rw [if_neg (by simpa using he)]
    exact (exportRound_eq_none_iff m name i).mpr ⟨hentry, by
      rw [hname]
      exact fun hsame => he (Except.ok.inj hsame)⟩

/-! ### Sections -/

theorem sectionTable_of_image :
    m.SectionTable (spec.sections.map SectionSpec.header) := by
  obtain ⟨hdos, hlfanew⟩ := lfanew_of_image hm
  obtain ⟨hsizeInside, hsize⟩ := sizeOfOptionalHeader_of_image hm
  obtain ⟨hnumberInside, hnumber⟩ := numberOfSections_of_image hm h.sections_lt
  refine ⟨⟨m.lfanew, _, _, ntHeaders_of_inside hdos, Span.bytesAt_of_inside hsizeInside,
    Span.bytesAt_of_inside hnumberInside, ?_, fun i header hheader => ?_⟩, fun header hheader => ?_⟩
  · rw [List.length_map, ← hnumber]
    rfl
  · rw [List.getElem?_map] at hheader
    obtain ⟨s, hs, rfl⟩ := Option.map_eq_some_iff.mp hheader
    have hstands := stands_sections.flatMap_const h.headerBytes_length hs
    rw [← hm] at hstands
    have hlen := h.headerBytes_length s (List.mem_of_getElem? hs)
    have hinside := Span.inside_of_stands hstands
    have hslice := Span.sliceAt_of_stands hstands
    rw [hlen] at hinside hslice
    have hplace : m.lfanew + 24 + (decode (m.buffer.sliceAt (m.lfanew + 20) 2) : ℕ) + 40 * (i : ℤ) =
        ((328 + 40 * i : ℕ) : ℤ) := by
      have hsize : decode (m.buffer.sliceAt (m.lfanew + 20) 2) = 240 := hsize
      rw [hsize, hlfanew]
      omega
    rw [hplace, Span.bytesAt_of_inside hinside, hslice]
    rfl
  · obtain ⟨s, hs, rfl⟩ := List.mem_map.mp hheader
    obtain ⟨hname, hlen⟩ := h.section_name s hs
    exact ⟨s.name, hname, SectionSpec.header_named hlen⟩

theorem fetchSection_of_image (name : List UInt8) :
    m.fetchSection name = .ok ((spec.sections.find? fun s => s.name == name).map fun s =>
      m.sectionOf s.header) := by
  rw [(sectionTable_of_image hm h).fetchSection_eq]
  apply Run.findSomeM?_map_eq_find?
  intro s hs
  obtain ⟨hname, hlen⟩ := h.section_name s hs
  rw [tryHeader, SectionSpec.header_name hname.nonzero hlen, Run.ok_bind]
  by_cases he : s.name = name
  · rw [if_pos he.symm, if_pos (beq_iff_eq.mpr he)]
    rfl
  · rw [if_neg (Ne.symm he), if_neg (by simpa using he)]
    rfl

end Headers

/-! ## Reading back -/

/-- For each name, the first section and the first export that were written under it are found, and
nothing is found under any other name. -/
structure ReadsBack (m : Module) (spec : ImageSpec) : Prop where
  sections : ∀ name, ∃ found, m.fetchSection name = .ok found ∧
    found.map (fun s => (s.address, s.size)) =
      (spec.sections.find? fun s => s.name == name).map fun s =>
        (m.address + s.virtualAddress, max s.sizeOfRawData s.virtualSize)
  exports : ∀ name, ∃ found, m.fetchExport name = .ok found ∧
    found.map (fun e => (e.name, e.virtualAddress, e.ordinal)) =
      (spec.named.find? fun x => x.1 == name).map fun x =>
        (name, m.address + spec.functions.getD x.2 0, x.2)

end Module

/-- What is written into an image is what the lookups find in it, wherever the image is loaded. -/
theorem image_readsBack (spec : ImageSpec) (h : spec.WellFormed) (m : Module)
    (hm : m.buffer.bytes = spec.image) : m.ReadsBack spec where
  sections := by
    intro name
    refine ⟨_, Module.fetchSection_of_image hm h name, ?_⟩
    rw [Option.map_map]
    refine Option.map_congr fun s hs => ?_
    have hmem := List.mem_of_find?_eq_some hs
    obtain ⟨hsize, haddress, hraw⟩ := h.section_lt s hmem
    obtain ⟨hsize, haddress, hraw⟩ :=
      SectionSpec.header_fields (h.section_name s hmem).2 hsize haddress hraw
    simp only [Function.comp_apply, Module.sectionOf, hsize, haddress, hraw]
  exports := by
    intro name
    refine ⟨_, Module.fetchExport_of_image hm h name, ?_⟩
    have hfirst : spec.named.find? (fun x => x.1 == name) =
        (spec.named.zipIdx.find? fun y => y.1.1 == name).map Prod.fst := by
      conv_lhs => rw [← List.zipIdx_map_fst 0 spec.named]
      rw [List.find?_map]
      rfl
    rw [hfirst, Option.map_map, Option.map_map]
    refine Option.map_congr fun y hy => ?_
    have hx : spec.named[y.2]? = some y.1 :=
      List.mk_mem_zipIdx_iff_getElem?.mp (List.mem_of_find?_eq_some hy)
    have hordinal := Module.ordinal_of_image hm h hx
    have hrva := Module.function_of_image hm h (List.getElem?_eq_getElem
      (h.ordinal_lt y.1 (List.mem_of_getElem? hx)))
    simp only [Function.comp_apply, Module.virtualAddress_exportAt, Module.ordinal_exportAt, hordinal,
      hrva, List.getD_eq_getElem?_getD, List.getElem?_eq_getElem
      (h.ordinal_lt y.1 (List.mem_of_getElem? hx)), Option.getD_some]
    rfl

/-- Two sections, and two names for one function. -/
def sampleSpec : ImageSpec where
  sections := [⟨chars ".text", 0x20, 0x1000, 0x200⟩, ⟨chars ".data", 0x180, 0x2000, 0x100⟩]
  functions := [0x1010]
  named := [(chars "open", 0), (chars "close", 0)]

theorem image_readsBack_sample :
    (rawModule sampleSpec.image (by decide +kernel)).ReadsBack sampleSpec := by
  refine image_readsBack sampleSpec ?_ (rawModule sampleSpec.image (by decide +kernel)) rfl
  have hnames : ∀ s ∈ sampleSpec.sections, s.name ≠ [] ∧ s.name.length < 8 ∧ 0 ∉ s.name := by
    decide +kernel
  refine ⟨fun s hs => ?_, ?_, ?_, ?_, ?_, ?_, ?_, ?_⟩
  · obtain ⟨hne, hlt, hzero⟩ := hnames s hs
    exact ⟨⟨hne, Nat.le_of_lt hlt, hzero⟩, hlt⟩
  all_goals decide +kernel

end Wincpp
