import Wincpp.Modules.Exports

/-! What `fetch_export` returns for a well-formed export directory.

An export keeps the index of its function, which it calls its ordinal; the ordinal of the image format
is that index above the `Base` of the directory. And the address of a function may be that of a
forwarder string in the directory itself. `fetch_export` looks at neither (`exportExact_iff`).
-/
namespace Wincpp
open LittleEndian
set_option autoImplicit false

namespace Export
variable (e : Export)

/-- `export_t::name`. -/
def name : List UInt8 := e.exportName

/-- `export_t::virtual_address`. -/
def virtualAddress : ℕ := asSize (e.mod.address + e.rva)

/-- `export_t::ordinal`. -/
def ordinal : ℕ := e.ordinalValue

end Export

namespace Module
variable (m : Module)

/-! ## What the directory says -/

/-- `Base`, the ordinal of the first function. -/
def ordinalBase : ℕ := m.buffer.field (m.exportDirectory + 16) 4

def numberOfFunctions : ℕ := m.buffer.field (m.exportDirectory + 20) 4

def functionRva (k : ℕ) : ℕ := m.buffer.field (m.addressOfFunctions + 4 * k) 4

/-- The size of the export directory, as the data directory gives it. -/
def exportDirectorySize : ℕ := m.buffer.field (m.lfanew + 136 + 4) 4

def InExportDirectory (address : ℕ) : Prop :=
  m.address + m.exportDirectory ≤ address ∧
    address < m.address + m.exportDirectory + m.exportDirectorySize

/-- The `k`-th function is a forwarder: its entry is the place of a string in the directory. -/
def Forwarded (k : ℕ) : Prop :=
  m.exportDirectory ≤ m.functionRva k ∧ m.functionRva k < m.exportDirectory + m.exportDirectorySize

/-- A well-formed export directory: it is in the image, and so are its three arrays and its names, and
each name has the index of a function. -/
structure ExportTable : Prop where
  dosHeader : m.buffer.Inside 0x3c 4
  dataDirectory : m.buffer.Inside (m.lfanew + 136) 8
  present : m.exportDirectory ≠ 0
  directory : m.buffer.Inside m.exportDirectory 40
  names : m.buffer.Inside m.addressOfNames (4 * m.numberOfNames)
  nameOrdinals : m.buffer.Inside m.addressOfNameOrdinals (2 * m.numberOfNames)
  functions : m.buffer.Inside m.addressOfFunctions (4 * m.numberOfFunctions)
  terminated : ∀ i < m.numberOfNames, 0 ∈ m.buffer.bytes.drop (m.nameRva i)
  nameOrdinal_lt : ∀ i < m.numberOfNames, m.nameOrdinal i < m.numberOfFunctions

variable {m} {name : List UInt8} {i : ℕ}

theorem ExportTable.entryInRange (h : m.ExportTable) (name : List UInt8) (hi : i < m.numberOfNames) :
    m.EntryInRange name i := by
  have hk := h.nameOrdinal_lt i hi
  have hnames := h.names.2
  have hordinals := h.nameOrdinals.2
  have hfunctions := h.functions.2
  refine ⟨⟨by omega, by omega⟩, h.terminated i hi, fun _ => ⟨⟨by omega, by omega⟩, by omega, by omega⟩⟩

theorem ExportTable.fetchExport_eq (h : m.ExportTable) :
    m.fetchExport name = (List.range' 0 m.numberOfNames).findSomeM?
      (m.exportRound name m.addressOfNames m.addressOfNameOrdinals m.addressOfFunctions) := by
  have hfield : ∀ offset : ℤ, 0 ≤ offset → offset + 4 ≤ 40 →
      m.buffer.Inside (m.exportDirectory + offset) 4 := by
    intro offset hlow hhigh
    have hdirectory := h.directory.2
    exact ⟨by omega, by omega⟩
  rw [fetchExport, ntHeaders_of_inside h.dosHeader, Run.ok_bind, Span.bytesAt_of_inside h.dataDirectory,
    Run.ok_bind, decodeAt_directoryHeader, if_neg h.present,
    Span.bytesAt_of_inside (hfield 32 (by decide) (by decide)), Run.ok_bind,
    Span.bytesAt_of_inside (hfield 36 (by decide) (by decide)), Run.ok_bind,
    Span.bytesAt_of_inside (hfield 28 (by decide) (by decide)), Run.ok_bind,
    Span.bytesAt_of_inside (hfield 24 (by decide) (by decide)), Run.ok_bind,
    fetchExportLoop_eq_findSomeM?]
  rfl

/-- The export with the `i`-th name. -/
def exportAt (m : Module) (name : List UInt8) (i : ℕ) : Export :=
  ⟨m, name, m.functionRva (m.nameOrdinal i), m.nameOrdinal i⟩

theorem exportRound_eq_some (h : m.EntryInRange name i)
    (hname : m.buffer.cStringAt (m.nameRva i) = .ok name) :
    m.exportRound name m.addressOfNames m.addressOfNameOrdinals m.addressOfFunctions i =
      .ok (some (m.exportAt name i)) := by
  obtain ⟨hordinal, hfunction⟩ := h.found hname
  have htext : m.buffer.cStringAt (m.buffer.field (m.addressOfNames + 4 * i) 4) = .ok name := hname
  rw [exportRound_of_inside h.nameRva, htext, Run.ok_bind, if_pos rfl, exportOf,
    Span.bytesAt_of_inside hordinal, Run.ok_bind]
  have hentry : m.buffer.bytesAt (m.addressOfFunctions + 4 * decode (m.buffer.sliceAt
      (m.addressOfNameOrdinals + 2 * i) 2)) 4 = _ := Span.bytesAt_of_inside hfunction
  rw [hentry]
  rfl

/-- `fetch_export` returns the first entry of the name. -/
theorem ExportTable.fetchExport_of_first (h : m.ExportTable) (hi : i < m.numberOfNames)
    (hname : m.buffer.cStringAt (m.nameRva i) = .ok name)
    (hfirst : ∀ j < i, m.buffer.cStringAt (m.nameRva j) ≠ .ok name) :
    m.fetchExport name = .ok (some (m.exportAt name i)) := by
  obtain ⟨rest, hrest⟩ : ∃ rest, m.numberOfNames = i + (rest + 1) :=
    ⟨m.numberOfNames - i - 1, by omega⟩
  have hsplit : List.range' 0 m.numberOfNames = List.range' 0 i ++ i :: List.range' (i + 1) rest := by
    rw [hrest, ← List.range'_append_1, Nat.zero_add, List.range'_succ]
  rw [h.fetchExport_eq, hsplit]
  apply Run.findSomeM?_of_first _ (exportRound_eq_some (h.entryInRange name hi) hname)
  intro j hj
  have hj : j < i := by simpa using hj
  exact (exportRound_eq_none_iff m name j).mpr ⟨h.entryInRange name (hj.trans hi), hfirst j hj⟩

/-- The export that is found under the `i`-th name has the ordinal and the address of its function, and
the address is not one in the export directory. -/
def ExportExact (m : Module) (name : List UInt8) (i : ℕ) : Prop :=
  ∃ e, m.fetchExport name = .ok (some e) ∧ e.ordinal = m.ordinalBase + m.nameOrdinal i ∧
    e.virtualAddress = m.address + m.functionRva (m.nameOrdinal i) ∧
    ¬ m.InExportDirectory e.virtualAddress

theorem ordinal_exportAt : (m.exportAt name i).ordinal = m.nameOrdinal i := by
  rw [Export.ordinal, exportAt]

theorem virtualAddress_exportAt :
    (m.exportAt name i).virtualAddress = m.address + m.functionRva (m.nameOrdinal i) := by
  have haddress := m.address_lt
  have hlt : m.functionRva (m.nameOrdinal i) < 2 ^ 32 := decodeAt_lt ..
  simp only [Export.virtualAddress, exportAt]
  rw [← Nat.cast_add, asSize_natCast (by omega)]

theorem inExportDirectory_iff : m.InExportDirectory (m.exportAt name i).virtualAddress ↔
    m.Forwarded (m.nameOrdinal i) := by
  rw [virtualAddress_exportAt, InExportDirectory, Forwarded]
  omega

end Module

/-- The export that is found under a name of a well-formed directory has the right ordinal and an address
outside of the directory exactly when `Base` is 0 and its function is not a forwarder. -/
theorem exportExact_iff (m : Module) (name : List UInt8) (i : ℕ) (htable : m.ExportTable)
    (hi : i < m.numberOfNames) (hname : m.buffer.cStringAt (m.nameRva i) = .ok name)
    (hfirst : ∀ j < i, m.buffer.cStringAt (m.nameRva j) ≠ .ok name) :
    m.ExportExact name i ↔ m.ordinalBase = 0 ∧ ¬ m.Forwarded (m.nameOrdinal i) := by
  have hfound := htable.fetchExport_of_first hi hname hfirst
  constructor
  · rintro ⟨e, he, hexact, -, hdirectory⟩
    obtain rfl : m.exportAt name i = e :=
      Option.some.inj (Except.ok.inj (hfound.symm.trans he))
    rw [Module.inExportDirectory_iff] at hdirectory
    rw [Module.ordinal_exportAt, Nat.right_eq_add] at hexact
    exact ⟨hexact, hdirectory⟩
  · rintro ⟨hbase, hforwarded⟩
    refine ⟨_, hfound, ?_, Module.virtualAddress_exportAt, ?_⟩
    · rw [Module.ordinal_exportAt, hbase, Nat.zero_add]
    · rwa [Module.inExportDirectory_iff]

/-! ### An image with one export -/

/-- The export directory stands at 208. Its function `DllMain` has the ordinal 1 and is forwarded to
`NTDLL.Foo`. -/
def forwarderImage : List UInt8 :=
  chars "MZ" ++ List.replicate 58 0 ++ encode 4 0x40 ++ chars "PE" ++ List.replicate 134 0 ++
    encode 4 208 ++ encode 4 68 ++ List.replicate 16 0 ++ encode 4 1 ++ encode 4 1 ++ encode 4 1 ++
    encode 4 248 ++ encode 4 252 ++ encode 4 256 ++ encode 4 266 ++ encode 4 258 ++ encode 2 0 ++
    chars "DllMain" ++ [0] ++ chars "NTDLL.Foo" ++ [0]

def forwarderModule : Module := rawModule forwarderImage (by decide +kernel)

theorem forwarderModule_table : forwarderModule.ExportTable where
  dosHeader := by decide +kernel
  dataDirectory := by decide +kernel
  present := by decide +kernel
  directory := by decide +kernel
  names := by decide +kernel
  nameOrdinals := by decide +kernel
  functions := by decide +kernel
  terminated := by decide +kernel
  nameOrdinal_lt := by decide +kernel

theorem forwarderModule_name : 0 < forwarderModule.numberOfNames ∧
    forwarderModule.buffer.cStringAt (forwarderModule.nameRva 0) = .ok (chars "DllMain") := by
  decide +kernel

/-- The ordinal is too small, and the address is the one of the forwarder string. -/
theorem fetchExport_forwarder :
    ∃ e, forwarderModule.fetchExport (chars "DllMain") = .ok (some e) ∧ e.ordinal = 0 ∧
      forwarderModule.ordinalBase + forwarderModule.nameOrdinal 0 = 1 ∧
      forwarderModule.InExportDirectory e.virtualAddress := by
  have hfound := forwarderModule_table.fetchExport_of_first forwarderModule_name.1
    forwarderModule_name.2 (by simp)
  refine ⟨_, hfound, ?_, by decide +kernel, ?_⟩
  · rw [Module.ordinal_exportAt]
    decide +kernel
  · rw [Module.inExportDirectory_iff]
    exact ⟨by decide +kernel, by decide +kernel⟩

theorem exportExact_iff_forwarder :
    forwarderModule.ExportExact (chars "DllMain") 0 ↔
      forwarderModule.ordinalBase = 0 ∧ ¬ forwarderModule.Forwarded (forwarderModule.nameOrdinal 0) :=
  exportExact_iff forwarderModule (chars "DllMain") 0 forwarderModule_table forwarderModule_name.1
    forwarderModule_name.2 (by simp)

end Wincpp
