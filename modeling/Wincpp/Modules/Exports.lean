import Wincpp.Modules.SectionNames

/-! Exports (`fetch_export`, `modules/export.cpp`), and what the lookups in an image read.

The code checks none of the offsets, counts and indices that it takes from an image. The images on
which it stays inside the buffer are given by `SectionsInRange` and `ExportsInRange`, read from the
bytes of the buffer alone; on all others it reads outside of it (`reads_inside_iff`).
-/
namespace Wincpp
open LittleEndian
set_option autoImplicit false

namespace Span
variable (buffer : Span)

/-- The buffer has `n` bytes at `offset`. -/
def Inside (offset : ℤ) (n : ℕ) : Prop := 0 ≤ offset ∧ offset + n ≤ buffer.size

instance (offset : ℤ) (n : ℕ) : Decidable (buffer.Inside offset n) :=
  inferInstanceAs (Decidable (_ ∧ _))

def sliceAt (offset : ℤ) (n : ℕ) : List UInt8 := (buffer.bytes.drop offset.toNat).take n

/-- The number in the `n` bytes at `offset`. -/
def field (offset : ℤ) (n : ℕ) : ℕ := decode (buffer.sliceAt offset n)

/-- The C string at an offset. -/
def cStringAt (offset : ℕ) : Run (List UInt8) := cString (buffer.bytes.drop offset)

variable {buffer} {offset : ℤ} {n : ℕ}

theorem bytesAt_of_inside (h : buffer.Inside offset n) :
    buffer.bytesAt offset n = .ok (buffer.sliceAt offset n) := if_pos h

theorem exists_bytesAt_iff : (∃ bytes, buffer.bytesAt offset n = .ok bytes) ↔ buffer.Inside offset n := by
  refine ⟨fun ⟨bytes, h⟩ => ?_, fun h => ⟨_, bytesAt_of_inside h⟩⟩
  by_contra hno
  rw [Inside] at hno
  rw [bytesAt, if_neg hno] at h
  cases h

/-- What a run that starts with a read needs. -/
theorem exists_bytesAt_bind_iff {α : Type} {f : List UInt8 → Run α} :
    (∃ a, buffer.bytesAt offset n >>= f = .ok a) ↔
      buffer.Inside offset n ∧ ∃ a, f (buffer.sliceAt offset n) = .ok a :=
  Run.exists_bind_eq_ok_of bytesAt_of_inside exists_bytesAt_iff.mp

end Span

/-- `export_t`. -/
structure Export where
  mod : Module
  exportName : List UInt8
  rva : ℕ
  ordinalValue : ℕ

namespace Module
variable (m : Module)

/-! ## `fetch_export` -/

/-- The export with the `i`-th name: the ordinal is an index into the functions. -/
def exportOf (exportName : List UInt8) (ordinals functions i : ℕ) : Run Export := do
  let ordinal ← m.buffer.bytesAt (ordinals + 2 * i) 2
  let address ← m.buffer.bytesAt (functions + 4 * decode ordinal) 4
  return ⟨m, exportName, decode address, decode ordinal⟩

/-- The rounds of the loop over the names. `names`, `ordinals` and `functions` are the offsets of the
three arrays. -/
def fetchExportLoop (name : List UInt8) (names ordinals functions : ℕ) :
    ℕ → ℕ → Run (Option Export)
  | _, 0 => return none
  | i, rest + 1 => do
    let nameRva ← m.buffer.bytesAt (names + 4 * i) 4
    let exportName ← m.buffer.cStringAt (decode nameRva)
    if name = exportName then
      return some (← m.exportOf exportName ordinals functions i)
    else
      fetchExportLoop name names ordinals functions (i + 1) rest

/-- `fetch_export`. The first entry of the data directory stands 136 bytes behind the NT headers. -/
def fetchExport (name : List UInt8) : Run (Option Export) := do
  let nt ← m.ntHeaders
  let directoryHeader ← m.buffer.bytesAt (nt + 136) 8
  let exportDirectory := decodeAt directoryHeader 0 4
  if exportDirectory = 0 then
    return none
  else do
    let names ← m.buffer.bytesAt (exportDirectory + 32) 4
    let ordinals ← m.buffer.bytesAt (exportDirectory + 36) 4
    let functions ← m.buffer.bytesAt (exportDirectory + 28) 4
    let numberOfNames ← m.buffer.bytesAt (exportDirectory + 24) 4
    m.fetchExportLoop name (decode names) (decode ordinals) (decode functions) 0
      (decode numberOfNames)

/-! ## What the buffer says -/

def lfanew : ℤ := asInt32 (m.buffer.field 0x3c 4)

def numberOfSections : ℕ := m.buffer.field (m.lfanew + 6) 2

def firstSection : ℤ := m.lfanew + 24 + m.buffer.field (m.lfanew + 20) 2

def sectionHeader (i : ℕ) : SectionHeader := ⟨m.buffer.sliceAt (m.firstSection + 40 * i) 40⟩

def exportDirectory : ℕ := m.buffer.field (m.lfanew + 136) 4

def numberOfNames : ℕ := m.buffer.field (m.exportDirectory + 24) 4

def addressOfFunctions : ℕ := m.buffer.field (m.exportDirectory + 28) 4

def addressOfNames : ℕ := m.buffer.field (m.exportDirectory + 32) 4

def addressOfNameOrdinals : ℕ := m.buffer.field (m.exportDirectory + 36) 4

def nameRva (i : ℕ) : ℕ := m.buffer.field (m.addressOfNames + 4 * i) 4

def nameOrdinal (i : ℕ) : ℕ := m.buffer.field (m.addressOfNameOrdinals + 2 * i) 2

/-- Everything that `fetch_section` reads is inside the buffer: the headers, and each entry of the
section table up to the first one of the name, whose name must end before the entry does. -/
structure SectionsInRange (name : List UInt8) : Prop where
  dosHeader : m.buffer.Inside 0x3c 4
  sizeOfOptionalHeader : m.buffer.Inside (m.lfanew + 20) 2
  numberOfSections : m.buffer.Inside (m.lfanew + 6) 2
  entry : ∀ i < m.numberOfSections, (∀ j < i, (m.sectionHeader j).name ≠ .ok name) →
    m.buffer.Inside (m.firstSection + 40 * i) 40 ∧ 0 ∈ (m.sectionHeader i).bytes

/-- What `fetch_export` reads of the `i`-th name is inside the buffer: its entry in the name array, the
string, and if this is the name that is looked for, its ordinal and its function. -/
structure EntryInRange (name : List UInt8) (i : ℕ) : Prop where
  nameRva : m.buffer.Inside (m.addressOfNames + 4 * i) 4
  terminated : 0 ∈ m.buffer.bytes.drop (m.nameRva i)
  found : m.buffer.cStringAt (m.nameRva i) = .ok name →
    m.buffer.Inside (m.addressOfNameOrdinals + 2 * i) 2 ∧
    m.buffer.Inside (m.addressOfFunctions + 4 * m.nameOrdinal i) 4

/-- Everything that `fetch_export` reads of an export directory is inside the buffer: its fields, and
each entry of the name array up to the first one of the name. -/
structure DirectoryInRange (name : List UInt8) : Prop where
  addressOfNames : m.buffer.Inside (m.exportDirectory + 32) 4
  addressOfNameOrdinals : m.buffer.Inside (m.exportDirectory + 36) 4
  addressOfFunctions : m.buffer.Inside (m.exportDirectory + 28) 4
  numberOfNames : m.buffer.Inside (m.exportDirectory + 24) 4
  entry : ∀ i < m.numberOfNames, (∀ j < i, m.buffer.cStringAt (m.nameRva j) ≠ .ok name) →
    m.EntryInRange name i

structure ExportsInRange (name : List UInt8) : Prop where
  dosHeader : m.buffer.Inside 0x3c 4
  dataDirectory : m.buffer.Inside (m.lfanew + 136) 8
  directory : m.exportDirectory ≠ 0 → m.DirectoryInRange name

variable {m} {name : List UInt8}

theorem ntHeaders_of_inside (h : m.buffer.Inside 0x3c 4) : m.ntHeaders = .ok m.lfanew := by
  rw [ntHeaders, Span.bytesAt_of_inside h]
  rfl

theorem exists_ntHeaders_iff : (∃ nt, m.ntHeaders = .ok nt) ↔ m.buffer.Inside 0x3c 4 := by
  refine ⟨fun h => ?_, fun h => ⟨_, ntHeaders_of_inside h⟩⟩
  unfold ntHeaders at h
  exact (Span.exists_bytesAt_bind_iff.mp h).1

theorem exists_ntHeaders_bind_iff {α : Type} {f : ℤ → Run α} :
    (∃ a, m.ntHeaders >>= f = .ok a) ↔ m.buffer.Inside 0x3c 4 ∧ ∃ a, f m.lfanew = .ok a :=
  Run.exists_bind_eq_ok_of ntHeaders_of_inside exists_ntHeaders_iff.mp

/-! ## Sections -/

theorem fetchSectionLoop_eq_findSomeM? (first : ℤ) (i rest : ℕ) :
    m.fetchSectionLoop name first i rest =
      (List.range' i rest).findSomeM? (m.sectionRound name first) := by
  induction rest generalizing i with
  | zero => rfl
  | succ rest ih =>
    rw [fetchSectionLoop_succ, List.range'_succ, List.findSomeM?_cons, ih]
    congr 1
    funext found
    cases found <;> rfl

theorem exists_tryHeader_iff {header : SectionHeader} :
    (∃ o, m.tryHeader name header = .ok o) ↔ 0 ∈ header.bytes := by
  rw [← exists_cString_iff, tryHeader, Run.exists_bind_eq_ok]
  constructor
  · rintro ⟨text, htext, -⟩
    exact ⟨text, htext⟩
  · rintro ⟨text, htext⟩
    refine ⟨text, htext, ?_⟩
    split
    · exact ⟨_, rfl⟩
    · exact ⟨_, rfl⟩

theorem tryHeader_eq_none_iff {header : SectionHeader} :
    m.tryHeader name header = .ok none ↔ 0 ∈ header.bytes ∧ header.name ≠ .ok name := by
  rw [← exists_cString_iff]
  constructor
  · intro h
    obtain ⟨text, htext, h⟩ := Run.bind_eq_ok h
    split at h
    · cases h
    · rename_i hne
      refine ⟨⟨text, htext⟩, fun hsame => ?_⟩
      cases htext.symm.trans hsame
      exact hne rfl
  · rintro ⟨⟨text, htext⟩, hmiss⟩
    apply tryHeader_of_ne htext
    rintro rfl
    exact hmiss htext

theorem sectionRound_of_inside {i : ℕ} (h : m.buffer.Inside (m.firstSection + 40 * i) 40) :
    m.sectionRound name m.firstSection i = m.tryHeader name (m.sectionHeader i) := by
  rw [sectionRound, Span.bytesAt_of_inside h, Run.map_ok, Run.ok_bind, sectionHeader]

theorem inside_of_sectionRound {i : ℕ} {o : Option Section}
    (h : m.sectionRound name m.firstSection i = .ok o) :
    m.buffer.Inside (m.firstSection + 40 * i) 40 := by
  obtain ⟨header, hheader, -⟩ := Run.bind_eq_ok h
  obtain ⟨bytes, hbytes, -⟩ := Run.map_eq_ok hheader
  exact Span.exists_bytesAt_iff.mp ⟨bytes, hbytes⟩

theorem exists_sectionRound_iff (m : Module) (name : List UInt8) (i : ℕ) :
    (∃ o, m.sectionRound name m.firstSection i = .ok o) ↔
      m.buffer.Inside (m.firstSection + 40 * i) 40 ∧ 0 ∈ (m.sectionHeader i).bytes := by
  constructor
  · rintro ⟨o, ho⟩
    have hin := inside_of_sectionRound ho
    rw [sectionRound_of_inside hin] at ho
    exact ⟨hin, exists_tryHeader_iff.mp ⟨o, ho⟩⟩
  · rintro ⟨hin, hzero⟩
    rw [sectionRound_of_inside hin]
    exact exists_tryHeader_iff.mpr hzero

theorem sectionRound_eq_none_iff (m : Module) (name : List UInt8) (i : ℕ) :
    m.sectionRound name m.firstSection i = .ok none ↔
      (m.buffer.Inside (m.firstSection + 40 * i) 40 ∧ 0 ∈ (m.sectionHeader i).bytes) ∧
        ¬ (m.sectionHeader i).name = .ok name := by
  constructor
  · intro h
    have hin := inside_of_sectionRound h
    rw [sectionRound_of_inside hin, tryHeader_eq_none_iff] at h
    exact ⟨⟨hin, h.1⟩, h.2⟩
  · rintro ⟨⟨hin, hzero⟩, hmiss⟩
    rw [sectionRound_of_inside hin]
    exact tryHeader_eq_none_iff.mpr ⟨hzero, hmiss⟩

theorem exists_fetchSection_iff :
    (∃ o, m.fetchSection name = .ok o) ↔ m.SectionsInRange name := by
  simp only [fetchSection, exists_ntHeaders_bind_iff, Span.exists_bytesAt_bind_iff,
    fetchSectionLoop_eq_findSomeM?]
  have hloop := Run.findSomeM?_range'_ok_iff (exists_sectionRound_iff m name)
    (sectionRound_eq_none_iff m name) 0 m.numberOfSections
  constructor
  · rintro ⟨hdos, hsize, hnumber, h⟩
    refine ⟨hdos, hsize, hnumber, fun i hi hmiss => ?_⟩
    exact hloop.mp h i (Nat.zero_le i) (by omega) fun j _ hj => hmiss j hj
  · rintro ⟨hdos, hsize, hnumber, hentry⟩
    refine ⟨hdos, hsize, hnumber, hloop.mpr fun i _ hi hmiss => ?_⟩
    exact hentry i (by omega) fun j hj => hmiss j (Nat.zero_le j) hj

/-! ## Exports -/

def exportRound (m : Module) (name : List UInt8) (names ordinals functions i : ℕ) :
    Run (Option Export) := do
  let nameRva ← m.buffer.bytesAt (names + 4 * i) 4
  let exportName ← m.buffer.cStringAt (decode nameRva)
  if name = exportName then
    return some (← m.exportOf exportName ordinals functions i)
  else
    return none

section Rounds
variable {names ordinals functions i : ℕ}

theorem fetchExportLoop_eq_findSomeM? (rest : ℕ) :
    m.fetchExportLoop name names ordinals functions i rest =
      (List.range' i rest).findSomeM? (m.exportRound name names ordinals functions) := by
  induction rest generalizing i with
  | zero => rfl
  | succ rest ih =>
    rw [fetchExportLoop, List.range'_succ, List.findSomeM?_cons, exportRound, ih]
    cases m.buffer.bytesAt (names + 4 * i) 4 with
    | error e => rfl
    | ok nameRva =>
      rw [Run.ok_bind, Run.ok_bind]
      cases m.buffer.cStringAt (decode nameRva) with
      | error e => rfl
      | ok exportName =>
        rw [Run.ok_bind, Run.ok_bind]
        split
        · cases m.exportOf exportName ordinals functions i <;> rfl
        · rfl

theorem exportRound_of_inside (h : m.buffer.Inside (names + 4 * i) 4) :
    m.exportRound name names ordinals functions i =
      m.buffer.cStringAt (m.buffer.field (names + 4 * i) 4) >>= fun exportName =>
        if name = exportName then do return some (← m.exportOf exportName ordinals functions i)
        else return none := by
  rw [exportRound, Span.bytesAt_of_inside h, Run.ok_bind, Span.field]

theorem inside_of_exportRound {o : Option Export}
    (h : m.exportRound name names ordinals functions i = .ok o) :
    m.buffer.Inside (names + 4 * i) 4 := by
  obtain ⟨nameRva, hnameRva, -⟩ := Run.bind_eq_ok h
  exact Span.exists_bytesAt_iff.mp ⟨nameRva, hnameRva⟩

theorem exists_exportOf_iff {exportName : List UInt8} :
    (∃ e, m.exportOf exportName ordinals functions i = .ok e) ↔
      m.buffer.Inside (ordinals + 2 * i) 2 ∧
        m.buffer.Inside (functions + 4 * m.buffer.field (ordinals + 2 * i) 2) 4 := by
  rw [exportOf, Span.exists_bytesAt_bind_iff, Span.exists_bytesAt_bind_iff]
  simp [Span.field]

end Rounds

/-- The name of an entry is in the buffer, and so are the ordinal and the function if it is `name`. -/
theorem exists_exportRound_iff (m : Module) (name : List UInt8) (i : ℕ) :
    (∃ o, m.exportRound name m.addressOfNames m.addressOfNameOrdinals m.addressOfFunctions i =
        .ok o) ↔ m.EntryInRange name i := by
  constructor
  · rintro ⟨o, ho⟩
    have hin := inside_of_exportRound ho
    rw [exportRound_of_inside hin] at ho
    obtain ⟨exportName, hexportName, ho⟩ := Run.bind_eq_ok ho
    refine ⟨hin, exists_cString_iff.mp ⟨exportName, hexportName⟩, fun hsame => ?_⟩
    cases hexportName.symm.trans hsame
    rw [if_pos rfl] at ho
    obtain ⟨e, he, -⟩ := Run.bind_eq_ok ho
    exact exists_exportOf_iff.mp ⟨e, he⟩
  · rintro ⟨hin, hzero, hfound⟩
    obtain ⟨exportName, hexportName⟩ := exists_cString_iff.mpr hzero
    rw [exportRound_of_inside hin, Run.exists_bind_eq_ok]
    refine ⟨exportName, hexportName, ?_⟩
    split
    · subst_vars
      obtain ⟨e, he⟩ := exists_exportOf_iff.mpr (hfound hexportName)
      exact ⟨some e, by rw [he]; rfl⟩
    · exact ⟨none, rfl⟩

theorem exportRound_eq_none_iff (m : Module) (name : List UInt8) (i : ℕ) :
    m.exportRound name m.addressOfNames m.addressOfNameOrdinals m.addressOfFunctions i = .ok none ↔
      m.EntryInRange name i ∧ ¬ m.buffer.cStringAt (m.nameRva i) = .ok name := by
  constructor
  · intro h
    refine ⟨(exists_exportRound_iff m name i).mp ⟨none, h⟩, fun hsame => ?_⟩
    rw [exportRound_of_inside (inside_of_exportRound h)] at h
    obtain ⟨exportName, hexportName, h⟩ := Run.bind_eq_ok h
    cases hexportName.symm.trans hsame
    rw [if_pos rfl] at h
    obtain ⟨e, -, h⟩ := Run.bind_eq_ok h
    cases h
  · rintro ⟨⟨hin, hzero, -⟩, hmiss⟩
    obtain ⟨exportName, hexportName⟩ := exists_cString_iff.mpr hzero
    have hne : name ≠ exportName := by
      rintro rfl
      exact hmiss hexportName
    have hname : m.buffer.cStringAt (m.buffer.field (m.addressOfNames + 4 * i) 4) = .ok exportName :=
      hexportName
    rw [exportRound_of_inside hin, hname, Run.ok_bind, if_neg hne]
    rfl

theorem decodeAt_directoryHeader :
    decodeAt (m.buffer.sliceAt (m.lfanew + 136) 8) 0 4 = m.exportDirectory := by
  rw [decodeAt, Span.sliceAt, List.drop_zero, List.take_take, exportDirectory, Span.field,
    Span.sliceAt]
  rfl

theorem exists_fetchExport_iff : (∃ o, m.fetchExport name = .ok o) ↔ m.ExportsInRange name := by
  have hloop := Run.findSomeM?_range'_ok_iff (exists_exportRound_iff m name)
    (exportRound_eq_none_iff m name) 0 m.numberOfNames
  unfold fetchExport
  simp only [exists_ntHeaders_bind_iff, Span.exists_bytesAt_bind_iff, decodeAt_directoryHeader]
  by_cases hzero : m.exportDirectory = 0
  · simp only [if_pos hzero]
    constructor
    · rintro ⟨hdos, hdirectory, -⟩
      exact ⟨hdos, hdirectory, fun hne => absurd hzero hne⟩
    · rintro ⟨hdos, hdirectory, -⟩
      exact ⟨hdos, hdirectory, none, rfl⟩
  · simp only [if_neg hzero, Span.exists_bytesAt_bind_iff, fetchExportLoop_eq_findSomeM?]
    constructor
    · rintro ⟨hdos, hdirectory, hnames, hordinals, hfunctions, hnumber, h⟩
      refine ⟨hdos, hdirectory, fun _ => ⟨hnames, hordinals, hfunctions, hnumber, fun i hi hmiss => ?_⟩⟩
      exact hloop.mp h i (Nat.zero_le i) (by omega) fun j _ hj => hmiss j hj
    · rintro ⟨hdos, hdirectory, hrange⟩
      obtain ⟨hnames, hordinals, hfunctions, hnumber, hentry⟩ := hrange hzero
      refine ⟨hdos, hdirectory, hnames, hordinals, hfunctions, hnumber, hloop.mpr fun i _ hi hmiss => ?_⟩
      exact hentry i (by omega) fun j hj => hmiss j (Nat.zero_le j) hj

end Module

/-- The constructor and both lookups stay inside the buffer exactly on the images whose offsets, counts
and strings are in range as far as they are followed. -/
theorem reads_inside_iff (m : Module) (name : List UInt8) :
    ((∃ nt, m.ntHeaders = .ok nt) ↔ m.buffer.Inside 0x3c 4) ∧
      ((∃ o, m.fetchSection name = .ok o) ↔ m.SectionsInRange name) ∧
      ((∃ o, m.fetchExport name = .ok o) ↔ m.ExportsInRange name) :=
  ⟨Module.exists_ntHeaders_iff, Module.exists_fetchSection_iff, Module.exists_fetchExport_iff⟩

/-- An image of 64 bytes whose `e_lfanew` points far behind it. -/
def malformedImage : List UInt8 := chars "MZ" ++ List.replicate 58 0 ++ encode 4 0x7fffffff

def malformedModule : Module := rawModule malformedImage (by decide +kernel)

theorem malformedModule_ntHeaders : malformedModule.ntHeaders = .ok 0x7fffffff := by
  have hlfanew : malformedModule.buffer.bytesAt 0x3c 4 = .ok [0xff, 0xff, 0xff, 0x7f] := by
    decide +kernel
  have hdecode : decode [0xff, 0xff, 0xff, 0x7f] = 0x7fffffff := by decide
  rw [Module.ntHeaders, hlfanew, Run.ok_bind, hdecode, asInt32_of_bounds (by decide) (by decide)]
  rfl

/-- The lookups follow the offset out of the buffer. -/
theorem malformed_reads_outside :
    malformedModule.fetchSection (chars ".text") = .error .outOfRange ∧
      malformedModule.fetchExport (chars "DllMain") = .error .outOfRange := by
  have hsection : malformedModule.buffer.bytesAt (0x7fffffff + 20) 2 = .error .outOfRange := by
    decide +kernel
  have hexport : malformedModule.buffer.bytesAt (0x7fffffff + 136) 8 = .error .outOfRange := by
    decide +kernel
  constructor
  · rw [Module.fetchSection, malformedModule_ntHeaders, Run.ok_bind, hsection, Run.error_bind]
  · rw [Module.fetchExport, malformedModule_ntHeaders, Run.ok_bind, hexport, Run.error_bind]

end Wincpp
