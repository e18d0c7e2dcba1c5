import Wincpp.Modules.Image

/-! The name field of a section header.

It has eight bytes, and no terminator when the name takes all of them. `fetch_section` compares it as a
C string, which then runs on into `VirtualSize` (`fetchSection_first_iff`), and `section_t::name`
always takes all eight bytes (`section_name_iff`), so the two agree on names of eight bytes only.
-/
namespace Wincpp
open LittleEndian Terminated
set_option autoImplicit false

/-- What can stand in a name field. -/
structure IsSectionName (n : List UInt8) : Prop where
  nonempty : n ≠ []
  length_le : n.length ≤ 8
  nonzero : 0 ∉ n

namespace SectionHeader

/-- The name field holds `n`, padded with zeros. -/
def Named (header : SectionHeader) (n : List UInt8) : Prop :=
  header.bytes.take 8 = n ++ List.replicate (8 - n.length) 0

instance (header : SectionHeader) (n : List UInt8) : Decidable (header.Named n) :=
  inferInstanceAs (Decidable (_ = _))

variable {header : SectionHeader} {n n' : List UInt8}

theorem Named.takeWhile_eq (h : header.Named n) (hn : IsSectionName n) :
    (header.bytes.take 8).takeWhile (· ≠ 0) = n := by
  rw [h, takeWhile_append hn.nonzero, List.takeWhile_replicate, if_neg (by decide), List.append_nil]

theorem Named.unique (h : header.Named n) (hn : IsSectionName n) (h' : header.Named n')
    (hn' : IsSectionName n') : n = n' := by
  rw [← h.takeWhile_eq hn, h'.takeWhile_eq hn']

/-- A C string of at most eight bytes that the name field starts is the name. -/
theorem Named.eq_of_name_eq (h : header.Named n) (hn : IsSectionName n)
    (hname : header.name = .ok n') (hlen : n'.length ≤ 8) : n' = n := by
  have htake := (cString_eq_ok_iff.mp hname).2
  calc n' = n'.take 8 := (List.take_of_length_le hlen).symm
    _ = (header.bytes.takeWhile (· ≠ 0)).take 8 := by rw [htake]
    _ = (header.bytes.take 8).takeWhile (· ≠ 0) := List.take_takeWhile
    _ = n := h.takeWhile_eq hn

/-- A name of fewer than eight bytes ends in the field. -/
theorem Named.spells (h : header.Named n) (hn : IsSectionName n) (hshort : n.length < 8) :
    Spells 0 (header.bytes.take 8) n := by
  obtain ⟨k, hk⟩ : ∃ k, 8 - n.length = k + 1 := ⟨7 - n.length, by omega⟩
  rw [h, hk, List.replicate_succ]
  exact spells_append hn.nonzero _

/-- The name field is its own C string unless it is full and `VirtualSize` does not start with 0. -/
theorem Named.name_eq_iff (h : header.Named n) (hn : IsSectionName n) :
    header.name = .ok n ↔ n.length < 8 ∨ header.bytes[8]? = some 0 := by
  rw [name, cString_eq_ok_iff_spells, ← List.take_append_drop 8 header.bytes]
  rcases Nat.lt_or_eq_of_le hn.length_le with hshort | hfull
  · exact iff_of_true ((h.spells hn hshort).append _) (.inl hshort)
  · -- the terminator of the C string is the byte behind the field
    have hfield : header.bytes.take 8 = n := by
      rw [h, hfull, Nat.sub_self, List.replicate_zero, List.append_nil]
    rw [hfield, spells_append_iff, List.head?_drop, and_iff_right hn.nonzero,
      List.getElem?_append_right hfull.le, hfull, Nat.sub_self, List.getElem?_drop]
    simp

end SectionHeader

/-! ## The loop over the table -/

namespace Module

/-- The section table of a well-formed image: the headers are where the loop looks for them, and their
name fields hold names. -/
structure SectionTable (m : Module) (headers : List SectionHeader) : Prop where
  located : ∃ nt sizeOfOptionalHeader numberOfSections, m.ntHeaders = .ok nt ∧
    m.buffer.bytesAt (nt + 20) 2 = .ok sizeOfOptionalHeader ∧
    m.buffer.bytesAt (nt + 6) 2 = .ok numberOfSections ∧
    headers.length = decode numberOfSections ∧
    ∀ (i : ℕ) header, headers[i]? = some header →
      m.buffer.bytesAt (nt + 24 + decode sizeOfOptionalHeader + 40 * i) 40 = .ok header.bytes
  named : ∀ header ∈ headers, ∃ n, IsSectionName n ∧ header.Named n

/-- The comparison of one header. -/
def tryHeader (m : Module) (name : List UInt8) (header : SectionHeader) : Run (Option Section) := do
  if name = (← header.name) then return some (m.sectionOf header) else return none

variable {m : Module} {name : List UInt8} {header : SectionHeader} {headers : List SectionHeader}

/-- One round of the loop over the table at `first`. -/
def sectionRound (m : Module) (name : List UInt8) (first : ℤ) (i : ℕ) : Run (Option Section) := do
  let header ← SectionHeader.mk <$> m.buffer.bytesAt (first + 40 * i) 40
  m.tryHeader name header

theorem fetchSectionLoop_succ (first : ℤ) (i rest : ℕ) :
    m.fetchSectionLoop name first i (rest + 1) = (do
      match ← m.sectionRound name first i with
      | some s => return some s
      | none => m.fetchSectionLoop name first (i + 1) rest) := by
  rw [fetchSectionLoop, sectionRound]
  cases m.buffer.bytesAt (first + 40 * i) 40 with
  | error e => rfl
  | ok bytes =>
    rw [Run.map_ok, Run.ok_bind, Run.ok_bind, tryHeader]
    cases (SectionHeader.mk bytes).name with
    | error e => rfl
    | ok text =>
      rw [Run.ok_bind, Run.ok_bind]
      split <;> rfl

theorem fetchSectionLoop_eq {first : ℤ} {i : ℕ} (h : ∀ j header, headers[j]? = some header →
    m.buffer.bytesAt (first + 40 * (i + j : ℕ)) 40 = .ok header.bytes) :
    m.fetchSectionLoop name first i headers.length = headers.findSomeM? (m.tryHeader name) := by
  induction headers generalizing i with
  | nil => rfl
  | cons header headers ih =>
    have hround : m.sectionRound name first i = m.tryHeader name header := by
      have hhead := h 0 header rfl
      rw [Nat.add_zero] at hhead
      rw [sectionRound, hhead]
      rfl
    have htail : m.fetchSectionLoop name first (i + 1) headers.length = _ := ih fun j other hj => by
      have := h (j + 1) other hj
      rwa [Nat.add_comm j 1, ← Nat.add_assoc] at this
    rw [List.length_cons, fetchSectionLoop_succ, hround, htail, List.findSomeM?_cons]
    congr 1
    funext found
    cases found <;> rfl

theorem SectionTable.fetchSection_eq (h : m.SectionTable headers) :
    m.fetchSection name = headers.findSomeM? (m.tryHeader name) := by
  obtain ⟨nt, sizeOfOptionalHeader, numberOfSections, hnt, hsize, hnumber, hlength, hheaders⟩ :=
    h.located
  rw [fetchSection, hnt, Run.ok_bind, hsize, Run.ok_bind, hnumber, Run.ok_bind, ← hlength]
  exact fetchSectionLoop_eq fun j header hj => by
    rw [Nat.zero_add]
    exact hheaders j header hj

theorem tryHeader_eq_some_iff {s : Section} :
    m.tryHeader name header = .ok (some s) ↔ header.name = .ok name ∧ m.sectionOf header = s := by
  rw [tryHeader]
  cases header.name with
  | error e => simp
  | ok text =>
    rw [Run.ok_bind]
    split
    · subst_vars
      simp
    · rename_i hne
      simp [Ne.symm hne]

theorem tryHeader_of_ne {text : List UInt8} (h : header.name = .ok text) (hne : name ≠ text) :
    m.tryHeader name header = .ok none := by
  rw [tryHeader, h, Run.ok_bind, if_neg hne]
  rfl

theorem tryHeader_of_unterminated (h : 0 ∉ header.bytes) :
    m.tryHeader name header = .error .outOfRange := by
  rw [tryHeader, SectionHeader.name, cString, if_neg h, Run.error_bind]

/-- The rounds in front of the first header of the name need a 0 in each header, and the last round
one that ends the name. -/
theorem findSomeM?_tryHeader_iff (hname : IsSectionName name)
    (hnamed : ∀ header ∈ headers, ∃ n, IsSectionName n ∧ header.Named n) :
    headers.findSomeM? (m.tryHeader name) =
        .ok ((headers.find? fun header => header.Named name).map m.sectionOf) ↔
      (∀ header ∈ headers.takeWhile (fun header => ¬ header.Named name), 0 ∈ header.bytes) ∧
        ∀ header, headers.find? (fun header => header.Named name) = some header →
          name.length < 8 ∨ header.bytes[8]? = some 0 := by
  induction headers with
  | nil => simp
  | cons header headers ih =>
    have hrest := ih fun other hother => hnamed other (List.mem_cons_of_mem _ hother)
    by_cases hmatch : header.Named name
    · rw [List.find?_cons_of_pos (by simpa using hmatch),
        List.takeWhile_cons_of_neg (by simpa using hmatch), Option.map_some]
      have hends : (∀ other, some header = some other →
          name.length < 8 ∨ other.bytes[8]? = some 0) ↔ header.name = .ok name := by
        rw [hmatch.name_eq_iff hname]
        simp
      rw [hends]
      constructor
      · intro hfound
        obtain ⟨pre, other, post, -, hother, -⟩ := Run.findSomeM?_eq_some hfound
        obtain ⟨hothername, hsection⟩ := tryHeader_eq_some_iff.mp hother
        have heq : other = header := congrArg Section.header hsection
        rw [heq] at hothername
        exact ⟨by simp, hothername⟩
      · rintro ⟨-, hheader⟩
        rw [List.findSomeM?_cons, tryHeader_eq_some_iff.mpr ⟨hheader, rfl⟩, Run.ok_bind]
        rfl
    · rw [List.find?_cons_of_neg (by simpa using hmatch),
        List.takeWhile_cons_of_pos (by simpa using hmatch), List.forall_mem_cons,
        List.findSomeM?_cons]
      by_cases hzero : 0 ∈ header.bytes
      · obtain ⟨n, hn, hnamed⟩ := hnamed header List.mem_cons_self
        have htext : header.name = .ok (header.bytes.takeWhile (· ≠ 0)) := if_pos hzero
        have hne : name ≠ header.bytes.takeWhile (· ≠ 0) := by
          intro heq
          rw [← heq] at htext
          have hsame := hnamed.eq_of_name_eq hn htext hname.length_le
          rw [← hsame] at hnamed
          exact hmatch hnamed
        rw [tryHeader_of_ne htext hne, Run.ok_bind, and_iff_right hzero]
        exact hrest
      · rw [tryHeader_of_unterminated hzero, Run.error_bind]
        simp [hzero]

end Module

/-- `fetch_section` returns the first section of a well-formed table that has the name, and nothing
when there is none, exactly when each header in front of it has a 0 byte somewhere and its own name,
if it takes all eight bytes, is followed by a 0 byte, the first one of `VirtualSize`. -/
theorem fetchSection_first_iff (m : Module) (headers : List SectionHeader) (name : List UInt8)
    (htable : m.SectionTable headers) (hname : IsSectionName name) :
    m.fetchSection name =
        .ok ((headers.find? fun header => header.Named name).map m.sectionOf) ↔
      (∀ header ∈ headers.takeWhile (fun header => ¬ header.Named name), 0 ∈ header.bytes) ∧
        ∀ header, headers.find? (fun header => header.Named name) = some header →
          name.length < 8 ∨ header.bytes[8]? = some 0 := by
  rw [htable.fetchSection_eq]
  exact Module.findSomeM?_tryHeader_iff hname htable.named

/-! ### An image that is all headers -/

def rawLayout : Layout where
  top := 0x11000
  regions := [⟨0, 0x10000, ⟨memFree, pageNoaccess, 0⟩⟩,
    ⟨0x10000, 0x1000, ⟨memCommit, pageReadwrite, 0x1000000⟩⟩]
  tiles := by decide
  aligned := by decide
  top_lt := by decide

def rawProcess (image : List UInt8) : Process where
  layout := rawLayout
  type := .remoteT
  bytes x := image.getD (x - 0x10000) 0
  readable _ _ := true
  fresh _ _ _ := 0
  userSpace := by decide

theorem rawProcess_read {image : List UInt8} (h : image.length < 2 ^ 63) :
    (rawProcess image).read 0x10000 image.length = .ok ⟨image, h⟩ := by
  obtain ⟨⟨bytes, hlt⟩, hbuffer, hbytes⟩ : ∃ buffer, (rawProcess image).read 0x10000 image.length =
      .ok buffer ∧ buffer.bytes = (rawProcess image).slice 0x10000 image.length :=
    (rawProcess image).read_of_readable h rfl
  have himage : (rawProcess image).slice 0x10000 image.length = image := by
    apply List.ext_getElem?
    intro i
    by_cases hi : i < image.length
    · have haddress : (0x10000 + i) % 2 ^ 64 - 0x10000 = i := by omega
      rw [Process.slice_getElem? _ hi, List.getElem?_eq_getElem hi]
      simp only [rawProcess, haddress]
      rw [List.getD_eq_getElem?_getD, List.getElem?_eq_getElem hi, Option.getD_some]
    · rw [List.getElem?_eq_none (by simpa using hi), List.getElem?_eq_none (by simpa using hi)]
  obtain rfl : bytes = image := hbytes.trans himage
  exact hbuffer

def rawModule (image : List UInt8) (h : image.length < 2 ^ 63) : Module where
  address := 0x10000
  size := 0x1000
  range := by decide
  process := rawProcess image
  sizeOfImage := image.length
  buffer := ⟨image, h⟩
  buffer_eq := rawProcess_read h
  loaded := (by decide : 0x10000 < 0x11000)

def namedHeader (name : List UInt8) (virtualSize : ℕ) : SectionHeader :=
  ⟨name ++ List.replicate (8 - name.length) 0 ++ encode 4 virtualSize ++ List.replicate 28 0⟩

/-- What stands in front of a section table with one entry. -/
def tableStart : List UInt8 :=
  chars "MZ" ++ List.replicate 58 0 ++ encode 4 0x40 ++ chars "PE" ++ [0, 0] ++ encode 2 0x8664 ++
    encode 2 1 ++ List.replicate 16 0

def tableModule (header : SectionHeader) (h : header.bytes.length = 40) : Module :=
  rawModule (tableStart ++ header.bytes) (by
    rw [List.length_append, h]
    decide +kernel)

section Table
variable {header : SectionHeader} (h : header.bytes.length = 40)

theorem tableStart_length : tableStart.length = 88 := by decide +kernel

theorem tableModule_size : (tableModule header h).buffer.size = 128 := by
  simp only [tableModule, rawModule, Span.size, List.length_append, tableStart_length, h]

theorem bytesAt_tableStart (offset n : ℕ) (bytes : List UInt8) (hle : offset + n ≤ 88)
    (hbytes : (tableStart.drop offset).take n = bytes) :
    (tableModule header h).buffer.bytesAt offset n = .ok bytes := by
  have hsize := tableModule_size h
  have hstart := tableStart_length
  have happend : ((tableStart ++ header.bytes).drop offset).take n = bytes := by
    rw [List.drop_append_of_le_length (by omega), List.take_append_of_le_length, hbytes]
    rw [List.length_drop]
    omega
  rw [Span.bytesAt, if_pos (by omega), Int.toNat_natCast]
  exact congrArg Except.ok happend

theorem bytesAt_tableModule_header :
    (tableModule header h).buffer.bytesAt 88 40 = .ok header.bytes := by
  have hsize := tableModule_size h
  have hdrop : (tableStart ++ header.bytes).drop 88 = header.bytes := by
    rw [← tableStart_length, List.drop_left]
  have happend : ((tableStart ++ header.bytes).drop 88).take 40 = header.bytes := by
    rw [hdrop, List.take_of_length_le h.le]
  rw [Span.bytesAt, if_pos (by omega)]
  exact congrArg Except.ok happend

theorem tableModule_table {n : List UInt8} (hn : IsSectionName n) (hnamed : header.Named n) :
    (tableModule header h).SectionTable [header] where
  located := by
    have hlfanew : (tableModule header h).buffer.bytesAt 0x3c 4 = .ok [0x40, 0, 0, 0] :=
      bytesAt_tableStart h 0x3c 4 _ (by decide) (by decide +kernel)
    have hnt : (tableModule header h).ntHeaders = .ok 0x40 := by
      have hdecode : decode [0x40, 0, 0, 0] = 0x40 := by decide
      rw [Module.ntHeaders, hlfanew, Run.ok_bind, hdecode, asInt32_of_bounds (by decide) (by decide)]
      rfl
    refine ⟨0x40, [0, 0], [1, 0], hnt, bytesAt_tableStart h 0x54 2 _ (by decide) (by decide +kernel),
      bytesAt_tableStart h 0x46 2 _ (by decide) (by decide +kernel), rfl,
      fun i other hi => ?_⟩
    cases i with
    | zero =>
      cases hi
      exact bytesAt_tableModule_header h
    | succ i => cases hi
  named := by
    intro other hother
    cases List.mem_singleton.mp hother
    exact ⟨n, hn, hnamed⟩

end Table

def textbss : SectionHeader := namedHeader (chars ".textbss") 0x180

def textbssModule : Module := tableModule textbss (by decide)

theorem textbss_table : textbssModule.SectionTable [textbss] :=
  tableModule_table _ (n := chars ".textbss") ⟨by decide, by decide, by decide⟩ (by decide)

/-- The C string of the full name field goes on into `VirtualSize`, so the section is not found. -/
theorem fetchSection_textbss :
    textbssModule.fetchSection (chars ".textbss") = .ok none ∧ textbss.Named (chars ".textbss") ∧
      textbssModule.SectionTable [textbss] := by
  refine ⟨?_, by decide, textbss_table⟩
  rw [textbss_table.fetchSection_eq]
  rfl

theorem fetchSection_first_iff_textbss :
    textbssModule.fetchSection (chars ".text") =
        .ok (([textbss].find? fun header => header.Named (chars ".text")).map
          textbssModule.sectionOf) ↔
      (∀ header ∈ [textbss].takeWhile (fun header => ¬ header.Named (chars ".text")),
          0 ∈ header.bytes) ∧
        ∀ header, [textbss].find? (fun header => header.Named (chars ".text")) = some header →
          (chars ".text").length < 8 ∨ header.bytes[8]? = some 0 :=
  fetchSection_first_iff textbssModule [textbss] (chars ".text") textbss_table
    ⟨by decide, by decide, by decide⟩

/-! ## The name of a section that was found -/

namespace Module
variable {m : Module} {name : List UInt8} {s : Section}

/-- A name with a 0 in it is found nowhere. -/
theorem zero_notMem_of_fetchSection (h : m.fetchSection name = .ok (some s)) : 0 ∉ name :=
  zero_notMem_cString (header_of_fetchSection h).2.2

theorem section_name_length (h : m.fetchSection name = .ok (some s)) : s.name.length = 8 := by
  rw [Section.name, List.length_take, (header_of_fetchSection h).2.1]
  rfl

theorem section_name_of_full (h : m.fetchSection name = .ok (some s)) (hfull : name.length = 8) :
    s.name = name := by
  obtain ⟨rest, hrest⟩ := eq_append_of_cString (header_of_fetchSection h).2.2
  rw [Section.name, hrest, List.take_append_of_le_length hfull.ge, List.take_of_length_le hfull.le]

/-- The name of a section that was found under a shorter name is padded with a 0. -/
theorem zero_mem_section_name (h : m.fetchSection name = .ok (some s)) (hshort : name.length < 8) :
    0 ∈ s.name := by
  obtain ⟨rest, hrest⟩ := eq_append_of_cString (header_of_fetchSection h).2.2
  have hzero : s.name[name.length]? = some 0 := by
    rw [Section.name, List.getElem?_take_of_lt hshort, hrest, List.getElem?_append_right le_rfl,
      Nat.sub_self]
    rfl
  exact List.mem_of_getElem? hzero

end Module

/-- The name of a section that `fetch_section` found is the name it was found under, and leads back to
the section, exactly when it takes all eight bytes of the field. -/
theorem section_name_iff (m : Module) (name : List UInt8) (s : Section) (hlen : name.length ≤ 8)
    (h : m.fetchSection name = .ok (some s)) :
    (s.name = name ↔ name.length = 8) ∧
      (m.fetchSection s.name = .ok (some s) ↔ name.length = 8) := by
  refine ⟨⟨fun hsame => ?_, Module.section_name_of_full h⟩, ⟨fun hback => ?_, fun hfull => ?_⟩⟩
  · rw [← hsame]
    exact Module.section_name_length h
  · by_contra hshort
    exact Module.zero_notMem_of_fetchSection hback (Module.zero_mem_section_name h (by omega))
  · rw [Module.section_name_of_full h hfull]
    exact h

def dataHeader : SectionHeader := namedHeader (chars ".data") 0x180

def dataModule : Module := tableModule dataHeader (by decide)

theorem dataModule_table : dataModule.SectionTable [dataHeader] :=
  tableModule_table _ (n := chars ".data") ⟨by decide, by decide, by decide⟩ (by decide)

theorem fetchSection_dataModule :
    dataModule.fetchSection (chars ".data") = .ok (some (dataModule.sectionOf dataHeader)) := by
  rw [dataModule_table.fetchSection_eq]
  rfl

/-- The section that is found as `.data` calls itself `.data` and three 0 bytes, and is not found
under that name. -/
theorem section_name_data :
    dataModule.fetchSection (chars ".data") = .ok (some (dataModule.sectionOf dataHeader)) ∧
      (dataModule.sectionOf dataHeader).name = chars ".data" ++ [0, 0, 0] ∧
      dataModule.fetchSection (dataModule.sectionOf dataHeader).name = .ok none := by
  refine ⟨fetchSection_dataModule, by decide, ?_⟩
  rw [dataModule_table.fetchSection_eq]
  rfl

theorem section_name_iff_data :
    ((dataModule.sectionOf dataHeader).name = chars ".data" ↔ (chars ".data").length = 8) ∧
      (dataModule.fetchSection (dataModule.sectionOf dataHeader).name =
        .ok (some (dataModule.sectionOf dataHeader)) ↔ (chars ".data").length = 8) :=
  section_name_iff dataModule (chars ".data") (dataModule.sectionOf dataHeader) (by decide)
    fetchSection_dataModule

end Wincpp
