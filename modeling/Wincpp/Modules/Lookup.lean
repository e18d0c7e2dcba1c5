import Wincpp.Modules.CrossReferences

/-! What `fetch_objects` finds.

The three searches are strict, so everything that is found stands in memory: the locator of an object
holds the offset of a type descriptor whose name is the one looked for, and the object's table follows
a pointer to that locator (`fetchObjects_sound`).
-/
namespace Wincpp
open LittleEndian Search Memory
set_option autoImplicit false

/-! ## Completeness -/

namespace Module

/-- A type descriptor at `d` in `.data` whose name is `mangled`, and a locator at `c` in `.rdata` that
belongs to it. -/
structure Described (m : Module) (data rdata : Section) (mangled : List UInt8) (d c : ℕ) : Prop where
  descriptor : data.address ≤ d ∧ d + 16 + (mangled.length + 1) ≤ data.stop
  name : m.process.slice (d + 16) (mangled.length + 1) = mangled ++ [0]
  terminated : 0 ∉ mangled
  locator : rdata.address ≤ c ∧ c + 24 ≤ rdata.stop
  signature : (CompleteObjectLocator.ofBytes (m.process.slice c 24)).signature = 1
  rva : (CompleteObjectLocator.ofBytes (m.process.slice c 24)).typeDescriptorOffset =
    (d : ℤ) - m.address

/-- A place of eight bytes in `.rdata`, aligned to `align`, that holds `c`. -/
def Slot (m : Module) (rdata : Section) (align c s : ℕ) : Prop :=
  rdata.address ≤ s ∧ s + 8 ≤ rdata.stop ∧ align ∣ s ∧ decode (m.process.slice s 8) = c

/-- `fetch_objects` returns a list with an object whose table follows a slot that holds `c`. -/
def Locates (m : Module) (rdata : Section) (mangled : List UInt8) (align c : ℕ) : Prop :=
  ∃ objects, Run.Returns (m.fetchObjects mangled) objects ∧
    ∃ o ∈ objects, ∃ s, m.Slot rdata align c s ∧ o.vtable = s + 8

def rvaPattern (m : Module) (d : ℕ) : Pattern := .ofInt 4 ((d : ℤ) - m.address)

/-- What the three searches need in order to reach the locator `c` of the descriptor `d`. -/
structure Reached (m : Module) (data rdata : Section) (mangled : List UInt8) (align d c : ℕ) :
    Prop where
  nonempty : mangled ≠ []
  dataOpens : data.Opens m.process.layout
  nameFirst : ∃ a, IsLeast {a | data.Holds m.process (.ofBytes mangled) a} a ∧
    a % 2 ^ 32 = (d + 16) % 2 ^ 32
  rdataOpens : rdata.Opens m.process.layout
  rdataEnds : rdata.Ends m.process.layout
  scans : ∀ r ∈ rdata.scanned m.process.layout,
    ∃ as, Run.Returns (fun fuel => r.findAll m.process (m.rvaPattern d) fuel) as
  reported : rdata.Reports m.process (m.rvaPattern d) (c + 12)
  locators : ∀ a, rdata.Reports m.process (m.rvaPattern d) a →
    m.process.type = .remoteT ∨ m.process.readable (asSize (a - 12)) 24 = true
  slotFirst : ∃ s, IsLeast {a | rdata.Holds m.process (.ofInt 8 c) a} s ∧ m.Slot rdata align c s

section Complete
variable {m : Module} {data rdata : Section} {mangled : List UInt8} {align d c : ℕ}

theorem Described.typeDescriptorRva_iff (h : m.Described data rdata mangled d c) (a : ℕ) :
    m.typeDescriptorRva a = (d : ℤ) - m.address ↔ a % 2 ^ 32 = (d + 16) % 2 ^ 32 := by
  have hrange := asInt32_bounds
    (decodeAt (m.process.slice c 24) 12 4)
  rw [← CompleteObjectLocator.ofBytes_typeDescriptorOffset, h.rva] at hrange
  rw [typeDescriptorRva_eq]
  unfold asInt32
  rw [Int.bmod_def]
  omega

theorem Locates.reached (hdata : m.fetchSection (chars ".data") = .ok (some data))
    (hrdata : m.fetchSection (chars ".rdata") = .ok (some rdata))
    (hreads : data.ReadsSucceed m.process) (hreads' : rdata.ReadsSucceed m.process)
    (h : m.Described data rdata mangled d c) (hl : m.Locates rdata mangled align c) :
    m.Reached data rdata mangled align d c := by
  obtain ⟨objects, ⟨fuel, hfuel⟩, o, ho, s, hslot, hv⟩ := hl
  obtain ⟨data', rdata', result, references, hdata', hrdata', hresult, hreferences, hloop, ref, href,
    hobject⟩ := fetchObjects_mem (hfuel 0) ho
  cases hdata.symm.trans hdata'
  cases hrdata.symm.trans hrdata'
  obtain ⟨s', -, -, hfind, hvtable⟩ := objectOf_some hobject
  have hname := (data.find_fuelMono _ _).returns hresult
  have hpos := size_pos_of_find hname
  have hrefs := (rdata.findAll_fuelMono _ _).returns hreferences
  have hptr := (rdata.find_fuelMono _ _).returns hfind
  obtain ⟨hdataOpens, hfirst, -⟩ :=
    (find_returns_strict_iff hpos (Pattern.ofBytes_strict _) hreads).mp hname
  obtain ⟨hopens, hslotFirst, -⟩ :=
    (find_returns_strict_iff (by simp) (Pattern.ofInt_strict _ _) hreads').mp hptr
  obtain ⟨-, hends, -⟩ := findAll_returns_iff.mp hrefs
  -- the table follows the slot that was found, so the locator of the object is `c`
  obtain ⟨r, hr, hge, hle, hholds⟩ := hslotFirst.1
  have hstop := walked_stop_lt (scanned_subset hr)
  rw [Pattern.ofInt_size] at hle
  have hs : s = s' := by
    rw [hvtable] at hv
    unfold asSize at hv
    omega
  subst hs
  have hslotEnd : s + 8 ≤ 2 ^ 64 := by omega
  have hcolAddress := asSize_lt (ref - 12)
  have hdecode := Process.decode_of_holdsAt_ofInt hslotEnd hholds
  rw [hslot.2.2.2] at hdecode
  have hc : asSize (ref - 12) = c := by omega
  -- the reference that led there is the type descriptor offset of `c`
  obtain ⟨r', hr', hge', hle', hrva⟩ := findAll_holds (by simp) hreads' hrefs ref href
  have hstop' := walked_stop_lt (scanned_subset hr')
  rw [Pattern.ofInt_size] at hle'
  have href' : ref = c + 12 := by
    have hend := h.locator.2
    have htop := rdata.stop_lt
    unfold asSize at hc
    omega
  have hoffset := typeDescriptorOffset_eq (by omega) hrva
  rw [hc, h.rva, typeDescriptorRva_eq, asInt32_asInt32, ← typeDescriptorRva_eq] at hoffset
  have hpattern : m.rvaPattern d = .ofInt 4 (m.typeDescriptorRva result) := by
    rw [rvaPattern, hoffset]
  rw [← hpattern] at hrefs
  have hreports := fun a => mem_iff_reports (a := a) hrefs
  refine ⟨?_, hdataOpens, ⟨result, hfirst, (h.typeDescriptorRva_iff result).mp hoffset.symm⟩, hopens,
    hends, (exists_findAll_iff.mp ⟨_, hrefs⟩).2.2, ?_, fun a ha => ?_, s, ?_, hslot⟩
  · rintro rfl
    exact absurd hpos (lt_irrefl _)
  · rw [← hreports, ← href']
    exact href
  · obtain ⟨x, hx⟩ := objectsLoop_ok hloop a ((hreports a).mpr ha)
    obtain ⟨col, hcol, -⟩ := Run.bind_eq_ok hx
    obtain ⟨buffer, hbuffer, -⟩ := Run.bind_eq_ok hcol
    exact m.process.read_ok hbuffer
  · rw [hc] at hslotFirst
    exact hslotFirst

/-- The objects of a run in which the name is found at `a`, and the locator `c` through the offset that
belongs to `a`. -/
theorem fetchObjects_returns (hdata : m.fetchSection (chars ".data") = .ok (some data))
    (hrdata : m.fetchSection (chars ".rdata") = .ok (some rdata))
    (hreads' : rdata.ReadsSucceed m.process) {a s : ℕ}
    (hname : Run.Returns (data.find m.process (.ofBytes mangled)) (some a))
    (hrva : m.rvaPattern d = .ofInt 4 (m.typeDescriptorRva a))
    (hopens : rdata.Opens m.process.layout) (hends : rdata.Ends m.process.layout)
    (hscans : ∀ r ∈ rdata.scanned m.process.layout,
      ∃ as, Run.Returns (fun fuel => r.findAll m.process (m.rvaPattern d) fuel) as)
    (hreported : rdata.Reports m.process (m.rvaPattern d) (c + 12))
    (hlocators : ∀ a, rdata.Reports m.process (m.rvaPattern d) a →
      m.process.type = .remoteT ∨ m.process.readable (asSize (a - 12)) 24 = true)
    (hend : c + 24 ≤ rdata.stop) (hlocator : m.process.readable c 24 = true)
    (hsignature : (CompleteObjectLocator.ofBytes (m.process.slice c 24)).signature = 1)
    (hslotFirst : IsLeast {a | rdata.Holds m.process (.ofInt 8 c) a} s) :
    ∃ objects, Run.Returns (m.fetchObjects mangled) objects ∧
      ⟨asSize (s + 8), .ofBytes (m.process.slice c 24)⟩ ∈ objects := by
  obtain ⟨references, hrefs⟩ := exists_findAll_iff.mpr ⟨hopens, hends, hscans⟩
  have hreports := fun a => mem_iff_reports (a := a) hrefs
  obtain ⟨objects, hobjects⟩ := objectsLoop_returns
    (fun ref (href : ref ∈ references) => objectOf_returns hopens hends hreads'
      (hlocators ref ((hreports ref).mp href))) []
  have hc : asSize ((c + 12 : ℕ) - 12) = c := by
    have htop := rdata.stop_lt
    unfold asSize
    omega
  have hobject := objectOf_returns_some hopens hreads' hc hlocator hsignature hslotFirst
  refine ⟨objects, ?_, ?_⟩
  · have hfetch : m.fetchObjects mangled = _ := funext fun fuel => fetchObjects_eq hdata hrdata fuel
    rw [hfetch]
    rw [hrva] at hrefs
    exact hname.bind (hrefs.bind hobjects)
  · obtain ⟨n, hn⟩ := hobjects
    obtain ⟨k, hk⟩ := hobject
    have hloop : m.objectsLoop rdata (n + k) references [] = .ok objects := hn k
    have hround := hk n
    rw [Nat.add_comm k n] at hround
    exact (objectsLoop_mem hloop).mpr (.inr ⟨c + 12, (hreports _).mpr hreported, hround⟩)

theorem Reached.locates (hdata : m.fetchSection (chars ".data") = .ok (some data))
    (hrdata : m.fetchSection (chars ".rdata") = .ok (some rdata))
    (hreads : data.ReadsSucceed m.process) (hreads' : rdata.ReadsSucceed m.process)
    (hlocator : m.process.readable c 24 = true) (h : m.Described data rdata mangled d c)
    (hr : m.Reached data rdata mangled align d c) : m.Locates rdata mangled align c := by
  obtain ⟨a, hleast, hmod⟩ := hr.nameFirst
  obtain ⟨s, hslotFirst, hslot⟩ := hr.slotFirst
  have hpos : 0 < (Pattern.ofBytes mangled).size := List.length_pos_of_ne_nil hr.nonempty
  have hname : Run.Returns (data.find m.process (.ofBytes mangled)) (some a) :=
    (find_returns_strict_iff hpos (Pattern.ofBytes_strict _) hreads).mpr
      ⟨hr.dataOpens, hleast, by simp⟩
  have hrva : m.rvaPattern d = .ofInt 4 (m.typeDescriptorRva a) := by
    rw [rvaPattern, (h.typeDescriptorRva_iff a).mpr hmod]
  obtain ⟨objects, hobjects, hmem⟩ := fetchObjects_returns hdata hrdata hreads' hname hrva
    hr.rdataOpens hr.rdataEnds hr.scans hr.reported hr.locators h.locator.2 hlocator h.signature
    hslotFirst
  refine ⟨objects, hobjects, _, hmem, s, hslot, ?_⟩
  have hend := hslot.2.1
  have htop := rdata.stop_lt
  simp only [asSize]
  omega

end Complete

/-- The sections can be read, and so can a locator inside them. -/
def FullyReadable (m : Module) (s : Section) : Prop :=
  (∀ t ∈ m.process.layout.regions, s.address < t.stop → t.base < s.stop → t.label.readable = true) ∧
    s.ReadsSucceed m.process ∧
    ∀ c, s.address ≤ c → c + 24 ≤ s.stop → m.process.readable c 24 = true

/-- Every locator of the name that has an aligned slot in `.rdata` is found. -/
def FindsAll (m : Module) (mangled : List UInt8) (align : ℕ) : Prop :=
  ∀ data rdata d c, m.fetchSection (chars ".data") = .ok (some data) →
    m.fetchSection (chars ".rdata") = .ok (some rdata) → m.FullyReadable data →
    m.FullyReadable rdata → m.Described data rdata mangled d c →
    (∃ s, m.Slot rdata align c s) → m.Locates rdata mangled align c

/-- A locator of the name is found exactly when it is reached by all three searches. The references
that `find_all` reports in a region of fewer than `2 ^ 31` bytes are the places of the offset, picked
greedily from the left. -/
theorem locates_iff_reached (m : Module) (data rdata : Section) (mangled : List UInt8)
    (align d c : ℕ) (hdata : m.fetchSection (chars ".data") = .ok (some data))
    (hrdata : m.fetchSection (chars ".rdata") = .ok (some rdata)) (hreads : m.FullyReadable data)
    (hreads' : m.FullyReadable rdata) (h : m.Described data rdata mangled d c) :
    (m.Locates rdata mangled align c ↔ m.Reached data rdata mangled align d c) ∧
    ∀ r ∈ rdata.scanned m.process.layout, r.size < 2 ^ 31 →
      ∃ as, Run.Returns (fun fuel => r.findAll m.process (m.rvaPattern d) fuel) as ∧
        IsGreedyList (r.Holds m.process (m.rvaPattern d)) 4 as := by
  refine ⟨⟨Locates.reached hdata hrdata hreads.2.1 hreads'.2.1 h, Reached.locates hdata hrdata
    hreads.2.1 hreads'.2.1 (hreads'.2.2 c h.locator.1 h.locator.2) h⟩, fun r hr hsmall => ?_⟩
  obtain ⟨as, has, hgreedy⟩ := Region.findAll_greedy (by simp)
    (Pattern.ofInt_strict _ _ : (m.rvaPattern d).Strict) (walked_stop_lt (scanned_subset hr))
    (hreads'.2.1 r hr) hsmall
  exact ⟨as, has, by simpa [rvaPattern] using hgreedy.isGreedyList fun k hk => hk.1⟩

/-! ### An image -/

/-- `.rdata` from address `0x11000`, `.data` from address `0x12000`, both of 512 bytes. -/
def imageLayout : Layout where
  top := 0x14000
  regions := [⟨0, 0x10000, ⟨memFree, pageNoaccess, 0⟩⟩,
    ⟨0x10000, 0x2000, ⟨memCommit, 0x02, 0x1000000⟩⟩,
    ⟨0x12000, 0x1000, ⟨memCommit, pageReadwrite, 0x1000000⟩⟩,
    ⟨0x13000, 0x1000, ⟨memFree, pageNoaccess, 0⟩⟩]
  tiles := by decide
  aligned := by decide
  top_lt := by decide

def sectionHeaderBytes (name : List UInt8) (virtualAddress : ℕ) : List UInt8 :=
  name ++ encode 4 0x180 ++ encode 4 virtualAddress ++ encode 4 0x200 ++ List.replicate 20 0

def headerBytes : List UInt8 :=
  chars "MZ" ++ List.replicate 58 0 ++ encode 4 0x40 ++
    chars "PE" ++ [0, 0] ++ encode 2 0x8664 ++ encode 2 2 ++ List.replicate 12 0 ++ encode 4 0 ++
    sectionHeaderBytes (chars ".rdata" ++ [0, 0]) 0x1000 ++
    sectionHeaderBytes (chars ".data" ++ [0, 0, 0]) 0x2000

/-- A slot for the locator, a table with one entry, and the locator at `0x11010`. -/
def rdataBytes (rva : ℕ) : List UInt8 :=
  encode 8 0x11010 ++ encode 8 0x10800 ++ encode 4 1 ++ encode 4 0 ++ encode 4 0 ++ encode 4 rva ++
    encode 4 0 ++ encode 4 0

def imageBytes (rva : ℕ) (dataBytes : List UInt8) (x : ℕ) : UInt8 :=
  if x / 0x1000 = 0x10 then headerBytes.getD (x % 0x1000) 0
  else if x / 0x1000 = 0x11 then (rdataBytes rva).getD (x % 0x1000) 0
  else if x / 0x1000 = 0x12 then dataBytes.getD (x % 0x1000) 0
  else 0

def imageProcess (rva : ℕ) (dataBytes : List UInt8) : Process where
  layout := imageLayout
  type := .remoteT
  bytes := imageBytes rva dataBytes
  readable _ _ := true
  fresh _ _ _ := 0
  userSpace := by decide

def imageModule (rva : ℕ) (dataBytes : List UInt8) : Module where
  address := 0x10000
  size := 0x3000
  range := by decide
  process := imageProcess rva dataBytes
  sizeOfImage := 0x3000
  buffer := ⟨(imageProcess rva dataBytes).slice 0x10000 0x3000, by simp⟩
  buffer_eq := rfl
  loaded := (by decide : 0x10000 < 0x14000)

/-- A type descriptor with the name `.?AVT@@`. -/
def descriptorBytes : List UInt8 :=
  encode 8 0x11100 ++ encode 8 0 ++ chars ".?AVT@@" ++ [0]

def imageSection (rva : ℕ) (dataBytes name : List UInt8) (virtualAddress : ℕ) : Section :=
  (imageModule rva dataBytes).sectionOf ⟨sectionHeaderBytes name virtualAddress⟩

def imageData (rva : ℕ) (dataBytes : List UInt8) : Section :=
  imageSection rva dataBytes (chars ".data" ++ [0, 0, 0]) 0x2000

def imageRdata (rva : ℕ) (dataBytes : List UInt8) : Section :=
  imageSection rva dataBytes (chars ".rdata" ++ [0, 0]) 0x1000

/-- Only the headers matter, wherever the image is loaded. -/
theorem fetchSection_of_headers {m : Module}
    (hread : m.process.readable m.address m.sizeOfImage = true) (hsize : 0x1000 ≤ m.sizeOfImage)
    (hheaders : ∀ k n, k + n ≤ 0x1000 →
      m.process.slice (m.address + k) n = (imageProcess 0 []).slice (0x10000 + k) n)
    (name : List UInt8) :
    m.fetchSection name =
      if name = chars ".rdata" then
        .ok (some (m.sectionOf ⟨sectionHeaderBytes (chars ".rdata" ++ [0, 0]) 0x1000⟩))
      else if name = chars ".data" then
        .ok (some (m.sectionOf ⟨sectionHeaderBytes (chars ".data" ++ [0, 0, 0]) 0x2000⟩))
      else .ok none := by
  have hbytes : ∀ {offset : ℤ} {n : ℕ}, 0 ≤ offset ∧ offset + n ≤ 0x1000 →
      m.buffer.bytesAt offset n = .ok ((imageProcess 0 []).slice (0x10000 + offset.toNat) n) := by
    intro offset n ⟨hlow, hhigh⟩
    rw [bytesAt_buffer hread hlow (by omega), hheaders _ _ (by omega)]
  have hnt : m.ntHeaders = .ok 0x40 := by
    have hlfanew : decode ((imageProcess 0 []).slice (0x10000 + (0x3c : ℤ).toNat) 4) = 0x40 := rfl
    rw [ntHeaders, hbytes (by decide), Run.ok_bind, hlfanew,
      asInt32_of_bounds (by decide) (by decide)]
    rfl
  rw [fetchSection, hnt, Run.ok_bind, hbytes (by decide), Run.ok_bind, hbytes (by decide),
    Run.ok_bind]
  have hoptional : decode ((imageProcess 0 []).slice (0x10000 + ((0x40 : ℤ) + 20).toNat) 2) = 0 := rfl
  have hnumber : decode ((imageProcess 0 []).slice (0x10000 + ((0x40 : ℤ) + 6).toNat) 2) = 2 := rfl
  have hrdata : (imageProcess 0 []).slice
      (0x10000 + ((0x40 : ℤ) + 24 + (0 : ℕ) + 40 * (0 : ℕ)).toNat) 40 =
      sectionHeaderBytes (chars ".rdata" ++ [0, 0]) 0x1000 := rfl
  have hdata : (imageProcess 0 []).slice
      (0x10000 + ((0x40 : ℤ) + 24 + (0 : ℕ) + 40 * (0 + 1 : ℕ)).toNat) 40 =
      sectionHeaderBytes (chars ".data" ++ [0, 0, 0]) 0x2000 := rfl
  have hrname : (SectionHeader.mk (sectionHeaderBytes (chars ".rdata" ++ [0, 0]) 0x1000)).name =
      .ok (chars ".rdata") := by decide
  have hdname : (SectionHeader.mk (sectionHeaderBytes (chars ".data" ++ [0, 0, 0]) 0x2000)).name =
      .ok (chars ".data") := by decide
  rw [hoptional, hnumber, fetchSectionLoop, hbytes (by decide), hrdata, Run.map_ok, Run.ok_bind,
    hrname, Run.ok_bind]
  split
  · rfl
  · rw [fetchSectionLoop, hbytes (by decide), hdata, Run.map_ok, Run.ok_bind, hdname, Run.ok_bind]
    split <;> rfl

theorem slice_headers {rva k n : ℕ} {dataBytes : List UInt8} (h : k + n ≤ 0x1000) :
    (imageProcess rva dataBytes).slice (0x10000 + k) n = (imageProcess 0 []).slice (0x10000 + k) n := by
  apply List.map_congr_left
  intro i hi
  rw [List.mem_range] at hi
  have hpage : (0x10000 + k + i) % 2 ^ 64 / 0x1000 = 0x10 := by omega
  change imageBytes rva dataBytes _ = imageBytes 0 [] _
  rw [imageBytes, if_pos hpage, imageBytes, if_pos hpage]

theorem fetchSection_image (rva : ℕ) (dataBytes name : List UInt8) :
    (imageModule rva dataBytes).fetchSection name =
      if name = chars ".rdata" then .ok (some (imageRdata rva dataBytes))
      else if name = chars ".data" then .ok (some (imageData rva dataBytes))
      else .ok none :=
  fetchSection_of_headers rfl (by decide : 0x1000 ≤ 0x3000) (fun _ _ => slice_headers) name

theorem fetchSection_data (rva : ℕ) (dataBytes : List UInt8) :
    (imageModule rva dataBytes).fetchSection (chars ".data") =
      .ok (some (imageData rva dataBytes)) := by
  rw [fetchSection_image, if_neg (by decide), if_pos rfl]

theorem fetchSection_rdata (rva : ℕ) (dataBytes : List UInt8) :
    (imageModule rva dataBytes).fetchSection (chars ".rdata") =
      .ok (some (imageRdata rva dataBytes)) := by
  rw [fetchSection_image, if_pos rfl]

theorem imageSection_range (rva : ℕ) (dataBytes name : List UInt8) (va : ℕ)
    (haddress : (SectionHeader.mk (sectionHeaderBytes name va)).virtualAddress = va)
    (hsize : max (SectionHeader.mk (sectionHeaderBytes name va)).sizeOfRawData
      (SectionHeader.mk (sectionHeaderBytes name va)).virtualSize = 0x200) :
    (imageSection rva dataBytes name va).address = 0x10000 + va ∧
      (imageSection rva dataBytes name va).stop = 0x10000 + va + 0x200 := by
  rw [stop_eq]
  simp only [imageSection, sectionOf, imageModule, haddress, hsize, and_self]

theorem fullyReadable_image (rva : ℕ) (dataBytes : List UInt8) :
    (imageModule rva dataBytes).FullyReadable (imageData rva dataBytes) ∧
      (imageModule rva dataBytes).FullyReadable (imageRdata rva dataBytes) := by
  refine ⟨⟨?_, fun _ _ => rfl, fun _ _ _ => rfl⟩, ⟨?_, fun _ _ => rfl, fun _ _ _ => rfl⟩⟩
  · obtain ⟨haddress, hstop⟩ := imageSection_range rva dataBytes
      (chars ".data" ++ [0, 0, 0]) 0x2000 (by decide) (by decide)
    rw [imageData, haddress, hstop]
    exact (by decide : ∀ t ∈ imageLayout.regions, 0x12000 < t.stop → t.base < 0x12200 →
      t.label.readable = true)
  · obtain ⟨haddress, hstop⟩ := imageSection_range rva dataBytes
      (chars ".rdata" ++ [0, 0]) 0x1000 (by decide) (by decide)
    rw [imageRdata, haddress, hstop]
    exact (by decide : ∀ t ∈ imageLayout.regions, 0x11000 < t.stop → t.base < 0x11200 →
      t.label.readable = true)

theorem holds_iff_of_scanned {p : Process} {s : Memory} {r : Region} (hs : s.scanned p.layout = [r])
    (pattern : Pattern) (a : ℕ) : s.Holds p pattern a ↔ r.Holds p pattern a := by
  rw [Memory.Holds, hs]
  simp

theorem holds_image_iff {rva : ℕ} {dataBytes : List UInt8} {s : Section} {r : Region}
    (hs : s.scanned imageLayout = [r]) (pattern : Pattern) (a : ℕ) :
    s.Holds (imageProcess rva dataBytes) pattern a ↔
      r.Holds (imageProcess rva dataBytes) pattern a :=
  holds_iff_of_scanned hs pattern a

theorem rva_image {rva : ℕ} {dataBytes : List UInt8} (hrva : rva < 2 ^ 31)
    (hfield : decodeAt ((imageModule rva dataBytes).process.slice 0x11010 24) 12 4 = rva) :
    (CompleteObjectLocator.ofBytes
        ((imageModule rva dataBytes).process.slice 0x11010 24)).typeDescriptorOffset =
      ((0x10000 + rva : ℕ) : ℤ) - (imageModule rva dataBytes).address := by
  have haddress : (imageModule rva dataBytes).address = 0x10000 := rfl
  rw [CompleteObjectLocator.ofBytes_typeDescriptorOffset, hfield,
    asInt32_of_bounds (by omega) (by omega), haddress]
  omega

/-- A place of the pattern is the first one if a letter of the pattern does not stand where it would
stand for an earlier one. -/
theorem isLeast_of_letter {p : Process} {pattern : Pattern} {r : Region} {n j : ℕ} {b : UInt8}
    (hletter : pattern.word[j]? = some (some b)) (hno : ∀ i < n, p.bytes (r.address + i + j) ≠ b)
    (hholds : r.Holds p pattern (r.address + n)) :
    IsLeast {a | r.Holds p pattern a} (r.address + n) := by
  refine ⟨hholds, fun a ⟨hge, _, ha⟩ => ?_⟩
  by_contra hlt
  apply hno (a - r.address) (by omega)
  rw [Nat.add_sub_cancel' hge]
  exact ha j b hletter

theorem findAll_mem_of_isLeast {p : Process} {pattern : Pattern} {r : Region} {k : ℕ}
    (hsize : 0 < pattern.size) (hstrict : pattern.Strict) (hstop : r.stop < 2 ^ 63)
    (hread : p.readable r.address r.size = true) (hsmall : r.size < 2 ^ 31)
    (hk : IsLeast {a | r.Holds p pattern a} k) :
    ∃ as, Run.Returns (fun fuel => r.findAll p pattern fuel) as ∧ k ∈ as := by
  obtain ⟨as, has, hgreedy⟩ := Region.findAll_greedy hsize hstrict hstop hread hsmall
  exact ⟨as, has, hgreedy.mem_of_isLeast ⟨⟨hk.1.1, hk.1⟩, fun j hj => hk.2 hj.2⟩⟩

/-- The image with the name in front of its type descriptor, which has the offset `0x2020`. -/
def decoyData : List UInt8 := chars ".?AVT@@" ++ List.replicate 25 0 ++ descriptorBytes

theorem described_decoy :
    (imageModule 0x2020 decoyData).Described (imageData 0x2020 decoyData)
      (imageRdata 0x2020 decoyData) (chars ".?AVT@@") 0x12020 0x11010 where
  descriptor := by decide
  name := rfl
  terminated := by decide
  locator := by decide
  signature := rfl
  rva := rva_image (by decide) rfl

/-- A copy of the name in front of the type descriptor hides it. -/
theorem not_findsAll_decoy : ¬ (imageModule 0x2020 decoyData).FindsAll (chars ".?AVT@@") 8 := by
  intro h
  have hlocates := h (imageData 0x2020 decoyData) (imageRdata 0x2020 decoyData) 0x12020 0x11010
    (fetchSection_data _ _) (fetchSection_rdata _ _) (fullyReadable_image _ _).1
    (fullyReadable_image _ _).2 described_decoy ⟨0x11000, by decide, by decide, by decide, rfl⟩
  obtain ⟨a, hleast, hmod⟩ := (hlocates.reached (fetchSection_data _ _) (fetchSection_rdata _ _)
    (fun _ _ => rfl) (fun _ _ => rfl) described_decoy).nameFirst
  have hscanned : (imageData 0x2020 decoyData).scanned imageLayout =
      [⟨seen 0x12000 ⟨0x12000, 0x1000, ⟨memCommit, pageReadwrite, 0x1000000⟩⟩⟩] := by decide
  have hholds : (imageData 0x2020 decoyData).Holds (imageProcess 0x2020 decoyData)
      (.ofBytes (chars ".?AVT@@")) 0x12000 := by
    apply (holds_image_iff hscanned _ _).mpr
    refine ⟨by decide, by decide, ?_⟩
    rw [Process.holdsAt_ofBytes_iff (by decide)]
    rfl
  have hle := hleast.2 hholds
  have hge : 0x12000 ≤ a := ((holds_image_iff hscanned _ _).mp hleast.1).1
  omega

theorem described_image :
    (imageModule 0x2000 descriptorBytes).Described (imageData 0x2000 descriptorBytes)
      (imageRdata 0x2000 descriptorBytes) (chars ".?AVT@@") 0x12000 0x11010 where
  descriptor := by decide
  name := rfl
  terminated := by decide
  locator := by decide
  signature := rfl
  rva := rva_image (by decide) rfl

theorem locates_iff_reached_image :
    ((imageModule 0x2000 descriptorBytes).Locates (imageRdata 0x2000 descriptorBytes)
        (chars ".?AVT@@") 8 0x11010 ↔
      (imageModule 0x2000 descriptorBytes).Reached (imageData 0x2000 descriptorBytes)
        (imageRdata 0x2000 descriptorBytes) (chars ".?AVT@@") 8 0x12000 0x11010) ∧
    ∀ r ∈ (imageRdata 0x2000 descriptorBytes).scanned imageLayout, r.size < 2 ^ 31 →
      ∃ as, Run.Returns (fun fuel => r.findAll (imageProcess 0x2000 descriptorBytes)
          ((imageModule 0x2000 descriptorBytes).rvaPattern 0x12000) fuel) as ∧
        IsGreedyList (r.Holds (imageProcess 0x2000 descriptorBytes)
          ((imageModule 0x2000 descriptorBytes).rvaPattern 0x12000)) 4 as :=
  locates_iff_reached (imageModule 0x2000 descriptorBytes) (imageData 0x2000 descriptorBytes)
    (imageRdata 0x2000 descriptorBytes) (chars ".?AVT@@") 8 0x12000 0x11010
    (fetchSection_data _ _) (fetchSection_rdata _ _) (fullyReadable_image _ _).1
    (fullyReadable_image _ _).2 described_image

theorem scanned_image :
    (imageData 0x2000 descriptorBytes).scanned imageLayout =
        [⟨seen 0x12000 ⟨0x12000, 0x1000, ⟨memCommit, pageReadwrite, 0x1000000⟩⟩⟩] ∧
      (imageRdata 0x2000 descriptorBytes).scanned imageLayout =
        [⟨seen 0x11000 ⟨0x10000, 0x2000, ⟨memCommit, 0x02, 0x1000000⟩⟩⟩] := by
  decide

theorem findAll_image :
    ∃ as, Run.Returns (fun fuel => Region.findAll (imageProcess 0x2000 descriptorBytes)
        ((imageModule 0x2000 descriptorBytes).rvaPattern 0x12000) fuel
        ⟨seen 0x11000 ⟨0x10000, 0x2000, ⟨memCommit, 0x02, 0x1000000⟩⟩⟩) as ∧ 0x1101c ∈ as := by
  have hno : ∀ i < 0x1c, imageBytes 0x2000 descriptorBytes (0x11000 + i + 1) ≠ 0x20 := by decide
  refine findAll_mem_of_isLeast (by decide) (Pattern.ofInt_strict _ _) (by decide) rfl (by decide)
    (isLeast_of_letter (n := 0x1c) (j := 1) (b := 0x20) rfl hno ⟨by decide, by decide, ?_⟩)
  rw [rvaPattern, Pattern.ofInt, Process.holdsAt_ofBytes_iff (by decide)]
  rfl

/-- The first `.` of the section is the first character of the name. -/
theorem isLeast_name_image {text : List UInt8} (hhead : text[0]? = some 0x2e)
    (hlength : text.length ≤ 0xff0)
    (hstands : (imageProcess 0x2000 descriptorBytes).slice 0x12010 text.length = text) :
    IsLeast {a | (imageData 0x2000 descriptorBytes).Holds (imageProcess 0x2000 descriptorBytes)
      (.ofBytes text) a} 0x12010 := by
  have hstop : (⟨seen 0x12000 ⟨0x12000, 0x1000, ⟨memCommit, pageReadwrite, 0x1000000⟩⟩⟩ : Region).stop =
      0x13000 := by decide
  have hsize : (Pattern.ofBytes text).size = text.length := rfl
  have hletter : (Pattern.ofBytes text).word[0]? = some (some 0x2e) := by
    rw [Pattern.ofBytes_word, List.getElem?_map, hhead]
    rfl
  have hno : ∀ i < 16, imageBytes 0x2000 descriptorBytes (0x12000 + i + 0) ≠ 0x2e := by decide
  simp only [holds_image_iff scanned_image.1]
  refine isLeast_of_letter (n := 0x10) hletter hno ⟨by decide, ?_, ?_⟩
  · rw [hstop, hsize]
    change 0x12010 + text.length ≤ 0x13000
    omega
  · have hholds := (Process.holdsAt_ofBytes_iff (by omega : 0x12010 + text.length ≤ 2 ^ 64)).mpr hstands
    exact hholds

theorem isLeast_slot_image :
    IsLeast {a | (imageRdata 0x2000 descriptorBytes).Holds (imageProcess 0x2000 descriptorBytes)
      (.ofInt 8 0x11010) a} 0x11000 := by
  simp only [holds_image_iff scanned_image.2]
  refine ⟨⟨by decide, by decide, ?_⟩, fun b hb => hb.1⟩
  rw [Pattern.ofInt, Process.holdsAt_ofBytes_iff (by decide)]
  rfl

theorem reached_image :
    (imageModule 0x2000 descriptorBytes).Reached (imageData 0x2000 descriptorBytes)
      (imageRdata 0x2000 descriptorBytes) (chars ".?AVT@@") 8 0x12000 0x11010 where
  nonempty := by decide
  dataOpens := by
    change (imageData 0x2000 descriptorBytes).Opens imageLayout
    decide
  nameFirst := ⟨0x12010, isLeast_name_image rfl (by decide) rfl, by decide⟩
  rdataOpens := by
    change (imageRdata 0x2000 descriptorBytes).Opens imageLayout
    decide
  rdataEnds := by
    change (imageRdata 0x2000 descriptorBytes).Ends imageLayout
    decide
  scans := by
    intro r hr
    have hr : r ∈ (imageRdata 0x2000 descriptorBytes).scanned imageLayout := hr
    rw [scanned_image.2, List.mem_singleton] at hr
    subst hr
    exact findAll_image.imp fun _ h => h.1
  reported := by
    refine ⟨_, ?_, findAll_image⟩
    change _ ∈ (imageRdata 0x2000 descriptorBytes).scanned imageLayout
    rw [scanned_image.2]
    exact List.mem_cons_self
  locators := fun _ _ => .inl rfl
  slotFirst := ⟨0x11000, isLeast_slot_image, by decide, by decide, by decide, rfl⟩

end Module

/-! ## Soundness -/

namespace Module

/-- The reads that `fetch_objects` makes of the memory succeed: of the scanned regions of the two
sections, and of the 24 bytes in which a reference to a descriptor of the name is the offset field. -/
structure ReadsSucceed (m : Module) (mangled : List UInt8) : Prop where
  data : ∀ s, m.fetchSection (chars ".data") = .ok (some s) → s.ReadsSucceed m.process
  rdata : ∀ s, m.fetchSection (chars ".rdata") = .ok (some s) → s.ReadsSucceed m.process
  locators : ∀ s s', m.fetchSection (chars ".data") = .ok (some s) →
    m.fetchSection (chars ".rdata") = .ok (some s') → ∀ result ref,
    s.Holds m.process (.ofBytes mangled) result →
    s'.Holds m.process (.ofInt 4 (m.typeDescriptorRva result)) ref →
    m.process.readable (asSize (ref - 12)) 24 = true

/-- The offset of a descriptor whose name lies less than 2 GiB above the module leads back to the
name, although it was cut to 32 bits. -/
theorem name_address_eq {m : Module} {result : ℕ} (hlow : m.address < result + pageSize)
    (hhigh : result < m.address + 2 ^ 31) :
    asSize (m.address + asInt32 (m.typeDescriptorRva result) + 16) = result := by
  have haddress := m.address_lt
  have hrange : asInt32 ((result : ℤ) - 16 - m.address) = (result : ℤ) - 16 - m.address := by
    unfold pageSize at hlow
    exact asInt32_of_bounds (by omega) (by omega)
  rw [typeDescriptorRva_eq, hrange, hrange]
  unfold asSize
  omega

/-- Where an object was found in memory: `a` is the first place of the name, `ref` a reference to the
descriptor that belongs to it, and `s` a slot with the address of the locator around the reference. -/
structure FoundBy (m : Module) (data rdata : Section) (mangled : List UInt8) (o : Object)
    (a ref s : ℕ) : Prop where
  nonempty : mangled ≠ []
  name : IsLeast {a | data.Holds m.process (.ofBytes mangled) a} a
  reference : rdata.Holds m.process (.ofInt 4 (m.typeDescriptorRva a)) ref
  slot : rdata.Holds m.process (.ofInt 8 (asSize (ref - 12))) s
  vtable : o.vtable = s + 8
  locator : .ofBytes (m.process.slice (asSize (ref - 12)) 24) = o.col
  signature : o.col.signature = 1
  offset : o.col.typeDescriptorOffset = m.typeDescriptorRva a

/-- How `fetch_objects` came to an object: the name was found at `a`, a reference to the descriptor that
belongs to it at `ref`, and the address of the locator around the reference at `s`. -/
structure TracedBy (m : Module) (data rdata : Section) (mangled : List UInt8) (o : Object)
    (a ref s : ℕ) : Prop where
  name : Run.Returns (data.find m.process (.ofBytes mangled)) (some a)
  reference : ∃ references, ref ∈ references ∧
    Run.Returns (rdata.findAll m.process (.ofInt 4 (m.typeDescriptorRva a))) references
  locator : m.process.readLocator (asSize (ref - 12)) = .ok o.col
  signature : o.col.signature = 1
  slot : Run.Returns (rdata.find m.process (.ofInt 8 (asSize (ref - 12)))) (some s)
  vtable : o.vtable = asSize (s + 8)

section Sound
variable {m : Module} {data rdata : Section} {mangled : List UInt8} {objects : List Object} {o : Object}
  {a ref s : ℕ}

theorem exists_tracedBy (hreturns : Run.Returns (m.fetchObjects mangled) objects) (ho : o ∈ objects) :
    ∃ data rdata a ref s, m.fetchSection (chars ".data") = .ok (some data) ∧
      m.fetchSection (chars ".rdata") = .ok (some rdata) ∧
      m.TracedBy data rdata mangled o a ref s := by
  obtain ⟨fuel, hfuel⟩ := hreturns
  obtain ⟨data, rdata, a, references, hdata, hrdata, ha, hreferences, -, ref, href, hobject⟩ :=
    fetchObjects_mem (hfuel 0) ho
  obtain ⟨s, hcol, hsignature, hslot, hvtable⟩ := objectOf_some hobject
  exact ⟨data, rdata, a, ref, s, hdata, hrdata, (data.find_fuelMono _ _).returns ha,
    ⟨references, href, (rdata.findAll_fuelMono _ _).returns hreferences⟩, hcol, hsignature,
    (rdata.find_fuelMono _ _).returns hslot, hvtable⟩

theorem TracedBy.nonempty (h : m.TracedBy data rdata mangled o a ref s) : mangled ≠ [] := by
  rintro rfl
  exact absurd (size_pos_of_find h.name) (lt_irrefl _)

theorem TracedBy.foundAt (h : m.TracedBy data rdata mangled o a ref s) :
    IsLeast {a | data.FoundAt m.process (.ofBytes mangled) a} a ∧
      rdata.FoundAt m.process (.ofInt 4 (m.typeDescriptorRva a)) ref := by
  obtain ⟨references, href, hrefs⟩ := h.reference
  exact ⟨find_isLeast_foundAt (size_pos_of_find h.name) (Pattern.ofBytes_strict _) h.name,
    (findAll_foundAt (by simp) hrefs href).2⟩

/-- What was found stands in memory if the reads succeed. -/
theorem TracedBy.foundBy (hdata : m.fetchSection (chars ".data") = .ok (some data))
    (hrdata : m.fetchSection (chars ".rdata") = .ok (some rdata)) (hreads : m.ReadsSucceed mangled)
    (h : m.TracedBy data rdata mangled o a ref s) : m.FoundBy data rdata mangled o a ref s := by
  obtain ⟨-, hleast, -⟩ := (find_returns_strict_iff (size_pos_of_find h.name)
    (Pattern.ofBytes_strict _) (hreads.data data hdata)).mp h.name
  -- the cross reference
  have hreferred := (foundAt_iff_holds (hreads.rdata rdata hrdata) ref).mp h.foundAt.2
  have hlocator := readLocator_of_readable
    (hreads.locators data rdata hdata hrdata a ref hleast.1 hreferred)
  have hbytes : .ofBytes (m.process.slice (asSize (ref - 12)) 24) = o.col :=
    Except.ok.inj (hlocator.symm.trans h.locator)
  obtain ⟨r, hr, hge, hle, hrva⟩ := id hreferred
  have hstop := walked_stop_lt (scanned_subset hr)
  rw [Pattern.ofInt_size] at hle
  have hoffset := typeDescriptorOffset_eq (by omega) hrva
  rw [hbytes, typeDescriptorRva_eq, asInt32_asInt32, ← typeDescriptorRva_eq] at hoffset
  -- the slot
  have hholds := find_holds (by simp) (hreads.rdata rdata hrdata) h.slot
  obtain ⟨r', hr', hge', hle', -⟩ := id hholds
  have hstop' := walked_stop_lt (scanned_subset hr')
  rw [Pattern.ofInt_size] at hle'
  have hvtable : o.vtable = s + 8 := by
    rw [h.vtable]
    unfold asSize
    omega
  exact ⟨h.nonempty, hleast, hreferred, hholds, hvtable, hbytes, h.signature, hoffset⟩

end Sound

/-- Each object that `fetch_objects` returns is right: the eight bytes before its table point to its
locator, and its locator points to a type descriptor with the name. -/
theorem fetchObjects_sound (m : Module) (mangled : List UInt8) (objects : List Object)
    (hreads : m.ReadsSucceed mangled)
    (hnear : ∀ s, m.fetchSection (chars ".data") = .ok (some s) →
      ∀ r ∈ s.scanned m.process.layout, r.stop ≤ m.address + 2 ^ 31)
    (hreturns : Run.Returns (m.fetchObjects mangled) objects) :
    ∀ o ∈ objects, ∃ c, 8 ≤ o.vtable ∧ decode (m.process.slice (o.vtable - 8) 8) = c ∧
      .ofBytes (m.process.slice c 24) = o.col ∧ o.col.signature = 1 ∧
      m.process.HoldsAt (.ofBytes mangled)
        (asSize (m.address + o.col.typeDescriptorOffset + 16)) := by
  intro o ho
  obtain ⟨data, rdata, a, ref, s, hdata, hrdata, htraced⟩ := exists_tracedBy hreturns ho
  have h := htraced.foundBy hdata hrdata hreads
  have hvtable := h.vtable
  -- the slot
  obtain ⟨r, hr, hge, hle, hptr⟩ := h.slot
  have hstop := walked_stop_lt (scanned_subset hr)
  rw [Pattern.ofInt_size] at hle
  have hcolAddress := asSize_lt (ref - 12)
  have hslotEnd : s + 8 ≤ 2 ^ 64 := by omega
  have hc := Process.decode_of_holdsAt_ofInt hslotEnd hptr
  refine ⟨asSize (ref - 12), by omega, ?_, h.locator, h.signature, ?_⟩
  · rw [hvtable, Nat.add_sub_cancel]
    omega
  · -- the name
    obtain ⟨r', hr', hge', hle', hmangled⟩ := h.name.1
    have hpage := walked_address_lt (scanned_subset hr')
    have hbase := address_le_of_fetchSection hdata
    have hfar := hnear data hdata r' hr'
    have hlength := List.length_pos_of_ne_nil h.nonempty
    have hsize : (Pattern.ofBytes mangled).size = mangled.length := rfl
    have hrva : asInt32 (m.typeDescriptorRva a) = m.typeDescriptorRva a := by
      rw [typeDescriptorRva_eq, asInt32_asInt32]
    rw [h.offset, ← hrva, name_address_eq (by omega) (by omega)]
    exact hmangled

theorem fetchObjects_sound_image :
    ∃ objects, objects ≠ [] ∧
      Run.Returns ((imageModule 0x2000 descriptorBytes).fetchObjects (chars ".?AVT@@")) objects ∧
      ∀ o ∈ objects, ∃ c, 8 ≤ o.vtable ∧
        decode ((imageProcess 0x2000 descriptorBytes).slice (o.vtable - 8) 8) = c ∧
        .ofBytes ((imageProcess 0x2000 descriptorBytes).slice c 24) = o.col ∧ o.col.signature = 1 ∧
        (imageProcess 0x2000 descriptorBytes).HoldsAt (.ofBytes (chars ".?AVT@@"))
          (asSize ((0x10000 : ℕ) + o.col.typeDescriptorOffset + 16)) := by
  obtain ⟨objects, hreturns, o, ho, -⟩ := reached_image.locates (fetchSection_data _ _)
    (fetchSection_rdata _ _) (fun _ _ => rfl) (fun _ _ => rfl) rfl described_image
  refine ⟨objects, List.ne_nil_of_mem ho, hreturns,
    fetchObjects_sound (imageModule 0x2000 descriptorBytes) (chars ".?AVT@@") objects
      ⟨fun _ _ _ _ => rfl, fun _ _ _ _ => rfl, fun _ _ _ _ _ _ _ _ => rfl⟩ (fun s hs r hr => ?_)
      hreturns⟩
  rw [fetchSection_data] at hs
  cases hs
  have hr : r ∈ (imageData 0x2000 descriptorBytes).scanned imageLayout := hr
  rw [scanned_image.1, List.mem_singleton] at hr
  subst hr
  decide

end Module
end Wincpp
