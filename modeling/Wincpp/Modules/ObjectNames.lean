import Wincpp.Memory.Unread
import Wincpp.Modules.Lookup
import Wincpp.Modules.TypeDescriptors

/-! The names of the objects that `fetch_objects` returns.

The search takes the first place of the name in `.data`, whatever follows it there. So the object is one
of a class whose name starts with the one looked for, and has that name exactly when a 0 follows
(`objectName_iff`). Where a read fails, the place was found in a copy that holds something else, and the
offset of the locator decides.
-/
namespace Wincpp
open LittleEndian Memory
set_option autoImplicit false

namespace Module
variable (m : Module)

/-- The descriptor at `d` has the name, which can be read from there. -/
structure NamedAt (mangled : List UInt8) (d : ℕ) : Prop where
  readable : m.process.readable d bufSiz = true
  stands : m.process.StringAt (d + 16) mangled
  short : mangled.length < bufSiz - 16

/-- The descriptor whose name was found at `a`, as it is reached through its offset of 32 bits. -/
def descriptorOf (a : ℕ) : ℕ := asSize (m.address + m.typeDescriptorRva a)

/-- The name that was found at `a` is the whole name of its descriptor, and can be read from there. -/
structure WholeName (mangled : List UInt8) (a : ℕ) : Prop where
  short : mangled.length < bufSiz - 16
  readable : m.process.readable (m.descriptorOf a) bufSiz = true
  reached : (m.descriptorOf a + 16) % 2 ^ 64 ≠ a →
    m.process.slice (m.descriptorOf a + 16) mangled.length = mangled
  terminated : m.process.bytes ((m.descriptorOf a + 16 + mangled.length) % 2 ^ 64) = 0

variable {m} {mangled : List UInt8} {a : ℕ}

/-- The descriptor of a name less than 2 GiB above the module is 16 bytes in front of it. -/
theorem descriptorOf_near (hlow : m.address < a + pageSize) (hhigh : a < m.address + 2 ^ 31) :
    (m.descriptorOf a + 16) % 2 ^ 64 = a := by
  have hrva : asInt32 (m.typeDescriptorRva a) = m.typeDescriptorRva a := by
    rw [typeDescriptorRva_eq, asInt32_asInt32]
  have haddress := name_address_eq hlow hhigh
  rw [hrva] at haddress
  unfold descriptorOf
  unfold asSize at haddress ⊢
  omega

theorem wholeName_iff_of_near (hlow : m.address < a + pageSize) (hhigh : a < m.address + 2 ^ 31) :
    m.WholeName mangled a ↔ mangled.length < bufSiz - 16 ∧
      m.process.readable (asSize ((a : ℤ) - 16)) bufSiz = true ∧
      m.process.bytes ((a + mangled.length) % 2 ^ 64) = 0 := by
  have hnear := descriptorOf_near hlow hhigh
  have hdescriptor : m.descriptorOf a = asSize ((a : ℤ) - 16) := by
    have hlt : m.descriptorOf a < 2 ^ 64 := asSize_lt _
    unfold asSize
    omega
  have hend : (m.descriptorOf a + 16 + mangled.length) % 2 ^ 64 = (a + mangled.length) % 2 ^ 64 := by
    rw [← Nat.mod_add_mod, hnear]
  constructor
  · intro h
    exact ⟨h.short, hdescriptor ▸ h.readable, hend ▸ h.terminated⟩
  · rintro ⟨hshort, hreadable, hzero⟩
    exact ⟨hshort, hdescriptor ▸ hreadable, fun hfar => absurd hnear hfar, hend ▸ hzero⟩

/-- The name was found at `a`, so it stands in its descriptor, unless the offset leads elsewhere. -/
theorem namedAt_descriptorOf_iff (hnul : 0 ∉ mangled) (ha : m.process.slice a mangled.length = mangled) :
    m.NamedAt mangled (m.descriptorOf a) ↔ m.WholeName mangled a := by
  constructor
  · intro h
    obtain ⟨-, hstands, hzero⟩ := (Process.stringAt_iff _).mp h.stands
    exact ⟨h.short, h.readable, fun _ => hstands, hzero⟩
  · intro h
    refine ⟨h.readable, (Process.stringAt_iff _).mpr ⟨hnul, ?_, h.terminated⟩, h.short⟩
    by_cases hnear : (m.descriptorOf a + 16) % 2 ^ 64 = a
    · rw [m.process.slice_congr (b := a) (by omega)]
      exact ha
    · exact h.reached hnear

end Module

/-- What a name that is read is, whatever a new buffer holds before the read. -/
theorem Object.name_withFresh_iff {o : Object} {m : Module} {text : List UInt8} (hne : text ≠ []) :
    (∀ fresh, o.name m.toMemory (m.process.withFresh fresh) = .ok text) ↔
      m.NamedAt text (o.typeDescriptorAddress m.toMemory) := by
  constructor
  · intro h
    have hread : m.process.readable (o.typeDescriptorAddress m.toMemory) bufSiz = true := by
      by_contra hunread
      have hunread : (m.process.withFresh fun _ _ _ => 0).readable
          (o.typeDescriptorAddress m.toMemory) bufSiz = false := Bool.eq_false_of_not_eq_true hunread
      obtain ⟨t, ht, htext⟩ := Run.bind_eq_ok (h fun _ _ _ => 0)
      obtain ⟨buffer, hbuffer, ht⟩ := Run.bind_eq_ok ht
      obtain ⟨name, hname, ht⟩ := Run.bind_eq_ok ht
      cases ht
      cases htext
      -- the buffer was filled with zeros, so the name is empty
      rw [Process.read_of_unreadable _ hunread hbuffer] at hname
      have hempty : cString (((List.range bufSiz).map fun _ => (0 : UInt8)).drop 16) = .ok [] := by
        rw [List.map_const', List.drop_replicate, List.length_range]
        exact cString_append List.not_mem_nil (List.replicate 495 0)
      cases hempty.symm.trans hname
      exact hne rfl
    obtain ⟨hstands, hshort⟩ :=
      (name_eq_ok_iff (p := m.process.withFresh m.process.fresh) hread).mp (h m.process.fresh)
    exact ⟨hread, hstands, hshort⟩
  · intro h fresh
    exact (name_eq_ok_iff (p := m.process.withFresh fresh) h.readable).mpr ⟨h.stands, h.short⟩

/-- An object that is returned for a name has that name exactly when its locator leads to a descriptor
with it, which can be read. If the reads of `fetch_objects` succeed, then that is so exactly when the
first place of the name in `.data` is followed by a 0, the name has at most 495 bytes and its descriptor
can be read. -/
theorem objectName_iff (m : Module) (mangled : List UInt8) (objects : List Object) (o : Object)
    (hnul : 0 ∉ mangled) (hreturns : Run.Returns (m.fetchObjects mangled) objects)
    (ho : o ∈ objects) :
    ∃ data rdata a ref, m.fetchSection (chars ".data") = .ok (some data) ∧
      m.fetchSection (chars ".rdata") = .ok (some rdata) ∧
      IsLeast {a | data.FoundAt m.process (.ofBytes mangled) a} a ∧
      rdata.FoundAt m.process (.ofInt 4 (m.typeDescriptorRva a)) ref ∧
      m.process.readLocator (asSize (ref - 12)) = .ok o.col ∧
      ((∀ fresh, o.name m.toMemory (m.process.withFresh fresh) = .ok mangled) ↔
        m.NamedAt mangled (o.typeDescriptorAddress m.toMemory)) ∧
      (m.ReadsSucceed mangled → IsLeast {a | data.Holds m.process (.ofBytes mangled) a} a ∧
        (m.NamedAt mangled (o.typeDescriptorAddress m.toMemory) ↔ m.WholeName mangled a) ∧
        (a < m.address + 2 ^ 31 →
          (m.WholeName mangled a ↔ mangled.length < bufSiz - 16 ∧
            m.process.readable (asSize ((a : ℤ) - 16)) bufSiz = true ∧
            m.process.bytes ((a + mangled.length) % 2 ^ 64) = 0))) := by
  obtain ⟨data, rdata, a, ref, s, hdata, hrdata, htraced⟩ := Module.exists_tracedBy hreturns ho
  refine ⟨data, rdata, a, ref, hdata, hrdata, htraced.foundAt.1, htraced.foundAt.2, htraced.locator,
    Object.name_withFresh_iff htraced.nonempty, fun hreads => ?_⟩
  have h := htraced.foundBy hdata hrdata hreads
  obtain ⟨r, hr, hge, hle, hholds⟩ := h.name.1
  have haddress : o.typeDescriptorAddress m.toMemory = m.descriptorOf a := by
    rw [Object.typeDescriptorAddress, h.offset, Module.descriptorOf]
  refine ⟨h.name, ?_, fun hhigh => ?_⟩
  · have hstop := walked_stop_lt (scanned_subset hr)
    have hsize : (Pattern.ofBytes mangled).size = mangled.length := rfl
    rw [haddress]
    exact Module.namedAt_descriptorOf_iff hnul ((Process.holdsAt_ofBytes_iff (by omega)).mp hholds)
  · have hpage := walked_address_lt (scanned_subset hr)
    have hbase := Module.address_le_of_fetchSection hdata
    exact Module.wholeName_iff_of_near (by omega) hhigh

/-! ### The image with one class -/

namespace Module

/-- The object of the class `.?AVT@@`. -/
def imageObject : Object :=
  ⟨asSize ((0x11000 : ℕ) + 8), .ofBytes ((imageProcess 0x2000 descriptorBytes).slice 0x11010 24)⟩

/-- The object is returned for each string that starts at the same place as its name. -/
theorem fetchObjects_image (text : List UInt8) (hhead : text[0]? = some 0x2e)
    (hlength : text.length ≤ 0xff0)
    (hstands : (imageProcess 0x2000 descriptorBytes).slice 0x12010 text.length = text) :
    ∃ objects, Run.Returns ((imageModule 0x2000 descriptorBytes).fetchObjects text) objects ∧
      imageObject ∈ objects := by
  have hpos : 0 < (Pattern.ofBytes text).size := (List.getElem?_eq_some_iff.mp hhead).1
  have hname : Run.Returns ((imageData 0x2000 descriptorBytes).find
      (imageProcess 0x2000 descriptorBytes) (.ofBytes text)) (some 0x12010) :=
    (find_returns_strict_iff hpos (Pattern.ofBytes_strict _) fun _ _ => rfl).mpr
      ⟨reached_image.dataOpens, isLeast_name_image hhead hlength hstands, by simp⟩
  have hrva : (imageModule 0x2000 descriptorBytes).rvaPattern 0x12000 =
      .ofInt 4 ((imageModule 0x2000 descriptorBytes).typeDescriptorRva 0x12010) := by
    rw [rvaPattern, (described_image.typeDescriptorRva_iff 0x12010).mpr rfl]
  exact fetchObjects_returns (fetchSection_data _ _) (fetchSection_rdata _ _) (fun _ _ => rfl) hname
    hrva reached_image.rdataOpens reached_image.rdataEnds reached_image.scans reached_image.reported
    reached_image.locators described_image.locator.2 rfl described_image.signature isLeast_slot_image

/-- The search for `.?AVT` finds the class `.?AVT@@`. -/
theorem fetchObjects_prefix :
    ∃ objects, Run.Returns ((imageModule 0x2000 descriptorBytes).fetchObjects (chars ".?AVT"))
        objects ∧ imageObject ∈ objects ∧
      imageObject.name (imageModule 0x2000 descriptorBytes).toMemory
        (imageProcess 0x2000 descriptorBytes) = .ok (chars ".?AVT@@") := by
  obtain ⟨objects, hreturns, hmem⟩ := fetchObjects_image (chars ".?AVT") rfl (by decide) rfl
  refine ⟨objects, hreturns, hmem, (Object.name_eq_ok_iff rfl).mpr ⟨?_, by decide⟩⟩
  exact (Process.stringAt_iff _).mpr ⟨by decide, rfl, rfl⟩

theorem objectName_iff_image :
    ∃ objects : List Object, imageObject ∈ objects ∧
      ∃ data rdata a ref,
        (imageModule 0x2000 descriptorBytes).fetchSection (chars ".data") = .ok (some data) ∧
        (imageModule 0x2000 descriptorBytes).fetchSection (chars ".rdata") = .ok (some rdata) ∧
        IsLeast {a | data.FoundAt (imageProcess 0x2000 descriptorBytes) (.ofBytes (chars ".?AVT@@")) a}
          a ∧
        rdata.FoundAt (imageProcess 0x2000 descriptorBytes)
          (.ofInt 4 ((imageModule 0x2000 descriptorBytes).typeDescriptorRva a)) ref ∧
        (imageProcess 0x2000 descriptorBytes).readLocator (asSize (ref - 12)) = .ok imageObject.col ∧
        ((∀ fresh, imageObject.name (imageModule 0x2000 descriptorBytes).toMemory
            ((imageProcess 0x2000 descriptorBytes).withFresh fresh) = .ok (chars ".?AVT@@")) ↔
          (imageModule 0x2000 descriptorBytes).NamedAt (chars ".?AVT@@")
            (imageObject.typeDescriptorAddress (imageModule 0x2000 descriptorBytes).toMemory)) ∧
        ((imageModule 0x2000 descriptorBytes).ReadsSucceed (chars ".?AVT@@") →
          IsLeast {a | data.Holds (imageProcess 0x2000 descriptorBytes) (.ofBytes (chars ".?AVT@@")) a}
            a ∧
          ((imageModule 0x2000 descriptorBytes).NamedAt (chars ".?AVT@@")
              (imageObject.typeDescriptorAddress (imageModule 0x2000 descriptorBytes).toMemory) ↔
            (imageModule 0x2000 descriptorBytes).WholeName (chars ".?AVT@@") a) ∧
          (a < 0x10000 + 2 ^ 31 →
            ((imageModule 0x2000 descriptorBytes).WholeName (chars ".?AVT@@") a ↔
              (chars ".?AVT@@").length < bufSiz - 16 ∧
              (imageProcess 0x2000 descriptorBytes).readable (asSize ((a : ℤ) - 16)) bufSiz = true ∧
              (imageProcess 0x2000 descriptorBytes).bytes
                ((a + (chars ".?AVT@@").length) % 2 ^ 64) = 0))) := by
  obtain ⟨objects, hreturns, hmem⟩ := fetchObjects_image (chars ".?AVT@@") rfl (by decide) rfl
  exact ⟨objects, hmem, objectName_iff (imageModule 0x2000 descriptorBytes) (chars ".?AVT@@") objects
    imageObject (by decide) hreturns hmem⟩

end Module
end Wincpp
