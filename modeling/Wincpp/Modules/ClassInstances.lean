import Wincpp.Memory.VtableSearch
import Wincpp.Modules.Lookup

/-! Instances of a class, from its name (`fetch_objects` and then `find_instance_of`).

The two searches look at different memory, the sections of a module and the heaps of the process, and
share nothing but the address of a table. What is found in the end is an instance of a class with the
name all the same (`instancesOf_exact`): the pointers lead back from it to the name.
-/
namespace Wincpp
open LittleEndian Search Memory FindInstance
set_option autoImplicit false

namespace Module

/-- The eight bytes at `a` point to a table, the eight bytes before the table to a locator, and the
locator to a type descriptor whose name starts with `mangled`. -/
structure InstanceAt (m : Module) (mangled : List UInt8) (vtable a : ℕ) : Prop where
  pointer : decode (m.process.slice a 8) = vtable
  locator : ∃ c, ∃ col : CompleteObjectLocator, decode (m.process.slice (vtable - 8) 8) = c ∧
    .ofBytes (m.process.slice c 24) = col ∧ col.signature = 1 ∧
    m.process.HoldsAt (.ofBytes mangled) (asSize (m.address + col.typeDescriptorOffset + 16))

variable {m : Module} {data rdata : Section} {mangled : List UInt8} {o : Object} {a ref s : ℕ}

theorem FoundBy.slot_eq (h : m.FoundBy data rdata mangled o a ref s) :
    s + 8 < 2 ^ 63 ∧ decode (m.process.slice s 8) = asSize (ref - 12) := by
  obtain ⟨r, hr, hge, hle, hptr⟩ := h.slot
  have hstop := walked_stop_lt (scanned_subset hr)
  rw [Pattern.ofInt_size] at hle
  have hdecode := Process.decode_of_holdsAt_ofInt (by omega) hptr
  have hcolAddress := asSize_lt (ref - 12)
  omega

/-- The name stands where the offset in the locator leads to. -/
theorem FoundBy.holds_name (h : m.FoundBy data rdata mangled o a ref s)
    (hdata : m.fetchSection (chars ".data") = .ok (some data))
    (hnear : ∀ r ∈ data.scanned m.process.layout, r.stop ≤ m.address + 2 ^ 31) :
    m.process.HoldsAt (.ofBytes mangled)
      (asSize (m.address + o.col.typeDescriptorOffset + 16)) := by
  obtain ⟨r, hr, hge, hle, hmangled⟩ := h.name.1
  have hpage := walked_address_lt (scanned_subset hr)
  have hbase := address_le_of_fetchSection hdata
  have hfar := hnear r hr
  have hlength := List.length_pos_of_ne_nil h.nonempty
  rw [Pattern.ofBytes_size] at hle
  have hrva : asInt32 (m.typeDescriptorRva a) = m.typeDescriptorRva a := by
    rw [typeDescriptorRva_eq, asInt32_asInt32]
  rw [h.offset, ← hrva, name_address_eq (by omega) (by omega)]
  exact hmangled

/-- A place that holds the table of an object that was found by a name is an instance of the name. -/
theorem FoundBy.instanceAt (h : m.FoundBy data rdata mangled o a ref s)
    (hdata : m.fetchSection (chars ".data") = .ok (some data))
    (hnear : ∀ r ∈ data.scanned m.process.layout, r.stop ≤ m.address + 2 ^ 31) {r : Region} {i : ℕ}
    (hi : r.Holds m.process (.ofInt 8 o.vtable) i) (hstop : r.stop < 2 ^ 63) :
    m.InstanceAt mangled o.vtable i := by
  obtain ⟨hslot, hdecode⟩ := h.slot_eq
  have hvtable := h.vtable
  obtain ⟨-, hle, hpointer⟩ := hi
  rw [Pattern.ofInt_size] at hle
  have hpointer := Process.decode_of_holdsAt_ofInt (by omega) hpointer
  refine ⟨by omega, asSize (ref - 12), o.col, ?_, h.locator, h.signature, h.holds_name hdata hnear⟩
  rw [hvtable, Nat.add_sub_cancel, hdecode]

/-- From the name of a class to an instance of it. Whatever `find_instance_of` returns, in any order of
the steps of its invocations, for an object that `fetch_objects` returned for the name, is an instance
of the name in one of the heaps that are searched. And if the address of the table is one that the
search cannot lose, an instance is found when there is one. -/
theorem instancesOf_exact (m : Module) (mangled : List UInt8) (objects : List Object)
    (hreads : m.ReadsSucceed mangled)
    (hnear : ∀ s, m.fetchSection (chars ".data") = .ok (some s) →
      ∀ r ∈ s.scanned m.process.layout, r.stop ≤ m.address + 2 ^ 31)
    (hreturns : Run.Returns (m.fetchObjects mangled) objects) (o : Object) (ho : o ∈ objects)
    (compare : Region → Bool) (fuel : ℕ) (regionList : List Region) (scan : Region → Option ℕ)
    (hlist : candidates m.process.layout compare fuel = .ok regionList)
    (hheaps : ∀ r ∈ regionList, m.process.readable r.address r.size = true ∧ r.address ≠ 0)
    (hscan : ∀ r ∈ regionList, m.process.scanFor o r = .ok (scan r)) (schedule : List ℕ) :
    (∀ a, (after regionList scan schedule).result = some a →
      m.InstanceAt mangled o.vtable a ∧
        ∃ r ∈ regionList, isCandidate compare r = true ∧ r.address ≤ a ∧ a + 8 ≤ r.stop) ∧
    (o.vtable < 2 ^ 48 → ClearVtable o.vtable →
      Complete regionList (after regionList scan schedule) →
      (∃ r ∈ regionList, ∃ a, r.address ≤ a ∧ a + 8 ≤ r.stop ∧
        decode (m.process.slice a 8) = o.vtable) →
      (after regionList scan schedule).result ≠ none) := by
  obtain ⟨data, rdata, a, ref, s, hdata, hrdata, htraced⟩ := exists_tracedBy hreturns ho
  have hfound := htraced.foundBy hdata hrdata hreads
  have hcandidate : ∀ r ∈ regionList, r ∈ wholeSpace.walked m.process.layout ∧
      isCandidate compare r = true := by
    intro r hr
    rw [candidates_eq hlist] at hr
    exact List.mem_filter.mp hr
  constructor
  · intro i hi
    obtain ⟨r, hr, hholds⟩ := holds_of_result hlist (fun r hr => (hheaps r hr).1) hscan hi
    have hstop := walked_stop_lt (hcandidate r hr).1
    refine ⟨hfound.instanceAt hdata (hnear data hdata) hholds hstop, r, hr, (hcandidate r hr).2,
      hholds.1, ?_⟩
    have hle := hholds.2.1
    rwa [Pattern.ofInt_size] at hle
  · rintro hv hclear hcomplete ⟨r, hr, i, hlow, hhigh, hi⟩
    have hstop := walked_stop_lt (hcandidate r hr).1
    have hpattern : Pattern.ofInt 8 o.vtable = .ofBytes (encode 8 o.vtable) :=
      Pattern.ofInt_natCast (by omega)
    have hsafe : SuffixSafe (Pattern.ofInt 8 o.vtable).bytes := by
      rw [hpattern, Pattern.ofBytes_bytes]
      exact (suffixSafe_vtable_iff hv).mpr hclear
    refine (detectsInstances_of_safe hsafe m.process o compare fuel regionList scan schedule rfl hlist
      hheaps hscan hcomplete).mpr ⟨r, hr, i, hlow, by rwa [Pattern.ofInt_size], ?_⟩
    rw [hpattern, Process.holdsAt_ofBytes_iff (by rw [encode_length]; omega), encode_length, ← hi]
    have hbytes := encode_decode (m.process.slice i 8)
    rw [Process.slice_length] at hbytes
    exact hbytes.symm

/-! ### An instance on the heap of an image -/

/-- The image above 4 GiB, and a heap behind it. -/
def loadedLayout : Layout where
  top := 0x7ff612345000
  regions := [⟨0, 0x7ff612340000, ⟨memFree, pageNoaccess, 0⟩⟩,
    ⟨0x7ff612340000, 0x2000, ⟨memCommit, 0x02, 0x1000000⟩⟩,
    ⟨0x7ff612342000, 0x1000, ⟨memCommit, pageReadwrite, 0x1000000⟩⟩,
    ⟨0x7ff612343000, 0x1000, ⟨memCommit, pageReadwrite, memPrivate⟩⟩,
    ⟨0x7ff612344000, 0x1000, ⟨memFree, pageNoaccess, 0⟩⟩]
  tiles := by decide
  aligned := by decide
  top_lt := by decide

/-- The slot points to where the locator has been loaded; the heap holds a pointer to the table. -/
def loadedPages : List (List UInt8) :=
  [headerBytes, encode 8 0x7ff612341010 ++ (rdataBytes 0x2000).drop 8, descriptorBytes,
    List.replicate 8 0xff ++ encode 8 0x7ff612341008]

def loadedBytes (x : ℕ) : UInt8 :=
  if 0x7ff612340000 ≤ x then
    (loadedPages.getD ((x - 0x7ff612340000) / 0x1000) []).getD (x % 0x1000) 0
  else
    0

def loadedProcess : Process where
  layout := loadedLayout
  type := .remoteT
  bytes := loadedBytes
  readable _ _ := true
  fresh _ _ _ := 0
  userSpace := by decide

def loadedModule : Module where
  address := 0x7ff612340000
  size := 0x3000
  range := by decide
  process := loadedProcess
  sizeOfImage := 0x3000
  buffer := ⟨loadedProcess.slice 0x7ff612340000 0x3000, by simp⟩
  buffer_eq := rfl
  loaded := (by decide : 0x7ff612340000 < 0x7ff612345000)

def loadedData : Section :=
  loadedModule.sectionOf ⟨sectionHeaderBytes (chars ".data" ++ [0, 0, 0]) 0x2000⟩

def loadedRdata : Section :=
  loadedModule.sectionOf ⟨sectionHeaderBytes (chars ".rdata" ++ [0, 0]) 0x1000⟩

def loadedDataRegion : Region :=
  ⟨seen 0x7ff612342000 ⟨0x7ff612342000, 0x1000, ⟨memCommit, pageReadwrite, 0x1000000⟩⟩⟩

def loadedRdataRegion : Region :=
  ⟨seen 0x7ff612341000 ⟨0x7ff612340000, 0x2000, ⟨memCommit, 0x02, 0x1000000⟩⟩⟩

def heapRegion : Region := ⟨⟨memCommit, pageReadwrite, memPrivate⟩, 0x7ff612343000, 0x1000⟩

/-- The object of the class. -/
def loadedObject : Object := ⟨0x7ff612341008, .ofBytes (loadedProcess.slice 0x7ff612341010 24)⟩

theorem slice_loaded_headers {k n : ℕ} (h : k + n ≤ 0x1000) :
    loadedProcess.slice (0x7ff612340000 + k) n = (imageProcess 0 []).slice (0x10000 + k) n := by
  apply List.map_congr_left
  intro i hi
  rw [List.mem_range] at hi
  have hhigh : (0x7ff612340000 + k + i) % 2 ^ 64 = 0x7ff612340000 + (k + i) := by omega
  have hlow : (0x10000 + k + i) % 2 ^ 64 = 0x10000 + (k + i) := by omega
  have hpage : (0x10000 + (k + i)) / 0x1000 = 0x10 := by omega
  have hfirst : (k + i) / 0x1000 = 0 := by omega
  have hoffset : (0x7ff612340000 + (k + i)) % 0x1000 = (0x10000 + (k + i)) % 0x1000 := by omega
  change loadedBytes _ = imageBytes 0 [] _
  rw [hhigh, hlow, loadedBytes, if_pos (Nat.le_add_right _ _), Nat.add_sub_cancel_left, hfirst,
    hoffset, imageBytes, if_pos hpage]
  rfl

theorem fetchSection_loaded :
    loadedModule.fetchSection (chars ".data") = .ok (some loadedData) ∧
      loadedModule.fetchSection (chars ".rdata") = .ok (some loadedRdata) := by
  have hsections := fetchSection_of_headers (m := loadedModule) rfl (by decide : 0x1000 ≤ 0x3000)
    fun _ _ => slice_loaded_headers
  constructor
  · rw [hsections, if_neg (by decide), if_pos rfl, loadedData]
  · rw [hsections, if_pos rfl, loadedRdata]

theorem scanned_loaded :
    loadedData.scanned loadedProcess.layout = [loadedDataRegion] ∧
      loadedRdata.scanned loadedProcess.layout = [loadedRdataRegion] := by
  decide

theorem isLeast_name_loaded :
    IsLeast {a | loadedData.Holds loadedProcess (.ofBytes (chars ".?AVT@@")) a} 0x7ff612342010 := by
  have hno : ∀ i < 0x10, loadedBytes (0x7ff612342000 + i + 0) ≠ 0x2e := by decide
  have hstands : loadedProcess.slice 0x7ff612342010 7 = chars ".?AVT@@" := by decide
  simp only [holds_iff_of_scanned scanned_loaded.1]
  exact isLeast_of_letter (n := 0x10) rfl hno
    ⟨by decide, by decide, (Process.holdsAt_ofBytes_iff (by decide)).mpr hstands⟩

theorem findAll_loaded :
    ∃ as, Run.Returns (fun fuel => loadedRdataRegion.findAll loadedProcess
      (loadedModule.rvaPattern 0x7ff612342000) fuel) as ∧ 0x7ff61234101c ∈ as := by
  have hno : ∀ i < 0x1c, loadedBytes (0x7ff612341000 + i + 1) ≠ 0x20 := by decide
  have hstands : loadedProcess.slice 0x7ff61234101c 4 = encode 4 0x2000 := by decide
  exact findAll_mem_of_isLeast (by decide) (Pattern.ofInt_strict _ _) (by decide) rfl (by decide)
    (isLeast_of_letter (n := 0x1c) (j := 1) (b := 0x20) rfl hno
      ⟨by decide, by decide, (Process.holdsAt_ofBytes_iff (by decide)).mpr hstands⟩)

theorem isLeast_slot_loaded :
    IsLeast {a | loadedRdata.Holds loadedProcess (.ofInt 8 0x7ff612341010) a} 0x7ff612341000 := by
  simp only [holds_iff_of_scanned scanned_loaded.2]
  refine ⟨⟨by decide, by decide, ?_⟩, fun b hb => hb.1⟩
  rw [Pattern.ofInt, Process.holdsAt_ofBytes_iff (by decide)]
  rfl

theorem loadedModule_fetchObjects : ∃ objects,
    Run.Returns (loadedModule.fetchObjects (chars ".?AVT@@")) objects ∧ loadedObject ∈ objects := by
  have hname : Run.Returns (loadedData.find loadedProcess (.ofBytes (chars ".?AVT@@")))
      (some 0x7ff612342010) :=
    (find_returns_strict_iff (by decide) (Pattern.ofBytes_strict _) fun _ _ => rfl).mpr
      ⟨by decide, isLeast_name_loaded, by simp⟩
  have hrva : loadedModule.typeDescriptorRva 0x7ff612342010 =
      (0x7ff612342000 : ℕ) - (loadedModule.address : ℤ) := by decide
  refine fetchObjects_returns (m := loadedModule) (a := 0x7ff612342010) (d := 0x7ff612342000)
    (c := 0x7ff612341010) (s := 0x7ff612341000) fetchSection_loaded.1 fetchSection_loaded.2
    (fun _ _ => rfl) hname (by rw [hrva, rvaPattern]) (by decide) (by decide) (fun r hr => ?_) ?_
    (fun _ _ => .inl rfl) (by decide) rfl (by decide) isLeast_slot_loaded
  · have hr : r ∈ loadedRdata.scanned loadedProcess.layout := hr
    rw [scanned_loaded.2, List.mem_singleton] at hr
    subst hr
    exact findAll_loaded.imp fun _ h => h.1
  · refine ⟨loadedRdataRegion, ?_, findAll_loaded⟩
    change _ ∈ loadedRdata.scanned loadedProcess.layout
    rw [scanned_loaded.2]
    exact List.mem_cons_self

theorem loadedProcess_scanFor : loadedProcess.scanFor loadedObject heapRegion = .ok (some 8) := by
  have hread : loadedProcess.readable heapRegion.address heapRegion.size = true := rfl
  obtain ⟨buffer, hbytes, hfind⟩ := scanFor_eq loadedObject hread (by decide)
  replace hbytes : buffer.bytes = loadedProcess.slice 0x7ff612343000 0x1000 := hbytes
  have hget : ∀ i < 0x1000, buffer.bytes[i]? = some (loadedBytes (0x7ff612343000 + i)) := by
    intro i hi
    rw [hbytes, Process.slice_getElem? _ hi, Nat.mod_eq_of_lt (by omega)]
    rfl
  have hlength : buffer.size = 0x1000 := by rw [Span.size, hbytes, Process.slice_length]
  have hsize : (Pattern.ofInt 8 loadedObject.vtable).size = 8 := Pattern.ofInt_size ..
  have hfill : ∀ i < 8, loadedBytes (0x7ff612343000 + i) = 0xff := by decide
  have hcopy : ∀ i < 8, some (loadedBytes (0x7ff612343000 + (8 + i))) =
      (Pattern.ofInt 8 loadedObject.vtable).bytes[i]? := by decide
  have hfound := Scanner.find_tbm_behind (.ofInt 8 loadedObject.vtable) buffer (x := 0xff) (by decide)
    (Pattern.ofInt_strict _ _) (by decide) (by omega)
    (fun i hi => by rw [hget i (by omega), hfill i (by omega)])
    fun i hi => by rw [hsize, hget _ (by omega), hcopy i (by omega)]
  rw [hfind, hfound, hsize]

/-- The object of the class `T` and the instance of it on the heap, which is found in any order of the
steps. -/
theorem instancesOf_exact_heap : ∃ objects,
    Run.Returns (loadedModule.fetchObjects (chars ".?AVT@@")) objects ∧ loadedObject ∈ objects ∧
    loadedModule.InstanceAt (chars ".?AVT@@") 0x7ff612341008 0x7ff612343008 ∧
    ∀ schedule, Complete [heapRegion] (after [heapRegion] (fun _ => some 8) schedule) →
      (after [heapRegion] (fun _ => some 8) schedule).result ≠ none := by
  obtain ⟨objects, hreturns, hobject⟩ := loadedModule_fetchObjects
  refine ⟨objects, hreturns, hobject, ?_⟩
  have hexact := instancesOf_exact loadedModule (chars ".?AVT@@") objects
    ⟨fun _ _ _ _ => rfl, fun _ _ _ _ => rfl, fun _ _ _ _ _ _ _ _ => rfl⟩ (fun s hs r hr => ?_)
    hreturns loadedObject hobject (fun _ => true) 7 [heapRegion] (fun _ => some 8) (by decide)
    (by decide) (fun r hr => by rw [List.mem_singleton.mp hr]; exact loadedProcess_scanFor)
  · refine ⟨((hexact [0, 0, 0, 0]).1 0x7ff612343008 (by decide)).1, fun schedule hcomplete => ?_⟩
    exact (hexact schedule).2 (by decide) (by decide) hcomplete
      ⟨heapRegion, List.mem_cons_self, 0x7ff612343008, by decide, by decide, by decide⟩
  · rw [fetchSection_loaded.1] at hs
    cases hs
    have hr : r ∈ loadedData.scanned loadedProcess.layout := hr
    rw [scanned_loaded.1, List.mem_singleton] at hr
    subst hr
    decide

end Module
end Wincpp
