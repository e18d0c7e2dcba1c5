import Wincpp.Library.Tiling
import Wincpp.Patterns.Pattern

/-! The address space of a process, as the operating system shows it.

* `Layout`: the user address space `[0, top)`, cut into regions of uniform pages.
* `virtualQueryEx`: a query inside a region reports the page of the queried address and what is left
  of the region from there; a query at or above `top` fails.
* `Process`: a layout together with the memory contents, and `read` (`memory_factory::read`).
-/
namespace Wincpp
open Tiling
set_option autoImplicit false

def pageSize : ℕ := 0x1000

def pageBase (a : ℕ) : ℕ := a / pageSize * pageSize

/-- The constants that the code compares `State`, `Type` and `Protect` with. -/
def memCommit : UInt32 := 0x1000
def memFree : UInt32 := 0x10000
def memPrivate : UInt32 := 0x20000
def pageNoaccess : UInt32 := 0x01
def pageReadwrite : UInt32 := 0x04
def pageGuard : UInt32 := 0x100

structure Attributes where
  state : UInt32
  protect : UInt32
  type : UInt32
  deriving DecidableEq, Repr, Inhabited

/-- `protection_flags_t::has`. -/
def hasFlag (flags protection : UInt32) : Bool := flags &&& protection != 0

def Attributes.readable (x : Attributes) : Bool :=
  x.state == memCommit && !hasFlag x.protect pageNoaccess && !hasFlag x.protect pageGuard

/-- `MEMORY_BASIC_INFORMATION`. -/
structure Mbi extends Attributes where
  baseAddress : ℕ
  regionSize : ℕ
  deriving DecidableEq, Repr, Inhabited

structure Layout where
  top : ℕ
  regions : List (Tile Attributes)
  tiles : Tiles 0 regions top
  aligned : ∀ r ∈ regions, pageSize ∣ r.size
  top_lt : top < 2 ^ 64

/-- The answer to a query at the address `a` of the region `r`. -/
def reported (a : ℕ) (r : Tile Attributes) : Mbi where
  toAttributes := r.label
  baseAddress := pageBase a
  regionSize := r.stop - pageBase a

/-- The region `r`, as it is reported to a walk that started at `start`. -/
def seen (start : ℕ) (r : Tile Attributes) : Mbi := reported (max start r.base) r

namespace Layout
variable (L : Layout)

/-- `VirtualQueryEx`; `none` stands for its return value 0. -/
def virtualQueryEx (a : ℕ) : Option Mbi :=
  (L.regions.find? fun r => decide (r.base ≤ a ∧ a < r.stop)).map (reported a)

variable {L}

theorem virtualQueryEx_of_mem {r : Tile Attributes} (hr : r ∈ L.regions) {a : ℕ} (hb : r.base ≤ a)
    (hs : a < r.stop) : L.virtualQueryEx a = some (reported a r) := by
  unfold virtualQueryEx
  cases h : L.regions.find? fun r => decide (r.base ≤ a ∧ a < r.stop) with
  | none =>
    have := List.find?_eq_none.mp h r hr
    simp [hb, hs] at this
  | some t =>
    have ht := List.find?_some h
    simp only [decide_eq_true_eq] at ht
    rw [L.tiles.eq_of_mem (List.mem_of_find?_eq_some h) hr ht.1 ht.2 hb hs]
    rfl

theorem virtualQueryEx_of_le {a : ℕ} (h : L.top ≤ a) : L.virtualQueryEx a = none := by
  unfold virtualQueryEx
  rw [Option.map_eq_none_iff, List.find?_eq_none]
  intro r hr
  have := (L.tiles.mem r hr).2.2
  simp only [decide_eq_true_eq, not_and, not_lt]
  omega

theorem pageBase_le (a : ℕ) : pageBase a ≤ a := Nat.div_mul_le_self a pageSize

theorem lt_pageBase_add (a : ℕ) : a < pageBase a + pageSize := Nat.lt_div_mul_add (by decide)

theorem pageBase_of_dvd {a : ℕ} (h : pageSize ∣ a) : pageBase a = a := Nat.div_mul_cancel h

theorem le_pageBase {a b : ℕ} (h : pageSize ∣ b) (hba : b ≤ a) : b ≤ pageBase a := by
  obtain ⟨k, rfl⟩ := h
  unfold pageBase
  rw [Nat.mul_comm]
  apply Nat.mul_le_mul_right _
  rw [Nat.le_div_iff_mul_le (by decide), Nat.mul_comm]
  exact hba

theorem base_dvd {r : Tile Attributes} (hr : r ∈ L.regions) : pageSize ∣ r.base :=
  (L.tiles.dvd (Nat.dvd_zero _) L.aligned).1 r hr

theorem reported_end {r : Tile Attributes} {a : ℕ} (hs : a < r.stop) :
    (reported a r).baseAddress + (reported a r).regionSize = r.stop := by
  have := pageBase_le a
  simp only [reported]
  omega

/-! ## The regions from an address on -/

variable (L)

/-- The regions that end behind `start`, from left to right. -/
def regionsFrom (start : ℕ) : List (Tile Attributes) := L.regions.filter fun r => start < r.stop

variable {L}

theorem seen_base {start : ℕ} {r : Tile Attributes} (hr : r ∈ L.regions) (h : start ≤ r.base) :
    (seen start r).baseAddress = r.base := by
  rw [seen, max_eq_right h]
  exact pageBase_of_dvd (base_dvd hr)

theorem regionsFrom_split {start : ℕ} (h : start < L.top) :
    ∃ pre r post, L.regions = pre ++ r :: post ∧ L.regionsFrom start = r :: post ∧
      r.base ≤ start ∧ start < r.stop ∧ Tiles r.stop post L.top := by
  obtain ⟨pre, r, post, he, hb, hs, hpre, hpost⟩ := L.tiles.split (Nat.zero_le _) h
  refine ⟨pre, r, post, he, ?_, hb, hs, hpost⟩
  have h1 : pre.filter (fun t => start < t.stop) = [] := by
    rw [List.filter_eq_nil_iff]
    intro t ht
    have := (hpre.mem t ht).2.2
    simp only [decide_eq_true_eq]
    omega
  have h2 : post.filter (fun t => start < t.stop) = post := by
    rw [List.filter_eq_self]
    intro t ht
    have := hpost.mem t ht
    unfold Tile.stop at hs this ⊢
    simp only [decide_eq_true_eq]
    omega
  rw [regionsFrom, he, List.filter_append, h1, List.nil_append, List.filter_cons, h2, if_pos]
  simp only [decide_eq_true_eq]
  exact hs

end Layout

/-! ## Reading memory -/

/-- `memory_type`. -/
inductive MemoryType
  | localT
  | remoteT
  deriving DecidableEq, Repr

/-- A process with its memory. `readable` says which ranges can be read as a whole; `fresh` is what
a newly allocated buffer for a range holds before anything is read into it. -/
structure Process where
  layout : Layout
  type : MemoryType
  bytes : ℕ → UInt8
  readable : ℕ → ℕ → Bool
  fresh : ℕ → ℕ → ℕ → UInt8
  userSpace : layout.top < 2 ^ 63

namespace Process
variable (p : Process)

def slice (address size : ℕ) : List UInt8 :=
  (List.range size).map fun i => p.bytes ((address + i) % 2 ^ 64)

/-- `memory_factory::read`. A buffer of `2 ^ 63` bytes cannot be allocated, which ends the process
because the function is `noexcept`; a local copy from unreadable memory is an access violation; a
failing `ReadProcessMemory` goes unnoticed and leaves the buffer as it was. -/
def read (address size : ℕ) : Run Span :=
  if h : size < 2 ^ 63 then
    match p.type with
    | .localT =>
      if p.readable address size then
        .ok ⟨p.slice address size, by rw [slice, List.length_map, List.length_range]; exact h⟩
      else .error .accessViolation
    | .remoteT =>
      if p.readable address size then
        .ok ⟨p.slice address size, by rw [slice, List.length_map, List.length_range]; exact h⟩
      else
        .ok ⟨(List.range size).map (p.fresh address size), by
          rw [List.length_map, List.length_range]; exact h⟩
  else .error .terminate

@[simp] theorem slice_length (address size : ℕ) : (p.slice address size).length = size := by
  rw [slice, List.length_map, List.length_range]

theorem slice_getElem? {address size i : ℕ} (hi : i < size) :
    (p.slice address size)[i]? = some (p.bytes ((address + i) % 2 ^ 64)) := by
  simp [slice, hi]

theorem slice_congr {a b : ℕ} (h : a % 2 ^ 64 = b % 2 ^ 64) (n : ℕ) : p.slice a n = p.slice b n := by
  unfold slice
  apply List.map_congr_left
  intro i _
  rw [Nat.add_mod, h, ← Nat.add_mod]

theorem slice_drop_take {a n k w : ℕ} (h : k + w ≤ n) :
    ((p.slice a n).drop k).take w = p.slice (a + k) w := by
  apply List.ext_getElem?
  intro i
  by_cases hi : i < w
  · rw [List.getElem?_take_of_lt hi, List.getElem?_drop, p.slice_getElem? (by omega),
      p.slice_getElem? hi, Nat.add_assoc]
  · rw [List.getElem?_eq_none (by simp; omega), List.getElem?_eq_none (by simp; omega)]

theorem read_of_readable {address size : ℕ} (hsize : size < 2 ^ 63)
    (h : p.readable address size = true) :
    ∃ buffer, p.read address size = .ok buffer ∧ buffer.bytes = p.slice address size := by
  unfold read
  rw [dif_pos hsize]
  cases p.type <;> exact ⟨_, by simp only [h, if_true]; rfl, rfl⟩

theorem read_ok {address size : ℕ} {buffer : Span} (h : p.read address size = .ok buffer) :
    p.type = .remoteT ∨ p.readable address size = true := by
  unfold read at h
  split at h
  · split at h
    · split at h
      · rename_i hread
        exact .inr hread
      · cases h
    · rename_i htype
      exact .inl htype
  · cases h

theorem exists_read {address size : ℕ} (hsize : size < 2 ^ 63)
    (h : p.type = .remoteT ∨ p.readable address size = true) :
    ∃ buffer, p.read address size = .ok buffer := by
  unfold read
  rw [dif_pos hsize]
  cases htype : p.type with
  | localT =>
    rcases h with h | h
    · rw [htype] at h
      cases h
    · simp only [h, if_true]
      exact ⟨_, rfl⟩
  | remoteT =>
    simp only
    split <;> exact ⟨_, rfl⟩

/-- A read that fails leaves the new buffer as it was. -/
theorem read_of_unreadable {address size : ℕ} {buffer : Span}
    (hread : p.readable address size = false) (h : p.read address size = .ok buffer) :
    buffer.bytes = (List.range size).map (p.fresh address size) := by
  unfold read at h
  simp only [hread] at h
  split at h
  · split at h
    · cases h
    · cases h
      rfl
  · cases h

theorem read_length {address size : ℕ} {buffer : Span} (h : p.read address size = .ok buffer) :
    buffer.size = size := by
  unfold read at h
  split at h
  · split at h <;> split at h <;> cases h <;> simp [Span.size]
  · cases h

end Process
end Wincpp
