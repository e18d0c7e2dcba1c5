import Wincpp.Core.CString
import Wincpp.Memory.Reach

/-! Strings in the memory of a process (`read` and `write` of `memory_factory`, for `std::string`).

A string is written with its terminator, whatever its length. It is read as the C string in a copy of
256 bytes, so that a longer string comes without its terminator and is read beyond the copy
(`roundTrips_iff`).
-/
namespace Wincpp
open Terminated
set_option autoImplicit false

/-- Why `memory_factory::write` does not return. -/
inductive WriteFailure
  | accessViolation  -- unwritable memory of the own process was written
  | win32 (code : UInt32)  -- `error::from_win32` is thrown
  deriving DecidableEq, Repr

/-- `memory_factory::buffer_size`. -/
def bufferSize : ℕ := 256

namespace Process
variable (p : Process)

/-! ## Strings that stand in memory -/

/-- The string and a terminator stand at `a`. -/
def StringAt (a : ℕ) (text : List UInt8) : Prop := Spells 0 (p.slice a (text.length + 1)) text

theorem slice_take {a n w : ℕ} (h : w ≤ n) : (p.slice a n).take w = p.slice a w := by
  have hslice := p.slice_drop_take (a := a) (k := 0) (w := w) (n := n) (by omega)
  rwa [List.drop_zero] at hslice

theorem slice_drop {a n k : ℕ} (h : k ≤ n) : (p.slice a n).drop k = p.slice (a + k) (n - k) := by
  rw [← p.slice_drop_take (n := n) (k := k) (w := n - k) (by omega), List.take_of_length_le]
  rw [List.length_drop, slice_length]

theorem slice_succ (a n : ℕ) :
    p.slice a (n + 1) = p.slice a n ++ [p.bytes ((a + n) % 2 ^ 64)] := by
  rw [slice, List.range_succ, List.map_append]
  rfl

theorem stringAt_iff {a : ℕ} {text : List UInt8} : p.StringAt a text ↔
    0 ∉ text ∧ p.slice a text.length = text ∧ p.bytes ((a + text.length) % 2 ^ 64) = 0 := by
  rw [StringAt, Spells, slice_succ]
  refine and_congr_right fun _ => ⟨fun h => ?_, fun ⟨htext, hend⟩ => ?_⟩
  · have heq := h.eq_of_length (by simp)
    obtain ⟨htext, hend⟩ := List.append_inj heq (by simp)
    exact ⟨htext.symm, (List.singleton_inj.mp hend).symm⟩
  · exact ⟨[], by rw [List.append_nil, htext, hend]⟩

/-- A copy of `n` bytes has room for strings of fewer than `n` bytes. -/
theorem cString_slice_iff {a n : ℕ} {text : List UInt8} :
    cString (p.slice a n) = .ok text ↔ p.StringAt a text ∧ text.length < n := by
  rw [cString_eq_ok_iff_spells]
  constructor
  · intro h
    have hlt : text.length < n := by simpa using h.length_lt
    refine ⟨?_, hlt⟩
    rw [StringAt, ← p.slice_take (Nat.succ_le_of_lt hlt)]
    exact spells_take_iff.mpr ⟨h, Nat.lt_succ_self _⟩
  · rintro ⟨h, hlt⟩
    rw [StringAt, ← p.slice_take (Nat.succ_le_of_lt hlt)] at h
    exact (spells_take_iff.mp h).1

/-! ## Writing -/

/-- The process after the bytes have been copied to an address. -/
def store (address : ℕ) (bytes : List UInt8) : Process :=
  { p with bytes := fun x =>
      if address ≤ x then (bytes[x - address]?).getD (p.bytes x) else p.bytes x }

variable (writable : ℕ → ℕ → Bool) (lastError : UInt32)

/-- `memory_factory::write`, with the number of bytes that it returns. `writable` says which ranges
can be written as a whole, and `lastError` is what `GetLastError` returns after a failure. -/
def write (address : ℕ) (buffer : List UInt8) : Except WriteFailure (Process × ℕ) :=
  match p.type with
  | .localT =>
    if writable address buffer.length then .ok (p.store address buffer, buffer.length)
    else .error .accessViolation
  | .remoteT =>
    if writable address buffer.length then .ok (p.store address buffer, buffer.length)
    else .error (.win32 lastError)

/-- `write< std::string >`. -/
def writeString (address : ℕ) (value : List UInt8) : Except WriteFailure Process := do
  let (p', _) ← p.write writable lastError address (value ++ [0])
  return p'

/-- `read< std::string >`. -/
def readString (address : ℕ) : Run (List UInt8) := do
  cString (← p.read address bufferSize).bytes

/-- The `n` bytes at `a` are memory of the process that can be read and written. -/
structure Accessible (a n : ℕ) : Prop where
  inside : a + n ≤ p.layout.top
  readable : ∀ b k, a ≤ b → b + k ≤ a + n → p.readable b k = true
  writable : ∀ b k, a ≤ b → b + k ≤ a + n → writable b k = true

/-- The string is read back after it has been written, inside the buffer, and the bytes outside of its
place have not changed. -/
def RoundTrips (a : ℕ) (value : List UInt8) : Prop :=
  ∃ p', p.writeString writable lastError a value = .ok p' ∧ p'.readString a = .ok value ∧
    ∀ x, ¬ (a ≤ x ∧ x < a + value.length + 1) → p'.bytes x = p.bytes x

variable {p writable lastError} {a : ℕ} {bytes value text : List UInt8}

theorem store_bytes_of_outside {x : ℕ} (h : ¬ (a ≤ x ∧ x < a + bytes.length)) :
    (p.store a bytes).bytes x = p.bytes x := by
  simp only [store]
  split
  · rw [List.getElem?_eq_none (by omega), Option.getD_none]
  · rfl

theorem store_bytes_add {i : ℕ} (h : i < bytes.length) :
    (p.store a bytes).bytes (a + i) = bytes[i] := by
  simp only [store]
  rw [if_pos (Nat.le_add_right a i), Nat.add_sub_cancel_left, List.getElem?_eq_getElem h,
    Option.getD_some]

theorem slice_store (h : a + bytes.length ≤ 2 ^ 64) :
    (p.store a bytes).slice a bytes.length = bytes := by
  apply List.ext_getElem?
  intro i
  by_cases hi : i < bytes.length
  · rw [slice_getElem? _ hi, Nat.mod_eq_of_lt (by omega), store_bytes_add hi,
      List.getElem?_eq_getElem hi]
  · rw [List.getElem?_eq_none (by simpa using hi), List.getElem?_eq_none (by simpa using hi)]

theorem writeString_eq (h : writable a (value.length + 1) = true) :
    p.writeString writable lastError a value = .ok (p.store a (value ++ [0])) := by
  have hlength : (value ++ [0]).length = value.length + 1 := by simp
  rw [writeString, write, hlength, if_pos h, if_pos h]
  cases p.type <;> rfl

theorem stringAt_store (hnul : 0 ∉ value) (h : a + (value.length + 1) ≤ 2 ^ 64) :
    (p.store a (value ++ [0])).StringAt a value := by
  have hlength : (value ++ [0]).length = value.length + 1 := by simp
  rw [StringAt, ← hlength, slice_store (by rwa [hlength])]
  exact spells_append hnul []

theorem readString_eq_ok_iff (h : p.readable a bufferSize = true) :
    p.readString a = .ok text ↔ p.StringAt a text ∧ text.length < bufferSize := by
  obtain ⟨buffer, hbuffer, hbytes⟩ := p.read_of_readable (by decide : bufferSize < 2 ^ 63) h
  rw [readString, hbuffer, Run.ok_bind, hbytes, cString_slice_iff]

/-- The copy of a string of 256 bytes or more has no terminator. -/
theorem readString_of_long (hnul : 0 ∉ value) (hlong : bufferSize ≤ value.length)
    (h : a + (value.length + 1) ≤ 2 ^ 64) (hread : p.readable a bufferSize = true) :
    (p.store a (value ++ [0])).readString a = .error .outOfRange := by
  have hlength : (value ++ [0]).length = value.length + 1 := by simp
  have hcopy : (p.store a (value ++ [0])).slice a bufferSize = value.take bufferSize := by
    rw [← slice_take _ (hlong.trans (Nat.le_add_right _ 1)), ← hlength,
      slice_store (by rwa [hlength]), List.take_append_of_le_length hlong]
  obtain ⟨buffer, hbuffer, hbytes⟩ := (p.store a (value ++ [0])).read_of_readable
    (by decide : bufferSize < 2 ^ 63) hread
  rw [readString, hbuffer, Run.ok_bind, hbytes, hcopy]
  exact cString_of_notMem fun hmem => hnul (List.mem_of_mem_take hmem)

end Process

/-- A string without a 0 byte survives being written and read back exactly when it is shorter than the
buffer of 256 bytes. -/
theorem roundTrips_iff (p : Process) (writable : ℕ → ℕ → Bool) (lastError : UInt32) (a : ℕ)
    (value : List UInt8) (hnul : 0 ∉ value)
    (haccessible : p.Accessible writable a (max 256 (value.length + 1))) :
    p.RoundTrips writable lastError a value ↔ value.length < 256 := by
  have hinside := haccessible.inside
  have htop := p.userSpace
  have hwrite : p.writeString writable lastError a value = .ok (p.store a (value ++ [0])) :=
    Process.writeString_eq (haccessible.writable a (value.length + 1) le_rfl (by omega))
  have hread : (p.store a (value ++ [0])).readable a bufferSize = true :=
    haccessible.readable a 256 le_rfl (by omega)
  have hstands : (p.store a (value ++ [0])).StringAt a value :=
    Process.stringAt_store hnul (by omega)
  constructor
  · rintro ⟨p', hp', hback, -⟩
    cases hwrite.symm.trans hp'
    exact ((Process.readString_eq_ok_iff hread).mp hback).2
  · intro hshort
    refine ⟨_, hwrite, (Process.readString_eq_ok_iff hread).mpr ⟨hstands, hshort⟩, fun x hx => ?_⟩
    apply Process.store_bytes_of_outside
    rwa [List.length_append, List.length_singleton, ← Nat.add_assoc]

theorem sampleProcess_accessible {n : ℕ} (h : n ≤ 0x2000) :
    (Memory.sampleProcess 0x1000).Accessible (fun _ _ => true) 0x1000 n where
  inside := by
    have htop : (Memory.sampleProcess 0x1000).layout.top = 0x6000 := rfl
    omega
  readable _ _ _ _ := rfl
  writable _ _ _ _ := rfl

/-- The characters of a string of 256 bytes take the whole buffer. -/
theorem readString_overread :
    (Memory.sampleProcess 0x1000).Accessible (fun _ _ => true) 0x1000 257 ∧
      (Memory.sampleProcess 0x1000).writeString (fun _ _ => true) 0 0x1000
          (List.replicate 256 0x61) =
        .ok ((Memory.sampleProcess 0x1000).store 0x1000 (List.replicate 256 0x61 ++ [0])) ∧
      ((Memory.sampleProcess 0x1000).store 0x1000 (List.replicate 256 0x61 ++ [0])).readString
          0x1000 = .error .outOfRange := by
  have hlength : (List.replicate 256 (0x61 : UInt8)).length = 256 := List.length_replicate
  refine ⟨sampleProcess_accessible (by decide), Process.writeString_eq rfl, ?_⟩
  apply Process.readString_of_long _ (by rw [hlength]; decide) (by rw [hlength]; decide) rfl
  rw [List.mem_replicate]
  decide

theorem roundTrips_iff_word :
    (Memory.sampleProcess 0x1000).RoundTrips (fun _ _ => true) 0 0x1000 (chars "wincpp") ↔
      (chars "wincpp").length < 256 :=
  roundTrips_iff (Memory.sampleProcess 0x1000) (fun _ _ => true) 0 0x1000 (chars "wincpp")
    (by decide) (sampleProcess_accessible (by decide))

end Wincpp
