import Wincpp.Core.Run
import Wincpp.Library.Terminated

/-! C strings in a buffer. A string that does not end inside the buffer is read beyond it. -/
namespace Wincpp
open Terminated
set_option autoImplicit false

/-- A `const char*` to the first of the bytes, as a string. -/
def cString (bytes : List UInt8) : Run (List UInt8) :=
  if 0 ∈ bytes then .ok (bytes.takeWhile (· ≠ 0)) else .error .outOfRange

def chars (s : String) : List UInt8 := s.toList.map fun c => UInt8.ofNat c.toNat

theorem cString_eq_ok_iff {bytes text : List UInt8} :
    cString bytes = .ok text ↔ 0 ∈ bytes ∧ bytes.takeWhile (· ≠ 0) = text := by
  rw [cString]
  split
  · rename_i hmem
    rw [Except.ok.injEq]
    exact (and_iff_right hmem).symm
  · rename_i hmem
    constructor
    · intro h
      cases h
    · intro h
      exact absurd h.1 hmem

theorem cString_eq_ok_iff_spells {bytes text : List UInt8} :
    cString bytes = .ok text ↔ Spells 0 bytes text := cString_eq_ok_iff.trans spells_iff.symm

theorem cString_of_notMem {bytes : List UInt8} (h : 0 ∉ bytes) :
    cString bytes = .error .outOfRange := if_neg h

theorem exists_cString_iff {bytes : List UInt8} : (∃ text, cString bytes = .ok text) ↔ 0 ∈ bytes := by
  simp [cString_eq_ok_iff]

theorem zero_notMem_cString {bytes text : List UInt8} (h : cString bytes = .ok text) : 0 ∉ text :=
  (cString_eq_ok_iff_spells.mp h).1

/-- A C string is followed by its terminator. -/
theorem eq_append_of_cString {bytes text : List UInt8} (h : cString bytes = .ok text) :
    ∃ rest, bytes = text ++ 0 :: rest := (cString_eq_ok_iff_spells.mp h).exists_eq

/-- A string in front of a 0 is the C string of the bytes. -/
theorem cString_append {text : List UInt8} (h : 0 ∉ text) (rest : List UInt8) :
    cString (text ++ 0 :: rest) = .ok text := cString_eq_ok_iff_spells.mpr (spells_append h rest)

end Wincpp
