import Wincpp.Core.Run
import Wincpp.Library.MaskedWord

/-! Patterns (`patterns/pattern.hpp`, `patterns/pattern.cpp`) and the buffers that are scanned. -/
namespace Wincpp
set_option autoImplicit false

/-- `pattern_t`: `size` bytes, each of them strict (`mask`) or a wildcard. -/
structure Pattern where
  bytes : List UInt8
  mask : List Bool
  size : ℕ
  bytes_length : bytes.length = size
  mask_length : mask.length = size

namespace Pattern

/-- `pattern_t( const char* const aob, const std::string_view smask )`, for a byte array that is at
least as long as its mask. -/
def ofMask (aob : List UInt8) (smask : List Char) (h : smask.length ≤ aob.length) : Pattern where
  bytes := aob.take smask.length
  mask := smask.map fun c => c == 'x'
  size := smask.length
  bytes_length := by rw [List.length_take]; omega
  mask_length := List.length_map _

/-- `pattern_t( const T* object, std::size_t size )`, which the constructors from a string and from
an object forward to: all bytes are strict. -/
def ofBytes (object : List UInt8) : Pattern where
  bytes := object
  mask := List.replicate object.length true
  size := object.length
  bytes_length := rfl
  mask_length := List.length_replicate ..

/-- The masked word that the pattern stands for. -/
def word (pattern : Pattern) : List (Option UInt8) :=
  List.zipWith (fun b m => if m then some b else none) pattern.bytes pattern.mask

def Strict (pattern : Pattern) : Prop := ∀ m ∈ pattern.mask, m = true

@[simp] theorem word_length (pattern : Pattern) : pattern.word.length = pattern.size := by
  rw [word, List.length_zipWith, pattern.bytes_length, pattern.mask_length, min_self]

theorem exists_byte (pattern : Pattern) {i : ℕ} (h : i < pattern.size) :
    ∃ b, pattern.bytes[i]? = some b :=
  ⟨_, List.getElem?_eq_getElem (by rw [pattern.bytes_length]; exact h)⟩

theorem exists_mask (pattern : Pattern) {i : ℕ} (h : i < pattern.size) :
    ∃ m, pattern.mask[i]? = some m :=
  ⟨_, List.getElem?_eq_getElem (by rw [pattern.mask_length]; exact h)⟩

theorem word_getElem? {pattern : Pattern} {i : ℕ} {b : UInt8} {m : Bool}
    (hb : pattern.bytes[i]? = some b) (hm : pattern.mask[i]? = some m) :
    pattern.word[i]? = some (if m then some b else none) := by
  rw [word, List.getElem?_zipWith, hb, hm]

/-- Where all bytes of the pattern stand, its strict bytes do. -/
theorem occursAt_word (pattern : Pattern) {xs : List UInt8} {k : ℕ}
    (h : Search.OccursAt (pattern.bytes.map some) xs k) : Search.OccursAt pattern.word xs k := by
  rw [Search.occursAt_map_some, pattern.bytes_length] at h
  refine ⟨by rw [word_length]; exact h.1, fun i a ha => ?_⟩
  have hi : i < pattern.size := by
    rw [← pattern.word_length]
    exact (List.getElem?_eq_some_iff.mp ha).1
  obtain ⟨b, hb⟩ := pattern.exists_byte hi
  obtain ⟨m, hm⟩ := pattern.exists_mask hi
  rw [word_getElem? hb hm] at ha
  cases m with
  | false => cases ha
  | true =>
    rw [h.2 i hi, hb]
    exact Option.some.inj ha

theorem Strict.word_eq {pattern : Pattern} (h : pattern.Strict) :
    pattern.word = pattern.bytes.map some := by
  apply List.ext_getElem?
  intro i
  by_cases hi : i < pattern.size
  · obtain ⟨b, hb⟩ := pattern.exists_byte hi
    obtain ⟨m, hm⟩ := pattern.exists_mask hi
    have hstrict : m = true := h m (List.mem_of_getElem? hm)
    rw [word_getElem? hb hm, List.getElem?_map, hb, hstrict]
    rfl
  · have hw : pattern.word.length ≤ i := by rw [word_length]; omega
    have hb : (pattern.bytes.map some).length ≤ i := by
      rw [List.length_map, pattern.bytes_length]; omega
    rw [List.getElem?_eq_none hw, List.getElem?_eq_none hb]

theorem ofBytes_strict (object : List UInt8) : (ofBytes object).Strict :=
  fun _ hm => List.eq_of_mem_replicate hm

@[simp] theorem ofBytes_size (object : List UInt8) : (ofBytes object).size = object.length := rfl

@[simp] theorem ofBytes_bytes (object : List UInt8) : (ofBytes object).bytes = object := rfl

theorem ofBytes_word (object : List UInt8) : (ofBytes object).word = object.map some :=
  (ofBytes_strict object).word_eq

end Pattern

/-- `std::span< std::uint8_t >`. No array is as large as `2 ^ 63` bytes. -/
structure Span where
  bytes : List UInt8
  size_lt : bytes.length < 2 ^ 63

namespace Span

def size (buffer : Span) : ℕ := buffer.bytes.length

def subspan (buffer : Span) (offset : ℕ) : Span where
  bytes := buffer.bytes.drop offset
  size_lt := lt_of_le_of_lt (List.length_drop ▸ Nat.sub_le ..) buffer.size_lt

@[simp] theorem subspan_size (buffer : Span) (offset : ℕ) :
    (buffer.subspan offset).size = buffer.size - offset := List.length_drop ..

theorem size_lt_max (buffer : Span) : buffer.size < 2 ^ 63 := buffer.size_lt

theorem exists_byte (buffer : Span) {i : ℕ} (h : i < buffer.size) :
    ∃ b, buffer.bytes[i]? = some b :=
  ⟨_, List.getElem?_eq_getElem h⟩

/-- `buffer[ z ]`, whose index is computed as a signed number. -/
def byteAt (buffer : Span) (z : ℤ) : Run UInt8 := do index buffer.bytes (← sizeT z)

theorem byteAt_natCast {buffer : Span} {i : ℕ} {b : UInt8} (h : buffer.bytes[i]? = some b) :
    buffer.byteAt (i : ℤ) = .ok b := by
  have hi : i < buffer.bytes.length := (List.getElem?_eq_some_iff.mp h).1
  have hlt := buffer.size_lt
  rw [byteAt, sizeT_natCast (by omega)]
  exact index_of_getElem? h

end Span
end Wincpp
