import Wincpp.Library.SeparatedText
import Wincpp.Patterns.Results

/-! The text of a pattern (`pattern_t::to_string`) and what can be told from it.

A byte is printed in hexadecimal without leading zeros, a wildcard as a question mark, with blanks
between them. Patterns with the same text are the same for every search that looks at the mask first;
`tbm` also compares the bytes under the wildcards. Patterns with different texts are told apart by the
naive search in some buffer.
-/
namespace Wincpp
open SeparatedText Search
set_option autoImplicit false

/-- `std::hex << static_cast< int >( b )`. -/
def hexText (b : UInt8) : List Char := Nat.toDigits 16 b.toNat

namespace Pattern

/-- What a round of `to_string` prints for its byte. -/
def textAt (pattern : Pattern) (i : ℕ) : List Char :=
  if pattern.mask.getD i false then hexText (pattern.bytes.getD i 0) else ['?']

/-- The loop of `to_string` with `rest` rounds to go. -/
def textFrom (pattern : Pattern) : ℕ → List Char
  | 0 => []
  | rest + 1 =>
    let i := pattern.size - (rest + 1)
    pattern.textAt i ++ ((if i + 1 < pattern.size then [' '] else []) ++ pattern.textFrom rest)

/-- `pattern_t::to_string`. -/
def toText (pattern : Pattern) : List Char := pattern.textFrom pattern.size

example : (ofMask [0x48, 0, 0x0f] ['x', '?', 'x'] (by decide)).toText =
    ['4', '8', ' ', '?', ' ', 'f'] := by
  decide

/-! ## Reading the text back -/

theorem digitChar_spec : ∀ m n : Fin 16, Nat.digitChar m ≠ ' ' ∧ Nat.digitChar m ≠ '?' ∧
    (Nat.digitChar m = Nat.digitChar n → m = n) := by
  decide

theorem digitChar_injective {m n : ℕ} (hm : m < 16) (hn : n < 16)
    (h : Nat.digitChar m = Nat.digitChar n) : m = n :=
  congrArg Fin.val ((digitChar_spec ⟨m, hm⟩ ⟨n, hn⟩).2.2 h)

theorem hexText_eq (b : UInt8) :
    hexText b = if b.toNat < 16 then [Nat.digitChar b.toNat]
      else [Nat.digitChar (b.toNat / 16), Nat.digitChar (b.toNat % 16)] := by
  have hlt := b.toNat_lt
  rw [hexText]
  split
  · rename_i hsmall
    exact Nat.toDigits_of_lt_base hsmall
  · rw [Nat.toDigits_of_base_le (by decide) (by omega), Nat.toDigits_of_lt_base (by omega)]
    rfl

theorem hexText_injective {b c : UInt8} (h : hexText b = hexText c) : b = c := by
  have hb := b.toNat_lt
  have hc := c.toNat_lt
  rw [hexText_eq, hexText_eq] at h
  apply UInt8.toNat_inj.mp
  split at h
  · split at h
    · exact digitChar_injective (by omega) (by omega) (List.cons.inj h).1
    · exact absurd (List.cons.inj h).2.symm (List.cons_ne_nil _ _)
  · split at h
    · exact absurd (List.cons.inj h).2 (List.cons_ne_nil _ _)
    · obtain ⟨hhigh, hlow⟩ := List.cons.inj h
      have := digitChar_injective (by omega) (by omega) hhigh
      have := digitChar_injective (by omega) (by omega) (List.cons.inj hlow).1
      omega

theorem mem_hexText {b : UInt8} {c : Char} (h : c ∈ hexText b) : c ≠ ' ' ∧ c ≠ '?' := by
  have hlt := b.toNat_lt
  have hdigit : ∀ n < 16, Nat.digitChar n ≠ ' ' ∧ Nat.digitChar n ≠ '?' := fun n hn =>
    ⟨(digitChar_spec ⟨n, hn⟩ 0).1, (digitChar_spec ⟨n, hn⟩ 0).2.1⟩
  rw [hexText_eq] at h
  split at h
  · rename_i hsmall
    rw [List.mem_singleton.mp h]
    exact hdigit _ hsmall
  · rcases List.mem_cons.mp h with rfl | h
    · exact hdigit _ (by omega)
    · rw [List.mem_singleton.mp h]
      exact hdigit _ (by omega)

/-- The text of a byte or of a wildcard. -/
def letterText : Option UInt8 → List Char
  | some b => hexText b
  | none => ['?']

theorem letterText_injective : Function.Injective letterText := by
  have hopen : ∀ b, letterText none ≠ letterText (some b) := by
    intro b h
    have hmem : '?' ∈ letterText (some b) := h ▸ List.mem_singleton_self '?'
    exact (mem_hexText hmem).2 rfl
  intro a b h
  cases a with
  | none =>
    cases b with
    | none => rfl
    | some b => exact absurd h (hopen b)
  | some a =>
    cases b with
    | none => exact absurd h.symm (hopen a)
    | some b => rw [hexText_injective h]

theorem letterText_spec (a : Option UInt8) : letterText a ≠ [] ∧ ' ' ∉ letterText a := by
  cases a with
  | none => decide
  | some b => exact ⟨Nat.toDigits_ne_nil, fun h => absurd rfl (mem_hexText h).1⟩

theorem textAt_eq (pattern : Pattern) {i : ℕ} {a : Option UInt8} (h : pattern.word[i]? = some a) :
    pattern.textAt i = letterText a := by
  have hi : i < pattern.size := by
    rw [← pattern.word_length]
    exact (List.getElem?_eq_some_iff.mp h).1
  obtain ⟨b, hb⟩ := pattern.exists_byte hi
  obtain ⟨m, hm⟩ := pattern.exists_mask hi
  rw [word_getElem? hb hm] at h
  cases h
  rw [textAt, List.getD_eq_getElem?_getD, List.getD_eq_getElem?_getD, hm, hb]
  cases m <;> rfl

theorem textFrom_eq (pattern : Pattern) (rest : ℕ) (hrest : rest ≤ pattern.size) :
    pattern.textFrom rest =
      joined [' '] ((pattern.word.drop (pattern.size - rest)).map letterText) := by
  induction rest with
  | zero =>
    rw [List.drop_of_length_le (by rw [word_length]; omega)]
    rfl
  | succ rest ih =>
    have hlt : pattern.size - (rest + 1) < pattern.word.length := by
      rw [word_length]
      omega
    have hnext : pattern.size - (rest + 1) + 1 = pattern.size - rest := by omega
    rw [textFrom, textAt_eq pattern (List.getElem?_eq_getElem hlt), List.drop_eq_getElem_cons hlt,
      List.map_cons, joined_cons, hnext, ih (by omega)]
    cases rest with
    | zero =>
      rw [Nat.sub_zero, List.drop_of_length_le (by rw [word_length]), if_neg (lt_irrefl _)]
      rfl
    | succ rest =>
      rw [if_pos (by omega), if_neg]
      rw [List.map_eq_nil_iff, List.drop_eq_nil_iff, word_length]
      omega

theorem toText_eq (pattern : Pattern) :
    pattern.toText = joined [' '] (pattern.word.map letterText) := by
  rw [toText, textFrom_eq pattern _ le_rfl, Nat.sub_self, List.drop_zero]

/-- The text says how long a pattern is, where its wildcards are and what its other bytes are. -/
theorem toText_eq_iff_word {p q : Pattern} : p.toText = q.toText ↔ p.word = q.word := by
  refine ⟨fun h => ?_, fun h => by rw [toText_eq, toText_eq, h]⟩
  have hwords : ∀ pattern : Pattern, ∀ text ∈ pattern.word.map letterText,
      text ≠ [] ∧ ' ' ∉ text := by
    intro pattern text htext
    obtain ⟨a, -, rfl⟩ := List.mem_map.mp htext
    exact letterText_spec a
  rw [toText_eq, toText_eq] at h
  exact List.map_injective_iff.mpr letterText_injective (joined_injective (hwords p) (hwords q) h)

theorem mask_eq (pattern : Pattern) : pattern.mask = pattern.word.map Option.isSome := by
  apply List.ext_getElem?
  intro i
  by_cases hi : i < pattern.size
  · obtain ⟨b, hb⟩ := pattern.exists_byte hi
    obtain ⟨m, hm⟩ := pattern.exists_mask hi
    rw [List.getElem?_map, word_getElem? hb hm, hm]
    cases m <;> rfl
  · rw [List.getElem?_eq_none (by rw [pattern.mask_length]; omega), List.getElem?_eq_none]
    rw [List.length_map, word_length]
    omega

theorem bytes_getElem? {pattern : Pattern} {i : ℕ} (hm : pattern.mask[i]? = some true) :
    pattern.bytes[i]? = pattern.word[i]?.join := by
  have hi : i < pattern.size := by
    rw [← pattern.mask_length]
    exact (List.getElem?_eq_some_iff.mp hm).1
  obtain ⟨b, hb⟩ := pattern.exists_byte hi
  rw [word_getElem? hb hm, hb]
  rfl

end Pattern

namespace Scanner
open Pattern
variable {p q : Pattern}

theorem agrees_of_word_eq (h : p.word = q.word) : p.Agrees q where
  size_eq := by rw [← p.word_length, h, q.word_length]
  mask_eq := by rw [Pattern.mask_eq, Pattern.mask_eq, h]
  bytes_eq := by
    intro i hi
    have hi' : q.mask[i]? = some true := by
      rw [← hi, Pattern.mask_eq, Pattern.mask_eq, h]
    rw [bytes_getElem? hi, bytes_getElem? hi', h]

/-! ## Texts that differ -/

/-- The bytes of the pattern as a buffer, with a filler under the wildcards. -/
def filledBuffer (p : Pattern) (hsize : p.size < 2 ^ 63) (filler : UInt8) : Span :=
  ⟨filled p.word filler, by rw [filled_length, p.word_length]; exact hsize⟩

theorem find_bmh_filled (hpos : 1 ≤ p.size) (hsize : p.size < 2 ^ 63) (filler : UInt8) :
    find p (filledBuffer p hsize filler) .bmh = .ok (some 0) := by
  have hw : 0 < p.word.length := by
    rw [p.word_length]
    exact hpos
  have hbound : 0 < (horspool p (filledBuffer p hsize filler) hw).bound := by
    have hlen : (filledBuffer p hsize filler).size = p.size :=
      (filled_length ..).trans p.word_length
    rw [horspool_bound, hlen]
    omega
  apply find_of_indexOf
  · rw [indexOf, indexOfBmh_eq _ _ hw, Sweep.run_of_hit _ hbound (occursAt_filled p.word filler)]
    rfl
  · intro k hk
    cases hk
    decide

/-- The Horspool search tells patterns of different words apart. -/
theorem word_eq_of_find (hp : 1 ≤ p.size) (hps : p.size < 2 ^ 63) (hq : 1 ≤ q.size)
    (hqs : q.size < 2 ^ 63) (h : ∀ buffer, find p buffer .bmh = find q buffer .bmh) :
    p.word = q.word := by
  by_contra hne
  have : Nontrivial UInt8 := ⟨0, 1, by decide⟩
  obtain ⟨filler, hno | hno⟩ := exists_separating hne
  · have hfind := find_bmh_filled hp hps filler
    rw [h] at hfind
    exact hno (find_bmh_sound q _ hq hfind)
  · have hfind := find_bmh_filled hq hqs filler
    rw [← h] at hfind
    exact hno (find_bmh_sound p _ hp hfind)

/-- Two patterns are printed alike exactly when no search but the turbo one can tell them apart. -/
theorem toText_eq_iff_sameResults (p q : Pattern) (hp : 1 ≤ p.size) (hps : p.size < 2 ^ 63)
    (hq : 1 ≤ q.size) (hqs : q.size < 2 ^ 63) :
    p.toText = q.toText ↔ ∀ algorithm, algorithm ≠ .tbm → SameResults algorithm p q := by
  rw [toText_eq_iff_word]
  constructor
  · intro h algorithm ha
    have hagrees := agrees_of_word_eq h
    exact sameResults_of_indexOf hagrees.size_eq (indexOf_congr hagrees ha)
  · intro h
    exact word_eq_of_find hp hps hq hqs fun buffer => (h .bmh (by decide) buffer).1

/-- `1 ?` with two bytes under the wildcard. -/
theorem toText_eq_iff_sameResults_wildcard :
    SameResults .raita (.ofMask [1, 0] ['x', '?'] (by decide)) (.ofMask [1, 7] ['x', '?'] (by decide)) :=
  (toText_eq_iff_sameResults (.ofMask [1, 0] ['x', '?'] (by decide))
    (.ofMask [1, 7] ['x', '?'] (by decide)) (by decide) (by decide) (by decide) (by decide)).mp
    (by decide) .raita (by decide)

end Scanner
end Wincpp
