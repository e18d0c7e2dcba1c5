import Mathlib.Algebra.Order.Ring.Nat
import Mathlib.Tactic.Common

/-! Numbers as little-endian byte strings. -/
namespace LittleEndian
set_option autoImplicit false

def decode : List UInt8 → ℕ
  | [] => 0
  | b :: bs => b.toNat + 256 * decode bs

/-- The `w` lowest bytes of `n`. -/
def encode : ℕ → ℕ → List UInt8
  | 0, _ => []
  | w + 1, n => UInt8.ofNat n :: encode w (n / 256)

@[simp] theorem encode_length (w n : ℕ) : (encode w n).length = w := by
  induction w generalizing n with
  | zero => rfl
  | succ w ih => rw [encode, List.length_cons, ih]

theorem decode_lt (bs : List UInt8) : decode bs < 256 ^ bs.length := by
  induction bs with
  | nil => exact Nat.one_pos
  | cons b bs ih =>
    have hb := b.toNat_lt
    rw [decode, List.length_cons, Nat.pow_succ]
    omega

theorem decode_encode (w n : ℕ) : decode (encode w n) = n % 256 ^ w := by
  induction w generalizing n with
  | zero => simp [encode, decode, Nat.mod_one]
  | succ w ih =>
    have hb : (UInt8.ofNat n).toNat = n % 256 := UInt8.toNat_ofNat'
    rw [encode, decode, ih, hb, Nat.pow_succ, Nat.mul_comm _ 256, Nat.mod_mul]

theorem encode_decode (bs : List UInt8) : encode bs.length (decode bs) = bs := by
  induction bs with
  | nil => rfl
  | cons b bs ih =>
    have hlt := b.toNat_lt
    have hdiv : (b.toNat + 256 * decode bs) / 256 = decode bs := by omega
    have hlow : UInt8.ofNat (b.toNat + 256 * decode bs) = b := by
      apply UInt8.toNat_inj.mp
      rw [UInt8.toNat_ofNat']
      omega
    rw [List.length_cons, encode, decode, hdiv, ih, hlow]

theorem decode_encode_of_lt {w n : ℕ} (h : n < 256 ^ w) : decode (encode w n) = n := by
  rw [decode_encode, Nat.mod_eq_of_lt h]

theorem encode_append (w n v : ℕ) : encode (w + n) v = encode w v ++ encode n (v / 256 ^ w) := by
  induction w generalizing v with
  | zero => simp [encode]
  | succ w ih =>
    rw [Nat.add_right_comm, encode, ih, encode, Nat.div_div_eq_div_mul, Nat.pow_succ',
      List.cons_append]

theorem encode_zero (w : ℕ) : encode w 0 = List.replicate w 0 := by
  induction w with
  | zero => rfl
  | succ w ih =>
    rw [encode, Nat.zero_div, ih]
    rfl

theorem encode_injective {w m n : ℕ} (hm : m < 256 ^ w) (hn : n < 256 ^ w)
    (h : encode w m = encode w n) : m = n := by
  rw [← decode_encode_of_lt hm, h, decode_encode_of_lt hn]

/-! ## Numbers inside a byte string -/

def decodeAt (bs : List UInt8) (offset size : ℕ) : ℕ := decode ((bs.drop offset).take size)

theorem decodeAt_lt (bs : List UInt8) (offset size : ℕ) : decodeAt bs offset size < 256 ^ size :=
  lt_of_lt_of_le (decode_lt _) (Nat.pow_le_pow_right (by decide) (List.length_take_le _ _))

end LittleEndian
