import Mathlib.Algebra.Group.Nat.Defs
import Reprise.Parser.Integer

/-!
# Bytes of integers

In either byte order, a number and its bytes give one another.
-/

namespace Reprise.ByteOrder

theorem value_bytes (k n : Nat) (h : n < 256 ^ k) : value (bytes k n) = n := by
  induction k generalizing n with
  | zero => simp at h; simp [bytes, value, h]
  | succ k ih =>
    have hd : n / 256 < 256 ^ k := by
      apply Nat.div_lt_of_lt_mul
      rwa [Nat.pow_succ, Nat.mul_comm] at h
    have hm : (n % 256).toUInt8.toNat = n % 256 :=
      Nat.mod_eq_of_lt (Nat.mod_lt n (by decide))
    simp only [bytes, value, ih _ hd, hm]
    omega

theorem value_lt (bs : List UInt8) : value bs < 256 ^ bs.length := by
  induction bs with
  | nil => simp [value]
  | cons b bs ih =>
    have hb : b.toNat < 256 := b.toNat_lt
    simp only [value, List.length_cons, Nat.pow_succ]
    omega

theorem bytes_value (bs : List UInt8) : bytes bs.length (value bs) = bs := by
  induction bs with
  | nil => rfl
  | cons b bs ih =>
    have hb : b.toNat < 256 := b.toNat_lt
    have hm : (b.toNat + 256 * value bs) % 256 = b.toNat := by omega
    have hd : (b.toNat + 256 * value bs) / 256 = value bs := by omega
    simp [bytes, value, hm, hd, ih]

theorem decode_encode (order : ByteOrder) (k n : Nat) (h : n < 256 ^ k) :
    order.decode (order.encode k n) = n := by simp [decode, encode, value_bytes k n h]

theorem encode_decode (order : ByteOrder) (bs : List UInt8) :
    order.encode bs.length (order.decode bs) = bs := by
  have h := bytes_value (order.arrange bs)
  rw [length_arrange] at h
  simp [encode, decode, h]

theorem decode_lt (order : ByteOrder) (bs : List UInt8) :
    order.decode bs < 256 ^ bs.length := by
  simpa [decode] using value_lt (order.arrange bs)

end Reprise.ByteOrder
