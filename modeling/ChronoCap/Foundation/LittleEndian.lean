/- module: ChronoCap/Foundation/LittleEndian
   scope: library
   digest: Fixed-width little-endian byte strings and the loops that read and write them. -/

import Mathlib.Data.Nat.Digits.Defs
import Mathlib.Tactic.Ring

set_option autoImplicit false
set_option relaxedAutoImplicit false

namespace ChronoCap.Foundation.LittleEndian

/-- The `w` lowest base-256 digits of `n`, least significant first. -/
def toBytes (w n : Nat) : List UInt8 :=
  (List.range w).map (fun i => UInt8.ofNat (n / 256 ^ i))

/-- The number whose base-256 digits, least significant first, are the bytes. -/
def ofBytes (bs : List UInt8) : Nat :=
  Nat.ofDigits 256 (bs.map UInt8.toNat)

@[simp] theorem length_toBytes (w n : Nat) : (toBytes w n).length = w := by
  simp [toBytes]

@[simp] theorem ofBytes_nil : ofBytes [] = 0 := rfl

@[simp] theorem ofBytes_cons (b : UInt8) (bs : List UInt8) :
    ofBytes (b :: bs) = b.toNat + 256 * ofBytes bs := by
  simp [ofBytes, Nat.ofDigits_cons]

theorem ofBytes_append (as bs : List UInt8) :
    ofBytes (as ++ bs) = ofBytes as + 256 ^ as.length * ofBytes bs := by
  simp [ofBytes, Nat.ofDigits_append]

theorem ofBytes_lt (bs : List UInt8) : ofBytes bs < 256 ^ bs.length := by
  have digits : ∀ d ∈ bs.map UInt8.toNat, d < 256 := by
    intro d hd
    obtain ⟨b, -, rfl⟩ := List.mem_map.mp hd
    exact b.toNat_lt
  simpa [ofBytes] using Nat.ofDigits_lt_base_pow_length (by decide) digits

/-- One more byte read at the top adds its digit. -/
theorem ofBytes_take_succ {bs : List UInt8} {k : Nat} (h : k < bs.length) :
    ofBytes (bs.take (k + 1)) = ofBytes (bs.take k) + 256 ^ k * bs[k].toNat := by
  rw [List.take_succ_eq_append_getElem h, ofBytes_append]
  simp [Nat.min_eq_left h.le]

theorem toBytes_succ (w n : Nat) :
    toBytes (w + 1) n = toBytes w n ++ [UInt8.ofNat (n / 256 ^ w)] := by
  simp [toBytes, List.range_succ]

/-- Encoding keeps exactly the low `w` bytes of the number. -/
theorem ofBytes_toBytes (w n : Nat) : ofBytes (toBytes w n) = n % 256 ^ w := by
  induction w with
  | zero => simp [toBytes, Nat.mod_one]
  | succ w ih =>
      rw [toBytes_succ, ofBytes_append, ih, length_toBytes, Nat.mod_pow_succ]
      simp

/-- Digit `k` of the number a byte string denotes is its byte `k`. -/
theorem ofBytes_digit {bs : List UInt8} {k : Nat} (h : k < bs.length) :
    UInt8.ofNat (ofBytes bs / 256 ^ k) = bs[k] := by
  have low : ofBytes (bs.take k) < 256 ^ k := by
    simpa [Nat.min_eq_left h.le] using ofBytes_lt (bs.take k)
  have split : ofBytes bs =
      ofBytes (bs.take k) + 256 ^ k * (bs[k].toNat + 256 * ofBytes (bs.drop (k + 1))) := by
    conv_lhs => rw [← List.take_append_drop k bs, List.drop_eq_getElem_cons h]
    rw [ofBytes_append, ofBytes_cons, List.length_take, Nat.min_eq_left h.le]
  have quotient : ofBytes bs / 256 ^ k = bs[k].toNat + 256 * ofBytes (bs.drop (k + 1)) := by
    rw [split, Nat.add_mul_div_left _ _ (by positivity), Nat.div_eq_of_lt low, Nat.zero_add]
  rw [quotient, ← UInt8.toNat_inj, UInt8.toNat_ofNat']
  exact (Nat.add_mul_mod_self_left _ _ _).trans (Nat.mod_eq_of_lt bs[k].toNat_lt)

/-- Every byte string is the encoding, at its own width, of the number it denotes. -/
theorem toBytes_ofBytes (bs : List UInt8) : toBytes bs.length (ofBytes bs) = bs := by
  apply List.ext_getElem
  · simp
  · intro k _ hk
    simpa [toBytes] using ofBytes_digit hk

/-- Or-ing a byte into place above a number that has not reached it is addition. -/
theorem or_shiftLeft_byte {acc k : Nat} (h : acc < 256 ^ k) (b : Nat) :
    acc ||| b <<< (8 * k) = acc + 256 ^ k * b := by
  have width : (256 : Nat) ^ k = 2 ^ (8 * k) := by
    rw [pow_mul]
    norm_num
  rw [Nat.or_comm, ← Nat.shiftLeft_add_eq_or_of_lt (width ▸ h), Nat.shiftLeft_eq, width]
  ring

end ChronoCap.Foundation.LittleEndian
