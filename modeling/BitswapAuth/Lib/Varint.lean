/-
# `BitswapAuth.Lib.Varint` — numbers in base 128

A number is written with its low seven bits first, and every byte but the last
has its top bit set.  The reader takes a list of shifts, one a byte, and gives up
when the list is used up before a last byte was seen:

    decode shifts acc (encode v ++ rest) = some (acc ||| v <<< s, rest)

where `s` is the first shift.  The reader accepts more than the writer writes: a
number may be padded with zeros, and bits that are shifted out of the word are
lost.
-/
import Mathlib.Data.List.Range
import Mathlib.Data.Nat.Bitwise
import Mathlib.Tactic.Common

namespace Lib.Varint

/-! ## The writer -/

/-- The bytes of a number. -/
def encode (v : Nat) : List UInt8 :=
  if v < 128 then [UInt8.ofNat v] else UInt8.ofNat (v % 128 + 128) :: encode (v / 128)
termination_by v

theorem encode_small {v : Nat} (h : v < 128) : encode v = [UInt8.ofNat v] := by
  rw [encode, if_pos h]

theorem encode_large {v : Nat} (h : ¬ v < 128) :
    encode v = UInt8.ofNat (v % 128 + 128) :: encode (v / 128) := by
  rw [encode, if_neg h]

theorem log2_or_one {v : Nat} (h : v ≠ 0) : Nat.log2 (v ||| 1) = Nat.log2 v := by
  have hne : v ||| 1 ≠ 0 := by simp
  refine Nat.le_antisymm ?_ ?_
  · have hlt : v ||| 1 < 2 ^ (Nat.log2 v + 1) :=
      Nat.or_lt_two_pow Nat.lt_log2_self (Nat.one_lt_two_pow (by omega))
    exact Nat.lt_succ_iff.mp ((Nat.log2_lt hne).mpr hlt)
  · rw [Nat.le_log2 hne]
    exact Nat.le_trans (Nat.log2_self_le h) Nat.left_le_or

/-- A number has as many bytes as its bits fill groups of seven. -/
theorem length_encode (v : Nat) : (encode v).length = (Nat.log2 (v ||| 1) + 1 + 6) / 7 := by
  induction v using Nat.strongRecOn with
  | ind v ih =>
      by_cases hv : v < 128
      · have hlog : Nat.log2 (v ||| 1) < 7 := by
          rw [Nat.log2_lt (by simp)]
          exact Nat.or_lt_two_pow hv (by decide)
        rw [encode_small hv, List.length_singleton]
        omega
      · have hdiv : v / 128 ≠ 0 := by omega
        have hlog : Nat.log2 v = Nat.log2 (v / 128) + 7 := by
          have hself := Nat.log2_self_le hdiv
          have hlt := @Nat.lt_log2_self (v / 128)
          have hpow : 2 ^ (Nat.log2 (v / 128) + 7) = 2 ^ Nat.log2 (v / 128) * 128 := Nat.pow_add ..
          have hpow' := Nat.pow_succ 2 (Nat.log2 (v / 128))
          have hpow'' := Nat.pow_succ 2 (Nat.log2 (v / 128) + 7)
          refine (Nat.log2_eq_iff (by omega)).mpr ⟨?_, ?_⟩ <;> omega
        have hrec := ih (v / 128) (by omega)
        rw [log2_or_one hdiv] at hrec
        rw [encode_large hv, List.length_cons, hrec, log2_or_one (by omega), hlog]
        omega

/-- A number of `n` digits has no more bytes. -/
theorem length_encode_le {v n : Nat} (h : v < 2 ^ (7 * n)) (hn : 0 < n) :
    (encode v).length ≤ n := by
  have hlog : Nat.log2 (v ||| 1) < 7 * n := by
    rw [Nat.log2_lt (by simp)]
    exact Nat.or_lt_two_pow h (Nat.one_lt_two_pow (by omega))
  rw [length_encode]
  omega

theorem encode_ne_nil (v : Nat) : encode v ≠ [] := by
  intro h
  have hlen := length_encode v
  rw [h, List.length_nil] at hlen
  omega

/-! ## The reader -/

variable {w : Nat}

/-- The bits a byte adds to the number, at its shift. -/
def digit (w : Nat) (b : UInt8) (shift : Nat) : BitVec w :=
  BitVec.ofNat w (b &&& 127).toNat <<< shift

/-- The number at the head of the bytes, and the bytes after it. -/
def decode : (shifts : List Nat) → (acc : BitVec w) → List UInt8 → Option (BitVec w × List UInt8)
  | [], _, _ => none
  | _ :: _, _, [] => none
  | shift :: shifts, acc, b :: bs =>
      if b < 128 then some (acc ||| digit w b shift, bs)
      else decode shifts (acc ||| digit w b shift) bs

/-- The shifts of a word of 64 bits. -/
def shifts : List Nat := List.range' 0 10 7

theorem split_digit (v s : Nat) :
    BitVec.ofNat w (v % 128) <<< s ||| BitVec.ofNat w (v / 128) <<< (s + 7) =
      BitVec.ofNat w v <<< s := by
  refine BitVec.eq_of_getLsbD_eq fun i hi => ?_
  have hmod := Nat.testBit_mod_two_pow v 7 (i - s)
  have hdiv := @Nat.testBit_div_two_pow 7 v (i - (s + 7))
  have hidx : ¬ i < s + 7 → i - (s + 7) + 7 = i - s := by omega
  simp only [BitVec.getLsbD_or, BitVec.getLsbD_shiftLeft, BitVec.getLsbD_ofNat]
  grind

/-- The low seven bits of a byte, as a number. -/
theorem toNat_and_127 (n : Nat) : (UInt8.ofNat n &&& 127).toNat = n % 128 := by
  rw [UInt8.toNat_and, UInt8.toNat_ofNat']
  show (n % 256) &&& (2 ^ 7 - 1) = _
  rw [Nat.and_two_pow_sub_one_eq_mod]
  omega

theorem ofNat_lt_128 (n : Nat) : UInt8.ofNat n < 128 ↔ n % 256 < 128 := by
  rw [UInt8.lt_iff_toNat_lt, UInt8.toNat_ofNat']
  exact Iff.rfl

/-- The reader reads what was written, if it has a shift for each byte. -/
theorem decode_encode : ∀ (n : Nat) {v s : Nat} {acc : BitVec w} (rest : List UInt8), 0 < n →
    v < 128 ^ n → decode (List.range' s n 7) acc (encode v ++ rest) =
      some (acc ||| BitVec.ofNat w v <<< s, rest)
  | 0, _, _, _, _, hn, _ => absurd hn (Nat.lt_irrefl 0)
  | n + 1, v, s, acc, rest, _, hv => by
      rw [List.range'_succ]
      by_cases hsmall : v < 128
      · have hlast : UInt8.ofNat v < 128 := (ofNat_lt_128 v).mpr (by omega)
        rw [encode_small hsmall, List.singleton_append, decode, if_pos hlast, digit, toNat_and_127,
          Nat.mod_eq_of_lt hsmall]
      · have hmore : ¬ UInt8.ofNat (v % 128 + 128) < 128 := by
          intro h
          have := (ofNat_lt_128 _).mp h
          omega
        have hdiv : v / 128 < 128 ^ n := by
          rw [Nat.pow_succ] at hv
          exact Nat.div_lt_of_lt_mul (by rwa [Nat.mul_comm])
        have hn : 0 < n := by
          rcases Nat.eq_zero_or_pos n with rfl | h
          · exact absurd hv (by simpa using hsmall)
          · exact h
        have hlow : (v % 128 + 128) % 128 = v % 128 := by omega
        rw [encode_large hsmall, List.cons_append, decode, if_neg hmore,
          decode_encode n rest hn hdiv, digit, toNat_and_127, hlow, BitVec.or_assoc, split_digit]

end Lib.Varint
