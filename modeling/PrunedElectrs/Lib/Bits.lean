/-
PrunedElectrs/Lib/Bits.lean

The bits of a byte string, numbered as they are displayed: bit `0` is the most
significant bit of the first byte.

`clearBits` sets the leading bits to zero the way byte-oriented code does it,
whole bytes first and then a shifted mask on one byte; `bit_clearBits` says
that the two parts meet without a gap.
-/
import PrunedElectrs.Lib.Bytes

namespace Wire

/-- Bit `i` of a byte string, from the most significant bit of byte 0. -/
def bit (b : Bytes) (i : ℕ) : Bool := (b.getD (i / 8) 0).toBitVec.getMsbD (i % 8)

/-- Exclusive or with zeros changes nothing. -/
theorem xor_zeros {b : Bytes} {n : ℕ} (h : b.length = n) :
    List.zipWith (· ^^^ ·) b (List.replicate n 0) = b := by
  induction b generalizing n with
  | nil => rfl
  | cons x b ih =>
      subst h
      rw [List.length_cons, List.replicate_succ, List.zipWith_cons_cons, ih rfl, UInt8.xor_zero]

/-- Exclusive or acts bit by bit. -/
theorem bit_xor {a b : Bytes} (h : a.length = b.length) (i : ℕ) :
    bit (List.zipWith (· ^^^ ·) a b) i = (bit a i ^^ bit b i) := by
  have hbyte : (List.zipWith (· ^^^ ·) a b).getD (i / 8) 0
      = a.getD (i / 8) 0 ^^^ b.getD (i / 8) 0 := by
    simp only [List.getD_eq_getElem?_getD, List.getElem?_zipWith]
    by_cases hi : i / 8 < a.length
    · rw [List.getElem?_eq_getElem hi, List.getElem?_eq_getElem (h ▸ hi)]
      rfl
    · rw [List.getElem?_eq_none (by omega), List.getElem?_eq_none (by omega)]
      rfl
  rw [bit, hbyte, UInt8.toBitVec_xor, BitVec.getMsbD_xor]
  rfl

/-! ### Clearing the leading bits -/

/-- The byte that is cleared in part keeps its bits from `r` on. -/
theorem getMsbD_and_shiftRight {x r : UInt8} (hr : r.toNat < 8) {j : ℕ} (hj : j < 8) :
    (x &&& (0xff >>> r)).toBitVec.getMsbD j
      = if j < r.toNat then false else x.toBitVec.getMsbD j := by
  have hshift : (0xff >>> r : UInt8).toBitVec = BitVec.allOnes 8 >>> r.toNat := by
    rw [UInt8.toBitVec_shiftRight]
    show BitVec.allOnes 8 >>> (r.toNat % 8) = _
    rw [Nat.mod_eq_of_lt hr]
  rw [UInt8.toBitVec_and, BitVec.getMsbD_and, hshift, BitVec.getMsbD_ushiftRight,
    BitVec.getMsbD_allOnes]
  split
  · next hlt => simp [hlt]
  · next hge => simp [hge, hj, show j - r.toNat < 8 by omega]

/-- Clear the first `k` bits: whole bytes, then the leading bits of the next. -/
def clearBits (b : Bytes) (k : UInt8) : Bytes :=
  let q := (k / 8).toNat
  (zeroTake b q).set q ((zeroTake b q).getD q 0 &&& (0xff >>> (k % 8)))

theorem getD_zeroTake {b : Bytes} {k : ℕ} (hk : k ≤ b.length) (j : ℕ) :
    (zeroTake b k).getD j 0 = if j < k then 0 else b.getD j 0 := by
  simp only [zeroTake, List.getD_eq_getElem?_getD, Nat.min_eq_left hk]
  split
  · next hj =>
      rw [List.getElem?_append_left (by rwa [List.length_replicate]),
        List.getElem?_replicate_of_lt hj]
      rfl
  · next hj =>
      rw [List.getElem?_append_right (by rw [List.length_replicate]; omega),
        List.length_replicate, List.getElem?_drop, Nat.add_sub_cancel' (Nat.not_lt.mp hj)]

/-- The bytes of `clearBits`, before, at and after the split. -/
theorem getD_clearBits {b : Bytes} {k : UInt8} {q : ℕ} (hq : (k / 8).toNat = q)
    (hlen : q < b.length) (j : ℕ) :
    (clearBits b k).getD j 0
      = if j < q then (0 : UInt8) else if j = q then b.getD q 0 &&& (0xff >>> (k % 8)) else b.getD j 0 := by
  simp only [clearBits, hq]
  by_cases hj : j = q
  · rw [hj, List.getD_eq_getElem?_getD, List.getElem?_set_self (by rwa [length_zeroTake]),
      getD_zeroTake hlen.le, if_neg (Nat.lt_irrefl q), if_neg (Nat.lt_irrefl q), if_pos rfl]
    rfl
  · rw [List.getD_eq_getElem?_getD, List.getElem?_set_ne (Ne.symm hj),
      ← List.getD_eq_getElem?_getD, getD_zeroTake hlen.le, if_neg hj]

/-- **The leading bits are cleared, the others are kept**, wherever the split
between them falls. -/
theorem bit_clearBits {b : Bytes} {k : UInt8} (hk : k.toNat / 8 < b.length) (i : ℕ) :
    bit (clearBits b k) i = if i < k.toNat then false else bit b i := by
  have hq : (k / 8).toNat = k.toNat / 8 := UInt8.toNat_div k 8
  have hr : (k % 8).toNat = k.toNat % 8 := UInt8.toNat_mod k 8
  rw [bit, getD_clearBits hq hk, bit]
  rcases Nat.lt_trichotomy (i / 8) (k.toNat / 8) with hlt | heq | hgt
  · rw [if_pos hlt, if_pos (by omega), UInt8.toBitVec_zero, BitVec.getMsbD_zero]
  -- the byte that the split falls into
  · have hi : i % 8 < k.toNat % 8 ↔ i < k.toNat := by omega
    rw [if_neg (by omega), if_pos heq, getMsbD_and_shiftRight (by omega) (by omega), hr, heq]
    simp only [hi]
  · rw [if_neg (by omega), if_neg (by omega), if_neg (by omega)]

end Wire
