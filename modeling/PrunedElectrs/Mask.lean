/-
PrunedElectrs/Mask.lean

The mask of the v2 identity, bit by bit.

A pool that gives its miners a key hides the low bits of the hash they find:
the mask is a tagged hash of the key with its first `xorKeyMaskClearBits` bits
cleared, so that the leading bits, which prove the work, stay as they are.
Here the bits are numbered as the hash is displayed, bit 0 being the most
significant bit of byte 0; the two reversals on the way (of the array, and of
the `BlockHash` when it is displayed) cancel.
-/
import PrunedElectrs.Rust
import PrunedElectrs.Stages
import PrunedElectrs.Lib.Bits

namespace PrunedElectrs

open Wire

namespace HeaderV2

variable (H : Hashes)

/-- What the mask is made of. -/
def keyTag (h : HeaderV2) : Arr 32 := tagged H "Bitcoin block hash PoW XOR mask" h.xorKey.toList

/-- The mask with the indexing it takes: `mask[clear_bytes]` panics outside the
array. -/
def maskIndexed (h : HeaderV2) : Rust Bytes :=
  if h.xorKey.toList.any (· != 0) then do
    let mask := (h.keyTag H).toList
    let clearBytes := (h.xorKeyMaskClearBits / 8).toNat
    let mask := zeroTake mask clearBytes
    let byte ← elemAt mask clearBytes
    return mask.set clearBytes (byte &&& (0xff >>> (h.xorKeyMaskClearBits % 8)))
  else return zeros 32

/-- A byte counted in bits by a `u8` lies inside the tagged hash. -/
theorem keyTag_reaches (h : HeaderV2) :
    (h.xorKeyMaskClearBits / 8).toNat < (h.keyTag H).toList.length := by
  rw [List.Vector.toList_length]
  exact clearBytes_lt _

/-- Every count of bits leaves the byte that is cleared in part inside the
array. -/
theorem maskIndexed_eq (h : HeaderV2) : h.maskIndexed H = .ok (h.mask H).toList := by
  rw [maskIndexed, mask]
  split
  · have hin : (h.xorKeyMaskClearBits / 8).toNat
        < (zeroTake (h.keyTag H).toList (h.xorKeyMaskClearBits / 8).toNat).length := by
      rw [length_zeroTake]
      exact keyTag_reaches H h
    simp only [elemAt_eq hin, toList_modify]
    rfl
  · rfl

/-- A key of zeros leaves no mask. -/
theorem mask_of_null {h : HeaderV2} (hkey : ∀ x ∈ h.xorKey.toList, x = 0) :
    (h.mask H).toList = zeros 32 := by
  have hnull : ¬ h.xorKey.toList.any (· != 0) := by
    rw [List.any_eq_true]
    rintro ⟨x, hx, hne⟩
    rw [hkey x hx] at hne
    exact absurd hne (by decide)
  rw [mask, if_neg hnull]
  rfl

/-- Any other key clears the leading bits of its tagged hash. -/
theorem mask_of_key {h : HeaderV2} (hkey : ∃ x ∈ h.xorKey.toList, x ≠ 0) :
    (h.mask H).toList = clearBits (h.keyTag H).toList h.xorKeyMaskClearBits := by
  have hany : h.xorKey.toList.any (· != 0) := by
    obtain ⟨x, hx, hne⟩ := hkey
    exact List.any_eq_true.mpr ⟨x, hx, by simpa using hne⟩
  have hin : (h.xorKeyMaskClearBits / 8).toNat
      < (zeroTake (h.keyTag H).toList (h.xorKeyMaskClearBits / 8).toNat).length := by
    rw [length_zeroTake]
    exact keyTag_reaches H h
  rw [mask, if_pos hany, toList_modify, clearBits, List.getD_eq_getElem _ _ hin]
  rfl

/-- The displayed hash is the proof of work under the mask. -/
theorem display_blockHash (h : HeaderV2) :
    (h.blockHash H).reverse.toList
      = List.zipWith (· ^^^ ·) (h.stages H).blake2b2.toList (h.mask H).toList := by
  rw [blockHash, reverse_reverse]
  exact toList_xor _ _

theorem bit_display (h : HeaderV2) (i : ℕ) :
    bit (h.blockHash H).reverse.toList i
      = (bit (h.stages H).blake2b2.toList i ^^ bit (h.mask H).toList i) := by
  rw [display_blockHash, bit_xor (by simp only [List.Vector.toList_length])]

/-- **The mask leaves the leading bits of the proof of work alone.**  No count
of bits reaches outside the array; a null key changes nothing; any other key
changes exactly the bits of its tagged hash from the count on. -/
theorem mask_keeps_leading (h : HeaderV2) :
    h.maskIndexed H = .ok (h.mask H).toList ∧
    ((∀ x ∈ h.xorKey.toList, x = 0) →
      (h.mask H).toList = zeros 32 ∧ (h.blockHash H).reverse = (h.stages H).blake2b2) ∧
    ((∃ x ∈ h.xorKey.toList, x ≠ 0) → ∀ i,
      bit (h.mask H).toList i
        = (if i < h.xorKeyMaskClearBits.toNat then false else bit (h.keyTag H).toList i) ∧
      bit (h.blockHash H).reverse.toList i
        = if i < h.xorKeyMaskClearBits.toNat then bit (h.stages H).blake2b2.toList i
          else (bit (h.stages H).blake2b2.toList i ^^ bit (h.keyTag H).toList i)) := by
  refine ⟨maskIndexed_eq H h, fun hkey => ⟨mask_of_null H hkey, ?_⟩, fun hkey i => ?_⟩
  · apply List.Vector.eq
    rw [display_blockHash, mask_of_null H hkey]
    exact xor_zeros (List.Vector.toList_length _)
  · have hmask : bit (h.mask H).toList i
        = if i < h.xorKeyMaskClearBits.toNat then false else bit (h.keyTag H).toList i := by
      have hreach := keyTag_reaches H h
      rw [UInt8.toNat_div] at hreach
      rw [mask_of_key H hkey, bit_clearBits hreach]
    refine ⟨hmask, ?_⟩
    rw [bit_display, hmask]
    split
    · rw [Bool.xor_false]
    · rfl

end HeaderV2

end PrunedElectrs
