/-
PrunedElectrs/Stages.lean

The identity of a block: SHA256d over the header bytes for v1, the staged
BLAKE2b computation for v2.

The two hash functions are a parameter (`Hashes`); everything the source
builds around them is here: the tagged hash, the mask that hides the low bits
from a pool's miners, the two commitment payloads, and the four layouts in
which mining hardware sees the fields.

Digests are arrays of 32 bytes, as in the source, so no length can be wrong.
The one index that depends on the header is `xorKeyMaskClearBits / 8` into the
mask; `clearBytes_lt` shows that a `u8` cannot push it out of bounds.
-/
import PrunedElectrs.AnyHeader
import PrunedElectrs.Lib.Digest

namespace PrunedElectrs

open Wire

/-- The hash functions a header is identified with: SHA-256, and unkeyed
BLAKE2b with a 32-byte digest. -/
structure Hashes where
  sha256 : Bytes → Arr 32
  blake2b256 : Bytes → Arr 32

/-- The hash functions themselves. -/
def knownHashes : Hashes where
  sha256 := Wire.sha256
  blake2b256 := Wire.blake2b256

variable (H : Hashes)

/-- `tag.as_bytes()`. -/
def tagBytes (tag : String) : Bytes := tag.toUTF8.data.toList

/-- BIP340 tagged hash. -/
def tagged (tag : String) (payload : Bytes) : Arr 32 :=
  let t := (H.sha256 (tagBytes tag)).toList
  H.sha256 (t ++ t ++ payload)

/-- `n` zero bytes. -/
def zeros (n : ℕ) : Bytes := List.replicate n 0

/-- Intermediate values of the v2 block hash, in display order. -/
structure Stages where
  xorKeyHash : Arr 32
  mask : Arr 32
  h1 : Arr 32
  h2 : Arr 32
  blake2b1 : Arr 32
  asicInput : Bytes
  blake2b2 : Arr 32
  /-- `blake2b2 ^ mask`, which is the block hash in display order. -/
  blockHash : Arr 32

theorem clearBytes_lt (clearBits : UInt8) : (clearBits / 8).toNat < 32 := by
  have h : clearBits.toNat < 256 := clearBits.toNat_lt
  rw [UInt8.toNat_div]
  simp only [UInt8.reduceToNat]
  omega

namespace HeaderV2

/-- The mask is null for a null key; otherwise its leading bits are cleared. -/
def mask (h : HeaderV2) : Arr 32 :=
  if h.xorKey.toList.any (· != 0) then
    let mask := tagged H "Bitcoin block hash PoW XOR mask" h.xorKey.toList
    let clearBytes := h.xorKeyMaskClearBits / 8
    Arr.modify (Arr.zeroTake mask clearBytes.toNat) ⟨clearBytes.toNat, clearBytes_lt _⟩
      (· &&& (0xff >>> (h.xorKeyMaskClearBits % 8)))
  else List.Vector.replicate 32 0

/-- The display-order bytes of the previous block's hash. -/
def prevSane (h : HeaderV2) : Arr 32 := h.prevBlockhash.reverse

/-- What the first commitment covers. -/
def h1Payload (h : HeaderV2) : Bytes :=
  u32le h.completeVersion ++ h.prevSane.toList ++ u32le h.height ++ h.merkleRoot.toList
    ++ u32le h.timeOnWire
    ++ [0]  -- reserved for an extended 40-bit time
    ++ u32le h.bits ++ u32le h.txcount.toUInt32 ++ [h.flags] ++ [h.xorKeyMaskClearBits]
    ++ (tagged H "Bitcoin block hash PoW XOR key" h.xorKey.toList).toList

/-- The layout the mining hardware sees: four profiles, selected by the low two
bits of the flags. -/
def asicInput (h : HeaderV2) (prevHidden h2 blake2b1 : Arr 32) : Bytes :=
  if h.asicProfile = 0 then
    (Arr.zeroTake prevHidden 6).toList ++ u32le h.nonce ++ u32le h.nonce2 ++ u32le h.timeOffset
      ++ u32le h.nonce3 ++ blake2b1.toList
  else if h.asicProfile = 1 then
    u32le h.nonce ++ u32le h.nonce2 ++ u32le h.nonce3 ++ u32le h.timeOffset
      ++ blake2b1.toList ++ h2.toList
  else
    (if h.asicProfile = 3 then zeros 32 else []) ++ zeros 48 ++ h2.toList ++ u32le h.nonce
      ++ u32le h.nonce2 ++ u32le h.timeOffset ++ u32le h.nonce3 ++ blake2b1.toList

/-- The stages of the hash. -/
def stages (h : HeaderV2) : Stages :=
  let xorKeyHash := tagged H "Bitcoin block hash PoW XOR key" h.xorKey.toList
  let mask := h.mask H
  let prevHidden := tagged H "Bitcoin prevblock header, hashed" h.prevSane.toList
  let h1 := tagged H "Bitcoin block header 1" (h.h1Payload H)
  let h2 := tagged H "Merge-mining hook" (h1.toList ++ zeros 32 ++ h.mmRhs.toList)
  let blake2b1 := H.blake2b256 (u32le 0 ++ h2.toList ++ h.extranonce.toList)
  let asicInput := h.asicInput prevHidden h2 blake2b1
  let blake2b2 := H.blake2b256 asicInput
  { xorKeyHash, mask, h1, h2, blake2b1, asicInput, blake2b2
    blockHash := Arr.xor blake2b2 mask }

/-- The block hash: the final stage is in display order, a `BlockHash` holds
internal order. -/
def blockHash (h : HeaderV2) : BlockHash := (h.stages H).blockHash.reverse

/-- The sizes the source asserts while building the payloads. -/
theorem length_h1Payload (h : HeaderV2) : (h.h1Payload H).length = 119 := by
  simp [h1Payload]

end HeaderV2

/-- SHA256d of the 80 bytes. -/
def HeaderV1.blockHash (h : HeaderV1) : BlockHash :=
  H.sha256 (H.sha256 h.serialize).toList

/-- The hash by which the chain knows the block. -/
def AnyHeader.blockHash : AnyHeader → BlockHash
  | .v1 h => h.blockHash H
  | .v2 h => h.blockHash H

end PrunedElectrs
