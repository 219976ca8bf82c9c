/-
PrunedElectrs/Identity.lean

The three implementations of the v2 block identity agree.

The server (`HeaderV2.stages`), the client (`Drongo.BlockHeader.getHash`) and
the script that checks both against the node's test vectors
(`HeaderHash.getHash`) keep the fields in three byte orders and derive the time
in three ways.  Each was compared with the server's types in its own module;
here the comparisons meet on the bytes of a header.
-/
import PrunedElectrs.HeaderHash

namespace PrunedElectrs

open Wire

/-- The bytes of one of the published test vectors: ASIC profile 1, a non-null
key, and the time-offset flag. -/
def vectorProfile1 : Bytes :=
  (leBytes 164
    (0x000000a01f1e1d1c1b1a191817161514131211100f0e0d0c0b0a0908070605040302010000112233445566778899aabbccddeeff00102030405060708090a0b0c0d0e0f0a8913577ffff001d0df0ad0b44332211efcdab89ffeeddccbbaa998877665544332211005802000001001d00efcdab8967452301efcdab896745230141d10c008967452301efcdab8967452301efcdab8967452301efcdab8967452301efcdab)).reverse

/-- **The identities agree**: on every 164-byte string with the v2 bit set all
three parsers succeed, no index leaves its array, and they find the same hash,
the same time and, where they serialize, the same bytes. -/
theorem identities_agree (H : Hashes) (b : Bytes) (hb : b.length = headerV2Size)
    (hv : u32of (sub b 0 4) &&& versionHeaderV2Flag ≠ 0) :
    ∃ h j v2 f st,
      (HeaderV2.parse b = .ok h ∧ Drongo.BlockHeader.parse b 0 = .ok j ∧ j.v2 = some v2
        ∧ HeaderHash.parseLive b = .ok f) ∧
      (j.getHash H = .ok (h.stages H).blockHash ∧ HeaderHash.getHash H f = .ok st
        ∧ st.blockHash = toHex (h.stages H).blockHash.toList
        ∧ h.blockHash H = (h.stages H).blockHash.reverse) ∧
      (h.xorKeyMaskClearBits / 8).toNat < (h.stages H).mask.toList.length ∧
      (v2.getTime j.timeOnWire = h.time.toNat ∧ j.time = h.time.toNat
        ∧ f.nTime = h.time.toNat) ∧
      (h.serialize = b ∧ j.bitcoinSerialize = b) := by
  obtain ⟨h, hparse⟩ : ∃ h, HeaderV2.parse b = .ok h := ⟨_, HeaderV2.parse_eq hb hv⟩
  obtain ⟨hclear, rfl⟩ := HeaderV2.parse_eq_ok_iff.mp hparse
  have hself : sub h.serialize 0 164 = h.serialize := sub_all h.length_serialize
  have hhash := Drongo.BlockHeader.getHash_ofV2 H hclear
  rw [HeaderV2.blockHash, reverse_reverse] at hhash
  refine ⟨h, Drongo.BlockHeader.ofV2 h, Drongo.BlockHeaderV2.ofV2 h, HeaderHash.Fields.ofV2 h, _,
    ⟨hparse, Drongo.BlockHeader.parse_of_v2 hself hclear, rfl, HeaderHash.parseLive_of_v2 hclear⟩,
    ⟨hhash, HeaderHash.getHash_ofV2 H h, rfl, rfl⟩, ?_, ⟨Drongo.time_toNat h, rfl, rfl⟩,
    rfl, Drongo.BlockHeader.bitcoinSerialize_ofV2 hclear⟩
  rw [List.Vector.toList_length]
  exact clearBytes_lt _

theorem identities_agree_vector :
    vectorProfile1.length = headerV2Size ∧ ∃ h, HeaderV2.parse vectorProfile1 = .ok h :=
  have agree := identities_agree knownHashes vectorProfile1 (by decide +kernel) (by decide +kernel)
  ⟨by decide +kernel,
    agree.imp fun _ hall => hall.choose_spec.choose_spec.choose_spec.choose_spec.1.1⟩

/-- The published hash of that vector. -/
example : (HeaderV2.parse vectorProfile1).map
      (fun h => beNat (h.stages knownHashes).blockHash.toList)
    = .ok 0x44b383821dea9af8d7d81ba7741c34ac8c07ab81ab081d8b6bf0575a787a1eef := by
  decide +kernel

end PrunedElectrs
