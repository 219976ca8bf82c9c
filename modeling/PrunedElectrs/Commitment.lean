/-
PrunedElectrs/Commitment.lean

What the v2 block hash says about the header it was computed from.

The hash is built in five calls of a hash function, each covering the digests
before it and some of the fields.  Every field is laid out, at a fixed width,
in the input of one of the calls:

    xorKeyHash  xorKey
    h1          version, previous block, height, merkle root, time, bits,
                transaction count, flags, clear bits, xorKeyHash
    h2          h1, mmRhs
    blake2b1    h2, extranonce
    blake2b2    the three nonces, time offset, blake2b1

`blake2b2_commits` follows equal digests from the last call to the first.
Nothing is assumed about the hash functions: either the headers agree, or
`Collision` names a call that the two headers make on different inputs with
the same result.  A v2 header whose version field carries bit 31 is hashed, and
serialized, as the one without; `unflagged` is that one.
-/
import PrunedElectrs.Stages

namespace PrunedElectrs

open Wire

variable (H : Hashes)

/-- The calls of a hash function the final stage rests on. -/
inductive HashCall
  | xorKeyHash
  | h1
  | h2
  | blake2b1
  | blake2b2
deriving DecidableEq

/-- The tagged SHA256, or BLAKE2b, of the call. -/
def HashCall.digest : HashCall → Bytes → Arr 32
  | xorKeyHash => tagged H "Bitcoin block hash PoW XOR key"
  | h1 => tagged H "Bitcoin block header 1"
  | h2 => tagged H "Merge-mining hook"
  | blake2b1 => H.blake2b256
  | blake2b2 => H.blake2b256

namespace HeaderV2

/-! ### Headers up to bit 31 of the version -/

/-- The header with bit 31 of its version field clear. -/
def unflagged (h : HeaderV2) : HeaderV2 :=
  { h with version := h.version &&& ~~~versionHeaderV2Flag }

theorem unflagged_clear (h : HeaderV2) : h.unflagged.version &&& versionHeaderV2Flag = 0 := by
  rw [unflagged, UInt32.and_assoc,
    show ~~~versionHeaderV2Flag &&& versionHeaderV2Flag = 0 from rfl, UInt32.and_zero]

theorem completeVersion_unflagged (h : HeaderV2) :
    h.unflagged.completeVersion = h.completeVersion := by
  rw [completeVersion, completeVersion, unflagged, UInt32.and_assoc, UInt32.and_self]

theorem fields_unflagged (h : HeaderV2) : h.unflagged.fields = h.fields := by
  rw [fields, completeVersion_unflagged]
  rfl

/-- Bit 31 apart, a header is its bytes. -/
theorem unflagged_eq_of_fields {h h' : HeaderV2} (e : h.fields = h'.fields) :
    h.unflagged = h'.unflagged := by
  have hbytes : h.unflagged.serialize = h'.unflagged.serialize := by
    rw [serialize, serialize, fields_unflagged, fields_unflagged, e]
  have hparse : parse h.unflagged.serialize = .ok h.unflagged :=
    parse_eq_ok_iff.mpr ⟨h.unflagged_clear, rfl⟩
  have hparse' : parse h.unflagged.serialize = .ok h'.unflagged :=
    parse_eq_ok_iff.mpr ⟨h'.unflagged_clear, hbytes⟩
  rw [hparse] at hparse'
  exact Except.ok.inj hparse'

/-- The hash, like the serialization, does not see bit 31. -/
theorem stages_unflagged (h : HeaderV2) : h.unflagged.stages H = h.stages H := by
  have hpayload : h.unflagged.h1Payload H = h.h1Payload H := by
    rw [h1Payload, completeVersion_unflagged]
    rfl
  rw [stages, hpayload]
  rfl

/-! ### What each call covers -/

/-- The input of a call. -/
def hashed (h : HeaderV2) : HashCall → Bytes
  | .xorKeyHash => h.xorKey.toList
  | .h1 => h.h1Payload H
  | .h2 => (h.stages H).h1.toList ++ zeros 32 ++ h.mmRhs.toList
  | .blake2b1 => u32le 0 ++ (h.stages H).h2.toList ++ h.extranonce.toList
  | .blake2b2 => (h.stages H).asicInput

/-- The stage a call computes. -/
def digestOf (h : HeaderV2) : HashCall → Arr 32
  | .xorKeyHash => (h.stages H).xorKeyHash
  | .h1 => (h.stages H).h1
  | .h2 => (h.stages H).h2
  | .blake2b1 => (h.stages H).blake2b1
  | .blake2b2 => (h.stages H).blake2b2

theorem digest_hashed (h : HeaderV2) (c : HashCall) :
    c.digest H (h.hashed H c) = h.digestOf H c := by
  cases c <;> rfl

/-- The two headers make one of the calls on different inputs, with the same
result. -/
def Collision (h h' : HeaderV2) : Prop :=
  ∃ c, h.hashed H c ≠ h'.hashed H c
    ∧ c.digest H (h.hashed H c) = c.digest H (h'.hashed H c)

/-- Equal digests are digests of equal inputs, or collide. -/
theorem hashed_eq_of_digestOf {h h' : HeaderV2} (hno : ¬ Collision H h h') {c : HashCall}
    (e : h.digestOf H c = h'.digestOf H c) : h.hashed H c = h'.hashed H c := by
  by_contra hne
  refine hno ⟨c, hne, ?_⟩
  rw [digest_hashed, digest_hashed, e]

/-- The fields the first commitment covers directly, and the digest it covers
the key by. -/
theorem fields_of_h1Payload {h h' : HeaderV2} (e : h.h1Payload H = h'.h1Payload H) :
    (h.completeVersion = h'.completeVersion ∧ h.prevBlockhash = h'.prevBlockhash
      ∧ h.height = h'.height ∧ h.merkleRoot = h'.merkleRoot
      ∧ h.timeOnWire = h'.timeOnWire ∧ h.bits = h'.bits ∧ h.txcount = h'.txcount
      ∧ h.flags = h'.flags ∧ h.xorKeyMaskClearBits = h'.xorKeyMaskClearBits)
    ∧ (h.stages H).xorKeyHash = (h'.stages H).xorKeyHash := by
  let parts (h : HeaderV2) : List Bytes :=
    [u32le h.completeVersion, h.prevSane.toList, u32le h.height, h.merkleRoot.toList,
      u32le h.timeOnWire, [0], u32le h.bits, u32le h.txcount.toUInt32, [h.flags],
      [h.xorKeyMaskClearBits], (h.stages H).xorKeyHash.toList]
  have hflat : ∀ h : HeaderV2, (parts h).flatten = h.h1Payload H := by
    intro h
    simp [parts, h1Payload, stages]
  have hparts : parts h = parts h' := by
    apply flatten_inj_of_widths
    · simp [parts]
    · rw [hflat, hflat, e]
  simp only [parts, List.cons.injEq] at hparts
  obtain ⟨hv, hp, hh, hm, ht, -, hb, hx, ⟨hf, -⟩, ⟨hc, -⟩, hk, -⟩ := hparts
  exact ⟨⟨u32le_inj hv, reverse_inj (List.Vector.eq _ _ hp), u32le_inj hh,
    List.Vector.eq _ _ hm, u32le_inj ht, u32le_inj hb, UInt16.toUInt32_inj.mp (u32le_inj hx),
    hf, hc⟩, List.Vector.eq _ _ hk⟩

/-- Within one profile the mining layout shows the nonces, the time offset and
the digest of everything else. -/
theorem fields_of_asicInput {h h' : HeaderV2} (hp : h.asicProfile = h'.asicProfile)
    (e : (h.stages H).asicInput = (h'.stages H).asicInput) :
    (h.nonce = h'.nonce ∧ h.nonce2 = h'.nonce2 ∧ h.nonce3 = h'.nonce3
      ∧ h.timeOffset = h'.timeOffset)
    ∧ (h.stages H).blake2b1 = (h'.stages H).blake2b1 := by
  let prevHidden (h : HeaderV2) := tagged H "Bitcoin prevblock header, hashed" h.prevSane.toList
  -- the parts of the layout, in order, as functions of the header
  let parts (h : HeaderV2) : List Bytes :=
    if h.asicProfile = 0 then
      [(Arr.zeroTake (prevHidden h) 6).toList, u32le h.nonce, u32le h.nonce2,
        u32le h.timeOffset, u32le h.nonce3, (h.stages H).blake2b1.toList]
    else if h.asicProfile = 1 then
      [u32le h.nonce, u32le h.nonce2, u32le h.nonce3, u32le h.timeOffset,
        (h.stages H).blake2b1.toList, (h.stages H).h2.toList]
    else
      [if h.asicProfile = 3 then zeros 32 else [], zeros 48, (h.stages H).h2.toList,
        u32le h.nonce, u32le h.nonce2, u32le h.timeOffset, u32le h.nonce3,
        (h.stages H).blake2b1.toList]
  have hflat : ∀ h : HeaderV2, (parts h).flatten = (h.stages H).asicInput := by
    intro h
    simp only [parts, stages, asicInput, prevHidden]
    split_ifs <;> simp
  have hparts : parts h = parts h' := by
    apply flatten_inj_of_widths
    · simp only [parts, hp]
      split_ifs <;> simp
    · rw [hflat, hflat, e]
  simp only [parts, hp] at hparts
  split_ifs at hparts
  all_goals simp only [List.cons.injEq] at hparts
  · obtain ⟨-, hn, hn2, ht, hn3, hb, -⟩ := hparts
    exact ⟨⟨u32le_inj hn, u32le_inj hn2, u32le_inj hn3, u32le_inj ht⟩, List.Vector.eq _ _ hb⟩
  · obtain ⟨hn, hn2, hn3, ht, hb, -⟩ := hparts
    exact ⟨⟨u32le_inj hn, u32le_inj hn2, u32le_inj hn3, u32le_inj ht⟩, List.Vector.eq _ _ hb⟩
  all_goals
    obtain ⟨-, -, -, hn, hn2, ht, hn3, hb, -⟩ := hparts
    exact ⟨⟨u32le_inj hn, u32le_inj hn2, u32le_inj hn3, u32le_inj ht⟩, List.Vector.eq _ _ hb⟩

/-- The second commitment covers the first and the merge-mining hook. -/
theorem fields_of_h2 {h h' : HeaderV2} (e : h.hashed H .h2 = h'.hashed H .h2) :
    (h.stages H).h1 = (h'.stages H).h1 ∧ h.mmRhs = h'.mmRhs := by
  obtain ⟨e, hmm⟩ := List.append_inj e (by simp)
  obtain ⟨hh1, -⟩ := List.append_inj e (by simp)
  exact ⟨List.Vector.eq _ _ hh1, List.Vector.eq _ _ hmm⟩

/-- The first BLAKE2b call covers both commitments and the extranonce. -/
theorem fields_of_blake2b1 {h h' : HeaderV2} (e : h.hashed H .blake2b1 = h'.hashed H .blake2b1) :
    (h.stages H).h2 = (h'.stages H).h2 ∧ h.extranonce = h'.extranonce := by
  obtain ⟨e, hx⟩ := List.append_inj e (by simp)
  obtain ⟨-, hh2⟩ := List.append_inj e (by simp)
  exact ⟨List.Vector.eq _ _ hh2, List.Vector.eq _ _ hx⟩

/-- Equal final stages come from equal fields, unless a call collides. -/
theorem fields_of_blake2b2 {h h' : HeaderV2} (hno : ¬ Collision H h h')
    (hp : h.asicProfile = h'.asicProfile)
    (e : (h.stages H).blake2b2 = (h'.stages H).blake2b2) : h.fields = h'.fields := by
  have hasic := hashed_eq_of_digestOf H (c := .blake2b2) hno e
  obtain ⟨⟨hn, hn2, hn3, ht⟩, eb⟩ := fields_of_asicInput H hp hasic
  obtain ⟨eh2, hx⟩ := fields_of_blake2b1 H (hashed_eq_of_digestOf H (c := .blake2b1) hno eb)
  obtain ⟨eh1, hmm⟩ := fields_of_h2 H (hashed_eq_of_digestOf H (c := .h2) hno eh2)
  obtain ⟨⟨hv, hprev, hh, hm, htime, hb, htx, hf, hc⟩, ek⟩ :=
    fields_of_h1Payload H (hashed_eq_of_digestOf H (c := .h1) hno eh1)
  have hk := hashed_eq_of_digestOf H (c := .xorKeyHash) hno ek
  have hkey : h.xorKey = h'.xorKey := List.Vector.eq _ _ hk
  rw [fields, fields, hv, hprev, hm, htime, hb, hn, hn2, hn3, hx, ht, htx, hf, hc, hkey, hh, hmm]

/-- The mask is a function of the key and the number of bits it leaves clear,
so it hides nothing from a comparison of hashes under one mask. -/
theorem blake2b2_of_blockHash {h h' : HeaderV2} (hk : h.xorKey = h'.xorKey)
    (hc : h.xorKeyMaskClearBits = h'.xorKeyMaskClearBits)
    (e : h.blockHash H = h'.blockHash H) : (h.stages H).blake2b2 = (h'.stages H).blake2b2 := by
  have hmask : h.mask H = h'.mask H := by
    simp only [mask, hk, hc]
  have hxor : Arr.xor (h.stages H).blake2b2 (h.mask H)
      = Arr.xor (h'.stages H).blake2b2 (h'.mask H) := reverse_inj e
  rw [hmask] at hxor
  exact Arr.xor_right_cancel hxor

/-- **The block hash commits to the header**: headers of one profile with equal
final stages are the same header, up to bit 31 of the version, or exhibit two
inputs of one hash call with equal results.  Under one mask the same holds of
equal block hashes. -/
theorem blake2b2_commits (h h' : HeaderV2) (hp : h.asicProfile = h'.asicProfile) :
    ((h.stages H).blake2b2 = (h'.stages H).blake2b2 →
      h.unflagged = h'.unflagged ∨ Collision H h h') ∧
    (h.xorKey = h'.xorKey → h.xorKeyMaskClearBits = h'.xorKeyMaskClearBits →
      h.blockHash H = h'.blockHash H → h.unflagged = h'.unflagged ∨ Collision H h h') := by
  have commits : (h.stages H).blake2b2 = (h'.stages H).blake2b2 →
      h.unflagged = h'.unflagged ∨ Collision H h h' := by
    intro e
    by_cases hno : Collision H h h'
    · exact .inr hno
    · exact .inl (unflagged_eq_of_fields (fields_of_blake2b2 H hno hp e))
  exact ⟨commits, fun hk hc e => commits (blake2b2_of_blockHash H hk hc e)⟩

/-- A header of zeros, but for bit 31 in its version field. -/
def flaggedHeader : HeaderV2 :=
  { read (zeros headerV2Size) rfl with version := versionHeaderV2Flag }

theorem blake2b2_commits_flaggedHeader :
    flaggedHeader ≠ flaggedHeader.unflagged
    ∧ (flaggedHeader.unflagged = flaggedHeader.unflagged.unflagged
      ∨ Collision knownHashes flaggedHeader flaggedHeader.unflagged) := by
  have commits := blake2b2_commits knownHashes flaggedHeader flaggedHeader.unflagged rfl
  have hhash : flaggedHeader.blockHash knownHashes
      = flaggedHeader.unflagged.blockHash knownHashes := by
    rw [blockHash, blockHash, stages_unflagged]
  exact ⟨by decide, commits.2 rfl rfl hhash⟩

end HeaderV2

end PrunedElectrs
