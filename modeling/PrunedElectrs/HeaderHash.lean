/-
PrunedElectrs/HeaderHash.lean

The independent Python implementation of the v2 hash, `headerv2_hash.py`.

Its fields are those of the published test vectors: hashes, keys and nonces of
more than 32 bits are hexadecimal text in display order, the rest are unbounded
integers, and the time is nTime rather than the value on the wire.  So
`parseLive` reverses and prints what `getHash` reads and reverses again, and
the time is added to on the one side and subtracted from on the other.

`parseLive_of_v2` and `getHash_ofV2` say that on the bytes of a v2 header none
of this is visible: every stage is the server's.
-/
import PrunedElectrs.Drongo

namespace PrunedElectrs

open Wire

/-- The exceptions the script can raise. -/
inductive PyError where
  | assertionError (msg : String)
  | indexError
  | valueError
  | structError
deriving DecidableEq, Repr

/-- The outcome of a Python function. -/
abbrev Py (α : Type) := Except PyError α

theorem py_ok_bind {α β : Type} (a : α) (f : α → Py β) :
    ((Except.ok a : Py α) >>= f) = f a := rfl

theorem py_pure {α : Type} (a : α) : (pure a : Py α) = .ok a := rfl

namespace HeaderHash

/-! ### What the script uses of the standard library -/

/-- `assert cond, msg`. -/
def pyAssert (cond : Prop) [Decidable cond] (msg : String) : Py Unit :=
  if cond then .ok () else .error (.assertionError msg)

theorem pyAssert_of {cond : Prop} [Decidable cond] {msg : String} (h : cond) :
    pyAssert cond msg = .ok () := if_pos h

/-- The whitespace that `bytes.fromhex` skips. -/
def isSpace (c : Char) : Bool :=
  c = ' ' || c = '\t' || c = '\n' || c = '\r' || c.toNat = 11 || c.toNat = 12

/-- `bytes.fromhex`, which lets white space stand between two bytes. -/
def fromhex : List Char → Py Bytes
  | [] => .ok []
  | c :: rest =>
      if isSpace c then fromhex rest
      else
        match rest with
        | [] => .error .valueError
        | d :: rest' =>
            match hexVal c, hexVal d with
            | some hi, some lo => do return UInt8.ofNat (16 * hi + lo) :: (← fromhex rest')
            | _, _ => .error .valueError

/-- `struct.pack("<I", v)`. -/
def u32 (v : ℕ) : Py Bytes :=
  if v < 2 ^ 32 then .ok (leBytes 4 v) else .error .structError

/-- `struct.unpack_from("<I", raw, offset)[0]`. -/
def unpackU32 (raw : Bytes) (offset : ℕ) : Py ℕ :=
  if offset + 4 ≤ raw.length then .ok (leNat (sub raw offset 4)) else .error .structError

/-- `struct.unpack_from("<H", raw, offset)[0]`. -/
def unpackU16 (raw : Bytes) (offset : ℕ) : Py ℕ :=
  if offset + 2 ≤ raw.length then .ok (leNat (sub raw offset 2)) else .error .structError

/-- `bytes([x, y])`. -/
def bytesOf (x y : ℕ) : Py Bytes :=
  if x < 256 ∧ y < 256 then .ok [UInt8.ofNat x, UInt8.ofNat y] else .error .valueError

/-! ### The script -/

/-- The header fields in the shape of the test vectors. -/
structure Fields where
  nVersion : ℕ
  hashPrevBlock : List Char
  hashMerkleRoot : List Char
  nTime : ℕ
  nBits : ℕ
  nNonce : ℕ
  mNonce2 : ℕ
  mNonce3 : ℕ
  mExtranonce : List Char
  mTimeOffset : ℕ
  mTxcount : ℕ
  mFlags : ℕ
  mXorKeyMaskClearBits : ℕ
  mXorKey : List Char
  mHeight : ℕ
  mMmRhs : List Char
deriving DecidableEq

/-- The stages `getHash` reports, as hexadecimal text. -/
structure StageTexts where
  xorKeyHash : List Char
  mask : List Char
  h1 : List Char
  h2 : List Char
  blake2b1 : List Char
  asicInput : List Char
  asicProfile : ℕ
  blake2b2 : List Char
  blockHash : List Char
deriving DecidableEq

/-- Decode a 164-byte v2 header into the vector field shape. -/
def parseLive (raw : Bytes) : Py Fields := do
  pyAssert (raw.length = 164) ""
  let flags ← getAt .indexError raw 110
  let timeOnWire ← unpackU32 raw 68
  let toff ← unpackU32 raw 104
  let clearBits ← getAt .indexError raw 111
  return {
    nVersion := (← unpackU32 raw 0).ldiff 0x80000000
    hashPrevBlock := toHex (sub raw 4 32).reverse
    hashMerkleRoot := toHex (sub raw 36 32).reverse
    nTime := (timeOnWire + (if flags.toNat &&& 0x04 ≠ 0 then toff else 0)) &&& 0xFFFFFFFF
    nBits := ← unpackU32 raw 72
    nNonce := ← unpackU32 raw 76
    mNonce2 := ← unpackU32 raw 80
    mNonce3 := ← unpackU32 raw 84
    mExtranonce := toHex (sub raw 88 16).reverse
    mTimeOffset := toff
    mTxcount := ← unpackU16 raw 108
    mFlags := flags.toNat
    mXorKeyMaskClearBits := clearBits.toNat
    mXorKey := toHex (sub raw 112 16).reverse
    mHeight := ← unpackU32 raw 128
    mMmRhs := toHex (sub raw 132 32).reverse }

variable (H : Hashes)

/-- BIP340 tagged hash. -/
def tagged (tag : String) (payload : Bytes) : Bytes :=
  let t := (H.sha256 (tagBytes tag)).toList
  (H.sha256 (t ++ t ++ payload)).toList

/-- BLAKE2b with a digest of 32 bytes. -/
def blake2b256 (b : Bytes) : Bytes := (H.blake2b256 b).toList

/-- The mask of `getHash`. -/
def maskOf (f : Fields) (xorKey : Bytes) : Py Bytes :=
  if xorKey.any (· != 0) then do
    let clearBytes := f.mXorKeyMaskClearBits / 8
    let m ← zeroFirst .indexError (tagged H "Bitcoin block hash PoW XOR mask" xorKey) clearBytes
    let x ← getAt .indexError m clearBytes
    setAt .indexError m clearBytes
      (UInt8.ofNat (x.toNat &&& (0xFF >>> (f.mXorKeyMaskClearBits % 8))))
  else .ok (zeros 32)

/-- `time_on_wire`, on Python's unbounded integers. -/
def timeOnWire (f : Fields) : ℕ :=
  (((f.nTime : ℤ) - (if f.mFlags &&& 0x04 ≠ 0 then f.mTimeOffset else 0)) % 2 ^ 32).toNat

/-- The bytes the first BLAKE2b result is hashed with, by ASIC profile. -/
def asicOf (f : Fields) (prevblockHidden h2 b1 : Bytes) : Py Bytes := do
  let profile := f.mFlags &&& 3
  let nonces := (← u32 f.nNonce) ++ (← u32 f.mNonce2)
  if profile = 0 then
    let prevblockHidden := zeros 6 ++ prevblockHidden.drop 6
    return prevblockHidden ++ nonces ++ (← u32 f.mTimeOffset) ++ (← u32 f.mNonce3) ++ b1
  else if profile = 1 then
    return nonces ++ (← u32 f.mNonce3) ++ (← u32 f.mTimeOffset) ++ b1 ++ h2
  else if profile = 2 then
    return zeros 48 ++ h2 ++ nonces ++ (← u32 f.mTimeOffset) ++ (← u32 f.mNonce3) ++ b1
  else
    return zeros 32 ++ zeros 48 ++ h2 ++ nonces ++ (← u32 f.mTimeOffset)
      ++ (← u32 f.mNonce3) ++ b1

/-- `get_hash`: the stages of the hash as they are displayed. -/
def getHash (f : Fields) : Py StageTexts := do
  let xorKey := (← fromhex f.mXorKey).reverse
  let xorKeyHash := tagged H "Bitcoin block hash PoW XOR key" xorKey
  let mask ← maskOf H f xorKey
  let prevblockSane ← fromhex f.hashPrevBlock
  let prevblockHidden := tagged H "Bitcoin prevblock header, hashed" prevblockSane
  let completeVersion := f.nVersion.ldiff 0x80000000 ||| 0x80000000
  let h1Payload := (← u32 completeVersion) ++ prevblockSane ++ (← u32 f.mHeight)
    ++ (← fromhex f.hashMerkleRoot).reverse ++ (← u32 (timeOnWire f)) ++ [0]
    ++ (← u32 f.nBits) ++ (← u32 f.mTxcount) ++ (← bytesOf f.mFlags f.mXorKeyMaskClearBits)
    ++ xorKeyHash
  pyAssert (h1Payload.length = 119) s!"h1 payload {h1Payload.length}, expected 119"
  let h1 := tagged H "Bitcoin block header 1" h1Payload
  let h2Payload := h1 ++ zeros 16 ++ zeros 16 ++ (← fromhex f.mMmRhs).reverse
  pyAssert (h2Payload.length = 0x60) s!"h2 payload {h2Payload.length}, expected 96"
  let h2 := tagged H "Merge-mining hook" h2Payload
  let ss := (← u32 0) ++ h2 ++ (← fromhex f.mExtranonce).reverse
  pyAssert (ss.length = 52) s!"first blake2b input {ss.length}, expected 52"
  let b1 := blake2b256 H ss
  let asic ← asicOf f prevblockHidden h2 b1
  let b2 := blake2b256 H asic
  return {
    xorKeyHash := toHex xorKeyHash, mask := toHex mask, h1 := toHex h1, h2 := toHex h2
    blake2b1 := toHex b1, asicInput := toHex asic, asicProfile := f.mFlags &&& 3
    blake2b2 := toHex b2, blockHash := toHex (List.zipWith (· ^^^ ·) b2 mask) }

/-! ### Text and words -/

theorem isSpace_hexDigit {n : ℕ} (h : n < 16) : isSpace (hexDigit n) = false := by
  interval_cases n <;> rfl

@[simp] theorem fromhex_toHex (b : Bytes) : fromhex (toHex b) = .ok b := by
  induction b with
  | nil => rfl
  | cons x xs ih =>
      have hx : x.toNat < 256 := x.toNat_lt
      have hi : x.toNat / 16 < 16 := by omega
      have lo : x.toNat % 16 < 16 := by omega
      have hsum : 16 * (x.toNat / 16) + x.toNat % 16 = x.toNat := by omega
      simp only [toHex, fromhex, isSpace_hexDigit hi, Bool.false_eq_true, if_false,
        hexVal_hexDigit hi, hexVal_hexDigit lo, ih, hsum, UInt8.ofNat_toNat]
      rfl

theorem u32_toNat (v : UInt32) : u32 v.toNat = .ok (u32le v) := if_pos v.toNat_lt

theorem unpackU32_of_sub {b : Bytes} {o : ℕ} {v : UInt32} (e : sub b o 4 = u32le v) :
    unpackU32 b o = .ok v.toNat := by
  have hlen : o + 4 ≤ b.length := add_le_of_sub_eq e (length_u32le v) (by decide)
  rw [unpackU32, if_pos hlen, e, ← toNat_u32of (length_u32le v), u32of_u32le]

theorem unpackU16_of_sub {b : Bytes} {o : ℕ} {v : UInt16} (e : sub b o 2 = u16le v) :
    unpackU16 b o = .ok v.toNat := by
  have hlen : o + 2 ≤ b.length := add_le_of_sub_eq e (length_u16le v) (by decide)
  rw [unpackU16, if_pos hlen, e, ← toNat_u16of (length_u16le v), u16of_u16le]

theorem bytesOf_toNat (x y : UInt8) : bytesOf x.toNat y.toNat = .ok [x, y] := by
  rw [bytesOf, if_pos ⟨x.toNat_lt, y.toNat_lt⟩, UInt8.ofNat_toNat, UInt8.ofNat_toNat]

/-! ### The script's view of a server header -/

/-- The script's view of a v2 header. -/
def Fields.ofV2 (h : HeaderV2) : Fields where
  nVersion := h.version.toNat
  hashPrevBlock := toHex h.prevBlockhash.toList.reverse
  hashMerkleRoot := toHex h.merkleRoot.toList.reverse
  nTime := h.time.toNat
  nBits := h.bits.toNat
  nNonce := h.nonce.toNat
  mNonce2 := h.nonce2.toNat
  mNonce3 := h.nonce3.toNat
  mExtranonce := toHex h.extranonce.toList.reverse
  mTimeOffset := h.timeOffset.toNat
  mTxcount := h.txcount.toNat
  mFlags := h.flags.toNat
  mXorKeyMaskClearBits := h.xorKeyMaskClearBits.toNat
  mXorKey := toHex h.xorKey.toList.reverse
  mHeight := h.height.toNat
  mMmRhs := toHex h.mmRhs.toList.reverse

theorem flags_and_four (h : HeaderV2) :
    h.flags.toNat &&& 0x04 ≠ 0 ↔ h.flags &&& flagUseTimeOffset ≠ 0 := by
  rw [ne_eq, ne_eq, ← UInt8.toNat_inj, UInt8.toNat_and]
  rfl

theorem nTime_eq (h : HeaderV2) :
    (h.timeOnWire.toNat + (if h.flags.toNat &&& 0x04 ≠ 0 then h.timeOffset.toNat else 0))
      &&& 0xFFFFFFFF = h.time.toNat := by
  have hwire : h.timeOnWire.toNat < 2 ^ 32 := h.timeOnWire.toNat_lt
  rw [show 0xFFFFFFFF = 2 ^ 32 - 1 from rfl, Nat.and_two_pow_sub_one_eq_mod, HeaderV2.time]
  by_cases hf : h.flags &&& flagUseTimeOffset ≠ 0
  · rw [if_pos ((flags_and_four h).mpr hf), if_pos hf, UInt32.toNat_add]
  · rw [if_neg (mt (flags_and_four h).mp hf), if_neg hf, Nat.add_zero, Nat.mod_eq_of_lt hwire]

/-- Subtracting the offset again gives back the value on the wire. -/
theorem timeOnWire_ofV2 (h : HeaderV2) : timeOnWire (Fields.ofV2 h) = h.timeOnWire.toNat := by
  have hwire : h.timeOnWire.toNat < 2 ^ 32 := h.timeOnWire.toNat_lt
  have hoff : h.timeOffset.toNat < 2 ^ 32 := h.timeOffset.toNat_lt
  show (((h.time.toNat : ℤ) - (if h.flags.toNat &&& 0x04 ≠ 0 then h.timeOffset.toNat else 0 : ℕ))
    % 2 ^ 32).toNat = h.timeOnWire.toNat
  rw [HeaderV2.time]
  -- adding the offset wraps around, and subtracting it wraps back
  by_cases hf : h.flags &&& flagUseTimeOffset ≠ 0
  · rw [if_pos ((flags_and_four h).mpr hf), if_pos hf, UInt32.toNat_add]
    omega
  · rw [if_neg (mt (flags_and_four h).mp hf), if_neg hf]
    omega

theorem parseLive_of_v2 {h : HeaderV2} (hv : h.version &&& versionHeaderV2Flag = 0) :
    parseLive h.serialize = .ok (Fields.ofV2 h) := by
  have hcuts : cuts h.serialize 0 HeaderV2.widths = h.fields := by
    rw [HeaderV2.serialize, ← h.map_length_fields, cuts_flatten]
  simp only [cuts, HeaderV2.widths, HeaderV2.fields, List.cons.injEq, Nat.reduceAdd] at hcuts
  obtain ⟨e0, e4, e36, e68, e72, e76, e80, e84, e88, e104, e108, e110, e111, e112, e128, e132,
    -⟩ := hcuts
  have hversion : h.completeVersion.toNat.ldiff 0x80000000 = h.version.toNat := by
    rw [← HeaderV2.completeVersion_of_clear hv]
    exact ldiff_topBit h.completeVersion
  have hlen : h.serialize.length = 164 := h.length_serialize
  simp only [parseLive, pyAssert_of hlen, py_ok_bind, getAt_of_sub _ e110,
    unpackU32_of_sub e68, unpackU32_of_sub e104, getAt_of_sub _ e111, unpackU32_of_sub e0,
    unpackU32_of_sub e72, unpackU32_of_sub e76, unpackU32_of_sub e80, unpackU32_of_sub e84,
    unpackU16_of_sub e108, unpackU32_of_sub e128, hversion, e4, e36, e88, e112, e132,
    nTime_eq h, py_pure]
  rfl

/-! ### Hashing -/

theorem maskOf_ofV2 (h : HeaderV2) :
    maskOf H (Fields.ofV2 h) h.xorKey.toList = .ok (h.mask H).toList := by
  have hbyte : ∀ x : UInt8, UInt8.ofNat (x.toNat &&& (0xFF >>> (h.xorKeyMaskClearBits.toNat % 8)))
      = x &&& (0xff >>> (h.xorKeyMaskClearBits % 8)) := by
    intro x
    rw [← Drongo.BlockHeaderV2.maskByte, UInt8.ofNat_and, UInt8.ofNat_toNat]
  rw [maskOf, HeaderV2.mask]
  -- a key of zeros means no mask at all
  split_ifs with hkey
  · simp only [show (Fields.ofV2 h).mXorKeyMaskClearBits = h.xorKeyMaskClearBits.toNat from rfl,
      hbyte]
    exact zeroFirst_modify (i := ⟨_, clearBytes_lt h.xorKeyMaskClearBits⟩) _
      (PrunedElectrs.tagged H "Bitcoin block hash PoW XOR mask" h.xorKey.toList)
      (UInt8.toNat_div _ _) _
  · rfl

theorem asicProfile_le (h : HeaderV2) : h.flags.toNat &&& 3 ≤ 3 := Nat.and_le_right

theorem asicOf_ofV2 (h : HeaderV2) (prevHidden h2 b1 : Arr 32) :
    asicOf (Fields.ofV2 h) prevHidden.toList h2.toList b1.toList
      = .ok (h.asicInput prevHidden h2 b1) := by
  have hprofile : ∀ p : UInt8, (Fields.ofV2 h).mFlags &&& 3 = p.toNat ↔ h.asicProfile = p :=
    Drongo.profile_eq_iff h.flags
  have hzero : zeros 6 ++ prevHidden.toList.drop 6 = (Arr.zeroTake prevHidden 6).toList := by
    rw [toList_zeroTake, zeroTake, prevHidden.toList_length]
    rfl
  have hnonce : u32 (Fields.ofV2 h).nNonce = .ok (u32le h.nonce) := u32_toNat _
  have hnonce2 : u32 (Fields.ofV2 h).mNonce2 = .ok (u32le h.nonce2) := u32_toNat _
  have hnonce3 : u32 (Fields.ofV2 h).mNonce3 = .ok (u32le h.nonce3) := u32_toNat _
  have hoffset : u32 (Fields.ofV2 h).mTimeOffset = .ok (u32le h.timeOffset) := u32_toNat _
  -- the profile is two bits, so the last branch is profile 3
  have hlast : h.asicProfile ≠ 0 → h.asicProfile ≠ 1 → h.asicProfile ≠ 2 →
      h.asicProfile = 3 := by
    intro h0 h1 h2'
    rw [ne_eq, ← hprofile] at h0 h1 h2'
    rw [← hprofile]
    have hle := asicProfile_le h
    have e : (Fields.ofV2 h).mFlags = h.flags.toNat := rfl
    rw [e] at h0 h1 h2' ⊢
    simp only [UInt8.reduceToNat] at h0 h1 h2' ⊢
    omega
  rw [asicOf, HeaderV2.asicInput, hnonce, hnonce2, hnonce3, hoffset]
  simp only [py_ok_bind, hzero, show (0 : ℕ) = (0 : UInt8).toNat from rfl,
    show (1 : ℕ) = (1 : UInt8).toNat from rfl, show (2 : ℕ) = (2 : UInt8).toNat from rfl, hprofile]
  by_cases h0 : h.asicProfile = 0
  · simp [h0, py_pure]
  by_cases h1 : h.asicProfile = 1
  · simp [h1, py_pure]
  by_cases h2' : h.asicProfile = 2
  · simp [h2', py_pure]
  · simp [hlast h0 h1 h2', py_pure]

/-- The stages as the script prints them. -/
def StageTexts.ofStages (profile : UInt8) (s : Stages) : StageTexts where
  xorKeyHash := toHex s.xorKeyHash.toList
  mask := toHex s.mask.toList
  h1 := toHex s.h1.toList
  h2 := toHex s.h2.toList
  blake2b1 := toHex s.blake2b1.toList
  asicInput := toHex s.asicInput
  asicProfile := profile.toNat
  blake2b2 := toHex s.blake2b2.toList
  blockHash := toHex s.blockHash.toList

/-- **The script computes the server's v2 hash**, stage by stage. -/
theorem getHash_ofV2 (h : HeaderV2) :
    getHash H (Fields.ofV2 h) = .ok (StageTexts.ofStages h.asicProfile (h.stages H)) := by
  have hkey : fromhex (Fields.ofV2 h).mXorKey = .ok h.xorKey.toList.reverse := fromhex_toHex _
  have hprev : fromhex (Fields.ofV2 h).hashPrevBlock = .ok h.prevSane.toList :=
    (fromhex_toHex _).trans (congrArg _ (reverse_toList _).symm)
  have hmerkle : fromhex (Fields.ofV2 h).hashMerkleRoot = .ok h.merkleRoot.toList.reverse :=
    fromhex_toHex _
  have hrhs : fromhex (Fields.ofV2 h).mMmRhs = .ok h.mmRhs.toList.reverse := fromhex_toHex _
  have hextra : fromhex (Fields.ofV2 h).mExtranonce = .ok h.extranonce.toList.reverse :=
    fromhex_toHex _
  have hversion : u32 ((Fields.ofV2 h).nVersion.ldiff 0x80000000 ||| 0x80000000)
      = .ok (u32le h.completeVersion) := by
    have e : h.version.toNat.ldiff 0x80000000 ||| 0x80000000 = h.completeVersion.toNat := by
      rw [ldiff_topBit, HeaderV2.completeVersion, UInt32.toNat_or]
      rfl
    rw [← u32_toNat, ← e]
    rfl
  have hheight : u32 (Fields.ofV2 h).mHeight = .ok (u32le h.height) := u32_toNat _
  have htime : u32 (timeOnWire (Fields.ofV2 h)) = .ok (u32le h.timeOnWire) := by
    rw [timeOnWire_ofV2, u32_toNat]
  have hbits : u32 (Fields.ofV2 h).nBits = .ok (u32le h.bits) := u32_toNat _
  have htx : u32 (Fields.ofV2 h).mTxcount = .ok (u32le h.txcount.toUInt32) := by
    rw [← u32_toNat, UInt16.toNat_toUInt32]
    rfl
  have hflags : bytesOf (Fields.ofV2 h).mFlags (Fields.ofV2 h).mXorKeyMaskClearBits
      = .ok [h.flags, h.xorKeyMaskClearBits] := bytesOf_toNat _ _
  have hnull : u32 0 = .ok (u32le 0) := u32_toNat 0
  -- from here on the values that are hashed, stage by stage
  have hpayload : u32le h.completeVersion ++ h.prevSane.toList ++ u32le h.height
      ++ h.merkleRoot.toList ++ u32le h.timeOnWire ++ [0] ++ u32le h.bits
      ++ u32le h.txcount.toUInt32 ++ [h.flags, h.xorKeyMaskClearBits]
      ++ tagged H "Bitcoin block hash PoW XOR key" h.xorKey.toList = h.h1Payload H := by
    simp [HeaderV2.h1Payload, tagged, PrunedElectrs.tagged]
  have hh2 : tagged H "Merge-mining hook" (tagged H "Bitcoin block header 1" (h.h1Payload H)
      ++ zeros 16 ++ zeros 16 ++ h.mmRhs.toList) = (h.stages H).h2.toList := by
    have hzeros : ∀ b : Bytes, b ++ zeros 16 ++ zeros 16 = b ++ zeros 32 := fun b => by
      rw [List.append_assoc]
      rfl
    rw [hzeros]
    rfl
  have hb1 : blake2b256 H (u32le 0 ++ (h.stages H).h2.toList ++ h.extranonce.toList)
      = (h.stages H).blake2b1.toList := rfl
  have hb2 : blake2b256 H (h.stages H).asicInput = (h.stages H).blake2b2.toList := rfl
  have hmaskXor : List.zipWith (· ^^^ ·) (h.stages H).blake2b2.toList (h.mask H).toList
      = (h.stages H).blockHash.toList := (toList_xor _ _).symm
  have hprevHidden : tagged H "Bitcoin prevblock header, hashed" h.prevSane.toList
      = (PrunedElectrs.tagged H "Bitcoin prevblock header, hashed" h.prevSane.toList).toList := rfl
  have hasic : asicOf (Fields.ofV2 h)
      (PrunedElectrs.tagged H "Bitcoin prevblock header, hashed" h.prevSane.toList).toList
      (h.stages H).h2.toList (h.stages H).blake2b1.toList = .ok (h.stages H).asicInput :=
    asicOf_ofV2 h _ _ _
  have hprofile : (Fields.ofV2 h).mFlags &&& 3 = h.asicProfile.toNat :=
    (Drongo.profile_eq_iff h.flags h.asicProfile).mpr rfl
  -- the script up to its first assertion, then the rest of the stages
  simp only [getHash, hkey, hprev, hmerkle, hrhs, hextra, hversion, hheight, htime, hbits, htx,
    hflags, hnull, py_ok_bind, List.reverse_reverse, maskOf_ofV2, hpayload,
    pyAssert_of (h.length_h1Payload H)]
  rw [pyAssert_of (by simp [tagged, zeros]), py_ok_bind, hh2, pyAssert_of (by simp),
    py_ok_bind, hb1, hprevHidden, hasic, py_ok_bind, hb2, hmaskXor, hprofile]
  rfl

end HeaderHash

end PrunedElectrs
