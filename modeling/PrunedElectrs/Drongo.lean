/-
PrunedElectrs/Drongo.lean

The client's header classes, `BlockHeader` and `BlockHeaderV2`.

Java's unsigned 32-bit reads land in a `long`, so the integers here are
naturals and nothing wraps except where the source masks.  A byte array is a
`Bytes` of any length: every index and every copy can fail, with the exception
the source would throw.  A `Sha256Hash` holds display order; what is read from
the wire is reversed on the way in and on the way out.

The connection to the server's types is `BlockHeader.ofV1` and
`BlockHeader.ofV2`, the client's view of a header.  `parse_of_v1` and
`parse_of_v2` say that reading the server's bytes at any offset gives exactly
that view, `bitcoinSerialize_ofV1` and `bitcoinSerialize_ofV2` that writing it
gives the bytes back, and `getHash_ofV1` and `getHash_ofV2` that it has the
server's hash.  `parse_eq` compares reading with how it was before the patch.
-/
import PrunedElectrs.Stages

namespace PrunedElectrs

open Wire

/-- The exceptions the modelled Java code throws or catches. -/
inductive JavaException where
  | protocol (msg : String)
  | verification (msg : String)
  | illegalArgument (msg : String)
  | indexOutOfBounds
  | numberFormat
  | nullPointer
  | noSuchElement
deriving DecidableEq, Repr

/-- The outcome of a Java method. -/
abbrev Java (α : Type) := Except JavaException α

theorem java_ok_bind {α β : Type} (a : α) (f : α → Java β) :
    ((Except.ok a : Java α) >>= f) = f a := rfl

theorem java_pure {α : Type} (a : α) : (pure a : Java α) = .ok a := rfl

theorem java_bind_eq_ok {α β : Type} {r : Java α} {f : α → Java β} {b : β} :
    (r >>= f) = .ok b ↔ ∃ a, r = .ok a ∧ f a = .ok b := by
  rcases r with e | a
  · simp only [show ((Except.error e : Java α) >>= f) = .error e from rfl, reduceCtorEq, false_and,
      exists_false]
  · simp [java_ok_bind]

namespace Drongo

/-! ### `Utils`, `Sha256Hash` and the readers of `Message` -/

/-- `Utils.readUint32`. -/
def readUint32 (data : Bytes) (offset : ℕ) : Java ℕ :=
  if offset + 4 ≤ data.length then .ok (leNat (sub data offset 4))
  else .error .indexOutOfBounds

/-- `Utils.uint32ToByteStreamLE`. -/
def uint32ToByteStreamLE (val : ℕ) : Bytes :=
  [UInt8.ofNat (val &&& 0xff), UInt8.ofNat ((val >>> 8) &&& 0xff),
    UInt8.ofNat ((val >>> 16) &&& 0xff), UInt8.ofNat ((val >>> 24) &&& 0xff)]

/-- A hash, in display order. -/
abbrev Sha256Hash := Arr 32

namespace Sha256Hash

/-- `Sha256Hash.wrap`. -/
def wrap (rawHashBytes : Bytes) : Java Sha256Hash :=
  if h : rawHashBytes.length = 32 then .ok ⟨rawHashBytes, h⟩
  else .error (.illegalArgument "Invalid hash length")

/-- `Sha256Hash.wrapReversed`, of bytes in wire order. -/
def wrapReversed (rawHashBytes : Bytes) : Java Sha256Hash := wrap rawHashBytes.reverse

/-- The bytes in display order. -/
def getBytes (h : Sha256Hash) : Bytes := h.toList

/-- The bytes in wire order. -/
def getReversedBytes (h : Sha256Hash) : Bytes := h.toList.reverse

theorem wrap_toList (a : Arr 32) : wrap a.toList = .ok a := by
  rw [wrap, dif_pos a.toList_length]
  exact congrArg Except.ok (List.Vector.eq _ _ rfl)

theorem wrapReversed_toList (a : Arr 32) : wrapReversed a.toList = .ok a.reverse := by
  rw [wrapReversed, ← reverse_toList, wrap_toList]

end Sha256Hash

/-- `Message.readUint32`: the value and the cursor behind it. -/
def messageReadUint32 (payload : Bytes) (cursor : ℕ) : Java (ℕ × ℕ) :=
  if cursor + 4 ≤ payload.length then .ok (leNat (sub payload cursor 4), cursor + 4)
  else .error (.protocol "ArrayIndexOutOfBoundsException")

/-- `Message.readHash`. -/
def messageReadHash (payload : Bytes) (cursor : ℕ) : Java (Sha256Hash × ℕ) :=
  if cursor + 32 ≤ payload.length then do
    let hash ← Sha256Hash.wrapReversed (sub payload cursor 32)
    return (hash, cursor + 32)
  else .error (.protocol "IndexOutOfBoundsException")

/-! ### `BlockHeaderV2` -/

/-- Bit 31 of the version field. -/
def versionHeaderV2Flag : ℕ := 0x80000000

/-- Bytes of a v1 header. -/
def headerV1Length : ℕ := 80

/-- Bytes of a v2 header. -/
def headerV2Length : ℕ := 164

/-- Bit 2 of the flags: the time is offset. -/
def flagUseTimeOffset : ℕ := 0x04

/-- The extra fields of a BLAKE2b block header. -/
structure BlockHeaderV2 where
  nonce2 : ℕ
  nonce3 : ℕ
  extranonce : Bytes
  timeOffset : ℕ
  txcount : ℕ
  flags : ℕ
  xorKeyMaskClearBits : ℕ
  xorKey : Bytes
  height : ℕ
  mmRhs : Bytes
deriving DecidableEq

namespace BlockHeaderV2

/-- Is the header starting at this offset a v2 one? -/
def isV2 (data : Bytes) (offset : ℕ) : Java Bool :=
  if data.length < offset + 4 then .ok false
  else do
    let version ← readUint32 data offset
    return version &&& versionHeaderV2Flag != 0

/-- `System.arraycopy` of `length` bytes into a new array. -/
def slice (data : Bytes) (offset length : ℕ) : Java Bytes :=
  if offset + length ≤ data.length then .ok (sub data offset length)
  else .error .indexOutOfBounds

/-- `data[i] & 0xff`. -/
def unsignedByte (data : Bytes) (i : ℕ) : Java ℕ := do
  let x ← getAt .indexOutOfBounds data i
  return x.toNat

/-- Parse the fields that follow the first 80 bytes. -/
def parse (data : Bytes) (offset : ℕ) : Java BlockHeaderV2 :=
  if data.length < offset + headerV2Length then
    .error (.protocol (s!"Truncated v2 block header: need {headerV2Length} bytes at offset "
      ++ s!"{offset}, have {data.length - offset}"))
  else do
    let p := offset + headerV1Length
    let nonce2 ← readUint32 data p
    let nonce3 ← readUint32 data (p + 4)
    let extranonce ← slice data (p + 8) 16
    let timeOffset ← readUint32 data (p + 24)
    let txcountLow ← unsignedByte data (p + 28)
    let txcountHigh ← unsignedByte data (p + 29)
    let flags ← unsignedByte data (p + 30)
    let xorKeyMaskClearBits ← unsignedByte data (p + 31)
    let xorKey ← slice data (p + 32) 16
    let height ← readUint32 data (p + 48)
    let mmRhs ← slice data (p + 52) 32
    return { nonce2, nonce3, extranonce, timeOffset
             txcount := txcountLow ||| (txcountHigh <<< 8)
             flags, xorKeyMaskClearBits, xorKey, height, mmRhs }

/-- Serialize the fields that follow the first 80 bytes. -/
def serializeToStream (v2 : BlockHeaderV2) : Bytes :=
  [uint32ToByteStreamLE v2.nonce2, uint32ToByteStreamLE v2.nonce3, v2.extranonce,
    uint32ToByteStreamLE v2.timeOffset, [UInt8.ofNat (v2.txcount &&& 0xff)],
    [UInt8.ofNat ((v2.txcount >>> 8) &&& 0xff)], [UInt8.ofNat v2.flags],
    [UInt8.ofNat v2.xorKeyMaskClearBits], v2.xorKey, uint32ToByteStreamLE v2.height,
    v2.mmRhs].flatten

/-- The layout that the final stage hashes. -/
def getAsicProfile (v2 : BlockHeaderV2) : ℕ := v2.flags &&& 3

/-- nTime, which on a v2 header may be the wire value plus an offset. -/
def getTime (v2 : BlockHeaderV2) (timeOnWire : ℕ) : ℕ :=
  if v2.flags &&& flagUseTimeOffset ≠ 0 then (timeOnWire + v2.timeOffset) &&& 0xffffffff
  else timeOnWire

variable (H : Hashes)

/-- BIP340 tagged hash. -/
def tagged (tag : String) (payload : Bytes) : Bytes :=
  let t := (H.sha256 (tagBytes tag)).toList
  (H.sha256 (t ++ t ++ payload)).toList

/-- BLAKE2b with a digest of 32 bytes. -/
def blake2b256 (data : Bytes) : Bytes := (H.blake2b256 data).toList

/-- Is every byte zero? -/
def isAllZero (data : Bytes) : Bool := data.all (· == 0)

/-- `ByteArrayOutputStream.write(b, 0, len)`. -/
def write (b : Bytes) (len : ℕ) : Java Bytes :=
  if len ≤ b.length then .ok (b.take len) else .error .indexOutOfBounds

/-- The mask of `computeHashDisplayOrder`. -/
def computeMask (v2 : BlockHeaderV2) : Java Bytes :=
  if !isAllZero v2.xorKey then do
    let clearBytes := v2.xorKeyMaskClearBits / 8
    let mask ← zeroFirst .indexOutOfBounds
      (tagged H "Bitcoin block hash PoW XOR mask" v2.xorKey) clearBytes
    let x ← getAt .indexOutOfBounds mask clearBytes
    setAt .indexOutOfBounds mask clearBytes
      (x &&& UInt8.ofNat (0xff >>> (v2.xorKeyMaskClearBits % 8)))
  else .ok (zeros 32)

/-- The layout the mining hardware sees. -/
def computeAsic (v2 : BlockHeaderV2) (prevBlockHashDisplay h2 blake1 : Bytes) (nonce : ℕ) :
    Java Bytes :=
  let profile := v2.getAsicProfile
  if profile = 0 then do
    let prevHidden ← zeroFirst .indexOutOfBounds
      (tagged H "Bitcoin prevblock header, hashed" prevBlockHashDisplay) 6
    return (← write prevHidden 32) ++ uint32ToByteStreamLE nonce
      ++ uint32ToByteStreamLE v2.nonce2 ++ uint32ToByteStreamLE v2.timeOffset
      ++ uint32ToByteStreamLE v2.nonce3 ++ (← write blake1 32)
  else if profile = 1 then do
    return uint32ToByteStreamLE nonce ++ uint32ToByteStreamLE v2.nonce2
      ++ uint32ToByteStreamLE v2.nonce3 ++ uint32ToByteStreamLE v2.timeOffset
      ++ (← write blake1 32) ++ (← write h2 32)
  else do
    return (if profile = 3 then zeros 32 else []) ++ zeros 48 ++ (← write h2 32)
      ++ uint32ToByteStreamLE nonce ++ uint32ToByteStreamLE v2.nonce2
      ++ uint32ToByteStreamLE v2.timeOffset ++ uint32ToByteStreamLE v2.nonce3
      ++ (← write blake1 32)

/-- The block hash, in display order. -/
def computeHashDisplayOrder (v2 : BlockHeaderV2) (completeVersion : ℕ)
    (prevBlockHashDisplay merkleRootWire : Bytes) (timeOnWire difficultyTarget nonce : ℕ) :
    Java Bytes := do
  let xorKeyHash := tagged H "Bitcoin block hash PoW XOR key" v2.xorKey
  let mask ← v2.computeMask H
  -- the byte after the time is reserved for a future 40-bit time
  let h1p := uint32ToByteStreamLE completeVersion ++ (← write prevBlockHashDisplay 32)
    ++ uint32ToByteStreamLE v2.height ++ (← write merkleRootWire 32)
    ++ uint32ToByteStreamLE timeOnWire ++ [0] ++ uint32ToByteStreamLE difficultyTarget
    ++ uint32ToByteStreamLE v2.txcount ++ [UInt8.ofNat v2.flags]
    ++ [UInt8.ofNat v2.xorKeyMaskClearBits] ++ (← write xorKeyHash 32)
  let h1 := tagged H "Bitcoin block header 1" h1p
  let h2p := (← write h1 32) ++ zeros 32 ++ (← write v2.mmRhs 32)
  let h2 := tagged H "Merge-mining hook" h2p
  let ss := uint32ToByteStreamLE 0 ++ (← write h2 32) ++ (← write v2.extranonce 16)
  let blake1 := blake2b256 H ss
  let asic ← v2.computeAsic H prevBlockHashDisplay h2 blake1 nonce
  xorFirst .indexOutOfBounds (blake2b256 H asic) mask 32

end BlockHeaderV2

/-! ### `BlockHeader` -/

/-- A block header of either format. -/
structure BlockHeader where
  version : ℕ
  prevBlockHash : Sha256Hash
  merkleRoot : Sha256Hash
  time : ℕ
  difficultyTarget : ℕ
  nonce : ℕ
  /-- Null on a v1 header. -/
  v2 : Option BlockHeaderV2
  /-- The time field as serialized, where the header is a v2 one. -/
  timeOnWire : ℕ
  length : ℕ
deriving DecidableEq

namespace BlockHeader

/-- `new BlockHeader(payload, offset)`. -/
def parse (payload : Bytes) (offset : ℕ) : Java BlockHeader := do
  let (version, cursor) ← messageReadUint32 payload offset
  let (prevBlockHash, cursor) ← messageReadHash payload cursor
  let (merkleRoot, cursor) ← messageReadHash payload cursor
  let (time, cursor) ← messageReadUint32 payload cursor
  let (difficultyTarget, cursor) ← messageReadUint32 payload cursor
  let (nonce, cursor) ← messageReadUint32 payload cursor
  if version &&& versionHeaderV2Flag ≠ 0 then do
    let v2 ← BlockHeaderV2.parse payload offset
    return { version := version.ldiff versionHeaderV2Flag
             prevBlockHash, merkleRoot, difficultyTarget, nonce
             v2 := some v2, timeOnWire := time, time := v2.getTime time
             length := offset + headerV2Length - offset }
  else
    return { version, prevBlockHash, merkleRoot, time, difficultyTarget, nonce
             v2 := none, timeOnWire := 0, length := cursor - offset }

/-- `new BlockHeader(payload, offset)` without the patch: no version is special. -/
def parseUnpatched (payload : Bytes) (offset : ℕ) : Java BlockHeader := do
  let (version, cursor) ← messageReadUint32 payload offset
  let (prevBlockHash, cursor) ← messageReadHash payload cursor
  let (merkleRoot, cursor) ← messageReadHash payload cursor
  let (time, cursor) ← messageReadUint32 payload cursor
  let (difficultyTarget, cursor) ← messageReadUint32 payload cursor
  let (nonce, cursor) ← messageReadUint32 payload cursor
  return { version, prevBlockHash, merkleRoot, time, difficultyTarget, nonce
           v2 := none, timeOnWire := 0, length := cursor - offset }

/-- The version field as serialized, including the v2 marker bit. -/
def getCompleteVersion (h : BlockHeader) : ℕ :=
  match h.v2 with
  | none => h.version
  | some _ => h.version ||| versionHeaderV2Flag

/-- The time field as serialized. -/
def getTimeOnWire (h : BlockHeader) : ℕ :=
  match h.v2 with
  | none => h.time
  | some _ => h.timeOnWire

/-- The wire encoding. -/
def bitcoinSerialize (h : BlockHeader) : Bytes :=
  [uint32ToByteStreamLE h.getCompleteVersion, h.prevBlockHash.getReversedBytes,
    h.merkleRoot.getReversedBytes, uint32ToByteStreamLE h.getTimeOnWire,
    uint32ToByteStreamLE h.difficultyTarget, uint32ToByteStreamLE h.nonce].flatten
    ++ (match h.v2 with
        | none => []
        | some v2 => v2.serializeToStream)

/-- The block hash: staged BLAKE2b of a v2 header, SHA256d of a v1 one. -/
def getHash (H : Hashes) (h : BlockHeader) : Java Sha256Hash :=
  match h.v2 with
  | some v2 => do
      let hash ← v2.computeHashDisplayOrder H h.getCompleteVersion h.prevBlockHash.getBytes
        h.merkleRoot.getReversedBytes h.getTimeOnWire h.difficultyTarget h.nonce
      Sha256Hash.wrap hash
  | none =>
      -- `Sha256Hash.hashTwice`
      Sha256Hash.wrapReversed (H.sha256 (H.sha256 h.bitcoinSerialize).toList).toList

end BlockHeader

/-! ### Java's integers and the machine words of the server -/

theorem ofNat_and_255 (v : ℕ) : UInt8.ofNat (v &&& 0xff) = UInt8.ofNat v := by
  rw [← UInt8.toNat_inj, UInt8.toNat_ofNat', UInt8.toNat_ofNat',
    show 0xff = 2 ^ 8 - 1 from rfl, Nat.and_two_pow_sub_one_eq_mod, Nat.mod_mod]

theorem uint32ToByteStreamLE_eq (v : ℕ) : uint32ToByteStreamLE v = leBytes 4 v := by
  simp only [uint32ToByteStreamLE, leBytes, ofNat_and_255, Nat.shiftRight_eq_div_pow,
    Nat.div_div_eq_div_mul, Nat.reducePow, Nat.reduceMul]

@[simp] theorem uint32ToByteStreamLE_toNat (v : UInt32) :
    uint32ToByteStreamLE v.toNat = u32le v := uint32ToByteStreamLE_eq _

/-- The two bytes `serializeToStream` writes for the transaction count. -/
theorem txcount_bytes (c : UInt16) :
    [UInt8.ofNat (c.toNat &&& 0xff), UInt8.ofNat ((c.toNat >>> 8) &&& 0xff)] = u16le c := by
  simp only [u16le, leBytes, ofNat_and_255, Nat.shiftRight_eq_div_pow, Nat.reducePow]

/-- The two bytes `parse` puts the transaction count together from. -/
theorem txcount_of_bytes (c : UInt16) :
    (UInt8.ofNat c.toNat).toNat ||| ((UInt8.ofNat (c.toNat / 256)).toNat <<< 8) = c.toNat := by
  have hc : c.toNat < 2 ^ 16 := c.toNat_lt
  have hlow : (UInt8.ofNat c.toNat).toNat = c.toNat % 256 := UInt8.toNat_ofNat'
  have hhigh : (UInt8.ofNat (c.toNat / 256)).toNat = c.toNat / 256 := by
    rw [UInt8.toNat_ofNat']
    omega
  rw [hlow, hhigh, Nat.or_comm, Nat.shiftLeft_eq, Nat.mul_comm,
    ← Nat.two_pow_add_eq_or_of_lt (by omega)]
  omega

theorem and_flag_eq_zero_iff (v : UInt32) :
    v.toNat &&& versionHeaderV2Flag = 0 ↔ v &&& PrunedElectrs.versionHeaderV2Flag = 0 := by
  rw [← UInt32.toNat_inj, UInt32.toNat_and]
  rfl

theorem completeVersion_toNat {h : HeaderV2}
    (hv : h.version &&& PrunedElectrs.versionHeaderV2Flag = 0) :
    h.version.toNat ||| versionHeaderV2Flag = h.completeVersion.toNat := by
  have hmask : h.version &&& ~~~PrunedElectrs.versionHeaderV2Flag = h.version :=
    and_not_topBit_of_lt ((and_topBit_eq_zero_iff _).mp hv)
  rw [HeaderV2.completeVersion, hmask, UInt32.toNat_or]
  rfl

theorem time_toNat (h : HeaderV2) :
    (if h.flags.toNat &&& flagUseTimeOffset ≠ 0
      then (h.timeOnWire.toNat + h.timeOffset.toNat) &&& 0xffffffff
      else h.timeOnWire.toNat) = h.time.toNat := by
  have hflag : h.flags.toNat &&& flagUseTimeOffset ≠ 0
      ↔ h.flags &&& PrunedElectrs.flagUseTimeOffset ≠ 0 := by
    rw [ne_eq, ne_eq, ← UInt8.toNat_inj, UInt8.toNat_and]
    rfl
  rw [HeaderV2.time]
  by_cases hf : h.flags &&& PrunedElectrs.flagUseTimeOffset ≠ 0
  · rw [if_pos (hflag.mpr hf), if_pos hf, UInt32.toNat_add,
      show 0xffffffff = 2 ^ 32 - 1 from rfl, Nat.and_two_pow_sub_one_eq_mod]
  · rw [if_neg (mt hflag.mp hf), if_neg hf]

theorem profile_eq_iff (flags p : UInt8) : flags.toNat &&& 3 = p.toNat ↔ flags &&& 3 = p := by
  rw [← UInt8.toNat_inj, UInt8.toNat_and]
  rfl

/-! ### The client's view of a server header -/

/-- The extra fields of a server's v2 header. -/
def BlockHeaderV2.ofV2 (h : HeaderV2) : BlockHeaderV2 where
  nonce2 := h.nonce2.toNat
  nonce3 := h.nonce3.toNat
  extranonce := h.extranonce.toList
  timeOffset := h.timeOffset.toNat
  txcount := h.txcount.toNat
  flags := h.flags.toNat
  xorKeyMaskClearBits := h.xorKeyMaskClearBits.toNat
  xorKey := h.xorKey.toList
  height := h.height.toNat
  mmRhs := h.mmRhs.toList

namespace BlockHeader

/-- The client's view of a v1 header. -/
def ofV1 (h : HeaderV1) : BlockHeader where
  version := h.version.toUInt32.toNat
  prevBlockHash := h.prevBlockhash.reverse
  merkleRoot := h.merkleRoot.reverse
  time := h.time.toNat
  difficultyTarget := h.bits.toNat
  nonce := h.nonce.toNat
  v2 := none
  timeOnWire := 0
  length := headerV1Length

/-- The client's view of a v2 header. -/
def ofV2 (h : HeaderV2) : BlockHeader where
  version := h.version.toNat
  prevBlockHash := h.prevBlockhash.reverse
  merkleRoot := h.merkleRoot.reverse
  time := h.time.toNat
  difficultyTarget := h.bits.toNat
  nonce := h.nonce.toNat
  v2 := some (BlockHeaderV2.ofV2 h)
  timeOnWire := h.timeOnWire.toNat
  length := headerV2Length

end BlockHeader

/-! ### Reading -/

theorem readUint32_of_sub {b : Bytes} {o : ℕ} {v : UInt32} (e : sub b o 4 = u32le v) :
    readUint32 b o = .ok v.toNat := by
  have hlen : o + 4 ≤ b.length := add_le_of_sub_eq e (length_u32le v) (by decide)
  rw [readUint32, if_pos hlen, e, ← toNat_u32of (length_u32le v), u32of_u32le]

theorem messageReadUint32_of_sub {b : Bytes} {o : ℕ} {v : UInt32} (e : sub b o 4 = u32le v) :
    messageReadUint32 b o = .ok (v.toNat, o + 4) := by
  have hlen : o + 4 ≤ b.length := add_le_of_sub_eq e (length_u32le v) (by decide)
  rw [messageReadUint32, if_pos hlen, e, ← toNat_u32of (length_u32le v), u32of_u32le]

theorem messageReadHash_of_sub {b : Bytes} {o : ℕ} {a : Arr 32} (e : sub b o 32 = a.toList) :
    messageReadHash b o = .ok (a.reverse, o + 32) := by
  have hlen : o + 32 ≤ b.length := add_le_of_sub_eq e a.toList_length (by decide)
  rw [messageReadHash, if_pos hlen, e, Sha256Hash.wrapReversed_toList]
  rfl

theorem of_messageReadUint32 {b : Bytes} {o : ℕ} {p : ℕ × ℕ}
    (h : messageReadUint32 b o = .ok p) :
    p = (leNat (sub b o 4), o + 4) ∧ o + 4 ≤ b.length := by
  rw [messageReadUint32] at h
  split_ifs at h with hlen
  exact ⟨(Except.ok.inj h).symm, hlen⟩

theorem of_messageReadHash {b : Bytes} {o : ℕ} {p : Sha256Hash × ℕ}
    (h : messageReadHash b o = .ok p) : p.2 = o + 32 ∧ o + 32 ≤ b.length := by
  rw [messageReadHash] at h
  split_ifs at h with hlen
  obtain ⟨hash, -, hp⟩ := java_bind_eq_ok.mp h
  obtain rfl := Except.ok.inj hp
  exact ⟨rfl, hlen⟩

theorem slice_of_sub {b x : Bytes} {o n : ℕ} (e : sub b o n = x) (hx : x.length = n)
    (hn : 0 < n) : BlockHeaderV2.slice b o n = .ok x := by
  rw [BlockHeaderV2.slice, if_pos (add_le_of_sub_eq e hx hn), e]

theorem unsignedByte_of_sub {b : Bytes} {o : ℕ} {x : UInt8} (e : sub b o 1 = [x]) :
    BlockHeaderV2.unsignedByte b o = .ok x.toNat := by
  rw [BlockHeaderV2.unsignedByte, getAt_of_sub _ e]
  rfl

namespace BlockHeaderV2

theorem parse_of_v2 {b : Bytes} {o : ℕ} {h : HeaderV2} (e : sub b o 164 = h.serialize) :
    parse b o = .ok (ofV2 h) := by
  have hcuts : cuts b o HeaderV2.widths = h.fields := cuts_of_sub h.map_length_fields rfl e
  have hlen : o + 164 ≤ b.length := add_le_of_sub_eq e h.length_serialize (by decide)
  simp only [cuts, HeaderV2.widths, HeaderV2.fields, List.cons.injEq, Nat.add_assoc,
    Nat.reduceAdd] at hcuts
  obtain ⟨-, -, -, -, -, -, e80, e84, e88, e104, e108, e110, e111, e112, e128, e132, -⟩ := hcuts
  -- the transaction count is read as two bytes
  have elow : sub b (o + 108) 1 = [UInt8.ofNat h.txcount.toNat] := by
    have : sub (sub b (o + 108) 2) 0 1 = sub b (o + 108 + 0) 1 := sub_of_sub (by decide)
    rw [Nat.add_zero] at this
    rw [← this, e108]
    rfl
  have ehigh : sub b (o + 109) 1 = [UInt8.ofNat (h.txcount.toNat / 256)] := by
    have : sub (sub b (o + 108) 2) 1 1 = sub b (o + 108 + 1) 1 := sub_of_sub (by decide)
    rw [show o + 109 = o + 108 + 1 from rfl, ← this, e108]
    rfl
  rw [parse, if_neg (by rw [headerV2Length]; omega)]
  simp only [headerV1Length, Nat.add_assoc, Nat.reduceAdd, readUint32_of_sub e80,
    readUint32_of_sub e84, slice_of_sub e88 h.extranonce.toList_length (by decide),
    readUint32_of_sub e104, unsignedByte_of_sub elow, unsignedByte_of_sub ehigh,
    unsignedByte_of_sub e110, unsignedByte_of_sub e111,
    slice_of_sub e112 h.xorKey.toList_length (by decide), readUint32_of_sub e128,
    slice_of_sub e132 h.mmRhs.toList_length (by decide), java_ok_bind, txcount_of_bytes]
  rfl

end BlockHeaderV2

namespace BlockHeader

/-- What the patch adds to the parse. -/
theorem parse_eq (b : Bytes) (o : ℕ) :
    parse b o = parseUnpatched b o >>= fun h =>
      if h.version &&& versionHeaderV2Flag ≠ 0 then do
        let v2 ← BlockHeaderV2.parse b o
        return { h with version := h.version.ldiff versionHeaderV2Flag
                        v2 := some v2, timeOnWire := h.time, time := v2.getTime h.time
                        length := o + headerV2Length - o }
      else return h := by
  simp only [parse, parseUnpatched, bind_assoc, pure_bind]

/-- Without the patch any 80 bytes are a header. -/
theorem parseUnpatched_of_v1 {b : Bytes} {o : ℕ} {h : HeaderV1} (e : sub b o 80 = h.serialize) :
    parseUnpatched b o = .ok (ofV1 h) := by
  have hcuts : cuts b o HeaderV1.widths = h.fields := cuts_of_sub h.map_length_fields rfl e
  simp only [cuts, HeaderV1.widths, HeaderV1.fields, List.cons.injEq, Nat.add_assoc,
    Nat.reduceAdd] at hcuts
  obtain ⟨e0, e4, e36, e68, e72, e76, -⟩ := hcuts
  simp only [parseUnpatched, messageReadUint32_of_sub e0, java_ok_bind, messageReadHash_of_sub e4,
    Nat.add_assoc, Nat.reduceAdd, messageReadHash_of_sub e36, messageReadUint32_of_sub e68,
    messageReadUint32_of_sub e72, messageReadUint32_of_sub e76, java_pure,
    Nat.add_sub_cancel_left]
  rfl

/-- The client reads a v1 header as the server wrote it, at any offset. -/
theorem parse_of_v1 {b : Bytes} {o : ℕ} {h : HeaderV1} (e : sub b o 80 = h.serialize)
    (hv : h.version.toUInt32 &&& PrunedElectrs.versionHeaderV2Flag = 0) :
    parse b o = .ok (ofV1 h) := by
  have hflag : (ofV1 h).version &&& versionHeaderV2Flag = 0 := (and_flag_eq_zero_iff _).mpr hv
  rw [parse_eq, parseUnpatched_of_v1 e, java_ok_bind, if_neg (not_not.mpr hflag)]
  rfl

/-- The client reads a v2 header as the server wrote it, at any offset. -/
theorem parse_of_v2 {b : Bytes} {o : ℕ} {h : HeaderV2} (e : sub b o 164 = h.serialize)
    (hv : h.version &&& PrunedElectrs.versionHeaderV2Flag = 0) :
    parse b o = .ok (ofV2 h) := by
  have hcuts : cuts b o HeaderV2.widths = h.fields := cuts_of_sub h.map_length_fields rfl e
  simp only [cuts, HeaderV2.widths, HeaderV2.fields, List.cons.injEq, Nat.add_assoc,
    Nat.reduceAdd] at hcuts
  obtain ⟨e0, e4, e36, e68, e72, e76, -⟩ := hcuts
  have hflag : ¬ h.completeVersion.toNat &&& versionHeaderV2Flag = 0 := fun hzero =>
    h.completeVersion_and_flag ((and_flag_eq_zero_iff _).mp hzero)
  have hversion : h.completeVersion.toNat.ldiff versionHeaderV2Flag = h.version.toNat := by
    rw [← HeaderV2.completeVersion_of_clear hv]
    exact ldiff_topBit h.completeVersion
  have htime : (BlockHeaderV2.ofV2 h).getTime h.timeOnWire.toNat = h.time.toNat := time_toNat h
  simp only [parse, messageReadUint32_of_sub e0, java_ok_bind, messageReadHash_of_sub e4,
    Nat.add_assoc, Nat.reduceAdd, messageReadHash_of_sub e36, messageReadUint32_of_sub e68,
    messageReadUint32_of_sub e72, messageReadUint32_of_sub e76, hflag, ne_eq, not_false_iff,
    if_true, BlockHeaderV2.parse_of_v2 e, java_pure, Nat.add_sub_cancel_left, hversion, htime]
  rfl

/-- What is read lies in the payload. -/
theorem length_of_parseUnpatched {b : Bytes} {o : ℕ} {h : BlockHeader}
    (e : parseUnpatched b o = .ok h) : o + 80 ≤ b.length ∧ h.version = leNat (sub b o 4) := by
  rw [parseUnpatched] at e
  obtain ⟨p, h0, e⟩ := java_bind_eq_ok.mp e
  obtain ⟨rfl, -⟩ := of_messageReadUint32 h0
  obtain ⟨⟨prev, c⟩, h4, e⟩ := java_bind_eq_ok.mp e
  obtain ⟨rfl, -⟩ := of_messageReadHash h4
  obtain ⟨⟨root, c⟩, h36, e⟩ := java_bind_eq_ok.mp e
  obtain ⟨rfl, -⟩ := of_messageReadHash h36
  obtain ⟨p, h68, e⟩ := java_bind_eq_ok.mp e
  obtain ⟨rfl, -⟩ := of_messageReadUint32 h68
  obtain ⟨p, h72, e⟩ := java_bind_eq_ok.mp e
  obtain ⟨rfl, -⟩ := of_messageReadUint32 h72
  obtain ⟨p, h76, e⟩ := java_bind_eq_ok.mp e
  obtain ⟨rfl, hlen⟩ := of_messageReadUint32 h76
  obtain rfl := Except.ok.inj e
  exact ⟨hlen, rfl⟩

/-- The same, to the length the version field says. -/
theorem length_of_parse {b : Bytes} {o : ℕ} {h : BlockHeader} (e : parse b o = .ok h) :
    o + 80 ≤ b.length
      ∧ (leNat (sub b o 4) &&& versionHeaderV2Flag ≠ 0 → o + 164 ≤ b.length) := by
  rw [parse_eq] at e
  obtain ⟨x, hx, e⟩ := java_bind_eq_ok.mp e
  obtain ⟨hlen, hversion⟩ := length_of_parseUnpatched hx
  refine ⟨hlen, fun hv => ?_⟩
  rw [← hversion] at hv
  rw [if_pos hv] at e
  obtain ⟨v2, hv2, -⟩ := java_bind_eq_ok.mp e
  rw [BlockHeaderV2.parse] at hv2
  split_ifs at hv2 with hshort
  exact not_lt.mp hshort

/-! ### Writing -/

theorem getReversedBytes_reverse (a : Arr 32) :
    Sha256Hash.getReversedBytes a.reverse = a.toList := by
  rw [Sha256Hash.getReversedBytes, reverse_toList, List.reverse_reverse]

theorem bitcoinSerialize_ofV1 (h : HeaderV1) : (ofV1 h).bitcoinSerialize = h.serialize := by
  simp [bitcoinSerialize, ofV1, getCompleteVersion, getTimeOnWire, getReversedBytes_reverse,
    HeaderV1.serialize, HeaderV1.fields]

theorem bitcoinSerialize_ofV2 {h : HeaderV2}
    (hv : h.version &&& PrunedElectrs.versionHeaderV2Flag = 0) :
    (ofV2 h).bitcoinSerialize = h.serialize := by
  have htx := txcount_bytes h.txcount
  simp [bitcoinSerialize, ofV2, BlockHeaderV2.ofV2, getCompleteVersion, getTimeOnWire,
    getReversedBytes_reverse, BlockHeaderV2.serializeToStream, completeVersion_toNat hv,
    HeaderV2.serialize, HeaderV2.fields, ← htx]

end BlockHeader

/-! ### Hashing -/

namespace BlockHeaderV2

variable (H : Hashes)

theorem write_toList {n : ℕ} (a : Arr n) : write a.toList n = .ok a.toList := by
  rw [write, if_pos (by rw [a.toList_length]), List.take_of_length_le (by rw [a.toList_length])]

theorem write_tagged (tag : String) (payload : Bytes) :
    write (tagged H tag payload) 32 = .ok (PrunedElectrs.tagged H tag payload).toList :=
  write_toList _

/-- The shifted byte of `computeMask`. -/
theorem maskByte (c : UInt8) : UInt8.ofNat (0xff >>> (c.toNat % 8)) = 0xff >>> (c % 8) := by
  have hc : c.toNat % 8 < 8 := Nat.mod_lt _ (by decide)
  have hshift : (0xff : UInt8).toNat >>> (c.toNat % 8) < 256 := by
    rw [Nat.shiftRight_eq_div_pow]
    exact (Nat.div_le_self _ _).trans_lt (by decide)
  rw [← UInt8.toNat_inj, UInt8.toNat_ofNat', UInt8.toNat_shiftRight, UInt8.toNat_mod,
    show (8 : UInt8).toNat = 8 from rfl, Nat.mod_mod, Nat.mod_eq_of_lt (by exact hshift)]
  rfl

theorem computeMask_ofV2 (h : HeaderV2) :
    (ofV2 h).computeMask H = .ok (h.mask H).toList := by
  have hzero : (!isAllZero h.xorKey.toList) = h.xorKey.toList.any (· != 0) := by
    rw [isAllZero, List.not_all_eq_any_not]
    rfl
  rw [computeMask, HeaderV2.mask, show (ofV2 h).xorKey = h.xorKey.toList from rfl, hzero]
  split_ifs with hkey
  · simp only [show (ofV2 h).xorKeyMaskClearBits = h.xorKeyMaskClearBits.toNat from rfl, maskByte]
    exact zeroFirst_modify (i := ⟨_, clearBytes_lt h.xorKeyMaskClearBits⟩) _
      (PrunedElectrs.tagged H "Bitcoin block hash PoW XOR mask" h.xorKey.toList)
      (UInt8.toNat_div _ _) _
  · rfl

theorem computeAsic_ofV2 (h : HeaderV2) (h2 blake1 : Arr 32) :
    (ofV2 h).computeAsic H h.prevSane.toList h2.toList blake1.toList h.nonce.toNat
      = .ok (h.asicInput (PrunedElectrs.tagged H "Bitcoin prevblock header, hashed"
          h.prevSane.toList) h2 blake1) := by
  have hprofile : ∀ p : UInt8, (ofV2 h).getAsicProfile = p.toNat ↔ h.asicProfile = p :=
    profile_eq_iff h.flags
  have hprev : zeroFirst JavaException.indexOutOfBounds
      (tagged H "Bitcoin prevblock header, hashed" h.prevSane.toList) 6
        = .ok (Arr.zeroTake (PrunedElectrs.tagged H "Bitcoin prevblock header, hashed"
            h.prevSane.toList) 6).toList :=
    zeroFirst_eq _ (by rw [tagged, List.Vector.toList_length]; decide)
  rw [computeAsic, HeaderV2.asicInput]
  simp only [show (0 : ℕ) = (0 : UInt8).toNat from rfl, show (1 : ℕ) = (1 : UInt8).toNat from rfl,
    show (3 : ℕ) = (3 : UInt8).toNat from rfl, hprofile]
  split_ifs with h0 h1 h3 <;>
    simp only [hprev, write_toList, java_ok_bind, java_pure, ofV2, uint32ToByteStreamLE_toNat]

/-- **Drongo computes the server's v2 hash.** -/
theorem computeHashDisplayOrder_ofV2 (h : HeaderV2) :
    (ofV2 h).computeHashDisplayOrder H h.completeVersion.toNat h.prevSane.toList
        h.merkleRoot.toList h.timeOnWire.toNat h.bits.toNat h.nonce.toNat
      = .ok (h.stages H).blockHash.toList := by
  have htx : uint32ToByteStreamLE h.txcount.toNat = u32le h.txcount.toUInt32 := by
    rw [← UInt16.toNat_toUInt32, uint32ToByteStreamLE_toNat]
  have hzero : uint32ToByteStreamLE 0 = u32le 0 := uint32ToByteStreamLE_toNat 0
  have hxor : ∀ a b : Arr 32, xorFirst JavaException.indexOutOfBounds a.toList b.toList 32
      = .ok (Arr.xor a b).toList := fun a b => by
    rw [xorFirst_eq _ a.toList_length b.toList_length, toList_xor]
  rw [computeHashDisplayOrder, computeMask_ofV2]
  simp only [java_ok_bind, write_toList, write_tagged, ofV2, uint32ToByteStreamLE_toNat, htx,
    hzero, UInt8.ofNat_toNat]
  show ((ofV2 h).computeAsic H h.prevSane.toList (h.stages H).h2.toList
      (h.stages H).blake2b1.toList h.nonce.toNat
    >>= fun asic => xorFirst _ (H.blake2b256 asic).toList (h.mask H).toList 32) = _
  rw [computeAsic_ofV2, java_ok_bind, hxor]
  rfl

end BlockHeaderV2

namespace BlockHeader

variable (H : Hashes)

theorem getHash_ofV1 (h : HeaderV1) :
    (ofV1 h).getHash H = .ok (h.blockHash H).reverse := by
  rw [getHash, show (ofV1 h).v2 = none from rfl]
  simp only [bitcoinSerialize_ofV1]
  exact Sha256Hash.wrapReversed_toList _

theorem getHash_ofV2 {h : HeaderV2}
    (hv : h.version &&& PrunedElectrs.versionHeaderV2Flag = 0) :
    (ofV2 h).getHash H = .ok (h.blockHash H).reverse := by
  have hprev : Sha256Hash.getBytes (ofV2 h).prevBlockHash = h.prevSane.toList := rfl
  have hmerkle : Sha256Hash.getReversedBytes (ofV2 h).merkleRoot = h.merkleRoot.toList :=
    getReversedBytes_reverse _
  have hcomplete : (ofV2 h).getCompleteVersion = h.completeVersion.toNat :=
    completeVersion_toNat hv
  rw [getHash, show (ofV2 h).v2 = some (BlockHeaderV2.ofV2 h) from rfl]
  simp only [hprev, hmerkle, hcomplete]
  rw [show (ofV2 h).getTimeOnWire = h.timeOnWire.toNat from rfl,
    show (ofV2 h).difficultyTarget = h.bits.toNat from rfl,
    show (ofV2 h).nonce = h.nonce.toNat from rfl,
    BlockHeaderV2.computeHashDisplayOrder_ofV2, java_ok_bind, Sha256Hash.wrap_toList,
    HeaderV2.blockHash,
    reverse_reverse]

/-! ### Headers of either format -/

/-- The client's view of a header. -/
def ofAny : AnyHeader → BlockHeader
  | .v1 h => ofV1 h
  | .v2 h => ofV2 h

theorem parse_of_any {h : AnyHeader} (hs : h.Streamable) {b : Bytes} {o : ℕ}
    (e : sub b o h.size = h.serialize) : parse b o = .ok (ofAny h) := by
  cases h with
  | v1 h => exact parse_of_v1 e hs
  | v2 h => exact parse_of_v2 e hs

theorem bitcoinSerialize_ofAny {h : AnyHeader} (hs : h.Streamable) :
    (ofAny h).bitcoinSerialize = h.serialize := by
  cases h with
  | v1 h => exact bitcoinSerialize_ofV1 h
  | v2 h => exact bitcoinSerialize_ofV2 hs

theorem getHash_ofAny {h : AnyHeader} (hs : h.Streamable) :
    (ofAny h).getHash H = .ok (h.blockHash H).reverse := by
  cases h with
  | v1 h => exact getHash_ofV1 H h
  | v2 h => exact getHash_ofV2 H hs

end BlockHeader

end Drongo

end PrunedElectrs
