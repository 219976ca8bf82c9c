/-
PrunedElectrs/HeaderV2.lean

The two header formats, field by field.

A v1 header is 80 bytes, a v2 header 164.  Both are records of fixed-width
fields, read by slices at hand-written offsets as in the source.  The lemmas
`fields_read` and `read_of_fields` compare those offsets once with the field
widths; the round trips in either direction then come from
`Wire.flatten_cuts` and `Wire.cuts_flatten`:

* `HeaderV1.deserialize_eq_ok_iff` and `HeaderV2.parse_eq_ok_iff` say that a
  parser accepts exactly the serializations, and which header it returns.

A v2 header carries bit 31 in its version field.  It is stripped on parsing
and put back on serializing, so a `HeaderV2` value with that bit set in
`version` is serialized but never comes out of the parser.
-/
import PrunedElectrs.Rust

namespace PrunedElectrs

open Wire

/-- Bit 31 of the version field. -/
def versionHeaderV2Flag : UInt32 := 0x80000000

/-- Bytes of a v1 header. -/
def headerV1Size : ℕ := 80

/-- Bytes of a v2 header. -/
def headerV2Size : ℕ := 164

/-- Bit 2 of the flags: the miner rolls `nTime` via the time offset. -/
def flagUseTimeOffset : UInt8 := 0x04

/-- Size of the header beginning at `bytes`, from its version field alone. -/
def headerSize (bytes : Bytes) : Rust ℕ := do
  ensure (bytes.length ≥ 4) "need 4 bytes to read the version field"
  let version ← u32At bytes 0
  return if version &&& versionHeaderV2Flag ≠ 0 then headerV2Size else headerV1Size

/-- A block hash in internal (wire) byte order. -/
abbrev BlockHash := Arr 32

/-- Consensus decoding of a 32-byte hash. -/
def deserializeHash (b : Bytes) : Rust (Arr 32) :=
  if h : b.length = 32 then .ok ⟨b, h⟩ else bail "data not consumed entirely"

/-! ### The 80-byte header -/

/-- A header of the 80-byte format. -/
structure HeaderV1 where
  version : Int32
  prevBlockhash : BlockHash
  merkleRoot : Arr 32
  time : UInt32
  bits : UInt32
  nonce : UInt32
deriving DecidableEq

namespace HeaderV1

/-- The fields as they are serialized, in order. -/
def fields (h : HeaderV1) : List Bytes :=
  [u32le h.version.toUInt32, h.prevBlockhash.toList, h.merkleRoot.toList, u32le h.time,
    u32le h.bits, u32le h.nonce]

/-- Consensus encoding. -/
def serialize (h : HeaderV1) : Bytes := h.fields.flatten

/-- The widths of the fields. -/
def widths : List ℕ := [4, 32, 32, 4, 4, 4]

/-- The header read off 80 bytes. -/
def read (b : Bytes) (hb : b.length = headerV1Size) : HeaderV1 where
  version := (u32of (sub b 0 4)).toInt32
  prevBlockhash := arr b 4 32 (by rw [hb]; decide)
  merkleRoot := arr b 36 32 (by rw [hb]; decide)
  time := u32of (sub b 68 4)
  bits := u32of (sub b 72 4)
  nonce := u32of (sub b 76 4)

/-- Consensus decoding of a whole byte string. -/
def deserialize (b : Bytes) : Rust HeaderV1 :=
  if h : b.length = headerV1Size then .ok (read b h)
  else if b.length < headerV1Size then bail "failed to fill whole buffer"
  else bail "data not consumed entirely when explicitly deserializing"

theorem map_length_fields (h : HeaderV1) : h.fields.map List.length = widths := by
  simp [fields, widths]

theorem length_serialize (h : HeaderV1) : h.serialize.length = headerV1Size := by
  rw [serialize, List.length_flatten, map_length_fields]
  rfl

theorem fields_read {b : Bytes} (hb : b.length = headerV1Size) :
    (read b hb).fields = cuts b 0 widths := by
  have hlen : ∀ i, i + 4 ≤ 80 → (sub b i 4).length = 4 := fun i hi =>
    length_sub (hb ▸ hi)
  simp [fields, read, cuts, widths, u32le_u32of, hlen]

theorem read_of_fields {b : Bytes} (hb : b.length = headerV1Size) {h : HeaderV1}
    (e : cuts b 0 widths = h.fields) : read b hb = h := by
  simp only [cuts, widths, fields, List.cons.injEq, Nat.reduceAdd] at e
  obtain ⟨e0, e4, e36, e68, e72, e76, -⟩ := e
  rcases h with ⟨v, p, m, t, bi, n⟩
  simp only [read, HeaderV1.mk.injEq, e0, e68, e72, e76, u32of_u32le]
  exact ⟨rfl, arr_eq e4, arr_eq e36, trivial, trivial, trivial⟩

theorem serialize_read {b : Bytes} (hb : b.length = headerV1Size) :
    (read b hb).serialize = b := by
  rw [serialize, fields_read, flatten_cuts, sub_all]
  exact hb

theorem read_serialize (h : HeaderV1) (hb : h.serialize.length = headerV1Size) :
    read h.serialize hb = h := by
  apply read_of_fields
  rw [serialize, ← map_length_fields h, cuts_flatten]

theorem deserialize_eq {b : Bytes} (hb : b.length = headerV1Size) :
    deserialize b = .ok (read b hb) := dif_pos hb

/-- Decoding inverts encoding, and accepts nothing else. -/
theorem deserialize_eq_ok_iff {b : Bytes} {h : HeaderV1} :
    deserialize b = .ok h ↔ b = h.serialize := by
  constructor
  · intro e
    rw [deserialize] at e
    split_ifs at e with hb
    · cases e
      exact (serialize_read hb).symm
    · cases e
    · cases e
  · rintro rfl
    rw [deserialize_eq h.length_serialize, read_serialize]

end HeaderV1

/-! ### The 164-byte header -/

/-- A BLAKE2b header, in wire field order. -/
structure HeaderV2 where
  /-- Without the v2 flag; `completeVersion` puts it back. -/
  version : UInt32
  prevBlockhash : BlockHash
  merkleRoot : Arr 32
  timeOnWire : UInt32
  bits : UInt32
  nonce : UInt32
  nonce2 : UInt32
  nonce3 : UInt32
  extranonce : Arr 16
  timeOffset : UInt32
  txcount : UInt16
  flags : UInt8
  xorKeyMaskClearBits : UInt8
  xorKey : Arr 16
  height : UInt32
  mmRhs : Arr 32
deriving DecidableEq

namespace HeaderV2

/-- The version field as it is serialized, with the flag. -/
def completeVersion (h : HeaderV2) : UInt32 :=
  (h.version &&& ~~~versionHeaderV2Flag) ||| versionHeaderV2Flag

/-- The time of the block: that on the wire, with the offset where it is used. -/
def time (h : HeaderV2) : UInt32 :=
  if h.flags &&& flagUseTimeOffset ≠ 0 then h.timeOnWire + h.timeOffset else h.timeOnWire

/-- The layout that the final stage hashes. -/
def asicProfile (h : HeaderV2) : UInt8 := h.flags &&& 3

/-- Parse a header of exactly 164 bytes. -/
def parse (b : Bytes) : Rust HeaderV2 := do
  ensure (b.length = headerV2Size) s!"v2 header is {headerV2Size} bytes, got {b.length}"
  let version ← u32At b 0
  ensure (version &&& versionHeaderV2Flag ≠ 0)
    "not a v2 header: bit 31 of the version field is clear"
  let prevBlockhash ← deserializeHash (← slice b 4 36)
  let merkleRoot ← deserializeHash (← slice b 36 68)
  let timeOnWire ← u32At b 68
  let bits ← u32At b 72
  let nonce ← u32At b 76
  let nonce2 ← u32At b 80
  let nonce3 ← u32At b 84
  let extranonce ← arrayAt b 88 16
  let timeOffset ← u32At b 104
  let txcount ← u16At b 108
  let flags ← elemAt b 110
  let xorKeyMaskClearBits ← elemAt b 111
  let xorKey ← arrayAt b 112 16
  let height ← u32At b 128
  let mmRhs ← arrayAt b 132 32
  return { version := version &&& ~~~versionHeaderV2Flag
           prevBlockhash, merkleRoot, timeOnWire, bits, nonce, nonce2, nonce3, extranonce
           timeOffset, txcount, flags, xorKeyMaskClearBits, xorKey, height, mmRhs }

/-- The fields as they are serialized, in order. -/
def fields (h : HeaderV2) : List Bytes :=
  [u32le h.completeVersion, h.prevBlockhash.toList, h.merkleRoot.toList, u32le h.timeOnWire,
    u32le h.bits, u32le h.nonce, u32le h.nonce2, u32le h.nonce3, h.extranonce.toList,
    u32le h.timeOffset, u16le h.txcount, [h.flags], [h.xorKeyMaskClearBits], h.xorKey.toList,
    u32le h.height, h.mmRhs.toList]

/-- The wire encoding. -/
def serialize (h : HeaderV2) : Bytes := h.fields.flatten

/-- The widths of the fields. -/
def widths : List ℕ := [4, 32, 32, 4, 4, 4, 4, 4, 16, 4, 2, 1, 1, 16, 4, 32]

/-- The header read off 164 bytes, whatever their version field says. -/
def read (b : Bytes) (hb : b.length = headerV2Size) : HeaderV2 where
  version := u32of (sub b 0 4) &&& ~~~versionHeaderV2Flag
  prevBlockhash := arr b 4 32 (by rw [hb]; decide)
  merkleRoot := arr b 36 32 (by rw [hb]; decide)
  timeOnWire := u32of (sub b 68 4)
  bits := u32of (sub b 72 4)
  nonce := u32of (sub b 76 4)
  nonce2 := u32of (sub b 80 4)
  nonce3 := u32of (sub b 84 4)
  extranonce := arr b 88 16 (by rw [hb]; decide)
  timeOffset := u32of (sub b 104 4)
  txcount := u16of (sub b 108 2)
  flags := b.get ⟨110, by rw [hb]; decide⟩
  xorKeyMaskClearBits := b.get ⟨111, by rw [hb]; decide⟩
  xorKey := arr b 112 16 (by rw [hb]; decide)
  height := u32of (sub b 128 4)
  mmRhs := arr b 132 32 (by rw [hb]; decide)

theorem completeVersion_of_clear {h : HeaderV2} (hv : h.version &&& versionHeaderV2Flag = 0) :
    h.completeVersion &&& ~~~versionHeaderV2Flag = h.version := by
  have hlt : h.version.toNat < 2 ^ 31 := (and_topBit_eq_zero_iff _).mp hv
  have hmask : h.version &&& ~~~versionHeaderV2Flag = h.version := and_not_topBit_of_lt hlt
  have hset : (h.version ||| versionHeaderV2Flag).toNat = h.version.toNat + 2 ^ 31 :=
    toNat_or_topBit hlt
  have hclear := toNat_and_not_topBit (h.version ||| versionHeaderV2Flag)
  rw [completeVersion, hmask, ← UInt32.toNat_inj]
  refine hclear.trans ?_
  rw [hset]
  omega

theorem completeVersion_and_flag (h : HeaderV2) :
    h.completeVersion &&& versionHeaderV2Flag ≠ 0 := by
  have hlow : (h.version &&& ~~~versionHeaderV2Flag).toNat < 2 ^ 31 := by
    refine (toNat_and_not_topBit h.version).trans_lt ?_
    omega
  have hset : h.completeVersion.toNat = (h.version &&& ~~~versionHeaderV2Flag).toNat + 2 ^ 31 :=
    toNat_or_topBit hlow
  intro hzero
  have := (and_topBit_eq_zero_iff _).mp hzero
  omega

theorem map_length_fields (h : HeaderV2) : h.fields.map List.length = widths := by
  simp [fields, widths]

theorem length_serialize (h : HeaderV2) : h.serialize.length = headerV2Size := by
  rw [serialize, List.length_flatten, map_length_fields]
  rfl

theorem fields_read {b : Bytes} (hb : b.length = headerV2Size)
    (hv : u32of (sub b 0 4) &&& versionHeaderV2Flag ≠ 0) :
    (read b hb).fields = cuts b 0 widths := by
  have hlen4 : ∀ i, i + 4 ≤ 164 → (sub b i 4).length = 4 := fun i hi =>
    length_sub (hb ▸ hi)
  have hlen2 : (sub b 108 2).length = 2 := length_sub (by rw [hb]; decide)
  have hver : (read b hb).completeVersion = u32of (sub b 0 4) := by
    have hidem : (u32of (sub b 0 4) &&& ~~~versionHeaderV2Flag) &&& ~~~versionHeaderV2Flag
        = u32of (sub b 0 4) &&& ~~~versionHeaderV2Flag := by
      rw [UInt32.and_assoc, UInt32.and_self]
    rw [completeVersion, read, hidem]
    exact or_topBit_and_not_topBit hv
  have h110 : 110 < b.length := by rw [hb]; decide
  have h111 : 111 < b.length := by rw [hb]; decide
  have hflags : [b[110]] = sub b 110 1 := (sub_one h110).symm
  have hclear : [b[111]] = sub b 111 1 := (sub_one h111).symm
  simp only [fields, hver]
  simp [read, cuts, widths, u32le_u32of, u16le_u16of, hlen4, hlen2, hflags, hclear]

theorem read_of_fields {b : Bytes} (hb : b.length = headerV2Size) {h : HeaderV2}
    (hv : h.version &&& versionHeaderV2Flag = 0) (e : cuts b 0 widths = h.fields) :
    read b hb = h := by
  simp only [cuts, widths, fields, List.cons.injEq, Nat.reduceAdd] at e
  obtain ⟨e0, e4, e36, e68, e72, e76, e80, e84, e88, e104, e108, e110, e111, e112, e128, e132,
    -⟩ := e
  rw [sub_one (by rw [hb]; decide), List.cons.injEq] at e110 e111
  have hversion := completeVersion_of_clear hv
  rcases h with ⟨v, p, m, t, bi, n, n2, n3, x, o, c, f, k, xk, he, r⟩
  simp only [read, HeaderV2.mk.injEq, List.get_eq_getElem, e0, e68, e72, e76, e80, e84, e104,
    e108, e110.1, e111.1, e128, u32of_u32le, u16of_u16le]
  exact ⟨hversion, arr_eq e4, arr_eq e36, trivial, trivial, trivial, trivial, trivial,
    arr_eq e88, trivial, trivial, trivial, trivial, arr_eq e112, trivial, arr_eq e132⟩

theorem parse_eq {b : Bytes} (hb : b.length = headerV2Size)
    (hv : u32of (sub b 0 4) &&& versionHeaderV2Flag ≠ 0) : parse b = .ok (read b hb) := by
  have hlen : b.length = 164 := hb
  have h32 : ∀ i, i + 32 ≤ 164 → (sub b i 32).length = 32 := fun i hi =>
    length_sub (hb ▸ hi)
  simp (disch := omega) only [parse, ensure_of hb, u32At_eq, u16At_eq, arrayAt_eq, elemAt_eq,
    slice_eq, ok_bind, ensure_of hv, deserializeHash, Nat.reduceSub, h32]
  rfl

theorem serialize_read {b : Bytes} (hb : b.length = headerV2Size)
    (hv : u32of (sub b 0 4) &&& versionHeaderV2Flag ≠ 0) : (read b hb).serialize = b := by
  rw [serialize, fields_read hb hv, flatten_cuts, sub_all]
  exact hb

theorem read_serialize {h : HeaderV2} (hv : h.version &&& versionHeaderV2Flag = 0)
    (hb : h.serialize.length = headerV2Size) : read h.serialize hb = h := by
  apply read_of_fields hb hv
  rw [serialize, ← map_length_fields h, cuts_flatten]

theorem version_read_clear {b : Bytes} (hb : b.length = headerV2Size) :
    (read b hb).version &&& versionHeaderV2Flag = 0 := by
  rw [read, UInt32.and_assoc, show ~~~versionHeaderV2Flag &&& versionHeaderV2Flag = 0 from rfl,
    UInt32.and_zero]

theorem sub_serialize_version (h : HeaderV2) : sub h.serialize 0 4 = u32le h.completeVersion := by
  rw [serialize, fields, List.flatten_cons, sub_append_left (by simp), sub_all (by simp)]

/-- Decoding inverts encoding of headers whose version field leaves the flag
bit clear, and accepts nothing else. -/
theorem parse_eq_ok_iff {b : Bytes} {h : HeaderV2} :
    parse b = .ok h ↔ h.version &&& versionHeaderV2Flag = 0 ∧ b = h.serialize := by
  constructor
  · intro e
    by_cases hb : b.length = headerV2Size
    · by_cases hv : u32of (sub b 0 4) &&& versionHeaderV2Flag ≠ 0
      · rw [parse_eq hb hv] at e
        cases e
        exact ⟨version_read_clear hb, (serialize_read hb hv).symm⟩
      · have hlen : 0 + 4 ≤ b.length := by rw [hb]; decide
        rw [parse, ensure_of hb, ok_bind, u32At_eq hlen, ok_bind, ensure_of_not hv] at e
        cases e
    · rw [parse, ensure_of_not hb] at e
      cases e
  · rintro ⟨hv, rfl⟩
    have hflag : u32of (sub h.serialize 0 4) &&& versionHeaderV2Flag ≠ 0 := by
      rw [sub_serialize_version, u32of_u32le]
      exact h.completeVersion_and_flag
    rw [parse_eq h.length_serialize hflag, read_serialize hv]

theorem returns_parse (b : Bytes) : Returns (parse b) := by
  by_cases hb : b.length = headerV2Size
  · by_cases hv : u32of (sub b 0 4) &&& versionHeaderV2Flag ≠ 0
    · rw [parse_eq hb hv]
      exact returns_ok _
    · have hlen : 0 + 4 ≤ b.length := by rw [hb]; decide
      rw [parse, ensure_of hb, ok_bind, u32At_eq hlen, ok_bind, ensure_of_not hv]
      exact returns_bail _
  · rw [parse, ensure_of_not hb]
    exact returns_bail _

end HeaderV2

end PrunedElectrs
