/-
PrunedElectrs/AnyHeader.lean

A header of either format, and the codec for a stream that mixes them.

On the wire bit 31 of the version field, in the first four bytes, says which
format follows (`headerSize`), and that is what lets a stream of both be walked
without any framing (`parseAll`).  In the database the length of the row
decides instead (`parseExact`), so a v1 header may have bit 31 set there.

The stream is the `Wire.PrefixCode` whose words are the serialized headers
(`headerCode`).  `parseAllFrom_spec` identifies the source's loop with the walk
of that code, errors included, and the exactness of the stream codec
(`parseAll_codec`) is the exactness of the walk.
-/
import PrunedElectrs.HeaderV2
import PrunedElectrs.Lib.Hex
import PrunedElectrs.Lib.PrefixCode

namespace PrunedElectrs

open Wire

/-- A block hash as it is displayed. -/
def displayHash (hash : BlockHash) : String := String.ofList (toHex hash.reverse.toList)

/-- A header of either version. -/
inductive AnyHeader where
  | v1 (h : HeaderV1)
  | v2 (h : HeaderV2)
deriving DecidableEq

namespace AnyHeader

/-- Parse the header at the front of `bytes`, ignoring what follows it. -/
def parse (bytes : Bytes) : Rust AnyHeader := do
  let n ← headerSize bytes
  if n = headerV1Size then
    ensure (bytes.length ≥ headerV1Size) s!"v1 header truncated: {bytes.length} bytes"
    let h ← HeaderV1.deserialize (← slice bytes 0 headerV1Size)
    return .v1 h
  else if n = headerV2Size then
    ensure (bytes.length ≥ headerV2Size) s!"v2 header truncated: {bytes.length} bytes"
    let h ← HeaderV2.parse (← slice bytes 0 headerV2Size)
    return .v2 h
  else bail s!"impossible header size {n}"

/-- Parse a header of exactly `bytes.length`, deciding by length rather than by
the version field. -/
def parseExact (bytes : Bytes) : Rust AnyHeader :=
  if bytes.length = headerV1Size then do
    let h ← HeaderV1.deserialize bytes
    return .v1 h
  else if bytes.length = headerV2Size then do
    let h ← HeaderV2.parse bytes
    return .v2 h
  else bail s!"not a header: {bytes.length} bytes"

/-- The wire encoding. -/
def serialize : AnyHeader → Bytes
  | v1 h => h.serialize
  | v2 h => h.serialize

/-- Lowercase hex of the wire encoding, which is how the Electrum protocol
carries a header. -/
def serializeHex (h : AnyHeader) : List Char := toHex h.serialize

/-- The hash of the block below. -/
def prevBlockhash : AnyHeader → BlockHash
  | v1 h => h.prevBlockhash
  | v2 h => h.prevBlockhash

/-- The root of the transactions. -/
def merkleRoot : AnyHeader → Arr 32
  | v1 h => h.merkleRoot
  | v2 h => h.merkleRoot

/-- The time of the block, which a v2 header may offset. -/
def time : AnyHeader → UInt32
  | v1 h => h.time
  | v2 h => h.time

/-- Is this a header of the 164-byte format? -/
def isV2 : AnyHeader → Bool
  | v1 _ => false
  | v2 _ => true

/-- The length of the wire encoding. -/
def size (h : AnyHeader) : ℕ := if h.isV2 then headerV2Size else headerV1Size

/-- The headers a stream can carry: those whose version field, as the struct
holds it, leaves bit 31 to the format flag. -/
def Streamable : AnyHeader → Prop
  | v1 h => h.version.toUInt32 &&& versionHeaderV2Flag = 0
  | v2 h => h.version &&& versionHeaderV2Flag = 0

instance : DecidablePred Streamable
  | v1 _ => inferInstanceAs (Decidable (_ = _))
  | v2 _ => inferInstanceAs (Decidable (_ = _))

@[simp] theorem size_v1 (h : HeaderV1) : (v1 h).size = 80 := rfl

@[simp] theorem size_v2 (h : HeaderV2) : (v2 h).size = 164 := rfl

theorem length_serialize (h : AnyHeader) : h.serialize.length = h.size := by
  cases h with
  | v1 h => exact h.length_serialize
  | v2 h => exact h.length_serialize

theorem four_le_size (h : AnyHeader) : 4 ≤ h.size := by
  cases h <;> simp

theorem serialize_ne_nil (h : AnyHeader) : h.serialize ≠ [] := by
  intro e
  have hlen := h.length_serialize
  have := h.four_le_size
  rw [e, List.length_nil] at hlen
  omega

end AnyHeader

/-! ### The size announced by the first four bytes -/

theorem headerSize_eq {b : Bytes} (hb : 4 ≤ b.length) :
    headerSize b = .ok (if u32of (sub b 0 4) &&& versionHeaderV2Flag ≠ 0
      then headerV2Size else headerV1Size) := by
  have hlen : 0 + 4 ≤ b.length := by omega
  rw [headerSize, ensure_of hb, ok_bind, u32At_eq hlen]
  rfl

theorem headerSize_of_short {b : Bytes} (hb : ¬ 4 ≤ b.length) :
    headerSize b = bail "need 4 bytes to read the version field" := by
  rw [headerSize, ensure_of_not hb]
  rfl

theorem headerSize_of_clear {b : Bytes} (hb : 4 ≤ b.length)
    (hv : u32of (sub b 0 4) &&& versionHeaderV2Flag = 0) :
    headerSize b = .ok headerV1Size := by
  rw [headerSize_eq hb, if_neg (not_not.mpr hv)]

theorem headerSize_of_set {b : Bytes} (hb : 4 ≤ b.length)
    (hv : u32of (sub b 0 4) &&& versionHeaderV2Flag ≠ 0) :
    headerSize b = .ok headerV2Size := by
  rw [headerSize_eq hb, if_pos hv]

theorem headerSize_cases {b : Bytes} {n : ℕ} (h : headerSize b = .ok n) :
    4 ≤ b.length ∧ (n = headerV1Size ∨ n = headerV2Size) := by
  by_cases hb : 4 ≤ b.length
  · refine ⟨hb, ?_⟩
    rw [headerSize_eq hb] at h
    cases h
    split_ifs <;> simp
  · rw [headerSize_of_short hb] at h
    cases h

theorem headerSize_pos {b : Bytes} {n : ℕ} (h : headerSize b = .ok n) : 0 < n := by
  rcases (headerSize_cases h).2 with rfl | rfl <;> decide

theorem returns_headerSize (b : Bytes) : Returns (headerSize b) := by
  by_cases hb : 4 ≤ b.length
  · rw [headerSize_eq hb]
    exact returns_ok _
  · rw [headerSize_of_short hb]
    exact returns_bail _

theorem slice_length_lt {b rest : Bytes} {n : ℕ} (hn : 0 < n) (hb : n ≤ b.length)
    (h : slice b n b.length = .ok rest) : rest.length < b.length := by
  rw [slice_eq hb (Nat.le_refl _)] at h
  cases h
  rw [length_sub (by omega)]
  omega

namespace AnyHeader

/-- The loop of `parseAll`: `out` are the headers found so far. -/
def parseAllFrom (out : List AnyHeader) (bytes : Bytes) : Rust (List AnyHeader) :=
  if bytes.isEmpty then .ok out
  else
    match _hn : headerSize bytes with
    | .error e => .error e
    | .ok n =>
        if _hlen : bytes.length ≥ n then do
          let h ← parse (← slice bytes 0 n)
          match _hrest : slice bytes n bytes.length with
          | .error e => .error e
          | .ok rest => parseAllFrom (out ++ [h]) rest
        else bail s!"trailing {bytes.length} bytes, need {n} for the next header"
termination_by bytes.length
decreasing_by exact slice_length_lt (headerSize_pos _hn) _hlen _hrest

/-- Walk a concatenated run of headers of mixed version. -/
def parseAll (bytes : Bytes) : Rust (List AnyHeader) := parseAllFrom [] bytes

/-! ### One header at the front of a string -/

theorem parse_of_clear {b : Bytes} (hb : headerV1Size ≤ b.length)
    (hv : u32of (sub b 0 4) &&& versionHeaderV2Flag = 0) :
    parse b = (HeaderV1.deserialize (sub b 0 headerV1Size)).map v1 := by
  have hfour : 4 ≤ b.length := by
    have : headerV1Size = 80 := rfl
    omega
  rw [parse, headerSize_of_clear hfour hv, ok_bind, if_pos rfl, ensure_of hb, ok_bind,
    slice_eq (Nat.zero_le _) hb, ok_bind, Nat.sub_zero]
  rcases HeaderV1.deserialize (sub b 0 headerV1Size) with e | h <;> rfl

theorem parse_of_set {b : Bytes} (hb : headerV2Size ≤ b.length)
    (hv : u32of (sub b 0 4) &&& versionHeaderV2Flag ≠ 0) :
    parse b = (HeaderV2.parse (sub b 0 headerV2Size)).map v2 := by
  have hfour : 4 ≤ b.length := by
    have : headerV2Size = 164 := rfl
    omega
  rw [parse, headerSize_of_set hfour hv, ok_bind, if_neg (by decide), if_pos rfl,
    ensure_of hb, ok_bind, slice_eq (Nat.zero_le _) hb, ok_bind, Nat.sub_zero]
  rcases HeaderV2.parse (sub b 0 headerV2Size) with e | h <;> rfl

/-- A string too short for the header it announces is refused. -/
theorem parse_of_short {b : Bytes} (hb : ∀ n, headerSize b = .ok n → b.length < n) :
    ∃ chain, parse b = .error (.err chain) := by
  by_cases hfour : 4 ≤ b.length
  · by_cases hv : u32of (sub b 0 4) &&& versionHeaderV2Flag = 0
    · have hsize := headerSize_of_clear hfour hv
      rw [parse, hsize, ok_bind, if_pos rfl, ensure_of_not (Nat.not_le.mpr (hb _ hsize))]
      exact ⟨_, rfl⟩
    · have hsize := headerSize_of_set hfour hv
      rw [parse, hsize, ok_bind, if_neg (by decide), if_pos rfl,
        ensure_of_not (Nat.not_le.mpr (hb _ hsize))]
      exact ⟨_, rfl⟩
  · rw [parse, headerSize_of_short hfour]
    exact ⟨_, rfl⟩

theorem sub_serialize_v1 (h : HeaderV1) :
    sub h.serialize 0 4 = u32le h.version.toUInt32 := by
  rw [HeaderV1.serialize, HeaderV1.fields, List.flatten_cons, sub_append_left (by simp),
    sub_all (by simp)]

/-- The version word a stream sees at the front of a v1 header. -/
theorem version_of_v1 {b : Bytes} {h : HeaderV1} (e : sub b 0 headerV1Size = h.serialize) :
    u32of (sub b 0 4) = h.version.toUInt32 := by
  have hfront : sub (sub b 0 headerV1Size) 0 4 = sub b (0 + 0) 4 := sub_of_sub (by decide)
  rw [e, sub_serialize_v1] at hfront
  rw [← u32of_u32le h.version.toUInt32, hfront]

theorem version_of_v2 {b : Bytes} {h : HeaderV2} (e : sub b 0 headerV2Size = h.serialize) :
    u32of (sub b 0 4) &&& versionHeaderV2Flag ≠ 0 := by
  have hfront : sub (sub b 0 headerV2Size) 0 4 = sub b (0 + 0) 4 := sub_of_sub (by decide)
  rw [e, HeaderV2.sub_serialize_version] at hfront
  rw [← Nat.add_zero 0, ← hfront, u32of_u32le]
  exact h.completeVersion_and_flag

theorem length_of_sub_eq {b : Bytes} {h : AnyHeader} (e : sub b 0 h.size = h.serialize) :
    h.size ≤ b.length := by
  have hlen := h.length_serialize
  rw [← e, sub, List.length_take, List.length_drop] at hlen
  omega

/-- **One header at the front**: `parse` finds exactly the streamable header
whose serialization the string starts with. -/
theorem parse_eq_ok_iff {b : Bytes} {h : AnyHeader} :
    parse b = .ok h ↔ h.Streamable ∧ sub b 0 h.size = h.serialize := by
  constructor
  · intro e
    -- too short for the header it announces, or an announced header to look at
    by_cases hshort : ∀ n, headerSize b = .ok n → b.length < n
    · obtain ⟨chain, herr⟩ := parse_of_short hshort
      rw [herr] at e
      cases e
    push Not at hshort
    obtain ⟨n, hn, hlen⟩ := hshort
    have hfour := (headerSize_cases hn).1
    by_cases hv : u32of (sub b 0 4) &&& versionHeaderV2Flag = 0
    · rw [headerSize_of_clear hfour hv] at hn
      cases hn
      rw [parse_of_clear hlen hv] at e
      rcases hd : HeaderV1.deserialize (sub b 0 headerV1Size) with err | h1
      · rw [hd] at e
        cases e
      rw [hd] at e
      cases e
      have hser := HeaderV1.deserialize_eq_ok_iff.mp hd
      refine ⟨?_, hser⟩
      rwa [version_of_v1 hser] at hv
    · rw [headerSize_of_set hfour hv] at hn
      cases hn
      rw [parse_of_set hlen hv] at e
      rcases hd : HeaderV2.parse (sub b 0 headerV2Size) with err | h2
      · rw [hd] at e
        cases e
      rw [hd] at e
      cases e
      exact HeaderV2.parse_eq_ok_iff.mp hd
  · rintro ⟨hstream, hser⟩
    have hlen := length_of_sub_eq hser
    cases h with
    | v1 h =>
        -- the first word of the serialization decides which parser runs
        have hv : u32of (sub b 0 4) &&& versionHeaderV2Flag = 0 := by
          rw [version_of_v1 hser]
          exact hstream
        have hd : HeaderV1.deserialize (sub b 0 headerV1Size) = .ok h :=
          HeaderV1.deserialize_eq_ok_iff.mpr hser
        rw [parse_of_clear hlen hv, hd]
        rfl
    | v2 h =>
        have hd : HeaderV2.parse (sub b 0 headerV2Size) = .ok h :=
          HeaderV2.parse_eq_ok_iff.mpr ⟨hstream, hser⟩
        rw [parse_of_set hlen (version_of_v2 hser), hd]
        rfl

theorem returns_parse (b : Bytes) : Returns (parse b) := by
  by_cases hshort : ∀ n, headerSize b = .ok n → b.length < n
  · exact .inr (parse_of_short hshort)
  push Not at hshort
  obtain ⟨n, hn, hlen⟩ := hshort
  have hfour := (headerSize_cases hn).1
  by_cases hv : u32of (sub b 0 4) &&& versionHeaderV2Flag = 0
  · rw [headerSize_of_clear hfour hv] at hn
    cases hn
    rw [parse_of_clear hlen hv, HeaderV1.deserialize_eq (length_sub (by omega))]
    exact returns_ok _
  · rw [headerSize_of_set hfour hv] at hn
    cases hn
    rw [parse_of_set hlen hv]
    rcases HeaderV2.returns_parse (sub b 0 headerV2Size) with ⟨h, e⟩ | ⟨chain, e⟩
    · rw [e]
      exact returns_ok _
    · rw [e]
      exact .inr ⟨chain, rfl⟩

theorem parse_serialize_append {h : AnyHeader} (hs : h.Streamable) (rest : Bytes) :
    parse (h.serialize ++ rest) = .ok h := by
  refine parse_eq_ok_iff.mpr ⟨hs, ?_⟩
  rw [sub_append_left (by rw [length_serialize]; omega), sub_all h.length_serialize]

/-- What `parse` found is what the version field announced. -/
theorem headerSize_of_parse {b : Bytes} {h : AnyHeader} (e : parse b = .ok h) :
    headerSize b = .ok h.size := by
  obtain ⟨hstream, hser⟩ := parse_eq_ok_iff.mp e
  have hlen := length_of_sub_eq hser
  have hfour := h.four_le_size
  cases h with
  | v1 h =>
      refine headerSize_of_clear (by omega) ?_
      rw [version_of_v1 hser]
      exact hstream
  | v2 h => exact headerSize_of_set (by omega) (version_of_v2 hser)

/-- A string that is long enough for the header it announces starts with one. -/
theorem parse_of_headerSize {b : Bytes} {n : ℕ} (hn : headerSize b = .ok n)
    (hlen : n ≤ b.length) : ∃ h, parse b = .ok h ∧ h.size = n := by
  have hparse : ∃ h, parse b = .ok h := by
    have hfour := (headerSize_cases hn).1
    by_cases hv : u32of (sub b 0 4) &&& versionHeaderV2Flag = 0
    · rw [headerSize_of_clear hfour hv] at hn
      cases hn
      rw [parse_of_clear hlen hv, HeaderV1.deserialize_eq (length_sub (by omega))]
      exact ⟨_, rfl⟩
    · rw [headerSize_of_set hfour hv] at hn
      cases hn
      have hfront : sub (sub b 0 headerV2Size) 0 4 = sub b 0 4 := sub_of_sub (by decide)
      rw [parse_of_set hlen hv, HeaderV2.parse_eq (length_sub (by omega)) (by rwa [hfront])]
      exact ⟨_, rfl⟩
  obtain ⟨h, hp⟩ := hparse
  have hsize := headerSize_of_parse hp
  rw [hn] at hsize
  cases hsize
  exact ⟨h, hp, rfl⟩

/-! ### The stream as a prefix code -/

/-- The code whose words are the serialized streamable headers. -/
def headerCode : PrefixCode UInt8 AnyHeader where
  Word := Streamable
  encode := serialize
  decode b :=
    match parse b with
    | .ok h => some (h, b.drop h.size)
    | .error _ => none
  encode_ne_nil := serialize_ne_nil
  decode_encode := by
    intro h hs rest
    simp only [parse_serialize_append hs, Option.some.injEq, Prod.mk.injEq, true_and]
    rw [← h.length_serialize, List.drop_left]
  of_decode := by
    intro b h rest e
    rcases hp : parse b with err | h'
    · simp [hp] at e
    · simp only [hp, Option.some.injEq, Prod.mk.injEq] at e
      obtain ⟨rfl, rfl⟩ := e
      obtain ⟨hs, hser⟩ := parse_eq_ok_iff.mp hp
      refine ⟨hs, ?_⟩
      rw [← hser, sub, List.drop_zero, List.take_append_drop]

theorem decode_of_parse {b : Bytes} {h : AnyHeader} (e : parse b = .ok h) :
    headerCode.decode b = some (h, b.drop h.size) := by
  simp only [headerCode, e]

theorem decode_of_not_parse {b : Bytes} (e : ∀ h, parse b ≠ .ok h) :
    headerCode.decode b = none := by
  rcases hp : parse b with err | h
  · simp only [headerCode, hp]
  · exact absurd hp (e h)

/-- The loop looks at the announced bytes only, and that changes nothing. -/
theorem parse_sub {b : Bytes} {n : ℕ} (hn : headerSize b = .ok n) (hlen : n ≤ b.length)
    {h : AnyHeader} : parse (sub b 0 n) = .ok h ↔ parse b = .ok h := by
  have hfour : 4 ≤ n := by
    rcases (headerSize_cases hn).2 with rfl | rfl <;> decide
  have hlen' : (sub b 0 n).length = n := length_sub (by omega)
  have hversion : sub (sub b 0 n) 0 4 = sub b 0 4 := sub_of_sub (by omega)
  -- the announcement is within the bytes that were cut out
  have hsize : headerSize (sub b 0 n) = .ok n := by
    rw [headerSize_eq (by omega), hversion, ← hn, headerSize_eq (by omega)]
  constructor
  · intro e
    have hh : h.size = n := by
      have := headerSize_of_parse e
      rw [hsize] at this
      cases this
      rfl
    obtain ⟨hs, hser⟩ := parse_eq_ok_iff.mp e
    refine parse_eq_ok_iff.mpr ⟨hs, ?_⟩
    rwa [sub_of_sub (by omega), Nat.zero_add] at hser
  · intro e
    have hh : h.size = n := by
      have := headerSize_of_parse e
      rw [hn] at this
      cases this
      rfl
    obtain ⟨hs, hser⟩ := parse_eq_ok_iff.mp e
    refine parse_eq_ok_iff.mpr ⟨hs, ?_⟩
    rwa [sub_of_sub (by omega), Nat.zero_add]

/-! ### The loop is the walk -/

theorem parseAllFrom_nil (out : List AnyHeader) : parseAllFrom out [] = .ok out := by
  rw [parseAllFrom]
  rfl

theorem parseAllFrom_of_parse {b : Bytes} {h : AnyHeader} (out : List AnyHeader)
    (e : parse b = .ok h) :
    parseAllFrom out b = parseAllFrom (out ++ [h]) (b.drop h.size) := by
  have hn := headerSize_of_parse e
  have hlen : h.size ≤ b.length := length_of_sub_eq (parse_eq_ok_iff.mp e).2
  have hne : b.isEmpty = false := by
    have := h.four_le_size
    rw [List.isEmpty_eq_false_iff, ← List.length_pos_iff]
    omega
  have hrest : sub b h.size (b.length - h.size) = b.drop h.size := by
    rw [sub, List.take_of_length_le (by rw [List.length_drop])]
  -- the two splits are on the announced size and on the slice behind the header
  rw [parseAllFrom, hne]
  simp only [Bool.false_eq_true, if_false]
  split
  · next e' => rw [hn] at e'; cases e'
  next n e' =>
  rw [hn] at e'
  cases e'
  rw [dif_pos hlen, slice_eq (Nat.zero_le _) hlen, ok_bind, Nat.sub_zero,
    (parse_sub hn hlen).mpr e, ok_bind]
  split
  · next e' => rw [slice_eq hlen (Nat.le_refl _)] at e'; cases e'
  next rest e' =>
  rw [slice_eq hlen (Nat.le_refl _)] at e'
  cases e'
  rw [hrest]

theorem parseAllFrom_of_not_parse {b : Bytes} (out : List AnyHeader) (hne : b ≠ [])
    (e : ∀ h, parse b ≠ .ok h) : ∃ chain, parseAllFrom out b = .error (.err chain) := by
  have hempty : b.isEmpty = false := List.isEmpty_eq_false_iff.mpr hne
  rw [parseAllFrom, hempty]
  simp only [Bool.false_eq_true, if_false]
  split
  · next err hn =>
    rcases returns_headerSize b with ⟨n, h⟩ | ⟨chain, h⟩
    · rw [h] at hn
      cases hn
    · rw [h] at hn
      cases hn
      exact ⟨chain, rfl⟩
  · next n hn =>
    -- a header that is there but does not parse, or one that is cut short
    split_ifs with hlen
    · have hbad : ∀ h, parse (sub b 0 n) ≠ .ok h := fun h hp => e h ((parse_sub hn hlen).mp hp)
      rw [slice_eq (Nat.zero_le _) hlen, ok_bind, Nat.sub_zero]
      rcases returns_parse (sub b 0 n) with ⟨h, hp⟩ | ⟨chain, hp⟩
      · exact absurd hp (hbad h)
      · rw [hp, error_bind]
        exact ⟨chain, rfl⟩
    · exact ⟨_, rfl⟩

/-- **The loop is the walk**: it returns the words of the string in order,
behind those it already had, or an error where the walk finds no word. -/
theorem parseAllFrom_spec (out : List AnyHeader) (b : Bytes) :
    (∃ hs, headerCode.decodeAll b = some hs ∧ parseAllFrom out b = .ok (out ++ hs)) ∨
      (headerCode.decodeAll b = none ∧ ∃ chain, parseAllFrom out b = .error (.err chain)) := by
  -- on the length of what is left; each header shortens it
  induction n : b.length using Nat.strongRecOn generalizing out b with
  | ind n ih =>
      by_cases hb : b = []
      · subst hb
        refine .inl ⟨[], headerCode.decodeAll_nil, ?_⟩
        rw [parseAllFrom_nil, List.append_nil]
      by_cases hp : ∃ h, parse b = .ok h
      · obtain ⟨h, hp⟩ := hp
        have hdec := decode_of_parse hp
        rw [headerCode.decodeAll_of_decode_some hdec, parseAllFrom_of_parse out hp]
        have hlt := headerCode.length_rest_lt hdec
        rcases ih _ (n ▸ hlt) (out ++ [h]) _ rfl with ⟨hs, hw, hr⟩ | ⟨hw, hr⟩
        · refine .inl ⟨h :: hs, by rw [hw, Option.map_some], ?_⟩
          rw [hr, List.append_assoc, List.singleton_append]
        · exact .inr ⟨by rw [hw, Option.map_none], hr⟩
      · push Not at hp
        exact .inr ⟨headerCode.decodeAll_of_decode_none hb (decode_of_not_parse hp),
          parseAllFrom_of_not_parse out hb hp⟩

theorem parseAll_eq_ok_iff {b : Bytes} {hs : List AnyHeader} :
    parseAll b = .ok hs ↔ (∀ h ∈ hs, h.Streamable) ∧ b = hs.flatMap serialize := by
  rw [show (∀ h ∈ hs, h.Streamable) ∧ b = hs.flatMap serialize
    ↔ headerCode.decodeAll b = some hs from headerCode.decodeAll_eq_some_iff.symm]
  rcases parseAllFrom_spec [] b with ⟨hs', hw, hr⟩ | ⟨hw, chain, hr⟩
  · rw [parseAll, hr, hw, List.nil_append]
    simp
  · rw [parseAll, hr, hw]
    simp

theorem returns_parseAll (b : Bytes) : Returns (parseAll b) := by
  rcases parseAllFrom_spec [] b with ⟨hs, -, hr⟩ | ⟨-, hr⟩
  · exact .inl ⟨_, hr⟩
  · exact .inr hr

/-! ### Rows of the database -/

theorem parseExact_serialize_v1 (h : HeaderV1) : parseExact (v1 h).serialize = .ok (v1 h) := by
  have hlen : (v1 h).serialize.length = headerV1Size := h.length_serialize
  have hd : HeaderV1.deserialize (v1 h).serialize = .ok h :=
    HeaderV1.deserialize_eq_ok_iff.mpr rfl
  rw [parseExact, if_pos hlen, hd]
  rfl

theorem parseExact_serialize_v2 {h : HeaderV2} (hv : h.version &&& versionHeaderV2Flag = 0) :
    parseExact (v2 h).serialize = .ok (v2 h) := by
  have hlen : (v2 h).serialize.length = headerV2Size := h.length_serialize
  have hd : HeaderV2.parse (v2 h).serialize = .ok h :=
    HeaderV2.parse_eq_ok_iff.mpr ⟨hv, rfl⟩
  rw [parseExact, if_neg (by rw [hlen]; decide), if_pos hlen, hd]
  rfl

/-- **The mixed stream is a uniquely decodable code and this is its codec.**
`parseAll` returns on every string, succeeds on exactly the concatenations of
streamable headers and then finds the only decomposition; `parseExact` reads
back every v1 header and every streamable v2 header. -/
theorem parseAll_codec :
    (∀ b, Returns (parseAll b)) ∧
    (∀ b hs, parseAll b = .ok hs ↔ (∀ h ∈ hs, h.Streamable) ∧ b = hs.flatMap serialize) ∧
    (∀ hs hs' : List AnyHeader, (∀ h ∈ hs, h.Streamable) → (∀ h ∈ hs', h.Streamable) →
      hs.flatMap serialize = hs'.flatMap serialize → hs = hs') ∧
    (∀ hs : List AnyHeader, (∀ h ∈ hs, h.Streamable) →
      parseAll (hs.flatMap serialize) = .ok hs) ∧
    (∀ h : AnyHeader, h.serialize.length = h.size) ∧
    (∀ h : HeaderV1, parseExact (v1 h).serialize = .ok (v1 h)) ∧
    (∀ h : HeaderV2, h.version &&& versionHeaderV2Flag = 0 →
      parseExact (v2 h).serialize = .ok (v2 h)) := by
  refine ⟨returns_parseAll, fun _ _ => parseAll_eq_ok_iff, ?_, ?_, length_serialize,
    parseExact_serialize_v1, fun _ => parseExact_serialize_v2⟩
  · intro hs hs' hw hw' e
    exact headerCode.flatMap_encode_inj hw hw' e
  · intro hs hw
    exact parseAll_eq_ok_iff.mpr ⟨hw, rfl⟩

end AnyHeader

end PrunedElectrs
