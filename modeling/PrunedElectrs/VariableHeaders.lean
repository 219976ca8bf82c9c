/-
PrunedElectrs/VariableHeaders.lean

The client's reading of a `blockchain.block.headers` response.

A response carries its run of headers as one hex string or as a list of them.
`checkBlockHeaders` counts the run without decoding it (`countHex` looks at one
byte of each header), `VariableHeaders.parse` decodes it (`split` walks the
decoded bytes).  The two walks take their steps from the same bit, read once
off the hex text and once off the bytes.

Both are compared with the server here: from the front of a serialized header
the hex walk and the byte walk advance by exactly that header
(`countHexFrom_step`, `splitFrom_step`), so on what `block_headers` sends they
find the headers of the chain, and `block_headers_agree` puts the two ends
together.
-/
import PrunedElectrs.Drongo
import PrunedElectrs.Electrum
import PrunedElectrs.Lib.Hex

namespace PrunedElectrs

open Wire

/-- The network the client is on. -/
inductive Network where
  | mainnet
  | testnet
  | regtest
  | signet
  | testnet4
deriving DecidableEq, Repr

/-- The name a message gives the network. -/
def Network.name : Network → String
  | mainnet => "mainnet"
  | testnet => "testnet"
  | regtest => "regtest"
  | signet => "signet"
  | testnet4 => "testnet4"

/-- A `blockchain.block.headers` response; an absent member is null. -/
structure BlockHeaders where
  count : ℤ
  /-- Protocol 1.5 and below. -/
  hex : Option (List Char)
  /-- Protocol 1.6 and above. -/
  headers : Option (List (Option (List Char)))
  max : ℤ

/-- The value of an `int` expression: the sum wraps around at 32 bits. -/
def int (x : ℤ) : ℤ := x.bmod (2 ^ 32)

/-- The value of digits of base 16, most significant first. -/
def parseDigits : List Char → Java ℤ
  | [] => .error .numberFormat
  | digits => do
      let v ← digits.foldlM (fun (v : ℕ) c =>
        match hexVal c with
        | some d => .ok (16 * v + d)
        | none => .error .numberFormat) 0
      return v

/-- Digits with an optional sign. -/
def parseSigned : List Char → Java ℤ
  | '-' :: digits => (parseDigits digits).map (- ·)
  | '+' :: digits => parseDigits digits
  | digits => parseDigits digits

/-- `Integer.parseInt(s, beginIndex, endIndex, 16)`. -/
def parseInt (s : List Char) (beginIndex endIndex : ℕ) : Java Int32 :=
  if beginIndex ≤ endIndex ∧ endIndex ≤ s.length then do
    let v ← parseSigned (sub s beginIndex (endIndex - beginIndex))
    if -2 ^ 31 ≤ v ∧ v < 2 ^ 31 then .ok (Int32.ofInt v) else .error .numberFormat
  else .error .indexOutOfBounds

namespace VariableHeaders

/-- An 80 byte header as hex, which is the length every header had before this. -/
def v1HexLength : ℕ := Drongo.headerV1Length * 2

/-- Can this network carry v2 headers? -/
def supportsV2 (network : Network) : Bool := network == .testnet4 || network == .regtest

/-- The length of a header of the given kind, refusing a v2 one where the
network cannot carry it. -/
def lengthFor (network : Network) (v2 : Bool) : Java ℕ :=
  if !v2 then .ok Drongo.headerV1Length
  else if !supportsV2 network then
    .error (.protocol s!"Block header marked v2 on {network.name}, which cannot carry one")
  else .ok Drongo.headerV2Length

theorem le_of_lengthFor {network : Network} {v2 : Bool} {n : ℕ}
    (h : lengthFor network v2 = .ok n) : 80 ≤ n := by
  rw [lengthFor] at h
  split_ifs at h
  · obtain rfl := Except.ok.inj h
    decide
  · obtain rfl := Except.ok.inj h
    decide

/-- The length of the header at `offset`, from the fourth byte of its version. -/
def lengthAt (network : Network) (hex : List Char) (offset : ℕ) : Java ℕ := do
  let fourthByte ← parseInt hex (offset + 6) (offset + 8)
  lengthFor network (fourthByte &&& 0x80 != 0)

theorem le_of_lengthAt {network : Network} {hex : List Char} {offset n : ℕ}
    (h : lengthAt network hex offset = .ok n) : 80 ≤ n := by
  rw [lengthAt] at h
  rcases hbyte : parseInt hex (offset + 6) (offset + 8) with e | x
  · rw [hbyte] at h
    cases h
  · rw [hbyte] at h
    exact le_of_lengthFor h

/-- The walk of `countHex` from `offset`, having counted `count` headers. -/
def countHexFrom (network : Network) (hex : List Char) (offset count : ℕ) : Java ℤ :=
  if offset < hex.length then
    if offset + v1HexLength > hex.length then .ok (-1)
    else
      match h : lengthAt network hex offset with
      | .error (.protocol _) => .ok (-1)
      | .error .numberFormat => .ok (-1)
      | .error e => .error e
      | .ok n =>
          if offset + n * 2 > hex.length then .ok (-1)
          else countHexFrom network hex (offset + n * 2) (count + 1)
  else .ok count
termination_by hex.length - offset
decreasing_by
  have := le_of_lengthAt h
  omega

/-- The number of headers a concatenated hex run holds, or -1 if the walk does
not land exactly on its end. -/
def countHex (network : Network) (hex : List Char) : Java ℤ := countHexFrom network hex 0 0

/-- Is every element of the list exactly one header? -/
def countEach (network : Network) : List (Option (List Char)) → Java Bool
  | [] => .ok true
  | none :: _ => .ok false
  | some header :: rest => do
      if (← countHex network header) ≠ 1 then return false
      else countEach network rest

/-- The headers a response carries, in whichever form it uses, or -1 if that is
not a whole run of headers. -/
def countCarried (network : Network) (chunk : BlockHeaders) : Java ℤ :=
  match chunk.hex, chunk.headers with
  | none, none => .ok (-1)
  | some _, some _ => .ok (-1)
  | some hex, none => countHex network hex
  | none, some headers => do
      return if ← countEach network headers then (headers.length : ℤ) else -1

/-- The loop of `split` before header `i`, with `remaining` more to come. -/
def splitFrom (network : Network) (bytes : Bytes) (count : ℤ) :
    (remaining i offset : ℕ) → List Drongo.BlockHeader → Java (List Drongo.BlockHeader × ℕ)
  | 0, _, offset, headers => .ok (headers, offset)
  | remaining + 1, i, offset, headers =>
      if offset + Drongo.headerV1Length > bytes.length then
        .error (.protocol (s!"Header run ended early: wanted {count} headers, got {i}"
          ++ s!" before running out at offset {offset} of {bytes.length}"))
      else do
        let length ← lengthFor network (← Drongo.BlockHeaderV2.isV2 bytes offset)
        if offset + length > bytes.length then
          .error (.protocol (s!"Header {i} claims {length} bytes at offset {offset}"
            ++ s!" but only {bytes.length - offset} remain"))
        else do
          let header ← Drongo.BlockHeader.parse bytes offset
          splitFrom network bytes count remaining (i + 1) (offset + length) (headers ++ [header])

/-- `new ArrayList<>(count)`. -/
def checkCapacity (count : ℤ) : Java Unit :=
  if count < 0 then .error (.illegalArgument s!"Illegal Capacity: {count}") else .ok ()

/-- Split a concatenated run of headers, reading each one's length from its own
version field. -/
def split (network : Network) (bytes : Bytes) (count : ℤ) : Java (List Drongo.BlockHeader) := do
  checkCapacity count
  let (headers, offset) ← splitFrom network bytes count count.toNat 0 0 []
  if offset ≠ bytes.length then
    .error (.protocol (s!"Header run had {bytes.length - offset}"
      ++ s!" trailing bytes after {count} headers"))
  else return headers

/-- `Utils.hexToBytes`, which is drongo's. -/
abbrev HexToBytes := List Char → Java Bytes

variable (hexToBytes : HexToBytes)

/-- The first `remaining` elements of the list form, from index `i` on. -/
def parseList (network : Network) (list : List (Option (List Char))) :
    (remaining i : ℕ) → List Drongo.BlockHeader → Java (List Drongo.BlockHeader)
  | 0, _, headers => .ok headers
  | remaining + 1, i, headers =>
      match list[i]? with
      | none => .error .indexOutOfBounds
      | some none => .error (.protocol s!"Header list holds no header at index {i}")
      | some (some header) => do
          match ← split network (← hexToBytes header) 1 with
          | [] => .error .noSuchElement
          | first :: _ => parseList network list remaining (i + 1) (headers ++ [first])

/-- The headers a response carries, decoded, in whichever form it uses. -/
def parse (network : Network) (chunk : BlockHeaders) (count : ℤ) :
    Java (List Drongo.BlockHeader) :=
  match chunk.headers with
  | none =>
      match chunk.hex with
      | none => .error .nullPointer
      | some hex => do split network (← hexToBytes hex) count
  | some headers =>
      if headers.length < count then
        .error (.protocol s!"Header list holds {headers.length} of {count} headers")
      else do
        checkCapacity count
        parseList hexToBytes network headers count.toNat 0 []

end VariableHeaders

namespace ElectrumServerRpc

/-- `HeaderChainState.RETARGET_INTERVAL`. -/
def retargetInterval : ℤ := 2016

/-- The structural checks on a response.  The texts of the two exceptions that
are not the patch's are parameters. -/
def checkBlockHeaders (maxText shortText : String) (network : Network)
    (blockHeaders : Option BlockHeaders) (startHeight count : ℤ) (tip : Option ℤ) :
    Java BlockHeaders :=
  let malformed := JavaException.verification
    s!"Malformed response to a request for {count} block headers from height {startHeight}"
  match blockHeaders with
  | none => .error malformed
  | some b =>
      if b.count < 0 then .error malformed
      else if b.max < retargetInterval then .error (.verification maxText)
      else if b.count > count then
        .error (.verification (s!"Requested {count} block headers from height {startHeight}"
          ++ s!" but the server returned {b.count}"))
      else do
        let carried ← VariableHeaders.countCarried network b
        if carried < 0 then
          .error (.verification (s!"Response to a request for {count} block headers from height "
            ++ s!"{startHeight} does not hold a whole run of headers in either form"))
        else if carried ≠ b.count then
          .error (.verification (s!"Response to a request for block headers from height "
            ++ s!"{startHeight} carries {carried} headers for a reported count of {b.count}"))
        else if b.count < count && tip.any (int (int (startHeight + b.count) - 1) < ·) then
          .error (.verification shortText)
        else return b

end ElectrumServerRpc

/-! ### The length of a header, read off its text and off its bytes -/

namespace AnyHeader

/-- The version field as serialized. -/
def versionWord : AnyHeader → UInt32
  | v1 h => h.version.toUInt32
  | v2 h => h.completeVersion

theorem sub_serialize_versionWord (h : AnyHeader) : sub h.serialize 0 4 = u32le h.versionWord := by
  cases h with
  | v1 h => exact sub_serialize_v1 h
  | v2 h => exact HeaderV2.sub_serialize_version h

theorem versionWord_flag {h : AnyHeader} (hs : h.Streamable) :
    (h.versionWord &&& versionHeaderV2Flag != 0) = h.isV2 := by
  cases h with
  | v1 h => exact bne_eq_false_iff_eq.mpr hs
  | v2 h => exact bne_iff_ne.mpr h.completeVersion_and_flag

/-- The top bit of the version field is the top bit of its fourth byte. -/
theorem fourthByte_of_version {b : Bytes} (hb : 4 ≤ b.length) :
    ∃ x : UInt8, sub b 3 1 = [x]
      ∧ decide (128 ≤ x.toNat) = (u32of (sub b 0 4) &&& versionHeaderV2Flag != 0) := by
  refine ⟨b[3], sub_one hb, ?_⟩
  have hbytes : sub b 0 4 = [b[0], b[1], b[2], b[3]] := by
    rw [show (4 : ℕ) = 1 + 1 + 1 + 1 from rfl, ← sub_append_sub, ← sub_append_sub,
      ← sub_append_sub, sub_one (by omega), sub_one (by omega), sub_one (by omega),
      sub_one (by omega)]
    rfl
  have hvalue : (u32of (sub b 0 4)).toNat
      = b[0].toNat + 256 * (b[1].toNat + 256 * (b[2].toNat + 256 * b[3].toNat)) := by
    rw [toNat_u32of (length_sub (by omega)), hbytes]
    simp only [leNat, Nat.mul_zero, Nat.add_zero]
  have h0 : b[0].toNat < 256 := b[0].toNat_lt
  have h1 : b[1].toNat < 256 := b[1].toNat_lt
  have h2 : b[2].toNat < 256 := b[2].toNat_lt
  have hflag : u32of (sub b 0 4) &&& versionHeaderV2Flag = 0 ↔ (u32of (sub b 0 4)).toNat < 2 ^ 31 :=
    and_topBit_eq_zero_iff _
  rw [bne, Bool.eq_iff_iff, decide_eq_true_eq, Bool.not_eq_true', beq_eq_false_iff_ne, ne_eq,
    hflag, hvalue]
  omega

theorem fourthByte {h : AnyHeader} (hs : h.Streamable) :
    ∃ x : UInt8, sub h.serialize 3 1 = [x] ∧ decide (128 ≤ x.toNat) = h.isV2 := by
  have hlen : 4 ≤ h.serialize.length := h.length_serialize ▸ h.four_le_size
  obtain ⟨x, hx, hv⟩ := fourthByte_of_version hlen
  rw [sub_serialize_versionWord, u32of_u32le, versionWord_flag hs] at hv
  exact ⟨x, hx, hv⟩

end AnyHeader

/-- The value of the two digits of a byte. -/
theorem parseSigned_of_ofHex {text : List Char} {x : UInt8} (h : ofHex text = some [x]) :
    parseSigned text = .ok (x.toNat : ℤ) := by
  have hlen := length_of_ofHex h
  obtain ⟨c, d, rfl⟩ : ∃ c d, text = [c, d] := List.length_eq_two.mp hlen
  rw [ofHex] at h
  split at h
  case h_2 => cases h
  case h_1 hi lo b hhi hlo hb =>
    cases hb
    cases h
    have := hexVal_lt hhi
    have := hexVal_lt hlo
    have hx : (UInt8.ofNat (16 * hi + lo)).toNat = 16 * hi + lo := by
      rw [UInt8.toNat_ofNat']
      omega
    -- a digit is not a sign
    have hdigits : parseSigned [c, d] = parseDigits [c, d] := by
      rw [parseSigned]
      · intro digits e
        cases e
        rw [show hexVal '-' = none from rfl] at hhi
        cases hhi
      · intro digits e
        cases e
        rw [show hexVal '+' = none from rfl] at hhi
        cases hhi
    have hvalue : parseDigits [c, d] = .ok ((16 * hi + lo : ℕ) : ℤ) := by
      simp only [parseDigits, List.foldlM_cons, List.foldlM_nil, hhi, hlo, Nat.mul_zero,
        Nat.zero_add]
      rfl
    rw [hdigits, hvalue, hx]

theorem parseInt_of_ofHex {s : List Char} {o : ℕ} {x : UInt8} (e : ofHex (sub s o 2) = some [x]) :
    parseInt s o (o + 2) = .ok (Int32.ofInt x.toNat) := by
  have hlen : o + 2 ≤ s.length := add_le_of_sub_eq rfl (length_of_ofHex e) (by decide)
  have hx : x.toNat < 256 := x.toNat_lt
  rw [parseInt, if_pos ⟨by omega, hlen⟩, Nat.add_sub_cancel_left, parseSigned_of_ofHex e,
    java_ok_bind, if_pos (by omega)]

theorem and_0x80_bne (x : UInt8) :
    (Int32.ofInt x.toNat &&& 0x80 != 0) = decide (128 ≤ x.toNat) := by
  have hall : ∀ n : Fin 256, (Int32.ofInt (n : ℕ) &&& 0x80 != 0) = decide (128 ≤ (n : ℕ)) := by
    decide +kernel
  exact hall ⟨x.toNat, x.toNat_lt⟩

namespace VariableHeaders

/-- The network can carry this header. -/
def Carries (network : Network) (h : AnyHeader) : Prop := supportsV2 network ∨ h.isV2 = false

variable {network : Network} {h : AnyHeader}

theorem lengthFor_isV2 (hn : Carries network h) : lengthFor network h.isV2 = .ok h.size := by
  rw [lengthFor]
  cases h with
  | v1 h => rfl
  | v2 h =>
      rcases hn with hn | hn
      · rw [hn]
        rfl
      · cases hn

/-- The length read off text is that read off the bytes it decodes to. -/
theorem lengthAt_of_ofHex {hex : List Char} {o n : ℕ} {b : Bytes}
    (e : ofHex (sub hex o (2 * n)) = some b) (hn : 4 ≤ n) {x : UInt8} (hx : sub b 3 1 = [x]) :
    lengthAt network hex o = lengthFor network (decide (128 ≤ x.toNat)) := by
  have hdigits : sub (sub hex o (2 * n)) 6 2 = sub hex (o + 6) 2 := sub_of_sub (by omega)
  have hbyte := ofHex_sub e 3 1
  rw [hdigits, hx] at hbyte
  rw [lengthAt, parseInt_of_ofHex hbyte, java_ok_bind, and_0x80_bne]

/-- The length read off the text of a header is its length. -/
theorem lengthAt_of_sub (hs : h.Streamable) (hn : Carries network h) {hex : List Char} {o : ℕ}
    (e : ofHex (sub hex o (2 * h.size)) = some h.serialize) :
    lengthAt network hex o = .ok h.size := by
  obtain ⟨x, hx, hv⟩ := AnyHeader.fourthByte hs
  rw [lengthAt_of_ofHex e h.four_le_size hx, hv, lengthFor_isV2 hn]

/-- The same, read off bytes. -/
theorem isV2_eq {bytes : Bytes} {o : ℕ} (ho : o + 4 ≤ bytes.length) :
    Drongo.BlockHeaderV2.isV2 bytes o
      = .ok (u32of (sub bytes o 4) &&& versionHeaderV2Flag != 0) := by
  have hword : sub bytes o 4 = u32le (u32of (sub bytes o 4)) := (u32le_u32of (length_sub ho)).symm
  rw [Drongo.BlockHeaderV2.isV2, if_neg (by omega), Drongo.readUint32_of_sub hword, java_ok_bind,
    java_pure]
  refine congrArg Except.ok (Bool.eq_iff_iff.mpr ?_)
  rw [bne_iff_ne, bne_iff_ne, ne_eq, ne_eq, Drongo.and_flag_eq_zero_iff]

theorem isV2_of_sub (hs : h.Streamable) {bytes : Bytes} {o : ℕ}
    (e : sub bytes o h.size = h.serialize) : Drongo.BlockHeaderV2.isV2 bytes o = .ok h.isV2 := by
  have hsize := h.four_le_size
  have hword : sub (sub bytes o h.size) 0 4 = sub bytes (o + 0) 4 := sub_of_sub (by omega)
  rw [e, h.sub_serialize_versionWord, Nat.add_zero] at hword
  have hlen : o + 4 ≤ bytes.length := add_le_of_sub_eq hword.symm (by simp) (by decide)
  rw [isV2_eq hlen, ← hword, u32of_u32le, AnyHeader.versionWord_flag hs]

/-! ### The two walks over a served run -/

theorem headerV1Length_le_size (h : AnyHeader) : Drongo.headerV1Length ≤ h.size := by
  cases h with
  | v1 h => exact Nat.le_refl 80
  | v2 h => exact (by decide : (80 : ℕ) ≤ 164)

theorem countHexFrom_step (hs : h.Streamable) (hn : Carries network h) {hex : List Char} {o : ℕ}
    (e : ofHex (sub hex o (2 * h.size)) = some h.serialize) (count : ℕ) :
    countHexFrom network hex o count = countHexFrom network hex (o + 2 * h.size) (count + 1) := by
  have hsize := h.four_le_size
  have hlen : o + 2 * h.size ≤ hex.length :=
    add_le_of_sub_eq rfl (by rw [length_of_ofHex e, h.length_serialize]) (by omega)
  have hv1 : v1HexLength ≤ 2 * h.size := by
    have := headerV1Length_le_size h
    rw [v1HexLength]
    omega
  have hat := lengthAt_of_sub hs hn e
  rw [countHexFrom, if_pos (by omega), if_neg (by omega)]
  -- only the branch of a complete header is left
  split
  case h_4 n hok =>
    obtain rfl := Except.ok.inj (hok.symm.trans hat)
    rw [if_neg (by omega), Nat.mul_comm]
  all_goals simp_all

/-- The count of a run is the number of its headers. -/
theorem countHexFrom_run {run : List AnyHeader} (hs : ∀ h ∈ run, h.Streamable)
    (hn : ∀ h ∈ run, Carries network h) {hex : List Char} {o : ℕ}
    (e : ofHex (hex.drop o) = some (run.flatMap AnyHeader.serialize)) (count : ℕ) :
    countHexFrom network hex o count = .ok (count + run.length : ℕ) := by
  induction run generalizing o count with
  | nil =>
      -- at the end of the text the loop stops
      have hlen : hex.length ≤ o := by
        have := length_of_ofHex e
        rw [List.length_drop, List.flatMap_nil, List.length_nil] at this
        omega
      rw [countHexFrom, if_neg (by omega)]
      rfl
  | cons h run ih =>
      rw [List.forall_mem_cons] at hs hn
      rw [List.flatMap_cons] at e
      have hfirst := ofHex_take e h.size
      have hrest := ofHex_drop e h.size
      rw [List.take_left' h.length_serialize] at hfirst
      rw [List.drop_left' h.length_serialize, List.drop_drop] at hrest
      rw [countHexFrom_step hs.1 hn.1 hfirst, ih hs.2 hn.2 hrest, List.length_cons, Nat.add_assoc,
        Nat.add_comm 1]

theorem countHex_run {run : List AnyHeader} (hs : ∀ h ∈ run, h.Streamable)
    (hn : ∀ h ∈ run, Carries network h) {hex : List Char}
    (e : ofHex hex = some (run.flatMap AnyHeader.serialize)) :
    countHex network hex = .ok run.length := by
  rw [countHex, countHexFrom_run hs hn (o := 0) e, Nat.zero_add]

theorem splitFrom_step (hs : h.Streamable) (hn : Carries network h) {bytes : Bytes} {o : ℕ}
    (e : sub bytes o h.size = h.serialize) (count : ℤ) (remaining i : ℕ)
    (headers : List Drongo.BlockHeader) :
    splitFrom network bytes count (remaining + 1) i o headers
      = splitFrom network bytes count remaining (i + 1) (o + h.size)
          (headers ++ [Drongo.BlockHeader.ofAny h]) := by
  have hsize := h.four_le_size
  have hlen : o + h.size ≤ bytes.length := add_le_of_sub_eq e h.length_serialize (by omega)
  have hv1 := headerV1Length_le_size h
  rw [splitFrom, if_neg (by omega), isV2_of_sub hs e, java_ok_bind, lengthFor_isV2 hn, java_ok_bind,
    if_neg (by omega), Drongo.BlockHeader.parse_of_any hs e, java_ok_bind]

/-- The headers of a run are found one after the other, up to the end. -/
theorem splitFrom_run {run : List AnyHeader} (hs : ∀ h ∈ run, h.Streamable)
    (hn : ∀ h ∈ run, Carries network h) {bytes : Bytes} {o : ℕ} (ho : o ≤ bytes.length)
    (e : bytes.drop o = run.flatMap AnyHeader.serialize) (count : ℤ) (i : ℕ)
    (headers : List Drongo.BlockHeader) :
    splitFrom network bytes count run.length i o headers
      = .ok (headers ++ run.map Drongo.BlockHeader.ofAny, bytes.length) := by
  induction run generalizing o i headers with
  | nil =>
      have hlen : bytes.length ≤ o := List.drop_eq_nil_iff.mp e
      rw [List.length_nil, splitFrom, List.map_nil, List.append_nil, Nat.le_antisymm ho hlen]
  | cons h run ih =>
      rw [List.forall_mem_cons] at hs hn
      have hsize := h.four_le_size
      obtain ⟨hsub, hdrop⟩ := sub_of_drop e h.length_serialize
      have hlen : o + h.size ≤ bytes.length := add_le_of_sub_eq hsub h.length_serialize (by omega)
      rw [List.length_cons, splitFrom_step hs.1 hn.1 hsub, ih hs.2 hn.2 hlen hdrop,
        List.append_assoc, List.map_cons, List.singleton_append]

theorem split_run {run : List AnyHeader} (hs : ∀ h ∈ run, h.Streamable)
    (hn : ∀ h ∈ run, Carries network h) :
    split network (run.flatMap AnyHeader.serialize) run.length
      = .ok (run.map Drongo.BlockHeader.ofAny) := by
  rw [split, checkCapacity, if_neg (by omega), java_ok_bind, Int.toNat_natCast,
    splitFrom_run hs hn (Nat.zero_le _) List.drop_zero, java_ok_bind, List.nil_append]
  exact if_neg (not_not_intro rfl)

end VariableHeaders

/-! ### The response of `block_headers` -/

/-- The response a reply is received as. -/
def Reply.toBlockHeaders : Reply → Option BlockHeaders
  | r@(.headers count _ max) => some { count, hex := some r.hex, headers := none, max }
  | _ => none

/-- The entries of the chain from `startHeight` on, at most `count` of them. -/
def Chain.entriesFrom (chain : Chain) (startHeight count : ℕ) : List (BlockHash × AnyHeader) :=
  sub chain.headers startHeight count

theorem Chain.length_entriesFrom (chain : Chain) (startHeight count : ℕ) :
    (chain.entriesFrom startHeight count).length
      = min count (chain.headers.length - startHeight) := by
  rw [entriesFrom, sub, List.length_take, List.length_drop]

theorem Chain.mem_of_mem_entriesFrom {chain : Chain} {startHeight count : ℕ}
    {p : BlockHash × AnyHeader} (h : p ∈ chain.entriesFrom startHeight count) :
    p ∈ chain.headers := List.mem_of_mem_drop (List.mem_of_mem_take h)

/-- What `block_headers` serves: the headers from `startHeight` on, as many as
were asked for and as there are. -/
theorem Rpc.blockHeaders_eq_ok {chain : Chain} {client : Client} {startHeight count : ℕ}
    {reply : Reply} (hstart : startHeight < chain.headers.length) (hcount : count ≤ maxCount)
    (h : blockHeaders chain client startHeight count = .ok reply) :
    reply = .headers (chain.entriesFrom startHeight count).length
      ((chain.entriesFrom startHeight count).map Prod.snd) maxCount := by
  obtain ⟨u, -, h⟩ := bind_eq_ok.mp h
  obtain rfl := Except.ok.inj h
  -- `end_height - start_height` is the number of headers there are to serve
  have hend : min (chain.height + 1) (startHeight + min count maxCount) - startHeight
      = (chain.entriesFrom startHeight count).length := by
    rw [chain.length_entriesFrom, Chain.height]
    omega
  have hall : chain.entriesFrom startHeight (chain.entriesFrom startHeight count).length
      = chain.entriesFrom startHeight count := by
    rw [chain.length_entriesFrom, Chain.entriesFrom, Chain.entriesFrom, sub, sub,
      List.take_eq_take_iff, List.length_drop]
    omega
  have hheaders (n : ℕ) : (List.range' startHeight n).filterMap chain.getBlockHeader
      = (chain.entriesFrom startHeight n).map Prod.snd := by
    rw [Chain.entriesFrom, ← filterMap_getElem?_range', List.map_filterMap]
    rfl
  simp only [hend, List.length_range', hheaders, hall]

/-- The checks pass a run the server served: no more headers than were asked
for, and up to the tip where there are fewer. -/
theorem ElectrumServerRpc.checkBlockHeaders_eq_ok (maxText shortText : String) {network : Network}
    {b : BlockHeaders} {startHeight count : ℤ} {tip : Option ℤ}
    (hcarried : VariableHeaders.countCarried network b = .ok b.count) (hnonneg : 0 ≤ b.count)
    (hmax : retargetInterval ≤ b.max) (hcount : b.count ≤ count)
    (htip : b.count < count → ∀ t ∈ tip, t ≤ int (int (startHeight + b.count) - 1)) :
    checkBlockHeaders maxText shortText network (some b) startHeight count tip = .ok b := by
  have hshort : ¬ (decide (b.count < count)
      && tip.any (int (int (startHeight + b.count) - 1) < ·)) = true := by
    rw [Bool.and_eq_true, decide_eq_true_eq, Option.any_eq_true]
    rintro ⟨hlt, t, ht, hbelow⟩
    have := htip hlt t ht
    have := of_decide_eq_true hbelow
    omega
  simp only [checkBlockHeaders, if_neg (Int.not_lt.mpr hnonneg), if_neg (Int.not_lt.mpr hmax),
    gt_iff_lt, if_neg (Int.not_lt.mpr hcount), hcarried, java_ok_bind, ne_eq, not_true, if_false,
    if_neg hshort, java_pure]

/-- An `int` sum that fits does not wrap around. -/
theorem int_of_range {x : ℤ} (hlow : -2 ^ 31 ≤ x) (hhigh : x < 2 ^ 31) : int x = x :=
  Int.bmod_eq_of_le_mul_two (by omega) (by omega)

/-- The text of a run decodes to its bytes. -/
theorem ofHex_flatMap_serializeHex (run : List AnyHeader) :
    ofHex (run.flatMap AnyHeader.serializeHex) = some (run.flatMap AnyHeader.serialize) := by
  rw [← ofHex_toHex, toHex_flatMap]
  rfl

theorem VariableHeaders.parse_run {hexToBytes : VariableHeaders.HexToBytes}
    (hhex : ∀ b, hexToBytes (toHex b) = .ok b) {network : Network} {run : List AnyHeader}
    (hs : ∀ h ∈ run, h.Streamable) (hn : ∀ h ∈ run, Carries network h) {chunk : BlockHeaders}
    (hrun : chunk.hex = some (run.flatMap AnyHeader.serializeHex)) (hlist : chunk.headers = none) :
    parse hexToBytes network chunk run.length = .ok (run.map Drongo.BlockHeader.ofAny) := by
  have hbytes : run.flatMap AnyHeader.serializeHex = toHex (run.flatMap AnyHeader.serialize) :=
    (toHex_flatMap AnyHeader.serialize run).symm
  simp only [parse, hlist, hrun, hbytes, hhex, java_ok_bind, split_run hs hn]

/-- **The two ends agree on `blockchain.block.headers`**: of a chain whose
headers came through the parser, the response to a request at or below the tip
passes the client's checks, and the client decodes it to the headers of the
chain from `startHeight` on, each with the server's bytes and the server's
hash.  Heights are `int`s for the client, so the heights it is served are. -/
theorem block_headers_agree (H : Hashes) (hexToBytes : VariableHeaders.HexToBytes)
    (maxText shortText : String) (network : Network) {chain : Chain} {client : Client}
    {startHeight count : ℕ} {tip : Option ℤ} {reply : Reply}
    (hhex : ∀ b, hexToBytes (toHex b) = .ok b)
    (hchain : ∀ p ∈ chain.headers, p.1 = p.2.blockHash H ∧ ∃ b, AnyHeader.parse b = .ok p.2)
    (hstart : startHeight < chain.headers.length)
    (hcount : 1 ≤ count ∧ count ≤ 2016)
    (hrange : min (startHeight + count) chain.headers.length ≤ 2 ^ 31)
    (hreply : Rpc.blockHeaders chain client startHeight count = .ok reply)
    (hnetwork : VariableHeaders.supportsV2 network ∨ ∀ h ∈ reply.carried, h.isV2 = false)
    (htip : ∀ t ∈ tip, t ≤ chain.height) :
    ∃ chunk, reply.toBlockHeaders = some chunk
      ∧ chunk.count = (min count (chain.headers.length - startHeight) : ℕ)
      ∧ ElectrumServerRpc.checkBlockHeaders maxText shortText network (some chunk) startHeight count
          tip = .ok chunk
      ∧ VariableHeaders.parse hexToBytes network chunk chunk.count
          = .ok ((chain.entriesFrom startHeight count).map fun p => .ofAny p.2)
      ∧ ∀ p ∈ chain.entriesFrom startHeight count,
          (Drongo.BlockHeader.ofAny p.2).bitcoinSerialize = p.2.serialize
          ∧ (Drongo.BlockHeader.ofAny p.2).getHash H = .ok p.1.reverse := by
  obtain rfl := Rpc.blockHeaders_eq_ok hstart hcount.2 hreply
  have hserved : ∀ p ∈ chain.entriesFrom startHeight count,
      p.1 = p.2.blockHash H ∧ p.2.Streamable := by
    intro p hp
    obtain ⟨hhash, b, hb⟩ := hchain p (Chain.mem_of_mem_entriesFrom hp)
    exact ⟨hhash, (AnyHeader.parse_eq_ok_iff.mp hb).1⟩
  have hlength := chain.length_entriesFrom startHeight count
  -- from here on the served entries are any list with these properties
  revert hserved hlength hnetwork
  generalize chain.entriesFrom startHeight count = served
  intro hnetwork hserved hlength
  have hrun : ∀ h ∈ served.map Prod.snd, h.Streamable := by
    intro h hh
    obtain ⟨p, hp, rfl⟩ := List.mem_map.mp hh
    exact (hserved p hp).2
  have hcarries : ∀ h ∈ served.map Prod.snd, VariableHeaders.Carries network h :=
    fun h hh => hnetwork.imp_right fun hv1 => hv1 h hh
  have hmapLength : ((served.map Prod.snd).length : ℤ) = served.length := by rw [List.length_map]
  refine ⟨_, rfl, congrArg _ hlength, ?_, ?_, fun p hp => ?_⟩
  · refine ElectrumServerRpc.checkBlockHeaders_eq_ok maxText shortText ?_ (by positivity) le_rfl
      (by simp only; omega) fun hlt t ht => ?_
    · exact (VariableHeaders.countHex_run hrun hcarries (ofHex_flatMap_serializeHex _)).trans
        (congrArg Except.ok hmapLength)
    · -- a short run ends at the tip
      have hshort : startHeight + served.length = chain.height + 1 := by
        simp only at hlt
        rw [Chain.height]
        omega
      have hat : int (int ((startHeight : ℤ) + served.length) - 1) = chain.height := by
        rw [int, int, Int.bmod_sub_bmod,
          show (startHeight : ℤ) + served.length - 1 = chain.height by omega]
        exact int_of_range (by omega) (by omega)
      exact (htip t ht).trans hat.ge
  · rw [← hmapLength]
    refine (VariableHeaders.parse_run hhex hrun hcarries rfl rfl).trans (congrArg Except.ok ?_)
    rw [List.map_map]
    rfl
  · obtain ⟨hhash, hstream⟩ := hserved p hp
    rw [hhash]
    exact ⟨Drongo.BlockHeader.bitcoinSerialize_ofAny hstream,
      Drongo.BlockHeader.getHash_ofAny H hstream⟩

/-- `Utils.hexToBytes` on the text of bytes, and an exception on any other. -/
def hexToBytesKnown : VariableHeaders.HexToBytes := fun text =>
  match ofHex text with
  | some b => .ok b
  | none => .error (.illegalArgument "Invalid hex string")

/-- A request past the tip, for the pair of headers around the activation. -/
theorem block_headers_agree_activation : ∃ chunk : BlockHeaders, chunk.count = 2
    ∧ VariableHeaders.parse hexToBytesKnown .testnet4 chunk chunk.count
        = .ok (activationHeaders.map Drongo.BlockHeader.ofAny) := by
  have hparse : ∀ h ∈ activationHeaders, ∃ b, AnyHeader.parse b = .ok h := fun h hh =>
    ⟨h.serialize ++ [], AnyHeader.parse_serialize_append
      ((show ∀ h ∈ activationHeaders, h.Streamable by decide +kernel) h hh) []⟩
  have hchain : ∀ p ∈ activationChain.headers,
      p.1 = p.2.blockHash knownHashes ∧ ∃ b, AnyHeader.parse b = .ok p.2 := by
    intro p hp
    obtain ⟨h, hh, rfl⟩ := List.mem_map.mp hp
    exact ⟨rfl, hparse h hh⟩
  have hreply : ∃ reply, Rpc.blockHeaders activationChain ⟨none, some "1.8"⟩ 0 5 = .ok reply :=
    ⟨_, rfl⟩
  have htip : ∀ t ∈ some (1 : ℤ), t ≤ activationChain.height := by decide
  obtain ⟨chunk, -, hcount, -, hheaders, -⟩ :=
    block_headers_agree knownHashes hexToBytesKnown "" "" .testnet4
      (fun b => by rw [hexToBytesKnown, ofHex_toHex]) hchain (by decide) (by decide) (by decide)
      hreply.choose_spec (.inl rfl) htip
  exact ⟨chunk, hcount, hheaders⟩

/-- The published hash of the first v2 header. -/
example : beNat (header149537.blockHash knownHashes).reverse.toList
    = 0x000000000068f60429c933dc0c8befbcc7edadb1cf8f8d0d7804c608fd736d82 := by
  decide +kernel

end PrunedElectrs
