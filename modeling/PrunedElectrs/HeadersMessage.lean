/-
PrunedElectrs/HeadersMessage.lean

The `headers` message of the peer-to-peer protocol: a count, and as many
entries, each a header followed by a transaction count that is zero.

Headers are read by their own length, counts by `rust-bitcoin`, which is a
parameter (`VarIntDecoder`) with its documented behaviour (`Documented`).  One
cursor serves both, so an entry has to end where its count ends; `Entries` is
the relation between headers and such bytes, and the loop over the entries is
compared with it in both directions.

The announced count is also what the vector of headers is reserved for, before
the first entry is looked at.  A count that no vector can be reserved for ends
the call in a panic, well-formed message or not, and `decodesExactly_iff` says
that nothing else is amiss: a message is decoded exactly as long as its count
can be reserved.
-/
import PrunedElectrs.BlockTxs
import PrunedElectrs.Electrum

namespace PrunedElectrs

open Wire

/-! ### Reading counts -/

/-- `VarInt::consensus_decode`: the value, and how far the cursor moves. -/
structure VarIntDecoder where
  consensusDecode : Bytes → Except String (ℕ × ℕ)

namespace VarIntDecoder

variable (D : VarIntDecoder)

/-- Decode at the cursor, which moves on behind the count. -/
def read (raw : Bytes) : Rust (ℕ × Bytes) :=
  match D.consensusDecode raw with
  | .error e => .error (.err [e])
  | .ok (n, k) => .ok (n, raw.drop k)

/-- The bytes are an encoding of the count that the decoder takes. -/
def Admits (n : ℕ) (z : Bytes) : Prop := D.consensusDecode z = .ok (n, z.length)

/-- What the documentation says of the decoder: it consumes one encoding, and
looks at nothing behind it, or it fails. -/
structure Documented : Prop where
  canonical : ∀ n, n < 2 ^ 64 → D.Admits n (compactSize n)
  consumes : ∀ b n k, D.consensusDecode b = .ok (n, k) → k ≤ b.length ∧ IsCompactSize n (b.take k)
  nothing_behind : ∀ b n k, D.consensusDecode b = .ok (n, k) →
    ∀ rest, D.consensusDecode (b.take k ++ rest) = .ok (n, k)

variable {D} {n : ℕ} {z : Bytes}

theorem Admits.read (hD : D.Documented) (h : D.Admits n z) (rest : Bytes) :
    D.read (z ++ rest) = .ok (n, rest) := by
  have hdecode := hD.nothing_behind _ _ _ h rest
  rw [List.take_length] at hdecode
  simp only [VarIntDecoder.read, hdecode, List.drop_left]

/-- Whatever the bytes, one encoding is consumed or an error is returned. -/
theorem read_cases (hD : D.Documented) (raw : Bytes) :
    (∃ n z rest, raw = z ++ rest ∧ D.Admits n z ∧ D.read raw = .ok (n, rest)) ∨
      ∃ e, D.consensusDecode raw = .error e ∧ D.read raw = .error (.err [e]) := by
  rcases hd : D.consensusDecode raw with e | ⟨n, k⟩
  · refine .inr ⟨e, rfl, ?_⟩
    simp only [VarIntDecoder.read, hd]
  · have hk := (hD.consumes _ _ _ hd).1
    have hfront := hD.nothing_behind _ _ _ hd []
    rw [List.append_nil] at hfront
    refine .inl ⟨n, raw.take k, raw.drop k, (List.take_append_drop k raw).symm, ?_, ?_⟩
    · rw [Admits, hfront, List.length_take_of_le hk]
    · simp only [VarIntDecoder.read, hd]

end VarIntDecoder

/-! ### Reserving the vector -/

/-- What a vector of headers takes: the size the compiler gives an `AnyHeader`,
and the requests, in bytes, that the allocator serves. -/
structure Memory where
  sizeOfHeader : ℕ
  serves : ℕ → Bool

/-- `isize::MAX`. -/
def isizeMax : ℕ := 2 ^ 63 - 1

namespace Memory

variable (M : Memory)

/-- A vector for so many headers can be had. -/
def Reserves (capacity : ℕ) : Prop :=
  capacity * M.sizeOfHeader ≤ isizeMax ∧
    (capacity * M.sizeOfHeader = 0 ∨ M.serves (capacity * M.sizeOfHeader))

instance (capacity : ℕ) : Decidable (M.Reserves capacity) :=
  inferInstanceAs (Decidable (_ ∧ _))

/-- `Vec::with_capacity`.  A request that the allocator refuses aborts the
process, which is no more a return than a panic is. -/
def withCapacity (capacity : ℕ) : Rust Unit :=
  let bytes := capacity * M.sizeOfHeader
  if bytes > isizeMax then .error (.panic "capacity overflow")
  else if bytes = 0 ∨ M.serves bytes then .ok ()
  else .error (.panic s!"memory allocation of {bytes} bytes failed")

variable {M} {capacity : ℕ}

theorem withCapacity_of (h : M.Reserves capacity) : M.withCapacity capacity = .ok () := by
  rw [withCapacity, if_neg (Nat.not_lt.mpr h.1), if_pos h.2]

theorem withCapacity_of_not (h : ¬ M.Reserves capacity) :
    ∃ msg, M.withCapacity capacity = .error (.panic msg) := by
  rw [withCapacity]
  by_cases hsize : capacity * M.sizeOfHeader > isizeMax
  · exact ⟨_, if_pos hsize⟩
  · have hserved : ¬ (capacity * M.sizeOfHeader = 0 ∨ M.serves (capacity * M.sizeOfHeader)) :=
      fun hserved => h ⟨Nat.not_lt.mp hsize, hserved⟩
    rw [if_neg hsize, if_neg hserved]
    exact ⟨_, rfl⟩

end Memory

/-! ### The message -/

/-- What a message of the peer is parsed to; only the `headers` command reads
block headers. -/
inductive ParsedNetworkMessage
  | headers (headers : List AnyHeader)
deriving DecidableEq

namespace RawNetworkMessage

variable (D : VarIntDecoder) (M : Memory)

/-- The loop over the entries, of which `n` are left. -/
def parseEntries : ℕ → Bytes → List AnyHeader → Rust (List AnyHeader)
  | 0, _, headers => .ok headers
  | n + 1, raw, headers => do
      let header ← context "invalid block header in headers message" (AnyHeader.parse raw)
      let raw ← slice raw header.size raw.length
      let (txcount, raw) ← D.read raw
      ensure (txcount = 0) s!"headers message carried a block with {txcount} transactions"
      parseEntries n raw (headers ++ [header])

/-- `parse` on the `headers` command. -/
def parseHeaders (raw : Bytes) : Rust ParsedNetworkMessage := do
  let (len, raw) ← D.read raw
  M.withCapacity len
  let headers ← parseEntries D len raw []
  return .headers headers

/-- The bytes of entries: each header is followed by a count of zero. -/
inductive Entries : List AnyHeader → Bytes → Prop
  | nil : Entries [] []
  | cons {h : AnyHeader} {hs : List AnyHeader} {z e : Bytes} : h.Streamable → D.Admits 0 z →
      Entries hs e → Entries (h :: hs) (h.serialize ++ (z ++ e))

/-- The string begins with the message of these headers, its counts in any form
that the decoder takes. -/
def BeginsWith (hs : List AnyHeader) (b : Bytes) : Prop :=
  ∃ v e rest, D.Admits hs.length v ∧ Entries D hs e ∧ b = v ++ (e ++ rest)

/-- The message of these headers, its counts in their shortest form. -/
def encode (hs : List AnyHeader) : Bytes :=
  compactSize hs.length ++ hs.flatMap fun h => h.serialize ++ [0x00]

/-- The payload is decoded exactly: to the headers whose message it begins
with, and else to an error. -/
structure DecodesExactly (b : Bytes) : Prop where
  accepts : ∀ hs, parseHeaders D M b = .ok (.headers hs) ↔ BeginsWith D hs b
  refuses : (∀ hs, ¬ BeginsWith D hs b) → ∃ chain, parseHeaders D M b = .error (.err chain)

/-! ### The loop over the entries -/

variable {D M}

/-- One entry at the front of the string. -/
theorem parseEntries_cons (hD : D.Documented) {h : AnyHeader} (hs : h.Streamable) {z : Bytes}
    (hz : D.Admits 0 z) (n : ℕ) (rest : Bytes) (out : List AnyHeader) :
    parseEntries D (n + 1) (h.serialize ++ (z ++ rest)) out
      = parseEntries D n rest (out ++ [h]) := by
  have hbehind : slice (h.serialize ++ (z ++ rest)) h.size (h.serialize ++ (z ++ rest)).length
      = .ok (z ++ rest) := by
    have hlen := h.length_serialize
    rw [slice_to_end (by rw [List.length_append]; omega), List.drop_left' hlen]
  rw [parseEntries, context_eq_ok.mpr (AnyHeader.parse_serialize_append hs _), ok_bind, hbehind,
    ok_bind, hz.read hD, ok_bind]
  rfl

theorem parseEntries_of_entries (hD : D.Documented) {hs : List AnyHeader} {e : Bytes}
    (h : Entries D hs e) (rest : Bytes) (out : List AnyHeader) :
    parseEntries D hs.length (e ++ rest) out = .ok (out ++ hs) := by
  induction h generalizing out with
  | nil => rw [List.append_nil]; rfl
  | cons hstream hz _ ih =>
      rw [List.append_assoc, List.append_assoc, List.length_cons,
        parseEntries_cons hD hstream hz, ih, List.append_assoc, List.singleton_append]

/-- Whatever the string, it begins with `n` entries or the loop returns an error. -/
theorem parseEntries_cases (hD : D.Documented) (n : ℕ) (raw : Bytes) (out : List AnyHeader) :
    (∃ hs e rest, hs.length = n ∧ Entries D hs e ∧ raw = e ++ rest) ∨
      ∃ chain, parseEntries D n raw out = .error (.err chain) := by
  induction n generalizing raw out with
  | zero => exact .inl ⟨[], [], raw, rfl, .nil, rfl⟩
  | succ n ih =>
      rcases AnyHeader.returns_parse raw with ⟨h, hp⟩ | ⟨chain, hp⟩
      · obtain ⟨hstream, hser⟩ := AnyHeader.parse_eq_ok_iff.mp hp
        have hlen := AnyHeader.length_of_sub_eq hser
        obtain ⟨tail, rfl⟩ : ∃ tail, raw = h.serialize ++ tail := by
          refine ⟨raw.drop h.size, ?_⟩
          rw [← hser, sub, List.drop_zero, List.take_append_drop]
        rcases D.read_cases hD tail with ⟨txcount, z, rest, rfl, hz, hread⟩ | ⟨e, -, hread⟩
        · by_cases hzero : txcount = 0
          · subst hzero
            rw [parseEntries_cons hD hstream hz]
            refine (ih rest (out ++ [h])).imp_left ?_
            rintro ⟨hs, e, rest', rfl, hentries, rfl⟩
            refine ⟨h :: hs, _, rest', rfl, .cons hstream hz hentries, ?_⟩
            simp only [List.append_assoc]
          -- a count that is not zero
          · refine .inr ⟨[s!"headers message carried a block with {txcount} transactions"], ?_⟩
            rw [parseEntries, context_eq_ok.mpr hp, ok_bind, slice_to_end hlen,
              List.drop_left' h.length_serialize, ok_bind, hread, ok_bind]
            show (ensure (txcount = 0) _ >>= _) = _
            rw [ensure_of_not hzero]
            rfl
        -- no count behind the header
        · refine .inr ⟨[e], ?_⟩
          rw [parseEntries, context_eq_ok.mpr hp, ok_bind, slice_to_end hlen,
            List.drop_left' h.length_serialize, ok_bind, hread]
          rfl
      · refine .inr ⟨"invalid block header in headers message" :: chain, ?_⟩
        rw [parseEntries, hp]
        rfl

/-! ### The message is decoded exactly -/

variable {b : Bytes}

theorem BeginsWith.count (hD : D.Documented) {hs : List AnyHeader}
    (h : BeginsWith D hs b) : ∃ k, D.consensusDecode b = .ok (hs.length, k) := by
  obtain ⟨v, e, rest, hv, -, rfl⟩ := h
  have hcount := hD.nothing_behind _ _ _ hv (e ++ rest)
  rw [List.take_length] at hcount
  exact ⟨_, hcount⟩

theorem BeginsWith.parseHeaders (hD : D.Documented) {hs : List AnyHeader}
    (h : BeginsWith D hs b) (hM : M.Reserves hs.length) :
    RawNetworkMessage.parseHeaders D M b = .ok (.headers hs) := by
  obtain ⟨v, e, rest, hv, he, rfl⟩ := h
  rw [RawNetworkMessage.parseHeaders, hv.read hD, ok_bind]
  show (M.withCapacity hs.length >>= _) = _
  rw [M.withCapacity_of hM, ok_bind, parseEntries_of_entries hD he, List.nil_append]
  rfl

/-- A string that begins with no message is refused where its count can be
reserved. -/
theorem begins_or_error (hD : D.Documented)
    (hM : ∀ n k, D.consensusDecode b = .ok (n, k) → M.Reserves n) :
    (∃ hs, BeginsWith D hs b) ∨ ∃ chain, parseHeaders D M b = .error (.err chain) := by
  rcases D.read_cases hD b with ⟨n, z, tail, rfl, hz, hread⟩ | ⟨e, -, hread⟩
  · have hcount := hD.nothing_behind _ _ _ hz tail
    rw [List.take_length] at hcount
    rcases parseEntries_cases hD n tail [] with ⟨hs, e, rest, rfl, he, rfl⟩ | ⟨chain, herr⟩
    · exact .inl ⟨hs, z, e, rest, hz, he, rfl⟩
    · refine .inr ⟨chain, ?_⟩
      rw [parseHeaders, hread, ok_bind]
      show (M.withCapacity n >>= _) = _
      rw [M.withCapacity_of (hM _ _ hcount), ok_bind, herr]
      rfl
  · refine .inr ⟨[e], ?_⟩
    rw [parseHeaders, hread]
    rfl

/-- A count that cannot be reserved ends the call, whatever follows it. -/
theorem parseHeaders_of_not_reserves {n k : ℕ}
    (hcount : D.consensusDecode b = .ok (n, k)) (hM : ¬ M.Reserves n) :
    ∃ msg, parseHeaders D M b = .error (.panic msg) := by
  obtain ⟨msg, hmsg⟩ := M.withCapacity_of_not hM
  refine ⟨msg, ?_⟩
  rw [parseHeaders, VarIntDecoder.read, hcount, ok_bind]
  show (M.withCapacity n >>= _) = _
  rw [hmsg]
  rfl

/-- The shortest form is a message, for every list of headers that a stream can
carry. -/
theorem beginsWith_encode (hD : D.Documented) {hs : List AnyHeader}
    (hstream : ∀ h ∈ hs, h.Streamable) (hlen : hs.length < 2 ^ 64) (r : Bytes) :
    BeginsWith D hs (encode hs ++ r) := by
  have hentries : Entries D hs (hs.flatMap fun h => h.serialize ++ [0x00]) := by
    clear hlen
    induction hs with
    | nil => exact .nil
    | cons h hs ih =>
        rw [List.forall_mem_cons] at hstream
        rw [List.flatMap_cons, List.append_assoc]
        exact .cons hstream.1 (hD.canonical 0 (by decide)) (ih hstream.2)
  exact ⟨_, _, r, hD.canonical _ hlen, hentries, List.append_assoc _ _ _⟩

theorem DecodesExactly.reserves (h : DecodesExactly D M b) {n k : ℕ}
    (hcount : D.consensusDecode b = .ok (n, k)) : M.Reserves n := by
  by_contra hM
  obtain ⟨msg, hpanic⟩ := parseHeaders_of_not_reserves hcount hM
  have hnone : ∀ hs, ¬ BeginsWith D hs b := by
    intro hs hbegins
    have haccepts := (h.accepts hs).mpr hbegins
    rw [hpanic] at haccepts
    cases haccepts
  obtain ⟨chain, herr⟩ := h.refuses hnone
  rw [hpanic] at herr
  cases herr

theorem decodesExactly_of_reserves (hD : D.Documented)
    (hM : ∀ n k, D.consensusDecode b = .ok (n, k) → M.Reserves n) : DecodesExactly D M b := by
  have haccepts : ∀ hs, BeginsWith D hs b → parseHeaders D M b = .ok (.headers hs) := by
    intro hs hbegins
    obtain ⟨k, hcount⟩ := hbegins.count hD
    exact hbegins.parseHeaders hD (hM _ _ hcount)
  refine ⟨fun hs => ⟨fun hok => ?_, haccepts hs⟩, fun hnone => ?_⟩
  · obtain ⟨hs', hbegins⟩ | ⟨chain, herr⟩ := begins_or_error hD hM
    · rw [haccepts hs' hbegins] at hok
      cases hok
      exact hbegins
    · rw [herr] at hok
      cases hok
  · exact (begins_or_error hD hM).resolve_left fun ⟨hs, hbegins⟩ => hnone hs hbegins

/-- **A message is decoded exactly when its count can be reserved.**  The
shortest form of every list of headers is such a message, whatever follows it. -/
theorem decodesExactly_iff (hD : D.Documented) :
    (∀ b, DecodesExactly D M b ↔ ∀ n k, D.consensusDecode b = .ok (n, k) → M.Reserves n) ∧
    ∀ hs : List AnyHeader, (∀ h ∈ hs, h.Streamable) → hs.length < 2 ^ 64 →
      ∀ r, BeginsWith D hs (encode hs ++ r) :=
  ⟨fun _ => ⟨fun h _ _ hcount => h.reserves hcount, decodesExactly_of_reserves hD⟩,
    fun _ hstream hlen r => beginsWith_encode hD hstream hlen r⟩

/-! ### The decoder, and two messages -/

/-- `VarInt::consensus_decode` refuses counts that are not in their shortest
form. -/
def decodeVarInt (b : Bytes) : Except String (ℕ × ℕ) :=
  match scanCompactSize b with
  | .error _ => .error "failed to fill whole buffer"
  | .ok (n, k) => if b.take k = compactSize n then .ok (n, k) else .error "non-minimal varint"

theorem decodeVarInt_ok {b : Bytes} {n k : ℕ} (h : decodeVarInt b = .ok (n, k)) :
    scanCompactSize b = .ok (n, k) ∧ b.take k = compactSize n := by
  rw [decodeVarInt] at h
  rcases hscan : scanCompactSize b with e | ⟨n', k'⟩
  · simp [hscan] at h
  · simp only [hscan] at h
    split_ifs at h with hmin
    cases h
    exact ⟨rfl, hmin⟩

theorem decodeVarInt_compactSize {n : ℕ} (hn : n < 2 ^ 64) (rest : Bytes) :
    decodeVarInt (compactSize n ++ rest) = .ok (n, (compactSize n).length) := by
  simp only [decodeVarInt, scanCompactSize_compactSize rest hn, List.take_left, if_true]

theorem lt_of_isCompactSize {n : ℕ} {z : Bytes} (h : IsCompactSize n z) : n < 2 ^ 64 := by
  cases h <;> omega

/-- The decoder as its documentation has it. -/
def varInt : VarIntDecoder where
  consensusDecode := decodeVarInt

theorem documented_varInt : varInt.Documented where
  canonical n hn := by
    have hdecode := decodeVarInt_compactSize hn []
    rwa [List.append_nil] at hdecode
  consumes _ _ _ h := scanCompactSize_ok (decodeVarInt_ok h).1
  nothing_behind b n k h rest := by
    obtain ⟨hscan, hmin⟩ := decodeVarInt_ok h
    obtain ⟨hk, hcount⟩ := scanCompactSize_ok hscan
    have hlen : (compactSize n).length = k := by
      rw [← hmin, List.length_take_of_le hk]
    have hdecode := decodeVarInt_compactSize (lt_of_isCompactSize hcount) rest
    rwa [hlen, ← hmin] at hdecode

/-- An allocator that serves every request; the v2 header is boxed, and a header
takes a v1 header's 80 bytes and a word that tells the versions apart. -/
def ampleMemory : Memory where
  sizeOfHeader := 88
  serves _ := true

theorem decodesExactly_iff_activation :
    DecodesExactly varInt ampleMemory (encode activationHeaders ++ [])
      ∧ BeginsWith varInt activationHeaders (encode activationHeaders ++ []) := by
  have exact := decodesExactly_iff (M := ampleMemory) documented_varInt
  refine ⟨(exact.1 _).mpr fun n k hcount => ?_,
    exact.2 activationHeaders (by decide +kernel) (by decide) []⟩
  have hfirst : varInt.consensusDecode (encode activationHeaders ++ []) = .ok (2, 1) := by
    decide +kernel
  rw [hfirst] at hcount
  cases hcount
  decide

/-- A count of which nothing follows: the vector is asked for first. -/
def overflowing : Bytes := List.replicate 9 0xff

theorem not_decodesExactly_overflowing :
    parseHeaders varInt ampleMemory overflowing = .error (.panic "capacity overflow")
      ∧ ¬ DecodesExactly varInt ampleMemory overflowing := by
  have hcount : varInt.consensusDecode overflowing = .ok (2 ^ 64 - 1, 9) := by decide +kernel
  refine ⟨?_, fun h => absurd (h.reserves hcount) (by decide)⟩
  rw [parseHeaders, VarIntDecoder.read, hcount, ok_bind]
  rfl

end RawNetworkMessage

end PrunedElectrs
