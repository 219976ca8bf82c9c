/-
PrunedElectrs/ForkHeaders.lean

`fetch_fork_headers.py`: a run of headers from a peer of the fork.

The script shakes hands, asks for the headers behind a locator, answers pings
and takes the first `headers` message.  Its payload is walked header by header,
each as long as its own version field says, and has to end with the last of
them.  `splitHeaders_iff` says which payloads are split and into what, and how
that compares with the server's decoder, which lets bytes follow and refuses
counts that are not in their shortest form.  `fetch_iff` says what a fetch
returns and sends, in terms of the messages that arrive, whatever the segments
they arrive in.
-/
import PrunedElectrs.PeerWire

namespace PrunedElectrs

open Wire HeaderHash

namespace ForkHeaders

variable (H : Hashes)

/-- The magic of testnet4. -/
def magic : Bytes := [0x1c, 0x16, 0x3f, 0x28]

theorem length_magic : magic.length = 4 := rfl

/-- What `recv_msg` checks of a frame. -/
def reader : MsgReader where
  magic := magic
  wrongMagic m := "wrong network magic: " ++ hexText m
  limit := some (32 * 1024 * 1024)
  implausible command length :=
    s!"{decodeAscii command} payload of {length} bytes is implausible"
  mismatch := some fun command => s!"{decodeAscii command} checksum mismatch"
  ask := id
  four := length_magic
  asks := Stream.asks_id

/-- A ping with its nonce, and the end of a handshake. -/
def ping : Msg := ⟨tagBytes "ping", leBytes 8 7⟩

/-- The end of a handshake. -/
def verack : Msg := ⟨tagBytes "verack", []⟩

/-- The connection ends within the second of two messages, which came byte by
byte. -/
theorem recvMsg_segments_torn :
    let segments := (([ping, verack].flatMap (frame knownHashes magic)).take 40).map fun b => [b]
    ∃ j ≤ 2, (([ping, verack].take j).flatMap (frame knownHashes magic)).length ≤ 40 ∧
      (j < 2 → 40 < (([ping, verack].take (j + 1)).flatMap (frame knownHashes magic)).length) ∧
      ∃ segments', (reader.framing knownHashes .closed).Receives segments
          ([ping, verack].take j) segments' ∧
        reader.recvMsg knownHashes .closed segments' = .error (.eofError "peer closed") := by
  have htakes : ∀ m ∈ [ping, verack], reader.Takes m := by decide +kernel
  refine recvMsg_segments knownHashes reader .closed htakes 40 ?_
  rw [← List.flatMap_def, List.flatMap_singleton']
  rfl

/-- How the script introduces itself. -/
def userAgentText : String := "/blake2b-header-fetch:0.1/"

/-! ### The `headers` message -/

/-- The length of the header at an offset, from its version field. -/
def headerLength (blob : Bytes) (offset : ℕ) : Py ℕ := do
  let version ← unpackU32 blob offset
  return if version &&& 0x80000000 ≠ 0 then 164 else 80

/-- The loop over the headers, of which `n` are left. -/
def splitFrom (payload : Bytes) : ℕ → ℕ → ℕ → List Bytes → Except NetError (List Bytes × ℕ)
  | 0, _, o, out => .ok (out, o)
  | n + 1, i, o, out =>
      if o + 4 > payload.length then .error (.valueError s!"ran out at header {i}")
      else do
        let length ← ofPy (headerLength payload o)
        if o + length > payload.length then
          .error (.valueError s!"header {i} claims {length} bytes, {payload.length - o} remain")
        else do
          let (txcount, o') ← ofPy (readVarint payload (o + length))
          if txcount ≠ 0 then
            .error (.valueError
              s!"header {i} carries a transaction count of {txcount}, expected 0")
          else splitFrom payload n (i + 1) o' (out ++ [sub payload o length])

/-- The headers of a payload, which has to end with the last one. -/
def splitHeaders (payload : Bytes) : Except NetError (List Bytes) := do
  let (count, o) ← ofPy (readVarint payload 0)
  let (out, o) ← splitFrom payload count 0 o []
  if o ≠ payload.length then
    .error (.valueError s!"{payload.length - o} trailing bytes after {count} headers")
  else return out

/-- The decoder that takes a count in any form. -/
def scanned : VarIntDecoder where
  consensusDecode := scanCompactSize

theorem documented_scanned : scanned.Documented where
  canonical n hn := by
    have hscan := scanCompactSize_compactSize [] hn
    rwa [List.append_nil] at hscan
  consumes _ _ _ h := scanCompactSize_ok h
  nothing_behind b n k h rest := by
    obtain ⟨hk, hcount⟩ := scanCompactSize_ok h
    have hscan := scanCompactSize_append hcount rest
    rwa [List.length_take_of_le hk] at hscan

theorem admits_scanned {n : ℕ} {z : Bytes} : scanned.Admits n z ↔ IsCompactSize n z := by
  constructor
  · intro h
    have hcount := (scanCompactSize_ok h).2
    rwa [List.take_length] at hcount
  · intro h
    have hscan := scanCompactSize_append h []
    rwa [List.append_nil] at hscan

/-- The message of these headers, its counts in any form, and nothing behind it. -/
def Message (hs : List AnyHeader) (b : Bytes) : Prop :=
  ∃ v e, scanned.Admits hs.length v ∧ RawNetworkMessage.Entries scanned hs e ∧ b = v ++ e

/-- The length the script reads off a header is the one the server reads. -/
theorem headerLength_eq {payload : Bytes} {o : ℕ} (h : o + 4 ≤ payload.length) :
    ∃ n, headerLength payload o = .ok n ∧ headerSize (payload.drop o) = .ok n := by
  have hword : (sub payload o 4).length = 4 := length_sub h
  have hdrop : 4 ≤ (payload.drop o).length := by
    rw [List.length_drop]
    omega
  have hflag : leNat (sub payload o 4) &&& 0x80000000 ≠ 0
      ↔ u32of (sub (payload.drop o) 0 4) &&& versionHeaderV2Flag ≠ 0 := by
    rw [not_iff_not, ← UInt32.toNat_inj, UInt32.toNat_and, toNat_u32of (by simpa [sub] using hword)]
    simp [sub, versionHeaderV2Flag]
  refine ⟨_, ?_, headerSize_eq hdrop⟩
  rw [headerLength, unpackU32, if_pos h, py_ok_bind, if_congr hflag rfl rfl]
  rfl

theorem splitFrom_of_entries {hs : List AnyHeader} {e : Bytes}
    (h : RawNetworkMessage.Entries scanned hs e) (front rest : Bytes) (i : ℕ) (out : List Bytes) :
    splitFrom (front ++ (e ++ rest)) hs.length i front.length out
      = .ok (out ++ hs.map AnyHeader.serialize, front.length + e.length) := by
  induction h generalizing front i out with
  | nil => rw [List.map_nil, List.append_nil]; rfl
  | @cons h hs z e hstream hz _ ih =>
      have hsize := h.length_serialize
      have hfour := h.four_le_size
      have hpayload : front ++ (h.serialize ++ (z ++ e) ++ rest)
          = front ++ h.serialize ++ (z ++ (e ++ rest)) := by
        simp only [List.append_assoc]
      have hdrop : (front ++ (h.serialize ++ (z ++ e) ++ rest)).drop front.length
          = h.serialize ++ (z ++ e ++ rest) := by
        rw [List.drop_left, List.append_assoc]
      have hlen : front.length + h.size
          ≤ (front ++ (h.serialize ++ (z ++ e) ++ rest)).length := by
        simp only [List.length_append]
        omega
      -- the length the script announces is the size of the header that stands there
      obtain ⟨n, hn, hn'⟩ :=
        @headerLength_eq (front ++ (h.serialize ++ (z ++ e) ++ rest)) front.length (by omega)
      rw [hdrop, AnyHeader.headerSize_of_parse (AnyHeader.parse_serialize_append hstream _)] at hn'
      cases hn'
      have hcount := readVarint_append (admits_scanned.mp hz) (front ++ h.serialize) (e ++ rest)
      rw [List.length_append, hsize, ← hpayload] at hcount
      have hblob : sub (front ++ (h.serialize ++ (z ++ e) ++ rest)) front.length h.size
          = h.serialize := by
        rw [sub, hdrop, List.take_left' hsize]
      rw [List.length_cons, splitFrom, if_neg (by omega), hn]
      show (if _ then _ else _) = _
      rw [if_neg (by omega), hcount]
      -- the loop goes on behind the entry, with its header among those split off
      have hnext := ih (front ++ h.serialize ++ z) (i + 1) (out ++ [h.serialize])
      rw [List.append_assoc _ z, ← hpayload, List.length_append, List.length_append, hsize,
        List.append_assoc out] at hnext
      show splitFrom _ _ _ _ (out ++ [sub _ _ _]) = _
      rw [hblob, hnext, List.map_cons, List.singleton_append]
      simp only [List.length_append, hsize, Nat.add_assoc]

/-- Whatever the payload, what is split off it are headers, each with a count of
zero behind it. -/
theorem entries_of_splitFrom {payload : Bytes} {n i o o' : ℕ} {out blobs : List Bytes}
    (h : splitFrom payload n i o out = .ok (blobs, o')) :
    ∃ hs e, hs.length = n ∧ RawNetworkMessage.Entries scanned hs e ∧ o' = o + e.length
      ∧ payload.drop o = e ++ payload.drop o' ∧ blobs = out ++ hs.map AnyHeader.serialize := by
  induction n generalizing i o out with
  | zero =>
      cases h
      exact ⟨[], [], rfl, .nil, rfl, rfl, (List.append_nil _).symm⟩
  | succ n ih =>
      -- a round passes its four checks: a version, a whole header, a count, and that of zero
      rw [splitFrom] at h
      split_ifs at h with hfour
      obtain ⟨length, hlength, h⟩ := except_bind_eq_ok.mp h
      split_ifs at h with hfits
      obtain ⟨⟨txcount, behind⟩, hcount, h⟩ := except_bind_eq_ok.mp h
      change (if txcount ≠ 0 then _ else _) = _ at h
      split_ifs at h with hzero
      obtain ⟨length', hlength', hannounced⟩ := headerLength_eq (Nat.not_lt.mp hfour)
      rw [ofPy_eq_ok, hlength'] at hlength
      cases hlength
      -- what is announced and stands there whole is a header
      obtain ⟨header, hparse, rfl⟩ := AnyHeader.parse_of_headerSize hannounced (by
        rw [List.length_drop]
        omega)
      obtain ⟨hstream, hser⟩ := AnyHeader.parse_eq_ok_iff.mp hparse
      obtain ⟨z, rest, hz, hdrop, rfl, hrest⟩ := readVarint_ok (ofPy_eq_ok.mp hcount)
      obtain ⟨hs, e, rfl, hentries, rfl, hbehind, rfl⟩ := ih h
      have htxcount : txcount = 0 := not_not.mp hzero
      subst htxcount
      have hblob : sub payload o header.size = header.serialize := by
        rw [← hser, sub, sub, List.drop_zero]
      refine ⟨header :: hs, header.serialize ++ (z ++ e), rfl,
        .cons hstream (admits_scanned.mpr hz) hentries, ?_, ?_, ?_⟩
      · simp only [List.length_append, header.length_serialize]
        omega
      · have hfront : payload.drop o = header.serialize ++ payload.drop (o + header.size) := by
          rw [← hblob, sub, ← List.drop_drop, List.take_append_drop]
        rw [hfront, hdrop, ← hrest, hbehind]
        simp only [List.append_assoc]
      · rw [hblob, List.map_cons, List.append_assoc, List.singleton_append]

theorem splitHeaders_of_entries {hs : List AnyHeader} {v e : Bytes}
    (hv : IsCompactSize hs.length v) (he : RawNetworkMessage.Entries scanned hs e)
    (rest : Bytes) :
    splitHeaders (v ++ (e ++ rest))
      = if rest.length = 0 then .ok (hs.map AnyHeader.serialize)
        else .error (.valueError
          s!"{rest.length} trailing bytes after {hs.length} headers") := by
  have hcount := readVarint_append hv [] (e ++ rest)
  rw [List.nil_append, List.length_nil, Nat.zero_add] at hcount
  have hlen : (v ++ (e ++ rest)).length = v.length + e.length + rest.length := by
    rw [List.length_append, List.length_append, Nat.add_assoc]
  rw [splitHeaders, hcount]
  show (splitFrom _ _ _ _ _ >>= _) = _
  rw [splitFrom_of_entries he]
  show (if _ then _ else _) = _
  rw [hlen, List.nil_append, Nat.add_sub_cancel_left]
  -- the script compares where it ended with the length of the payload
  by_cases hrest : rest.length = 0
  · rw [if_neg (by omega), if_pos hrest]
    rfl
  · rw [if_pos (by omega), if_neg hrest]

theorem splitHeaders_eq_ok_iff {b : Bytes} {blobs : List Bytes} :
    splitHeaders b = .ok blobs ↔ ∃ hs, blobs = hs.map AnyHeader.serialize ∧ Message hs b := by
  constructor
  · intro h
    obtain ⟨⟨count, o⟩, hcount, h⟩ := except_bind_eq_ok.mp h
    obtain ⟨⟨out, o'⟩, hsplit, h⟩ := except_bind_eq_ok.mp h
    obtain ⟨v, rest, hv, hdrop, rfl, -⟩ := readVarint_ok (ofPy_eq_ok.mp hcount)
    obtain ⟨hs, e, rfl, he, rfl, hentries, rfl⟩ := entries_of_splitFrom hsplit
    change (if _ then _ else _) = _ at h
    split_ifs at h with hend
    cases h
    refine ⟨hs, List.nil_append _, v, e, admits_scanned.mpr hv, he, ?_⟩
    -- nothing is left behind the entries, so the payload is the count and the entries
    have hfront : b = v ++ b.drop (0 + v.length) := by
      rw [Nat.zero_add]
      rw [List.drop_zero] at hdrop
      rw [hdrop, List.drop_left]
    rw [hentries, not_not.mp hend, List.drop_length, List.append_nil] at hfront
    exact hfront
  · rintro ⟨hs, rfl, v, e, hv, he, rfl⟩
    have hsplit := splitHeaders_of_entries (admits_scanned.mp hv) he []
    rwa [List.append_nil] at hsplit

/-- What the server's decoder takes the script takes too. -/
theorem entries_scanned {hs : List AnyHeader} {e : Bytes}
    (h : RawNetworkMessage.Entries RawNetworkMessage.varInt hs e) :
    RawNetworkMessage.Entries scanned hs e := by
  induction h with
  | nil => exact .nil
  | cons hstream hz _ ih =>
      exact .cons hstream (RawNetworkMessage.decodeVarInt_ok hz).1 ih

/-- What the server's decoder takes is split, or refused for the bytes behind the
last header. -/
theorem splitHeaders_of_parseHeaders {M : Memory} {b : Bytes} {hs : List AnyHeader}
    (h : RawNetworkMessage.parseHeaders RawNetworkMessage.varInt M b = .ok (.headers hs)) :
    ∃ v e rest, b = v ++ (e ++ rest) ∧ IsCompactSize hs.length v
      ∧ RawNetworkMessage.Entries scanned hs e
      ∧ (rest = [] → splitHeaders b = .ok (hs.map AnyHeader.serialize))
      ∧ (rest ≠ [] → splitHeaders b
        = .error (.valueError s!"{rest.length} trailing bytes after {hs.length} headers")) := by
  -- a payload that is taken has a count for which there is memory
  have hM : ∀ n k, RawNetworkMessage.varInt.consensusDecode b = .ok (n, k) → M.Reserves n := by
    intro n k hcount
    by_contra hnot
    obtain ⟨text, hpanic⟩ := RawNetworkMessage.parseHeaders_of_not_reserves hcount hnot
    rw [h] at hpanic
    cases hpanic
  obtain ⟨v, e, rest, hv, he, rfl⟩ := ((RawNetworkMessage.decodesExactly_of_reserves
    RawNetworkMessage.documented_varInt hM).accepts hs).mp h
  have hv' : IsCompactSize hs.length v :=
    admits_scanned.mp (RawNetworkMessage.decodeVarInt_ok hv).1
  have hsplit := splitHeaders_of_entries hv' (entries_scanned he) rest
  refine ⟨v, e, rest, rfl, hv', entries_scanned he, fun hrest => ?_, fun hrest => ?_⟩
  · rw [hsplit, if_pos (List.length_eq_zero_iff.mpr hrest)]
  · rw [hsplit, if_neg (mt List.length_eq_zero_iff.mp hrest)]

theorem entries_flatMap {hs : List AnyHeader} (hstream : ∀ h ∈ hs, h.Streamable) :
    RawNetworkMessage.Entries scanned hs (hs.flatMap fun h => h.serialize ++ [0x00]) := by
  induction hs with
  | nil => exact .nil
  | cons h hs ih =>
      rw [List.forall_mem_cons] at hstream
      rw [List.flatMap_cons, List.append_assoc]
      exact .cons hstream.1 (documented_scanned.canonical 0 (by decide)) (ih hstream.2)

theorem splitHeaders_encode {hs : List AnyHeader} (hstream : ∀ h ∈ hs, h.Streamable)
    (hlen : hs.length < 2 ^ 64) :
    splitHeaders (RawNetworkMessage.encode hs) = .ok (hs.map AnyHeader.serialize) := by
  have hcount := admits_scanned.mp (documented_scanned.canonical _ hlen)
  have hsplit := splitHeaders_of_entries hcount (entries_flatMap hstream) []
  rwa [List.append_nil] at hsplit

/-- **A `headers` message is split exactly.**  The script takes a payload when it
is a count and as many headers with counts of zero, to the last byte; it takes
whatever list of headers a stream can carry, and of what the server's decoder
takes it refuses only what has bytes behind the last header, and says how many. -/
theorem splitHeaders_iff :
    (∀ b blobs, splitHeaders b = .ok blobs ↔
      ∃ hs, blobs = hs.map AnyHeader.serialize ∧ Message hs b) ∧
    (∀ hs : List AnyHeader, (∀ h ∈ hs, h.Streamable) → hs.length < 2 ^ 64 →
      splitHeaders (RawNetworkMessage.encode hs) = .ok (hs.map AnyHeader.serialize)) ∧
    ∀ M b hs, RawNetworkMessage.parseHeaders RawNetworkMessage.varInt M b = .ok (.headers hs) →
      ∃ v e rest, b = v ++ (e ++ rest) ∧ IsCompactSize hs.length v
        ∧ RawNetworkMessage.Entries scanned hs e
        ∧ (rest = [] → splitHeaders b = .ok (hs.map AnyHeader.serialize))
        ∧ (rest ≠ [] → splitHeaders b
          = .error (.valueError s!"{rest.length} trailing bytes after {hs.length} headers")) :=
  ⟨fun _ _ => splitHeaders_eq_ok_iff, fun _ => splitHeaders_encode,
    fun _ _ _ => splitHeaders_of_parseHeaders⟩

/-- The headers around the activation, with a byte behind them for the server's
decoder. -/
theorem splitHeaders_iff_activation :
    splitHeaders (RawNetworkMessage.encode activationHeaders)
        = .ok (activationHeaders.map AnyHeader.serialize)
      ∧ (∃ hs, activationHeaders.map AnyHeader.serialize = hs.map AnyHeader.serialize
        ∧ Message hs (RawNetworkMessage.encode activationHeaders))
      ∧ ∃ v e rest, RawNetworkMessage.encode activationHeaders ++ [7] = v ++ (e ++ rest)
        ∧ IsCompactSize activationHeaders.length v
        ∧ RawNetworkMessage.Entries scanned activationHeaders e
        ∧ (rest ≠ [] → splitHeaders (RawNetworkMessage.encode activationHeaders ++ [7])
          = .error (.valueError
            s!"{rest.length} trailing bytes after {activationHeaders.length} headers")) := by
  obtain ⟨hiff, hencode, hserver⟩ := splitHeaders_iff
  have hstream : ∀ h ∈ activationHeaders, h.Streamable := by decide +kernel
  have hsplit := hencode activationHeaders hstream (by decide)
  have hbegins := RawNetworkMessage.beginsWith_encode RawNetworkMessage.documented_varInt hstream
    (by decide) [7]
  have hparse := hbegins.parseHeaders (M := RawNetworkMessage.ampleMemory)
    RawNetworkMessage.documented_varInt (by decide)
  obtain ⟨v, e, rest, hb, hv, he, -, hrefused⟩ := hserver _ _ _ hparse
  exact ⟨hsplit, (hiff _ _).mp hsplit, v, e, rest, hb, hv, he, hrefused⟩

/-! ### One fetch -/

/-- The user agent in a `version` payload. -/
def userAgent (payload : Bytes) : Py String := do
  let (n, o) ← readVarint payload (4 + 8 + 8 + 26 + 26 + 8)
  return decodeAscii (sub payload o n)

/-- What the first loop does with a message, given what has been sent. -/
def awaitVersion (sent : List Bytes) (m : Msg) :
    Except NetError (List Bytes ⊕ (String × List Bytes)) :=
  if m.command = tagBytes "version" then do
    let ua ← ofPy (userAgent m.payload)
    let verack ← ofPy (msg H magic "verack" [])
    return .inr (ua, sent ++ [verack])
  else .ok (.inl sent)

/-- What the second loop does with a message. -/
def awaitHeaders (sent : List Bytes) (m : Msg) :
    Except NetError (List Bytes ⊕ (List Bytes × List Bytes)) :=
  if m.command = tagBytes "headers" then do
    let headers ← splitHeaders m.payload
    return .inr (headers, sent)
  else if m.command = tagBytes "ping" then do
    let pong ← ofPy (msg H magic "pong" m.payload)
    return .inl (sent ++ [pong])
  else .ok (.inl sent)

/-- The request behind the handshake. -/
def getheaders (locator : List Char) : Except NetError Bytes := do
  let payload ← ofPy (PeerWire.getheadersPayload locator)
  ofPy (msg H magic "getheaders" payload)

/-- What a fetch returns, and what it has sent. -/
structure Fetched where
  userAgent : String
  headers : List Bytes
  sent : List Bytes
deriving DecidableEq

/-- `fetch`, from a peer that sends the given segments. -/
def fetch (time : ℕ) (locator : List Char) (ending : Ending) (segments : List Bytes) :
    Except NetError Fetched := do
  let hello ← ofPy (PeerWire.versionPayload userAgentText time)
  let version ← ofPy (msg H magic "version" hello)
  let ((ua, sent), segments) ←
    ((reader.framing H ending).pump (awaitVersion H) [version] segments)
  let request ← getheaders H locator
  let ((headers, sent), _) ←
    ((reader.framing H ending).pump (awaitHeaders H) (sent ++ [request]) segments)
  return { userAgent := ua, headers, sent }

/-! ### What a fetch returns -/

variable {H}

/-- The answers to the pings among these messages. -/
def pongs (H : Hashes) (ms : List Msg) : Py (List Bytes) :=
  (ms.filter (·.command = tagBytes "ping")).mapM fun m => msg H magic "pong" m.payload

theorem pongs_ping {m : Msg} (h : m.command = tagBytes "ping") (ms : List Msg) :
    pongs H (m :: ms) = do
      let pong ← msg H magic "pong" m.payload
      let answers ← pongs H ms
      return pong :: answers := by
  rw [pongs, List.filter_cons_of_pos (by simpa using h), List.mapM_cons]
  rfl

theorem pongs_other {m : Msg} (h : m.command ≠ tagBytes "ping") (ms : List Msg) :
    pongs H (m :: ms) = pongs H ms := by
  rw [pongs, List.filter_cons_of_neg (by simpa using h)]
  rfl

/-- The first loop goes on through all that is not a `version` message, and
sends nothing. -/
theorem skips_awaitVersion {ms : List Msg} {sent sent' : List Bytes} :
    Stream.Skips (awaitVersion H) sent ms sent' ↔
      (∀ m ∈ ms, m.command ≠ tagBytes "version") ∧ sent' = sent := by
  constructor
  · intro h
    induction h with
    | nil => exact ⟨List.forall_mem_nil _, rfl⟩
    | @cons sent sent' sent'' m ms hstep _ ih =>
        rw [awaitVersion] at hstep
        -- a version message would have ended the loop
        split_ifs at hstep with hcommand
        · obtain ⟨ua, -, hstep⟩ := except_bind_eq_ok.mp hstep
          obtain ⟨verack, -, hstep⟩ := except_bind_eq_ok.mp hstep
          cases hstep
        · cases hstep
          exact ⟨List.forall_mem_cons.mpr ⟨hcommand, ih.1⟩, ih.2⟩
  · rintro ⟨hnone, rfl⟩
    induction ms with
    | nil => exact .nil
    | cons m ms ih =>
        rw [List.forall_mem_cons] at hnone
        exact .cons (if_neg hnone.1) (ih hnone.2)

/-- The second loop goes on through all that is not a `headers` message, and
answers the pings. -/
theorem skips_awaitHeaders {ms : List Msg} {sent sent' : List Bytes} :
    Stream.Skips (awaitHeaders H) sent ms sent' ↔
      (∀ m ∈ ms, m.command ≠ tagBytes "headers") ∧
        ∃ answers, pongs H ms = .ok answers ∧ sent' = sent ++ answers := by
  constructor
  · intro h
    induction h with
    | nil => exact ⟨List.forall_mem_nil _, [], rfl, (List.append_nil _).symm⟩
    | @cons sent sent' sent'' m ms hstep _ ih =>
        obtain ⟨hnone, answers, hanswers, rfl⟩ := ih
        rw [awaitHeaders] at hstep
        -- a headers message would have ended the loop; a ping is answered, the rest passed over
        split_ifs at hstep with hheaders hping
        · obtain ⟨headers, -, hstep⟩ := except_bind_eq_ok.mp hstep
          cases hstep
        · obtain ⟨pong, hpong, hstep⟩ := except_bind_eq_ok.mp hstep
          cases hstep
          refine ⟨List.forall_mem_cons.mpr ⟨hheaders, hnone⟩, pong :: answers, ?_, ?_⟩
          · rw [pongs_ping hping, ofPy_eq_ok.mp hpong, py_ok_bind, hanswers]
            rfl
          · rw [List.append_assoc, List.singleton_append]
        · cases hstep
          refine ⟨List.forall_mem_cons.mpr ⟨hheaders, hnone⟩, answers, ?_, rfl⟩
          rw [pongs_other hping, hanswers]
  · rintro ⟨hnone, answers, hanswers, rfl⟩
    induction ms generalizing sent answers with
    | nil =>
        -- without messages there are no pings to answer
        have hnil : answers = [] := (Except.ok.inj hanswers).symm
        rw [hnil, List.append_nil]
        exact .nil
    | cons m ms ih =>
        rw [List.forall_mem_cons] at hnone
        -- the first answer is the one to the first ping
        by_cases hping : m.command = tagBytes "ping"
        · rw [pongs_ping hping] at hanswers
          obtain ⟨pong, hpong, hanswers⟩ := except_bind_eq_ok.mp hanswers
          obtain ⟨answers', hanswers', hanswers⟩ := except_bind_eq_ok.mp hanswers
          cases hanswers
          have hstep : awaitHeaders H sent m = .ok (.inl (sent ++ [pong])) := by
            rw [awaitHeaders, if_neg hnone.1, if_pos hping, hpong]
            rfl
          have hrest : Stream.Skips (awaitHeaders H) (sent ++ [pong]) ms
              (sent ++ [pong] ++ answers') := ih hnone.2 answers' hanswers'
          rw [List.append_assoc, List.singleton_append] at hrest
          exact .cons hstep hrest
        · rw [pongs_other hping] at hanswers
          refine .cons ?_ (ih hnone.2 answers hanswers)
          rw [awaitHeaders, if_neg hnone.1, if_neg hping]

/-- What a fetch sends before it waits for headers. -/
def opening (H : Hashes) (time : ℕ) (locator : List Char) : Except NetError (List Bytes) := do
  let hello ← ofPy (PeerWire.versionPayload userAgentText time)
  let version ← ofPy (msg H magic "version" hello)
  let verack ← ofPy (msg H magic "verack" [])
  let request ← getheaders H locator
  return [version, verack, request]

/-- The messages that a fetch makes its result of: the first `version` message
and the first `headers` message behind it. -/
structure Answers (H : Hashes) (time : ℕ) (locator : List Char) (ms : List Msg) (f : Fetched) :
    Prop where
  intro ::
  split : ∃ before version between headers after front answers,
    ms = before ++ version :: (between ++ headers :: after)
      ∧ (∀ m ∈ before, m.command ≠ tagBytes "version")
      ∧ version.command = tagBytes "version"
      ∧ (∀ m ∈ between, m.command ≠ tagBytes "headers")
      ∧ headers.command = tagBytes "headers"
      ∧ userAgent version.payload = .ok f.userAgent
      ∧ splitHeaders headers.payload = .ok f.headers
      ∧ opening H time locator = .ok front
      ∧ pongs H between = .ok answers
      ∧ f.sent = front ++ answers

theorem awaitVersion_done {sent sent' : List Bytes} {m : Msg} {ua : String} :
    awaitVersion H sent m = .ok (.inr (ua, sent')) ↔
      m.command = tagBytes "version" ∧ userAgent m.payload = .ok ua ∧
        ∃ verack, msg H magic "verack" [] = .ok verack ∧ sent' = sent ++ [verack] := by
  rw [awaitVersion]
  constructor
  · intro h
    split_ifs at h with hcommand
    · obtain ⟨ua', hua, h⟩ := except_bind_eq_ok.mp h
      obtain ⟨verack, hverack, h⟩ := except_bind_eq_ok.mp h
      cases h
      exact ⟨hcommand, ofPy_eq_ok.mp hua, verack, ofPy_eq_ok.mp hverack, rfl⟩
    · cases h
  · rintro ⟨hcommand, hua, verack, hverack, rfl⟩
    rw [if_pos hcommand, hua, hverack]
    rfl

theorem awaitHeaders_done {sent sent' : List Bytes} {m : Msg} {headers : List Bytes} :
    awaitHeaders H sent m = .ok (.inr (headers, sent')) ↔
      m.command = tagBytes "headers" ∧ splitHeaders m.payload = .ok headers ∧ sent' = sent := by
  rw [awaitHeaders]
  constructor
  · intro h
    split_ifs at h with hcommand hping
    · obtain ⟨headers', hheaders, h⟩ := except_bind_eq_ok.mp h
      cases h
      exact ⟨hcommand, hheaders, rfl⟩
    · obtain ⟨pong, -, h⟩ := except_bind_eq_ok.mp h
      cases h
    · cases h
  · rintro ⟨hcommand, hheaders, rfl⟩
    rw [if_pos hcommand, hheaders]
    rfl

theorem fetch_eq_ok_iff {time : ℕ} {locator : List Char} {ending : Ending}
    {segments : List Bytes} {f : Fetched} :
    fetch H time locator ending segments = .ok f ↔
      Answers H time locator ((reader.framing H ending).arriving segments).1 f := by
  have hversions := (reader.framing H ending).sees_pump (awaitVersion H)
  have hheaders := (reader.framing H ending).sees_pump (awaitHeaders H)
  constructor
  · intro h
    obtain ⟨hello, hhello, h⟩ := except_bind_eq_ok.mp h
    obtain ⟨version, hversion, h⟩ := except_bind_eq_ok.mp h
    obtain ⟨⟨⟨ua, sent⟩, segments'⟩, hpump, h⟩ := except_bind_eq_ok.mp h
    obtain ⟨request, hrequest, h⟩ := except_bind_eq_ok.mp h
    obtain ⟨⟨⟨headers, sent'⟩, segments''⟩, hpump', h⟩ := except_bind_eq_ok.mp h
    cases h
    -- each loop ends at the message that it waits for
    obtain ⟨before, m, after, s, hms, hskips, hdone, hrest⟩ :=
      Stream.feed_eq_ok_iff.mp ((hversions _).ok hpump)
    obtain ⟨hbefore, rfl⟩ := skips_awaitVersion.mp hskips
    obtain ⟨hm, hua, verack, hverack, rfl⟩ := awaitVersion_done.mp hdone
    have hfeed := (hheaders _).ok hpump'
    rw [hrest] at hfeed
    obtain ⟨between, m', after', s', rfl, hskips', hdone', -⟩ := Stream.feed_eq_ok_iff.mp hfeed
    obtain ⟨hbetween, answers, hanswers, rfl⟩ := skips_awaitHeaders.mp hskips'
    obtain ⟨hm', hsplit, rfl⟩ := awaitHeaders_done.mp hdone'
    refine ⟨before, m, between, m', after', [version, verack, request], answers, hms, hbefore, hm,
      hbetween, hm', hua, hsplit, ?_, hanswers, rfl⟩
    rw [opening, hhello]
    show (ofPy (msg H magic "version" hello) >>= _) = _
    rw [hversion, hverack]
    show (getheaders H locator >>= _) = _
    rw [hrequest]
    rfl
  · rintro ⟨before, m, between, m', after, front, answers, hms, hbefore, hm, hbetween, hm', hua,
      hsplit, hfront, hanswers, hsent⟩
    obtain ⟨hello, hhello, hfront⟩ := except_bind_eq_ok.mp hfront
    obtain ⟨version, hversion, hfront⟩ := except_bind_eq_ok.mp hfront
    obtain ⟨verack, hverack, hfront⟩ := except_bind_eq_ok.mp hfront
    obtain ⟨request, hrequest, hfront⟩ := except_bind_eq_ok.mp hfront
    cases hfront
    obtain ⟨segments', hpump, hrest⟩ := (hversions [version]).of_ok
      (Stream.feed_eq_ok_iff.mpr ⟨before, m, _, _, hms, skips_awaitVersion.mpr ⟨hbefore, rfl⟩,
        awaitVersion_done.mpr ⟨hm, hua, verack, ofPy_eq_ok.mp hverack, rfl⟩, rfl⟩)
    obtain ⟨segments'', hpump', -⟩ := (hheaders ([version] ++ [verack] ++ [request])).of_ok
      (s := segments') (by
        rw [hrest]
        exact Stream.feed_eq_ok_iff.mpr ⟨between, m', after, _, rfl,
          skips_awaitHeaders.mpr ⟨hbetween, answers, hanswers, rfl⟩,
          awaitHeaders_done.mpr ⟨hm', hsplit, rfl⟩, rfl⟩)
    rw [fetch, hhello]
    show (ofPy (msg H magic "version" hello) >>= _) = _
    rw [hversion]
    show ((reader.framing H ending).pump (awaitVersion H) [version] segments >>= _) = _
    rw [hpump]
    show (getheaders H locator >>= _) = _
    rw [hrequest]
    show ((reader.framing H ending).pump (awaitHeaders H) _ segments' >>= _) = _
    rw [hpump']
    cases f
    cases hsent
    rfl

/-- The segments do not matter, for an error no more than for a result. -/
theorem fetch_congr (time : ℕ) (locator : List Char) (ending : Ending)
    {segments segments' : List Bytes} (h : segments.flatten = segments'.flatten) :
    fetch H time locator ending segments = fetch H time locator ending segments' := by
  have harriving : (reader.framing H ending).arriving segments
      = (reader.framing H ending).arriving segments' := by
    rw [Stream.Framing.arriving, h, Stream.Framing.arriving]
  rw [fetch, fetch]
  refine congrArg _ (funext fun hello => congrArg _ (funext fun version => ?_))
  rcases ((reader.framing H ending).sees_pump (awaitVersion H) [version]).congr harriving with
    ⟨e, he, he'⟩ | ⟨⟨ua, sent⟩, t, t', ht, ht', harriving'⟩
  · rw [he, he']
  · rw [ht, ht']
    refine congrArg (getheaders H locator >>= ·) (funext fun request => ?_)
    rcases ((reader.framing H ending).sees_pump (awaitHeaders H) (sent ++ [request])).congr
      harriving' with ⟨e, he, he'⟩ | ⟨b, u, u', hu, hu', -⟩
    · rw [he, he']
    · rw [hu, hu']
      rfl

theorem Answers.append {time : ℕ} {locator : List Char} {ms : List Msg} {f : Fetched}
    (h : Answers H time locator ms f) (more : List Msg) :
    Answers H time locator (ms ++ more) f := by
  obtain ⟨before, m, between, m', after, front, answers, rfl, h⟩ := h
  refine ⟨before, m, between, m', after ++ more, front, answers, ?_, h⟩
  simp only [List.append_assoc, List.cons_append]

/-- **What a fetch returns is in the messages, not in how they arrive.**  It
succeeds with the first `headers` message behind the first `version` message,
split exactly, having answered the pings before it; cutting the same bytes into
other segments changes neither a result nor an error; and from a peer that sends
such messages it succeeds, whatever else follows them. -/
theorem fetch_iff (H : Hashes) (time : ℕ) (locator : List Char) (ending : Ending) :
    (∀ segments f, fetch H time locator ending segments = .ok f ↔
      Answers H time locator ((reader.framing H ending).arriving segments).1 f) ∧
    (∀ segments segments' : List Bytes, segments.flatten = segments'.flatten →
      fetch H time locator ending segments = fetch H time locator ending segments') ∧
    ∀ (segments : List Bytes) ms rest f, (∀ m ∈ ms, reader.Takes m) →
      segments.flatten = ms.flatMap (frame H magic) ++ rest → Answers H time locator ms f →
      fetch H time locator ending segments = .ok f := by
  refine ⟨fun _ _ => fetch_eq_ok_iff, fun _ _ => fetch_congr time locator ending, ?_⟩
  intro segments ms rest f hms hsegments hanswers
  have hread := (MsgReader.writes (H := H) (R := reader) ending).decodeAll_append hms rest
  rw [fetch_eq_ok_iff, Stream.Framing.arriving, hsegments]
  change Answers H time locator
    ((reader.framing H ending).decodeAll (ms.flatMap (frame H reader.magic) ++ rest)).1 f
  rw [hread]
  exact hanswers.append _

/-- A peer of the fork at its activation, whose messages arrive byte by byte. -/
theorem fetch_iff_activation :
    let version : Msg := ⟨tagBytes "version", zeros 80 ++ compactSize 3 ++ [0x2f, 0x6b, 0x2f]⟩
    let headers : Msg := ⟨tagBytes "headers", RawNetworkMessage.encode activationHeaders⟩
    let segments := ([version, ping, headers].flatMap (frame knownHashes magic)).map fun b => [b]
    ∃ f, fetch knownHashes 1700000000 (displayText (header149536.blockHash knownHashes)) .closed
        segments = .ok f ∧
      f.userAgent = "/k/" ∧ f.headers = activationHeaders.map AnyHeader.serialize := by
  intro version headers segments
  have hua : userAgent version.payload = .ok "/k/" := by decide +kernel
  have hsplit : splitHeaders headers.payload = .ok (activationHeaders.map AnyHeader.serialize) := by
    decide +kernel
  have hopening : (opening knownHashes 1700000000
      (displayText (header149536.blockHash knownHashes))).isOk = true := by decide +kernel
  have hpongs : (pongs knownHashes [ping]).isOk = true := by decide +kernel
  obtain ⟨front, hfront⟩ : ∃ front, opening knownHashes 1700000000
      (displayText (header149536.blockHash knownHashes)) = .ok front := by
    cases h : opening knownHashes 1700000000 (displayText (header149536.blockHash knownHashes)) with
    | error e => rw [h] at hopening; cases hopening
    | ok front => exact ⟨front, rfl⟩
  obtain ⟨answers, hanswers⟩ : ∃ answers, pongs knownHashes [ping] = .ok answers := by
    cases h : pongs knownHashes [ping] with
    | error e => rw [h] at hpongs; cases hpongs
    | ok answers => exact ⟨answers, rfl⟩
  refine ⟨⟨"/k/", activationHeaders.map AnyHeader.serialize, front ++ answers⟩, ?_, rfl, rfl⟩
  -- the ping stands between the two messages the fetch is made of
  refine (fetch_iff knownHashes _ _ .closed).2.2 segments [version, ping, headers] [] _
    (by decide +kernel) ?_ ?_
  · rw [← List.flatMap_def, List.flatMap_singleton', List.append_nil]
  · exact ⟨[], version, [ping], headers, [], front, answers, rfl, List.forall_mem_nil _, rfl,
      by decide +kernel, rfl, hua, hsplit, hfront, hanswers, rfl⟩

end ForkHeaders

end PrunedElectrs
