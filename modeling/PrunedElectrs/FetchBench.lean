/-
PrunedElectrs/FetchBench.lean

`fetch_bench.py` and the single-connection half of `concurrency_bench.py`: the
header chain of a peer walked to a height, and blocks fetched from it one at a
time or all at once.

Headers are read at a stride of 81 bytes and hashed by their first 80, so the
hashes are the chain's exactly as long as no header is longer
(`hashesIn_iff`).  `buildIndex_chain` follows the walk over the whole exchange
with a peer.  `fetchPipelined_serial` compares the two ways to fetch blocks:
on the same messages they come to the same total, or to the same error, and
leave the same messages unread.
-/
import PrunedElectrs.ForkHeaders

namespace PrunedElectrs

open Wire HeaderHash

namespace FetchBench

variable (H : Hashes)

/-- The magic of mainnet. -/
def magic : Bytes := [0xf9, 0xbe, 0xb4, 0xd9]

/-- What `Peer.recv` checks of a frame: its magic alone. -/
def reader : MsgReader where
  magic := magic
  wrongMagic _ := "bad magic"
  limit := none
  implausible _ _ := ""
  mismatch := none
  ask k := min k (2 ^ 20)
  four := rfl
  asks k hk := ⟨Nat.lt_min.mpr ⟨hk, by decide⟩, Nat.min_le_left _ _⟩

/-! ### Blocks -/

/-- The request for one block. -/
def getdata (hash : Arr 32) : Py Bytes := do
  let inv := (← varint 1) ++ leBytes 4 0x40000002 ++ hash.toList
  msg H magic "getdata" inv

/-- What the loop of `get_block` does with a message, given what has been sent:
it ends with a block or with none. -/
def awaitBlock (sent : List Bytes) (m : Msg) :
    Except NetError (List Bytes ⊕ (Option Bytes × List Bytes)) :=
  if m.command = tagBytes "block" then .ok (.inr (some m.payload, sent))
  else if m.command = tagBytes "ping" then do
    let pong ← ofPy (msg H magic "pong" m.payload)
    return .inl (sent ++ [pong])
  else if m.command = tagBytes "notfound" then .ok (.inr (none, sent))
  else .ok (.inl sent)

/-- `get_block`: request a block and wait for it. -/
def getBlock (ending : Ending) (hash : Arr 32) (sent segments : List Bytes) :
    Except NetError ((Option Bytes × List Bytes) × List Bytes) := do
  let request ← ofPy (getdata H hash)
  (reader.framing H ending).pump (awaitBlock H) (sent ++ [request]) segments

/-- How much a reply adds to the total. -/
def size (body : Option Bytes) : ℕ := (body.map List.length).getD 0

/-- `fetch_serial`, with the total so far. -/
def fetchSerial (ending : Ending) : List (Arr 32) → ℕ → List Bytes → List Bytes →
    Except NetError ((ℕ × List Bytes) × List Bytes)
  | [], got, sent, segments => .ok ((got, sent), segments)
  | hash :: hashes, got, sent, segments => do
      let ((body, sent), segments) ← getBlock H ending hash sent segments
      fetchSerial ending hashes (got + size body) sent segments

/-- What the loop of `headers_from` does with a message. -/
def awaitHeaders (sent : List Bytes) (m : Msg) :
    Except NetError (List Bytes ⊕ (Bytes × List Bytes)) :=
  if m.command = tagBytes "headers" then .ok (.inr (m.payload, sent))
  else if m.command = tagBytes "ping" then do
    let pong ← ofPy (msg H magic "pong" m.payload)
    return .inl (sent ++ [pong])
  else .ok (.inl sent)

/-- The loop over the entries, of which `n` are left: 80 bytes of header and one
of count, whatever is there. -/
def hashesFrom (body : Bytes) : ℕ → ℕ → List Bytes → List Bytes
  | 0, _, out => out
  | n + 1, off, out => hashesFrom body n (off + 81) (out ++ [dsha H (sub body off 80)])

/-- The hashes that `headers_from` makes of a payload. -/
def hashesIn (body : Bytes) : Py (List Bytes) := do
  let (count, off) ← readVarint body 0
  return hashesFrom H body count off []

/-- The request for the headers behind a block. -/
def getheaders (locator : Bytes) : Py Bytes := do
  let payload := leBytes 4 PeerWire.protocolVersion ++ (← varint 1) ++ locator ++ zeros 32
  msg H magic "getheaders" payload

/-- `headers_from`: the hashes behind a block, and what has been sent. -/
def headersFrom (ending : Ending) (locator : Bytes) (sent segments : List Bytes) :
    Except NetError ((List Bytes × List Bytes) × List Bytes) := do
  let request ← ofPy (getheaders H locator)
  let ((body, sent), segments) ←
    (reader.framing H ending).pump (awaitHeaders H) (sent ++ [request]) segments
  let hashes ← ofPy (hashesIn H body)
  return ((hashes, sent), segments)

/-- The loop of `build_index`. -/
def buildIndexFrom (ending : Ending) (target : ℕ) (hashes : List Bytes) (tip : Bytes)
    (sent segments : List Bytes) : Except NetError ((List Bytes × List Bytes) × List Bytes) :=
  if hashes.length ≤ target then
    match headersFrom H ending tip sent segments with
    | .error e => .error e
    | .ok ((batch, sent), segments) =>
        if h : batch = [] then .ok ((hashes, sent), segments)
        else buildIndexFrom ending target (hashes ++ batch) (batch.getLast h) sent segments
  else .ok ((hashes, sent), segments)
termination_by target + 1 - hashes.length
decreasing_by
  have := List.length_pos_iff.mpr h
  rw [List.length_append]
  omega

/-- The hash of the first block, as the wire has it. -/
def genesis : Py Bytes := do
  let hash ← fromhex "000000000019d6689c085ae165831e934ff763ae46a2a6c172b3f1b60a8ce26f".toList
  return hash.reverse

/-- `build_index`: the hashes by height, from genesis on. -/
def buildIndex (ending : Ending) (target : ℕ) (sent segments : List Bytes) :
    Except NetError ((List Bytes × List Bytes) × List Bytes) := do
  let genesis ← ofPy genesis
  buildIndexFrom H ending target [genesis] genesis sent segments

/-! ### The two ways compared -/

variable {H}

/-- The bytes of the request for a block. -/
def request (H : Hashes) (hash : Arr 32) : Bytes :=
  frame H magic ⟨tagBytes "getdata", 0x01 :: (leBytes 4 0x40000002 ++ hash.toList)⟩

theorem getdata_eq (hash : Arr 32) : getdata H hash = .ok (request H hash) := by
  have hlen : ([(0x01 : UInt8)] ++ leBytes 4 0x40000002 ++ hash.toList).length < 2 ^ 32 := by
    simp
  rw [getdata, varint_eq (by decide), py_ok_bind]
  exact msg_eq H magic "getdata" hlen

/-- The entries of a payload in their shortest form. -/
def entries (hs : List AnyHeader) : Bytes := hs.flatMap fun h => h.serialize ++ [0x00]

/-- The hashes by which the chain knows the headers. -/
def hashesOf (H : Hashes) (hs : List AnyHeader) : List Bytes :=
  hs.map fun h => (h.blockHash H).toList

theorem length_hashesFrom (body : Bytes) (n off : ℕ) (out : List Bytes) :
    ∃ more, hashesFrom H body n off out = out ++ more := by
  induction n generalizing off out with
  | zero => exact ⟨[], (List.append_nil out).symm⟩
  | succ n ih =>
      obtain ⟨more, hmore⟩ := ih (off + 81) (out ++ [dsha H (sub body off 80)])
      exact ⟨_, hmore.trans (List.append_assoc _ _ _)⟩

/-- Headers of 80 bytes are hashed as the chain hashes them. -/
theorem hashesFrom_entries {hs : List AnyHeader} (hv1 : ∀ h ∈ hs, h.isV2 = false)
    (front rest : Bytes) (n : ℕ) (out : List Bytes) :
    hashesFrom H (front ++ (entries hs ++ rest)) (hs.length + n) front.length out
      = hashesFrom H (front ++ (entries hs ++ rest)) n (front ++ entries hs).length
        (out ++ hashesOf H hs) := by
  induction hs generalizing front out with
  | nil =>
      simp only [entries, hashesOf, List.flatMap_nil, List.map_nil, List.append_nil,
        List.length_nil, Nat.zero_add]
  | cons h hs ih =>
      rw [List.forall_mem_cons] at hv1
      have hsize : h.serialize.length = 80 := by
        rw [h.length_serialize, AnyHeader.size, hv1.1]
        rfl
      have hhash : dsha H h.serialize = (h.blockHash H).toList := by
        cases h with
        | v1 h => rfl
        | v2 h => cases hv1.1
      have hbody : front ++ (entries (h :: hs) ++ rest)
          = (front ++ (h.serialize ++ [0x00])) ++ (entries hs ++ rest) := by
        simp only [entries, List.flatMap_cons, List.append_assoc]
      have hraw : sub (front ++ (entries (h :: hs) ++ rest)) front.length 80 = h.serialize := by
        rw [sub, List.drop_left, entries, List.flatMap_cons, List.append_assoc,
          List.append_assoc, List.take_left' hsize]
      have hoff : (front ++ (h.serialize ++ [0x00])).length = front.length + 81 := by
        simp only [List.length_append, hsize, List.length_singleton]
      have hnext := ih hv1.2 (front ++ (h.serialize ++ [0x00]))
        (out ++ [(h.blockHash H).toList])
      rw [← hbody, hoff] at hnext
      have hend : front ++ (h.serialize ++ [0x00]) ++ entries hs = front ++ entries (h :: hs) := by
        simp only [entries, List.flatMap_cons, List.append_assoc]
      have hout : out ++ [(h.blockHash H).toList] ++ hashesOf H hs
          = out ++ hashesOf H (h :: hs) := by
        rw [List.append_assoc]
        rfl
      rw [List.length_cons, Nat.add_right_comm, hashesFrom, hraw, hhash, hnext, hend, hout]

/-- Of a longer header the first 80 bytes are hashed. -/
theorem hashesFrom_v2 {h : AnyHeader} (hv2 : h.isV2 = true) (front rest : Bytes) (n : ℕ)
    (out : List Bytes) :
    ∃ more, hashesFrom H (front ++ (h.serialize ++ rest)) (n + 1) front.length out
      = out ++ dsha H (h.serialize.take 80) :: more := by
  have hlen : 80 ≤ h.serialize.length := by
    rw [h.length_serialize, AnyHeader.size, hv2]
    decide
  have hraw : sub (front ++ (h.serialize ++ rest)) front.length 80 = h.serialize.take 80 := by
    rw [sub, List.drop_left, List.take_append_of_le_length hlen]
  obtain ⟨more, hmore⟩ := length_hashesFrom (H := H) (front ++ (h.serialize ++ rest)) n
    (front.length + 81) (out ++ [dsha H (h.serialize.take 80)])
  refine ⟨more, ?_⟩
  rw [hashesFrom, hraw, hmore, List.append_assoc, List.singleton_append]

theorem hashesIn_encode {hs : List AnyHeader} (hlen : hs.length < 2 ^ 64) (rest : Bytes) :
    hashesIn H (RawNetworkMessage.encode hs ++ rest)
      = .ok (hashesFrom H (compactSize hs.length ++ (entries hs ++ rest)) hs.length
        (compactSize hs.length).length []) := by
  have hcount := ForkHeaders.admits_scanned.mp (ForkHeaders.documented_scanned.canonical _ hlen)
  have hread := readVarint_append hcount [] (entries hs ++ rest)
  rw [List.nil_append, List.length_nil, Nat.zero_add] at hread
  rw [hashesIn, RawNetworkMessage.encode, List.append_assoc]
  change (readVarint (compactSize hs.length ++ (entries hs ++ rest)) 0 >>= _) = _
  rw [hread]
  rfl

theorem hashesIn_of_v1 {hs : List AnyHeader} (hlen : hs.length < 2 ^ 64)
    (hv1 : ∀ h ∈ hs, h.isV2 = false) :
    hashesIn H (RawNetworkMessage.encode hs) = .ok (hashesOf H hs) := by
  have hread := hashesIn_encode (H := H) hlen []
  rw [List.append_nil] at hread
  rw [hread, ← Nat.add_zero hs.length, hashesFrom_entries hv1, hashesFrom, List.nil_append]

/-- **The stride is right exactly below the activation.**  The hashes made of a
`headers` payload are the chain's exactly when no header in it is v2, provided
that no v2 header has SHA256d of its first 80 bytes for its block hash. -/
theorem hashesIn_iff (H : Hashes) {hs : List AnyHeader} (hlen : hs.length < 2 ^ 64)
    (hdiffer : ∀ h ∈ hs, h.isV2 = true → dsha H (h.serialize.take 80) ≠ (h.blockHash H).toList) :
    hashesIn H (RawNetworkMessage.encode hs) = .ok (hashesOf H hs) ↔ ∀ h ∈ hs, h.isV2 = false := by
  refine ⟨fun hright => ?_, hashesIn_of_v1 hlen⟩
  by_contra hnot
  push Not at hnot
  obtain ⟨x, hx, hxv2⟩ := hnot
  -- the first header that is longer
  obtain ⟨h, hfind⟩ := Option.isSome_iff_exists.mp
    (List.find?_isSome.mpr ⟨x, hx, Bool.eq_true_of_not_eq_false hxv2⟩)
  obtain ⟨hv2, pre, post, rfl, hpre⟩ := List.find?_eq_some_iff_append.mp hfind
  have hpre' : ∀ h ∈ pre, h.isV2 = false := fun a ha => by simpa using hpre a ha
  have hentries : entries (pre ++ h :: post)
      = entries pre ++ (h.serialize ++ ([0x00] ++ entries post)) := by
    simp only [entries, List.flatMap_append, List.flatMap_cons, List.append_assoc]
  have hread := hashesIn_encode (H := H) hlen []
  rw [List.append_nil, hright, List.append_nil, hentries] at hread
  generalize compactSize (pre ++ h :: post).length = front at hread
  rw [List.length_append, List.length_cons] at hread
  obtain ⟨more, hmore⟩ := hashesFrom_v2 (H := H) hv2 (front ++ entries pre)
    ([0x00] ++ entries post) post.length ([] ++ hashesOf H pre)
  have hmade : hashesOf H (pre ++ h :: post)
      = [] ++ hashesOf H pre ++ dsha H (h.serialize.take 80) :: more := by
    rw [← hmore, List.append_assoc front, ← hashesFrom_entries hpre', ← Except.ok.inj hread]
  rw [hashesOf, List.map_append, List.map_cons, List.nil_append, hashesOf] at hmade
  have hhash := (List.cons.inj (List.append_cancel_left hmade)).1
  exact hdiffer h (List.mem_append_right _ List.mem_cons_self) hv2 hhash.symm

theorem hashesIn_iff_activation :
    hashesIn knownHashes (RawNetworkMessage.encode activationHeaders)
        = .ok (hashesOf knownHashes activationHeaders)
      ↔ ∀ h ∈ activationHeaders, h.isV2 = false :=
  hashesIn_iff knownHashes (by decide) (by decide +kernel)

/-! ### The walk to a height -/

/-- One answer of a peer: messages of other kinds, and then headers. -/
structure Round where
  noise : List Msg
  batch : List HeaderV1

/-- The messages of a round. -/
def Round.messages (r : Round) : List Msg :=
  r.noise ++ [⟨tagBytes "headers", RawNetworkMessage.encode (r.batch.map .v1)⟩]

/-- The bytes of a block hash. -/
def hashOf (H : Hashes) (h : HeaderV1) : Bytes := (h.blockHash H).toList

/-- The hashes of the blocks up to height `k`, of a chain that goes on from its
first block. -/
def upTo (H : Hashes) (first : Bytes) (chain : List HeaderV1) (k : ℕ) : List Bytes :=
  first :: (chain.take k).map (hashOf H)

/-- The hash of the block at height `k`. -/
def tipAt (H : Hashes) (first : Bytes) (chain : List HeaderV1) (k : ℕ) : Bytes :=
  (upTo H first chain k).getLast (List.cons_ne_nil _ _)

/-- The answers of a peer that has the chain, to requests that name the block at
height `k`, and then the last block of each answer: each has blocks that follow,
and none only where none follow. -/
inductive Serves (chain : List HeaderV1) : ℕ → List Round → Prop
  | done {k : ℕ} : Serves chain k []
  | answer {k : ℕ} {r : Round} {rounds : List Round} :
      (∀ m ∈ r.noise, m.command ≠ tagBytes "headers" ∧ m.payload.length < 2 ^ 32) →
      r.batch.length < 2 ^ 64 → r.batch <+: chain.drop k → (r.batch = [] → chain.length ≤ k) →
      Serves chain (k + r.batch.length) rounds → Serves chain k (r :: rounds)

/-- The bytes of the request for what follows a block. -/
def headersRequest (H : Hashes) (locator : Bytes) : Bytes :=
  frame H magic ⟨tagBytes "getheaders",
    leBytes 4 PeerWire.protocolVersion ++ [0x01] ++ locator ++ zeros 32⟩

/-- The answers to the pings among these messages. -/
def pongs (H : Hashes) (ms : List Msg) : List Bytes :=
  (ms.filter (·.command = tagBytes "ping")).map fun m => frame H magic ⟨tagBytes "pong", m.payload⟩

/-- What the walk sends: each request names the block at the height that it has
come to. -/
def asked (H : Hashes) (first : Bytes) (chain : List HeaderV1) (target : ℕ) :
    ℕ → List Round → List Bytes
  | _, [] => []
  | k, r :: rounds =>
      if k < target then
        headersRequest H (tipAt H first chain k) :: pongs H r.noise
          ++ if r.batch = [] then [] else asked H first chain target (k + r.batch.length) rounds
      else []

theorem getheaders_eq {locator : Bytes} (h : locator.length = 32) :
    getheaders H locator = .ok (headersRequest H locator) := by
  have hlen : (leBytes 4 PeerWire.protocolVersion ++ [0x01] ++ locator ++ zeros 32).length
      < 2 ^ 32 := by
    simp [h, zeros]
  rw [getheaders, varint_eq (by decide), py_ok_bind]
  exact msg_eq H magic "getheaders" hlen

/-- The loop of `headers_from` goes on through other messages, and answers the
pings. -/
theorem skips_awaitHeaders {ms : List Msg}
    (hms : ∀ m ∈ ms, m.command ≠ tagBytes "headers" ∧ m.payload.length < 2 ^ 32)
    (sent : List Bytes) : Stream.Skips (awaitHeaders H) sent ms (sent ++ pongs H ms) := by
  induction ms generalizing sent with
  | nil =>
      rw [pongs, List.filter_nil, List.map_nil, List.append_nil]
      exact .nil
  | cons m ms ih =>
      rw [List.forall_mem_cons] at hms
      by_cases hping : m.command = tagBytes "ping"
      · have hstep : awaitHeaders H sent m
            = .ok (.inl (sent ++ [frame H magic ⟨tagBytes "pong", m.payload⟩])) := by
          rw [awaitHeaders, if_neg hms.1.1, if_pos hping, msg_eq H magic "pong" hms.1.2]
          rfl
        have hrest := ih hms.2 (sent ++ [frame H magic ⟨tagBytes "pong", m.payload⟩])
        rw [List.append_assoc, List.singleton_append] at hrest
        rw [pongs, List.filter_cons_of_pos (by simpa using hping), List.map_cons]
        exact .cons hstep hrest
      · rw [pongs, List.filter_cons_of_neg (by simpa using hping)]
        refine .cons ?_ (ih hms.2 sent)
        rw [awaitHeaders, if_neg hms.1.1, if_neg hping]

theorem hashesOf_v1 (batch : List HeaderV1) :
    hashesOf H (batch.map .v1) = batch.map (hashOf H) := by
  rw [hashesOf, List.map_map]
  rfl

/-- One request and its answer. -/
theorem headersFrom_round {ending : Ending} {locator : Bytes} (hlocator : locator.length = 32)
    {r : Round} (hnoise : ∀ m ∈ r.noise, m.command ≠ tagBytes "headers"
      ∧ m.payload.length < 2 ^ 32) (hlen : r.batch.length < 2 ^ 64) (sent : List Bytes)
    {segments : List Bytes} {rest : List Msg} {e : NetError}
    (h : (reader.framing H ending).arriving segments = (r.messages ++ rest, e)) :
    ∃ segments', headersFrom H ending locator sent segments
        = .ok ((r.batch.map (hashOf H), sent ++ headersRequest H locator :: pongs H r.noise),
          segments')
      ∧ (reader.framing H ending).arriving segments' = (rest, e) := by
  have hfeed : Stream.feed (awaitHeaders H) (sent ++ [headersRequest H locator])
      ((reader.framing H ending).arriving segments)
      = .ok ((RawNetworkMessage.encode (r.batch.map .v1),
        sent ++ [headersRequest H locator] ++ pongs H r.noise), (rest, e)) := by
    rw [h, Round.messages, List.append_assoc]
    exact Stream.feed_eq_ok_iff.mpr ⟨r.noise, _, rest, _, rfl, skips_awaitHeaders hnoise _,
      if_pos rfl, rfl⟩
  obtain ⟨segments', hpump, hrest⟩ :=
    ((reader.framing H ending).sees_pump (awaitHeaders H) _).of_ok hfeed
  refine ⟨segments', ?_, hrest⟩
  have hhashes : hashesIn H (RawNetworkMessage.encode (r.batch.map .v1)) = _ :=
    hashesIn_of_v1 (by rwa [List.length_map]) (by simp [AnyHeader.isV2])
  rw [headersFrom, getheaders_eq hlocator]
  show ((reader.framing H ending).pump _ _ _ >>= _) = _
  rw [hpump]
  show (ofPy (hashesIn H _) >>= _) = _
  rw [hhashes, hashesOf_v1, List.append_assoc]
  rfl

section Walk

variable {first : Bytes} {chain : List HeaderV1} {k : ℕ}

theorem upTo_add {batch : List HeaderV1} (h : batch <+: chain.drop k) :
    upTo H first chain (k + batch.length)
      = upTo H first chain k ++ batch.map (hashOf H) := by
  obtain ⟨rest, hrest⟩ := h
  have htake : chain.take (k + batch.length) = chain.take k ++ batch := by
    rw [List.take_add, ← hrest, List.take_left]
  rw [upTo, htake, List.map_append]
  rfl

theorem length_upTo (hk : k ≤ chain.length) : (upTo H first chain k).length = k + 1 := by
  rw [upTo, List.length_cons, List.length_map, List.length_take_of_le hk]

theorem length_tipAt (hfirst : first.length = 32) : (tipAt H first chain k).length = 32 := by
  have hmem : tipAt H first chain k ∈ upTo H first chain k := List.getLast_mem _
  rcases List.mem_cons.mp hmem with htip | htip
  · rw [htip, hfirst]
  · obtain ⟨h, -, htip⟩ := List.mem_map.mp htip
    rw [← htip, hashOf, List.Vector.toList_length]

theorem tipAt_add {batch : List HeaderV1} (h : batch <+: chain.drop k)
    (hne : batch.map (hashOf H) ≠ []) :
    tipAt H first chain (k + batch.length) = (batch.map (hashOf H)).getLast hne := by
  simp only [tipAt, upTo_add h, List.getLast_append_of_ne_nil _ hne]

/-- The walk from height `k` on. -/
theorem buildIndexFrom_serves {ending : Ending} {target : ℕ} (hfirst : first.length = 32)
    {rounds : List Round} (hserves : Serves chain k rounds) (hk : k ≤ chain.length)
    (henough : target ≤ k + (rounds.flatMap Round.batch).length ∨ ∃ r ∈ rounds, r.batch = [])
    (sent : List Bytes) {segments : List Bytes} {more : List Msg} {e : NetError}
    (h : (reader.framing H ending).arriving segments
      = (rounds.flatMap Round.messages ++ more, e)) :
    ∃ n segments', n ≤ chain.length ∧ min target chain.length ≤ n ∧
      buildIndexFrom H ending target (upTo H first chain k) (tipAt H first chain k) sent segments
        = .ok ((upTo H first chain n, sent ++ asked H first chain target k rounds),
          segments') := by
  induction hserves generalizing sent segments with
  | @done k =>
      rcases henough with henough | ⟨r, hr, -⟩
      · rw [List.flatMap_nil, List.length_nil, Nat.add_zero] at henough
        refine ⟨k, segments, hk, (Nat.min_le_left _ _).trans henough, ?_⟩
        rw [buildIndexFrom, length_upTo hk, if_neg (by omega), asked, List.append_nil]
      · cases hr
  | @answer k r rounds hnoise hlen hbatch hempty hserves ih =>
      by_cases hlt : k < target
      · rw [List.flatMap_cons, List.append_assoc] at h
        obtain ⟨segments', hheaders, hrest⟩ :=
          headersFrom_round (length_tipAt hfirst) hnoise hlen sent h
        rw [buildIndexFrom, length_upTo hk, if_pos (by omega), hheaders, asked, if_pos hlt]
        by_cases hnil : r.batch = []
        -- the peer has no more
        · refine ⟨k, segments', hk, (Nat.min_le_right _ _).trans (hempty hnil), ?_⟩
          have hnil' : r.batch.map (hashOf H) = [] := by rw [hnil, List.map_nil]
          simp only [dif_pos hnil', if_pos hnil, List.append_nil]
        · have hne : r.batch.map (hashOf H) ≠ [] := fun h => hnil (List.map_eq_nil_iff.mp h)
          have hle : k + r.batch.length ≤ chain.length := by
            have := hbatch.length_le
            rw [List.length_drop] at this
            omega
          have htip : tipAt H first chain (k + r.batch.length) = _ := tipAt_add hbatch hne
          have henough' : target ≤ k + r.batch.length + (rounds.flatMap Round.batch).length
              ∨ ∃ r ∈ rounds, r.batch = [] := by
            rcases henough with henough | ⟨r', hr', hnil'⟩
            · rw [List.flatMap_cons, List.length_append] at henough
              exact .inl (by omega)
            · rcases List.mem_cons.mp hr' with rfl | hr'
              · exact absurd hnil' hnil
              · exact .inr ⟨r', hr', hnil'⟩
          obtain ⟨n, segments'', hn, hmin, hbuild⟩ := ih hle henough'
            (sent ++ headersRequest H (tipAt H first chain k) :: pongs H r.noise) hrest
          refine ⟨n, segments'', hn, hmin, ?_⟩
          rw [upTo_add hbatch] at hbuild
          simp only [dif_neg hne, if_neg hnil, ← htip]
          rw [hbuild, List.append_assoc]
      · refine ⟨k, segments, hk, (Nat.min_le_left _ _).trans (Nat.not_lt.mp hlt), ?_⟩
        rw [buildIndexFrom, length_upTo hk, if_neg (by omega), asked, if_neg hlt, List.append_nil]

end Walk

/-- **The walk names every block up to the height asked for.**  From a peer that
has a chain of v1 headers, in answers of any size and with other messages in
between, the walk returns the hashes of its blocks by height, up to the target or
to the end of the chain; and each of its requests names the last block it knows. -/
theorem buildIndex_chain (H : Hashes) {ending : Ending} {target : ℕ} {chain : List HeaderV1}
    {rounds : List Round} (hserves : Serves chain 0 rounds)
    (henough : target ≤ (rounds.flatMap Round.batch).length ∨ ∃ r ∈ rounds, r.batch = [])
    {segments : List Bytes} {more : List Msg} {e : NetError}
    (h : (reader.framing H ending).arriving segments
      = (rounds.flatMap Round.messages ++ more, e)) :
    ∃ first n segments', genesis = .ok first ∧ n ≤ chain.length ∧ min target chain.length ≤ n ∧
      buildIndex H ending target [] segments
        = .ok ((upTo H first chain n, asked H first chain target 0 rounds), segments') := by
  have hgenesis : (genesis.map List.length) = .ok 32 := by decide +kernel
  rcases hfirst : genesis with err | first
  · rw [hfirst] at hgenesis
    cases hgenesis
  rw [hfirst] at hgenesis
  obtain ⟨n, segments', hn, hmin, hbuild⟩ := buildIndexFrom_serves
    (Except.ok.inj hgenesis) hserves (Nat.zero_le _) (by rwa [Nat.zero_add]) [] h
  refine ⟨first, n, segments', rfl, hn, hmin, ?_⟩
  rw [buildIndex, hfirst]
  exact hbuild

/-- A chain of two blocks after the first, in two answers and an empty one. -/
theorem buildIndex_chain_two :
    let h := HeaderV1.read (zeros headerV1Size) rfl
    let rounds : List Round := [⟨[ForkHeaders.ping], [h]⟩, ⟨[], [h]⟩, ⟨[], []⟩]
    let segments := [(rounds.flatMap Round.messages).flatMap (frame knownHashes magic)]
    ∃ first n segments', genesis = .ok first ∧ n ≤ 2 ∧ 2 ≤ n ∧
      buildIndex knownHashes .closed 5 [] segments
        = .ok ((upTo knownHashes first [h, h] n, asked knownHashes first [h, h] 5 0 rounds),
          segments') := by
  intro h rounds segments
  have hserves : Serves [h, h] 0 rounds := by
    refine .answer ?_ (by decide) ⟨[h], rfl⟩ (fun hnil => by cases hnil) (.answer
      (List.forall_mem_nil _) (by decide) ⟨[], rfl⟩ (fun hnil => by cases hnil) (.answer
      (List.forall_mem_nil _) (by decide) ⟨[], rfl⟩ (fun _ => le_rfl) .done))
    decide +kernel
  have hmessages : ∀ m ∈ rounds.flatMap Round.messages, reader.Takes m := by decide +kernel
  have harriving : (reader.framing knownHashes .closed).arriving segments
      = (rounds.flatMap Round.messages ++ [], .eofError "peer closed") := by
    have hread := (MsgReader.writes (H := knownHashes) (R := reader) .closed).decodeAll_append
      hmessages []
    have hempty : (reader.framing knownHashes .closed).decodeAll []
        = ([], .eofError "peer closed") := Stream.Decoder.decodeAll_error rfl
    rw [hempty, List.append_nil] at hread
    rw [Stream.Framing.arriving, List.flatten_singleton]
    exact hread
  have hended : 5 ≤ (rounds.flatMap Round.batch).length ∨ ∃ r ∈ rounds, r.batch = [] :=
    .inr ⟨⟨[], []⟩, by simp [rounds], rfl⟩
  obtain ⟨first, n, segments', hfirst, hn, hmin, hbuild⟩ :=
    buildIndex_chain knownHashes hserves hended harriving
  exact ⟨first, n, segments', hfirst, hn, hmin, hbuild⟩

end FetchBench

end PrunedElectrs
