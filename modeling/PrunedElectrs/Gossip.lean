/-
PrunedElectrs/Gossip.lean

`parse_addrs` of `find_fork_peers.py`: the peers that a gossip message tells of.

The loop takes entry after entry and stops at the first exception, so what it
returns depends on where a message breaks off.  An entry is read whole or not at
all (`Reads`), from which `parseAddrs_entries` says what is returned for any
payload.
-/
import PrunedElectrs.PeerWire

namespace PrunedElectrs

open Wire HeaderHash

namespace ForkPeers

/-- `struct.unpack_from(">H", raw, offset)[0]`. -/
def unpackU16be (raw : Bytes) (offset : ℕ) : Py ℕ :=
  if offset + 2 ≤ raw.length then .ok (leNat (sub raw offset 2).reverse) else .error .structError

/-- Where a peer listens. -/
structure Address where
  host : String
  port : ℕ
deriving DecidableEq

/-- `socket.inet_ntoa`. -/
def inetNtoa (b : Bytes) : String :=
  String.intercalate "." (b.map fun x => toString x.toNat)

/-- An entry of an `addr` message: a peer if it is one with an IPv4 address, and
the offset behind the entry. -/
def addrEntry (payload : Bytes) (o : ℕ) : Py (Option Address × ℕ) := do
  let ipbytes := sub payload (o + 12) 16
  let port ← unpackU16be payload (o + 12 + 16)
  let peer := if ipbytes.take 12 = zeros 10 ++ [0xff, 0xff]
    then some ⟨inetNtoa (ipbytes.drop 12), port⟩ else none
  return (peer, o + 12 + 16 + 2)

/-- An entry of an `addrv2` message. -/
def addrv2Entry (payload : Bytes) (o : ℕ) : Py (Option Address × ℕ) := do
  let (_, o) ← readVarint payload (o + 4)
  let network ← getAt .indexError payload o
  let (n, o) ← readVarint payload (o + 1)
  let blob := sub payload o n
  let port ← unpackU16be payload (o + n)
  let peer := if network = 1 ∧ blob.length = 4 then some ⟨inetNtoa blob, port⟩ else none
  return (peer, o + n + 2)

/-- The loop over the entries, of which `n` are left; an exception ends it. -/
def parseAddrsFrom (entry : Bytes → ℕ → Py (Option Address × ℕ)) (payload : Bytes) :
    ℕ → ℕ → List Address → List Address
  | 0, _, peers => peers
  | n + 1, o, peers =>
      match entry payload o with
      | .error _ => peers
      | .ok (peer, o) => parseAddrsFrom entry payload n o (peers ++ peer.toList)

/-- The peers in an `addr` or `addrv2` payload, at most a thousand. -/
def parseAddrs (command payload : Bytes) : List Address :=
  match readVarint payload 0 with
  | .error _ => []
  | .ok (count, o) =>
      parseAddrsFrom (if command = tagBytes "addr" then addrEntry else addrv2Entry) payload
        (min count 1000) o []

/-! ### Entries -/

/-- An entry of an `addr` message, and the peer it tells of if it tells of one. -/
def IsAddr (peer : Option Address) (z : Bytes) : Prop :=
  ∃ front ip port : Bytes, front.length = 12 ∧ ip.length = 16 ∧ port.length = 2
    ∧ z = front ++ (ip ++ port)
    ∧ peer = if ip.take 12 = zeros 10 ++ [0xff, 0xff]
        then some ⟨inetNtoa (ip.drop 12), leNat port.reverse⟩ else none

/-- An entry of an `addrv2` message. -/
def IsAddrv2 (peer : Option Address) (z : Bytes) : Prop :=
  ∃ (time services : Bytes) (s : ℕ) (network : UInt8) (count blob port : Bytes),
    time.length = 4 ∧ IsCompactSize s services ∧ IsCompactSize blob.length count
    ∧ port.length = 2 ∧ z = time ++ (services ++ ([network] ++ (count ++ (blob ++ port))))
    ∧ peer = if network = 1 ∧ blob.length = 4
        then some ⟨inetNtoa blob, leNat port.reverse⟩ else none

/-- The entries of the message with the given command; any but `addr` is read as
`addrv2`. -/
def IsEntry (command : Bytes) : Option Address → Bytes → Prop :=
  if command = tagBytes "addr" then IsAddr else IsAddrv2

/-- The peers that entries tell of. -/
def peersOf (es : List (Option Address × Bytes)) : List Address := es.flatMap fun e => e.1.toList

theorem peersOf_cons (peer : Option Address) (z : Bytes) (es : List (Option Address × Bytes)) :
    peersOf ((peer, z) :: es) = peer.toList ++ peersOf es := List.flatMap_cons

/-- The function reads these entries and nothing else. -/
structure Reads (entry : Bytes → ℕ → Py (Option Address × ℕ))
    (Entry : Option Address → Bytes → Prop) : Prop where
  pos : ∀ peer z, Entry peer z → 0 < z.length
  append : ∀ peer z, Entry peer z → ∀ front rest,
    entry (front ++ (z ++ rest)) front.length = .ok (peer, front.length + z.length)
  ok : ∀ payload o peer o', entry payload o = .ok (peer, o') →
    ∃ z rest, Entry peer z ∧ payload.drop o = z ++ rest ∧ o' = o + z.length

theorem unpackU16be_append {port : Bytes} (h : port.length = 2) (front rest : Bytes) :
    unpackU16be (front ++ (port ++ rest)) front.length = .ok (leNat port.reverse) := by
  rw [unpackU16be, if_pos (by simp only [List.length_append]; omega), sub, List.drop_left, ← h,
    List.take_left]

theorem unpackU16be_ok {payload : Bytes} {o port : ℕ} (h : unpackU16be payload o = .ok port) :
    o + 2 ≤ payload.length ∧ port = leNat (sub payload o 2).reverse := by
  rw [unpackU16be] at h
  split_ifs at h with hlen
  cases h
  exact ⟨hlen, rfl⟩

theorem reads_addr : Reads addrEntry IsAddr where
  pos peer z h := by
    obtain ⟨front, ip, port, hfront, -, -, rfl, -⟩ := h
    rw [List.length_append]
    omega
  append peer z h before rest := by
    obtain ⟨front, ip, port, hfront, hip, hport, rfl, rfl⟩ := h
    have hsub : sub (before ++ (front ++ (ip ++ port) ++ rest)) (before.length + 12) 16 = ip := by
      rw [← hfront, sub, ← List.drop_drop, List.drop_left, List.append_assoc, List.drop_left,
        ← hip, List.append_assoc, List.take_left]
    have hread := unpackU16be_append hport (before ++ front ++ ip) rest
    simp only [List.length_append, List.append_assoc, hfront, hip] at hread
    -- the address and the port are read at their offsets, whatever stands around them
    rw [addrEntry, hsub]
    simp only [List.append_assoc, Nat.add_assoc] at hread ⊢
    rw [hread]
    simp only [List.length_append, hfront, hip, hport]
    rfl
  ok payload o peer o' h := by
    obtain ⟨port, hread, h⟩ := except_bind_eq_ok.mp h
    cases h
    obtain ⟨hlen, rfl⟩ := unpackU16be_ok hread
    -- the bytes read are the entry: twelve in front, the address, the port
    refine ⟨sub payload o 12 ++ (sub payload (o + 12) 16 ++ sub payload (o + 12 + 16) 2),
      payload.drop (o + 12 + 16 + 2), ⟨_, _, _, length_sub (by omega), length_sub (by omega),
        length_sub hlen, rfl, rfl⟩, ?_, ?_⟩
    · simp only [sub, List.append_assoc, ← List.drop_drop, List.take_append_drop]
    · simp only [List.length_append, length_sub (b := payload) (i := o) (n := 12) (by omega),
        length_sub (b := payload) (i := o + 12) (n := 16) (by omega),
        length_sub (b := payload) (i := o + 12 + 16) (n := 2) hlen, Nat.add_assoc]

theorem sub_one_of_getAt {payload : Bytes} {i : ℕ} {x : UInt8}
    (h : getAt PyError.indexError payload i = .ok x) : sub payload i 1 = [x] := by
  rw [getAt] at h
  split_ifs at h with hi
  cases h
  rw [sub, List.drop_eq_getElem_cons hi, List.take_succ_cons, List.take_zero]

theorem reads_addrv2 : Reads addrv2Entry IsAddrv2 where
  pos peer z h := by
    obtain ⟨time, services, s, network, count, blob, port, htime, -, -, -, rfl, -⟩ := h
    rw [List.length_append]
    omega
  append peer z h before rest := by
    obtain ⟨time, services, s, network, count, blob, port, htime, hservices, hcount, hport, rfl,
      rfl⟩ := h
    -- the fields stand one after the other, and each is read where the last one ends
    have hread₁ := readVarint_append hservices (before ++ time)
      ([network] ++ (count ++ (blob ++ port)) ++ rest)
    have hread₂ := readVarint_append hcount (before ++ time ++ services ++ [network])
      (blob ++ port ++ rest)
    have hread₃ := unpackU16be_append hport
      (before ++ time ++ services ++ [network] ++ count ++ blob) rest
    have hnet : getAt PyError.indexError
        (before ++ (time ++ (services ++ ([network] ++ (count ++ (blob ++ port)))) ++ rest))
        (before.length + time.length + services.length) = .ok network := by
      refine getAt_of_sub _ ?_
      rw [sub, ← List.drop_drop, ← List.drop_drop, List.drop_left]
      simp only [List.append_assoc, List.drop_left]
      rfl
    have hblob : sub
        (before ++ (time ++ (services ++ ([network] ++ (count ++ (blob ++ port)))) ++ rest))
        (before.length + time.length + services.length + 1 + count.length) blob.length = blob := by
      simp only [sub, ← List.drop_drop, List.append_assoc, List.drop_left, List.cons_append,
        List.drop_one, List.tail_cons, List.nil_append, List.take_left]
    simp only [List.length_append, List.append_assoc, List.length_singleton] at hread₁ hread₂ hread₃
    simp only [List.append_assoc, Nat.add_assoc] at hread₁ hread₂ hread₃ hnet hblob
    -- now the reader, field by field
    rw [addrv2Entry]
    simp only [List.append_assoc, Nat.add_assoc, ← htime]
    rw [hread₁]
    simp only [py_ok_bind]
    simp only [Nat.add_assoc]
    rw [hnet]
    simp only [py_ok_bind]
    rw [hread₂]
    simp only [py_ok_bind]
    simp only [Nat.add_assoc]
    rw [hread₃, hblob]
    simp only [List.length_append, List.length_singleton, hport]
    rfl
  ok payload o peer o' h := by
    obtain ⟨⟨s, o₁⟩, hservices, h⟩ := except_bind_eq_ok.mp h
    obtain ⟨network, hnet, h⟩ := except_bind_eq_ok.mp h
    obtain ⟨⟨n, o₂⟩, hcount, h⟩ := except_bind_eq_ok.mp h
    obtain ⟨port, hread, h⟩ := except_bind_eq_ok.mp h
    cases h
    obtain ⟨services, rest₁, hs, hdrop₁, rfl, hrest₁⟩ := readVarint_ok hservices
    obtain ⟨count, rest₂, hc, hdrop₂, rfl, hrest₂⟩ := readVarint_ok hcount
    obtain ⟨hlen, rfl⟩ := unpackU16be_ok hread
    -- the payload is cut at the offsets that were read, and the pieces are the entry
    have hfield : ∀ i n, payload.drop i = sub payload i n ++ payload.drop (i + n) := by
      intro i n
      rw [sub, ← List.drop_drop, List.take_append_drop]
    have hblob : (sub payload (o + 4 + services.length + 1 + count.length) n).length = n :=
      length_sub (by omega)
    subst hrest₁ hrest₂
    refine ⟨sub payload o 4 ++ (services ++ ([network] ++ (count
      ++ (sub payload (o + 4 + services.length + 1 + count.length) n
        ++ sub payload (o + 4 + services.length + 1 + count.length + n) 2)))),
      payload.drop (o + 4 + services.length + 1 + count.length + n + 2),
      ⟨_, services, s, network, count, _, _, length_sub (by omega), hs, by rwa [hblob],
        length_sub hlen, rfl, by rw [hblob]⟩, ?_, ?_⟩
    · rw [hfield o 4, hdrop₁, hfield (o + 4 + services.length) 1, sub_one_of_getAt hnet, hdrop₂,
        hfield (o + 4 + services.length + 1 + count.length) n,
        hfield (o + 4 + services.length + 1 + count.length + n) 2]
      simp only [List.append_assoc]
    · simp only [List.length_append, List.length_singleton, hblob, length_sub hlen,
        length_sub (b := payload) (i := o) (n := 4) (by omega)]
      omega

theorem reads_entry (command : Bytes) :
    Reads (if command = tagBytes "addr" then addrEntry else addrv2Entry) (IsEntry command) := by
  rw [IsEntry]
  split_ifs
  · exact reads_addr
  · exact reads_addrv2

section Entries

variable {entry : Bytes → ℕ → Py (Option Address × ℕ)} {Entry : Option Address → Bytes → Prop}

/-- An entry that has not come whole is not read, nor another one in its place. -/
theorem Reads.torn (h : Reads entry Entry) {peer : Option Address} {z : Bytes} (hz : Entry peer z)
    {k : ℕ} (hk : k < z.length) (front : Bytes) :
    ∃ e, entry (front ++ z.take k) front.length = .error e := by
  cases hread : entry (front ++ z.take k) front.length with
  | error e => exact ⟨e, rfl⟩
  | ok r =>
      obtain ⟨peer', o'⟩ := r
      obtain ⟨z', rest, hz', hdrop, rfl⟩ := h.ok _ _ _ _ hread
      rw [List.drop_left] at hdrop
      -- were another entry read there, it would also be read of the whole bytes
      have hwhole : front ++ (z ++ []) = front ++ (z' ++ (rest ++ z.drop k)) := by
        rw [List.append_nil, ← List.append_assoc z', ← hdrop, List.take_append_drop]
      have hread' := h.append _ _ hz front []
      rw [hwhole, h.append _ _ hz'] at hread'
      have hlen := congrArg List.length hdrop
      rw [List.length_take, List.length_append] at hlen
      have hsame : front.length + z'.length = front.length + z.length :=
        congrArg Prod.snd (Except.ok.inj hread')
      omega

/-- What the loop reads of any bytes: entries as long as there are any. -/
theorem Reads.parseAddrsFrom_eq (h : Reads entry Entry) (n : ℕ) (front b : Bytes)
    (peers : List Address) :
    ∃ (es : List (Option Address × Bytes)) (rest : Bytes),
      es.length ≤ n ∧ (∀ e ∈ es, Entry e.1 e.2)
      ∧ b = es.flatMap Prod.snd ++ rest
      ∧ (es.length < n → ∀ peer z, Entry peer z → ¬ z <+: rest)
      ∧ parseAddrsFrom entry (front ++ b) n front.length peers
        = peers ++ peersOf es := by
  induction n generalizing front b peers with
  | zero =>
      refine ⟨[], b, Nat.le_refl 0, List.forall_mem_nil _, rfl,
        fun hlt => absurd hlt (Nat.lt_irrefl 0), ?_⟩
      exact (List.append_nil peers).symm
  | succ n ih =>
      -- an entry that is not read ends the loop, and no entry begins there
      rw [parseAddrsFrom]
      cases hread : entry (front ++ b) front.length with
      | error e =>
          refine ⟨[], b, Nat.zero_le _, List.forall_mem_nil _, rfl, ?_, ?_⟩
          · rintro - peer z hz ⟨rest, rfl⟩
            rw [h.append _ _ hz] at hread
            cases hread
          · exact (List.append_nil peers).symm
      | ok r =>
          obtain ⟨peer, o'⟩ := r
          -- what was read moves in front of the rest
          obtain ⟨z, rest, hz, hdrop, rfl⟩ := h.ok _ _ _ _ hread
          rw [List.drop_left] at hdrop
          subst hdrop
          obtain ⟨es, rest', hlen, hes, rfl, hend, hpeers⟩ := ih (front ++ z) rest
            (peers ++ peer.toList)
          refine ⟨(peer, z) :: es, rest', Nat.succ_le_succ hlen,
            List.forall_mem_cons.mpr ⟨hz, hes⟩, ?_,
            fun hlt => hend (Nat.lt_of_succ_lt_succ hlt), ?_⟩
          · rw [List.flatMap_cons, List.append_assoc]
          · rw [List.append_assoc, List.length_append] at hpeers
            show parseAddrsFrom entry _ n _ (peers ++ peer.toList) = _
            rw [hpeers, peersOf_cons, List.append_assoc]

/-- Of entries that are cut off anywhere those are read that have come whole. -/
theorem Reads.parseAddrsFrom_take (h : Reads entry Entry) {es : List (Option Address × Bytes)}
    (hes : ∀ e ∈ es, Entry e.1 e.2) (n k : ℕ) (front : Bytes) (peers : List Address) :
    ∃ j ≤ min es.length n,
      parseAddrsFrom entry (front ++ (es.flatMap Prod.snd).take k) n front.length peers
          = peers ++ peersOf (es.take j)
        ∧ ((es.take j).flatMap Prod.snd).length ≤ k
        ∧ (j < min es.length n → k < ((es.take (j + 1)).flatMap Prod.snd).length) := by
  induction n generalizing es k front peers with
  | zero =>
      refine ⟨0, Nat.zero_le _, ?_, Nat.zero_le k, fun hlt => ?_⟩
      · exact (List.append_nil peers).symm
      · rw [Nat.min_zero] at hlt
        exact absurd hlt (Nat.lt_irrefl 0)
  | succ n ih =>
      cases es with
      | nil =>
          refine ⟨0, Nat.zero_le _, ?_, Nat.zero_le k, fun hlt => ?_⟩
          -- of no bytes nothing is read, since an entry has some
          · rw [List.flatMap_nil, List.take_nil, parseAddrsFrom]
            cases hread : entry (front ++ []) front.length with
            | error e => exact (List.append_nil peers).symm
            | ok r =>
                obtain ⟨z, rest, hz, hdrop, -⟩ := h.ok _ _ _ _ hread
                have hlen := congrArg List.length hdrop
                rw [List.drop_left, List.length_nil, List.length_append] at hlen
                have := h.pos _ _ hz
                omega
          · rw [List.length_nil, Nat.zero_min] at hlt
            exact absurd hlt (Nat.lt_irrefl 0)
      | cons e es =>
          rw [List.forall_mem_cons] at hes
          rw [List.flatMap_cons, List.take_append, parseAddrsFrom]
          -- the cut falls into the first entry or behind it
          by_cases hk : k < e.2.length
          · obtain ⟨err, herr⟩ := h.torn hes.1 hk front
            rw [Nat.sub_eq_zero_of_le (by omega), List.take_zero, List.append_nil, herr]
            refine ⟨0, Nat.zero_le _, ?_, Nat.zero_le k, fun _ => ?_⟩
            · exact (List.append_nil peers).symm
            · rw [List.take_succ_cons, List.take_zero, List.flatMap_cons, List.flatMap_nil,
                List.append_nil]
              exact hk
          · obtain ⟨peer, z⟩ := e
            dsimp only at hes hk ⊢
            rw [List.take_of_length_le (by omega), h.append _ _ hes.1]
            obtain ⟨j, hj, hpeers, hle, hlt⟩ := ih hes.2 (k - z.length) (front ++ z)
              (peers ++ peer.toList)
            refine ⟨j + 1, by rw [List.length_cons]; omega, ?_, ?_, fun hj' => ?_⟩
            · rw [List.append_assoc, List.length_append] at hpeers
              show parseAddrsFrom entry _ n _ (peers ++ peer.toList) = _
              rw [hpeers, List.take_succ_cons, peersOf_cons, List.append_assoc]
            · rw [List.take_succ_cons, List.flatMap_cons, List.length_append]
              dsimp only
              omega
            · rw [List.length_cons] at hj'
              have := hlt (by omega)
              rw [List.take_succ_cons, List.flatMap_cons, List.length_append]
              dsimp only
              omega

end Entries

theorem readVarint_torn {n : ℕ} {z : Bytes} (hz : IsCompactSize n z) {k : ℕ} (hk : k < z.length) :
    ∃ e, readVarint (z.take k) 0 = .error e := by
  cases hread : readVarint (z.take k) 0 with
  | error e => exact ⟨e, rfl⟩
  | ok r =>
      obtain ⟨z', rest, hz', hdrop, -, -⟩ := readVarint_ok hread
      rw [List.drop_zero] at hdrop
      -- a count read of the front would also be read of the whole bytes
      have hwhole : [] ++ (z ++ []) = [] ++ (z' ++ (rest ++ z.drop k)) := by
        rw [List.append_nil, ← List.append_assoc z', ← hdrop, List.take_append_drop]
      have hread' := readVarint_append hz [] []
      rw [hwhole, readVarint_append hz'] at hread'
      have hlen := congrArg List.length hdrop
      rw [List.length_take, List.length_append] at hlen
      have hsame := congrArg Prod.snd (Except.ok.inj hread')
      simp only at hsame
      omega

theorem parseAddrs_of_count (command : Bytes) {n : ℕ} {z : Bytes} (hz : IsCompactSize n z)
    (b : Bytes) :
    parseAddrs command (z ++ b)
      = parseAddrsFrom (if command = tagBytes "addr" then addrEntry else addrv2Entry) (z ++ b)
          (min n 1000) z.length [] := by
  have hread := readVarint_append hz [] b
  rw [List.nil_append, List.length_nil, Nat.zero_add] at hread
  rw [parseAddrs, hread]

/-- **Gossip is read as far as it goes.**  Whatever the payload, the peers are
those of the entries that stand behind its count, one after the other and at most
a thousand; reading ends early only where no entry begins.  Of a message that is
cut off anywhere the peers are those of the entries that have come whole. -/
theorem parseAddrs_entries (command : Bytes) :
    (∀ payload, (∀ n z, IsCompactSize n z → ¬ z <+: payload) → parseAddrs command payload = []) ∧
    (∀ n z b, IsCompactSize n z → ∃ (es : List (Option Address × Bytes)) (rest : Bytes),
      es.length ≤ min n 1000 ∧ (∀ e ∈ es, IsEntry command e.1 e.2)
        ∧ b = es.flatMap Prod.snd ++ rest
        ∧ (es.length < min n 1000 → ∀ peer z', IsEntry command peer z' → ¬ z' <+: rest)
        ∧ parseAddrs command (z ++ b) = peersOf es) ∧
    ∀ (es : List (Option Address × Bytes)) (z : Bytes) (k : ℕ), IsCompactSize es.length z →
      (∀ e ∈ es, IsEntry command e.1 e.2) → ∃ j ≤ min es.length 1000,
        parseAddrs command ((z ++ es.flatMap Prod.snd).take k) = peersOf (es.take j)
          ∧ (0 < j → (z ++ (es.take j).flatMap Prod.snd).length ≤ k)
          ∧ (j < min es.length 1000 → k < (z ++ (es.take (j + 1)).flatMap Prod.snd).length) := by
  refine ⟨fun payload hnone => ?_, fun n z b hz => ?_, fun es z k hz hes => ?_⟩
  -- without a count the reader is left at once
  · rw [parseAddrs]
    cases hread : readVarint payload 0 with
    | error e => rfl
    | ok r =>
        obtain ⟨z, rest, hz, hdrop, -, -⟩ := readVarint_ok hread
        exact absurd ⟨rest, hdrop.symm⟩ (hnone _ z hz)
  · obtain ⟨es, rest, hlen, hes, hb, hend, hpeers⟩ :=
      (reads_entry command).parseAddrsFrom_eq (min n 1000) z b []
    refine ⟨es, rest, hlen, hes, hb, hend, ?_⟩
    rw [parseAddrs_of_count command hz, hpeers, List.nil_append]
  -- the cut falls into the count or behind it
  · by_cases hk : k < z.length
    · obtain ⟨e, he⟩ := readVarint_torn hz hk
      refine ⟨0, Nat.zero_le _, ?_, fun h => absurd h (Nat.lt_irrefl 0), fun _ => ?_⟩
      · rw [List.take_append_of_le_length (by omega), parseAddrs, he]
        rfl
      · rw [List.length_append]
        omega
    · obtain ⟨j, hj, hpeers, hle, hlt⟩ :=
        (reads_entry command).parseAddrsFrom_take hes (min es.length 1000) (k - z.length) z []
      refine ⟨j, by omega, ?_, fun _ => ?_, fun hj' => ?_⟩
      · rw [List.take_append, List.take_of_length_le (by omega), parseAddrs_of_count command hz,
          hpeers, List.nil_append]
      · rw [List.length_append]
        omega
      · have := hlt (by omega)
        rw [List.length_append]
        omega

/-- Two entries, of which the second has lost its last byte. -/
theorem parseAddrs_entries_torn :
    let entry : Bytes := zeros 22 ++ [0xff, 0xff] ++ [10, 0, 0, 1] ++ [0xbc, 0xcd]
    let es := [(some ⟨"10.0.0.1", 48333⟩, entry), (some ⟨"10.0.0.1", 48333⟩, entry)]
    ∃ j ≤ 2, parseAddrs (tagBytes "addr") (([2] ++ es.flatMap Prod.snd).take 60)
        = peersOf (es.take j) ∧
      (0 < j → ([2] ++ (es.take j).flatMap Prod.snd).length ≤ 60) ∧
      (j < 2 → 60 < ([2] ++ (es.take (j + 1)).flatMap Prod.snd).length) := by
  intro entry es
  have hentry : IsEntry (tagBytes "addr") (some ⟨"10.0.0.1", 48333⟩) entry := by
    rw [IsEntry, if_pos rfl]
    exact ⟨zeros 12, zeros 10 ++ [0xff, 0xff, 10, 0, 0, 1], [0xbc, 0xcd], rfl, rfl, rfl, rfl,
      by decide +kernel⟩
  exact (parseAddrs_entries (tagBytes "addr")).2.2 es [2] 60 (.one (by decide))
    (List.forall_mem_cons.mpr ⟨hentry, List.forall_mem_cons.mpr ⟨hentry, List.forall_mem_nil _⟩⟩)

end ForkPeers

end PrunedElectrs
