/-
PrunedElectrs/PeerWire.lean

The wire of the peer-to-peer protocol as the scripts read and write it
(`fetch_fork_headers.py`, `find_fork_peers.py`, `fetch_bench.py`).

A message is a frame: the network's magic, the command, the payload's length and
checksum, the payload.  The scripts read frames alike and differ in what they
check of one, so reading is one definition over a `MsgReader` and each script has
its own.  What arrives comes in segments; a frame is read whole whatever the
segments (`recvMsg_segments`).

A command is kept as the bytes of its field.  The scripts decode it, and every
decoding they use maps those bytes and no others to the ASCII name that they
compare it with.
-/
import Mathlib.Data.List.DropRight
import PrunedElectrs.HeadersMessage
import PrunedElectrs.MerkleProof
import PrunedElectrs.Lib.Stream

namespace PrunedElectrs

open Wire HeaderHash

/-! ### What the scripts raise -/

/-- The exceptions of a script that talks to a peer. -/
inductive NetError
  | eofError (msg : String)
  | timeout
  | valueError (msg : String)
  | py (e : PyError)
deriving DecidableEq

/-- An exception of the language's own as one of a connection. -/
def ofPy {α : Type} (x : Py α) : Except NetError α := x.mapError .py

@[simp] theorem ofPy_ok {α : Type} (a : α) : ofPy (.ok a) = .ok a := rfl

@[simp] theorem ofPy_error {α : Type} (e : PyError) :
    ofPy (.error e : Py α) = .error (.py e) := rfl

theorem ofPy_eq_ok {α : Type} {x : Py α} {a : α} : ofPy x = .ok a ↔ x = .ok a := by
  cases x <;> simp [ofPy, Except.mapError]

theorem except_bind_eq_ok {ε α β : Type} {x : Except ε α} {f : α → Except ε β} {b : β} :
    (x >>= f) = .ok b ↔ ∃ a, x = .ok a ∧ f a = .ok b := by
  rcases x with e | a
  · constructor
    · intro h
      cases h
    · rintro ⟨a, ha, -⟩
      cases ha
  · constructor
    · exact fun h => ⟨a, rfl, h⟩
    · rintro ⟨a', ha, h⟩
      cases ha
      exact h

/-- Why nothing more arrives: the peer has closed the connection, or the deadline
passes in silence. -/
inductive Ending
  | closed
  | silent
deriving DecidableEq

/-- What a read raises at the end. -/
def Ending.error : Ending → NetError
  | closed => .eofError "peer closed"
  | silent => .timeout

/-- `b.hex()`. -/
def hexText (b : Bytes) : String := String.ofList (toHex b)

/-- `b.decode("ascii", "replace")`. -/
def decodeAscii (b : Bytes) : String :=
  String.ofList (b.map fun x => if x.toNat < 128 then Char.ofNat x.toNat else '\uFFFD')

/-! ### Counts -/

/-- `struct.unpack_from("<Q", raw, offset)[0]`. -/
def unpackU64 (raw : Bytes) (offset : ℕ) : Py ℕ :=
  if offset + 8 ≤ raw.length then .ok (leNat (sub raw offset 8)) else .error .structError

/-- `struct.pack("<Q", v)`. -/
def u64 (v : ℕ) : Py Bytes :=
  if v < 2 ^ 64 then .ok (leBytes 8 v) else .error .structError

/-- `varint`: a count in its shortest form. -/
def varint (n : ℕ) : Py Bytes :=
  if n < 0xfd then .ok (leBytes 1 n)
  else if n ≤ 0xffff then .ok (0xfd :: leBytes 2 n)
  else if n ≤ 0xffffffff then .ok (0xfe :: leBytes 4 n)
  else do return 0xff :: (← u64 n)

/-- The count at `o`, and the offset behind it. -/
def readVarint (b : Bytes) (o : ℕ) : Py (ℕ × ℕ) := do
  let v ← getAt .indexError b o
  if v.toNat < 0xfd then return (v.toNat, o + 1)
  else if v = 0xfd then return (← unpackU16 b (o + 1), o + 3)
  else if v = 0xfe then return (← unpackU32 b (o + 1), o + 5)
  else return (← unpackU64 b (o + 1), o + 9)

theorem varint_eq {n : ℕ} (h : n < 2 ^ 64) : varint n = .ok (compactSize n) := by
  have h2 : n ≤ 0xffff ↔ n < 2 ^ 16 := by omega
  have h4 : n ≤ 0xffffffff ↔ n < 2 ^ 32 := by omega
  simp only [varint, compactSize, u64, h2, h4, if_pos h]
  split_ifs <;> rfl

/-- A word behind the first byte of a count. -/
theorem scanWord_drop {w o : ℕ} {b : Bytes} {x : UInt8} (h : b.drop o = x :: b.drop (o + 1)) :
    scanWord w (b.drop (o + 1))
      = if o + 1 + w ≤ b.length then .ok (leNat (sub b (o + 1) w), w + 1)
        else .error "MoreBytesNeeded" := by
  have hlen := congrArg List.length h
  rw [List.length_cons, List.length_drop, List.length_drop] at hlen
  rw [scanWord, List.length_drop, sub]
  by_cases hw : o + 1 + w ≤ b.length
  · rw [if_pos hw, if_pos (by omega)]
  · rw [if_neg hw, if_neg (by omega)]

/-- The script reads the counts that `bitcoin_slices` scans. -/
theorem readVarint_eq (b : Bytes) (o : ℕ) :
    (∃ n k, scanCompactSize (b.drop o) = .ok (n, k) ∧ readVarint b o = .ok (n, o + k)) ∨
      ∃ e e', scanCompactSize (b.drop o) = .error e ∧ readVarint b o = .error e' := by
  by_cases ho : o < b.length
  · have hdrop : b.drop o = b[o] :: b.drop (o + 1) := List.drop_eq_getElem_cons ho
    rw [readVarint, getAt_eq _ ho, hdrop, scanCompactSize, py_ok_bind]
    split_ifs with hone hfd hfe
    · exact .inl ⟨_, _, rfl, rfl⟩
    · rw [scanWord_drop hdrop, unpackU16]
      by_cases hw : o + 1 + 2 ≤ b.length
      · rw [if_pos hw, if_pos hw]
        exact .inl ⟨_, _, rfl, rfl⟩
      · rw [if_neg hw, if_neg hw]
        exact .inr ⟨_, _, rfl, rfl⟩
    · rw [scanWord_drop hdrop, unpackU32]
      by_cases hw : o + 1 + 4 ≤ b.length
      · rw [if_pos hw, if_pos hw]
        exact .inl ⟨_, _, rfl, rfl⟩
      · rw [if_neg hw, if_neg hw]
        exact .inr ⟨_, _, rfl, rfl⟩
    · rw [scanWord_drop hdrop, unpackU64]
      by_cases hw : o + 1 + 8 ≤ b.length
      · rw [if_pos hw, if_pos hw]
        exact .inl ⟨_, _, rfl, rfl⟩
      · rw [if_neg hw, if_neg hw]
        exact .inr ⟨_, _, rfl, rfl⟩
  · rw [readVarint, getAt, dif_neg ho, List.drop_eq_nil_of_le (by omega)]
    exact .inr ⟨_, _, rfl, rfl⟩

theorem scanCompactSize_append {n : ℕ} {z : Bytes} (h : IsCompactSize n z) (rest : Bytes) :
    scanCompactSize (z ++ rest) = .ok (n, z.length) := by
  cases h with
  | one hn =>
      have hbyte : (UInt8.ofNat n).toNat = n := by
        rw [UInt8.toNat_ofNat', Nat.mod_eq_of_lt (by omega)]
      simp [leBytes, scanCompactSize, hbyte, hn]
  | three hn => simp [scanCompactSize, scanWord_leBytes (w := 2) hn]
  | five hn => simp [scanCompactSize, scanWord_leBytes (w := 4) hn]
  | nine hn => simp [scanCompactSize, scanWord_leBytes (w := 8) hn]

/-- A count in any form is read, wherever it stands. -/
theorem readVarint_append {n : ℕ} {z : Bytes} (h : IsCompactSize n z) (front rest : Bytes) :
    readVarint (front ++ (z ++ rest)) front.length = .ok (n, front.length + z.length) := by
  have hscan := scanCompactSize_append h rest
  rcases readVarint_eq (front ++ (z ++ rest)) front.length with ⟨n', k, hs, hr⟩ | ⟨e, e', hs, -⟩
  · rw [List.drop_left, hscan] at hs
    cases hs
    exact hr
  · rw [List.drop_left, hscan] at hs
    cases hs

/-- What is read is a count, and it lies inside the string. -/
theorem readVarint_ok {b : Bytes} {o n o' : ℕ} (h : readVarint b o = .ok (n, o')) :
    ∃ z rest, IsCompactSize n z ∧ b.drop o = z ++ rest ∧ o' = o + z.length ∧ b.drop o' = rest := by
  rcases readVarint_eq b o with ⟨n', k, hs, hr⟩ | ⟨e, e', -, hr⟩
  · rw [h] at hr
    cases hr
    obtain ⟨hk, hcount⟩ := scanCompactSize_ok hs
    refine ⟨(b.drop o).take k, (b.drop o).drop k, hcount, (List.take_append_drop k _).symm, ?_, ?_⟩
    · rw [List.length_take_of_le hk]
    · rw [List.drop_drop]
  · rw [h] at hr
    cases hr

/-! ### The payloads the scripts send -/

namespace PeerWire

/-- The protocol version in `version`. -/
def protocolVersion : ℕ := 70016

/-- An address of nowhere. -/
def netaddr : Bytes := leBytes 8 0 ++ zeros 10 ++ [0xff, 0xff] ++ zeros 4 ++ zeros 2

/-- `version_payload` of a script with the given user agent, at the given time. -/
def versionPayload (userAgent : String) (time : ℕ) : Py Bytes := do
  let ua := tagBytes userAgent
  let time ← if time < 2 ^ 63 then .ok (leBytes 8 time) else .error .structError
  return leBytes 4 protocolVersion ++ leBytes 8 0 ++ time ++ netaddr ++ netaddr
    ++ leBytes 8 0x5eed ++ (← varint ua.length) ++ ua ++ leBytes 4 0 ++ [0x00]

/-- The payload of `getheaders`, with the locator as displayed. -/
def getheadersPayload (locator : List Char) : Py Bytes := do
  return leBytes 4 protocolVersion ++ (← varint 1) ++ (← fromhex locator).reverse ++ zeros 32

end PeerWire

/-! ### Frames -/

/-- A message: the bytes of its command, and its payload. -/
structure Msg where
  command : Bytes
  payload : Bytes
deriving DecidableEq

/-- What a script checks of a frame, what it says of one that it refuses, and how
much it asks a socket for when so much is missing. -/
structure MsgReader where
  magic : Bytes
  wrongMagic : Bytes → String
  limit : Option ℕ
  implausible : Bytes → ℕ → String
  mismatch : Option (Bytes → String)
  ask : ℕ → ℕ
  four : magic.length = 4
  asks : Stream.Asks ask

variable (H : Hashes)

/-- The first 24 bytes of a message. -/
def frameHeader (magic : Bytes) (m : Msg) : Bytes :=
  magic ++ ((m.command ++ zeros (12 - m.command.length))
    ++ (leBytes 4 m.payload.length ++ (dsha H m.payload).take 4))

/-- The bytes of a message. -/
def frame (magic : Bytes) (m : Msg) : Bytes := frameHeader H magic m ++ m.payload

/-- `msg`: a message in its frame. -/
def msg (magic : Bytes) (command : String) (payload : Bytes) : Py Bytes := do
  let cmd := tagBytes command ++ zeros (12 - (tagBytes command).length)
  return magic ++ (cmd ++ ((← u32 payload.length) ++ (dsha H payload).take 4)) ++ payload

theorem msg_eq (magic : Bytes) (command : String) {payload : Bytes}
    (h : payload.length < 2 ^ 32) :
    msg H magic command payload = .ok (frame H magic ⟨tagBytes command, payload⟩) := by
  rw [msg, u32, if_pos h]
  rfl

/-- `b.rstrip(b"\x00")`. -/
def rstrip (b : Bytes) : Bytes := b.rdropWhile (· = 0)

namespace MsgReader

variable (R : MsgReader)

/-- What the first 24 bytes say of the payload. -/
def payloadLength (hdr : Bytes) : Except NetError ℕ :=
  let command := rstrip (sub hdr 4 12)
  let length := leNat (sub hdr 16 4)
  if hdr.take 4 ≠ R.magic then .error (.valueError (R.wrongMagic (hdr.take 4)))
  else if R.limit.any (· < length) then .error (.valueError (R.implausible command length))
  else .ok length

/-- The message, where its checksum is looked at and is right. -/
def checked (hdr payload : Bytes) : Except NetError Msg :=
  let command := rstrip (sub hdr 4 12)
  match R.mismatch with
  | none => .ok ⟨command, payload⟩
  | some text =>
      if (dsha H payload).take 4 ≠ sub hdr 20 4 then .error (.valueError (text command))
      else .ok ⟨command, payload⟩

section Read

variable {S : Type} (exact : ℕ → S → Except NetError (Bytes × S))

/-- The payload, where there is one. -/
def readPayload (length : ℕ) (s : S) : Except NetError (Bytes × S) :=
  if length = 0 then .ok ([], s) else exact length s

/-- What follows the first 24 bytes. -/
def readBody (hdr : Bytes) (s : S) : Except NetError (Msg × S) :=
  match R.payloadLength hdr with
  | .error e => .error e
  | .ok length => readPayload exact length s >>= fun r => (R.checked H hdr r.1).map (·, r.2)

/-- `recv_msg`, with any way to read a number of bytes. -/
def read (s : S) : Except NetError (Msg × S) :=
  exact 24 s >>= fun r => R.readBody H exact r.1 r.2

variable {T : Type} {exact} {view : S → T} {exact' : ℕ → T → Except NetError (Bytes × T)}

/-- Messages are read alike wherever bytes are. -/
theorem sees_read (h : ∀ n, Stream.Sees view (exact n) (exact' n)) :
    Stream.Sees view (R.read H exact) (R.read H exact') := by
  have hpayload : ∀ length,
      Stream.Sees view (readPayload exact length) (readPayload exact' length) := by
    intro length s
    rw [readPayload, readPayload]
    split_ifs
    · rfl
    · exact h length s
  have hbody : ∀ hdr, Stream.Sees view (R.readBody H exact hdr) (R.readBody H exact' hdr) := by
    intro hdr s
    rw [readBody, readBody]
    cases R.payloadLength hdr with
    | error e => rfl
    | ok length =>
        exact (hpayload length).bind (fun payload => Stream.sees_lift view _) s
  exact (h 24).bind hbody

end Read

/-- `recv_msg` on a socket. -/
def recvMsg (ending : Ending) : List Bytes → Except NetError (Msg × List Bytes) :=
  R.read H fun n => Stream.recvExact ending.error R.ask n []

/-- `recv_msg` on what a socket brings. -/
def decode (ending : Ending) : Bytes → Except NetError (Msg × Bytes) :=
  R.read H (Stream.takeExact ending.error)

theorem length_of_takeExact {ending : Ending} {n : ℕ} {b x rest : Bytes}
    (h : Stream.takeExact ending.error n b = .ok (x, rest)) : b.length = n + rest.length := by
  rw [Stream.takeExact] at h
  split_ifs at h with hn
  cases h
  rw [List.length_drop]
  omega

theorem length_of_decode {ending : Ending} {b rest : Bytes} {m : Msg}
    (h : R.decode H ending b = .ok (m, rest)) : rest.length < b.length := by
  rw [decode, read] at h
  rcases hhdr : Stream.takeExact ending.error 24 b with e | ⟨hdr, b'⟩
  · rw [hhdr] at h
    cases h
  have hb := length_of_takeExact hhdr
  rw [hhdr] at h
  change R.readBody H _ hdr b' = _ at h
  rw [readBody] at h
  cases hlen : R.payloadLength hdr with
  | error e =>
      rw [hlen] at h
      cases h
  | ok length =>
      simp only [hlen] at h
      rcases hpay : readPayload (Stream.takeExact ending.error) length b' with e | ⟨payload, b''⟩
      · rw [hpay] at h
        cases h
      rw [hpay] at h
      change (R.checked H hdr payload).map (·, b'') = _ at h
      cases hok : R.checked H hdr payload with
      | error e =>
          rw [hok] at h
          cases h
      | ok m' =>
          rw [hok] at h
          cases h
          rw [readPayload] at hpay
          split_ifs at hpay
          · cases hpay
            omega
          · have hb' := length_of_takeExact hpay
            omega

/-- The messages of a script's connection. -/
def framing (ending : Ending) : Stream.Framing UInt8 NetError Msg where
  recvMsg := R.recvMsg H ending
  decode := R.decode H ending
  sees := R.sees_read H fun n => Stream.sees_recvExact _ R.asks n
  shrinks _ _ _ h := R.length_of_decode H h

/-! ### What is written is read -/

/-- The script takes the message: its command fits the field and is told from the
padding, and its payload is not too long. -/
structure Takes (m : Msg) : Prop where
  short : m.command.length ≤ 12
  named : m.command.getLast? ≠ some 0
  fits : m.payload.length < 2 ^ 32
  allowed : ∀ n ∈ R.limit, m.payload.length ≤ n

instance : DecidablePred R.Takes := fun m =>
  decidable_of_iff (m.command.length ≤ 12 ∧ m.command.getLast? ≠ some 0
    ∧ m.payload.length < 2 ^ 32 ∧ ∀ n ∈ R.limit.toList, m.payload.length ≤ n)
    ⟨fun ⟨hshort, hnamed, hfits, hallowed⟩ =>
      ⟨hshort, hnamed, hfits, fun n hn => hallowed n (Option.mem_toList.mpr hn)⟩,
      fun h => ⟨h.short, h.named, h.fits, fun n hn => h.allowed n (Option.mem_toList.mp hn)⟩⟩

variable {H R} {m : Msg}

theorem rstrip_pad {command : Bytes} (h : command.getLast? ≠ some 0) (n : ℕ) :
    rstrip (command ++ zeros n) = command := by
  induction n with
  | zero =>
      rw [zeros, List.replicate_zero, List.append_nil, rstrip, List.rdropWhile_eq_self_iff]
      intro hne hzero
      refine h ?_
      rw [List.getLast?_eq_some_getLast hne, of_decide_eq_true hzero]
  | succ n ih =>
      rw [zeros, List.replicate_succ', ← List.append_assoc, rstrip,
        List.rdropWhile_concat_pos _ _ _ (by simp)]
      exact ih

/-- The fields of the first 24 bytes. -/
theorem frameHeader_fields (hm : R.Takes m) :
    (frameHeader H R.magic m).length = 24
      ∧ (frameHeader H R.magic m).take 4 = R.magic
      ∧ sub (frameHeader H R.magic m) 4 12 = m.command ++ zeros (12 - m.command.length)
      ∧ sub (frameHeader H R.magic m) 16 4 = leBytes 4 m.payload.length
      ∧ sub (frameHeader H R.magic m) 20 4 = (dsha H m.payload).take 4 := by
  have hshort := hm.short
  have hcommand : (m.command ++ zeros (12 - m.command.length)).length = 12 := by
    rw [List.length_append, length_zeros]
    omega
  have hcheck : ((dsha H m.payload).take 4).length = 4 := by simp [dsha]
  have hcuts := cuts_flatten [R.magic, m.command ++ zeros (12 - m.command.length),
    leBytes 4 m.payload.length, (dsha H m.payload).take 4]
  simp only [List.map_cons, List.map_nil, R.four, hcommand, length_leBytes, hcheck, cuts,
    List.flatten_cons, List.flatten_nil, List.append_nil, List.cons.injEq, and_true] at hcuts
  refine ⟨?_, hcuts.1, hcuts.2⟩
  simp only [frameHeader, List.length_append, R.four, hcheck, length_leBytes] at hcommand ⊢
  omega

theorem payloadLength_frameHeader (hm : R.Takes m) :
    R.payloadLength (frameHeader H R.magic m) = .ok m.payload.length := by
  obtain ⟨-, hmagic, -, hlength, -⟩ := frameHeader_fields (H := H) hm
  have hallowed : R.limit.any (· < m.payload.length) = false := by
    cases hlimit : R.limit with
    | none => rfl
    | some n => exact decide_eq_false (Nat.not_lt.mpr (hm.allowed n hlimit))
  simp only [payloadLength, hmagic, hlength, leNat_leBytes (n := 4) hm.fits, hallowed]
  simp

theorem checked_frameHeader (hm : R.Takes m) :
    R.checked H (frameHeader H R.magic m) m.payload = .ok m := by
  obtain ⟨-, -, hcommand, -, hcheck⟩ := frameHeader_fields (H := H) hm
  simp only [checked, hcommand, rstrip_pad hm.named, hcheck, ne_eq, not_true_eq_false, if_false]
  cases R.mismatch <;> rfl

/-- The scripts read the messages of their network, and none in part. -/
theorem writes (ending : Ending) :
    (R.framing H ending).toDecoder.Writes (frame H R.magic) R.Takes ending.error where
  empty := rfl
  whole m hm rest := by
    obtain ⟨hlen, -⟩ := frameHeader_fields (H := H) hm
    show R.read H _ (frame H R.magic m ++ rest) = _
    rw [read, frame, List.append_assoc, ← hlen, Stream.takeExact_append]
    show R.readBody H _ _ _ = _
    rw [readBody, payloadLength_frameHeader hm]
    have hpayload : readPayload (Stream.takeExact ending.error) m.payload.length
        (m.payload ++ rest) = .ok (m.payload, rest) := by
      rw [readPayload, Stream.takeExact_append]
      split_ifs with hzero
      · rw [List.length_eq_zero_iff.mp hzero, List.nil_append]
      · rfl
    simp only [hpayload]
    show (R.checked H _ _).map _ = _
    rw [checked_frameHeader hm]
    rfl
  torn m hm k hk := by
    obtain ⟨hlen, -⟩ := frameHeader_fields (H := H) hm
    rw [frame, List.length_append, hlen] at hk
    show R.read H _ ((frame H R.magic m).take k) = _
    rw [read, frame, List.take_append, hlen]
    by_cases h24 : 24 ≤ k
    · rw [List.take_of_length_le (by omega)]
      have hhdr : Stream.takeExact ending.error 24
          (frameHeader H R.magic m ++ m.payload.take (k - 24))
          = .ok (frameHeader H R.magic m, m.payload.take (k - 24)) := by
        rw [← hlen]
        exact Stream.takeExact_append _ _ _
      rw [hhdr]
      show R.readBody H _ _ _ = _
      have hshort : (m.payload.take (k - 24)).length < m.payload.length := by
        rw [List.length_take]
        omega
      rw [readBody, payloadLength_frameHeader hm]
      simp only [readPayload, Stream.takeExact, if_neg (Nat.not_le.mpr hshort)]
      rw [if_neg (by omega)]
      rfl
    · have hshort : ¬ 24 ≤ ((frameHeader H R.magic m).take k
          ++ m.payload.take (k - 24)).length := by
        rw [List.length_append, List.length_take, List.length_take]
        omega
      rw [Stream.takeExact, if_neg hshort]
      rfl

end MsgReader

/-- **Messages are read whole, however the network cuts them up.**  Of the bytes
of messages that a script takes, broken off anywhere, the calls of `recv_msg`
return those messages that have arrived whole, in order, and then raise what the
end of the connection raises. -/
theorem recvMsg_segments (R : MsgReader) (ending : Ending) {ms : List Msg}
    (hms : ∀ m ∈ ms, R.Takes m) (k : ℕ) {segments : List Bytes}
    (h : segments.flatten = (ms.flatMap (frame H R.magic)).take k) :
    ∃ j ≤ ms.length, ((ms.take j).flatMap (frame H R.magic)).length ≤ k ∧
      (j < ms.length → k < ((ms.take (j + 1)).flatMap (frame H R.magic)).length) ∧
      ∃ segments', (R.framing H ending).Receives segments (ms.take j) segments' ∧
        R.recvMsg H ending segments' = .error ending.error := by
  obtain ⟨j, hj, hread, hle, hlt⟩ := (MsgReader.writes (H := H) ending).decodeAll_take hms k
  obtain ⟨segments', hreceives, hend⟩ :=
    Stream.Framing.receives_arriving (F := R.framing H ending) segments
  rw [Stream.Framing.arriving, h, hread] at hreceives hend
  exact ⟨j, hj, hle, hlt, segments', hreceives, hend⟩

end PrunedElectrs
