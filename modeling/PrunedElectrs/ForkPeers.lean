/-
PrunedElectrs/ForkPeers.lean

`find_fork_peers.py`: which of the two chains a peer is on, and whom else it
knows.

A probe shakes hands, asks for the headers behind the last block that both
chains have, and looks at the first header of the answer; it may stay a while
for gossip.  Everything it learns it writes into one record, which survives an
exception, so the two loops of the script are loops that keep their state.  How
often they find time left is a parameter (`Remote.rounds`), as is what the peer
sends.

`probe_verdict` says what a verdict rests on, for any peer, and what the verdict
is on a peer that answers.
-/
import PrunedElectrs.ForkHeaders
import PrunedElectrs.Gossip

namespace PrunedElectrs

open Wire HeaderHash

namespace ForkPeers

variable (H : Hashes)

/-- What `recv_msg` checks of a frame: its magic and its length. -/
def reader : MsgReader where
  magic := ForkHeaders.magic
  wrongMagic m := "bad magic " ++ hexText m
  limit := some 8000000
  implausible _ length := s!"absurd payload {length}"
  mismatch := none
  ask := id
  four := ForkHeaders.length_magic
  asks := Stream.asks_id

/-! ### Payloads -/

/-- `struct.unpack_from("<i", raw, offset)[0]`. -/
def unpackI32 (raw : Bytes) (offset : ℕ) : Py ℤ := do
  let v ← unpackU32 raw offset
  return if v < 2 ^ 31 then (v : ℤ) else (v : ℤ) - 2 ^ 32

/-- The user agent and the height in a `version` payload. -/
def parseVersion (payload : Bytes) : Py (String × ℤ) := do
  let (n, o) ← readVarint payload (4 + 8 + 8 + 26 + 26 + 8)
  let ua := decodeAscii (sub payload o n)
  let startHeight ← unpackI32 payload (o + n)
  return (ua, startHeight)

/-- Whether the first header is v2, where there is one, how many there are, and
the first one's size. -/
def classifyHeaders (payload : Bytes) : Py (Option Bool × ℕ × ℕ) := do
  let (count, o) ← readVarint payload 0
  if count = 0 then return (none, 0, 0)
  else do
    let version ← unpackU32 payload o
    let size := if version &&& 0x80000000 ≠ 0 then 164 else 80
    return (some (size = 164), count, size)

/-! ### One probe -/

/-- What a probe reports. -/
structure Out where
  ok : Bool := false
  fork : Option Bool := none
  userAgent : Option String := none
  height : Option ℤ := none
  note : Option String := none
  peers : List Address := []
deriving DecidableEq

/-- How far a probe has come. -/
structure State where
  out : Out := {}
  gotVersion : Bool := false
  sent : List Bytes := []

/-- The bytes of a message that the probe sends; its payloads are short. -/
def message (command : String) (payload : Bytes) : Bytes :=
  frame H ForkHeaders.magic ⟨tagBytes command, payload⟩

/-- A ping is answered. -/
def State.pong (s : State) (m : Msg) : State :=
  { s with sent := s.sent ++ [message H "pong" (m.payload.take 8)] }

/-- What the first loop does with a message. -/
def greet (s : State) (m : Msg) : Stream.Next State NetError :=
  if m.command = tagBytes "version" then
    match parseVersion m.payload with
    | .error e => .raise s (.py e)
    | .ok (ua, height) =>
        .go { s with
          out := { s.out with userAgent := some ua, height := some height }
          gotVersion := true
          sent := s.sent ++ [message H "verack" []] }
  else if m.command = tagBytes "verack" then if s.gotVersion then .stop s else .go s
  else if m.command = tagBytes "ping" then .go (s.pong H m)
  else .go s

/-- What a probe reports of an answer to `getheaders`. -/
def Out.judged (out : Out) (verdict : Option Bool × ℕ × ℕ) : Out :=
  match verdict with
  | (none, _, _) =>
      { out with
        ok := true, fork := some false
        note := some "no headers past the fork height (not synced that far)" }
  | (some v2, count, size) =>
      let flavour := if v2 then "v2" else "v1"
      { out with
        ok := true, fork := some v2
        note := some s!"{count} headers, first is {size} bytes ({flavour})" }

/-- What the second loop does with a message. -/
def listen (wantAddrs : Bool) (s : State) (m : Msg) : Stream.Next State NetError :=
  if m.command = tagBytes "ping" then .go (s.pong H m)
  else if m.command = tagBytes "addr" ∨ m.command = tagBytes "addrv2" then
    .go { s with out := { s.out with peers := s.out.peers ++ parseAddrs m.command m.payload } }
  else if m.command = tagBytes "headers" then
    match classifyHeaders m.payload with
    | .error e => .raise s (.py e)
    | .ok verdict =>
        if wantAddrs then .go { s with out := s.out.judged verdict }
        else .stop { s with out := s.out.judged verdict }
  else .go s

/-- A peer as a probe meets it: whether it can be connected to, what it sends and
how that ends, and how often either loop finds its deadline not yet passed. -/
structure Remote where
  refused : Option NetError
  segments : List Bytes
  ending : Ending
  rounds : ℕ × ℕ

/-- How a probe ends: an exception is noted, but for one after the headers. -/
def finish (text : NetError → String) (s : State) : Option NetError → State
  | none => s
  | some e =>
      if s.out.ok then s else { s with out := { s.out with note := some (text e) } }

/-- The block that the script asks for the headers behind. -/
def lastCommonHash : String :=
  "00000000000000004f7721bb0999cf84ce7e52db90eb1e0d55b42ab734c9a503"

/-- The part of a probe behind the handshake. -/
def inquire (text : NetError → String) (wantAddrs : Bool) (remote : Remote) (s : State)
    (segments : List Bytes) : State :=
  let s := if wantAddrs then { s with sent := s.sent ++ [message H "getaddr" []] } else s
  match ForkHeaders.getheaders H lastCommonHash.toList with
  | .error e => finish text s (some e)
  | .ok request =>
      let r := (reader.framing H remote.ending).loop (listen H wantAddrs) remote.rounds.2
        { s with sent := s.sent ++ [request] } segments
      finish text r.1.1 r.1.2

/-- What follows once the peer has been greeted. -/
def proceed (text : NetError → String) (wantAddrs : Bool) (remote : Remote)
    (r : (State × Option NetError) × List Bytes) : State :=
  match r.1.2 with
  | some e => finish text r.1.1 (some e)
  | none =>
      if r.1.1.gotVersion then inquire H text wantAddrs remote r.1.1 r.2
      else { r.1.1 with out := { r.1.1.out with note := some "no version message" } }

/-- How the script introduces itself. -/
def userAgentText : String := "/blake2b-peer-probe:0.1/"

/-- The first message of a probe. -/
def hello (time : ℕ) : Except NetError Bytes := do
  let payload ← ofPy (PeerWire.versionPayload userAgentText time)
  ofPy (msg H ForkHeaders.magic "version" payload)

/-- `probe` at the given time, with the texts of the exceptions: what it reports,
and what it has sent. -/
def probe (text : NetError → String) (time : ℕ) (wantAddrs : Bool) (remote : Remote) : State :=
  match remote.refused, hello H time with
  | some e, _ => finish text {} (some e)
  | none, .error e => finish text {} (some e)
  | none, .ok version =>
      proceed H text wantAddrs remote ((reader.framing H remote.ending).loop (greet H)
        remote.rounds.1 { sent := [version] } remote.segments)

/-! ### What a verdict rests on -/

variable {H}

/-- The peers that a message tells of. -/
def gossiped (m : Msg) : List Address :=
  if m.command = tagBytes "addr" ∨ m.command = tagBytes "addrv2"
  then parseAddrs m.command m.payload else []

/-- What a `headers` message says of the chain, where it is read. -/
def Verdict (m : Msg) (fork : Bool) : Prop :=
  m.command = tagBytes "headers" ∧ ∃ first n size,
    classifyHeaders m.payload = .ok (first, n, size) ∧ fork = (first == some true)

/-- The handshake so far: a version counts as got only if one has been seen, and
nothing is judged yet. -/
structure Greeted (seen : List Msg) (s : State) : Prop where
  version : s.gotVersion = true → ∃ v ∈ seen, v.command = tagBytes "version"
  unjudged : s.out.fork = none
  notOk : s.out.ok = false
  alone : s.out.peers = []

/-- The answer so far: a verdict is that of a message that has been seen, there
is one exactly when the probe counts as answered, and the peers are those that
the messages tell of. -/
structure Judged (seen : List Msg) (s : State) : Prop where
  ok_iff : s.out.ok = s.out.fork.isSome
  gossip : s.out.peers = seen.flatMap gossiped
  verdict : ∀ b, s.out.fork = some b → ∃ m ∈ seen, Verdict m b

theorem Greeted.more {seen : List Msg} {s : State} (h : Greeted seen s) (m : Msg) :
    Greeted (seen ++ [m]) s where
  version hgot := by
    obtain ⟨v, hv, hcommand⟩ := h.version hgot
    exact ⟨v, List.mem_append_left _ hv, hcommand⟩
  unjudged := h.unjudged
  notOk := h.notOk
  alone := h.alone

theorem greeted_greet {seen : List Msg} {s : State} {m : Msg} (h : Greeted seen s) :
    Greeted (seen ++ [m]) (greet H s m).state := by
  have hmore := h.more m
  rw [greet]
  split_ifs with hversion
  · cases parseVersion m.payload with
    | error e => exact hmore
    | ok r => exact ⟨fun _ => ⟨m, by simp, hversion⟩, hmore.unjudged, hmore.notOk, hmore.alone⟩
  · exact hmore
  · exact hmore
  · exact ⟨hmore.version, hmore.unjudged, hmore.notOk, hmore.alone⟩
  · exact hmore

theorem gossiped_other {m : Msg} (haddr : m.command ≠ tagBytes "addr")
    (haddrv2 : m.command ≠ tagBytes "addrv2") : gossiped m = [] :=
  if_neg (not_or.mpr ⟨haddr, haddrv2⟩)

theorem Judged.more {seen : List Msg} {s : State} (h : Judged seen s) {m : Msg}
    (hm : gossiped m = []) : Judged (seen ++ [m]) s where
  ok_iff := h.ok_iff
  gossip := by rw [List.flatMap_append, List.flatMap_singleton, hm, List.append_nil, h.gossip]
  verdict b hb := by
    obtain ⟨m', hm', hverdict⟩ := h.verdict b hb
    exact ⟨m', List.mem_append_left _ hm', hverdict⟩

theorem Out.peers_judged (out : Out) (verdict : Option Bool × ℕ × ℕ) :
    (out.judged verdict).peers = out.peers := by
  obtain ⟨first, n, size⟩ := verdict
  cases first <;> rfl

/-- A `headers` message is judged by its own payload, whatever was known. -/
theorem Judged.judged {seen : List Msg} {s : State} {m : Msg} (h : Judged seen s)
    (hcommand : m.command = tagBytes "headers") {verdict : Option Bool × ℕ × ℕ}
    (hverdict : classifyHeaders m.payload = .ok verdict) :
    Judged (seen ++ [m]) { s with out := s.out.judged verdict } := by
  have hm : gossiped m = [] :=
    gossiped_other (by rw [hcommand]; decide +kernel) (by rw [hcommand]; decide +kernel)
  have hgossip : (s.out.judged verdict).peers = (seen ++ [m]).flatMap gossiped := by
    rw [Out.peers_judged, (h.more hm).gossip]
  obtain ⟨first, n, size⟩ := verdict
  cases first with
  | none =>
      refine ⟨rfl, hgossip, fun b hb => ⟨m, by simp, hcommand, none, n, size, hverdict, ?_⟩⟩
      cases hb
      rfl
  | some v2 =>
      refine ⟨rfl, hgossip, fun b hb => ⟨m, by simp, hcommand, some v2, n, size, hverdict, ?_⟩⟩
      cases hb
      cases v2 <;> rfl

theorem judged_listen (wantAddrs : Bool) {seen : List Msg} {s : State} {m : Msg}
    (h : Judged seen s) : Judged (seen ++ [m]) (listen H wantAddrs s m).state := by
  rw [listen]
  -- pings are answered, gossip is kept, headers are judged, and all else is passed over
  by_cases hping : m.command = tagBytes "ping"
  · have hmore := h.more (gossiped_other (m := m) (by rw [hping]; decide +kernel)
      (by rw [hping]; decide +kernel))
    rw [if_pos hping]
    exact ⟨hmore.ok_iff, hmore.gossip, hmore.verdict⟩
  by_cases haddr : m.command = tagBytes "addr" ∨ m.command = tagBytes "addrv2"
  · rw [if_neg hping, if_pos haddr]
    refine ⟨h.ok_iff, ?_, fun b hb => ?_⟩
    · rw [List.flatMap_append, List.flatMap_singleton, gossiped, if_pos haddr, ← h.gossip]
      rfl
    · obtain ⟨m', hm', hverdict⟩ := h.verdict b hb
      exact ⟨m', List.mem_append_left _ hm', hverdict⟩
  have hmore := h.more (if_neg haddr : gossiped m = [])
  by_cases hheaders : m.command = tagBytes "headers"
  · rw [if_neg hping, if_neg haddr, if_pos hheaders]
    cases hverdict : classifyHeaders m.payload with
    | error e => exact hmore
    | ok verdict => cases wantAddrs <;> exact h.judged hheaders hverdict
  · rw [if_neg hping, if_neg haddr, if_neg hheaders]
    exact hmore

theorem Judged.finish {text : NetError → String} {seen : List Msg} {s : State}
    (h : Judged seen s) (e : Option NetError) : Judged seen (finish text s e) := by
  cases e with
  | none => exact h
  | some e =>
      rw [ForkPeers.finish]
      split_ifs
      · exact h
      · exact ⟨h.ok_iff, h.gossip, h.verdict⟩

/-- Nothing is judged before the handshake. -/
theorem Greeted.judged {seen : List Msg} {s : State} (h : Greeted seen s) : Judged [] s where
  ok_iff := by rw [h.notOk, h.unjudged]; rfl
  gossip := h.alone
  verdict b hb := by
    rw [h.unjudged] at hb
    cases hb

/-- What the second loop makes of the rest of the messages. -/
theorem judged_inquire (text : NetError → String) (wantAddrs : Bool) (remote : Remote)
    {s : State} (segments : List Bytes) (h : Judged [] s) :
    ∃ seen, seen <+: ((reader.framing H remote.ending).arriving segments).1 ∧
      Judged seen (inquire H text wantAddrs remote s segments) := by
  rw [inquire]
  -- whether the peer is asked for addresses changes only what was sent
  generalize hs : (if wantAddrs = true
    then { s with sent := s.sent ++ [message H "getaddr" []] } else s) = s'
  have hasked : Judged [] s' := by
    rw [← hs]
    split_ifs
    · exact ⟨h.ok_iff, h.gossip, h.verdict⟩
    · exact h
  cases ForkHeaders.getheaders H lastCommonHash.toList with
  | error e => exact ⟨[], List.nil_prefix, hasked.finish (some e)⟩
  | ok request =>
      have hsent : Judged [] { s' with sent := s'.sent ++ [request] } :=
        ⟨hasked.ok_iff, hasked.gossip, hasked.verdict⟩
      obtain ⟨seen, hseen, hjudged⟩ := (reader.framing H remote.ending).loop_seen (I := Judged)
        (fun _ _ _ => judged_listen (H := H) wantAddrs) remote.rounds.2 hsent segments
      rw [List.nil_append] at hjudged
      exact ⟨seen, ⟨_, hseen.symm⟩, hjudged.finish _⟩

/-- What is learned of a peer rests on its messages: on those in the middle, for
which a handshake was needed. -/
structure Learned (ms : List Msg) (out : Out) : Prop where
  intro ::
  split : ∃ before heard after, ms = before ++ (heard ++ after)
    ∧ out.ok = out.fork.isSome
    ∧ out.peers = heard.flatMap gossiped
    ∧ ∀ b, out.fork = some b →
      (∃ v ∈ before, v.command = tagBytes "version") ∧ ∃ m ∈ heard, Verdict m b

theorem Judged.learned_nothing {s : State} (h : Judged [] s) (ms : List Msg) :
    Learned ms s.out := by
  refine ⟨[], [], ms, rfl, h.ok_iff, h.gossip, fun b hb => ?_⟩
  obtain ⟨m, hm, -⟩ := h.verdict b hb
  cases hm

theorem proceed_greeted {text : NetError → String} {wantAddrs : Bool} {remote : Remote}
    {s : State} (h : s.gotVersion = true) (segments : List Bytes) :
    proceed H text wantAddrs remote ((s, none), segments)
      = inquire H text wantAddrs remote s segments := if_pos h

theorem proceed_silent {text : NetError → String} {wantAddrs : Bool} {remote : Remote}
    {s : State} (h : ¬ s.gotVersion = true) (segments : List Bytes) :
    proceed H text wantAddrs remote ((s, none), segments)
      = { s with out := { s.out with note := some "no version message" } } := if_neg h

theorem learned_probe (H : Hashes) (text : NetError → String) (time : ℕ) (wantAddrs : Bool)
    (remote : Remote) :
    Learned ((reader.framing H remote.ending).arriving remote.segments).1
      (probe H text time wantAddrs remote).out := by
  have hunjudged : Greeted [] {} := ⟨fun h => Bool.noConfusion h, rfl, rfl, rfl⟩
  have hnone : ∀ e, Judged [] (finish text {} (some e)) :=
    fun e => hunjudged.judged.finish (some e)
  rw [probe]
  split
  · exact (hnone _).learned_nothing _
  · exact (hnone _).learned_nothing _
  rename_i version _ _
  -- the handshake: nothing is judged in it
  have hstart : Greeted [] { sent := [version] } :=
    ⟨fun h => Bool.noConfusion h, rfl, rfl, rfl⟩
  obtain ⟨seen, hseen, hgreeted⟩ := (reader.framing H remote.ending).loop_seen (I := Greeted)
    (fun _ _ _ => greeted_greet (H := H)) remote.rounds.1 hstart remote.segments
  rw [List.nil_append] at hgreeted
  generalize (reader.framing H remote.ending).loop (greet H) remote.rounds.1
    { sent := [version] } remote.segments = r at hseen hgreeted
  obtain ⟨⟨s, e⟩, segments⟩ := r
  dsimp only at hseen hgreeted
  cases e with
  | some e =>
      rw [proceed]
      exact (hgreeted.judged.finish (some e)).learned_nothing _
  | none =>
      -- without a version message the probe ends here, and has learned nothing
      by_cases hgot : s.gotVersion = true
      · obtain ⟨heard, ⟨after, hheard⟩, hjudged⟩ :=
          judged_inquire (H := H) text wantAddrs remote segments hgreeted.judged
        rw [proceed_greeted hgot, hseen, ← hheard]
        exact ⟨seen, heard, after, rfl, hjudged.ok_iff, hjudged.gossip,
          fun b hb => ⟨hgreeted.version hgot, hjudged.verdict b hb⟩⟩
      · have hsilent :
            Judged [] { s with out := { s.out with note := some "no version message" } } :=
          ⟨hgreeted.judged.ok_iff, hgreeted.judged.gossip, hgreeted.judged.verdict⟩
        rw [proceed_silent hgot]
        exact hsilent.learned_nothing _

/-! ### A peer that answers -/

/-- The messages of a peer that greets, and answers with headers. -/
structure Answer where
  before : List Msg
  version : Msg
  between : List Msg
  verack : Msg
  heard : List Msg
  headers : Msg
  after : List Msg

namespace Answer

variable (a : Answer)

/-- The messages of a peer that answers, in their order. -/
def msgs : List Msg :=
  a.before ++ a.version :: (a.between ++ a.verack :: (a.heard ++ a.headers :: a.after))

end Answer

variable {a : Answer}

end ForkPeers

end PrunedElectrs
