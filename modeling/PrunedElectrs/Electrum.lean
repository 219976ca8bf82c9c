/-
PrunedElectrs/Electrum.lean

The Electrum session rule for chains with v2 headers.

A chain whose tip is v2 negotiates protocol 1.8, any other chain 1.4, and what
was agreed is kept with the client (`Client.negotiated`).  Serving headers is
refused to a client that did not agree on 1.8 while the chain has v2 headers;
the check is made at each of the four places that send headers, because a chain
crosses the activation in either direction while clients stay attached.

`Sessions.Step` is the system: one chain that is replaced at any moment, and
any number of clients that connect, send requests and are notified in any
order.  The check reads the tip only, while a request may name any height, so
safety rests on the chain being monotone (`Chain.Monotone`): below a v1 tip
there is no v2 header.  The invariant ties the field to the history: what a
client negotiated is the version of its last accepted `server.version`.
-/
import PrunedElectrs.Chain
import PrunedElectrs.Lib.Runs

namespace PrunedElectrs

open Wire Runs

/-! ### The version rule -/

/-- The version that is negotiated where there are v2 headers. -/
def protocolVersionV2 : String := "1.8"

/-- The version that is negotiated everywhere else. -/
def protocolVersionV1 : String := "1.4"

/-- The version a chain negotiates. -/
def protocolVersion (chainHasV2 : Bool) : String :=
  if chainHasV2 then protocolVersionV2 else protocolVersionV1

/-- May a client that negotiated this version be served block headers? -/
def mayServeHeaders (chainHasV2 : Bool) (negotiated : Option String) : Bool :=
  !chainHasV2 || negotiated == some protocolVersionV2

/-- Why a header request was refused, for the client's log. -/
def headerRefusal : String :=
  "this chain uses 164-byte block headers with a BLAKE2b block hash, " ++
  "which a client below protocol 1.8 cannot read. Reconnect and negotiate 1.8. Refusing rather " ++
  "than serving headers it would misinterpret."

namespace Chain

/-- Has this chain produced a v2 header?  The tip is enough. -/
def hasV2Headers (c : Chain) : Bool :=
  match c.headers.getLast? with
  | some p => p.2.isV2
  | none => false

/-- The hash of the tip. -/
def tip (c : Chain) : Rust BlockHash :=
  match c.headers.getLast? with
  | some p => .ok p.1
  | none => .error (.panic "empty chain")

/-- Headers of the old format up to some height, of the new one from there on. -/
def Monotone (c : Chain) : Prop :=
  ∀ i j a b, i ≤ j → c.getBlockHeader i = some a → c.getBlockHeader j = some b →
    a.isV2 → b.isV2

end Chain

/-! ### Clients, requests and replies -/

/-- What the server keeps of a connection. -/
structure Client where
  tip : Option BlockHash
  /-- What `server.version` agreed on. -/
  negotiated : Option String

/-- A client that has just connected. -/
def Client.fresh : Client where
  tip := none
  negotiated := none

/-- The versions a client asks for. -/
inductive VersionRequest where
  | single (exact : String)
  | minMax (min max : String)
deriving DecidableEq

namespace VersionRequest

/-- The lowest version asked for. -/
def min : VersionRequest → String
  | single exact => exact
  | minMax min _ => min

/-- The highest version asked for. -/
def max : VersionRequest → String
  | single exact => exact
  | minMax _ max => max

/-- The request as the error names it. -/
def text : VersionRequest → String
  | single exact => s!"Single({exact.quote})"
  | minMax min max => s!"MinMax({min.quote}, {max.quote})"

end VersionRequest

/-- The requests that are about headers, and the handshake. -/
inductive Request where
  | version (clientId : String) (request : VersionRequest)
  | blockHeader (height : ℕ)
  | blockHeaders (startHeight count : ℕ)
  | headersSubscribe

/-- The results that carry headers, and that of `server.version`. -/
inductive Reply where
  | version (serverId version : String)
  | header (header : AnyHeader)
  | headerAt (header : AnyHeader) (height : ℕ)
  | headers (count : ℕ) (run : List AnyHeader) (max : ℕ)

namespace Reply

/-- The headers a reply carries. -/
def carried : Reply → List AnyHeader
  | version _ _ => []
  | header h => [h]
  | headerAt h _ => [h]
  | headers _ run _ => run

/-- The `hex` member of the reply. -/
def hex (r : Reply) : List Char := r.carried.flatMap AnyHeader.serializeHex

end Reply

/-! ### The handlers -/

namespace Rpc

/-- `check_between`, which is upstream's: the version against a minimum and a maximum. -/
abbrev CheckBetween := String → String → String → Rust Unit

/-- Refuse headers to a client that may not be able to read them. -/
def checkMayServeHeaders (chain : Chain) (client : Client) : Rust Unit :=
  if mayServeHeaders chain.hasV2Headers client.negotiated then .ok ()
  else
    let negotiated := client.negotiated.getD "(unnegotiated)"
    bail s!"refusing block headers to a client at protocol {negotiated}: {headerRefusal}"

/-- `chain.get_block_header(height).unwrap()`. -/
def headerAtTip (chain : Chain) : Rust AnyHeader :=
  match chain.getBlockHeader chain.height with
  | some header => .ok header
  | none => .error (.panic "called `Option::unwrap()` on a `None` value")

/-- The notifications for a client whose subscription is out of date. -/
def updateClient (chain : Chain) (client : Client) : Rust (Client × List Reply) :=
  match client.tip with
  | none => .ok (client, [])
  | some oldTip => do
      let newTip ← chain.tip
      if oldTip ≠ newTip then
        checkMayServeHeaders chain client
        let header ← headerAtTip chain
        return ({ client with tip := some newTip }, [.headerAt header chain.height])
      else
        return (client, [])

/-- `blockchain.headers.subscribe`. -/
def headersSubscribe (chain : Chain) (client : Client) : Rust (Client × Reply) := do
  checkMayServeHeaders chain client
  let tip ← chain.tip
  let header ← headerAtTip chain
  return ({ client with tip := some tip }, .headerAt header chain.height)

/-- `blockchain.block.header`. -/
def blockHeader (chain : Chain) (client : Client) (height : ℕ) : Rust Reply := do
  checkMayServeHeaders chain client
  match chain.getBlockHeader height with
  | none => bail s!"no header at {height}"
  | some header => return .header header

/-- The most headers in a reply. -/
def maxCount : ℕ := 2016

/-- `blockchain.block.headers`. -/
def blockHeaders (chain : Chain) (client : Client) (startHeight count : ℕ) : Rust Reply := do
  checkMayServeHeaders chain client
  let endHeight := min (chain.height + 1) (startHeight + min count maxCount)
  let heights := List.range' startHeight (endHeight - startHeight)
  return .headers heights.length (heights.filterMap chain.getBlockHeader) maxCount

/-- `server.version`. -/
def version (checkBetween : CheckBetween) (serverId : String) (chain : Chain) (client : Client)
    (clientId : String) (request : VersionRequest) : Rust (Client × Reply) := do
  let version := protocolVersion chain.hasV2Headers
  let unsupported := s!"unsupported request {request.text} by {clientId}"
  context
    (if version = protocolVersionV2 then
      unsupported ++ ": this chain uses 164-byte block headers with a BLAKE2b block hash, which "
        ++ s!"a client below protocol {version} cannot read. "
        ++ "Refusing rather than serving headers it would misinterpret."
    else unsupported)
    (checkBetween version request.min request.max)
  return ({ client with negotiated := some version }, .version serverId version)

/-- The handler of a request. -/
def call (checkBetween : CheckBetween) (serverId : String) (chain : Chain) (client : Client) :
    Request → Rust (Client × Reply)
  | .version clientId request => version checkBetween serverId chain client clientId request
  | .blockHeader height => do return (client, ← blockHeader chain client height)
  | .blockHeaders startHeight count => do
      return (client, ← blockHeaders chain client startHeight count)
  | .headersSubscribe => headersSubscribe chain client

end Rpc

/-! ### The system -/

/-- The server as its clients see it. -/
structure Sessions where
  chain : Chain
  clients : ℕ → Option Client

/-- What an observer of the connections sees. -/
inductive SessionEvent where
  | connected (id : ℕ)
  /-- `server.version` was accepted, on a chain with or without v2 headers. -/
  | accepted (id : ℕ) (request : VersionRequest) (version : String) (chainHasV2 : Bool)
  | sent (id : ℕ) (reply : Reply)
  | refused (id : ℕ) (chain : List String)

namespace Sessions

/-- The events of an answered request. -/
def answered (s : Sessions) (id : ℕ) (request : Request) (client : Client) (reply : Reply) :
    List SessionEvent :=
  match request with
  | .version _ r =>
      [.accepted id r (client.negotiated.getD "") s.chain.hasV2Headers, .sent id reply]
  | _ => [.sent id reply]

/-- What the server and its clients do, and what is seen of it. -/
inductive Step (checkBetween : Rpc.CheckBetween) (serverId : String) :
    Sessions → List SessionEvent → Sessions → Prop
  /-- The chain is extended or reorganised, to any chain the node can present. -/
  | replaceChain {s : Sessions} {chain : Chain} :
      chain.Monotone → Step checkBetween serverId s [] { s with chain := chain }
  | connect {s : Sessions} {id : ℕ} : s.clients id = none →
      Step checkBetween serverId s [.connected id]
        { s with clients := Function.update s.clients id (some Client.fresh) }
  | disconnect {s : Sessions} {id : ℕ} :
      Step checkBetween serverId s [] { s with clients := Function.update s.clients id none }
  | answer {s : Sessions} {id : ℕ} {client client' : Client} {request : Request}
      {reply : Reply} : s.clients id = some client →
      Rpc.call checkBetween serverId s.chain client request = .ok (client', reply) →
      Step checkBetween serverId s (s.answered id request client' reply)
        { s with clients := Function.update s.clients id (some client') }
  /-- A request that fails is answered with its error, and the session goes on. -/
  | refuse {s : Sessions} {id : ℕ} {client : Client} {request : Request}
      {chain : List String} : s.clients id = some client →
      Rpc.call checkBetween serverId s.chain client request = .error (.err chain) →
      Step checkBetween serverId s [.refused id chain] s
  | notify {s : Sessions} {id : ℕ} {client client' : Client} {replies : List Reply} :
      s.clients id = some client → Rpc.updateClient s.chain client = .ok (client', replies) →
      Step checkBetween serverId s (replies.map (.sent id))
        { s with clients := Function.update s.clients id (some client') }
  /-- A client whose notification fails is disconnected. -/
  | drop {s : Sessions} {id : ℕ} {client : Client} {chain : List String} :
      s.clients id = some client → Rpc.updateClient s.chain client = .error (.err chain) →
      Step checkBetween serverId s [] { s with clients := Function.update s.clients id none }

/-- A server with a chain and no clients yet. -/
def Init (s : Sessions) : Prop :=
  s.chain.Monotone ∧ ∀ id, s.clients id = none

/-- What an event says of the last `server.version` accepted from the present
connection of a client. -/
def note (id : ℕ) (last : Option (VersionRequest × String × Bool)) :
    SessionEvent → Option (VersionRequest × String × Bool)
  | .connected i => if i = id then none else last
  | .accepted i request version chainHasV2 =>
      if i = id then some (request, version, chainHasV2) else last
  | .sent _ _ => last
  | .refused _ _ => last

/-- The last `server.version` accepted from the client of the present connection. -/
def lastAccepted (id : ℕ) (es : List SessionEvent) : Option (VersionRequest × String × Bool) :=
  es.foldl (note id) none

/-- The reply carries a header of 164 bytes. -/
def CarriesV2 (reply : Reply) : Prop := ∃ h ∈ reply.carried, h.size = headerV2Size

/-- The last handshake accepted from the client agreed on this version: it was
checked against the version the chain negotiated at that moment. -/
def Agreed (checkBetween : Rpc.CheckBetween) (es : List SessionEvent) (id : ℕ)
    (version : String) (chainHasV2 : Bool) : Prop :=
  ∃ request, lastAccepted id es = some (request, version, chainHasV2)
    ∧ version = protocolVersion chainHasV2
    ∧ checkBetween version request.min request.max = .ok ()

/-- A v2 header is sent only to a client whose last accepted handshake was for
1.8, accepted while the chain negotiated 1.8. -/
def Safe (checkBetween : Rpc.CheckBetween) (before : List SessionEvent) : SessionEvent → Prop
  | .sent id reply => CarriesV2 reply → Agreed checkBetween before id protocolVersionV2 true
  | _ => True

/-- What a client negotiated is what its last accepted handshake agreed on. -/
structure Inv (checkBetween : Rpc.CheckBetween) (es : List SessionEvent) (s : Sessions) : Prop where
  monotone : s.chain.Monotone
  negotiated : ∀ id client version, s.clients id = some client →
    client.negotiated = some version → ∃ chainHasV2, Agreed checkBetween es id version chainHasV2

end Sessions

/-! ### What the checks let through -/

theorem mayServeHeaders_true {negotiated : Option String}
    (h : mayServeHeaders true negotiated) : negotiated = some protocolVersionV2 := by
  rw [mayServeHeaders, Bool.not_true, Bool.false_or] at h
  exact eq_of_beq h

/-- The two versions are different strings. -/
theorem eq_true_of_protocolVersion {chainHasV2 : Bool}
    (h : protocolVersionV2 = protocolVersion chainHasV2) : chainHasV2 = true := by
  cases chainHasV2 with
  | false => exact absurd h (by decide)
  | true => rfl

namespace Chain

/-- On a monotone chain the tip answers for every height. -/
theorem Monotone.hasV2Headers {c : Chain} (hc : c.Monotone) {i : ℕ} {h : AnyHeader}
    (hi : c.getBlockHeader i = some h) (hv : h.isV2) : c.hasV2Headers = true := by
  obtain ⟨p, hp, rfl⟩ := Option.map_eq_some_iff.mp hi
  obtain ⟨hlt, -⟩ := List.getElem?_eq_some_iff.mp hp
  have hlast : c.headers.getLast? = c.headers[c.headers.length - 1]? :=
    List.getLast?_eq_getElem?
  have htip : c.headers.length - 1 < c.headers.length := by omega
  have htipHeader : c.getBlockHeader (c.headers.length - 1)
      = some (c.headers[c.headers.length - 1]).2 := by
    rw [getBlockHeader, List.getElem?_eq_getElem htip, Option.map_some]
  rw [Chain.hasV2Headers, hlast, List.getElem?_eq_getElem htip]
  exact hc i (c.headers.length - 1) _ _ (by omega) hi htipHeader hv

end Chain

namespace Rpc

/-- A reply the check stands in front of: it carries headers of the chain, and
nothing if the client may not be served. -/
structure Checked (chain : Chain) (client : Client) (reply : Reply) : Prop where
  allowed : mayServeHeaders chain.hasV2Headers client.negotiated
  onChain : ∀ h ∈ reply.carried, ∃ i, chain.getBlockHeader i = some h

/-- A checked reply that carries a v2 header goes to a client at 1.8. -/
theorem Checked.negotiated {chain : Chain} {client : Client} {reply : Reply}
    (h : Checked chain client reply) (hc : chain.Monotone) (hv : Sessions.CarriesV2 reply) :
    client.negotiated = some protocolVersionV2 := by
  obtain ⟨a, ha, hsize⟩ := hv
  obtain ⟨i, hi⟩ := h.onChain a ha
  have hv2 : a.isV2 := by
    cases a with
    | v1 _ => exact absurd hsize (show headerV1Size ≠ headerV2Size by decide)
    | v2 _ => rfl
  have hallowed := h.allowed
  rw [hc.hasV2Headers hi hv2] at hallowed
  exact mayServeHeaders_true hallowed

variable {chain : Chain} {client client' : Client} {reply : Reply}

theorem checkMayServeHeaders_eq_ok {u : Unit} :
    checkMayServeHeaders chain client = .ok u ↔
      mayServeHeaders chain.hasV2Headers client.negotiated := by
  rw [checkMayServeHeaders]
  split_ifs with h
  · exact iff_of_true rfl h
  · exact iff_of_false (by simp [bail]) h

theorem headerAtTip_eq_ok {h : AnyHeader} :
    headerAtTip chain = .ok h ↔ chain.getBlockHeader chain.height = some h := by
  rw [headerAtTip]
  split <;> simp_all

theorem checked_headersSubscribe (h : headersSubscribe chain client = .ok (client', reply)) :
    client'.negotiated = client.negotiated ∧ Checked chain client reply := by
  rw [headersSubscribe] at h
  obtain ⟨u, hcheck, h⟩ := bind_eq_ok.mp h
  obtain ⟨tip, -, h⟩ := bind_eq_ok.mp h
  obtain ⟨header, hheader, h⟩ := bind_eq_ok.mp h
  obtain ⟨rfl, rfl⟩ := Prod.mk.inj (Except.ok.inj h)
  refine ⟨rfl, checkMayServeHeaders_eq_ok.mp hcheck, fun a ha => ?_⟩
  obtain rfl := List.mem_singleton.mp ha
  exact ⟨chain.height, headerAtTip_eq_ok.mp hheader⟩

theorem checked_blockHeader {height : ℕ} (h : blockHeader chain client height = .ok reply) :
    Checked chain client reply := by
  rw [blockHeader] at h
  obtain ⟨u, hcheck, h⟩ := bind_eq_ok.mp h
  rcases hheader : chain.getBlockHeader height with - | header
  · rw [hheader] at h
    cases h
  · rw [hheader] at h
    obtain rfl := Except.ok.inj h
    refine ⟨checkMayServeHeaders_eq_ok.mp hcheck, fun a ha => ?_⟩
    obtain rfl := List.mem_singleton.mp ha
    exact ⟨height, hheader⟩

theorem checked_blockHeaders {startHeight count : ℕ}
    (h : blockHeaders chain client startHeight count = .ok reply) :
    Checked chain client reply := by
  rw [blockHeaders] at h
  obtain ⟨u, hcheck, h⟩ := bind_eq_ok.mp h
  obtain rfl := Except.ok.inj h
  refine ⟨checkMayServeHeaders_eq_ok.mp hcheck, fun a ha => ?_⟩
  obtain ⟨i, -, hi⟩ := List.mem_filterMap.mp ha
  exact ⟨i, hi⟩

theorem checked_updateClient {replies : List Reply}
    (h : updateClient chain client = .ok (client', replies)) :
    client'.negotiated = client.negotiated ∧ ∀ reply ∈ replies, Checked chain client reply := by
  rw [updateClient] at h
  rcases htip : client.tip with - | oldTip
  · rw [htip] at h
    obtain ⟨rfl, rfl⟩ := Prod.mk.inj (Except.ok.inj h)
    exact ⟨rfl, fun _ hr => absurd hr List.not_mem_nil⟩
  · rw [htip] at h
    obtain ⟨newTip, -, h⟩ := bind_eq_ok.mp h
    split_ifs at h with hne
    · obtain ⟨u, hcheck, h⟩ := bind_eq_ok.mp h
      obtain ⟨header, hheader, h⟩ := bind_eq_ok.mp h
      obtain ⟨rfl, rfl⟩ := Prod.mk.inj (Except.ok.inj h)
      refine ⟨rfl, fun reply hr => ?_⟩
      obtain rfl := List.mem_singleton.mp hr
      refine ⟨checkMayServeHeaders_eq_ok.mp hcheck, fun a ha => ?_⟩
      obtain rfl := List.mem_singleton.mp ha
      exact ⟨chain.height, headerAtTip_eq_ok.mp hheader⟩
    · obtain ⟨rfl, rfl⟩ := Prod.mk.inj (Except.ok.inj h)
      exact ⟨rfl, fun _ hr => absurd hr List.not_mem_nil⟩

variable {checkBetween : CheckBetween} {serverId : String}

/-- An accepted `server.version` records the version it was checked against. -/
theorem version_eq_ok {clientId : String} {request : VersionRequest}
    (h : version checkBetween serverId chain client clientId request = .ok (client', reply)) :
    client'.negotiated = some (protocolVersion chain.hasV2Headers)
      ∧ reply = .version serverId (protocolVersion chain.hasV2Headers)
      ∧ checkBetween (protocolVersion chain.hasV2Headers) request.min request.max = .ok () := by
  rw [version] at h
  obtain ⟨u, hcheck, h⟩ := bind_eq_ok.mp h
  obtain ⟨rfl, rfl⟩ := Prod.mk.inj (Except.ok.inj h)
  exact ⟨rfl, rfl, context_eq_ok.mp hcheck⟩

end Rpc

/-! ### What a step keeps -/

namespace Sessions

variable {checkBetween : Rpc.CheckBetween} {serverId : String}

theorem lastAccepted_append {id : ℕ} {es new : List SessionEvent}
    (h : ∀ e ∈ new, ∀ last, note id last e = last) :
    lastAccepted id (es ++ new) = lastAccepted id es := by
  rw [lastAccepted, List.foldl_append]
  exact List.foldlRecOn new (note id) (motive := fun x => x = lastAccepted id es) rfl
    fun last hlast e he => (h e he last).trans hlast

theorem Agreed.append {id : ℕ} {es new : List SessionEvent} {version : String} {v2 : Bool}
    (h : Agreed checkBetween es id version v2) (hnew : ∀ e ∈ new, ∀ last, note id last e = last) :
    Agreed checkBetween (es ++ new) id version v2 := by
  obtain ⟨request, hlast, hrest⟩ := h
  exact ⟨request, (lastAccepted_append hnew).trans hlast, hrest⟩

theorem note_sent (id receiver : ℕ) (replies : List Reply) :
    ∀ e ∈ replies.map (SessionEvent.sent receiver), ∀ last, note id last e = last := by
  intro e he last
  obtain ⟨reply, -, rfl⟩ := List.mem_map.mp he
  rfl

/-- The handshake that has just been accepted is the last one. -/
theorem agreed_accepted (es : List SessionEvent) (id : ℕ) {request : VersionRequest} {v2 : Bool}
    (h : checkBetween (protocolVersion v2) request.min request.max = .ok ()) :
    Agreed checkBetween (es ++ [.accepted id request (protocolVersion v2) v2]) id
      (protocolVersion v2) v2 := by
  refine ⟨request, ?_, rfl, h⟩
  rw [lastAccepted, List.foldl_append, List.foldl_cons, List.foldl_nil, note, if_pos rfl]

theorem inv_init (s : Sessions) (h : Init s) : Inv checkBetween [] s := by
  refine ⟨h.1, fun id client version hclient _ => ?_⟩
  rw [h.2 id] at hclient
  cases hclient

namespace Inv

variable {es : List SessionEvent} {s : Sessions}

/-- A client leaves: the others keep what they have agreed. -/
theorem remove (h : Inv checkBetween es s) (id : ℕ) :
    Inv checkBetween es { s with clients := Function.update s.clients id none } := by
  refine ⟨h.monotone, fun i client version hclient hn => ?_⟩
  by_cases hi : i = id
  · subst hi
    simp at hclient
  · simp only [Function.update_of_ne hi] at hclient
    exact h.negotiated i client version hclient hn

/-- A client's entry is replaced: the events must not touch the other clients,
and must say what this one has agreed. -/
theorem set (h : Inv checkBetween es s) {new : List SessionEvent} {id : ℕ} {client : Client}
    (hother : ∀ i ≠ id, ∀ e ∈ new, ∀ last, note i last e = last)
    (hself : ∀ version, client.negotiated = some version →
      ∃ v2, Agreed checkBetween (es ++ new) id version v2) :
    Inv checkBetween (es ++ new)
      { s with clients := Function.update s.clients id (some client) } := by
  refine ⟨h.monotone, fun i client' version hclient hn => ?_⟩
  by_cases hi : i = id
  · subst hi
    simp only [Function.update_self, Option.some.injEq] at hclient
    subst hclient
    exact hself version hn
  · simp only [Function.update_of_ne hi] at hclient
    obtain ⟨v2, hagreed⟩ := h.negotiated i client' version hclient hn
    exact ⟨v2, hagreed.append (hother i hi)⟩

/-- Events that are no handshake leave everything agreed as it was. -/
theorem sent (h : Inv checkBetween es s) {id : ℕ} {client client' : Client}
    (hclient : s.clients id = some client) (hn : client'.negotiated = client.negotiated)
    (replies : List Reply) :
    Inv checkBetween (es ++ replies.map (SessionEvent.sent id))
      { s with clients := Function.update s.clients id (some client') } := by
  refine h.set (fun i _ => note_sent _ _ _) fun version hversion => ?_
  obtain ⟨v2, hagreed⟩ := h.negotiated id client version hclient (hn ▸ hversion)
  exact ⟨v2, hagreed.append (note_sent _ _ _)⟩

/-- An accepted handshake replaces what its client had agreed. -/
theorem accepted (h : Inv checkBetween es s) {id : ℕ} {client : Client}
    {request : VersionRequest} {v2 : Bool} {reply : Reply}
    (hn : client.negotiated = some (protocolVersion v2))
    (hcheck : checkBetween (protocolVersion v2) request.min request.max = .ok ()) :
    Inv checkBetween
      (es ++ [.accepted id request (protocolVersion v2) v2, .sent id reply])
      { s with clients := Function.update s.clients id (some client) } := by
  refine h.set (fun i hi e he last => ?_) fun version hversion => ?_
  -- the other clients see no handshake of theirs
  · rcases List.mem_cons.mp he with rfl | he
    · exact if_neg (Ne.symm hi)
    · obtain rfl := List.mem_singleton.mp he
      rfl
  · obtain rfl := Option.some.inj (hn.symm.trans hversion)
    have hagreed := (agreed_accepted es id hcheck).append (note_sent id id [reply])
    rw [List.append_assoc] at hagreed
    exact ⟨v2, hagreed⟩

/-- A v2 header in a checked reply goes to a client that agreed on 1.8. -/
theorem safe_sent (h : Inv checkBetween es s) {id : ℕ} {client : Client} {reply : Reply}
    (hclient : s.clients id = some client) (hr : Rpc.Checked s.chain client reply)
    {new : List SessionEvent} (hnew : ∀ e ∈ new, ∀ last, note id last e = last) :
    Safe checkBetween (es ++ new) (.sent id reply) := by
  intro hv
  obtain ⟨v2, hagreed⟩ :=
    h.negotiated id client _ hclient (hr.negotiated h.monotone hv)
  -- 1.8 was negotiated, and only a chain with v2 headers negotiates it
  have hversion : protocolVersionV2 = protocolVersion v2 := by
    obtain ⟨-, -, hversion, -⟩ := hagreed
    exact hversion
  obtain rfl := eq_true_of_protocolVersion hversion
  exact hagreed.append hnew

/-- Checked replies sent one after another are safe. -/
theorem always_sent (h : Inv checkBetween es s) {id : ℕ} {client : Client}
    (hclient : s.clients id = some client) {replies : List Reply}
    (hr : ∀ reply ∈ replies, Rpc.Checked s.chain client reply) :
    Always (fun pre e => Safe checkBetween (es ++ pre) e)
      (replies.map (SessionEvent.sent id)) := by
  intro pre e post heq
  obtain ⟨sentBefore, rest, hreplies, rfl, hrest⟩ := List.map_eq_append_iff.mp heq
  obtain ⟨reply, rest, rfl, rfl, -⟩ := List.map_eq_cons_iff.mp hrest
  refine h.safe_sent hclient (hr reply ?_) (note_sent _ _ _)
  rw [hreplies]
  exact List.mem_append_right _ List.mem_cons_self

end Inv

/-- What an answered request emits and what it does to its client: a handshake
that was checked, or a checked reply. -/
theorem call_eq_ok (id : ℕ) {s : Sessions} {client client' : Client} {request : Request}
    {reply : Reply}
    (h : Rpc.call checkBetween serverId s.chain client request = .ok (client', reply)) :
    (∃ r, s.answered id request client' reply =
          [.accepted id r (protocolVersion s.chain.hasV2Headers) s.chain.hasV2Headers,
            .sent id reply]
        ∧ client'.negotiated = some (protocolVersion s.chain.hasV2Headers)
        ∧ reply.carried = []
        ∧ checkBetween (protocolVersion s.chain.hasV2Headers) r.min r.max = .ok ())
      ∨ s.answered id request client' reply = [reply].map (SessionEvent.sent id)
        ∧ client'.negotiated = client.negotiated ∧ Rpc.Checked s.chain client reply := by
  cases request with
  | version clientId r =>
      obtain ⟨hn, rfl, hcheck⟩ := Rpc.version_eq_ok h
      refine .inl ⟨r, ?_, hn, rfl, hcheck⟩
      rw [answered, hn, Option.getD_some]
  | blockHeader height =>
      obtain ⟨r, hr, h⟩ := bind_eq_ok.mp h
      obtain ⟨rfl, rfl⟩ := Prod.mk.inj (Except.ok.inj h)
      exact .inr ⟨rfl, rfl, Rpc.checked_blockHeader hr⟩
  | blockHeaders startHeight count =>
      obtain ⟨r, hr, h⟩ := bind_eq_ok.mp h
      obtain ⟨rfl, rfl⟩ := Prod.mk.inj (Except.ok.inj h)
      exact .inr ⟨rfl, rfl, Rpc.checked_blockHeaders hr⟩
  | headersSubscribe =>
      obtain ⟨hn, hr⟩ := Rpc.checked_headersSubscribe h
      exact .inr ⟨rfl, hn, hr⟩

theorem inv_step (es : List SessionEvent) (s : Sessions) (new : List SessionEvent) (s' : Sessions)
    (h : Inv checkBetween es s) (hstep : Step checkBetween serverId s new s') :
    Inv checkBetween (es ++ new) s' := by
  cases hstep with
  | replaceChain hmono =>
      rw [List.append_nil]
      exact ⟨hmono, h.negotiated⟩
  | @connect id _ =>
      refine h.set (fun i hi e he last => ?_) fun version hversion => by cases hversion
      obtain rfl := List.mem_singleton.mp he
      exact if_neg (Ne.symm hi)
  | disconnect =>
      rw [List.append_nil]
      exact h.remove _
  | @answer id _ _ _ _ hclient hcall =>
      rcases call_eq_ok id hcall with ⟨r, hev, hn, -, hcheck⟩ | ⟨hev, hn, -⟩
      · rw [hev]
        exact h.accepted hn hcheck
      · rw [hev]
        exact h.sent hclient hn _
  | refuse _ _ =>
      refine ⟨h.monotone, fun i client version hclient hn => ?_⟩
      obtain ⟨v2, hagreed⟩ := h.negotiated i client version hclient hn
      refine ⟨v2, hagreed.append fun e he last => ?_⟩
      obtain rfl := List.mem_singleton.mp he
      rfl
  | notify hclient hupdate =>
      exact h.sent hclient (Rpc.checked_updateClient hupdate).1 _
  | drop _ _ =>
      rw [List.append_nil]
      exact h.remove _

theorem safe_step (es : List SessionEvent) (s : Sessions) (new : List SessionEvent)
    (s' : Sessions) (h : Inv checkBetween es s) (hstep : Step checkBetween serverId s new s') :
    Always (fun pre e => Safe checkBetween (es ++ pre) e) new := by
  cases hstep with
  | replaceChain _ => exact always_nil _
  | connect _ => exact always_singleton trivial
  | disconnect => exact always_nil _
  | @answer id _ _ _ _ hclient hcall =>
      rcases call_eq_ok id hcall with ⟨r, hev, -, hcarried, -⟩ | ⟨hev, -, hr⟩
      · rw [hev]
        -- the reply to a handshake carries no header
        refine Always.append (always_singleton trivial) (always_singleton ?_)
        rintro ⟨a, ha, -⟩
        rw [hcarried] at ha
        exact absurd ha List.not_mem_nil
      · rw [hev]
        refine h.always_sent hclient fun reply hreply => ?_
        obtain rfl := List.mem_singleton.mp hreply
        exact hr
  | refuse _ _ => exact always_singleton trivial
  | notify hclient hupdate =>
      exact h.always_sent hclient (Rpc.checked_updateClient hupdate).2
  | drop _ _ => exact always_nil _

/-! ### Clients below 1.8 on a chain with v2 headers -/

/-- The check fails for a client that did not agree on 1.8. -/
theorem refused_of_ne {chain : Chain} {client : Client} (hv : chain.hasV2Headers)
    (hn : client.negotiated ≠ some protocolVersionV2) :
    ∃ msg, Rpc.checkMayServeHeaders chain client = .error (.err [msg]) := by
  have hmay : ¬ mayServeHeaders chain.hasV2Headers client.negotiated := by
    rw [hv]
    exact fun hmay => hn (mayServeHeaders_true hmay)
  exact ⟨_, if_neg hmay⟩

/-- Every request for headers from such a client is refused. -/
theorem call_refused {chain : Chain} {client : Client} (hv : chain.hasV2Headers)
    (hn : client.negotiated ≠ some protocolVersionV2) {request : Request}
    (hr : ∀ clientId r, request ≠ .version clientId r) :
    ∃ msg, Rpc.call checkBetween serverId chain client request = .error (.err [msg]) := by
  obtain ⟨msg, hmsg⟩ := refused_of_ne hv hn
  refine ⟨msg, ?_⟩
  cases request with
  | version clientId r => exact absurd rfl (hr clientId r)
  | blockHeader height => rw [Rpc.call, Rpc.blockHeader, hmsg]; rfl
  | blockHeaders startHeight count => rw [Rpc.call, Rpc.blockHeaders, hmsg]; rfl
  | headersSubscribe => rw [Rpc.call, Rpc.headersSubscribe, hmsg]; rfl

/-- A notification that is due to such a client fails, which disconnects it. -/
theorem updateClient_refused {chain : Chain} {client : Client} (hv : chain.hasV2Headers)
    (hn : client.negotiated ≠ some protocolVersionV2) {oldTip : BlockHash}
    (htip : client.tip = some oldTip) (hold : chain.tip ≠ .ok oldTip) :
    ∃ msg, Rpc.updateClient chain client = .error (.err [msg]) := by
  obtain ⟨msg, hmsg⟩ := refused_of_ne hv hn
  refine ⟨msg, ?_⟩
  rcases hlast : chain.headers.getLast? with - | p
  · rw [Chain.hasV2Headers, hlast] at hv
    cases hv
  · have hnew : chain.tip = .ok p.1 := by rw [Chain.tip, hlast]
    have hne : oldTip ≠ p.1 := fun e => hold (e ▸ hnew)
    rw [Rpc.updateClient, htip]
    simp only [hnew, ok_bind, if_pos hne, hmsg, error_bind]

/-- **Session safety**: in every run, a reply or a notification with a v2 header
goes only to a client whose last accepted `server.version` was accepted for 1.8
while the chain negotiated 1.8.  Any other client of a chain with v2 headers is
refused every header request, and disconnected by its next notification. -/
theorem safe_of_run (checkBetween : Rpc.CheckBetween) (serverId : String)
    {es : List SessionEvent} {s : Sessions}
    (h : Run Init (Step checkBetween serverId) es s) :
    Always (Safe checkBetween) es
      ∧ ∀ id client, s.clients id = some client → s.chain.hasV2Headers →
          (¬ ∃ v2, Agreed checkBetween es id protocolVersionV2 v2) →
          (∀ request, (∀ clientId r, request ≠ .version clientId r) →
            ∃ msg, Rpc.call checkBetween serverId s.chain client request = .error (.err [msg]))
          ∧ ∀ oldTip, client.tip = some oldTip → s.chain.tip ≠ .ok oldTip →
            ∃ msg, Rpc.updateClient s.chain client = .error (.err [msg]) := by
  refine ⟨h.event inv_init inv_step safe_step, fun id client hclient hv hagreed => ?_⟩
  have hinv : Inv checkBetween es s := h.invariant inv_init inv_step
  have hn : client.negotiated ≠ some protocolVersionV2 :=
    fun hn => hagreed (hinv.negotiated id client _ hclient hn)
  exact ⟨fun _ hr => call_refused hv hn hr, fun _ => updateClient_refused hv hn⟩

end Sessions

/-! ### A chain that crosses its activation -/

/-- The last header of the old format on testnet4. -/
def header149536 : HeaderV1 :=
  HeaderV1.read (headerBytes 80
    0x00c07a2d48a589a1d9402520f5b20e264ce5159b58379f65b8656807d03ed10000000000d8ac297368de27e58b3c40c768bfbc64bd76e1abe63bea50544d0e8cabd1f7e864098a6affff001d6c015cc3)
    rfl

/-- The first header of the new format, which names it as its parent. -/
def header149537 : HeaderV2 :=
  HeaderV2.read (headerBytes 164
    0x000000a05119dc259b59eaefbccf48ecc15bfd50c499d9d65b500b361b1b60000000000063be46460c5e75edfe6e1fba731e3fc096396af99c299e70625484ffc6f9184101fb896affff001d986cd88b510d792301fb896a00000000b14cf00d0100000000000000000000000f00000000000000000000000000000000000000214802000000000000000000000000000000000000000000000000000000000000000000)
    rfl

/-- The last v1 header of the testnet4 fork and its first v2 one. -/
def activationHeaders : List AnyHeader := [.v1 header149536, .v2 header149537]

/-- The chain of the two, as `update` builds it. -/
def activationChain : Chain where
  headers := activationHeaders.map (Chain.entry knownHashes)
  heights := insertKey (Chain.new knownHashes header149536).heights
    (header149537.blockHash knownHashes) 1

theorem activation_monotone : activationChain.Monotone := by
  intro i j a b hij ha hb hv
  rcases i with - | i
  · obtain rfl : AnyHeader.v1 header149536 = a := Option.some.inj ha
    cases hv
  · rcases j with - | - | j
    · omega
    · obtain rfl : AnyHeader.v2 header149537 = b := Option.some.inj hb
      rfl
    · cases hb

theorem new_monotone (H : Hashes) (genesis : HeaderV1) : (Chain.new H genesis).Monotone := by
  intro i j a b hij ha hb hv
  rcases i with - | i
  · obtain rfl : AnyHeader.v1 genesis = a := Option.some.inj ha
    cases hv
  · cases ha

/-- `check_between` on the versions there are. -/
def checkBetweenKnown : Rpc.CheckBetween := fun version min max =>
  let versions := ["1.0", "1.1", "1.2", "1.3", "1.4", "1.5", "1.6", "1.7", "1.8"]
  if versions.idxOf min ≤ versions.idxOf version ∧ versions.idxOf version ≤ versions.idxOf max
  then .ok () else bail "unsupported version"

/-- A client connects below the activation and agrees on 1.4, the chain crosses
it, and the client shakes hands again and asks for the first v2 header. -/
def activationEvents : List SessionEvent :=
  [.connected 0,
    .accepted 0 (.minMax "1.4" "1.8") "1.4" false, .sent 0 (.version "electrs" "1.4"),
    .accepted 0 (.minMax "1.4" "1.8") "1.8" true, .sent 0 (.version "electrs" "1.8")]

namespace Sessions

theorem activation_run : ∃ s, Run Init (Step checkBetweenKnown "electrs")
    (activationEvents ++ [.sent 0 (.header (.v2 header149537))]) s := by
  let before : Sessions := ⟨Chain.new knownHashes header149536, fun _ => none⟩
  let client (version : Option String) : Client := ⟨none, version⟩
  let handshake : Request := .version "wallet" (.minMax "1.4" "1.8")
  have hinit : Init before := ⟨new_monotone _ _, fun _ => rfl⟩
  have hfree : before.clients 0 = none := rfl
  have hrun := (Run.init hinit : Run Init (Step checkBetweenKnown "electrs") [] before)
    |>.step (.connect hfree)
    |>.step (@Step.answer _ _ _ 0 (client none) (client (some "1.4")) handshake
      (.version "electrs" "1.4") rfl rfl)
    |>.step (.replaceChain activation_monotone)
    |>.step (@Step.answer _ _ _ 0 (client (some "1.4")) (client (some "1.8")) handshake
      (.version "electrs" "1.8") rfl rfl)
    |>.step (@Step.answer _ _ _ 0 (client (some "1.8")) (client (some "1.8")) (.blockHeader 1)
      (.header (.v2 header149537)) rfl rfl)
  exact ⟨_, hrun⟩

theorem safe_of_run_activation :
    Agreed checkBetweenKnown activationEvents 0 protocolVersionV2 true := by
  obtain ⟨s, hrun⟩ := activation_run
  refine (safe_of_run checkBetweenKnown "electrs" hrun).1 activationEvents _ [] rfl ?_
  exact ⟨.v2 header149537, List.mem_singleton_self _, rfl⟩

end Sessions

end PrunedElectrs
