/-
PrunedElectrs/ChainSync.lean

A wallet that follows a server.

The wallet asks for a chunk of headers above its tip, checks and decodes the
response and appends what its chain state accepts to its store.  Meanwhile the
server's chain is extended and reorganised, sessions end and begin, and the
wallet is killed at any byte of a write and loads its store again
(`ChainSync.Step`).

The invariant is that the store holds a stretch of one chain that the server
has presented (`Ends.Follows`).  A reorganisation leaves the store on a chain
that is gone, and nothing above it links to the new one: a header is accepted
only when it names the tip of the store, and two linked chains that share a
header share all below it (`take_eq_of_shared`).  So a store that grows has been
on the server's chain all along (`Follows.of_tip`), and headers of two chains
are never mixed.
-/
import PrunedElectrs.StoreReload

namespace PrunedElectrs

open Wire HashLinked RecordFile Runs VariableHeaders

/-- The rule on links, the first of those `add` checks a header by; `getHash` is
the hash of the tip. -/
structure HeaderChainState.Links (H : Hashes) (C : HeaderChainState) where
  getHash : C.State → Drongo.Sha256Hash
  linked : ∀ {s s' : C.State} {h : Drongo.BlockHeader}, C.add s h = .ok s' →
    h.prevBlockHash = getHash s
  hashed : ∀ {s s' : C.State} {h : Drongo.BlockHeader}, C.add s h = .ok s' →
    h.getHash H = .ok (getHash s')

/-- The headers of the chain from a height on, at most `n` of them. -/
def Chain.stretch (chain : Chain) (start n : ℕ) : List AnyHeader :=
  (chain.entriesFrom start n).map Prod.snd

/-- What the two ends use and the patches do not show. -/
structure Ends (C : HeaderChainState) where
  H : Hashes
  genesis : HeaderV1
  streamable : (AnyHeader.v1 genesis).Streamable
  checkBetween : Rpc.CheckBetween
  serverId : String
  loader : Loader C
  hexToBytes : HexToBytes
  maxText : String
  shortText : String

/-- The server, the wallet's session there, and the wallet's store. -/
structure ChainSync (C : HeaderChainState) where
  chain : Chain
  client : Client
  store : HeaderStore C

variable {C : HeaderChainState}

/-- The height above the tip of the store. -/
def ChainSync.nextHeight (s : ChainSync C) : ℕ := (C.height s.store.chainState + 1).toNat

namespace Ends

variable (E : Ends C)

/-- A chunk of headers is asked for above the tip, answered, checked and decoded. -/
def Fetched (s : ChainSync C) (count : ℕ) (tip : Option ℤ)
    (headers : List Drongo.BlockHeader) : Prop :=
  ∃ reply chunk checked, Rpc.blockHeaders s.chain s.client s.nextHeight count = .ok reply
    ∧ reply.toBlockHeaders = some chunk
    ∧ ElectrumServerRpc.checkBlockHeaders E.maxText E.shortText s.store.network (some chunk)
        s.nextHeight count tip = .ok checked
    ∧ parse E.hexToBytes s.store.network checked checked.count = .ok headers

/-- What the server, the connection and the wallet do; a step is labelled with the chain
that it presents. -/
inductive Step : ChainSync C → List Chain → ChainSync C → Prop
  /-- The chain is extended or reorganised. -/
  | present {s : ChainSync C} {chain : Chain} {path : List AnyHeader} :
      (∀ h ∈ path, h.Streamable) → Chain.Path E.H E.genesis chain path →
      Step s [chain] { s with chain := chain }
  | reconnect {s : ChainSync C} : Step s [] { s with client := Client.fresh }
  | handshake {s : ChainSync C} {clientId : String} {request : VersionRequest}
      {client' : Client} {reply : Reply} :
      Rpc.version E.checkBetween E.serverId s.chain s.client clientId request
        = .ok (client', reply) →
      Step s [] { s with client := client' }
  | fetch {s : ChainSync C} {count : ℕ} {tip : Option ℤ} {headers : List Drongo.BlockHeader} :
      E.Fetched s count tip headers →
      Step s [] { s with store := (s.store.append headers).1 }
  /-- The wallet is killed when so much of its file is written, and loads it. -/
  | crash {s : ChainSync C} {written : ℕ} {initial : C.State} {store : HeaderStore C} :
      E.loader.load .patched
        { s.store with chainState := initial, file := s.store.file.take written } = .ok store →
      Step s [] { s with store := store }

/-- A server at its genesis block, and a wallet with nothing above its pin. -/
structure Init (s : ChainSync C) : Prop where
  chain : s.chain = Chain.new E.H E.genesis
  client : s.client = Client.fresh
  file : s.store.file = []
  chainState : s.store.chainState = E.loader.newChainState
  anchored : C.height E.loader.newChainState + 1 = s.store.startHeight

/-- The chains the server has had. -/
def chains (es : List Chain) : List Chain := Chain.new E.H E.genesis :: es

/-- No two headers that were ever on the chain have the same hash. -/
def NoCollision (es : List Chain) : Prop :=
  Set.InjOn (AnyHeader.blockHash E.H) {h | ∃ c ∈ E.chains es, ∃ p ∈ c.headers, p.2 = h}

/-- The store holds a stretch of the chain, from the pin up. -/
def Follows (c : Chain) (store : HeaderStore C) : Prop :=
  ∃ n, E.loader.Holds store ((c.stretch store.startHeight.toNat n).map Drongo.BlockHeader.ofAny)

/-- The wallet reads the chain's headers off its file: as many records as heights,
and at the offset of each the header of that height with its hash. -/
def Reads (c : Chain) (store : HeaderStore C) : Prop :=
  ∃ n : ℕ, C.height store.chainState + 1 = store.startHeight + n
    ∧ store.file.length = n * recordLength store.network
    ∧ ∀ i < n, ∃ hash header record, c.headers[store.startHeight.toNat + i]? = some (hash, header)
      ∧ store.readRecord (store.getOffset (store.startHeight + i)) = some record
      ∧ Drongo.BlockHeader.parse record 0 = .ok (.ofAny header)
      ∧ (Drongo.BlockHeader.ofAny header).bitcoinSerialize = header.serialize
      ∧ (Drongo.BlockHeader.ofAny header).getHash E.H = .ok hash.reverse

end Ends

/-! ### What the server sends -/

namespace Chain

variable {chain : Chain}

theorem stretch_eq (start n : ℕ) :
    chain.stretch start n = ((chain.headers.map Prod.snd).drop start).take n := by
  rw [stretch, entriesFrom, sub, List.map_take, List.map_drop]

theorem take_stretch (start n j : ℕ) :
    (chain.stretch start n).take j = chain.stretch start (min j n) := by
  rw [stretch_eq, stretch_eq, List.take_take]

/-- A stretch ends at the tip. -/
theorem stretch_min (start n : ℕ) :
    chain.stretch start (min n chain.headers.length) = chain.stretch start n := by
  rw [stretch_eq, stretch_eq, List.take_eq_take_iff, List.length_drop, List.length_map]
  omega

theorem stretch_append (start m n : ℕ) :
    chain.stretch start m ++ chain.stretch (start + m) n = chain.stretch start (m + n) := by
  rw [stretch_eq, stretch_eq, stretch_eq, List.take_add, List.drop_drop]

/-- What `block_headers` serves of any request. -/
theorem exists_stretch {client : Client} {startHeight count : ℕ} {reply : Reply}
    (hne : 0 < chain.headers.length)
    (h : Rpc.blockHeaders chain client startHeight count = .ok reply) :
    ∃ n, n ≤ count ∧ reply = .headers (chain.stretch startHeight n).length
      (chain.stretch startHeight n) Rpc.maxCount := by
  obtain ⟨u, -, h⟩ := bind_eq_ok.mp h
  obtain rfl := Except.ok.inj h
  refine ⟨min (chain.height + 1) (startHeight + min count Rpc.maxCount) - startHeight, by omega, ?_⟩
  have hstretch (n : ℕ) : (List.range' startHeight n).filterMap chain.getBlockHeader
      = chain.stretch startHeight n := by
    rw [stretch, entriesFrom, ← filterMap_getElem?_range', List.map_filterMap]
    rfl
  have hlength : (chain.stretch startHeight
      (min (chain.height + 1) (startHeight + min count Rpc.maxCount) - startHeight)).length
      = min (chain.height + 1) (startHeight + min count Rpc.maxCount) - startHeight := by
    rw [stretch, List.length_map, length_entriesFrom, height]
    omega
  rw [List.length_range', hstretch, hlength]

end Chain

/-- The checks hand on what they were given. -/
theorem ElectrumServerRpc.eq_of_checkBlockHeaders {maxText shortText : String} {network : Network}
    {b checked : BlockHeaders} {startHeight count : ℤ} {tip : Option ℤ}
    (h : checkBlockHeaders maxText shortText network (some b) startHeight count tip = .ok checked) :
    b = checked := by
  dsimp only [checkBlockHeaders] at h
  by_cases hnegative : b.count < 0
  · rw [if_pos hnegative] at h
    cases h
  · rw [if_neg hnegative] at h
    by_cases hmax : b.max < retargetInterval
    · rw [if_pos hmax] at h
      cases h
    · rw [if_neg hmax] at h
      by_cases hmany : b.count > count
      · rw [if_pos hmany] at h
        cases h
      · rw [if_neg hmany] at h
        obtain ⟨carried, -, h⟩ := java_bind_eq_ok.mp h
        split_ifs at h
        exact Except.ok.inj h

variable {E : Ends C} {s : ChainSync C}

/-- A header the server serves, on a network that can carry it. -/
theorem storable_ofAny {network : Network} {h : AnyHeader} (hs : h.Streamable)
    (hcarries : Carries network h) : Storable network (.ofAny h) := by
  have hparse : Drongo.BlockHeader.parse h.serialize 0 = .ok (.ofAny h) :=
    Drongo.BlockHeader.parse_of_any hs (sub_all h.length_serialize)
  refine ⟨⟨_, 0, hparse⟩, hcarries.imp_right fun hv1 => ?_⟩
  cases h with
  | v1 h => rfl
  | v2 h => cases hv1

/-- A chunk that was decoded is a stretch of the server's chain. -/
theorem Ends.Fetched.eq_stretch
    (hhex : ∀ text b, E.hexToBytes text = .ok b ↔ ofHex text = some b)
    (hne : 0 < s.chain.headers.length) (hstream : ∀ p ∈ s.chain.headers, p.2.Streamable)
    {count : ℕ} {tip : Option ℤ} {headers : List Drongo.BlockHeader}
    (h : E.Fetched s count tip headers) :
    ∃ n, headers = (s.chain.stretch s.nextHeight n).map Drongo.BlockHeader.ofAny
      ∧ ∀ x ∈ headers, Storable s.store.network x := by
  obtain ⟨reply, chunk, checked, hreply, hchunk, hchecked, hparse⟩ := h
  obtain ⟨n, -, rfl⟩ := Chain.exists_stretch hne hreply
  obtain rfl := Option.some.inj hchunk
  -- the checks hand back what they were given
  obtain rfl := ElectrumServerRpc.eq_of_checkBlockHeaders hchecked
  obtain ⟨run, hrun, -, hbytes, rfl⟩ := (parse_hex_eq_ok_iff hhex rfl rfl).mp hparse
  have hserved : ∀ a ∈ s.chain.stretch s.nextHeight n, a.Streamable := by
    intro a ha
    obtain ⟨p, hp, rfl⟩ := List.mem_map.mp ha
    exact hstream p (Chain.mem_of_mem_entriesFrom hp)
  rw [Reply.hex, Reply.carried, ofHex_flatMap_serializeHex, Option.some.injEq] at hbytes
  obtain rfl := AnyHeader.headerCode.flatMap_encode_inj hserved (fun a ha => (hrun a ha).1) hbytes
  refine ⟨n, rfl, fun x hx => ?_⟩
  obtain ⟨a, ha, rfl⟩ := List.mem_map.mp hx
  exact storable_ofAny (hrun a ha).1 (hrun a ha).2

/-! ### What the store accepts -/

theorem HeaderChainState.accepts_isPrefix (state : C.State) (headers : List Drongo.BlockHeader) :
    C.accepts state headers <+: headers := by
  induction headers generalizing state with
  | nil => exact List.prefix_rfl
  | cons x headers ih =>
      rw [HeaderChainState.accepts]
      split
      · exact (List.prefix_cons_inj x).mpr (ih _)
      · exact List.nil_prefix

/-- What `append` accepts is nothing, or it begins with a header the chain state takes. -/
theorem HeaderStore.acceptedOf_cases (store : HeaderStore C) (headers : List Drongo.BlockHeader) :
    store.acceptedOf headers = [] ∨ ∃ x rest state, store.acceptedOf headers = x :: rest
      ∧ headers.head? = some x ∧ C.add store.chainState x = .ok state := by
  rw [HeaderStore.acceptedOf]
  split_ifs
  · exact .inl rfl
  · rcases headers with - | ⟨x, headers⟩
    · exact .inl rfl
    · rw [HeaderChainState.accepts]
      rcases hadd : C.add store.chainState x with e | state
      · exact .inl rfl
      · exact .inr ⟨x, _, state, rfl, rfl, hadd⟩

theorem HeaderStore.acceptedOf_isPrefix (store : HeaderStore C)
    (headers : List Drongo.BlockHeader) : store.acceptedOf headers <+: headers := by
  rw [HeaderStore.acceptedOf]
  split_ifs
  · exact List.nil_prefix
  · exact C.accepts_isPrefix _ headers

/-- The file cut anywhere is loaded as a store of the headers before. -/
theorem StoreWalk.Holds.load_take {L : Loader C} {store : HeaderStore C}
    {headers : List Drongo.BlockHeader} (h : L.Holds store headers) (written : ℕ)
    (initial : C.State) :
    ∃ store' i, L.load .patched
        { store with chainState := initial, file := store.file.take written } = .ok store'
      ∧ L.Holds store' (headers.take i) ∧ store'.startHeight = store.startHeight := by
  have hpos := recordLength_pos store.network
  -- the whole records, and what is torn behind them
  obtain ⟨i, tail, -, htail, hfile⟩ := h.uniform.take_torn hpos written
  rw [← h.recorded, ← List.map_take] at hfile
  obtain ⟨state, hstate, -⟩ : ∃ state, (headers.take i).foldlM C.add L.newChainState = .ok state
      ∧ (headers.drop i).foldlM C.add state = .ok store.chainState := by
    have hverified := h.verified
    rw [← List.take_append_drop i headers, List.foldlM_append] at hverified
    exact java_bind_eq_ok.mp hverified
  have hfront := h.take hstate
  refine ⟨_, i, ?_, hfront, rfl⟩
  have hload := hfront.load_torn htail initial
  rw [← hfile] at hload
  exact hload

/-! ### A store on a chain -/

namespace Ends

/-- The chain is a path of headers that a stream can carry. -/
def IsPath (E : Ends C) (c : Chain) (path : List AnyHeader) : Prop :=
  Chain.Path E.H E.genesis c path ∧ ∀ h ∈ path, h.Streamable

variable {c c' : Chain} {path path' : List AnyHeader} {store : HeaderStore C}

theorem IsPath.stretch_eq (h : E.IsPath c path) (start n : ℕ) :
    c.stretch start n = (path.drop start).take n := by
  have hpath : c.headers.map Prod.snd = path := by
    rw [h.1.headers, List.map_map]
    exact List.map_id _
  rw [Chain.stretch_eq, hpath]

theorem IsPath.streamable (h : E.IsPath c path) : ∀ p ∈ c.headers, p.2.Streamable := by
  intro p hp
  rw [h.1.headers] at hp
  obtain ⟨a, ha, rfl⟩ := List.mem_map.mp hp
  exact h.2 a ha

theorem IsPath.getBlockHash (h : E.IsPath c path) (i : ℕ) :
    c.getBlockHash i = path[i]?.map (AnyHeader.blockHash E.H) := by
  rw [Chain.getBlockHash, h.1.headers, List.getElem?_map, Option.map_map]
  rfl

/-- As many headers as the chain has grown by above the pin. -/
theorem Follows.exists_stretch (h : E.Follows c store) :
    ∃ n, E.loader.Holds store
        ((c.stretch store.startHeight.toNat n).map Drongo.BlockHeader.ofAny)
      ∧ (c.stretch store.startHeight.toNat n).length = n
      ∧ (c.stretch store.startHeight.toNat n).length + store.startHeight
        = C.height store.chainState + 1 := by
  obtain ⟨n, hn⟩ := h
  have hwhole : c.stretch store.startHeight.toNat (c.stretch store.startHeight.toNat n).length
      = c.stretch store.startHeight.toNat n := by
    rw [Chain.stretch_eq, Chain.stretch_eq, List.take_eq_take_iff, List.length_take]
    omega
  have hheight := hn.height_eq
  rw [List.length_map] at hheight
  refine ⟨(c.stretch store.startHeight.toNat n).length, ?_, ?_, ?_⟩
  · rw [hwhole]
    exact hn
  · rw [hwhole]
  · rw [hwhole]
    omega

/-- A store on one chain whose tip is on another is on that one too. -/
theorem Follows.of_tip (K : C.Links E.H) (h : E.Follows c store) (hpath : E.IsPath c path)
    (hpath' : E.IsPath c' path') {U : Set AnyHeader} (hU : Set.InjOn (AnyHeader.blockHash E.H) U)
    (hpathU : ∀ a ∈ path, a ∈ U) (hpathU' : ∀ a ∈ path', a ∈ U) {height : ℕ} {hash : BlockHash}
    (hheight : C.height store.chainState = height) (hhash : c'.getBlockHash height = some hash)
    (htip : K.getHash store.chainState = hash.reverse) : E.Follows c' store := by
  obtain ⟨n, hn, hlength, hgrown⟩ := h.exists_stretch
  rcases List.eq_nil_or_concat (c.stretch store.startHeight.toNat n) with hnil | ⟨front, x, hlast⟩
  · -- nothing above the pin
    refine ⟨0, ?_⟩
    rw [hnil] at hn
    rw [Chain.stretch_eq, List.take_zero]
    exact hn
  · rw [List.concat_eq_append] at hlast
    have hpos := store.startHeight_pos
    -- the last header of the store is the tip
    have hx : path[height]? = some x := by
      have hget : (c.stretch store.startHeight.toNat n)[front.length]? = some x := by
        rw [hlast, List.getElem?_append_right le_rfl, Nat.sub_self]
        rfl
      have hcount : front.length + 1 = n := by
        rw [← hlength, hlast, List.length_append, List.length_singleton]
      rw [hpath.stretch_eq, List.getElem?_take, if_pos (by omega), List.getElem?_drop] at hget
      rw [← hget]
      congr 1
      omega
    have hxhash : (x.blockHash E.H).reverse = K.getHash store.chainState := by
      have hverified := hn.verified
      rw [hlast, List.map_append, List.foldlM_append] at hverified
      obtain ⟨state, -, hadd⟩ := java_bind_eq_ok.mp hverified
      rw [List.map_singleton, List.foldlM_cons] at hadd
      obtain ⟨state', hadd, hnil⟩ := java_bind_eq_ok.mp hadd
      obtain rfl := Except.ok.inj hnil
      have hhashed := K.hashed hadd
      rw [Drongo.BlockHeader.getHash_ofAny E.H (hpath.2 x (List.mem_of_getElem? hx))] at hhashed
      exact Except.ok.inj hhashed
    -- and so it is the header of the other chain
    obtain ⟨y, hy, hyhash⟩ : ∃ y, path'[height]? = some y ∧ y.blockHash E.H = hash := by
      rw [hpath'.getBlockHash, Option.map_eq_some_iff] at hhash
      exact hhash
    have hsame : y = x := by
      refine hU (hpathU' y (List.mem_of_getElem? hy)) (hpathU x (List.mem_of_getElem? hx)) ?_
      rw [hyhash]
      exact (reverse_inj (hxhash.trans htip)).symm
    rw [hsame] at hy
    have htake := take_eq_of_shared hU hpath.1.linked hpath'.1.linked hpathU hpathU' hx hy
    refine ⟨n, ?_⟩
    have hstretch : c'.stretch store.startHeight.toNat n = c.stretch store.startHeight.toNat n := by
      rw [hpath.stretch_eq, hpath'.stretch_eq]
      have hend : height + 1 = store.startHeight.toNat + n := by omega
      have hdrop := congrArg (List.drop store.startHeight.toNat) htake
      rw [hend, List.drop_take, List.drop_take, Nat.add_sub_cancel_left] at hdrop
      exact hdrop.symm
    rw [hstretch]
    exact hn

/-- A store on the server's chain takes what the server sends. -/
theorem Follows.append (h : E.Follows s.chain s.store) {n : ℕ} {headers : List Drongo.BlockHeader}
    (hheaders : headers = (s.chain.stretch s.nextHeight n).map Drongo.BlockHeader.ofAny)
    (hstorable : ∀ x ∈ headers, Storable s.store.network x) :
    E.Follows s.chain (s.store.append headers).1 := by
  obtain ⟨m, hm, hlength, hgrown⟩ := h.exists_stretch
  have hpos := s.store.startHeight_pos
  have haccepted := s.store.acceptedOf_isPrefix headers
  have happend := hm.append fun x hx => hstorable x (haccepted.subset hx)
  obtain ⟨-, hsame⟩ := s.store.append_same headers
  have hnext : s.nextHeight = s.store.startHeight.toNat + m := by
    rw [ChainSync.nextHeight]
    omega
  refine ⟨m + min (s.store.acceptedOf headers).length n, ?_⟩
  rw [hsame, ← Chain.stretch_append, List.map_append, ← hnext, ← Chain.take_stretch, List.map_take,
    ← hheaders, ← List.prefix_iff_eq_take.mp haccepted]
  exact happend

/-- A store that grows with what the server sends was on the server's chain. -/
theorem Follows.of_grown (K : C.Links E.H) (h : E.Follows c s.store) (hpath : E.IsPath c path)
    (hpath' : E.IsPath s.chain path') {U : Set AnyHeader}
    (hU : Set.InjOn (AnyHeader.blockHash E.H) U) (hpathU : ∀ a ∈ path, a ∈ U)
    (hpathU' : ∀ a ∈ path', a ∈ U) {n : ℕ} {headers : List Drongo.BlockHeader}
    (hheaders : headers = (s.chain.stretch s.nextHeight n).map Drongo.BlockHeader.ofAny)
    (hgrown : s.store.acceptedOf headers ≠ []) : E.Follows s.chain s.store := by
  obtain ⟨x, rest, state, -, hx, hadd⟩ := (s.store.acceptedOf_cases headers).resolve_left hgrown
  obtain ⟨m, -, -, hheight⟩ := h.exists_stretch
  have hpos := s.store.startHeight_pos
  obtain ⟨tip, htip⟩ : ∃ tip : ℕ, C.height s.store.chainState = tip :=
    Int.eq_ofNat_of_zero_le (by omega)
  have hnext : s.nextHeight = tip + 1 := by
    rw [ChainSync.nextHeight, htip]
    omega
  -- the first header above the tip names the header below it on the server's chain
  obtain ⟨a, ha, rfl⟩ : ∃ a, path'[tip + 1]? = some a ∧ Drongo.BlockHeader.ofAny a = x := by
    rw [hheaders, hpath'.stretch_eq, hnext, List.head?_map, List.head?_take, List.head?_drop,
      Option.map_eq_some_iff] at hx
    obtain ⟨a, ha, hax⟩ := hx
    split_ifs at ha
    exact ⟨a, ha, hax⟩
  obtain ⟨hlt, rfl⟩ := List.getElem?_eq_some_iff.mp ha
  have hlink : path'[tip + 1].prevBlockhash = path'[tip].blockHash E.H :=
    List.isChain_iff_getElem.mp hpath'.1.linked tip hlt
  have hprev (y : AnyHeader) :
      (Drongo.BlockHeader.ofAny y).prevBlockHash = y.prevBlockhash.reverse := by
    cases y <;> rfl
  have hhash : s.chain.getBlockHash tip = some (path'[tip].blockHash E.H) := by
    rw [hpath'.getBlockHash, List.getElem?_eq_getElem (by omega), Option.map_some]
  refine h.of_tip K hpath hpath' hU hpathU hpathU' htip hhash ?_
  rw [← K.linked hadd, hprev, hlink]

/-- A file that was cut leaves the store on its chain. -/
theorem Follows.load (h : E.Follows c store) {written : ℕ} {initial : C.State}
    {store' : HeaderStore C}
    (hload : E.loader.load .patched
      { store with chainState := initial, file := store.file.take written } = .ok store') :
    E.Follows c store' := by
  obtain ⟨n, hn⟩ := h
  obtain ⟨loaded, i, hloaded, hholds, hstart⟩ := hn.load_take written initial
  rw [hload] at hloaded
  obtain rfl := Except.ok.inj hloaded
  refine ⟨min i n, ?_⟩
  rw [hstart, ← Chain.take_stretch, List.map_take]
  exact hholds

/-- What the wallet reads off the file of a store on a chain. -/
theorem Follows.reads (h : E.Follows c store) (hpath : E.IsPath c path) : E.Reads c store := by
  obtain ⟨n, hn, hlength, hgrown⟩ := h.exists_stretch
  refine ⟨n, by omega, ?_, fun i hi => ?_⟩
  · rw [hn.recorded, hn.uniform.length_flatten, List.length_map, List.length_map, hlength]
  · obtain ⟨a, ha⟩ : ∃ a, (c.stretch store.startHeight.toNat n)[i]? = some a :=
      ⟨_, List.getElem?_eq_getElem (by rw [hlength]; exact hi)⟩
    obtain ⟨hheld, hx⟩ := List.getElem?_eq_some_iff.mp
      ((List.getElem?_map).trans (congrArg (Option.map Drongo.BlockHeader.ofAny) ha))
    have hread := (hn.readRecord_getOffset hheld).2
    have hstorable := hn.storable _ (List.getElem_mem hheld)
    rw [hx] at hread hstorable
    rw [hpath.stretch_eq, List.getElem?_take, if_pos hi, List.getElem?_drop] at ha
    have hs : a.Streamable := hpath.2 a (List.mem_of_getElem? ha)
    refine ⟨a.blockHash E.H, a, _, ?_, hread, hstorable.parse_append _,
      Drongo.BlockHeader.bitcoinSerialize_ofAny hs, Drongo.BlockHeader.getHash_ofAny E.H hs⟩
    rw [hpath.1.headers, List.getElem?_map, ha]
    rfl

/-! ### Runs -/

/-- What every run keeps. -/
structure Inv (E : Ends C) (es : List Chain) (s : ChainSync C) : Prop where
  presented : s.chain ∈ E.chains es
  paths : ∀ c ∈ E.chains es, ∃ path, E.IsPath c path
  follows : ∃ c ∈ E.chains es, E.Follows c s.store

theorem Inv.with_store {es : List Chain} (h : E.Inv es s)
    (hfollows : ∃ c ∈ E.chains es, E.Follows c store) : E.Inv es { s with store := store } where
  presented := h.presented
  paths := h.paths
  follows := hfollows

theorem isPath_new : E.IsPath (Chain.new E.H E.genesis) [.v1 E.genesis] :=
  ⟨Chain.path_new E.genesis, List.forall_mem_singleton.mpr E.streamable⟩

theorem inv_init (h : E.Init s) : E.Inv [] s where
  presented := h.chain ▸ List.mem_cons_self
  paths := fun c hc => by
    obtain rfl := List.mem_singleton.mp hc
    exact ⟨_, isPath_new⟩
  follows := by
    refine ⟨_, List.mem_cons_self, 0, ?_⟩
    rw [Chain.stretch_eq, List.take_zero]
    exact ⟨h.anchored, congrArg Except.ok h.chainState.symm, h.file, List.forall_mem_nil _⟩

theorem IsPath.mem_noCollision (hpath : E.IsPath c path) {es : List Chain}
    (hc : c ∈ E.chains es) :
    ∀ a ∈ path, a ∈ {h | ∃ c ∈ E.chains es, ∃ p ∈ c.headers, p.2 = h} := by
  intro a ha
  refine ⟨c, hc, Chain.entry E.H a, ?_, rfl⟩
  rw [hpath.1.headers]
  exact List.mem_map_of_mem ha

/-- A fetch that brings nothing leaves the store, and one that brings something
leaves it on the server's chain. -/
theorem Inv.fetch (K : C.Links E.H)
    (hhex : ∀ text b, E.hexToBytes text = .ok b ↔ ofHex text = some b) {es : List Chain}
    (h : E.Inv es s) (hes : E.NoCollision es) {count : ℕ} {tip : Option ℤ}
    {headers : List Drongo.BlockHeader} (hfetched : E.Fetched s count tip headers) :
    (∃ c ∈ E.chains es, E.Follows c (s.store.append headers).1)
      ∧ (C.height s.store.chainState < C.height (s.store.append headers).1.chainState →
        E.Follows s.chain s.store ∧ E.Follows s.chain (s.store.append headers).1) := by
  obtain ⟨path', hpath'⟩ := h.paths _ h.presented
  obtain ⟨c, hc, hfollows⟩ := h.follows
  obtain ⟨path, hpath⟩ := h.paths c hc
  have hne : 0 < s.chain.headers.length := by
    rw [hpath'.1.length_eq]
    exact hpath'.1.length_pos
  obtain ⟨n, hheaders, hstorable⟩ := hfetched.eq_stretch hhex hne hpath'.streamable
  by_cases hnothing : s.store.acceptedOf headers = []
  · obtain ⟨m, hm⟩ := hfollows
    have hnone : ∀ x ∈ s.store.acceptedOf headers, Storable s.store.network x := by
      rw [hnothing]
      exact List.forall_mem_nil _
    have happend := hm.append hnone
    obtain ⟨-, hsame⟩ := s.store.append_same headers
    rw [hnothing, List.append_nil] at happend
    have hbefore := hm.height_eq
    have hafter := happend.height_eq
    refine ⟨⟨c, hc, m, ?_⟩, fun hgrown => absurd hgrown (by omega)⟩
    rw [hsame]
    exact happend
  · have hon := hfollows.of_grown K hpath hpath' hes (hpath.mem_noCollision hc)
      (hpath'.mem_noCollision h.presented) hheaders hnothing
    have happend := hon.append hheaders hstorable
    exact ⟨⟨_, h.presented, happend⟩, fun _ => ⟨hon, happend⟩⟩

theorem chains_append (es new : List Chain) : E.chains (es ++ new) = E.chains es ++ new := rfl

theorem NoCollision.front {es new : List Chain} (h : E.NoCollision (es ++ new)) :
    E.NoCollision es := by
  refine h.mono ?_
  rintro a ⟨c, hc, hp⟩
  exact ⟨c, List.mem_append_left new hc, hp⟩

theorem inv_step (K : C.Links E.H)
    (hhex : ∀ text b, E.hexToBytes text = .ok b ↔ ofHex text = some b) (es : List Chain)
    (s : ChainSync C) (new : List Chain) (s' : ChainSync C)
    (h : E.NoCollision es → E.Inv es s) (hstep : E.Step s new s')
    (hes : E.NoCollision (es ++ new)) : E.Inv (es ++ new) s' := by
  have h : E.Inv es s := h hes.front
  cases hstep with
  | @present chain path hstream hpath =>
      obtain ⟨c, hc, hfollows⟩ := h.follows
      have hnew : chain ∈ E.chains es ++ [chain] :=
        List.mem_append_right _ (List.mem_singleton_self chain)
      refine ⟨hnew, fun c' hc' => ?_, c, List.mem_append_left _ hc, hfollows⟩
      rw [chains_append] at hc'
      rcases List.mem_append.mp hc' with hc' | hc'
      · exact h.paths c' hc'
      · obtain rfl := List.mem_singleton.mp hc'
        exact ⟨path, hpath, hstream⟩
  | reconnect =>
      rw [List.append_nil]
      exact ⟨h.presented, h.paths, h.follows⟩
  | handshake _ =>
      rw [List.append_nil]
      exact ⟨h.presented, h.paths, h.follows⟩
  | fetch hfetched =>
      rw [List.append_nil] at hes ⊢
      exact h.with_store (h.fetch K hhex hes hfetched).1
  | crash hload =>
      rw [List.append_nil]
      obtain ⟨c, hc, hfollows⟩ := h.follows
      exact h.with_store ⟨c, hc, hfollows.load hload⟩

theorem inv_of_run (K : C.Links E.H)
    (hhex : ∀ text b, E.hexToBytes text = .ok b ↔ ofHex text = some b) {es : List Chain}
    (h : Run E.Init E.Step es s) (hes : E.NoCollision es) : E.Inv es s :=
  h.invariant (fun _ hs _ => inv_init hs) (inv_step K hhex) hes

/-- When a fetch makes the store grow, it is on the server's chain, before and after. -/
theorem Inv.reads_of_grown (K : C.Links E.H)
    (hhex : ∀ text b, E.hexToBytes text = .ok b ↔ ofHex text = some b) {es : List Chain}
    (h : E.Inv es s) (hes : E.NoCollision es) {count : ℕ} {tip : Option ℤ}
    {headers : List Drongo.BlockHeader} (hfetched : E.Fetched s count tip headers)
    (hgrown : C.height s.store.chainState < C.height (s.store.append headers).1.chainState) :
    E.Reads s.chain s.store ∧ E.Reads s.chain (s.store.append headers).1 := by
  obtain ⟨path, hpath⟩ := h.paths _ h.presented
  obtain ⟨hbefore, hafter⟩ := (h.fetch K hhex hes hfetched).2 hgrown
  exact ⟨hbefore.reads hpath, hafter.reads hpath⟩

/-- **A wallet never mixes two chains.**  In every run, through extensions and
reorganisations of the server's chain, new sessions, and crashes at any byte of
a write: what the wallet reads off its file, header by header above its pin, is
a stretch of one chain that the server has presented; and when a fetch makes its
store grow, that chain is the server's present one, below the new headers too. -/
theorem reads_of_run (K : C.Links E.H)
    (hhex : ∀ text b, E.hexToBytes text = .ok b ↔ ofHex text = some b) {es : List Chain}
    (h : Run E.Init E.Step es s) (hes : E.NoCollision es) :
    (∃ c ∈ E.chains es, E.Reads c s.store)
      ∧ ∀ (count : ℕ) (tip : Option ℤ) (headers : List Drongo.BlockHeader),
          E.Fetched s count tip headers →
          C.height s.store.chainState < C.height (s.store.append headers).1.chainState →
          E.Reads s.chain s.store ∧ E.Reads s.chain (s.store.append headers).1 := by
  have hinv := inv_of_run K hhex h hes
  obtain ⟨c, hc, hfollows⟩ := hinv.follows
  obtain ⟨path, hpath⟩ := hinv.paths c hc
  exact ⟨⟨c, hc, hfollows.reads hpath⟩, fun _ _ _ hfetched hgrown =>
    hinv.reads_of_grown K hhex hes hfetched hgrown⟩

/-! ### Catching up -/

/-- The wallet may be served the chain, can carry its headers, and accepts them
from its pin up. -/
structure Serving (E : Ends C) (s : ChainSync C) : Prop where
  allowed : mayServeHeaders s.chain.hasV2Headers s.client.negotiated
  carries : ∀ p ∈ s.chain.headers, Carries s.store.network p.2
  reached : s.store.startHeight ≤ s.chain.headers.length
  valid : ∃ state, ((s.chain.stretch s.store.startHeight.toNat s.chain.headers.length).map
    Drongo.BlockHeader.ofAny).foldlM C.add E.loader.newChainState = .ok state

/-- One fetch of so many headers. -/
def Fetches (E : Ends C) (count : ℕ) (tip : Option ℤ) (s s' : ChainSync C) : Prop :=
  ∃ headers, E.Fetched s count tip headers ∧ s' = { s with store := (s.store.append headers).1 }

theorem Fetches.step {count : ℕ} {tip : Option ℤ} {s s' : ChainSync C}
    (h : E.Fetches count tip s s') : E.Step s [] s' := by
  obtain ⟨headers, hfetched, rfl⟩ := h
  exact .fetch hfetched

theorem Fetches.exists_store {count : ℕ} {tip : Option ℤ} {s s' : ChainSync C}
    (h : E.Fetches count tip s s') : ∃ store, s' = { s with store := store } := by
  obtain ⟨headers, -, rfl⟩ := h
  exact ⟨_, rfl⟩

/-- Below its tip the server has headers for the wallet. -/
theorem Serving.fetched (h : E.Serving s)
    (hhex : ∀ text b, E.hexToBytes text = .ok b ↔ ofHex text = some b)
    (hstream : ∀ p ∈ s.chain.headers, p.2.Streamable) (hlt : s.nextHeight < s.chain.headers.length)
    (hrange : s.chain.headers.length ≤ 2 ^ 31) {count : ℕ} (hcount : count ≤ 2016)
    {tip : Option ℤ} (htip : ∀ t ∈ tip, t ≤ s.chain.height) :
    E.Fetched s count tip
      ((s.chain.stretch s.nextHeight count).map Drongo.BlockHeader.ofAny) := by
  obtain ⟨reply, hreply⟩ : ∃ reply,
      Rpc.blockHeaders s.chain s.client s.nextHeight count = .ok reply :=
    ⟨_, bind_eq_ok.mpr ⟨(), Rpc.checkMayServeHeaders_eq_ok.mpr h.allowed, rfl⟩⟩
  obtain rfl := Rpc.blockHeaders_eq_ok hlt hcount hreply
  have hlength : (s.chain.stretch s.nextHeight count).length
      = min count (s.chain.headers.length - s.nextHeight) := by
    rw [Chain.stretch, List.length_map, s.chain.length_entriesFrom]
  have hrun : ∀ a ∈ s.chain.stretch s.nextHeight count,
      a.Streamable ∧ Carries s.store.network a := by
    intro a ha
    obtain ⟨p, hp, rfl⟩ := List.mem_map.mp ha
    have hp := Chain.mem_of_mem_entriesFrom hp
    exact ⟨hstream p hp, h.carries p hp⟩
  have hcounted : ((s.chain.entriesFrom s.nextHeight count).length : ℤ)
      = (s.chain.stretch s.nextHeight count).length := by
    rw [Chain.stretch, List.length_map]
  refine ⟨_, _, _, hreply, rfl,
    ElectrumServerRpc.checkBlockHeaders_eq_ok _ _ ?_ ?_ le_rfl ?_ ?_, ?_⟩
  · rw [hcounted]
    exact countHex_run (fun a ha => (hrun a ha).1) (fun a ha => (hrun a ha).2)
      (ofHex_flatMap_serializeHex _)
  · exact Int.natCast_nonneg _
  · dsimp only
    rw [hcounted, hlength]
    omega
  · -- a short run ends at the tip
    dsimp only
    rw [hcounted]
    intro hshort t ht
    have hend : s.nextHeight + (s.chain.stretch s.nextHeight count).length
        = s.chain.height + 1 := by
      rw [Chain.height]
      omega
    have hat : int (int ((s.nextHeight : ℤ) + (s.chain.stretch s.nextHeight count).length) - 1)
        = s.chain.height := by
      rw [int, int, Int.bmod_sub_bmod, show (s.nextHeight : ℤ)
        + (s.chain.stretch s.nextHeight count).length - 1 = s.chain.height by omega]
      exact int_of_range (by omega) (by rw [Chain.height]; omega)
    exact (htip t ht).trans hat.ge
  · rw [hcounted]
    exact parse_run (fun b => (hhex _ _).mpr (ofHex_toHex b)) (fun a ha => (hrun a ha).1)
      (fun a ha => (hrun a ha).2) rfl rfl

theorem accepts_of_foldlM {state state' : C.State} {headers : List Drongo.BlockHeader}
    (h : headers.foldlM C.add state = .ok state') : C.accepts state headers = headers := by
  induction headers generalizing state with
  | nil => rfl
  | cons x headers ih =>
      rw [List.foldlM_cons] at h
      obtain ⟨next, hadd, hrest⟩ := java_bind_eq_ok.mp h
      rw [HeaderChainState.accepts, hadd]
      exact congrArg (x :: ·) (ih hrest)

/-- Every stretch of the chain from the pin up is accepted. -/
theorem Serving.valid_stretch (h : E.Serving s) (n : ℕ) :
    ∃ state, ((s.chain.stretch s.store.startHeight.toNat n).map
      Drongo.BlockHeader.ofAny).foldlM C.add E.loader.newChainState = .ok state := by
  obtain ⟨final, hvalid⟩ := h.valid
  rw [← List.take_append_drop n (s.chain.stretch _ _), List.map_append, List.foldlM_append,
    Chain.take_stretch, Chain.stretch_min] at hvalid
  obtain ⟨state, hstate, -⟩ := java_bind_eq_ok.mp hvalid
  exact ⟨state, hstate⟩

/-- Heights are `int`s for the chain state, so those of the chain are. -/
theorem Serving.range (h : E.Serving s)
    (hanchored : C.height E.loader.newChainState + 1 = s.store.startHeight) :
    s.chain.headers.length ≤ 2 ^ 31 := by
  obtain ⟨final, hvalid⟩ := h.valid
  have hheight := C.height_foldlM hvalid
  have hlt := C.height_lt final
  have hreached := h.reached
  have hpos := s.store.startHeight_pos
  rw [List.length_map, Chain.stretch, List.length_map, s.chain.length_entriesFrom] at hheight
  omega

/-- The height above `m` headers and as many more as there are up to a length. -/
theorem toNat_add_min {start : ℤ} {m count next length : ℕ} (hstart : 1 ≤ start)
    (hnext : next = start.toNat + m) (hlt : next < length) :
    (start + (m + min count (length - next) : ℕ)).toNat = min (next + count) length := by
  omega

/-- What is served is accepted to the last header. -/
theorem Follows.append_served (h : E.Follows s.chain s.store) (hserving : E.Serving s)
    (hstream : ∀ p ∈ s.chain.headers, p.2.Streamable) (hlt : s.nextHeight < s.chain.headers.length)
    {count : ℕ} (hcount : count ≤ 2016) :
    ∃ store, (s.store.append ((s.chain.stretch s.nextHeight count).map
        Drongo.BlockHeader.ofAny)).1 = store
      ∧ (store.network = s.store.network ∧ store.startHeight = s.store.startHeight)
      ∧ E.Follows s.chain store
      ∧ (C.height store.chainState + 1).toNat
        = min (s.nextHeight + count) s.chain.headers.length := by
  obtain ⟨m, hm, hlength, hgrown⟩ := h.exists_stretch
  have hpos := s.store.startHeight_pos
  have hnext : s.nextHeight = s.store.startHeight.toNat + m := by
    rw [ChainSync.nextHeight]
    omega
  have hserved : (s.chain.stretch s.nextHeight count).length
      = min count (s.chain.headers.length - s.nextHeight) := by
    rw [Chain.stretch, List.length_map, s.chain.length_entriesFrom]
  have haccepted : s.store.acceptedOf
      ((s.chain.stretch s.nextHeight count).map Drongo.BlockHeader.ofAny)
      = (s.chain.stretch s.nextHeight count).map Drongo.BlockHeader.ofAny := by
    obtain ⟨final, hvalid⟩ := hserving.valid_stretch (m + count)
    rw [← Chain.stretch_append, List.map_append, List.foldlM_append, hm.verified, java_ok_bind,
      ← hnext] at hvalid
    have hcapacity : ¬ int (((s.chain.stretch s.nextHeight count).map
        Drongo.BlockHeader.ofAny).length * recordLength s.store.network) < 0 := by
      have hrecord : recordLength s.store.network ≤ 164 := by
        rw [recordLength]
        split_ifs <;> decide
      have hproduct := Nat.mul_le_mul (hserved.trans_le (Nat.min_le_left _ _) |>.trans hcount)
        hrecord
      rw [List.length_map, ← Nat.cast_mul, int_of_range (by omega) (by omega)]
      omega
    rw [HeaderStore.acceptedOf, if_neg hcapacity, accepts_of_foldlM hvalid]
  have hstorable : ∀ x ∈ (s.chain.stretch s.nextHeight count).map Drongo.BlockHeader.ofAny,
      Storable s.store.network x := by
    intro x hx
    obtain ⟨a, ha, rfl⟩ := List.mem_map.mp hx
    obtain ⟨p, hp, rfl⟩ := List.mem_map.mp ha
    have hp := Chain.mem_of_mem_entriesFrom hp
    exact storable_ofAny (hstream p hp) (hserving.carries p hp)
  have happend := hm.append fun x hx => hstorable x (haccepted ▸ hx)
  have hsame := s.store.append_same
    ((s.chain.stretch s.nextHeight count).map Drongo.BlockHeader.ofAny)
  have hafter := happend.height_eq
  rw [haccepted, hsame.2, List.length_append, List.length_map, List.length_map, hlength, hserved]
    at hafter
  exact ⟨_, rfl, hsame, h.append rfl hstorable, hafter ▸ toNat_add_min hpos hnext hlt⟩

/-- A fetch below the tip brings the store up by what was asked for, or to the tip. -/
theorem Follows.fetches (h : E.Follows s.chain s.store) (hserving : E.Serving s)
    (hhex : ∀ text b, E.hexToBytes text = .ok b ↔ ofHex text = some b)
    (hstream : ∀ p ∈ s.chain.headers, p.2.Streamable) (hlt : s.nextHeight < s.chain.headers.length)
    {count : ℕ} (hcount : count ≤ 2016) {tip : Option ℤ} (htip : ∀ t ∈ tip, t ≤ s.chain.height) :
    ∃ store, E.Fetches count tip s { s with store := store }
      ∧ E.Follows s.chain store ∧ E.Serving { s with store := store }
      ∧ (C.height store.chainState + 1).toNat
        = min (s.nextHeight + count) s.chain.headers.length := by
  obtain ⟨m, hm⟩ := h
  have hrange := hserving.range hm.anchored
  have hfetched := hserving.fetched hhex hstream hlt hrange hcount htip
  obtain ⟨store, hstore, ⟨hnetwork, hstart⟩, hfollows, hnext⟩ :=
    Follows.append_served ⟨m, hm⟩ hserving hstream hlt hcount
  refine ⟨store, ⟨_, hfetched, by rw [hstore]⟩, hfollows, ⟨hserving.allowed, ?_, ?_, ?_⟩, hnext⟩
  · rw [hnetwork]
    exact hserving.carries
  · rw [hstart]
    exact hserving.reached
  · rw [hstart]
    exact hserving.valid

theorem Follows.nextHeight_le (h : E.Follows s.chain s.store) (hserving : E.Serving s) :
    s.nextHeight ≤ s.chain.headers.length := by
  obtain ⟨m, hm, hlength, hgrown⟩ := h.exists_stretch
  have hpos := s.store.startHeight_pos
  have hreached := hserving.reached
  rw [Chain.stretch, List.length_map, s.chain.length_entriesFrom] at hlength hgrown
  rw [ChainSync.nextHeight, ← hgrown]
  omega

/-- Fetch after fetch the store comes up to the tip. -/
theorem Follows.catches_up (h : E.Follows s.chain s.store) (hserving : E.Serving s)
    (hhex : ∀ text b, E.hexToBytes text = .ok b ↔ ofHex text = some b)
    (hstream : ∀ p ∈ s.chain.headers, p.2.Streamable) {count : ℕ}
    (hcount : 1 ≤ count ∧ count ≤ 2016) {tip : Option ℤ} (htip : ∀ t ∈ tip, t ≤ s.chain.height) :
    ∃ store, Relation.ReflTransGen (E.Fetches count tip) s { s with store := store }
      ∧ E.Follows s.chain store
      ∧ (C.height store.chainState + 1).toNat = s.chain.headers.length := by
  -- on what is left to the tip
  induction hleft : s.chain.headers.length - s.nextHeight using Nat.strongRecOn generalizing s with
  | ind left ih =>
      rcases (h.nextHeight_le hserving).eq_or_lt with hend | hlt
      · exact ⟨s.store, .refl, h, hend⟩
      · obtain ⟨store, hfetches, hfollows, hserving', hnext⟩ :=
          h.fetches hserving hhex hstream hlt hcount.2 htip
        have hless : s.chain.headers.length - (C.height store.chainState + 1).toNat < left := by
          rw [hnext]
          omega
        obtain ⟨store', hrest, hfollows', htop⟩ :=
          ih _ hless hfollows hserving' hstream htip rfl
        exact ⟨store', .head hfetches hrest, hfollows', htop⟩

theorem run_of_fetches {es : List Chain} {s' : ChainSync C} {count : ℕ} {tip : Option ℤ}
    (h : Run E.Init E.Step es s) (hfetches : Relation.ReflTransGen (E.Fetches count tip) s s') :
    Run E.Init E.Step es s' := by
  induction hfetches with
  | refl => exact h
  | tail _ hstep ih =>
      rw [← List.append_nil es]
      exact ih.step hstep.step

/-- A store whose tip is on the server's chain comes up to the server's tip. -/
theorem Inv.catches_up (K : C.Links E.H)
    (hhex : ∀ text b, E.hexToBytes text = .ok b ↔ ofHex text = some b) {es : List Chain}
    (h : E.Inv es s) (hes : E.NoCollision es) (hserving : E.Serving s)
    {height : ℕ} {hash : BlockHash} (hheight : C.height s.store.chainState = height)
    (hhash : s.chain.getBlockHash height = some hash)
    (htip : K.getHash s.store.chainState = hash.reverse) {count : ℕ}
    (hcount : 1 ≤ count ∧ count ≤ 2016) {tip : Option ℤ} (ht : ∀ t ∈ tip, t ≤ s.chain.height) :
    ∃ store, Relation.ReflTransGen (E.Fetches count tip) s { s with store := store }
      ∧ C.height store.chainState = s.chain.height ∧ E.Reads s.chain store := by
  obtain ⟨c, hc, hfollows⟩ := h.follows
  obtain ⟨path, hpath⟩ := h.paths c hc
  obtain ⟨path', hpath'⟩ := h.paths _ h.presented
  have hon := hfollows.of_tip K hpath hpath' hes (hpath.mem_noCollision hc)
    (hpath'.mem_noCollision h.presented) hheight hhash htip
  obtain ⟨store, hfetches, hafter, htop⟩ :=
    hon.catches_up hserving hhex hpath'.streamable hcount ht
  have hlength : 0 < s.chain.headers.length := by
    rw [hpath'.1.length_eq]
    exact hpath'.1.length_pos
  refine ⟨store, hfetches, ?_, hafter.reads hpath'⟩
  rw [Chain.height]
  omega

/-- **A wallet catches up.**  From any state of a run in which the wallet may be
served and the tip of its store is on the server's chain, whatever happened
before: fetch after fetch, of any size the server serves, its store comes to
hold the whole chain above its pin. -/
theorem catches_up_of_run (K : C.Links E.H)
    (hhex : ∀ text b, E.hexToBytes text = .ok b ↔ ofHex text = some b) {es : List Chain}
    (h : Run E.Init E.Step es s) (hes : E.NoCollision es) (hserving : E.Serving s)
    {height : ℕ} {hash : BlockHash} (hheight : C.height s.store.chainState = height)
    (hhash : s.chain.getBlockHash height = some hash)
    (htip : K.getHash s.store.chainState = hash.reverse) {count : ℕ}
    (hcount : 1 ≤ count ∧ count ≤ 2016) {tip : Option ℤ} (ht : ∀ t ∈ tip, t ≤ s.chain.height) :
    ∃ s', Relation.ReflTransGen (E.Fetches count tip) s s' ∧ Run E.Init E.Step es s'
      ∧ s'.chain = s.chain ∧ C.height s'.store.chainState = s.chain.height
      ∧ E.Reads s.chain s'.store := by
  have hinv := inv_of_run K hhex h hes
  obtain ⟨store, hfetches, hheight', hreads⟩ :=
    hinv.catches_up K hhex hes hserving hheight hhash htip hcount ht
  exact ⟨{ s with store := store }, hfetches, run_of_fetches h hfetches, rfl, hheight', hreads⟩

end Ends

/-! ### A wallet on regtest -/

namespace ChainSync

theorem linkedChain_add_eq_ok {s s' : HeaderStore.linkedChain.State} {h : Drongo.BlockHeader}
    (hadd : HeaderStore.linkedChain.add s h = .ok s') :
    h.prevBlockHash = s.2 ∧ h.getHash knownHashes = .ok s'.2 := by
  simp only [HeaderStore.linkedChain] at hadd
  split_ifs at hadd with hheight hlink
  rcases hhash : h.getHash knownHashes with e | hash
  · rw [hhash] at hadd
    cases hadd
  · rw [hhash] at hadd
    obtain rfl := Except.ok.inj hadd
    exact ⟨hlink, rfl⟩

/-- The chain state that checks the link checks the link. -/
def linkedChainLinks : HeaderStore.linkedChain.Links knownHashes where
  getHash s := s.2
  linked hadd := (linkedChain_add_eq_ok hadd).1
  hashed hadd := (linkedChain_add_eq_ok hadd).2

/-- The genesis block, as a pin. -/
def regtestAnchor : HeaderStore.linkedChain.State :=
  (⟨0, by omega⟩, (Drongo.BlockHeader.ofAny (.v1 regtestBlock1)).prevBlockHash)

/-- A server and a wallet on regtest. -/
def regtestEnds : Ends HeaderStore.linkedChain where
  H := knownHashes
  genesis := regtestGenesis
  streamable := by decide +kernel
  checkBetween := checkBetweenKnown
  serverId := "electrs"
  loader := .ofAnchor regtestAnchor
  hexToBytes := hexToBytesKnown
  maxText := ""
  shortText := ""

/-- A wallet with nothing above its pin. -/
def regtestSync (chain : Chain) (client : Client) : ChainSync HeaderStore.linkedChain where
  chain := chain
  client := client
  store := {
    network := .regtest
    startHeight := 1
    file := []
    chainState := regtestAnchor
    startHeight_pos := le_rfl }

/-- What stands on genesis, on either branch. -/
def regtestBranches : List (List AnyHeader) :=
  [[.v1 regtestBlock1], [.v1 regtestFork1, .v2 regtestFork2]]

theorem regtestBlock1_branch : [AnyHeader.v1 regtestBlock1] ∈ regtestBranches :=
  List.mem_cons_self

theorem regtestFork_branch : [AnyHeader.v1 regtestFork1, .v2 regtestFork2] ∈ regtestBranches :=
  List.mem_cons_of_mem _ List.mem_cons_self

/-- The headers of a branch. -/
def regtestPath (branch : List AnyHeader) : List AnyHeader := .v1 regtestGenesis :: branch

variable {c c' : Chain} {client : Client} {branch : List AnyHeader}

theorem regtestPath_mem (hbranch : branch ∈ regtestBranches) :
    ∀ a ∈ regtestPath branch, a ∈ regtestHeaders := by
  refine List.forall_mem_cons.mpr ⟨regtestGenesis_mem, ?_⟩
  rcases List.mem_pair.mp hbranch with rfl | rfl
  · exact regtestBlock1_mem
  · exact regtestFork_mem

theorem length_regtestPath (hbranch : branch ∈ regtestBranches) :
    1 < (regtestPath branch).length ∧ (regtestPath branch).length ≤ 3 := by
  rcases List.mem_pair.mp hbranch with rfl | rfl
  · exact ⟨by decide, by decide⟩
  · exact ⟨by decide, by decide⟩

theorem exists_regtestPath (hbranch : branch ∈ regtestBranches) :
    ∃ c, Chain.Path knownHashes regtestGenesis c (regtestPath branch) := by
  rcases List.mem_pair.mp hbranch with rfl | rfl
  · obtain ⟨c, -, hpath⟩ := receive_regtest (List.isChain_singleton _) regtestBlock1_mem
      regtestBlock1_linked
    exact ⟨c, hpath⟩
  · obtain ⟨c, -, hpath⟩ := receive_regtest regtestFork_linked regtestFork_mem
      regtestBlock1_linked
    exact ⟨c, hpath⟩

theorem regtest_isPath (hbranch : branch ∈ regtestBranches)
    (h : Chain.Path knownHashes regtestGenesis c (regtestPath branch)) :
    regtestEnds.IsPath c (regtestPath branch) :=
  ⟨h, (show ∀ branch ∈ regtestBranches, ∀ a ∈ regtestPath branch, a.Streamable by decide +kernel)
    branch hbranch⟩

theorem height_regtestAnchor : HeaderStore.linkedChain.height regtestAnchor = 0 := by
  simp [regtestAnchor, HeaderStore.linkedChain]

theorem regtest_init :
    regtestEnds.Init (regtestSync (.new knownHashes regtestGenesis) Client.fresh) where
  chain := rfl
  client := rfl
  file := rfl
  chainState := rfl
  anchored := by
    show HeaderStore.linkedChain.height regtestAnchor + 1 = 1
    rw [height_regtestAnchor]
    rfl

theorem regtest_run (hbranch : branch ∈ regtestBranches)
    (h : Chain.Path knownHashes regtestGenesis c (regtestPath branch)) :
    Run regtestEnds.Init regtestEnds.Step [c] (regtestSync c Client.fresh) :=
  (Run.init regtest_init).step (.present (regtest_isPath hbranch h).2 h)

theorem regtest_noCollision {es : List Chain} (h : ∀ c ∈ es, ∃ branch ∈ regtestBranches,
    Chain.Path knownHashes regtestGenesis c (regtestPath branch)) :
    regtestEnds.NoCollision es := by
  refine regtest_apart.inj.mono ?_
  rintro a ⟨c, hc, p, hp, rfl⟩
  rcases List.mem_cons.mp hc with rfl | hc
  · obtain rfl := List.mem_singleton.mp hp
    exact regtestGenesis_mem
  · obtain ⟨branch, hbranch, hpath⟩ := h c hc
    rw [hpath.headers] at hp
    obtain ⟨a, ha, rfl⟩ := List.mem_map.mp hp
    exact regtestPath_mem hbranch a ha

/-- The wallet's chain state accepts either branch. -/
theorem regtest_accepts (hbranch : branch ∈ regtestBranches) :
    ∃ state, (branch.map Drongo.BlockHeader.ofAny).foldlM HeaderStore.linkedChain.add
      regtestAnchor = .ok state := by
  rcases List.mem_pair.mp hbranch with rfl | rfl
  · have hadd := HeaderStore.linkedChain_add (h := .v1 regtestBlock1) (n := ⟨0, by omega⟩)
      (by decide +kernel) (by simp only; omega)
    exact ⟨_, HeaderChainState.foldlM_cons hadd rfl⟩
  · have hadd₁ := HeaderStore.linkedChain_add (h := .v1 regtestFork1) (n := ⟨0, by omega⟩)
      (by decide +kernel) (by simp only; omega)
    have hadd₂ := HeaderStore.linkedChain_add (h := .v2 regtestFork2) (n := ⟨1, by omega⟩)
      (by decide +kernel) (by simp only; omega)
    exact ⟨_, HeaderChainState.foldlM_cons hadd₁ (HeaderChainState.foldlM_cons hadd₂ rfl)⟩

/-- Below the v2 header any client may be served. -/
theorem regtest_allowed
    (h : Chain.Path knownHashes regtestGenesis c (regtestPath [.v1 regtestBlock1])) :
    mayServeHeaders c.hasV2Headers Client.fresh.negotiated = true := by
  rw [Chain.hasV2Headers, h.headers]
  rfl

theorem regtest_serving (hbranch : branch ∈ regtestBranches)
    (h : Chain.Path knownHashes regtestGenesis c (regtestPath branch))
    (hallowed : mayServeHeaders c.hasV2Headers client.negotiated = true) :
    regtestEnds.Serving (regtestSync c client) := by
  refine ⟨hallowed, fun p hp => .inl rfl, ?_, ?_⟩
  · simp only [regtestSync]
    rw [h.length_eq]
    exact_mod_cast (length_regtestPath hbranch).1.le
  · have hstretch : c.stretch (regtestSync c client).store.startHeight.toNat c.headers.length
        = branch := by
      rw [(regtest_isPath hbranch h).stretch_eq, h.length_eq]
      exact List.take_of_length_le (Nat.le_succ _)
    show ∃ state, ((c.stretch _ c.headers.length).map _).foldlM _ _ = _
    rw [hstretch]
    exact regtest_accepts hbranch

theorem regtest_follows : regtestEnds.Follows c (regtestSync c client).store := by
  refine ⟨0, ?_⟩
  rw [Chain.stretch_eq, List.take_zero]
  exact ⟨regtest_init.anchored, rfl, rfl, List.forall_mem_nil _⟩

/-- The wallet fetches the branch. -/
theorem regtest_fetched (hbranch : branch ∈ regtestBranches)
    (h : Chain.Path knownHashes regtestGenesis c (regtestPath branch))
    (hallowed : mayServeHeaders c.hasV2Headers client.negotiated = true) :
    ∃ headers store, regtestEnds.Fetched (regtestSync c client) 2016 none headers
      ∧ ((regtestSync c client).store.append headers).1 = store
      ∧ HeaderStore.linkedChain.height (regtestSync c client).store.chainState
        < HeaderStore.linkedChain.height store.chainState := by
  obtain ⟨hlow, hhigh⟩ := length_regtestPath hbranch
  rw [← h.length_eq] at hlow hhigh
  have hserving := regtest_serving hbranch h hallowed
  have hnext : (regtestSync c client).nextHeight = 1 := by
    show (HeaderStore.linkedChain.height regtestAnchor + 1).toNat = 1
    rw [height_regtestAnchor]
    rfl
  have hlt : (regtestSync c client).nextHeight < c.headers.length :=
    hnext ▸ hlow
  have hstream := (regtest_isPath hbranch h).streamable
  obtain ⟨store, hstore, -, -, hafter⟩ :=
    regtest_follows.append_served hserving hstream hlt (Nat.le_refl 2016)
  have hfetched := hserving.fetched hexToBytesKnown_eq_ok_iff hstream hlt
    (hhigh.trans (by decide)) (Nat.le_refl 2016) (fun t ht => absurd ht (Option.not_mem_none t))
  refine ⟨_, store, hfetched, hstore, ?_⟩
  show HeaderStore.linkedChain.height regtestAnchor < _
  rw [hnext] at hafter
  rw [height_regtestAnchor]
  simp only [regtestSync] at hafter
  omega

/-- The wallet is killed in the middle of its first record, and has nothing again. -/
theorem regtest_crash {store : HeaderStore HeaderStore.linkedChain}
    (hsame : store.network = (regtestSync c client).store.network
      ∧ store.startHeight = (regtestSync c client).store.startHeight) :
    regtestEnds.Step { regtestSync c client with store } [] (regtestSync c client) := by
  obtain ⟨network, startHeight, file, chainState, hpos⟩ := store
  obtain ⟨rfl, rfl⟩ := hsame
  have hfollows : regtestEnds.Follows c (regtestSync c client).store := regtest_follows
  obtain ⟨n, hn⟩ := hfollows
  have hlength : 20 < recordLength .regtest := by decide
  have htorn : (file.take 20).length < recordLength (regtestSync c client).store.network :=
    (List.length_take_le 20 file).trans_lt hlength
  exact .crash (hn.load_torn htorn regtestAnchor)

/-- The wallet agrees on 1.8 where the chain has the v2 header. -/
theorem regtest_handshake
    (h : Chain.Path knownHashes regtestGenesis c
      (regtestPath [.v1 regtestFork1, .v2 regtestFork2])) :
    ∃ client : Client, mayServeHeaders c.hasV2Headers client.negotiated = true
      ∧ regtestEnds.Step (regtestSync c Client.fresh) [] (regtestSync c client) := by
  have hv2 : c.hasV2Headers = true := by
    rw [Chain.hasV2Headers, h.headers]
    rfl
  have hversion : Rpc.version regtestEnds.checkBetween regtestEnds.serverId c Client.fresh "wallet"
      (.minMax "1.4" "1.8") = .ok ({ Client.fresh with negotiated := some protocolVersionV2 },
        .version "electrs" protocolVersionV2) := by
    rw [Rpc.version, hv2]
    rfl
  refine ⟨{ Client.fresh with negotiated := some protocolVersionV2 }, ?_, .handshake hversion⟩
  rw [hv2]
  rfl

/-- The wallet fetches the block, is killed while it is written, and loads what is
left; the chain is reorganised to the other branch, and the wallet agrees on 1.8 and
reads that branch off its file. -/
theorem reads_of_run_regtest : ∃ (es : List Chain) (s : ChainSync HeaderStore.linkedChain),
    es.length = 2 ∧ Run regtestEnds.Init regtestEnds.Step es s
      ∧ s.chain.headers.map Prod.snd
        = [.v1 regtestGenesis, .v1 regtestFork1, .v2 regtestFork2]
      ∧ ∃ store, HeaderStore.linkedChain.height s.store.chainState
          < HeaderStore.linkedChain.height store.chainState
        ∧ regtestEnds.Reads s.chain s.store ∧ regtestEnds.Reads s.chain store := by
  obtain ⟨c, hc⟩ := exists_regtestPath regtestBlock1_branch
  obtain ⟨c', hc'⟩ := exists_regtestPath regtestFork_branch
  obtain ⟨headers, store, hfetched, rfl, -⟩ :=
    regtest_fetched regtestBlock1_branch hc (regtest_allowed hc)
  obtain ⟨client, hallowed, hhandshake⟩ := regtest_handshake hc'
  have hcut : Run regtestEnds.Init regtestEnds.Step [c] (regtestSync c Client.fresh) :=
    ((regtest_run regtestBlock1_branch hc).step (.fetch hfetched)).step
      (regtest_crash ((regtestSync c Client.fresh).store.append_same headers))
  have hrun : Run regtestEnds.Init regtestEnds.Step [c, c'] (regtestSync c' client) :=
    (hcut.step (.present (regtest_isPath regtestFork_branch hc').2 hc')).step hhandshake
  obtain ⟨headers', store', hfetched', rfl, hgrown⟩ :=
    regtest_fetched regtestFork_branch hc' hallowed
  have hpaths : ∀ chain ∈ [c, c'], ∃ branch ∈ regtestBranches,
      Chain.Path knownHashes regtestGenesis chain (regtestPath branch) :=
    List.forall_mem_cons.mpr ⟨⟨_, regtestBlock1_branch, hc⟩,
      List.forall_mem_singleton.mpr ⟨_, regtestFork_branch, hc'⟩⟩
  have hreads := (regtestEnds.reads_of_run linkedChainLinks hexToBytesKnown_eq_ok_iff hrun
    (regtest_noCollision hpaths)).2 _ _ _ hfetched' hgrown
  refine ⟨_, _, rfl, hrun, ?_, _, hgrown, hreads⟩
  show c'.headers.map Prod.snd = _
  rw [hc'.headers, List.map_map]
  exact List.map_id _

/-- The wallet fetches the block, and its store is the chain above genesis. -/
theorem catches_up_of_run_regtest : ∃ s : ChainSync HeaderStore.linkedChain,
    s.chain.headers.length = 2 ∧ HeaderStore.linkedChain.height s.store.chainState = 1
      ∧ regtestEnds.Reads s.chain s.store := by
  obtain ⟨c, hc⟩ := exists_regtestPath regtestBlock1_branch
  have hlength : c.headers.length = 2 := hc.length_eq
  have hhash : (regtestSync c Client.fresh).chain.getBlockHash 0
      = some ((AnyHeader.v1 regtestGenesis).blockHash knownHashes) := by
    have hget := (regtest_isPath regtestBlock1_branch hc).getBlockHash 0
    exact hget
  have htip : linkedChainLinks.getHash (regtestSync c Client.fresh).store.chainState
      = ((AnyHeader.v1 regtestGenesis).blockHash knownHashes).reverse := by
    show regtestAnchor.2 = ((AnyHeader.v1 regtestGenesis).blockHash knownHashes).reverse
    decide +kernel
  obtain ⟨s, -, -, hchain, hheight, hreads⟩ := regtestEnds.catches_up_of_run linkedChainLinks
    hexToBytesKnown_eq_ok_iff (regtest_run regtestBlock1_branch hc)
    (regtest_noCollision (List.forall_mem_singleton.mpr ⟨_, regtestBlock1_branch, hc⟩))
    (regtest_serving regtestBlock1_branch hc (regtest_allowed hc))
    height_regtestAnchor hhash htip (show 1 ≤ 2016 ∧ 2016 ≤ 2016 by decide)
    (show ∀ t ∈ none, t ≤ ((regtestSync c Client.fresh).chain.height : ℤ) by simp)
  refine ⟨s, by rw [hchain]; exact hlength, ?_, ?_⟩
  · rw [hheight, Chain.height]
    simp only [regtestSync, hlength]
    rfl
  · rw [hchain]
    exact hreads

end ChainSync

end PrunedElectrs
