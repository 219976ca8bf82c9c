/-
PrunedElectrs/EndToEnd.lean

The server that synchronizes with a node and the wallet that follows the server,
as one system.

A chain that the server has in memory has been written to its database before
(`Server.Inv`), so the server of `IndexSync.lean` presents paths, and a run of
the two is a run of the wallet of `ChainSync.lean`: the writing of a batch is no
step of it, and a restart of the server is a new chain and a lost session
(`Inv.wallet`).  As rows are never deleted, the wallet is never ahead of the
database, wherever the server was stopped (`stored_of_run`).
-/
import PrunedElectrs.ChainSync
import PrunedElectrs.IndexSync

namespace PrunedElectrs

open Wire Runs VariableHeaders

/-- What the two ends run with. -/
structure EndToEnd (C : HeaderChainState) where
  ends : Ends C
  varInt : VarIntDecoder
  memory : Memory
  daemon : Daemon
  /-- The headers in play. -/
  U : Set AnyHeader

variable {C : HeaderChainState}

namespace EndToEnd

/-- The server with its database, the wallet's session there, and the wallet's store. -/
structure State (C : HeaderChainState) where
  server : Server
  client : Client
  store : HeaderStore C

/-- What the wallet sees of it. -/
def State.wallet (s : State C) : ChainSync C where
  chain := s.server.chain
  client := s.client
  store := s.store

@[simp] theorem State.wallet_store (s : State C) : s.wallet.store = s.store := rfl

variable (E : EndToEnd C)

/-- The server's part. -/
def sync : IndexSync where
  H := E.ends.H
  genesis := E.ends.genesis
  varInt := E.varInt
  memory := E.memory
  daemon := E.daemon
  U := E.U

/-- A step of the server or of the wallet, labelled with the chain that is presented. -/
inductive Step : State C → List Chain → State C → Prop
  | message {s : State C} {payload : Bytes} {server : Server} :
      E.sync.Message payload s.server server → Step s [] { s with server := server }
  | batch {s : State C} {server : Server} :
      E.sync.Batch s.server server → Step s [] { s with server := server }
  /-- The chain in memory is replaced. -/
  | finish {s : State C} {server : Server} :
      IndexSync.Finish s.server server → Step s [server.chain] { s with server := server }
  /-- The sessions end with the process. -/
  | restart {s : State C} {server : Server} :
      E.sync.Restart s.server server →
      Step s [server.chain] { s with server := server, client := Client.fresh }
  /-- Whatever the wallet does, at any point of a round. -/
  | wallet {s : State C} {client : Client} {store : HeaderStore C} :
      E.ends.Step s.wallet [] { s.wallet with client := client, store := store } →
      Step s [] { s with client := client, store := store }

/-- An empty database, and a wallet with nothing above its pin. -/
structure Init (s : State C) : Prop where
  server : s.server = Server.init E.ends.H E.ends.genesis
  wallet : E.ends.Init s.wallet

/-- What every run keeps. -/
structure Inv (es : List Chain) (s : State C) : Prop where
  server : E.sync.Reachable s.server
  wallet : Run E.ends.Init E.ends.Step es s.wallet
  stored : ∀ c ∈ E.ends.chains es, ∃ path, E.ends.IsPath c path ∧ (∀ a ∈ path, a ∈ E.U)
    ∧ Stored E.ends.genesis s.server.rows path

variable {E} {es : List Chain} {s s' : State C}

/-! ### The two ends -/

/-- Rows are never deleted. -/
theorem rows_subset {E : IndexSync} {s s' : Server} (h : E.Step s s') : s.rows ⊆ s'.rows := by
  cases h with
  | message h =>
      obtain ⟨msg, new, -, -, -, -, -, -, rfl⟩ := h
      exact List.Subset.refl _
  | batch h =>
      obtain ⟨chunk, later, es, batch, -, -, -, -, -, -, rfl⟩ := h
      exact List.subset_append_left _ _
  | finish h =>
      obtain ⟨chain, -, -, rfl⟩ := h
      exact List.Subset.refl _
  | restart h =>
      obtain ⟨chain, raw, n, -, -, rfl⟩ := h
      exact List.Subset.refl _

/-- The chain in memory is a path, and stored. -/
theorem exists_stored (hU : Chain.HashesApart E.ends.H E.ends.genesis E.U)
    (hg : .v1 E.ends.genesis ∈ E.U) {server : Server} (h : E.sync.Reachable server) :
    ∃ path, E.ends.IsPath server.chain path ∧ (∀ a ∈ path, a ∈ E.U)
      ∧ Stored E.ends.genesis server.rows path := by
  obtain ⟨path, hpath, hmem, hstored, -⟩ := (inv_reachable hU hg h.server).chain
  refine ⟨path, ⟨hpath, fun a ha => ?_⟩, hmem, hstored⟩
  rcases hstored a ha with rfl | ⟨hstream, -⟩
  · exact E.ends.streamable
  · exact hstream

/-- All chains are of headers in play, so no two of these have the same hash. -/
theorem Inv.noCollision (hU : Chain.HashesApart E.ends.H E.ends.genesis E.U) (h : E.Inv es s) :
    E.ends.NoCollision es := by
  refine hU.inj.mono ?_
  rintro a ⟨c, hc, p, hp, rfl⟩
  obtain ⟨path, hpath, hmem, -⟩ := h.stored c hc
  rw [hpath.1.headers] at hp
  obtain ⟨b, hb, rfl⟩ := List.mem_map.mp hp
  exact hmem b hb

theorem inv_init (hg : .v1 E.ends.genesis ∈ E.U) (h : E.Init s) : E.Inv [] s where
  server := by
    rw [h.server]
    exact .refl
  wallet := .init h.wallet
  stored := fun c hc => by
    obtain rfl := List.mem_singleton.mp hc
    refine ⟨_, Ends.isPath_new, List.forall_mem_singleton.mpr hg, fun a ha => .inl ?_⟩
    exact List.mem_singleton.mp ha

/-- The chains so far stay stored, whatever the server does. -/
theorem Inv.stored_server (h : E.Inv es s) {server : Server} (hstep : E.sync.Step s.server server) :
    ∀ c ∈ E.ends.chains es, ∃ path, E.ends.IsPath c path ∧ (∀ a ∈ path, a ∈ E.U)
      ∧ Stored E.ends.genesis server.rows path := by
  intro c hc
  obtain ⟨path, hpath, hmem, hstored⟩ := h.stored c hc
  exact ⟨path, hpath, hmem, hstored.mono (rows_subset hstep)⟩

/-- A step of the server that leaves its chain is none for the wallet. -/
theorem Inv.server_step (h : E.Inv es s) {server : Server} (hstep : E.sync.Step s.server server)
    (hchain : server.chain = s.server.chain) : E.Inv es { s with server := server } where
  server := h.server.tail hstep
  wallet := by
    have hsame : State.wallet { s with server := server } = s.wallet := by
      rw [State.wallet, State.wallet, hchain]
    rw [hsame]
    exact h.wallet
  stored := h.stored_server hstep

/-- One that replaces it presents a path. -/
theorem Inv.server_present (hU : Chain.HashesApart E.ends.H E.ends.genesis E.U)
    (hg : .v1 E.ends.genesis ∈ E.U) (h : E.Inv es s) {server : Server}
    (hstep : E.sync.Step s.server server) :
    E.Inv (es ++ [server.chain]) { s with server := server } where
  server := h.server.tail hstep
  wallet := by
    obtain ⟨path, hpath, -⟩ := exists_stored hU hg (h.server.tail hstep)
    exact h.wallet.step (.present hpath.2 hpath.1)
  stored := by
    intro c hc
    rw [Ends.chains_append] at hc
    rcases List.mem_append.mp hc with hc | hc
    · exact h.stored_server hstep c hc
    · obtain rfl := List.mem_singleton.mp hc
      exact exists_stored hU hg (h.server.tail hstep)

/-- A step of the wallet. -/
theorem Inv.wallet_step (h : E.Inv es s) {client : Client} {store : HeaderStore C}
    (hstep : E.ends.Step s.wallet [] { s.wallet with client := client, store := store }) :
    E.Inv es { s with client := client, store := store } where
  server := h.server
  wallet := by
    have hrun := h.wallet.step hstep
    rw [List.append_nil] at hrun
    exact hrun
  stored := h.stored

theorem inv_step (hU : Chain.HashesApart E.ends.H E.ends.genesis E.U)
    (hg : .v1 E.ends.genesis ∈ E.U) {new : List Chain} (h : E.Inv es s)
    (hstep : E.Step s new s') : E.Inv (es ++ new) s' := by
  cases hstep with
  | message hmessage =>
      rw [List.append_nil]
      refine h.server_step (.message hmessage) ?_
      obtain ⟨msg, new, -, -, -, -, -, -, rfl⟩ := hmessage
      rfl
  | batch hbatch =>
      rw [List.append_nil]
      exact h.server_step (.batch hbatch) hbatch.chain_eq.1
  | finish hfinish => exact h.server_present hU hg (.finish hfinish)
  | restart hrestart =>
      exact (h.server_present hU hg (.restart hrestart)).wallet_step .reconnect
  | wallet hwallet =>
      rw [List.append_nil]
      exact h.wallet_step hwallet

theorem inv_of_run (hU : Chain.HashesApart E.ends.H E.ends.genesis E.U)
    (hg : .v1 E.ends.genesis ∈ E.U) (h : Run E.Init E.Step es s) : E.Inv es s :=
  h.invariant (fun _ hs => inv_init hg hs) fun _ _ _ _ => inv_step hU hg

/-- **The wallet is never ahead of the database.**  In every run of server and
wallet, whatever is interrupted where, on either side: what the wallet reads off
its file is a stretch of one chain that the server has had in memory, and every
header of it but genesis has its row in the server's database.  A fetch that
makes the store grow leaves it on the chain that the server has in memory now. -/
theorem stored_of_run (E : EndToEnd C) (K : C.Links E.ends.H)
    (hhex : ∀ text b, E.ends.hexToBytes text = .ok b ↔ ofHex text = some b)
    (hU : Chain.HashesApart E.ends.H E.ends.genesis E.U) (hg : .v1 E.ends.genesis ∈ E.U)
    {es : List Chain} {s : State C} (h : Run E.Init E.Step es s) :
    (∃ c ∈ E.ends.chains es, E.ends.Reads c s.store
      ∧ Stored E.ends.genesis s.server.rows (c.headers.map Prod.snd))
      ∧ ∀ (count : ℕ) (tip : Option ℤ) (headers : List Drongo.BlockHeader),
          E.ends.Fetched s.wallet count tip headers →
          C.height s.store.chainState < C.height (s.store.append headers).1.chainState →
          E.ends.Reads s.server.chain (s.store.append headers).1 := by
  have hinv := inv_of_run hU hg h
  have hes := hinv.noCollision hU
  have hwallet := Ends.inv_of_run K hhex hinv.wallet hes
  obtain ⟨c, hc, hfollows⟩ := hwallet.follows
  obtain ⟨path, hpath, -, hstored⟩ := hinv.stored c hc
  have hheaders : c.headers.map Prod.snd = path := by
    rw [hpath.1.headers, List.map_map]
    exact List.map_id path
  refine ⟨⟨c, hc, hfollows.reads hpath, hheaders ▸ hstored⟩, fun _ _ _ hfetched hgrown => ?_⟩
  rw [← State.wallet_store] at hgrown ⊢
  exact (hwallet.reads_of_grown K hhex hes hfetched hgrown).2

/-! ### From the node to the wallet -/

/-- The server goes through its rounds while the wallet waits. -/
theorem run_of_rounds {server server' : Server} {payloads : List Bytes}
    (hrounds : E.sync.Rounds server payloads server') {es : List Chain} {client : Client}
    {store : HeaderStore C} (h : Run E.Init E.Step es ⟨server, client, store⟩) :
    ∃ es', Run E.Init E.Step es' ⟨server', client, store⟩ :=
  hrounds.keeps (P := fun server => ∃ es', Run E.Init E.Step es' ⟨server, client, store⟩)
    (fun hmessage ⟨_, h⟩ => ⟨_, h.step (.message hmessage)⟩)
    (fun hbatch ⟨_, h⟩ => ⟨_, h.step (.batch hbatch)⟩)
    (fun hfinish ⟨_, h⟩ => ⟨_, h.step (.finish hfinish)⟩) ⟨es, h⟩

theorem run_of_fetch (h : Run E.Init E.Step es s) {count : ℕ} {tip : Option ℤ} {w : ChainSync C}
    (hfetch : E.ends.Fetches count tip s.wallet w) :
    ∃ store, w = State.wallet { s with store := store }
      ∧ Run E.Init E.Step es { s with store := store } := by
  obtain ⟨store, rfl⟩ := hfetch.exists_store
  have hrun := h.step (.wallet hfetch.step)
  rw [List.append_nil] at hrun
  exact ⟨store, rfl, hrun⟩

/-- The wallet fetches while the server waits. -/
theorem run_of_fetches (h : Run E.Init E.Step es s) {count : ℕ} {tip : Option ℤ}
    {w : ChainSync C} (hfetches : Relation.ReflTransGen (E.ends.Fetches count tip) s.wallet w) :
    ∃ store, w = State.wallet { s with store := store }
      ∧ Run E.Init E.Step es { s with store := store } := by
  induction hfetches with
  | refl => exact ⟨s.store, rfl, h⟩
  | tail _ hfetch ih =>
      obtain ⟨store, rfl, hrun⟩ := ih
      exact run_of_fetch hrun hfetch

/-- **What the node has, the wallet comes to read.**  From any state of a run:
the node sends the rest of its chain `M`, the server goes through the rounds for
it, and a wallet that may be served and whose tip is on that chain fetches until
there is no more.  It then reads the node's chain off its file, to the top. -/
theorem reads_node_of_run (E : EndToEnd C) (K : C.Links E.ends.H)
    (hhex : ∀ text b, E.ends.hexToBytes text = .ok b ↔ ofHex text = some b)
    (hD : E.varInt.Documented) (hU : Chain.HashesApart E.ends.H E.ends.genesis E.U)
    (hg : .v1 E.ends.genesis ∈ E.U) {es : List Chain} {s : State C}
    (h : Run E.Init E.Step es s) {L M : List AnyHeader}
    (hL : Chain.Path E.ends.H E.ends.genesis s.server.chain L) {k : ℕ}
    {chunks : List (List AnyHeader)} (hsends : E.sync.Sends L M k chunks) {server : Server}
    (hrounds : E.sync.Rounds s.server (chunks.map RawNetworkMessage.encode) server)
    (hserving : E.ends.Serving (State.wallet { s with server := server })) {height : ℕ}
    {last : AnyHeader} (hheight : C.height s.store.chainState = height)
    (hlast : M[height]? = some last)
    (htip : K.getHash s.store.chainState = (last.blockHash E.ends.H).reverse) {count : ℕ}
    (hcount : 1 ≤ count ∧ count ≤ 2016) {tip : Option ℤ} (ht : ∀ t ∈ tip, t ≤ (M.length : ℤ) - 1) :
    ∃ store es', Run E.Init E.Step es' { s with server := server, store := store }
      ∧ Relation.ReflTransGen (E.ends.Fetches count tip)
        (State.wallet { s with server := server })
        (State.wallet { s with server := server, store := store })
      ∧ server.chain.headers = M.map (Chain.entry E.ends.H)
      ∧ C.height store.chainState = (M.length : ℤ) - 1 ∧ E.ends.Reads server.chain store := by
  obtain ⟨-, hpath, -⟩ := hrounds.path hD hU hg (inv_of_run hU hg h).server hL hsends
  obtain ⟨es', hrun⟩ := run_of_rounds hrounds h
  have hinv := inv_of_run hU hg hrun
  have hes := hinv.noCollision hU
  have hwallet := Ends.inv_of_run K hhex hinv.wallet hes
  have hhash : server.chain.getBlockHash height = some (last.blockHash E.ends.H) := by
    rw [Chain.getBlockHash, hpath.headers, List.getElem?_map, hlast]
    rfl
  have htop : (server.chain.height : ℤ) = (M.length : ℤ) - 1 := by
    have hpos := hpath.length_pos
    rw [Chain.height, hpath.length_eq]
    omega
  obtain ⟨store, hfetches, hgrown, hreads⟩ := hwallet.catches_up K hhex hes hserving hheight hhash
    htip hcount fun t htmem => (ht t htmem).trans htop.ge
  obtain ⟨store', hstore, hrun'⟩ := run_of_fetches hrun hfetches
  obtain rfl : store = store' := congrArg ChainSync.store hstore
  exact ⟨store, es', hrun', hfetches, hpath.headers, hgrown.trans htop, hreads⟩

/-! ### Server and wallet on regtest -/

/-- Both on regtest. -/
def regtest : EndToEnd HeaderStore.linkedChain where
  ends := ChainSync.regtestEnds
  varInt := RawNetworkMessage.varInt
  memory := RawNetworkMessage.ampleMemory
  daemon := ⟨true, false⟩
  U := regtestHeaders

/-- A server in this state, and a wallet with nothing above its pin. -/
def regtestState (server : Server) : State HeaderStore.linkedChain where
  server := server
  client := Client.fresh
  store := (ChainSync.regtestSync server.chain Client.fresh).store

theorem regtest_run : Run regtest.Init regtest.Step []
    (regtestState (Server.init knownHashes regtestGenesis)) :=
  .init ⟨rfl, ChainSync.regtest_init⟩

/-- The wallet fetches the block when the server has it. -/
theorem stored_of_run_regtest : ∃ s : State HeaderStore.linkedChain,
    0 < HeaderStore.linkedChain.height s.store.chainState
      ∧ ∃ c, ChainSync.regtestEnds.Reads c s.store
        ∧ Stored regtestGenesis s.server.rows (c.headers.map Prod.snd) := by
  obtain ⟨server, hrounds, hpath⟩ := rounds_regtest
  obtain ⟨es, hrun⟩ := run_of_rounds (E := regtest) hrounds regtest_run
  obtain ⟨headers, store, hfetched, hstore, hgrown⟩ := ChainSync.regtest_fetched
    ChainSync.regtestBlock1_branch hpath (ChainSync.regtest_allowed hpath)
  have hfetches : ChainSync.regtestEnds.Fetches 2016 none (ChainSync.regtestSync server.chain Client.fresh)
      { ChainSync.regtestSync server.chain Client.fresh with store := store } :=
    ⟨headers, hfetched, by rw [hstore]⟩
  obtain ⟨store', hsame, hafter⟩ := run_of_fetch hrun hfetches
  obtain rfl : store = store' := congrArg ChainSync.store hsame
  obtain ⟨⟨c, -, hreads, hstored⟩, -⟩ := stored_of_run regtest ChainSync.linkedChainLinks
    hexToBytesKnown_eq_ok_iff regtest_apart regtestGenesis_mem hafter
  exact ⟨_, ChainSync.height_regtestAnchor ▸ hgrown, c, hreads, hstored⟩

theorem reads_node_of_run_regtest : ∃ s : State HeaderStore.linkedChain,
    s.server.chain.headers
        = [.v1 regtestGenesis, .v1 regtestBlock1].map (Chain.entry knownHashes)
      ∧ HeaderStore.linkedChain.height s.store.chainState = 1
      ∧ ChainSync.regtestEnds.Reads s.server.chain s.store := by
  obtain ⟨server, hrounds, hpath⟩ := rounds_regtest
  have htip : ChainSync.linkedChainLinks.getHash ChainSync.regtestAnchor
      = ((AnyHeader.v1 regtestGenesis).blockHash knownHashes).reverse := by
    show ChainSync.regtestAnchor.2 = _
    decide +kernel
  obtain ⟨store, es, -, -, hheaders, hheight, hreads⟩ := reads_node_of_run regtest
    ChainSync.linkedChainLinks hexToBytesKnown_eq_ok_iff RawNetworkMessage.documented_varInt
    regtest_apart regtestGenesis_mem regtest_run (Chain.path_new regtestGenesis)
    (sends_regtest hpath.linked) hrounds (ChainSync.regtest_serving
      ChainSync.regtestBlock1_branch hpath (ChainSync.regtest_allowed hpath))
    ChainSync.height_regtestAnchor rfl htip (show 1 ≤ 2016 ∧ 2016 ≤ 2016 by decide)
    (fun t ht => absurd ht (Option.not_mem_none t))
  exact ⟨{ server := server, client := Client.fresh, store := store }, hheaders, hheight, hreads⟩

end EndToEnd

end PrunedElectrs
