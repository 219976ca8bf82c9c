/-
PrunedElectrs/IndexSync.lean

`Index::sync` from one end to the other: `headers` messages of a node come in as
bytes, the blocks of each batch from whatever sources `for_blocks_indexing`
takes them from, and the rows go to the database.

The server of `Store.lean` is given its headers and its blocks.  Here both are
got, and a step is simulated by a step of that server (`Step.server`), so that
its invariant holds of every run: the database can be reopened at any point
(`reload_of_run`).  What a run is for is `follows_node`: once the rounds for the
messages of a node are through, the chain in memory is the node's, and so is
the chain in the database.

Two things are taken for granted that the code does not check: bitcoind answers
`getblock` with the block asked for (`Authentic`), and the headers of a message
link to each other (`Message`), without which the rows of a round are no chain
and loading them panics.  The theorems assume besides that no two headers in play
have one hash (`Chain.HashesApart`).
-/
import PrunedElectrs.HeadersMessage
import PrunedElectrs.Integrity
import PrunedElectrs.Store

namespace PrunedElectrs

open Wire Effects

/-- What a synchronization runs with. -/
structure IndexSync where
  H : Hashes
  genesis : HeaderV1
  varInt : VarIntDecoder
  memory : Memory
  daemon : Daemon
  /-- The headers in play. -/
  U : Set AnyHeader

namespace IndexSync

variable (E : IndexSync)

/-- Every block that bitcoind returns begins with the header asked for. -/
def Authentic (es : Trace) : Prop :=
  ∀ hash reply block, ⟨.getBlock .bitcoind hash, reply⟩ ∈ es → blockOf reply = .ok block →
    Names E.H block hash

/-- The headers that blocks begin with are in play. -/
def InPlay (blocks : List (BlockHash × Bytes)) : Prop :=
  ∀ c ∈ blocks, ∀ header, AnyHeader.parse c.2 = .ok header → header ∈ E.U

/-- A `headers` message is read and starts a round.  That its headers link to each
other is the node's word for it: `get_new_headers` does not look. -/
def Message (payload : Bytes) (s s' : Server) : Prop :=
  ∃ msg new, s.round = [] ∧ s.pending = [] ∧
    RawNetworkMessage.parseHeaders E.varInt E.memory payload = .ok (.headers msg) ∧
    msg.IsChain (Chain.Link E.H) ∧ (∀ a ∈ msg, a ∈ E.U) ∧
    s.chain.getNewHeaders E.H msg = .ok new ∧ s' = { s with round := new, pending := new }

/-- The next batch is fetched, indexed and written. -/
def Batch (s s' : Server) : Prop :=
  ∃ chunk later es batch, s.pending = chunk ++ later ∧ chunk ≠ [] ∧
    Exec (E.daemon.forBlocksIndexing E.H (chunk.map NewHeader.hash)) es (.ok ()) ∧
    E.Authentic es ∧ E.InPlay (calls es) ∧ indexBlocks (calls es) = .ok batch ∧
    s' = { s with rows := s.rows ++ batch.headerRows, tipRow := some batch.tipRow
                  pending := later }

/-- The round is over. -/
def Finish (s s' : Server) : Prop :=
  ∃ chain, s.pending = [] ∧ s.chain.update s.round = .ok chain ∧
    s' = { s with chain := chain, round := [] }

/-- The process ends, at any point between two writes, and is started again. -/
def Restart (s s' : Server) : Prop :=
  ∃ chain raw reindexLastBlocks, Scan s.rows raw ∧
    Index.load E.H E.genesis reindexLastBlocks raw s.tipRow = .ok chain ∧
    s' = { s with chain := chain, round := [], pending := [] }

/-- A step of `Index::sync`, or a restart. -/
inductive Step (s s' : Server) : Prop
  | message {payload : Bytes} : E.Message payload s s' → Step s s'
  | batch : E.Batch s s' → Step s s'
  | finish : Finish s s' → Step s s'
  | restart : E.Restart s s' → Step s s'

/-- The states of all runs. -/
abbrev Reachable : Server → Prop :=
  Relation.ReflTransGen E.Step (Server.init E.H E.genesis)

/-- Rounds for these messages, each of them brought to its end. -/
inductive Rounds : Server → List Bytes → Server → Prop
  | nil {s : Server} : Rounds s [] s
  | cons {s s₁ s₂ s₃ s' : Server} {payload : Bytes} {payloads : List Bytes} :
      E.Message payload s s₁ → Relation.ReflTransGen E.Batch s₁ s₂ → Finish s₂ s₃ →
      Rounds s₃ payloads s' → Rounds s (payload :: payloads) s'

variable {E} {s s' : Server}

/-! ### The blocks that are indexed -/

/-- The blocks of a batch that was fetched are those asked for, in order. -/
theorem blocks_of_fetched {hashes : List BlockHash} {es : Trace}
    (h : Exec (E.daemon.forBlocksIndexing E.H hashes) es (.ok ())) (hauth : E.Authentic es)
    (hplay : E.InPlay (calls es)) :
    List.Forall₂ (BlockFor E.H E.U) hashes ((calls es).map Prod.snd)
      ∧ hashes.zip ((calls es).map Prod.snd) = calls es := by
  have hfst : (calls es).map Prod.fst = hashes := (forBlocksWith_inOrder h).2.mp rfl
  refine ⟨?_, (List.zip_of_prod hfst rfl).symm⟩
  rw [← hfst, List.forall₂_map_left_iff, List.forall₂_map_right_iff, List.forall₂_same]
  rintro ⟨hash, block⟩ hc
  have hnames : Names E.H block hash := by
    rcases forBlocksWith_source h hc with hnames | ⟨reply, he, hblock⟩
    · exact hnames
    · exact hauth hash reply block he hblock
  obtain ⟨header, hparse, hhash⟩ := hnames
  exact ⟨header, hplay _ hc header hparse, hparse, hhash⟩

/-- **A synchronization is a run of the server.** -/
theorem Step.server (h : E.Step s s') : Server.Step E.H E.genesis E.U s s' := by
  cases h with
  | message h =>
      obtain ⟨msg, new, hround, hpending, -, hmsg, hU, hnew, rfl⟩ := h
      exact .begin hround hpending hmsg hU hnew
  | batch h =>
      obtain ⟨chunk, later, es, batch, hpending, hne, hexec, hauth, hplay, hindex, rfl⟩ := h
      obtain ⟨hblocks, hzip⟩ := blocks_of_fetched hexec hauth hplay
      rw [List.forall₂_map_left_iff] at hblocks
      rw [← hzip] at hindex
      exact .batch hpending hne hblocks hindex
  | finish h =>
      obtain ⟨chain, hpending, hupdate, rfl⟩ := h
      exact .finish hpending hupdate
  | restart h =>
      obtain ⟨chain, raw, n, hscan, hload, rfl⟩ := h
      exact .restart hscan hload

theorem Reachable.server (h : E.Reachable s) : Server.Reachable E.H E.genesis E.U s :=
  Relation.ReflTransGen.mono (fun _ _ => Step.server) _ _ h

/-- The state of every run is one that the database can be reopened in: what is
found is the header path to the last block written, whatever other rows there
are, and the chain in memory has its rows. -/
theorem reload_of_run (E : IndexSync) (hU : Chain.HashesApart E.H E.genesis E.U)
    (hg : .v1 E.genesis ∈ E.U) {s : Server} (h : E.Reachable s) {raw : List Bytes}
    (hscan : Scan s.rows raw) (n : ℕ) :
    (∃ c, Index.load E.H E.genesis n raw s.tipRow = .ok c ∧
      match s.tipRow with
      | none => c = Chain.new E.H E.genesis
      | some tip => ∃ P, IsPathTo E.H E.genesis E.U tip P ∧
          Chain.Path E.H E.genesis c (P.take (max 1 (P.length - n)))) ∧
    ∃ L, Chain.Path E.H E.genesis s.chain L ∧ Stored E.genesis s.rows L := by
  have hinv := inv_reachable hU hg h.server
  obtain ⟨L, hL, -, hstored, -⟩ := hinv.chain
  refine ⟨?_, L, hL, hstored⟩
  rcases htip : s.tipRow with - | tip
  · exact ⟨_, rfl, rfl⟩
  · obtain ⟨P, hP, hPstored⟩ := hinv.tip tip htip
    obtain ⟨c, hload, hpath⟩ := Index.load_of_stored hU hscan hinv.rows hP hPstored n
    exact ⟨c, hload, P, hP, hpath⟩

/-! ### Following a node -/

/-- What the steps of a round keep is kept by rounds that are brought to their end. -/
theorem Rounds.keeps {P : Server → Prop} {payloads : List Bytes} (h : E.Rounds s payloads s')
    (message : ∀ {s s' : Server} {payload : Bytes}, E.Message payload s s' → P s → P s')
    (batch : ∀ {s s' : Server}, E.Batch s s' → P s → P s')
    (finish : ∀ {s s' : Server}, Finish s s' → P s → P s') (hs : P s) : P s' := by
  induction h with
  | nil => exact hs
  | cons hmessage hbatches hfinish _ ih =>
      have hwritten := Relation.ReflTransGen.trans_induction_on (motive := fun {s s'} _ =>
        P s → P s') hbatches (fun _ => id) batch fun _ _ h h' => h' ∘ h
      exact ih (finish hfinish (hwritten (message hmessage hs)))

theorem Rounds.steps {payloads : List Bytes} (h : E.Rounds s payloads s') :
    Relation.ReflTransGen E.Step s s' :=
  h.keeps (fun hmessage hs => hs.tail (.message hmessage)) (fun hbatch hs => hs.tail (.batch hbatch))
    (fun hfinish hs => hs.tail (.finish hfinish)) .refl

theorem Batch.chain_eq (h : E.Batch s s') : s'.chain = s.chain ∧ s'.round = s.round := by
  obtain ⟨chunk, later, es, batch, -, -, -, -, -, -, rfl⟩ := h
  exact ⟨rfl, rfl⟩

theorem batches_chain_eq (h : Relation.ReflTransGen E.Batch s s') :
    s'.chain = s.chain ∧ s'.round = s.round := by
  induction h with
  | refl => exact ⟨rfl, rfl⟩
  | tail _ hbatch ih => exact ⟨hbatch.chain_eq.1.trans ih.1, hbatch.chain_eq.2.trans ih.2⟩

/-- The tip row of a batch names its last block. -/
theorem tipRow_of_indexBlocks {blocks : List (BlockHash × Bytes)} {last : BlockHash × Bytes}
    {batch : WriteBatch} (h : indexBlocks blocks = .ok batch)
    (hlast : blocks.getLast? = some last) :
    batch.tipRow = last.1.toList := by
  obtain ⟨front, rfl⟩ := List.getLast?_eq_some_iff.mp hlast
  rw [indexBlocks, List.foldlM_append] at h
  obtain ⟨before, -, h⟩ := bind_eq_ok.mp h
  rw [List.foldlM_cons] at h
  obtain ⟨after, hafter, h⟩ := bind_eq_ok.mp h
  obtain ⟨header, -, hafter⟩ := bind_eq_ok.mp hafter
  cases hafter
  cases h
  rfl

/-- Batches take the headers of a round from the front, and the tip row names
the last one taken. -/
theorem exists_taken (h : Relation.ReflTransGen E.Batch s s') :
    ∃ taken, s.pending = taken ++ s'.pending ∧
      ∀ last, taken.getLast? = some last → s'.tipRow = some last.hash.toList := by
  induction h with
  | refl => exact ⟨[], rfl, fun last hlast => by cases hlast⟩
  | tail _ hbatch ih =>
      obtain ⟨taken, hs, -⟩ := ih
      obtain ⟨chunk, later, es, batch, hpending, hne, hexec, -, -, hindex, rfl⟩ := hbatch
      refine ⟨taken ++ chunk, by rw [hs, hpending, List.append_assoc], fun last hlast => ?_⟩
      have hchunk : chunk.getLast? = some last := by
        rw [List.getLast?_append, List.getLast?_eq_some_getLast hne, Option.some_or] at hlast
        rw [List.getLast?_eq_some_getLast hne, hlast]
      have hfst : (calls es).map Prod.fst = chunk.map NewHeader.hash :=
        (forBlocksWith_inOrder hexec).2.mp rfl
      have hboth := congrArg List.getLast? hfst
      rw [List.getLast?_map, List.getLast?_map, hchunk, Option.map_some,
        Option.map_eq_some_iff] at hboth
      obtain ⟨block, hblock, hhash⟩ := hboth
      rw [tipRow_of_indexBlocks hindex hblock, hhash]

theorem map_hash_of_getNewHeaders {H : Hashes} {c : Chain} {msg : List AnyHeader}
    {new : List NewHeader} (h : c.getNewHeaders H msg = .ok new) :
    new.map NewHeader.hash = msg.map (AnyHeader.blockHash H) := by
  rw [Chain.getNewHeaders] at h
  cases msg with
  | nil =>
      cases h
      rfl
  | cons first rest =>
      simp only [List.head?_cons] at h
      split at h
      · cases h
        exact Chain.map_hash_number _ _
      · cases h

/-- A round that is through has done to the chain what its message does, and
the tip row names the last header of the message. -/
theorem receive_of_round {s s₁ s₂ s₃ : Server} {payload : Bytes} {msg : List AnyHeader}
    (hmessage : E.Message payload s s₁) (hbatches : Relation.ReflTransGen E.Batch s₁ s₂)
    (hfinish : Finish s₂ s₃)
    (hmsg : RawNetworkMessage.parseHeaders E.varInt E.memory payload = .ok (.headers msg)) :
    s.chain.receive E.H msg = .ok s₃.chain ∧
      s₃.tipRow = (msg.getLast?.map fun last => (last.blockHash E.H).toList).or s.tipRow := by
  obtain ⟨msg', new, -, -, hparse, -, -, hnew, rfl⟩ := hmessage
  rw [hmsg] at hparse
  cases hparse
  obtain ⟨chain, hpending, hupdate, rfl⟩ := hfinish
  obtain ⟨hchain, hround⟩ := batches_chain_eq hbatches
  rw [hchain, hround] at hupdate
  refine ⟨by rw [Chain.receive, hnew, ok_bind, hupdate], ?_⟩
  have hhashes := map_hash_of_getNewHeaders hnew
  rcases hlast : msg.getLast? with - | last
  · rw [List.getLast?_eq_none_iff] at hlast
    subst hlast
    obtain rfl := List.map_eq_nil_iff.mp hhashes
    -- there is nothing to take a batch of
    rcases Relation.ReflTransGen.cases_head hbatches with rfl | ⟨t, hbatch, -⟩
    · rfl
    · obtain ⟨chunk, later, es, batch, hnil, hne, -⟩ := hbatch
      exact absurd (List.append_eq_nil_iff.mp hnil.symm).1 hne
  · obtain ⟨taken, htaken, htip⟩ := exists_taken hbatches
    rw [hpending, List.append_nil] at htaken
    obtain rfl : new = taken := htaken
    have hboth := congrArg List.getLast? hhashes
    rw [List.getLast?_map, List.getLast?_map, hlast, Option.map_some,
      Option.map_eq_some_iff] at hboth
    obtain ⟨header, hheader, hhash⟩ := hboth
    show s₂.tipRow = _
    rw [htip header hheader, hhash]
    rfl

/-- The same for the rounds of several messages. -/
theorem receive_of_rounds {s s' : Server} {payloads : List Bytes} (h : E.Rounds s payloads s')
    {msgs : List (List AnyHeader)}
    (hmsgs : List.Forall₂ (fun payload msg =>
      RawNetworkMessage.parseHeaders E.varInt E.memory payload = .ok (.headers msg))
        payloads msgs) :
    msgs.foldlM (Chain.receive E.H) s.chain = .ok s'.chain ∧
      s'.tipRow = (msgs.flatten.getLast?.map fun last => (last.blockHash E.H).toList).or
        s.tipRow := by
  induction h generalizing msgs with
  | nil =>
      cases hmsgs
      exact ⟨rfl, rfl⟩
  | cons hmessage hbatches hfinish _ ih =>
      obtain ⟨msg, msgs, hmsg, hrest, rfl⟩ := List.forall₂_cons_left_iff.mp hmsgs
      obtain ⟨hreceive, htip⟩ := receive_of_round hmessage hbatches hfinish hmsg
      obtain ⟨hfold, htips⟩ := ih hrest
      refine ⟨?_, ?_⟩
      · rw [List.foldlM_cons, hreceive, ok_bind, hfold]
      · rw [htips, htip, List.flatten_cons, List.getLast?_append, Option.map_or, Option.or_assoc]

/-- A chain stands for one path. -/
theorem path_eq {H : Hashes} {genesis : HeaderV1} {c : Chain} {L L' : List AnyHeader}
    (h : Chain.Path H genesis c L) (h' : Chain.Path H genesis c L') : L = L' := by
  have hsnd : ∀ M : List AnyHeader, (M.map (Chain.entry H)).map Prod.snd = M := by
    intro M
    rw [List.map_map]
    exact List.map_id M
  rw [← hsnd L, ← h.headers, h'.headers, hsnd]

/-- A path that shares the first `k` headers of the chain's is what the chain
becomes when the rest of it is received. -/
theorem receive_rest {H : Hashes} {genesis : HeaderV1} {U : Set AnyHeader}
    (hU : Chain.HashesApart H genesis U) {c : Chain} {L M : List AnyHeader}
    (hL : Chain.Path H genesis c L) (hLU : ∀ a ∈ L, a ∈ U) (hlinked : M.IsChain (Chain.Link H))
    (hMU : ∀ a ∈ M, a ∈ U) {k : ℕ} (hk : 0 < k) (hkM : k < M.length)
    (hshared : L.take k = M.take k) :
    ∃ c', c.receive H (M.drop k) = .ok c' ∧ Chain.Path H genesis c' M := by
  obtain ⟨i, rfl⟩ : ∃ i, k = i + 1 := ⟨k - 1, by omega⟩
  have hdrop := List.drop_eq_getElem_cons hkM
  have hlink : M[i + 1].prevBlockhash = M[i].blockHash H := by
    exact List.isChain_iff_getElem.mp hlinked i hkM
  have hsame : L[i]? = some M[i] := by
    have hget := congrArg (fun l : List AnyHeader => l[i]?) hshared
    simp only [List.getElem?_take, if_pos (Nat.lt_succ_self i)] at hget
    rw [hget, List.getElem?_eq_getElem]
  have hheight : c.heights M[i + 1].prevBlockhash = some i := by
    refine (hL.heights _ _).mpr ?_
    rw [List.getElem?_map, hsame, hlink]
    rfl
  rw [hdrop]
  obtain ⟨c', hreceive, hpath⟩ := hL.receive hU hLU (hdrop ▸ hlinked.drop (i + 1))
    (fun a ha => hMU a (List.mem_of_mem_drop (hdrop ▸ ha))) hheight
  rw [← hdrop, hshared, List.take_append_drop] at hpath
  exact ⟨c', hreceive, hpath⟩

/-- The node's chain `M` shares the first `k` headers of the chain so far, and
the rest of it is sent in these messages. -/
structure Sends (E : IndexSync) (L M : List AnyHeader) (k : ℕ) (chunks : List (List AnyHeader)) :
    Prop where
  head : M.head? = some (.v1 E.genesis)
  linked : M.IsChain (Chain.Link E.H)
  mem : ∀ a ∈ M, a ∈ E.U
  pos : 0 < k
  lt : k < M.length
  shared : L.take k = M.take k
  rest : chunks.flatten = M.drop k
  sent : ∀ chunk ∈ chunks, (∀ a ∈ chunk, a.Streamable) ∧ chunk.length < 2 ^ 64
    ∧ E.memory.Reserves chunk.length

/-- The rounds for what the node sends lead to the node's chain, and the tip row
names its last block. -/
theorem Rounds.path (hD : E.varInt.Documented) (hU : Chain.HashesApart E.H E.genesis E.U)
    (hg : .v1 E.genesis ∈ E.U) (hs : E.Reachable s) {L M : List AnyHeader}
    (hL : Chain.Path E.H E.genesis s.chain L) {k : ℕ} {chunks : List (List AnyHeader)}
    (hsends : E.Sends L M k chunks)
    (hrounds : E.Rounds s (chunks.map RawNetworkMessage.encode) s') :
    E.Reachable s' ∧ Chain.Path E.H E.genesis s'.chain M
      ∧ s'.tipRow = M.getLast?.map fun last => (last.blockHash E.H).toList := by
  have hparse : List.Forall₂ (fun payload msg =>
      RawNetworkMessage.parseHeaders E.varInt E.memory payload = .ok (.headers msg))
        (chunks.map RawNetworkMessage.encode) chunks := by
    rw [List.forall₂_map_left_iff, List.forall₂_same]
    intro chunk hchunk
    obtain ⟨hstream, hlen, hreserves⟩ := hsends.sent chunk hchunk
    have hbegins := RawNetworkMessage.beginsWith_encode hD hstream hlen []
    rw [List.append_nil] at hbegins
    exact hbegins.parseHeaders hD hreserves
  obtain ⟨hfold, htip⟩ := receive_of_rounds hrounds hparse
  obtain ⟨L', hL', hLU, -⟩ := (inv_reachable hU hg hs.server).chain
  obtain rfl := path_eq hL hL'
  -- the messages together are the rest of the path
  have hrest : (chunks.flatten).IsChain (Chain.Link E.H) := hsends.rest ▸ hsends.linked.drop k
  have hrestU : ∀ a ∈ chunks.flatten, a ∈ E.U := fun a ha =>
    hsends.mem a (List.mem_of_mem_drop (hsends.rest ▸ ha))
  obtain ⟨c', hreceive, hpath⟩ := receive_rest hU hL hLU hsends.linked hsends.mem hsends.pos
    hsends.lt hsends.shared
  rw [hL.foldlM_receive hU hLU hrest hrestU, hsends.rest, hreceive] at hfold
  obtain rfl : c' = s'.chain := Except.ok.inj hfold
  refine ⟨hs.trans hrounds.steps, hpath, ?_⟩
  have hne : M ≠ [] := by
    rintro rfl
    exact absurd hsends.lt (Nat.not_lt_zero k)
  have hlast : (M.drop k).getLast? = M.getLast? := by
    rw [List.getLast?_drop, if_neg (Nat.not_le.mpr hsends.lt)]
  rw [htip, hsends.rest, hlast, List.getLast?_eq_some_getLast hne, Option.map_some, Option.some_or]

/-- **A synchronization ends with the node's chain**, in memory and in the
database.  `L` is the chain so far, of which the node's chain `M` shares the
first `k` headers; the node sends the rest of `M` in messages of any size, and
the blocks come from any source. -/
theorem follows_node (E : IndexSync) (hD : E.varInt.Documented)
    (hU : Chain.HashesApart E.H E.genesis E.U) (hg : .v1 E.genesis ∈ E.U) {s s' : Server}
    (hs : E.Reachable s) {L M : List AnyHeader} (hL : Chain.Path E.H E.genesis s.chain L)
    {k : ℕ} {chunks : List (List AnyHeader)} (hsends : E.Sends L M k chunks)
    (hrounds : E.Rounds s (chunks.map RawNetworkMessage.encode) s') {raw : List Bytes}
    (hscan : Scan s'.rows raw) :
    s'.chain.headers = M.map (Chain.entry E.H)
      ∧ Index.load E.H E.genesis 0 raw s'.tipRow = .ok s'.chain := by
  obtain ⟨hs', hpath, htip⟩ := hrounds.path hD hU hg hs hL hsends
  refine ⟨hpath.headers, ?_⟩
  have hinv := inv_reachable hU hg hs'.server
  obtain ⟨M', hM', -, hstored, -⟩ := hinv.chain
  obtain rfl := path_eq hpath hM'
  have hne : M ≠ [] := List.length_pos_iff.mp hpath.length_pos
  rw [List.getLast?_eq_some_getLast hne, Option.map_some] at htip
  have hto : IsPathTo E.H E.genesis E.U ((M.getLast hne).blockHash E.H).toList M :=
    { head := hsends.head
      linked := hsends.linked
      mem := hsends.mem
      last := by rw [List.getLast?_eq_some_getLast hne, Option.map_some] }
  obtain ⟨c, hload, hpath'⟩ := Index.load_of_stored hU hscan hinv.rows hto hstored 0
  rw [Nat.sub_zero, Nat.max_eq_right (List.length_pos_iff.mpr hne), List.take_length] at hpath'
  rw [htip, hload, hpath'.unique hpath]

end IndexSync

/-! ### Block 1 of regtest, from a node that has pruned it -/

/-- A synchronization on regtest, from a node that prunes. -/
def regtestSync : IndexSync where
  H := knownHashes
  genesis := regtestGenesis
  varInt := RawNetworkMessage.varInt
  memory := RawNetworkMessage.ampleMemory
  daemon := ⟨true, false⟩
  U := regtestHeaders

/-- Fetching it. -/
def regtestFetch : Trace × Rust Unit :=
  Sources.serve { regtestSources with pruneHeight := 2 } knownHashes ⟨true, false⟩ [block1Hash]
    retryBudgetIndexing

/-- The database is new, and the message has been read. -/
def regtestRound : Server :=
  { Server.init knownHashes regtestGenesis with
    round := Chain.number knownHashes 1 [.v1 regtestBlock1]
    pending := Chain.number knownHashes 1 [.v1 regtestBlock1] }

theorem parse_regtest : RawNetworkMessage.parseHeaders RawNetworkMessage.varInt
    RawNetworkMessage.ampleMemory (RawNetworkMessage.encode [.v1 regtestBlock1])
      = .ok (.headers [.v1 regtestBlock1]) := by
  decide +kernel

theorem message_regtest : regtestSync.Message (RawNetworkMessage.encode [.v1 regtestBlock1])
    (Server.init knownHashes regtestGenesis) regtestRound := by
  have hheight : (Chain.new knownHashes regtestGenesis).getBlockHeight
      (AnyHeader.v1 regtestBlock1).prevBlockhash = some 0 := by decide +kernel
  refine ⟨[.v1 regtestBlock1], _, rfl, rfl, parse_regtest, List.isChain_singleton _,
    regtestBlock1_mem, ?_, rfl⟩
  show Chain.getNewHeaders knownHashes (Chain.new knownHashes regtestGenesis) _ = _
  rw [Chain.getNewHeaders]
  simp only [List.head?_cons, hheight]

theorem batch_regtest : ∃ s, regtestSync.Batch regtestRound s ∧ s.pending = [] := by
  have hexec : Exec (Daemon.forBlocksIndexing knownHashes ⟨true, false⟩ [block1Hash])
      regtestFetch.1 regtestFetch.2 := Sources.exec_serve _ _ _ _ _
  have hcanon : UsualCanonical regtestBlock [block1Hash] regtestFetch.1 :=
    Sources.usualCanonical_serve _ _ _ _ _ rfl
  have hnames : ∀ hash ∈ [block1Hash], Names knownHashes (regtestBlock hash) hash := by
    intro hash hhash
    exact names_regtestBlock hash (List.mem_cons_of_mem _ hhash)
  have hok : regtestFetch.2 = .ok () :=
    forBlocksWith_ok hexec (Sources.faultless_serve _ _ _ _ _ hnames)
  rw [hok] at hexec
  have hcalls : calls regtestFetch.1 = [(block1Hash, regtestBlock block1Hash)] := by
    decide +kernel
  have hauth : regtestSync.Authentic regtestFetch.1 := by
    intro hash reply block he hblock
    have hc : (hash, block) ∈ calls regtestFetch.1 :=
      forBlocksWith_delivered (H := knownHashes) hexec he ⟨hblock, fun hc => by cases hc⟩
    rw [hcalls, List.mem_singleton, Prod.mk.injEq] at hc
    rw [hc.1, hc.2]
    exact hnames _ List.mem_cons_self
  have hplay : regtestSync.InPlay (calls regtestFetch.1) := by
    rintro ⟨hash, block⟩ hc header hparse
    have hfound : AnyHeader.parse (regtestBlock block1Hash) = .ok (.v1 regtestBlock1) := by
      decide +kernel
    rw [hcalls, List.mem_singleton, Prod.mk.injEq] at hc
    change AnyHeader.parse block = _ at hparse
    rw [hc.2, hfound] at hparse
    rw [← Except.ok.inj hparse]
    exact regtestBlock1_mem _ List.mem_cons_self
  obtain ⟨hblocks, hzip⟩ := IndexSync.blocks_of_fetched (E := regtestSync) hexec hauth hplay
  have hhashes : [block1Hash] = regtestRound.pending.map NewHeader.hash :=
    (Chain.map_hash_number 1 [.v1 regtestBlock1]).symm
  rw [hhashes] at hexec hblocks hzip
  rw [List.forall₂_map_left_iff] at hblocks
  have hindex := (indexBlocks_spec regtest_apart regtestBlock1_mem hblocks).2
  have hchunk : regtestRound.pending ≠ [] := List.cons_ne_nil _ _
  have hall : regtestRound.pending = regtestRound.pending ++ [] := (List.append_nil _).symm
  exact ⟨_, ⟨_, _, _, _, hall, hchunk, hexec, hauth, hplay, hzip ▸ hindex, rfl⟩, rfl⟩

/-- The process may end before the round does: the block has its row. -/
theorem reload_of_run_regtest : ∃ s c, regtestSync.Reachable s ∧ s.round ≠ [] ∧
    Index.load knownHashes regtestGenesis 0 s.rows s.tipRow = .ok c := by
  obtain ⟨s, hbatch, -⟩ := batch_regtest
  have hs : regtestSync.Reachable s :=
    (Relation.ReflTransGen.single (.message message_regtest)).tail (.batch hbatch)
  obtain ⟨⟨c, hload, -⟩, -⟩ := IndexSync.reload_of_run regtestSync regtest_apart
    regtestGenesis_mem hs (show Scan s.rows s.rows from fun key _ => Iff.rfl) 0
  refine ⟨s, c, hs, ?_, hload⟩
  rw [hbatch.chain_eq.2]
  exact List.cons_ne_nil _ _

theorem sends_regtest
    (hlinked : [AnyHeader.v1 regtestGenesis, .v1 regtestBlock1].IsChain (Chain.Link knownHashes)) :
    regtestSync.Sends [.v1 regtestGenesis] [.v1 regtestGenesis, .v1 regtestBlock1] 1
      [[.v1 regtestBlock1]] where
  head := rfl
  linked := hlinked
  mem := List.forall_mem_cons.mpr ⟨regtestGenesis_mem, regtestBlock1_mem⟩
  pos := Nat.one_pos
  lt := Nat.one_lt_two
  shared := rfl
  rest := rfl
  sent := by
    intro chunk hchunk
    obtain rfl := List.mem_singleton.mp hchunk
    refine ⟨fun a ha => ?_, by decide, by decide⟩
    obtain rfl := List.mem_singleton.mp ha
    decide +kernel

/-- The round for the message, to its end. -/
theorem rounds_regtest : ∃ s, regtestSync.Rounds (Server.init knownHashes regtestGenesis)
      ([[AnyHeader.v1 regtestBlock1]].map RawNetworkMessage.encode) s ∧
    Chain.Path knownHashes regtestGenesis s.chain [.v1 regtestGenesis, .v1 regtestBlock1] := by
  obtain ⟨s, hbatch, hpending⟩ := batch_regtest
  obtain ⟨c, hc, hpath⟩ := update_regtest
  obtain ⟨hchain, hround⟩ := hbatch.chain_eq
  have hfinish : IndexSync.Finish s { s with chain := c, round := [] } := by
    refine ⟨c, hpending, ?_, rfl⟩
    rw [hchain, hround]
    exact hc
  exact ⟨_, .cons message_regtest (.single hbatch) hfinish .nil, hpath⟩

theorem follows_node_regtest : ∃ s, regtestSync.Rounds (Server.init knownHashes regtestGenesis)
      ([[AnyHeader.v1 regtestBlock1]].map RawNetworkMessage.encode) s ∧
    s.chain.headers = [.v1 regtestGenesis, .v1 regtestBlock1].map (Chain.entry knownHashes) ∧
    Index.load knownHashes regtestGenesis 0 s.rows s.tipRow = .ok s.chain := by
  obtain ⟨s, hrounds, hpath⟩ := rounds_regtest
  obtain ⟨hheaders, hload⟩ := IndexSync.follows_node regtestSync
    RawNetworkMessage.documented_varInt regtest_apart regtestGenesis_mem .refl
    (Chain.path_new regtestGenesis) (sends_regtest hpath.linked) hrounds
    (show Scan s.rows s.rows from fun key _ => Iff.rfl)
  exact ⟨s, hrounds, hheaders, hload⟩

end PrunedElectrs
