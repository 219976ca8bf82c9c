/-
PrunedElectrs/Store.lean

The header rows in the database, and reloading the chain from them.

A block's header row is the key `HeaderRow.toDbRow`, 80 or 164 bytes; rows are
never deleted, so the rows of abandoned branches stay.  The same column family
holds the tip row under a one-byte key.  `Index.load` reads every key of a
header's length, decodes it by its length alone, and rebuilds the chain by
walking back from the stored tip.

`Server.Step` is the system around it: rounds of indexing, each extending or
replacing a suffix of the chain, written batch by batch, with a crash possible
between any two batches.  The invariant (`Server.Inv`) is that every ancestor
of the stored tip is stored; it is kept by every step although the chain in
memory, the round under way and the tip may be on three different branches.
`reload_exact` is the result: from every reachable state, reloading gives
exactly the path to the stored tip.
-/
import PrunedElectrs.Chain

namespace PrunedElectrs

open Wire HashLinked

/-! ### Header rows -/

namespace HeaderRow

/-- A header as a row of the database. -/
def toDbRow (header : AnyHeader) : Bytes := header.serialize

/-- Decode a row read back from our own database. -/
def fromDbRow (row : Bytes) : Rust AnyHeader := expect "bad HeaderRow" (AnyHeader.parseExact row)

end HeaderRow

/-- The keys `HeaderIterator` yields, of all those in the column family. -/
def iterHeaders : List Bytes → List Bytes
  | [] => []
  | key :: raw =>
      if key.length = headerV1Size ∨ key.length = headerV2Size then key :: iterHeaders raw
      else iterHeaders raw

/-- What a batch puts into the `headers` column family. -/
structure WriteBatch where
  headerRows : List Bytes
  tipRow : Bytes

/-- A batch with nothing in it. -/
def WriteBatch.default : WriteBatch where
  headerRows := []
  tipRow := zeros 32

/-- The header row and the tip row of one block. -/
def indexSingleBlock (batch : WriteBatch) (blockHash : BlockHash) (block : Bytes) :
    Rust WriteBatch := do
  let header ← expect "core returned an unparseable block header" (AnyHeader.parse block)
  return { headerRows := batch.headerRows ++ [HeaderRow.toDbRow header]
           tipRow := blockHash.toList }

/-- The batch of a chunk of blocks. -/
def indexBlocks (blocks : List (BlockHash × Bytes)) : Rust WriteBatch :=
  blocks.foldlM (fun batch p => indexSingleBlock batch p.1 p.2) WriteBatch.default

/-- Reopening the database: `raw` are the keys of the column family as the
iterator meets them, `tip` the value of the tip row. -/
def Index.load (H : Hashes) (genesis : HeaderV1) (reindexLastBlocks : ℕ) (raw : List Bytes)
    (tip : Option Bytes) : Rust Chain :=
  match tip with
  | none => .ok (Chain.new H genesis)
  | some row => do
      let tip ← expect "invalid tip" (deserializeHash row)
      let headers ← (iterHeaders raw).mapM HeaderRow.fromDbRow
      let chain ← (Chain.new H genesis).load H headers tip
      chain.dropLastHeaders H reindexLastBlocks

/-! ### The server and its database -/

/-- The database, the chain in memory, and the round under way. -/
structure Server where
  rows : List Bytes
  tipRow : Option Bytes
  chain : Chain
  /-- The headers of the round, and those whose blocks are still to be written. -/
  round : List NewHeader
  pending : List NewHeader

/-- The keys of the column family: the header rows, in any order, among any
keys of other lengths. -/
def Scan (rows raw : List Bytes) : Prop :=
  ∀ key : Bytes, key.length = headerV1Size ∨ key.length = headerV2Size → (key ∈ raw ↔ key ∈ rows)

/-- The bytes are a block for the hash. -/
def BlockFor (H : Hashes) (U : Set AnyHeader) (hash : BlockHash) (block : Bytes) : Prop :=
  ∃ h ∈ U, AnyHeader.parse block = .ok h ∧ h.blockHash H = hash

section System

variable (H : Hashes) (genesis : HeaderV1)

/-- A server with an empty database. -/
def Server.init : Server where
  rows := []
  tipRow := none
  chain := Chain.new H genesis
  round := []
  pending := []

/-- One step of the system, on headers from `U`. -/
inductive Server.Step (U : Set AnyHeader) : Server → Server → Prop
  /-- A message with new headers starts a round. -/
  | begin {s : Server} {msg : List AnyHeader} {new : List NewHeader} :
      s.round = [] → s.pending = [] → msg.IsChain (Chain.Link H) → (∀ a ∈ msg, a ∈ U) →
      s.chain.getNewHeaders H msg = .ok new →
      Step U s { s with round := new, pending := new }
  /-- The next chunk of blocks is indexed and written. -/
  | batch {s : Server} {chunk later : List NewHeader} {blocks : List Bytes}
      {batch : WriteBatch} :
      s.pending = chunk ++ later → chunk ≠ [] →
      List.Forall₂ (fun (h : NewHeader) b => BlockFor H U h.hash b) chunk blocks →
      indexBlocks ((chunk.map NewHeader.hash).zip blocks) = .ok batch →
      Step U s { s with rows := s.rows ++ batch.headerRows, tipRow := some batch.tipRow
                        pending := later }
  /-- All blocks of the round are written. -/
  | finish {s : Server} {chain : Chain} :
      s.pending = [] → s.chain.update s.round = .ok chain →
      Step U s { s with chain := chain, round := [] }
  /-- A crash, at any point between two writes, and a restart. -/
  | restart {s : Server} {chain : Chain} {raw : List Bytes} {reindexLastBlocks : ℕ} :
      Scan s.rows raw → Index.load H genesis reindexLastBlocks raw s.tipRow = .ok chain →
      Step U s { s with chain := chain, round := [], pending := [] }

/-- The states a run of any length leads to. -/
abbrev Server.Reachable (U : Set AnyHeader) : Server → Prop :=
  Relation.ReflTransGen (Server.Step H genesis U) (Server.init H genesis)

/-- `P` is the header path from genesis to the block the tip row names. -/
structure IsPathTo (U : Set AnyHeader) (tip : Bytes) (P : List AnyHeader) : Prop where
  head : P.head? = some (.v1 genesis)
  linked : P.IsChain (Chain.Link H)
  mem : ∀ a ∈ P, a ∈ U
  last : P.getLast?.map (fun a => (a.blockHash H).toList) = some tip

/-- Every header of the list but genesis has its row. -/
def Stored (rows : List Bytes) (L : List AnyHeader) : Prop :=
  ∀ a ∈ L, a = .v1 genesis ∨ (a.Streamable ∧ HeaderRow.toDbRow a ∈ rows)

/-- The round under way attaches to the chain at height `i`, and the blocks of
`done` are written. -/
structure InRound (U : Set AnyHeader) (s : Server) (L done later : List AnyHeader) (i : ℕ) :
    Prop where
  attach : i < L.length
  round : s.round = Chain.number H (i + 1) (done ++ later)
  pending : s.pending = Chain.number H (i + 1 + done.length) later
  linked : (L.take (i + 1) ++ (done ++ later)).IsChain (Chain.Link H)
  mem : ∀ a ∈ done ++ later, a ∈ U
  stored : Stored genesis s.rows done

/-- The invariant of the system. -/
structure Server.Inv (U : Set AnyHeader) (s : Server) : Prop where
  /-- The chain in memory is stored. -/
  chain : ∃ L, Chain.Path H genesis s.chain L ∧ (∀ a ∈ L, a ∈ U) ∧ Stored genesis s.rows L
    ∧ ((s.round = [] ∧ s.pending = []) ∨ ∃ done later i, InRound H genesis U s L done later i)
  /-- Every row is that of a header the stream format can carry. -/
  rows : ∀ row ∈ s.rows, ∃ a ∈ U, a.Streamable ∧ row = HeaderRow.toDbRow a
  /-- Every ancestor of the stored tip is stored. -/
  tip : ∀ tip, s.tipRow = some tip → ∃ P, IsPathTo H genesis U tip P ∧ Stored genesis s.rows P

end System

/-! ### Reading rows back -/

theorem mem_iterHeaders {raw : List Bytes} {key : Bytes} :
    key ∈ iterHeaders raw
      ↔ key ∈ raw ∧ (key.length = headerV1Size ∨ key.length = headerV2Size) := by
  induction raw with
  | nil => simp [iterHeaders]
  | cons k raw ih =>
      rw [iterHeaders]
      split_ifs with hk
      · rw [List.mem_cons, ih, List.mem_cons]
        constructor
        · rintro (rfl | ⟨hmem, hlen⟩)
          · exact ⟨.inl rfl, hk⟩
          · exact ⟨.inr hmem, hlen⟩
        · rintro ⟨rfl | hmem, hlen⟩
          · exact .inl rfl
          · exact .inr ⟨hmem, hlen⟩
      · rw [ih, List.mem_cons]
        constructor
        · rintro ⟨hmem, hlen⟩
          exact ⟨.inr hmem, hlen⟩
        · rintro ⟨rfl | hmem, hlen⟩
          · exact absurd hlen hk
          · exact ⟨hmem, hlen⟩

theorem length_toDbRow (a : AnyHeader) :
    (HeaderRow.toDbRow a).length = headerV1Size ∨ (HeaderRow.toDbRow a).length = headerV2Size := by
  rw [HeaderRow.toDbRow, AnyHeader.length_serialize]
  cases a with
  | v1 h => exact .inl rfl
  | v2 h => exact .inr rfl

theorem fromDbRow_toDbRow {a : AnyHeader} (ha : a.Streamable) :
    HeaderRow.fromDbRow (HeaderRow.toDbRow a) = .ok a := by
  rw [HeaderRow.fromDbRow, HeaderRow.toDbRow]
  cases a with
  | v1 h => rw [AnyHeader.parseExact_serialize_v1]; rfl
  | v2 h => rw [AnyHeader.parseExact_serialize_v2 ha]; rfl

theorem toDbRow_inj {a b : AnyHeader} (ha : a.Streamable) (hb : b.Streamable)
    (h : HeaderRow.toDbRow a = HeaderRow.toDbRow b) : a = b := by
  have e := fromDbRow_toDbRow ha
  rw [h, fromDbRow_toDbRow hb] at e
  cases e
  rfl

variable {H : Hashes} {genesis : HeaderV1} {U : Set AnyHeader}

/-- The headers a scan yields are those of the rows. -/
theorem mapM_fromDbRow {rows raw : List Bytes} (hscan : Scan rows raw)
    (hrows : ∀ row ∈ rows, ∃ a ∈ U, a.Streamable ∧ row = HeaderRow.toDbRow a) :
    ∃ headers, (iterHeaders raw).mapM HeaderRow.fromDbRow = .ok headers
      ∧ (∀ a ∈ headers, a ∈ U)
      ∧ ∀ a, a.Streamable → HeaderRow.toDbRow a ∈ rows → a ∈ headers := by
  have hkeys : ∀ key ∈ iterHeaders raw, ∃ a ∈ U, a.Streamable ∧ key = HeaderRow.toDbRow a := by
    intro key hkey
    obtain ⟨hmem, hlen⟩ := mem_iterHeaders.mp hkey
    exact hrows key ((hscan key hlen).mp hmem)
  have hback : ∀ a : AnyHeader, HeaderRow.toDbRow a ∈ rows →
      HeaderRow.toDbRow a ∈ iterHeaders raw := fun a ha =>
    mem_iterHeaders.mpr ⟨(hscan _ (length_toDbRow a)).mpr ha, length_toDbRow a⟩
  -- on the keys the iterator has yielded so far
  have hall : ∀ keys : List Bytes,
      (∀ key ∈ keys, ∃ a ∈ U, a.Streamable ∧ key = HeaderRow.toDbRow a) →
      ∃ headers, keys.mapM HeaderRow.fromDbRow = .ok headers ∧ (∀ a ∈ headers, a ∈ U)
        ∧ ∀ a, a.Streamable → HeaderRow.toDbRow a ∈ keys → a ∈ headers := by
    intro keys
    induction keys with
    | nil => exact fun _ => ⟨[], rfl, by simp, by simp⟩
    | cons key keys ih =>
        intro hk
        obtain ⟨a, haU, hstream, rfl⟩ := hk _ List.mem_cons_self
        obtain ⟨headers, hmap, hU, hmem⟩ := ih fun k hk' => hk k (List.mem_cons_of_mem _ hk')
        refine ⟨a :: headers, ?_, List.forall_mem_cons.mpr ⟨haU, hU⟩, ?_⟩
        · rw [List.mapM_cons, fromDbRow_toDbRow hstream, ok_bind, hmap, ok_bind]
          rfl
        · intro b hb hbmem
          rcases List.mem_cons.mp hbmem with e | hbmem
          · rw [toDbRow_inj hb hstream e]
            exact List.mem_cons_self
          · exact List.mem_cons_of_mem _ (hmem b hb hbmem)
  obtain ⟨headers, hmap, hU, hmem⟩ := hall _ hkeys
  exact ⟨headers, hmap, hU, fun a ha hrow => hmem a ha (hback a hrow)⟩

theorem IsPathTo.exists_tail {tip : Bytes} {P : List AnyHeader}
    (hP : IsPathTo H genesis U tip P) :
    ∃ p, P = .v1 genesis :: p
      ∧ tip =
        (((AnyHeader.v1 genesis :: p).getLast (List.cons_ne_nil _ _)).blockHash H).toList := by
  obtain ⟨hhead, -, -, hlast⟩ := hP
  cases P with
  | nil => cases hhead
  | cons g p =>
      obtain rfl : g = .v1 genesis := by simpa using hhead
      rw [List.getLast?_eq_some_getLast (List.cons_ne_nil _ _), Option.map_some,
        Option.some.injEq] at hlast
      exact ⟨p, rfl, hlast.symm⟩

/-- There is one path to a tip. -/
theorem IsPathTo.unique (hU : Chain.HashesApart H genesis U) {tip : Bytes} {P Q : List AnyHeader}
    (hP : IsPathTo H genesis U tip P) (hQ : IsPathTo H genesis U tip Q) : Q = P := by
  obtain ⟨p, rfl, hp⟩ := hP.exists_tail
  obtain ⟨q, rfl, hq⟩ := hQ.exists_tail
  have hhash := List.Vector.eq _ _ (hq.symm.trans hp)
  rw [eq_of_getLast_hash hU hQ.linked hP.linked hQ.mem hP.mem hhash]

/-- **Reloading finds the path**, whatever other rows and keys there are. -/
theorem Index.load_of_stored (hU : Chain.HashesApart H genesis U) {rows raw : List Bytes}
    (hscan : Scan rows raw)
    (hrows : ∀ row ∈ rows, ∃ a ∈ U, a.Streamable ∧ row = HeaderRow.toDbRow a)
    {tip : Bytes} {P : List AnyHeader} (hP : IsPathTo H genesis U tip P)
    (hstored : Stored genesis rows P) (n : ℕ) :
    ∃ c, Index.load H genesis n raw (some tip) = .ok c
      ∧ Chain.Path H genesis c (P.take (max 1 (P.length - n))) := by
  obtain ⟨headers, hmap, hhU, hmem⟩ := mapM_fromDbRow hscan hrows
  have hlinked := hP.linked
  have hPU := hP.mem
  obtain ⟨p, rfl, rfl⟩ := hP.exists_tail
  have hnodup := nodup_of_isChain hlinked (Chain.apart_of_subset hU hPU)
  have hp : ∀ a ∈ p, a ∈ headers := by
    intro a ha
    -- genesis is the one header of the path that has no row
    rcases hstored a (List.mem_cons_of_mem _ ha) with rfl | ⟨hstream, hrow⟩
    · exact absurd ha (List.nodup_cons.mp hnodup).1
    · exact hmem a hstream hrow
  obtain ⟨c, hload, hpath⟩ := Chain.load_new hU hlinked hPU hhU hp
  obtain ⟨c', hdrop, hpath'⟩ := hpath.dropLastHeaders hU hPU n
  refine ⟨c', ?_, hpath'⟩
  have htip : deserializeHash
      (((AnyHeader.v1 genesis :: p).getLast (List.cons_ne_nil _ _)).blockHash H).toList
        = .ok (((AnyHeader.v1 genesis :: p).getLast (List.cons_ne_nil _ _)).blockHash H) := by
    rw [deserializeHash, dif_pos (List.Vector.toList_length _)]
    rfl
  rw [Index.load, htip]
  show (((iterHeaders raw).mapM HeaderRow.fromDbRow) >>= _) = _
  rw [hmap, ok_bind, hload, ok_bind, hdrop]

/-! ### The invariant -/

theorem Stored.mono {rows rows' : List Bytes} {L : List AnyHeader} (h : Stored genesis rows L)
    (hsub : ∀ row ∈ rows, row ∈ rows') : Stored genesis rows' L := by
  intro a ha
  rcases h a ha with hg | ⟨hstream, hrow⟩
  · exact .inl hg
  · exact .inr ⟨hstream, hsub _ hrow⟩

theorem Stored.append {rows : List Bytes} {L M : List AnyHeader} (h : Stored genesis rows L)
    (h' : Stored genesis rows M) : Stored genesis rows (L ++ M) := by
  intro a ha
  rcases List.mem_append.mp ha with ha | ha
  · exact h a ha
  · exact h' a ha

theorem Stored.take {rows : List Bytes} {L : List AnyHeader} (h : Stored genesis rows L) (k : ℕ) :
    Stored genesis rows (L.take k) := fun a ha => h a (List.mem_of_mem_take ha)

theorem inv_init (hg : .v1 genesis ∈ U) : (Server.init H genesis).Inv H genesis U where
  chain := by
    refine ⟨_, Chain.path_new genesis, by simpa using hg, ?_, .inl ⟨rfl, rfl⟩⟩
    intro a ha
    exact .inl (List.mem_singleton.mp ha)
  rows := by
    intro row hrow
    cases hrow
  tip := by
    intro tip htip
    cases htip

theorem indexSingleBlock_spec (hU : Chain.HashesApart H genesis U) {a : AnyHeader} (ha : a ∈ U)
    {block : Bytes} (hb : BlockFor H U (a.blockHash H) block) (batch : WriteBatch) :
    a.Streamable ∧ indexSingleBlock batch (a.blockHash H) block = .ok
      { headerRows := batch.headerRows ++ [HeaderRow.toDbRow a]
        tipRow := (a.blockHash H).toList } := by
  obtain ⟨h, hhU, hparse, hhash⟩ := hb
  obtain rfl : h = a := hU.inj hhU ha hhash
  refine ⟨(AnyHeader.parse_eq_ok_iff.mp hparse).1, ?_⟩
  rw [indexSingleBlock, hparse]
  rfl

/-- The blocks for the headers `now` write their rows, and the tip row names
the last of them. -/
theorem foldlM_indexSingleBlock (hU : Chain.HashesApart H genesis U) {now : List AnyHeader}
    {blocks : List Bytes}
    (hblocks : List.Forall₂ (fun a b => BlockFor H U (AnyHeader.blockHash H a) b) now blocks)
    (hnowU : ∀ a ∈ now, a ∈ U) (batch : WriteBatch) :
    (∀ a ∈ now, a.Streamable) ∧
    ((now.map (AnyHeader.blockHash H)).zip blocks).foldlM
        (fun batch p => indexSingleBlock batch p.1 p.2) batch = .ok
      { headerRows := batch.headerRows ++ now.map HeaderRow.toDbRow
        tipRow := (now.getLast?.map fun a => (a.blockHash H).toList).getD batch.tipRow } := by
  induction hblocks generalizing batch with
  | nil => exact ⟨by simp, by simp; rfl⟩
  | @cons a b now blocks hb _ ih =>
      obtain ⟨haU, hnowU⟩ := List.forall_mem_cons.mp hnowU
      obtain ⟨hstream, hblock⟩ := indexSingleBlock_spec hU haU hb batch
      obtain ⟨hstreams, hrest⟩ := ih hnowU { headerRows := batch.headerRows ++ [HeaderRow.toDbRow a]
                                             tipRow := (a.blockHash H).toList }
      refine ⟨List.forall_mem_cons.mpr ⟨hstream, hstreams⟩, ?_⟩
      rw [List.map_cons, List.zip_cons_cons, List.foldlM_cons, hblock, ok_bind, hrest]
      -- the tip row is written by every block, so the last one stands
      cases now with
      | nil => simp
      | cons a' now =>
          obtain ⟨x, hx⟩ : ∃ x, (a' :: now).getLast? = some x :=
            ⟨_, List.getLast?_eq_some_getLast (List.cons_ne_nil _ _)⟩
          simp [List.getLast?_cons_cons, hx]

theorem indexBlocks_spec (hU : Chain.HashesApart H genesis U) {now : List AnyHeader}
    (hnowU : ∀ a ∈ now, a ∈ U) {blocks : List Bytes} {start : ℕ}
    (hblocks : List.Forall₂ (fun (h : NewHeader) b => BlockFor H U h.hash b)
      (Chain.number H start now) blocks) :
    (∀ a ∈ now, a.Streamable) ∧
    indexBlocks (((Chain.number H start now).map NewHeader.hash).zip blocks) = .ok
      { headerRows := now.map HeaderRow.toDbRow
        tipRow := (now.getLast?.map fun a => (a.blockHash H).toList).getD (zeros 32) } := by
  rw [← List.forall₂_map_left_iff (f := NewHeader.hash) (R := fun k b => BlockFor H U k b),
    Chain.map_hash_number, List.forall₂_map_left_iff] at hblocks
  obtain ⟨hstream, hfold⟩ := foldlM_indexSingleBlock hU hblocks hnowU WriteBatch.default
  refine ⟨hstream, ?_⟩
  rw [Chain.map_hash_number, indexBlocks, hfold]
  rfl

section Steps

variable (hU : Chain.HashesApart H genesis U)

/-- A round that starts attaches to the chain. -/
theorem inRound_begin {s : Server} {L msg : List AnyHeader} {new : List NewHeader}
    (hL : Chain.Path H genesis s.chain L) (hmsg : msg.IsChain (Chain.Link H))
    (hmsgU : ∀ a ∈ msg, a ∈ U) (e : s.chain.getNewHeaders H msg = .ok new) :
    (new = [] ∨ ∃ i, InRound H genesis U { s with round := new, pending := new } L [] msg i) := by
  cases msg with
  | nil =>
      cases e
      exact .inl rfl
  | cons first rest =>
      rw [Chain.getNewHeaders] at e
      simp only [List.head?_cons, Chain.getBlockHeight] at e
      rcases hi : s.chain.heights first.prevBlockhash with - | i
      · simp only [hi] at e
        cases e
      simp only [hi] at e
      cases e
      have hget := (hL.heights _ _).mp hi
      rw [List.getElem?_map, Option.map_eq_some_iff] at hget
      obtain ⟨x, hx, hxprev⟩ := hget
      refine .inr ⟨i, (List.getElem?_eq_some_iff.mp hx).1, rfl, rfl, ?_, hmsgU, ?_⟩
      · exact Chain.isChain_take_append hL.linked hx hxprev.symm hmsg
      · intro a ha
        cases ha

/-- What the written part of a round leads to is a path. -/
theorem InRound.isPathTo {s : Server} {L done later : List AnyHeader} {i : ℕ}
    (hround : InRound H genesis U s L done later i) (hhead : L.head? = some (.v1 genesis))
    (hLU : ∀ a ∈ L, a ∈ U) {tip : Bytes}
    (hlast : done.getLast?.map (fun a => (a.blockHash H).toList) = some tip) :
    IsPathTo H genesis U tip (L.take (i + 1) ++ done) where
  head := Chain.head_take_append (Nat.succ_pos i) hhead done
  linked := by
    have hlinked := hround.linked
    rw [← List.append_assoc] at hlinked
    exact hlinked.left_of_append
  mem := Chain.mem_take_append hLU (fun a ha => hround.mem a (List.mem_append_left _ ha)) _
  last := by
    rw [List.getLast?_append]
    rcases e : done.getLast? with - | a
    · rw [e] at hlast
      cases hlast
    · rw [e] at hlast
      exact hlast

include hU

/-- Writing a batch moves its headers from the pending to the written part. -/
theorem inv_batch {s : Server} (hs : s.Inv H genesis U) {chunk later : List NewHeader}
    {blocks : List Bytes} {batch : WriteBatch} (hpending : s.pending = chunk ++ later)
    (hne : chunk ≠ [])
    (hblocks : List.Forall₂ (fun (h : NewHeader) b => BlockFor H U h.hash b) chunk blocks)
    (hbatch : indexBlocks ((chunk.map NewHeader.hash).zip blocks) = .ok batch) :
    Server.Inv H genesis U { s with rows := s.rows ++ batch.headerRows
                                    tipRow := some batch.tipRow, pending := later } := by
  obtain ⟨L, hL, hLU, hLstored, ⟨-, hnil⟩ | ⟨done, rest, i, hround⟩⟩ := hs.chain
  · rw [hnil, eq_comm, List.append_eq_nil_iff] at hpending
    exact absurd hpending.1 hne
  rw [hround.pending] at hpending
  obtain ⟨now, rest, rfl, rfl, rfl⟩ := Chain.number_eq_append hpending
  have hnowU : ∀ a ∈ now, a ∈ U := fun a ha =>
    hround.mem a (List.mem_append_right _ (List.mem_append_left _ ha))
  obtain ⟨hstream, hspec⟩ := indexBlocks_spec hU hnowU hblocks
  rw [hspec] at hbatch
  cases hbatch
  have hold : ∀ row ∈ s.rows, row ∈ s.rows ++ now.map HeaderRow.toDbRow :=
    fun row hrow => List.mem_append_left _ hrow
  have hnow : Stored genesis (s.rows ++ now.map HeaderRow.toDbRow) now := fun a ha =>
    .inr ⟨hstream a ha, List.mem_append_right _ (List.mem_map_of_mem ha)⟩
  have hround' : InRound H genesis U
      { s with rows := s.rows ++ now.map HeaderRow.toDbRow
               tipRow := some ((now.getLast?.map fun a => (a.blockHash H).toList).getD (zeros 32))
               pending := Chain.number H (i + 1 + done.length + now.length) rest }
      L (done ++ now) rest i :=
    { attach := hround.attach
      round := by rw [List.append_assoc]; exact hround.round
      pending := by rw [List.length_append, Nat.add_assoc (i + 1)]
      linked := by rw [List.append_assoc]; exact hround.linked
      mem := by rw [List.append_assoc]; exact hround.mem
      stored := (hround.stored.mono hold).append hnow }
  refine ⟨⟨L, hL, hLU, hLstored.mono hold, .inr ⟨done ++ now, rest, i, hround'⟩⟩, ?_, ?_⟩
  · intro row hrow
    rcases List.mem_append.mp hrow with hrow | hrow
    · exact hs.rows row hrow
    · obtain ⟨a, ha, rfl⟩ := List.mem_map.mp hrow
      exact ⟨a, hnowU a ha, hstream a ha, rfl⟩
  · intro tip htip
    cases htip
    have hnowne : now ≠ [] := by
      rintro rfl
      exact hne rfl
    -- the tip row names the last block of the batch
    refine ⟨_, hround'.isPathTo hL.head hLU ?_, ((hLstored.mono hold).take _).append hround'.stored⟩
    rw [List.getLast?_append, List.getLast?_eq_some_getLast hnowne]
    rfl

/-- Finishing a round makes its path the chain. -/
theorem inv_finish {s : Server} (hs : s.Inv H genesis U) {chain : Chain}
    (hpending : s.pending = []) (e : s.chain.update s.round = .ok chain) :
    Server.Inv H genesis U { s with chain := chain, round := [] } := by
  refine ⟨?_, hs.rows, hs.tip⟩
  obtain ⟨L, hL, hLU, hLstored, ⟨hnil, -⟩ | ⟨done, later, i, hround⟩⟩ := hs.chain
  · rw [hnil] at e
    cases e
    exact ⟨L, hL, hLU, hLstored, .inl ⟨rfl, hpending⟩⟩
  have hlater : later = [] := by
    have := hround.pending.symm.trans hpending
    cases later with
    | nil => rfl
    | cons a later => simp [Chain.number] at this
  subst hlater
  rw [hround.round, List.append_nil] at e
  have hlinked := hround.linked
  have hmem := hround.mem
  rw [List.append_nil] at hlinked hmem
  -- a round without blocks leaves the chain alone
  by_cases hdone : done = []
  · subst hdone
    cases e
    exact ⟨L, hL, hLU, hLstored, .inl ⟨rfl, hpending⟩⟩
  have hnewU : ∀ a ∈ L.take (i + 1) ++ done, a ∈ U := Chain.mem_take_append hLU hmem _
  obtain ⟨c, hc, hpath⟩ := hL.update hdone hround.attach
    (Chain.head_take_append (Nat.succ_pos i) hL.head done) hlinked
    (Chain.apart_of_subset hU hLU) (Chain.apart_of_subset hU hnewU)
  rw [hc] at e
  cases e
  exact ⟨_, hpath, hnewU, (hLstored.take _).append hround.stored, .inl ⟨rfl, hpending⟩⟩

theorem inv_restart (hg : .v1 genesis ∈ U) {s : Server} (hs : s.Inv H genesis U) {chain : Chain}
    {raw : List Bytes} {n : ℕ} (hscan : Scan s.rows raw)
    (e : Index.load H genesis n raw s.tipRow = .ok chain) :
    Server.Inv H genesis U { s with chain := chain, round := [], pending := [] } := by
  refine ⟨?_, hs.rows, hs.tip⟩
  -- nothing was written, or the stored tip is reloaded
  rcases htip : s.tipRow with - | tip
  · rw [htip] at e
    cases e
    refine ⟨_, Chain.path_new genesis, by simpa using hg, ?_, .inl ⟨rfl, rfl⟩⟩
    intro a ha
    exact .inl (List.mem_singleton.mp ha)
  · obtain ⟨P, hP, hstored⟩ := hs.tip tip htip
    obtain ⟨c, hc, hpath⟩ := Index.load_of_stored hU hscan hs.rows hP hstored n
    rw [htip, hc] at e
    cases e
    exact ⟨_, hpath, fun a ha => hP.mem a (List.mem_of_mem_take ha), hstored.take _,
      .inl ⟨rfl, rfl⟩⟩

/-- Every step keeps the invariant. -/
theorem inv_step (hg : .v1 genesis ∈ U) {s s' : Server} (hs : s.Inv H genesis U)
    (hstep : Server.Step H genesis U s s') : s'.Inv H genesis U := by
  cases hstep with
  | begin hround hpending hmsg hmsgU e =>
      obtain ⟨L, hL, hLU, hLstored, -⟩ := hs.chain
      refine ⟨⟨L, hL, hLU, hLstored, ?_⟩, hs.rows, hs.tip⟩
      rcases inRound_begin hL hmsg hmsgU e with rfl | ⟨i, hi⟩
      · exact .inl ⟨rfl, rfl⟩
      · exact .inr ⟨[], _, i, hi⟩
  | batch hpending hne hblocks hbatch => exact inv_batch hU hs hpending hne hblocks hbatch
  | finish hpending e => exact inv_finish hU hs hpending e
  | restart hscan e => exact inv_restart hU hg hs hscan e

theorem inv_reachable (hg : .v1 genesis ∈ U) {s : Server}
    (hs : Server.Reachable H genesis U s) : s.Inv H genesis U := by
  induction hs with
  | refl => exact inv_init hg
  | tail _ hstep ih => exact inv_step hU hg ih hstep

end Steps

/-- **Crash-safe reload**: at any point of any run, reopening the database in
any key order yields the one header path from genesis to the stored tip, with
its heights, and rewinding it keeps a prefix. -/
theorem reload_exact (hU : Chain.HashesApart H genesis U) (hg : .v1 genesis ∈ U) {s : Server}
    (hs : Server.Reachable H genesis U s) {raw : List Bytes} (hscan : Scan s.rows raw) (n : ℕ) :
    (s.tipRow = none → Index.load H genesis n raw s.tipRow = .ok (Chain.new H genesis)) ∧
    ∀ tip, s.tipRow = some tip → ∃ P c,
      Index.load H genesis n raw s.tipRow = .ok c
      ∧ (IsPathTo H genesis U tip P ∧ ∀ Q, IsPathTo H genesis U tip Q → Q = P)
      ∧ c.headers = (P.take (max 1 (P.length - n))).map (Chain.entry H)
      ∧ Chain.Valid H genesis c := by
  have hinv := inv_reachable hU hg hs
  constructor
  · intro htip
    rw [htip]
    rfl
  · intro tip htip
    obtain ⟨P, hP, hstored⟩ := hinv.tip tip htip
    obtain ⟨c, hc, hpath⟩ := Index.load_of_stored hU hscan hinv.rows hP hstored n
    rw [htip]
    exact ⟨P, c, hc, ⟨hP, fun Q hQ => hP.unique hU hQ⟩, hpath.headers, hpath.valid⟩

/-- A server that has received the first regtest block and written its row. -/
def regtestServer : Server where
  rows := [HeaderRow.toDbRow (.v1 regtestBlock1)]
  tipRow := some (regtestBlock1.blockHash knownHashes).toList
  chain := Chain.new knownHashes regtestGenesis
  round := Chain.number knownHashes 1 [.v1 regtestBlock1]
  pending := []

theorem regtestServer_reachable :
    Server.Reachable knownHashes regtestGenesis regtestHeaders regtestServer := by
  have hi : (Chain.new knownHashes regtestGenesis).getBlockHeight
      (AnyHeader.v1 regtestBlock1).prevBlockhash = some 0 := by decide +kernel
  have hnew : (Server.init knownHashes regtestGenesis).chain.getNewHeaders knownHashes
      [.v1 regtestBlock1] = .ok (Chain.number knownHashes 1 [.v1 regtestBlock1]) := by
    rw [Server.init, Chain.getNewHeaders]
    simp only [List.head?_cons, hi]
  have hparse : AnyHeader.parse (AnyHeader.v1 regtestBlock1).serialize
      = .ok (.v1 regtestBlock1) := by
    have hp := AnyHeader.parse_serialize_append
      (show (AnyHeader.v1 regtestBlock1).Streamable by decide +kernel) []
    rwa [List.append_nil] at hp
  have hblocks : List.Forall₂
      (fun (h : NewHeader) b => BlockFor knownHashes regtestHeaders h.hash b)
      (Chain.number knownHashes 1 [.v1 regtestBlock1])
      [(AnyHeader.v1 regtestBlock1).serialize] :=
    .cons ⟨.v1 regtestBlock1, regtestBlock1_mem _ List.mem_cons_self, hparse, rfl⟩ .nil
  have hmsg : [AnyHeader.v1 regtestBlock1].IsChain (Chain.Link knownHashes) :=
    List.isChain_singleton _
  have hbegin := @Server.Step.begin knownHashes regtestGenesis regtestHeaders
    (Server.init knownHashes regtestGenesis) [.v1 regtestBlock1] _ rfl rfl hmsg
    regtestBlock1_mem hnew
  have hbatch : Server.Step knownHashes regtestGenesis regtestHeaders _ _ :=
    Server.Step.batch
      (s := { Server.init knownHashes regtestGenesis with
        round := Chain.number knownHashes 1 [.v1 regtestBlock1]
        pending := Chain.number knownHashes 1 [.v1 regtestBlock1] })
      (List.append_nil _).symm (List.cons_ne_nil _ _) hblocks
      (indexBlocks_spec regtest_apart regtestBlock1_mem hblocks).2
  exact (Relation.ReflTransGen.single hbegin).tail hbatch

/-- The iterator also meets the tip key, and the row before it. -/
theorem reload_exact_regtest : ∃ c,
    Index.load knownHashes regtestGenesis 0 [[0x54], HeaderRow.toDbRow (.v1 regtestBlock1)]
      regtestServer.tipRow = .ok c ∧ Chain.Valid knownHashes regtestGenesis c := by
  have hscan : Scan regtestServer.rows [[0x54], HeaderRow.toDbRow (.v1 regtestBlock1)] := by
    intro key hlen
    have htip : key ≠ [0x54] := by
      rintro rfl
      exact absurd hlen (by decide)
    rw [List.mem_cons, or_iff_right htip]
    rfl
  obtain ⟨P, c, hc, -, -, hvalid⟩ :=
    (reload_exact regtest_apart regtestGenesis_mem regtestServer_reachable hscan 0).2 _ rfl
  exact ⟨c, hc, hvalid⟩

end PrunedElectrs
