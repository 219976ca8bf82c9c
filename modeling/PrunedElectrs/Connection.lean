/-
PrunedElectrs/Connection.lean

The calls of `Connection::for_blocks` on one connection.

The node answers a `getdata` in the order of the request and leaves out, without
a word, the blocks that it does not hold.  The answers wait in the channel, and
a call takes them from there by position only: it ends at the first answer that
is not the block asked for, with whatever the node sent behind it still in the
channel, and waits for ever where no answer is left.

`call_held` and `call_missing` say what becomes of a call on an empty channel.
From them `unpoisoned_iff` follows over whole runs: the calls keep apart exactly
as long as the node sends at most one block, of each batch, from the first block
on that it does not hold.
-/
import Mathlib.Data.List.TakeWhile
import PrunedElectrs.BlockTxs
import PrunedElectrs.Refinement
import PrunedElectrs.Lib.Runs

namespace PrunedElectrs

open Wire Effects Runs

/-! ### The node and the channel -/

/-- What the node sends for each block that is requested, if anything. -/
abbrev Serve := BlockHash → Option Bytes

/-- The replies on their way, each with the number of the call that asked for it. -/
abbrev Channel := List (ℕ × Bytes)

/-- The connection during call `i`.  A channel without replies is waited on. -/
def link (i : ℕ) (serve : Serve) (channel : Channel) :
    (op : DaemonOp) → Option (op.Reply × Channel)
  | .sendGetData hashes => some (.ok (), channel ++ (hashes.filterMap serve).map fun b => (i, b))
  | .recvBlock =>
      match channel with
      | [] => none
      | (_, block) :: rest => some (.ok block, rest)
  | .func _ _ => some ((), channel)
  -- `for_blocks` performs no other operation
  | _ => none

section Serving

variable (H : Hashes)

/-- The node holds the block: it sends bytes that begin with its header. -/
def holds (serve : Serve) (hash : BlockHash) : Bool :=
  match serve hash with
  | none => false
  | some block =>
      match AnyHeader.parse block with
      | .error _ => false
      | .ok header => header.blockHash H = hash

/-- What is sent for a block is not another block. -/
def OwnBlocks (serve : Serve) : Prop :=
  ∀ hash block hash', serve hash = some block → Names H block hash' → hash' = hash

/-- The blocks that the node sends, each with its hash. -/
def blocksOf (serve : Serve) (hashes : List BlockHash) : List (BlockHash × Bytes) :=
  hashes.filterMap fun hash => (serve hash).map fun block => (hash, block)

/-- From the first block on that the node does not hold, it sends at most one. -/
def AtMostOneBehind (serve : Serve) (hashes : List BlockHash) : Prop :=
  ((hashes.dropWhile (holds H serve)).filterMap serve).length ≤ 1

instance (serve : Serve) (hashes : List BlockHash) : Decidable (AtMostOneBehind H serve hashes) :=
  inferInstanceAs (Decidable (_ ≤ _))

/-- A call of `for_blocks`, with what it comes to and what it leaves in the
channel; none where it waits for ever. -/
def call (i : ℕ) (serve : Serve) (channel : Channel) (hashes : List BlockHash) :
    Option (Trace × Rust Unit × Channel) :=
  (Connection.forBlocks H hashes).await (link i serve) channel

end Serving

variable {H : Hashes} {i j : ℕ} {serve : Serve} {hash : BlockHash} {rest : List BlockHash}
  {block : Bytes} {channel : Channel}

theorem holds_iff : holds H serve hash ↔ ∃ block, serve hash = some block ∧ Names H block hash := by
  rw [holds]
  rcases serve hash with - | block
  · simp
  · rcases hp : AnyHeader.parse block with e | header
    · simp [hp, not_names_of_error H hp]
    · simp [hp, names_of_parse H hp]

/-! ### Receiving -/

variable (H) in
/-- What is done with an answer. -/
def checkBlock (hash : BlockHash) (rest : List BlockHash) (block : Bytes) : DaemonM Unit := do
  let header ← Prog.lift
    (context "peer returned an unparseable block header" (AnyHeader.parse block))
  Prog.lift (ensure (header.blockHash H = hash) "got unexpected block")
  ask (.func hash block)
  Connection.receiveBlocks H rest

theorem receiveBlocks_cons (hash : BlockHash) (rest : List BlockHash) :
    ∃ next, Connection.receiveBlocks H (hash :: rest) = .step .recvBlock next
      ∧ ∀ block, next (.ok block) = checkBlock H hash rest block :=
  ⟨_, rfl, fun _ => rfl⟩

/-- The block asked for is passed on. -/
theorem await_named (h : Names H block hash) :
    (Connection.receiveBlocks H (hash :: rest)).await (link i serve) ((j, block) :: channel)
      = ((Connection.receiveBlocks H rest).await (link i serve) channel).map fun x =>
          (⟨.recvBlock, .ok block⟩ :: ⟨.func hash block, ()⟩ :: x.1, x.2) := by
  obtain ⟨header, hp, hh⟩ := h
  obtain ⟨next, hnext, hblock⟩ := receiveBlocks_cons (H := H) hash rest
  have hgo : next (.ok block)
      = .step (.func hash block) fun _ => Connection.receiveBlocks H rest := by
    rw [hblock, checkBlock, context_eq_ok.mpr hp]
    show (Prog.lift (ensure (header.blockHash H = hash) "got unexpected block") >>= _) = _
    rw [ensure_of hh]
    rfl
  have hrecv : link i serve ((j, block) :: channel) .recvBlock = some (.ok block, channel) := rfl
  have hfunc : link i serve channel (.func hash block) = some ((), channel) := rfl
  rw [hnext, await_step hrecv, hgo, await_step hfunc, Option.map_map]
  rfl

/-- Any other answer ends the call. -/
theorem await_unnamed (h : ¬ Names H block hash) (i j : ℕ) (serve : Serve)
    (rest : List BlockHash) (channel : Channel) : ∃ chain,
    (Connection.receiveBlocks H (hash :: rest)).await (link i serve) ((j, block) :: channel)
      = some ([⟨.recvBlock, .ok block⟩], .error (.err chain), channel) := by
  obtain ⟨next, hnext, hblock⟩ := receiveBlocks_cons (H := H) hash rest
  have hgo : ∃ chain, next (.ok block) = .done (.error (.err chain)) := by
    rw [hblock, checkBlock]
    rcases AnyHeader.returns_parse block with ⟨header, hp⟩ | ⟨chain, hp⟩
    · rw [names_of_parse H hp] at h
      rw [context_eq_ok.mpr hp]
      show ∃ chain, (Prog.lift (ensure (header.blockHash H = hash) _) >>= _) = _
      rw [ensure_of_not h]
      exact ⟨_, rfl⟩
    · rw [hp]
      exact ⟨_, rfl⟩
  obtain ⟨chain, hgo⟩ := hgo
  have hrecv : link i serve ((j, block) :: channel) .recvBlock = some (.ok block, channel) := rfl
  refine ⟨chain, ?_⟩
  rw [hnext, await_step hrecv, hgo]
  rfl

theorem await_nothing :
    (Connection.receiveBlocks H (hash :: rest)).await (link i serve) [] = none := by
  obtain ⟨next, hnext, -⟩ := receiveBlocks_cons (H := H) hash rest
  rw [hnext]
  exact await_step_none rfl

/-- Blocks that the node holds are received one after the other. -/
theorem await_held {pre : List BlockHash} (hpre : ∀ hash ∈ pre, holds H serve hash)
    (rest : List BlockHash) (channel : Channel) :
    ∃ es, calls es = blocksOf serve pre ∧
      (Connection.receiveBlocks H (pre ++ rest)).await (link i serve)
          ((pre.filterMap serve).map (fun b => (i, b)) ++ channel)
        = ((Connection.receiveBlocks H rest).await (link i serve) channel).map fun x =>
            (es ++ x.1, x.2) := by
  induction pre with
  | nil => exact ⟨[], rfl, Option.map_id'.symm⟩
  | cons hash pre ih =>
      rw [List.forall_mem_cons] at hpre
      obtain ⟨block, hserve, hname⟩ := holds_iff.mp hpre.1
      obtain ⟨es, hcalls, hawait⟩ := ih hpre.2
      refine ⟨⟨.recvBlock, .ok block⟩ :: ⟨.func hash block, ()⟩ :: es, ?_, ?_⟩
      · have hfirst : blocksOf serve (hash :: pre) = (hash, block) :: blocksOf serve pre := by
          simp [blocksOf, hserve]
        rw [hfirst, ← hcalls]
        rfl
      · have hchannel : ((hash :: pre).filterMap serve).map (fun b => (i, b)) ++ channel
            = (i, block) :: ((pre.filterMap serve).map (fun b => (i, b)) ++ channel) := by
          simp [hserve]
        rw [hchannel, List.cons_append, await_named hname, hawait, Option.map_map]
        rfl

/-! ### A call on an empty channel -/

theorem call_eq {hashes : List BlockHash} (hne : hashes ≠ []) (channel : Channel) :
    call H i serve channel hashes
      = ((Connection.receiveBlocks H hashes).await (link i serve)
          (channel ++ (hashes.filterMap serve).map fun b => (i, b))).map fun x =>
            (⟨.sendGetData hashes, .ok ()⟩ :: x.1, x.2) := by
  have hempty : ¬ hashes.isEmpty := by rwa [List.isEmpty_iff]
  have hsend : link i serve channel (.sendGetData hashes)
      = some (.ok (), channel ++ (hashes.filterMap serve).map fun b => (i, b)) := rfl
  rw [call, Connection.forBlocks, if_neg hempty]
  exact await_step hsend

/-- A reply that an earlier call has left fails the next call, and the replies to
that one take its place. -/
theorem call_stale (h : ¬ Names H block hash) (serve : Serve) (rest : List BlockHash)
    (channel : Channel) : ∃ chain,
    call H i serve ((j, block) :: channel) (hash :: rest)
      = some ([⟨.sendGetData (hash :: rest), .ok ()⟩, ⟨.recvBlock, .ok block⟩],
        .error (.err chain),
        channel ++ ((hash :: rest).filterMap serve).map fun b => (i, b)) := by
  obtain ⟨chain, hrefused⟩ := await_unnamed h i j serve rest
    (channel ++ ((hash :: rest).filterMap serve).map fun b => (i, b))
  refine ⟨chain, ?_⟩
  rw [call_eq (by simp), List.cons_append, hrefused]
  rfl

/-- The requests up to the first block that the node does not hold, and from
there on. -/
theorem filterMap_split (hashes : List BlockHash) :
    (hashes.filterMap serve).map (fun b => (i, b))
      = ((hashes.takeWhile (holds H serve)).filterMap serve).map (fun b => (i, b))
        ++ ((hashes.dropWhile (holds H serve)).filterMap serve).map fun b => (i, b) := by
  rw [← List.map_append, ← List.filterMap_append, List.takeWhile_append_dropWhile]

theorem holds_of_mem_takeWhile (hashes : List BlockHash) :
    ∀ hash ∈ hashes.takeWhile (holds H serve), holds H serve hash :=
  fun _ h => List.mem_takeWhile_imp h

/-- A batch of blocks that the node holds is delivered, and nothing is left. -/
theorem call_held {hashes : List BlockHash} (hheld : ∀ hash ∈ hashes, holds H serve hash) :
    ∃ es, call H i serve [] hashes = some (es, .ok (), []) ∧ calls es = blocksOf serve hashes := by
  rcases hashes with - | ⟨hash, hashes⟩
  · exact ⟨[], rfl, rfl⟩
  · obtain ⟨es, hcalls, hawait⟩ := await_held (i := i) hheld [] []
    rw [List.append_nil, List.append_nil] at hawait
    refine ⟨⟨.sendGetData (hash :: hashes), .ok ()⟩ :: es, ?_, hcalls⟩
    rw [call_eq (by simp), List.nil_append, hawait]
    simp [Connection.receiveBlocks, Prog.await, pure]

/-- A batch that the node cannot give: the call waits for ever where nothing is
sent from the first missing block on, and else ends there, and leaves all of
that but the first reply. -/
theorem call_missing (hown : OwnBlocks H serve) {hashes rest : List BlockHash}
    (hrest : hashes.dropWhile (holds H serve) = hash :: rest) :
    ((hash :: rest).filterMap serve = [] ∧ call H i serve [] hashes = none) ∨
      ∃ block later es chain, (hash :: rest).filterMap serve = block :: later
        ∧ call H i serve [] hashes = some (es, .error (.err chain), later.map fun b => (i, b)) := by
  have hmissing : ¬ holds H serve hash := by
    have hhead := List.head?_dropWhile_not (holds H serve) hashes
    rw [hrest] at hhead
    exact Bool.not_eq_true _ ▸ hhead
  have hne : hashes ≠ [] := by
    rintro rfl
    cases hrest
  have hsplit : hashes = hashes.takeWhile (holds H serve) ++ (hash :: rest) := by
    rw [← hrest, List.takeWhile_append_dropWhile]
  obtain ⟨es, -, hawait⟩ := await_held (i := i) (holds_of_mem_takeWhile hashes)
    (hash :: rest) (((hash :: rest).filterMap serve).map fun b => (i, b))
  rw [← hsplit] at hawait
  rw [call_eq hne, List.nil_append, filterMap_split (H := H), hrest, hawait]
  rcases hsent : (hash :: rest).filterMap serve with - | ⟨block, later⟩
  · refine .inl ⟨rfl, ?_⟩
    rw [List.map_nil, await_nothing]
    rfl
  · -- the first reply was sent for some block of the rest, so it is not this one
    have hother : ¬ Names H block hash := by
      intro hname
      obtain ⟨hash', -, hserve⟩ := List.mem_filterMap.mp (hsent ▸ List.mem_cons_self)
      obtain rfl := hown hash' block hash hserve hname
      exact hmissing (holds_iff.mpr ⟨block, hserve, hname⟩)
    obtain ⟨chain, hrefused⟩ := await_unnamed hother i i serve rest (later.map fun b => (i, b))
    refine .inr ⟨block, later,
      ⟨.sendGetData hashes, .ok ()⟩ :: (es ++ [⟨.recvBlock, .ok block⟩]), chain, rfl, ?_⟩
    rw [List.map_cons, hrefused]
    rfl

/-! ### The calls on one connection -/

/-- A connection between two calls: how many were made, and what they have left. -/
structure ConnectionState where
  made : ℕ
  channel : Channel

/-- A call that has returned. -/
structure Returned where
  index : ℕ
  serve : Serve
  hashes : List BlockHash
  result : Rust Unit
  left : Channel

variable (H) in
/-- A call that returns.  One that waits for ever keeps the connection to itself. -/
inductive ConnectionState.Step : ConnectionState → List Returned → ConnectionState → Prop
  | call {s : ConnectionState} {serve : Serve} {hashes : List BlockHash} {es : Trace}
      {r : Rust Unit} {left : Channel} : OwnBlocks H serve →
      call H s.made serve s.channel hashes = some (es, r, left) →
      Step s [⟨s.made, serve, hashes, r, left⟩] ⟨s.made + 1, left⟩

/-- A new connection. -/
def ConnectionState.Init (s : ConnectionState) : Prop := s = ⟨0, []⟩

variable (H) in
/-- The calls keep apart: one that fails leaves none of its replies behind, and
a batch of blocks that the node holds is delivered whenever it is asked for. -/
structure Unpoisoned (es : List Returned) (s : ConnectionState) : Prop where
  nothing_left : ∀ e ∈ es, e.result ≠ .ok () → ∀ m ∈ e.left, m.1 ≠ e.index
  held_delivered : ∀ serve hashes, OwnBlocks H serve → (∀ hash ∈ hashes, holds H serve hash) →
    ∃ es', call H s.made serve s.channel hashes = some (es', .ok (), [])
      ∧ calls es' = blocksOf serve hashes

variable {es : List Returned} {s : ConnectionState}

/-- A call on an empty channel empties it exactly when at most one reply comes
from the first missing block on; else it fails and leaves replies of its own. -/
theorem call_cases {hashes : List BlockHash} (hown : OwnBlocks H serve) {tr : Trace}
    {r : Rust Unit} {left : Channel} (h : call H i serve [] hashes = some (tr, r, left)) :
    (AtMostOneBehind H serve hashes ∧ left = []) ∨
      ¬ AtMostOneBehind H serve hashes ∧ r ≠ .ok () ∧ ∃ m ∈ left, m.1 = i := by
  rcases hrest : hashes.dropWhile (holds H serve) with - | ⟨hash, rest⟩
  · have hheld : ∀ hash ∈ hashes, holds H serve hash := List.dropWhile_eq_nil_iff.mp hrest
    obtain ⟨es, hcall, -⟩ := call_held (i := i) hheld
    rw [hcall] at h
    cases h
    refine .inl ⟨?_, rfl⟩
    rw [AtMostOneBehind, hrest]
    exact Nat.zero_le 1
  · rw [AtMostOneBehind, hrest]
    rcases call_missing (i := i) hown hrest with ⟨-, hwaits⟩ |
      ⟨block, later, es, chain, hsent, hcall⟩
    · rw [hwaits] at h
      cases h
    · rw [hcall] at h
      cases h
      rw [hsent]
      rcases later with - | ⟨block', later⟩
      · exact .inl ⟨le_rfl, rfl⟩
      · exact .inr ⟨by simp, by simp, (i, block'), List.mem_cons_self, rfl⟩

/-- As long as no call leaves replies of its own, the channel is empty between
the calls. -/
theorem run_cases (h : Run ConnectionState.Init (ConnectionState.Step H) es s) :
    ((∀ e ∈ es, AtMostOneBehind H e.serve e.hashes ∧ e.left = []) ∧ s.channel = []) ∨
      ∃ e ∈ es, ¬ AtMostOneBehind H e.serve e.hashes
        ∧ e.result ≠ .ok () ∧ ∃ m ∈ e.left, m.1 = e.index := by
  induction h with
  | init hs =>
      cases hs
      exact .inl ⟨List.forall_mem_nil _, rfl⟩
  | step _ hstep ih =>
      cases hstep with
      | call hown hcall =>
          rcases ih with ⟨hall, hempty⟩ | ⟨e, he, hbad⟩
          · rw [hempty] at hcall
            rcases call_cases hown hcall with ⟨hone, hleft⟩ | ⟨hnot, hfailed, m, hm, hindex⟩
            · refine .inl ⟨?_, hleft⟩
              exact List.forall_mem_append.mpr ⟨hall, List.forall_mem_singleton.mpr ⟨hone, hleft⟩⟩
            · exact .inr ⟨_, List.mem_append_right _ (List.mem_singleton_self _), hnot, hfailed,
                m, hm, hindex⟩
          · exact .inr ⟨e, List.mem_append_left _ he, hbad⟩

/-- **The calls keep apart exactly as long as the node sends at most one block of
each batch from the first on that it does not hold.** -/
theorem unpoisoned_iff (h : Run ConnectionState.Init (ConnectionState.Step H) es s) :
    Unpoisoned H es s ↔ ∀ e ∈ es, AtMostOneBehind H e.serve e.hashes := by
  rcases run_cases h with ⟨hall, hempty⟩ | ⟨e, he, hnot, hfailed, m, hm, hindex⟩
  · refine iff_of_true ⟨fun e he _ m hm => ?_, fun serve hashes _ hheld => ?_⟩
      fun e he => (hall e he).1
    · rw [(hall e he).2] at hm
      cases hm
    · rw [hempty]
      exact call_held hheld
  · refine iff_of_false (fun hunpoisoned => ?_) fun hall => hnot (hall e he)
    exact hunpoisoned.nothing_left e he hfailed m hm hindex

/-! ### A node that has pruned its first block -/

/-- Bytes begin with one header, so they are the block of one hash. -/
theorem ownBlocks_of_names (h : ∀ hash block, serve hash = some block → Names H block hash) :
    OwnBlocks H serve := by
  intro hash block hash' hserve ⟨header', hp', hname'⟩
  obtain ⟨header, hp, hname⟩ := h hash block hserve
  cases hp.symm.trans hp'
  exact hname'.symm.trans hname

/-- The hash of block 19 of regtest. -/
def block19Hash : BlockHash := regtestHeader19.blockHash knownHashes

/-- Block 1 without its transactions. -/
def servedBlock1 : Bytes := (AnyHeader.v1 regtestBlock1).serialize ++ [0]

/-- That block, as a peer sends it. -/
def servedBlock19 : Bytes :=
  (AnyHeader.v1 regtestHeader19).serialize ++ (compactSize 1 ++ regtestTx19)

/-- Blocks 1 and 19, and no other. -/
def servePruned (hash : BlockHash) : Option Bytes :=
  if hash = block1Hash then some servedBlock1
  else if hash = block19Hash then some servedBlock19
  else none

theorem names_servedBlock1 : Names knownHashes servedBlock1 block1Hash := by
  have hstream : (AnyHeader.v1 regtestBlock1).Streamable := by decide +kernel
  exact names_append hstream _

theorem names_servedBlock19 : Names knownHashes servedBlock19 block19Hash := by
  have hstream : (AnyHeader.v1 regtestHeader19).Streamable := by decide +kernel
  exact names_append hstream _

theorem ownBlocks_servePruned : OwnBlocks knownHashes servePruned := by
  refine ownBlocks_of_names fun hash block hserve => ?_
  rw [servePruned] at hserve
  split_ifs at hserve with h1 h19
  · cases hserve
    exact h1 ▸ names_servedBlock1
  · cases hserve
    exact h19 ▸ names_servedBlock19

theorem hashes_pruned_ne : genesisHash ≠ block1Hash ∧ genesisHash ≠ block19Hash
    ∧ block19Hash ≠ block1Hash := by
  decide +kernel

theorem servePruned_genesis : servePruned genesisHash = none := by
  rw [servePruned, if_neg hashes_pruned_ne.1, if_neg hashes_pruned_ne.2.1]

theorem servePruned_block1 : servePruned block1Hash = some servedBlock1 := if_pos rfl

theorem servePruned_block19 : servePruned block19Hash = some servedBlock19 := by
  rw [servePruned, if_neg hashes_pruned_ne.2.2, if_pos rfl]

theorem missing_genesis (rest : List BlockHash) :
    (genesisHash :: rest).dropWhile (holds knownHashes servePruned) = genesisHash :: rest := by
  have hmissing : ¬ holds knownHashes servePruned genesisHash := by
    simp [holds, servePruned_genesis]
  rw [List.dropWhile_cons_of_neg hmissing]

/-- A batch that begins with the pruned block, on a new connection. -/
theorem run_pruned {rest : List BlockHash} {block : Bytes} {later : List Bytes}
    (h : (genesisHash :: rest).filterMap servePruned = block :: later) :
    ∃ chain, Run ConnectionState.Init (ConnectionState.Step knownHashes)
      [⟨0, servePruned, genesisHash :: rest, .error (.err chain), later.map fun b => (0, b)⟩]
      ⟨1, later.map fun b => (0, b)⟩ := by
  rcases call_missing (i := 0) ownBlocks_servePruned (missing_genesis rest) with ⟨hnone, -⟩ |
    ⟨block', later', es, chain, hsent, hcall⟩
  · rw [h] at hnone
    cases hnone
  · cases h.symm.trans hsent
    have hnew : ConnectionState.Init ⟨0, []⟩ := rfl
    exact ⟨chain, (Run.init hnew).step (.call ownBlocks_servePruned hcall)⟩

theorem unpoisoned_iff_pruned : ∃ chain, Unpoisoned knownHashes
    [⟨0, servePruned, [genesisHash, block1Hash], .error (.err chain), []⟩] ⟨1, []⟩ := by
  have hsent : [genesisHash, block1Hash].filterMap servePruned = [servedBlock1] := by
    simp [servePruned_genesis, servePruned_block1]
  obtain ⟨chain, hrun⟩ := run_pruned hsent
  refine ⟨chain, (unpoisoned_iff hrun).mpr (List.forall_mem_singleton.mpr ?_)⟩
  rw [AtMostOneBehind, missing_genesis, hsent]
  exact le_rfl

/-- One block more, and the call leaves a reply: the next call gets block 19 for
block 1, which the node holds. -/
theorem not_unpoisoned_pruned : ∃ es s,
    Run ConnectionState.Init (ConnectionState.Step knownHashes) es s
    ∧ ¬ Unpoisoned knownHashes es s ∧ holds knownHashes servePruned block1Hash
    ∧ ∃ tr chain left, call knownHashes s.made servePruned s.channel [block1Hash]
        = some (tr, .error (.err chain), left) := by
  have hsent : [genesisHash, block1Hash, block19Hash].filterMap servePruned
      = [servedBlock1, servedBlock19] := by
    simp [servePruned_genesis, servePruned_block1, servePruned_block19]
  have hheld : holds knownHashes servePruned block1Hash :=
    holds_iff.mpr ⟨_, servePruned_block1, names_servedBlock1⟩
  have hother : ¬ Names knownHashes servedBlock19 block1Hash := fun hname =>
    hashes_pruned_ne.2.2 (ownBlocks_servePruned _ _ _ servePruned_block19 hname).symm
  obtain ⟨chain, hrun⟩ := run_pruned hsent
  obtain ⟨chain', hstale⟩ := call_stale hother servePruned [] []
  refine ⟨_, _, hrun, fun hunpoisoned => ?_, hheld, _, chain', _, hstale⟩
  exact hunpoisoned.nothing_left _ (List.mem_singleton_self _) (by simp) _
    (List.mem_singleton_self _) rfl

end PrunedElectrs
