/-
PrunedElectrs/Daemon.lean

Fetching blocks from a pruned node.

A batch of block hashes is walked as maximal runs of blocks that are available
in the same way: at or above the prune height over p2p, with one `getdata` a
run; below it one by one, from the archival helper where there is one, else
over RPC with retries.

The code talks to a clock, the exit flag, two RPC clients, an atomic that other
calls share, the p2p connection and the caller's `func`.  `DaemonOp` lists these
operations and `DaemonM` is the code's monad, a program over them: nothing is
said here about who answers or when.  The two loops on the clock count their
rounds; running out of rounds is the outcome `diverge`.
-/
import Mathlib.Data.List.Infix
import PrunedElectrs.Stages
import PrunedElectrs.Lib.Effects

namespace PrunedElectrs

open Wire Effects

/-! ### What the daemon talks to -/

/-- A `Result` that comes from outside: a value, or the messages of an error. -/
abbrev Outside (α : Type) := Except (List String) α

/-- What `getblockchaininfo` says that is used here. -/
structure BlockchainInfo where
  /-- Absent from an archival node. -/
  pruneHeight : Option ℕ
deriving DecidableEq

/-- The two RPC clients: the node being indexed, and the archival helper. -/
inductive RpcClient where
  | bitcoind
  | helper
deriving DecidableEq

/-- What the code asks of the world around it. -/
inductive DaemonOp where
  /-- `Instant::now()`, in nanoseconds. -/
  | now
  | sleep (duration : ℕ)
  /-- `exit_flag.poll()`. -/
  | pollExit
  | getBlockchainInfo
  /-- A batch of `getblockheader`. -/
  | getBlockHeaders (hashes : List BlockHash)
  /-- `getblock <hash> 0`. -/
  | getBlock (client : RpcClient) (hash : BlockHash)
  /-- `helper_ceiling.load`. -/
  | loadCeiling
  /-- `helper_ceiling.swap`. -/
  | swapCeiling (height : ℕ)
  /-- One `getdata` with all these hashes. -/
  | sendGetData (hashes : List BlockHash)
  | recvBlock
  /-- The caller's `func`. -/
  | func (hash : BlockHash) (block : Bytes)
deriving DecidableEq

/-- What comes back from an operation. -/
@[reducible] def DaemonOp.Reply : DaemonOp → Type
  | now => ℕ
  | sleep _ => Unit
  | pollExit => Outside Unit
  | getBlockchainInfo => Outside BlockchainInfo
  -- one answer a request, or none; each is a height or an error
  | getBlockHeaders hashes => Outside (List.Vector (Option (Outside ℕ)) hashes.length)
  | getBlock _ _ => Outside (List Char)
  | loadCeiling => ℕ
  | swapCeiling _ => ℕ
  | sendGetData _ => Outside Unit
  | recvBlock => Outside Bytes
  | func _ _ => Unit

/-- The daemon's code. -/
abbrev DaemonM (α : Type) := Prog DaemonOp.Reply Fault α

/-- Perform one operation. -/
def ask (op : DaemonOp) : DaemonM op.Reply := Prog.perform op

/-- What happened in a call, in order. -/
abbrev Trace := List (Event DaemonOp.Reply)

/-- A result from outside, as the code propagates it. -/
def ofOutside {α : Type} : Outside α → Rust α
  | .ok a => .ok a
  | .error chain => .error (.err chain)

/-- `result.context(msg)`. -/
def withContext {α : Type} (msg : String) (x : DaemonM α) : DaemonM α := do
  Prog.lift (context msg (← x.capture))

/-! ### Retrying -/

/-- A second, in nanoseconds. -/
def second : ℕ := 1000000000

/-- How long indexing retries, in nanoseconds. -/
def retryBudgetIndexing : ℕ := 300 * second

/-- How long a query retries. -/
def retryBudgetQuery : ℕ := 10 * second

/-- The longest delay between two attempts. -/
def rpcRetryMaxDelay : ℕ := 30 * second

/-- The longest sleep between two looks at the exit flag. -/
def sleepSlice : ℕ := second / 4

/-- Wait in slices rather than one long sleep. -/
def waitUntil (until_ : ℕ) : (rounds : ℕ) → DaemonM Unit
  | 0 => Prog.throw .diverge
  | rounds + 1 => do
      withContext "interrupted while retrying bitcoind RPC" do
        Prog.lift (ofOutside (← ask .pollExit))
      let now ← ask .now
      if now ≥ until_ then return ()
      else do
        ask (.sleep (min sleepSlice (until_ - now)))
        waitUntil until_ rounds

/-- The loop of `retry_rpc`: the deadline is looked at after a failure only. -/
def retryLoop {α : Type} (what : String) (budget deadline : ℕ) (f : DaemonM α) :
    (rounds delay : ℕ) → DaemonM α
  | 0, _ => Prog.throw .diverge
  | rounds + 1, delay => do
      match ← f.capture with
      | .ok value => return value
      | .error (.err chain) =>
          if (← ask .now) ≥ deadline then
            Prog.throw (.err
              (s!"{what} still failing after {budget / second}s of retries" :: chain))
          else do
            let until_ := (← ask .now) + delay
            waitUntil until_ (delay / sleepSlice + 2)
            retryLoop what budget deadline f rounds (min (delay * 2) rpcRetryMaxDelay)
      | .error fault => Prog.throw fault

/-- Run an RPC that the pruned-block path depends on, retrying transient
failures with exponential backoff. -/
def retryRpc {α : Type} (what : String) (budget : ℕ) (f : DaemonM α) : DaemonM α := do
  let deadline := (← ask .now) + budget
  retryLoop what budget deadline f (budget / second + 2) second

/-! ### The RPCs -/

/-- Lowest height bitcoind still stores block data for. -/
def pruneHeight : DaemonM ℕ := do
  let info ← withContext "failed to get prune height" do
    Prog.lift (ofOutside (← ask .getBlockchainInfo))
  return info.pruneHeight.getD 0

/-- The height in one answer of the batch. -/
def heightOfAnswer (answer : Option (Outside ℕ)) (hash : BlockHash) : Rust ℕ :=
  match answer with
  | none => bail s!"no getblockheader response for {displayHash hash}"
  | some r => context s!"failed to get header for {displayHash hash}" (ofOutside r)

/-- Heights of the given blocks, in the order asked. -/
def blockHeights (blockhashes : List BlockHash) : DaemonM (List ℕ) := do
  let results ← Prog.lift (ofOutside (← ask (.getBlockHeaders blockhashes)))
  Prog.lift ((results.toList.zip blockhashes).mapM fun p => heightOfAnswer p.1 p.2)

/-- `getblock <hash> 0` against a given client. -/
def getBlockRawWith (client : RpcClient) (hash : BlockHash) : DaemonM Bytes := do
  let hex ← withContext "getblock failed" do
    Prog.lift (ofOutside (← ask (.getBlock client hash)))
  match ofHex hex with
  | some block => return block
  | none => Prog.throw (.err ["bitcoind returned a non-hex block"])

/-- The bytes of a block, from bitcoind. -/
def getBlockRawRpc (hash : BlockHash) : DaemonM Bytes := getBlockRawWith .bitcoind hash

/-- Is this the RPC error bitcoind gives for a block it has never heard of? -/
def isBlockNotFound (chain : List String) : Bool :=
  decide ("Block not found".toList <:+: (chainText chain).toList)

/-! ### The p2p connection -/

variable (H : Hashes)

namespace Connection

/-- Receive the blocks of a `getdata`, one reply a position. -/
def receiveBlocks : List BlockHash → DaemonM Unit
  | [] => return ()
  | hash :: rest => do
      let block ← withContext s!"failed to get block {displayHash hash}" do
        Prog.lift (ofOutside (← ask .recvBlock))
      let header ← Prog.lift
        (context "peer returned an unparseable block header" (AnyHeader.parse block))
      Prog.lift (ensure (header.blockHash H = hash) "got unexpected block")
      ask (.func hash block)
      receiveBlocks rest

/-- Request blocks over p2p and take them as they come. -/
def forBlocks (blockhashes : List BlockHash) : DaemonM Unit :=
  if blockhashes.isEmpty then return ()
  else do
    Prog.lift (ofOutside (← ask (.sendGetData blockhashes)))
    receiveBlocks H blockhashes

end Connection

/-! ### The daemon -/

/-- What is known of the nodes the server is connected to. -/
structure Daemon where
  /-- Is bitcoind pruning? -/
  pruned : Bool
  /-- Is there an archival helper? -/
  helper : Bool

namespace Daemon

/-- A pruned block read from the archival helper, or `none` to use the usual source. -/
def blockFromHelper (d : Daemon) (hash : BlockHash) (height : ℕ) : DaemonM (Option Bytes) :=
  if !d.helper then return none
  else do
    let ceiling ← ask .loadCeiling
    if height ≥ ceiling then return none
    else
      match ← (getBlockRawWith .helper hash).capture with
      | .ok block =>
          match AnyHeader.parse block with
          | .ok header => return if header.blockHash H = hash then some block else none
          | .error (.err _) => return none
          | .error fault => Prog.throw fault
      | .error (.err chain) =>
          if isBlockNotFound chain then do
            let _ ← ask (.swapCeiling height)
            return none
          else return none
      | .error fault => Prog.throw fault

/-- One pruned block: from the helper, or else over RPC. -/
def fetchPruned (d : Daemon) (budget : ℕ) (hash : BlockHash) (height : ℕ) : DaemonM Unit := do
  match ← d.blockFromHelper H hash height with
  | some block => ask (.func hash block)
  | none => do
      let block ← withContext (s!"failed to fetch pruned block {displayHash hash} over RPC; "
          ++ "an RPC provider that serves pruned blocks (e.g. btc-rpc-proxy) is required")
        (retryRpc s!"fetching pruned block {displayHash hash}" budget (getBlockRawRpc hash))
      ask (.func hash block)

/-- The pruned blocks of a run that begins at `start`, from `offset` on. -/
def fetchRun (d : Daemon) (heights : List ℕ) (budget start : ℕ) :
    (offset : ℕ) → List BlockHash → DaemonM Unit
  | _, [] => return ()
  | offset, hash :: rest => do
      let height ← Prog.lift (elemAt heights (start + offset))
      d.fetchPruned H budget hash height
      fetchRun d heights budget start (offset + 1) rest

/-- Where the run ends: the first position from `end_` on that is not available
in the same way. -/
def runEnd (heights : List ℕ) (len pruneHeight : ℕ) (isLocal : Bool) :
    (rounds end_ : ℕ) → Rust ℕ
  | 0, _ => .error .diverge
  | rounds + 1, end_ =>
      if end_ < len then do
        let height ← elemAt heights end_
        if decide (height ≥ pruneHeight) = isLocal then
          runEnd heights len pruneHeight isLocal rounds (end_ + 1)
        else return end_
      else return end_

/-- Walk the batch from `start` as maximal runs of same-availability blocks. -/
def walkRuns (d : Daemon) (blockhashes : List BlockHash) (heights : List ℕ)
    (pruneHeight budget : ℕ) : (rounds start : ℕ) → DaemonM Unit
  | 0, _ => Prog.throw .diverge
  | rounds + 1, start =>
      if start < blockhashes.length then do
        let height ← Prog.lift (elemAt heights start)
        let isLocal := decide (height ≥ pruneHeight)
        let end_ ← Prog.lift
          (runEnd heights blockhashes.length pruneHeight isLocal blockhashes.length (start + 1))
        let run ← Prog.lift (slice blockhashes start end_)
        (if isLocal then Connection.forBlocks H run
          else d.fetchRun H heights budget start 0 run)
        walkRuns d blockhashes heights pruneHeight budget rounds end_
      else return ()

/-- Hand blocks over in the order asked for: runs of pruned ones over RPC or from the
helper, the others over p2p. -/
def forBlocksWith (d : Daemon) (blockhashes : List BlockHash) (budget : ℕ) : DaemonM Unit :=
  if !d.pruned then Connection.forBlocks H blockhashes
  else if blockhashes.isEmpty then return ()
  else do
    let pruneHeight ← retryRpc "reading prune height" budget pruneHeight
    let heights ← retryRpc "resolving block heights" budget (blockHeights blockhashes)
    d.walkRuns H blockhashes heights pruneHeight budget (blockhashes.length + 1) 0

/-- Blocks for serving a client. -/
def forBlocks (d : Daemon) (blockhashes : List BlockHash) : DaemonM Unit :=
  d.forBlocksWith H blockhashes retryBudgetQuery

/-- Blocks for building the index. -/
def forBlocksIndexing (d : Daemon) (blockhashes : List BlockHash) : DaemonM Unit :=
  d.forBlocksWith H blockhashes retryBudgetIndexing

end Daemon

end PrunedElectrs
