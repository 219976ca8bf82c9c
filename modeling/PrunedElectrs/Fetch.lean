/-
PrunedElectrs/Fetch.lean

What a call of `for_blocks_with` can have done.

The index loops of `walkRuns` are compared once with the list of positions they
walk: `Walk ps es r` says how a trace is made up of executions position by
position, with the p2p runs as maximal runs (`walk_of_exec`).  `Received` and
`Fetched` say what the replies of one `getdata` and one pruned block are like,
and `Walked` puts them in their place in the walk.  Everything that is said
about `for_blocks_with` afterwards is an induction over these.
-/
import PrunedElectrs.Retry

namespace PrunedElectrs

open Wire Effects

variable (H : Hashes)

/-- The calls of `func`, in order. -/
def calls (es : Trace) : List (BlockHash × Bytes) :=
  es.filterMap fun e =>
    match e.op with
    | .func hash block => some (hash, block)
    | _ => none

@[simp] theorem calls_append (es es' : Trace) : calls (es ++ es') = calls es ++ calls es' :=
  List.filterMap_append

/-- The bytes begin with a header that has this hash. -/
def Names (block : Bytes) (hash : BlockHash) : Prop :=
  ∃ header, AnyHeader.parse block = .ok header ∧ header.blockHash H = hash

/-- The block begins with a header, and `Names` is a matter of its hash. -/
theorem names_of_parse {block : Bytes} {header : AnyHeader} {hash : BlockHash}
    (hp : AnyHeader.parse block = .ok header) :
    Names H block hash ↔ header.blockHash H = hash := by
  constructor
  · rintro ⟨header', hok, hname⟩
    obtain rfl := Except.ok.inj (hp.symm.trans hok)
    exact hname
  · exact fun hname => ⟨header, hp, hname⟩

theorem not_names_of_error {block : Bytes} {e : Fault} {hash : BlockHash}
    (hp : AnyHeader.parse block = .error e) : ¬ Names H block hash := by
  rintro ⟨header, hok, -⟩
  rw [hp] at hok
  cases hok

/-- The check of a received block, and what comes after it. -/
theorem exec_check {block : Bytes} {hash : BlockHash} {msg msg' : String} {next : DaemonM Unit}
    {es : Trace} {r : Rust Unit}
    (h : Exec (do
      let header ← Prog.lift (context msg (AnyHeader.parse block))
      Prog.lift (ensure (header.blockHash H = hash) msg')
      next) es r) :
    (Names H block hash ∧ Exec next es r)
      ∨ ¬ Names H block hash ∧ es = [] ∧ ∃ chain, r = .error (.err chain) := by
  rcases AnyHeader.returns_parse block with ⟨header, hp⟩ | ⟨chain, hp⟩
  · rw [hp, exec_lift_bind] at h
    rcases h with ⟨e, he, -⟩ | ⟨header', hheader, hensure⟩
    · cases he
    · obtain rfl : header = header' := Except.ok.inj hheader
      rw [names_of_parse H hp]
      by_cases hname : header.blockHash H = hash
      · rw [ensure_of hname, exec_lift_bind] at hensure
        rcases hensure with ⟨e, he, -⟩ | ⟨u, -, hnext⟩
        · cases he
        · exact .inl ⟨hname, hnext⟩
      · rw [ensure_of_not hname, exec_lift_bind] at hensure
        rcases hensure with ⟨e, he, rfl, rfl⟩ | ⟨u, hu, -⟩
        · exact .inr ⟨hname, rfl, [msg'], by rw [← he]⟩
        · cases hu
  · rw [hp, exec_lift_bind] at h
    rcases h with ⟨e, he, rfl, rfl⟩ | ⟨header, hheader, -⟩
    · obtain rfl : Fault.err (msg :: chain) = e := Except.error.inj he
      exact .inr ⟨not_names_of_error H hp, rfl, msg :: chain, rfl⟩
    · cases hheader

/-! ### The replies of one `getdata` -/

/-- The blocks of a `getdata` were received as far as they were what was asked for. -/
inductive Received : List BlockHash → Trace → Rust Unit → Prop
  | done : Received [] [] (.ok ())
  | refused {hash : BlockHash} {rest : List BlockHash} {reply : Outside Bytes}
      {chain : List String} : (∀ block, reply = .ok block → ¬ Names H block hash) →
      Received (hash :: rest) [⟨.recvBlock, reply⟩] (.error (.err chain))
  | next {hash : BlockHash} {rest : List BlockHash} {block : Bytes} {es : Trace} {r : Rust Unit} :
      Names H block hash → Received rest es r →
      Received (hash :: rest) (⟨.recvBlock, .ok block⟩ :: ⟨.func hash block, ()⟩ :: es) r

theorem received_of_exec {hashes : List BlockHash} {es : Trace} {r : Rust Unit}
    (h : Exec (Connection.receiveBlocks H hashes) es r) : Received H hashes es r := by
  induction hashes generalizing es with
  | nil =>
      obtain ⟨rfl, rfl⟩ := exec_pure.mp h
      exact .done
  | cons hash rest ih =>
      have hrecv := (isCall_lift .recvBlock ofOutside).withContext
        s!"failed to get block {displayHash hash}"
      rw [Connection.receiveBlocks] at h
      rcases exec_bind.mp h with ⟨e, rfl, hr⟩ | ⟨es₁, es₂, block, rfl, hr, hcheck⟩
      · obtain ⟨reply, rfl, he⟩ := (hrecv _ _).mp hr
        rcases reply with chain | block
        · obtain rfl := Except.error.inj he
          exact .refused fun block hb => by cases hb
        · cases he
      · obtain ⟨reply, rfl, he⟩ := (hrecv _ _).mp hr
        rcases reply with chain | block'
        · cases he
        · obtain rfl : block = block' := Except.ok.inj he
          rcases exec_check H hcheck with ⟨hname, hfunc⟩ | ⟨hname, rfl, chain, rfl⟩
          · obtain ⟨_, es', rfl, hrest⟩ := exec_ask_bind.mp hfunc
            exact .next hname (ih hrest)
          · exact .refused fun block' hb => Except.ok.inj hb ▸ hname

/-- A batch over p2p: nothing for an empty one, else one request and its replies. -/
theorem exec_forBlocks {hashes : List BlockHash} {es : Trace} {r : Rust Unit}
    (h : Exec (Connection.forBlocks H hashes) es r) :
    (hashes = [] ∧ es = [] ∧ r = .ok ()) ∨ hashes ≠ [] ∧
      ((∃ chain, es = [⟨.sendGetData hashes, .error chain⟩] ∧ r = .error (.err chain))
      ∨ ∃ es', es = ⟨.sendGetData hashes, .ok ()⟩ :: es' ∧ Received H hashes es' r) := by
  rw [Connection.forBlocks] at h
  split_ifs at h with hempty
  · obtain ⟨rfl, rfl⟩ := exec_pure.mp h
    exact .inl ⟨List.isEmpty_iff.mp hempty, rfl, rfl⟩
  · refine .inr ⟨fun hnil => hempty (List.isEmpty_iff.mpr hnil), ?_⟩
    obtain ⟨reply, es', rfl, hsend⟩ := exec_ask_bind.mp h
    rcases exec_lift_bind.mp hsend with ⟨e, he, rfl, rfl⟩ | ⟨u, hu, hrecv⟩
    · rcases reply with chain | u
      · obtain rfl := Except.error.inj he
        exact .inl ⟨chain, rfl, rfl⟩
      · cases he
    · rcases reply with chain | u'
      · cases hu
      · exact .inr ⟨es', rfl, received_of_exec H hrecv⟩

/-! ### One pruned block -/

/-- The reply is a block that is passed on: any from bitcoind, and from the
helper one that begins with the header asked for. -/
def Accepts (client : RpcClient) (hash : BlockHash) (reply : Outside (List Char)) (block : Bytes) :
    Prop :=
  blockOf reply = .ok block ∧ (client = .helper → Names H block hash)

/-- An event on the way to a block: waiting, the ceiling, or a reply that is
not passed on. -/
inductive Idle (d : Daemon) (hash : BlockHash) : Event DaemonOp.Reply → Prop
  | waiting {e : Event DaemonOp.Reply} : Waiting e → Idle d hash e
  | loaded (ceiling : ℕ) : Idle d hash ⟨.loadCeiling, ceiling⟩
  | swapped (height : ℕ) (previous : ℕ) : Idle d hash ⟨.swapCeiling height, previous⟩
  | refused {client : RpcClient} {reply : Outside (List Char)} :
      (client = .helper → d.helper) → (∀ block, ¬ Accepts H client hash reply block) →
      Idle d hash ⟨.getBlock client hash, reply⟩

/-- One pruned block was passed on once, right after it arrived; or none was,
which is an error. -/
inductive Fetched (d : Daemon) (hash : BlockHash) : Trace → Rust Unit → Prop
  | delivered {es : Trace} {client : RpcClient} {reply : Outside (List Char)} {block : Bytes} :
      (∀ e ∈ es, Idle H d hash e) → (client = .helper → d.helper) →
      Accepts H client hash reply block →
      Fetched d hash (es ++ [⟨.getBlock client hash, reply⟩, ⟨.func hash block, ()⟩]) (.ok ())
  | failed {es : Trace} {fault : Fault} :
      (∀ e ∈ es, Idle H d hash e) →
      (∃ reply, ⟨.getBlock .bitcoind hash, reply⟩ ∈ es ∧ ∀ block, blockOf reply ≠ .ok block) →
      (∀ t, Clock t es → ∃ chain, fault = .err chain) → Fetched d hash es (.error fault)

/-- What `block_from_helper` can do: nothing without a helper, one look at the
ceiling for a block that is not below it, and else one request, after which the
height of a block that is not known becomes the ceiling. -/
inductive Helped (d : Daemon) (hash : BlockHash) (height : ℕ) : Trace → Option Bytes → Prop
  | noHelper : ¬ d.helper → Helped d hash height [] none
  | above {ceiling : ℕ} : d.helper → ceiling ≤ height →
      Helped d hash height [⟨.loadCeiling, ceiling⟩] none
  | given {ceiling : ℕ} {reply : Outside (List Char)} {block : Bytes} :
      d.helper → height < ceiling → Accepts H .helper hash reply block →
      Helped d hash height [⟨.loadCeiling, ceiling⟩, ⟨.getBlock .helper hash, reply⟩] (some block)
  | notGiven {ceiling : ℕ} {reply : Outside (List Char)} :
      d.helper → height < ceiling → (∀ block, ¬ Accepts H .helper hash reply block) →
      (∀ chain, reply = .error chain → ¬ isBlockNotFound ("getblock failed" :: chain)) →
      Helped d hash height [⟨.loadCeiling, ceiling⟩, ⟨.getBlock .helper hash, reply⟩] none
  | unknown {ceiling previous : ℕ} {chain : List String} :
      d.helper → height < ceiling → isBlockNotFound ("getblock failed" :: chain) →
      Helped d hash height [⟨.loadCeiling, ceiling⟩, ⟨.getBlock .helper hash, .error chain⟩,
        ⟨.swapCeiling height, previous⟩] none

/-- A reply that is no block is an error of the request, or text that is not hex. -/
theorem blockOf_eq_error {reply : Outside (List Char)} {chain : List String}
    (h : blockOf reply = .error (.err chain)) :
    (∃ chain', reply = .error chain' ∧ chain = "getblock failed" :: chain')
      ∨ (∃ text, reply = .ok text) ∧ ¬ isBlockNotFound chain := by
  rcases reply with chain' | text
  · cases h
    exact .inl ⟨chain', rfl, rfl⟩
  · rcases htext : ofHex text with - | block
    · have hchain : blockOf (.ok text) = .error (.err ["bitcoind returned a non-hex block"]) := by
        simp [blockOf, ofOutside, context, htext, ok_bind]
      rw [hchain] at h
      cases h
      exact .inr ⟨⟨text, rfl⟩, by decide +kernel⟩
    · have hblock : blockOf (.ok text) = .ok block := by
        simp [blockOf, ofOutside, context, htext, ok_bind]
      rw [hblock] at h
      cases h

theorem not_accepts_of_error {client : RpcClient} {hash : BlockHash}
    {reply : Outside (List Char)} {chain : List String}
    (h : blockOf reply = .error (.err chain)) (block : Bytes) :
    ¬ Accepts H client hash reply block := by
  intro hacc
  rw [hacc.1] at h
  cases h

theorem helped_of_exec {d : Daemon} {hash : BlockHash} {height : ℕ} {es : Trace}
    {r : Rust (Option Bytes)} (h : Exec (d.blockFromHelper H hash height) es r) :
    ∃ found, r = .ok found ∧ Helped H d hash height es found := by
  rw [Daemon.blockFromHelper] at h
  split_ifs at h with hhelper
  -- no helper is configured
  · obtain ⟨rfl, rfl⟩ := exec_pure.mp h
    exact ⟨none, rfl, .noHelper (by simpa using hhelper)⟩
  have hd : d.helper = true := by simpa using hhelper
  obtain ⟨ceiling, es', rfl, hload⟩ := exec_ask_bind.mp h
  split_ifs at hload with hceiling
  · obtain ⟨rfl, rfl⟩ := exec_pure.mp hload
    exact ⟨none, rfl, .above hd hceiling⟩
  have hlt : height < ceiling := Nat.lt_of_not_le hceiling
  obtain ⟨es₁, es₂, r', rfl, hcall, hmatch⟩ := exec_capture_bind.mp hload
  obtain ⟨reply, rfl, rfl⟩ := (isCall_getBlockRawWith .helper hash _ _).mp hcall
  rcases returns_blockOf reply with ⟨block, hblock⟩ | ⟨chain, hchain⟩
  · rw [hblock] at hmatch
    have hblockFound (chain : List String) (hreply : reply = .error chain) :
        ¬ isBlockNotFound ("getblock failed" :: chain) := by
      rw [hreply] at hblock
      cases hblock
    -- the header is checked; what follows it is not looked at
    rcases AnyHeader.returns_parse block with ⟨header, hp⟩ | ⟨chain, hp⟩
    · simp only [hp] at hmatch
      obtain ⟨rfl, rfl⟩ := exec_pure.mp hmatch
      by_cases hname : header.blockHash H = hash
      · rw [if_pos hname]
        exact ⟨_, rfl, .given hd hlt ⟨hblock, fun _ => ⟨header, hp, hname⟩⟩⟩
      · rw [if_neg hname]
        refine ⟨_, rfl, .notGiven hd hlt (fun block' hacc => ?_) hblockFound⟩
        obtain rfl := Except.ok.inj (hblock.symm.trans hacc.1)
        exact hname ((names_of_parse H hp).mp (hacc.2 rfl))
    · simp only [hp] at hmatch
      obtain ⟨rfl, rfl⟩ := exec_pure.mp hmatch
      refine ⟨_, rfl, .notGiven hd hlt (fun block' hacc => ?_) hblockFound⟩
      obtain rfl := Except.ok.inj (hblock.symm.trans hacc.1)
      exact not_names_of_error H hp (hacc.2 rfl)
  · simp only [hchain] at hmatch
    -- only an unknown block lowers the ceiling
    rcases blockOf_eq_error hchain with ⟨chain', rfl, rfl⟩ | ⟨⟨text, rfl⟩, hfound⟩
    · split_ifs at hmatch with hfound
      · obtain ⟨previous, es₃, rfl, hpure⟩ := exec_ask_bind.mp hmatch
        obtain ⟨rfl, rfl⟩ := exec_pure.mp hpure
        exact ⟨none, rfl, .unknown hd hlt hfound⟩
      · obtain ⟨rfl, rfl⟩ := exec_pure.mp hmatch
        refine ⟨none, rfl, .notGiven hd hlt (not_accepts_of_error H hchain) fun chain h => ?_⟩
        rwa [← Except.error.inj h]
    · rw [if_neg hfound] at hmatch
      obtain ⟨rfl, rfl⟩ := exec_pure.mp hmatch
      exact ⟨none, rfl, .notGiven hd hlt (not_accepts_of_error H hchain) fun chain h => by cases h⟩

theorem Helped.idle {d : Daemon} {hash : BlockHash} {height : ℕ} {es : Trace}
    (h : Helped H d hash height es none) : ∀ e ∈ es, Idle H d hash e := by
  cases h with
  | noHelper _ => exact List.forall_mem_nil _
  | above _ _ => exact List.forall_mem_singleton.mpr (.loaded _)
  | notGiven hd _ hno _ =>
      exact List.forall_mem_cons.mpr
        ⟨.loaded _, List.forall_mem_singleton.mpr (.refused (fun _ => hd) hno)⟩
  | unknown hd _ _ =>
      refine List.forall_mem_cons.mpr ⟨.loaded _, List.forall_mem_cons.mpr
        ⟨.refused (fun _ => hd) ?_, List.forall_mem_singleton.mpr (.swapped _ _)⟩⟩
      exact not_accepts_of_error H rfl

/-- What the retries of the usual source leave behind. -/
theorem idle_of_retry {d : Daemon} {hash : BlockHash} {e : Event DaemonOp.Reply}
    (h : Waiting e ∨ Failed (.getBlock .bitcoind hash) blockOf e) : Idle H d hash e := by
  rcases h with hw | ⟨reply, chain, rfl, hchain⟩
  · exact .waiting hw
  · exact .refused (fun hc => by cases hc) (not_accepts_of_error H hchain)

/-- One pruned block: the helper gives it, or the usual source is retried until it
gives it or fails. -/
theorem fetchPruned_cases {d : Daemon} {budget : ℕ} {hash : BlockHash} {height : ℕ} {es : Trace}
    {r : Rust Unit} (h : Exec (d.fetchPruned H budget hash height) es r) :
    (∃ es₁ block, Helped H d hash height es₁ (some block)
        ∧ es = es₁ ++ [⟨.func hash block, ()⟩] ∧ r = .ok ())
      ∨ ∃ es₁ es₂, Helped H d hash height es₁ none ∧ es = es₁ ++ es₂ ∧
        ((∃ es' reply block,
            es₂ = es' ++ [⟨.getBlock .bitcoind hash, reply⟩, ⟨.func hash block, ()⟩]
            ∧ blockOf reply = .ok block ∧ r = .ok ()
            ∧ ∀ e ∈ es', Waiting e ∨ Failed (.getBlock .bitcoind hash) blockOf e)
        ∨ ∃ fault, r = .error fault
            ∧ (∀ e ∈ es₂, Waiting e ∨ Failed (.getBlock .bitcoind hash) blockOf e)
            ∧ (∃ e ∈ es₂, Failed (.getBlock .bitcoind hash) blockOf e)
            ∧ ∀ t, Clock t es₂ → ∃ chain, fault = .err chain) := by
  rw [Daemon.fetchPruned] at h
  rcases exec_bind.mp h with ⟨e, rfl, hhelper⟩ | ⟨es₁, es₂, found, rfl, hhelper, hnext⟩
  · obtain ⟨found, hr, -⟩ := helped_of_exec H hhelper
    cases hr
  obtain ⟨found', hfound, hhelped⟩ := helped_of_exec H hhelper
  obtain rfl := Except.ok.inj hfound
  rcases found with - | block
  · refine .inr ⟨es₁, es₂, hhelped, rfl, ?_⟩
    have hcall := isCall_getBlockRawWith .bitcoind hash
    rcases exec_bind.mp hnext with ⟨fault, rfl, hrpc⟩ | ⟨es₃, es₄, block, rfl, hrpc, hfunc⟩
    · obtain ⟨r', hr', hretry⟩ := exec_withContext.mp hrpc
      rcases r' with fault' | block
      · obtain ⟨hall, hfailed⟩ := retryRpc_error hcall returns_blockOf hretry
        refine .inr ⟨fault, rfl, hall, hfailed, fun t hclock => ?_⟩
        have hreturns := retryRpc_returns (hcall.returns returns_blockOf) hretry hclock
        exact returns_error_iff.mp (hr' ▸ returns_context hreturns)
      · cases hr'
    · obtain ⟨r', hr', hretry⟩ := exec_withContext.mp hrpc
      obtain rfl := context_eq_ok.mp hr'.symm
      obtain ⟨es', reply, rfl, hblock, hall⟩ := retryRpc_ok hcall returns_blockOf hretry
      obtain ⟨_, rfl, rfl⟩ := exec_ask.mp hfunc
      exact .inl ⟨es', reply, block, by simp, hblock, rfl, hall⟩
  · obtain ⟨_, rfl, rfl⟩ := exec_ask.mp hnext
    exact .inl ⟨es₁, block, hhelped, rfl, rfl⟩

theorem fetched_of_exec {d : Daemon} {budget : ℕ} {hash : BlockHash} {height : ℕ} {es : Trace}
    {r : Rust Unit} (h : Exec (d.fetchPruned H budget hash height) es r) :
    Fetched H d hash es r := by
  rcases fetchPruned_cases H h with ⟨es₁, block, hhelped, rfl, rfl⟩ |
    ⟨es₁, es₂, hhelped, rfl, hsource⟩
  · cases hhelped with
    | @given ceiling reply _ hd _ hacc =>
        have hidle : ∀ e ∈ ([⟨.loadCeiling, ceiling⟩] : Trace), Idle H d hash e :=
          List.forall_mem_singleton.mpr (.loaded ceiling)
        exact .delivered hidle (fun _ => hd) hacc
  have hidle {es' : Trace}
      (hall : ∀ e ∈ es', Waiting e ∨ Failed (.getBlock .bitcoind hash) blockOf e) :
      ∀ e ∈ es₁ ++ es', Idle H d hash e :=
    List.forall_mem_append.mpr ⟨hhelped.idle H, fun e he => idle_of_retry H (hall e he)⟩
  rcases hsource with ⟨es', reply, block, rfl, hblock, rfl, hall⟩ |
    ⟨fault, rfl, hall, ⟨e, he, reply, chain, rfl, hchain⟩, hclock⟩
  · rw [← List.append_assoc]
    exact .delivered (hidle hall) (fun hc => by cases hc) ⟨hblock, fun hc => by cases hc⟩
  · refine .failed (hidle hall) ⟨reply, List.mem_append_right _ he, fun block hblock => ?_⟩
      fun t h => hclock _ (clock_append.mp h).2
    rw [hblock] at hchain
    cases hchain

/-! ### The walk -/

/-- A block of the batch with its height. -/
abbrev Position := BlockHash × ℕ

/-- The walk of a batch, position by position: pruned blocks one by one, the
others in maximal runs. -/
inductive Walked (d : Daemon) (pruneHeight : ℕ) : List Position → Trace → Rust Unit → Prop
  | done : Walked d pruneHeight [] [] (.ok ())
  | pruned {p : Position} {rest : List Position} {es es' : Trace} {r : Rust Unit} :
      p.2 < pruneHeight → Fetched H d p.1 es (.ok ()) → Walked d pruneHeight rest es' r →
      Walked d pruneHeight (p :: rest) (es ++ es') r
  | prunedFailed {p : Position} {rest : List Position} {es : Trace} {fault : Fault} :
      p.2 < pruneHeight → Fetched H d p.1 es (.error fault) →
      Walked d pruneHeight (p :: rest) es (.error fault)
  | run {run rest : List Position} {es es' : Trace} {r : Rust Unit} :
      run ≠ [] → (∀ p ∈ run, pruneHeight ≤ p.2) → (∀ p ∈ rest.head?, p.2 < pruneHeight) →
      Received H (run.map Prod.fst) es (.ok ()) → Walked d pruneHeight rest es' r →
      Walked d pruneHeight (run ++ rest)
        (⟨.sendGetData (run.map Prod.fst), .ok ()⟩ :: (es ++ es')) r
  | runFailed {run rest : List Position} {es : Trace} {fault : Fault} :
      run ≠ [] → (∀ p ∈ run, pruneHeight ≤ p.2) → (∀ p ∈ rest.head?, p.2 < pruneHeight) →
      Received H (run.map Prod.fst) es (.error fault) →
      Walked d pruneHeight (run ++ rest) (⟨.sendGetData (run.map Prod.fst), .ok ()⟩ :: es)
        (.error fault)
  | unsent {run rest : List Position} {chain : List String} :
      run ≠ [] → (∀ p ∈ run, pruneHeight ≤ p.2) → (∀ p ∈ rest.head?, p.2 < pruneHeight) →
      Walked d pruneHeight (run ++ rest) [⟨.sendGetData (run.map Prod.fst), .error chain⟩]
        (.error (.err chain))

/-- The executions that a walk is made of, in its order. -/
inductive Walk (d : Daemon) (budget pruneHeight : ℕ) : List Position → Trace → Rust Unit → Prop
  | done : Walk d budget pruneHeight [] [] (.ok ())
  | pruned {p : Position} {rest : List Position} {es es' : Trace} {r : Rust Unit} :
      p.2 < pruneHeight → Exec (d.fetchPruned H budget p.1 p.2) es (.ok ()) →
      Walk d budget pruneHeight rest es' r → Walk d budget pruneHeight (p :: rest) (es ++ es') r
  | prunedFailed {p : Position} {rest : List Position} {es : Trace} {fault : Fault} :
      p.2 < pruneHeight → Exec (d.fetchPruned H budget p.1 p.2) es (.error fault) →
      Walk d budget pruneHeight (p :: rest) es (.error fault)
  | run {run rest : List Position} {es es' : Trace} {r : Rust Unit} :
      run ≠ [] → (∀ p ∈ run, pruneHeight ≤ p.2) → (∀ p ∈ rest.head?, p.2 < pruneHeight) →
      Exec (Connection.forBlocks H (run.map Prod.fst)) es (.ok ()) →
      Walk d budget pruneHeight rest es' r → Walk d budget pruneHeight (run ++ rest) (es ++ es') r
  | runFailed {run rest : List Position} {es : Trace} {fault : Fault} :
      run ≠ [] → (∀ p ∈ run, pruneHeight ≤ p.2) → (∀ p ∈ rest.head?, p.2 < pruneHeight) →
      Exec (Connection.forBlocks H (run.map Prod.fst)) es (.error fault) →
      Walk d budget pruneHeight (run ++ rest) es (.error fault)

/-- A local run is one batch over p2p, and its blocks as they arrive. -/
theorem Walk.walked {d : Daemon} {budget pruneHeight : ℕ} {ps : List Position} {es : Trace}
    {r : Rust Unit} (h : Walk H d budget pruneHeight ps es r) : Walked H d pruneHeight ps es r := by
  induction h with
  | done => exact .done
  | pruned hlt hfetch _ ih => exact .pruned hlt (fetched_of_exec H hfetch) ih
  | prunedFailed hlt hfetch => exact .prunedFailed hlt (fetched_of_exec H hfetch)
  | run hne hlocal hpruned hp2p _ ih =>
      rcases exec_forBlocks H hp2p with ⟨hnil, -⟩ | ⟨-, ⟨chain, rfl, he⟩ | ⟨es', rfl, hrecv⟩⟩
      · exact absurd (List.map_eq_nil_iff.mp hnil) hne
      · cases he
      · exact .run hne hlocal hpruned hrecv ih
  | runFailed hne hlocal hpruned hp2p =>
      rcases exec_forBlocks H hp2p with ⟨hnil, -⟩ | ⟨-, ⟨chain, rfl, he⟩ | ⟨es', rfl, hrecv⟩⟩
      · exact absurd (List.map_eq_nil_iff.mp hnil) hne
      · obtain rfl := Except.error.inj he
        exact .unsent hne hlocal hpruned
      · exact .runFailed hne hlocal hpruned hrecv

theorem elemAt_of_drop {α : Type} {l rest : List α} {i : ℕ} {a : α} (h : l.drop i = a :: rest) :
    elemAt l i = .ok a := by
  have hi : i < l.length := by
    by_contra hge
    rw [List.drop_eq_nil_of_le (by omega)] at h
    cases h
  rw [List.drop_eq_getElem_cons hi, List.cons.injEq] at h
  rw [elemAt_eq hi, h.1]

variable {ps : List Position} {pruneHeight : ℕ}

/-- A position is available in the given way. -/
abbrev Same (pruneHeight : ℕ) (isLocal : Bool) (p : Position) : Prop :=
  decide (p.2 ≥ pruneHeight) = isLocal

/-- The longest front of positions available in the given way. -/
theorem exists_run (pruneHeight : ℕ) (isLocal : Bool) (ps : List Position) :
    ∃ run more, ps = run ++ more ∧ (∀ p ∈ run, Same pruneHeight isLocal p)
      ∧ ∀ p ∈ more.head?, ¬ Same pruneHeight isLocal p := by
  induction ps with
  | nil => exact ⟨[], [], rfl, by simp, by simp⟩
  | cons p ps ih =>
      by_cases hp : Same pruneHeight isLocal p
      · obtain ⟨run, more, rfl, hrun, hmore⟩ := ih
        exact ⟨p :: run, more, rfl, List.forall_mem_cons.mpr ⟨hp, hrun⟩, hmore⟩
      · exact ⟨[], p :: ps, rfl, by simp, fun q hq => Option.some.inj hq ▸ hp⟩

/-- The inner loop finds where such a front ends. -/
theorem runEnd_append {isLocal : Bool} {run more : List Position} {n e : ℕ} (he : e ≤ ps.length)
    (hdrop : ps.drop e = run ++ more) (hrun : ∀ p ∈ run, Same pruneHeight isLocal p)
    (hmore : ∀ p ∈ more.head?, ¬ Same pruneHeight isLocal p) (hn : ps.length - e < n) :
    Daemon.runEnd (ps.map Prod.snd) ps.length pruneHeight isLocal n e = .ok (e + run.length) := by
  have hlen := congrArg List.length hdrop
  rw [List.length_drop, List.length_append] at hlen
  induction run generalizing n e with
  | nil =>
      obtain ⟨n, rfl⟩ := Nat.exists_eq_succ_of_ne_zero (Nat.ne_zero_of_lt hn)
      rw [Daemon.runEnd]
      -- the batch ends, or the next position is available the other way
      rcases more with - | ⟨q, more⟩
      · rw [if_neg (by simp only [List.length_nil] at hlen; omega)]
        rfl
      · have hsnd : (ps.map Prod.snd).drop e = q.2 :: more.map Prod.snd := by
          rw [← List.map_drop, hdrop, List.nil_append, List.map_cons]
        rw [if_pos (by simp only [List.length_cons, List.length_nil] at hlen; omega),
          elemAt_of_drop hsnd, ok_bind, if_neg (hmore q rfl)]
        rfl
  | cons q run ih =>
      obtain ⟨n, rfl⟩ := Nat.exists_eq_succ_of_ne_zero (Nat.ne_zero_of_lt hn)
      rw [List.forall_mem_cons] at hrun
      rw [List.length_cons] at hlen
      have hsnd : (ps.map Prod.snd).drop e = q.2 :: (run ++ more).map Prod.snd := by
        rw [← List.map_drop, hdrop, List.cons_append, List.map_cons]
      have hnext : ps.drop (e + 1) = run ++ more := by
        rw [← List.drop_drop, hdrop]
        rfl
      rw [Daemon.runEnd, if_pos (by omega), elemAt_of_drop hsnd, ok_bind, if_pos hrun.1,
        ih (by omega) hnext hrun.2 (by omega) (by omega), List.length_cons, Nat.add_assoc,
        Nat.add_comm 1]

/-- The pruned blocks of a run, followed by whatever the walk does next. -/
theorem walk_fetchRun {d : Daemon} {budget start : ℕ} {run more : List Position} {offset : ℕ}
    {es : Trace} {r : Rust Unit} (hrun : ∀ p ∈ run, p.2 < pruneHeight)
    (hdrop : ps.drop (start + offset) = run ++ more)
    (h : Exec (d.fetchRun H (ps.map Prod.snd) budget start offset (run.map Prod.fst)) es r) :
    (∃ fault, r = .error fault ∧ Walk H d budget pruneHeight (run ++ more) es (.error fault))
      ∨ r = .ok () ∧ ∀ {es' : Trace} {r' : Rust Unit}, Walk H d budget pruneHeight more es' r' →
          Walk H d budget pruneHeight (run ++ more) (es ++ es') r' := by
  induction run generalizing offset es with
  | nil =>
      obtain ⟨rfl, rfl⟩ := exec_pure.mp h
      exact .inr ⟨rfl, fun hmore => hmore⟩
  | cons p run ih =>
      rw [List.forall_mem_cons] at hrun
      have hsnd : (ps.map Prod.snd).drop (start + offset) = p.2 :: (run ++ more).map Prod.snd := by
        rw [← List.map_drop, hdrop, List.cons_append, List.map_cons]
      have hnext : ps.drop (start + (offset + 1)) = run ++ more := by
        rw [← Nat.add_assoc, ← List.drop_drop, hdrop]
        rfl
      rw [List.map_cons, Daemon.fetchRun, elemAt_of_drop hsnd, exec_lift_bind] at h
      rcases h with ⟨e, he, -⟩ | ⟨height, hheight, h⟩
      · cases he
      · obtain rfl := Except.ok.inj hheight
        rcases exec_bind.mp h with ⟨e, rfl, hfetch⟩ | ⟨es₁, es₂, u, rfl, hfetch, hrest⟩
        -- the first failure ends the run and the walk
        · exact .inl ⟨e, rfl, .prunedFailed hrun.1 hfetch⟩
        · rcases ih hrun.2 hnext hrest with ⟨fault, rfl, hwalk⟩ | ⟨rfl, hwalk⟩
          · exact .inl ⟨fault, rfl, .pruned hrun.1 hfetch hwalk⟩
          · refine .inr ⟨rfl, fun hmore => ?_⟩
            rw [List.append_assoc]
            exact .pruned hrun.1 hfetch (hwalk hmore)

/-- A round of the walk: a maximal run, and the walk from its end. -/
theorem walkRuns_round {d : Daemon} {budget rounds start : ℕ} {p : Position}
    {rest : List Position} {es : Trace} {r : Rust Unit} (hdrop : ps.drop start = p :: rest)
    (h : Exec (d.walkRuns H (ps.map Prod.fst) (ps.map Prod.snd) pruneHeight budget (rounds + 1)
      start) es r) :
    ∃ isLocal run more, p :: rest = (p :: run) ++ more
      ∧ (∀ q ∈ p :: run, Same pruneHeight isLocal q)
      ∧ (∀ q ∈ more.head?, ¬ Same pruneHeight isLocal q)
      ∧ ps.drop (start + (p :: run).length) = more
      ∧ Exec (do
        (if isLocal then Connection.forBlocks H ((p :: run).map Prod.fst)
          else d.fetchRun H (ps.map Prod.snd) budget start 0 ((p :: run).map Prod.fst))
        d.walkRuns H (ps.map Prod.fst) (ps.map Prod.snd) pruneHeight budget rounds
          (start + (p :: run).length)) es r := by
  obtain ⟨run, more, rfl, hrun, hmore⟩ := exists_run pruneHeight (decide (p.2 ≥ pruneHeight)) rest
  have hlen := congrArg List.length hdrop
  rw [List.length_drop, List.length_cons, List.length_append] at hlen
  have hsnd : (ps.map Prod.snd).drop start = p.2 :: (run ++ more).map Prod.snd := by
    rw [← List.map_drop, hdrop, List.map_cons]
  have hnext : ps.drop (start + 1) = run ++ more := by
    rw [← List.drop_drop, hdrop]
    rfl
  have hend := runEnd_append (by omega) hnext hrun hmore
    (show ps.length - (start + 1) < ps.length by omega)
  have hfst : (ps.map Prod.fst).drop start = (p :: run).map Prod.fst ++ more.map Prod.fst := by
    rw [← List.map_drop, hdrop, ← List.cons_append, List.map_append]
  have hslice : slice (ps.map Prod.fst) start (start + 1 + run.length)
      = .ok ((p :: run).map Prod.fst) := by
    rw [slice_eq (by omega) (by rw [List.length_map]; omega),
      (sub_of_drop hfst (by rw [List.length_map, List.length_cons]; omega)).1]
  have hstop : start + 1 + run.length = start + (p :: run).length := by
    rw [List.length_cons]
    omega
  refine ⟨decide (p.2 ≥ pruneHeight), run, more, rfl, List.forall_mem_cons.mpr ⟨rfl, hrun⟩, hmore,
    (sub_of_drop (show ps.drop start = (p :: run) ++ more from hdrop) rfl).2, ?_⟩
  -- the round reads its height, finds its end and cuts out its run
  rw [Daemon.walkRuns, List.length_map, if_pos (by omega), elemAt_of_drop hsnd, exec_lift_bind] at h
  rcases h with ⟨e, he, -⟩ | ⟨height, hheight, h⟩
  · cases he
  obtain rfl := Except.ok.inj hheight
  simp only [hend, exec_lift_bind] at h
  rcases h with ⟨e, he, -⟩ | ⟨end_, he, h⟩
  · cases he
  obtain rfl := Except.ok.inj he
  simp only [hslice] at h
  rcases h with ⟨e, he, -⟩ | ⟨run', hr, h⟩
  · cases he
  obtain rfl := Except.ok.inj hr
  rwa [hstop] at h

/-- **The walk by indices is the walk of the positions.** -/
theorem walk_of_exec {d : Daemon} {budget rounds start : ℕ} {es : Trace} {r : Rust Unit}
    (hstart : start ≤ ps.length) (hrounds : ps.length - start < rounds)
    (h : Exec (d.walkRuns H (ps.map Prod.fst) (ps.map Prod.snd) pruneHeight budget rounds start)
      es r) : Walk H d budget pruneHeight (ps.drop start) es r := by
  induction rounds generalizing start es with
  | zero => omega
  | succ rounds ih =>
      rcases hdrop : ps.drop start with - | ⟨p, rest⟩
      · have hlen : ps.length ≤ start := List.drop_eq_nil_iff.mp hdrop
        rw [Daemon.walkRuns, List.length_map, if_neg (by omega)] at h
        obtain ⟨rfl, rfl⟩ := exec_pure.mp h
        exact .done
      · obtain ⟨isLocal, run, more, hsplit, hrun, hmore, hafter, hround⟩ := walkRuns_round H hdrop h
        have hlen := congrArg List.length (hdrop.trans hsplit)
        rw [List.length_drop, List.length_append, List.length_cons] at hlen
        have hwalk {es₂ : Trace} (hrest : Exec (d.walkRuns H (ps.map Prod.fst) (ps.map Prod.snd)
            pruneHeight budget rounds (start + (p :: run).length)) es₂ r) :
            Walk H d budget pruneHeight more es₂ r := by
          rw [← hafter]
          exact ih (by rw [List.length_cons]; omega) (by rw [List.length_cons]; omega) hrest
        rw [hsplit]
        -- a local run is one batch over p2p; a pruned one is fetched block by block
        cases isLocal with
        | true =>
            have hlocal : ∀ q ∈ p :: run, pruneHeight ≤ q.2 := fun q hq =>
              of_decide_eq_true (hrun q hq)
            have hpruned : ∀ q ∈ more.head?, q.2 < pruneHeight := fun q hq =>
              Nat.lt_of_not_le fun hle => hmore q hq (decide_eq_true hle)
            rw [if_pos rfl] at hround
            rcases exec_bind.mp hround with ⟨e, rfl, hp2p⟩ | ⟨es₁, es₂, u, rfl, hp2p, hrest⟩
            · exact .runFailed (List.cons_ne_nil p run) hlocal hpruned hp2p
            · exact .run (List.cons_ne_nil p run) hlocal hpruned hp2p (hwalk hrest)
        | false =>
            have hpruned : ∀ q ∈ p :: run, q.2 < pruneHeight := fun q hq =>
              Nat.lt_of_not_le (of_decide_eq_false (hrun q hq))
            have hat : ps.drop (start + 0) = (p :: run) ++ more := hdrop.trans hsplit
            rw [if_neg (by decide)] at hround
            rcases exec_bind.mp hround with ⟨e, rfl, hrpc⟩ | ⟨es₁, es₂, u, rfl, hrpc, hrest⟩
            · rcases walk_fetchRun H hpruned hat hrpc with ⟨fault, hr, hrun⟩ | ⟨hr, -⟩
              · obtain rfl := Except.error.inj hr
                exact hrun
              · cases hr
            · rcases walk_fetchRun H hpruned hat hrpc with ⟨fault, hr, -⟩ | ⟨-, hrun⟩
              · cases hr
              · exact hrun (hwalk hrest)

end PrunedElectrs
