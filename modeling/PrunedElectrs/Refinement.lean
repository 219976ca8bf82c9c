/-
PrunedElectrs/Refinement.lean

A batch from a pruned node, against the same batch from an archival one.

A call on an archival node is a walk as well, one in which every block is local
(`forBlocksWith_walked`), so what is shown of a walk holds of both paths.  Where
the blocks that arrive are the canonical ones, the calls of a walk are a front of
the canonical blocks of the batch, and all of them when it returns `Ok`.  The
calls of both paths are then the same (`forBlocksWith_refines`).
-/
import PrunedElectrs.Routing
import PrunedElectrs.Chain

namespace PrunedElectrs

open Wire Effects Runs

variable {H : Hashes} {d : Daemon} {pruneHeight : ℕ}

/-! ### The archival path as a walk -/

/-- A batch over p2p alone is the walk of one run. -/
theorem walked_of_forBlocks {ps : List Position} (hlocal : ∀ p ∈ ps, pruneHeight ≤ p.2)
    {es : Trace} {r : Rust Unit} (h : Exec (Connection.forBlocks H (ps.map Prod.fst)) es r) :
    Walked H d pruneHeight ps es r := by
  have hrest : ∀ p ∈ ([] : List Position).head?, p.2 < pruneHeight := fun p hp => by cases hp
  rcases exec_forBlocks H h with ⟨hnil, rfl, rfl⟩ | ⟨hne, hsent⟩
  · obtain rfl := List.map_eq_nil_iff.mp hnil
    exact .done
  have hrun : ps ≠ [] := fun hnil => hne (List.map_eq_nil_iff.mpr hnil)
  rw [← List.append_nil ps]
  rcases hsent with ⟨chain, rfl, rfl⟩ | ⟨es', rfl, hrecv⟩
  · exact .unsent hrun hlocal hrest
  · rcases r with fault | u
    · exact .runFailed hrun hlocal hrest hrecv
    · rw [← List.append_nil es']
      exact .run hrun hlocal hrest hrecv .done

/-- A call either fails to read what it needs before it asks for a block, or is
the walk of its batch; an archival node is walked as if it had pruned nothing. -/
theorem forBlocksWith_walked {batch : List BlockHash} {budget : ℕ} {es : Trace} {r : Rust Unit}
    (h : Exec (d.forBlocksWith H batch budget) es r) :
    (∃ fault, r = .error fault ∧ batch ≠ [] ∧ (∀ e ∈ es, Reading e)
        ∧ ∃ e ∈ es, Failed .getBlockchainInfo pruneHeightOf e
          ∨ Failed (.getBlockHeaders batch) (heightsOf batch) e)
      ∨ ∃ es₀ es' pruneHeight ps, es = es₀ ++ es' ∧ (∀ e ∈ es₀, Reading e)
        ∧ ps.map Prod.fst = batch ∧ (¬ d.pruned → pruneHeight = 0)
        ∧ Walked H d pruneHeight ps es' r := by
  have hnil : ∀ e ∈ ([] : Trace), Reading e := fun e he => absurd he List.not_mem_nil
  by_cases hd : d.pruned
  · rcases forBlocksWith_cases hd h with ⟨rfl, rfl, rfl⟩ | ⟨hne, hread | hwalk⟩
    · exact .inr ⟨[], [], 0, [], rfl, hnil, rfl, fun _ => rfl, .done⟩
    · obtain ⟨fault, rfl, hall, hfailed, -⟩ := hread
      exact .inl ⟨fault, rfl, hne, hall, hfailed⟩
    · obtain ⟨es₀, es', pruneHeight, ps, rfl, hresolved, hwalked⟩ := hwalk
      exact .inr ⟨es₀, es', pruneHeight, ps, rfl, hresolved.reading, hresolved.positions,
        fun hno => absurd hd hno, hwalked⟩
  -- on an archival node the batch is one run of local positions
  · have hfst : (batch.map fun hash => ((hash, 0) : Position)).map Prod.fst = batch := by
      rw [List.map_map]
      exact List.map_id batch
    rw [Daemon.forBlocksWith, if_pos (by simpa using hd), ← hfst] at h
    exact .inr ⟨[], es, 0, _, rfl, hnil, hfst, fun _ => rfl,
      walked_of_forBlocks (fun p _ => Nat.zero_le p.2) h⟩

/-- A call passes on a front of its batch in order, and all of it when it succeeds. -/
theorem forBlocksWith_inOrder {batch : List BlockHash} {budget : ℕ} {es : Trace} {r : Rust Unit}
    (h : Exec (d.forBlocksWith H batch budget) es r) :
    (calls es).map Prod.fst <+: batch ∧ (r = .ok () ↔ (calls es).map Prod.fst = batch) := by
  rcases forBlocksWith_walked h with ⟨fault, rfl, hne, hread, -⟩ |
    ⟨es₀, es', pruneHeight, ps, rfl, hread, rfl, -, hwalked⟩
  · rw [calls_of_reading hread]
    exact ⟨List.nil_prefix, iff_of_false (fun hr => by cases hr) hne.symm⟩
  · rw [calls_append, calls_of_reading hread]
    exact hwalked.calls_prefix

/-! ### Canonical blocks -/

theorem mem_calls {es : Trace} {hash : BlockHash} {block : Bytes} :
    (hash, block) ∈ calls es ↔ ⟨.func hash block, ()⟩ ∈ es := by
  rw [calls, List.mem_filterMap]
  constructor
  · rintro ⟨⟨op, reply⟩, he, hcall⟩
    split at hcall
    · rename_i hash' block' hop
      obtain rfl : op = .func hash' block' := hop
      obtain ⟨rfl, rfl⟩ := Prod.mk.inj (Option.some.inj hcall)
      exact he
    · cases hcall
  · exact fun he => ⟨_, he, rfl⟩

/-- A block that a usual source returns is the canonical one: from bitcoind for
the hash asked for, over p2p for the position whose turn it is. -/
def FromUsual (canon : BlockHash → Bytes) (batch : List BlockHash) (n : ℕ) :
    Event DaemonOp.Reply → Prop
  | ⟨.getBlock .bitcoind hash, reply⟩ => ∀ block, blockOf reply = .ok block → block = canon hash
  | ⟨.recvBlock, reply⟩ => ∀ block, reply = .ok block → ∀ hash ∈ batch[n]?, block = canon hash
  | _ => True

/-- The blocks that the usual sources return are the canonical ones. -/
def UsualCanonical (canon : BlockHash → Bytes) (batch : List BlockHash) (es : Trace) : Prop :=
  Always (fun pre e => FromUsual canon batch (calls pre).length e) es

variable (H) in
/-- The blocks of the helper that begin with the header asked for are the canonical ones. -/
def HelperCanonical (canon : BlockHash → Bytes) (es : Trace) : Prop :=
  ∀ hash reply block, ⟨.getBlock .helper hash, reply⟩ ∈ es →
    Accepts H .helper hash reply block → block = canon hash

theorem UsualCanonical.of_append {canon : BlockHash → Bytes} {batch : List BlockHash}
    {es es' : Trace} (h : UsualCanonical canon batch (es ++ es')) (hes : calls es = []) :
    UsualCanonical canon batch es' := by
  intro pre e post heq
  have he : FromUsual canon batch (calls (es ++ pre)).length e :=
    Always.of_append h pre e post heq
  rwa [calls_append, hes] at he

theorem UsualCanonical.received {canon : BlockHash → Bytes} {batch : List BlockHash}
    {pre post : Trace} {block : Bytes} {hash : BlockHash}
    (h : UsualCanonical canon batch (pre ++ [⟨.recvBlock, .ok block⟩] ++ post))
    (hhash : batch[(calls pre).length]? = some hash) : block = canon hash :=
  h pre ⟨.recvBlock, .ok block⟩ post (by simp) block rfl hash hhash

theorem UsualCanonical.fetched {canon : BlockHash → Bytes} {batch : List BlockHash} {es : Trace}
    {hash : BlockHash} {reply : Outside (List Char)} {block : Bytes}
    (h : UsualCanonical canon batch es) (he : ⟨.getBlock .bitcoind hash, reply⟩ ∈ es)
    (hblock : blockOf reply = .ok block) : block = canon hash := by
  obtain ⟨pre, post, rfl⟩ := List.append_of_mem he
  exact h pre ⟨.getBlock .bitcoind hash, reply⟩ post rfl block hblock

theorem HelperCanonical.of_append {canon : BlockHash → Bytes} {es es' : Trace}
    (h : HelperCanonical H canon (es ++ es')) : HelperCanonical H canon es' :=
  fun hash reply block he => h hash reply block (List.mem_append_right _ he)

/-- A call of `func` comes with the block that arrived right before. -/
theorem Walked.calls_canonical {ps : List Position} {es : Trace} {r : Rust Unit}
    (h : Walked H d pruneHeight ps es r) {canon : BlockHash → Bytes}
    (husual : UsualCanonical canon (ps.map Prod.fst) es) (hhelper : HelperCanonical H canon es) :
    ∀ c ∈ calls es, c.2 = canon c.1 := by
  rintro ⟨hash, block⟩ hc
  obtain ⟨pre, post, rfl⟩ := List.append_of_mem (mem_calls.mp hc)
  have hrouted := h.allRouted_nil pre _ post rfl
  obtain ⟨p, hp, rfl, ⟨-, hlast, -⟩ | ⟨-, client, reply, hlast, haccepts⟩⟩ := hrouted
  -- over p2p it is the block whose turn it is
  · obtain ⟨pre, rfl⟩ := List.getLast?_eq_some_iff.mp hlast
    rw [calls_append, List.length_append, Nat.zero_add] at hp
    refine husual.received ?_
    rw [List.getElem?_map]
    exact congrArg _ hp
  · have he := List.mem_append_left (⟨.func p.1 block, ()⟩ :: post) (List.mem_of_getLast? hlast)
    cases client with
    | bitcoind => exact husual.fetched he haccepts.1
    | helper => exact hhelper p.1 reply block he haccepts

/-- Where the blocks that arrive are canonical, a call passes on a front of the
canonical blocks of its batch, and all of them when it succeeds. -/
theorem forBlocksWith_canonical {batch : List BlockHash} {budget : ℕ} {es : Trace} {r : Rust Unit}
    (h : Exec (d.forBlocksWith H batch budget) es r) {canon : BlockHash → Bytes}
    (husual : UsualCanonical canon batch es) (hhelper : HelperCanonical H canon es) :
    calls es <+: batch.map (fun hash => (hash, canon hash))
      ∧ (r = .ok () → calls es = batch.map fun hash => (hash, canon hash)) := by
  have hcanonical : ∀ c ∈ calls es, c.2 = canon c.1 := by
    rcases forBlocksWith_walked h with ⟨fault, -, -, hread, -⟩ |
      ⟨es₀, es', pruneHeight, ps, rfl, hread, rfl, -, hwalked⟩
    · rw [calls_of_reading hread]
      exact fun c hc => absurd hc List.not_mem_nil
    · have hnone := calls_of_reading hread
      rw [calls_append, hnone]
      exact hwalked.calls_canonical (husual.of_append hnone) hhelper.of_append
  have hcalls : ((calls es).map Prod.fst).map (fun hash => (hash, canon hash)) = calls es := by
    have hid : ∀ c ∈ calls es, (c.1, canon c.1) = id c := fun c hc =>
      Prod.ext rfl (hcanonical c hc).symm
    rw [List.map_map]
    exact (List.map_congr_left hid).trans (List.map_id _)
  obtain ⟨hfront, hok⟩ := forBlocksWith_inOrder h
  rw [← hcalls]
  exact ⟨hfront.map _, fun hr => by rw [hok.mp hr]⟩

/-! ### Where a block is requested -/

theorem Received.not_getBlock {hashes : List BlockHash} {es : Trace} {r : Rust Unit}
    (h : Received H hashes es r) {client : RpcClient} {hash : BlockHash}
    {reply : Outside (List Char)} : ⟨.getBlock client hash, reply⟩ ∉ es := by
  induction h with
  | done => simp
  | refused _ => simp
  | next _ _ ih => simpa using ih

theorem Idle.helper {hash hash' : BlockHash} {reply : Outside (List Char)}
    (h : Idle H d hash ⟨.getBlock .helper hash', reply⟩) : d.helper := by
  cases h with
  | waiting hw => exact hw.elim
  | refused hconfigured _ => exact hconfigured rfl

theorem Fetched.helper {hash hash' : BlockHash} {es : Trace} {r : Rust Unit}
    {reply : Outside (List Char)} (h : Fetched H d hash es r)
    (he : ⟨.getBlock .helper hash', reply⟩ ∈ es) : d.helper := by
  cases h with
  | delivered hidle hconfigured _ =>
      simp only [List.mem_append, List.mem_cons, List.not_mem_nil, or_false] at he
      rcases he with he | he | he
      · exact (hidle _ he).helper
      · cases he
        exact hconfigured rfl
      · cases he
  | failed hidle _ _ => exact (hidle _ he).helper

/-- A block is requested by the fetch of a pruned position, and what that passes
on the walk passes on. -/
theorem Walked.exists_fetched {ps : List Position} {es : Trace} {r : Rust Unit}
    (h : Walked H d pruneHeight ps es r) {client : RpcClient} {hash : BlockHash}
    {reply : Outside (List Char)} (he : ⟨.getBlock client hash, reply⟩ ∈ es) :
    ∃ (p : Position) (es₁ : Trace) (r₁ : Rust Unit), p.2 < pruneHeight ∧ Fetched H d p.1 es₁ r₁
      ∧ ⟨.getBlock client hash, reply⟩ ∈ es₁ ∧ calls es₁ ⊆ calls es := by
  induction h with
  | done => cases he
  | @pruned p rest es es' r hlt hfetch _ ih =>
      rw [calls_append]
      rcases List.mem_append.mp he with he | he
      · exact ⟨p, es, _, hlt, hfetch, he, List.subset_append_left _ _⟩
      · obtain ⟨p', es₁, r₁, hlt', hfetch', he', hcalls⟩ := ih he
        exact ⟨p', es₁, r₁, hlt', hfetch', he', List.subset_append_of_subset_right _ hcalls⟩
  | @prunedFailed p rest es fault hlt hfetch =>
      exact ⟨p, es, _, hlt, hfetch, he, List.Subset.refl _⟩
  | run _ _ _ hrecv _ ih =>
      rw [calls_sendGetData, calls_append]
      simp only [List.mem_cons, List.mem_append] at he
      rcases he with he | he | he
      · cases he
      · exact absurd he hrecv.not_getBlock
      · obtain ⟨p, es₁, r₁, hlt, hfetch, he', hcalls⟩ := ih he
        exact ⟨p, es₁, r₁, hlt, hfetch, he', List.subset_append_of_subset_right _ hcalls⟩
  | runFailed _ _ _ hrecv =>
      rcases List.mem_cons.mp he with he | he
      · cases he
      · exact absurd he hrecv.not_getBlock
  | unsent _ _ _ => cases List.mem_singleton.mp he

/-- On a pruned node only, a block is requested by the fetch of a pruned position. -/
theorem forBlocksWith_exists_fetched {batch : List BlockHash} {budget : ℕ} {es : Trace}
    {r : Rust Unit} (h : Exec (d.forBlocksWith H batch budget) es r) {client : RpcClient}
    {hash : BlockHash} {reply : Outside (List Char)}
    (he : ⟨.getBlock client hash, reply⟩ ∈ es) :
    d.pruned ∧ ∃ hash' es₁ r₁, Fetched H d hash' es₁ r₁
      ∧ ⟨.getBlock client hash, reply⟩ ∈ es₁ ∧ calls es₁ ⊆ calls es := by
  rcases forBlocksWith_walked h with ⟨fault, -, -, hread, -⟩ |
    ⟨es₀, es', pruneHeight, ps, rfl, hread, rfl, harchival, hwalked⟩
  · exact (hread _ he).elim
  · rcases List.mem_append.mp he with he | he
    · exact (hread _ he).elim
    · obtain ⟨p, es₁, r₁, hlt, hfetch, he₁, hcalls⟩ := hwalked.exists_fetched he
      rw [calls_append]
      refine ⟨by_contra fun hno => ?_, p.1, es₁, r₁, hfetch, he₁,
        List.subset_append_of_subset_right _ hcalls⟩
      rw [harchival hno] at hlt
      exact Nat.not_lt_zero _ hlt

/-- Without a helper on a pruned node nothing comes from it. -/
theorem helperCanonical_of_not {batch : List BlockHash} {budget : ℕ} {es : Trace} {r : Rust Unit}
    (h : Exec (d.forBlocksWith H batch budget) es r) (hd : ¬ (d.pruned ∧ d.helper))
    (canon : BlockHash → Bytes) : HelperCanonical H canon es := by
  intro hash reply block he _
  obtain ⟨hpruned, hash', es₁, r₁, hfetch, he₁, -⟩ := forBlocksWith_exists_fetched h he
  exact absurd ⟨hpruned, hfetch.helper he₁⟩ hd

/-! ### Faults of the usual sources -/

variable (H) in
/-- A request to a usual source fails, or the block received is not the one
whose turn it is. -/
def AtFault (batch : List BlockHash) (n : ℕ) : Event DaemonOp.Reply → Prop
  | ⟨.getBlockchainInfo, reply⟩ => ∀ height, pruneHeightOf reply ≠ .ok height
  | ⟨.getBlockHeaders hashes, reply⟩ => ∀ heights, heightsOf hashes reply ≠ .ok heights
  | ⟨.getBlock .bitcoind _, reply⟩ => ∀ block, blockOf reply ≠ .ok block
  | ⟨.sendGetData _, reply⟩ => reply ≠ .ok ()
  | ⟨.recvBlock, reply⟩ => ∃ hash ∈ batch[n]?, ∀ block, reply = .ok block → ¬ Names H block hash
  | _ => False

variable (H) in
/-- The usual sources answer every request, and the peer in turn. -/
def Faultless (batch : List BlockHash) (es : Trace) : Prop :=
  Always (fun pre e => ¬ AtFault H batch (calls pre).length e) es

theorem Faultless.of_mem {batch : List BlockHash} {es : Trace} (h : Faultless H batch es)
    {e : Event DaemonOp.Reply} (he : e ∈ es) : ∃ n, ¬ AtFault H batch n e := by
  obtain ⟨pre, post, rfl⟩ := List.append_of_mem he
  exact ⟨_, h pre e post rfl⟩

theorem AtFault.mono {batch batch' : List BlockHash} {n n' : ℕ} {e : Event DaemonOp.Reply}
    (h : AtFault H batch n e) (hn : ∀ hash ∈ batch[n]?, hash ∈ batch'[n']?) :
    AtFault H batch' n' e := by
  rcases e with ⟨op, reply⟩
  cases op
  case recvBlock =>
    obtain ⟨hash, hhash, hrefused⟩ := h
    exact ⟨hash, hn hash hhash, hrefused⟩
  case getBlock client hash => cases client <;> exact h
  all_goals exact h

/-- A front of the batch was faultless as well. -/
theorem Faultless.front {run rest : List BlockHash} {es : Trace}
    (h : Faultless H (run ++ rest) es) : Faultless H run es := by
  intro pre e post heq hfault
  refine h pre e post heq (hfault.mono fun hash hhash => ?_)
  have hlt := (List.getElem?_eq_some_iff.mp hhash).1
  exact (List.getElem?_append_left hlt).trans hhash

/-- The rest of the batch was faultless as well. -/
theorem Faultless.rest {run rest : List BlockHash} {es es' : Trace}
    (h : Faultless H (run ++ rest) (es ++ es')) (hrun : (calls es).length = run.length) :
    Faultless H rest es' := by
  intro pre e post heq hfault
  refine h.of_append pre e post heq (hfault.mono fun hash hhash => ?_)
  rw [calls_append, List.length_append, hrun,
    List.getElem?_append_right (Nat.le_add_right _ _), Nat.add_sub_cancel_left]
  exact hhash

theorem Received.ok_of_faultless {hashes : List BlockHash} {es : Trace} {r : Rust Unit}
    (h : Received H hashes es r) (hfaultless : Faultless H hashes es) : r = .ok () := by
  induction h with
  | done => rfl
  | @refused hash rest reply chain hrefused =>
      -- the peer was not in turn
      exact absurd ⟨hash, rfl, hrefused⟩ (hfaultless [] _ [] rfl)
  | @next hash rest block es r _ _ ih =>
      exact ih (@Faultless.rest _ [hash] rest [⟨.recvBlock, .ok block⟩, ⟨.func hash block, ()⟩] es
        hfaultless rfl)

/-- A walk fails only through a fault of a usual source. -/
theorem Walked.ok_of_faultless {ps : List Position} {es : Trace} {r : Rust Unit}
    (h : Walked H d pruneHeight ps es r) (hfaultless : Faultless H (ps.map Prod.fst) es) :
    r = .ok () := by
  induction h with
  | done => rfl
  | @pruned p rest es es' r _ hfetch _ ih =>
      refine ih (@Faultless.rest _ [p.1] (rest.map Prod.fst) es es' hfaultless ?_)
      rw [← List.length_map Prod.fst, hfetch.calls_of_ok]
  | prunedFailed _ hfetch =>
      obtain _ | ⟨-, ⟨reply, he, hfailed⟩, -⟩ := hfetch
      obtain ⟨n, hn⟩ := hfaultless.of_mem he
      exact absurd hfailed hn
  | @run run rest es es' r _ _ _ hrecv _ ih =>
      rw [List.map_append] at hfaultless
      refine ih (@Faultless.rest _ _ _ (⟨.sendGetData (run.map Prod.fst), .ok ()⟩ :: es) es'
        hfaultless ?_)
      rw [calls_sendGetData, ← List.length_map Prod.fst, hrecv.calls_of_ok]
  | @runFailed run rest es fault _ _ _ hrecv =>
      rw [List.map_append] at hfaultless
      have hafter : Faultless H (run.map Prod.fst) es :=
        @Faultless.rest _ [] _ [⟨.sendGetData (run.map Prod.fst), .ok ()⟩] es hfaultless.front rfl
      exact hrecv.ok_of_faultless hafter
  | unsent _ _ _ => exact absurd (fun h => by cases h) (hfaultless [] _ [] rfl)

theorem forBlocksWith_ok {batch : List BlockHash} {budget : ℕ} {es : Trace} {r : Rust Unit}
    (h : Exec (d.forBlocksWith H batch budget) es r) (hfaultless : Faultless H batch es) :
    r = .ok () := by
  rcases forBlocksWith_walked h with ⟨fault, -, -, -, e, he, hfailed⟩ |
    ⟨es₀, es', pruneHeight, ps, rfl, hread, rfl, -, hwalked⟩
  · exfalso
    obtain ⟨n, hn⟩ := hfaultless.of_mem he
    -- one of the two reads has failed
    rcases hfailed with ⟨reply, chain, rfl, hchain⟩ | ⟨reply, chain, rfl, hchain⟩
    · refine hn fun height hok => ?_
      rw [hok] at hchain
      cases hchain
    · refine hn fun heights hok => ?_
      rw [hok] at hchain
      cases hchain
  · refine hwalked.ok_of_faultless (@Faultless.rest _ [] _ es₀ es' hfaultless ?_)
    rw [calls_of_reading hread]
    rfl

/-! ### Sources that answer -/

/-- Sources that answer every request: what bitcoind says of its blocks, and the
block that each source returns for a hash. -/
structure Sources where
  pruneHeight : ℕ
  heightOf : BlockHash → ℕ
  rpc : BlockHash → Bytes
  helper : BlockHash → Bytes
  peer : BlockHash → Bytes

namespace Sources

/-- What is answered after what has happened before; the clock shows the time
slept, and the peer sends the blocks of the batch in turn. -/
def reply (s : Sources) (batch : List BlockHash) (before : Trace) : (op : DaemonOp) → op.Reply
  | .now => before.foldl clockAfter 0
  | .sleep _ => ()
  | .pollExit => .ok ()
  | .getBlockchainInfo => .ok ⟨some s.pruneHeight⟩
  | .getBlockHeaders hashes =>
      .ok ⟨hashes.map fun hash => some (.ok (s.heightOf hash)), List.length_map _⟩
  | .getBlock .bitcoind hash => .ok (toHex (s.rpc hash))
  | .getBlock .helper hash => .ok (toHex (s.helper hash))
  | .loadCeiling => 2 ^ 64 - 1
  | .swapCeiling _ => 2 ^ 64 - 1
  | .sendGetData _ => .ok ()
  | .recvBlock =>
      match batch[(calls before).length]? with
      | some hash => .ok (s.peer hash)
      | none => .error ["channel closed"]
  | .func _ _ => ()

/-- A call with these sources: what happens, and the outcome.  Irreducible, so
that a proof only runs the call where it says so. -/
@[irreducible] def serve (s : Sources) (H : Hashes) (d : Daemon) (batch : List BlockHash)
    (budget : ℕ) : Trace × Rust Unit :=
  (d.forBlocksWith H batch budget).run (s.reply batch) []

variable (s : Sources) (H : Hashes) (d : Daemon) (batch : List BlockHash) (budget : ℕ)

theorem exec_serve :
    Exec (d.forBlocksWith H batch budget) (s.serve H d batch budget).1
      (s.serve H d batch budget).2 := by
  rw [serve]
  exact exec_run _ [] _

variable {H d batch budget s} in
/-- Every reply is that of the sources. -/
theorem event_eq {pre post : Trace} {e : Event DaemonOp.Reply}
    (h : (s.serve H d batch budget).1 = pre ++ e :: post) : e = ⟨e.op, s.reply batch pre e.op⟩ := by
  rcases e with ⟨op, given⟩
  rw [serve] at h
  exact congrArg (Event.mk op) (reply_of_run h)

theorem clock_of_ticks {es : Trace} {t : ℕ}
    (h : Always (fun pre e => Tick (pre.foldl clockAfter t) e) es) : Clock t es := by
  induction es generalizing t with
  | nil => trivial
  | cons e es ih => exact ⟨h [] e es rfl, ih (@Always.of_append _ _ [e] es h)⟩

theorem clock_serve : Clock 0 (s.serve H d batch budget).1 := by
  refine clock_of_ticks fun pre e post heq => ?_
  rw [event_eq heq]
  rcases e with ⟨op, given⟩
  cases op
  case now => exact Nat.le_refl _
  all_goals trivial

theorem blockOf_toHex (block : Bytes) : blockOf (.ok (toHex block)) = .ok block := by
  simp only [blockOf, ofOutside, context, ok_bind, ofHex_toHex]

theorem heightsOf_reply (hashes : List BlockHash) (before : Trace) :
    heightsOf hashes (s.reply batch before (.getBlockHeaders hashes))
      = .ok (hashes.map s.heightOf) := by
  show ((hashes.map fun hash => some (.ok (s.heightOf hash))).zip hashes).mapM
    (fun p => heightOfAnswer p.1 p.2) = .ok (hashes.map s.heightOf)
  induction hashes with
  | nil => rfl
  | cons hash hashes ih =>
      rw [List.map_cons, List.zip_cons_cons, List.mapM_cons, ih]
      rfl

/-- The usual sources return the canonical blocks. -/
theorem usualCanonical_serve (hpeer : s.peer = s.rpc) :
    UsualCanonical s.rpc batch (s.serve H d batch budget).1 := by
  intro pre e post heq
  rw [event_eq heq]
  rcases e with ⟨op, given⟩
  cases op
  case getBlock client hash =>
    cases client with
    | bitcoind =>
        intro block hblock
        exact (Except.ok.inj ((blockOf_toHex _).symm.trans hblock)).symm
    | helper => trivial
  case recvBlock =>
    intro block hblock hash hhash
    rw [Sources.reply, Option.mem_def.mp hhash] at hblock
    exact hpeer ▸ (Except.ok.inj hblock).symm
  all_goals trivial

theorem helperCanonical_serve (hhelper : s.helper = s.rpc) :
    HelperCanonical H s.rpc (s.serve H d batch budget).1 := by
  intro hash reply block he haccepts
  obtain ⟨pre, post, heq⟩ := List.append_of_mem he
  obtain rfl : reply = .ok (toHex (s.helper hash)) := eq_of_heq (Event.mk.inj (event_eq heq)).2
  rw [← hhelper]
  exact (Except.ok.inj ((blockOf_toHex _).symm.trans haccepts.1)).symm

theorem faultless_serve (hnames : ∀ hash ∈ batch, Names H (s.peer hash) hash) :
    Faultless H batch (s.serve H d batch budget).1 := by
  intro pre e post heq
  rw [event_eq heq]
  rcases e with ⟨op, given⟩
  cases op
  case getBlockchainInfo => exact fun hfault => hfault s.pruneHeight rfl
  case getBlockHeaders hashes => exact fun hfault => hfault _ (s.heightsOf_reply batch hashes pre)
  case getBlock client hash =>
    cases client with
    | bitcoind => exact fun hfault => hfault _ (blockOf_toHex _)
    | helper => exact id
  case sendGetData hashes => exact fun hfault => hfault rfl
  case recvBlock =>
    rintro ⟨hash, hhash, hrefused⟩
    refine hrefused (s.peer hash) ?_ (hnames hash (List.mem_of_getElem? hhash))
    rw [Sources.reply, Option.mem_def.mp hhash]
  all_goals exact id

end Sources

/-- The check of a block looks at nothing behind its header. -/
theorem names_append {header : AnyHeader} (hs : header.Streamable) (body : Bytes) :
    Names H (header.serialize ++ body) (header.blockHash H) :=
  ⟨header, AnyHeader.parse_serialize_append hs body, rfl⟩

/-- The hash of the genesis block of regtest. -/
def genesisHash : BlockHash := regtestGenesis.blockHash knownHashes

/-- The hash of block 1 of regtest. -/
def block1Hash : BlockHash := regtestBlock1.blockHash knownHashes

/-- The transaction of the genesis block. -/
def genesisCoinbase : Bytes := headerBytes 204
  0x01000000010000000000000000000000000000000000000000000000000000000000000000ffffffff4d04ffff001d0104455468652054696d65732030332f4a616e2f32303039204368616e63656c6c6f72206f6e206272696e6b206f66207365636f6e64206261696c6f757420666f722062616e6b73ffffffff0100f2052a01000000434104678afdb0fe5548271967f1a67130b7105cd6a828e03909a67962e0ea1f61deb649f6bc3f4cef38c4f35504e51ec112de5c384df7ba0b8d578a4c702b6bf11d5fac00000000

/-- The genesis block, and the block after it with its transactions left out. -/
def regtestBlock (hash : BlockHash) : Bytes :=
  if hash = genesisHash then (AnyHeader.v1 regtestGenesis).serialize ++ 1 :: genesisCoinbase
  else (AnyHeader.v1 regtestBlock1).serialize ++ [0]

theorem names_regtestBlock :
    ∀ hash ∈ [genesisHash, block1Hash], Names knownHashes (regtestBlock hash) hash := by
  have hgenesis : (AnyHeader.v1 regtestGenesis).Streamable := by decide +kernel
  have hblock1 : (AnyHeader.v1 regtestBlock1).Streamable := by decide +kernel
  have hne : block1Hash ≠ genesisHash := by decide +kernel
  intro hash hmem
  rcases List.mem_pair.mp hmem with rfl | rfl
  · rw [regtestBlock, if_pos rfl]
    exact names_append hgenesis _
  · rw [regtestBlock, if_neg hne]
    exact names_append hblock1 _

/-- The genesis block is pruned, and every source returns the canonical blocks. -/
def regtestSources : Sources where
  pruneHeight := 1
  heightOf hash := if hash = genesisHash then 0 else 1
  rpc := regtestBlock
  helper := regtestBlock
  peer := regtestBlock

/-- Both blocks from these sources. -/
def regtestCall (d : Daemon) : Trace × Rust Unit :=
  regtestSources.serve knownHashes d [genesisHash, block1Hash] retryBudgetQuery

theorem exec_regtestCall (d : Daemon) :
    Exec (d.forBlocks knownHashes [genesisHash, block1Hash]) (regtestCall d).1 (regtestCall d).2 :=
  regtestSources.exec_serve knownHashes d _ _

theorem clock_regtestCall (d : Daemon) : Clock 0 (regtestCall d).1 :=
  regtestSources.clock_serve knownHashes d _ _

theorem usualCanonical_regtestCall (d : Daemon) :
    UsualCanonical regtestBlock [genesisHash, block1Hash] (regtestCall d).1 :=
  regtestSources.usualCanonical_serve knownHashes d _ _ rfl

theorem helperCanonical_regtestCall (d : Daemon) :
    HelperCanonical knownHashes regtestBlock (regtestCall d).1 :=
  regtestSources.helperCanonical_serve knownHashes d _ _ rfl

theorem faultless_regtestCall (d : Daemon) :
    Faultless knownHashes [genesisHash, block1Hash] (regtestCall d).1 :=
  regtestSources.faultless_serve knownHashes d _ _ names_regtestBlock

/-! ### Refinement -/

/-- **A batch from a pruned node refines the batch from an archival one.**

Under the clock a call on a pruned node returns.  It passes on a front of the
batch in order, and all of it exactly when it returns `Ok`.  Unless it fails
while reading heights, every event after the reads is routed by the prune height
that was read, and the blocks asked for over p2p are those at or above it.  Where
the blocks that arrive are the canonical ones, the calls are those of the
archival path whenever both return `Ok`, and both do if the usual sources are
never at fault. -/
theorem forBlocksWith_refines (hd : d.pruned) {batch : List BlockHash} {budget t : ℕ}
    {es : Trace} {r : Rust Unit} (h : Exec (d.forBlocksWith H batch budget) es r)
    (hclock : Clock t es) :
    Returns r
      ∧ (calls es).map Prod.fst <+: batch
      ∧ (r = .ok () ↔ (calls es).map Prod.fst = batch)
      ∧ ((∀ e ∈ es, Reading e) ∨ ∃ es₀ es' pruneHeight ps, es = es₀ ++ es'
          ∧ Resolved batch es₀ pruneHeight ps ∧ AllRouted H pruneHeight ps 0 [] es'
          ∧ requested es' <+: locals pruneHeight ps
          ∧ (r = .ok () → requested es' = locals pruneHeight ps))
      ∧ ∀ (archival : Daemon) (budget' : ℕ) (es' : Trace) (r' : Rust Unit)
          (canon : BlockHash → Bytes),
          archival.pruned = false → Exec (archival.forBlocksWith H batch budget') es' r' →
          UsualCanonical canon batch es → HelperCanonical H canon es →
          UsualCanonical canon batch es' →
          (r = .ok () → r' = .ok () → calls es = calls es')
          ∧ (Faultless H batch es → Faultless H batch es' →
              r = .ok () ∧ r' = .ok () ∧ calls es = calls es') := by
  obtain ⟨hfront, hok⟩ := forBlocksWith_inOrder h
  refine ⟨?_, hfront, hok, ?_, ?_⟩
  · rcases forBlocksWith_cases hd h with ⟨-, -, rfl⟩ | ⟨-, hread | hwalk⟩
    · exact returns_ok ()
    · obtain ⟨fault, rfl, -, -, hret⟩ := hread
      exact returns_error_iff.mpr (hret t hclock)
    · obtain ⟨es₀, es', pruneHeight, ps, rfl, -, hwalked⟩ := hwalk
      exact hwalked.returns (clock_append.mp hclock).2
  · rcases forBlocksWith_cases hd h with ⟨-, rfl, -⟩ | ⟨-, hread | hwalk⟩
    · exact .inl fun e he => absurd he List.not_mem_nil
    · exact .inl hread.choose_spec.2.1
    · obtain ⟨es₀, es', pruneHeight, ps, rfl, hresolved, hwalked⟩ := hwalk
      exact .inr ⟨es₀, es', pruneHeight, ps, rfl, hresolved, hwalked.allRouted_nil,
        hwalked.requested_prefix⟩
  · intro archival budget' es' r' canon ha h' husual hhelper husual'
    -- both are the canonical blocks of the batch
    have hsame (hr : r = .ok ()) (hr' : r' = .ok ()) : calls es = calls es' := by
      rw [(forBlocksWith_canonical h husual hhelper).2 hr,
        (forBlocksWith_canonical h' husual' (helperCanonical_of_not h' (by simp [ha]) canon)).2 hr']
    refine ⟨hsame, fun hfaultless hfaultless' => ?_⟩
    have hr := forBlocksWith_ok h hfaultless
    have hr' := forBlocksWith_ok h' hfaultless'
    exact ⟨hr, hr', hsame hr hr'⟩

/-- A pruned block from the helper and a local one over p2p. -/
theorem forBlocksWith_refines_regtest :
    (regtestCall ⟨true, true⟩).2 = .ok () ∧ (regtestCall ⟨false, false⟩).2 = .ok ()
      ∧ (calls (regtestCall ⟨true, true⟩).1).map Prod.fst = [genesisHash, block1Hash]
      ∧ calls (regtestCall ⟨true, true⟩).1 = calls (regtestCall ⟨false, false⟩).1 := by
  obtain ⟨-, -, hok, -, hsame⟩ :=
    forBlocksWith_refines rfl (exec_regtestCall ⟨true, true⟩) (clock_regtestCall _)
  obtain ⟨hr, hr', hcalls⟩ := (hsame ⟨false, false⟩ _ _ _ regtestBlock rfl
    (exec_regtestCall ⟨false, false⟩) (usualCanonical_regtestCall _)
    (helperCanonical_regtestCall _) (usualCanonical_regtestCall _)).2
    (faultless_regtestCall _) (faultless_regtestCall _)
  exact ⟨hr, hr', hok.mp hr, hcalls⟩

end PrunedElectrs
