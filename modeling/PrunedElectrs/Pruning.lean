/-
PrunedElectrs/Pruning.lean

A call of `for_blocks_with` while bitcoind goes on pruning.

A `getdata` for a pruned block is answered with silence, so a block is asked for
over p2p only if it is at or above the prune height.  That height is read once a
call, and bitcoind may advance it at any moment.  A schedule interleaves the
events of one call with such advances.  The blocks that were found available and
are not yet asked for are `pending`; as long as no advance passes one of them,
every `getdata` is for blocks that bitcoind still has
(`getdata_available`).  An advance while the pruned blocks of the batch are
fetched can pass one (`getdata_pruned`).
-/
import PrunedElectrs.Refinement

namespace PrunedElectrs

open Wire Effects Runs

variable {H : Hashes} {d : Daemon}

/-! ### Schedules -/

/-- A step of either party: the call performs an operation, or bitcoind prunes. -/
inductive Action where
  | call (e : Event DaemonOp.Reply)
  | prune (height : ℕ)

/-- What happened in the call. -/
def eventsOf (acts : List Action) : Trace :=
  acts.filterMap fun a =>
    match a with
    | .call e => some e
    | .prune _ => none

@[simp] theorem eventsOf_append (acts acts' : List Action) :
    eventsOf (acts ++ acts') = eventsOf acts ++ eventsOf acts' := List.filterMap_append

/-- How far bitcoind has pruned, where `height` is its prune height before. -/
def prunedTo (height : ℕ) (acts : List Action) : ℕ :=
  acts.foldl (fun height a =>
    match a with
    | .call _ => height
    | .prune height' => height') height

@[simp] theorem prunedTo_append (height : ℕ) (acts acts' : List Action) :
    prunedTo height (acts ++ acts') = prunedTo (prunedTo height acts) acts' := List.foldl_append

/-- The prune height only grows. -/
def Grows (start : ℕ) (pre : List Action) : Action → Prop
  | .prune height => prunedTo start pre ≤ height
  | .call _ => True

/-- bitcoind tells its prune height, and the heights of its blocks. -/
def Honest (heightOf : BlockHash → ℕ) (start : ℕ) (pre : List Action) : Action → Prop
  | .call ⟨.getBlockchainInfo, reply⟩ =>
      ∀ height, pruneHeightOf reply = .ok height → height = prunedTo start pre
  | .call ⟨.getBlockHeaders hashes, reply⟩ =>
      ∀ heights, heightsOf hashes reply = .ok heights → heights = hashes.map heightOf
  | _ => True

/-- The blocks of a `getdata` are not pruned when it is sent. -/
def Available (heightOf : BlockHash → ℕ) (start : ℕ) (pre : List Action) : Action → Prop
  | .call ⟨.sendGetData hashes, _⟩ => ∀ hash ∈ hashes, prunedTo start pre ≤ heightOf hash
  | _ => True

/-! ### Blocks that are pending -/

/-- The prune height that an event reads. -/
def readOf : Event DaemonOp.Reply → Option ℕ
  | ⟨.getBlockchainInfo, reply⟩ => (pruneHeightOf reply).toOption
  | _ => none

/-- The prune height that the call has read. -/
def pruneHeightRead (es : Trace) : Option ℕ := es.findSome? readOf

/-- The blocks that were found available, as far as they are not yet asked for. -/
def pending (heightOf : BlockHash → ℕ) (batch : List BlockHash) (es : Trace) : List BlockHash :=
  match pruneHeightRead es with
  | none => []
  | some height =>
      (batch.filter fun hash => decide (height ≤ heightOf hash)).drop (requested es).length

/-- bitcoind does not prune a block that is pending. -/
def Spares (heightOf : BlockHash → ℕ) (batch : List BlockHash) (pre : List Action) : Action → Prop
  | .prune height => ∀ hash ∈ pending heightOf batch (eventsOf pre), height ≤ heightOf hash
  | .call _ => True

variable {heightOf : BlockHash → ℕ} {batch : List BlockHash} {start : ℕ}

theorem readOf_eq_some {e : Event DaemonOp.Reply} {height : ℕ} (h : readOf e = some height) :
    ∃ reply, e = ⟨.getBlockchainInfo, reply⟩ ∧ pruneHeightOf reply = .ok height := by
  rcases e with ⟨op, reply⟩
  cases op
  case getBlockchainInfo =>
    refine ⟨reply, rfl, ?_⟩
    rw [readOf] at h
    rcases hreply : pruneHeightOf reply with fault | height'
    · rw [hreply] at h
      cases h
    · rw [hreply] at h
      exact congrArg _ (Option.some.inj h)
  all_goals cases h

theorem pruneHeightRead_append (es es' : Trace) :
    pruneHeightRead (es ++ es') = (pruneHeightRead es).or (pruneHeightRead es') :=
  List.findSome?_append

/-- An operation of the call makes a block pending only by reading the prune height. -/
theorem mem_pending_concat {es : Trace} {e : Event DaemonOp.Reply} {hash : BlockHash}
    (h : hash ∈ pending heightOf batch (es ++ [e])) :
    hash ∈ pending heightOf batch es
      ∨ ∃ height, readOf e = some height ∧ height ≤ heightOf hash := by
  rw [pending, pruneHeightRead_append] at h
  rcases hread : pruneHeightRead es with - | height
  -- the prune height was not read before: it is now, or still is not
  · rw [hread, Option.none_or, pruneHeightRead, List.findSome?_singleton] at h
    rcases hone : readOf e with - | height
    · rw [hone] at h
      cases h
    · rw [hone] at h
      have hmem := List.mem_of_mem_drop h
      exact .inr ⟨height, rfl, of_decide_eq_true (List.mem_filter.mp hmem).2⟩
  · rw [hread, Option.some_or] at h
    rw [pending, hread]
    refine .inl (List.drop_subset_drop_left _ ?_ h)
    rw [requested_append, List.length_append]
    exact Nat.le_add_right _ _

/-- **The pending blocks are not pruned**: the invariant of every schedule in
which bitcoind spares them. -/
theorem pending_available {acts : List Action} (hhonest : Always (Honest heightOf start) acts)
    (hspares : Always (Spares heightOf batch) acts) :
    ∀ hash ∈ pending heightOf batch (eventsOf acts), prunedTo start acts ≤ heightOf hash := by
  induction acts using List.reverseRecOn with
  | nil => exact fun hash h => by cases h
  | append_singleton acts a ih =>
      have hih := ih hhonest.front hspares.front
      have hlast := hhonest acts a [] rfl
      intro hash h
      rw [prunedTo_append]
      cases a with
      -- bitcoind prunes: no further than the pending blocks
      | prune height =>
          rw [eventsOf_append] at h
          exact hspares acts (.prune height) [] rfl hash (by simpa [eventsOf] using h)
      | call e =>
          rw [eventsOf_append] at h
          -- the height that is read is the height there is
          rcases mem_pending_concat h with hbefore | ⟨height, hread, hle⟩
          · exact hih hash hbefore
          · obtain ⟨reply, rfl, hreply⟩ := readOf_eq_some hread
            obtain rfl : height = prunedTo start acts := hlast height hreply
            exact hle

/-! ### What the call asks for is pending -/

theorem Failed.readOf_eq_none {e : Event DaemonOp.Reply}
    (h : Waiting e ∨ Failed .getBlockchainInfo pruneHeightOf e) : readOf e = none := by
  rcases hread : readOf e with - | height
  · rfl
  · obtain ⟨reply, rfl, hok⟩ := readOf_eq_some hread
    rcases h with hw | ⟨reply', chain, heq, hfailed⟩
    · exact hw.elim
    · cases heq
      rw [hok] at hfailed
      cases hfailed

theorem Resolved.pruneHeightRead_eq {es : Trace} {pruneHeight : ℕ} {ps : List Position}
    (h : Resolved batch es pruneHeight ps) : pruneHeightRead es = some pruneHeight := by
  obtain ⟨hes, hread, -, -, -⟩ := h
  have hnone : pruneHeightRead _ = none := List.findSome?_eq_none_iff.mpr fun e he =>
    Failed.readOf_eq_none (hes e he)
  rw [pruneHeightRead_append, hnone, Option.none_or, pruneHeightRead, List.findSome?_cons, readOf,
    hread]
  rfl

theorem Reading.requested_eq {es : Trace} (h : ∀ e ∈ es, Reading e) : requested es = [] := by
  rw [requested, List.flatMap_eq_nil_iff]
  intro e he
  rcases e with ⟨op, reply⟩
  cases op
  case sendGetData hashes => exact (h _ he).elim
  all_goals rfl

/-- With the heights that bitcoind tells, the blocks routed to p2p are those at
or above the prune height. -/
theorem locals_eq_filter {ps : List Position} {pruneHeight : ℕ}
    (h : ∀ p ∈ ps, p.2 = heightOf p.1) :
    locals pruneHeight ps
      = (ps.map Prod.fst).filter fun hash => decide (pruneHeight ≤ heightOf hash) := by
  rw [locals, List.filter_map]
  refine congrArg _ (List.filter_congr fun p hp => ?_)
  rw [Function.comp_apply, h p hp]

theorem Resolved.heights {es : Trace} {pruneHeight : ℕ} {ps : List Position}
    (h : Resolved batch es pruneHeight ps) :
    ∃ reply, ⟨.getBlockHeaders batch, reply⟩ ∈ es
      ∧ heightsOf batch reply = .ok (ps.map Prod.snd) := by
  obtain ⟨-, -, -, hheights, -⟩ := h
  exact ⟨_, by simp, hheights⟩

theorem heights_of_honest {acts : List Action} (h : Always (Honest heightOf start) acts)
    {hashes : List BlockHash} {reply : Outside (List.Vector (Option (Outside ℕ)) hashes.length)}
    (he : ⟨.getBlockHeaders hashes, reply⟩ ∈ eventsOf acts) {heights : List ℕ}
    (hok : heightsOf hashes reply = .ok heights) : heights = hashes.map heightOf := by
  obtain ⟨a, ha, hcall⟩ := List.mem_filterMap.mp he
  obtain ⟨pre, post, rfl⟩ := List.append_of_mem ha
  have hhere := h pre a post rfl
  cases a with
  | call e =>
      obtain rfl := Option.some.inj hcall
      exact hhere heights hok
  | prune height => cases hcall

/-- The blocks of a `getdata` were pending when it was sent. -/
theorem Walked.mem_pending {pruneHeight : ℕ} {ps : List Position} {es₀ pre post : Trace}
    {r : Rust Unit} {hashes : List BlockHash} {reply : Outside Unit}
    (h : Walked H d pruneHeight ps (pre ++ ⟨.sendGetData hashes, reply⟩ :: post) r)
    (hresolved : Resolved batch es₀ pruneHeight ps) (hheights : ∀ p ∈ ps, p.2 = heightOf p.1)
    {hash : BlockHash} (hmem : hash ∈ hashes) : hash ∈ pending heightOf batch (es₀ ++ pre) := by
  obtain ⟨before, run, after, hps, -, rfl, -, hlocal, -, -, hasked⟩ :=
    h.allRouted_nil pre _ post rfl
  have hlocals : batch.filter (fun hash => decide (pruneHeight ≤ heightOf hash))
      = locals pruneHeight before ++ (run.map Prod.fst ++ locals pruneHeight after) := by
    rw [← hresolved.positions, ← locals_eq_filter hheights, hps, locals_append, locals_append,
      locals_of_local hlocal]
  rw [pending, pruneHeightRead_append, hresolved.pruneHeightRead_eq, Option.some_or]
  show hash ∈ List.drop _ _
  rw [hlocals, requested_append, Reading.requested_eq hresolved.reading, List.nil_append,
    show requested pre = locals pruneHeight before from hasked, List.drop_left]
  exact List.mem_append_left _ hmem

theorem split_of_not_mem {α : Type} {a : α} {l l' pre post : List α} (h : a ∉ l)
    (heq : pre ++ a :: post = l ++ l') : ∃ pre', pre = l ++ pre' ∧ l' = pre' ++ a :: post := by
  rcases List.append_eq_append_iff.mp heq with ⟨mid, rfl, hmid⟩ | ⟨mid, rfl, rfl⟩
  · cases mid with
    | nil => exact ⟨[], by simp, by simpa using hmid.symm⟩
    | cons x mid =>
        obtain ⟨rfl, -⟩ := List.cons.inj hmid
        exact absurd (List.mem_append_right _ List.mem_cons_self) h
  · exact ⟨mid, rfl, rfl⟩

/-- **No pruned block is asked for over p2p** in a schedule in which bitcoind
prunes no block that was found available and is not yet asked for. -/
theorem getdata_available (hd : d.pruned) {budget : ℕ} {acts : List Action} {r : Rust Unit}
    (h : Exec (d.forBlocksWith H batch budget) (eventsOf acts) r)
    (hhonest : Always (Honest heightOf start) acts)
    (hspares : Always (Spares heightOf batch) acts) : Always (Available heightOf start) acts := by
  rintro pre (⟨⟨op, reply⟩⟩ | height) post rfl
  swap
  · trivial
  cases op
  case sendGetData hashes =>
    refine fun hash hmem => pending_available hhonest.front hspares.front hash ?_
    have hevents : eventsOf (pre ++ .call ⟨.sendGetData hashes, reply⟩ :: post)
        = eventsOf pre ++ ⟨.sendGetData hashes, reply⟩ :: eventsOf post := by
      rw [eventsOf_append]
      rfl
    rw [hevents] at h
    have hsent : (⟨.sendGetData hashes, reply⟩ : Event DaemonOp.Reply)
        ∈ eventsOf pre ++ ⟨.sendGetData hashes, reply⟩ :: eventsOf post := by simp
    rcases forBlocksWith_cases hd h with ⟨-, hnil, -⟩ | ⟨-, hread | hwalk⟩
    · rw [hnil] at hsent
      cases hsent
    · exact (hread.choose_spec.2.1 _ hsent).elim
    · obtain ⟨es₀, es', pruneHeight, ps, hsplit, hresolved, hwalked⟩ := hwalk
      -- the request comes after the reads
      have hnot : (⟨.sendGetData hashes, reply⟩ : Event DaemonOp.Reply) ∉ es₀ := fun he =>
        (hresolved.reading _ he).elim
      obtain ⟨pre', hpre, rfl⟩ := split_of_not_mem hnot hsplit
      rw [hpre]
      refine hwalked.mem_pending hresolved (fun p hp => ?_) hmem
      obtain ⟨reply', he, hok⟩ := hresolved.heights
      have hheights : ps.map Prod.snd = batch.map heightOf := by
        refine heights_of_honest hhonest ?_ hok
        rw [hevents, hsplit]
        exact List.mem_append_left _ he
      rw [← hresolved.positions, List.map_map] at hheights
      exact List.map_inj_left.mp hheights p hp
  all_goals trivial

/-! ### An advance during a call -/

/-- The schedule of a call in which bitcoind prunes once, after `n` operations. -/
def advanceAfter (n height : ℕ) (es : Trace) : List Action :=
  (es.take n).map .call ++ (.prune height :: (es.drop n).map .call)

theorem eventsOf_calls (es : Trace) : eventsOf (es.map .call) = es := by
  rw [eventsOf, List.filterMap_map]
  exact List.filterMap_some

theorem prunedTo_calls (height : ℕ) (es : Trace) : prunedTo height (es.map .call) = height := by
  induction es with
  | nil => rfl
  | cons e es ih => exact ih

theorem eventsOf_advanceAfter (n height : ℕ) (es : Trace) :
    eventsOf (advanceAfter n height es) = es := by
  rw [advanceAfter, eventsOf_append, eventsOf_calls]
  exact (congrArg _ (eventsOf_calls (es.drop n))).trans (List.take_append_drop n es)

theorem always_calls {P : List Action → Action → Prop} {es : Trace}
    (h : ∀ pre : Trace, ∀ e ∈ es, P (pre.map .call) (.call e)) : Always P (es.map .call) := by
  intro pre a post heq
  obtain ⟨es₁, es₂, rfl, rfl, hrest⟩ := List.map_eq_append_iff.mp heq
  obtain ⟨e, es₃, rfl, rfl, -⟩ := List.map_eq_cons_iff.mp hrest
  exact h es₁ e (by simp)

/-- What holds in a schedule with one advance: before it, at it, and after it. -/
theorem always_advanceAfter {P : List Action → Action → Prop} {n height : ℕ} {es : Trace}
    (hbefore : ∀ pre : Trace, ∀ e ∈ es.take n, P (pre.map .call) (.call e))
    (hat : P ((es.take n).map .call) (.prune height))
    (hafter : ∀ pre : Trace, ∀ e ∈ es.drop n,
      P ((es.take n).map .call ++ (.prune height :: pre.map .call)) (.call e)) :
    Always P (advanceAfter n height es) := by
  refine Always.append (always_calls hbefore) ?_
  rw [← List.singleton_append]
  refine Always.append (always_singleton ?_) (always_calls hafter)
  rwa [List.append_nil]

/-- The sources are honest in a schedule in which the prune height is read
before the advance. -/
theorem Sources.honest_advanceAfter (s : Sources) (H : Hashes) (d : Daemon)
    (batch : List BlockHash) (budget n height : ℕ)
    (hread : ∀ e ∈ (s.serve H d batch budget).1.drop n, e.op ≠ .getBlockchainInfo) :
    Always (Honest s.heightOf s.pruneHeight)
      (advanceAfter n height (s.serve H d batch budget).1) := by
  have hcall {pre : List Action} {e : Event DaemonOp.Reply}
      (he : e ∈ (s.serve H d batch budget).1)
      (hpruned : e.op = .getBlockchainInfo → prunedTo s.pruneHeight pre = s.pruneHeight) :
      Honest s.heightOf s.pruneHeight pre (.call e) := by
    obtain ⟨before, after, heq⟩ := List.append_of_mem he
    rw [event_eq heq]
    rcases e with ⟨op, given⟩
    cases op
    case getBlockchainInfo =>
      intro height hok
      rw [hpruned rfl]
      exact (Except.ok.inj hok).symm
    case getBlockHeaders hashes =>
      intro heights hok
      exact (Except.ok.inj ((s.heightsOf_reply batch hashes before).symm.trans hok)).symm
    all_goals trivial
  refine always_advanceAfter (fun pre e he => ?_) trivial fun pre e he => ?_
  · exact hcall (List.mem_of_mem_take he) fun _ => prunedTo_calls _ pre
  · exact hcall (List.mem_of_mem_drop he) fun hop => absurd hop (hread e he)

/-- The genesis block over RPC, then the block after it over p2p. -/
def regtestEvents : Trace := (regtestCall ⟨true, false⟩).1

theorem regtestEvents_ops : regtestEvents.map Event.op =
    [.now, .getBlockchainInfo, .now, .getBlockHeaders [genesisHash, block1Hash], .now,
      .getBlock .bitcoind genesisHash, .func genesisHash (regtestBlock genesisHash),
      .sendGetData [block1Hash], .recvBlock, .func block1Hash (regtestBlock block1Hash)] := by
  decide +kernel

theorem exec_regtestEvents (n height : ℕ) :
    ∃ r, Exec (Daemon.forBlocks knownHashes ⟨true, false⟩ [genesisHash, block1Hash])
      (eventsOf (advanceAfter n height regtestEvents)) r := by
  rw [eventsOf_advanceAfter, regtestEvents]
  exact ⟨_, exec_regtestCall ⟨true, false⟩⟩

theorem honest_regtestEvents {n : ℕ} (hn : 2 ≤ n) (height : ℕ) :
    Always (Honest regtestSources.heightOf 1) (advanceAfter n height regtestEvents) := by
  rw [regtestEvents, regtestCall]
  refine regtestSources.honest_advanceAfter knownHashes _ _ _ n height fun e he => ?_
  have hop := List.mem_map_of_mem (f := Event.op) (List.drop_subset_drop_left _ hn he)
  rw [List.map_drop, ← regtestCall, ← regtestEvents, regtestEvents_ops] at hop
  intro hinfo
  rw [hinfo] at hop
  simp at hop

/-- bitcoind prunes block 1 after it was asked for. -/
theorem getdata_available_regtest :
    Always (Available regtestSources.heightOf 1) (advanceAfter 8 2 regtestEvents) := by
  obtain ⟨r, hexec⟩ := exec_regtestEvents 8 2
  have hpending : pending regtestSources.heightOf [genesisHash, block1Hash]
      (regtestEvents.take 8) = [] := by decide +kernel
  refine getdata_available rfl hexec (honest_regtestEvents (by decide) 2)
    (always_advanceAfter (fun _ _ _ => trivial) (fun hash hmem => ?_) fun _ _ _ => trivial)
  rw [eventsOf_calls, hpending] at hmem
  cases hmem

/-- bitcoind prunes block 1 while the genesis block is fetched over RPC, and
block 1 is then asked for over p2p. -/
theorem getdata_pruned :
    ¬ ∀ (H : Hashes) (d : Daemon) (batch : List BlockHash) (budget : ℕ)
        (heightOf : BlockHash → ℕ) (start : ℕ) (acts : List Action) (r : Rust Unit),
        d.pruned → Exec (d.forBlocksWith H batch budget) (eventsOf acts) r →
        Always (Honest heightOf start) acts → Always (Grows start) acts →
        Always (Available heightOf start) acts := by
  intro hclaim
  obtain ⟨r, hexec⟩ := exec_regtestEvents 7 2
  have hgrows : Always (Grows 1) (advanceAfter 7 2 regtestEvents) := by
    refine always_advanceAfter (fun _ _ _ => trivial) ?_ fun _ _ _ => trivial
    rw [Grows, prunedTo_calls]
    decide
  have hall := hclaim _ _ _ _ _ _ _ _ rfl hexec (honest_regtestEvents (by decide) 2) hgrows
  have hops : (regtestEvents.drop 7).map Event.op
      = [.sendGetData [block1Hash], .recvBlock, .func block1Hash (regtestBlock block1Hash)] := by
    rw [List.map_drop, regtestEvents_ops]
    rfl
  obtain ⟨⟨op, reply⟩, rest, hdrop, rfl, -⟩ := List.map_eq_cons_iff.mp hops
  have hsent := hall ((regtestEvents.take 7).map .call ++ [.prune 2])
    (.call ⟨.sendGetData [block1Hash], reply⟩) (rest.map .call)
    (by rw [advanceAfter, hdrop, List.append_assoc]; rfl) block1Hash List.mem_cons_self
  rw [prunedTo_append, prunedTo_calls] at hsent
  exact absurd hsent (by decide +kernel)

end PrunedElectrs
