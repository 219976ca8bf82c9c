/-
PrunedElectrs/Routing.lean

A batch from a pruned node: what is asked of whom, in which order.

`Routed` says what is asked of whom, and what is passed on, as a property of an
event and of what was passed on and asked for before it; `Walked.allRouted` is
the induction over the walk.  `Walked.calls_prefix` and `Walked.requested_prefix` are
what comes of it in order: the blocks passed on, and those asked for over p2p.
-/
import PrunedElectrs.Fetch
import PrunedElectrs.Lib.Runs

namespace PrunedElectrs

open Wire Effects Runs

variable {H : Hashes}

/-! ### The reads before the walk -/

/-- The prune height and the heights of the batch were read, each at last. -/
inductive Resolved (batch : List BlockHash) : Trace → ℕ → List Position → Prop
  | intro {es es' : Trace} {reply : Outside BlockchainInfo}
      {reply' : Outside (List.Vector (Option (Outside ℕ)) batch.length)} {pruneHeight : ℕ}
      {ps : List Position} :
      (∀ e ∈ es, Waiting e ∨ Failed .getBlockchainInfo pruneHeightOf e) →
      pruneHeightOf reply = .ok pruneHeight →
      (∀ e ∈ es', Waiting e ∨ Failed (.getBlockHeaders batch) (heightsOf batch) e) →
      heightsOf batch reply' = .ok (ps.map Prod.snd) → ps.map Prod.fst = batch →
      Resolved batch
        (es ++ ⟨.getBlockchainInfo, reply⟩ :: (es' ++ [⟨.getBlockHeaders batch, reply'⟩]))
        pruneHeight ps

/-- Waiting, and reading what bitcoind knows of its blocks. -/
def Reading (e : Event DaemonOp.Reply) : Prop :=
  match e.op with
  | .getBlockchainInfo => True
  | .getBlockHeaders _ => True
  | _ => Waiting e

/-- The same, where the heights are those of this batch. -/
def ReadingOf (batch : List BlockHash) (e : Event DaemonOp.Reply) : Prop :=
  match e.op with
  | .getBlockchainInfo => True
  | .getBlockHeaders hashes => hashes = batch
  | _ => Waiting e

theorem ReadingOf.reading {batch : List BlockHash} {e : Event DaemonOp.Reply}
    (h : ReadingOf batch e) : Reading e := by
  rcases e with ⟨op, reply⟩
  cases op <;> first | exact h | trivial

theorem Waiting.readingOf {e : Event DaemonOp.Reply} (h : Waiting e) (batch : List BlockHash) :
    ReadingOf batch e := by
  rcases e with ⟨op, reply⟩
  cases op <;> first | exact h | exact h.elim

/-- The attempts of a read are readings, and so is the waiting between them. -/
theorem readingOf_of_retry {α : Type} {op : DaemonOp} {outcome : op.Reply → Rust α}
    {batch : List BlockHash} {e : Event DaemonOp.Reply} (h : Waiting e ∨ Failed op outcome e)
    (hop : ∀ reply, ReadingOf batch ⟨op, reply⟩) : ReadingOf batch e := by
  rcases h with hw | ⟨reply, chain, rfl, -⟩
  · exact hw.readingOf batch
  · exact hop reply

theorem Resolved.readingOf {batch : List BlockHash} {es : Trace} {pruneHeight : ℕ}
    {ps : List Position} (h : Resolved batch es pruneHeight ps) : ∀ e ∈ es, ReadingOf batch e := by
  obtain ⟨hes, -, hes', -, -⟩ := h
  intro e he
  simp only [List.mem_append, List.mem_cons, List.not_mem_nil, or_false] at he
  rcases he with he | rfl | he | rfl
  · exact readingOf_of_retry (hes e he) fun _ => trivial
  · trivial
  · exact readingOf_of_retry (hes' e he) fun _ => rfl
  · rfl

theorem Resolved.reading {batch : List BlockHash} {es : Trace} {pruneHeight : ℕ}
    {ps : List Position} (h : Resolved batch es pruneHeight ps) : ∀ e ∈ es, Reading e :=
  fun e he => (h.readingOf e he).reading

theorem Resolved.positions {batch : List BlockHash} {es : Trace} {pruneHeight : ℕ}
    {ps : List Position} (h : Resolved batch es pruneHeight ps) : ps.map Prod.fst = batch := by
  obtain ⟨-, -, -, -, hfst⟩ := h
  exact hfst

theorem length_of_mapM {α β : Type} {f : α → Rust β} {l : List α} {l' : List β}
    (h : l.mapM f = .ok l') : l'.length = l.length := by
  induction l generalizing l' with
  | nil =>
      obtain rfl := Except.ok.inj h
      rfl
  | cons a l ih =>
      rw [List.mapM_cons] at h
      obtain ⟨b, -, h⟩ := bind_eq_ok.mp h
      obtain ⟨bs, hbs, h⟩ := bind_eq_ok.mp h
      obtain rfl := Except.ok.inj h
      rw [List.length_cons, List.length_cons, ih hbs]

/-- One height is resolved for each block of the batch. -/
theorem length_heightsOf {batch : List BlockHash}
    {reply : Outside (List.Vector (Option (Outside ℕ)) batch.length)} {heights : List ℕ}
    (h : heightsOf batch reply = .ok heights) : heights.length = batch.length := by
  obtain ⟨results, -, hmap⟩ := bind_eq_ok.mp h
  rw [length_of_mapM hmap, List.length_zip, List.Vector.toList_length, Nat.min_self]

/-- A batch on a pruned node: nothing for an empty one; a read that failed; or
both reads and the walk. -/
theorem forBlocksWith_walk {d : Daemon} (hd : d.pruned) {batch : List BlockHash} {budget : ℕ}
    {es : Trace} {r : Rust Unit} (h : Exec (d.forBlocksWith H batch budget) es r) :
    (batch = [] ∧ es = [] ∧ r = .ok ())
      ∨ batch ≠ [] ∧
        ((∃ fault, r = .error fault ∧ (∀ e ∈ es, ReadingOf batch e)
            ∧ (∃ e ∈ es, Failed .getBlockchainInfo pruneHeightOf e
              ∨ Failed (.getBlockHeaders batch) (heightsOf batch) e)
            ∧ ∀ t, Clock t es → ∃ chain, fault = .err chain)
        ∨ ∃ es₀ es' pruneHeight ps, es = es₀ ++ es' ∧ Resolved batch es₀ pruneHeight ps
            ∧ Walk H d budget pruneHeight ps es' r) := by
  rw [Daemon.forBlocksWith, if_neg (by simp [hd])] at h
  split_ifs at h with hempty
  · obtain ⟨rfl, rfl⟩ := exec_pure.mp h
    exact .inl ⟨List.isEmpty_iff.mp hempty, rfl, rfl⟩
  refine .inr ⟨fun hnil => hempty (List.isEmpty_iff.mpr hnil), ?_⟩
  rcases exec_bind.mp h with ⟨fault, rfl, hprune⟩ | ⟨es₁, es₂, pruneHeight, rfl, hprune, hafter⟩
  · obtain ⟨hall, e, he, hfailed⟩ := retryRpc_error isCall_pruneHeight returns_pruneHeightOf hprune
    exact .inl ⟨fault, rfl, fun e he => readingOf_of_retry (hall e he) (fun _ => trivial),
      ⟨e, he, .inl hfailed⟩, fun t hclock => returns_error_iff.mp
        (retryRpc_returns (isCall_pruneHeight.returns returns_pruneHeightOf) hprune hclock)⟩
  -- the prune height was read; the heights of the batch are next
  obtain ⟨es₃, reply, rfl, hP, hall⟩ := retryRpc_ok isCall_pruneHeight returns_pruneHeightOf hprune
  rcases exec_bind.mp hafter with ⟨fault, rfl, hheights⟩ | ⟨es₄, es₅, heights, rfl, hheights, hwalk⟩
  · obtain ⟨hall', e, he, hfailed⟩ :=
      retryRpc_error (isCall_blockHeights batch) (returns_heightsOf batch) hheights
    refine .inl ⟨fault, rfl, fun e he => ?_, ⟨e, List.mem_append_right _ he, .inr hfailed⟩,
      fun t hclock => returns_error_iff.mp (retryRpc_returns
        ((isCall_blockHeights batch).returns (returns_heightsOf batch)) hheights
        (clock_append.mp hclock).2)⟩
    simp only [List.mem_append, List.mem_singleton] at he
    rcases he with (he | rfl) | he
    · exact readingOf_of_retry (hall e he) fun _ => trivial
    · trivial
    · exact readingOf_of_retry (hall' e he) fun _ => rfl
  obtain ⟨es₆, reply', rfl, hH, hall'⟩ :=
    retryRpc_ok (isCall_blockHeights batch) (returns_heightsOf batch) hheights
  have hlen := length_heightsOf hH
  have hfst : (batch.zip heights).map Prod.fst = batch := List.map_fst_zip hlen.ge
  have hsnd : (batch.zip heights).map Prod.snd = heights := List.map_snd_zip hlen.le
  -- the walk of the indices from the first on
  have hwalk : Walk H d budget pruneHeight ((batch.zip heights).drop 0) es₅ r := by
    refine walk_of_exec H (Nat.zero_le _) ?_ (by rwa [hfst, hsnd])
    rw [List.length_zip, hlen, Nat.min_self]
    omega
  rw [List.drop_zero] at hwalk
  refine .inr ⟨_, es₅, pruneHeight, batch.zip heights, ?_,
    .intro hall hP hall' (hsnd.symm ▸ hH) hfst, hwalk⟩
  simp

theorem forBlocksWith_cases {d : Daemon} (hd : d.pruned) {batch : List BlockHash} {budget : ℕ}
    {es : Trace} {r : Rust Unit} (h : Exec (d.forBlocksWith H batch budget) es r) :
    (batch = [] ∧ es = [] ∧ r = .ok ())
      ∨ batch ≠ [] ∧
        ((∃ fault, r = .error fault ∧ (∀ e ∈ es, Reading e)
            ∧ (∃ e ∈ es, Failed .getBlockchainInfo pruneHeightOf e
              ∨ Failed (.getBlockHeaders batch) (heightsOf batch) e)
            ∧ ∀ t, Clock t es → ∃ chain, fault = .err chain)
        ∨ ∃ es₀ es' pruneHeight ps, es = es₀ ++ es' ∧ Resolved batch es₀ pruneHeight ps
            ∧ Walked H d pruneHeight ps es' r) := by
  rcases forBlocksWith_walk hd h with hempty | ⟨hne, hread | hwalk⟩
  · exact .inl hempty
  · obtain ⟨fault, hr, hall, hfailed, hclock⟩ := hread
    exact .inr ⟨hne, .inl ⟨fault, hr, fun e he => (hall e he).reading, hfailed, hclock⟩⟩
  · obtain ⟨es₀, es', pruneHeight, ps, he, hps, hw⟩ := hwalk
    exact .inr ⟨hne, .inr ⟨es₀, es', pruneHeight, ps, he, hps, hw.walked⟩⟩

/-! ### The calls of `func` -/

theorem calls_eq_nil {es : Trace} (h : ∀ e ∈ es, ∀ hash block, e.op ≠ .func hash block) :
    calls es = [] := by
  rw [calls, List.filterMap_eq_nil_iff]
  intro e he
  split
  · rename_i hash block hop
    exact absurd hop (h e he hash block)
  · rfl

theorem Reading.not_func {e : Event DaemonOp.Reply} (h : Reading e) (hash : BlockHash)
    (block : Bytes) : e.op ≠ .func hash block := by
  intro hop
  rw [Reading, hop] at h
  rcases e with ⟨op, reply⟩
  obtain rfl : op = .func hash block := hop
  exact h

theorem Idle.not_func {d : Daemon} {hash' : BlockHash} {e : Event DaemonOp.Reply}
    (h : Idle H d hash' e) (hash : BlockHash) (block : Bytes) : e.op ≠ .func hash block := by
  intro hop
  cases h with
  | waiting hw =>
      rw [Waiting, hop] at hw
      exact hw
  | loaded ceiling => cases hop
  | swapped height previous => cases hop
  | refused _ _ => cases hop

theorem calls_of_reading {es : Trace} (h : ∀ e ∈ es, Reading e) : calls es = [] :=
  calls_eq_nil fun e he => (h e he).not_func

theorem calls_of_idle {d : Daemon} {hash : BlockHash} {es : Trace}
    (h : ∀ e ∈ es, Idle H d hash e) : calls es = [] :=
  calls_eq_nil fun e he => (h e he).not_func

/-- One `getdata` passes on a front of its blocks, and all of them when it succeeds. -/
theorem Received.calls_prefix {hashes : List BlockHash} {es : Trace} {r : Rust Unit}
    (h : Received H hashes es r) :
    (calls es).map Prod.fst <+: hashes ∧ (r = .ok () ↔ (calls es).map Prod.fst = hashes) := by
  induction h with
  | done => exact ⟨List.prefix_rfl, iff_of_true rfl rfl⟩
  | refused _ =>
      refine ⟨List.nil_prefix, iff_of_false (fun h => by cases h) fun h => ?_⟩
      cases h
  | @next hash rest block es r _ _ ih =>
      have hcalls : (calls (⟨.recvBlock, .ok block⟩ :: ⟨.func hash block, ()⟩ :: es)).map Prod.fst
          = hash :: (calls es).map Prod.fst := rfl
      rw [hcalls, List.prefix_cons_inj, List.cons.injEq, ih.2]
      exact ⟨ih.1, ⟨fun h => ⟨rfl, h⟩, fun h => h.2⟩⟩

theorem Received.calls_of_ok {hashes : List BlockHash} {es : Trace}
    (h : Received H hashes es (.ok ())) : (calls es).map Prod.fst = hashes :=
  h.calls_prefix.2.mp rfl

theorem Received.returns {hashes : List BlockHash} {es : Trace} {r : Rust Unit}
    (h : Received H hashes es r) : Returns r := by
  induction h with
  | done => exact returns_ok ()
  | refused _ => exact .inr ⟨_, rfl⟩
  | next _ _ ih => exact ih

theorem Fetched.calls_of_ok {d : Daemon} {hash : BlockHash} {es : Trace}
    (h : Fetched H d hash es (.ok ())) : (calls es).map Prod.fst = [hash] := by
  obtain ⟨hidle, -, -⟩ | _ := h
  rw [calls_append, calls_of_idle hidle]
  rfl

theorem Fetched.calls_of_error {d : Daemon} {hash : BlockHash} {es : Trace} {fault : Fault}
    (h : Fetched H d hash es (.error fault)) : calls es = [] := by
  obtain _ | ⟨hidle, -, -⟩ := h
  exact calls_of_idle hidle

theorem calls_sendGetData {hashes : List BlockHash} {reply : Outside Unit} {es : Trace} :
    calls (⟨.sendGetData hashes, reply⟩ :: es) = calls es := rfl

variable {d : Daemon} {pruneHeight : ℕ}

/-- The walk passes on a front of its positions, and all of them when it succeeds. -/
theorem Walked.calls_prefix {ps : List Position} {es : Trace} {r : Rust Unit}
    (h : Walked H d pruneHeight ps es r) :
    (calls es).map Prod.fst <+: ps.map Prod.fst
      ∧ (r = .ok () ↔ (calls es).map Prod.fst = ps.map Prod.fst) := by
  induction h with
  | done => exact ⟨List.prefix_rfl, iff_of_true rfl rfl⟩
  | pruned _ hfetch _ ih =>
      rw [calls_append, List.map_append, hfetch.calls_of_ok, List.map_cons, List.singleton_append,
        List.prefix_cons_inj, List.cons.injEq, ih.2]
      exact ⟨ih.1, ⟨fun h => ⟨rfl, h⟩, fun h => h.2⟩⟩
  | prunedFailed _ hfetch =>
      -- the block that failed was not passed on
      rw [hfetch.calls_of_error]
      exact ⟨List.nil_prefix, iff_of_false (fun h => by cases h) fun h => by cases h⟩
  | run _ _ _ hrecv _ ih =>
      rw [calls_sendGetData, calls_append, List.map_append, hrecv.calls_of_ok, List.map_append,
        List.prefix_append_right_inj, List.append_cancel_left_eq, ih.2]
      exact ⟨ih.1, Iff.rfl⟩
  | @runFailed run rest es fault _ _ _ hrecv =>
      obtain ⟨hfront, hok⟩ := hrecv.calls_prefix
      rw [calls_sendGetData, List.map_append]
      refine ⟨hfront.trans (List.prefix_append _ _), iff_of_false (fun h => by cases h) ?_⟩
      -- a front of the run that is as long as the batch is the run
      intro hall
      have hle := hfront.length_le
      rw [hall, List.length_append] at hle
      have hrest : rest.map Prod.fst = [] := List.eq_nil_of_length_eq_zero (by omega)
      rw [hrest, List.append_nil] at hall
      cases hok.mpr hall
  | @unsent run rest chain hne _ _ =>
      refine ⟨List.nil_prefix, iff_of_false (fun h => by cases h) fun hall => hne ?_⟩
      have hnil : (run ++ rest).map Prod.fst = [] := hall.symm
      exact (List.append_eq_nil_iff.mp (List.map_eq_nil_iff.mp hnil)).1

/-- Under the clock the walk returns. -/
theorem Walked.returns {ps : List Position} {es : Trace} {r : Rust Unit} {t : ℕ}
    (h : Walked H d pruneHeight ps es r) (hclock : Clock t es) : Returns r := by
  induction h generalizing t with
  | done => exact returns_ok ()
  | pruned _ _ _ ih => exact ih (clock_append.mp hclock).2
  | prunedFailed _ hfetch =>
      obtain _ | ⟨-, -, hret⟩ := hfetch
      exact returns_error_iff.mpr (hret t hclock)
  | run _ _ _ _ _ ih => exact ih (clock_append.mp hclock.2).2
  | runFailed _ _ _ hrecv => exact hrecv.returns
  | unsent _ _ _ => exact .inr ⟨_, rfl⟩

/-! ### What is asked of whom -/

/-- The hashes asked for over p2p, in order. -/
def requested (es : Trace) : List BlockHash :=
  es.flatMap fun e =>
    match e.op with
    | .sendGetData hashes => hashes
    | _ => []

@[simp] theorem requested_append (es es' : Trace) :
    requested (es ++ es') = requested es ++ requested es' := List.flatMap_append

/-- The blocks of the batch that are routed to p2p, in order. -/
def locals (pruneHeight : ℕ) (ps : List Position) : List BlockHash :=
  (ps.filter fun p => decide (pruneHeight ≤ p.2)).map Prod.fst

theorem locals_append (ps ps' : List Position) :
    locals pruneHeight (ps ++ ps') = locals pruneHeight ps ++ locals pruneHeight ps' := by
  rw [locals, List.filter_append, List.map_append]
  rfl

theorem locals_of_local {ps : List Position} (h : ∀ p ∈ ps, pruneHeight ≤ p.2) :
    locals pruneHeight ps = ps.map Prod.fst := by
  rw [locals, List.filter_eq_self.mpr fun p hp => decide_eq_true (h p hp)]

theorem locals_of_pruned {p : Position} (h : p.2 < pruneHeight) : locals pruneHeight [p] = [] := by
  rw [locals, List.filter_cons_of_neg (by simpa using h)]
  rfl

/-- What the event `e` asks for or passes on, where `n` blocks have been passed
on before it, `asked` was asked for over p2p, and `last` is the event before it.

A `getdata` is for the maximal run of local positions that begins at `n`, and
everything local before was asked for; a block is received for position `n`
after it was asked for; other requests are for position `n` if it is pruned; and
the block passed on is that of position `n`, just received from where the
position is routed. -/
def Routed (H : Hashes) (pruneHeight : ℕ) (ps : List Position) (n : ℕ) (asked : List BlockHash)
    (last : Option (Event DaemonOp.Reply)) : Event DaemonOp.Reply → Prop
  | ⟨.sendGetData hashes, _⟩ => ∃ before run after, ps = before ++ (run ++ after)
      ∧ before.length = n ∧ hashes = run.map Prod.fst ∧ run ≠ []
      ∧ (∀ p ∈ run, pruneHeight ≤ p.2)
      ∧ (∀ p ∈ before.getLast?, p.2 < pruneHeight) ∧ (∀ p ∈ after.head?, p.2 < pruneHeight)
      ∧ asked = locals pruneHeight before
  | ⟨.recvBlock, _⟩ => ∃ p, ps[n]? = some p ∧ pruneHeight ≤ p.2
      ∧ locals pruneHeight (ps.take (n + 1)) <+: asked
  | ⟨.getBlock _ hash, _⟩ => ∃ p, ps[n]? = some p ∧ p.1 = hash ∧ p.2 < pruneHeight
  | ⟨.func hash block, _⟩ => ∃ p, ps[n]? = some p ∧ p.1 = hash
      ∧ ((pruneHeight ≤ p.2 ∧ last = some ⟨.recvBlock, .ok block⟩ ∧ Names H block hash)
        ∨ (p.2 < pruneHeight ∧ ∃ client reply, last = some ⟨.getBlock client hash, reply⟩
            ∧ Accepts H client hash reply block))
  | _ => True

/-- The event before matters only where there is one. -/
theorem Routed.append {ps : List Position} {n : ℕ} {asked : List BlockHash} {es pre : Trace}
    {e : Event DaemonOp.Reply} (h : Routed H pruneHeight ps n asked pre.getLast? e) :
    Routed H pruneHeight ps n asked (es ++ pre).getLast? e := by
  have hlast {x : Event DaemonOp.Reply} (hx : pre.getLast? = some x) :
      (es ++ pre).getLast? = some x := by rw [List.getLast?_append, hx, Option.some_or]
  rcases e with ⟨op, reply⟩
  cases op
  -- only a call of `func` is compared with the event before it
  case func hash block =>
    obtain ⟨p, hp, hhash, ⟨hle, hx, hname⟩ | ⟨hlt, client, reply', hx, hacc⟩⟩ := h
    · exact ⟨p, hp, hhash, .inl ⟨hle, hlast hx, hname⟩⟩
    · exact ⟨p, hp, hhash, .inr ⟨hlt, client, reply', hlast hx, hacc⟩⟩
  all_goals exact h

theorem Idle.routed {hash : BlockHash} {ps : List Position} {n : ℕ} {p : Position}
    {asked : List BlockHash} {last : Option (Event DaemonOp.Reply)} {e : Event DaemonOp.Reply}
    (h : Idle H d hash e) (hp : ps[n]? = some p) (hhash : p.1 = hash) (hlt : p.2 < pruneHeight) :
    Routed H pruneHeight ps n asked last e := by
  cases h with
  | waiting hw =>
      rcases e with ⟨op, reply⟩
      cases op <;> trivial
  | loaded ceiling => trivial
  | swapped height previous => trivial
  | refused _ _ => exact ⟨p, hp, hhash, hlt⟩

/-- Every event of the trace is routed, where `n` blocks were passed on and
`asked` was asked for before it. -/
abbrev AllRouted (H : Hashes) (pruneHeight : ℕ) (ps : List Position) (n : ℕ)
    (asked : List BlockHash) (es : Trace) : Prop :=
  Always (fun pre e => Routed H pruneHeight ps (n + (calls pre).length) (asked ++ requested pre)
    pre.getLast? e) es

theorem allRouted_singleton {ps : List Position} {n : ℕ} {asked : List BlockHash}
    {e : Event DaemonOp.Reply} (h : Routed H pruneHeight ps n asked none e) :
    AllRouted H pruneHeight ps n asked [e] := by
  refine always_singleton ?_
  rw [show requested [] = [] from rfl, List.append_nil]
  exact h

theorem AllRouted.append {ps : List Position} {n : ℕ} {asked : List BlockHash} {es es' : Trace}
    (h : AllRouted H pruneHeight ps n asked es)
    (h' : AllRouted H pruneHeight ps (n + (calls es).length) (asked ++ requested es) es') :
    AllRouted H pruneHeight ps n asked (es ++ es') := by
  refine Always.append h fun pre e post heq => ?_
  have hrouted := h' pre e post heq
  show Routed H pruneHeight ps (n + (calls (es ++ pre)).length) (asked ++ requested (es ++ pre))
    (es ++ pre).getLast? e
  rw [calls_append, List.length_append, ← Nat.add_assoc, requested_append, ← List.append_assoc]
  exact hrouted.append

theorem requested_of_idle {hash : BlockHash} {es : Trace} (h : ∀ e ∈ es, Idle H d hash e) :
    requested es = [] := by
  rw [requested, List.flatMap_eq_nil_iff]
  intro e he
  cases h e he with
  | waiting hw =>
      rcases e with ⟨op, reply⟩
      cases op <;> trivial
  | loaded ceiling => rfl
  | swapped height previous => rfl
  | refused _ _ => rfl

theorem allRouted_of_idle {hash : BlockHash} {ps : List Position} {n : ℕ} {p : Position}
    {asked : List BlockHash} {es : Trace} (h : ∀ e ∈ es, Idle H d hash e) (hp : ps[n]? = some p)
    (hhash : p.1 = hash) (hlt : p.2 < pruneHeight) : AllRouted H pruneHeight ps n asked es := by
  intro pre e post heq
  subst heq
  have hnone : calls pre = [] := calls_of_idle fun e he => h e (List.mem_append_left _ he)
  rw [hnone]
  exact (h e (List.mem_append_right _ List.mem_cons_self)).routed hp hhash hlt

theorem Fetched.allRouted {p : Position} {es : Trace} {r : Rust Unit}
    (h : Fetched H d p.1 es r) {ps : List Position} {n : ℕ} {asked : List BlockHash}
    (hp : ps[n]? = some p) (hlt : p.2 < pruneHeight) : AllRouted H pruneHeight ps n asked es := by
  cases h with
  | @delivered es client reply block hidle hd hacc =>
      refine (allRouted_of_idle hidle hp rfl hlt).append ?_
      rw [calls_of_idle hidle]
      refine Always.append (always_singleton ?_) (always_singleton ?_)
      · exact ⟨p, hp, rfl, hlt⟩
      · exact ⟨p, hp, rfl, .inr ⟨hlt, client, reply, rfl, hacc⟩⟩
  | failed hidle _ _ => exact allRouted_of_idle hidle hp rfl hlt

theorem Fetched.requested {hash : BlockHash} {es : Trace} {r : Rust Unit}
    (h : Fetched H d hash es r) : requested es = [] := by
  cases h with
  | delivered hidle _ _ =>
      rw [requested_append, requested_of_idle hidle]
      rfl
  | failed hidle _ _ => exact requested_of_idle hidle

theorem Received.requested {hashes : List BlockHash} {es : Trace} {r : Rust Unit}
    (h : Received H hashes es r) : requested es = [] := by
  induction h with
  | done => rfl
  | refused _ => rfl
  | next _ _ ih => exact ih

theorem requested_sendGetData {hashes : List BlockHash} {reply : Outside Unit} {es : Trace} :
    requested (⟨.sendGetData hashes, reply⟩ :: es) = hashes ++ requested es := rfl

/-- The walk asks for the local positions over p2p, in order and each once, and
for all of them when it succeeds. -/
theorem Walked.requested_prefix {ps : List Position} {es : Trace} {r : Rust Unit}
    (h : Walked H d pruneHeight ps es r) :
    requested es <+: locals pruneHeight ps
      ∧ (r = .ok () → requested es = locals pruneHeight ps) := by
  induction h with
  | done => exact ⟨List.prefix_rfl, fun _ => rfl⟩
  -- a pruned position is fetched elsewhere, and not asked for over p2p
  | @pruned p rest es es' r hlt hfetch _ ih =>
      rw [requested_append, hfetch.requested, List.nil_append, ← List.singleton_append,
        locals_append, locals_of_pruned hlt, List.nil_append]
      exact ih
  | prunedFailed _ hfetch =>
      rw [hfetch.requested]
      exact ⟨List.nil_prefix, fun h => by cases h⟩
  -- a local run is asked for as a whole, and the walk goes on behind it
  | run _ hlocal _ hrecv _ ih =>
      rw [requested_sendGetData, requested_append, hrecv.requested, List.nil_append,
        locals_append, locals_of_local hlocal]
      exact ⟨(List.prefix_append_right_inj _).mpr ih.1, fun h => by rw [ih.2 h]⟩
  -- the run was asked for before its blocks failed to come
  | runFailed _ hlocal _ hrecv =>
      rw [requested_sendGetData, hrecv.requested, List.append_nil, locals_append,
        locals_of_local hlocal]
      exact ⟨List.prefix_append _ _, fun h => by cases h⟩
  | unsent _ hlocal _ =>
      rw [locals_append, locals_of_local hlocal]
      refine ⟨?_, fun h => by cases h⟩
      rw [requested_sendGetData]
      exact (List.append_nil _).symm ▸ List.prefix_append _ _

theorem getElem?_context {α : Type} (before : List α) (a : α) (after : List α) :
    (before ++ a :: after)[before.length]? = some a := by
  rw [List.getElem?_append_right (Nat.le_refl _), Nat.sub_self, List.getElem?_cons_zero]

theorem take_context {α : Type} (before : List α) (a : α) (after : List α) :
    (before ++ a :: after).take (before.length + 1) = before ++ [a] := by
  rw [List.take_append, List.take_of_length_le (Nat.le_succ _), Nat.add_sub_cancel_left,
    List.take_succ_cons, List.take_zero]

theorem Received.allRouted {run : List Position} {es : Trace} {r : Rust Unit}
    (h : Received H (run.map Prod.fst) es r) {before after : List Position}
    {asked : List BlockHash} (hasked : locals pruneHeight (before ++ run) <+: asked)
    (hlocal : ∀ p ∈ run, pruneHeight ≤ p.2) :
    AllRouted H pruneHeight (before ++ (run ++ after)) before.length asked es := by
  induction run generalizing before es with
  | nil =>
      cases h
      exact always_nil _
  | cons p run ih =>
      rw [List.forall_mem_cons] at hlocal
      have hp : (before ++ (p :: run ++ after))[before.length]? = some p :=
        getElem?_context before p (run ++ after)
      -- everything up to this position was asked for
      have hwas : locals pruneHeight ((before ++ (p :: run ++ after)).take (before.length + 1))
          <+: asked := by
        have hsplit : before ++ p :: run = (before ++ [p]) ++ run := by simp
        rw [hsplit, locals_append] at hasked
        rw [List.cons_append, take_context]
        exact (List.prefix_append _ _).trans hasked
      cases h with
      | refused _ => exact allRouted_singleton ⟨p, hp, hlocal.1, hwas⟩
      | @next _ _ block es _ hname hrest =>
          have hfront : AllRouted H pruneHeight (before ++ (p :: run ++ after)) before.length asked
              ([⟨.recvBlock, .ok block⟩] ++ [⟨.func p.1 block, ()⟩]) :=
            Always.append (allRouted_singleton ⟨p, hp, hlocal.1, hwas⟩)
              (always_singleton ⟨p, hp, rfl, .inl ⟨hlocal.1, rfl, hname⟩⟩)
          have hmore : locals pruneHeight ((before ++ [p]) ++ run) <+: asked := by
            rwa [List.append_assoc, List.singleton_append]
          have hnext := ih hrest hmore hlocal.2
          rw [List.append_assoc, List.length_append, ← List.append_nil asked] at hnext
          exact hfront.append hnext

/-- **The walk is routed**: by induction over the walk, with the positions
before it as context. -/
theorem Walked.allRouted {ps : List Position} {es : Trace} {r : Rust Unit}
    (h : Walked H d pruneHeight ps es r) {before : List Position}
    (hbefore : ∀ q ∈ ps.head?, pruneHeight ≤ q.2 → ∀ p ∈ before.getLast?, p.2 < pruneHeight) :
    AllRouted H pruneHeight (before ++ ps) before.length (locals pruneHeight before) es := by
  -- a `getdata` for the run at the front
  have hrequest {run rest : List Position} {reply : Outside Unit} {before : List Position}
      (hne : run ≠ []) (hlocal : ∀ p ∈ run, pruneHeight ≤ p.2)
      (hrest : ∀ p ∈ rest.head?, p.2 < pruneHeight)
      (hbefore : ∀ q ∈ (run ++ rest).head?, pruneHeight ≤ q.2 →
        ∀ p ∈ before.getLast?, p.2 < pruneHeight) :
      AllRouted H pruneHeight (before ++ (run ++ rest)) before.length (locals pruneHeight before)
        [⟨.sendGetData (run.map Prod.fst), reply⟩] := by
    refine allRouted_singleton ⟨before, run, rest, rfl, rfl, rfl, hne, hlocal, ?_, hrest, rfl⟩
    obtain ⟨q, run', rfl⟩ := List.exists_cons_of_ne_nil hne
    exact hbefore q rfl (hlocal q List.mem_cons_self)
  have hasked {run before : List Position} (hlocal : ∀ p ∈ run, pruneHeight ≤ p.2)
      {reply : Outside Unit} :
      locals pruneHeight before ++ requested [⟨.sendGetData (run.map Prod.fst), reply⟩]
        = locals pruneHeight (before ++ run) := by
    rw [locals_append, locals_of_local hlocal]
    exact congrArg _ (List.append_nil _)
  induction h generalizing before with
  | done => exact always_nil _
  | @pruned p rest es es' r hlt hfetch _ ih =>
      refine (hfetch.allRouted (getElem?_context before p rest) hlt).append ?_
      have hlast : ∀ q ∈ rest.head?, pruneHeight ≤ q.2 →
          ∀ p' ∈ (before ++ [p]).getLast?, p'.2 < pruneHeight := by
        intro q _ _ p' hp'
        rw [List.getLast?_concat] at hp'
        exact Option.some.inj hp' ▸ hlt
      have hrest := ih hlast
      have hone : (calls es).length = 1 := by
        rw [← List.length_map Prod.fst, hfetch.calls_of_ok, List.length_singleton]
      rw [List.append_assoc, List.length_append, locals_append, locals_of_pruned hlt] at hrest
      rw [hone, hfetch.requested]
      exact hrest
  | @prunedFailed p rest es fault hlt hfetch =>
      exact hfetch.allRouted (getElem?_context before p rest) hlt
  | @run run rest es es' r hne hlocal hpruned hrecv _ ih =>
      have hlast : ∀ q ∈ rest.head?, pruneHeight ≤ q.2 →
          ∀ p' ∈ (before ++ run).getLast?, p'.2 < pruneHeight := fun q hq hle =>
        absurd (hpruned q hq) (Nat.not_lt.mpr hle)
      have hrest := ih hlast
      have hall : (calls es).length = run.length := by
        rw [← List.length_map Prod.fst, hrecv.calls_of_ok, List.length_map]
      rw [List.append_assoc, List.length_append, ← hall] at hrest
      refine (hrequest hne hlocal hpruned hbefore).append ?_
      rw [hasked hlocal]
      refine (hrecv.allRouted List.prefix_rfl hlocal).append ?_
      rw [hrecv.requested, List.append_nil]
      exact hrest
  | runFailed hne hlocal hpruned hrecv =>
      refine (hrequest hne hlocal hpruned hbefore).append ?_
      rw [hasked hlocal]
      exact hrecv.allRouted List.prefix_rfl hlocal
  | unsent hne hlocal hpruned => exact hrequest hne hlocal hpruned hbefore

theorem Walked.allRouted_nil {ps : List Position} {es : Trace} {r : Rust Unit}
    (h : Walked H d pruneHeight ps es r) : AllRouted H pruneHeight ps 0 [] es :=
  @Walked.allRouted H d pruneHeight ps es r h [] fun _ _ _ _ hp => by cases hp

end PrunedElectrs
