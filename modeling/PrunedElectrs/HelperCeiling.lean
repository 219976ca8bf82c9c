/-
PrunedElectrs/HelperCeiling.lean

The ceiling of the archival helper, shared by calls that run at once.

Before a call asks the helper for a block it loads the ceiling, and where the
helper does not know the block it stores the block's height.  Between the load
and the store lies the helper's reply, and the calls are interleaved in any
order (`Interleaved`).  A store is in turn if no lower height was stored since
the load it goes back to.

The ceiling only goes down, is the least height recorded, and keeps later calls
below it exactly when every store is in turn (`onlyLowers_iff`); two calls that
ask at once can store in the wrong order (`not_onlyLowers_outOfTurn`).
-/
import PrunedElectrs.Lib.Register
import PrunedElectrs.Refinement

namespace PrunedElectrs

open Wire Effects Runs

variable {H : Hashes} {d : Daemon}

/-! ### What a call asks the helper -/

/-- The heights that a call resolves. -/
def resolvedOf : Event DaemonOp.Reply → Option (List ℕ)
  | ⟨.getBlockHeaders hashes, reply⟩ => (heightsOf hashes reply).toOption
  | _ => none

/-- The heights that the call has resolved. -/
def heightsRead (es : Trace) : Option (List ℕ) := es.findSome? resolvedOf

/-- The block that the call is at, with its height. -/
def positionAt (batch : List BlockHash) (es : Trace) : Option Position :=
  (heightsRead es).bind fun heights => (batch.zip heights)[(calls es).length]?

/-- The heights resolved are those of the batch.  The helper is asked for the
block the call is at if that is below the ceiling just loaded, and the ceiling is
stored where it does not know the block. -/
def Offered (batch : List BlockHash) (pre : Trace) : Event DaemonOp.Reply → Prop
  | ⟨.getBlockHeaders hashes, _⟩ => hashes = batch
  | ⟨.getBlock .helper hash, _⟩ => ∃ front ceiling height,
      pre = front ++ [⟨.loadCeiling, ceiling⟩]
        ∧ positionAt batch pre = some (hash, height) ∧ height < ceiling
  | ⟨.swapCeiling height, _⟩ => ∃ front ceiling hash chain,
      pre = front ++ [⟨.loadCeiling, ceiling⟩, ⟨.getBlock .helper hash, .error chain⟩]
        ∧ positionAt batch pre = some (hash, height) ∧ height < ceiling
        ∧ isBlockNotFound ("getblock failed" :: chain)
  | _ => True

/-- The same for one pruned block, behind `pre`. -/
def HelperStep (p : Position) (pre : Trace) : Event DaemonOp.Reply → Prop
  | ⟨.getBlockHeaders _, _⟩ => False
  | ⟨.getBlock .helper hash, _⟩ => hash = p.1 ∧ ∃ ceiling, pre = [⟨.loadCeiling, ceiling⟩]
      ∧ p.2 < ceiling
  | ⟨.swapCeiling height, _⟩ => height = p.2 ∧ ∃ ceiling chain,
      pre = [⟨.loadCeiling, ceiling⟩, ⟨.getBlock .helper p.1, .error chain⟩]
        ∧ p.2 < ceiling ∧ isBlockNotFound ("getblock failed" :: chain)
  | _ => True

/-- Neither a request for heights or to the helper, nor a store. -/
def Usual : Event DaemonOp.Reply → Prop
  | ⟨.getBlockHeaders _, _⟩ => False
  | ⟨.getBlock .helper _, _⟩ => False
  | ⟨.swapCeiling _, _⟩ => False
  | _ => True

theorem Usual.helperStep {e : Event DaemonOp.Reply} (h : Usual e) (p : Position) (pre : Trace) :
    HelperStep p pre e := by
  rcases e with ⟨op, reply⟩
  cases op
  case getBlock client hash =>
    cases client with
    | bitcoind => trivial
    | helper => exact h.elim
  case getBlockHeaders hashes => exact h.elim
  case swapCeiling height => exact h.elim
  all_goals trivial

theorem Usual.offered {e : Event DaemonOp.Reply} (h : Usual e) (batch : List BlockHash)
    (pre : Trace) : Offered batch pre e := by
  rcases e with ⟨op, reply⟩
  cases op
  case getBlock client hash =>
    cases client with
    | bitcoind => trivial
    | helper => exact h.elim
  case getBlockHeaders hashes => exact h.elim
  case swapCeiling height => exact h.elim
  all_goals trivial

theorem always_of_usual {P : Trace → Event DaemonOp.Reply → Prop} {es : Trace}
    (hP : ∀ pre e, Usual e → P pre e) (h : ∀ e ∈ es, Usual e) : Always P es := by
  rintro pre e post rfl
  exact hP pre e (h e (by simp))

theorem Waiting.usual {e : Event DaemonOp.Reply} (h : Waiting e) : Usual e := by
  rcases e with ⟨op, reply⟩
  cases op <;> trivial

theorem ReadingOf.offered {batch : List BlockHash} {e : Event DaemonOp.Reply}
    (h : ReadingOf batch e) (pre : Trace) : Offered batch pre e := by
  rcases e with ⟨op, reply⟩
  cases op
  case getBlockHeaders hashes => exact h
  all_goals trivial

/-- What the retries of the usual source leave behind. -/
theorem usual_of_retry {hash : BlockHash} {e : Event DaemonOp.Reply}
    (h : Waiting e ∨ Failed (.getBlock .bitcoind hash) blockOf e) : Usual e := by
  rcases h with hw | ⟨reply, chain, rfl, -⟩
  · exact hw.usual
  · trivial

/-- One pruned block is the helper, and what the usual source and `func` add. -/
theorem fetchPruned_parts {budget : ℕ} {p : Position} {es : Trace} {r : Rust Unit}
    (h : Exec (d.fetchPruned H budget p.1 p.2) es r) :
    ∃ es₁ es₂ found, es = es₁ ++ es₂ ∧ Helped H d p.1 p.2 es₁ found ∧ ∀ e ∈ es₂, Usual e := by
  rcases fetchPruned_cases H h with ⟨es₁, block, hhelped, rfl, -⟩ |
    ⟨es₁, es₂, hhelped, rfl, hsource⟩
  · exact ⟨es₁, _, some block, rfl, hhelped, List.forall_mem_singleton.mpr trivial⟩
  · refine ⟨es₁, es₂, none, rfl, hhelped, ?_⟩
    rcases hsource with ⟨es', reply, block, rfl, -, -, hall⟩ | ⟨fault, -, hall, -⟩
    · exact List.forall_mem_append.mpr ⟨fun e he => usual_of_retry (hall e he),
        List.forall_mem_cons.mpr ⟨trivial, List.forall_mem_singleton.mpr trivial⟩⟩
    · exact fun e he => usual_of_retry (hall e he)

theorem Helped.helperStep {p : Position} {es : Trace} {found : Option Bytes}
    (h : Helped H d p.1 p.2 es found) : Always (HelperStep p) es := by
  have hasked {ceiling : ℕ} {reply : Outside (List Char)} (hlt : p.2 < ceiling) :
      Always (HelperStep p) [⟨.loadCeiling, ceiling⟩, ⟨.getBlock .helper p.1, reply⟩] :=
    always_cons trivial (always_singleton ⟨rfl, ceiling, rfl, hlt⟩)
  cases h with
  | noHelper _ => exact always_nil _
  | above _ _ => exact always_singleton trivial
  | given _ hlt _ => exact hasked hlt
  | notGiven _ hlt _ _ => exact hasked hlt
  | @unknown ceiling previous chain _ hlt hfound =>
      exact (hasked hlt).append (always_singleton ⟨rfl, ceiling, chain, rfl, hlt, hfound⟩)

/-- Up to the call of `func`, one pruned block. -/
theorem helperStep_fetchPruned {budget : ℕ} {p : Position} {es : Trace} {r : Rust Unit}
    (h : Exec (d.fetchPruned H budget p.1 p.2) es r) : Always (HelperStep p) es := by
  obtain ⟨es₁, es₂, found, rfl, hhelped, husual⟩ := fetchPruned_parts h
  exact hhelped.helperStep.append (always_of_usual (fun _ _ he => he.helperStep p _) husual)

theorem usual_forBlocks {hashes : List BlockHash} {es : Trace} {r : Rust Unit}
    (h : Exec (Connection.forBlocks H hashes) es r) : ∀ e ∈ es, Usual e := by
  have hreceived {es : Trace} (hrecv : Received H hashes es r) : ∀ e ∈ es, Usual e := by
    clear h
    induction hrecv with
    | done => exact List.forall_mem_nil _
    | refused _ => exact List.forall_mem_singleton.mpr trivial
    | next _ _ ih =>
        exact List.forall_mem_cons.mpr ⟨trivial, List.forall_mem_cons.mpr ⟨trivial, ih⟩⟩
  rcases exec_forBlocks H h with ⟨-, rfl, -⟩ | ⟨-, ⟨chain, rfl, -⟩ | ⟨es', rfl, hrecv⟩⟩
  · exact List.forall_mem_nil _
  · exact List.forall_mem_singleton.mpr trivial
  · exact List.forall_mem_cons.mpr ⟨trivial, hreceived hrecv⟩

theorem calls_forBlocks {hashes : List BlockHash} {es : Trace}
    (h : Exec (Connection.forBlocks H hashes) es (.ok ())) : (calls es).length = hashes.length := by
  rcases exec_forBlocks H h with ⟨rfl, rfl, -⟩ | ⟨-, ⟨chain, -, hr⟩ | ⟨es', rfl, hrecv⟩⟩
  · rfl
  · cases hr
  · rw [← List.length_map Prod.fst]
    exact congrArg List.length hrecv.calls_of_ok

theorem heightsRead_append {es : Trace} {heights : List ℕ} (h : heightsRead es = some heights)
    (es' : Trace) : heightsRead (es ++ es') = some heights := by
  rw [heightsRead, List.findSome?_append, ← heightsRead, h, Option.some_or]

/-- A call stays where it is until it passes the block on. -/
theorem positionAt_concat {batch : List BlockHash} {es : Trace} {e : Event DaemonOp.Reply}
    (hcalls : calls [e] = []) (hresolved : resolvedOf e = none) :
    positionAt batch (es ++ [e]) = positionAt batch es := by
  have hread : heightsRead (es ++ [e]) = heightsRead es := by
    rw [heightsRead, List.findSome?_append, List.findSome?_singleton, hresolved, Option.or_none,
      heightsRead]
  rw [positionAt, positionAt, hread, calls_append, hcalls, List.append_nil]

/-- At position `p` the steps of one pruned block are as they should be. -/
theorem HelperStep.offered {batch : List BlockHash} {p : Position} {pre pre' : Trace}
    {e : Event DaemonOp.Reply}
    (hat : ∀ pre', calls pre' = [] → positionAt batch (pre ++ pre') = some p)
    (h : HelperStep p pre' e) : Offered batch (pre ++ pre') e := by
  rcases e with ⟨op, reply⟩
  cases op
  case getBlock client hash =>
    cases client with
    | bitcoind => trivial
    | helper =>
        obtain ⟨rfl, ceiling, rfl, hlt⟩ := h
        exact ⟨pre, ceiling, p.2, rfl, hat _ rfl, hlt⟩
  case getBlockHeaders hashes => exact h.elim
  case swapCeiling height =>
    obtain ⟨rfl, ceiling, chain, rfl, hlt, hfound⟩ := h
    exact ⟨pre, ceiling, p.1, chain, rfl, hat _ rfl, hlt, hfound⟩
  all_goals trivial

/-- The walk from where `pre` has come to. -/
theorem Walk.offered {budget pruneHeight : ℕ} {batch : List BlockHash} {ps : List Position}
    {es : Trace} {r : Rust Unit} (h : Walk H d budget pruneHeight ps es r)
    {before : List Position} {heights : List ℕ} {pre : Trace}
    (hread : heightsRead pre = some heights) (hps : batch.zip heights = before ++ ps)
    (hcalls : (calls pre).length = before.length) :
    Always (fun pre' e => Offered batch (pre ++ pre') e) es := by
  -- one pruned block asks the helper before anything is passed on
  have hpruned {p : Position} {rest : List Position} {es : Trace} {r : Rust Unit}
      {before : List Position} {pre : Trace} (hread : heightsRead pre = some heights)
      (hps : batch.zip heights = before ++ p :: rest) (hcalls : (calls pre).length = before.length)
      (hfetch : Exec (d.fetchPruned H budget p.1 p.2) es r) :
      Always (fun pre' e => Offered batch (pre ++ pre') e) es := by
    intro pre' e post he
    refine (helperStep_fetchPruned hfetch pre' e post he).offered fun pre' hnone => ?_
    rw [positionAt, heightsRead_append hread, Option.bind_some, calls_append, hnone,
      List.append_nil, hcalls, hps, getElem?_context]
  have hlocal {pre es : Trace} (hes : ∀ e ∈ es, Usual e) :
      Always (fun pre' e => Offered batch (pre ++ pre') e) es :=
    always_of_usual (fun _ _ he => he.offered batch _) hes
  have hmore {pre es es' : Trace} (hes : Always (fun pre' e => Offered batch (pre ++ pre') e) es)
      (hes' : Always (fun pre' e => Offered batch ((pre ++ es) ++ pre') e) es') :
      Always (fun pre' e => Offered batch (pre ++ pre') e) (es ++ es') := by
    refine hes.append ?_
    simpa only [List.append_assoc] using hes'
  induction h generalizing before pre with
  | done => exact always_nil _
  | @pruned p rest es es' r hlt hfetch _ ih =>
      have hone : (calls es).length = 1 := by
        rw [← List.length_map Prod.fst, (fetched_of_exec H hfetch).calls_of_ok,
          List.length_singleton]
      have hrest : batch.zip heights = (before ++ [p]) ++ rest := by
        rw [hps, List.append_assoc]
        rfl
      refine hmore (hpruned hread hps hcalls hfetch) (ih (heightsRead_append hread es) hrest ?_)
      rw [calls_append, List.length_append, hone, hcalls, List.length_append, List.length_singleton]
  | prunedFailed hlt hfetch => exact hpruned hread hps hcalls hfetch
  | @run run rest es es' r hne hlocalRun hprunedRest hp2p _ ih =>
      have hall : (calls es).length = run.length := by
        rw [calls_forBlocks hp2p, List.length_map]
      have hrest : batch.zip heights = (before ++ run) ++ rest := by
        rw [hps, List.append_assoc]
      refine hmore (hlocal (usual_forBlocks hp2p)) (ih (heightsRead_append hread es) hrest ?_)
      rw [calls_append, List.length_append, hall, hcalls, List.length_append]
  | runFailed hne hlocalRun hprunedRest hp2p => exact hlocal (usual_forBlocks hp2p)

theorem Resolved.heightsRead_eq {batch : List BlockHash} {es : Trace} {pruneHeight : ℕ}
    {ps : List Position} (h : Resolved batch es pruneHeight ps) :
    heightsRead es = some (ps.map Prod.snd) := by
  obtain ⟨hprune, -, hheights, hok, -⟩ := h
  have hnone {es : Trace} (hes : ∀ e ∈ es, resolvedOf e = none) : heightsRead es = none :=
    List.findSome?_eq_none_iff.mpr hes
  have hwaiting {e : Event DaemonOp.Reply} (he : Waiting e) : resolvedOf e = none := by
    rcases e with ⟨op, reply⟩
    cases op <;> trivial
  have hfirst := hnone fun e he => by
    rcases hprune e he with hw | ⟨reply, chain, rfl, -⟩
    · exact hwaiting hw
    · rfl
  have hsecond := hnone fun e he => by
    rcases hheights e he with hw | ⟨reply, chain, rfl, hchain⟩
    · exact hwaiting hw
    · rw [resolvedOf, hchain]
      rfl
  have hprune {reply : Outside BlockchainInfo} :
      resolvedOf ⟨.getBlockchainInfo, reply⟩ = none := rfl
  rw [heightsRead] at hfirst hsecond ⊢
  rw [List.findSome?_append, hfirst, Option.none_or, List.findSome?_cons, hprune]
  simp only [List.findSome?_append, hsecond, Option.none_or, List.findSome?_singleton, resolvedOf,
    hok]
  rfl

/-- **What a call asks the helper**: only for the block it is at, below the
ceiling just loaded, and it stores only the height of a block that is unknown. -/
theorem forBlocksWith_offered {batch : List BlockHash} {budget : ℕ} {es : Trace} {r : Rust Unit}
    (h : Exec (d.forBlocksWith H batch budget) es r) : Always (Offered batch) es := by
  have hreading {es : Trace} (hes : ∀ e ∈ es, ReadingOf batch e) : Always (Offered batch) es := by
    rintro pre e post rfl
    exact (hes e (by simp)).offered pre
  by_cases hd : d.pruned
  · rcases forBlocksWith_walk hd h with ⟨-, rfl, -⟩ | ⟨-, hread | hwalk⟩
    · exact always_nil _
    · exact hreading hread.choose_spec.2.1
    · obtain ⟨es₀, es', pruneHeight, ps, rfl, hresolved, hw⟩ := hwalk
      have hzip : batch.zip (ps.map Prod.snd) = [] ++ ps := by
        rw [← hresolved.positions, List.nil_append]
        exact (List.zip_of_prod rfl rfl).symm
      refine (hreading hresolved.readingOf).append
        (hw.offered hresolved.heightsRead_eq hzip ?_)
      rw [calls_of_reading hresolved.reading]
      rfl
  · rw [Daemon.forBlocksWith, if_pos (by simpa using hd)] at h
    exact always_of_usual (fun pre _ he => he.offered batch pre) (usual_forBlocks h)

/-! ### Calls that run at once -/

/-- A call of `for_blocks_with`. -/
structure Call where
  batch : List BlockHash
  budget : ℕ

/-- What happened, call by call, in one order. -/
abbrev Schedule := List (ℕ × Event DaemonOp.Reply)

/-- What happened in one call. -/
def ofCall (i : ℕ) (acts : Schedule) : Trace :=
  acts.filterMap fun a => if a.1 = i then some a.2 else none

/-- `usize::MAX`, on a 64 bit machine. -/
def usizeMax : ℕ := 2 ^ 64 - 1

/-- The accesses to `helper_ceiling`. -/
def ceilingAccess (a : ℕ × Event DaemonOp.Reply) : Option (Register.Access ℕ ℕ) :=
  match a.2 with
  | ⟨.loadCeiling, ceiling⟩ => some (.load a.1 ceiling)
  | ⟨.swapCeiling height, _⟩ => some (.store a.1 height)
  | _ => none

/-- What `helper_ceiling` holds. -/
def helperCeiling (acts : Schedule) : ℕ := Register.value ceilingAccess usizeMax acts

/-- The heights that were recorded as not found, in order. -/
def recordedHeights (acts : Schedule) : List ℕ := Register.recorded ceilingAccess acts

/-- Each access to the ceiling is atomic: it is answered with what it holds. -/
def AtomicAccess (pre : Schedule) : ℕ × Event DaemonOp.Reply → Prop
  | (_, ⟨.loadCeiling, ceiling⟩) => ceiling = helperCeiling pre
  | (_, ⟨.swapCeiling _, previous⟩) => previous = helperCeiling pre
  | _ => True

/-- Any number of calls, each as far as it has come, in any order. -/
structure Interleaved (H : Hashes) (d : Daemon) (calls : ℕ → Call) (acts : Schedule) : Prop where
  executed : ∀ i, ∃ rest r,
    Exec (d.forBlocksWith H (calls i).batch (calls i).budget) (ofCall i acts ++ rest) r
  atomic : Always AtomicAccess acts

/-- The store is of a height no lower than which was recorded since the call
loaded the ceiling. -/
def StoresInTurn (pre : Schedule) (a : ℕ × Event DaemonOp.Reply) : Prop :=
  Register.InTurn ceilingAccess pre a

/-- What the ceiling is for. -/
structure OnlyLowers (calls : ℕ → Call) (acts : Schedule) : Prop where
  never_rises : ∀ pre post, pre ++ post <+: acts → helperCeiling (pre ++ post) ≤ helperCeiling pre
  /-- It is the least height recorded, `usize::MAX` if there is none. -/
  least : ∀ pre, pre <+: acts → helperCeiling pre = (recordedHeights pre).foldr min usizeMax
  /-- A call that starts behind `before` asks the helper only for blocks below
  every height recorded in `before`. -/
  not_offered : ∀ before after i hash reply rest,
    acts = (before ++ after) ++ (i, ⟨.getBlock .helper hash, reply⟩) :: rest →
    ofCall i before = [] → ∃ height,
      positionAt (calls i).batch (ofCall i after) = some (hash, height)
        ∧ ∀ recorded ∈ recordedHeights before, height < recorded

theorem ofCall_append (i : ℕ) (acts acts' : Schedule) :
    ofCall i (acts ++ acts') = ofCall i acts ++ ofCall i acts' := List.filterMap_append

/-- An event of one call has its place among all events. -/
theorem exists_of_ofCall {i : ℕ} {acts : Schedule} {front back : Trace}
    {e : Event DaemonOp.Reply} (h : ofCall i acts = front ++ e :: back) :
    ∃ pre post, acts = pre ++ (i, e) :: post ∧ ofCall i pre = front ∧ ofCall i post = back := by
  obtain ⟨pre, ⟨j, e'⟩, post, rfl, he, hfront, hback⟩ := exists_of_filterMap h
  split_ifs at he with hj
  obtain rfl := Option.some.inj he
  exact ⟨pre, post, by rw [← hj], hfront, hback⟩

variable {callOf : ℕ → Call} {acts : Schedule}

/-- What each event of an interleaving finds, in its own call. -/
theorem Interleaved.offered (h : Interleaved H d callOf acts) {pre post : Schedule} {i : ℕ}
    {e : Event DaemonOp.Reply} (hacts : acts = pre ++ (i, e) :: post) :
    Offered (callOf i).batch (ofCall i pre) e := by
  obtain ⟨rest, r, hexec⟩ := h.executed i
  refine (forBlocksWith_offered hexec).front (ofCall i pre) e (ofCall i post) ?_
  rw [hacts, ofCall_append]
  simp [ofCall]

theorem isLoad_eq_false {i : ℕ} {acts : Schedule}
    (h : ∀ e ∈ ofCall i acts, e.op ≠ .loadCeiling) :
    ∀ a ∈ acts, Register.isLoad ceilingAccess i a = false := by
  rintro ⟨j, op, reply⟩ ha
  cases op
  case loadCeiling =>
    have hne : j ≠ i := by
      rintro rfl
      exact h ⟨.loadCeiling, reply⟩ (List.mem_filterMap.mpr ⟨_, ha, if_pos rfl⟩) rfl
    exact decide_eq_false hne
  all_goals rfl

/-- The check of `block_from_helper`, among the events of all calls. -/
theorem Interleaved.checked (h : Interleaved H d callOf acts) :
    Always (Register.Checked ceilingAccess usizeMax) acts := by
  rintro pre ⟨i, op, reply⟩ post hacts
  cases op
  case loadCeiling => exact h.atomic pre _ post hacts
  case swapCeiling height =>
    obtain ⟨front, ceiling, hash, chain, hcall, -, hlt, -⟩ := h.offered hacts
    obtain ⟨pre₁, pre₂, rfl, -, hback⟩ := exists_of_ofCall hcall
    refine ⟨pre₁, (i, ⟨.loadCeiling, ceiling⟩), ceiling, ?_, rfl, hlt⟩
    have hsince : Register.sinceLoad ceilingAccess i (pre₁ ++ (i, ⟨.loadCeiling, ceiling⟩) :: pre₂)
        = pre₂ := by
      refine Register.sinceLoad_append rfl (isLoad_eq_false fun e he => ?_)
      rw [hback] at he
      rw [List.mem_singleton.mp he]
      exact fun hop => by cases hop
    rw [hsince]
  all_goals trivial

/-- **When the ceiling only goes down**: exactly when every store is in turn. -/
theorem onlyLowers_iff (h : Interleaved H d callOf acts) :
    OnlyLowers callOf acts ↔ Always StoresInTurn acts := by
  refine ⟨fun hlowers => Register.inTurn_of_value_eq_least hlowers.least, fun hturn => ?_⟩
  have hleast := Register.value_eq_least h.checked hturn
  refine ⟨fun pre post hpre => Register.value_append_le hleast hpre, hleast, ?_⟩
  intro before after i hash reply rest hacts hstart
  obtain ⟨front, ceiling, height, hcall, hposition, hlt⟩ := h.offered hacts
  have hafter : ofCall i (before ++ after) = ofCall i after := by
    rw [ofCall_append, hstart, List.nil_append]
  rw [hafter] at hcall hposition
  refine ⟨height, hposition, fun recorded hrecorded => ?_⟩
  -- the ceiling was loaded behind `before`, and was no higher than what is recorded there
  obtain ⟨pre, post, rfl, -, -⟩ := exists_of_ofCall hcall
  have hsplit : acts = (before ++ pre) ++ (i, ⟨.loadCeiling, ceiling⟩)
      :: (post ++ (i, ⟨.getBlock .helper hash, reply⟩) :: rest) := by
    rw [hacts]
    simp
  have hload : ceiling = helperCeiling (before ++ pre) := h.atomic _ _ _ hsplit
  have hle : helperCeiling (before ++ pre) ≤ recorded := by
    rw [helperCeiling, hleast _ ⟨_, hsplit.symm⟩]
    refine Register.least_le ?_
    rw [Register.recorded_append]
    exact List.mem_append_left _ hrecorded
  omega

/-! ### Calls for blocks that the helper does not know -/

/-- What a call for one block resolves first. -/
def resolving (hash : BlockHash) (height pruneHeight : ℕ) : Trace :=
  [⟨.now, 0⟩, ⟨.getBlockchainInfo, .ok ⟨some pruneHeight⟩⟩,
    ⟨.now, 0⟩, ⟨.getBlockHeaders [hash], .ok ⟨[some (.ok height)], rfl⟩⟩]

theorem exec_onePruned (hd : d.pruned) {hash : BlockHash} {height pruneHeight budget : ℕ}
    (hpruned : height < pruneHeight) {es : Trace}
    (h : Exec (d.fetchPruned H budget hash height) es (.ok ())) :
    Exec (d.forBlocksWith H [hash] budget) (resolving hash height pruneHeight ++ es)
      (.ok ()) := by
  have hprune : Exec (retryRpc "reading prune height" budget PrunedElectrs.pruneHeight)
      [⟨.now, 0⟩, ⟨.getBlockchainInfo, .ok ⟨some pruneHeight⟩⟩] (.ok pruneHeight) :=
    exec_retryRpc_first isCall_pruneHeight rfl _ _ _
  have hheights : Exec (retryRpc "resolving block heights" budget (blockHeights [hash]))
      [⟨.now, 0⟩, ⟨.getBlockHeaders [hash], .ok ⟨[some (.ok height)], rfl⟩⟩] (.ok [height]) :=
    exec_retryRpc_first (isCall_blockHeights [hash]) rfl _ _ _
  have hrun : Exec (d.fetchRun H [height] budget 0 0 [hash]) es (.ok ()) :=
    .lift_bind (b := height) rfl h.bind_pure
  have hwalk : Exec (d.walkRuns H [hash] [height] pruneHeight budget 2 0) es (.ok ()) := by
    rw [Daemon.walkRuns, if_pos (by simp)]
    refine .lift_bind (b := height) rfl (.lift_bind (b := 1) rfl (.lift_bind (b := [hash]) rfl ?_))
    rw [if_neg (by simpa using hpruned)]
    exact hrun.bind_pure
  rw [Daemon.forBlocksWith, if_neg (by simpa using hd), if_neg (by simp)]
  exact exec_bind.mpr (.inr ⟨_, _ ++ es, pruneHeight, rfl, hprune, hheights.bind hwalk⟩)

/-- The usual source, after a helper that did not give the block. -/
def usualBlock (hash : BlockHash) : Trace :=
  [⟨.now, 0⟩, ⟨.getBlock .bitcoind hash, .ok []⟩, ⟨.func hash [], ()⟩]

theorem exec_usualBlock {hash : BlockHash} {height budget : ℕ} {es : Trace}
    (h : Exec (d.blockFromHelper H hash height) es (.ok none)) :
    Exec (d.fetchPruned H budget hash height) (es ++ usualBlock hash) (.ok ()) := by
  have husual : Exec (retryRpc s!"fetching pruned block {displayHash hash}" budget
      (getBlockRawRpc hash)) [⟨.now, 0⟩, ⟨.getBlock .bitcoind hash, .ok []⟩] (.ok []) :=
    exec_retryRpc_first (isCall_getBlockRawWith .bitcoind hash) rfl _ _ _
  exact h.bind ((exec_withContext.mpr ⟨_, rfl, husual⟩).bind (exec_ask.mpr ⟨(), rfl, rfl⟩))

/-- The helper fails, and the height is stored where it does not know the block. -/
theorem exec_blockFromHelper_error (hd : d.helper) (hash : BlockHash) {height ceiling : ℕ}
    (hceiling : height < ceiling) (chain : List String) (previous : ℕ) :
    Exec (d.blockFromHelper H hash height)
      (⟨.loadCeiling, ceiling⟩ :: ⟨.getBlock .helper hash, .error chain⟩
        :: if isBlockNotFound ("getblock failed" :: chain) then [⟨.swapCeiling height, previous⟩]
          else []) (.ok none) := by
  have hcall : Exec (getBlockRawWith .helper hash) [⟨.getBlock .helper hash, .error chain⟩]
      (.error (.err ("getblock failed" :: chain))) :=
    (isCall_getBlockRawWith .helper hash _ _).mpr ⟨.error chain, rfl, rfl⟩
  rw [Daemon.blockFromHelper, if_neg (by simpa using hd)]
  refine exec_ask_bind.mpr ⟨ceiling, _, rfl, ?_⟩
  rw [if_neg (Nat.not_le_of_lt hceiling)]
  refine exec_capture_bind.mpr ⟨_, if isBlockNotFound ("getblock failed" :: chain) then _ else _,
    _, rfl, hcall, ?_⟩
  by_cases hfound : isBlockNotFound ("getblock failed" :: chain)
  · simp only [if_pos hfound]
    exact exec_ask_bind.mpr ⟨previous, [], rfl, exec_pure.mpr ⟨rfl, rfl⟩⟩
  · simp only [if_neg hfound]
    exact exec_pure.mpr ⟨rfl, rfl⟩

/-- The helper does not know the block. -/
def unknownBlock (hash : BlockHash) (height ceiling previous : ℕ) : Trace :=
  [⟨.loadCeiling, ceiling⟩, ⟨.getBlock .helper hash, .error ["Block not found"]⟩,
    ⟨.swapCeiling height, previous⟩]

theorem exec_unknownBlock (hd : d.helper) {hash : BlockHash} {height ceiling : ℕ}
    (hceiling : height < ceiling) (previous : ℕ) :
    Exec (d.blockFromHelper H hash height) (unknownBlock hash height ceiling previous)
      (.ok none) := by
  have hfound : isBlockNotFound ["getblock failed", "Block not found"] := by decide +kernel
  have h := exec_blockFromHelper_error (H := H) hd hash hceiling ["Block not found"] previous
  rwa [if_pos hfound] at h

/-! ### Two calls that ask at once -/

/-- The events of one call, in a row. -/
def inCall (i : ℕ) (es : Trace) : Schedule := es.map (Prod.mk i)

/-- One call for each of the first two blocks, whose height is its number. -/
def hashAt (i : ℕ) : BlockHash := if i = 0 then genesisHash else block1Hash

/-- A query for the block of a height. -/
def callAt (i : ℕ) : Call := ⟨[hashAt i], retryBudgetQuery⟩

theorem exec_callAt (i : ℕ) {height ceiling : ℕ} (previous : ℕ) (hpruned : height < 2)
    (hceiling : height < ceiling) :
    Exec (Daemon.forBlocksWith knownHashes ⟨true, true⟩ (callAt i).batch (callAt i).budget)
      (resolving (hashAt i) height 2
        ++ (unknownBlock (hashAt i) height ceiling previous ++ usualBlock (hashAt i))) (.ok ()) :=
  exec_onePruned rfl hpruned (exec_usualBlock (exec_unknownBlock rfl hceiling previous))

/-- The second call stores before the first loads the ceiling. -/
def inTurn : Schedule :=
  inCall 0 (resolving (hashAt 0) 0 2) ++ (inCall 1 (resolving (hashAt 1) 1 2)
    ++ (inCall 1 (unknownBlock (hashAt 1) 1 usizeMax usizeMax)
    ++ inCall 0 (unknownBlock (hashAt 0) 0 1 1)))

/-- Both calls load the ceiling before either stores it, and the first stores first. -/
def outOfTurn : Schedule :=
  inCall 0 (resolving (hashAt 0) 0 2) ++ (inCall 1 (resolving (hashAt 1) 1 2)
    ++ [(0, ⟨.loadCeiling, usizeMax⟩), (1, ⟨.loadCeiling, usizeMax⟩),
      (0, ⟨.getBlock .helper (hashAt 0), .error ["Block not found"]⟩),
      (1, ⟨.getBlock .helper (hashAt 1), .error ["Block not found"]⟩),
      (0, ⟨.swapCeiling 0, usizeMax⟩), (1, ⟨.swapCeiling 1, 0⟩)])

theorem interleaved_inTurn : Interleaved knownHashes ⟨true, true⟩ callAt inTurn := by
  constructor
  · rintro (_ | _ | i)
    · exact ⟨_, _, exec_callAt 0 _ Nat.two_pos Nat.one_pos⟩
    · exact ⟨_, _, exec_callAt 1 _ Nat.one_lt_two (by decide : 1 < usizeMax)⟩
    · exact ⟨_, _, exec_callAt (i + 2) 0 Nat.one_lt_two (by decide : 1 < usizeMax)⟩
  · simp only [inTurn, inCall, resolving, unknownBlock, List.map, List.cons_append, List.nil_append]
    repeat' first | exact always_nil _ | refine always_cons ?_ ?_ | trivial

theorem interleaved_outOfTurn : Interleaved knownHashes ⟨true, true⟩ callAt outOfTurn := by
  constructor
  · rintro (_ | _ | i)
    · exact ⟨_, _, exec_callAt 0 _ Nat.two_pos (by decide : 0 < usizeMax)⟩
    · exact ⟨_, _, exec_callAt 1 _ Nat.one_lt_two (by decide : 1 < usizeMax)⟩
    · exact ⟨_, _, exec_callAt (i + 2) 0 Nat.one_lt_two (by decide : 1 < usizeMax)⟩
  · simp only [outOfTurn, inCall, resolving, List.map, List.cons_append, List.nil_append]
    repeat' first | exact always_nil _ | refine always_cons ?_ ?_ | trivial

theorem onlyLowers_iff_inTurn : OnlyLowers callAt inTurn := by
  refine (onlyLowers_iff interleaved_inTurn).mpr ?_
  simp only [inTurn, inCall, resolving, unknownBlock, List.map, List.cons_append, List.nil_append]
  repeat' first | exact always_nil _ | refine always_cons ?_ ?_ | trivial
  · -- nothing was stored before
    exact fun recorded hrecorded => absurd hrecorded List.not_mem_nil
  · exact fun recorded _ => Nat.zero_le recorded

/-- The later store is of the higher block: the ceiling rises, and is not the
least height recorded. -/
theorem not_onlyLowers_outOfTurn : Interleaved knownHashes ⟨true, true⟩ callAt outOfTurn
    ∧ helperCeiling outOfTurn.dropLast = 0 ∧ helperCeiling outOfTurn = 1
    ∧ recordedHeights outOfTurn = [0, 1] ∧ ¬ OnlyLowers callAt outOfTurn := by
  have hceiling : helperCeiling outOfTurn = 1 := rfl
  have hrecorded : recordedHeights outOfTurn = [0, 1] := rfl
  refine ⟨interleaved_outOfTurn, rfl, hceiling, hrecorded, fun h => ?_⟩
  have hleast := h.least outOfTurn List.prefix_rfl
  rw [hceiling, hrecorded] at hleast
  exact absurd hleast (by decide)

end PrunedElectrs
