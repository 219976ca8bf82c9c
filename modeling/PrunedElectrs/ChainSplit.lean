/-
PrunedElectrs/ChainSplit.lean

What the ceiling of the archival helper says of the split of the chains.

The helper follows another chain, which agrees with this node's below the split
(`Fork`).  It is looked at once, when the daemon connects (`acceptHelper`); after
that its tip grows, this node prunes, and any number of calls ask it for blocks,
which it gives, does not know, or fails to give (`Answers`).

The ceiling stays at or above the split as long as the helper does not answer
that it does not know a shared block, its tip not having come to it yet, and no
other failure reads like that answer; otherwise the block's height is stored
(`split_le_helperCeiling_iff`).  A helper that was accepted and is then overtaken
by the prune height is given up below the split (`helperCeiling_overtaken`).
-/
import PrunedElectrs.HelperCeiling

namespace PrunedElectrs

open Wire Effects Runs

variable {H : Hashes}

/-! ### Accepting the helper -/

/-- What `getblockchaininfo` says of the helper. -/
structure HelperInfo where
  pruned : Bool
  /-- The height of its tip. -/
  blocks : ℕ

/-- Is the helper used?  It may not be configured; connecting to it can fail,
and so can its `getblockchaininfo`. -/
def acceptHelper (pruned : Bool) (info : BlockchainInfo) :
    Option (Outside (Outside HelperInfo)) → Bool
  | none => false
  | some client =>
      if !pruned then false
      else match client with
        | .ok (.ok h) =>
            if h.pruned then false
            else if h.blocks < info.pruneHeight.getD 0 then false
            else true
        | .ok (.error _) => false
        | .error _ => false

/-- The daemon that is connected. -/
def Daemon.connect (pruned : Bool) (info : BlockchainInfo)
    (helper : Option (Outside (Outside HelperInfo))) : Daemon :=
  ⟨pruned, acceptHelper pruned info helper⟩

theorem acceptHelper_iff {pruned : Bool} {info : BlockchainInfo} {h : HelperInfo} :
    acceptHelper pruned info (some (.ok (.ok h)))
      ↔ pruned ∧ ¬ h.pruned ∧ info.pruneHeight.getD 0 ≤ h.blocks := by
  rw [acceptHelper]
  cases pruned <;> cases h.pruned <;> simp

/-! ### Two chains -/

/-- The chains of this node and of the helper, and how the helper answers. -/
structure Fork where
  ours : ℕ → BlockHash
  theirs : ℕ → BlockHash
  split : ℕ
  shared : ∀ n < split, theirs n = ours n
  differs : ∀ n, split ≤ n → theirs n ≠ ours n
  split_le : split ≤ usizeMax
  block : BlockHash → Bytes
  /-- The messages of the error for a hash that is not known. -/
  unknownHash : List String
  unknownHash_found : isBlockNotFound ("getblock failed" :: unknownHash)

/-- The helper has the block, when its tip is at `tip`. -/
def Fork.Holds (f : Fork) (tip : ℕ) (hash : BlockHash) : Prop := ∃ n ≤ tip, f.theirs n = hash

/-- The answers to `getblock`. -/
inductive Fork.Answers (f : Fork) (tip : ℕ) (hash : BlockHash) : Outside (List Char) → Prop
  | block : f.Holds tip hash → f.Answers tip hash (.ok (toHex (f.block hash)))
  | unknown : ¬ f.Holds tip hash → f.Answers tip hash (.error f.unknownHash)
  | failure {chain : List String} : chain ≠ f.unknownHash → f.Answers tip hash (.error chain)

/-! ### Runs -/

/-- What can happen next, in the calls and to the two nodes. -/
inductive Move where
  /-- The next step of a call. -/
  | call (i : ℕ) (e : Event DaemonOp.Reply)
  /-- The helper's chain grows to that height. -/
  | helperTip (height : ℕ)
  /-- This node prunes what is below that height. -/
  | prune (height : ℕ)

/-- The event of a call that a move is. -/
def Move.event : Move → Option (ℕ × Event DaemonOp.Reply)
  | .call i e => some (i, e)
  | _ => none

/-- What happened in the calls. -/
def events (moves : List Move) : Schedule := moves.filterMap Move.event

/-- The height of the helper's chain after a move. -/
def tipAfter (tip : ℕ) : Move → ℕ
  | .helperTip height => height
  | _ => tip

/-- The height this node has pruned to after a move. -/
def prunedAfter (pruned : ℕ) : Move → ℕ
  | .prune height => height
  | _ => pruned

/-- What the two nodes do: their chains only grow, each answers from what it has. -/
def Fork.Honest (f : Fork) (tip pruned : ℕ) (pre : List Move) : Move → Prop
  | .helperTip height => pre.foldl tipAfter tip ≤ height
  | .prune height => pre.foldl prunedAfter pruned ≤ height
  | .call _ ⟨.getBlockchainInfo, reply⟩ => ∀ info, reply = .ok info →
      info.pruneHeight.getD 0 = pre.foldl prunedAfter pruned
  | .call _ ⟨.getBlockHeaders hashes, reply⟩ => ∀ heights, heightsOf hashes reply = .ok heights →
      ∀ p ∈ hashes.zip heights, f.ours p.2 = p.1
  | .call _ ⟨.getBlock .helper hash, reply⟩ => f.Answers (pre.foldl tipAfter tip) hash reply
  | _ => True

/-- A run from a helper that was accepted. -/
structure ForkRun (H : Hashes) (f : Fork) (info : BlockchainInfo) (h : HelperInfo)
    (callOf : ℕ → Call) (moves : List Move) : Prop where
  accepted : acceptHelper true info (some (.ok (.ok h)))
  interleaved : Interleaved H (.connect true info (some (.ok (.ok h)))) callOf (events moves)
  honest : Always (f.Honest h.blocks (info.pruneHeight.getD 0)) moves

/-- Where a call asks the helper for a block of the shared history, the helper's
tip has come to it or it does not say that the hash is unknown, and no other
failure reads as if it did. -/
def Fork.Reached (f : Fork) (tip : ℕ) (callOf : ℕ → Call) (pre : List Move) : Move → Prop
  | .call i ⟨.getBlock .helper hash, reply⟩ => ∀ n < f.split,
      positionAt (callOf i).batch (ofCall i (events pre)) = some (hash, n) →
      (n ≤ pre.foldl tipAfter tip ∨ reply ≠ .error f.unknownHash)
        ∧ ∀ chain, chain ≠ f.unknownHash → reply = .error chain →
          ¬ isBlockNotFound ("getblock failed" :: chain)
  | _ => True

/-! ### The ceiling stays above the split -/

variable {f : Fork} {tip : ℕ} {info : BlockchainInfo} {helper : HelperInfo} {callOf : ℕ → Call}
  {moves : List Move}

theorem Fork.holds_of_reached {n : ℕ} (hshared : n < f.split) (htip : n ≤ tip) :
    f.Holds tip (f.ours n) := ⟨n, htip, f.shared n hshared⟩

/-- A shared block that was reached is not taken for one that the helper will
never know. -/
theorem Fork.Reached.not_isBlockNotFound {pre : List Move} {i n : ℕ} {hash : BlockHash}
    {chain : List String}
    (h : f.Reached tip callOf pre (.call i ⟨.getBlock .helper hash, .error chain⟩))
    (hanswer : f.Answers (pre.foldl tipAfter tip) hash (.error chain)) (hn : n < f.split)
    (hat : positionAt (callOf i).batch (ofCall i (events pre)) = some (hash, n))
    (hours : f.ours n = hash) : ¬ isBlockNotFound ("getblock failed" :: chain) := by
  obtain ⟨hreach, hfailure⟩ := h n hn hat
  by_cases hchain : chain = f.unknownHash
  · have htip : n ≤ pre.foldl tipAfter tip :=
      hreach.resolve_right fun hne => hne (congrArg Except.error hchain)
    -- the helper has the block and does not answer that it has not
    have hholds := f.holds_of_reached hn htip
    rw [hours] at hholds
    cases hanswer with
    | unknown hnot => exact absurd hholds hnot
    | failure hne => exact absurd hchain hne
  · exact hfailure chain hchain rfl

theorem resolvedOf_eq_some {e : Event DaemonOp.Reply} {heights : List ℕ}
    (h : resolvedOf e = some heights) : ∃ hashes reply, e = ⟨.getBlockHeaders hashes, reply⟩
      ∧ heightsOf hashes reply = .ok heights := by
  rcases e with ⟨op, reply⟩
  cases op
  case getBlockHeaders hashes =>
    refine ⟨hashes, reply, rfl, ?_⟩
    rw [resolvedOf] at h
    rcases hread : heightsOf hashes reply with fault | heights'
    · rw [hread] at h
      cases h
    · rw [hread] at h
      exact congrArg Except.ok (Option.some.inj h)
  all_goals cases h

theorem exists_of_events {moves : List Move} {front back : Schedule} {i : ℕ}
    {e : Event DaemonOp.Reply} (h : events moves = front ++ (i, e) :: back) :
    ∃ pre post, moves = pre ++ .call i e :: post ∧ events pre = front := by
  obtain ⟨pre, move, post, rfl, he, hfront, -⟩ := exists_of_filterMap h
  cases move with
  | call j e' =>
      obtain ⟨rfl, rfl⟩ := Prod.mk.inj (Option.some.inj he)
      exact ⟨pre, post, rfl, hfront⟩
  | helperTip height => cases he
  | prune height => cases he

/-- The position that a call is at is one of this node's chain. -/
theorem ForkRun.ours_of_positionAt (h : ForkRun H f info helper callOf moves) {i : ℕ}
    {pre post : Schedule} (hmoves : events moves = pre ++ post) {hash : BlockHash} {n : ℕ}
    (hat : positionAt (callOf i).batch (ofCall i pre) = some (hash, n)) : f.ours n = hash := by
  obtain ⟨heights, hread, hat⟩ := Option.bind_eq_some_iff.mp hat
  obtain ⟨e, he, hresolved⟩ := List.exists_of_findSome?_eq_some hread
  obtain ⟨hashes, reply, rfl, hheights⟩ := resolvedOf_eq_some hresolved
  obtain ⟨front, back, hsplit⟩ := List.append_of_mem he
  obtain ⟨pre₁, pre₂, rfl, -, -⟩ := exists_of_ofCall hsplit
  have hmoves : events moves = pre₁ ++ (i, ⟨.getBlockHeaders hashes, reply⟩) :: (pre₂ ++ post) := by
    rw [hmoves, List.append_assoc, List.cons_append]
  obtain rfl : hashes = (callOf i).batch := h.interleaved.offered hmoves
  obtain ⟨before, after, hbefore, -⟩ := exists_of_events hmoves
  exact h.honest before _ after hbefore heights hheights (hash, n) (List.mem_of_getElem? hat)

theorem exists_of_recorded {acts : Schedule} {height : ℕ} (h : height ∈ recordedHeights acts) :
    ∃ i previous, (i, ⟨.swapCeiling height, previous⟩) ∈ acts := by
  obtain ⟨⟨i, op, reply⟩, ha, hstored⟩ := List.mem_filterMap.mp h
  cases op
  case swapCeiling height' =>
    obtain rfl := Option.some.inj hstored
    exact ⟨i, reply, ha⟩
  all_goals cases hstored

/-- What is recorded is above the split. -/
theorem ForkRun.split_le_of_recorded (h : ForkRun H f info helper callOf moves)
    (hreached : Always (f.Reached helper.blocks callOf) moves) {height : ℕ}
    (hrecorded : height ∈ recordedHeights (events moves)) : f.split ≤ height := by
  by_contra hlt
  obtain ⟨i, previous, hmem⟩ := exists_of_recorded hrecorded
  obtain ⟨pre, post, hmoves⟩ := List.append_of_mem hmem
  obtain ⟨front, ceiling, hash, chain, hcall, hat, -, hfound⟩ := h.interleaved.offered hmoves
  have hours : f.ours height = hash := h.ours_of_positionAt hmoves hat
  -- the store goes back to an answer of the helper
  have hasked : ofCall i pre = (front ++ [⟨.loadCeiling, ceiling⟩])
      ++ [⟨.getBlock .helper hash, .error chain⟩] := by
    rw [hcall, List.append_assoc]
    rfl
  rw [hasked, positionAt_concat rfl rfl] at hat
  obtain ⟨pre₁, pre₂, rfl, hfront, -⟩ := exists_of_ofCall hasked
  rw [List.append_assoc, List.cons_append] at hmoves
  obtain ⟨before, after, hbefore, rfl⟩ := exists_of_events hmoves
  rw [← hfront] at hat
  have hanswer : f.Answers (before.foldl tipAfter helper.blocks) hash (.error chain) :=
    h.honest before _ after hbefore
  exact (hreached before _ after hbefore).not_isBlockNotFound hanswer (Nat.lt_of_not_le hlt) hat
    hours hfound

theorem events_append (moves moves' : List Move) :
    events (moves ++ moves') = events moves ++ events moves' := List.filterMap_append

theorem ForkRun.split_le_helperCeiling (h : ForkRun H f info helper callOf moves)
    (hreached : Always (f.Reached helper.blocks callOf) moves) :
    ∀ pre, pre <+: moves → f.split ≤ helperCeiling (events pre) := by
  rintro pre ⟨post, rfl⟩
  have hvalue : helperCeiling (events pre) = usizeMax
      ∨ helperCeiling (events pre) ∈ recordedHeights (events pre) := Register.value_eq_or_mem _
  rcases hvalue with hinit | hmem
  · rw [hinit]
    exact f.split_le
  · refine h.split_le_of_recorded hreached ?_
    rw [recordedHeights, events_append, Register.recorded_append]
    exact List.mem_append_left _ hmem

/-- A load gives what the ceiling was then. -/
theorem ForkRun.split_le_of_load (h : ForkRun H f info helper callOf moves)
    (hceiling : ∀ pre, pre <+: moves → f.split ≤ helperCeiling (events pre)) {i ceiling : ℕ}
    (hload : .call i ⟨.loadCeiling, ceiling⟩ ∈ moves) : f.split ≤ ceiling := by
  obtain ⟨pre, post, rfl⟩ := List.append_of_mem hload
  have hread : ceiling = helperCeiling (events pre) :=
    h.interleaved.atomic (events pre) (i, ⟨.loadCeiling, ceiling⟩) (events post)
      (events_append pre _)
  rw [hread]
  exact hceiling pre (List.prefix_append pre _)

/-! ### And only then -/

/-- The height of a block that the helper does not know is stored at once. -/
def Settled (es : Trace) : Prop := ∀ pre hash chain post,
  es = pre ++ ⟨.getBlock .helper hash, .error chain⟩ :: post →
  isBlockNotFound ("getblock failed" :: chain) →
  ∃ height previous post', post = ⟨.swapCeiling height, previous⟩ :: post'

theorem Settled.append {es es' : Trace} (h : Settled es) (h' : Settled es') :
    Settled (es ++ es') := by
  intro pre hash chain post heq hfound
  rcases List.append_eq_append_iff.mp heq with ⟨mid, rfl, hmid⟩ | ⟨mid, hes, hmid⟩
  · exact h' mid hash chain post hmid hfound
  · cases mid with
    | nil => exact h' [] hash chain post hmid.symm hfound
    | cons e mid =>
        rw [List.cons_append, List.cons.injEq] at hmid
        obtain ⟨rfl, rfl⟩ := hmid
        obtain ⟨height, previous, post', rfl⟩ := h pre hash chain mid hes hfound
        exact ⟨height, previous, post' ++ es', rfl⟩

theorem settled_of_forall {P : Event DaemonOp.Reply → Prop} {es : Trace}
    (hP : ∀ hash reply, ¬ P ⟨.getBlock .helper hash, reply⟩) (h : ∀ e ∈ es, P e) : Settled es := by
  rintro pre hash chain post rfl -
  exact absurd (h ⟨.getBlock .helper hash, .error chain⟩ (by simp)) (hP hash _)

theorem settled_of_usual {es : Trace} (h : ∀ e ∈ es, Usual e) : Settled es :=
  settled_of_forall (fun _ _ => id) h

/-- An answer that is none of these needs no store. -/
theorem settled_singleton {hash : BlockHash} {reply : Outside (List Char)}
    (h : ∀ chain, reply = .error chain → ¬ isBlockNotFound ("getblock failed" :: chain)) :
    Settled [⟨.getBlock .helper hash, reply⟩] := by
  intro pre hash' chain post heq hfound
  rcases pre with - | ⟨e, pre⟩
  · obtain ⟨he, -⟩ := List.cons.inj heq
    cases he
    exact absurd hfound (h chain rfl)
  · simp at heq

theorem Helped.settled {d : Daemon} {hash : BlockHash} {height : ℕ} {es : Trace}
    {found : Option Bytes} (h : Helped H d hash height es found) : Settled es := by
  have hload {ceiling : ℕ} : Settled [⟨.loadCeiling, ceiling⟩] :=
    settled_of_usual (List.forall_mem_singleton.mpr trivial)
  cases h with
  | noHelper _ => exact settled_of_usual (List.forall_mem_nil _)
  | above _ _ => exact hload
  | given _ _ hacc =>
      refine hload.append (settled_singleton fun chain hreply => ?_)
      rw [hreply] at hacc
      exact absurd hacc (not_accepts_of_error H rfl _)
  | notGiven _ _ _ hfound => exact hload.append (settled_singleton hfound)
  | @unknown ceiling previous chain _ _ _ =>
      have hstored : Settled
          [⟨.getBlock .helper hash, .error chain⟩, ⟨.swapCeiling height, previous⟩] := by
        intro pre hash' chain' post heq _
        rcases pre with - | ⟨e, - | ⟨e', pre⟩⟩
        · obtain ⟨-, rfl⟩ := List.cons.inj heq
          exact ⟨height, previous, [], rfl⟩
        · simp at heq
        · simp at heq
      exact hload.append hstored

theorem Walk.settled {d : Daemon} {budget pruneHeight : ℕ} {ps : List Position} {es : Trace}
    {r : Rust Unit} (h : Walk H d budget pruneHeight ps es r) : Settled es := by
  have hpruned {p : Position} {es : Trace} {r : Rust Unit}
      (hfetch : Exec (d.fetchPruned H budget p.1 p.2) es r) : Settled es := by
    obtain ⟨es₁, es₂, found, rfl, hhelped, husual⟩ := fetchPruned_parts hfetch
    exact hhelped.settled.append (settled_of_usual husual)
  induction h with
  | done => exact settled_of_usual (List.forall_mem_nil _)
  | pruned _ hfetch _ ih => exact (hpruned hfetch).append ih
  | prunedFailed _ hfetch => exact hpruned hfetch
  | run _ _ _ hp2p _ ih => exact (settled_of_usual (usual_forBlocks hp2p)).append ih
  | runFailed _ _ _ hp2p => exact settled_of_usual (usual_forBlocks hp2p)

theorem settled_forBlocksWith {d : Daemon} {batch : List BlockHash} {budget : ℕ} {es : Trace}
    {r : Rust Unit} (h : Exec (d.forBlocksWith H batch budget) es r) : Settled es := by
  have hreading {es : Trace} (hes : ∀ e ∈ es, ReadingOf batch e) : Settled es :=
    settled_of_forall (fun _ _ => id) hes
  by_cases hd : d.pruned
  · rcases forBlocksWith_walk hd h with ⟨-, rfl, -⟩ | ⟨-, hread | hwalk⟩
    · exact settled_of_usual (List.forall_mem_nil _)
    · exact hreading hread.choose_spec.2.1
    · obtain ⟨es₀, es', pruneHeight, ps, rfl, hresolved, hw⟩ := hwalk
      exact (hreading hresolved.readingOf).append hw.settled
  · rw [Daemon.forBlocksWith, if_pos (by simpa using hd)] at h
    exact settled_of_usual (usual_forBlocks h)

/-- Every call that has begun has come to its end. -/
def Ended (H : Hashes) (d : Daemon) (callOf : ℕ → Call) (acts : Schedule) : Prop :=
  ∀ i, ofCall i acts = [] ∨
    ∃ r, Exec (d.forBlocksWith H (callOf i).batch (callOf i).budget) (ofCall i acts) r

theorem Ended.settled {d : Daemon} {acts : Schedule} (h : Ended H d callOf acts) (i : ℕ) :
    Settled (ofCall i acts) := by
  rcases h i with hnone | ⟨r, hexec⟩
  · rw [hnone]
    exact settled_of_usual (List.forall_mem_nil _)
  · exact settled_forBlocksWith hexec

theorem helperCeiling_concat (moves : List Move) (i height previous : ℕ) :
    helperCeiling (events (moves ++ [.call i ⟨.swapCeiling height, previous⟩])) = height := by
  rw [events_append]
  exact Register.value_concat_of_some rfl

theorem ofCall_cons_self (i : ℕ) (e : Event DaemonOp.Reply) (acts : Schedule) :
    ofCall i ((i, e) :: acts) = e :: ofCall i acts := by
  simp [ofCall]

/-- A shared block that is taken for an unknown one lowers the ceiling to its
height, once the call goes on. -/
theorem ForkRun.not_isBlockNotFound (h : ForkRun H f info helper callOf moves)
    (hended : Ended H (.connect true info (some (.ok (.ok helper)))) callOf (events moves))
    (hceiling : ∀ pre, pre <+: moves → f.split ≤ helperCeiling (events pre))
    {pre post : List Move} {i n : ℕ} {hash : BlockHash} {chain : List String}
    (hmoves : moves = pre ++ .call i ⟨.getBlock .helper hash, .error chain⟩ :: post)
    (hat : positionAt (callOf i).batch (ofCall i (events pre)) = some (hash, n))
    (hn : n < f.split) : ¬ isBlockNotFound ("getblock failed" :: chain) := by
  intro hfound
  have hcall : ofCall i (events moves) = ofCall i (events pre)
      ++ ⟨.getBlock .helper hash, .error chain⟩ :: ofCall i (events post) := by
    rw [hmoves, events_append, ofCall_append]
    exact congrArg _ (ofCall_cons_self i _ (events post))
  obtain ⟨height, previous, rest, hpost⟩ := hended.settled i _ _ _ _ hcall hfound
  -- the store is the call's next event, whatever happens in between
  have hnext : ofCall i (events post) = [] ++ ⟨.swapCeiling height, previous⟩ :: rest := hpost
  obtain ⟨between, after, hbetween, hnone, -⟩ := exists_of_ofCall hnext
  obtain ⟨mid, post', rfl, rfl⟩ := exists_of_events hbetween
  have hbefore : ofCall i (events (pre ++ .call i ⟨.getBlock .helper hash, .error chain⟩ :: mid))
      = ofCall i (events pre) ++ [⟨.getBlock .helper hash, .error chain⟩] := by
    rw [events_append, ofCall_append]
    exact congrArg _ ((ofCall_cons_self i _ (events mid)).trans (congrArg _ hnone))
  have hsplit : moves = (pre ++ .call i ⟨.getBlock .helper hash, .error chain⟩ :: mid)
      ++ .call i ⟨.swapCeiling height, previous⟩ :: post' := by
    rw [hmoves, List.append_assoc, List.cons_append]
  have hevents : events moves
      = events (pre ++ .call i ⟨.getBlock .helper hash, .error chain⟩ :: mid)
        ++ (i, ⟨.swapCeiling height, previous⟩) :: events post' := by
    rw [hsplit, events_append]
    rfl
  obtain ⟨front, ceiling, hash', chain', -, hat', -⟩ := h.interleaved.offered hevents
  rw [hbefore, positionAt_concat rfl rfl, hat, Option.some.injEq, Prod.mk.injEq] at hat'
  have hle := hceiling _ ⟨post', (List.append_cons _ _ post').symm.trans hsplit.symm⟩
  rw [helperCeiling_concat, ← hat'.2] at hle
  exact absurd hn (Nat.not_lt_of_le hle)

/-- **When the ceiling is never below the split**: in every run in which requests
for shared blocks go as they should, and then no call turns away from the helper
for one; and where the calls have come to their end, in no other. -/
theorem split_le_helperCeiling_iff (h : ForkRun H f info helper callOf moves) :
    (Always (f.Reached helper.blocks callOf) moves →
      (∀ pre, pre <+: moves → f.split ≤ helperCeiling (events pre))
        ∧ ∀ i ceiling, .call i ⟨.loadCeiling, ceiling⟩ ∈ moves → f.split ≤ ceiling)
    ∧ (Ended H (.connect true info (some (.ok (.ok helper)))) callOf (events moves) →
      (∀ pre, pre <+: moves → f.split ≤ helperCeiling (events pre)) →
      Always (f.Reached helper.blocks callOf) moves) := by
  constructor
  · intro hreached
    have hceiling := h.split_le_helperCeiling hreached
    exact ⟨hceiling, fun i ceiling hload => h.split_le_of_load hceiling hload⟩
  · intro hended hceiling pre move post hmoves
    rcases move with ⟨i, op, reply⟩ | height | height
    · cases op
      case getBlock client hash =>
        cases client with
        | bitcoind => trivial
        | helper =>
            intro n hn hat
            have hnot (chain : List String) (hreply : reply = .error chain) :
                ¬ isBlockNotFound ("getblock failed" :: chain) := by
              subst hreply
              exact h.not_isBlockNotFound hended hceiling hmoves hat hn
            exact ⟨.inr fun hreply => hnot _ hreply f.unknownHash_found,
              fun chain _ hreply => hnot chain hreply⟩
      all_goals trivial
    · trivial
    · trivial

/-! ### A split at the third block -/

/-- The block at a height, on either side. -/
def sideHash (side : UInt8) (n : ℕ) : BlockHash :=
  List.Vector.ofFn fun i => if i = 0 then side else UInt8.ofNat (n / 256 ^ (i.val - 1))

theorem sideHash_ne {side side' : UInt8} (h : side ≠ side') (m n : ℕ) :
    sideHash side m ≠ sideHash side' n := by
  intro heq
  have hfirst := congrArg (fun hash => List.Vector.get hash 0) heq
  simp only [sideHash, List.Vector.get_ofFn, if_pos] at hfirst
  exact h hfirst

/-- Two chains that part at height 3. -/
def smallFork : Fork where
  ours := sideHash 0
  theirs n := if n < 3 then sideHash 0 n else sideHash 1 n
  split := 3
  shared n h := if_pos h
  differs n h := by
    rw [if_neg (Nat.not_lt_of_le h)]
    exact sideHash_ne (by decide) n n
  split_le := by decide
  block _ := []
  unknownHash := ["Block not found"]
  unknownHash_found := by decide +kernel

/-- When this node has pruned one block the helper has two. -/
def smallInfo : BlockchainInfo := ⟨some 1⟩

/-- A helper that does not prune, with a chain up to height 1. -/
def smallHelper : HelperInfo := ⟨false, 1⟩

/-- A daemon that has connected to it. -/
def smallDaemon : Daemon := .connect true smallInfo (some (.ok (.ok smallHelper)))

/-- Call `i` is for the block at height `i + 2`. -/
def callOfBlock (i : ℕ) : Call := ⟨[sideHash 0 (i + 2)], retryBudgetQuery⟩

theorem exec_callOfBlock (i : ℕ) {pruneHeight : ℕ} (hpruned : i + 2 < pruneHeight) {es : Trace}
    (h : Exec (smallDaemon.blockFromHelper knownHashes (sideHash 0 (i + 2)) (i + 2)) es
      (.ok none)) :
    ∃ rest r, Exec (smallDaemon.forBlocksWith knownHashes (callOfBlock i).batch
      (callOfBlock i).budget)
      (resolving (sideHash 0 (i + 2)) (i + 2) pruneHeight ++ es ++ rest) r := by
  refine ⟨usualBlock (sideHash 0 (i + 2)), .ok (), ?_⟩
  rw [List.append_assoc]
  exact exec_onePruned rfl hpruned (exec_usualBlock h)

theorem honest_headers {f : Fork} {hash : BlockHash} {height : ℕ} (h : f.ours height = hash)
    (tip pruned : ℕ) (pre : List Move) (i : ℕ) : f.Honest tip pruned pre
      (.call i ⟨.getBlockHeaders [hash], .ok ⟨[some (.ok height)], rfl⟩⟩) := by
  intro heights hheights p hp
  obtain rfl : [height] = heights := Except.ok.inj hheights
  obtain rfl := List.mem_singleton.mp hp
  exact h

/-- The events of a call as moves. -/
def moving (i : ℕ) (es : Trace) : List Move := es.map (Move.call i)

/-- This node prunes past the helper's tip, which catches up later. -/
def overtaken : List Move :=
  [.prune 3] ++ (moving 0 (resolving (sideHash 0 2) 2 3)
    ++ (moving 0 (unknownBlock (sideHash 0 2) 2 usizeMax usizeMax) ++ [.helperTip 2]))

/-- A call that was not made. -/
theorem exec_notMade (i : ℕ) : ∃ es r, Exec (smallDaemon.forBlocksWith knownHashes
    (callOfBlock i).batch (callOfBlock i).budget) es r := by
  obtain ⟨rest, r, h⟩ := exec_callOfBlock i (Nat.lt_succ_self _)
    (exec_unknownBlock rfl (Nat.lt_succ_self _) 0)
  exact ⟨_, r, h⟩

theorem forkRun_overtaken :
    ForkRun knownHashes smallFork smallInfo smallHelper callOfBlock overtaken := by
  refine ⟨acceptHelper_iff.mpr ⟨rfl, by decide, le_rfl⟩, ⟨?_, ?_⟩, ?_⟩
  · rintro (_ | i)
    · exact exec_callOfBlock 0 (by decide) (exec_unknownBlock rfl (by decide) usizeMax)
    · exact exec_notMade (i + 1)
  · simp only [overtaken, moving, resolving, unknownBlock, List.map, List.cons_append,
      List.nil_append]
    show Always AtomicAccess [_, _, _, _, _, _, _]
    repeat' first | exact always_nil _ | refine always_cons ?_ ?_ | trivial
  · simp only [overtaken, moving, resolving, unknownBlock, List.map, List.cons_append,
      List.nil_append]
    repeat' first | exact always_nil _ | refine always_cons ?_ ?_ | trivial
    · exact (by decide : 1 ≤ 3)
    · exact fun info h => Except.ok.inj h ▸ rfl
    · exact honest_headers rfl _ _ _ _
    · refine .unknown ?_
      rintro ⟨n, hn, h⟩
      exact (by decide : ∀ n ≤ 1, smallFork.theirs n ≠ sideHash 0 2) n hn h
    · exact (by decide : 1 ≤ 2)

/-- **An accepted helper is given up** below the split when this node prunes past
its tip, also for a block that it comes to have. -/
theorem helperCeiling_overtaken :
    ForkRun knownHashes smallFork smallInfo smallHelper callOfBlock overtaken
      ∧ helperCeiling (events overtaken) = 2 ∧ 2 < smallFork.split
      ∧ smallFork.Holds (overtaken.foldl tipAfter smallHelper.blocks) (smallFork.ours 2) :=
  ⟨forkRun_overtaken, rfl, Nat.lt_succ_self 2, 2, le_rfl, rfl⟩

/-- The helper has caught up in time, and times out once; then a block beyond the
split is asked for. -/
def caughtUp : List Move :=
  [.prune 3, .helperTip 2] ++ (moving 0 (resolving (sideHash 0 2) 2 3)
    ++ (moving 0 [⟨.loadCeiling, usizeMax⟩, ⟨.getBlock .helper (sideHash 0 2), .error ["timeout"]⟩]
    ++ ([.prune 4] ++ (moving 1 (resolving (sideHash 0 3) 3 4)
    ++ moving 1 (unknownBlock (sideHash 0 3) 3 usizeMax usizeMax)))))

theorem forkRun_caughtUp :
    ForkRun knownHashes smallFork smallInfo smallHelper callOfBlock caughtUp := by
  refine ⟨acceptHelper_iff.mpr ⟨rfl, by decide, le_rfl⟩, ⟨?_, ?_⟩, ?_⟩
  · rintro (_ | _ | i)
    · have h := exec_blockFromHelper_error (H := knownHashes) (d := smallDaemon) rfl
        (sideHash 0 2) (by decide : 2 < usizeMax) ["timeout"] 0
      rw [if_neg (by decide +kernel)] at h
      exact exec_callOfBlock 0 (by decide) h
    · exact exec_callOfBlock 1 (by decide) (exec_unknownBlock rfl (by decide) usizeMax)
    · exact exec_notMade (i + 2)
  · simp only [caughtUp, moving, resolving, unknownBlock, List.map, List.cons_append,
      List.nil_append]
    show Always AtomicAccess [_, _, _, _, _, _, _, _, _, _, _, _, _]
    repeat' first | exact always_nil _ | refine always_cons ?_ ?_ | trivial
  · simp only [caughtUp, moving, resolving, unknownBlock, List.map, List.cons_append,
      List.nil_append]
    repeat' first | exact always_nil _ | refine always_cons ?_ ?_ | trivial
    · exact (by decide : 1 ≤ 3)
    · exact (by decide : 1 ≤ 2)
    · exact fun info h => Except.ok.inj h ▸ rfl
    · exact honest_headers rfl _ _ _ _
    · exact .failure (by decide)
    · exact (by decide : 3 ≤ 4)
    · exact fun info h => Except.ok.inj h ▸ rfl
    · exact honest_headers rfl _ _ _ _
    · refine .unknown ?_
      rintro ⟨n, hn, h⟩
      exact (by decide : ∀ n ≤ 2, smallFork.theirs n ≠ sideHash 0 3) n hn h

theorem reached_caughtUp :
    Always (smallFork.Reached smallHelper.blocks callOfBlock) caughtUp := by
  simp only [caughtUp, moving, resolving, unknownBlock, List.map, List.cons_append,
    List.nil_append]
  repeat' first | exact always_nil _ | refine always_cons ?_ ?_ | trivial
  · refine fun n hn _ => ⟨.inl (Nat.le_of_lt_succ hn), fun chain _ h => ?_⟩
    obtain rfl := Except.error.inj h
    decide +kernel
  · -- the block at the split is not shared
    intro n hn hat
    obtain rfl : 3 = n := congrArg Prod.snd (Option.some.inj hat)
    exact absurd hn (Nat.lt_irrefl 3)

theorem split_le_helperCeiling_iff_caughtUp :
    helperCeiling (events caughtUp) = 3 ∧ smallFork.split ≤ helperCeiling (events caughtUp) :=
  ⟨rfl, ((split_le_helperCeiling_iff forkRun_caughtUp).1 reached_caughtUp).1 caughtUp
    List.prefix_rfl⟩

end PrunedElectrs
