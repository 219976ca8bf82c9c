/-
PrunedElectrs/Stall.lean

How long a serving call waits.

A call of `for_blocks` sleeps in the backoffs of `retry_rpc` only: once for the
prune height, once for the heights, and once for each block fetched over RPC.
Each of these calls has the whole budget to itself.  On a clock that only
sleeps advance the sleep of a call is therefore a sum over its retried RPCs,
with one summand a call that depends on how often it failed (`Accounted`).

`stall_bounded_iff` is the resulting condition for a bound that does not depend
on the batch; `flakyCall_stalls` is a call that exceeds it.
-/
import PrunedElectrs.Backoff
import PrunedElectrs.Refinement

namespace PrunedElectrs

open Wire Effects

/-! ### Failures -/

/-- Did this attempt of a retried RPC fail?  `none` for any other event. -/
def failedAttempt : Event DaemonOp.Reply → Option Bool
  | ⟨.getBlockchainInfo, reply⟩ => some !(pruneHeightOf reply).isOk
  | ⟨.getBlockHeaders hashes, reply⟩ => some !(heightsOf hashes reply).isOk
  | ⟨.getBlock .bitcoind _, reply⟩ => some !(blockOf reply).isOk
  | _ => none

/-- How often each retried RPC failed, where the first has failed `n` times
already. -/
def failuresFrom (n : ℕ) : Trace → List ℕ
  | [] => [n]
  | e :: es =>
      match failedAttempt e with
      | none => failuresFrom n es
      | some true => failuresFrom (n + 1) es
      | some false => n :: failuresFrom 0 es

/-- How long a retried RPC waits that fails `n` times. -/
def backedOff (budget : ℕ) : ℕ → ℕ
  | 0 => 0
  | n + 1 =>
      if backedOff budget n < budget then backedOff budget n + delayAt n else backedOff budget n

/-- How long retried RPCs wait, one after the other. -/
def stall (budget : ℕ) (failures : List ℕ) : ℕ := (failures.map (backedOff budget)).sum

@[simp] theorem failuresFrom_nil (n : ℕ) : failuresFrom n [] = [n] := rfl

theorem failuresFrom_cons_none {n : ℕ} {e : Event DaemonOp.Reply} {es : Trace}
    (h : failedAttempt e = none) : failuresFrom n (e :: es) = failuresFrom n es := by
  rw [failuresFrom, h]

theorem failuresFrom_cons_failed {n : ℕ} {e : Event DaemonOp.Reply} {es : Trace}
    (h : failedAttempt e = some true) : failuresFrom n (e :: es) = failuresFrom (n + 1) es := by
  rw [failuresFrom, h]

theorem failuresFrom_cons_succeeded {n : ℕ} {e : Event DaemonOp.Reply} {es : Trace}
    (h : failedAttempt e = some false) : failuresFrom n (e :: es) = n :: failuresFrom 0 es := by
  rw [failuresFrom, h]

/-- Events go on counting at the RPC that is not finished. -/
theorem failuresFrom_append (n : ℕ) (es : Trace) : ∃ finished m,
    failuresFrom n es = finished ++ [m]
      ∧ ∀ es', failuresFrom n (es ++ es') = finished ++ failuresFrom m es' := by
  induction es generalizing n with
  | nil => exact ⟨[], n, rfl, fun es' => rfl⟩
  | cons e es ih =>
      rcases he : failedAttempt e with - | - | -
      · obtain ⟨finished, m, hes, happend⟩ := ih n
        refine ⟨finished, m, by rw [failuresFrom_cons_none he, hes], fun es' => ?_⟩
        rw [List.cons_append, failuresFrom_cons_none he, happend]
      · obtain ⟨finished, m, hes, happend⟩ := ih 0
        refine ⟨n :: finished, m, by rw [failuresFrom_cons_succeeded he, hes]; rfl, fun es' => ?_⟩
        rw [List.cons_append, failuresFrom_cons_succeeded he, happend]
        rfl
      · obtain ⟨finished, m, hes, happend⟩ := ih (n + 1)
        refine ⟨finished, m, by rw [failuresFrom_cons_failed he, hes], fun es' => ?_⟩
        rw [List.cons_append, failuresFrom_cons_failed he, happend]

theorem failuresFrom_of_none {n : ℕ} {es : Trace} (h : ∀ e ∈ es, failedAttempt e = none)
    (es' : Trace) : failuresFrom n (es ++ es') = failuresFrom n es' := by
  induction es with
  | nil => rfl
  | cons e es ih =>
      obtain ⟨he, hes⟩ := List.forall_mem_cons.mp h
      rw [List.cons_append, failuresFrom_cons_none he, ih hes]

theorem stall_append (budget : ℕ) (ns ms : List ℕ) :
    stall budget (ns ++ ms) = stall budget ns + stall budget ms := by
  simp [stall]

/-! ### The account of an execution -/

/-- An execution sleeps no longer than its failures say, and exactly so long if
the exit flag stays down; and if it succeeds its last RPC has. -/
def Accounted (budget : ℕ) (ok : Bool) (es : Trace) : Prop :=
  ∀ t, Exact t es → slept es ≤ stall budget (failuresFrom 0 es)
    ∧ ((∀ e ∈ es, ¬ Raised e) → slept es = stall budget (failuresFrom 0 es))
    ∧ (ok = true → (failuresFrom 0 es).getLast? = some 0)

variable {budget : ℕ}

theorem accounted_nil (ok : Bool) : Accounted budget ok [] := fun _ _ =>
  ⟨Nat.zero_le _, fun _ => rfl, fun _ => rfl⟩

theorem Accounted.append (es es' : Trace) (ok : Bool) (h : Accounted budget true es)
    (h' : Accounted budget ok es') : Accounted budget ok (es ++ es') := by
  intro t hclock
  obtain ⟨hclock, hclock'⟩ := exact_append.mp hclock
  obtain ⟨hle, heq, hlast⟩ := h t hclock
  obtain ⟨hle', heq', hlast'⟩ := h' _ hclock'
  obtain ⟨finished, m, hes, happend⟩ := failuresFrom_append 0 es
  -- the first part has finished its last RPC
  obtain rfl : m = 0 := by simpa [hes] using hlast rfl
  rw [hes, stall_append, show stall budget [0] = 0 from rfl, Nat.add_zero] at hle heq
  rw [happend, slept_append, stall_append]
  refine ⟨Nat.add_le_add hle hle', fun hclear => ?_, fun hok => ?_⟩
  · rw [heq fun e he => hclear e (List.mem_append_left _ he),
      heq' fun e he => hclear e (List.mem_append_right _ he)]
  · rw [List.getLast?_append, hlast' hok]
    rfl

/-- Neither a sleep nor an attempt of a retried RPC. -/
def Quiet (e : Event DaemonOp.Reply) : Prop := sleepOf e = 0 ∧ failedAttempt e = none

theorem accounted_of_quiet {es : Trace} (h : ∀ e ∈ es, Quiet e) (ok : Bool) :
    Accounted budget ok es := by
  intro t hclock
  have hslept : slept es = 0 := slept_eq_zero fun e he => (h e he).1
  have hfailures := failuresFrom_of_none (n := 0) (fun e he => (h e he).2) []
  rw [List.append_nil, failuresFrom_nil] at hfailures
  rw [hslept, hfailures]
  exact ⟨Nat.zero_le _, fun _ => rfl, fun _ => rfl⟩

/-! ### A retried call -/

theorem Waited.failedAttempt_eq {until_ : ℕ} {ws : Trace} {w : Rust Unit}
    (h : Waited until_ ws w) : ∀ e ∈ ws, failedAttempt e = none := by
  induction h with
  | passed hnow => simp [failedAttempt]
  | slice hlt hrest ih => simpa [failedAttempt] using ih
  | raised => simp [failedAttempt]

theorem backedOff_of_lt {n : ℕ} (h : backedOff budget n < budget) :
    backedOff budget (n + 1) = backedOff budget n + delayAt n := if_pos h

theorem backedOff_of_le {n : ℕ} (h : budget ≤ backedOff budget n) :
    backedOff budget (n + 1) = backedOff budget n := if_neg (Nat.not_lt.mpr h)

/-- The operation is one of the retried RPCs, and its outcome that of the RPC. -/
def IsRetried {α : Type} (op : DaemonOp) (outcome : op.Reply → Rust α) : Prop :=
  ∀ reply, failedAttempt ⟨op, reply⟩ = some !(outcome reply).isOk

/-- An attempt takes no time, and does not sleep. -/
theorem sleepOf_of_attempt {e : Event DaemonOp.Reply} {failed : Bool}
    (h : failedAttempt e = some failed) : sleepOf e = 0 ∧ ∀ t, clockAfter t e = t := by
  rcases e with ⟨op, reply⟩
  cases op <;> first | exact ⟨rfl, fun t => rfl⟩ | cases h

section Retry

variable {α : Type} {f : DaemonM α} {op : DaemonOp} {outcome : op.Reply → Rust α}

theorem IsRetried.failedAttempt_eq (hf : IsCall f op outcome) (hop : IsRetried op outcome)
    {attempt : Trace} {r : Rust α} (h : Exec f attempt r) :
    ∃ e, attempt = [e] ∧ failedAttempt e = some !r.isOk := by
  obtain ⟨reply, rfl, rfl⟩ := (hf _ _).mp h
  exact ⟨_, rfl, hop reply⟩

theorem failuresFrom_round {k : ℕ} {e : Event DaemonOp.Reply} (he : failedAttempt e = some true)
    {now began : ℕ} {ws : Trace} (hws : ∀ e ∈ ws, failedAttempt e = none) (rest : Trace) :
    failuresFrom k (e :: ⟨.now, now⟩ :: ⟨.now, began⟩ :: (ws ++ rest))
      = failuresFrom (k + 1) rest := by
  rw [failuresFrom_cons_failed he, failuresFrom_cons_none rfl, failuresFrom_cons_none rfl,
    failuresFrom_of_none hws]

theorem slept_round {e : Event DaemonOp.Reply} (he : sleepOf e = 0) (now began : ℕ)
    (es : Trace) : slept (e :: ⟨.now, now⟩ :: ⟨.now, began⟩ :: es) = slept es := by
  rw [slept_cons, slept_cons, slept_cons, he, Nat.zero_add]
  exact (Nat.zero_add _).trans (Nat.zero_add _)

/-- The attempt and the readings behind it are at one time. -/
theorem exact_round {t : ℕ} {e : Event DaemonOp.Reply} {failed : Bool}
    (he : failedAttempt e = some failed) {now began : ℕ} {ws rest : Trace}
    (h : Exact t (e :: ⟨.now, now⟩ :: ⟨.now, began⟩ :: (ws ++ rest))) :
    now = t ∧ began = t ∧ Exact t ws ∧ Exact (t + slept ws) rest := by
  obtain ⟨-, hnow, hbegan, hrest⟩ := h
  have hnow : now = t := hnow.trans ((sleepOf_of_attempt he).2 t)
  have hbegan : began = now := hbegan
  obtain rfl : began = t := hbegan.trans hnow
  obtain ⟨hws, hrest⟩ := exact_append.mp hrest
  exact ⟨hnow, rfl, hws, hws.foldl ▸ hrest⟩

/-- The rounds from the `k`-th on, which began as long after the start as the
failures before them say. -/
theorem Retried.accounted (hf : IsCall f op outcome) (hop : IsRetried op outcome) {what : String}
    {start t k : ℕ} {xs : List (Round α)} {r : Rust α}
    (h : Retried f what budget (start + budget) k xs r) (ht : t = start + backedOff budget k)
    (hclock : Exact t (xs.flatMap Round.events)) :
    backedOff budget k + slept (xs.flatMap Round.events)
        ≤ stall budget (failuresFrom k (xs.flatMap Round.events))
      ∧ ((∀ e ∈ xs.flatMap Round.events, ¬ Raised e) →
        backedOff budget k + slept (xs.flatMap Round.events)
          = stall budget (failuresFrom k (xs.flatMap Round.events)))
      ∧ (r.isOk = true → (failuresFrom k (xs.flatMap Round.events)).getLast? = some 0) := by
  induction h generalizing t with
  | succeeded hexec =>
      obtain ⟨e, rfl, he⟩ := hop.failedAttempt_eq hf hexec
      have hsleep := (sleepOf_of_attempt he).1
      simp [Round.events, failuresFrom_cons_succeeded he, stall, backedOff, hsleep]
  | @exhausted k attempt chain now hexec hdeadline =>
      obtain ⟨e, rfl, he⟩ := hop.failedAttempt_eq hf hexec
      obtain ⟨hsleep, hafter⟩ := sleepOf_of_attempt he
      obtain ⟨-, hnow, -⟩ := hclock
      have hnow : now = t := hnow.trans (hafter t)
      have hslept : slept [e, ⟨.now, now⟩] = 0 := by
        rw [slept_cons, hsleep]
        rfl
      have hfailures : failuresFrom k [e, ⟨.now, now⟩] = [k + 1] := by
        rw [failuresFrom_cons_failed he]
        rfl
      -- the budget is spent, and there is no further wait
      have hstall : backedOff budget (k + 1) = backedOff budget k := backedOff_of_le (by omega)
      have hevents : [Round.mk [e] (.error (.err chain) : Rust α) [⟨.now, now⟩]].flatMap
          Round.events = [e, ⟨.now, now⟩] := rfl
      rw [hevents, hslept, hfailures, stall, List.map_singleton, List.sum_singleton, hstall]
      exact ⟨le_rfl, fun _ => rfl, fun h => by cases h⟩
  | @stopped k attempt ws chain chain' now began hexec hlt hw =>
      obtain ⟨e, rfl, he⟩ := hop.failedAttempt_eq hf hexec
      have hevents : [Round.mk [e] (.error (.err chain) : Rust α)
          (⟨.now, now⟩ :: ⟨.now, began⟩ :: ws)].flatMap Round.events
            = e :: ⟨.now, now⟩ :: ⟨.now, began⟩ :: (ws ++ []) := rfl
      rw [hevents] at hclock ⊢
      obtain ⟨rfl, rfl, hws, -⟩ := exact_round he hclock
      have hstall := backedOff_of_lt (n := k) (show backedOff budget k < budget by omega)
      have hle : slept ws ≤ began + delayAt k - began :=
        (hw.slept_eq hws (Nat.le_add_right began _)).1
      rw [failuresFrom_round he hw.failedAttempt_eq, slept_round (sleepOf_of_attempt he).1,
        List.append_nil, failuresFrom_nil, stall, List.map_singleton, List.sum_singleton, hstall]
      refine ⟨by omega, fun hclear => ?_, fun h => by cases h⟩
      have hok := hw.not_raised fun e he => hclear e (by simp [he])
      cases hok
  | @again k attempt ws chain now began rounds r hexec hlt hw hrounds ih =>
      obtain ⟨e, rfl, he⟩ := hop.failedAttempt_eq hf hexec
      have hevents : ((⟨[e], .error (.err chain), ⟨.now, now⟩ :: ⟨.now, began⟩ :: ws⟩ : Round α)
          :: rounds).flatMap Round.events
            = e :: ⟨.now, now⟩ :: ⟨.now, began⟩ :: (ws ++ rounds.flatMap Round.events) := rfl
      rw [hevents] at hclock ⊢
      obtain ⟨rfl, rfl, hws, hrest⟩ := exact_round he hclock
      have hstall := backedOff_of_lt (n := k) (show backedOff budget k < budget by omega)
      have hslept : slept ws = began + delayAt k - began :=
        (hw.slept_eq hws (Nat.le_add_right began _)).2 rfl
      obtain ⟨hle, heq, hlast⟩ := ih (by omega) hrest
      rw [failuresFrom_round he hw.failedAttempt_eq, slept_round (sleepOf_of_attempt he).1,
        slept_append]
      refine ⟨by omega, fun hclear => ?_, hlast⟩
      have := heq fun e he => hclear e (by simp [he])
      omega

theorem every_accounted_retryRpc (hf : IsCall f op outcome) (hop : IsRetried op outcome)
    (hret : ∀ reply, Returns (outcome reply)) (what : String) :
    Every (Accounted budget) (retryRpc what budget f) := by
  intro es r h t hclock
  have hr := retryRpc_returns (hf.returns hret) h hclock.clock
  obtain ⟨start, es', rfl, hloop⟩ := exec_ask_bind.mp h
  rw [← delayAt_zero] at hloop
  obtain ⟨xs, rfl, hxs⟩ := retried_of_exec (hf.returns hret) hloop hr
  obtain ⟨hle, heq, hlast⟩ := hxs.accounted hf hop (Nat.add_zero start).symm hclock.2
  rw [backedOff, Nat.zero_add] at hle heq
  rw [failuresFrom_cons_none rfl, slept_cons, show sleepOf ⟨.now, start⟩ = 0 from rfl, Nat.zero_add]
  exact ⟨hle, fun hclear => heq (List.forall_mem_cons.mp hclear).2, hlast⟩

end Retry

theorem isRetried_pruneHeight : IsRetried .getBlockchainInfo pruneHeightOf := fun _ => rfl

theorem isRetried_blockHeights (blockhashes : List BlockHash) :
    IsRetried (.getBlockHeaders blockhashes) (heightsOf blockhashes) := fun _ => rfl

theorem isRetried_getBlockRawRpc (hash : BlockHash) :
    IsRetried (.getBlock .bitcoind hash) blockOf := fun _ => rfl

/-! ### A call of `for_blocks` -/

variable (H : Hashes)

/-- All events are quiet. -/
def AllQuiet (_ok : Bool) (es : Trace) : Prop := ∀ e ∈ es, Quiet e

theorem allQuiet_append (es es' : Trace) (ok : Bool) (h : AllQuiet true es)
    (h' : AllQuiet ok es') : AllQuiet ok (es ++ es') :=
  List.forall_mem_append.mpr ⟨h, h'⟩

theorem every_quiet_lift {α : Type} (r : Rust α) :
    Every AllQuiet (Prog.lift r : DaemonM α) :=
  every_lift (fun _ => List.forall_mem_nil _) r

theorem every_quiet_ask {op : DaemonOp} (h : ∀ reply, Quiet ⟨op, reply⟩) :
    Every AllQuiet (ask op) :=
  every_perform fun reply => List.forall_mem_singleton.mpr (h reply)

theorem every_withContext {Q : Bool → Trace → Prop} {α : Type} {x : DaemonM α}
    (h : Every Q x) (msg : String) : Every Q (withContext msg x) := by
  intro es r hexec
  obtain ⟨r', rfl, hx⟩ := exec_withContext.mp hexec
  have hok : (context msg r').isOk = r'.isOk := by
    rcases r' with e | a
    · cases e <;> rfl
    · rfl
  exact hok ▸ h es r' hx

theorem every_accounted_of_quiet {α : Type} {p : DaemonM α} (h : Every AllQuiet p) :
    Every (Accounted budget) p :=
  fun es r hexec => accounted_of_quiet (h es r hexec) _

theorem every_quiet_receiveBlocks (hashes : List BlockHash) :
    Every AllQuiet (Connection.receiveBlocks H hashes) := by
  induction hashes with
  | nil => exact every_quiet_lift _
  | cons hash rest ih =>
      rw [Connection.receiveBlocks]
      refine .bind allQuiet_append (every_withContext ?_ _) fun block => ?_
      · refine .bind allQuiet_append (every_quiet_ask fun _ => ⟨rfl, rfl⟩) fun _ => ?_
        exact every_quiet_lift _
      refine .bind allQuiet_append (every_quiet_lift _) fun header => ?_
      refine .bind allQuiet_append (every_quiet_lift _) fun _ => ?_
      exact .bind allQuiet_append (every_quiet_ask fun _ => ⟨rfl, rfl⟩) fun _ => ih

theorem every_quiet_forBlocks (hashes : List BlockHash) :
    Every AllQuiet (Connection.forBlocks H hashes) := by
  rw [Connection.forBlocks]
  split_ifs
  · exact every_quiet_lift _
  · refine .bind allQuiet_append (every_quiet_ask fun _ => ⟨rfl, rfl⟩) fun _ => ?_
    exact .bind allQuiet_append (every_quiet_lift _) fun _ => every_quiet_receiveBlocks H hashes

/-- The helper is asked once, without waiting. -/
theorem every_quiet_blockFromHelper (d : Daemon) (hash : BlockHash) (height : ℕ) :
    Every AllQuiet (d.blockFromHelper H hash height) := by
  intro es r h
  obtain ⟨found, rfl, hhelped⟩ := helped_of_exec H h
  have hasked {ceiling : ℕ} {reply : Outside (List Char)} :
      AllQuiet true [⟨.loadCeiling, ceiling⟩, ⟨.getBlock .helper hash, reply⟩] :=
    List.forall_mem_cons.mpr ⟨⟨rfl, rfl⟩, List.forall_mem_singleton.mpr ⟨rfl, rfl⟩⟩
  cases hhelped with
  | noHelper _ => exact List.forall_mem_nil _
  | above _ _ => exact List.forall_mem_singleton.mpr ⟨rfl, rfl⟩
  | given _ _ _ => exact hasked
  | notGiven _ _ _ _ => exact hasked
  | unknown _ _ _ =>
      exact allQuiet_append _ _ _ hasked (List.forall_mem_singleton.mpr ⟨rfl, rfl⟩)

/-- One pruned block: the helper, then the retried RPC. -/
theorem every_accounted_fetchPruned (d : Daemon) (hash : BlockHash) (height : ℕ) :
    Every (Accounted budget) (d.fetchPruned H budget hash height) := by
  have hfunc (block : Bytes) : Every (Accounted budget) (ask (.func hash block)) :=
    every_accounted_of_quiet (every_quiet_ask fun _ => ⟨rfl, rfl⟩)
  rw [Daemon.fetchPruned]
  refine .bind Accounted.append
    (every_accounted_of_quiet (every_quiet_blockFromHelper H d hash height)) fun found => ?_
  rcases found with - | block
  · refine .bind Accounted.append (every_withContext ?_ _) hfunc
    exact every_accounted_retryRpc (isCall_getBlockRawWith .bitcoind hash)
      (isRetried_getBlockRawRpc hash) returns_blockOf _
  · exact hfunc block

theorem every_accounted_fetchRun (d : Daemon) (heights : List ℕ) (start offset : ℕ)
    (run : List BlockHash) :
    Every (Accounted budget) (d.fetchRun H heights budget start offset run) := by
  induction run generalizing offset with
  | nil => exact every_lift accounted_nil _
  | cons hash rest ih =>
      rw [Daemon.fetchRun]
      refine .bind Accounted.append (every_lift accounted_nil _) fun height => ?_
      exact .bind Accounted.append (every_accounted_fetchPruned H d hash height) fun _ => ih _

theorem every_accounted_walkRuns (d : Daemon) (blockhashes : List BlockHash) (heights : List ℕ)
    (pruneHeight rounds start : ℕ) :
    Every (Accounted budget)
      (d.walkRuns H blockhashes heights pruneHeight budget rounds start) := by
  induction rounds generalizing start with
  | zero => exact every_lift accounted_nil _
  | succ rounds ih =>
      rw [Daemon.walkRuns]
      split_ifs
      · refine .bind Accounted.append (every_lift accounted_nil _) fun height => ?_
        refine .bind Accounted.append (every_lift accounted_nil _) fun end_ => ?_
        refine .bind Accounted.append (every_lift accounted_nil _) fun run => ?_
        refine .bind Accounted.append ?_ fun _ => ih end_
        split_ifs
        · exact every_accounted_of_quiet (every_quiet_forBlocks H run)
        · exact every_accounted_fetchRun H d heights start 0 run
      · exact every_lift accounted_nil _

/-- A call of either kind sleeps as its failures say. -/
theorem every_accounted_forBlocksWith (d : Daemon) (batch : List BlockHash) :
    Every (Accounted budget) (d.forBlocksWith H batch budget) := by
  rw [Daemon.forBlocksWith]
  split_ifs
  · exact every_accounted_of_quiet (every_quiet_forBlocks H batch)
  · exact every_lift accounted_nil _
  refine .bind Accounted.append (every_accounted_retryRpc isCall_pruneHeight
    isRetried_pruneHeight returns_pruneHeightOf _) fun pruneHeight => ?_
  refine .bind Accounted.append (every_accounted_retryRpc (isCall_blockHeights batch)
    (isRetried_blockHeights batch) (returns_heightsOf batch) _) fun heights => ?_
  exact every_accounted_walkRuns H d batch heights pruneHeight _ 0

/-! ### Serving a client -/

/-- A retried RPC gives up with its fifth failure, after fifteen seconds. -/
theorem backedOff_query (n : ℕ) :
    backedOff retryBudgetQuery n = (2 ^ min n 4 - 1) * second := by
  rcases Nat.lt_or_ge n 4 with hn | hn
  · interval_cases n <;> decide
  · rw [Nat.min_eq_right hn]
    induction n, hn using Nat.le_induction with
    | base => decide
    | succ n hn ih => rw [backedOff_of_le (by rw [ih]; decide), ih]

/-- The seconds that retried RPCs wait which fail as often as listed. -/
def stallSeconds (failures : List ℕ) : ℕ := (failures.map fun n => 2 ^ min n 4 - 1).sum

theorem stall_query (failures : List ℕ) :
    stall retryBudgetQuery failures = stallSeconds failures * second := by
  rw [stall, stallSeconds, List.map_congr_left fun n _ => backedOff_query n]
  induction failures with
  | nil => rfl
  | cons n failures ih => simp only [List.map_cons, List.sum_cons, ih, Nat.add_mul]

/-- **When a serving call waits no longer than one RPC may**: it waits for the
seconds that its failures sum up to over all its RPCs, each of which begins its
budget anew. -/
theorem stall_bounded_iff {d : Daemon} {batch : List BlockHash} {t : ℕ} {es : Trace}
    {r : Rust Unit} (h : Exec (d.forBlocks H batch) es r) (hclock : Exact t es) :
    slept es ≤ stallSeconds (failuresFrom 0 es) * second ∧
    ((∀ e ∈ es, ¬ Raised e) →
      slept es = stallSeconds (failuresFrom 0 es) * second
      ∧ (slept es ≤ retryBudgetQuery + rpcRetryMaxDelay ↔
        stallSeconds (failuresFrom 0 es) ≤ 40)) := by
  obtain ⟨hle, heq, -⟩ := every_accounted_forBlocksWith H d batch es r h t hclock
  rw [stall_query] at hle heq
  refine ⟨hle, fun hclear => ⟨heq hclear, ?_⟩⟩
  rw [heq hclear, show retryBudgetQuery + rpcRetryMaxDelay = 40 * second by decide]
  exact Nat.mul_le_mul_right_iff (by decide)

/-! ### Two blocks from a source that keeps recovering -/

/-- A source that fails four times before it gives the heights, and before it
gives a block, and a clock. -/
structure FlakySource where
  time : ℕ
  /-- Failures in a row. -/
  failures : ℕ
  /-- The blocks it has yet to give. -/
  blocks : List Bytes

namespace FlakySource

/-- Fail, or recover with an answer. -/
def attempt {α : Type} (s : FlakySource) (answer : Outside α) (blocks : List Bytes) :
    Outside α × FlakySource :=
  if s.failures < 4 then (.error ["timeout"], { s with failures := s.failures + 1 })
  else (answer, { s with failures := 0, blocks := blocks })

/-- What the source answers to an operation, and what is left of it. -/
def answer (s : FlakySource) : (op : DaemonOp) → op.Reply × FlakySource
  | .now => (s.time, s)
  | .sleep duration => ((), { s with time := s.time + duration })
  | .pollExit => (.ok (), s)
  | .getBlockchainInfo => (.ok ⟨some 2⟩, s)
  | .getBlockHeaders _ => s.attempt (.ok (List.Vector.ofFn fun i => some (.ok i.val))) s.blocks
  | .getBlock _ _ => s.attempt (.ok (toHex (s.blocks.headD []))) s.blocks.tail
  | .loadCeiling => (2, s)
  | .swapCeiling _ => (2, s)
  | .sendGetData _ => (.ok (), s)
  | .recvBlock => (.error ["timeout"], s)
  | .func _ _ => ((), s)

theorem attempt_time {α : Type} (s : FlakySource) (answer : Outside α) (blocks : List Bytes) :
    (s.attempt answer blocks).2.time = s.time := by
  rw [attempt]
  split_ifs <;> rfl

/-- Its clock is exact. -/
theorem exact_runFrom {α : Type} (p : DaemonM α) (s : FlakySource) :
    Exact s.time (p.runFrom answer s).1 ∧ ∀ e ∈ (p.runFrom answer s).1, ¬ Raised e := by
  induction p generalizing s with
  | done r => exact ⟨trivial, List.forall_mem_nil _⟩
  | step op next ih =>
      obtain ⟨hrest, hclear⟩ := ih (s.answer op).1 (s.answer op).2
      have hon : OnTime s.time ⟨op, (s.answer op).1⟩ := by
        cases op <;> trivial
      have htime : (s.answer op).2.time = s.time + sleepOf ⟨op, (s.answer op).1⟩ := by
        cases op <;> first | rfl | exact attempt_time s _ _
      rw [htime, ← hon.clockAfter_eq] at hrest
      refine ⟨⟨hon, hrest⟩, List.forall_mem_cons.mpr ⟨?_, hclear⟩⟩
      cases op <;> exact id

end FlakySource

/-- It gives the genesis block, and the block after it with its transactions
left out. -/
def flakySource : FlakySource :=
  ⟨0, 0, [(AnyHeader.v1 regtestGenesis).serialize ++ 1 :: genesisCoinbase,
    (AnyHeader.v1 regtestBlock1).serialize ++ [0]]⟩

/-- A call for the two blocks, both pruned. -/
@[irreducible] def flakyCall : Trace × Rust Unit :=
  (Daemon.forBlocks knownHashes ⟨true, false⟩ [genesisHash, block1Hash]).runFrom
    FlakySource.answer flakySource

theorem exec_flakyCall : Exec (Daemon.forBlocks knownHashes ⟨true, false⟩
    [genesisHash, block1Hash]) flakyCall.1 flakyCall.2 := by
  rw [flakyCall]
  exact exec_runFrom FlakySource.answer flakySource _

theorem exact_flakyCall : Exact 0 flakyCall.1 ∧ ∀ e ∈ flakyCall.1, ¬ Raised e := by
  rw [flakyCall]
  exact FlakySource.exact_runFrom _ flakySource

theorem failures_flakyCall : failuresFrom 0 flakyCall.1 = [0, 4, 4, 4, 0] := by
  decide +kernel

theorem ok_flakyCall : flakyCall.2.isOk := by
  decide +kernel

theorem stall_bounded_iff_flakyCall :
    ¬ slept flakyCall.1 ≤ retryBudgetQuery + rpcRetryMaxDelay := by
  have hstall := (stall_bounded_iff knownHashes exec_flakyCall exact_flakyCall.1).2
    exact_flakyCall.2
  rw [failures_flakyCall] at hstall
  exact mt hstall.2.mp (by decide)

/-- The call succeeds, after forty-five seconds. -/
theorem flakyCall_stalls :
    Exec (Daemon.forBlocks knownHashes ⟨true, false⟩ [genesisHash, block1Hash]) flakyCall.1 (.ok ())
      ∧ Exact 0 flakyCall.1 ∧ (∀ e ∈ flakyCall.1, ¬ Raised e)
      ∧ slept flakyCall.1 = 45 * second
      ∧ retryBudgetQuery + rpcRetryMaxDelay < slept flakyCall.1 := by
  have hslept : slept flakyCall.1 = 45 * second := by
    have haccount := (every_accounted_forBlocksWith knownHashes _ _ _ _ exec_flakyCall 0
      exact_flakyCall.1).2.1 exact_flakyCall.2
    rw [haccount, failures_flakyCall, stall_query]
    rfl
  have hok : flakyCall.2 = .ok () := by
    rcases e : flakyCall.2 with fault | u
    · have h := ok_flakyCall
      rw [e] at h
      cases h
    · rfl
  refine ⟨hok ▸ exec_flakyCall, exact_flakyCall.1, exact_flakyCall.2, hslept, ?_⟩
  rw [hslept]
  decide

end PrunedElectrs
