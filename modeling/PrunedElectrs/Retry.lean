/-
PrunedElectrs/Retry.lean

Executions of the retry loop.

The clock is a condition on the trace (`Clock`): readings never go back, and
sleeping for a duration takes at least that long.  Under it every call of
`retryRpc` returns.  A round that fails has moved the clock on by its delay, at
least a second, so the deadline is reached within the rounds counted; a wait
moves on by a slice each time round, or to its end.

What a retried call did is simple: waiting, attempts that failed, and if it
returns a value, one last attempt with that value.  The retried calls of this
program are single operations (`IsCall`), so the attempts are single events.
-/
import PrunedElectrs.Daemon

namespace PrunedElectrs

open Wire Effects

/-! ### The clock -/

/-- The event agrees with a clock that shows at least `t`. -/
def Tick (t : ℕ) : Event DaemonOp.Reply → Prop
  | ⟨.now, reading⟩ => t ≤ reading
  | _ => True

/-- What the clock shows at least, after the event. -/
def clockAfter (t : ℕ) : Event DaemonOp.Reply → ℕ
  | ⟨.now, reading⟩ => reading
  | ⟨.sleep duration, _⟩ => t + duration
  | _ => t

/-- The clock never goes back, and sleeping takes at least as long as asked. -/
def Clock (t : ℕ) : Trace → Prop
  | [] => True
  | e :: es => Tick t e ∧ Clock (clockAfter t e) es

theorem Tick.le_clockAfter {t : ℕ} {e : Event DaemonOp.Reply} (h : Tick t e) :
    t ≤ clockAfter t e := by
  rcases e with ⟨op, reply⟩
  cases op
  case now => exact h
  case sleep duration => exact Nat.le_add_right t duration
  all_goals exact Nat.le_refl t

theorem clock_append {t : ℕ} {es es' : Trace} :
    Clock t (es ++ es') ↔ Clock t es ∧ Clock (es.foldl clockAfter t) es' := by
  induction es generalizing t with
  | nil => exact ⟨fun h => ⟨trivial, h⟩, fun h => h.2⟩
  | cons e es ih => rw [List.cons_append, Clock, ih, Clock, and_assoc, List.foldl_cons]

theorem Clock.le_foldl {t : ℕ} {es : Trace} (h : Clock t es) : t ≤ es.foldl clockAfter t := by
  induction es generalizing t with
  | nil => exact Nat.le_refl t
  | cons e es ih => exact h.1.le_clockAfter.trans (ih h.2)

/-! ### Single operations -/

theorem exec_ask_bind {op : DaemonOp} {β : Type} {f : op.Reply → DaemonM β} {es : Trace}
    {r : Rust β} :
    Exec (ask op >>= f) es r ↔ ∃ reply es', es = ⟨op, reply⟩ :: es' ∧ Exec (f reply) es' r :=
  exec_perform_bind

theorem exec_ask {op : DaemonOp} {es : Trace} {r : Rust op.Reply} :
    Exec (ask op) es r ↔ ∃ reply, es = [⟨op, reply⟩] ∧ r = .ok reply := exec_perform

theorem exec_withContext {α : Type} {msg : String} {x : DaemonM α} {es : Trace} {r : Rust α} :
    Exec (withContext msg x) es r ↔ ∃ r', r = context msg r' ∧ Exec x es r' := by
  rw [withContext, exec_capture_bind]
  constructor
  · rintro ⟨es₁, es₂, r', rfl, hx, h⟩
    obtain ⟨rfl, rfl⟩ := exec_lift.mp h
    exact ⟨r', rfl, by rwa [List.append_nil]⟩
  · rintro ⟨r', rfl, hx⟩
    exact ⟨es, [], r', (List.append_nil es).symm, hx, exec_lift.mpr ⟨rfl, rfl⟩⟩

/-- The program performs `op` once, and `outcome` says what it makes of the reply. -/
def IsCall {α : Type} (f : DaemonM α) (op : DaemonOp) (outcome : op.Reply → Rust α) : Prop :=
  ∀ es r, Exec f es r ↔ ∃ reply, es = [⟨op, reply⟩] ∧ r = outcome reply

theorem isCall_lift {α : Type} (op : DaemonOp) (outcome : op.Reply → Rust α) :
    IsCall (do Prog.lift (outcome (← ask op))) op outcome := by
  intro es r
  rw [exec_ask_bind]
  constructor
  · rintro ⟨reply, es', rfl, h⟩
    obtain ⟨rfl, rfl⟩ := exec_lift.mp h
    exact ⟨reply, rfl, rfl⟩
  · rintro ⟨reply, rfl, rfl⟩
    exact ⟨reply, [], rfl, exec_lift.mpr ⟨rfl, rfl⟩⟩

theorem IsCall.withContext {α : Type} {f : DaemonM α} {op : DaemonOp}
    {outcome : op.Reply → Rust α} (h : IsCall f op outcome) (msg : String) :
    IsCall (withContext msg f) op fun reply => context msg (outcome reply) := by
  intro es r
  rw [exec_withContext]
  constructor
  · rintro ⟨r', rfl, hf⟩
    obtain ⟨reply, rfl, rfl⟩ := (h _ _).mp hf
    exact ⟨reply, rfl, rfl⟩
  · rintro ⟨reply, rfl, rfl⟩
    exact ⟨_, rfl, (h _ _).mpr ⟨reply, rfl, rfl⟩⟩

theorem IsCall.bind {α β : Type} {f : DaemonM α} {op : DaemonOp}
    {outcome : op.Reply → Rust α} (h : IsCall f op outcome) {next : α → DaemonM β}
    {result : α → Rust β} (hnext : ∀ a, next a = Prog.lift (result a)) :
    IsCall (f >>= next) op fun reply => outcome reply >>= result := by
  intro es r
  show _ ↔ ∃ reply, es = [⟨op, reply⟩] ∧ r = (outcome reply >>= result)
  rw [exec_bind]
  constructor
  · rintro (⟨e, rfl, hf⟩ | ⟨es₁, es₂, a, rfl, hf, ha⟩)
    · obtain ⟨reply, rfl, he⟩ := (h _ _).mp hf
      exact ⟨reply, rfl, by rw [← he]; rfl⟩
    · obtain ⟨reply, rfl, he⟩ := (h _ _).mp hf
      rw [hnext] at ha
      obtain ⟨rfl, rfl⟩ := exec_lift.mp ha
      exact ⟨reply, rfl, by rw [← he]; rfl⟩
  · rintro ⟨reply, rfl, hr⟩
    rcases ho : outcome reply with e | a
    · rw [ho] at hr
      exact .inl ⟨e, hr, (h _ _).mpr ⟨reply, rfl, ho.symm⟩⟩
    · rw [ho] at hr
      refine .inr ⟨[⟨op, reply⟩], [], a, rfl, (h _ _).mpr ⟨reply, rfl, ho.symm⟩, ?_⟩
      rw [hnext]
      exact exec_lift.mpr ⟨rfl, hr⟩

/-! ### The RPCs as single operations -/

theorem returns_ofOutside {α : Type} (r : Outside α) : Returns (ofOutside r) := by
  cases r with
  | ok a => exact returns_ok a
  | error chain => exact .inr ⟨chain, rfl⟩

/-- What `pruneHeight` makes of the reply. -/
def pruneHeightOf (reply : Outside BlockchainInfo) : Rust ℕ := do
  let info ← context "failed to get prune height" (ofOutside reply)
  return info.pruneHeight.getD 0

theorem isCall_pruneHeight : IsCall pruneHeight .getBlockchainInfo pruneHeightOf :=
  ((isCall_lift .getBlockchainInfo ofOutside).withContext _).bind fun _ => rfl

theorem returns_pruneHeightOf (reply : Outside BlockchainInfo) : Returns (pruneHeightOf reply) :=
  returns_bind (returns_context (returns_ofOutside reply)) fun _ _ => returns_ok _

/-- What `blockHeights` makes of the reply. -/
def heightsOf (blockhashes : List BlockHash)
    (reply : Outside (List.Vector (Option (Outside ℕ)) blockhashes.length)) : Rust (List ℕ) := do
  let results ← ofOutside reply
  (results.toList.zip blockhashes).mapM fun p => heightOfAnswer p.1 p.2

theorem isCall_blockHeights (blockhashes : List BlockHash) :
    IsCall (blockHeights blockhashes) (.getBlockHeaders blockhashes) (heightsOf blockhashes) :=
  (isCall_lift (.getBlockHeaders blockhashes) ofOutside).bind fun _ => rfl

theorem returns_heightOfAnswer (answer : Option (Outside ℕ)) (hash : BlockHash) :
    Returns (heightOfAnswer answer hash) := by
  cases answer with
  | none => exact returns_bail _
  | some r => exact returns_context (returns_ofOutside r)

theorem returns_heightsOf (blockhashes : List BlockHash)
    (reply : Outside (List.Vector (Option (Outside ℕ)) blockhashes.length)) :
    Returns (heightsOf blockhashes reply) :=
  returns_bind (returns_ofOutside reply) fun _ _ =>
    returns_mapM fun _ _ => returns_heightOfAnswer _ _

/-- What `getBlockRawWith` makes of the reply. -/
def blockOf (reply : Outside (List Char)) : Rust Bytes := do
  let hex ← context "getblock failed" (ofOutside reply)
  match ofHex hex with
  | some block => .ok block
  | none => .error (.err ["bitcoind returned a non-hex block"])

theorem isCall_getBlockRawWith (client : RpcClient) (hash : BlockHash) :
    IsCall (getBlockRawWith client hash) (.getBlock client hash) blockOf :=
  ((isCall_lift (.getBlock client hash) ofOutside).withContext _).bind fun hex => by
    cases ofHex hex <;> rfl

theorem returns_blockOf (reply : Outside (List Char)) : Returns (blockOf reply) := by
  refine returns_bind (returns_context (returns_ofOutside reply)) fun hex _ => ?_
  cases ofHex hex with
  | some block => exact returns_ok block
  | none => exact .inr ⟨_, rfl⟩

/-! ### Waiting -/

/-- Reading the clock, sleeping, and looking at the exit flag. -/
def Waiting (e : Event DaemonOp.Reply) : Prop :=
  match e.op with
  | .now => True
  | .sleep _ => True
  | .pollExit => True
  | _ => False

/-- A round of the wait: the exit flag is raised, or the time has come, or it
sleeps for a slice and goes on. -/
theorem waitUntil_cases {until_ rounds : ℕ} {es : Trace} {r : Rust Unit}
    (h : Exec (waitUntil until_ (rounds + 1)) es r) :
    (∃ chain, es = [⟨.pollExit, .error chain⟩]
        ∧ r = .error (.err ("interrupted while retrying bitcoind RPC" :: chain)))
      ∨ (∃ now : ℕ, until_ ≤ now ∧ es = [⟨.pollExit, .ok ()⟩, ⟨.now, now⟩] ∧ r = .ok ())
      ∨ ∃ (now : ℕ) (es' : Trace), now < until_
        ∧ es = ⟨.pollExit, .ok ()⟩ :: ⟨.now, now⟩
            :: ⟨.sleep (min sleepSlice (until_ - now)), ()⟩ :: es'
        ∧ Exec (waitUntil until_ rounds) es' r := by
  rw [waitUntil] at h
  have hpoll := (isCall_lift .pollExit ofOutside).withContext
    "interrupted while retrying bitcoind RPC"
  rcases exec_bind.mp h with ⟨e, rfl, hp⟩ | ⟨es₁, es₂, u, rfl, hp, hafter⟩
  · obtain ⟨reply, rfl, he⟩ := (hpoll _ _).mp hp
    rcases reply with chain | u
    · exact .inl ⟨chain, rfl, he⟩
    · cases he
  · obtain ⟨reply, rfl, he⟩ := (hpoll _ _).mp hp
    rcases reply with chain | u
    · cases he
    -- the flag is down: look at the clock
    · obtain ⟨now, es₃, rfl, hread⟩ := exec_ask_bind.mp hafter
      split_ifs at hread with hnow
      · obtain ⟨rfl, rfl⟩ := exec_pure.mp hread
        exact .inr (.inl ⟨now, hnow, rfl, rfl⟩)
      · obtain ⟨_, es', rfl, hrest⟩ := exec_ask_bind.mp hread
        exact .inr (.inr ⟨now, es', Nat.lt_of_not_le hnow, rfl, hrest⟩)

theorem waiting_waitUntil {until_ rounds : ℕ} {es : Trace} {r : Rust Unit}
    (h : Exec (waitUntil until_ rounds) es r) : ∀ e ∈ es, Waiting e := by
  induction rounds generalizing es with
  | zero =>
      obtain ⟨rfl, -⟩ := exec_throw.mp h
      exact fun e he => absurd he List.not_mem_nil
  | succ rounds ih =>
      rcases waitUntil_cases h with ⟨chain, rfl, -⟩ | ⟨now, -, rfl, -⟩ | ⟨now, es', -, rfl, hrest⟩
      · simp [Waiting]
      · simp [Waiting]
      · simpa [Waiting] using ih hrest

/-- A wait returns, and not before its time. -/
theorem waitUntil_returns {until_ n t : ℕ} {es : Trace} {r : Rust Unit}
    (h : Exec (waitUntil until_ (n + 1)) es r) (hclock : Clock t es)
    (hn : until_ ≤ t + sleepSlice * n) :
    Returns r ∧ (r = .ok () → until_ ≤ es.foldl clockAfter t) := by
  induction n generalizing t es with
  | zero =>
      rcases waitUntil_cases h with ⟨chain, rfl, rfl⟩ | ⟨now, hnow, rfl, rfl⟩ |
        ⟨now, es', hlt, rfl, -⟩
      · exact ⟨.inr ⟨_, rfl⟩, fun h => by cases h⟩
      · exact ⟨returns_ok (), fun _ => hnow⟩
      · have hread : t ≤ now := hclock.2.1
        omega
  | succ n ih =>
      rcases waitUntil_cases h with ⟨chain, rfl, rfl⟩ | ⟨now, hnow, rfl, rfl⟩ |
        ⟨now, es', hlt, rfl, hrest⟩
      · exact ⟨.inr ⟨_, rfl⟩, fun h => by cases h⟩
      · exact ⟨returns_ok (), fun _ => hnow⟩
      · have hread : t ≤ now := hclock.2.1
        rw [Nat.mul_succ] at hn
        -- the rest starts after the sleep
        have hslept : until_ ≤ now + min sleepSlice (until_ - now) + sleepSlice * n := by omega
        exact (ih hrest hclock.2.2.2 hslept :)

/-! ### Retrying -/

section Loop

variable {α : Type} {f : DaemonM α}

/-- A round of the retry loop: an attempt that succeeds, a failure past the
deadline, or a failure and a wait, after which it goes on unless interrupted. -/
theorem retryLoop_cases (hret : ∀ es r, Exec f es r → Returns r)
    {what : String} {budget deadline rounds delay : ℕ} {es : Trace} {r : Rust α}
    (h : Exec (retryLoop what budget deadline f (rounds + 1) delay) es r) :
    ∃ attempt r' es', es = attempt ++ es' ∧ Exec f attempt r' ∧
      ((∃ v, r' = .ok v ∧ es' = [] ∧ r = .ok v)
      ∨ ∃ chain, r' = .error (.err chain) ∧ ∃ (now : ℕ) (es'' : Trace),
        es' = ⟨.now, now⟩ :: es'' ∧
        ((deadline ≤ now ∧ es'' = [] ∧ r = .error (.err
            (s!"{what} still failing after {budget / second}s of retries" :: chain)))
        ∨ now < deadline ∧ ∃ (now' : ℕ) (ws : Trace) (w : Rust Unit) (rest : Trace),
          es'' = ⟨.now, now'⟩ :: (ws ++ rest)
          ∧ Exec (waitUntil (now' + delay) (delay / sleepSlice + 2)) ws w
          ∧ ((∃ e, w = .error e ∧ rest = [] ∧ r = .error e)
            ∨ w = .ok () ∧ Exec (retryLoop what budget deadline f rounds
                (min (delay * 2) rpcRetryMaxDelay)) rest r))) := by
  rw [retryLoop, exec_capture_bind] at h
  obtain ⟨attempt, es', r', rfl, hattempt, hafter⟩ := h
  refine ⟨attempt, r', es', rfl, hattempt, ?_⟩
  rcases hret _ _ hattempt with ⟨v, rfl⟩ | ⟨chain, rfl⟩
  · obtain ⟨rfl, rfl⟩ := exec_pure.mp hafter
    exact .inl ⟨v, rfl, rfl, rfl⟩
  · obtain ⟨now, es₃, rfl, hread⟩ := exec_ask_bind.mp hafter
    refine .inr ⟨chain, rfl, now, es₃, rfl, ?_⟩
    -- the deadline is looked at between the attempt and the wait
    split_ifs at hread with hdeadline
    · obtain ⟨rfl, rfl⟩ := exec_throw.mp hread
      exact .inl ⟨hdeadline, rfl, rfl⟩
    · obtain ⟨now', es₄, rfl, hwait⟩ := exec_ask_bind.mp hread
      refine .inr ⟨Nat.lt_of_not_le hdeadline, now', ?_⟩
      rcases exec_bind.mp hwait with ⟨e, rfl, hw⟩ | ⟨ws, rest, u, rfl, hw, hrest⟩
      · exact ⟨es₄, .error e, [], by rw [List.append_nil], hw, .inl ⟨e, rfl, rfl, rfl⟩⟩
      · exact ⟨ws, .ok u, rest, rfl, hw, .inr ⟨rfl, hrest⟩⟩

/-- The wait of a round has enough rounds for its delay. -/
theorem wait_returns {now delay : ℕ} {ws : Trace} {w : Rust Unit}
    (h : Exec (waitUntil (now + delay) (delay / sleepSlice + 2)) ws w) (hclock : Clock now ws) :
    Returns w ∧ (w = .ok () → now + delay ≤ ws.foldl clockAfter now) := by
  have hdiv : delay < sleepSlice * (delay / sleepSlice + 1) :=
    Nat.lt_mul_div_succ delay (by decide)
  exact waitUntil_returns h hclock (by omega)

/-- A round that does not return has begun before the deadline, and goes on with
a clock that has moved by its delay. -/
theorem retryLoop_round (hret : ∀ es r, Exec f es r → Returns r)
    {what : String} {budget deadline rounds delay t : ℕ} {es : Trace} {r : Rust α}
    (h : Exec (retryLoop what budget deadline f (rounds + 1) delay) es r) (hclock : Clock t es) :
    Returns r ∨ t < deadline ∧ ∃ t' rest, t + delay ≤ t' ∧ Clock t' rest
      ∧ Exec (retryLoop what budget deadline f rounds (min (delay * 2) rpcRetryMaxDelay))
          rest r := by
  obtain ⟨attempt, r', es', rfl, -, ⟨v, -, -, rfl⟩ | ⟨chain, -, now, es'', rfl, hround⟩⟩ :=
    retryLoop_cases hret h
  · exact .inl (returns_ok v)
  obtain ⟨hclockAttempt, hclockRest⟩ := clock_append.mp hclock
  have hread : t ≤ now := hclockAttempt.le_foldl.trans hclockRest.1
  rcases hround with ⟨-, -, rfl⟩ | ⟨hlt, now', ws, w, rest, rfl, hw, hrest⟩
  · exact .inl (.inr ⟨_, rfl⟩)
  have hread' : t ≤ now' := hread.trans hclockRest.2.1
  obtain ⟨hclockWait, hclockNext⟩ := clock_append.mp hclockRest.2.2
  obtain ⟨hwret, hwait⟩ := wait_returns hw hclockWait
  rcases hrest with ⟨e, rfl, -, rfl⟩ | ⟨rfl, hrest⟩
  · exact .inl (returns_error_iff.mpr (returns_error_iff.mp hwret))
  · have hwaited : now' + delay ≤ ws.foldl clockAfter now' := hwait rfl
    exact .inr ⟨Nat.lt_of_le_of_lt hread hlt, _, rest,
      (Nat.add_le_add_right hread' delay).trans hwaited, hclockNext, hrest⟩

/-- Under the clock the loop returns within its rounds. -/
theorem retryLoop_returns (hret : ∀ es r, Exec f es r → Returns r)
    {what : String} {budget deadline n delay t : ℕ} {es : Trace} {r : Rust α}
    (h : Exec (retryLoop what budget deadline f (n + 1) delay) es r) (hclock : Clock t es)
    (hdelay : second ≤ delay) (hn : deadline ≤ t + second * n) : Returns r := by
  induction n generalizing t es delay with
  | zero =>
      -- the last round begins past the deadline
      rcases retryLoop_round hret h hclock with hr | ⟨hlt, -⟩
      · exact hr
      · exact absurd hlt (Nat.not_lt_of_le hn)
  | succ n ih =>
      rcases retryLoop_round hret h hclock with hr | ⟨-, t', rest, hmoved, hclockRest, hrest⟩
      · exact hr
      · -- the clock has moved by at least a second
        rw [Nat.mul_succ] at hn
        exact ih hrest hclockRest (le_min (by omega) (by decide)) (by omega)

/-- **A retried call returns**, whatever fails and however long. -/
theorem retryRpc_returns (hret : ∀ es r, Exec f es r → Returns r)
    {what : String} {budget t : ℕ} {es : Trace} {r : Rust α}
    (h : Exec (retryRpc what budget f) es r) (hclock : Clock t es) : Returns r := by
  obtain ⟨now, es', rfl, hloop⟩ := exec_ask_bind.mp h
  have hdiv : budget < second * (budget / second + 1) := Nat.lt_mul_div_succ budget (by decide)
  exact retryLoop_returns hret hloop hclock.2 le_rfl (Nat.add_le_add_left hdiv.le _)

end Loop

/-! ### Retrying a single operation -/

/-- An attempt that failed. -/
def Failed {α : Type} (op : DaemonOp) (outcome : op.Reply → Rust α) (e : Event DaemonOp.Reply) :
    Prop :=
  ∃ reply chain, e = ⟨op, reply⟩ ∧ outcome reply = .error (.err chain)

variable {α : Type} {f : DaemonM α} {op : DaemonOp} {outcome : op.Reply → Rust α}

theorem IsCall.returns (hf : IsCall f op outcome) (hret : ∀ reply, Returns (outcome reply))
    (es : Trace) (r : Rust α) (h : Exec f es r) : Returns r := by
  obtain ⟨reply, -, rfl⟩ := (hf _ _).mp h
  exact hret reply

/-- A retried call is waiting and failed attempts, and where it succeeds one last
attempt that gave the value. -/
theorem retryLoop_attempts (hf : IsCall f op outcome) (hret : ∀ reply, Returns (outcome reply))
    {what : String} {budget deadline rounds delay : ℕ} {es : Trace} {r : Rust α}
    (h : Exec (retryLoop what budget deadline f rounds delay) es r) :
    ∃ es', (∀ e ∈ es', Waiting e ∨ Failed op outcome e) ∧
      ((∃ reply v, es = es' ++ [⟨op, reply⟩] ∧ outcome reply = .ok v ∧ r = .ok v)
      ∨ ∃ fault, es = es' ∧ r = .error fault) := by
  induction rounds generalizing es delay with
  | zero =>
      obtain ⟨rfl, rfl⟩ := exec_throw.mp h
      exact ⟨[], List.forall_mem_nil _, .inr ⟨_, rfl, rfl⟩⟩
  | succ rounds ih =>
      obtain ⟨_, _, es', rfl, hattempt, hround⟩ := retryLoop_cases (hf.returns hret) h
      obtain ⟨reply, rfl, rfl⟩ := (hf _ _).mp hattempt
      rcases hround with ⟨v, hv, rfl, rfl⟩ | ⟨chain, hchain, now, es'', rfl, hround⟩
      · exact ⟨[], List.forall_mem_nil _, .inl ⟨reply, v, rfl, hv, rfl⟩⟩
      have hfailed : Failed op outcome ⟨op, reply⟩ := ⟨reply, chain, rfl, hchain⟩
      -- a failed attempt, a look at the clock, and what follows
      have hall {rest : Trace} (hrest : ∀ e ∈ rest, Waiting e ∨ Failed op outcome e) :
          ∀ e ∈ ([⟨op, reply⟩] ++ ⟨.now, now⟩ :: rest : Trace),
            Waiting e ∨ Failed op outcome e :=
        List.forall_mem_cons.mpr ⟨.inr hfailed, List.forall_mem_cons.mpr ⟨.inl trivial, hrest⟩⟩
      rcases hround with ⟨-, rfl, rfl⟩ | ⟨-, now', ws, w, rest, rfl, hw, hrest⟩
      · exact ⟨_, hall (List.forall_mem_nil _), .inr ⟨_, rfl, rfl⟩⟩
      have hwaited {rest : Trace} (hrest : ∀ e ∈ rest, Waiting e ∨ Failed op outcome e) :
          ∀ e ∈ (⟨.now, now'⟩ :: (ws ++ rest) : Trace), Waiting e ∨ Failed op outcome e :=
        List.forall_mem_cons.mpr ⟨.inl trivial, List.forall_mem_append.mpr
          ⟨fun e he => .inl (waiting_waitUntil hw e he), hrest⟩⟩
      rcases hrest with ⟨e, -, rfl, rfl⟩ | ⟨-, hrest⟩
      · exact ⟨_, hall (hwaited (List.forall_mem_nil _)), .inr ⟨_, rfl, rfl⟩⟩
      · obtain ⟨es₁, hall₁, ⟨reply', v, rfl, hv, rfl⟩ | ⟨fault, rfl, rfl⟩⟩ := ih hrest
        · exact ⟨_, hall (hwaited hall₁), .inl ⟨reply', v, by simp, hv, rfl⟩⟩
        · exact ⟨_, hall (hwaited hall₁), .inr ⟨_, rfl, rfl⟩⟩

/-! ### `retry_rpc` -/

theorem retryRpc_ok (hf : IsCall f op outcome) (hret : ∀ reply, Returns (outcome reply))
    {what : String} {budget : ℕ} {es : Trace} {v : α}
    (h : Exec (retryRpc what budget f) es (.ok v)) :
    ∃ es' reply, es = es' ++ [⟨op, reply⟩] ∧ outcome reply = .ok v
      ∧ ∀ e ∈ es', Waiting e ∨ Failed op outcome e := by
  obtain ⟨now, es', rfl, hloop⟩ := exec_ask_bind.mp h
  obtain ⟨es₁, hall, ⟨reply, v', rfl, hv, hr⟩ | ⟨fault, -, hr⟩⟩ :=
    retryLoop_attempts hf hret hloop
  · obtain rfl := Except.ok.inj hr
    exact ⟨⟨.now, now⟩ :: es₁, reply, rfl, hv, List.forall_mem_cons.mpr ⟨.inl trivial, hall⟩⟩
  · cases hr

/-- A retried call that fails has seen its first attempt fail. -/
theorem retryRpc_error (hf : IsCall f op outcome) (hret : ∀ reply, Returns (outcome reply))
    {what : String} {budget : ℕ} {es : Trace} {fault : Fault}
    (h : Exec (retryRpc what budget f) es (.error fault)) :
    (∀ e ∈ es, Waiting e ∨ Failed op outcome e) ∧ ∃ e ∈ es, Failed op outcome e := by
  obtain ⟨now, es', rfl, hloop⟩ := exec_ask_bind.mp h
  obtain ⟨es₁, hall, ⟨reply, v', -, -, hr⟩ | ⟨fault, rfl, -⟩⟩ := retryLoop_attempts hf hret hloop
  · cases hr
  refine ⟨List.forall_mem_cons.mpr ⟨.inl trivial, hall⟩, ?_⟩
  obtain ⟨_, _, es'', rfl, hattempt, hround⟩ := retryLoop_cases (hf.returns hret) hloop
  obtain ⟨reply, rfl, rfl⟩ := (hf _ _).mp hattempt
  rcases hround with ⟨v, -, -, hr⟩ | ⟨chain, hchain, -⟩
  · cases hr
  · exact ⟨⟨op, reply⟩, by simp, reply, chain, rfl, hchain⟩

/-- A retried call that succeeds at once. -/
theorem exec_retryRpc_first (hf : IsCall f op outcome) {reply : op.Reply} {v : α}
    (hv : outcome reply = .ok v) (what : String) (budget now : ℕ) :
    Exec (retryRpc what budget f) [⟨.now, now⟩, ⟨op, reply⟩] (.ok v) := by
  have hattempt : Exec f [⟨op, reply⟩] (.ok v) := (hf _ _).mpr ⟨reply, rfl, hv.symm⟩
  refine exec_ask_bind.mpr ⟨now, _, rfl, ?_⟩
  rw [retryLoop]
  exact exec_capture_bind.mpr ⟨_, [], .ok v, rfl, hattempt, exec_pure.mpr ⟨rfl, rfl⟩⟩

end PrunedElectrs
