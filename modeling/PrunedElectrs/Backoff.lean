/-
PrunedElectrs/Backoff.lean

What `retry_rpc` does, round by round.

A call is the reading of the clock that fixes the deadline and then rounds: an
attempt, and what the loop does behind it (`Round`).  `Retried` describes the
rounds of a call, `Waited` the sliced wait of a round, and every execution is
described so (`retried_of_exec`).  What is said of a call in `BacksOff` is read
off the description: the first success is the value, an error comes from an
attempt behind which the clock was past the deadline, the `k`-th wait is
`delayAt k`, and a raised exit flag ends the call.

The attempts are an arbitrary program that returns.
-/
import PrunedElectrs.Retry

namespace PrunedElectrs

open Wire Effects

/-! ### An exact clock -/

/-- The reading is the time. -/
def OnTime (t : ℕ) : Event DaemonOp.Reply → Prop
  | ⟨.now, reading⟩ => reading = t
  | _ => True

/-- Time passes in sleeps only, and they are exact. -/
def Exact (t : ℕ) : Trace → Prop
  | [] => True
  | e :: es => OnTime t e ∧ Exact (clockAfter t e) es

/-- How long an event sleeps. -/
def sleepOf : Event DaemonOp.Reply → ℕ
  | ⟨.sleep duration, _⟩ => duration
  | _ => 0

/-- How long the events sleep. -/
def slept (es : Trace) : ℕ := (es.map sleepOf).sum

@[simp] theorem slept_nil : slept [] = 0 := rfl

@[simp] theorem slept_cons (e : Event DaemonOp.Reply) (es : Trace) :
    slept (e :: es) = sleepOf e + slept es := by
  simp [slept]

@[simp] theorem slept_append (es es' : Trace) : slept (es ++ es') = slept es + slept es' := by
  simp [slept]

theorem slept_eq_zero {es : Trace} (h : ∀ e ∈ es, sleepOf e = 0) : slept es = 0 := by
  induction es with
  | nil => rfl
  | cons e es ih =>
      obtain ⟨he, hes⟩ := List.forall_mem_cons.mp h
      rw [slept_cons, he, ih hes]

theorem OnTime.clockAfter_eq {t : ℕ} {e : Event DaemonOp.Reply} (h : OnTime t e) :
    clockAfter t e = t + sleepOf e := by
  rcases e with ⟨op, reply⟩
  cases op
  case now => exact h
  all_goals rfl

theorem Exact.foldl {t : ℕ} {es : Trace} (h : Exact t es) :
    es.foldl clockAfter t = t + slept es := by
  induction es generalizing t with
  | nil => rfl
  | cons e es ih =>
      rw [List.foldl_cons, ih h.2, h.1.clockAfter_eq, slept_cons, Nat.add_assoc]

theorem exact_append {t : ℕ} {es es' : Trace} :
    Exact t (es ++ es') ↔ Exact t es ∧ Exact (es.foldl clockAfter t) es' := by
  induction es generalizing t with
  | nil => exact ⟨fun h => ⟨trivial, h⟩, fun h => h.2⟩
  | cons e es ih => rw [List.cons_append, Exact, ih, Exact, and_assoc, List.foldl_cons]

/-- An exact clock never goes back. -/
theorem Exact.clock {t : ℕ} {es : Trace} (h : Exact t es) : Clock t es := by
  induction es generalizing t with
  | nil => trivial
  | cons e es ih =>
      refine ⟨?_, ih h.2⟩
      rcases e with ⟨op, reply⟩
      cases op
      case now => exact Nat.le_of_eq h.1.symm
      all_goals trivial

/-! ### Delays -/

/-- The `k`-th wait: a second, doubled each time, and at most thirty. -/
def delayAt (k : ℕ) : ℕ := min (2 ^ k * second) rpcRetryMaxDelay

theorem delayAt_zero : delayAt 0 = second := by decide

theorem delayAt_succ (k : ℕ) : min (delayAt k * 2) rpcRetryMaxDelay = delayAt (k + 1) := by
  rw [delayAt, delayAt, pow_succ, Nat.mul_right_comm]
  omega

theorem delayAt_le (k : ℕ) : delayAt k ≤ rpcRetryMaxDelay := Nat.min_le_right _ _

/-! ### Waits -/

/-- A look at the exit flag that finds it raised. -/
def Raised : Event DaemonOp.Reply → Prop
  | ⟨.pollExit, .error _⟩ => True
  | _ => False

/-- The outcome of a wait in which the flag was found raised. -/
def interrupted {α : Type} (chain : List String) : Rust α :=
  .error (.err ("interrupted while retrying bitcoind RPC" :: chain))

/-- A wait in slices, as it went. -/
inductive Waited (until_ : ℕ) : Trace → Rust Unit → Prop
  | passed {now : ℕ} : until_ ≤ now → Waited until_ [⟨.pollExit, .ok ()⟩, ⟨.now, now⟩] (.ok ())
  | slice {now : ℕ} {es : Trace} {w : Rust Unit} : now < until_ → Waited until_ es w →
      Waited until_ (⟨.pollExit, .ok ()⟩ :: ⟨.now, now⟩
        :: ⟨.sleep (min sleepSlice (until_ - now)), ()⟩ :: es) w
  | raised {chain : List String} :
      Waited until_ [⟨.pollExit, .error chain⟩] (interrupted chain)

theorem waited_of_exec {until_ rounds : ℕ} {es : Trace} {w : Rust Unit}
    (h : Exec (waitUntil until_ rounds) es w) (hret : Returns w) : Waited until_ es w := by
  induction rounds generalizing es with
  | zero =>
      obtain ⟨-, rfl⟩ := exec_throw.mp h
      obtain ⟨chain, hchain⟩ := returns_error_iff.mp hret
      cases hchain
  | succ rounds ih =>
      rcases waitUntil_cases h with ⟨chain, rfl, rfl⟩ | ⟨now, hnow, rfl, rfl⟩ |
        ⟨now, es', hlt, rfl, hrest⟩
      · exact .raised
      · exact .passed hnow
      · exact .slice hlt (ih hrest)

namespace Waited

variable {until_ : ℕ} {ws : Trace} {w : Rust Unit}

/-- With exact sleeps a wait that is not interrupted sleeps until its time, and
one that is no longer. -/
theorem slept_eq (h : Waited until_ ws w) {t : ℕ} (hclock : Exact t ws) (ht : t ≤ until_) :
    slept ws ≤ until_ - t ∧ (w = .ok () → slept ws = until_ - t) := by
  induction h generalizing t with
  | @passed now hnow =>
      obtain rfl : now = t := hclock.2.1
      simp [sleepOf]
      omega
  | @slice now es w hlt hrest ih =>
      obtain rfl : now = t := hclock.2.1
      have hslept : now + min sleepSlice (until_ - now) ≤ until_ := by omega
      obtain ⟨hle, heq⟩ := ih hclock.2.2.2 hslept
      have hstep : slept (⟨.pollExit, .ok ()⟩ :: ⟨.now, now⟩
          :: ⟨.sleep (min sleepSlice (until_ - now)), ()⟩ :: es)
            = min sleepSlice (until_ - now) + slept es := by
        simp [sleepOf]
      have hafter : clockAfter (clockAfter (clockAfter now ⟨.pollExit, .ok ()⟩) ⟨.now, now⟩)
          ⟨.sleep (min sleepSlice (until_ - now)), ()⟩ = now + min sleepSlice (until_ - now) := rfl
      rw [hafter] at hle heq
      rw [hstep]
      exact ⟨by omega, fun hw => by rw [heq hw]; omega⟩
  | raised => simp [sleepOf, interrupted]

/-- A wait is over when the clock is. -/
theorem le_foldl (h : Waited until_ ws w) (hw : w = .ok ()) (t : ℕ) :
    until_ ≤ ws.foldl clockAfter t := by
  induction h generalizing t with
  | passed hnow => exact hnow
  | slice hlt hrest ih => exact ih hw _
  | raised => cases hw

/-- A wait is interrupted when the flag is found raised. -/
theorem not_raised (h : Waited until_ ws w) (hclear : ∀ e ∈ ws, ¬ Raised e) : w = .ok () := by
  induction h with
  | passed => rfl
  | slice hlt hrest ih =>
      simp only [List.forall_mem_cons] at hclear
      exact ih hclear.2.2.2
  | raised => exact absurd trivial (hclear _ List.mem_cons_self)

theorem exists_poll (h : Waited until_ ws w) : ∃ e ∈ ws, e.op = .pollExit := by
  cases h <;> exact ⟨_, List.mem_cons_self, rfl⟩

/-- A wait that has yet to sleep or to look at the flag finds it raised, if it is. -/
theorem interrupted_of_raised (h : Waited until_ ws w) {rest : Trace} (hrest : rest <:+ ws)
    (hwaiting : ∃ e ∈ rest, e.op = .pollExit ∨ ∃ duration, e.op = .sleep duration)
    (hraised : ∀ e ∈ rest, e.op = .pollExit → Raised e) : ∃ chain, w = interrupted chain := by
  induction h generalizing rest with
  | @passed now hnow =>
      simp only [List.suffix_cons_iff, List.suffix_nil] at hrest
      rcases hrest with rfl | rfl | rfl
      · exact (hraised _ List.mem_cons_self rfl).elim
      · simp at hwaiting
      · simp at hwaiting
  | @slice now es w hlt hwait ih =>
      -- whatever is left of this slice, the next one begins with a look at the flag
      have hnext (hes : ∀ e ∈ es, e.op = .pollExit → Raised e) :
          ∃ chain, w = interrupted chain := by
        obtain ⟨e, he, hpoll⟩ := hwait.exists_poll
        exact ih (List.suffix_refl es) ⟨e, he, .inl hpoll⟩ hes
      simp only [List.suffix_cons_iff] at hrest
      rcases hrest with rfl | rfl | rfl | hrest
      · exact (hraised _ List.mem_cons_self rfl).elim
      · exact hnext fun e he => hraised e (by simp [he])
      · exact hnext fun e he => hraised e (by simp [he])
      · exact ih hrest hwaiting hraised
  | raised => exact ⟨_, rfl⟩

/-- The same, from the two readings on that stand before the wait. -/
theorem interrupted_behind (h : Waited until_ ws w) {now began : ℕ} {rest : Trace}
    (hrest : rest <:+ ⟨.now, now⟩ :: ⟨.now, began⟩ :: ws)
    (hwaiting : ∃ e ∈ rest, e.op = .pollExit ∨ ∃ duration, e.op = .sleep duration)
    (hraised : ∀ e ∈ rest, e.op = .pollExit → Raised e) : ∃ chain, w = interrupted chain := by
  have hwhole (hws : ∀ e ∈ ws, e.op = .pollExit → Raised e) : ∃ chain, w = interrupted chain := by
    obtain ⟨e, he, hpoll⟩ := h.exists_poll
    exact h.interrupted_of_raised (List.suffix_refl ws) ⟨e, he, .inl hpoll⟩ hws
  simp only [List.suffix_cons_iff] at hrest
  rcases hrest with rfl | rfl | hrest
  · exact hwhole fun e he => hraised e (by simp [he])
  · exact hwhole fun e he => hraised e (by simp [he])
  · exact h.interrupted_of_raised hrest hwaiting hraised

end Waited

/-! ### Rounds -/

/-- A round: the attempt, what it came to, and what the loop did behind it. -/
structure Round (α : Type) where
  attempt : Trace
  outcome : Rust α
  behind : Trace

/-- A round as it appears in a trace. -/
def Round.events {α : Type} (x : Round α) : Trace := x.attempt ++ x.behind

variable {α : Type}

/-- What a call says when it gives up. -/
def gaveUp (what : String) (budget : ℕ) (chain : List String) : Fault :=
  .err (s!"{what} still failing after {budget / second}s of retries" :: chain)

/-- The rounds of a call from the `k`-th on. -/
inductive Retried (f : DaemonM α) (what : String) (budget deadline : ℕ) :
    ℕ → List (Round α) → Rust α → Prop
  | succeeded {k : ℕ} {attempt : Trace} {v : α} : Exec f attempt (.ok v) →
      Retried f what budget deadline k [⟨attempt, .ok v, []⟩] (.ok v)
  | exhausted {k : ℕ} {attempt : Trace} {chain : List String} {now : ℕ} :
      Exec f attempt (.error (.err chain)) → deadline ≤ now →
      Retried f what budget deadline k [⟨attempt, .error (.err chain), [⟨.now, now⟩]⟩]
        (.error (gaveUp what budget chain))
  | stopped {k : ℕ} {attempt ws : Trace} {chain chain' : List String} {now began : ℕ} :
      Exec f attempt (.error (.err chain)) → now < deadline →
      Waited (began + delayAt k) ws (interrupted chain') →
      Retried f what budget deadline k
        [⟨attempt, .error (.err chain), ⟨.now, now⟩ :: ⟨.now, began⟩ :: ws⟩] (interrupted chain')
  | again {k : ℕ} {attempt ws : Trace} {chain : List String} {now began : ℕ}
      {rounds : List (Round α)} {r : Rust α} :
      Exec f attempt (.error (.err chain)) → now < deadline →
      Waited (began + delayAt k) ws (.ok ()) →
      Retried f what budget deadline (k + 1) rounds r →
      Retried f what budget deadline k
        (⟨attempt, .error (.err chain), ⟨.now, now⟩ :: ⟨.now, began⟩ :: ws⟩ :: rounds) r

theorem Waited.outcome {until_ : ℕ} {ws : Trace} {w : Rust Unit} (h : Waited until_ ws w) :
    w = .ok () ∨ ∃ chain, w = interrupted chain := by
  induction h with
  | passed => exact .inl rfl
  | slice hlt hrest ih => exact ih
  | raised => exact .inr ⟨_, rfl⟩

/-- Every execution of the loop that returns goes round by round. -/
theorem retried_of_exec {f : DaemonM α} (hret : ∀ es r, Exec f es r → Returns r) {what : String}
    {budget deadline rounds k : ℕ} {es : Trace} {r : Rust α}
    (h : Exec (retryLoop what budget deadline f rounds (delayAt k)) es r) (hr : Returns r) :
    ∃ xs, es = xs.flatMap Round.events ∧ Retried f what budget deadline k xs r := by
  induction rounds generalizing k es with
  | zero =>
      obtain ⟨-, rfl⟩ := exec_throw.mp h
      obtain ⟨chain, hchain⟩ := returns_error_iff.mp hr
      cases hchain
  | succ rounds ih =>
      obtain ⟨attempt, r', es', rfl, hattempt, hround⟩ := retryLoop_cases hret h
      rcases hround with ⟨v, rfl, rfl, rfl⟩ | ⟨chain, rfl, now, es'', rfl, hround⟩
      · exact ⟨_, by simp [Round.events], .succeeded hattempt⟩
      · rcases hround with ⟨hdeadline, rfl, rfl⟩ | ⟨hlt, began, ws, w, rest, rfl, hw, hrest⟩
        · exact ⟨_, by simp [Round.events], .exhausted hattempt hdeadline⟩
        · rcases hrest with ⟨e, rfl, rfl, rfl⟩ | ⟨rfl, hrest⟩
          · have hwret : Returns (.error e : Rust Unit) :=
              returns_error_iff.mpr (returns_error_iff.mp hr)
            have hwaited := waited_of_exec hw hwret
            rcases hwaited.outcome with hw | ⟨chain', hw⟩
            · cases hw
            · rw [hw] at hwaited
              obtain rfl := Except.error.inj hw
              exact ⟨_, by simp [Round.events], .stopped hattempt hlt hwaited⟩
          · rw [delayAt_succ] at hrest
            obtain ⟨xs, rfl, hxs⟩ := ih hrest
            exact ⟨_, by simp [Round.events],
              .again hattempt hlt (waited_of_exec hw (returns_ok ())) hxs⟩

namespace Retried

variable {f : DaemonM α} {what : String} {budget deadline k : ℕ} {xs : List (Round α)}
  {r : Rust α}

theorem ne_nil (h : Retried f what budget deadline k xs r) : xs ≠ [] := by
  cases h <;> exact List.cons_ne_nil _ _

theorem attempts (h : Retried f what budget deadline k xs r) :
    ∀ x ∈ xs, Exec f x.attempt x.outcome := by
  induction h with
  | succeeded hattempt => exact List.forall_mem_singleton.mpr hattempt
  | exhausted hattempt hdeadline => exact List.forall_mem_singleton.mpr hattempt
  | stopped hattempt hlt hw => exact List.forall_mem_singleton.mpr hattempt
  | again hattempt hlt hw hrest ih => exact List.forall_mem_cons.mpr ⟨hattempt, ih⟩

theorem first_success (h : Retried f what budget deadline k xs r) {v : α} (hv : r = .ok v) :
    ∃ earlier attempt, xs = earlier ++ [⟨attempt, .ok v, []⟩]
      ∧ ∀ x ∈ earlier, ∃ chain, x.outcome = .error (.err chain) := by
  induction h with
  | @succeeded k attempt v' hattempt =>
      obtain rfl := Except.ok.inj hv
      exact ⟨[], attempt, rfl, List.forall_mem_nil _⟩
  | exhausted hattempt hdeadline => cases hv
  | stopped hattempt hlt hw => cases hv
  | again hattempt hlt hw hrest ih =>
      obtain ⟨earlier, attempt, rfl, hearlier⟩ := ih hv
      exact ⟨_ :: earlier, attempt, rfl, List.forall_mem_cons.mpr ⟨⟨_, rfl⟩, hearlier⟩⟩

theorem budget_spent (h : Retried f what budget deadline k xs r)
    (hclear : ∀ x ∈ xs, ∀ e ∈ x.behind, ¬ Raised e) {fault : Fault} (hfault : r = .error fault) :
    ∃ earlier attempt chain now,
      xs = earlier ++ [⟨attempt, .error (.err chain), [⟨.now, now⟩]⟩]
        ∧ deadline ≤ now ∧ fault = gaveUp what budget chain := by
  induction h with
  | succeeded hattempt => cases hfault
  | @exhausted k attempt chain now hattempt hdeadline =>
      obtain rfl := Except.error.inj hfault
      exact ⟨[], attempt, chain, now, rfl, hdeadline, rfl⟩
  | stopped hattempt hlt hw =>
      have hok := hw.not_raised fun e he =>
        hclear _ List.mem_cons_self e (List.mem_cons_of_mem _ (List.mem_cons_of_mem _ he))
      cases hok
  | again hattempt hlt hw hrest ih =>
      obtain ⟨earlier, attempt, chain, now, rfl, hdeadline, hchain⟩ :=
        ih (List.forall_mem_cons.mp hclear).2 hfault
      exact ⟨_ :: earlier, attempt, chain, now, rfl, hdeadline, hchain⟩

/-- A round that is followed by another failed with budget left, and waited. -/
theorem waits (h : Retried f what budget deadline k xs r) {j : ℕ} {x : Round α}
    (hx : xs[j]? = some x) (hj : j + 1 < xs.length) :
    ∃ chain now began ws, x.outcome = .error (.err chain)
      ∧ x.behind = ⟨.now, now⟩ :: ⟨.now, began⟩ :: ws ∧ now < deadline
      ∧ Waited (began + delayAt (k + j)) ws (.ok ()) := by
  induction h generalizing j with
  | succeeded hattempt => exact absurd hj (by simp)
  | exhausted hattempt hdeadline => exact absurd hj (by simp)
  | stopped hattempt hlt hw => exact absurd hj (by simp)
  | @again k attempt ws chain now began rounds r hattempt hlt hw hrest ih =>
      rcases j with - | j
      · obtain rfl := Option.some.inj hx
        exact ⟨chain, now, began, ws, rfl, rfl, hlt, hw⟩
      · rw [show k + (j + 1) = k + 1 + j by omega]
        exact ih hx (by simpa using hj)

/-- The flag is raised while a round has yet to sleep or to look at it. -/
theorem raised (h : Retried f what budget deadline k xs r) {earlier later : List (Round α)}
    {x : Round α} (hx : xs = earlier ++ x :: later) {rest : Trace} (hrest : rest <:+ x.behind)
    (hwaiting : ∃ e ∈ rest, e.op = .pollExit ∨ ∃ duration, e.op = .sleep duration)
    (hraised : ∀ e ∈ rest, e.op = .pollExit → Raised e) :
    later = [] ∧ ∃ chain, r = interrupted chain := by
  -- a round without a wait is the last, and does neither
  have hlast {y : Round α} {earlier : List (Round α)} (hx : [y] = earlier ++ x :: later) :
      x = y ∧ later = [] := by
    rcases earlier with - | ⟨z, earlier⟩
    · obtain ⟨rfl, rfl⟩ := List.cons.inj hx
      exact ⟨rfl, rfl⟩
    · obtain ⟨-, hnil⟩ := List.cons.inj hx
      exact absurd hnil.symm (by simp)
  induction h generalizing earlier with
  | succeeded hattempt =>
      obtain ⟨rfl, rfl⟩ := hlast hx
      obtain rfl := List.suffix_nil.mp hrest
      simp at hwaiting
  | exhausted hattempt hdeadline =>
      obtain ⟨rfl, rfl⟩ := hlast hx
      rcases List.suffix_cons_iff.mp hrest with rfl | hrest
      · simp at hwaiting
      · obtain rfl := List.suffix_nil.mp hrest
        simp at hwaiting
  | stopped hattempt hlt hw =>
      exact ⟨(hlast hx).2, _, rfl⟩
  | again hattempt hlt hw hrounds ih =>
      rcases earlier with - | ⟨z, earlier⟩
      · obtain ⟨rfl, rfl⟩ := List.cons.inj hx
        obtain ⟨chain, hok⟩ := hw.interrupted_behind hrest hwaiting hraised
        cases hok
      · exact ih (List.cons.inj hx).2

/-- With an exact clock and attempts that take no time, the attempts start
within a wait of the deadline. -/
theorem on_time (h : Retried f what budget deadline k xs r) {t : ℕ}
    (hclock : Exact t (xs.flatMap Round.events))
    (hinstant : ∀ x ∈ xs, ∀ e ∈ x.attempt, sleepOf e = 0) (ht : t ≤ deadline + rpcRetryMaxDelay)
    {j : ℕ} (hj : j < xs.length) :
    t + slept ((xs.take j).flatMap Round.events) ≤ deadline + rpcRetryMaxDelay := by
  induction h generalizing j t with
  | succeeded hattempt =>
      obtain rfl : j = 0 := by simpa using hj
      exact ht
  | exhausted hattempt hdeadline =>
      obtain rfl : j = 0 := by simpa using hj
      exact ht
  | stopped hattempt hlt hw =>
      obtain rfl : j = 0 := by simpa using hj
      exact ht
  | @again k attempt ws chain now began rounds r hattempt hlt hw hrounds ih =>
      rcases j with - | j
      · exact ht
      · obtain ⟨hfirst, hinstant⟩ := List.forall_mem_cons.mp hinstant
        rw [List.flatMap_cons, exact_append] at hclock
        obtain ⟨hround, hclock⟩ := hclock
        rw [hround.foldl] at hclock
        obtain ⟨hattempt, hnow, hbegan, hwait⟩ := exact_append.mp hround
        -- the attempt took no time, so it began before the deadline
        have hnone : slept attempt = 0 := slept_eq_zero hfirst
        have hnow : now = t := hnow.trans (by rw [hattempt.foldl, hnone, Nat.add_zero])
        have hdelay : slept ws = delayAt k := by
          rw [(hw.slept_eq hwait (Nat.le_add_right began _)).2 rfl]
          exact Nat.add_sub_cancel_left began _
        have hslept : slept (attempt ++ ⟨.now, now⟩ :: ⟨.now, began⟩ :: ws) = delayAt k := by
          simp [hnone, hdelay, sleepOf]
        rw [Round.events, hslept] at hclock
        have hnext := ih hclock hinstant (by have := delayAt_le k; omega)
          (Nat.lt_of_succ_lt_succ hj)
        rw [List.take_succ_cons, List.flatMap_cons, slept_append, Round.events, hslept]
        omega

end Retried

/-! ### `retry_rpc` -/

/-- What is said of a call that began at `start`. -/
structure BacksOff (f : DaemonM α) (what : String) (budget start : ℕ) (xs : List (Round α))
    (r : Rust α) : Prop where
  attempted : xs ≠ []
  attempts : ∀ x ∈ xs, Exec f x.attempt x.outcome
  /-- A value is that of the first attempt that succeeded, and nothing follows. -/
  first_success : ∀ v, r = .ok v → ∃ earlier attempt, xs = earlier ++ [⟨attempt, .ok v, []⟩]
    ∧ ∀ x ∈ earlier, ∃ chain, x.outcome = .error (.err chain)
  /-- With the exit flag down, an error is that of an attempt behind which the
  clock showed no budget left. -/
  budget_spent : (∀ x ∈ xs, ∀ e ∈ x.behind, ¬ Raised e) → ∀ fault, r = .error fault →
    ∃ earlier attempt chain now,
      xs = earlier ++ [⟨attempt, .error (.err chain), [⟨.now, now⟩]⟩]
        ∧ start + budget ≤ now ∧ fault = gaveUp what budget chain
  /-- Between two attempts it waits for the delay. -/
  waits : ∀ k x, xs[k]? = some x → k + 1 < xs.length →
    ∃ chain now began ws, x.outcome = .error (.err chain)
      ∧ x.behind = ⟨.now, now⟩ :: ⟨.now, began⟩ :: ws ∧ now < start + budget
      ∧ Waited (began + delayAt k) ws (.ok ())
      ∧ began + delayAt k ≤ ws.foldl clockAfter began
      ∧ ∀ t, Exact t x.behind → slept x.behind = delayAt k
  /-- A flag raised while a round has yet to sleep, or to look at it, ends the call
  without another attempt. -/
  raised : ∀ earlier x later rest, xs = earlier ++ x :: later → rest <:+ x.behind →
    (∃ e ∈ rest, e.op = .pollExit ∨ ∃ duration, e.op = .sleep duration) →
    (∀ e ∈ rest, e.op = .pollExit → Raised e) → later = [] ∧ ∃ chain, r = interrupted chain
  /-- With exact sleeps and instantaneous attempts none starts too late. -/
  on_time : Exact start (xs.flatMap Round.events) →
    (∀ x ∈ xs, ∀ e ∈ x.attempt, sleepOf e = 0) → ∀ k < xs.length,
      start + slept ((xs.take k).flatMap Round.events) ≤ start + budget + rpcRetryMaxDelay

theorem Retried.backsOff {f : DaemonM α} {what : String} {budget start : ℕ} {xs : List (Round α)}
    {r : Rust α} (h : Retried f what budget (start + budget) 0 xs r) :
    BacksOff f what budget start xs r where
  attempted := h.ne_nil
  attempts := h.attempts
  first_success _ hv := h.first_success hv
  budget_spent hclear _ hfault := h.budget_spent hclear hfault
  waits k x hx hk := by
    obtain ⟨chain, now, began, ws, houtcome, hbehind, hlt, hw⟩ := h.waits hx hk
    rw [Nat.zero_add] at hw
    refine ⟨chain, now, began, ws, houtcome, hbehind, hlt, hw, hw.le_foldl rfl began, ?_⟩
    intro t hclock
    rw [hbehind] at hclock ⊢
    have hslept : slept ws = began + delayAt k - began :=
      (hw.slept_eq hclock.2.2 (Nat.le_add_right began _)).2 rfl
    simp [sleepOf, hslept]
  raised _ _ _ _ hx hrest hwaiting hraised := h.raised hx hrest hwaiting hraised
  on_time hclock hinstant k hk := h.on_time hclock hinstant (by omega) hk

/-- **`retry_rpc` returns, and backs off as announced**: whatever the attempts
come to, on every clock that never goes back and for every budget. -/
theorem retryRpc_backs_off {f : DaemonM α} (hret : ∀ es r, Exec f es r → Returns r)
    {what : String} {budget t : ℕ} {es : Trace} {r : Rust α}
    (h : Exec (retryRpc what budget f) es r) (hclock : Clock t es) :
    Returns r ∧ ∃ start xs, es = ⟨.now, start⟩ :: xs.flatMap Round.events
      ∧ BacksOff f what budget start xs r := by
  have hr := retryRpc_returns hret h hclock
  obtain ⟨start, es', rfl, hloop⟩ := exec_ask_bind.mp h
  rw [← delayAt_zero] at hloop
  obtain ⟨xs, rfl, hxs⟩ := retried_of_exec hret hloop hr
  exact ⟨hr, start, xs, rfl, hxs.backsOff⟩

/-- A prune height read at the second attempt, behind a sleep that took a second. -/
def secondAttempt : Trace :=
  [⟨.now, (0 : ℕ)⟩, ⟨.getBlockchainInfo, .error ["timeout"]⟩, ⟨.now, (0 : ℕ)⟩, ⟨.now, (0 : ℕ)⟩,
    ⟨.pollExit, .ok ()⟩, ⟨.now, (0 : ℕ)⟩, ⟨.sleep sleepSlice, ()⟩, ⟨.pollExit, .ok ()⟩,
    ⟨.now, second⟩, ⟨.getBlockchainInfo, .ok ⟨some 7⟩⟩]

theorem exec_secondAttempt :
    Exec (retryRpc "reading prune height" retryBudgetQuery pruneHeight) secondAttempt (.ok 7) := by
  repeat' first | exact .done | apply Exec.step

theorem retryRpc_backs_off_secondAttempt : ∃ start xs,
    secondAttempt = ⟨.now, start⟩ :: xs.flatMap Round.events
      ∧ BacksOff pruneHeight "reading prune height" retryBudgetQuery start xs (.ok 7) := by
  refine (retryRpc_backs_off (isCall_pruneHeight.returns returns_pruneHeightOf)
    exec_secondAttempt (t := 0) ?_).2
  simp [secondAttempt, Clock, Tick, clockAfter, second, sleepSlice]

end PrunedElectrs
