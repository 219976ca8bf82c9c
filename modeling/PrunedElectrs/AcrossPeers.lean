/-
PrunedElectrs/AcrossPeers.lean

`fetch_across_peers` of `concurrency_bench.py`: a shared queue of blocks, with
one worker for each peer.

A worker takes a hash off the queue, asks its peer for the block, and adds to the
total; where the peer raises, it notes the error, puts the hash back and retires.
What it does under the lock, or with the queue, is one step, and the steps of the
workers interleave as they like.

`fetchAcrossPeers_run` says what holds in every state of every run: no hash is
lost or answered twice, and the total and the errors are those of what happened.
It also says how much can be left when all workers have returned: a hash is put
back for a healthy worker to retry, but by then the others may have found the
queue empty.  With one peer the queue is the serial fetch
(`fetchAcrossPeers_one`).
-/
import Mathlib.Data.List.Perm.Basic
import Mathlib.Algebra.BigOperators.Group.List.Basic
import PrunedElectrs.FetchBench
import PrunedElectrs.Lib.Runs

namespace PrunedElectrs

open Wire HeaderHash

namespace FetchBench

variable (H : Hashes) (text : NetError → String)

/-- A connected peer: what has been sent to it, and what it sends. -/
structure Peer where
  ending : Ending
  sent : List Bytes
  segments : List Bytes

/-- `peer.get_block(h)`. -/
def Peer.getBlock (peer : Peer) (h : Arr 32) : Except NetError (Option Bytes × Peer) :=
  (FetchBench.getBlock H peer.ending h peer.sent peer.segments).map fun r =>
    (r.1.1, { peer with sent := r.1.2, segments := r.2 })

/-- Where a worker is: before it looks at the queue, asking for a block, with an
error noted and the hash still in hand, or at its end. -/
inductive Worker
  | idle (peer : Peer)
  | fetching (peer : Peer) (h : Arr 32)
  | failed (h : Arr 32)
  | returned

/-- What the workers share, and where they are. -/
structure Pool where
  queue : List (Arr 32)
  got : ℕ
  errors : List String
  workers : List Worker

/-- The workers have been started. -/
def Pool.start (peers : List Peer) (hashes : List (Arr 32)) : Pool :=
  ⟨hashes, 0, [], peers.map .idle⟩

/-- What a worker does in a step. -/
inductive Event
  | taken (h : Arr 32)
  | empty
  | answered (h : Arr 32) (body : Option Bytes)
  | raised (h : Arr 32) (e : NetError)
  | putBack (h : Arr 32)

/-- A step of one of the workers. -/
inductive Step : Pool → List Event → Pool → Prop
  | take {peer : Peer} {h : Arr 32} {queue : List (Arr 32)} {got : ℕ} {errors : List String}
      {before after : List Worker} :
      Step ⟨h :: queue, got, errors, before ++ .idle peer :: after⟩ [.taken h]
        ⟨queue, got, errors, before ++ .fetching peer h :: after⟩
  | empty {peer : Peer} {got : ℕ} {errors : List String} {before after : List Worker} :
      Step ⟨[], got, errors, before ++ .idle peer :: after⟩ [.empty]
        ⟨[], got, errors, before ++ .returned :: after⟩
  | answer {peer peer' : Peer} {h : Arr 32} {body : Option Bytes} {queue : List (Arr 32)}
      {got : ℕ} {errors : List String} {before after : List Worker} :
      peer.getBlock H h = .ok (body, peer') →
      Step ⟨queue, got, errors, before ++ .fetching peer h :: after⟩ [.answered h body]
        ⟨queue, got + size body, errors, before ++ .idle peer' :: after⟩
  | raise {peer : Peer} {h : Arr 32} {e : NetError} {queue : List (Arr 32)} {got : ℕ}
      {errors : List String} {before after : List Worker} :
      peer.getBlock H h = .error e →
      Step ⟨queue, got, errors, before ++ .fetching peer h :: after⟩ [.raised h e]
        ⟨queue, got, errors ++ [text e], before ++ .failed h :: after⟩
  | putBack {h : Arr 32} {queue : List (Arr 32)} {got : ℕ} {errors : List String}
      {before after : List Worker} :
      Step ⟨queue, got, errors, before ++ .failed h :: after⟩ [.putBack h]
        ⟨queue ++ [h], got, errors, before ++ .returned :: after⟩

/-- All threads have been joined. -/
def Pool.Joined (s : Pool) : Prop := ∀ w ∈ s.workers, w = .returned

/-- `fetch_across_peers` as far as it has come: what has happened, and the state. -/
def FetchAcrossPeers (peers : List Peer) (hashes : List (Arr 32)) : List Event → Pool → Prop :=
  Runs.Run (· = Pool.start peers hashes) (Step H text)

/-! ### What a run accounts for -/

/-- The hash that a worker has taken and not got an answer for. -/
def Worker.hand : Worker → List (Arr 32)
  | fetching _ h => [h]
  | failed h => [h]
  | _ => []

/-- The worker has not given up, and may look at the queue again. -/
def Worker.working : Worker → Bool
  | idle _ => true
  | fetching _ _ => true
  | _ => false

/-- The worker has noted an error and still has its hash. -/
def Worker.failing : Worker → Bool
  | failed _ => true
  | _ => false

/-- What a worker may still do, in steps of one that finds nothing more to take. -/
def Worker.effort : Worker → ℕ
  | idle _ => 3
  | fetching _ _ => 4
  | failed _ => 3
  | returned => 0

/-- The hashes that are in hands. -/
def Pool.held (s : Pool) : List (Arr 32) := s.workers.flatMap Worker.hand

/-- What all workers may still do. -/
def Pool.effort (s : Pool) : ℕ := 2 * s.queue.length + (s.workers.map Worker.effort).sum

/-- The answer that an event stands for. -/
def Event.reply? : Event → Option (Arr 32 × Option Bytes)
  | answered h body => some (h, body)
  | _ => none

/-- The error that an event stands for. -/
def Event.error? : Event → Option NetError
  | raised _ e => some e
  | _ => none

/-- A worker has found the queue empty. -/
def Event.isEmpty : Event → Bool
  | empty => true
  | _ => false

/-- The answers so far, in their order. -/
def replies (es : List Event) : List (Arr 32 × Option Bytes) := es.filterMap Event.reply?

variable {H text}

/-- The books of a run: every hash is answered, in a hand or in the queue; the
total and the errors are those of the events; every worker is working or has left
in one of the two ways; and every step has taken something off what there was to
do.  Once a worker has found the queue empty, what is put back into it is the
hashes of the workers that fail. -/
structure Accounts (text : NetError → String) (peers : List Peer) (hashes : List (Arr 32))
    (es : List Event) (s : Pool) : Prop where
  kept : ((replies es).map Prod.fst ++ (s.held ++ s.queue)).Perm hashes
  got : s.got = ((replies es).map fun r => size r.2).sum
  errors : s.errors = (es.filterMap Event.error?).map text
  present : s.workers.countP Worker.working + es.countP Event.isEmpty + s.errors.length
    = peers.length
  failing : s.workers.countP Worker.failing ≤ s.errors.length
  late : 0 < es.countP Event.isEmpty →
    s.queue.length + s.workers.countP Worker.failing ≤ s.errors.length
  effort : es.length + s.effort ≤ 2 * hashes.length + 3 * peers.length

variable {peers : List Peer} {hashes : List (Arr 32)} {es : List Event} {s s' : Pool}

theorem accounts_start : Accounts text peers hashes [] (Pool.start peers hashes) where
  kept := by
    have hheld : (Pool.start peers hashes).held = [] := by
      simp [Pool.held, Pool.start, Worker.hand]
    rw [hheld]
    exact List.Perm.refl hashes
  got := rfl
  errors := rfl
  present := by simp [Pool.start, Worker.working, List.countP_map, Function.comp_def]
  failing := by simp [Pool.start, Worker.failing, List.countP_map, Function.comp_def]
  late h := absurd h (Nat.lt_irrefl 0)
  effort := by simp [Pool.effort, Pool.start, Worker.effort, Function.comp_def, Nat.mul_comm]

/-! ### What a step does to the books -/

section Steps

variable {new : List Event}

/-- A hash that is taken, answered or put back is still accounted for. -/
theorem Step.kept (h : Step H text s new s') :
    ((replies new).map Prod.fst ++ (s'.held ++ s'.queue)).Perm (s.held ++ s.queue) := by
  refine List.perm_iff_count.mpr fun a => ?_
  cases h <;>
    simp only [replies, Event.reply?, Pool.held, Worker.hand, List.filterMap_cons,
      List.filterMap_nil, List.map_cons, List.map_nil, List.flatMap_append, List.flatMap_cons,
      List.count_append, List.count_cons, List.count_nil] <;>
    omega

theorem Step.got (h : Step H text s new s') :
    s'.got = s.got + ((replies new).map fun r => size r.2).sum := by
  cases h <;> simp [replies, Event.reply?, List.filterMap_cons]

theorem Step.errors (h : Step H text s new s') :
    s'.errors = s.errors ++ (new.filterMap Event.error?).map text := by
  cases h <;> simp [Event.error?]

theorem Step.present (h : Step H text s new s') :
    s'.workers.countP Worker.working + new.countP Event.isEmpty + s'.errors.length
      = s.workers.countP Worker.working + s.errors.length := by
  cases h <;> simp [List.countP_cons, Worker.working, Event.isEmpty] <;> omega

theorem Step.failing (h : Step H text s new s') :
    s'.workers.countP Worker.failing + s.errors.length
      ≤ s.workers.countP Worker.failing + s'.errors.length := by
  cases h <;> simp [List.countP_cons, Worker.failing]
  omega

theorem Step.late (h : Step H text s new s') :
    s'.queue.length + s'.workers.countP Worker.failing + s.errors.length
      ≤ s.queue.length + s.workers.countP Worker.failing + s'.errors.length := by
  cases h <;> simp [List.countP_cons, Worker.failing] <;> omega

theorem Step.queue_of_empty (h : Step H text s new s') (hempty : 0 < new.countP Event.isEmpty) :
    s'.queue = [] := by
  cases h <;> first | rfl | simp [Event.isEmpty] at hempty

theorem Step.effort (h : Step H text s new s') : new.length + s'.effort ≤ s.effort := by
  cases h <;> simp [Pool.effort, Worker.effort] <;> omega

end Steps

theorem Accounts.step {new : List Event} (h : Accounts text peers hashes es s)
    (hstep : Step H text s new s') : Accounts text peers hashes (es ++ new) s' := by
  refine ⟨?_, ?_, ?_, ?_, ?_, fun hlate => ?_, ?_⟩
  · rw [replies, List.filterMap_append, List.map_append, List.append_assoc]
    exact (hstep.kept.append_left _).trans h.kept
  · rw [hstep.got, h.got, replies, replies, replies, List.filterMap_append, List.map_append,
      List.sum_append]
  · rw [hstep.errors, h.errors, List.filterMap_append, List.map_append]
  · have hpresent := h.present
    have hdelta := hstep.present
    rw [List.countP_append]
    omega
  · have hfailing := h.failing
    have hdelta := hstep.failing
    omega
  · have hfailing := h.failing
    have hdelta := hstep.failing
    rw [List.countP_append] at hlate
    by_cases hnew : 0 < new.countP Event.isEmpty
    · rw [hstep.queue_of_empty hnew, List.length_nil]
      omega
    · have hold := h.late (by omega)
      have hdelta' := hstep.late
      omega
  · have heffort := h.effort
    have hdelta := hstep.effort
    rw [List.length_append]
    omega

/-- The books are in order in every state of every run. -/
theorem accounts (hrun : FetchAcrossPeers H text peers hashes es s) :
    Accounts text peers hashes es s :=
  hrun.invariant (fun _ hs => by
    rw [hs]
    exact accounts_start) fun _ _ _ _ hs hst => hs.step hst

/-- As long as a worker has not returned, one of them has a step. -/
theorem exists_step (H : Hashes) (text : NetError → String) (h : ¬ s.Joined) :
    ∃ e s', Step H text s [e] s' := by
  obtain ⟨queue, got, errors, workers⟩ := s
  simp only [Pool.Joined, not_forall] at h
  obtain ⟨w, hw, hbusy⟩ := h
  obtain ⟨before, after, rfl⟩ := List.append_of_mem hw
  cases w with
  | idle peer =>
      cases queue with
      | nil => exact ⟨_, _, .empty⟩
      | cons h queue => exact ⟨_, _, .take⟩
  | fetching peer h =>
      cases hblock : peer.getBlock H h with
      | error e => exact ⟨_, _, .raise hblock⟩
      | ok r => exact ⟨_, _, .answer hblock⟩
  | failed h => exact ⟨_, _, .putBack⟩
  | returned => exact absurd rfl hbusy

/-- When all threads are joined nobody has a hash in hand or works. -/
theorem Pool.Joined.idle (h : s.Joined) :
    s.held = [] ∧ s.workers.countP Worker.working = 0 := by
  refine ⟨List.flatMap_eq_nil_iff.mpr fun w hw => ?_, List.countP_eq_zero.mpr fun w hw => ?_⟩
  · rw [h w hw]
    rfl
  · rw [h w hw]
    exact Bool.false_ne_true

/-- **The shared queue loses nothing and repeats nothing.**  In every state of
every run each hash is either answered, once, or in a worker's hand, or in the
queue; the total is that of the answers and the errors are those raised, of which
no worker has more than one; a run has no more steps than the hashes and workers
allow, and one that has stopped has joined all workers.  Then what is unanswered is
in the queue, and as soon as one worker has left without an error it is no more
than there were errors. -/
theorem fetchAcrossPeers_run (hrun : FetchAcrossPeers H text peers hashes es s) :
    ((replies es).map Prod.fst ++ (s.held ++ s.queue)).Perm hashes ∧
      s.got = ((replies es).map fun r => size r.2).sum ∧
      s.errors = (es.filterMap Event.error?).map text ∧ s.errors.length ≤ peers.length ∧
      es.length ≤ 2 * hashes.length + 3 * peers.length ∧
      ((∀ e s', ¬ Step H text s [e] s') → s.Joined) ∧
      (s.Joined → ((replies es).map Prod.fst ++ s.queue).Perm hashes ∧
        (s.errors.length < peers.length → s.queue.length ≤ s.errors.length)) := by
  have h := accounts hrun
  have hpresent := h.present
  have heffort := h.effort
  refine ⟨h.kept, h.got, h.errors, by omega, by omega, fun hstuck => ?_, fun hjoined => ⟨?_, ?_⟩⟩
  · by_contra hbusy
    obtain ⟨e, s', hstep⟩ := exists_step H text hbusy
    exact hstuck e s' hstep
  · have hkept := h.kept
    rwa [hjoined.idle.1, List.nil_append] at hkept
  · intro hleft
    have hidle := hjoined.idle.2
    have hlate := h.late (by omega)
    omega

/-- The peer of the second worker would have answered, but the queue was empty when
it looked: the first had the hash in hand, and its peer was gone. -/
theorem fetchAcrossPeers_run_lost :
    let h : Arr 32 := List.Vector.replicate 32 0
    let gone : Peer := ⟨.closed, [], []⟩
    let healthy : Peer := ⟨.silent, [], [frame knownHashes magic ⟨tagBytes "block", zeros 80⟩]⟩
    let es := [Event.taken h, .empty, .raised h (.eofError "peer closed"), .putBack h]
    ∃ s, FetchAcrossPeers knownHashes (fun _ => "") [gone, healthy] [h] es s ∧ s.Joined ∧
      s.queue = [h] ∧ s.queue.length ≤ s.errors.length := by
  intro h gone healthy es
  have harriving : (reader.framing knownHashes .closed).arriving []
      = ([], .eofError "peer closed") :=
    Stream.Decoder.decodeAll_error (MsgReader.writes (H := knownHashes) (R := reader) .closed).empty
  have hgone : gone.getBlock knownHashes h = .error (.eofError "peer closed") := by
    have hpump := ((reader.framing knownHashes .closed).sees_pump (awaitBlock knownHashes)
      ([] ++ [request knownHashes h])).of_error (s := []) (by rw [harriving, Stream.feed])
    rw [Peer.getBlock, FetchBench.getBlock, getdata_eq]
    change Except.map _ ((reader.framing knownHashes .closed).pump (awaitBlock knownHashes)
      ([] ++ [request knownHashes h]) []) = _
    rw [hpump]
    rfl
  have htake : Step knownHashes (fun _ => "") ⟨[h], 0, [], [] ++ .idle gone :: [.idle healthy]⟩
      [.taken h] ⟨[], 0, [], [] ++ .fetching gone h :: [.idle healthy]⟩ := .take
  have hempty : Step knownHashes (fun _ => "")
      ⟨[], 0, [], [.fetching gone h] ++ .idle healthy :: []⟩
      [.empty] ⟨[], 0, [], [.fetching gone h] ++ .returned :: []⟩ := .empty
  have hraise : Step knownHashes (fun _ => "") ⟨[], 0, [], [] ++ .fetching gone h :: [.returned]⟩
      [.raised h (.eofError "peer closed")] ⟨[], 0, [] ++ [""], [] ++ .failed h :: [.returned]⟩ :=
    .raise hgone
  have hput : Step knownHashes (fun _ => "") ⟨[], 0, [""], [] ++ .failed h :: [.returned]⟩
      [.putBack h] ⟨[] ++ [h], 0, [""], [] ++ .returned :: [.returned]⟩ := .putBack
  have hstart : FetchAcrossPeers knownHashes (fun _ => "") [gone, healthy] [h] []
      ⟨[h], 0, [], [] ++ .idle gone :: [.idle healthy]⟩ := .init rfl
  have hrun : FetchAcrossPeers knownHashes (fun _ => "") [gone, healthy] [h] es
      ⟨[h], 0, [""], [.returned, .returned]⟩ :=
    (((hstart.step htake).step hempty).step hraise).step hput
  have hjoined : Pool.Joined ⟨[h], 0, [""], [.returned, .returned]⟩ := by
    intro w hw
    simpa using hw
  exact ⟨_, hrun, hjoined, rfl,
    ((fetchAcrossPeers_run hrun).2.2.2.2.2.2 hjoined).2 (by decide)⟩

/-! ### One peer -/

/-- The states of a queue with one worker, where the serial fetch comes to the
given result. -/
inductive Alone (H : Hashes) (text : NetError → String)
    (result : Except NetError ((ℕ × List Bytes) × List Bytes)) : Pool → Prop
  | idle {peer : Peer} {queue : List (Arr 32)} {got : ℕ} :
      fetchSerial H peer.ending queue got peer.sent peer.segments = result →
      Alone H text result ⟨queue, got, [], [.idle peer]⟩
  | fetching {peer : Peer} {h : Arr 32} {queue : List (Arr 32)} {got : ℕ} :
      fetchSerial H peer.ending (h :: queue) got peer.sent peer.segments = result →
      Alone H text result ⟨queue, got, [], [.fetching peer h]⟩
  | failed {h : Arr 32} {e : NetError} {queue : List (Arr 32)} {got : ℕ} :
      result = .error e → Alone H text result ⟨queue, got, [text e], [.failed h]⟩
  | raised {e : NetError} {queue : List (Arr 32)} {got : ℕ} :
      result = .error e → Alone H text result ⟨queue, got, [text e], [.returned]⟩
  | finished {sent segments : List Bytes} {got : ℕ} :
      result = .ok ((got, sent), segments) → Alone H text result ⟨[], got, [], [.returned]⟩

theorem append_cons_eq_singleton {α : Type} {before after : List α} {x w : α}
    (h : before ++ x :: after = [w]) : before = [] ∧ x = w ∧ after = [] := by
  cases before with
  | nil => simpa using h
  | cons b before => simp at h

theorem fetchSerial_answer {peer peer' : Peer} {h : Arr 32} {body : Option Bytes}
    (hblock : peer.getBlock H h = .ok (body, peer')) (queue : List (Arr 32)) (got : ℕ) :
    fetchSerial H peer.ending (h :: queue) got peer.sent peer.segments
      = fetchSerial H peer'.ending queue (got + size body) peer'.sent peer'.segments := by
  rw [Peer.getBlock] at hblock
  rw [fetchSerial]
  cases hget : FetchBench.getBlock H peer.ending h peer.sent peer.segments with
  | error e =>
      rw [hget] at hblock
      cases hblock
  | ok r =>
      rw [hget] at hblock
      cases hblock
      rfl

theorem fetchSerial_raise {peer : Peer} {h : Arr 32} {e : NetError}
    (hblock : peer.getBlock H h = .error e) (queue : List (Arr 32)) (got : ℕ) :
    fetchSerial H peer.ending (h :: queue) got peer.sent peer.segments = .error e := by
  rw [Peer.getBlock] at hblock
  rw [fetchSerial]
  cases hget : FetchBench.getBlock H peer.ending h peer.sent peer.segments with
  | error e' =>
      rw [hget] at hblock
      cases hblock
      rfl
  | ok r =>
      rw [hget] at hblock
      cases hblock

theorem Alone.step {result : Except NetError ((ℕ × List Bytes) × List Bytes)} {new : List Event}
    (h : Alone H text result s) (hstep : Step H text s new s') : Alone H text result s' := by
  cases hstep with
  | @take peer hash queue got errors before after =>
      generalize hws : before ++ Worker.idle peer :: after = ws at h
      cases h <;> obtain ⟨rfl, hw, rfl⟩ := append_cons_eq_singleton hws <;> cases hw
      exact .fetching ‹_›
  | @empty peer got errors before after =>
      generalize hws : before ++ Worker.idle peer :: after = ws at h
      cases h <;> obtain ⟨rfl, hw, rfl⟩ := append_cons_eq_singleton hws <;> cases hw
      exact .finished (Eq.symm ‹_›)
  | @answer peer peer' hash body queue got errors before after hblock =>
      generalize hws : before ++ Worker.fetching peer hash :: after = ws at h
      cases h <;> obtain ⟨rfl, hw, rfl⟩ := append_cons_eq_singleton hws <;> cases hw
      exact .idle ((fetchSerial_answer hblock queue got).symm.trans ‹_›)
  | @raise peer hash e queue got errors before after hblock =>
      generalize hws : before ++ Worker.fetching peer hash :: after = ws at h
      cases h <;> obtain ⟨rfl, hw, rfl⟩ := append_cons_eq_singleton hws <;> cases hw
      rename_i hresult
      exact .failed (hresult.symm.trans (fetchSerial_raise hblock queue got))
  | @putBack hash queue got errors before after =>
      generalize hws : before ++ Worker.failed hash :: after = ws at h
      cases h <;> obtain ⟨rfl, hw, rfl⟩ := append_cons_eq_singleton hws <;> cases hw
      exact .raised ‹_›

/-- **A queue with one worker is the serial fetch.**  When the worker has returned,
it has noted the error that the serial fetch raises, or has emptied the queue and
come to the total of the serial fetch. -/
theorem fetchAcrossPeers_one {peer : Peer}
    (hrun : FetchAcrossPeers H text [peer] hashes es s) (hjoined : s.Joined) :
    match fetchSerial H peer.ending hashes 0 peer.sent peer.segments with
    | .ok ((got, _), _) => s.got = got ∧ s.queue = [] ∧ s.errors = []
    | .error e => s.errors = [text e] := by
  have halone : Alone H text
      (fetchSerial H peer.ending hashes 0 peer.sent peer.segments) s :=
    hrun.invariant (I := fun _ s => Alone H text _ s) (fun _ hs => by
      rw [hs]
      exact .idle rfl) fun _ _ _ _ hs hst => hs.step hst
  generalize fetchSerial H peer.ending hashes 0 peer.sent peer.segments = result at halone
  cases halone with
  | idle => exact Worker.noConfusion (hjoined _ (List.mem_singleton_self _))
  | fetching => exact Worker.noConfusion (hjoined _ (List.mem_singleton_self _))
  | failed => exact Worker.noConfusion (hjoined _ (List.mem_singleton_self _))
  | raised hresult =>
      rw [hresult]
  | finished hresult =>
      rw [hresult]
      exact ⟨rfl, rfl, rfl⟩

/-- One block of 80 bytes, from a peer that has it. -/
theorem fetchAcrossPeers_one_block :
    let h : Arr 32 := List.Vector.replicate 32 0
    let block : Msg := ⟨tagBytes "block", zeros 80⟩
    let peer : Peer := ⟨.silent, [], [frame knownHashes magic block]⟩
    ∃ sent segments, fetchSerial knownHashes .silent [h] 0 peer.sent peer.segments
      = .ok ((80, sent), segments) := by
  intro h block peer
  have harriving : (reader.framing knownHashes .silent).arriving peer.segments
      = ([block], .timeout) := by
    have hwrites := MsgReader.writes (H := knownHashes) (R := reader) .silent
    have hread := hwrites.decodeAll_append (by decide +kernel : ∀ m ∈ [block], reader.Takes m) []
    rw [Stream.Decoder.decodeAll_error hwrites.empty] at hread
    exact hread
  have hblock : ∃ peer', peer.getBlock knownHashes h = .ok (some block.payload, peer') := by
    obtain ⟨segments, hpump, -⟩ := ((reader.framing knownHashes .silent).sees_pump
      (awaitBlock knownHashes) ([] ++ [request knownHashes h])).of_ok (s := peer.segments) (by
        rw [harriving]
        exact Stream.feed_done rfl)
    refine ⟨⟨.silent, [] ++ [request knownHashes h], segments⟩, ?_⟩
    rw [Peer.getBlock, FetchBench.getBlock, getdata_eq]
    change Except.map _ ((reader.framing knownHashes .silent).pump (awaitBlock knownHashes)
      ([] ++ [request knownHashes h]) peer.segments) = _
    rw [hpump]
    rfl
  obtain ⟨peer', hblock⟩ := hblock
  have htake : Step knownHashes (fun _ => "") ⟨[h], 0, [], [] ++ .idle peer :: []⟩
      [.taken h] ⟨[], 0, [], [] ++ .fetching peer h :: []⟩ := .take
  have hanswer : Step knownHashes (fun _ => "") ⟨[], 0, [], [] ++ .fetching peer h :: []⟩
      [.answered h (some block.payload)] ⟨[], 0 + 80, [], [] ++ .idle peer' :: []⟩ := .answer hblock
  have hempty : Step knownHashes (fun _ => "") ⟨[], 80, [], [] ++ .idle peer' :: []⟩
      [.empty] ⟨[], 80, [], [] ++ .returned :: []⟩ := .empty
  have hstart : FetchAcrossPeers knownHashes (fun _ => "") [peer] [h] []
      ⟨[h], 0, [], [] ++ .idle peer :: []⟩ := .init rfl
  have hone := fetchAcrossPeers_one (((hstart.step htake).step hanswer).step hempty) (by
    intro w hw
    simpa using hw)
  cases hserial : fetchSerial knownHashes peer.ending [h] 0 peer.sent peer.segments with
  | error e =>
      rw [hserial] at hone
      cases hone
  | ok r =>
      obtain ⟨⟨got, sent⟩, segments⟩ := r
      rw [hserial] at hone
      obtain ⟨rfl, -⟩ := hone
      exact ⟨sent, segments, rfl⟩

end FetchBench

end PrunedElectrs
