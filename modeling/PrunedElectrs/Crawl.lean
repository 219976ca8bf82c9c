/-
PrunedElectrs/Crawl.lean

`crawl_from_fork` of `find_fork_peers.py`: breadth-first from known peers of the
fork, expanding only through peers of the fork.

A round probes what has not been probed, and the gossip of the peers that are on
the fork is the next round's.  The network answers as it likes, so a probe's
outcome may depend on the round and on its place in it; the log of the outcomes
is kept beside the script's state, and `crawlFromFork_reach` is about that log.
-/
import Mathlib.Data.Finset.Sort
import Mathlib.Data.Prod.Lex
import Mathlib.Data.String.Basic
import PrunedElectrs.ForkPeers
import PrunedElectrs.Lib.Crawl

namespace PrunedElectrs

open Wire HeaderHash

namespace ForkPeers

/-- Addresses are sorted as tuples. -/
instance : LinearOrder Address :=
  LinearOrder.lift' (fun a : Address => toLex (a.host, a.port)) fun a b h => by
    cases a
    cases b
    cases h
    rfl

/-- `r["fork"]` where it is tested. -/
def OnFork (out : Out) : Prop := out.fork = some true

instance : DecidablePred OnFork := fun out => inferInstanceAs (Decidable (out.fork = some true))

/-- The state of the loop over the rounds, and everything that was answered. -/
structure CrawlState where
  confirmed : List (Address × Out) := []
  probed : Finset Address := ∅
  frontier : List Address
  log : List (Address × Out) := []

/-- `confirmed[r["addr"]] = r`; a dictionary whose order nothing looks at. -/
def put (confirmed : List (Address × Out)) (r : Address × Out) : List (Address × Out) :=
  confirmed.filter (·.1 ≠ r.1) ++ [r]

/-- A result is kept where its peer showed itself to be on the fork. -/
def confirm (confirmed : List (Address × Out)) (r : Address × Out) : List (Address × Out) :=
  if OnFork r.2 then put confirmed r else confirmed

/-- The results for a frontier, in its order. -/
def probeAll (ask : ℕ → Address → Out) (frontier : List Address) : List (Address × Out) :=
  frontier.mapIdx fun i a => (a, ask i a)

/-- What the peers of the fork among these results tell of. -/
def gossip (results : List (Address × Out)) : Finset Address :=
  (results.flatMap fun r => if OnFork r.2 then r.2.peers else []).toFinset

/-- A round over a frontier that has something in it. -/
def crawlRound (ask : ℕ → Address → Out) (s : CrawlState) (frontier : List Address) :
    CrawlState :=
  let results := probeAll ask frontier
  { confirmed := results.foldl confirm s.confirmed
    probed := s.probed ∪ frontier.toFinset
    frontier := (gossip results).sort (· ≤ ·)
    log := s.log ++ results }

/-- The rounds from `rnd` on, of which so many are left. -/
def crawlFrom (ask : ℕ → ℕ → Address → Out) : ℕ → ℕ → CrawlState → CrawlState
  | 0, _, s => s
  | left + 1, rnd, s =>
      let frontier := s.frontier.filter (· ∉ s.probed)
      if frontier = [] then { s with frontier }
      else crawlFrom ask left (rnd + 1) (crawlRound (ask rnd) s frontier)

/-- `crawl_from_fork`, with what a probe of an address returns in a round. -/
def crawlFromFork (ask : ℕ → ℕ → Address → Out) (rounds : ℕ) (seeds : List Address) :
    CrawlState :=
  crawlFrom ask rounds 0 { frontier := seeds }

/-! ### The dictionary of confirmed peers -/

/-- The dictionary has the peers of the log that are on the fork. -/
structure Confirms (log confirmed : List (Address × Out)) : Prop where
  onFork : ∀ r ∈ confirmed, r ∈ log ∧ OnFork r.2
  found : ∀ r ∈ log, OnFork r.2 → ∃ out, (r.1, out) ∈ confirmed

theorem mem_put {confirmed : List (Address × Out)} {r p : Address × Out} :
    p ∈ put confirmed r ↔ (p ∈ confirmed ∧ p.1 ≠ r.1) ∨ p = r := by
  simp [put]

theorem Confirms.confirm {log confirmed : List (Address × Out)} (h : Confirms log confirmed)
    (r : Address × Out) : Confirms (log ++ [r]) (confirm confirmed r) := by
  rw [ForkPeers.confirm]
  split_ifs with hr
  · refine ⟨fun p hp => ?_, fun p hp hfork => ?_⟩
    · rcases mem_put.mp hp with ⟨hp, -⟩ | rfl
      · exact ⟨List.mem_append_left _ (h.onFork p hp).1, (h.onFork p hp).2⟩
      · exact ⟨List.mem_append_right _ (List.mem_singleton_self p), hr⟩
    · by_cases hkey : p.1 = r.1
      · exact ⟨r.2, mem_put.mpr (.inr (by rw [hkey]))⟩
      · rcases List.mem_append.mp hp with hp | hp
        · obtain ⟨out, hout⟩ := h.found p hp hfork
          exact ⟨out, mem_put.mpr (.inl ⟨hout, hkey⟩)⟩
        · exact absurd (congrArg Prod.fst (List.mem_singleton.mp hp)) hkey
  · refine ⟨fun p hp => ⟨List.mem_append_left _ (h.onFork p hp).1, (h.onFork p hp).2⟩,
      fun p hp hfork => ?_⟩
    rcases List.mem_append.mp hp with hp | hp
    · exact h.found p hp hfork
    · rw [List.mem_singleton.mp hp] at hfork
      exact absurd hfork hr

theorem Confirms.foldl {log confirmed : List (Address × Out)} (h : Confirms log confirmed)
    (results : List (Address × Out)) :
    Confirms (log ++ results) (results.foldl ForkPeers.confirm confirmed) := by
  induction results generalizing log confirmed with
  | nil =>
      rw [List.append_nil]
      exact h
  | cons r results ih =>
      have hrest := ih (h.confirm r)
      rw [List.append_assoc, List.singleton_append] at hrest
      exact hrest

/-! ### What a run has asked -/

theorem asked_probeAll (ask : ℕ → Address → Out) (frontier : List Address) :
    Crawl.asked (probeAll ask frontier) = frontier :=
  List.ext_getElem (by simp [Crawl.asked, probeAll]) (by simp [Crawl.asked, probeAll])

theorem mem_gossip {results : List (Address × Out)} {a : Address} :
    a ∈ gossip results ↔ Crawl.Told OnFork Out.peers results a := by
  rw [gossip, List.mem_toFinset, List.mem_flatMap]
  constructor
  · rintro ⟨⟨b, out⟩, hb, ha⟩
    split_ifs at ha with hfork
    · exact ⟨b, out, hb, hfork, ha⟩
    · cases ha
  · rintro ⟨b, out, hb, hfork, ha⟩
    refine ⟨(b, out), hb, ?_⟩
    rw [if_pos hfork]
    exact ha

/-- The state after `n` rounds. -/
structure Running (ask : ℕ → ℕ → Address → Out) (seeds : List Address) (n : ℕ)
    (s : CrawlState) : Prop where
  search : Crawl.Search OnFork Out.peers seeds n s.log (· ∈ s.frontier)
  probed : ∀ a, a ∈ s.probed ↔ a ∈ Crawl.asked s.log
  confirms : Confirms s.log s.confirmed
  answers : ∀ a out, (a, out) ∈ s.log → ∃ rnd < n, ∃ i, out = ask rnd i a
  once : ∀ a, (Crawl.asked s.log).count a ≤ max 1 (seeds.count a)
    ∧ s.frontier.count a ≤ max 1 (seeds.count a)

variable {ask : ℕ → ℕ → Address → Out} {seeds : List Address} {n : ℕ} {s : CrawlState}

theorem running_start (ask : ℕ → ℕ → Address → Out) (seeds : List Address) :
    Running ask seeds 0 { frontier := seeds } where
  search := Crawl.Search.start seeds
  probed a := by simp [Crawl.asked]
  confirms := ⟨fun _ hr => (List.not_mem_nil hr).elim, fun _ hr => (List.not_mem_nil hr).elim⟩
  answers a out h := by cases h
  once _ := ⟨Nat.zero_le _, le_max_right _ _⟩

theorem Running.round (h : Running ask seeds n s) :
    Running ask seeds (n + 1)
      (crawlRound (ask n) s (s.frontier.filter (· ∉ s.probed))) := by
  have hasked := asked_probeAll (ask n) (s.frontier.filter (· ∉ s.probed))
  have hfresh : ∀ a, a ∈ Crawl.asked (probeAll (ask n) (s.frontier.filter (· ∉ s.probed)))
      ↔ a ∈ s.frontier ∧ a ∉ Crawl.asked s.log := by
    intro a
    rw [hasked, List.mem_filter, decide_eq_true_iff, h.probed]
  have happend : Crawl.asked
      (s.log ++ probeAll (ask n) (s.frontier.filter (· ∉ s.probed)))
      = Crawl.asked s.log ++ s.frontier.filter (· ∉ s.probed) := by
    rw [Crawl.asked, List.map_append]
    exact congrArg (Crawl.asked s.log ++ ·) hasked
  refine ⟨?_, fun a => ?_, h.confirms.foldl _, fun a out hin => ?_, fun a => ⟨?_, ?_⟩⟩
  · have hsearch := h.search.round hfresh
    simp only [crawlRound, Finset.mem_sort, mem_gossip]
    exact hsearch
  · show a ∈ s.probed ∪ (s.frontier.filter (· ∉ s.probed)).toFinset ↔ a ∈ Crawl.asked (s.log ++ _)
    rw [happend, Finset.mem_union, List.mem_toFinset, List.mem_append, h.probed]
  · rcases List.mem_append.mp hin with hlog | hnew
    · obtain ⟨rnd, hrnd, hout⟩ := h.answers a out hlog
      exact ⟨rnd, by omega, hout⟩
    · obtain ⟨i, hi, heq⟩ := List.mem_mapIdx.mp hnew
      cases heq
      exact ⟨n, Nat.lt_succ_self n, i, rfl⟩
  · show (Crawl.asked (s.log ++ _)).count a ≤ _
    rw [happend, List.count_append]
    -- one that was probed is not probed in this round
    by_cases hlog : a ∈ Crawl.asked s.log
    · have hnew : a ∉ s.frontier.filter (· ∉ s.probed) := by
        rw [← hasked]
        exact fun hfront => ((hfresh a).mp hfront).2 hlog
      rw [List.count_eq_zero.mpr hnew, Nat.add_zero]
      exact (h.once a).1
    · rw [List.count_eq_zero.mpr hlog, Nat.zero_add]
      exact (List.filter_sublist.count_le a).trans (h.once a).2
  · show ((gossip _).sort (· ≤ ·)).count a ≤ _
    exact (List.nodup_iff_count_le_one.mp (Finset.sort_nodup _ _) a).trans (le_max_left _ _)

/-- Where every address of the frontier has been probed, nothing is left. -/
theorem Running.stop (h : Running ask seeds n s)
    (hnone : s.frontier.filter (· ∉ s.probed) = []) :
    Running ask seeds n { s with frontier := [] } := by
  have hprobed : ∀ a ∈ s.frontier, a ∈ Crawl.asked s.log := by
    intro a ha
    by_contra hlog
    have : a ∈ s.frontier.filter (· ∉ s.probed) := by
      rw [List.mem_filter, decide_eq_true_iff, h.probed]
      exact ⟨ha, hlog⟩
    rw [hnone] at this
    cases this
  refine ⟨⟨h.search.heard, h.search.asked, fun a ha => .inl ?_, fun a ha => by cases ha⟩,
    h.probed, h.confirms, h.answers, fun a => ⟨(h.once a).1, Nat.zero_le _⟩⟩
  exact (h.search.next a ha).elim id (hprobed a)

theorem crawlFrom_stop (left : ℕ) (h : s.frontier.filter (· ∉ s.probed) = []) :
    crawlFrom ask (left + 1) n s = { s with frontier := [] } := by
  rw [crawlFrom]
  exact (if_pos h).trans (by rw [h])

theorem crawlFrom_round (left : ℕ) (h : s.frontier.filter (· ∉ s.probed) ≠ []) :
    crawlFrom ask (left + 1) n s
      = crawlFrom ask left (n + 1) (crawlRound (ask n) s (s.frontier.filter (· ∉ s.probed))) := by
  rw [crawlFrom]
  exact if_neg h

/-- The loop ends after all its rounds, or with nothing left to probe. -/
theorem Running.crawlFrom (h : Running ask seeds n s) (left : ℕ) :
    ∃ k ≤ n + left, Running ask seeds k (crawlFrom ask left n s) ∧
      (k = n + left ∨ (ForkPeers.crawlFrom ask left n s).frontier = []) := by
  induction left generalizing n s with
  | zero => exact ⟨n, Nat.le_refl n, h, .inl rfl⟩
  | succ left ih =>
      by_cases hnone : s.frontier.filter (· ∉ s.probed) = []
      · rw [crawlFrom_stop left hnone]
        exact ⟨n, by omega, h.stop hnone, .inr rfl⟩
      · rw [crawlFrom_round left hnone]
        obtain ⟨k, hk, hrunning, hend⟩ := ih h.round
        exact ⟨k, by omega, hrunning, hend.imp_left (by omega)⟩

/-- What a probe of an address returns in a round, at its place there. -/
def asking (H : Hashes) (text : NetError → String) (time : ℕ → ℕ → Address → ℕ)
    (remote : ℕ → ℕ → Address → Remote) (rnd i : ℕ) (a : Address) : Out :=
  (probe H text (time rnd i a) true (remote rnd i a)).out

/-- **A crawl finds the fork peers that fork peers lead to.**  Whatever the
network answers, and when: the addresses probed are those heard of, in fewer
steps than there are rounds, through peers that showed themselves to be on the
fork; the peers confirmed are those of them on the fork, each by a `headers`
message of its own; each is probed at most once, or at most as often as it was
given; and where the last gossip has nothing new, nothing that is ever heard of
has been left out. -/
theorem crawlFromFork_reach (H : Hashes) (text : NetError → String)
    (time : ℕ → ℕ → Address → ℕ) (remote : ℕ → ℕ → Address → Remote) (rounds : ℕ)
    (seeds : List Address) :
    let s := crawlFromFork (asking H text time remote) rounds seeds
    let Heard := Crawl.Heard OnFork Out.peers s.log seeds
    (∀ a, a ∈ s.probed ↔ ∃ m < rounds, Heard m a) ∧
      (∀ a, (∃ out, (a, out) ∈ s.confirmed) ↔ ∃ out, (a, out) ∈ s.log ∧ OnFork out) ∧
      (∀ a out, (a, out) ∈ s.log → ∃ rnd < rounds, ∃ i,
        let received := ((reader.framing H (remote rnd i a).ending).arriving
          (remote rnd i a).segments).1
        out = asking H text time remote rnd i a ∧ Learned received out ∧
          (OnFork out → ∃ m ∈ received, Verdict m true)) ∧
      (∀ a, (Crawl.asked s.log).count a ≤ max 1 (seeds.count a)) ∧
      ((∀ a ∈ s.frontier, a ∈ s.probed) → ∀ m a, Heard m a → a ∈ s.probed) := by
  intro s Heard
  obtain ⟨k, hk, hrunning, hend⟩ :=
    (running_start (asking H text time remote) seeds).crawlFrom rounds
  rw [Nat.zero_add] at hk hend
  refine ⟨fun a => ?_, fun a => ?_, fun a out hin => ?_, fun a => (hrunning.once a).1,
    fun hdone m a ha => ?_⟩
  · refine (hrunning.probed a).trans ⟨fun ha => ?_, fun ⟨m, hm, ha⟩ => ?_⟩
    · obtain ⟨m, hm, hheard⟩ := hrunning.search.heard a ha
      exact ⟨m, by omega, hheard⟩
    · rcases hend with rfl | hnone
      · exact hrunning.search.asked m hm a ha
      · refine hrunning.search.closed (fun b hb => ?_) ha
        rw [hnone] at hb
        cases hb
  · constructor
    · rintro ⟨out, hout⟩
      obtain ⟨hlog, hfork⟩ := hrunning.confirms.onFork _ hout
      exact ⟨out, hlog, hfork⟩
    · rintro ⟨out, hlog, hfork⟩
      exact hrunning.confirms.found _ hlog hfork
  · obtain ⟨rnd, hrnd, i, rfl⟩ := hrunning.answers a out hin
    have hlearned := learned_probe H text (time rnd i a) true (remote rnd i a)
    refine ⟨rnd, by omega, i, rfl, hlearned, fun hfork => ?_⟩
    obtain ⟨before, heard, after, hmsgs, -, -, hverdict⟩ := hlearned
    obtain ⟨-, m, hm, hm'⟩ := hverdict true hfork
    refine ⟨m, ?_, hm'⟩
    rw [hmsgs]
    exact List.mem_append_right _ (List.mem_append_left _ hm)
  · refine (hrunning.probed a).mpr (hrunning.search.closed (fun b hb => ?_) ha)
    exact (hrunning.probed b).mp (hdone b hb)

/-- A peer of the fork that tells of another one, which cannot be reached. -/
theorem crawlFromFork_reach_two :
    let version : Msg :=
      ⟨tagBytes "version", zeros 80 ++ compactSize 3 ++ [0x2f, 0x6b, 0x2f] ++ leBytes 4 150027⟩
    let headers : Msg := ⟨tagBytes "headers", RawNetworkMessage.encode [.v2 header149537]⟩
    let addr : Msg := ⟨tagBytes "addr",
      compactSize 1 ++ zeros 22 ++ [0xff, 0xff] ++ [10, 0, 0, 1] ++ [0xbc, 0xcd]⟩
    let msgs := [version, ForkHeaders.verack, headers, addr]
    let seed : Address := ⟨"127.0.0.1", 48333⟩
    let told : Address := ⟨"10.0.0.1", 48333⟩
    let remote : Address → Remote := fun a =>
      if a = seed then ⟨none, [msgs.flatMap (frame knownHashes ForkHeaders.magic)], .silent, (8, 8)⟩
      else ⟨some .timeout, [], .closed, (8, 8)⟩
    let s := crawlFromFork (asking knownHashes (fun _ => "") (fun _ _ _ => 1700000000)
      (fun _ _ a => remote a)) 3 [seed]
    (∀ a, (Crawl.asked s.log).count a ≤ max 1 ([seed].count a)) ∧
      ∃ m < 3, Crawl.Heard OnFork Out.peers s.log [seed] m told := by
  intro version headers addr msgs seed told remote s
  have hreach := crawlFromFork_reach knownHashes (fun _ => "") (fun _ _ _ => 1700000000)
    (fun _ _ a => remote a) 3 [seed]
  have htold : told ∈ s.probed := by decide +kernel
  exact ⟨hreach.2.2.2.1, (hreach.1 told).mp htold⟩

end ForkPeers

end PrunedElectrs
