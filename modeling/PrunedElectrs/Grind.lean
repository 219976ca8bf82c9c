/-
PrunedElectrs/Grind.lean

Grinding a share: `miner.c`, which searches the nonces with several threads, and
`run_round` of `grind.py`, which runs it on a job.

The miner hashes the first 64 bytes of a header once, copies the state for each
nonce and compares in display order; `passes_iff` says that this is the hash of
the header with that nonce, against the target as a number.  The threads are the
search of `Lib/Search.lean`, so what a round does holds in any interleaving
(`round_share`): what it submits is a share of the job, for a server that builds
the header from the words submitted, and without a submission there is no share
among the nonces searched.
-/
import PrunedElectrs.Lib.Search
import PrunedElectrs.Stratum

namespace PrunedElectrs

open Wire HeaderHash Stratum

/-! ### The miner -/

namespace Miner

/-- `SHA256_CTX`, as the bytes it was updated with. -/
structure Sha256Ctx where
  fed : Bytes

namespace Sha256Ctx

/-- `sha256_init`. -/
def init : Sha256Ctx := ⟨[]⟩

/-- `sha256_update`. -/
def update (c : Sha256Ctx) (b : Bytes) : Sha256Ctx := ⟨c.fed ++ b⟩

/-- `sha256_final`. -/
def final (H : Hashes) (c : Sha256Ctx) : Bytes := (H.sha256 c.fed).toList

end Sha256Ctx

/-- Two digits for each of `n` bytes; the text may go on behind them.  `sscanf`
takes a sign, blanks and a single digit as well, but nothing except the digits of
`bytes.hex()` reaches it. -/
def unhex (hex : List Char) (n : ℕ) : Option Bytes :=
  if 2 * n ≤ hex.length then ofHex (hex.take (2 * n)) else none

/-- `memcmp`, on strings of one length. -/
def memcmp : Bytes → Bytes → Ordering
  | x :: xs, y :: ys => (compare x.toNat y.toNat).then (memcmp xs ys)
  | _, _ => .eq

/-- What a nonce puts into the last four bytes of `tail`. -/
def nonceBytes (n : ℕ) : Bytes :=
  [UInt8.ofNat (n &&& 0xff), UInt8.ofNat ((n >>> 8) &&& 0xff), UInt8.ofNat ((n >>> 16) &&& 0xff),
    UInt8.ofNat ((n >>> 24) &&& 0xff)]

variable (H : Hashes)

/-- `display`; the first 64 bytes are hashed once for all nonces. -/
def display (front : Bytes) (n : ℕ) : Bytes :=
  let base := Sha256Ctx.init.update (front.take 64)
  let tail := sub front 64 12 ++ nonceBytes n
  let first := (base.update tail).final H
  let second := (Sha256Ctx.init.update first).final H
  second.reverse

/-- A nonce whose hash is at most the target. -/
def Passes (front target : Bytes) (n : ℕ) : Prop :=
  (memcmp (display H front n) target).isLE = true

/-- Where a thread looks for a winner. -/
def Looks (n : ℕ) : Prop := n &&& 0xffff = 0

/-- A run of `main`: the nonce printed, if there is one.  The loop is dealt out
in stretches, to as many threads as there are, at most `threads`. -/
def Main (prefix76hex target32hex : List Char) (count threads : ℕ) (printed : Option ℕ) : Prop :=
  match unhex prefix76hex 76, unhex target32hex 32 with
  | some front, some target =>
      ∃ parts : List (List ℕ), parts.length ≤ threads ∧ parts.flatten = List.range count ∧
        ∃ s, Search.Run (Passes H front target) Looks parts s ∧ ¬ Search.Left s ∧
          printed = s.found
  | _, _ => printed = none

end Miner

/-! ### A round -/

namespace Grind

/-- The nonces of a round. -/
def windowHashes : ℕ := 3800000000

/-- The threads of a round. -/
def threads : ℕ := 20

/-- `v.to_bytes(32, "big")`, where that does not overflow. -/
def toBytes32 (v : ℕ) : Option Bytes := if v < 256 ^ 32 then some (leBytes 32 v).reverse else none

/-- A run of `run_round` up to the answer: what it submits, if anything. -/
def Round (H : Hashes) (job : Job) (extranonce1 extranonce2 name : List Char) (shareTarget : ℕ)
    (submitted : Option (List (List Char))) : Prop :=
  ∃ header coinbase target printed,
    buildHeader H job extranonce1 extranonce2 0 swap4 = .ok (header, coinbase) ∧
    toBytes32 shareTarget = some target ∧
    Miner.Main H (toHex (header.take 76)) (toHex target) windowHashes threads printed ∧
    submitted = printed.map fun nonce =>
      [name, job.jobId, extranonce2, job.ntime, hex8 nonce]

end Grind

/-! ### What the miner compares -/

namespace Miner

variable {H : Hashes}

theorem unhex_toHex {b : Bytes} {n : ℕ} (h : b.length = n) : unhex (toHex b) n = some b := by
  have hlen : (toHex b).length = 2 * n := by rw [length_of_ofHex (ofHex_toHex b), h]
  rw [unhex, if_pos hlen.ge, ← hlen, List.take_length, ofHex_toHex]

theorem nonceBytes_eq (n : ℕ) : nonceBytes n = leBytes 4 n := by
  have hbyte : ∀ v : ℕ, UInt8.ofNat (v &&& 0xff) = UInt8.ofNat v := by
    intro v
    rw [← UInt8.toNat_inj, UInt8.toNat_ofNat', UInt8.toNat_ofNat',
      Nat.and_two_pow_sub_one_eq_mod v 8, Nat.mod_mod]
  have h8 : n >>> 8 = n / 256 := Nat.shiftRight_eq_div_pow n 8
  have h16 : n >>> 16 = n / 256 / 256 := by
    rw [Nat.shiftRight_eq_div_pow, Nat.div_div_eq_div_mul]
  have h24 : n >>> 24 = n / 256 / 256 / 256 := by
    rw [Nat.shiftRight_eq_div_pow, Nat.div_div_eq_div_mul, Nat.div_div_eq_div_mul]
  rw [nonceBytes, hbyte, hbyte, hbyte, hbyte, h8, h16, h24]
  rfl

/-- The copied state is that of the whole header. -/
theorem display_eq {front : Bytes} (h : front.length = 76) (n : ℕ) :
    display H front n = (dsha H (front ++ leBytes 4 n)).reverse := by
  have hsplit : front.take 64 ++ sub front 64 12 = front := by
    have hrest : (front.drop 64).length ≤ 12 := by rw [List.length_drop, h]
    rw [sub, List.take_of_length_le hrest, List.take_append_drop]
  simp only [display, Sha256Ctx.init, Sha256Ctx.update, Sha256Ctx.final, nonceBytes_eq,
    List.nil_append, ← List.append_assoc, hsplit, dsha]

/-- The higher digit decides, unless it is the same. -/
theorem compare_digits {w u v : ℕ} (hu : u < w) (hv : v < w) (x y : ℕ) :
    compare (u + w * x) (v + w * y) = (compare x y).then (compare u v) := by
  rcases Nat.lt_trichotomy x y with hlt | rfl | hgt
  · have hstep := Nat.mul_le_mul_left w (Nat.succ_le_of_lt hlt)
    rw [Nat.mul_succ] at hstep
    have hsum : u + w * x < v + w * y := by omega
    rw [Nat.compare_eq_lt.mpr hlt, Nat.compare_eq_lt.mpr hsum]
    rfl
  · rw [Nat.compare_eq_eq.mpr rfl, Nat.compare_eq_ite_lt, Nat.compare_eq_ite_lt]
    simp only [Nat.add_lt_add_iff_right]
    rfl
  · have hstep := Nat.mul_le_mul_left w (Nat.succ_le_of_lt hgt)
    rw [Nat.mul_succ] at hstep
    have hsum : v + w * y < u + w * x := by omega
    rw [Nat.compare_eq_gt.mpr hgt, Nat.compare_eq_gt.mpr hsum]
    rfl

theorem beNat_cons (x : UInt8) (b : Bytes) :
    beNat (x :: b) = beNat b + 256 ^ b.length * x.toNat := by
  rw [beNat, List.reverse_cons, leNat_append, List.length_reverse, leNat, leNat, Nat.mul_zero,
    Nat.add_zero, beNat]

theorem beNat_lt (b : Bytes) : beNat b < 256 ^ b.length := by
  rw [← List.length_reverse]
  exact leNat_lt _

/-- Byte strings of one length are compared as big-endian numbers. -/
theorem memcmp_eq {a b : Bytes} (h : a.length = b.length) :
    memcmp a b = compare (beNat a) (beNat b) := by
  induction a generalizing b with
  | nil =>
      obtain rfl := List.eq_nil_of_length_eq_zero h.symm
      rfl
  | cons x a ih =>
      obtain ⟨y, b, rfl⟩ := List.exists_cons_of_length_eq_add_one h.symm
      have hlen : a.length = b.length := Nat.add_right_cancel h
      rw [memcmp, ih hlen, beNat_cons, beNat_cons, hlen,
        compare_digits (hlen ▸ beNat_lt a) (beNat_lt b)]

/-- A nonce passes when the hash of the header with it is at most the target. -/
theorem passes_iff {front : Bytes} (h : front.length = 76) {target : ℕ} (ht : target < 256 ^ 32)
    (n : ℕ) :
    Passes H front (leBytes 32 target).reverse n
      ↔ leNat (dsha H (front ++ leBytes 4 n)) ≤ target := by
  have hlen : (dsha H (front ++ leBytes 4 n)).reverse.length
      = (leBytes 32 target).reverse.length := by
    rw [List.length_reverse, List.length_reverse, length_dsha, length_leBytes]
  rw [Passes, display_eq h, memcmp_eq hlen, beNat, beNat, List.reverse_reverse,
    List.reverse_reverse, leNat_leBytes ht, Nat.isLE_compare]

/-- What a run prints: a nonce that passes, or none because none does. -/
theorem main_iff {front : Bytes} {target count threads : ℕ} {printed : Option ℕ}
    (hfront : front.length = 76) (ht : target < 256 ^ 32)
    (h : Main H (toHex front) (toHex (leBytes 32 target).reverse) count threads printed) :
    (∀ n, printed = some n → n < count ∧ leNat (dsha H (front ++ leBytes 4 n)) ≤ target)
      ∧ (printed = none → ∀ n < count, target < leNat (dsha H (front ++ leBytes 4 n))) := by
  have htarget : (leBytes 32 target).reverse.length = 32 := by
    rw [List.length_reverse, length_leBytes]
  rw [Main, unhex_toHex hfront, unhex_toHex htarget] at h
  obtain ⟨parts, -, hparts, s, hrun, hdone, rfl⟩ := h
  obtain ⟨hfound, hnone⟩ := Search.find_of_run hrun hdone
  rw [hparts] at hfound hnone
  refine ⟨fun n hn => ?_, fun hn n hlt => ?_⟩
  · obtain ⟨hmem, hpasses⟩ := hfound n hn
    exact ⟨List.mem_range.mp hmem, (passes_iff hfront ht n).mp hpasses⟩
  · exact Nat.not_le.mp fun hle =>
      hnone hn n (List.mem_range.mpr hlt) ((passes_iff hfront ht n).mpr hle)

/-- One thread is enough. -/
theorem exists_main {front target : Bytes} (hfront : front.length = 76)
    (htarget : target.length = 32) (count : ℕ) {threads : ℕ} (hthreads : 0 < threads) :
    ∃ printed, Main H (toHex front) (toHex target) count threads printed := by
  obtain ⟨s, hrun, hdone⟩ : ∃ s, Search.Run (Passes H front target) Looks [List.range count] s
      ∧ ¬ Search.Left s := Search.Run.exists_done Relation.ReflTransGen.refl
  refine ⟨s.found, ?_⟩
  rw [Main, unhex_toHex hfront, unhex_toHex htarget]
  exact ⟨[List.range count], hthreads, List.flatten_singleton, s, hrun, hdone, rfl⟩

end Miner

/-! ### What a round submits -/

namespace Grind

/-- **A round submits a share of its job, or there is none**, for a job of ASCII
words whose `prevhash` is 32 bytes, and in any interleaving of the threads: the
words submitted stand for a header whose hash is at most the
share target, and without a submission no nonce of the window has one. -/
theorem round_share {H : Hashes} {job : Job} {extranonce1 extranonce2 name : List Char}
    {shareTarget : ℕ} {submitted : Option (List (List Char))} {prev : Bytes}
    (hprev : unhexlify job.prevhash = .ok prev) (hlen : prev.length = 32)
    (h : Round H job extranonce1 extranonce2 name shareTarget submitted) :
    (∀ params, submitted = some params → ∃ (nonce : ℕ) (header coinbase : Bytes),
      params = [name, job.jobId, extranonce2, job.ntime, hex8 nonce] ∧
      int16 (hex8 nonce) = .ok (nonce : ℤ) ∧ (hex8 nonce).length = 8 ∧
      buildHeader H job extranonce1 extranonce2 nonce swap4 = .ok (header, coinbase) ∧
      leNat (dsha H header) ≤ shareTarget) ∧
    (submitted = none → ∀ nonce < windowHashes, ∃ header coinbase,
      buildHeader H job extranonce1 extranonce2 (nonce : ℕ) swap4 = .ok (header, coinbase) ∧
      shareTarget < leNat (dsha H header)) := by
  obtain ⟨header, coinbase, target, printed, hbuild, htarget, hmain, rfl⟩ := h
  obtain ⟨front, tail, hfront, rfl⟩ := exists_front hbuild
  have hlen76 := length_headerFront hprev hlen hfront
  rw [toBytes32] at htarget
  split_ifs at htarget with ht
  cases htarget
  rw [← hlen76, List.take_left] at hmain
  obtain ⟨hfound, hnone⟩ := Miner.main_iff hlen76 ht hmain
  have hwindow : windowHashes < 2 ^ 32 := by decide
  refine ⟨fun params hparams => ?_, fun hsubmitted nonce hnonce => ?_⟩
  · obtain ⟨nonce, hprinted, rfl⟩ := Option.map_eq_some_iff.mp hparams
    obtain ⟨hlt, hle⟩ := hfound nonce hprinted
    have hnonce : nonce < 2 ^ 32 := hlt.trans hwindow
    have hdigits : (hex8 nonce).length = 8 := by
      rw [hex8_eq hnonce, length_of_ofHex (ofHex_toHex _), List.length_reverse, length_leBytes]
    exact ⟨nonce, _, coinbase, rfl, int16_hex8 hnonce, hdigits,
      buildHeader_of_front hfront hnonce, hle⟩
  · exact ⟨_, coinbase, buildHeader_of_front hfront (hnonce.trans hwindow),
      hnone (Option.map_eq_none_iff.mp hsubmitted) nonce hnonce⟩

/-- A job whose coinbase has room for the extranonces. -/
def sampleTemplate : Template where
  version := 0x20000000
  prevBlockhash := numbered 7
  txids := [numbered 1, numbered 2]
  time := 1700000000
  bits := 0x207fffff
  coinb1 := [1, 0, 0, 0]
  coinb2 := [0, 0, 0, 0]

theorem round_share_easiest :
    ∃ params nonce header coinbase,
      Round knownHashes (sampleTemplate.job knownHashes ['1']) (toHex [0, 0, 0, 1])
        (toHex [0, 0, 0, 0]) ['w'] (256 ^ 32 - 1) (some params)
      ∧ params = [['w'], ['1'], toHex [0, 0, 0, 0], hex8 1700000000, hex8 nonce]
      ∧ buildHeader knownHashes (sampleTemplate.job knownHashes ['1']) (toHex [0, 0, 0, 1])
        (toHex [0, 0, 0, 0]) nonce swap4 = .ok (header, coinbase) := by
  have hprev := unhexlify_toHex
    ((RecordFile.chunks 4 8 (numbered 7).toList).map List.reverse).flatten
  have hfront := headerFront_job (H := knownHashes) sampleTemplate ['1'] [0, 0, 0, 1] [0, 0, 0, 0]
  have hbuild := buildHeader_of_front hfront (show 0 < 2 ^ 32 by decide)
  have hlen76 := length_headerFront hprev (by rfl) hfront
  obtain ⟨printed, hmain⟩ := Miner.exists_main (H := knownHashes) hlen76
    (show (leBytes 32 (256 ^ 32 - 1)).reverse.length = 32 by rfl) windowHashes
    (show 0 < threads by decide)
  have hround : Round knownHashes (sampleTemplate.job knownHashes ['1']) (toHex [0, 0, 0, 1])
      (toHex [0, 0, 0, 0]) ['w'] (256 ^ 32 - 1) _ :=
    ⟨_, _, _, printed, hbuild, if_pos (by decide), by rwa [← hlen76, List.take_left], rfl⟩
  obtain ⟨hsome, hnone⟩ := round_share hprev (by rfl) hround
  cases printed with
  | none =>
      obtain ⟨header, coinbase, -, hgt⟩ := hnone rfl 0 (by decide)
      have hlt := leNat_lt (dsha knownHashes header)
      rw [length_dsha] at hlt
      omega
  | some nonce =>
      obtain ⟨n, header, coinbase, hparams, -, -, hok, -⟩ := hsome _ rfl
      exact ⟨_, n, header, coinbase, hround, hparams, hok⟩

end Grind

end PrunedElectrs
