/-
PrunedElectrs/Stratum.lean

The header a stratum job stands for (`stratum_miner.py`).

A job names the transactions of a block by the branch of the coinbase alone, so
that the miner can vary the coinbase without knowing them: `buildHeader` folds
the branch onto whatever coinbase it has put together.  The branch of the first
leaf does not depend on the leaf (`Merkle.branch_zero`), so the header commits
to the block with that coinbase (`buildHeader_template`).

Numbers come as text.  `int16` is `int(text, 16)` on ASCII.
-/
import PrunedElectrs.MerkleProof
import PrunedElectrs.PeerWire
import Mathlib.Data.List.DropRight

namespace PrunedElectrs

open Wire HeaderHash

namespace Stratum

/-! ### Text -/

/-- `binascii.unhexlify`. -/
def unhexlify (text : List Char) : Py Bytes :=
  match ofHex text with
  | some b => .ok b
  | none => .error .valueError

/-- Digits of base 16 behind a value, with single underscores between them;
`digit` tells whether the last character was a digit. -/
def digits16 : ℕ → Bool → List Char → Option ℕ
  | v, digit, [] => if digit then some v else none
  | v, digit, c :: rest =>
      if c = '_' then if digit then digits16 v false rest else none
      else
        match hexVal c with
        | some d => digits16 (16 * v + d) true rest
        | none => none

/-- The text begins with `0x`, and something stands behind it. -/
def hasPrefix : List Char → Bool
  | '0' :: x :: _ :: _ => x = 'x' || x = 'X'
  | _ => false

/-- Digits with an optional `0x`. -/
def unsigned16 (text : List Char) : Option ℕ :=
  if hasPrefix text then digits16 0 true (text.drop 2) else digits16 0 false text

/-- The same with an optional sign. -/
def signed16 : List Char → Option ℤ
  | '-' :: text => (unsigned16 text).map fun v => -(v : ℤ)
  | '+' :: text => (unsigned16 text).map fun v => (v : ℤ)
  | text => (unsigned16 text).map fun v => (v : ℤ)

/-- `text.strip()`. -/
def strip (text : List Char) : List Char := (text.dropWhile isSpace).rdropWhile isSpace

/-- `int(text, 16)`. -/
def int16 (text : List Char) : Py ℤ :=
  match signed16 (strip text) with
  | some v => .ok v
  | none => .error .valueError

/-- `"%08x" % v`. -/
def hex8 (v : ℕ) : List Char := (Nat.toDigits 16 v).leftpad 8 '0'

/-- `struct.pack("<I", v)`. -/
def packU32 (v : ℤ) : Py Bytes := if v < 0 then .error .structError else u32 v.toNat

/-! ### The job -/

/-- The members of `mining.notify` that a header is built from, and the id. -/
structure Job where
  jobId : List Char
  prevhash : List Char
  coinb1 : List Char
  coinb2 : List Char
  merkleBranch : List (List Char)
  version : List Char
  nbits : List Char
  ntime : List Char

/-- Stratum sends prevhash as eight 4-byte words, each reversed. -/
def swap4 : Bytes → Bytes
  | a :: b :: c :: d :: rest => d :: c :: b :: a :: swap4 rest
  | last => last.reverse

variable (H : Hashes)

/-- The header, and the coinbase it commits to. -/
def buildHeader (job : Job) (extranonce1 extranonce2 : List Char) (nonce : ℤ)
    (prevTransform : Bytes → Bytes) : Py (Bytes × Bytes) := do
  let coinb1 ← unhexlify job.coinb1
  let extranonce1 ← unhexlify extranonce1
  let extranonce2 ← unhexlify extranonce2
  let coinb2 ← unhexlify job.coinb2
  let coinbase := coinb1 ++ extranonce1 ++ extranonce2 ++ coinb2
  let merkle ← job.merkleBranch.foldlM
    (fun merkle branch => do return dsha H (merkle ++ (← unhexlify branch))) (dsha H coinbase)
  let prev := prevTransform (← unhexlify job.prevhash)
  let version ← packU32 (← int16 job.version)
  let ntime ← packU32 (← int16 job.ntime)
  let nbits ← packU32 (← int16 job.nbits)
  let nonce ← packU32 nonce
  return (version ++ prev ++ merkle ++ ntime ++ nbits ++ nonce, coinbase)

/-! ### The text of numbers -/

theorem unhexlify_toHex (b : Bytes) : unhexlify (toHex b) = .ok b := by
  rw [unhexlify, ofHex_toHex]

theorem hexVal_le {c : Char} (h : (hexVal c).isSome) : 48 ≤ c.toNat := by
  have hle : ∀ {a b : Char}, a ≤ b → a.toNat ≤ b.toNat := fun h => h
  rw [hexVal] at h
  split_ifs at h with h1 h2 h3
  · exact hle h1.1
  · exact (show 48 ≤ 'a'.toNat by decide).trans (hle h2.1)
  · exact (show 48 ≤ 'A'.toNat by decide).trans (hle h3.1)
  · cases h

theorem not_isSpace_of_hexVal {c : Char} (h : (hexVal c).isSome) : ¬ isSpace c = true := by
  have hc := hexVal_le h
  rw [isSpace]
  simp only [Bool.or_eq_true, decide_eq_true_eq]
  rintro (((((rfl | rfl) | rfl) | rfl) | he) | he)
  · exact absurd hc (by decide)
  · exact absurd hc (by decide)
  · exact absurd hc (by decide)
  · exact absurd hc (by decide)
  · omega
  · omega

/-- Digits have no space around them. -/
theorem strip_of_isHex {text : List Char} (h : IsHex text) : strip text = text := by
  have hfront : text.dropWhile isSpace = text := by
    rw [List.dropWhile_eq_self_iff]
    exact fun hl => not_isSpace_of_hexVal (h _ (List.getElem_mem hl))
  rw [strip, hfront, List.rdropWhile_eq_self_iff]
  exact fun hl => not_isSpace_of_hexVal (h _ (List.getLast_mem hl))

theorem digits16_cons {c : Char} {d : ℕ} (hc : hexVal c = some d) (v : ℕ) (digit : Bool)
    (rest : List Char) : digits16 v digit (c :: rest) = digits16 (16 * v + d) true rest := by
  have hne : c ≠ '_' := by
    rintro rfl
    cases hc
  rw [digits16, if_neg hne, hc]

theorem digits16_toHex (b : Bytes) (v : ℕ) (digit : Bool) (h : b ≠ [] ∨ digit) :
    digits16 v digit (toHex b) = some (v * 256 ^ b.length + leNat b.reverse) := by
  induction b generalizing v digit with
  | nil =>
      have hdigit : digit = true := h.resolve_left fun hne => hne rfl
      rw [toHex, digits16, if_pos hdigit, List.length_nil, pow_zero, mul_one, List.reverse_nil]
      rfl
  | cons x b ih =>
      have hx : x.toNat < 256 := x.toNat_lt
      rw [toHex, digits16_cons (hexVal_hexDigit (by omega)),
        digits16_cons (hexVal_hexDigit (by omega)), ih _ _ (.inr rfl), List.reverse_cons,
        leNat_append, List.length_reverse, List.length_cons, pow_succ]
      have hsplit : 16 * (16 * v + x.toNat / 16) + x.toNat % 16 = 256 * v + x.toNat := by omega
      have hone : leNat [x] = x.toNat := by simp [leNat]
      rw [hsplit, hone]
      congr 1
      ring

/-- Digits have no prefix and no sign. -/
theorem signed16_of_isHex {text : List Char} (h : IsHex text) :
    signed16 text = (digits16 0 false text).map fun v => (v : ℤ) := by
  have hnone : ∀ c ∈ text, hexVal c ≠ none := fun c hc =>
    Option.isSome_iff_ne_none.mp (h c hc)
  have hprefix : ¬ hasPrefix text = true := by
    rw [hasPrefix.eq_def]
    split
    · rw [Bool.or_eq_true, decide_eq_true_eq, decide_eq_true_eq]
      rintro (rfl | rfl)
      · exact hnone 'x' (by simp) rfl
      · exact hnone 'X' (by simp) rfl
    · exact Bool.false_ne_true
  rw [signed16.eq_def]
  split
  · exact absurd rfl (hnone '-' List.mem_cons_self)
  · exact absurd rfl (hnone '+' List.mem_cons_self)
  · rw [unsigned16, if_neg hprefix]

/-- A number written in so many bytes of hexadecimal text, most significant first. -/
theorem int16_toHex {b : Bytes} (h : b ≠ []) : int16 (toHex b) = .ok (leNat b.reverse : ℤ) := by
  have hdigits := digits16_toHex b 0 false (.inl h)
  rw [Nat.zero_mul, Nat.zero_add] at hdigits
  rw [int16, strip_of_isHex (isHex_toHex b), signed16_of_isHex (isHex_toHex b), hdigits]
  rfl

/-- Eight digits are the text of four bytes. -/
theorem hex8_eq {v : ℕ} (h : v < 2 ^ 32) : hex8 v = toHex (leBytes 4 v).reverse :=
  (leftpad_toDigits (by decide) h).trans (hexFixed_eq_toHex 4 v)

/-- What was written with eight digits is read back. -/
theorem int16_hex8 {v : ℕ} (h : v < 2 ^ 32) : int16 (hex8 v) = .ok (v : ℤ) := by
  have hne : (leBytes 4 v).reverse ≠ [] := by
    rw [← List.length_pos_iff, List.length_reverse, length_leBytes]
    decide
  rw [hex8_eq h, int16_toHex hne, List.reverse_reverse, leNat_leBytes h]

theorem packU32_natCast {v : ℕ} (h : v < 2 ^ 32) : packU32 (v : ℤ) = .ok (leBytes 4 v) := by
  rw [packU32, if_neg (by omega), Int.toNat_natCast, u32, if_pos h]

theorem packU32_int16 (v : UInt32) : (int16 (hex8 v.toNat) >>= packU32) = .ok (u32le v) := by
  rw [int16_hex8 v.toNat_lt, py_ok_bind, packU32_natCast v.toNat_lt]
  rfl

/-! ### The header of a job -/

/-- The block that a job asks for, all but its nonces. -/
structure Template where
  version : UInt32
  prevBlockhash : BlockHash
  /-- What stands behind the coinbase. -/
  txids : List (Arr 32)
  time : UInt32
  bits : UInt32
  coinb1 : Bytes
  coinb2 : Bytes

namespace Template

variable (t : Template)

/-- The job as a server puts it into words; it does not know the coinbase. -/
def job (jobId : List Char) : Job where
  jobId := jobId
  prevhash := toHex ((RecordFile.chunks 4 8 t.prevBlockhash.toList).map List.reverse).flatten
  coinb1 := toHex t.coinb1
  coinb2 := toHex t.coinb2
  merkleBranch := (Merkle.branch (combine H) ([] :: txLeaves t.txids) 0).map toHex
  version := hex8 t.version.toNat
  nbits := hex8 t.bits.toNat
  ntime := hex8 t.time.toNat

/-- The coinbase of the template with extranonces. -/
def coinbase (extranonce1 extranonce2 : Bytes) : Bytes :=
  t.coinb1 ++ extranonce1 ++ extranonce2 ++ t.coinb2

/-- The transactions of the block. -/
def blockTxids (extranonce1 extranonce2 : Bytes) : List (Arr 32) :=
  H.sha256 (H.sha256 (t.coinbase extranonce1 extranonce2)).toList :: t.txids

/-- The header of a block of the template. -/
def header (root : Arr 32) (nonce : UInt32) : HeaderV1 where
  version := t.version.toInt32
  prevBlockhash := t.prevBlockhash
  merkleRoot := root
  time := t.time
  bits := t.bits
  nonce := nonce

end Template

theorem swap4_flatten {ws : List Bytes} (h : RecordFile.Uniform 4 ws) :
    swap4 (ws.map List.reverse).flatten = ws.flatten := by
  induction ws with
  | nil => rfl
  | cons w ws ih =>
      obtain ⟨hw, hws⟩ := List.forall_mem_cons.mp h
      obtain ⟨a, b, c, d, rfl⟩ := List.length_eq_four.mp hw
      rw [List.map_cons, List.flatten_cons, List.flatten_cons, ← ih hws]
      rfl

/-- The words come out in their own order. -/
theorem swap4_prevhash (hash : Arr 32) :
    swap4 ((RecordFile.chunks 4 8 hash.toList).map List.reverse).flatten = hash.toList := by
  have hlen : 8 * 4 = hash.toList.length := hash.toList_length.symm
  rw [swap4_flatten (RecordFile.uniform_chunks hlen.le), RecordFile.flatten_chunks hlen]

theorem foldlM_branch (branch : List Bytes) (merkle : Bytes) :
    (branch.map toHex).foldlM
        (fun merkle branch => do return dsha H (merkle ++ (← unhexlify branch))) merkle
      = (.ok (branch.foldl (combine H) merkle) : Py Bytes) := by
  induction branch generalizing merkle with
  | nil => rfl
  | cons b branch ih =>
      rw [List.map_cons, List.foldlM_cons, unhexlify_toHex, List.foldl_cons]
      exact ih _

/-- All of the header but the nonce. -/
def headerFront (job : Job) (extranonce1 extranonce2 : List Char)
    (prevTransform : Bytes → Bytes) : Py (Bytes × Bytes) := do
  let coinb1 ← unhexlify job.coinb1
  let extranonce1 ← unhexlify extranonce1
  let extranonce2 ← unhexlify extranonce2
  let coinb2 ← unhexlify job.coinb2
  let coinbase := coinb1 ++ extranonce1 ++ extranonce2 ++ coinb2
  let merkle ← job.merkleBranch.foldlM
    (fun merkle branch => do return dsha H (merkle ++ (← unhexlify branch))) (dsha H coinbase)
  let prev := prevTransform (← unhexlify job.prevhash)
  let version ← packU32 (← int16 job.version)
  let ntime ← packU32 (← int16 job.ntime)
  let nbits ← packU32 (← int16 job.nbits)
  return (version ++ prev ++ merkle ++ ntime ++ nbits, coinbase)

variable {H}

/-- The nonce comes last. -/
theorem buildHeader_eq (job : Job) (extranonce1 extranonce2 : List Char) (nonce : ℤ)
    (prevTransform : Bytes → Bytes) :
    buildHeader H job extranonce1 extranonce2 nonce prevTransform = do
      let (front, coinbase) ← headerFront H job extranonce1 extranonce2 prevTransform
      return (front ++ (← packU32 nonce), coinbase) := by
  simp only [buildHeader, headerFront, bind_assoc, pure_bind]

theorem length_swap4 (b : Bytes) : (swap4 b).length = b.length := by
  induction b using swap4.induct with
  | case1 a b c d rest ih =>
      rw [swap4, List.length_cons, List.length_cons, List.length_cons, List.length_cons, ih]
      rfl
  | case2 last hshort =>
      rw [swap4.eq_2 _ hshort, List.length_reverse]

theorem length_of_packU32 {v : ℤ} {b : Bytes} (h : packU32 v = .ok b) : b.length = 4 := by
  rw [packU32, u32] at h
  split_ifs at h
  cases h
  exact length_leBytes 4 _

theorem length_foldlM {branch : List (List Char)} {merkle root : Bytes}
    (h : branch.foldlM
      (fun merkle branch => do return dsha H (merkle ++ (← unhexlify branch))) merkle
        = (.ok root : Py Bytes)) (hlen : merkle.length = 32) : root.length = 32 := by
  induction branch generalizing merkle with
  | nil =>
      cases h
      exact hlen
  | cons b branch ih =>
      rw [List.foldlM_cons] at h
      obtain ⟨next, hnext, h⟩ := except_bind_eq_ok.mp h
      obtain ⟨sibling, -, hnext⟩ := except_bind_eq_ok.mp hnext
      cases hnext
      exact ih h (length_dsha H _)

/-- With a previous hash of the right length, the nonce stands in the last of 80 bytes. -/
theorem length_headerFront {job : Job} {extranonce1 extranonce2 : List Char}
    {front coinbase prev : Bytes} (hprev : unhexlify job.prevhash = .ok prev)
    (hlen : prev.length = 32)
    (h : headerFront H job extranonce1 extranonce2 swap4 = .ok (front, coinbase)) :
    front.length = 76 := by
  obtain ⟨coinb1, -, h⟩ := except_bind_eq_ok.mp h
  obtain ⟨e1, -, h⟩ := except_bind_eq_ok.mp h
  obtain ⟨e2, -, h⟩ := except_bind_eq_ok.mp h
  obtain ⟨coinb2, -, h⟩ := except_bind_eq_ok.mp h
  obtain ⟨merkle, hmerkle, h⟩ := except_bind_eq_ok.mp h
  obtain ⟨prev', hprev', h⟩ := except_bind_eq_ok.mp h
  obtain rfl : prev = prev' := Except.ok.inj (hprev.symm.trans hprev')
  obtain ⟨v, -, h⟩ := except_bind_eq_ok.mp h
  obtain ⟨version, hversion, h⟩ := except_bind_eq_ok.mp h
  obtain ⟨v, -, h⟩ := except_bind_eq_ok.mp h
  obtain ⟨ntime, hntime, h⟩ := except_bind_eq_ok.mp h
  obtain ⟨v, -, h⟩ := except_bind_eq_ok.mp h
  obtain ⟨nbits, hnbits, h⟩ := except_bind_eq_ok.mp h
  cases h
  rw [List.length_append, List.length_append, List.length_append, List.length_append,
    length_swap4, hlen, length_foldlM hmerkle (length_dsha H _), length_of_packU32 hversion,
    length_of_packU32 hntime, length_of_packU32 hnbits]

theorem buildHeader_of_front {job : Job} {extranonce1 extranonce2 : List Char}
    {prevTransform : Bytes → Bytes} {front coinbase : Bytes}
    (h : headerFront H job extranonce1 extranonce2 prevTransform = .ok (front, coinbase))
    {nonce : ℕ} (hnonce : nonce < 2 ^ 32) :
    buildHeader H job extranonce1 extranonce2 nonce prevTransform
      = .ok (front ++ leBytes 4 nonce, coinbase) := by
  rw [buildHeader_eq, h, py_ok_bind, packU32_natCast hnonce]
  rfl

theorem exists_front {job : Job} {extranonce1 extranonce2 : List Char} {nonce : ℤ}
    {prevTransform : Bytes → Bytes} {header coinbase : Bytes}
    (h : buildHeader H job extranonce1 extranonce2 nonce prevTransform = .ok (header, coinbase)) :
    ∃ front tail, headerFront H job extranonce1 extranonce2 prevTransform = .ok (front, coinbase)
      ∧ header = front ++ tail := by
  rw [buildHeader_eq] at h
  obtain ⟨⟨front, coinbase'⟩, hfront, h⟩ := except_bind_eq_ok.mp h
  obtain ⟨tail, -, h⟩ := except_bind_eq_ok.mp h
  cases h
  exact ⟨front, tail, hfront, rfl⟩

/-- The header of a template's job, up to the nonce. -/
theorem headerFront_job (t : Template) (jobId : List Char) (extranonce1 extranonce2 : Bytes) :
    headerFront H (t.job H jobId) (toHex extranonce1) (toHex extranonce2) swap4
      = .ok (u32le t.version ++ t.prevBlockhash.toList
          ++ (Merkle.branch (combine H) ([] :: txLeaves t.txids) 0).foldl (combine H)
            (dsha H (t.coinbase extranonce1 extranonce2))
          ++ u32le t.time ++ u32le t.bits, t.coinbase extranonce1 extranonce2) := by
  simp only [headerFront, Template.job]
  rw [unhexlify_toHex, py_ok_bind, unhexlify_toHex, py_ok_bind, unhexlify_toHex, py_ok_bind,
    unhexlify_toHex, py_ok_bind, foldlM_branch, py_ok_bind, unhexlify_toHex, py_ok_bind,
    ← bind_assoc, packU32_int16, py_ok_bind, ← bind_assoc, packU32_int16, py_ok_bind,
    ← bind_assoc, packU32_int16, py_ok_bind, swap4_prevhash]
  rfl

/-- The branch leads to the root over the coinbase and the other transactions. -/
theorem root_blockTxids (t : Template) (extranonce1 extranonce2 : Bytes) :
    Merkle.root (combine H) (txLeaves (t.blockTxids H extranonce1 extranonce2))
      = some ((Merkle.branch (combine H) ([] :: txLeaves t.txids) 0).foldl (combine H)
        (dsha H (t.coinbase extranonce1 extranonce2))) := by
  have hbranch : Merkle.branch (combine H) ([] :: txLeaves t.txids) 0
      = Merkle.branch (combine H) (txLeaves (t.blockTxids H extranonce1 extranonce2)) 0 :=
    Merkle.branch_zero _ _ _ _
  have hpos : 0 < (txLeaves (t.blockTxids H extranonce1 extranonce2)).length := Nat.succ_pos _
  have hleaf : (txLeaves (t.blockTxids H extranonce1 extranonce2))[0]
      = dsha H (t.coinbase extranonce1 extranonce2) := rfl
  rw [Merkle.root_eq_fold hpos, Merkle.fold_zero, hleaf, hbranch]

/-- **The header of a job is the header of the block**: it commits to the
coinbase that was put together and to the transactions that the job did not
name. -/
theorem buildHeader_template (H : Hashes) (t : Template) (jobId : List Char)
    (extranonce1 extranonce2 : Bytes) (nonce : UInt32) :
    ∃ root,
      buildHeader H (t.job H jobId) (toHex extranonce1) (toHex extranonce2) nonce.toNat swap4
          = .ok ((t.header root nonce).serialize, t.coinbase extranonce1 extranonce2)
        ∧ VerifyHeaderV2.merkleRoot H ((t.blockTxids H extranonce1 extranonce2).map displayText)
          = .ok (some (displayText root)) := by
  have hroot := root_blockTxids (H := H) t extranonce1 extranonce2
  have hlen := Merkle.of_root (P := fun b : Bytes => b.length = 32) (length_combine H)
    (length_txLeaves _) hroot
  refine ⟨⟨_, hlen⟩, ?_, merkleRoot_eq hroot⟩
  rw [buildHeader_of_front (headerFront_job t jobId extranonce1 extranonce2) nonce.toNat_lt]
  simp [HeaderV1.serialize, HeaderV1.fields, Template.header, u32le]

end Stratum

end PrunedElectrs
