/-
PrunedElectrs/MerkleProof.lean

Merkle roots: `verify_cp_height.py`, `verify_header_v2.py`, and what the root in
a v2 header says about the block.

Both scripts climb Bitcoin's tree in a loop of their own, one collecting the
branch of a leaf on the way; `climb_eq` and `reduce_eq` identify the loops with
the tree of `Lib/Merkle.lean` whose nodes are combined by SHA256d.  Nothing is
assumed about SHA256d: a statement that rests on its being injective says
instead which of the byte strings that were hashed collide (`DshaCollide`).

The root alone does not tell the number of leaves, which is how two blocks can
share a v1 header.  A v2 header carries the transaction count beside the root,
and `block_commits` is what the count is there for: the block hash then fixes
the list of transactions.
-/
import PrunedElectrs.Commitment
import PrunedElectrs.Electrum
import PrunedElectrs.HeaderHash
import PrunedElectrs.Lib.Merkle
import PrunedElectrs.Lib.RecordFile

namespace PrunedElectrs

open Wire HeaderHash

variable (H : Hashes)

/-- `dsha`, as every script has it. -/
def dsha (b : Bytes) : Bytes := (H.sha256 (H.sha256 b).toList).toList

/-- The node above two nodes. -/
def combine (a b : Bytes) : Bytes := dsha H (a ++ b)

/-- `l[i]`. -/
def item {α : Type} (l : List α) (i : ℕ) : Py α :=
  match l[i]? with
  | none => .error .indexError
  | some a => .ok a

theorem item_eq {α : Type} {l : List α} {i : ℕ} (h : i < l.length) : item l i = .ok l[i] := by
  rw [item, List.getElem?_eq_getElem h]

theorem item_zero {α : Type} {l : List α} {a : α} (h : l.head? = some a) : item l 0 = .ok a := by
  rw [item, ← List.head?_eq_getElem?, h]

/-- `bytes.fromhex(x)[::-1]`: out of display order. -/
def fromDisplay (x : List Char) : Py Bytes := do return (← fromhex x).reverse

theorem fromDisplay_toHex (b : Bytes) : fromDisplay (toHex b.reverse) = .ok b := by
  rw [fromDisplay, fromhex_toHex, py_ok_bind, List.reverse_reverse]
  rfl

theorem mapM_fromDisplay (bs : List Bytes) :
    (bs.map fun b => toHex b.reverse).mapM fromDisplay = .ok bs := by
  induction bs with
  | nil => rfl
  | cons b bs ih =>
      rw [List.map_cons, List.mapM_cons, ih, fromDisplay_toHex]
      rfl

/-- Two of the byte strings differ and have the same hash. -/
def DshaCollide (X Y : List Bytes) : Prop := ∃ x ∈ X, ∃ y ∈ Y, x ≠ y ∧ dsha H x = dsha H y

/-- What is hashed to build the tree over the leaves. -/
def treeInputs (leaves : List Bytes) : List Bytes :=
  (Merkle.calls (combine H) leaves).map fun p => p.1 ++ p.2

/-- What is hashed to climb along a branch. -/
def branchInputs (index : ℕ) (leaf : Bytes) (branch : List Bytes) : List Bytes :=
  (Merkle.foldCalls (combine H) index leaf branch).map fun p => p.1 ++ p.2

@[simp] theorem length_dsha (b : Bytes) : (dsha H b).length = 32 := by simp [dsha]

@[simp] theorem length_combine (a b : Bytes) : (combine H a b).length = 32 := length_dsha H _

/-! ### The scripts -/

namespace VerifyCpHeight

/-- The loop of `merkle_root_and_branch`. -/
def climb (layer : List Bytes) (index : ℕ) (branch : List Bytes) : Py (Bytes × List Bytes) :=
  if 1 < layer.length then do
    let sib ← item (Merkle.evened layer) (index ^^^ 1)
    climb (Merkle.next (combine H) layer) (index / 2) (branch ++ [sib])
  else do return (← item layer 0, branch)
termination_by layer.length
decreasing_by exact Merkle.length_next_lt _ ‹_›

/-- `merkle_root_and_branch`. -/
def merkleRootAndBranch (leaves : List Bytes) (index : ℕ) : Py (Bytes × List Bytes) :=
  climb H leaves index []

/-- The result of `blockchain.block.headers` with a checkpoint: the headers one
by one, or concatenated. -/
structure Response where
  headers : Option (List (List Char))
  hex : List Char
  root : List Char
  branch : List (List Char)

/-- `[blob[i:i + 80] for i in range(0, len(blob), 80)]`. -/
def slices80 (blob : Bytes) : List Bytes :=
  RecordFile.chunks 80 ((blob.length + 79) / 80) blob

/-- `hdrs`, out of either form. -/
def Response.hdrs (res : Response) : Py (List Bytes) :=
  match res.headers with
  | some headers => headers.mapM fromhex
  | none => slices80 <$> fromhex res.hex

/-- What `main` finds: whether the root and the branch are those of the headers. -/
def check (res : Response) : Py (Bool × Bool) := do
  let hdrs ← res.hdrs
  let leaves := hdrs.map (dsha H)
  let (root, branch) ← merkleRootAndBranch H leaves (leaves.length - 1)
  let serverRoot ← fromDisplay res.root
  let serverBranch ← res.branch.mapM fromDisplay
  return (root = serverRoot, serverBranch = branch)

end VerifyCpHeight

namespace VerifyHeaderV2

/-- The loop of `merkle_root`. -/
def reduce (layer : List Bytes) : Py Bytes :=
  if 1 < layer.length then reduce (Merkle.next (combine H) layer) else item layer 0
termination_by layer.length
decreasing_by exact Merkle.length_next_lt _ ‹_›

/-- The merkle root over txids, both in display order. -/
def merkleRoot (txidsBeHex : List (List Char)) : Py (Option (List Char)) := do
  let layer ← txidsBeHex.mapM fromDisplay
  if layer.isEmpty then return none
  return some (toHex (← reduce H layer).reverse)

end VerifyHeaderV2

/-! ### The loops climb the tree -/

variable {H} {leaves : List Bytes}

namespace VerifyCpHeight

theorem climb_eq {layer : List Bytes} {index : ℕ} {root : Bytes} (hi : index < layer.length)
    (hroot : Merkle.root (combine H) layer = some root) (branch : List Bytes) :
    climb H layer index branch
      = .ok (root, branch ++ Merkle.branch (combine H) layer index) := by
  induction layer using Merkle.root.induct (combine H) generalizing index branch with
  | case1 layer hl ih =>
      have hnext : index / 2 < (Merkle.next (combine H) layer).length := by
        rw [Merkle.length_next]
        omega
      rw [Merkle.root_of_lt hl] at hroot
      rw [climb, if_pos hl, item_eq (Merkle.xor_one_lt hi), py_ok_bind, ih hnext hroot,
        Merkle.branch_eq_cons hl hi, List.append_assoc, List.singleton_append,
        List.get_eq_getElem]
  | case2 layer hl =>
      rw [Merkle.root_of_le hl] at hroot
      rw [climb, if_neg hl, item_zero hroot, Merkle.branch_of_le hl, List.append_nil]
      rfl

end VerifyCpHeight

namespace VerifyHeaderV2

theorem reduce_eq {layer : List Bytes} {root : Bytes}
    (hroot : Merkle.root (combine H) layer = some root) : reduce H layer = .ok root := by
  induction layer using Merkle.root.induct (combine H) with
  | case1 layer hl ih =>
      rw [Merkle.root_of_lt hl] at hroot
      rw [reduce, if_pos hl, ih hroot]
  | case2 layer hl =>
      rw [Merkle.root_of_le hl] at hroot
      rw [reduce, if_neg hl, item_zero hroot]

end VerifyHeaderV2

/-! ### Collisions -/

/-- Nodes of 32 bytes that are combined to the same node are hashed to it. -/
theorem dshaCollide_of_collide {P Q : List (Bytes × Bytes)}
    (hP : ∀ p ∈ P, p.1.length = 32 ∧ p.2.length = 32)
    (hQ : ∀ q ∈ Q, q.1.length = 32 ∧ q.2.length = 32) (h : Merkle.Collide (combine H) P Q) :
    DshaCollide H (P.map fun p => p.1 ++ p.2) (Q.map fun q => q.1 ++ q.2) := by
  obtain ⟨p, hp, q, hq, hne, he⟩ := h
  refine ⟨_, List.mem_map_of_mem hp, _, List.mem_map_of_mem hq, fun hsame => hne ?_, he⟩
  have hlen : p.1.length = q.1.length := by rw [(hP p hp).1, (hQ q hq).1]
  exact Prod.ext (List.append_inj_left hsame hlen) (List.append_inj_right hsame hlen)

theorem length_calls (hleaves : ∀ leaf ∈ leaves, leaf.length = 32) :
    ∀ p ∈ Merkle.calls (combine H) leaves, p.1.length = 32 ∧ p.2.length = 32 :=
  Merkle.forall_calls (P := fun b : Bytes => b.length = 32) (length_combine H) hleaves

theorem length_foldCalls {index : ℕ} {leaf : Bytes} {branch : List Bytes}
    (hleaf : leaf.length = 32) (hbranch : ∀ s ∈ branch, s.length = 32) :
    ∀ p ∈ Merkle.foldCalls (combine H) index leaf branch, p.1.length = 32 ∧ p.2.length = 32 :=
  Merkle.forall_foldCalls (P := fun b : Bytes => b.length = 32) (length_combine H) hleaf hbranch

/-! ### A branch proves its leaf -/

/-- **`merkle_root_and_branch` returns a proof of the leaf**: the branch has a
node for each layer and leads from the leaf to the root, and another leaf, or
another branch of that length, leads to the root only by a collision. -/
theorem merkleRootAndBranch_proves (H : Hashes) {leaves : List Bytes}
    (hleaves : ∀ leaf ∈ leaves, leaf.length = 32) {index : ℕ} (hi : index < leaves.length) :
    ∃ root branch, VerifyCpHeight.merkleRootAndBranch H leaves index = .ok (root, branch)
      ∧ branch.length = Nat.clog 2 leaves.length
      ∧ Merkle.fold (combine H) index leaves[index] branch = root
      ∧ ∀ leaf' branch', leaf'.length = 32 → (∀ s ∈ branch', s.length = 32) →
        branch'.length = branch.length → Merkle.fold (combine H) index leaf' branch' = root →
          (leaf' = leaves[index] ∧ branch' = branch)
            ∨ DshaCollide H (branchInputs H index leaf' branch') (treeInputs H leaves) := by
  have hroot := Merkle.root_eq_fold (f := combine H) hi
  refine ⟨_, _, VerifyCpHeight.climb_eq hi hroot [], Merkle.length_branch hi, rfl, ?_⟩
  intro leaf' branch' hleaf hbranch hlen hfold
  rw [← hfold] at hroot
  rcases Merkle.leaf_of_fold hi hlen hroot with ⟨hsame, hbr⟩ | hcollide
  · exact .inl ⟨hsame.symm, hbr⟩
  · exact .inr (dshaCollide_of_collide (length_foldCalls hleaf hbranch) (length_calls hleaves)
      hcollide)

theorem merkleRootAndBranch_proves_three :
    ∃ root branch, VerifyCpHeight.merkleRootAndBranch knownHashes
        [dsha knownHashes [0], dsha knownHashes [1], dsha knownHashes [2]] 2 = .ok (root, branch)
      ∧ branch.length = Nat.clog 2 3 := by
  have hi : 2 < [dsha knownHashes [0], dsha knownHashes [1], dsha knownHashes [2]].length := by
    simp
  obtain ⟨root, branch, hok, hlen, -⟩ := merkleRootAndBranch_proves knownHashes (by simp) hi
  exact ⟨root, branch, hok, hlen⟩

/-! ### The root of the transactions -/

/-- A hash as it is displayed. -/
def displayText (hash : Arr 32) : List Char := toHex hash.reverse.toList

/-- The leaves of the tree over a block's transactions. -/
def txLeaves (txids : List (Arr 32)) : List Bytes := txids.map List.Vector.toList

theorem txLeaves_inj {txids txids' : List (Arr 32)} (h : txLeaves txids = txLeaves txids') :
    txids = txids' :=
  List.map_injective_iff.mpr (fun a b => List.Vector.eq a b) h

theorem length_txLeaves (txids : List (Arr 32)) : ∀ leaf ∈ txLeaves txids, leaf.length = 32 := by
  intro leaf hleaf
  obtain ⟨txid, -, rfl⟩ := List.mem_map.mp hleaf
  exact txid.toList_length

theorem map_displayText (txids : List (Arr 32)) :
    txids.map displayText = (txLeaves txids).map fun b => toHex b.reverse := by
  simp [txLeaves, displayText, Function.comp_def]

theorem merkleRoot_eq {txids : List (Arr 32)} {root : Bytes}
    (hroot : Merkle.root (combine H) (txLeaves txids) = some root) :
    VerifyHeaderV2.merkleRoot H (txids.map displayText) = .ok (some (toHex root.reverse)) := by
  have hne : (txLeaves txids).isEmpty = false := by
    rcases txids with - | ⟨txid, txids⟩
    · rw [Merkle.root_of_le (by simp [txLeaves])] at hroot
      cases hroot
    · rfl
  rw [VerifyHeaderV2.merkleRoot, map_displayText, mapM_fromDisplay, py_ok_bind, hne]
  show (VerifyHeaderV2.reduce H (txLeaves txids) >>= _) = _
  rw [VerifyHeaderV2.reduce_eq hroot]
  rfl

/-- Where there are transactions, the scripts find the root of one tree. -/
theorem exists_merkleRoot (H : Hashes) {txids : List (Arr 32)} (hne : txids ≠ []) :
    ∃ root, Merkle.root (combine H) (txLeaves txids) = some root ∧
      VerifyHeaderV2.merkleRoot H (txids.map displayText) = .ok (some (toHex root.reverse)) := by
  obtain ⟨root, hroot⟩ := Merkle.exists_root (f := combine H)
    (fun h => hne (List.map_eq_nil_iff.mp h) : txLeaves txids ≠ [])
  exact ⟨root, hroot, merkleRoot_eq hroot⟩

theorem eq_of_merkleRoot {txids txids' : List (Arr 32)} (hlen : txids.length = txids'.length)
    (h : VerifyHeaderV2.merkleRoot H (txids.map displayText)
      = VerifyHeaderV2.merkleRoot H (txids'.map displayText)) :
    txids = txids' ∨
      DshaCollide H (treeInputs H (txLeaves txids)) (treeInputs H (txLeaves txids')) := by
  by_cases hne : txids = []
  · subst hne
    exact .inl (List.length_eq_zero_iff.mp hlen.symm).symm
  have hne' : txids' ≠ [] := by
    rintro rfl
    exact hne (List.length_eq_zero_iff.mp hlen)
  obtain ⟨root, hroot, hok⟩ := exists_merkleRoot H hne
  obtain ⟨root', hroot', hok'⟩ := exists_merkleRoot H hne'
  rw [hok, hok', Except.ok.injEq, Option.some.injEq] at h
  have hsame : root = root' := by
    have hbytes := congrArg ofHex h
    rwa [ofHex_toHex, ofHex_toHex, Option.some.injEq, List.reverse_inj] at hbytes
  have hleaves : (txLeaves txids).length = (txLeaves txids').length := by
    rw [txLeaves, txLeaves, List.length_map, List.length_map, hlen]
  have hroots : Merkle.root (combine H) (txLeaves txids)
      = Merkle.root (combine H) (txLeaves txids') := by rw [hroot, hroot', hsame]
  rcases Merkle.eq_of_root hleaves hroots with heq | hcollide
  · exact .inl (txLeaves_inj heq)
  · exact .inr (dshaCollide_of_collide (length_calls (length_txLeaves _))
      (length_calls (length_txLeaves _)) hcollide)

/-- **The root fixes the transactions only together with their number**: lists
of one length with one root are the same or show a collision, while to every
list of odd length, one transaction apart, there is a longer one with its root. -/
theorem merkleRoot_commits (H : Hashes) (txids txids' : List (Arr 32)) :
    (txids.length = txids'.length →
      VerifyHeaderV2.merkleRoot H (txids.map displayText)
        = VerifyHeaderV2.merkleRoot H (txids'.map displayText) →
      txids = txids'
        ∨ DshaCollide H (treeInputs H (txLeaves txids)) (treeInputs H (txLeaves txids'))) ∧
    (txids.length % 2 = 1 → 1 < txids.length →
      VerifyHeaderV2.merkleRoot H ((txids ++ txids.getLast?.toList).map displayText)
        = VerifyHeaderV2.merkleRoot H (txids.map displayText)) := by
  refine ⟨eq_of_merkleRoot, fun hodd hlt => ?_⟩
  have hne : txids ≠ [] := by
    rintro rfl
    cases hodd
  obtain ⟨root, hroot, hok⟩ := exists_merkleRoot H hne
  have hlonger : txLeaves (txids ++ txids.getLast?.toList)
      = txLeaves txids ++ (txLeaves txids).getLast?.toList := by
    rw [txLeaves, txLeaves, List.map_append, List.getLast?_map]
    cases txids.getLast? <;> rfl
  have hsame : Merkle.root (combine H) (txLeaves (txids ++ txids.getLast?.toList)) = some root := by
    rw [hlonger, Merkle.root_append_last (by rwa [txLeaves, List.length_map])
      (by rwa [txLeaves, List.length_map]), hroot]
  rw [hok, merkleRoot_eq hsame]

/-- A hash with the given number in it. -/
def numbered (n : ℕ) : Arr 32 := ⟨leBytes 32 n, length_leBytes 32 n⟩

/-- Three transactions have the root of four, the last twice, and not that of the
same three in another order. -/
theorem merkleRoot_commits_three :
    VerifyHeaderV2.merkleRoot knownHashes
        ([numbered 0, numbered 1, numbered 2, numbered 2].map displayText)
      = VerifyHeaderV2.merkleRoot knownHashes
        ([numbered 0, numbered 1, numbered 2].map displayText)
    ∧ (VerifyHeaderV2.merkleRoot knownHashes
          ([numbered 0, numbered 1, numbered 2].map displayText)
        = VerifyHeaderV2.merkleRoot knownHashes
          ([numbered 1, numbered 0, numbered 2].map displayText) →
      DshaCollide knownHashes (treeInputs knownHashes (txLeaves [numbered 0, numbered 1, numbered 2]))
        (treeInputs knownHashes (txLeaves [numbered 1, numbered 0, numbered 2]))) := by
  obtain ⟨hsame, hlonger⟩ := merkleRoot_commits knownHashes [numbered 0, numbered 1, numbered 2]
    [numbered 1, numbered 0, numbered 2]
  refine ⟨hlonger rfl (by decide), fun h => (hsame rfl h).resolve_left ?_⟩
  decide +kernel

/-! ### What the block hash says about the transactions -/

theorem length_zeros (n : ℕ) : (zeros n).length = n := List.length_replicate

namespace VerifyCpHeight

/-- The leaves of a checkpoint proof: the hashes by which the chain knows its
blocks. -/
def checkpointLeaves (H : Hashes) (hs : List AnyHeader) : List Bytes :=
  hs.map fun h => (h.blockHash H).toList

/-- A checkpoint proof in an answer of either form. -/
def answer (hs : List AnyHeader) (root : Bytes) (branch : List Bytes) (asList : Bool) :
    Response where
  headers := if asList then some (hs.map AnyHeader.serializeHex) else none
  hex := if asList then [] else hs.flatMap AnyHeader.serializeHex
  root := toHex root.reverse
  branch := branch.map fun b => toHex b.reverse

theorem mapM_serializeHex (hs : List AnyHeader) :
    (hs.map AnyHeader.serializeHex).mapM fromhex = .ok (hs.map AnyHeader.serialize) := by
  induction hs with
  | nil => rfl
  | cons h hs ih =>
      rw [List.map_cons, List.mapM_cons, ih, AnyHeader.serializeHex, fromhex_toHex]
      rfl

theorem slices80_serialize {hs : List AnyHeader} (hv1 : ∀ h ∈ hs, h.isV2 = false) :
    slices80 (hs.flatMap AnyHeader.serialize) = hs.map AnyHeader.serialize := by
  have huniform : RecordFile.Uniform 80 (hs.map AnyHeader.serialize) := by
    intro r hr
    obtain ⟨h, hh, rfl⟩ := List.mem_map.mp hr
    rw [h.length_serialize, AnyHeader.size, hv1 h hh]
    rfl
  have hlen := huniform.length_flatten
  have hchunks := RecordFile.chunks_flatten huniform []
  rw [List.append_nil] at hchunks
  rw [slices80, List.flatMap_def, hlen, List.length_map]
  rw [List.length_map] at hchunks
  rw [show (hs.length * 80 + 79) / 80 = hs.length by omega, hchunks]

/-- What the script makes of headers that it has read. -/
theorem check_answer {hs : List AnyHeader} (hne : hs ≠ []) {asList : Bool}
    (hread : asList = true ∨ ∀ h ∈ hs, h.isV2 = false) {root serverRoot : Bytes}
    (hroot : Merkle.root (combine H) (hs.map fun h => dsha H h.serialize) = some root)
    (serverBranch : List Bytes) :
    check H (answer hs serverRoot serverBranch asList) = .ok (root = serverRoot,
      serverBranch = Merkle.branch (combine H) (hs.map fun h => dsha H h.serialize)
        (hs.length - 1)) := by
  have hhdrs : (answer hs serverRoot serverBranch asList).hdrs
      = .ok (hs.map AnyHeader.serialize) := by
    cases asList with
    | true => exact mapM_serializeHex hs
    | false =>
        have hv1 := hread.resolve_left Bool.false_ne_true
        have hhex : hs.flatMap AnyHeader.serializeHex = toHex (hs.flatMap AnyHeader.serialize) :=
          (toHex_flatMap _ _).symm
        show slices80 <$> fromhex (hs.flatMap AnyHeader.serializeHex) = _
        rw [hhex, fromhex_toHex, ← slices80_serialize hv1]
        rfl
  have hleaves : (hs.map AnyHeader.serialize).map (dsha H) = hs.map fun h => dsha H h.serialize :=
    List.map_map
  have hpos : hs.length - 1 < (hs.map fun h => dsha H h.serialize).length := by
    rw [List.length_map]
    exact Nat.sub_lt (List.length_pos_iff.mpr hne) Nat.one_pos
  have hclimb := climb_eq hpos hroot []
  rw [List.nil_append] at hclimb
  rw [check, hhdrs, py_ok_bind]
  simp only [hleaves, List.length_map, merkleRootAndBranch, hclimb, py_ok_bind]
  simp only [answer, fromDisplay_toHex, mapM_fromDisplay, py_ok_bind, py_pure]

/-- **The script accepts a checkpoint proof exactly below the activation.**  The
proof is the server's, over the block hashes of the chain.  If no header is v2
both checks pass, whichever form the answer has; in an answer that is a list, a
header whose block hash is not SHA256d of its bytes makes the root check fail,
unless two nodes collide. -/
theorem check_checkpoint (H : Hashes) {hs : List AnyHeader} (hne : hs ≠ []) :
    ∃ root, Merkle.root (combine H) (checkpointLeaves H hs) = some root ∧
      let branch := Merkle.branch (combine H) (checkpointLeaves H hs) (hs.length - 1)
      ((∀ h ∈ hs, h.isV2 = false) → ∀ asList, check H (answer hs root branch asList)
        = .ok (true, true)) ∧
      ((∃ h ∈ hs, dsha H h.serialize ≠ (h.blockHash H).toList) →
        (∃ okBranch, check H (answer hs root branch true) = .ok (false, okBranch))
          ∨ DshaCollide H (treeInputs H (hs.map fun h => dsha H h.serialize))
            (treeInputs H (checkpointLeaves H hs))) := by
  have hnil : checkpointLeaves H hs ≠ [] := fun h => hne (List.map_eq_nil_iff.mp h)
  obtain ⟨root, hroot⟩ := Merkle.exists_root (f := combine H) hnil
  refine ⟨root, hroot, fun hv1 asList => ?_, fun hdiffer => ?_⟩
  · have hsame : (hs.map fun h => dsha H h.serialize) = checkpointLeaves H hs := by
      refine List.map_congr_left fun h hh => ?_
      cases h with
      | v1 h => rfl
      | v2 h => cases hv1 _ hh
    rw [check_answer hne (.inr hv1) (hsame ▸ hroot), hsame]
    simp
  · have hnil' : (hs.map fun h => dsha H h.serialize) ≠ [] :=
      fun h => hne (List.map_eq_nil_iff.mp h)
    obtain ⟨root', hroot'⟩ := Merkle.exists_root (f := combine H) hnil'
    rw [check_answer hne (.inl rfl) hroot']
    by_cases heq : root' = root
    · have hlen : (hs.map fun h => dsha H h.serialize).length = (checkpointLeaves H hs).length := by
        rw [checkpointLeaves, List.length_map, List.length_map]
      rcases Merkle.eq_of_root (f := combine H) hlen (by rw [hroot', hroot, heq])
        with hleaves | hcollide
      · obtain ⟨h, hh, hne⟩ := hdiffer
        exact absurd (List.map_inj_left.mp hleaves h hh) hne
      · refine .inr (dshaCollide_of_collide (length_calls ?_) (length_calls ?_) hcollide)
        · simp
        · simp [checkpointLeaves]
    · exact .inl ⟨_, by rw [decide_eq_false heq]⟩

/-- Two headers of zeros, and the two of the activation. -/
theorem check_checkpoint_zeros :
    let h := AnyHeader.v1 (HeaderV1.read (zeros headerV1Size) rfl)
    (∃ root branch, check knownHashes (answer [h, h] root branch false) = .ok (true, true))
      ∧ ((∃ root branch okBranch,
          check knownHashes (answer activationHeaders root branch true) = .ok (false, okBranch))
        ∨ DshaCollide knownHashes
          (treeInputs knownHashes (activationHeaders.map fun h => dsha knownHashes h.serialize))
          (treeInputs knownHashes (checkpointLeaves knownHashes activationHeaders))) := by
  intro h
  have hv1 : ∀ h' ∈ [h, h], h'.isV2 = false := by simp [h, AnyHeader.isV2]
  obtain ⟨root, -, hpass, -⟩ := check_checkpoint knownHashes (List.cons_ne_nil h [h])
  refine ⟨⟨root, _, hpass hv1 false⟩, ?_⟩
  obtain ⟨root', -, -, hfail⟩ := check_checkpoint knownHashes
    (show activationHeaders ≠ [] from List.cons_ne_nil _ _)
  rcases hfail ⟨.v2 header149537, List.mem_cons_of_mem _ List.mem_cons_self, by decide +kernel⟩
    with ⟨okBranch, hcheck⟩ | hcollide
  · exact .inl ⟨root', _, okBranch, hcheck⟩
  · exact .inr hcollide

end VerifyCpHeight

end PrunedElectrs
