/-
PrunedElectrs/Lookup.lean

Looking a transaction up in the blocks that may contain it.

`lookupTransaction` walks the delivered blocks one after the other with a
visitor that looks for a txid, and keeps the first transaction found.  The
visitor breaks off when it has found one, and a break reaches the caller as an
error like any other, so the caller asks the visitor only.

What the blocks say is `InBlock`: a transaction with the txid comes first, or
none of the block's has it, or the transactions cannot be read before one was
found.  The last two look alike to the caller; `lookupExact_iff` says when that
makes no difference.
-/
import PrunedElectrs.BlockTxs
import PrunedElectrs.Stages

namespace PrunedElectrs

open Wire Effects

variable {V : TxCalls}

/-! ### The visitor -/

/-- The transaction that a call is about, `txCall` saying so of the calls about
the parts of one. -/
def VisitorCall.tx (txCall : V.Call → Option Bytes) : VisitorCall V → Option Bytes
  | .transaction c => txCall c
  | _ => none

/-- `FindTransaction`, as a visitor that looks for a txid and has found a
transaction or none. -/
structure FindTransaction (V : TxCalls) (Txid : Type) where
  visit : Txid → Option Bytes → (call : VisitorCall V) → call.Answer × Option Bytes

namespace FindTransaction

variable {Txid : Type} (F : FindTransaction V Txid)

/-- What is said of the visitor: on a transaction with the txid it breaks off
and keeps it, and it goes on otherwise. -/
structure Documented (txCall : V.Call → Option Bytes) (txidOf : Bytes → Txid) : Prop where
  hit : ∀ txid found call tx, call.tx txCall = some tx → txidOf tx = txid →
    Breaks ⟨call, (F.visit txid found call).1⟩ ∧ (F.visit txid found call).2 = some tx
  pass : ∀ txid found call, (∀ tx, call.tx txCall = some tx → txidOf tx ≠ txid) →
    ¬ Breaks ⟨call, (F.visit txid found call).1⟩ ∧ (F.visit txid found call).2 = found

end FindTransaction

/-- What the documentation of `bitcoin_slices` says of the call that passes a
whole transaction to the visitor. -/
structure BitcoinSlices.DocumentedCalls (S : BitcoinSlices V) (Tx : Bytes → Prop)
    (txCall : V.Call → Option Bytes) : Prop where
  /-- The call is made with the transaction that was parsed. -/
  of_front : ∀ b es r e tx, Exec (S.visitTransaction b) es r → e ∈ es →
    e.op.tx txCall = some tx → Tx tx ∧ tx <+: b
  /-- It is made in every visit that succeeds. -/
  whole : ∀ b es k, Exec (S.visitTransaction b) es (.ok k) →
    ∃ e ∈ es, e.op.tx txCall = some (b.take k)
  /-- A visitor that breaks off gets no further call. -/
  stops : ∀ b pre e post r, Exec (S.visitTransaction b) (pre ++ e :: post) r → Breaks e → post = []
  /-- A transaction tells where it ends. -/
  self_delimiting : ∀ tx tx', Tx tx → Tx tx' → tx <+: tx' → tx = tx'

/-! ### The lookup -/

section Lookup

variable (S : BitcoinSlices V) {Txid : Type} (F : FindTransaction V Txid) (txid : Txid)

/-- The closure that is called for each delivered block. -/
def lookIn (result : Option (BlockHash × Bytes)) (blockhash : BlockHash) (block : Bytes) :
    Rust (Option (BlockHash × Bytes)) :=
  -- keep first matching transaction
  if result.isSome then .ok result
  else do
    let header ← expect "core returned an unparseable block header" (AnyHeader.parse block)
    let (r, found) := (visitBlockTxs S block header).eval (F.visit txid) none
    match r with
    | .ok () | .error (.err _) => return found.map fun tx => (blockhash, tx)
    | .error fault => .error fault

/-- The calls of the closure, one for each delivered block. -/
def lookInAll (delivered : List (BlockHash × Bytes)) : Rust (Option (BlockHash × Bytes)) :=
  delivered.foldlM (fun result b => lookIn S F txid result b.1 b.2) none

/-- `Tracker::lookup_transaction`, for the blocks that `for_blocks` delivers and
the way it ends. -/
def lookupTransaction (delivered : List (BlockHash × Bytes)) (ended : Rust Unit) :
    Rust (Option (BlockHash × Bytes)) := do
  let result ← lookInAll S F txid delivered
  ended
  return result

end Lookup

/-! ### What the blocks say -/

/-- What a search for a transaction comes to. -/
inductive SearchResult
  | found (tx : Bytes)
  | absent
  | malformed

/-- The transaction that was found. -/
def SearchResult.tx : SearchResult → Option Bytes
  | found tx => some tx
  | _ => none

/-- Searching the first `n` transactions of a string. -/
inductive InTransactions (Tx hit : Bytes → Prop) : ℕ → Bytes → SearchResult → Prop
  | done {b : Bytes} : InTransactions Tx hit 0 b .absent
  | here {n : ℕ} {tx rest : Bytes} : Tx tx → hit tx →
      InTransactions Tx hit (n + 1) (tx ++ rest) (.found tx)
  | next {n : ℕ} {tx rest : Bytes} {res : SearchResult} : Tx tx → ¬ hit tx →
      InTransactions Tx hit n rest res → InTransactions Tx hit (n + 1) (tx ++ rest) res
  | unreadable {n : ℕ} {b : Bytes} : (∀ tx, Tx tx → ¬ tx <+: b) →
      InTransactions Tx hit (n + 1) b .malformed

section Blocks

variable (S : BitcoinSlices V) (Tx hit : Bytes → Prop)

/-- The count behind the header, and where the transactions begin. -/
def CountAt (block : Bytes) (header : AnyHeader) (n at_ : ℕ) : Prop :=
  block.length > header.size ∧
    ∃ k, S.scanLen (block.drop header.size) = .ok (n, k) ∧ at_ = header.size + k

/-- Searching a block whose header can be read. -/
inductive InBlock : Bytes → SearchResult → Prop
  | counted {block : Bytes} {header : AnyHeader} {n at_ : ℕ} {res : SearchResult} :
      AnyHeader.parse block = .ok header → CountAt S block header n at_ →
      InTransactions Tx hit n (block.drop at_) res → InBlock block res
  | noCount {block : Bytes} {header : AnyHeader} :
      AnyHeader.parse block = .ok header → (∀ n at_, ¬ CountAt S block header n at_) →
      InBlock block .malformed

/-- No such transaction can be read from the block. -/
def NotIn (block : Bytes) : Prop := ∀ tx, ¬ InBlock S Tx hit block (.found tx)

/-- The lookup says what the delivered blocks say: the transaction found is the
first one with the txid, none is found only where none of the blocks has it,
and a block that cannot be read as far as to decide it is a failure. -/
structure LookupExact (delivered : List (BlockHash × Bytes))
    (result : Rust (Option (BlockHash × Bytes))) : Prop where
  found : ∀ blockhash tx, result = .ok (some (blockhash, tx)) →
    ∃ pre block post, delivered = pre ++ (blockhash, block) :: post
      ∧ InBlock S Tx hit block (.found tx) ∧ ∀ b ∈ pre, NotIn S Tx hit b.2
  absent : result = .ok none → ∀ b ∈ delivered, InBlock S Tx hit b.2 .absent
  malformed : ∀ pre b post, delivered = pre ++ b :: post →
    (∀ b' ∈ pre, NotIn S Tx hit b'.2) →
    InBlock S Tx hit b.2 .malformed → ∀ found, result ≠ .ok found

/-- The block is delivered before, or as, the first one with such a transaction. -/
def Reached (delivered : List (BlockHash × Bytes)) (b : BlockHash × Bytes) : Prop :=
  ∃ pre post, delivered = pre ++ b :: post ∧ ∀ b' ∈ pre, NotIn S Tx hit b'.2

/-- No block that the search has to look at is malformed behind its header,
unless the lookup has another reason to fail. -/
def Readable (delivered : List (BlockHash × Bytes)) (ended : Rust Unit) : Prop :=
  ended = .ok () →
    (∀ b, Reached S Tx hit delivered b → ∃ header, AnyHeader.parse b.2 = .ok header) →
    ∀ b, Reached S Tx hit delivered b → ¬ InBlock S Tx hit b.2 .malformed

/-- The calls of the closure on the delivered blocks, read off the blocks. -/
inductive Searched : List (BlockHash × Bytes) → Rust (Option (BlockHash × Bytes)) → Prop
  | nil : Searched [] (.ok none)
  | found {b : BlockHash × Bytes} {bs : List (BlockHash × Bytes)} {tx : Bytes} :
      InBlock S Tx hit b.2 (.found tx) → Searched (b :: bs) (.ok (some (b.1, tx)))
  | panicked {b : BlockHash × Bytes} {bs : List (BlockHash × Bytes)} {fault : Fault} :
      (∀ header, AnyHeader.parse b.2 ≠ .ok header) → Searched (b :: bs) (.error fault)
  | next {b : BlockHash × Bytes} {bs : List (BlockHash × Bytes)} {res : SearchResult}
      {r : Rust (Option (BlockHash × Bytes))} : InBlock S Tx hit b.2 res → res.tx = none →
      Searched bs r → Searched (b :: bs) r

end Blocks

/-! ### What the walk finds -/

section Search

variable {S : BitcoinSlices V} {Tx : Bytes → Prop} {Txid : Type} {F : FindTransaction V Txid}
  {txCall : V.Call → Option Bytes} {txidOf : Bytes → Txid} {txid : Txid}
  {es : List (VisitorEvent V)} {f f' : Option Bytes}

/-- Either nothing was found and no call was answered with a break, or the
visitor broke off at a transaction with the txid. -/
theorem answered_cases (hF : F.Documented txCall txidOf) (h : Answered (F.visit txid) f es f') :
    (f' = f ∧ ∀ e ∈ es, ¬ Breaks e ∧ ∀ tx, e.op.tx txCall = some tx → txidOf tx ≠ txid) ∨
      ∃ pre e post tx, es = pre ++ e :: post ∧ Breaks e ∧ e.op.tx txCall = some tx
        ∧ txidOf tx = txid ∧ (post = [] → f' = some tx) := by
  induction h with
  | nil => exact .inl ⟨rfl, List.forall_mem_nil _⟩
  | @cons f f' call es hrest ih =>
      by_cases hhit : ∃ tx, call.tx txCall = some tx ∧ txidOf tx = txid
      · obtain ⟨tx, hcall, htxid⟩ := hhit
        obtain ⟨hbreak, hfound⟩ := hF.hit txid f call tx hcall htxid
        refine .inr ⟨[], _, es, tx, rfl, hbreak, hcall, htxid, ?_⟩
        rintro rfl
        rw [hfound] at hrest
        cases hrest
        rfl
      · push Not at hhit
        obtain ⟨hgoes, hfound⟩ := hF.pass txid f call hhit
        rw [hfound] at ih
        rcases ih with ⟨rfl, hnone⟩ | ⟨pre, e, post, tx, rfl, hfirst⟩
        · exact .inl ⟨rfl, List.forall_mem_cons.mpr ⟨⟨hgoes, hhit⟩, hnone⟩⟩
        · exact .inr ⟨_ :: pre, e, post, tx, rfl, hfirst⟩

/-- One transaction: it is passed over, or it is the one looked for, or no
transaction stands there. -/
theorem search_transaction (hdoc : S.Documented Tx) (hcalls : S.DocumentedCalls Tx txCall)
    (hF : F.Documented txCall txidOf) {b : Bytes} {r : Except S.Error ℕ}
    (hexec : Exec (S.visitTransaction b) es r) (hanswered : Answered (F.visit txid) none es f') :
    (∃ k, r = .ok k ∧ k ≤ b.length ∧ Tx (b.take k) ∧ txidOf (b.take k) ≠ txid ∧ f' = none) ∨
      ∃ err, r = .error err ∧
        ((∃ tx, Tx tx ∧ tx <+: b ∧ txidOf tx = txid ∧ f' = some tx)
          ∨ (∀ tx, Tx tx → ¬ tx <+: b) ∧ f' = none) := by
  -- a whole transaction at the front is visited to its end unless the visitor breaks off
  have hfront : ∀ tx, Tx tx → tx <+: b → (r = .ok tx.length ∧ ∀ e ∈ es, ¬ Breaks e)
      ∨ ∃ err, r = .error err ∧ ∃ e ∈ es, Breaks e := by
    rintro tx htx ⟨rest, rfl⟩
    rw [hdoc.visitTransaction_append _ _ htx] at hexec
    exact hdoc.visitTransaction_whole _ _ _ htx hexec
  rcases answered_cases hF hanswered with ⟨rfl, hnone⟩ | ⟨pre, e, post, tx, rfl, hbreak, hcall,
    htxid, hfound⟩
  · rcases r with err | k
    · refine .inr ⟨err, rfl, .inr ⟨fun tx htx hprefix => ?_, rfl⟩⟩
      rcases hfront tx htx hprefix with ⟨hr, -⟩ | ⟨-, -, e, he, hbreak⟩
      · cases hr
      · exact (hnone e he).1 hbreak
    · obtain ⟨hk, htx⟩ := hdoc.visitTransaction_ok _ _ _ hexec
      obtain ⟨e, he, hcall⟩ := hcalls.whole _ _ _ hexec
      exact .inl ⟨k, rfl, hk, htx, (hnone e he).2 _ hcall, rfl⟩
  · have hmem : e ∈ pre ++ e :: post := List.mem_append_right _ List.mem_cons_self
    obtain ⟨htx, hprefix⟩ := hcalls.of_front _ _ _ _ _ hexec hmem hcall
    obtain rfl := hcalls.stops _ _ _ _ _ hexec hbreak
    rcases hfront tx htx hprefix with ⟨-, hgoes⟩ | ⟨err, rfl, -⟩
    · exact absurd hbreak (hgoes e hmem)
    · exact .inr ⟨err, rfl, .inl ⟨tx, htx, hprefix, htxid, hfound rfl⟩⟩

/-- The loop finds what a search of the transactions finds. -/
theorem search_visitTxs (hdoc : S.Documented Tx) (hcalls : S.DocumentedCalls Tx txCall)
    (hF : F.Documented txCall txidOf) {block : Bytes} {n i consumed : ℕ} {r : Rust Unit}
    (hc : consumed ≤ block.length) (hexec : Exec (visitTxs S block n i consumed) es r)
    (hanswered : Answered (F.visit txid) none es f') :
    ∃ res, InTransactions Tx (txidOf · = txid) n (block.drop consumed) res ∧ f' = res.tx := by
  induction n generalizing i consumed es with
  | zero =>
      obtain ⟨rfl, -⟩ := exec_pure.mp hexec
      cases hanswered
      exact ⟨.absent, .done, rfl⟩
  | succ n ih =>
      rw [visitTxs, slice_to_end hc, exec_lift_ok_bind] at hexec
      rcases exec_bind.mp hexec with ⟨e, -, hfail⟩ | ⟨es₁, es₂, read, rfl, hread, hrest⟩
      · obtain ⟨r', hvisit, hr⟩ := exec_mapError.mp hfail
        rcases search_transaction hdoc hcalls hF hvisit hanswered with ⟨k, rfl, -⟩ |
          ⟨err, rfl, ⟨tx, htx, ⟨rest, hrest⟩, htxid, rfl⟩ | ⟨hno, rfl⟩⟩
        · cases hr
        · rw [← hrest]
          exact ⟨.found tx, .here htx htxid, rfl⟩
        · exact ⟨.malformed, .unreadable hno, rfl⟩
      · obtain ⟨r', hvisit, hr⟩ := exec_mapError.mp hread
        obtain ⟨f₁, hanswered₁, hanswered₂⟩ := hanswered.of_append
        rcases search_transaction hdoc hcalls hF hvisit hanswered₁ with
          ⟨k, rfl, hk, htx, htxid, rfl⟩ | ⟨err, rfl, -⟩
        · cases hr
          rw [List.length_drop] at hk
          obtain ⟨res, hsearch, hfound⟩ := ih (by omega) hrest hanswered₂
          rw [← List.drop_drop] at hsearch
          refine ⟨res, ?_, hfound⟩
          rw [← List.take_append_drop read (block.drop consumed)]
          exact .next htx htxid hsearch
        · cases hr

/-- The walk of a block finds what a search of the block finds. -/
theorem search_visitBlockTxs (hdoc : S.Documented Tx) (hcalls : S.DocumentedCalls Tx txCall)
    (hF : F.Documented txCall txidOf) {block : Bytes} {header : AnyHeader} {r : Rust Unit}
    (hparse : AnyHeader.parse block = .ok header)
    (hexec : Exec (visitBlockTxs S block header) es r)
    (hanswered : Answered (F.visit txid) none es f') :
    ∃ res, InBlock S Tx (txidOf · = txid) block res ∧ f' = res.tx := by
  rw [visitBlockTxs] at hexec
  by_cases hlonger : block.length > header.size
  · simp only [ensure_of hlonger, slice_to_end hlonger.le, exec_lift_ok_bind] at hexec
    rcases hscan : S.scanLen (block.drop header.size) with err | ⟨n, k⟩
    · rw [hscan] at hexec
      obtain ⟨rfl, -⟩ := exec_throw.mp hexec
      cases hanswered
      refine ⟨.malformed, .noCount hparse ?_, rfl⟩
      rintro n at_ ⟨-, k, hok, -⟩
      rw [hscan] at hok
      cases hok
    · simp only [hscan, Except.mapError, exec_lift_ok_bind] at hexec
      obtain ⟨reply, es', rfl, hloop⟩ := exec_perform_bind.mp hexec
      have hk := (hdoc.scanLen_ok _ _ _ hscan).1
      rw [List.length_drop] at hk
      -- the announcement of the count finds nothing
      have hbegin := (hF.pass txid none (.blockBegin n) fun tx h => by cases h).2
      cases hanswered with
      | cons hanswered =>
          rw [hbegin] at hanswered
          obtain ⟨res, hsearch, hfound⟩ :=
            search_visitTxs hdoc hcalls hF (by omega) hloop hanswered
          exact ⟨res, .counted hparse ⟨hlonger, k, hscan, rfl⟩ hsearch, hfound⟩
  · rw [ensure_of_not hlonger] at hexec
    obtain ⟨rfl, -⟩ := exec_throw.mp hexec
    cases hanswered
    exact ⟨.malformed, .noCount hparse fun n at_ h => hlonger h.1, rfl⟩

/-! ### A search has one result -/

theorem InTransactions.unique (hcalls : S.DocumentedCalls Tx txCall) {hit : Bytes → Prop} {n : ℕ}
    {b : Bytes} {res res' : SearchResult} (h : InTransactions Tx hit n b res)
    (h' : InTransactions Tx hit n b res') : res = res' := by
  -- two transactions at the front are the same one
  have hsame : ∀ {tx tx' rest rest' : Bytes}, Tx tx → Tx tx' → tx ++ rest = tx' ++ rest' →
      tx = tx' ∧ rest = rest' := by
    intro tx tx' rest rest' htx htx' e
    have heq : tx = tx' := by
      rcases List.prefix_or_prefix_of_prefix (List.prefix_append tx rest)
        (e ▸ List.prefix_append tx' rest') with hprefix | hprefix
      · exact hcalls.self_delimiting _ _ htx htx' hprefix
      · exact (hcalls.self_delimiting _ _ htx' htx hprefix).symm
    subst heq
    exact ⟨rfl, List.append_cancel_left e⟩
  induction h generalizing res' with
  | done => cases h'; rfl
  | @here n tx rest htx hhit =>
      generalize hb : tx ++ rest = b at h'
      cases h' with
      | here htx' _ =>
          obtain ⟨rfl, -⟩ := hsame htx htx' hb
          rfl
      | next htx' hmiss _ =>
          obtain ⟨rfl, -⟩ := hsame htx htx' hb
          exact absurd hhit hmiss
      | unreadable hno => exact absurd (hb ▸ List.prefix_append tx rest) (hno tx htx)
  | @next n tx rest res htx hmiss hrest ih =>
      generalize hb : tx ++ rest = b at h'
      cases h' with
      | here htx' hhit =>
          obtain ⟨rfl, -⟩ := hsame htx htx' hb
          exact absurd hhit hmiss
      | next htx' _ hrest' =>
          obtain ⟨rfl, rfl⟩ := hsame htx htx' hb
          exact ih hrest'
      | unreadable hno => exact absurd (hb ▸ List.prefix_append tx rest) (hno tx htx)
  | unreadable hno =>
      cases h' with
      | here htx _ => exact absurd (List.prefix_append _ _) (hno _ htx)
      | next htx _ _ => exact absurd (List.prefix_append _ _) (hno _ htx)
      | unreadable _ => rfl

theorem InBlock.unique (hcalls : S.DocumentedCalls Tx txCall) {hit : Bytes → Prop}
    {block : Bytes} {res res' : SearchResult} (h : InBlock S Tx hit block res)
    (h' : InBlock S Tx hit block res') : res = res' := by
  cases h with
  | counted hparse hcount hsearch =>
      obtain ⟨hlonger, k, hscan, rfl⟩ := hcount
      cases h' with
      | counted hparse' hcount' hsearch' =>
          cases hparse.symm.trans hparse'
          obtain ⟨-, k', hscan', rfl⟩ := hcount'
          cases hscan.symm.trans hscan'
          exact hsearch.unique hcalls hsearch'
      | noCount hparse' hno =>
          cases hparse.symm.trans hparse'
          exact absurd ⟨hlonger, k, hscan, rfl⟩ (hno _ _)
  | noCount hparse hno =>
      cases h' with
      | counted hparse' hcount' _ =>
          cases hparse.symm.trans hparse'
          exact absurd hcount' (hno _ _)
      | noCount _ _ => rfl

/-! ### The lookup -/

/-- One block: it panics on a header that cannot be read, and else the search of
the block decides. -/
theorem lookIn_cases (hdoc : S.Documented Tx) (hcalls : S.DocumentedCalls Tx txCall)
    (hF : F.Documented txCall txidOf) (blockhash : BlockHash) (block : Bytes) :
    ((∀ header, AnyHeader.parse block ≠ .ok header)
        ∧ ∃ fault, lookIn S F txid none blockhash block = .error fault) ∨
      (∃ header, AnyHeader.parse block = .ok header) ∧
        ∃ res, InBlock S Tx (txidOf · = txid) block res
          ∧ lookIn S F txid none blockhash block = .ok (res.tx.map fun tx => (blockhash, tx)) := by
  rcases AnyHeader.returns_parse block with ⟨header, hparse⟩ | ⟨chain, hparse⟩
  · obtain ⟨es, hexec, hanswered⟩ := exec_eval (F.visit txid) none (visitBlockTxs S block header)
    obtain ⟨res, hsearch, hfound⟩ := search_visitBlockTxs hdoc hcalls hF hparse hexec hanswered
    have hreturns := (visitBlockTxs_returns hdoc (AnyHeader.parse_eq_ok_iff.mp hparse).2 hexec).1
    refine .inr ⟨⟨header, hparse⟩, res, hsearch, ?_⟩
    simp only [lookIn, hparse, expect, Option.isSome_none, Bool.false_eq_true, if_false, ok_bind]
    rcases hreturns with ⟨u, hr⟩ | ⟨chain, hr⟩
    · simp only [hr, hfound]
      rfl
    · simp only [hr, hfound]
      rfl
  · refine .inl ⟨fun header h => ?_, ?_⟩
    · rw [hparse] at h
      cases h
    · simp only [lookIn, hparse]
      exact ⟨_, rfl⟩

/-- What has been found is kept. -/
theorem foldlM_lookIn_some (b : BlockHash × Bytes) (bs : List (BlockHash × Bytes)) :
    bs.foldlM (fun result b => lookIn S F txid result b.1 b.2) (some b) = .ok (some b) := by
  induction bs with
  | nil => rfl
  | cons b' bs ih =>
      rw [List.foldlM_cons]
      exact ih

theorem lookInAll_found {b : BlockHash × Bytes} {bs : List (BlockHash × Bytes)} {tx : Bytes}
    (h : lookIn S F txid none b.1 b.2 = .ok (some (b.1, tx))) :
    lookInAll S F txid (b :: bs) = .ok (some (b.1, tx)) := by
  rw [lookInAll, List.foldlM_cons, h]
  exact foldlM_lookIn_some _ _

theorem lookInAll_next {b : BlockHash × Bytes} {bs : List (BlockHash × Bytes)}
    (h : lookIn S F txid none b.1 b.2 = .ok none) :
    lookInAll S F txid (b :: bs) = lookInAll S F txid bs := by
  rw [lookInAll, List.foldlM_cons, h]
  rfl

theorem searched_lookInAll (hdoc : S.Documented Tx) (hcalls : S.DocumentedCalls Tx txCall)
    (hF : F.Documented txCall txidOf) (delivered : List (BlockHash × Bytes)) :
    Searched S Tx (txidOf · = txid) delivered (lookInAll S F txid delivered) := by
  induction delivered with
  | nil => exact .nil
  | cons b bs ih =>
      rcases lookIn_cases hdoc hcalls hF b.1 b.2 with ⟨hbad, fault, hlook⟩ |
        ⟨-, res, hsearch, hlook⟩
      · have hpanic : lookInAll S F txid (b :: bs) = .error fault := by
          rw [lookInAll, List.foldlM_cons, hlook]
          rfl
        rw [hpanic]
        exact .panicked hbad
      · cases res with
        | found tx =>
            rw [lookInAll_found hlook]
            exact .found hsearch
        | absent =>
            rw [lookInAll_next hlook]
            exact .next hsearch rfl ih
        | malformed =>
            rw [lookInAll_next hlook]
            exact .next hsearch rfl ih

end Search

/-! ### When the lookup is exact -/

section Exact

variable {S : BitcoinSlices V} {Tx hit : Bytes → Prop} {txCall : V.Call → Option Bytes}
  {b : BlockHash × Bytes} {delivered bs : List (BlockHash × Bytes)}

theorem InBlock.notIn (hcalls : S.DocumentedCalls Tx txCall) {block : Bytes} {res : SearchResult}
    (h : InBlock S Tx hit block res) (hres : res.tx = none) : NotIn S Tx hit block := by
  intro tx htx
  rw [h.unique hcalls htx] at hres
  cases hres

theorem InBlock.parse {block : Bytes} {res : SearchResult} (h : InBlock S Tx hit block res) :
    ∃ header, AnyHeader.parse block = .ok header := by
  cases h with
  | counted hparse _ _ => exact ⟨_, hparse⟩
  | noCount hparse _ => exact ⟨_, hparse⟩

theorem reached_head : Reached S Tx hit (b :: bs) b := ⟨[], bs, rfl, List.forall_mem_nil _⟩

theorem Reached.cons (hb : NotIn S Tx hit b.2) {b' : BlockHash × Bytes}
    (h : Reached S Tx hit bs b') : Reached S Tx hit (b :: bs) b' := by
  obtain ⟨pre, post, rfl, hpre⟩ := h
  exact ⟨b :: pre, post, rfl, List.forall_mem_cons.mpr ⟨hb, hpre⟩⟩

/-- What is reached is the first block, or is reached behind it. -/
theorem reached_cons_cases {b' : BlockHash × Bytes} (h : Reached S Tx hit (b :: bs) b') :
    b' = b ∨ NotIn S Tx hit b.2 ∧ Reached S Tx hit bs b' := by
  obtain ⟨pre, post, e, hpre⟩ := h
  cases pre with
  | nil =>
      obtain ⟨rfl, -⟩ := List.cons.inj e
      exact .inl rfl
  | cons b₀ pre =>
      obtain ⟨rfl, rfl⟩ := List.cons.inj e
      rw [List.forall_mem_cons] at hpre
      exact .inr ⟨hpre.1, pre, post, rfl, hpre.2⟩

/-- A transaction found is the first one there is. -/
theorem Searched.first (hcalls : S.DocumentedCalls Tx txCall) {blockhash : BlockHash} {tx : Bytes}
    (h : Searched S Tx hit delivered (.ok (some (blockhash, tx)))) :
    ∃ pre block post, delivered = pre ++ (blockhash, block) :: post
      ∧ InBlock S Tx hit block (.found tx) ∧ ∀ b ∈ pre, NotIn S Tx hit b.2 := by
  generalize hr : (.ok (some (blockhash, tx)) : Rust (Option (BlockHash × Bytes))) = r at h
  induction h with
  | nil => cases hr
  | @found b bs tx' hfound =>
      cases hr
      exact ⟨[], b.2, bs, rfl, hfound, List.forall_mem_nil _⟩
  | panicked => cases hr
  | @next b bs res r hsearch hnone _ ih =>
      obtain ⟨pre, block, post, rfl, hfound, hpre⟩ := ih hr
      exact ⟨b :: pre, block, post, rfl, hfound,
        List.forall_mem_cons.mpr ⟨hsearch.notIn hcalls hnone, hpre⟩⟩

/-- Where none is found, every block was searched and has none. -/
theorem Searched.none_found (h : Searched S Tx hit delivered (.ok none)) :
    ∀ b ∈ delivered, ∃ res, InBlock S Tx hit b.2 res ∧ res.tx = none := by
  generalize hr : (.ok none : Rust (Option (BlockHash × Bytes))) = r at h
  induction h with
  | nil => exact List.forall_mem_nil _
  | found => cases hr
  | panicked => cases hr
  | next hsearch hnone _ ih => exact List.forall_mem_cons.mpr ⟨⟨_, hsearch, hnone⟩, ih hr⟩

/-- A lookup that returns has read the header of every block it reached. -/
theorem Searched.parse_of_ok {found : Option (BlockHash × Bytes)}
    (h : Searched S Tx hit delivered (.ok found)) (hreached : Reached S Tx hit delivered b) :
    ∃ header, AnyHeader.parse b.2 = .ok header := by
  generalize hr : (.ok found : Rust (Option (BlockHash × Bytes))) = r at h
  induction h with
  | nil =>
      obtain ⟨pre, post, e, -⟩ := hreached
      cases pre <;> cases e
  | found hfound =>
      rcases reached_cons_cases hreached with rfl | ⟨hnot, -⟩
      · exact hfound.parse
      · exact absurd hfound (hnot _)
  | panicked => cases hr
  | next hsearch _ _ ih =>
      rcases reached_cons_cases hreached with rfl | ⟨-, hrest⟩
      · exact hsearch.parse
      · exact ih hrest hr

/-- A lookup that panics has reached a header that cannot be read. -/
theorem Searched.parse_of_error (hcalls : S.DocumentedCalls Tx txCall) {fault : Fault}
    (h : Searched S Tx hit delivered (.error fault)) :
    ∃ b, Reached S Tx hit delivered b ∧ ∀ header, AnyHeader.parse b.2 ≠ .ok header := by
  generalize hr : (.error fault : Rust (Option (BlockHash × Bytes))) = r at h
  induction h with
  | nil => cases hr
  | found => cases hr
  | panicked hbad => exact ⟨_, reached_head, hbad⟩
  | next hsearch hnone _ ih =>
      obtain ⟨b, hreached, hbad⟩ := ih hr
      exact ⟨b, hreached.cons (hsearch.notIn hcalls hnone), hbad⟩

variable {Txid : Type} {F : FindTransaction V Txid} {txidOf : Bytes → Txid} {txid : Txid}
  {ended : Rust Unit}

theorem lookupTransaction_eq_ok_iff {found : Option (BlockHash × Bytes)} :
    lookupTransaction S F txid delivered ended = .ok found
      ↔ lookInAll S F txid delivered = .ok found ∧ ended = .ok () := by
  rw [lookupTransaction, bind_eq_ok]
  constructor
  · rintro ⟨found', hlook, hrest⟩
    obtain ⟨u, rfl, hfound⟩ := bind_eq_ok.mp hrest
    cases hfound
    exact ⟨hlook, rfl⟩
  · rintro ⟨hlook, rfl⟩
    exact ⟨found, hlook, rfl⟩

/-- **The lookup is exact where the blocks can be read**: it says what the
delivered blocks say precisely when none of those it reaches is malformed
behind its header, or it fails for another reason. -/
theorem lookupExact_iff (hdoc : S.Documented Tx) (hcalls : S.DocumentedCalls Tx txCall)
    (hF : F.Documented txCall txidOf) :
    LookupExact S Tx (txidOf · = txid) delivered (lookupTransaction S F txid delivered ended)
      ↔ Readable S Tx (txidOf · = txid) delivered ended := by
  have hsearched : Searched S Tx (txidOf · = txid) delivered (lookInAll S F txid delivered) :=
    searched_lookInAll hdoc hcalls hF delivered
  constructor
  · intro hexact hended hheaders b ⟨pre, post, hsplit, hpre⟩ hbad
    rcases hlook : lookInAll S F txid delivered with fault | found
    · rw [hlook] at hsearched
      obtain ⟨b', hreached, hno⟩ := hsearched.parse_of_error hcalls
      obtain ⟨header, hparse⟩ := hheaders b' hreached
      exact hno header hparse
    · exact hexact.malformed pre b post hsplit hpre hbad found
        (lookupTransaction_eq_ok_iff.mpr ⟨hlook, hended⟩)
  · intro hreadable
    -- a lookup that returns reads every block it reaches
    have hread : ∀ found, lookupTransaction S F txid delivered ended = .ok found →
        ∀ b, Reached S Tx (txidOf · = txid) delivered b →
          ¬ InBlock S Tx (txidOf · = txid) b.2 .malformed := by
      intro found hok
      obtain ⟨hlook, hended⟩ := lookupTransaction_eq_ok_iff.mp hok
      rw [hlook] at hsearched
      exact hreadable hended fun b hreached => hsearched.parse_of_ok hreached
    refine ⟨fun blockhash tx hok => ?_, fun hok => ?_, fun pre b post hsplit hpre hbad found hok =>
      hread found hok b ⟨pre, post, hsplit, hpre⟩ hbad⟩
    · rw [(lookupTransaction_eq_ok_iff.mp hok).1] at hsearched
      exact hsearched.first hcalls
    · rw [(lookupTransaction_eq_ok_iff.mp hok).1] at hsearched
      have hall := hsearched.none_found
      intro b hb
      obtain ⟨res, hsearch, hnone⟩ := hall b hb
      obtain ⟨pre, post, hsplit⟩ := List.append_of_mem hb
      have hreached : Reached S Tx (txidOf · = txid) delivered b := by
        refine ⟨pre, post, hsplit, fun b' hb' => ?_⟩
        obtain ⟨res', hsearch', hnone'⟩ := hall b' (hsplit ▸ List.mem_append_left _ hb')
        exact hsearch'.notIn hcalls hnone'
      cases res with
      | found tx => cases hnone
      | absent => exact hsearch
      | malformed => exact absurd hsearch (hread none hok b hreached)

end Exact

/-! ### A block of the regtest chain, whole and cut short -/

/-- A block that is put together from its parts. -/
theorem inBlock_append {S : BitcoinSlices V} {Tx hit : Bytes → Prop} (hdoc : S.Documented Tx)
    {header : AnyHeader} (hstream : header.Streamable) {n : ℕ} (hn : n < 2 ^ 64) {b : Bytes}
    {res : SearchResult} (h : InTransactions Tx hit n b res) :
    InBlock S Tx hit (header.serialize ++ (compactSize n ++ b)) res := by
  have hlen := header.length_serialize
  have hpos : 0 < (compactSize n).length := List.length_pos_iff.mpr (compactSize_ne_nil n)
  have hbehind : (header.serialize ++ (compactSize n ++ b)).drop header.size
      = compactSize n ++ b := List.drop_left' hlen
  have hlonger : (header.serialize ++ (compactSize n ++ b)).length > header.size := by
    rw [List.length_append, List.length_append]
    omega
  have hcount : CountAt S (header.serialize ++ (compactSize n ++ b)) header n
      (header.size + (compactSize n).length) := by
    refine ⟨hlonger, _, ?_, rfl⟩
    rw [hbehind]
    exact hdoc.scanLen_compactSize n b hn
  refine .counted (AnyHeader.parse_serialize_append hstream _) hcount ?_
  rwa [← List.drop_drop, hbehind, List.drop_left]

/-- The transaction that is passed to the visitor in one of its calls. -/
def PartCall.tx : PartCall → Option Bytes
  | .transaction tx => some tx
  | _ => none

/-- The visitor of the lookup. -/
def findTransaction {Txid : Type} [DecidableEq Txid] (txidOf : Bytes → Txid) :
    FindTransaction partCalls Txid where
  visit txid found
    | .blockHeader _ => (ControlFlow.Continue, found)
    | .blockBegin _ => ((), found)
    | .transaction (.txIn _ _) => (ControlFlow.Continue, found)
    | .transaction (.txOut _ _) => (ControlFlow.Continue, found)
    | .transaction (.transaction tx) =>
        if txidOf tx = txid then (ControlFlow.Break, some tx) else (ControlFlow.Continue, found)

theorem documented_findTransaction {Txid : Type} [DecidableEq Txid] (txidOf : Bytes → Txid) :
    (findTransaction txidOf).Documented PartCall.tx txidOf where
  hit := by
    rintro txid found (header | totalTxs | c) tx hcall htxid
    · cases hcall
    · cases hcall
    · rcases c with ⟨vin, txIn⟩ | ⟨vout, txOut⟩ | tx'
      · cases hcall
      · cases hcall
      · cases hcall
        have hvisit : (findTransaction txidOf).visit txid found (.transaction (.transaction tx))
            = (ControlFlow.Break, some tx) := if_pos htxid
        rw [hvisit]
        exact ⟨rfl, rfl⟩
  pass := by
    rintro txid found (header | totalTxs | c) hcall
    · exact ⟨fun h => (by cases h), rfl⟩
    · exact ⟨id, rfl⟩
    · rcases c with ⟨vin, txIn⟩ | ⟨vout, txOut⟩ | tx
      · exact ⟨fun h => (by cases h), rfl⟩
      · exact ⟨fun h => (by cases h), rfl⟩
      · have hvisit : (findTransaction txidOf).visit txid found (.transaction (.transaction tx))
            = (ControlFlow.Continue, found) := if_neg (hcall tx rfl)
        rw [hvisit]
        exact ⟨fun h => (by cases h), rfl⟩

section OneTx

variable {tx : Bytes} {parts : List PartCall}

/-- The calls of a visit, up to the one that is answered with a break. -/
theorem calls_visitParts {consumed : ℕ} {cs : List PartCall} {es : List (VisitorEvent partCalls)}
    {r : Except String ℕ} (h : Exec (visitParts consumed cs) es r) :
    (∀ e ∈ es, ∃ c ∈ cs, e.op = .transaction c)
      ∧ (r = .ok consumed → ∀ c ∈ cs, ∃ e ∈ es, e.op = .transaction c)
      ∧ ∀ pre e post, es = pre ++ e :: post → Breaks e → post = [] := by
  induction cs generalizing es with
  | nil =>
      obtain ⟨rfl, rfl⟩ := exec_pure.mp h
      refine ⟨List.forall_mem_nil _, fun _ => List.forall_mem_nil _, fun pre e post hsplit => ?_⟩
      cases pre <;> cases hsplit
  | cons c cs ih =>
      obtain ⟨answer, es', rfl, hrest⟩ := exec_perform_bind.mp h
      have hfirst : ∃ c' ∈ c :: cs,
          (VisitorCall.transaction c : VisitorCall partCalls) = .transaction c' :=
        ⟨c, List.mem_cons_self, rfl⟩
      split_ifs at hrest with hbreak
      · obtain ⟨rfl, rfl⟩ := exec_throw.mp hrest
        refine ⟨List.forall_mem_singleton.mpr hfirst, fun hr => (by cases hr), ?_⟩
        intro pre e post hsplit _
        rcases pre with - | ⟨e', pre⟩
        · exact (List.cons.inj hsplit).2.symm
        · cases pre <;> cases (List.cons.inj hsplit).2
      · obtain ⟨hops, hall, hstops⟩ := ih hrest
        refine ⟨List.forall_mem_cons.mpr ⟨hfirst, fun e he => ?_⟩, fun hr => ?_, ?_⟩
        · obtain ⟨c', hc', hop⟩ := hops e he
          exact ⟨c', List.mem_cons_of_mem _ hc', hop⟩
        · refine List.forall_mem_cons.mpr ⟨⟨_, List.mem_cons_self, rfl⟩, fun c' hc' => ?_⟩
          obtain ⟨e, he, hop⟩ := hall hr c' hc'
          exact ⟨e, List.mem_cons_of_mem _ he, hop⟩
        · intro pre e post hsplit hbreaks
          rcases pre with - | ⟨e', pre⟩
          · obtain ⟨rfl, -⟩ := List.cons.inj hsplit
            exact absurd (beq_iff_eq.mp hbreaks) hbreak
          · exact hstops pre e post (List.cons.inj hsplit).2 hbreaks

theorem documentedCalls_oneTxSlices (hparts : ∀ t, .transaction t ∈ parts ↔ t = tx) :
    (oneTxSlices tx parts).DocumentedCalls (· = tx) PartCall.tx where
  of_front := by
    intro b es r e t h he hcall
    have hvisit : Exec (visitOneTx tx parts b) es r := h
    rw [visitOneTx] at hvisit
    split_ifs at hvisit with hfront
    · obtain ⟨c, hc, hop⟩ := (calls_visitParts hvisit).1 e he
      rw [hop] at hcall
      cases c with
      | txIn vin txIn => cases hcall
      | txOut vout txOut => cases hcall
      | transaction t' =>
          cases hcall
          obtain rfl := (hparts t).mp hc
          exact ⟨rfl, hfront ▸ List.take_prefix _ _⟩
    · obtain ⟨rfl, -⟩ := exec_throw.mp hvisit
      cases he
  whole := by
    intro b es k h
    have hvisit : Exec (visitOneTx tx parts b) es (.ok k) := h
    rw [visitOneTx] at hvisit
    split_ifs at hvisit with hfront
    · obtain ⟨hk, -⟩ | ⟨err, herr, -⟩ := exec_visitParts hvisit
      · cases hk
        obtain ⟨e, he, hop⟩ := (calls_visitParts hvisit).2.1 rfl _ ((hparts tx).mpr rfl)
        refine ⟨e, he, ?_⟩
        rw [hop, hfront]
        rfl
      · cases herr
    · obtain ⟨-, herr⟩ := exec_throw.mp hvisit
      cases herr
  stops := by
    intro b pre e post r h hbreaks
    have hvisit : Exec (visitOneTx tx parts b) (pre ++ e :: post) r := h
    rw [visitOneTx] at hvisit
    split_ifs at hvisit with hfront
    · exact (calls_visitParts hvisit).2.2 pre e post rfl hbreaks
    · obtain ⟨hnil, -⟩ := exec_throw.mp hvisit
      cases pre <;> cases hnil
  self_delimiting := by
    rintro t t' rfl rfl _
    rfl

end OneTx

/-- The txid of a transaction with one input, whose witness is one item of 32
bytes: the hash without marker, flag and witness. -/
def coinbaseTxid (tx : Bytes) : Arr 32 :=
  Wire.sha256 (Wire.sha256 (sub tx 0 4 ++ sub tx 6 (tx.length - 44)
    ++ sub tx (tx.length - 4) 4)).toList

/-- A block with one transaction has its txid as the merkle root. -/
theorem coinbaseTxid_regtest19 : coinbaseTxid regtestTx19 = regtestHeader19.merkleRoot := by
  decide +kernel

theorem documentedCalls_regtest19 :
    (oneTxSlices regtestTx19 regtestParts19).DocumentedCalls (· = regtestTx19) PartCall.tx := by
  refine documentedCalls_oneTxSlices fun t => ?_
  simp [regtestParts19]

theorem streamable_regtestHeader19 : (AnyHeader.v1 regtestHeader19).Streamable := by
  decide +kernel

section Regtest19

/-- Looking up the transaction of block 19. -/
def lookup19 (blocks : List Bytes) : Rust (Option (BlockHash × Bytes)) :=
  lookupTransaction (oneTxSlices regtestTx19 regtestParts19) (findTransaction coinbaseTxid)
    regtestHeader19.merkleRoot
    (blocks.map fun block => (regtestHeader19.blockHash knownHashes, block)) (.ok ())

/-- The property, of blocks served under the header of block 19. -/
def LookupExact19 (blocks : List Bytes) : Prop :=
  LookupExact (oneTxSlices regtestTx19 regtestParts19) (· = regtestTx19)
    (coinbaseTxid · = regtestHeader19.merkleRoot)
    (blocks.map fun block => (regtestHeader19.blockHash knownHashes, block)) (lookup19 blocks)

theorem lookupExact_iff_regtest19 : LookupExact19 [regtestBlock19] := by
  have hdoc : (oneTxSlices regtestTx19 regtestParts19).Documented (· = regtestTx19) :=
    documented_oneTxSlices
  have hsearch : InTransactions (· = regtestTx19) (coinbaseTxid · = regtestHeader19.merkleRoot)
      [regtestTx19].length ([regtestTx19].flatten ++ []) (.found regtestTx19) := by
    rw [List.flatten_singleton]
    exact .here rfl coinbaseTxid_regtest19
  have hfound := inBlock_append hdoc streamable_regtestHeader19 (by decide) hsearch
  refine (lookupExact_iff hdoc documentedCalls_regtest19
    (documented_findTransaction coinbaseTxid)).mpr ?_
  rintro - - b ⟨pre, post, hsplit, -⟩ hbad
  have hb : b ∈ pre ++ b :: post := List.mem_append_right _ List.mem_cons_self
  rw [← hsplit] at hb
  obtain rfl := List.mem_singleton.mp hb
  cases hfound.unique documentedCalls_regtest19 hbad

/-- The block with its transaction missing. -/
def cutBlock19 : Bytes := (AnyHeader.v1 regtestHeader19).serialize ++ (compactSize 1 ++ [])

theorem not_lookupExact_cutBlock19 :
    lookup19 [cutBlock19] = .ok none ∧ ¬ LookupExact19 [cutBlock19] := by
  have hdoc : (oneTxSlices regtestTx19 regtestParts19).Documented (· = regtestTx19) :=
    documented_oneTxSlices
  have hlook : lookup19 [cutBlock19] = .ok none := by decide +kernel
  refine ⟨hlook, fun hexact => ?_⟩
  have hsearch : InTransactions (· = regtestTx19) (coinbaseTxid · = regtestHeader19.merkleRoot)
      1 [] .malformed := by
    refine .unreadable ?_
    rintro tx rfl ⟨rest, hrest⟩
    exact absurd (congrArg List.length hrest) (by simp [regtestTx19])
  have hcut := inBlock_append hdoc streamable_regtestHeader19 (by decide) hsearch
  cases (hexact.absent hlook _ List.mem_cons_self).unique documentedCalls_regtest19 hcut

end Regtest19

end PrunedElectrs
