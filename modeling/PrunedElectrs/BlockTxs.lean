/-
PrunedElectrs/BlockTxs.lean

The walk over a block's transactions, for blocks of either header version.

`visitBlockTxs` takes the header as parsed, reads the transaction count behind
it and hands the rest of the block to the transaction parser once for each
transaction.  Count and transactions are parsed by `bitcoin_slices`, which is a
parameter (`BitcoinSlices`) with its documented behaviour (`Documented`); what
is proved is the bookkeeping of offsets around it.  A visitor is whoever
answers the calls of an execution, so what holds of every execution holds of
every visitor, one that breaks off included.

`visitBlockTxs_walks` says what a well-formed block is walked as, that
`bsl::Block::visit` makes the same calls on a v1 block, and that on any other
block the walk returns, and does not return `Ok` before it has visited as many
whole transactions as the block announces.
-/
import PrunedElectrs.AnyHeader
import PrunedElectrs.Lib.Effects

namespace PrunedElectrs

open Wire Effects

/-! ### Counts -/

/-- The canonical encoding of a count. -/
def compactSize (n : ℕ) : Bytes :=
  if n < 0xfd then leBytes 1 n
  else if n < 2 ^ 16 then 0xfd :: leBytes 2 n
  else if n < 2 ^ 32 then 0xfe :: leBytes 4 n
  else 0xff :: leBytes 8 n

/-- The bytes encode the count, in the shortest form or in a longer one. -/
inductive IsCompactSize (n : ℕ) : Bytes → Prop
  | one : n < 0xfd → IsCompactSize n (leBytes 1 n)
  | three : n < 2 ^ 16 → IsCompactSize n (0xfd :: leBytes 2 n)
  | five : n < 2 ^ 32 → IsCompactSize n (0xfe :: leBytes 4 n)
  | nine : n < 2 ^ 64 → IsCompactSize n (0xff :: leBytes 8 n)

/-! ### Visitors and the parser -/

/-- What a visitor answers a call with. -/
inductive ControlFlow
  | Continue
  | Break
deriving DecidableEq

/-- The calls a visitor gets about the parts of a transaction. -/
structure TxCalls where
  Call : Type
  Answer : Call → Type
  breaks : (c : Call) → Answer c → Bool

variable {V : TxCalls}

/-- A call of the visitor. -/
inductive VisitorCall (V : TxCalls)
  | blockHeader (header : Bytes)
  | blockBegin (totalTxs : ℕ)
  | transaction (c : V.Call)

/-- What the visitor answers to a call. -/
def VisitorCall.Answer : VisitorCall V → Type
  | blockHeader _ => ControlFlow
  | blockBegin _ => Unit
  | transaction c => V.Answer c

/-- A call of the visitor with its answer. -/
abbrev VisitorEvent (V : TxCalls) := Event (VisitorCall.Answer (V := V))

/-- A parser that calls a visitor as it goes. -/
abbrev VisitM (V : TxCalls) (ε α : Type) := Prog (VisitorCall.Answer (V := V)) ε α

/-- The visitor breaks off the visit. -/
def Breaks : VisitorEvent V → Prop
  | ⟨.blockHeader _, answer⟩ => answer = ControlFlow.Break
  | ⟨.blockBegin _, _⟩ => False
  | ⟨.transaction c, answer⟩ => V.breaks c answer = true

/-- What is used of `bitcoin_slices`.  The parsers return how many bytes they
have consumed. -/
structure BitcoinSlices (V : TxCalls) where
  Error : Type
  debug : Error → String
  scanLen : Bytes → Except Error (ℕ × ℕ)
  /-- `bsl::Transaction::visit`. -/
  visitTransaction : Bytes → VisitM V Error ℕ

namespace BitcoinSlices

variable (S : BitcoinSlices V)

/-- The visits of transactions one after the other, each from its own bytes: to
the last one, or to the first whose visit fails, with its index. -/
inductive Visited : ℕ → List Bytes → List (VisitorEvent V) → Except (ℕ × S.Error) Unit → Prop
  | all {i : ℕ} : Visited i [] [] (.ok ())
  | next {i : ℕ} {tx : Bytes} {txs : List Bytes} {es es' : List (VisitorEvent V)}
      {r : Except (ℕ × S.Error) Unit} : Exec (S.visitTransaction tx) es (.ok tx.length) →
      Visited (i + 1) txs es' r → Visited i (tx :: txs) (es ++ es') r
  | failed {i : ℕ} {tx : Bytes} {txs : List Bytes} {es : List (VisitorEvent V)} {e : S.Error} :
      Exec (S.visitTransaction tx) es (.error e) → Visited i (tx :: txs) es (.error (i, e))

/-- What the documentation of `bitcoin_slices` says, `Tx` being the byte strings
that are one whole transaction. -/
structure Documented (Tx : Bytes → Prop) : Prop where
  scanLen_compactSize : ∀ n rest, n < 2 ^ 64 →
    S.scanLen (compactSize n ++ rest) = .ok (n, (compactSize n).length)
  /-- `scan_len` consumes one count, or fails. -/
  scanLen_ok : ∀ b n k, S.scanLen b = .ok (n, k) → k ≤ b.length ∧ IsCompactSize n (b.take k)
  /-- What follows a transaction is not looked at. -/
  visitTransaction_append : ∀ tx rest, Tx tx →
    S.visitTransaction (tx ++ rest) = S.visitTransaction tx
  /-- A transaction is visited to its end unless the visitor breaks off. -/
  visitTransaction_whole : ∀ tx es r, Tx tx → Exec (S.visitTransaction tx) es r →
    (r = .ok tx.length ∧ ∀ e ∈ es, ¬ Breaks e) ∨ ∃ err, r = .error err ∧ ∃ e ∈ es, Breaks e
  /-- `Transaction::visit` consumes one transaction, or fails. -/
  visitTransaction_ok : ∀ b es k, Exec (S.visitTransaction b) es (.ok k) →
    k ≤ b.length ∧ Tx (b.take k)

/-- What the documentation says of `bsl::Block::visit`, for a visitor that goes
on after the header: it announces the count and visits the transactions. -/
structure DocumentedBlock (Tx : Bytes → Prop) (visitBlock : Bytes → VisitM V S.Error Unit) :
    Prop where
  ok_iff : ∀ header txs rest es, header.length = headerV1Size → txs.length < 2 ^ 64 →
    (∀ tx ∈ txs, Tx tx) →
    (Exec (visitBlock (header ++ (compactSize txs.length ++ (txs.flatten ++ rest))))
        (⟨.blockHeader header, ControlFlow.Continue⟩ :: es) (.ok ()) ↔
      ∃ es', es = ⟨.blockBegin txs.length, ()⟩ :: es' ∧ S.Visited 0 txs es' (.ok ()))
  error_iff : ∀ header txs rest es, header.length = headerV1Size → txs.length < 2 ^ 64 →
    (∀ tx ∈ txs, Tx tx) →
    ((∃ e, Exec (visitBlock (header ++ (compactSize txs.length ++ (txs.flatten ++ rest))))
        (⟨.blockHeader header, ControlFlow.Continue⟩ :: es) (.error e)) ↔
      ∃ p es', es = ⟨.blockBegin txs.length, ()⟩ :: es' ∧ S.Visited 0 txs es' (.error p))

end BitcoinSlices

/-! ### The walk -/

section Walk

variable (S : BitcoinSlices V)

/-- The error for the transaction at an index. -/
def badTransaction (p : ℕ × S.Error) : Fault :=
  .err [s!"bad transaction at index {p.1}: {S.debug p.2}"]

/-- The loop over the transactions from index `i` on, of which `n` are left. -/
def visitTxs (block : Bytes) : ℕ → ℕ → ℕ → VisitM V Fault Unit
  | 0, _, _ => pure ()
  | n + 1, i, consumed => do
      let rest ← Prog.lift (slice block consumed block.length)
      let read ← (S.visitTransaction rest).mapError fun e => badTransaction S (i, e)
      visitTxs block n (i + 1) (consumed + read)

/-- Walk a serialized block's transactions, feeding a visitor. -/
def visitBlockTxs (block : Bytes) (header : AnyHeader) : VisitM V Fault Unit := do
  let consumed := header.size
  Prog.lift (ensure (block.length > consumed)
    (s!"block is {block.length} bytes, shorter than its own {consumed}-byte header "
      ++ "plus a transaction count"))
  let rest ← Prog.lift (slice block consumed block.length)
  let (totalTxs, read) ← Prog.lift ((S.scanLen rest).mapError fun e =>
    .err [s!"bad transaction count: {S.debug e}"])
  Prog.perform (VisitorCall.blockBegin totalTxs)
  visitTxs S block totalTxs 0 (consumed + read)

/-! ### What the loop visits -/

section MapError

variable {ε ε' α : Type} {E : Except ε' α → Prop} {Q : Except ε α → Prop} {f : ε → ε'}

/-- Errors that are only renamed are apart from values. -/
theorem ok_iff_of_mapError (h : ∀ r, E r ↔ ∃ r', Q r' ∧ r = r'.mapError f) {a : α} :
    E (.ok a) ↔ Q (.ok a) := by
  rw [h]
  constructor
  · rintro ⟨r', hq, hr⟩
    cases r' with
    | error e => cases hr
    | ok b =>
        cases hr
        exact hq
  · exact fun hq => ⟨_, hq, rfl⟩

theorem error_iff_of_mapError (h : ∀ r, E r ↔ ∃ r', Q r' ∧ r = r'.mapError f) :
    (∃ e, E (.error e)) ↔ ∃ e, Q (.error e) := by
  constructor
  · rintro ⟨e, he⟩
    obtain ⟨r', hq, hr⟩ := (h _).mp he
    cases r' with
    | error e' => exact ⟨e', hq⟩
    | ok b => cases hr
  · rintro ⟨e, hq⟩
    exact ⟨f e, (h _).mpr ⟨_, hq, rfl⟩⟩

end MapError

variable {S} {Tx : Bytes → Prop} {block : Bytes} {i : ℕ} {es : List (VisitorEvent V)}
variable {r : Rust Unit}

/-- `&block[consumed..]`. -/
theorem slice_to_end {b : Bytes} {k : ℕ} (hk : k ≤ b.length) :
    slice b k b.length = .ok (b.drop k) := by
  rw [slice_eq hk le_rfl, sub, List.take_of_length_le (by rw [List.length_drop])]

/-- On whole transactions the loop makes their visits, from where the first of
them begins. -/
theorem exec_visitTxs (hdoc : S.Documented Tx) {txs : List Bytes} (htxs : ∀ tx ∈ txs, Tx tx)
    {front rest : Bytes} :
    Exec (visitTxs S (front ++ (txs.flatten ++ rest)) txs.length i front.length) es r ↔
      ∃ r', S.Visited i txs es r' ∧ r = r'.mapError (badTransaction S) := by
  induction txs generalizing front i es r with
  | nil =>
      constructor
      · intro h
        obtain ⟨rfl, rfl⟩ := exec_pure.mp h
        exact ⟨.ok (), .all, rfl⟩
      · rintro ⟨r', h, rfl⟩
        cases h
        exact exec_pure.mpr ⟨rfl, rfl⟩
  | cons tx txs ih =>
      rw [List.forall_mem_cons] at htxs
      have hblock : front ++ ((tx :: txs).flatten ++ rest)
          = (front ++ tx) ++ (txs.flatten ++ rest) := by simp
      have hslice : slice (front ++ ((tx :: txs).flatten ++ rest)) front.length
          (front ++ ((tx :: txs).flatten ++ rest)).length
          = .ok (tx ++ (txs.flatten ++ rest)) := by
        rw [slice_to_end (by simp), List.drop_left]
        simp
      have hnext : ∀ {i : ℕ} {es : List (VisitorEvent V)} {r : Rust Unit},
          Exec (visitTxs S (front ++ ((tx :: txs).flatten ++ rest)) txs.length i
            (front.length + tx.length)) es r
          ↔ ∃ r', S.Visited i txs es r' ∧ r = r'.mapError (badTransaction S) := by
        intro i es r
        rw [hblock, ← List.length_append]
        exact ih htxs.2
      rw [List.length_cons, visitTxs, hslice, exec_lift_bind]
      constructor
      · rintro (⟨e, he, -⟩ | ⟨b, hb, h⟩)
        · cases he
        · cases hb
          rw [hdoc.visitTransaction_append _ _ htxs.1, exec_bind] at h
          rcases h with ⟨e, rfl, h⟩ | ⟨es₁, es₂, read, rfl, h, hrest⟩
          · obtain ⟨r', hvisit, hr⟩ := exec_mapError.mp h
            rcases r' with err | read
            · cases hr
              exact ⟨_, .failed hvisit, rfl⟩
            · cases hr
          · obtain ⟨r', hvisit, hr⟩ := exec_mapError.mp h
            rcases r' with err | read'
            · cases hr
            · cases hr
              obtain ⟨hread, -⟩ | ⟨err, herr, -⟩ :=
                hdoc.visitTransaction_whole _ _ _ htxs.1 hvisit
              · cases hread
                obtain ⟨r', hvisited, rfl⟩ := hnext.mp hrest
                exact ⟨r', .next hvisit hvisited, rfl⟩
              · cases herr
      · rintro ⟨r', h, rfl⟩
        refine .inr ⟨_, rfl, ?_⟩
        rw [hdoc.visitTransaction_append _ _ htxs.1, exec_bind]
        cases h with
        | next h hvisited =>
            exact .inr ⟨_, _, _, rfl, exec_mapError.mpr ⟨_, h, rfl⟩, hnext.mpr ⟨_, hvisited, rfl⟩⟩
        | failed h => exact .inl ⟨_, rfl, exec_mapError.mpr ⟨_, h, rfl⟩⟩

/-- Whatever the bytes, the loop returns, and it succeeds only by visiting `n`
whole transactions. -/
theorem visitTxs_returns (hdoc : S.Documented Tx) {n consumed : ℕ} (hc : consumed ≤ block.length)
    (h : Exec (visitTxs S block n i consumed) es r) :
    Returns r ∧ (r = .ok () → ∃ txs rest, txs.length = n ∧ (∀ tx ∈ txs, Tx tx)
      ∧ block.drop consumed = txs.flatten ++ rest ∧ S.Visited i txs es (.ok ())) := by
  induction n generalizing i consumed es with
  | zero =>
      obtain ⟨rfl, rfl⟩ := exec_pure.mp h
      exact ⟨returns_ok (), fun _ => ⟨[], _, rfl, List.forall_mem_nil _, rfl, .all⟩⟩
  | succ n ih =>
      rw [visitTxs, slice_to_end hc, exec_lift_bind] at h
      rcases h with ⟨e, he, -⟩ | ⟨b, hb, h⟩
      · cases he
      · cases hb
        rw [exec_bind] at h
        rcases h with ⟨e, rfl, h⟩ | ⟨es₁, es₂, read, rfl, h, hrest⟩
        · obtain ⟨r', -, hr⟩ := exec_mapError.mp h
          rcases r' with err | read
          · cases hr
            exact ⟨.inr ⟨_, rfl⟩, fun hok => by cases hok⟩
          · cases hr
        · obtain ⟨r', hvisit, hr⟩ := exec_mapError.mp h
          rcases r' with err | read'
          · cases hr
          · cases hr
            obtain ⟨hread, htx⟩ := hdoc.visitTransaction_ok _ _ _ hvisit
            -- the bytes consumed are the next transaction
            obtain ⟨tx, tail, hdrop, rfl⟩ :
                ∃ tx tail, block.drop consumed = tx ++ tail ∧ tx.length = read :=
              ⟨_, _, (List.take_append_drop read _).symm, List.length_take_of_le hread⟩
            rw [hdrop, List.take_left] at htx
            rw [hdrop, hdoc.visitTransaction_append _ _ htx] at hvisit
            rw [List.length_drop] at hread
            obtain ⟨hret, hok⟩ := ih (by omega) hrest
            refine ⟨hret, fun hr => ?_⟩
            obtain ⟨txs, rest, rfl, htxs, htail, hvisited⟩ := hok hr
            rw [← List.drop_drop, hdrop, List.drop_left] at htail
            refine ⟨tx :: txs, rest, rfl, List.forall_mem_cons.mpr ⟨htx, htxs⟩, ?_,
              .next hvisit hvisited⟩
            rw [hdrop, htail, List.flatten_cons, List.append_assoc]

/-- The visits of whole transactions end early exactly when the visitor breaks
off. -/
theorem outcome_of_visited (hdoc : S.Documented Tx) {txs : List Bytes} (htxs : ∀ tx ∈ txs, Tx tx)
    {r' : Except (ℕ × S.Error) Unit} (h : S.Visited i txs es r') :
    (r' = .ok () ∧ ∀ e ∈ es, ¬ Breaks e) ∨ ∃ p, r' = .error p ∧ ∃ e ∈ es, Breaks e := by
  induction h with
  | all => exact .inl ⟨rfl, List.forall_mem_nil _⟩
  | next hvisit hvisited ih =>
      rw [List.forall_mem_cons] at htxs
      obtain ⟨-, hcont⟩ | ⟨err, herr, -⟩ := hdoc.visitTransaction_whole _ _ _ htxs.1 hvisit
      · rcases ih htxs.2 with ⟨hok, hcont'⟩ | ⟨p, hp, e, he, hbreak⟩
        · exact .inl ⟨hok, List.forall_mem_append.mpr ⟨hcont, hcont'⟩⟩
        · exact .inr ⟨p, hp, e, List.mem_append_right _ he, hbreak⟩
      · cases herr
  | failed hvisit =>
      rw [List.forall_mem_cons] at htxs
      obtain ⟨herr, -⟩ | ⟨err, -, hbreak⟩ := hdoc.visitTransaction_whole _ _ _ htxs.1 hvisit
      · cases herr
      · exact .inr ⟨_, rfl, hbreak⟩

/-! ### What the walk visits -/

theorem compactSize_ne_nil (n : ℕ) : compactSize n ≠ [] := by
  rw [compactSize]
  split_ifs <;> simp [leBytes]

/-- On a well-formed block the walk announces the count and visits the
transactions. -/
theorem exec_visitBlockTxs (hdoc : S.Documented Tx) {h : AnyHeader} {txs : List Bytes}
    (htxs : ∀ tx ∈ txs, Tx tx) (hn : txs.length < 2 ^ 64) {rest : Bytes} :
    Exec (visitBlockTxs S (h.serialize ++ (compactSize txs.length ++ (txs.flatten ++ rest))) h)
        es r ↔
      ∃ r', (∃ es', es = ⟨.blockBegin txs.length, ()⟩ :: es' ∧ S.Visited 0 txs es' r')
        ∧ r = r'.mapError (badTransaction S) := by
  have hpos : 0 < (compactSize txs.length).length :=
    List.length_pos_iff.mpr (compactSize_ne_nil _)
  have hlonger : (h.serialize ++ (compactSize txs.length ++ (txs.flatten ++ rest))).length
      > h.size := by
    rw [List.length_append, List.length_append, h.length_serialize]
    omega
  have hdrop : (h.serialize ++ (compactSize txs.length ++ (txs.flatten ++ rest))).drop h.size
      = compactSize txs.length ++ (txs.flatten ++ rest) :=
    List.drop_left' h.length_serialize
  have hfront : h.size + (compactSize txs.length).length
      = (h.serialize ++ compactSize txs.length).length := by
    rw [List.length_append, h.length_serialize]
  have hscan := hdoc.scanLen_compactSize _ (txs.flatten ++ rest) hn
  have hloop (es : List (VisitorEvent V)) :
      Exec (visitTxs S ((h.serialize ++ compactSize txs.length) ++ (txs.flatten ++ rest))
          txs.length 0 (h.serialize ++ compactSize txs.length).length) es r ↔
        ∃ r', S.Visited 0 txs es r' ∧ r = r'.mapError (badTransaction S) :=
    exec_visitTxs hdoc htxs
  simp only [List.append_assoc] at hloop
  simp only [visitBlockTxs, ensure_of hlonger, slice_to_end hlonger.le, hdrop, hscan,
    exec_lift_ok_bind, Except.mapError, hfront]
  refine exec_perform_bind.trans ⟨?_, ?_⟩
  · rintro ⟨reply, es', rfl, hexec⟩
    obtain ⟨r', hvisited, hr⟩ := (hloop es').mp hexec
    exact ⟨r', ⟨es', rfl, hvisited⟩, hr⟩
  · rintro ⟨r', ⟨es', rfl, hvisited⟩, hr⟩
    exact ⟨(), es', rfl, (hloop es').mpr ⟨r', hvisited, hr⟩⟩

/-- Whatever the bytes behind the header, the walk returns, and it succeeds
only by visiting as many whole transactions as their count says. -/
theorem visitBlockTxs_returns (hdoc : S.Documented Tx) {b : Bytes} {h : AnyHeader}
    (hb : sub b 0 h.size = h.serialize) (hexec : Exec (visitBlockTxs S b h) es r) :
    Returns r ∧ (r = .ok () → ∃ n count txs rest es',
      b = h.serialize ++ (count ++ (txs.flatten ++ rest)) ∧ IsCompactSize n count
      ∧ txs.length = n ∧ (∀ tx ∈ txs, Tx tx)
      ∧ es = ⟨.blockBegin n, ()⟩ :: es' ∧ S.Visited 0 txs es' (.ok ())) := by
  rw [visitBlockTxs] at hexec
  by_cases hlonger : b.length > h.size
  · simp only [ensure_of hlonger, slice_to_end hlonger.le, exec_lift_ok_bind] at hexec
    rcases hscan : S.scanLen (b.drop h.size) with err | ⟨n, read⟩
    · rw [hscan] at hexec
      obtain ⟨-, rfl⟩ := exec_throw.mp hexec
      exact ⟨.inr ⟨_, rfl⟩, fun hok => by cases hok⟩
    · simp only [hscan, Except.mapError, exec_lift_ok_bind] at hexec
      obtain ⟨reply, es', rfl, hloop⟩ := exec_perform_bind.mp hexec
      obtain ⟨hread, hcount⟩ := hdoc.scanLen_ok _ _ _ hscan
      rw [List.length_drop] at hread
      obtain ⟨hret, hok⟩ := visitTxs_returns hdoc (by omega) hloop
      refine ⟨hret, fun hr => ?_⟩
      obtain ⟨txs, rest, hn, htxs, htail, hvisited⟩ := hok hr
      refine ⟨n, _, txs, rest, es', ?_, hcount, hn, htxs, rfl, hvisited⟩
      rw [← htail, ← List.drop_drop, List.take_append_drop, ← hb, sub, List.drop_zero,
        List.take_append_drop]
  · rw [ensure_of_not hlonger] at hexec
    obtain ⟨-, rfl⟩ := exec_throw.mp hexec
    exact ⟨.inr ⟨_, rfl⟩, fun hok => by cases hok⟩

/-- **The walk visits the transactions a block announces**: on a well-formed
block of either version it announces their number and visits each from its own
bytes, succeeding unless the visitor breaks off; on a v1 block
`bsl::Block::visit` makes the same calls behind that for the header.  On any
block the walk returns, and succeeds only having visited as many whole
transactions as the count behind the header says. -/
theorem visitBlockTxs_walks (hdoc : S.Documented Tx) {visitBlock : Bytes → VisitM V S.Error Unit}
    (hblock : S.DocumentedBlock Tx visitBlock) {b : Bytes} {h : AnyHeader}
    (hparse : AnyHeader.parse b = .ok h) :
    (∀ txs rest, (∀ tx ∈ txs, Tx tx) → txs.length < 2 ^ 64 →
      b = h.serialize ++ (compactSize txs.length ++ (txs.flatten ++ rest)) →
      (∀ es r, Exec (visitBlockTxs S b h) es r → ∃ es', es = ⟨.blockBegin txs.length, ()⟩ :: es'
        ∧ (((∀ e ∈ es', ¬ Breaks e) ∧ r = .ok () ∧ S.Visited 0 txs es' (.ok ()))
          ∨ ((∃ e ∈ es', Breaks e) ∧ ∃ p, r = .error (badTransaction S p)
            ∧ S.Visited 0 txs es' (.error p)))) ∧
      (h.isV2 = false → ∀ es,
        let upstream := ⟨.blockHeader h.serialize, ControlFlow.Continue⟩ :: es
        (Exec (visitBlockTxs S b h) es (.ok ()) ↔ Exec (visitBlock b) upstream (.ok ()))
        ∧ ((∃ e, Exec (visitBlockTxs S b h) es (.error e)) ↔
          ∃ e, Exec (visitBlock b) upstream (.error e)))) ∧
    ∀ es r, Exec (visitBlockTxs S b h) es r →
      Returns r ∧ (r = .ok () → ∃ n count txs rest es',
        b = h.serialize ++ (count ++ (txs.flatten ++ rest)) ∧ IsCompactSize n count
        ∧ txs.length = n ∧ (∀ tx ∈ txs, Tx tx)
        ∧ es = ⟨.blockBegin n, ()⟩ :: es' ∧ S.Visited 0 txs es' (.ok ())) := by
  obtain ⟨-, hb⟩ := AnyHeader.parse_eq_ok_iff.mp hparse
  refine ⟨fun txs rest htxs hn e => ?_, fun es r => visitBlockTxs_returns hdoc hb⟩
  subst e
  refine ⟨fun es r hexec => ?_, fun hv1 es => ?_⟩
  · obtain ⟨r', ⟨es', rfl, hvisited⟩, rfl⟩ := (exec_visitBlockTxs hdoc htxs hn).mp hexec
    refine ⟨es', rfl, ?_⟩
    rcases outcome_of_visited hdoc htxs hvisited with ⟨rfl, hcont⟩ | ⟨p, rfl, hbreak⟩
    · exact .inl ⟨hcont, rfl, hvisited⟩
    · exact .inr ⟨hbreak, p, rfl, hvisited⟩
  · have hlen : h.serialize.length = headerV1Size := by
      rw [h.length_serialize, AnyHeader.size, hv1]
      rfl
    have hours (r : Rust Unit) :
        Exec (visitBlockTxs S
            (h.serialize ++ (compactSize txs.length ++ (txs.flatten ++ rest))) h) es r ↔
          ∃ r', (∃ es', es = ⟨.blockBegin txs.length, ()⟩ :: es' ∧ S.Visited 0 txs es' r')
            ∧ r = r'.mapError (badTransaction S) :=
      exec_visitBlockTxs hdoc htxs hn
    refine ⟨?_, ?_⟩
    · rw [ok_iff_of_mapError hours, hblock.ok_iff h.serialize txs rest es hlen hn htxs]
    · rw [error_iff_of_mapError hours, hblock.error_iff h.serialize txs rest es hlen hn htxs]

end Walk

/-! ### A block of the regtest chain -/

/-- The header of block 19, the last one of the old format. -/
def regtestHeader19 : HeaderV1 :=
  HeaderV1.read (leBytes 80
    0x000000205f41cc9caee7aee56c08a0f086201f78bc0124aa002384ae4e5187a49267e25522a3c731ec949ef9a148d5e32e3889f86cdcb8d7a14cb03464da37e68a3280c982e58c6affff7f2000000000).reverse
    (by simp [headerV1Size])

/-- The one transaction of block 19. -/
def regtestTx19 : Bytes := (leBytes 171
  0x020000000001010000000000000000000000000000000000000000000000000000000000000000ffffffff03011300ffffffff0200f2052a010000001976a9148aef5cfe3512a3bae79e25b89a9d81fbcaab69d188ac0000000000000000266a24aa21a9ede2f61c3f71d1defd3fa999dfa36953755c690689799962b48bebd836974e8cf90120000000000000000000000000000000000000000000000000000000000000000000000000).reverse

/-- The calls that a visitor can answer with a break. -/
inductive PartCall
  | txIn (vin : ℕ) (txIn : Bytes)
  | txOut (vout : ℕ) (txOut : Bytes)
  | transaction (tx : Bytes)

/-- The calls for parts of a transaction, which may break off. -/
def partCalls : TxCalls where
  Call := PartCall
  Answer _ := ControlFlow
  breaks _ answer := answer == .Break

/-- Make the calls one after the other, until the visitor breaks off. -/
def visitParts (consumed : ℕ) : List PartCall → VisitM partCalls String ℕ
  | [] => pure consumed
  | c :: cs => do
      let answer : ControlFlow ← Prog.perform (VisitorCall.transaction c)
      if answer = .Break then Prog.throw "VisitBreak" else visitParts consumed cs

/-- The count in the `w` bytes behind a marker byte. -/
def scanWord (w : ℕ) (b : Bytes) : Except String (ℕ × ℕ) :=
  if w ≤ b.length then .ok (leNat (b.take w), w + 1) else .error "MoreBytesNeeded"

/-- The count at the front of the bytes, in whatever form, and its length. -/
def scanCompactSize : Bytes → Except String (ℕ × ℕ)
  | [] => .error "MoreBytesNeeded"
  | x :: b =>
      if x.toNat < 0xfd then .ok (x.toNat, 1)
      else if x = 0xfd then scanWord 2 b
      else if x = 0xfe then scanWord 4 b
      else scanWord 8 b

section OneTx

variable (tx : Bytes) (parts : List PartCall)

/-- The visit of `tx` at the front of `b`, and of no other transaction. -/
def visitOneTx (b : Bytes) : VisitM partCalls String ℕ :=
  if b.take tx.length = tx then visitParts tx.length parts else Prog.throw "MoreBytesNeeded"

/-- A parser that knows one transaction. -/
abbrev oneTxSlices : BitcoinSlices partCalls where
  Error := String
  debug := id
  scanLen := scanCompactSize
  visitTransaction := visitOneTx tx parts

/-- `bsl::Block::visit` with that parser. -/
def visitOneTxBlock (b : Bytes) : VisitM partCalls String Unit := do
  let answer : ControlFlow ← Prog.perform (VisitorCall.blockHeader (b.take 80))
  if answer = .Break then Prog.throw "VisitBreak"
  else
    let (totalTxs, read) ← Prog.lift (scanCompactSize (b.drop 80))
    Prog.perform (VisitorCall.blockBegin totalTxs)
    (visitTxs (oneTxSlices tx parts) b totalTxs 0 (80 + read)).mapError fun _ => "VisitBreak"

end OneTx

theorem scanWord_leBytes {w n : ℕ} (hn : n < 256 ^ w) (rest : Bytes) :
    scanWord w (leBytes w n ++ rest) = .ok (n, w + 1) := by
  have hlen : (leBytes w n).length = w := length_leBytes w n
  rw [scanWord, if_pos (by rw [List.length_append]; omega), List.take_left' hlen,
    leNat_leBytes hn]

theorem scanWord_ok {w n k : ℕ} {b : Bytes} (h : scanWord w b = .ok (n, k)) :
    k = w + 1 ∧ w ≤ b.length ∧ n < 256 ^ w ∧ b.take w = leBytes w n := by
  rw [scanWord] at h
  split_ifs at h with hw
  cases h
  have hlen : (b.take w).length = w := List.length_take_of_le hw
  have hbytes := leBytes_leNat (b.take w)
  have hlt := leNat_lt (b.take w)
  rw [hlen] at hbytes hlt
  exact ⟨rfl, hw, hlt, hbytes.symm⟩

theorem scanCompactSize_compactSize {n : ℕ} (rest : Bytes) (hn : n < 2 ^ 64) :
    scanCompactSize (compactSize n ++ rest) = .ok (n, (compactSize n).length) := by
  rw [compactSize]
  split_ifs with h1 h2 h4
  · have hbyte : (UInt8.ofNat n).toNat = n := by
      rw [UInt8.toNat_ofNat', Nat.mod_eq_of_lt (by omega)]
    simp [leBytes, scanCompactSize, hbyte, h1]
  · simp [scanCompactSize, scanWord_leBytes (w := 2) h2]
  · simp [scanCompactSize, scanWord_leBytes (w := 4) h4]
  · simp [scanCompactSize, scanWord_leBytes (w := 8) hn]

theorem scanCompactSize_ok {b : Bytes} {n k : ℕ} (h : scanCompactSize b = .ok (n, k)) :
    k ≤ b.length ∧ IsCompactSize n (b.take k) := by
  rcases b with - | ⟨x, b⟩
  · cases h
  · have hx : x.toNat < 256 := x.toNat_lt
    rw [scanCompactSize] at h
    split_ifs at h with hone hfd hfe
    · cases h
      have hbyte : leBytes 1 x.toNat = [x] := by
        simp [leBytes]
      rw [List.take_succ_cons, List.take_zero, ← hbyte]
      exact ⟨by simp, .one hone⟩
    · obtain ⟨rfl, hle, hlt, hbytes⟩ := scanWord_ok h
      rw [List.take_succ_cons, hbytes, hfd]
      exact ⟨Nat.succ_le_succ hle, .three hlt⟩
    · obtain ⟨rfl, hle, hlt, hbytes⟩ := scanWord_ok h
      rw [List.take_succ_cons, hbytes, hfe]
      exact ⟨Nat.succ_le_succ hle, .five hlt⟩
    · obtain ⟨rfl, hle, hlt, hbytes⟩ := scanWord_ok h
      have hff : x = 0xff := by
        rw [← UInt8.toNat_inj] at hfd hfe ⊢
        simp only [UInt8.reduceToNat] at hfd hfe ⊢
        omega
      rw [List.take_succ_cons, hbytes, hff]
      exact ⟨Nat.succ_le_succ hle, .nine hlt⟩

theorem exec_visitParts {consumed : ℕ} {cs : List PartCall} {es : List (VisitorEvent partCalls)}
    {r : Except String ℕ} (h : Exec (visitParts consumed cs) es r) :
    (r = .ok consumed ∧ ∀ e ∈ es, ¬ Breaks e) ∨ ∃ err, r = .error err ∧ ∃ e ∈ es, Breaks e := by
  induction cs generalizing es with
  | nil =>
      obtain ⟨rfl, rfl⟩ := exec_pure.mp h
      exact .inl ⟨rfl, List.forall_mem_nil _⟩
  | cons c cs ih =>
      obtain ⟨answer, es', rfl, hrest⟩ := exec_perform_bind.mp h
      split_ifs at hrest with hbreak
      · obtain ⟨-, rfl⟩ := exec_throw.mp hrest
        exact .inr ⟨_, rfl, _, List.mem_cons_self, beq_iff_eq.mpr hbreak⟩
      · rcases ih hrest with ⟨hr, hcont⟩ | ⟨err, hr, e, he, hbreaks⟩
        · refine .inl ⟨hr, List.forall_mem_cons.mpr ⟨fun hb => hbreak ?_, hcont⟩⟩
          exact beq_iff_eq.mp hb
        · exact .inr ⟨err, hr, e, List.mem_cons_of_mem _ he, hbreaks⟩

section OneTx

variable {tx : Bytes} {parts : List PartCall}

theorem documented_oneTxSlices : (oneTxSlices tx parts).Documented (· = tx) where
  scanLen_compactSize _ rest hn := scanCompactSize_compactSize rest hn
  scanLen_ok _ _ _ h := scanCompactSize_ok h
  visitTransaction_append := by
    rintro t rest rfl
    show visitOneTx t parts (t ++ rest) = visitOneTx t parts t
    rw [visitOneTx, visitOneTx, List.take_left, List.take_length]
  visitTransaction_whole := by
    rintro t es r rfl h
    have hvisit : Exec (visitOneTx t parts t) es r := h
    rw [visitOneTx, if_pos List.take_length] at hvisit
    exact exec_visitParts hvisit
  visitTransaction_ok := by
    intro b es k h
    have hvisit : Exec (visitOneTx tx parts b) es (.ok k) := h
    rw [visitOneTx] at hvisit
    split_ifs at hvisit with htx
    · obtain ⟨hk, -⟩ | ⟨err, herr, -⟩ := exec_visitParts hvisit
      · cases hk
        have hlen := congrArg List.length htx
        rw [List.length_take] at hlen
        exact ⟨by omega, htx⟩
      · cases herr
    · obtain ⟨-, herr⟩ := exec_throw.mp hvisit
      cases herr

theorem exec_visitOneTxBlock {b header rest : Bytes} {txs : List Bytes}
    {es : List (VisitorEvent partCalls)} {r : Except String Unit}
    (hb : b = header ++ (compactSize txs.length ++ (txs.flatten ++ rest)))
    (hlen : header.length = headerV1Size) (hn : txs.length < 2 ^ 64) (htxs : ∀ t ∈ txs, t = tx) :
    Exec (visitOneTxBlock tx parts b) (⟨.blockHeader header, ControlFlow.Continue⟩ :: es) r ↔
      ∃ r', (∃ es', es = ⟨.blockBegin txs.length, ()⟩ :: es'
        ∧ (oneTxSlices tx parts).Visited 0 txs es' r') ∧ r = r'.mapError fun _ => "VisitBreak" := by
  have hlen80 : header.length = 80 := hlen
  have hscan : scanCompactSize (b.drop 80) = .ok (txs.length, (compactSize txs.length).length) := by
    rw [hb, List.drop_left' hlen80, scanCompactSize_compactSize _ hn]
  have hloop (es : List (VisitorEvent partCalls)) (r : Rust Unit) :
      Exec (visitTxs (oneTxSlices tx parts) b txs.length 0 (80 + (compactSize txs.length).length))
        es r ↔ ∃ r', (oneTxSlices tx parts).Visited 0 txs es r'
          ∧ r = r'.mapError (badTransaction (oneTxSlices tx parts)) := by
    have h : Exec (visitTxs (oneTxSlices tx parts)
          ((header ++ compactSize txs.length) ++ (txs.flatten ++ rest)) txs.length 0
          (header ++ compactSize txs.length).length) es r ↔
        ∃ r', (oneTxSlices tx parts).Visited 0 txs es r'
          ∧ r = r'.mapError (badTransaction (oneTxSlices tx parts)) :=
      exec_visitTxs documented_oneTxSlices htxs
    rwa [List.append_assoc, ← hb, List.length_append, hlen80] at h
  obtain rfl : b.take 80 = header := by
    rw [hb, List.take_left' hlen80]
  constructor
  · intro h
    obtain ⟨answer, es', he, hgo⟩ := exec_perform_bind.mp h
    cases he
    rw [if_neg (by decide), hscan, exec_lift_ok_bind] at hgo
    obtain ⟨reply, es', rfl, hrest⟩ := exec_perform_bind.mp hgo
    obtain ⟨r', hvisit, rfl⟩ := exec_mapError.mp hrest
    obtain ⟨r', hvisited, rfl⟩ := (hloop _ _).mp hvisit
    refine ⟨r', ⟨es', rfl, hvisited⟩, ?_⟩
    cases r' <;> rfl
  · rintro ⟨r', ⟨es', rfl, hvisited⟩, rfl⟩
    refine exec_perform_bind.mpr ⟨_, _, rfl, ?_⟩
    rw [if_neg (by decide), hscan, exec_lift_ok_bind]
    refine exec_perform_bind.mpr ⟨_, _, rfl, ?_⟩
    refine exec_mapError.mpr ⟨_, (hloop _ _).mpr ⟨r', hvisited, rfl⟩, ?_⟩
    cases r' <;> rfl

theorem documentedBlock_visitOneTxBlock :
    (oneTxSlices tx parts).DocumentedBlock (· = tx) (visitOneTxBlock tx parts) where
  ok_iff _ _ _ _ hlen hn htxs :=
    ok_iff_of_mapError fun _ => exec_visitOneTxBlock rfl hlen hn htxs
  error_iff _ _ _ _ hlen hn htxs :=
    error_iff_of_mapError fun _ => exec_visitOneTxBlock rfl hlen hn htxs

end OneTx

/-- The parts of the transaction that a visitor is called with. -/
def regtestParts19 : List PartCall :=
  [.txIn 0 (sub regtestTx19 7 44), .txOut 0 (sub regtestTx19 52 34),
    .txOut 1 (sub regtestTx19 86 47), .transaction regtestTx19]

/-- Block 19 of regtest, with its one transaction. -/
def regtestBlock19 : Bytes :=
  (AnyHeader.v1 regtestHeader19).serialize
    ++ (compactSize [regtestTx19].length ++ ([regtestTx19].flatten ++ []))

/-- The answers of a visitor that never breaks off. -/
def goOn : (call : VisitorCall partCalls) → call.Answer
  | .blockHeader _ => ControlFlow.Continue
  | .blockBegin _ => ()
  | .transaction _ => ControlFlow.Continue

theorem not_breaks_goOn {ε α : Type} {p : VisitM partCalls ε α} {e : VisitorEvent partCalls}
    (he : e ∈ (p.run (fun _ => goOn) []).1) : ¬ Breaks e := by
  obtain ⟨pre, post, hsplit⟩ := List.append_of_mem he
  have hreply : e.reply = goOn e.op := reply_of_run hsplit
  rcases e with ⟨call, reply⟩
  obtain rfl : reply = goOn call := hreply
  cases call with
  | blockHeader header => exact fun h => by cases h
  | blockBegin totalTxs => exact id
  | transaction c => exact fun h => by cases h

theorem visitBlockTxs_walks_regtest19 :
    ∃ es, (oneTxSlices regtestTx19 regtestParts19).Visited 0 [regtestTx19] es (.ok ())
      ∧ Exec (visitOneTxBlock regtestTx19 regtestParts19 regtestBlock19)
        (⟨.blockHeader regtestHeader19.serialize, ControlFlow.Continue⟩
          :: ⟨.blockBegin 1, ()⟩ :: es)
        (.ok ()) := by
  let S := oneTxSlices regtestTx19 regtestParts19
  let p := visitBlockTxs S regtestBlock19 (.v1 regtestHeader19)
  have hparse : AnyHeader.parse regtestBlock19 = .ok (.v1 regtestHeader19) :=
    AnyHeader.parse_serialize_append (by decide +kernel) _
  have hdoc : S.Documented (· = regtestTx19) := documented_oneTxSlices
  have walks := visitBlockTxs_walks hdoc documentedBlock_visitOneTxBlock hparse
  have hexec : Exec p (p.run (fun _ => goOn) []).1 (p.run (fun _ => goOn) []).2 := exec_run _ _ _
  obtain ⟨hrun, hupstream⟩ := walks.1 [regtestTx19] [] (fun t ht => List.mem_singleton.mp ht)
    (by decide) rfl
  obtain ⟨es, hes, hgone⟩ := hrun _ _ hexec
  rcases hgone with ⟨-, hok, hvisited⟩ | ⟨⟨e, he, hbreak⟩, -⟩
  · rw [hes, hok] at hexec
    exact ⟨es, hvisited, (hupstream rfl _).1.mp hexec⟩
  · exact absurd hbreak (not_breaks_goOn (by rw [hes]; exact List.mem_cons_of_mem _ he))

end PrunedElectrs
