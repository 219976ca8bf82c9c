/-
PrunedElectrs/Chain.lean

The server's header chain: a vector of headers by height, and a map from block
hashes to heights.

`update` truncates the vector at the first new height and appends; everything
that changes a chain goes through it.  `getNewHeaders` numbers the headers of a
`headers` message from the block it attaches to, `load` rebuilds the chain from
an unordered set of headers by walking back from a tip, and `dropLastHeaders`
rewinds by appending an existing header again.

The working invariant is `Chain.Path c L`: the vector is the list `L` of
headers with their hashes, `L` is hash-linked from the genesis header up, and
the map is its inverse.  A chain is determined by its path (`Path.unique`), so
two ways of reaching the same path reach the same chain; `Path.update` is the
step lemma all operations share, and `representation` the result over runs.
-/
import PrunedElectrs.Stages
import PrunedElectrs.Lib.HashLinked
import PrunedElectrs.Lib.Inverse
import Mathlib.Data.List.Perm.Subperm

namespace PrunedElectrs

open Wire HashLinked

/-- A new header found, to be added to the chain at a specific height. -/
structure NewHeader where
  header : AnyHeader
  hash : BlockHash
  height : ℕ

/-- A header with its hash, at a height. -/
def NewHeader.ofHeader (H : Hashes) (header : AnyHeader) (height : ℕ) : NewHeader where
  hash := header.blockHash H
  header := header
  height := height

/-- Current blockchain headers' list. -/
structure Chain where
  headers : List (BlockHash × AnyHeader)
  heights : BlockHash → Option ℕ

namespace Chain

variable (H : Hashes)

/-- The chain of the genesis header alone. -/
def new (genesis : HeaderV1) : Chain where
  headers := [(genesis.blockHash H, .v1 genesis)]
  heights := insertKey (fun _ => none) (genesis.blockHash H) 0

/-- The height of the tip. -/
def height (c : Chain) : ℕ := c.headers.length - 1

/-- The height of a block, by its hash. -/
def getBlockHeight (c : Chain) (hash : BlockHash) : Option ℕ := c.heights hash

/-- The hash of the block at a height. -/
def getBlockHash (c : Chain) (height : ℕ) : Option BlockHash := c.headers[height]?.map Prod.fst

/-- The header of the block at a height. -/
def getBlockHeader (c : Chain) (height : ℕ) : Option AnyHeader := c.headers[height]?.map Prod.snd

/-- Truncate at the first new height, and append. -/
def update (c : Chain) (headers : List NewHeader) : Rust Chain :=
  match headers with
  | [] => .ok c
  | first :: _ =>
      -- `drain(first.height..)`
      if first.height ≤ c.headers.length then
        let drained := (c.headers.drop first.height).foldl (fun m p => removeKey m p.1) c.heights
        .ok { headers := c.headers.take first.height ++ headers.map fun h => (h.hash, h.header)
              heights := headers.foldl (fun m h => insertKey m h.hash h.height) drained }
      else .error (.panic "range start index out of range")

/-- The headers of a run, numbered from `start` on. -/
def number (start : ℕ) (headers : List AnyHeader) : List NewHeader :=
  (headers.zipIdx start).map fun p => NewHeader.ofHeader H p.1 p.2

/-- What a `headers` message adds to the chain. -/
def getNewHeaders (c : Chain) (headers : List AnyHeader) : Rust (List NewHeader) :=
  match headers.head? with
  | none => .ok []
  | some first =>
      match c.getBlockHeight first.prevBlockhash with
      | some lastHeight => .ok (number H (lastHeight + 1) headers)
      | none => bail s!"missing prev_blockhash: {displayHash first.prevBlockhash}"

/-- `update` with the list `getNewHeaders` returns. -/
def receive (c : Chain) (headers : List AnyHeader) : Rust Chain := do
  c.update (← c.getNewHeaders H headers)

/-- Drop the last headers, and their heights. -/
def dropLastHeaders (c : Chain) (n : ℕ) : Rust Chain :=
  if n = 0 then .ok c
  else
    let newHeight := c.height - n
    match c.headers[newHeight]? with
    | none => .error (.panic "index out of bounds")
    | some p => c.update [NewHeader.ofHeader H p.2 newHeight]

/-- The headers by hash; of two with the same hash the later one is kept. -/
def headerMap (headers : List AnyHeader) : BlockHash → Option AnyHeader :=
  headers.foldl (fun m h => insertKey m (h.blockHash H) h) fun _ => none

/-- The walk of `load` from `blockhash` down to the genesis hash.  A walk of
more steps than there are headers has come back to where it was. -/
def loadLoop (headerMap : BlockHash → Option AnyHeader) (genesisHash : BlockHash) :
    ℕ → BlockHash → List AnyHeader → Rust (List AnyHeader)
  | steps, blockhash, newHeaders =>
      if blockhash = genesisHash then .ok newHeaders
      else
        match steps with
        | 0 => .error .diverge
        | steps + 1 =>
            match headerMap blockhash with
            | none =>
                .error (.panic s!"missing header {displayHash blockhash} while loading from DB")
            | some header =>
                loadLoop headerMap genesisHash steps header.prevBlockhash (newHeaders ++ [header])

/-- Load the chain from a collection of headers, up to the given tip. -/
def load (c : Chain) (headers : List AnyHeader) (tip : BlockHash) : Rust Chain :=
  match c.headers[0]? with
  | none => .error (.panic "index out of bounds")
  | some p => do
      let newHeaders ← loadLoop (headerMap H headers) p.1 (headers.length + 1) tip []
      c.update (number H 1 newHeaders.reverse)

/-! ### The path a chain stands for -/

/-- `b` is a possible successor of `a`. -/
abbrev Link : AnyHeader → AnyHeader → Prop :=
  On (AnyHeader.blockHash H) AnyHeader.prevBlockhash

/-- The hashes of these headers are apart: no two collide, and none is the
hash the genesis header names as its predecessor. -/
abbrev HashesApart (genesis : HeaderV1) (U : Set AnyHeader) : Prop :=
  Apart (AnyHeader.blockHash H) AnyHeader.prevBlockhash (.v1 genesis) U

/-- A header as the chain keeps it, with its hash. -/
def entry (h : AnyHeader) : BlockHash × AnyHeader := (h.blockHash H, h)

/-- The chain `c` is the path `L`, from the genesis header up. -/
structure Path (genesis : HeaderV1) (c : Chain) (L : List AnyHeader) : Prop where
  headers : c.headers = L.map (entry H)
  head : L.head? = some (.v1 genesis)
  linked : L.IsChain (Link H)
  heights : IsInverse c.heights (L.map (AnyHeader.blockHash H))

variable {H} {genesis : HeaderV1} {c : Chain} {L : List AnyHeader}

theorem map_fst_entry (L : List AnyHeader) :
    (L.map (entry H)).map Prod.fst = L.map (AnyHeader.blockHash H) := by
  rw [List.map_map]
  rfl

theorem map_entry_number (start : ℕ) (L : List AnyHeader) :
    (number H start L).map (fun h => (h.hash, h.header)) = L.map (entry H) := by
  rw [number, List.map_map, ← List.zipIdx_map_fst start L, List.map_map,
    List.zipIdx_map_fst]
  rfl

theorem map_hash_number (start : ℕ) (L : List AnyHeader) :
    (number H start L).map NewHeader.hash = L.map (AnyHeader.blockHash H) := by
  rw [number, List.map_map, ← List.zipIdx_map_fst start L, List.map_map,
    List.zipIdx_map_fst]
  rfl

/-- A numbered list is cut where the list is. -/
theorem number_eq_append {start : ℕ} {L : List AnyHeader} {as bs : List NewHeader}
    (e : number H start L = as ++ bs) :
    ∃ M N, L = M ++ N ∧ as = number H start M ∧ bs = number H (start + M.length) N := by
  induction as generalizing start L with
  | nil => exact ⟨[], L, rfl, rfl, e.symm⟩
  | cons a as ih =>
      cases L with
      | nil => cases e
      | cons x L =>
          rw [number, List.zipIdx_cons, List.map_cons, List.cons_append, List.cons.injEq] at e
          obtain ⟨M, N, rfl, rfl, rfl⟩ := ih e.2
          refine ⟨x :: M, N, rfl, ?_, ?_⟩
          · rw [← e.1]
            rfl
          · rw [List.length_cons, Nat.add_right_comm start, Nat.add_assoc start]

theorem head_append_of_head {L M : List AnyHeader} {g : AnyHeader} (h : L.head? = some g) :
    (L ++ M).head? = some g := by
  cases L with
  | nil => cases h
  | cons x L => exact h

namespace Path

/-- A chain is determined by its path. -/
theorem unique {c' : Chain} (h : Path H genesis c L) (h' : Path H genesis c' L) : c = c' := by
  rcases c with ⟨headers, heights⟩
  rcases c' with ⟨headers', heights'⟩
  obtain rfl : headers = headers' := h.headers.trans h'.headers.symm
  have hheights : heights = heights' := by
    have hinv : IsInverse heights _ := h.heights
    have hinv' : IsInverse heights' _ := h'.heights
    funext k
    rcases e : heights k with - | i
    · rcases e' : heights' k with - | i'
      · rfl
      · rw [(hinv k i').mpr ((hinv' k i').mp e')] at e
        cases e
    · exact ((hinv' k i).mpr ((hinv k i).mp e)).symm
  rw [hheights]

theorem length_eq (h : Path H genesis c L) : c.headers.length = L.length := by
  rw [h.headers, List.length_map]

theorem length_pos (h : Path H genesis c L) : 0 < L.length := by
  have hhead := h.head
  cases L with
  | nil => cases hhead
  | cons x L => exact Nat.succ_pos _

end Path

theorem nodup_of_linked (hhead : L.head? = some (.v1 genesis)) (hlinked : L.IsChain (Link H))
    (hapart : HashesApart H genesis {a | a ∈ L}) : (L.map (AnyHeader.blockHash H)).Nodup := by
  cases L with
  | nil => exact List.nodup_nil
  | cons g L =>
      obtain rfl : g = .v1 genesis := by simpa using hhead
      exact nodup_map_hash hlinked hapart

theorem path_new (genesis : HeaderV1) : Path H genesis (new H genesis) [.v1 genesis] where
  headers := rfl
  head := rfl
  linked := List.isChain_singleton _
  heights := by
    intro k i
    show insertKey (fun _ => none) (genesis.blockHash H) 0 k = some i ↔ _
    by_cases hk : k = genesis.blockHash H
    · subst hk
      rw [insertKey_self, Option.some.injEq]
      cases i with
      | zero => simp [AnyHeader.blockHash]
      | succ i => simp
    · rw [insertKey_of_ne hk]
      cases i with
      | zero => simp [AnyHeader.blockHash, Ne.symm hk]
      | succ i => simp

/-- Numbered insertion, as the map sees it. -/
theorem foldl_number (m : BlockHash → Option ℕ) (start : ℕ) (hs : List AnyHeader) :
    (number H start hs).foldl (fun m h => insertKey m h.hash h.height) m
      = ((hs.map (AnyHeader.blockHash H)).zipIdx start).foldl
          (fun m p => insertKey m p.1 p.2) m := by
  induction hs generalizing m start with
  | nil => rfl
  | cons h hs ih =>
      rw [number, List.zipIdx_cons, List.map_cons, List.foldl_cons, List.map_cons,
        List.zipIdx_cons, List.foldl_cons]
      exact ih _ _

theorem foldl_drained (m : BlockHash → Option ℕ) (d : List (BlockHash × AnyHeader)) :
    d.foldl (fun m p => removeKey m p.1) m = (d.map Prod.fst).foldl removeKey m := by
  rw [List.foldl_map]

/-- **The step all operations share**: truncating at `start` and appending
`hs` turns the path into `L.take start ++ hs`. -/
theorem Path.update (h : Path H genesis c L) {start : ℕ} {hs : List AnyHeader} (hne : hs ≠ [])
    (hstart : start ≤ L.length) (hhead : (L.take start ++ hs).head? = some (.v1 genesis))
    (hlinked : (L.take start ++ hs).IsChain (Link H))
    (hold : HashesApart H genesis {a | a ∈ L})
    (hnew : HashesApart H genesis {a | a ∈ L.take start ++ hs}) :
    ∃ c', c.update (number H start hs) = .ok c' ∧ Path H genesis c' (L.take start ++ hs) := by
  obtain ⟨first, rest, rfl⟩ := List.exists_cons_of_ne_nil hne
  have hnumber : number H start (first :: rest)
      = NewHeader.ofHeader H first start :: number H (start + 1) rest := by
    rw [number, List.zipIdx_cons, List.map_cons]
    rfl
  have hupdate : c.update (number H start (first :: rest)) = .ok
      { headers := c.headers.take start
          ++ (number H start (first :: rest)).map fun h => (h.hash, h.header)
        heights := (number H start (first :: rest)).foldl
          (fun m h => insertKey m h.hash h.height)
          ((c.headers.drop start).foldl (fun m p => removeKey m p.1) c.heights) } := by
    rw [hnumber, Chain.update, ← hnumber]
    exact if_pos (by rw [h.length_eq]; exact hstart)
  refine ⟨_, hupdate, ⟨?_, hhead, hlinked, ?_⟩⟩
  · show c.headers.take start ++ _ = _
    rw [map_entry_number, h.headers, ← List.map_take, ← List.map_append]
  -- the loops remove the hashes from `start` on and enter the new ones
  · show IsInverse (List.foldl _ (List.foldl _ _ (c.headers.drop start)) _) _
    rw [foldl_number, foldl_drained, List.map_append, h.headers, ← List.map_drop, map_fst_entry]
    have hsplit : L.map (AnyHeader.blockHash H)
        = (L.take start).map (AnyHeader.blockHash H)
          ++ (L.drop start).map (AnyHeader.blockHash H) := by
      rw [← List.map_append, List.take_append_drop]
    have hkept := (hsplit ▸ h.heights).foldl_remove
      (hsplit ▸ nodup_of_linked h.head h.linked hold)
    have hlen : ((L.take start).map (AnyHeader.blockHash H)).length = start := by
      rw [List.length_map, List.length_take, Nat.min_eq_left hstart]
    have hinsert := hkept.foldl_insert
      (List.map_append ▸ nodup_of_linked hhead hlinked hnew)
    rwa [hlen] at hinsert

/-! ### The operations -/

section Operations

variable {U : Set AnyHeader} (hU : HashesApart H genesis U)

theorem apart_of_subset (hU : HashesApart H genesis U) {M : List AnyHeader}
    (hM : ∀ a ∈ M, a ∈ U) : HashesApart H genesis {a | a ∈ M} := hU.mono hM

theorem receive_cons {first : AnyHeader} {rest : List AnyHeader} {i : ℕ}
    (hi : c.heights first.prevBlockhash = some i) :
    c.receive H (first :: rest) = c.update (number H (i + 1) (first :: rest)) := by
  rw [receive, getNewHeaders]
  simp only [List.head?_cons, getBlockHeight, hi]
  rfl

theorem receive_unknown {first : AnyHeader} {rest : List AnyHeader}
    (hi : c.heights first.prevBlockhash = none) :
    c.receive H (first :: rest)
      = bail s!"missing prev_blockhash: {displayHash first.prevBlockhash}" := by
  rw [receive, getNewHeaders]
  simp only [List.head?_cons, getBlockHeight, hi]
  rfl

theorem isChain_take_append {i : ℕ} {first x : AnyHeader} {rest : List AnyHeader}
    (hL : L.IsChain (Link H)) (hx : L[i]? = some x) (hprev : first.prevBlockhash = x.blockHash H)
    (hrest : (first :: rest).IsChain (Link H)) :
    (L.take (i + 1) ++ first :: rest).IsChain (Link H) := by
  obtain ⟨hi, rfl⟩ := List.getElem?_eq_some_iff.mp hx
  refine List.isChain_append.mpr ⟨hL.take _, hrest, ?_⟩
  intro y hy z hz
  rw [List.take_succ_eq_append_getElem hi, List.getLast?_concat, Option.mem_some_iff] at hy
  rw [List.head?_cons, Option.mem_some_iff] at hz
  rw [← hy, ← hz]
  exact hprev

theorem head_take_append {k : ℕ} (hk : 0 < k) (hL : L.head? = some (.v1 genesis))
    (M : List AnyHeader) : (L.take k ++ M).head? = some (.v1 genesis) := by
  apply head_append_of_head
  rwa [List.head?_take, if_neg (by omega)]

theorem mem_take_append (hL : ∀ a ∈ L, a ∈ U) {M : List AnyHeader} (hM : ∀ a ∈ M, a ∈ U) (k : ℕ) :
    ∀ a ∈ L.take k ++ M, a ∈ U := by
  intro a ha
  rcases List.mem_append.mp ha with ha | ha
  · exact hL a (List.mem_of_mem_take ha)
  · exact hM a ha

include hU

/-- A message that attaches at height `i` replaces what is above `i`. -/
theorem Path.receive (h : Path H genesis c L) (hLU : ∀ a ∈ L, a ∈ U) {first : AnyHeader}
    {rest : List AnyHeader} (hmsg : (first :: rest).IsChain (Link H))
    (hmsgU : ∀ a ∈ first :: rest, a ∈ U) {i : ℕ}
    (hi : c.heights first.prevBlockhash = some i) :
    ∃ c', c.receive H (first :: rest) = .ok c'
      ∧ Path H genesis c' (L.take (i + 1) ++ first :: rest) := by
  have hget := (h.heights _ _).mp hi
  rw [List.getElem?_map, Option.map_eq_some_iff] at hget
  obtain ⟨x, hx, hxprev⟩ := hget
  have hlen : i < L.length := (List.getElem?_eq_some_iff.mp hx).1
  rw [receive_cons hi]
  refine h.update (List.cons_ne_nil _ _) hlen (head_take_append (Nat.succ_pos i) h.head _)
    (isChain_take_append h.linked hx hxprev.symm hmsg) (apart_of_subset hU hLU)
    (apart_of_subset hU (mem_take_append hLU hmsgU _))

theorem Path.returns_receive (h : Path H genesis c L) (hLU : ∀ a ∈ L, a ∈ U)
    {msg : List AnyHeader} (hmsg : msg.IsChain (Link H)) (hmsgU : ∀ a ∈ msg, a ∈ U) :
    Returns (c.receive H msg) := by
  cases msg with
  | nil => exact returns_ok c
  | cons first rest =>
      rcases hi : c.heights first.prevBlockhash with - | i
      · rw [receive_unknown hi]
        exact returns_bail _
      · obtain ⟨c', hc', -⟩ := h.receive hU hLU hmsg hmsgU hi
        rw [hc']
        exact returns_ok c'

/-- Cutting a message in two changes nothing. -/
theorem Path.receive_append (h : Path H genesis c L) (hLU : ∀ a ∈ L, a ∈ U)
    {as bs : List AnyHeader} (hmsg : (as ++ bs).IsChain (Link H))
    (hmsgU : ∀ a ∈ as ++ bs, a ∈ U) :
    (c.receive H as >>= fun c' => c'.receive H bs) = c.receive H (as ++ bs) := by
  obtain ⟨has, hbs, hjoin⟩ := List.isChain_append.mp hmsg
  cases as with
  | nil => rfl
  | cons a as =>
      cases bs with
      | nil =>
          rw [List.append_nil]
          rcases c.receive H (a :: as) with e | c' <;> rfl
      | cons b bs =>
          rcases hi : c.heights a.prevBlockhash with - | i
          · rw [List.cons_append, receive_unknown hi, receive_unknown hi]
            rfl
          have hasU : ∀ x ∈ a :: as, x ∈ U := fun x hx => hmsgU x (List.mem_append_left _ hx)
          have hbsU : ∀ x ∈ b :: bs, x ∈ U := fun x hx => hmsgU x (List.mem_append_right _ hx)
          obtain ⟨c₁, hc₁, h₁⟩ := h.receive hU hLU has hasU hi
          obtain ⟨c₂, hc₂, h₂⟩ : ∃ c₂, c.receive H (a :: as ++ b :: bs) = .ok c₂
              ∧ Path H genesis c₂ (L.take (i + 1) ++ (a :: as ++ b :: bs)) :=
            h.receive hU hLU hmsg hmsgU hi
          have hlen : i < L.length := by
            have := (List.getElem?_eq_some_iff.mp ((h.heights _ _).mp hi)).1
            rwa [List.length_map] at this
          -- the second part attaches to the last header of the first
          have hlast : (L.take (i + 1) ++ a :: as)[i + 1 + as.length]?
              = some ((a :: as).getLast (List.cons_ne_nil _ _)) := by
            rw [List.getElem?_append_right (by rw [List.length_take]; omega), List.length_take,
              Nat.min_eq_left hlen, Nat.add_sub_cancel_left, List.getLast_eq_getElem,
              List.getElem?_eq_getElem (by rw [List.length_cons]; omega)]
            rfl
          have hprev : b.prevBlockhash
              = ((a :: as).getLast (List.cons_ne_nil _ _)).blockHash H :=
            hjoin _ (List.getLast?_eq_some_getLast (List.cons_ne_nil _ _)) b rfl
          have hj : c₁.heights b.prevBlockhash = some (i + 1 + as.length) := by
            refine (h₁.heights _ _).mpr ?_
            rw [List.getElem?_map, hlast, hprev, Option.map_some]
          have h₁U : ∀ x ∈ L.take (i + 1) ++ a :: as, x ∈ U := mem_take_append hLU hasU _
          obtain ⟨c₃, hc₃, h₃⟩ := h₁.receive hU h₁U hbs hbsU hj
          have hall : (L.take (i + 1) ++ a :: as).take (i + 1 + as.length + 1)
              = L.take (i + 1) ++ a :: as := by
            refine List.take_of_length_le ?_
            rw [List.length_append, List.length_take, List.length_cons]
            omega
          rw [hall, List.append_assoc] at h₃
          rw [hc₁, ok_bind, hc₂, hc₃, h₂.unique h₃]

/-- However a message is cut into consecutive messages, the chain is the same. -/
theorem Path.foldlM_receive (h : Path H genesis c L) (hLU : ∀ a ∈ L, a ∈ U)
    {chunks : List (List AnyHeader)} (hmsg : chunks.flatten.IsChain (Link H))
    (hmsgU : ∀ a ∈ chunks.flatten, a ∈ U) :
    chunks.foldlM (Chain.receive H) c = c.receive H chunks.flatten := by
  induction chunks generalizing c L with
  | nil => rfl
  | cons as chunks ih =>
      rw [List.flatten_cons] at hmsg hmsgU ⊢
      -- the first chunk and the rest are one message
      rw [List.foldlM_cons, ← h.receive_append hU hLU hmsg hmsgU]
      obtain ⟨has, hrest, -⟩ := List.isChain_append.mp hmsg
      have hasU : ∀ x ∈ as, x ∈ U := fun x hx => hmsgU x (List.mem_append_left _ hx)
      have hrestU : ∀ x ∈ chunks.flatten, x ∈ U := fun x hx => hmsgU x (List.mem_append_right _ hx)
      cases as with
      | nil => exact ih h hLU hrest hrestU
      | cons a as =>
          rcases hi : c.heights a.prevBlockhash with - | i
          · rw [receive_unknown hi]
            rfl
          · obtain ⟨c₁, hc₁, h₁⟩ := h.receive hU hLU has hasU hi
            have h₁U : ∀ x ∈ L.take (i + 1) ++ a :: as, x ∈ U := mem_take_append hLU hasU _
            rw [hc₁]
            exact ih h₁ h₁U hrest hrestU

/-- Rewinding keeps the first `max 1 (len - n)` headers. -/
theorem Path.dropLastHeaders (h : Path H genesis c L) (hLU : ∀ a ∈ L, a ∈ U) (n : ℕ) :
    ∃ c', c.dropLastHeaders H n = .ok c'
      ∧ Path H genesis c' (L.take (max 1 (L.length - n))) := by
  have hpos := h.length_pos
  by_cases hn : n = 0
  · subst hn
    refine ⟨c, rfl, ?_⟩
    rwa [Nat.sub_zero, Nat.max_eq_right hpos, List.take_length]
  · have hk : c.height - n < L.length := by
      rw [height, h.length_eq]
      omega
    have hget : c.headers[c.height - n]? = some (entry H L[c.height - n]) := by
      rw [h.headers, List.getElem?_map, List.getElem?_eq_getElem hk]
      rfl
    -- the header that is appended again is the last one that is kept
    have hkeep : L.take (c.height - n) ++ [L[c.height - n]]
        = L.take (max 1 (L.length - n)) := by
      rw [← List.take_succ_eq_append_getElem hk, height, h.length_eq]
      congr 1
      omega
    have hhead : (L.take (max 1 (L.length - n))).head? = some (.v1 genesis) := by
      have := head_take_append (show 0 < max 1 (L.length - n) by omega) h.head []
      rwa [List.append_nil] at this
    rw [Chain.dropLastHeaders, if_neg hn]
    simp only [hget]
    rw [← hkeep] at hhead ⊢
    have hsub : ∀ a ∈ L.take (c.height - n) ++ [L[c.height - n]], a ∈ U := by
      rw [hkeep]
      exact fun a ha => hLU a (List.mem_of_mem_take ha)
    exact h.update (List.cons_ne_nil _ _) hk.le hhead (hkeep ▸ h.linked.take _)
      (apart_of_subset hU hLU) (apart_of_subset hU hsub)

end Operations

/-! ### Loading -/

theorem headerMap_spec {rows : List AnyHeader} {k : BlockHash} {h : AnyHeader}
    (e : headerMap H rows k = some h) : h ∈ rows ∧ h.blockHash H = k := by
  -- the last row with that hash is the one kept, so induction from the right
  induction rows using List.reverseRecOn with
  | nil => cases e
  | append_singleton rows x ih =>
      rw [headerMap, List.foldl_append, List.foldl_cons, List.foldl_nil] at e
      by_cases hk : k = x.blockHash H
      · rw [hk, insertKey_self, Option.some.injEq] at e
        subst e
        exact ⟨by simp, hk.symm⟩
      · rw [insertKey_of_ne hk] at e
        obtain ⟨hmem, hhash⟩ := ih e
        exact ⟨List.mem_append_left _ hmem, hhash⟩

theorem headerMap_of_mem {rows : List AnyHeader} {h : AnyHeader} (hmem : h ∈ rows)
    (hinj : Set.InjOn (AnyHeader.blockHash H) {a | a ∈ rows}) :
    headerMap H rows (h.blockHash H) = some h := by
  have hsome : ∃ h', headerMap H rows (h.blockHash H) = some h' := by
    clear hinj
    induction rows using List.reverseRecOn with
    | nil => cases hmem
    | append_singleton rows x ih =>
        rw [headerMap, List.foldl_append, List.foldl_cons, List.foldl_nil]
        by_cases hk : h.blockHash H = x.blockHash H
        · exact ⟨x, by rw [hk, insertKey_self]⟩
        · rw [insertKey_of_ne hk]
          refine ih ?_
          rcases List.mem_append.mp hmem with hm | hm
          · exact hm
          · rw [List.mem_singleton] at hm
            exact absurd (congrArg _ hm) hk
  obtain ⟨h', e⟩ := hsome
  obtain ⟨hmem', hhash⟩ := headerMap_spec e
  rw [e, hinj hmem' hmem hhash]

theorem loadLoop_genesis (map : BlockHash → Option AnyHeader) (g : BlockHash) (steps : ℕ)
    (acc : List AnyHeader) : loadLoop map g steps g acc = .ok acc := by
  cases steps <;> exact if_pos rfl

theorem loadLoop_succ {map : BlockHash → Option AnyHeader} {g k : BlockHash} (hk : k ≠ g)
    {header : AnyHeader} (hm : map k = some header) (steps : ℕ) (acc : List AnyHeader) :
    loadLoop map g (steps + 1) k acc
      = loadLoop map g steps header.prevBlockhash (acc ++ [header]) := by
  rw [loadLoop, if_neg hk]
  simp only [hm]

/-- A walk that ends has gone down a linked path to the genesis header. -/
theorem loadLoop_spec {map : BlockHash → Option AnyHeader}
    (hmap : ∀ {k h}, map k = some h → h.blockHash H = k) {steps : ℕ} {k : BlockHash}
    {acc r : List AnyHeader} (e : loadLoop map (genesis.blockHash H) steps k acc = .ok r) :
    ∃ w, r = acc ++ w ∧ (.v1 genesis :: w.reverse).IsChain (Link H)
      ∧ ((AnyHeader.v1 genesis :: w.reverse).getLast (List.cons_ne_nil _ _)).blockHash H = k
      ∧ ∀ a ∈ w, ∃ k, map k = some a := by
  induction steps generalizing k acc with
  | zero =>
      rw [loadLoop] at e
      split_ifs at e with hk
      cases e
      exact ⟨[], by simp, List.isChain_singleton _, hk.symm, by simp⟩
  | succ steps ih =>
      rw [loadLoop] at e
      split_ifs at e with hk
      · cases e
        exact ⟨[], by simp, List.isChain_singleton _, hk.symm, by simp⟩
      rcases hm : map k with - | header
      · simp only [hm] at e
        cases e
      simp only [hm] at e
      obtain ⟨w, rfl, hlinked, hlast, hw⟩ := ih e
      -- what the rest of the walk found is below `header`
      refine ⟨header :: w, by simp, ?_, ?_, ?_⟩
      · rw [List.reverse_cons, ← List.cons_append]
        refine List.isChain_append.mpr ⟨hlinked, List.isChain_singleton _, ?_⟩
        intro x hx y hy
        rw [List.getLast?_eq_some_getLast (List.cons_ne_nil _ _), Option.mem_some_iff] at hx
        rw [List.head?_cons, Option.mem_some_iff] at hy
        rw [← hx, ← hy]
        exact hlast.symm
      · simp only [List.reverse_cons, ← List.cons_append, List.getLast_append_singleton]
        exact hmap hm
      · rintro a (- | ⟨-, ha⟩)
        · exact ⟨k, hm⟩
        · exact hw a ha

/-- The walk from the end of a linked path, all of which is in the map, finds
the path. -/
theorem loadLoop_path {map : BlockHash → Option AnyHeader} {p : List AnyHeader}
    (hlinked : (.v1 genesis :: p).IsChain (Link H))
    (hnodup : ((.v1 genesis :: p).map (AnyHeader.blockHash H)).Nodup)
    (hmap : ∀ a ∈ p, map (a.blockHash H) = some a) {steps : ℕ} (hsteps : p.length ≤ steps)
    (acc : List AnyHeader) :
    loadLoop map (genesis.blockHash H) steps
        (((AnyHeader.v1 genesis :: p).getLast (List.cons_ne_nil _ _)).blockHash H) acc
      = .ok (acc ++ p.reverse) := by
  induction p using List.reverseRecOn generalizing steps acc with
  | nil =>
      rw [List.reverse_nil, List.append_nil]
      exact loadLoop_genesis _ _ _ _
  | append_singleton q a ih =>
      rw [List.length_append, List.length_singleton] at hsteps
      obtain ⟨steps, rfl⟩ : ∃ n, steps = n + 1 := ⟨steps - 1, by omega⟩
      rw [← List.cons_append] at hlinked hnodup
      obtain ⟨hq, -, hjoin⟩ := List.isChain_append.mp hlinked
      rw [List.map_append] at hnodup
      -- the walk does not stop early: no header above genesis has its hash
      have hne : a.blockHash H ≠ genesis.blockHash H := fun e =>
        (List.nodup_append.mp hnodup).2.2 (genesis.blockHash H)
          (List.mem_map_of_mem List.mem_cons_self) (a.blockHash H) (by simp) e.symm
      have hprev : a.prevBlockhash
          = ((AnyHeader.v1 genesis :: q).getLast (List.cons_ne_nil _ _)).blockHash H :=
        hjoin _ (List.getLast?_eq_some_getLast (List.cons_ne_nil _ _)) a rfl
      simp only [← List.cons_append, List.getLast_append_singleton]
      have hmapq : ∀ b ∈ q, map (b.blockHash H) = some b := fun b hb => hmap b (by simp [hb])
      rw [loadLoop_succ hne (hmap a (by simp)), hprev,
        ih hq (List.nodup_append.mp hnodup).1 hmapq (by omega)]
      simp

/-- Loading finds the path of a tip whose ancestors are all there. -/
theorem load_new {U : Set AnyHeader} (hU : HashesApart H genesis U) {p headers : List AnyHeader}
    (hlinked : (.v1 genesis :: p).IsChain (Link H)) (hpU : ∀ a ∈ .v1 genesis :: p, a ∈ U)
    (hhU : ∀ a ∈ headers, a ∈ U) (hp : ∀ a ∈ p, a ∈ headers) :
    ∃ c, (new H genesis).load H headers
        (((AnyHeader.v1 genesis :: p).getLast (List.cons_ne_nil _ _)).blockHash H) = .ok c
      ∧ Path H genesis c (.v1 genesis :: p) := by
  have hnodup := nodup_map_hash hlinked (apart_of_subset hU hpU)
  -- the loop has a round for each row, and the path is among the rows
  have hlen : p.length ≤ headers.length :=
    (List.subperm_of_subset (List.nodup_cons.mp (hnodup.of_map _)).2 hp).length_le
  have hmap : ∀ a ∈ p, headerMap H headers (a.blockHash H) = some a := fun a ha =>
    headerMap_of_mem (hp a ha) (hU.inj.mono hhU)
  have hloop := loadLoop_path hlinked hnodup hmap (Nat.le_succ_of_le hlen) []
  have hload : (new H genesis).load H headers
      (((AnyHeader.v1 genesis :: p).getLast (List.cons_ne_nil _ _)).blockHash H)
        = (new H genesis).update (number H 1 p) := by
    rw [Chain.load]
    simp only [new, List.getElem?_cons_zero]
    rw [hloop, ok_bind, List.nil_append, List.reverse_reverse]
  rw [hload]
  by_cases hne : p = []
  · subst hne
    exact ⟨_, rfl, path_new genesis⟩
  · exact (path_new genesis).update hne (Nat.le_refl 1) rfl hlinked
      (apart_of_subset hU (by simpa using hpU _ List.mem_cons_self)) (apart_of_subset hU hpU)

theorem Path.load {U : Set AnyHeader} (hU : HashesApart H genesis U) (h : Path H genesis c L)
    (hLU : ∀ a ∈ L, a ∈ U) {rows : List AnyHeader} (hrows : ∀ a ∈ rows, a ∈ U)
    {tip : BlockHash} {c' : Chain} (e : c.load H rows tip = .ok c') :
    ∃ L', Path H genesis c' L' ∧ ∀ a ∈ L', a ∈ U := by
  have hgenesis : c.headers[0]? = some (entry H (.v1 genesis)) := by
    rw [h.headers, List.getElem?_map, ← List.head?_eq_getElem?, h.head]
    rfl
  rw [Chain.load] at e
  simp only [hgenesis] at e
  obtain ⟨r, hr, hupdate⟩ := bind_eq_ok.mp e
  obtain ⟨w, hrw, hlinked, -, hw⟩ := loadLoop_spec (fun hk => (headerMap_spec hk).2) hr
  have hwU : ∀ a ∈ w, a ∈ U := fun a ha => by
    obtain ⟨k, hk⟩ := hw a ha
    exact hrows a (headerMap_spec hk).1
  rw [hrw, List.nil_append] at hupdate
  -- the tip is genesis and nothing changes, or the path is appended to genesis
  by_cases hne : w.reverse = []
  · rw [hne] at hupdate
    cases hupdate
    exact ⟨L, h, hLU⟩
  · have htake : L.take 1 = [.v1 genesis] := by
      have hhead := h.head
      cases L with
      | nil => cases hhead
      | cons x L =>
          rw [List.head?_cons, Option.some.injEq] at hhead
          rw [hhead]
          rfl
    have hnewU : ∀ a ∈ L.take 1 ++ w.reverse, a ∈ U :=
      mem_take_append hLU (fun a ha => hwU a (List.mem_reverse.mp ha)) 1
    obtain ⟨c'', hc'', hpath⟩ := h.update hne h.length_pos
      (by rw [htake]; rfl) (by rw [htake]; exact hlinked) (apart_of_subset hU hLU)
      (apart_of_subset hU hnewU)
    rw [hc''] at hupdate
    cases hupdate
    exact ⟨_, hpath, hnewU⟩

/-! ### Runs -/

end Chain

/-- What is done to a chain. -/
inductive ChainOp where
  /-- `update` with the list `getNewHeaders` returns for a message. -/
  | headers (msg : List AnyHeader)
  | load (rows : List AnyHeader) (tip : BlockHash)
  | dropLastHeaders (n : ℕ)

namespace ChainOp

variable (H : Hashes)

/-- What an operation makes of a chain. -/
def apply (c : Chain) : ChainOp → Rust Chain
  | headers msg => c.receive H msg
  | load rows tip => c.load H rows tip
  | dropLastHeaders n => c.dropLastHeaders H n

/-- The headers come from `U`, and a message is internally linked. -/
def Admissible (U : Set AnyHeader) : ChainOp → Prop
  | headers msg => msg.IsChain (Chain.Link H) ∧ ∀ a ∈ msg, a ∈ U
  | load rows _ => ∀ a ∈ rows, a ∈ U
  | dropLastHeaders _ => True

end ChainOp

namespace Chain

variable (H : Hashes) (genesis : HeaderV1)

/-- The chains that operations on headers from `U` lead to.  An operation that
returns an error leaves the chain as it was, and one that panics ends the run. -/
inductive Reachable (U : Set AnyHeader) : Chain → Prop
  | new : Reachable U (new H genesis)
  | step {c c' : Chain} {op : ChainOp} : Reachable U c → op.Admissible H U →
      op.apply H c = .ok c' → Reachable U c'

/-- The vector and the map of a chain agree with each other and with the
headers. -/
structure Valid (c : Chain) : Prop where
  hashed : ∀ p ∈ c.headers, p.1 = p.2.blockHash H
  linked : ∀ i p q, c.headers[i]? = some p → c.headers[i + 1]? = some q →
    q.2.prevBlockhash = p.1
  genesis : c.headers[0]? = some (genesis.blockHash H, .v1 genesis)
  heights : ∀ hash i, c.getBlockHeight hash = some i ↔ c.getBlockHash i = some hash

variable {H genesis}

theorem Path.valid {c : Chain} {L : List AnyHeader} (h : Path H genesis c L) :
    Valid H genesis c where
  hashed := by
    intro p hp
    rw [h.headers, List.mem_map] at hp
    obtain ⟨a, -, rfl⟩ := hp
    rfl
  linked := by
    intro i p q hp hq
    rw [h.headers, List.getElem?_map, Option.map_eq_some_iff] at hp hq
    obtain ⟨a, ha, rfl⟩ := hp
    obtain ⟨b, hb, rfl⟩ := hq
    obtain ⟨hi, rfl⟩ := List.getElem?_eq_some_iff.mp ha
    obtain ⟨hi', rfl⟩ := List.getElem?_eq_some_iff.mp hb
    exact List.isChain_iff_getElem.mp h.linked i hi'
  genesis := by
    rw [h.headers, List.getElem?_map, ← List.head?_eq_getElem?, h.head]
    rfl
  heights := by
    intro hash i
    rw [getBlockHash, h.headers, ← List.getElem?_map, map_fst_entry]
    exact h.heights hash i

theorem Reachable.path {U : Set AnyHeader} (hU : HashesApart H genesis U)
    (hg : .v1 genesis ∈ U) {c : Chain} (h : Reachable H genesis U c) :
    ∃ L, Path H genesis c L ∧ ∀ a ∈ L, a ∈ U := by
  induction h with
  | new => exact ⟨_, path_new genesis, by simpa using hg⟩
  | @step c c' op _ hop e ih =>
      obtain ⟨L, hL, hLU⟩ := ih
      cases op with
      | headers msg =>
          obtain ⟨hmsg, hmsgU⟩ := hop
          cases msg with
          | nil =>
              cases e
              exact ⟨L, hL, hLU⟩
          | cons first rest =>
              rcases hi : c.heights first.prevBlockhash with - | i
              · rw [ChainOp.apply, receive_unknown hi] at e
                cases e
              · obtain ⟨c'', hc'', hpath⟩ := hL.receive hU hLU hmsg hmsgU hi
                rw [ChainOp.apply, hc''] at e
                cases e
                exact ⟨_, hpath, mem_take_append hLU hmsgU _⟩
      | load rows tip => exact hL.load hU hLU hop e
      | dropLastHeaders n =>
          obtain ⟨c'', hc'', hpath⟩ := hL.dropLastHeaders hU hLU n
          rw [ChainOp.apply, hc''] at e
          cases e
          exact ⟨_, hpath, fun a ha => hLU a (List.mem_of_mem_take ha)⟩

/-- **The representation invariant**, over every run of operations: vector and
map agree, messages and rewinds never panic, a message can be cut at will, and
a rewind keeps exactly the headers it says. -/
theorem representation {U : Set AnyHeader} (hU : HashesApart H genesis U)
    (hg : .v1 genesis ∈ U) {c : Chain} (h : Reachable H genesis U c) :
    Valid H genesis c ∧
    (∀ msg : List AnyHeader, msg.IsChain (Link H) → (∀ a ∈ msg, a ∈ U) →
      Returns (c.receive H msg)) ∧
    (∀ chunks : List (List AnyHeader), chunks.flatten.IsChain (Link H) →
      (∀ a ∈ chunks.flatten, a ∈ U) →
      chunks.foldlM (receive H) c = c.receive H chunks.flatten) ∧
    (∀ n, ∃ c', c.dropLastHeaders H n = .ok c'
      ∧ c'.headers = c.headers.take (max 1 (c.headers.length - n))) := by
  obtain ⟨L, hL, hLU⟩ := h.path hU hg
  refine ⟨hL.valid, fun msg hmsg hmsgU => hL.returns_receive hU hLU hmsg hmsgU,
    fun chunks hmsg hmsgU => hL.foldlM_receive hU hLU hmsg hmsgU, ?_⟩
  intro n
  obtain ⟨c', hc', hpath⟩ := hL.dropLastHeaders hU hLU n
  refine ⟨c', hc', ?_⟩
  rw [hpath.headers, hL.headers, List.length_map, List.map_take]

end Chain

/-! ### Blocks of a regtest chain -/

/-- The bytes of a header, written as they are displayed. -/
def headerBytes (n v : ℕ) : Bytes := (leBytes n v).reverse

/-- The genesis header of regtest. -/
def regtestGenesis : HeaderV1 :=
  HeaderV1.read (headerBytes 80
    0x0100000000000000000000000000000000000000000000000000000000000000000000003ba3edfd7a7b12b27ac72c3e67768f617fc81bc3888a51323a9fb8aa4b1e5e4adae5494dffff7f2002000000)
    rfl

/-- The header of a block 1 of regtest. -/
def regtestBlock1 : HeaderV1 :=
  HeaderV1.read (headerBytes 80
    0x0000002006226e46111a0b59caaf126043eb5bbf28c34f3a5e332a1fc7b2b73cf188910f76a1d72a21fb215275425c7812f3351f11f39f3fd207fdeb9f4933d1ec910a7f7ee58c6affff7f2002000000)
    rfl

/-- A block 1 that replaces it, with another nonce. -/
def regtestFork1 : HeaderV1 := { regtestBlock1 with nonce := 0 }

/-- A block 2 on top of that one, of the new format. -/
def regtestFork2 : HeaderV2 where
  version := 0x20000000
  prevBlockhash := (AnyHeader.v1 regtestFork1).blockHash knownHashes
  merkleRoot := regtestBlock1.merkleRoot
  timeOnWire := regtestBlock1.time + 1
  bits := regtestBlock1.bits
  nonce := 0
  nonce2 := 0
  nonce3 := 0
  extranonce := ⟨zeros 16, rfl⟩
  timeOffset := 0
  txcount := 1
  flags := 0
  xorKeyMaskClearBits := 0
  xorKey := ⟨zeros 16, rfl⟩
  height := 2
  mmRhs := ⟨zeros 32, rfl⟩

/-- The headers of both branches. -/
def regtestHeaders : Set AnyHeader :=
  {a | a ∈ [.v1 regtestGenesis, .v1 regtestBlock1, .v1 regtestFork1, .v2 regtestFork2]}

theorem regtestGenesis_mem : AnyHeader.v1 regtestGenesis ∈ regtestHeaders :=
  List.mem_cons_self

theorem regtestBlock1_mem : ∀ a ∈ [AnyHeader.v1 regtestBlock1], a ∈ regtestHeaders :=
  fun _ ha => List.mem_singleton.mp ha ▸ List.mem_cons_of_mem _ List.mem_cons_self

theorem regtestFork_mem :
    ∀ a ∈ [AnyHeader.v1 regtestFork1, .v2 regtestFork2], a ∈ regtestHeaders :=
  fun _ ha => List.mem_cons_of_mem _ (List.mem_cons_of_mem _ ha)

theorem regtest_apart : Chain.HashesApart knownHashes regtestGenesis regtestHeaders :=
  Apart.of_nodup (by decide +kernel) (by decide +kernel)

theorem regtestFork_linked :
    [AnyHeader.v1 regtestFork1, .v2 regtestFork2].IsChain (Chain.Link knownHashes) :=
  List.isChain_pair.mpr rfl

/-- Either block 1 stands on genesis. -/
theorem regtestBlock1_linked :
    regtestBlock1.prevBlockhash = (AnyHeader.v1 regtestGenesis).blockHash knownHashes := by
  decide +kernel

/-- What a branch makes of the chain of genesis. -/
theorem receive_regtest {first : AnyHeader} {rest : List AnyHeader}
    (hmsg : (first :: rest).IsChain (Chain.Link knownHashes))
    (hmem : ∀ a ∈ first :: rest, a ∈ regtestHeaders)
    (hlink : first.prevBlockhash = (AnyHeader.v1 regtestGenesis).blockHash knownHashes) :
    ∃ c, (Chain.new knownHashes regtestGenesis).receive knownHashes (first :: rest) = .ok c
      ∧ Chain.Path knownHashes regtestGenesis c (.v1 regtestGenesis :: first :: rest) := by
  have hgenesis : ∀ a ∈ [AnyHeader.v1 regtestGenesis], a ∈ regtestHeaders := fun a ha =>
    List.mem_singleton.mp ha ▸ regtestGenesis_mem
  exact (Chain.path_new (H := knownHashes) regtestGenesis).receive regtest_apart hgenesis
    hmsg hmem (((Chain.path_new regtestGenesis).heights _ 0).mpr (congrArg some hlink.symm))

theorem update_regtest : ∃ c,
    (Chain.new knownHashes regtestGenesis).update (Chain.number knownHashes 1 [.v1 regtestBlock1])
        = .ok c ∧
      Chain.Path knownHashes regtestGenesis c [.v1 regtestGenesis, .v1 regtestBlock1] := by
  obtain ⟨c, hc, hpath⟩ := receive_regtest (List.isChain_singleton _) regtestBlock1_mem
    regtestBlock1_linked
  rw [Chain.receive_cons (((Chain.path_new regtestGenesis).heights _ 0).mpr
    (congrArg some regtestBlock1_linked.symm))] at hc
  exact ⟨c, hc, hpath⟩

/-- The first block is received on top of genesis, and a reorganisation replaces it
by two others. -/
theorem regtest_reachable : ∃ c, Chain.Reachable knownHashes regtestGenesis regtestHeaders c
    ∧ c.headers.map Prod.snd
      = [.v1 regtestGenesis, .v1 regtestFork1, .v2 regtestFork2] := by
  have hboth : ∀ a ∈ [AnyHeader.v1 regtestGenesis, .v1 regtestBlock1], a ∈ regtestHeaders :=
    List.forall_mem_cons.mpr ⟨regtestGenesis_mem, regtestBlock1_mem⟩
  obtain ⟨c, hc, hpath⟩ := receive_regtest (List.isChain_singleton _) regtestBlock1_mem
    regtestBlock1_linked
  obtain ⟨c', hc', hpath'⟩ := hpath.receive regtest_apart hboth regtestFork_linked regtestFork_mem
    ((hpath.heights _ 0).mpr (congrArg some regtestBlock1_linked.symm))
  have hop : (ChainOp.headers [.v1 regtestBlock1]).Admissible knownHashes regtestHeaders :=
    ⟨List.isChain_singleton _, regtestBlock1_mem⟩
  have hop' : (ChainOp.headers [.v1 regtestFork1, .v2 regtestFork2]).Admissible knownHashes
      regtestHeaders := ⟨regtestFork_linked, regtestFork_mem⟩
  refine ⟨c', (Chain.Reachable.new.step hop hc).step hop' hc', ?_⟩
  rw [hpath'.headers, List.map_map]
  rfl

theorem representation_regtest : ∃ c,
    c.headers.map Prod.snd = [.v1 regtestGenesis, .v1 regtestFork1, .v2 regtestFork2]
      ∧ Chain.Valid knownHashes regtestGenesis c
      ∧ Returns (c.receive knownHashes [.v1 regtestBlock1])
      ∧ [[AnyHeader.v1 regtestFork1], [.v2 regtestFork2]].foldlM (Chain.receive knownHashes) c
        = c.receive knownHashes [.v1 regtestFork1, .v2 regtestFork2]
      ∧ ∃ c', c.dropLastHeaders knownHashes 1 = .ok c' ∧ c'.headers = c.headers.take 2 := by
  obtain ⟨c, hc, hheaders⟩ := regtest_reachable
  have hlen : c.headers.length = 3 := by
    rw [← List.length_map Prod.snd, hheaders]
    rfl
  obtain ⟨hvalid, hreturns, hcut, hdrop⟩ :=
    Chain.representation regtest_apart regtestGenesis_mem hc
  obtain ⟨c', hc', hkept⟩ := hdrop 1
  rw [hlen] at hkept
  exact ⟨c, hheaders, hvalid, hreturns _ (List.isChain_singleton _) regtestBlock1_mem,
    hcut _ regtestFork_linked regtestFork_mem, c', hc', hkept⟩

end PrunedElectrs
