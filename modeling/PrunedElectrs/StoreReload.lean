/-
PrunedElectrs/StoreReload.lean

Loading the client's header store: the tail that was torn off is cut, and every
record is read again and offered to a new chain state.

The patches show the repair and the loop of `walkTo`, not the handler behind
`state.add` and not `rebuild`.  Both are parameters here (`StoreWalk` and `Loader`),
with what the tests of the store say of them: a record that fails verification
ends the walk with the headers before it, and a file of whole records is cut
behind those that were accepted.  Nothing is assumed of `rebuild` on a torn file:
that the tail is gone by then is the repair's doing (`HeaderStore.repair_eq`).

`Holds` says that a store holds a list of headers.  `append` extends the list by
what it accepts, the loop of `walkTo` is a `RecordFile.replay` of the records
(`walkTo_eq`), and `load_appendAll` puts the two together.
-/
import PrunedElectrs.HeaderStore
import PrunedElectrs.Lib.RecordFile

namespace PrunedElectrs

open Wire RecordFile VariableHeaders

/-- What ends a read of the file. -/
inductive ReadException
  | endOfFile
  | thrown (e : JavaException)
deriving DecidableEq

/-! ### The two builds -/

/-- A build of the client, with the patches or without. -/
inductive Build
  | unpatched
  | patched
deriving DecidableEq

namespace Build

/-- `HEADER_LENGTH`, which is now `headerLength()`. -/
def headerLength (network : Network) : Build → ℕ
  | unpatched => 80
  | patched => recordLength network

/-- `new BlockHeader(record, 0)`. -/
def newBlockHeader : Build → Bytes → Java Drongo.BlockHeader
  | unpatched, record => Drongo.BlockHeader.parseUnpatched record 0
  | patched, record => Drongo.BlockHeader.parse record 0

theorem headerLength_pos (network : Network) (build : Build) : 0 < build.headerLength network := by
  cases build with
  | unpatched => exact Nat.succ_pos 79
  | patched => exact recordLength_pos network

/-- `state.add(new BlockHeader(record, 0))`. -/
def addRecord (C : HeaderChainState) (build : Build) (state : C.State) (record : Bytes) :
    Java C.State := do
  let header ← build.newBlockHeader record
  C.add state header

end Build

/-! ### `load` -/

/-- What `walkTo` uses and the patch does not show. -/
structure StoreWalk (C : HeaderChainState) where
  /-- `checkpoints.newChainState()`: the pinned anchor. -/
  newChainState : C.State
  /-- The handler behind `state.add`. -/
  handling : JavaException → Handling
  handling_verification : ∀ msg, handling (.verification msg) = .finish

variable {C : HeaderChainState}

namespace StoreWalk

/-- The loop of `walkTo`, with what is left of the stream. -/
def walkFrom (W : StoreWalk C) (build : Build) (network : Network) (endOffset offset : ℕ)
    (inputStream : Bytes) (state : C.State) : Except ReadException C.State :=
  if offset + build.headerLength network ≤ endOffset then
    -- `readFully`
    if build.headerLength network ≤ inputStream.length then
      match build.addRecord C state (inputStream.take (build.headerLength network)) with
      | .ok state' =>
          W.walkFrom build network endOffset (offset + build.headerLength network)
            (inputStream.drop (build.headerLength network)) state'
      | .error e =>
          match W.handling e with
          | .finish => .ok state
          | .skip =>
              W.walkFrom build network endOffset (offset + build.headerLength network)
                (inputStream.drop (build.headerLength network)) state
          | .fail => .error (.thrown e)
    else .error .endOfFile
  else .ok state
termination_by endOffset - offset
decreasing_by
  all_goals
    have := build.headerLength_pos network
    omega

/-- The chain state of the records below an offset. -/
def walkTo (W : StoreWalk C) (build : Build) (s : HeaderStore C) (endOffset : ℕ) :
    Except ReadException C.State :=
  if endOffset < build.headerLength s.network then .ok W.newChainState
  else W.walkFrom build s.network endOffset 0 s.file W.newChainState

end StoreWalk

namespace HeaderStore

/-- A header interrupted mid write costs only itself. -/
def repair (build : Build) (s : HeaderStore C) : HeaderStore C :=
  let records := s.file.length / build.headerLength s.network
  if records * build.headerLength s.network ≠ s.file.length then
    { s with file := s.file.take (records * build.headerLength s.network) }
  else s

/-- The record at an offset, or null. -/
def readRecord (s : HeaderStore C) (offset : ℤ) : Option Bytes :=
  if offset < 0 ∨ (s.file.length : ℤ) < offset + recordLength s.network then none
  else some (sub s.file offset.toNat (recordLength s.network))

end HeaderStore

/-- `rebuild`, which the patch calls and does not show. -/
structure Loader (C : HeaderChainState) extends StoreWalk C where
  rebuild : Build → HeaderStore C → Except ReadException (HeaderStore C)
  /-- Of a file of whole records: the chain state is that of the walk to its end,
  and the file ends behind the tip. -/
  rebuild_eq : ∀ {build : Build} {s : HeaderStore C} {state : C.State},
    build.headerLength s.network ∣ s.file.length →
    toStoreWalk.walkTo build s s.file.length = .ok state →
    rebuild build s = .ok
      { s with chainState := state
               file := s.file.take ((C.height state + 1 - s.startHeight).toNat
                 * build.headerLength s.network) }

/-- Load a store from its file. -/
def Loader.load (L : Loader C) (build : Build) (s : HeaderStore C) :
    Except ReadException (HeaderStore C) :=
  L.rebuild build (s.repair build)

/-! ### The walk over the records -/

namespace StoreWalk

variable (W : StoreWalk C) (build : Build)

/-- The loop, on a stream with that many whole records. -/
theorem walkFrom_eq (network : Network) {n endOffset offset : ℕ} {inputStream : Bytes}
    (state : C.State) (hlow : offset + n * build.headerLength network ≤ endOffset)
    (hhigh : endOffset < offset + (n + 1) * build.headerLength network)
    (hstream : n * build.headerLength network ≤ inputStream.length) :
    W.walkFrom build network endOffset offset inputStream state
      = (replay (build.addRecord C) W.handling
          (chunks (build.headerLength network) n inputStream) state).mapError .thrown := by
  induction n generalizing offset inputStream state with
  | zero =>
      rw [walkFrom, if_neg (by omega)]
      rfl
  | succ n ih =>
      rw [Nat.succ_mul] at hlow hhigh hstream
      rw [Nat.succ_mul] at hhigh
      have hnext (state : C.State) :
          W.walkFrom build network endOffset (offset + build.headerLength network)
              (inputStream.drop (build.headerLength network)) state
            = (replay (build.addRecord C) W.handling (chunks (build.headerLength network) n
                (inputStream.drop (build.headerLength network))) state).mapError .thrown :=
        ih state (by omega) (by rw [Nat.succ_mul]; omega) (by rw [List.length_drop]; omega)
      rw [walkFrom, if_pos (by omega), if_pos (by omega), chunks, replay]
      rcases build.addRecord C state (inputStream.take (build.headerLength network)) with e | state'
      · rcases he : W.handling e with - | - | -
        · simp only [he]
          rfl
        · simp only [he]
          exact hnext state
        · simp only [he]
          rfl
      · exact hnext state'

/-- `walkTo` the end of a file replays its records. -/
theorem walkTo_eq (s : HeaderStore C) :
    W.walkTo build s s.file.length
      = (replay (build.addRecord C) W.handling (chunks (build.headerLength s.network)
          (s.file.length / build.headerLength s.network) s.file) W.newChainState).mapError
          .thrown := by
  have hpos := build.headerLength_pos s.network
  rw [walkTo]
  split_ifs with hshort
  · rw [Nat.div_eq_of_lt hshort]
    rfl
  · apply W.walkFrom_eq
    · rw [Nat.zero_add]
      exact Nat.div_mul_le_self _ _
    · rw [Nat.zero_add]
      exact (Nat.div_lt_iff_lt_mul hpos).mp (Nat.lt_succ_self _)
    · exact Nat.div_mul_le_self _ _

end StoreWalk

/-! ### `load` on any file -/

theorem HeaderStore.repair_eq (build : Build) (s : HeaderStore C) :
    s.repair build = { s with
      file := s.file.take (s.file.length / build.headerLength s.network
        * build.headerLength s.network) } := by
  rw [HeaderStore.repair]
  split_ifs with hwhole
  · rfl
  · rw [not_ne_iff.mp hwhole, List.take_length]

/-- Loading replays the whole records of the file, and keeps as many as the
chain has grown by. -/
theorem Loader.load_eq (L : Loader C) {build : Build} {s : HeaderStore C} (state : C.State)
    (h : replay (build.addRecord C) L.handling (chunks (build.headerLength s.network)
      (s.file.length / build.headerLength s.network) s.file) L.newChainState = .ok state) :
    L.load build s = .ok { s with
      chainState := state
      file := (s.file.take (s.file.length / build.headerLength s.network
          * build.headerLength s.network)).take
        ((C.height state + 1 - s.startHeight).toNat * build.headerLength s.network) } := by
  have hpos := build.headerLength_pos s.network
  have hlen : (s.file.take (s.file.length / build.headerLength s.network
      * build.headerLength s.network)).length
        = s.file.length / build.headerLength s.network * build.headerLength s.network :=
    List.length_take_of_le (Nat.div_mul_le_self _ _)
  have hwalk : L.walkTo build (s.repair build) (s.repair build).file.length = .ok state := by
    rw [L.walkTo_eq, HeaderStore.repair_eq]
    simp only
    rw [hlen, Nat.mul_div_cancel _ hpos, chunks_take, h]
    rfl
  have hwhole : build.headerLength (s.repair build).network ∣ (s.repair build).file.length := by
    rw [HeaderStore.repair_eq]
    exact Dvd.intro_left _ hlen.symm
  rw [Loader.load, L.rebuild_eq hwhole hwalk, HeaderStore.repair_eq]

/-- Loading a file of records, of which as many were accepted as the chain has
grown by. -/
theorem Loader.load_records (L : Loader C) (build : Build) {s : HeaderStore C}
    {rs : List Bytes} (hrs : Uniform (build.headerLength s.network) rs) {tail : Bytes}
    (ht : tail.length < build.headerLength s.network) (hfile : s.file = rs.flatten ++ tail)
    {state : C.State}
    (h : replay (build.addRecord C) L.handling rs L.newChainState = .ok state) {n : ℕ}
    (hn : C.height state + 1 = s.startHeight + n) (hle : n ≤ rs.length) :
    L.load build s = .ok { s with chainState := state, file := (rs.take n).flatten } := by
  have hcount := hrs.count_torn ht
  have hchunks := chunks_flatten hrs tail
  rw [← hfile] at hcount hchunks
  have hgrown : (C.height state + 1 - s.startHeight).toNat = n := by
    rw [hn, add_sub_cancel_left, Int.toNat_natCast]
  rw [L.load_eq state (by rw [hcount, hchunks, h]), hcount, hgrown, List.take_take,
    Nat.min_eq_left (Nat.mul_le_mul_right _ hle), hfile, hrs.take_mul hle]

/-! ### What the client reads -/

namespace Drongo.BlockHeader

/-- Where the client reads a header, there is one of the stream. -/
theorem exists_header_at {b : Bytes} {o : ℕ} (h80 : o + 80 ≤ b.length)
    (h164 : leNat (sub b o 4) &&& versionHeaderV2Flag ≠ 0 → o + 164 ≤ b.length) :
    ∃ h : AnyHeader, h.Streamable ∧ sub b o h.size = h.serialize := by
  have hlen4 : (sub b o 4).length = 4 := length_sub (by omega)
  rw [← toNat_u32of hlen4, ne_eq, and_flag_eq_zero_iff] at h164
  obtain ⟨n, hn, hlength, h4⟩ : ∃ n, o + n ≤ b.length
      ∧ lengthFor .testnet4 (u32of (sub b o 4) &&& PrunedElectrs.versionHeaderV2Flag != 0) = .ok n
      ∧ 4 ≤ n := by
    by_cases hv : u32of (sub b o 4) &&& PrunedElectrs.versionHeaderV2Flag = 0
    · exact ⟨80, h80, by rw [hv]; rfl, by decide⟩
    · exact ⟨164, h164 hv, by rw [bne_iff_ne.mpr hv]; rfl, by decide⟩
  have hsub : (sub b o n).length = n := length_sub hn
  have hversion : sub (sub b o n) 0 4 = sub b o 4 := sub_of_sub (by omega)
  obtain ⟨h, hs, -, hbytes⟩ : ∃ h : AnyHeader, h.Streamable ∧ Carries .testnet4 h
      ∧ h.serialize = sub b o n := exists_header (by rw [hversion, hsub]; exact hlength)
  have hsize : h.size = n := by rw [← h.length_serialize, hbytes, hsub]
  exact ⟨h, hs, by rw [hsize, hbytes]⟩

/-- What the client has read is its view of a header of the stream. -/
theorem exists_of_parse {b : Bytes} {o : ℕ} {x : Drongo.BlockHeader} (e : parse b o = .ok x) :
    ∃ h : AnyHeader, h.Streamable ∧ x = ofAny h := by
  obtain ⟨h80, h164⟩ := length_of_parse e
  obtain ⟨h, hs, hbytes⟩ := exists_header_at h80 h164
  refine ⟨h, hs, ?_⟩
  rw [parse_of_any hs hbytes] at e
  exact (Except.ok.inj e).symm

end Drongo.BlockHeader

namespace VariableHeaders

/-- The headers a client of the network comes to hold: read off bytes, and v1
where the network has no others. -/
def Storable (network : Network) (x : Drongo.BlockHeader) : Prop :=
  (∃ b o, Drongo.BlockHeader.parse b o = .ok x) ∧ (supportsV2 network ∨ x.v2 = none)

variable {network : Network} {x : Drongo.BlockHeader}

theorem Storable.exists_ofAny (h : Storable network x) :
    ∃ header : AnyHeader, header.Streamable ∧ Carries network header
      ∧ x = Drongo.BlockHeader.ofAny header := by
  obtain ⟨⟨b, o, hparse⟩, hnetwork⟩ := h
  obtain ⟨header, hs, rfl⟩ := Drongo.BlockHeader.exists_of_parse hparse
  refine ⟨header, hs, hnetwork.imp_right fun hv2 => ?_, rfl⟩
  cases header with
  | v1 h => rfl
  | v2 h => cases hv2

theorem Storable.fits (h : Storable network x) : Fits network x := by
  obtain ⟨header, hs, hcarries, rfl⟩ := h.exists_ofAny
  exact (HeaderStore.fits_ofAny hs).mpr hcarries

/-- Padding behind a header is not read. -/
theorem Storable.parse_append (h : Storable network x) (padding : Bytes) :
    Drongo.BlockHeader.parse (x.bitcoinSerialize ++ padding) 0 = .ok x := by
  obtain ⟨header, hs, -, rfl⟩ := h.exists_ofAny
  apply Drongo.BlockHeader.parse_of_any hs
  rw [Drongo.BlockHeader.bitcoinSerialize_ofAny hs, sub_append_left (by
    rw [header.length_serialize, Nat.zero_add]), sub_all header.length_serialize]

end VariableHeaders

/-! ### A store that holds a list of headers -/

/-- The store holds exactly these headers above the anchor. -/
structure StoreWalk.Holds (W : StoreWalk C) (s : HeaderStore C)
    (headers : List Drongo.BlockHeader) : Prop where
  anchored : C.height W.newChainState + 1 = s.startHeight
  verified : headers.foldlM C.add W.newChainState = .ok s.chainState
  recorded : s.file = (headers.map (HeaderStore.record s.network)).flatten
  storable : ∀ x ∈ headers, Storable s.network x

namespace StoreWalk.Holds

variable {W : StoreWalk C} {s : HeaderStore C} {headers : List Drongo.BlockHeader}

theorem uniform (h : W.Holds s headers) :
    Uniform (recordLength s.network) (headers.map (HeaderStore.record s.network)) :=
  HeaderStore.uniform_records fun x hx => (h.storable x hx).fits

theorem height_eq (h : W.Holds s headers) :
    C.height s.chainState + 1 = s.startHeight + headers.length := by
  rw [C.height_foldlM h.verified, ← h.anchored]
  ring

theorem inStep (h : W.Holds s headers) : s.InStep := by
  refine ⟨by rw [h.height_eq]; omega, ?_⟩
  rw [h.recorded, h.uniform.length_flatten, h.height_eq, List.length_map]
  push_cast
  ring

/-- The headers before one of them are held by a store of their own. -/
theorem take (h : W.Holds s headers) {i : ℕ} {state : C.State}
    (hstate : (headers.take i).foldlM C.add W.newChainState = .ok state) :
    W.Holds { s with
      chainState := state
      file := ((headers.take i).map (HeaderStore.record s.network)).flatten } (headers.take i) where
  anchored := h.anchored
  verified := hstate
  recorded := rfl
  storable := fun x hx => h.storable x (List.mem_of_mem_take hx)

end StoreWalk.Holds

/-! ### Appending in batches -/

namespace HeaderStore

/-- What one `append` accepts.  It allocates its buffer before the first header. -/
def acceptedOf (s : HeaderStore C) (headers : List Drongo.BlockHeader) :
    List Drongo.BlockHeader :=
  if int (headers.length * recordLength s.network) < 0 then [] else C.accepts s.chainState headers

/-- What the store accepts from batches, in order. -/
def acceptedBy (s : HeaderStore C) : List (List Drongo.BlockHeader) → List Drongo.BlockHeader
  | [] => []
  | headers :: batches => s.acceptedOf headers ++ (s.append headers).1.acceptedBy batches

/-- One `append` for each batch. -/
def appendAll (s : HeaderStore C) (batches : List (List Drongo.BlockHeader)) : HeaderStore C :=
  batches.foldl (fun s headers => (s.append headers).1) s

theorem appendAll_cons (s : HeaderStore C) (headers : List Drongo.BlockHeader)
    (batches : List (List Drongo.BlockHeader)) :
    s.appendAll (headers :: batches) = (s.append headers).1.appendAll batches := by
  simp only [appendAll, List.foldl_cons]

end HeaderStore

/-- A store goes on to hold what `append` accepts. -/
theorem StoreWalk.Holds.append {W : StoreWalk C} {s : HeaderStore C}
    {headers : List Drongo.BlockHeader} (h : W.Holds s headers) {batch : List Drongo.BlockHeader}
    (hbatch : ∀ x ∈ s.acceptedOf batch, Storable s.network x) :
    W.Holds (s.append batch).1 (headers ++ s.acceptedOf batch) := by
  rw [HeaderStore.acceptedOf] at hbatch ⊢
  split_ifs at hbatch ⊢ with hcapacity
  · rw [HeaderStore.append, if_pos hcapacity, List.append_nil]
    exact h
  · obtain ⟨state, hstate, happend⟩ := HeaderStore.append_eq_of_fits h.inStep hcapacity
      fun x hx => (hbatch x hx).fits
    rw [happend]
    refine ⟨h.anchored, ?_, ?_, ?_⟩
    · rw [List.foldlM_append, h.verified, java_ok_bind]
      exact hstate
    · rw [h.recorded, List.map_append, List.flatten_append]
    · intro x hx
      exact (List.mem_append.mp hx).elim (h.storable x) (hbatch x)

theorem StoreWalk.Holds.appendAll {W : StoreWalk C} {s : HeaderStore C}
    {headers : List Drongo.BlockHeader} (h : W.Holds s headers)
    {batches : List (List Drongo.BlockHeader)}
    (hbatches : ∀ x ∈ s.acceptedBy batches, Storable s.network x) :
    W.Holds (s.appendAll batches) (headers ++ s.acceptedBy batches) := by
  induction batches generalizing s headers with
  | nil =>
      rw [HeaderStore.acceptedBy, List.append_nil]
      exact h
  | cons batch batches ih =>
      rw [HeaderStore.acceptedBy, List.forall_mem_append] at hbatches
      have hfirst : W.Holds (s.append batch).1 (headers ++ s.acceptedOf batch) :=
        h.append hbatches.1
      have hrest : ∀ x ∈ (s.append batch).1.acceptedBy batches,
          Storable (s.append batch).1.network x := by
        rw [(s.append_same batch).1]
        exact hbatches.2
      rw [HeaderStore.appendAll_cons, HeaderStore.acceptedBy, ← List.append_assoc]
      exact ih hfirst hrest

/-! ### Loading what was appended -/

/-- The record of a header is accepted where the header is. -/
theorem addRecord_record {network : Network} {x : Drongo.BlockHeader} (h : Storable network x)
    (state : C.State) :
    Build.patched.addRecord C state (HeaderStore.record network x) = C.add state x := by
  have hparse : Build.patched.newBlockHeader (HeaderStore.record network x) = .ok x :=
    h.parse_append _
  rw [Build.addRecord, hparse, java_ok_bind]

theorem foldlM_records {network : Network} {headers : List Drongo.BlockHeader}
    (h : ∀ x ∈ headers, Storable network x) (state : C.State) :
    (headers.map (HeaderStore.record network)).foldlM (Build.patched.addRecord C) state
      = headers.foldlM C.add state := by
  induction headers generalizing state with
  | nil => rfl
  | cons x headers ih =>
      rw [List.forall_mem_cons] at h
      rw [List.map_cons, List.foldlM_cons, List.foldlM_cons, addRecord_record h.1]
      exact bind_congr fun state' => ih h.2 state'

/-- The record has a header that the chain state refuses, or has none, and the
handler takes what the parser throws. -/
def StoreWalk.Rejects (W : StoreWalk C) (state : C.State) (record : Bytes) : Prop :=
  (∃ header, Drongo.BlockHeader.parse record 0 = .ok header
    ∧ ∀ state', C.add state header ≠ .ok state')
  ∨ ∃ e, Drongo.BlockHeader.parse record 0 = .error e ∧ W.handling e = .finish

theorem StoreWalk.Rejects.addRecord_eq {W : StoreWalk C} {state : C.State} {record : Bytes}
    (h : W.Rejects state record) :
    ∃ e, Build.patched.addRecord C state record = .error e ∧ W.handling e = .finish := by
  rcases h with ⟨header, hparse, hrefused⟩ | ⟨e, hparse, he⟩
  · rcases hadd : C.add state header with e | state'
    · obtain ⟨msg, rfl⟩ := C.add_error hadd
      refine ⟨_, ?_, W.handling_verification msg⟩
      rw [Build.addRecord, Build.newBlockHeader, hparse, java_ok_bind, hadd]
    · exact absurd hadd (hrefused state')
  · refine ⟨e, ?_, he⟩
    rw [Build.addRecord, Build.newBlockHeader, hparse]
    rfl

namespace StoreWalk.Holds

variable {L : Loader C} {s : HeaderStore C} {headers : List Drongo.BlockHeader}

theorem replay_records (h : L.Holds s headers) :
    replay (Build.patched.addRecord C) L.handling (headers.map (HeaderStore.record s.network))
      L.newChainState = .ok s.chainState := by
  apply replay_of_foldlM
  rw [foldlM_records h.storable, h.verified]

/-- Every record of the file is walked over. -/
theorem walkTo_end (h : L.Holds s headers) :
    L.walkTo .patched s s.file.length = .ok s.chainState := by
  have hnothing : ([] : Bytes).length < recordLength s.network := recordLength_pos s.network
  have hcount := h.uniform.count_torn hnothing
  have hchunks := chunks_flatten h.uniform []
  rw [List.append_nil, ← h.recorded] at hcount hchunks
  rw [L.walkTo_eq]
  simp only [Build.headerLength]
  rw [hcount, hchunks, h.replay_records]
  rfl

/-- **A torn tail costs nothing that was whole**: the store is loaded as it was. -/
theorem load_torn (h : L.Holds s headers) {tail : Bytes} (ht : tail.length < recordLength s.network)
    (state : C.State) :
    L.load .patched { s with chainState := state, file := s.file ++ tail } = .ok s := by
  have hfile : s.file ++ tail = (headers.map (HeaderStore.record s.network)).flatten ++ tail := by
    rw [h.recorded]
  have hload := L.load_records .patched
    (s := { s with chainState := state, file := s.file ++ tail }) h.uniform ht hfile
    h.replay_records h.height_eq (List.length_map _).ge
  rw [List.take_of_length_le (List.length_map _).le, ← h.recorded] at hload
  exact hload

/-- The file with a record overwritten. -/
theorem writeAt_record (h : L.Holds s headers) {i : ℕ} (hi : i < headers.length) {bad : Bytes}
    (hbad : bad.length = recordLength s.network) (tail : Bytes) :
    writeAt (s.file ++ tail) (i * recordLength s.network) bad
      = ((headers.map (HeaderStore.record s.network)).take i
          ++ bad :: (headers.map (HeaderStore.record s.network)).drop (i + 1)).flatten ++ tail := by
  have hlen : i + 1 ≤ (headers.map (HeaderStore.record s.network)).length := by
    rw [List.length_map]
    omega
  have hoffset : i * recordLength s.network ≤ (s.file ++ tail).length := by
    rw [h.recorded, List.length_append, h.uniform.length_flatten]
    exact (Nat.mul_le_mul_right _ (by omega)).trans (Nat.le_add_right _ _)
  rw [writeAt, Nat.sub_eq_zero_of_le hoffset, zeros, List.replicate_zero, List.append_nil, hbad,
    ← Nat.succ_mul, h.recorded, h.uniform.take_mul (by omega), h.uniform.drop_mul hlen,
    List.flatten_append, List.flatten_cons, List.append_assoc, List.append_assoc,
    List.append_assoc]

/-- **A refused record ends the store before it.** -/
theorem load_refused (h : L.Holds s headers) {i : ℕ} (hi : i < headers.length) {bad tail : Bytes}
    (hbad : bad.length = recordLength s.network) (ht : tail.length < recordLength s.network)
    {state : C.State} (hstate : (headers.take i).foldlM C.add L.newChainState = .ok state)
    (hrejects : L.Rejects state bad) (chainState : C.State) :
    L.load .patched { s with
        chainState := chainState
        file := writeAt (s.file ++ tail) (i * recordLength s.network) bad }
      = .ok { s with
        chainState := state
        file := ((headers.take i).map (HeaderStore.record s.network)).flatten } := by
  obtain ⟨e, hrefused, he⟩ := hrejects.addRecord_eq
  have hfront : ((headers.map (HeaderStore.record s.network)).take i).length = i :=
    List.length_take_of_le (by rw [List.length_map]; exact hi.le)
  have hle : i ≤ ((headers.map (HeaderStore.record s.network)).take i
      ++ bad :: (headers.map (HeaderStore.record s.network)).drop (i + 1)).length := by
    rw [List.length_append, hfront]
    exact Nat.le_add_right _ _
  have hreplay : replay (Build.patched.addRecord C) L.handling
      ((headers.map (HeaderStore.record s.network)).take i
        ++ bad :: (headers.map (HeaderStore.record s.network)).drop (i + 1)) L.newChainState
      = .ok state := by
    rw [← foldlM_records (h.take hstate).storable, List.map_take] at hstate
    rw [replay_append hstate, replay_refused hrefused he]
  have hheight : C.height state + 1 = s.startHeight + i := by
    have hend : C.height state + 1 = s.startHeight + (headers.take i).length :=
      (h.take hstate).height_eq
    rw [hend, List.length_take_of_le hi.le]
  have hload := L.load_records .patched
    (s := { s with
      chainState := chainState
      file := writeAt (s.file ++ tail) (i * recordLength s.network) bad })
    (h.uniform.replace i hbad) ht (h.writeAt_record hi hbad tail) hreplay hheight hle
  rw [List.take_left' hfront, ← List.map_take] at hload
  exact hload

/-- The record of a header is at its height's offset. -/
theorem readRecord_getOffset (h : L.Holds s headers) {i : ℕ} (hi : i < headers.length) :
    s.getOffset (s.startHeight + i) = i * recordLength s.network
      ∧ s.readRecord (s.getOffset (s.startHeight + i))
        = some (HeaderStore.record s.network headers[i]) := by
  have hlt := C.height_lt s.chainState
  have hpos := s.startHeight_pos
  have hheight := h.height_eq
  have hoffset : s.getOffset (s.startHeight + i) = i * recordLength s.network := by
    rw [HeaderStore.getOffset, add_sub_cancel_left, int_of_range (by omega) (by omega)]
  refine ⟨hoffset, ?_⟩
  have hlen : (i + 1) * recordLength s.network ≤ s.file.length := by
    rw [h.recorded, h.uniform.length_flatten, List.length_map]
    exact Nat.mul_le_mul_right _ hi
  rw [Nat.succ_mul] at hlen
  have hslot := h.uniform.slot (i := i) (by rw [List.length_map]; exact hi) []
  rw [List.append_nil, ← h.recorded, List.getElem_map] at hslot
  rw [HeaderStore.readRecord, hoffset, if_neg (by push Not; constructor <;> omega)]
  rw [← Nat.cast_mul, Int.toNat_natCast]
  exact congrArg some hslot

end StoreWalk.Holds

theorem HeaderStore.appendAll_same (s : HeaderStore C)
    (batches : List (List Drongo.BlockHeader)) :
    (s.appendAll batches).network = s.network
      ∧ (s.appendAll batches).startHeight = s.startHeight := by
  induction batches generalizing s with
  | nil => exact ⟨rfl, rfl⟩
  | cons batch batches ih =>
      obtain ⟨hnetwork, hstart⟩ := s.append_same batch
      rw [HeaderStore.appendAll_cons]
      exact ⟨(ih _).1.trans hnetwork, (ih _).2.trans hstart⟩

/-- **The store comes back from its file.**  Whatever batches are appended above
the pin, the file walks to the chain state; with less than a record behind it,
it is loaded as the store it was; the header of every height is read at its
offset, from its own bytes whatever pads them; and with one record overwritten
by one that is rejected, the store of the headers before it is loaded. -/
theorem load_appendAll (L : Loader C) {s : HeaderStore C} (hfile : s.file = [])
    (hstate : s.chainState = L.newChainState)
    (hstart : C.height L.newChainState + 1 = s.startHeight)
    {batches : List (List Drongo.BlockHeader)}
    (hbatches : ∀ x ∈ s.acceptedBy batches, Storable s.network x) :
    let stored := s.appendAll batches
    let headers := s.acceptedBy batches
    let headerLength := recordLength s.network
    headers.foldlM C.add L.newChainState = .ok stored.chainState
    ∧ C.height stored.chainState + 1 = s.startHeight + headers.length
    ∧ L.walkTo .patched stored stored.file.length = .ok stored.chainState
    ∧ (∀ (tail : Bytes) (initial : C.State), tail.length < headerLength →
        L.load .patched { stored with chainState := initial, file := stored.file ++ tail }
          = .ok stored)
    ∧ (∀ (i : ℕ) (hi : i < headers.length),
        stored.getOffset (s.startHeight + i) = i * headerLength
        ∧ (∃ record, stored.readRecord (i * headerLength) = some record
          ∧ Drongo.BlockHeader.parse record 0 = .ok headers[i])
        ∧ ∀ padding, Drongo.BlockHeader.parse (headers[i].bitcoinSerialize ++ padding) 0
          = .ok headers[i])
    ∧ ∀ (i : ℕ) (bad tail : Bytes) (initial state : C.State), i < headers.length →
        bad.length = headerLength → tail.length < headerLength →
        (headers.take i).foldlM C.add L.newChainState = .ok state → L.Rejects state bad →
        L.load .patched { stored with
              chainState := initial
              file := writeAt (stored.file ++ tail) (i * headerLength) bad }
          = .ok { stored with
              chainState := state
              file := ((headers.take i).map (HeaderStore.record s.network)).flatten } := by
  intro stored headers headerLength
  have hempty : L.Holds s [] :=
    ⟨hstart, congrArg Except.ok hstate.symm, hfile, List.forall_mem_nil _⟩
  have h : L.Holds stored headers := hempty.appendAll hbatches
  obtain ⟨hnetwork, hsame⟩ : stored.network = s.network ∧ stored.startHeight = s.startHeight :=
    s.appendAll_same batches
  have hlength : headerLength = recordLength stored.network := by rw [hnetwork]
  rw [hlength, ← hsame, ← hnetwork]
  refine ⟨h.verified, h.height_eq, h.walkTo_end, fun tail initial ht => h.load_torn ht initial,
    fun i hi => ?_, fun i bad tail initial state hi hbad ht hfront hrejects =>
      h.load_refused hi hbad ht hfront hrejects initial⟩
  obtain ⟨hoffset, hread⟩ := h.readRecord_getOffset hi
  have hpadding := (h.storable headers[i] (List.getElem_mem hi)).parse_append
  rw [hoffset] at hread
  exact ⟨hoffset, ⟨_, hread, hpadding _⟩, hpadding⟩

/-! ### Two records of testnet4 -/

/-- The walk that takes a `VerificationException` and nothing else. -/
def StoreWalk.ofAnchor (anchor : C.State) : StoreWalk C where
  newChainState := anchor
  handling
    | .verification _ => .finish
    | _ => .fail
  handling_verification _ := rfl

/-- The loader with that walk. -/
def Loader.ofAnchor (anchor : C.State) : Loader C where
  toStoreWalk := .ofAnchor anchor
  rebuild build s :=
    match (StoreWalk.ofAnchor anchor).walkTo build s s.file.length with
    | .ok state => .ok { s with
        chainState := state
        file := s.file.take ((C.height state + 1 - s.startHeight).toNat
          * build.headerLength s.network) }
    | .error e => .error e
  rebuild_eq _ h := by rw [h]

/-- The header below the last one of the old format. -/
def anchor149535 : HeaderStore.linkedChain.State :=
  (⟨149535, by omega⟩, (Drongo.BlockHeader.ofAny (.v1 header149536)).prevBlockHash)

/-- A store on testnet4 that is pinned there. -/
def pinnedStore (file : Bytes) : HeaderStore HeaderStore.linkedChain where
  network := .testnet4
  startHeight := 149536
  file := file
  chainState := anchor149535
  startHeight_pos := by decide

theorem height_anchor149535 : HeaderStore.linkedChain.height anchor149535 + 1 = 149536 := by
  simp [anchor149535, HeaderStore.linkedChain]

theorem accepts_activation : HeaderStore.linkedChain.accepts anchor149535
    (activationHeaders.map .ofAny) = activationHeaders.map .ofAny := by
  have hlink : (header149536.blockHash knownHashes).reverse
      = (Drongo.BlockHeader.ofAny (.v2 header149537)).prevBlockHash := by
    decide +kernel
  have hfirst := HeaderStore.linkedChain_add (h := .v1 header149536) (n := ⟨149535, by omega⟩)
    (by decide +kernel) (by simp only; omega)
  have hsecond := HeaderStore.linkedChain_add (h := .v2 header149537) (n := ⟨149536, by omega⟩)
    (by decide +kernel) (by simp only; omega)
  rw [← hlink] at hsecond
  simp only [activationHeaders, List.map_cons, List.map_nil, HeaderChainState.accepts]
  rw [anchor149535, hfirst]
  simp only [AnyHeader.blockHash]
  rw [hsecond]

theorem storable_activation :
    ∀ x ∈ activationHeaders.map Drongo.BlockHeader.ofAny, Storable .testnet4 x := by
  intro x hx
  obtain ⟨h, hh, rfl⟩ := List.mem_map.mp hx
  have hs : h.Streamable := (activation_isRun h hh).1
  have hparse : Drongo.BlockHeader.parse h.serialize 0 = .ok (.ofAny h) :=
    Drongo.BlockHeader.parse_of_any hs (sub_all h.length_serialize)
  exact ⟨⟨_, 0, hparse⟩, .inl rfl⟩

theorem load_appendAll_testnet4 :
    let stored := (pinnedStore []).appendAll [activationHeaders.map .ofAny]
    HeaderStore.linkedChain.height stored.chainState + 1 = 149536 + 2
    ∧ (Loader.ofAnchor anchor149535).load .patched
        { stored with chainState := anchor149535, file := stored.file ++ zeros 100 }
      = .ok stored := by
  have haccepted : (pinnedStore []).acceptedBy [activationHeaders.map .ofAny]
      = activationHeaders.map .ofAny := by
    rw [HeaderStore.acceptedBy, HeaderStore.acceptedBy, List.append_nil, HeaderStore.acceptedOf,
      if_neg (by decide)]
    exact accepts_activation
  have hstorable : ∀ x ∈ (pinnedStore []).acceptedBy [activationHeaders.map .ofAny],
      Storable .testnet4 x := by
    rw [haccepted]
    exact storable_activation
  obtain ⟨-, hheight, -, htorn, -⟩ :=
    load_appendAll (Loader.ofAnchor anchor149535) (s := pinnedStore []) rfl rfl
      height_anchor149535 hstorable
  rw [haccepted] at hheight
  exact ⟨hheight, htorn _ _ (by decide)⟩

end PrunedElectrs
