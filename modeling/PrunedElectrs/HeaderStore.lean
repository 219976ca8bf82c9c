/-
PrunedElectrs/HeaderStore.lean

The client's header store: a chain state in memory, and a file of fixed-width
records for the headers above the last pin.

`append` advances the chain state header by header and collects the records of
the headers it accepted; only a `VerificationException` of the chain state is
caught, and what was collected until then is written at the offset of the first
of them.  The chain state is not part of the patches and is a parameter
(`HeaderChainState`), with what `append` relies on as its fields.

Where state and file agree (`InStep`), `append_records_iff` says when they
still do afterwards.  A header that is accepted and does not fit a record
leaves the state ahead of the file (`append_oversize`).
-/
import PrunedElectrs.Lib.RecordFile
import PrunedElectrs.ResponseForms

namespace PrunedElectrs

open Wire RecordFile

/-- What ends `append` early. -/
inductive Thrown
  | exception (e : JavaException)
  | illegalState (msg : String)
deriving DecidableEq

namespace VariableHeaders

/-- The on-disk record size for this network. -/
def recordLength (network : Network) : ℕ :=
  if supportsV2 network then Drongo.headerV2Length else Drongo.headerV1Length

theorem recordLength_pos (network : Network) : 0 < recordLength network := by
  rw [recordLength]
  split_ifs <;> decide

/-- Serialize a header into a fixed-width record, zero padded. -/
def toRecord (network : Network) (header : Drongo.BlockHeader) : Except Thrown Bytes :=
  let serialized := header.bitcoinSerialize
  let size := recordLength network
  if serialized.length = size then .ok serialized
  else if serialized.length > size then
    .error (.illegalState (s!"Header of {serialized.length} bytes does not fit a {size}"
      ++ s!" byte record on {network.name}"))
  else .ok (serialized ++ zeros (size - serialized.length))

/-- The header fits a record of the network. -/
def Fits (network : Network) (header : Drongo.BlockHeader) : Prop :=
  header.bitcoinSerialize.length ≤ recordLength network

end VariableHeaders

open VariableHeaders

/-- The chain of headers in memory.  `add` accepts a header and advances, or
throws a `VerificationException` and leaves the state. -/
structure HeaderChainState where
  State : Type
  /-- `getHeight()`, an `int`. -/
  height : State → ℤ
  add : State → Drongo.BlockHeader → Java State
  height_lt : ∀ s, height s < 2 ^ 31
  add_ok : ∀ {s s' h}, add s h = .ok s' → height s' = height s + 1
  add_error : ∀ {s h e}, add s h = .error e → ∃ msg, e = .verification msg

/-- The headers the chain state accepts, one after the other. -/
def HeaderChainState.accepts (C : HeaderChainState) (s : C.State) :
    List Drongo.BlockHeader → List Drongo.BlockHeader
  | [] => []
  | header :: headers =>
      match C.add s header with
      | .ok s' => header :: C.accepts s' headers
      | .error _ => []

theorem HeaderChainState.foldlM_cons {C : HeaderChainState} {s s₁ s' : C.State}
    {header : Drongo.BlockHeader} {headers : List Drongo.BlockHeader} (h : C.add s header = .ok s₁)
    (hrest : headers.foldlM C.add s₁ = .ok s') :
    (header :: headers).foldlM C.add s = .ok s' := by
  rw [List.foldlM_cons, h]
  exact hrest

theorem HeaderChainState.height_foldlM {C : HeaderChainState} {s s' : C.State}
    {headers : List Drongo.BlockHeader} (h : headers.foldlM C.add s = .ok s') :
    C.height s' = C.height s + headers.length := by
  induction headers generalizing s with
  | nil =>
      obtain rfl : s = s' := Except.ok.inj h
      rw [List.length_nil, Nat.cast_zero, add_zero]
  | cons header headers ih =>
      rw [List.foldlM_cons] at h
      obtain ⟨s₁, hadd, hrest⟩ := java_bind_eq_ok.mp h
      rw [ih hrest, C.add_ok hadd, List.length_cons]
      push_cast
      ring

/-- The store of a wallet: its file and its chain state. -/
structure HeaderStore (C : HeaderChainState) where
  network : Network
  /-- The height of the record at offset zero. -/
  startHeight : ℤ
  file : Bytes
  chainState : C.State
  /-- It is the height above a pin. -/
  startHeight_pos : 1 ≤ startHeight

/-- Write into a file from an offset on; a gap before it reads as zeros. -/
def writeAt (file : Bytes) (offset : ℕ) (b : Bytes) : Bytes :=
  (file ++ zeros (offset - file.length)).take offset ++ b ++ file.drop (offset + b.length)

namespace HeaderStore

variable {C : HeaderChainState}

/-- `(long)(height - startHeight) * headerLength()`. -/
def getOffset (s : HeaderStore C) (height : ℤ) : ℤ :=
  int (height - s.startHeight) * recordLength s.network

/-- The loop of `append`: the chain state, the bytes accepted, and what was
thrown. -/
def appendLoop (C : HeaderChainState) (network : Network) :
    List Drongo.BlockHeader → C.State → Bytes → C.State × Bytes × Option Thrown
  | [], state, accepted => (state, accepted, none)
  | header :: headers, state, accepted =>
      match C.add state header with
      | .error e => (state, accepted, some (.exception e))
      | .ok state' =>
          match toRecord network header with
          | .error e => (state', accepted, some e)
          | .ok record => appendLoop C network headers state' (accepted ++ record)

/-- Append headers above the tip.  Of what is thrown only a
`VerificationException` is caught, and rethrown after the write. -/
def append (s : HeaderStore C) (headers : List Drongo.BlockHeader) :
    HeaderStore C × Option Thrown :=
  let offset := s.getOffset (int (C.height s.chainState + 1))
  let capacity := int (headers.length * recordLength s.network)
  if capacity < 0 then
    (s, some (.exception (.illegalArgument s!"Negative initial size: {capacity}")))
  else
    match appendLoop C s.network headers s.chainState [] with
    | (state, accepted, none) =>
        ({ s with chainState := state, file := writeAt s.file offset.toNat accepted }, none)
    | (state, accepted, some (.exception (.verification msg))) =>
        ({ s with chainState := state, file := writeAt s.file offset.toNat accepted },
          some (.exception (.verification msg)))
    | (state, _, some e) => ({ s with chainState := state }, some e)

/-- The file holds exactly one record for each header above the pin. -/
def InStep (s : HeaderStore C) : Prop :=
  s.startHeight ≤ C.height s.chainState + 1
    ∧ (s.file.length : ℤ) = (C.height s.chainState + 1 - s.startHeight) * recordLength s.network

/-- Between the two states as many records were appended to the file as headers
to the chain. -/
def Recorded (s s' : HeaderStore C) : Prop :=
  ∃ records : List Bytes, (∀ r ∈ records, r.length = recordLength s.network)
    ∧ s'.file = s.file ++ records.flatten
    ∧ C.height s'.chainState = C.height s.chainState + records.length

/-! ### Records -/

/-- The record of a header that fits one. -/
def record (network : Network) (header : Drongo.BlockHeader) : Bytes :=
  header.bitcoinSerialize ++ zeros (recordLength network - header.bitcoinSerialize.length)

theorem toRecord_of_fits {network : Network} {header : Drongo.BlockHeader}
    (h : Fits network header) : toRecord network header = .ok (record network header) := by
  rw [Fits] at h
  rw [toRecord, record]
  by_cases he : header.bitcoinSerialize.length = recordLength network
  · rw [if_pos he, he, Nat.sub_self, zeros, List.replicate_zero, List.append_nil]
  · rw [if_neg he, if_neg (by omega)]

theorem toRecord_of_not_fits {network : Network} {header : Drongo.BlockHeader}
    (h : ¬ Fits network header) : ∃ msg, toRecord network header = .error (.illegalState msg) := by
  rw [Fits] at h
  rw [toRecord, if_neg (by omega), if_pos (by omega)]
  exact ⟨_, rfl⟩

theorem length_record {network : Network} {header : Drongo.BlockHeader} (h : Fits network header) :
    (record network header).length = recordLength network := by
  rw [Fits] at h
  rw [record, List.length_append, zeros, List.length_replicate]
  omega

/-! ### The loop -/

/-- Where all headers accepted fit, the loop collects their records, and ends
with the list or with the chain state's exception. -/
theorem appendLoop_of_fits {network : Network} {headers : List Drongo.BlockHeader}
    {state : C.State} (h : ∀ x ∈ C.accepts state headers, Fits network x) (accepted : Bytes) :
    ∃ state' thrown, appendLoop C network headers state accepted
        = (state', accepted ++ ((C.accepts state headers).map (record network)).flatten, thrown)
      ∧ (C.accepts state headers).foldlM C.add state = .ok state'
      ∧ (thrown = none ∨ ∃ msg, thrown = some (.exception (.verification msg))) := by
  induction headers generalizing state accepted with
  | nil => exact ⟨state, none, by simp [appendLoop, HeaderChainState.accepts], rfl, .inl rfl⟩
  | cons header headers ih =>
      rw [HeaderChainState.accepts] at h ⊢
      rw [appendLoop]
      rcases hadd : C.add state header with e | state₁
      · obtain ⟨msg, rfl⟩ := C.add_error hadd
        exact ⟨state, _, by simp, rfl, .inr ⟨msg, rfl⟩⟩
      · rw [hadd] at h
        simp only [List.forall_mem_cons] at h
        obtain ⟨state', thrown, hloop, hstate, hthrown⟩ :=
          ih h.2 (accepted ++ record network header)
        refine ⟨state', thrown, ?_, C.foldlM_cons hadd hstate, hthrown⟩
        simp only [toRecord_of_fits h.1, hloop, List.map_cons, List.flatten_cons,
          List.append_assoc]

/-- A header that is accepted and does not fit ends the loop behind it. -/
theorem appendLoop_of_not_fits {network : Network} {headers : List Drongo.BlockHeader}
    {state : C.State} (h : ∃ x ∈ C.accepts state headers, ¬ Fits network x) (accepted : Bytes) :
    ∃ state' accepted' msg, appendLoop C network headers state accepted
        = (state', accepted', some (.illegalState msg)) ∧ C.height state < C.height state' := by
  induction headers generalizing state accepted with
  | nil =>
      obtain ⟨x, hx, -⟩ := h
      cases hx
  | cons header headers ih =>
      rw [HeaderChainState.accepts] at h
      rw [appendLoop]
      rcases hadd : C.add state header with e | state₁
      · rw [hadd] at h
        obtain ⟨x, hx, -⟩ := h
        cases hx
      · rw [hadd] at h
        have hheight := C.add_ok hadd
        by_cases hfits : Fits network header
        · obtain ⟨x, hx, hnot⟩ := h
          rcases List.mem_cons.mp hx with rfl | hx
          · exact absurd hfits hnot
          · obtain ⟨state', accepted', msg, hloop, hlt⟩ :=
              ih ⟨x, hx, hnot⟩ (accepted ++ record network header)
            refine ⟨state', accepted', msg, ?_, by omega⟩
            simp only [toRecord_of_fits hfits, hloop]
        · obtain ⟨msg, hrecord⟩ := toRecord_of_not_fits hfits
          refine ⟨state₁, accepted, msg, ?_, by omega⟩
          simp only [hrecord]

/-! ### `append` -/

/-- Where state and file agree, the next header goes to the end of the file. -/
theorem InStep.getOffset {s : HeaderStore C} (hs : s.InStep) :
    s.getOffset (int (C.height s.chainState + 1)) = s.file.length := by
  obtain ⟨hstart, hfile⟩ := hs
  have hlt := C.height_lt s.chainState
  have hpos := s.startHeight_pos
  rw [HeaderStore.getOffset, hfile, int, int, Int.bmod_sub_bmod]
  exact congrArg (· * _) (int_of_range (by omega) (by omega))

theorem writeAt_end (file b : Bytes) : writeAt file file.length b = file ++ b := by
  rw [writeAt, Nat.sub_self, zeros, List.replicate_zero, List.append_nil, List.take_length,
    List.drop_eq_nil_of_le (by omega), List.append_nil]

/-- What `append` makes of a store where every header accepted fits. -/
theorem append_eq_of_fits {s : HeaderStore C} (hs : s.InStep) {headers : List Drongo.BlockHeader}
    (hcapacity : ¬ int (headers.length * recordLength s.network) < 0)
    (h : ∀ x ∈ C.accepts s.chainState headers, Fits s.network x) :
    ∃ state', (C.accepts s.chainState headers).foldlM C.add s.chainState = .ok state'
      ∧ (s.append headers).1 = { s with
          chainState := state'
          file := s.file
            ++ ((C.accepts s.chainState headers).map (record s.network)).flatten } := by
  obtain ⟨state', thrown, hloop, hstate, hthrown⟩ := appendLoop_of_fits h []
  have hwrite (b : Bytes) :
      writeAt s.file (s.getOffset (int (C.height s.chainState + 1))).toNat b = s.file ++ b := by
    rw [hs.getOffset, Int.toNat_natCast, writeAt_end]
  refine ⟨state', hstate, ?_⟩
  rw [append, if_neg hcapacity, hloop]
  rcases hthrown with rfl | ⟨msg, rfl⟩
  · simp only [hwrite, List.nil_append]
  · simp only [hwrite, List.nil_append]

theorem uniform_records {network : Network} {headers : List Drongo.BlockHeader}
    (h : ∀ x ∈ headers, Fits network x) :
    Uniform (recordLength network) (headers.map (record network)) := by
  intro r hr
  obtain ⟨x, hx, rfl⟩ := List.mem_map.mp hr
  exact length_record (h x hx)

theorem append_of_fits {s : HeaderStore C} (hs : s.InStep) {headers : List Drongo.BlockHeader}
    (hcapacity : ¬ int (headers.length * recordLength s.network) < 0)
    (h : ∀ x ∈ C.accepts s.chainState headers, Fits s.network x) :
    Recorded s (s.append headers).1 := by
  obtain ⟨state', hstate, happend⟩ := append_eq_of_fits hs hcapacity h
  rw [happend]
  exact ⟨_, uniform_records h, rfl, by rw [C.height_foldlM hstate, List.length_map]⟩

/-- The state goes on without the file. -/
theorem append_oversize {s : HeaderStore C} {headers : List Drongo.BlockHeader}
    (hcapacity : ¬ int (headers.length * recordLength s.network) < 0)
    (h : ∃ x ∈ C.accepts s.chainState headers, ¬ Fits s.network x) :
    ¬ Recorded s (s.append headers).1 := by
  obtain ⟨state', accepted', msg, hloop, hlt⟩ := appendLoop_of_not_fits h []
  rw [append, if_neg hcapacity, hloop]
  rintro ⟨records, hlen, hfile, hheight⟩
  have hempty : records.flatten = [] := List.append_right_eq_self.mp hfile.symm
  rcases records with - | ⟨r, records⟩
  · simp only [List.length_nil] at hheight
    omega
  · have hr : r = [] := List.flatten_eq_nil_iff.mp hempty r List.mem_cons_self
    have hpos := recordLength_pos s.network
    have := hlen r List.mem_cons_self
    rw [hr, List.length_nil] at this
    omega

/-- Recording keeps state and file in agreement. -/
theorem Recorded.inStep {s s' : HeaderStore C} (hs : s.InStep)
    (hsame : s'.network = s.network ∧ s'.startHeight = s.startHeight) (h : Recorded s s') :
    s'.InStep := by
  obtain ⟨hstart, hfile⟩ := hs
  obtain ⟨records, hlen, hfile', hheight⟩ := h
  have hflatten := Uniform.length_flatten hlen
  refine ⟨by rw [hsame.2, hheight]; omega, ?_⟩
  rw [hsame.1, hsame.2, hfile', List.length_append, hflatten, hheight]
  push_cast
  rw [hfile]
  ring

theorem append_same (s : HeaderStore C) (headers : List Drongo.BlockHeader) :
    (s.append headers).1.network = s.network
      ∧ (s.append headers).1.startHeight = s.startHeight := by
  rw [append]
  split_ifs
  · exact ⟨rfl, rfl⟩
  · split <;> exact ⟨rfl, rfl⟩

/-- **When `append` keeps chain state and file in step**: unless the buffer
cannot be allocated, which changes nothing, exactly when every header the chain
state accepts fits a record.  State and file then agree, and the next append
writes at the end of the file. -/
theorem append_records_iff {s : HeaderStore C} (hs : s.InStep)
    (headers : List Drongo.BlockHeader) :
    (Recorded s (s.append headers).1 ↔
      int (headers.length * recordLength s.network) < 0
      ∨ ∀ x ∈ C.accepts s.chainState headers, Fits s.network x) ∧
    (Recorded s (s.append headers).1 → (s.append headers).1.InStep
      ∧ (s.append headers).1.getOffset (int (C.height (s.append headers).1.chainState + 1))
        = (s.append headers).1.file.length) := by
  refine ⟨?_, fun h => ?_⟩
  · by_cases hcapacity : int (headers.length * recordLength s.network) < 0
    · have hnothing : Recorded s s := ⟨[], List.forall_mem_nil _, by simp, by simp⟩
      rw [append, if_pos hcapacity]
      exact ⟨fun _ => .inl hcapacity, fun _ => hnothing⟩
    · refine ⟨fun h => .inr ?_, ?_⟩
      · by_contra hnot
        push Not at hnot
        exact append_oversize hcapacity hnot h
      · rintro (h | h)
        · exact absurd h hcapacity
        · exact append_of_fits hs hcapacity h
  · have hstep := h.inStep hs (append_same s headers)
    exact ⟨hstep, hstep.getOffset⟩

/-- A header of the server fits unless it is a v2 header on a network without. -/
theorem fits_ofAny {network : Network} {h : AnyHeader} (hs : h.Streamable) :
    Fits network (.ofAny h) ↔ Carries network h := by
  rw [Fits, Carries, Drongo.BlockHeader.bitcoinSerialize_ofAny hs, AnyHeader.length_serialize,
    recordLength]
  rcases h with v1 | v2 <;> rcases supportsV2 network with - | - <;>
    simp [AnyHeader.size, AnyHeader.isV2, headerV1Size, headerV2Size, Drongo.headerV1Length,
      Drongo.headerV2Length]

/-! ### The first v2 header, on two networks -/

/-- A chain state that checks the link to its tip. -/
def linkedChain : HeaderChainState where
  State := Fin (2 ^ 31) × Drongo.Sha256Hash
  height s := s.1.val
  add s header :=
    if h : s.1.val + 1 < 2 ^ 31 then
      if header.prevBlockHash = s.2 then
        match header.getHash knownHashes with
        | .ok hash => .ok (⟨s.1.val + 1, h⟩, hash)
        | .error _ => .error (.verification "header has no hash")
      else .error (.verification "header does not link to the tip")
    else .error (.verification "height out of range")
  height_lt s := by
    have := s.1.isLt
    omega
  add_ok := by
    intro s s' h hadd
    split_ifs at hadd
    rcases hhash : h.getHash knownHashes with e | hash
    · rw [hhash] at hadd
      cases hadd
    · rw [hhash] at hadd
      obtain rfl := Except.ok.inj hadd
      push_cast
      rfl
  add_error := by
    intro s h e hadd
    split_ifs at hadd
    · rcases hhash : h.getHash knownHashes with e | hash
      · rw [hhash] at hadd
        obtain rfl := Except.error.inj hadd
        exact ⟨_, rfl⟩
      · rw [hhash] at hadd
        cases hadd
    · obtain rfl := Except.error.inj hadd
      exact ⟨_, rfl⟩
    · obtain rfl := Except.error.inj hadd
      exact ⟨_, rfl⟩

/-- A header that links to the tip is accepted. -/
theorem linkedChain_add {h : AnyHeader} (hs : h.Streamable) {n : Fin (2 ^ 31)}
    (hn : n.val + 1 < 2 ^ 31) :
    linkedChain.add (n, (Drongo.BlockHeader.ofAny h).prevBlockHash) (.ofAny h)
      = .ok (⟨n.val + 1, hn⟩, (h.blockHash knownHashes).reverse) := by
  simp only [linkedChain, Drongo.BlockHeader.getHash_ofAny knownHashes hs]
  rw [dif_pos hn, if_pos trivial]

/-- A store with nothing above its pin, which is the last header of the old
format. -/
def emptyStore (network : Network) : HeaderStore linkedChain where
  network := network
  startHeight := 149537
  file := []
  chainState := (⟨149536, by omega⟩, (Drongo.BlockHeader.ofAny (.v2 header149537)).prevBlockHash)
  startHeight_pos := by decide

theorem emptyStore_inStep (network : Network) : (emptyStore network).InStep := by
  constructor <;> simp [emptyStore, linkedChain]

theorem accepts_emptyStore (network : Network) :
    linkedChain.accepts (emptyStore network).chainState [.ofAny (.v2 header149537)]
      = [.ofAny (.v2 header149537)] := by
  have hadd := linkedChain_add (h := .v2 header149537) (n := ⟨149536, by omega⟩)
    (by decide +kernel) (by simp only; omega)
  rw [HeaderChainState.accepts, emptyStore, hadd]
  rfl

theorem append_records_iff_testnet4 : (emptyStore .testnet4).Recorded
    ((emptyStore .testnet4).append [.ofAny (.v2 header149537)]).1 := by
  refine (append_records_iff (emptyStore_inStep .testnet4) _).1.mpr (.inr fun x hx => ?_)
  rw [accepts_emptyStore, List.mem_singleton] at hx
  subst hx
  exact (fits_ofAny (by decide +kernel)).mpr (.inl rfl)

/-- On mainnet the same header is accepted, and no record is written for it. -/
theorem not_recorded_mainnet : ¬ (emptyStore .mainnet).Recorded
    ((emptyStore .mainnet).append [.ofAny (.v2 header149537)]).1 := by
  refine append_oversize (by decide) ⟨_, by
    rw [accepts_emptyStore]; exact List.mem_singleton_self _, fun hfits => ?_⟩
  rcases (fits_ofAny (by decide +kernel)).mp hfits with h | h
  · cases h
  · cases h

end HeaderStore

end PrunedElectrs
