/-
PrunedElectrs/StoreStride.lean

A header store written at one record size and loaded at the other.

The comment on `headerLength()` has such a store discarded, because a padded
record cannot descend from anything.  Whether a store is discarded depends on
its first record alone (`discards_iff_first`), though, and there padding is no
obstacle: the record of a v1 header starts with the same 80 bytes at either
size, and neither parser looks behind them (`newBlockHeader_record`).  So the
first header of the other build is found where it was, and accepted again.

`discards_iff` says which stores are discarded after all: those with less than
one record of the reading build, and those whose first header has the v2 marker,
so that the other build takes its bytes for a header of the other format, and
whose bytes do not pass for one.  Of the rules of `add` (`HeaderChainState.Rules`)
linkage says nothing there, as the parent is read off the same bytes; what is
left is the proof of work of the other hash, and the rules about the time.
-/
import PrunedElectrs.StoreReload

namespace PrunedElectrs

open Wire RecordFile VariableHeaders

/-! ### What the builds write and read -/

namespace Drongo.BlockHeader

/-- The version field, as it is serialized, marks a v2 header. -/
def Marked (x : Drongo.BlockHeader) : Prop :=
  x.getCompleteVersion &&& versionHeaderV2Flag ≠ 0

theorem exists_v1_at {b : Bytes} {o : ℕ} (hlen : o + 80 ≤ b.length) :
    ∃ h : HeaderV1, sub b o 80 = h.serialize :=
  ⟨HeaderV1.read (sub b o 80) (length_sub hlen), (HeaderV1.serialize_read (length_sub hlen)).symm⟩

theorem exists_of_parseUnpatched {b : Bytes} {o : ℕ} {x : Drongo.BlockHeader}
    (e : parseUnpatched b o = .ok x) : ∃ h : HeaderV1, x = ofV1 h := by
  obtain ⟨h, hbytes⟩ := exists_v1_at (length_of_parseUnpatched e).1
  rw [parseUnpatched_of_v1 hbytes] at e
  exact ⟨h, (Except.ok.inj e).symm⟩

theorem marked_ofV1 (h : HeaderV1) :
    (ofV1 h).Marked ↔ h.version.toUInt32 &&& PrunedElectrs.versionHeaderV2Flag ≠ 0 :=
  not_congr (and_flag_eq_zero_iff _)

theorem marked_ofV2 {h : HeaderV2} (hv : h.version &&& PrunedElectrs.versionHeaderV2Flag = 0) :
    (ofV2 h).Marked := by
  intro hzero
  rw [show (ofV2 h).getCompleteVersion = h.completeVersion.toNat from completeVersion_toNat hv]
    at hzero
  exact h.completeVersion_and_flag ((and_flag_eq_zero_iff _).mp hzero)

end Drongo.BlockHeader

namespace Build

variable {network : Network}

/-- The record a build writes for a header. -/
def record (network : Network) : Build → Drongo.BlockHeader → Bytes
  | unpatched, header => header.bitcoinSerialize
  | patched, header => HeaderStore.record network header

/-- The store file a build writes for headers. -/
def fileOf (network : Network) (build : Build) (headers : List Drongo.BlockHeader) : Bytes :=
  (headers.map (build.record network)).flatten

theorem le_headerLength (hnetwork : supportsV2 network) (build : Build) :
    80 ≤ build.headerLength network := by
  cases build with
  | unpatched => exact le_rfl
  | patched =>
      rw [headerLength, recordLength, if_pos hnetwork]
      decide

/-- A header without the marker, whichever build has read it, is a v1 header. -/
theorem exists_v1 {build : Build} {b : Bytes} {x : Drongo.BlockHeader}
    (e : build.newBlockHeader b = .ok x) (hx : ¬ x.Marked) :
    ∃ h : HeaderV1, h.version.toUInt32 &&& versionHeaderV2Flag = 0
      ∧ x = Drongo.BlockHeader.ofV1 h := by
  cases build with
  | unpatched =>
      obtain ⟨h, rfl⟩ := Drongo.BlockHeader.exists_of_parseUnpatched e
      exact ⟨h, not_not.mp (mt (Drongo.BlockHeader.marked_ofV1 h).mpr hx), rfl⟩
  | patched =>
      obtain ⟨h, hs, rfl⟩ := Drongo.BlockHeader.exists_of_parse e
      cases h with
      | v1 h => exact ⟨h, hs, rfl⟩
      | v2 h => exact absurd (Drongo.BlockHeader.marked_ofV2 hs) hx

/-- **Either build finds a v1 header at the front of the other's record.** -/
theorem newBlockHeader_record (writer reader : Build) {h : HeaderV1}
    (hv : h.version.toUInt32 &&& versionHeaderV2Flag = 0) {n : ℕ} (hn : 80 ≤ n) (rest : Bytes) :
    reader.newBlockHeader ((writer.record network (.ofV1 h) ++ rest).take n)
      = .ok (.ofV1 h) := by
  have hlen : h.serialize.length = 80 := h.length_serialize
  obtain ⟨padding, hrecord⟩ :
      ∃ padding, writer.record network (.ofV1 h) = h.serialize ++ padding := by
    cases writer with
    | unpatched => exact ⟨[], by
        rw [record, Drongo.BlockHeader.bitcoinSerialize_ofV1, List.append_nil]⟩
    | patched => exact ⟨_, by
        rw [record, HeaderStore.record, Drongo.BlockHeader.bitcoinSerialize_ofV1]⟩
  have hfront : sub ((writer.record network (.ofV1 h) ++ rest).take n) 0 80 = h.serialize := by
    rw [hrecord, List.append_assoc, sub, List.drop_zero, List.take_take, Nat.min_eq_left hn, ← hlen,
      List.take_left]
  cases reader with
  | unpatched => exact Drongo.BlockHeader.parseUnpatched_of_v1 hfront
  | patched => exact Drongo.BlockHeader.parse_of_v1 hfront hv

/-- On a network with v2 headers every record has a header. -/
theorem exists_newBlockHeader (hnetwork : supportsV2 network) (build : Build) {b : Bytes}
    (hb : b.length = build.headerLength network) : ∃ x, build.newBlockHeader b = .ok x := by
  cases build with
  | unpatched =>
      have hlen : 0 + 80 ≤ b.length := hb.ge
      obtain ⟨h, hbytes⟩ := Drongo.BlockHeader.exists_v1_at hlen
      exact ⟨_, Drongo.BlockHeader.parseUnpatched_of_v1 hbytes⟩
  | patched =>
      rw [headerLength, recordLength, if_pos hnetwork] at hb
      have hlen : 0 + 164 ≤ b.length := hb.ge
      obtain ⟨h, hs, hbytes⟩ :=
        Drongo.BlockHeader.exists_header_at (show 0 + 80 ≤ b.length by omega) fun _ => hlen
      exact ⟨_, Drongo.BlockHeader.parse_of_any hs hbytes⟩

end Build

/-! ### Which files are discarded -/

variable {C : HeaderChainState}

/-- Loading accepts no record: the chain state is the anchor, and the file is
cut to nothing. -/
def Loader.Discards (L : Loader C) (build : Build) (s : HeaderStore C) : Prop :=
  L.load build s = .ok { s with chainState := L.newChainState, file := [] }

theorem Build.height_addRecord {build : Build} {state state' : C.State} {record : Bytes}
    (h : build.addRecord C state record = .ok state') : C.height state' = C.height state + 1 := by
  obtain ⟨header, -, hadd⟩ := java_bind_eq_ok.mp h
  exact C.add_ok hadd

theorem Build.addRecord_error {network : Network} (hnetwork : supportsV2 network) {build : Build}
    {state : C.State} {record : Bytes} (hrecord : record.length = build.headerLength network)
    {e : JavaException} (h : build.addRecord C state record = .error e) :
    ∃ msg, e = .verification msg := by
  obtain ⟨header, hparse⟩ := build.exists_newBlockHeader hnetwork hrecord
  rw [Build.addRecord, hparse, java_ok_bind] at h
  exact C.add_error h

/-- **Whether a store is discarded is a matter of its first record.** -/
theorem Loader.discards_iff_first (L : Loader C) {build : Build} {s : HeaderStore C}
    (hnetwork : supportsV2 s.network) (hstart : C.height L.newChainState + 1 = s.startHeight) :
    L.Discards build s ↔ s.file.length < build.headerLength s.network
      ∨ ∀ state, build.addRecord C L.newChainState
          (s.file.take (build.headerLength s.network)) ≠ .ok state := by
  have hpos := build.headerLength_pos s.network
  have huniform : Uniform (build.headerLength s.network) (chunks (build.headerLength s.network)
      (s.file.length / build.headerLength s.network) s.file) :=
    uniform_chunks (Nat.div_mul_le_self _ _)
  obtain ⟨state, hreplay⟩ : ∃ state, replay (build.addRecord C) L.handling
      (chunks (build.headerLength s.network) (s.file.length / build.headerLength s.network) s.file)
      L.newChainState = .ok state := by
    apply exists_replay
    intro state r hr e he
    obtain ⟨msg, rfl⟩ := Build.addRecord_error hnetwork (huniform r hr) he
    rw [L.handling_verification]
    decide
  -- the load, in terms of what the replay ends in
  have hload : L.Discards build s ↔ state = L.newChainState := by
    rw [Loader.Discards, L.load_eq state hreplay]
    constructor
    · intro h
      exact congrArg HeaderStore.chainState (Except.ok.inj h)
    · rintro rfl
      rw [hstart, sub_self, Int.toNat_zero, Nat.zero_mul, List.take_zero]
  rw [hload]
  by_cases hshort : s.file.length < build.headerLength s.network
  · rw [Nat.div_eq_of_lt hshort] at hreplay
    exact iff_of_true (Except.ok.inj hreplay).symm (.inl hshort)
  · obtain ⟨n, hn⟩ : ∃ n, s.file.length / build.headerLength s.network = n + 1 :=
      Nat.exists_eq_succ_of_ne_zero (Nat.div_pos (not_lt.mp hshort) hpos).ne'
    rw [hn, chunks] at hreplay huniform
    rcases hfirst : build.addRecord C L.newChainState
        (s.file.take (build.headerLength s.network)) with e | state₁
    · obtain ⟨msg, rfl⟩ :=
        Build.addRecord_error hnetwork (huniform _ List.mem_cons_self) hfirst
      rw [replay_refused hfirst (L.handling_verification msg)] at hreplay
      exact iff_of_true (Except.ok.inj hreplay).symm (.inr fun state => by simp)
    · rw [replay_accepted hfirst] at hreplay
      have hle : C.height state₁ ≤ C.height state :=
        le_of_replay (fun h => by rw [Build.height_addRecord h]; omega) hreplay
      have hgrown := Build.height_addRecord hfirst
      refine iff_of_false ?_ ?_
      · rintro rfl
        omega
      · rintro (h | h)
        · exact hshort h
        · exact h state₁ rfl

/-! ### The other build's store -/

theorem Build.uniform_records {network : Network} (hnetwork : supportsV2 network) {writer : Build}
    {headers : List Drongo.BlockHeader}
    (hread : ∀ x ∈ headers, ∃ b, writer.newBlockHeader b = .ok x) :
    Uniform (writer.headerLength network) (headers.map (writer.record network)) := by
  intro r hr
  obtain ⟨x, hx, rfl⟩ := List.mem_map.mp hr
  obtain ⟨b, hb⟩ := hread x hx
  cases writer with
  | unpatched =>
      obtain ⟨h, rfl⟩ := Drongo.BlockHeader.exists_of_parseUnpatched hb
      rw [record, Drongo.BlockHeader.bitcoinSerialize_ofV1]
      exact h.length_serialize
  | patched =>
      have hstorable : Storable network x := ⟨⟨b, 0, hb⟩, .inl hnetwork⟩
      exact HeaderStore.length_record hstorable.fits

/-- A store that starts with a v1 header keeps it. -/
theorem Loader.not_discards (L : Loader C) {writer reader : Build} {s : HeaderStore C}
    (hnetwork : supportsV2 s.network) (hstart : C.height L.newChainState + 1 = s.startHeight)
    {first : Drongo.BlockHeader} {headers : List Drongo.BlockHeader}
    (hread : ∃ b, writer.newBlockHeader b = .ok first) {state : C.State}
    (hverified : (first :: headers).foldlM C.add L.newChainState = .ok state)
    (hfile : s.file = writer.fileOf s.network (first :: headers))
    (hlong : reader.headerLength s.network ≤ s.file.length) (hfirst : ¬ first.Marked) :
    ¬ L.Discards reader s := by
  obtain ⟨b, hb⟩ := hread
  obtain ⟨h, hv, rfl⟩ := Build.exists_v1 hb hfirst
  have h80 : 80 ≤ reader.headerLength s.network := reader.le_headerLength hnetwork
  have hparse : reader.newBlockHeader (s.file.take (reader.headerLength s.network))
      = .ok (.ofV1 h) := by
    rw [hfile, Build.fileOf, List.map_cons, List.flatten_cons]
    exact writer.newBlockHeader_record reader hv h80 _
  rw [List.foldlM_cons] at hverified
  obtain ⟨state₁, hadd, -⟩ := java_bind_eq_ok.mp hverified
  rw [L.discards_iff_first hnetwork hstart]
  rintro (hshort | hrefused)
  · omega
  · apply hrefused state₁
    rw [Build.addRecord, hparse, java_ok_bind, hadd]

/-! ### What the chain state checks -/

/-- What `HeaderChainState.add` compares a header with. -/
structure HeaderChainState.Rules (C : HeaderChainState) where
  /-- The hash of the tip. -/
  getHash : C.State → Drongo.Sha256Hash
  /-- The difficulty rule, for a time and a target. -/
  Difficulty : C.State → ℕ → ℕ → Prop
  /-- `Utils.decodeCompactBits`. -/
  decodeCompactBits : ℕ → ℤ
  /-- The rule of median time past, for a time. -/
  MedianTimePast : C.State → ℕ → Prop

namespace HeaderChainState.Rules

variable (R : C.Rules)

/-- The rules about a time, a hash and a target. -/
def Passes (state : C.State) (time : ℕ) (hash : Drongo.Sha256Hash) (difficultyTarget : ℕ) :
    Prop :=
  R.Difficulty state time difficultyTarget
    ∧ (leNat hash.getReversedBytes : ℤ) ≤ R.decodeCompactBits difficultyTarget
    ∧ R.MedianTimePast state time

/-- `add` verifies linkage, difficulty, proof of work and median time past, and
nothing else. -/
def Documented (H : Hashes) : Prop :=
  ∀ {state : C.State} {header : Drongo.BlockHeader}, C.height state + 1 < 2 ^ 31 →
    ((∃ state', C.add state header = .ok state') ↔
      header.prevBlockHash = R.getHash state ∧ ∃ hash, header.getHash H = .ok hash
        ∧ R.Passes state header.time hash header.difficultyTarget)

end HeaderChainState.Rules

/-! ### The same bytes as the other header -/

theorem sub_take_front {b : Bytes} {n o m : ℕ} (h : o + m ≤ n) :
    sub (b.take n) o m = sub b o m := by
  have hsub : sub (sub b 0 n) o m = sub b (0 + o) m := sub_of_sub h
  rwa [Nat.zero_add] at hsub

theorem AnyHeader.time_ofAny (h : AnyHeader) :
    (Drongo.BlockHeader.ofAny h).time = h.time.toNat := by
  cases h <;> rfl

namespace Drongo.BlockHeader

/-- Where the parent and the target of a header are written. -/
theorem front_ofAny (h : AnyHeader) :
    sub h.serialize 4 32 = (ofAny h).prevBlockHash.getReversedBytes
      ∧ leNat (sub h.serialize 72 4) = (ofAny h).difficultyTarget := by
  cases h with
  | v1 h =>
      have hcuts : cuts h.serialize 0 HeaderV1.widths = h.fields :=
        cuts_of_sub h.map_length_fields rfl (sub_all h.length_serialize)
      simp only [cuts, HeaderV1.widths, HeaderV1.fields, List.cons.injEq, Nat.reduceAdd] at hcuts
      obtain ⟨-, e4, -, -, e72, -⟩ := hcuts
      refine ⟨e4.trans (getReversedBytes_reverse _).symm, ?_⟩
      show leNat (sub h.serialize 72 4) = h.bits.toNat
      rw [e72, ← toNat_u32of (length_u32le _), u32of_u32le]
  | v2 h =>
      have hcuts : cuts h.serialize 0 HeaderV2.widths = h.fields :=
        cuts_of_sub h.map_length_fields rfl (sub_all h.length_serialize)
      simp only [cuts, HeaderV2.widths, HeaderV2.fields, List.cons.injEq, Nat.reduceAdd] at hcuts
      obtain ⟨-, e4, -, -, e72, -⟩ := hcuts
      refine ⟨e4.trans (getReversedBytes_reverse _).symm, ?_⟩
      show leNat (sub h.serialize 72 4) = h.bits.toNat
      rw [e72, ← toNat_u32of (length_u32le _), u32of_u32le]

/-- Headers of either format with the same first 80 bytes have one parent and one
target. -/
theorem eq_of_front {h h' : AnyHeader} (e : h.serialize.take 80 = h'.serialize.take 80) :
    (ofAny h).prevBlockHash = (ofAny h').prevBlockHash
      ∧ (ofAny h).difficultyTarget = (ofAny h').difficultyTarget := by
  have hsub {o n : ℕ} (ho : o + n ≤ 80) : sub h.serialize o n = sub h'.serialize o n := by
    rw [← sub_take_front ho, e, sub_take_front ho]
  obtain ⟨hprev, hbits⟩ := front_ofAny h
  obtain ⟨hprev', hbits'⟩ := front_ofAny h'
  rw [hsub (by decide), hprev'] at hprev
  rw [hsub (by decide), hbits'] at hbits
  refine ⟨?_, hbits.symm⟩
  exact (List.Vector.eq _ _ (List.reverse_injective hprev)).symm

end Drongo.BlockHeader

namespace Build

variable {network : Network}

/-- Marked bytes, as many as a build's record has, are a header of that length,
and the build reads them as that one. -/
theorem exists_parseExact (hnetwork : supportsV2 network) (build : Build) {b : Bytes}
    (hb : b.length = build.headerLength network)
    (hv : u32of (sub b 0 4) &&& versionHeaderV2Flag ≠ 0) :
    ∃ h : AnyHeader, AnyHeader.parseExact b = .ok h ∧ h.serialize = b
      ∧ build.newBlockHeader b = .ok (.ofAny h)
      ∧ ∀ H, (Drongo.BlockHeader.ofAny h).getHash H = .ok (h.blockHash H).reverse := by
  cases build with
  | unpatched =>
      have hbytes : (HeaderV1.read b hb).serialize = b := HeaderV1.serialize_read hb
      refine ⟨.v1 (HeaderV1.read b hb), ?_, hbytes, ?_, fun H => ?_⟩
      · have hparse := AnyHeader.parseExact_serialize_v1 (HeaderV1.read b hb)
        rwa [AnyHeader.serialize, hbytes] at hparse
      · exact Drongo.BlockHeader.parseUnpatched_of_v1 ((sub_all hb).trans hbytes.symm)
      · exact Drongo.BlockHeader.getHash_ofV1 H _
  | patched =>
      rw [headerLength, recordLength, if_pos hnetwork] at hb
      have hbytes : (HeaderV2.read b hb).serialize = b := HeaderV2.serialize_read hb hv
      have hclear := HeaderV2.version_read_clear hb
      refine ⟨.v2 (HeaderV2.read b hb), ?_, hbytes, ?_, fun H => ?_⟩
      · have hparse := AnyHeader.parseExact_serialize_v2 hclear
        rwa [AnyHeader.serialize, hbytes] at hparse
      · exact Drongo.BlockHeader.parse_of_v2 ((sub_all hb).trans hbytes.symm) hclear
      · exact Drongo.BlockHeader.getHash_ofV2 H hclear

/-- A record starts with the bytes of its header. -/
theorem exists_record (network : Network) {writer : Build} {b : Bytes}
    {x : Drongo.BlockHeader} (e : writer.newBlockHeader b = .ok x) :
    ∃ (h : AnyHeader) (padding : Bytes), x = .ofAny h
      ∧ writer.record network x = h.serialize ++ padding
      ∧ (x.Marked → u32of (sub h.serialize 0 4) &&& versionHeaderV2Flag ≠ 0) := by
  -- a v1 header is marked by its own version field, a v2 header always
  have hv1 (h : HeaderV1) (hx : (Drongo.BlockHeader.ofV1 h).Marked) :
      u32of (sub h.serialize 0 4) &&& versionHeaderV2Flag ≠ 0 := by
    rw [AnyHeader.sub_serialize_v1, u32of_u32le]
    exact (Drongo.BlockHeader.marked_ofV1 h).mp hx
  cases writer with
  | unpatched =>
      obtain ⟨h, rfl⟩ := Drongo.BlockHeader.exists_of_parseUnpatched e
      refine ⟨.v1 h, [], rfl, ?_, hv1 h⟩
      rw [record, Drongo.BlockHeader.bitcoinSerialize_ofV1, List.append_nil, AnyHeader.serialize]
  | patched =>
      obtain ⟨h, hs, rfl⟩ := Drongo.BlockHeader.exists_of_parse e
      refine ⟨h, zeros (recordLength network - (Drongo.BlockHeader.ofAny h).bitcoinSerialize.length),
        rfl, ?_, fun hx => ?_⟩
      · rw [record, HeaderStore.record, Drongo.BlockHeader.bitcoinSerialize_ofAny hs]
      · cases h with
        | v1 h => exact hv1 h hx
        | v2 h =>
            rw [AnyHeader.serialize, HeaderV2.sub_serialize_version, u32of_u32le]
            exact h.completeVersion_and_flag

end Build

/-- A store that starts with a marked header is discarded where the first bytes do
not pass for a header of the other format. -/
theorem Loader.discards_iff_passes (L : Loader C) {H : Hashes} {R : C.Rules} (hR : R.Documented H)
    {writer reader : Build} {s : HeaderStore C} (hnetwork : supportsV2 s.network)
    (hstart : C.height L.newChainState + 1 = s.startHeight)
    {first : Drongo.BlockHeader} {headers : List Drongo.BlockHeader}
    (hread : ∃ b, writer.newBlockHeader b = .ok first) {state : C.State}
    (hverified : (first :: headers).foldlM C.add L.newChainState = .ok state)
    (hfile : s.file = writer.fileOf s.network (first :: headers))
    (hlong : reader.headerLength s.network ≤ s.file.length) (hfirst : first.Marked) :
    L.Discards reader s ↔ ∃ h : AnyHeader,
      AnyHeader.parseExact (s.file.take (reader.headerLength s.network)) = .ok h
        ∧ ¬ R.Passes L.newChainState h.time.toNat (h.blockHash H).reverse
          first.difficultyTarget := by
  obtain ⟨b, hb⟩ := hread
  obtain ⟨h₀, padding, rfl, hrecord, hmarked⟩ := Build.exists_record s.network hb
  have h80 : 80 ≤ reader.headerLength s.network := reader.le_headerLength hnetwork
  have hlen₀ : 80 ≤ h₀.serialize.length := by
    rw [h₀.length_serialize]
    cases h₀ <;> simp
  -- the record that is read starts with the 80 bytes of the record that was written
  have hfront : (s.file.take (reader.headerLength s.network)).take 80 = h₀.serialize.take 80 := by
    rw [List.take_take, Nat.min_eq_left h80, hfile, Build.fileOf, List.map_cons,
      List.flatten_cons, hrecord, List.append_assoc, List.take_append_of_le_length hlen₀]
  have hrecordLength : (s.file.take (reader.headerLength s.network)).length
      = reader.headerLength s.network := List.length_take_of_le hlong
  have hversion : sub (s.file.take (reader.headerLength s.network)) 0 4
      = sub h₀.serialize 0 4 := by
    rw [← sub_take_front (n := 80) (by decide), hfront, sub_take_front (by decide)]
  obtain ⟨h, hparse, hbytes, hnew, hhash⟩ :=
    reader.exists_parseExact hnetwork hrecordLength (hversion ▸ hmarked hfirst)
  obtain ⟨hprev, hbits⟩ := Drongo.BlockHeader.eq_of_front (h := h) (hbytes ▸ hfront)
  -- the header that was stored passed all rules, so linkage is met by either reading
  rw [List.foldlM_cons] at hverified
  obtain ⟨state₁, hadd, -⟩ := java_bind_eq_ok.mp hverified
  have hheight : C.height L.newChainState + 1 < 2 ^ 31 := C.add_ok hadd ▸ C.height_lt state₁
  obtain ⟨hlink, -⟩ := (hR hheight).mp ⟨state₁, hadd⟩
  have hpasses : (∃ state', C.add L.newChainState (.ofAny h) = .ok state')
      ↔ R.Passes L.newChainState h.time.toNat (h.blockHash H).reverse
          (Drongo.BlockHeader.ofAny h₀).difficultyTarget := by
    rw [hR hheight, hhash, hprev, hlink, hbits, h.time_ofAny]
    simp
  have haddRecord : (∃ state', reader.addRecord C L.newChainState
        (s.file.take (reader.headerLength s.network)) = .ok state')
      ↔ ∃ state', C.add L.newChainState (.ofAny h) = .ok state' := by
    rw [Build.addRecord, hnew, java_ok_bind]
  rw [L.discards_iff_first hnetwork hstart, or_iff_right (not_lt.mpr hlong), ← not_exists,
    haddRecord, hpasses]
  constructor
  · exact fun hrefused => ⟨h, hparse, hrefused⟩
  · rintro ⟨h', hparse', hrefused⟩
    rw [hparse] at hparse'
    obtain rfl := Except.ok.inj hparse'
    exact hrefused

/-- **Which stores of the other build are discarded**, of those that hold
verified headers on a network with v2 headers: one or two 80 byte records, which
are less than a record of 164, and those whose first header carries the v2
marker, where the same bytes, as the header of the other length that they are,
fail the proof of work of their own target or a rule about their time. -/
theorem discards_iff (L : Loader C) {H : Hashes} {R : C.Rules} (hR : R.Documented H)
    {writer reader : Build} (hother : reader ≠ writer)
    {s : HeaderStore C} (hnetwork : supportsV2 s.network)
    (hstart : C.height L.newChainState + 1 = s.startHeight)
    {first : Drongo.BlockHeader} {headers : List Drongo.BlockHeader}
    (hread : ∀ x ∈ first :: headers, ∃ b, writer.newBlockHeader b = .ok x) {state : C.State}
    (hverified : (first :: headers).foldlM C.add L.newChainState = .ok state)
    (hfile : s.file = writer.fileOf s.network (first :: headers)) :
    L.Discards reader s ↔
      (writer = .unpatched ∧ headers.length ≤ 1)
      ∨ (first.Marked ∧ ∃ h : AnyHeader,
          AnyHeader.parseExact (s.file.take (reader.headerLength s.network)) = .ok h
            ∧ ¬ R.Passes L.newChainState h.time.toNat (h.blockHash H).reverse
              first.difficultyTarget) := by
  have hfirst := hread first List.mem_cons_self
  have hshort : s.file.length < reader.headerLength s.network
      ↔ writer = .unpatched ∧ headers.length ≤ 1 := by
    have hlen : s.file.length = (headers.length + 1) * writer.headerLength s.network := by
      rw [hfile, Build.fileOf, (Build.uniform_records hnetwork hread).length_flatten,
        List.length_map, List.length_cons]
    have h164 : recordLength s.network = 164 := if_pos hnetwork
    rw [hlen]
    cases writer with
    | unpatched =>
        cases reader with
        | unpatched => exact absurd rfl hother
        | patched =>
            simp only [Build.headerLength, h164, true_and]
            omega
    | patched =>
        cases reader with
        | unpatched =>
            simp only [Build.headerLength, h164, reduceCtorEq, false_and, iff_false]
            omega
        | patched => exact absurd rfl hother
  rw [← hshort]
  by_cases hlong : s.file.length < reader.headerLength s.network
  · exact iff_of_true ((L.discards_iff_first hnetwork hstart).mpr (.inl hlong)) (.inl hlong)
  · rw [or_iff_right hlong]
    by_cases hmarked : first.Marked
    · rw [L.discards_iff_passes hR hnetwork hstart hfirst hverified hfile (not_lt.mp hlong) hmarked,
        and_iff_right hmarked]
    · exact iff_of_false (L.not_discards hnetwork hstart hfirst hverified hfile (not_lt.mp hlong)
        hmarked) fun h => hmarked h.1

/-! ### The two headers of testnet4 -/

/-- The target of a positive compact encoding. -/
def compactTarget (nBits : ℕ) : ℤ := nBits % 2 ^ 23 * 256 ^ (nBits / 2 ^ 24 - 3)

/-- A chain state that checks the proof of work and the link to its tip. -/
def workChain : HeaderChainState where
  State := HeaderStore.linkedChain.State
  height := HeaderStore.linkedChain.height
  add state header :=
    match header.getHash knownHashes with
    | .ok hash =>
        if (leNat hash.getReversedBytes : ℤ) ≤ compactTarget header.difficultyTarget then
          HeaderStore.linkedChain.add state header
        else .error (.verification "hash is above the target")
    | .error _ => .error (.verification "header has no hash")
  height_lt := HeaderStore.linkedChain.height_lt
  add_ok := by
    intro state state' header hadd
    split at hadd
    · split_ifs at hadd
      exact HeaderStore.linkedChain.add_ok hadd
    · cases hadd
  add_error := by
    intro state header e hadd
    split at hadd
    · split_ifs at hadd
      · exact HeaderStore.linkedChain.add_error hadd
      · exact ⟨_, (Except.error.inj hadd).symm⟩
    · exact ⟨_, (Except.error.inj hadd).symm⟩

/-- Its rules: any target and any time are admitted. -/
def workRules : workChain.Rules where
  getHash state := state.2
  Difficulty _ _ _ := True
  decodeCompactBits := compactTarget
  MedianTimePast _ _ := True

theorem documented_workRules : workRules.Documented knownHashes := by
  intro state header hheight
  have hheight' : state.1.val + 1 < 2 ^ 31 := by
    have hcast : ((state.1.val : ℤ)) + 1 < 2 ^ 31 := hheight
    omega
  simp only [workChain, workRules, HeaderChainState.Rules.Passes, HeaderStore.linkedChain,
    dif_pos hheight', true_and, and_true]
  rcases header.getHash knownHashes with e | hash
  · simp
  · by_cases hwork : (leNat hash.getReversedBytes : ℤ) ≤ compactTarget header.difficultyTarget
    · by_cases hlink : header.prevBlockHash = state.2 <;> simp [hwork, hlink]
    · simp [hwork]

/-- A header with its proof of work that links to the tip is accepted. -/
theorem workChain_add {h : AnyHeader} (hs : h.Streamable) {n : Fin (2 ^ 31)}
    (hn : n.val + 1 < 2 ^ 31)
    (hwork : (leNat (h.blockHash knownHashes).toList : ℤ)
      ≤ compactTarget (Drongo.BlockHeader.ofAny h).difficultyTarget) :
    workChain.add (n, (Drongo.BlockHeader.ofAny h).prevBlockHash) (.ofAny h)
      = .ok (⟨n.val + 1, hn⟩, (h.blockHash knownHashes).reverse) := by
  simp only [workChain, Drongo.BlockHeader.getHash_ofAny knownHashes hs,
    Drongo.BlockHeader.getReversedBytes_reverse, if_pos hwork]
  exact HeaderStore.linkedChain_add hs hn

/-- The header below a header. -/
def anchorBelow (n : Fin (2 ^ 31)) (h : AnyHeader) : workChain.State :=
  (n, (Drongo.BlockHeader.ofAny h).prevBlockHash)

/-- A store on testnet4 that is pinned there. -/
def storeAbove (n : Fin (2 ^ 31)) (h : AnyHeader) (file : Bytes) : HeaderStore workChain where
  network := .testnet4
  startHeight := n.val + 1
  file := file
  chainState := anchorBelow n h
  startHeight_pos := by omega

theorem storeAbove_file (n : Fin (2 ^ 31)) (h : AnyHeader) (file : Bytes) :
    (storeAbove n h file).file = file := rfl

theorem verified149536 : ∃ state,
    [Drongo.BlockHeader.ofV1 header149536].foldlM workChain.add
      (anchorBelow 149535 (.v1 header149536)) = .ok state := by
  have hadd := workChain_add (h := .v1 header149536) (n := 149535)
    (by decide +kernel) (by decide) (by decide +kernel)
  exact ⟨_, HeaderChainState.foldlM_cons hadd rfl⟩

theorem verified149537 : ∃ state,
    [Drongo.BlockHeader.ofV2 header149537].foldlM workChain.add
      (anchorBelow 149536 (.v2 header149537)) = .ok state := by
  have hadd := workChain_add (h := .v2 header149537) (n := 149536)
    (by decide +kernel) (by decide) (by decide +kernel)
  exact ⟨_, HeaderChainState.foldlM_cons hadd rfl⟩

theorem read149536 (build : Build) :
    build.newBlockHeader header149536.serialize = .ok (.ofV1 header149536) := by
  have hall : sub header149536.serialize 0 80 = header149536.serialize :=
    sub_all header149536.length_serialize
  cases build with
  | unpatched => exact Drongo.BlockHeader.parseUnpatched_of_v1 hall
  | patched => exact Drongo.BlockHeader.parse_of_v1 hall (by decide +kernel)

theorem read149537 : Build.patched.newBlockHeader header149537.serialize
    = .ok (.ofV2 header149537) :=
  Drongo.BlockHeader.parse_of_v2 (sub_all header149537.length_serialize) (by decide +kernel)

/-- A store of one 80 byte record is less than a record of this build; and the
first v2 header has no proof of work as a v1 header. -/
theorem discards_iff_testnet4 :
    (Loader.ofAnchor (anchorBelow 149535 (.v1 header149536))).Discards .patched
      (storeAbove 149535 (.v1 header149536)
        (Build.unpatched.fileOf .testnet4 [.ofV1 header149536]))
    ∧ (Loader.ofAnchor (anchorBelow 149536 (.v2 header149537))).Discards .unpatched
      (storeAbove 149536 (.v2 header149537)
        (Build.patched.fileOf .testnet4 [.ofV2 header149537])) := by
  constructor
  · obtain ⟨state, hverified⟩ := verified149536
    have hread : ∀ x ∈ [Drongo.BlockHeader.ofV1 header149536],
        ∃ b, Build.unpatched.newBlockHeader b = .ok x := by
      intro x hx
      obtain rfl := List.mem_singleton.mp hx
      exact ⟨_, read149536 .unpatched⟩
    exact (discards_iff (Loader.ofAnchor (anchorBelow 149535 (.v1 header149536)))
      documented_workRules (show Build.patched ≠ .unpatched by decide)
      (s := storeAbove 149535 (.v1 header149536)
        (Build.unpatched.fileOf .testnet4 [.ofV1 header149536])) rfl
      rfl hread hverified (storeAbove_file _ _ _)).mpr (.inl ⟨rfl, Nat.zero_le 1⟩)
  · obtain ⟨state, hverified⟩ := verified149537
    have hread : ∀ x ∈ [Drongo.BlockHeader.ofV2 header149537],
        ∃ b, Build.patched.newBlockHeader b = .ok x := by
      intro x hx
      obtain rfl := List.mem_singleton.mp hx
      exact ⟨_, read149537⟩
    refine (discards_iff (Loader.ofAnchor (anchorBelow 149536 (.v2 header149537)))
      documented_workRules (show Build.unpatched ≠ .patched by decide)
      (s := storeAbove 149536 (.v2 header149537)
        (Build.patched.fileOf .testnet4 [.ofV2 header149537])) rfl
      rfl hread hverified (storeAbove_file _ _ _)).mpr (.inr ⟨?_, ?_⟩)
    · exact Drongo.BlockHeader.marked_ofV2 (by decide +kernel)
    · refine ⟨.v1 (HeaderV1.read (header149537.serialize.take 80) ?_), ?_, ?_⟩
      · decide +kernel
      · decide +kernel
      · rintro ⟨-, hwork, -⟩
        exact absurd hwork (by decide +kernel)

/-- The one record of this build's store is not discarded by the other. -/
theorem not_discards_testnet4 :
    ¬ ∀ headers : List Drongo.BlockHeader, headers ≠ [] →
      (∀ x ∈ headers, ∃ b, Build.patched.newBlockHeader b = .ok x) →
      (∃ state, headers.foldlM workChain.add (anchorBelow 149535 (.v1 header149536))
        = .ok state) →
      (Loader.ofAnchor (anchorBelow 149535 (.v1 header149536))).Discards .unpatched
        (storeAbove 149535 (.v1 header149536) (Build.patched.fileOf .testnet4 headers)) := by
  intro hclaim
  obtain ⟨state, hverified⟩ := verified149536
  have hread : ∀ x ∈ [Drongo.BlockHeader.ofV1 header149536],
      ∃ b, Build.patched.newBlockHeader b = .ok x := by
    intro x hx
    obtain rfl := List.mem_singleton.mp hx
    exact ⟨_, read149536 .patched⟩
  have hlong : Build.unpatched.headerLength .testnet4
      ≤ (Build.patched.fileOf .testnet4 [.ofV1 header149536]).length := by
    rw [Build.fileOf, (Build.uniform_records rfl hread).length_flatten]
    decide
  have hunmarked : ¬ (Drongo.BlockHeader.ofV1 header149536).Marked := by
    rw [Drongo.BlockHeader.marked_ofV1]
    decide +kernel
  exact (Loader.ofAnchor (anchorBelow 149535 (.v1 header149536))).not_discards
    (s := storeAbove 149535 (.v1 header149536)
      (Build.patched.fileOf .testnet4 [.ofV1 header149536])) rfl
    rfl (hread _ List.mem_cons_self) hverified (storeAbove_file _ _ _) hlong hunmarked
    (hclaim _ (List.cons_ne_nil _ _) hread ⟨state, hverified⟩)

end PrunedElectrs
