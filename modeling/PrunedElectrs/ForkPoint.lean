/-
PrunedElectrs/ForkPoint.lean

Where a chain's headers changed format, as `server.features` reports it.

The height is found by bisection, on the assumption that the format switches
once.  `forkPoint_finds` says what holds of the height found when it does not:
there is always a v2 header with a v1 header below it, and nothing is reported
exactly when the tip is v1.  The report can be checked by asking for the header
at that height.
-/
import PrunedElectrs.Electrum
import PrunedElectrs.Lib.Bisect

namespace PrunedElectrs

open Wire Search

/-- What a server says of its chain's activation. -/
structure ForkPoint where
  height : ℕ
  hash : String
  headerBytes : ℕ
  blockHash : String
deriving DecidableEq

namespace Chain

variable (H : Hashes)

/-- `Some(h) if h.is_v2()`: no header is not a v2 header. -/
def isV2At (c : Chain) (height : ℕ) : Bool :=
  match c.getBlockHeader height with
  | some h => h.isV2
  | none => false

/-- The fork point, found by binary search over the header chain. -/
def forkPoint (c : Chain) : Option ForkPoint :=
  if c.hasV2Headers then
    let lo := bisect c.isV2At 0 c.height
    match c.getBlockHeader lo with
    | none => none
    | some header =>
        some { height := lo
               hash := displayHash (header.blockHash H)
               headerBytes := headerV2Size
               blockHash := "blake2b" }
  else none

end Chain

/-- What a client finds who asks for the header at the reported height. -/
structure ForkPoint.Describes (H : Hashes) (fork : ForkPoint) (header : AnyHeader) : Prop where
  isV2 : header.isV2 = true
  hash : fork.hash = displayHash (header.blockHash H)
  headerBytes : fork.headerBytes = header.size
  blockHash : fork.blockHash = "blake2b"

/-- The reply to `server.features`. -/
structure Features where
  genesisHash : Option String
  tcpPort : Option ℕ
  protocolMax : String
  protocolMin : String
  pruning : Option ℕ
  serverVersion : String
  hashFunction : String
  blake2bFork : Option ForkPoint

/-- `server.features`. -/
def Rpc.features (H : Hashes) (serverId : String) (port : Option ℕ) (chain : Chain) : Features :=
  let version := protocolVersion chain.hasV2Headers
  { genesisHash := (chain.getBlockHash 0).map displayHash
    tcpPort := port
    protocolMax := version
    protocolMin := version
    pruning := none
    serverVersion := serverId
    hashFunction := "sha256"
    blake2bFork := chain.forkPoint H }

namespace Chain

variable {H : Hashes} {c : Chain}

theorem isV2At_eq_true_iff {height : ℕ} :
    c.isV2At height = true ↔ ∃ h, c.getBlockHeader height = some h ∧ h.isV2 = true := by
  rw [isV2At]
  rcases c.getBlockHeader height with - | h <;> simp

theorem getBlockHeader_of_le {genesis : AnyHeader} (hg : c.getBlockHeader 0 = some genesis)
    {k : ℕ} (hk : k ≤ c.height) : ∃ h, c.getBlockHeader k = some h := by
  obtain ⟨p, hp, -⟩ := Option.map_eq_some_iff.mp hg
  obtain ⟨hlt, -⟩ := List.getElem?_eq_some_iff.mp hp
  rw [height] at hk
  exact ⟨_, congrArg _ (List.getElem?_eq_getElem (show k < c.headers.length by omega))⟩

/-- The tip decides, as a test of the height below which the search runs. -/
theorem hasV2Headers_eq : c.hasV2Headers = c.isV2At c.height := by
  rw [hasV2Headers, isV2At, getBlockHeader, height, List.getLast?_eq_getElem?]
  rcases c.headers[c.headers.length - 1]? with - | p <;> rfl

/-- The search ends at a v2 header that has a v1 header just below it. -/
theorem bisect_isV2At {genesis : AnyHeader} (hg : c.getBlockHeader 0 = some genesis)
    (hv1 : genesis.isV2 = false) (htip : c.hasV2Headers = true) :
    ∃ lo below header, bisect c.isV2At 0 c.height = lo + 1
      ∧ c.getBlockHeader lo = some below ∧ below.isV2 = false
      ∧ c.getBlockHeader (lo + 1) = some header ∧ header.isV2 = true := by
  rw [hasV2Headers_eq] at htip
  obtain ⟨hto, hat, hfrom⟩ :=
    bisect_spec (Nat.zero_le _) (fun k hk => absurd hk k.succ_ne_zero) htip
  obtain ⟨header, hheader, hv2⟩ := isV2At_eq_true_iff.mp hat
  rcases e : bisect c.isV2At 0 c.height with - | lo
  · -- the genesis header is not a v2 header
    rw [e, hg] at hheader
    cases hheader
    rw [hv1] at hv2
    cases hv2
  · rw [e] at hto hfrom hheader
    obtain ⟨below, hbelow⟩ := getBlockHeader_of_le hg (show lo ≤ c.height by omega)
    have hbelowV1 : c.isV2At lo = false := hfrom lo rfl
    rw [isV2At, hbelow] at hbelowV1
    exact ⟨lo, below, header, rfl, hbelow, hbelowV1, hheader, hv2⟩

/-- With a v2 tip the search reports the header it ends at. -/
theorem forkPoint_eq {header : AnyHeader} (htip : c.hasV2Headers = true)
    (hheader : c.getBlockHeader (bisect c.isV2At 0 c.height) = some header) :
    c.forkPoint H = some ⟨bisect c.isV2At 0 c.height, displayHash (header.blockHash H),
      headerV2Size, "blake2b"⟩ := by
  simp only [forkPoint, if_pos htip, hheader]

/-- On a monotone chain that header is the first v2 header. -/
theorem isLeast_bisect_isV2At {genesis : AnyHeader} (hg : c.getBlockHeader 0 = some genesis)
    (htip : c.hasV2Headers = true) (hmono : c.Monotone) :
    IsLeast {k | ∃ h, c.getBlockHeader k = some h ∧ h.isV2 = true}
      (bisect c.isV2At 0 c.height) := by
  rw [hasV2Headers_eq] at htip
  have hset : {k | ∃ h, c.getBlockHeader k = some h ∧ h.isV2 = true}
      = {k | c.isV2At k = true} := Set.ext fun k => isV2At_eq_true_iff.symm
  rw [hset]
  refine isLeast_bisect htip fun i j hij hj hi => ?_
  obtain ⟨a, ha, hav⟩ := isV2At_eq_true_iff.mp hi
  obtain ⟨b, hb⟩ := getBlockHeader_of_le hg hj
  exact isV2At_eq_true_iff.mpr ⟨b, hb, hmono i j a b hij ha hb hav⟩

/-- **The reported fork point is an activation boundary**: on a chain that
starts with a v1 header nothing is reported exactly when the tip is v1, and
otherwise a v2 header with a v1 header below it, which is what a client at
protocol 1.8 is served at that height.  On a monotone chain it is the first v2
header. -/
theorem forkPoint_finds {genesis : AnyHeader} (hg : c.getBlockHeader 0 = some genesis)
    (hv1 : genesis.isV2 = false) :
    (c.forkPoint H = none ↔ ∃ tip, c.getBlockHeader c.height = some tip ∧ tip.isV2 = false) ∧
    ∀ fork, c.forkPoint H = some fork →
      (∃ lo below header, fork.height = lo + 1
        ∧ c.getBlockHeader lo = some below ∧ below.isV2 = false
        ∧ c.getBlockHeader fork.height = some header ∧ fork.Describes H header
        ∧ ∀ client : Client, client.negotiated = some protocolVersionV2 →
            Rpc.blockHeader c client fork.height = .ok (.header header)) ∧
      (c.Monotone →
        IsLeast {k | ∃ h, c.getBlockHeader k = some h ∧ h.isV2 = true} fork.height) := by
  obtain ⟨tip, htip⟩ := getBlockHeader_of_le hg (le_refl c.height)
  have hhas : c.hasV2Headers = tip.isV2 := by
    rw [hasV2Headers_eq, isV2At, htip]
  rcases hv2 : tip.isV2 with - | -
  · rw [hv2] at hhas
    have hnone : c.forkPoint H = none := by
      rw [forkPoint, hhas]
      rfl
    rw [hnone]
    exact ⟨⟨fun _ => ⟨tip, htip, hv2⟩, fun _ => rfl⟩, fun fork hfork => by cases hfork⟩
  · rw [hv2] at hhas
    obtain ⟨lo, below, header, hlo, hbelow, hbelowV1, hheader, hheaderV2⟩ :=
      bisect_isV2At hg hv1 hhas
    have hfound : c.getBlockHeader (bisect c.isV2At 0 c.height) = some header := by
      rw [hlo, hheader]
    have hreport := forkPoint_eq (H := H) hhas hfound
    refine ⟨⟨fun hnone => ?_, ?_⟩, fun fork hfork => ?_⟩
    · rw [hreport] at hnone
      cases hnone
    · rintro ⟨tip', htip', hv1'⟩
      rw [htip] at htip'
      cases htip'
      rw [hv2] at hv1'
      cases hv1'
    · rw [hreport] at hfork
      cases hfork
      refine ⟨⟨lo, below, header, hlo, hbelow, hbelowV1, hfound, ⟨hheaderV2, rfl, ?_, rfl⟩, ?_⟩,
        isLeast_bisect_isV2At hg hhas⟩
      · rw [AnyHeader.size, if_pos hheaderV2]
      · intro client hclient
        have hserve : Rpc.checkMayServeHeaders c client = .ok () := by
          rw [Rpc.checkMayServeHeaders, mayServeHeaders, hclient, hhas]
          rfl
        rw [Rpc.blockHeader, hserve, hfound]
        rfl

theorem forkPoint_finds_activation :
    ∃ fork, activationChain.forkPoint knownHashes = some fork ∧ fork.height = 1 := by
  have hgenesis : activationChain.getBlockHeader 0 = some (.v1 header149536) := rfl
  have hfound := forkPoint_finds (H := knownHashes) hgenesis rfl
  rcases e : activationChain.forkPoint knownHashes with - | fork
  · obtain ⟨tip, htip, hv1⟩ := hfound.1.mp e
    cases htip
    cases hv1
  · have hleast := (hfound.2 fork e).2 activation_monotone
    have hle : fork.height ≤ 1 := hleast.2 ⟨.v2 header149537, rfl, rfl⟩
    obtain ⟨lo, -, -, hlo, -⟩ := (hfound.2 fork e).1
    exact ⟨fork, rfl, by omega⟩

/-- **What `server.features` announces fits together**: there is one protocol
version, it is one that its headers may be served to, and a fork point goes with
1.8 and with nothing else. -/
theorem features_agree (serverId : String) (port : Option ℕ) {genesis : AnyHeader}
    (hg : c.getBlockHeader 0 = some genesis) (hv1 : genesis.isV2 = false) :
    let features := Rpc.features H serverId port c
    features.protocolMin = features.protocolMax
      ∧ mayServeHeaders c.hasV2Headers (some features.protocolMax) = true
      ∧ (features.blake2bFork.isSome = true ↔ features.protocolMax = protocolVersionV2) := by
  intro features
  refine ⟨rfl, ?_, ?_⟩
  · show mayServeHeaders c.hasV2Headers (some (protocolVersion c.hasV2Headers)) = true
    cases c.hasV2Headers <;> rfl
  · show (c.forkPoint H).isSome = true ↔ protocolVersion c.hasV2Headers = protocolVersionV2
    rcases hhas : c.hasV2Headers with - | -
    · rw [forkPoint, hhas]
      exact iff_of_false Bool.false_ne_true (by decide)
    · obtain ⟨lo, -, header, hlo, -, -, hheader, -⟩ := bisect_isV2At hg hv1 hhas
      rw [forkPoint_eq hhas (hlo ▸ hheader)]
      exact iff_of_true rfl rfl

end Chain

end PrunedElectrs
