/-
PrunedElectrs/Integrity.lean

What the sources of a pruned block can pass on.

A reply that is accepted is a reply that is passed on (`forBlocksWith_delivered`),
and over p2p and from the helper only a block with the header asked for is
accepted.  The RPC branch accepts whatever decodes, so every block that is passed
on has its header exactly when bitcoind's replies do (`forBlocksWith_names_iff`).

The check of a helper's block looks at its header and at nothing behind it.  The
helper makes no difference exactly when that is enough: when each of its blocks
that begins with the header asked for is the canonical one
(`helper_invisible_iff`).
-/
import PrunedElectrs.Refinement

namespace PrunedElectrs

open Wire Effects Runs

variable {H : Hashes} {d : Daemon} {pruneHeight : ℕ}

/-! ### Accepted replies are passed on -/

/-- An event on the way to a block is no accepted reply. -/
theorem Idle.not_accepts {hash hash' : BlockHash} {client : RpcClient}
    {reply : Outside (List Char)} {block : Bytes}
    (h : Idle H d hash ⟨.getBlock client hash', reply⟩) :
    ¬ Accepts H client hash' reply block := by
  cases h with
  | waiting hw => exact hw.elim
  | refused _ hrefused => exact hrefused block

theorem Fetched.delivered_of_accepts {hash hash' : BlockHash} {es : Trace} {r : Rust Unit}
    (h : Fetched H d hash es r) {client : RpcClient} {reply : Outside (List Char)} {block : Bytes}
    (he : ⟨.getBlock client hash', reply⟩ ∈ es) (haccepts : Accepts H client hash' reply block) :
    (hash', block) ∈ calls es := by
  cases h with
  | @delivered es client' reply' block' hidle _ haccepts' =>
      rw [calls_append, calls_of_idle hidle, List.nil_append]
      simp only [List.mem_append, List.mem_cons, List.not_mem_nil, or_false] at he
      rcases he with he | he | he
      · exact absurd haccepts (hidle _ he).not_accepts
      · cases he
        obtain rfl := Except.ok.inj (haccepts.1.symm.trans haccepts'.1)
        exact List.mem_singleton_self _
      · cases he
  | failed hidle _ _ => exact absurd haccepts (hidle _ he).not_accepts

/-- Every accepted reply is passed on. -/
theorem forBlocksWith_delivered {batch : List BlockHash} {budget : ℕ} {es : Trace} {r : Rust Unit}
    (h : Exec (d.forBlocksWith H batch budget) es r) {client : RpcClient} {hash : BlockHash}
    {reply : Outside (List Char)} {block : Bytes} (he : ⟨.getBlock client hash, reply⟩ ∈ es)
    (haccepts : Accepts H client hash reply block) : (hash, block) ∈ calls es := by
  obtain ⟨-, hash', es₁, r₁, hfetch, he₁, hcalls⟩ := forBlocksWith_exists_fetched h he
  exact hcalls (hfetch.delivered_of_accepts he₁ haccepts)

/-! ### Where a block that is passed on comes from -/

/-- A block that is passed on has the header asked for, or came from bitcoind
over RPC. -/
theorem Walked.source {ps : List Position} {es : Trace} {r : Rust Unit}
    (h : Walked H d pruneHeight ps es r) {hash : BlockHash} {block : Bytes}
    (hc : (hash, block) ∈ calls es) :
    Names H block hash
      ∨ ∃ reply, ⟨.getBlock .bitcoind hash, reply⟩ ∈ es ∧ blockOf reply = .ok block := by
  obtain ⟨pre, post, rfl⟩ := List.append_of_mem (mem_calls.mp hc)
  obtain ⟨p, -, rfl, ⟨-, -, hname⟩ | ⟨-, client, reply, hlast, haccepts⟩⟩ :=
    h.allRouted_nil pre _ post rfl
  · exact .inl hname
  · cases client with
    | bitcoind =>
        exact .inr ⟨reply, List.mem_append_left _ (List.mem_of_getLast? hlast), haccepts.1⟩
    | helper => exact .inl (haccepts.2 rfl)

theorem forBlocksWith_source {batch : List BlockHash} {budget : ℕ} {es : Trace} {r : Rust Unit}
    (h : Exec (d.forBlocksWith H batch budget) es r) {hash : BlockHash} {block : Bytes}
    (hc : (hash, block) ∈ calls es) :
    Names H block hash
      ∨ ∃ reply, ⟨.getBlock .bitcoind hash, reply⟩ ∈ es ∧ blockOf reply = .ok block := by
  rcases forBlocksWith_walked h with ⟨fault, -, -, hread, -⟩ |
    ⟨es₀, es', pruneHeight, ps, rfl, hread, rfl, -, hwalked⟩
  · rw [calls_of_reading hread] at hc
    exact absurd hc List.not_mem_nil
  · rw [calls_append, calls_of_reading hread, List.nil_append] at hc
    refine (hwalked.source hc).imp_right ?_
    rintro ⟨reply, he, hblock⟩
    exact ⟨reply, List.mem_append_right _ he, hblock⟩

/-- **Every block that is passed on has the header of the hash it is passed on
for** exactly when every block that bitcoind returns over RPC has: the other two
branches check, and this one does not. -/
theorem forBlocksWith_names_iff {batch : List BlockHash} {budget : ℕ} {es : Trace} {r : Rust Unit}
    (h : Exec (d.forBlocksWith H batch budget) es r) :
    (∀ c ∈ calls es, Names H c.2 c.1)
      ↔ ∀ hash reply block, ⟨.getBlock .bitcoind hash, reply⟩ ∈ es →
          blockOf reply = .ok block → Names H block hash := by
  constructor
  · intro hnames hash reply block he hblock
    exact hnames _ (forBlocksWith_delivered h he ⟨hblock, fun hc => by cases hc⟩)
  · rintro hrpc ⟨hash, block⟩ hc
    rcases forBlocksWith_source h hc with hname | ⟨reply, he, hblock⟩
    · exact hname
    · exact hrpc hash reply block he hblock

/-- The genesis block over RPC and the block after it over p2p. -/
theorem forBlocksWith_names_regtest :
    (calls (regtestCall ⟨true, false⟩).1).map Prod.fst = [genesisHash, block1Hash]
      ∧ ∀ c ∈ calls (regtestCall ⟨true, false⟩).1, Names knownHashes c.2 c.1 := by
  have hexec := exec_regtestCall ⟨true, false⟩
  have hall := (forBlocksWith_inOrder hexec).2.mp (forBlocksWith_ok hexec (faultless_regtestCall _))
  refine ⟨hall, (forBlocksWith_names_iff hexec).mpr fun hash reply block he hblock => ?_⟩
  have hc := forBlocksWith_delivered hexec he ⟨hblock, fun hc => by cases hc⟩
  rw [(usualCanonical_regtestCall ⟨true, false⟩).fetched he hblock]
  exact names_regtestBlock hash (hall ▸ List.mem_map_of_mem hc)

/-- bitcoind answers `getblock` for the genesis block with the block after it. -/
def mixedUpSources : Sources := { regtestSources with rpc := fun _ => regtestBlock block1Hash }

/-- The block that is passed on for the genesis hash is another one. -/
theorem forBlocksWith_mixedUp :
    ¬ ∀ (H : Hashes) (d : Daemon) (batch : List BlockHash) (budget : ℕ) (es : Trace)
        (r : Rust Unit), Exec (d.forBlocksWith H batch budget) es r →
        ∀ c ∈ calls es, Names H c.2 c.1 := by
  intro hclaim
  have hnames := hclaim _ _ _ _ _ _
    (mixedUpSources.exec_serve knownHashes ⟨true, false⟩ [genesisHash] retryBudgetQuery)
  have hcalls : (genesisHash, regtestBlock block1Hash) ∈ calls
      (mixedUpSources.serve knownHashes ⟨true, false⟩ [genesisHash] retryBudgetQuery).1 := by
    decide +kernel
  have hmixed := hnames (genesisHash, regtestBlock block1Hash) hcalls
  dsimp only at hmixed
  obtain ⟨header, hp, hhash⟩ := names_regtestBlock block1Hash
    (List.mem_cons_of_mem _ List.mem_cons_self)
  rw [names_of_parse knownHashes hp, hhash] at hmixed
  exact absurd hmixed (by decide +kernel)

/-! ### The helper -/

/-- **The helper makes no difference** exactly when each block it returns that
begins with the header asked for is the canonical block: nothing else about its
replies matters, and nothing behind the header is checked. -/
theorem helper_invisible_iff {batch : List BlockHash} {budget : ℕ} {es es' : Trace}
    {r r' : Rust Unit} (h : Exec (d.forBlocksWith H batch budget) es r)
    (h' : Exec (Daemon.forBlocksWith H { d with helper := false } batch budget) es' r')
    {canon : BlockHash → Bytes} (husual : UsualCanonical canon batch es)
    (husual' : UsualCanonical canon batch es') (hfaultless : Faultless H batch es)
    (hfaultless' : Faultless H batch es') :
    (calls es = calls es' ∧ (r = .ok () ↔ r' = .ok ())) ↔ HelperCanonical H canon es := by
  have hr := forBlocksWith_ok h hfaultless
  have hr' := forBlocksWith_ok h' hfaultless'
  have hcalls' := (forBlocksWith_canonical h' husual'
    (helperCanonical_of_not h' (by simp) canon)).2 hr'
  constructor
  · rintro ⟨hsame, -⟩ hash reply block he haccepts
    -- an accepted reply is passed on, where the other run passes on the canonical block
    have hc := forBlocksWith_delivered h he haccepts
    rw [hsame, hcalls'] at hc
    obtain ⟨hash', -, heq⟩ := List.mem_map.mp hc
    obtain ⟨rfl, rfl⟩ := Prod.mk.inj heq
    rfl
  · intro hhelper
    rw [(forBlocksWith_canonical h husual hhelper).2 hr, hcalls']
    exact ⟨rfl, iff_of_true hr hr'⟩

theorem helper_invisible_regtest :
    calls (regtestCall ⟨true, true⟩).1 = calls (regtestCall ⟨true, false⟩).1 :=
  ((helper_invisible_iff (exec_regtestCall ⟨true, true⟩) (exec_regtestCall ⟨true, false⟩)
    (usualCanonical_regtestCall _) (usualCanonical_regtestCall _) (faultless_regtestCall _)
    (faultless_regtestCall _)).mpr (helperCanonical_regtestCall _)).1

/-- The helper returns the genesis block with its transactions left out. -/
def hollowSources : Sources :=
  { regtestSources with helper := fun _ => (AnyHeader.v1 regtestGenesis).serialize ++ [0] }

/-- A block that only the header of was checked reaches `func`. -/
theorem helper_visible :
    ¬ ∀ (H : Hashes) (d : Daemon) (batch : List BlockHash) (budget : ℕ) (es es' : Trace)
        (r r' : Rust Unit) (canon : BlockHash → Bytes),
        Exec (d.forBlocksWith H batch budget) es r →
        Exec (Daemon.forBlocksWith H { d with helper := false } batch budget) es' r' →
        UsualCanonical canon batch es → UsualCanonical canon batch es' →
        Faultless H batch es → Faultless H batch es' →
        calls es = calls es' ∧ (r = .ok () ↔ r' = .ok ()) := by
  intro hclaim
  have hnames : ∀ hash ∈ [genesisHash], Names knownHashes (regtestBlock hash) hash := by
    intro hash hmem
    obtain rfl := List.mem_singleton.mp hmem
    exact names_regtestBlock genesisHash List.mem_cons_self
  have hsame := (hclaim knownHashes ⟨true, true⟩ [genesisHash] retryBudgetQuery _ _ _ _ regtestBlock
    (hollowSources.exec_serve _ _ _ _) (hollowSources.exec_serve _ _ _ _)
    (hollowSources.usualCanonical_serve _ _ _ _ rfl)
    (hollowSources.usualCanonical_serve _ _ _ _ rfl)
    (hollowSources.faultless_serve _ _ _ _ hnames)
    (hollowSources.faultless_serve _ _ _ _ hnames)).1
  exact absurd hsame (by decide +kernel)

end PrunedElectrs
