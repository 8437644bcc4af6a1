import TxChain.Chain.Chain

/-!
# The from-genesis validator

`replayFromGenesis` rebuilds the account state from the genesis table and replays
every block; it depends on no cached state. The loop over blocks 1 to height is a
monadic fold that stops at the first failure, so replaying a concatenation is
replaying its parts one after the other.
-/

namespace TxChain

structure VerifyResult where
  ok : Bool := true
  failIndex : UInt64 := 0
  reason : Reason := .ok
  detail : String := ""
  deriving DecidableEq

def fail (idx : UInt64) (r : Reason) (detail : String) : VerifyResult := ⟨false, idx, r, detail⟩

/-- The variables of the replay loop. -/
structure ReplayState where
  index : UInt64
  state : AccountMap
  prevHash : Hash256
  prevTime : UInt64

variable [Crypto]

/-- The body of the replay loop. -/
def replayStep (now_s : UInt64) (D : UInt32) (reward : UInt64) (s : ReplayState) (b : Block) :
    Except VerifyResult ReplayState :=
  let idx := s.index
  if b.header.index ≠ idx then .error (fail idx .badLink "index mismatch")
  else if b.header.prevHash ≠ s.prevHash then .error (fail idx .badLink "prevHash mismatch")
  else if ¬(s.prevTime < b.header.timestamp ∧ b.header.timestamp ≤ now_s + maxClockSkewS) then
    .error (fail idx .badLink "timestamp out of range")
  else if ¬meetsDifficulty b.header.hash D then .error (fail idx .badPow "hash above target")
  else if b.computeTxnsHash ≠ b.header.txnsHash then
    .error (fail idx .badTxnsHash "txns commitment mismatch")
  else if b.txns.length > maxTxnsPerBlock then .error (fail idx .badTxnsHash "too many txns")
  else
    let applied := applyBlockTxns s.state b reward
    if applied.1.reason ≠ .ok then .error (fail idx applied.1.reason applied.1.detail)
    else .ok ⟨idx + 1, applied.2, b.header.hash, b.header.timestamp⟩

def replayLoop (now_s : UInt64) (D : UInt32) (reward : UInt64) (s : ReplayState)
    (blocks : List Block) : Except VerifyResult ReplayState :=
  blocks.foldlM (replayStep now_s D reward) s

/-- Everything before the supply check; the result is the replayed state. -/
def replayBlocks (blocks : List Block) (now_s : UInt64) (D : UInt32) (reward : UInt64) :
    Except VerifyResult ReplayState :=
  match blocks with
  | [] => .error (fail 0 .badLink "empty chain")
  | b₀ :: rest =>
      if b₀.header.index ≠ 0 then .error (fail 0 .badLink "index mismatch")
      else if b₀.header.prevHash ≠ Vector.replicate 32 0 then
        .error (fail 0 .badLink "prevHash mismatch")
      else if b₀.computeTxnsHash ≠ b₀.header.txnsHash then
        .error (fail 0 .badTxnsHash "txns commitment mismatch")
      else replayLoop now_s D reward ⟨1, applyGenesis, b₀.header.hash, b₀.header.timestamp⟩ rest

/-- The supply check: a 64-bit sum of the balances against the closed form. -/
def supplySum (state : AccountMap) : UInt64 :=
  state.toList.foldl (fun actual kv => actual + kv.2.balance) 0

def replayFromGenesis (blocks : List Block) (now_s : UInt64) (D : UInt32) (reward : UInt64) :
    VerifyResult :=
  match replayBlocks blocks now_s D reward with
  | .error failure => failure
  | .ok s =>
      let height := UInt64.ofNat (blocks.length - 1)
      let expected := genesisSupply + height * reward
      if supplySum s.state ≠ expected then fail height .badSupply "supply mismatch" else {}

/-- Rebuild the account index of a chain that is assumed valid. -/
def replayState (blocks : List Block) : AccountMap :=
  (blocks.drop 1).foldl
    (fun state b =>
      (b.txns.zipIdx).foldl (fun state t => (applyTxn state t.1 b.header.index t.2).2) state)
    applyGenesis

/-! ### One replay step -/

variable {now_s : UInt64} {D : UInt32} {reward : UInt64} {s s' : ReplayState} {b : Block}

/-- The checks of one replay step are the header rules and then the gate. -/
theorem replayStep_ok_iff : replayStep now_s D reward s b = .ok s' ↔
    LinksTo s.index s.prevHash s.prevTime now_s D b ∧
      (applyBlockTxns s.state b reward).1.reason = .ok ∧
      s' =
        ⟨s.index + 1, (applyBlockTxns s.state b reward).2, b.header.hash, b.header.timestamp⟩ := by
  constructor
  · intro h
    simp only [replayStep] at h
    split_ifs at h with h₁ h₂ h₃ h₄ h₅ h₆ h₇
    simp only [not_not] at h₁ h₂ h₃ h₄ h₅ h₇
    exact ⟨⟨h₁, h₂, h₃.1, h₃.2, h₄, h₅, not_lt.mp h₆⟩, h₇, (Except.ok.inj h).symm⟩
  · rintro ⟨⟨h₁, h₂, h₃, h₃', h₄, h₅, h₆⟩, h₇, rfl⟩
    have hsize : ¬b.txns.length > maxTxnsPerBlock := not_lt.mpr h₆
    simp [replayStep, h₁, h₂, h₃, h₃', h₄, h₅, hsize, h₇]

/-- A step that fails reports its own position, with the first rule broken. -/
theorem replayStep_error {failure : VerifyResult}
    (h : replayStep now_s D reward s b = .error failure) :
    failure.ok = false ∧ failure.failIndex = s.index ∧
      failure.reason =
        (if linkReason s.index s.prevHash s.prevTime now_s D b ≠ .ok then
          linkReason s.index s.prevHash s.prevTime now_s D b
        else (applyBlockTxns s.state b reward).1.reason) ∧ failure.reason ≠ .ok := by
  simp only [replayStep] at h
  simp only [linkReason]
  split_ifs at h with h₁ h₂ h₃ h₄ h₅ h₆ h₇ <;> cases h <;> simp_all [fail]

/-! ### The replay loop -/

@[simp] theorem replayLoop_nil : replayLoop now_s D reward s [] = .ok s := rfl

theorem replayLoop_cons {rest : List Block} :
    replayLoop now_s D reward s (b :: rest) =
      replayStep now_s D reward s b >>= fun next => replayLoop now_s D reward next rest := by
  simp [replayLoop]

theorem replayLoop_append {pre post : List Block} :
    replayLoop now_s D reward s (pre ++ post) =
      replayLoop now_s D reward s pre >>= fun next => replayLoop now_s D reward next post := by
  simp [replayLoop]

theorem replayLoop_cons_ok {rest : List Block} :
    replayLoop now_s D reward s (b :: rest) = .ok s' ↔
      ∃ next, replayStep now_s D reward s b = .ok next ∧
        replayLoop now_s D reward next rest = .ok s' := by
  rw [replayLoop_cons]
  cases replayStep now_s D reward s b with
  | error failure => simp [bind, Except.bind]
  | ok next => simp [bind, Except.bind]

/-- A failing replay reports a failure. -/
theorem replayLoop_error {failure : VerifyResult} {blocks : List Block}
    (h : replayLoop now_s D reward s blocks = .error failure) : failure.ok = false := by
  induction blocks generalizing s with
  | nil => cases h
  | cons b rest ih =>
      rw [replayLoop_cons] at h
      cases hstep : replayStep now_s D reward s b with
      | error stepFailure =>
          rw [hstep] at h
          cases h
          exact (replayStep_error hstep).1
      | ok next =>
          rw [hstep] at h
          exact ih h

theorem replayLoop_append_ok {pre post : List Block} :
    replayLoop now_s D reward s (pre ++ post) = .ok s' ↔
      ∃ mid, replayLoop now_s D reward s pre = .ok mid ∧
        replayLoop now_s D reward mid post = .ok s' := by
  rw [replayLoop_append]
  cases replayLoop now_s D reward s pre with
  | error failure => simp [bind, Except.bind]
  | ok mid => simp [bind, Except.bind]

/-- The genesis checks of the replay. -/
structure GenesisOk (b₀ : Block) : Prop where
  index : b₀.header.index = 0
  prevHash : b₀.header.prevHash = Vector.replicate 32 0
  commitment : b₀.computeTxnsHash = b₀.header.txnsHash

/-- The loop variables after a genesis block. -/
def ReplayState.start (b₀ : Block) : ReplayState :=
  ⟨1, applyGenesis, b₀.header.hash, b₀.header.timestamp⟩

theorem replayBlocks_cons (b₀ : Block) (rest : List Block) (h : GenesisOk b₀) :
    replayBlocks (b₀ :: rest) now_s D reward = replayLoop now_s D reward (.start b₀) rest := by
  simp [replayBlocks, h.index, h.prevHash, h.commitment, ReplayState.start]

theorem replayBlocks_ok_iff {blocks : List Block} :
    replayBlocks blocks now_s D reward = .ok s' ↔
      ∃ b₀ rest, blocks = b₀ :: rest ∧ GenesisOk b₀ ∧
        replayLoop now_s D reward (.start b₀) rest = .ok s' := by
  constructor
  · intro h
    cases blocks with
    | nil => simp [replayBlocks] at h
    | cons b₀ rest =>
        simp only [replayBlocks] at h
        split_ifs at h with h₁ h₂ h₃
        exact ⟨b₀, rest, rfl, ⟨not_not.mp h₁, not_not.mp h₂, not_not.mp h₃⟩, h⟩
  · rintro ⟨b₀, rest, rfl, hgen, h⟩
    rw [replayBlocks_cons b₀ rest hgen, h]

theorem replayBlocks_error {failure : VerifyResult} {blocks : List Block}
    (h : replayBlocks blocks now_s D reward = .error failure) : failure.ok = false := by
  cases blocks with
  | nil =>
      cases h
      rfl
  | cons b₀ rest =>
      simp only [replayBlocks] at h
      split_ifs at h
      · cases h
        rfl
      · cases h
        rfl
      · cases h
        rfl
      · exact replayLoop_error h

/-- A failure before the supply check is the verdict. -/
theorem replayFromGenesis_error {failure : VerifyResult} {blocks : List Block}
    (h : replayBlocks blocks now_s D reward = .error failure) :
    replayFromGenesis blocks now_s D reward = failure := by
  rw [replayFromGenesis, h]

theorem genesisBlock_ok : GenesisOk genesisBlock := ⟨rfl, rfl, rfl⟩

/-- An accepted chain passed every step and then the supply check. -/
theorem replayFromGenesis_ok_iff {blocks : List Block} :
    (replayFromGenesis blocks now_s D reward).ok = true ↔
      ∃ s, replayBlocks blocks now_s D reward = .ok s ∧
        supplySum s.state = genesisSupply + UInt64.ofNat (blocks.length - 1) * reward := by
  rw [replayFromGenesis]
  cases hrun : replayBlocks blocks now_s D reward with
  | error failure => simp [replayBlocks_error hrun]
  | ok s =>
      by_cases hsupply :
          supplySum s.state ≠ genesisSupply + UInt64.ofNat (blocks.length - 1) * reward
      · simp [hsupply, fail]
      · simpa [hsupply] using not_not.mp hsupply

/-- What a chain of two blocks has to pass. -/
theorem replayFromGenesis_pair {g : Block} {state : AccountMap} (hgen : GenesisOk g)
    (hlinks : LinksTo 1 g.header.hash g.header.timestamp now_s D b)
    (happlied : (applyBlockTxns applyGenesis b reward).1.reason = .ok ∧
      (applyBlockTxns applyGenesis b reward).2 = state)
    (hsupply : supplySum state = genesisSupply + reward) :
    (replayFromGenesis [g, b] now_s D reward).ok = true := by
  have hstep : replayStep now_s D reward (.start g) b =
      .ok ⟨1 + 1, state, b.header.hash, b.header.timestamp⟩ :=
    replayStep_ok_iff.mpr ⟨hlinks, happlied.1, by rw [← happlied.2]; rfl⟩
  have hrun : replayBlocks [g, b] now_s D reward = _ :=
    (replayBlocks_cons g [b] hgen).trans (replayLoop_cons_ok.mpr ⟨_, hstep, rfl⟩)
  have hone : UInt64.ofNat ([g, b].length - 1) * reward = reward := UInt64.one_mul reward
  refine replayFromGenesis_ok_iff.mpr ⟨_, hrun, ?_⟩
  rw [hone]
  exact hsupply

end TxChain
