import TxChain.Chain.Commitment
import TxChain.Node.Import
import TxChain.Rpc.Submission

/-!
# Sending offline

Without a node to ask, `txchain send` rebuilds the accounts from the chain file. It
validates the file first, under the short form of the replay: no difficulty and no
reward. Header rules and gate only get weaker that way, so the accounts are the node's.
The supply check does not: it expects the genesis supply, and a mined chain holds the
rewards of its blocks as well.
-/

namespace TxChain

/-- The account view and the tip a node serves. -/
def Node.rpcContext [Crypto] (n : Node) (mempool : Mempool) : RpcContext where
  account := n.chain.account
  tip :=
    { index := n.chain.height
      blockHash := n.chain.tip.header.hash
      prevHash := n.chain.tip.header.prevHash
      cumWork := n.chain.cumWork
      difficulty := n.chain.difficulty
      timestamp := n.chain.tip.header.timestamp }
  mempool := mempool

section Send

variable [Crypto] [Picojson]

/-- The next nonce of an account according to the chain file, unless its replay fails.
A file that does not load counts with the blocks read before the failure. -/
def resolveOffline (fs : FileSystem) (datadir : String) (clock : UInt64) (a : Address) :
    Option UInt64 :=
  let lr := (ChainStore.forDatadir datadir).load fs
  if lr.status.ok = true ∧ lr.blocks ≠ [] ∧ ¬(replayFromGenesis lr.blocks clock 0 0).ok then none
  else some ((replayState lr.blocks).lookup a).nonce

/-- `txchain send` without a node: the transaction it signs. -/
def sendOffline [Signer] (fs : FileSystem) (datadir : String) (clock : UInt64) (seed : Seed32)
    («to» : Address) (amount : UInt64) : Option Txn :=
  (resolveOffline fs datadir clock (address (Signer.derivePubkey seed))).map
    (signTxn seed «to» amount)

/-! ### A weaker replay -/

variable {cfg : NodeConfig} {now_s clock : UInt64} {D : UInt32} {reward : UInt64}
  {s s' : ReplayState} {fs : FileSystem} {io : AppendOutcome}

omit [Picojson] in
theorem LinksTo.relax {index prevTime : UInt64} {prevHash : Hash256} {b : Block}
    (h : LinksTo index prevHash prevTime now_s D b)
    (hclock : now_s + maxClockSkewS ≤ clock + maxClockSkewS) :
    LinksTo index prevHash prevTime clock 0 b :=
  ⟨h.index, h.prevHash, h.later, UInt64.le_trans h.skew hclock, meetsDifficulty_zero _,
    h.commitment, h.size⟩

omit [Picojson] in
theorem replayStep_relax {b : Block} (h : replayStep now_s D reward s b = .ok s')
    (hclock : now_s + maxClockSkewS ≤ clock + maxClockSkewS) :
    replayStep clock 0 0 s b = .ok s' := by
  obtain ⟨hlinks, hok, hnext⟩ := replayStep_ok_iff.mp h
  have hrun := runTxns_of_applyBlockTxns hok
  have happlied : (applyBlockTxns s.state b 0).1.reason = .ok ∧
      (applyBlockTxns s.state b 0).2 = (applyBlockTxns s.state b reward).2 :=
    applyBlockTxns_iff.mpr ⟨hrun, fun hreward => absurd hreward (by decide)⟩
  refine replayStep_ok_iff.mpr ⟨hlinks.relax hclock, happlied.1, ?_⟩
  rw [happlied.2]
  exact hnext

omit [Picojson] in
theorem replayLoop_relax {blocks : List Block} (h : replayLoop now_s D reward s blocks = .ok s')
    (hclock : now_s + maxClockSkewS ≤ clock + maxClockSkewS) :
    replayLoop clock 0 0 s blocks = .ok s' := by
  induction blocks generalizing s with
  | nil =>
      rw [replayLoop_nil] at h ⊢
      exact h
  | cons b rest ih =>
      obtain ⟨next, hstep, hrest⟩ := replayLoop_cons_ok.mp h
      exact replayLoop_cons_ok.mpr ⟨next, replayStep_relax hstep hclock, ih hrest⟩

omit [Picojson] in
/-- Without difficulty and reward, and no earlier, every accepted block is accepted and
leads to the same state. -/
theorem replayBlocks_relax {blocks : List Block} (h : replayBlocks blocks now_s D reward = .ok s')
    (hclock : now_s + maxClockSkewS ≤ clock + maxClockSkewS) :
    replayBlocks blocks clock 0 0 = .ok s' := by
  obtain ⟨b₀, rest, rfl, hgen, hloop⟩ := replayBlocks_ok_iff.mp h
  exact replayBlocks_ok_iff.mpr ⟨b₀, rest, rfl, hgen, replayLoop_relax hloop hclock⟩

omit [Picojson] in
/-- On an accepted chain the short replay objects to nothing but the supply, and to that
unless the rewards of all blocks add up to whole words. -/
theorem short_replay_iff {blocks : List Block}
    (hok : (replayFromGenesis blocks now_s D reward).ok = true)
    (hclock : now_s + maxClockSkewS ≤ clock + maxClockSkewS) :
    (replayFromGenesis blocks clock 0 0).ok = true ↔
      UInt64.ofNat (blocks.length - 1) * reward = 0 := by
  obtain ⟨s, hreplay, hsupply⟩ := replayFromGenesis_ok_iff.mp hok
  have hshort := replayBlocks_relax hreplay hclock
  have hexpected : genesisSupply + UInt64.ofNat (blocks.length - 1) * 0 = genesisSupply := by simp
  constructor
  · intro hverdict
    obtain ⟨s', hs', hsupply'⟩ := replayFromGenesis_ok_iff.mp hverdict
    obtain rfl := Except.ok.inj (hshort.symm.trans hs')
    rw [hsupply, hexpected] at hsupply'
    exact add_eq_left.mp hsupply'
  · intro hzero
    refine replayFromGenesis_ok_iff.mpr ⟨s, hshort, ?_⟩
    rw [hsupply, hzero, hexpected, add_zero]

omit [Crypto] [Picojson] in
/-- Fifty times a number is whole words exactly at the multiples of `2 ^ 63`. -/
theorem fifty_dvd_iff (n : ℕ) : 2 ^ 64 ∣ n * 50 ↔ 2 ^ 63 ∣ n := by
  have hodd : Nat.Coprime (2 ^ 63) 25 := Nat.Coprime.pow_left 63 (by decide)
  have hsplit : n * 50 = 2 * (n * 25) := by ring
  rw [hsplit, pow_succ' 2 63, Nat.mul_dvd_mul_iff_left Nat.two_pos]
  exact hodd.dvd_mul_right

omit [Crypto] [Picojson] in
theorem rewards_eq_zero_iff (cfg : NodeConfig) (n : ℕ) :
    UInt64.ofNat n * cfg.reward = 0 ↔ cfg.difficulty = 0 ∨ 2 ^ 63 ∣ n := by
  rw [NodeConfig.reward]
  by_cases hD : cfg.difficulty = 0
  · simp [hD]
  · have hon : cfg.difficulty > 0 := UInt32.pos_iff_ne_zero.mpr hD
    have hreward : coinbaseReward.toNat = 50 := rfl
    have hproduct : (UInt64.ofNat n * coinbaseReward).toNat = n * 50 % 2 ^ 64 := by
      rw [UInt64.toNat_mul, UInt64.toNat_ofNat', hreward, Nat.mod_mul_mod]
    rw [if_pos hon, or_iff_right hD, ← fifty_dvd_iff, Nat.dvd_iff_mod_eq_zero, ← hproduct,
      ← UInt64.toNat_zero, UInt64.toNat_inj]

/-! ### The accounts of a booted node -/

/-- A boot that succeeds starts a fresh chain, for want of blocks in the file, or has
replayed the file and reconnected its blocks. -/
theorem boot_ok_cases (hboot : (Node.boot cfg now_s fs io).1.ok = true) :
    (((ChainStore.forDatadir cfg.datadir).load fs).blocks = [] ∧
        (Node.boot cfg now_s fs io).2.1 = Node.new cfg) ∨
      ((ChainStore.forDatadir cfg.datadir).load fs).status.ok = true ∧
        ∃ rest, ((ChainStore.forDatadir cfg.datadir).load fs).blocks = genesisBlock :: rest ∧
          (replayFromGenesis (genesisBlock :: rest) now_s cfg.difficulty cfg.reward).ok = true ∧
            (Node.boot cfg now_s fs io).2.1.chain.state = replayState (genesisBlock :: rest) := by
  by_cases hfresh : Fresh cfg fs
  · left
    rw [boot_fresh hfresh, ChainStore.load]
    refine ⟨?_, rfl⟩
    rw [Fresh] at hfresh
    cases hfile : fs (ChainStore.forDatadir cfg.datadir).path with
    | none => rfl
    | some text =>
        rw [hfile, Option.getD_some] at hfresh
        rw [hfresh]
        rfl
  · have hblocks : ¬¬((fs (Node.new cfg).store.path).getD []).length > 0 := by
      intro hempty
      exact hfresh (List.eq_nil_of_length_eq_zero (Nat.eq_zero_of_not_pos hempty))
    rw [Node.boot] at hboot ⊢
    simp only [if_neg hblocks] at hboot ⊢
    have hstore : (Node.new cfg).store = ChainStore.forDatadir cfg.datadir := rfl
    rw [hstore] at hboot ⊢
    generalize (ChainStore.forDatadir cfg.datadir).load fs = lr at hboot ⊢
    by_cases hloaded : lr.status.ok = true
    · rw [if_neg (not_not.mpr hloaded)] at hboot ⊢
      generalize lr.blocks = blocks at hboot ⊢
      cases blocks with
      | nil => exact .inl ⟨rfl, rfl⟩
      | cons b₀ rest =>
          dsimp only at hboot ⊢
          split_ifs at hboot ⊢ with hgenesis hreplay
          obtain rfl := not_not.mp hgenesis
          obtain ⟨c, hreconnect, hstate⟩ := reconnect_of_replay hreplay
          rw [hreconnect]
          exact .inr ⟨hloaded, rest, rfl, hreplay, hstate⟩
    · rw [if_pos hloaded] at hboot
      cases hboot

/-- A booted node serves the accounts that the file replays to. -/
theorem boot_account (hboot : (Node.boot cfg now_s fs io).1.ok = true) (a : Address) :
    (Node.boot cfg now_s fs io).2.1.chain.account a =
      (replayState ((ChainStore.forDatadir cfg.datadir).load fs).blocks).lookup a := by
  rcases boot_ok_cases hboot with ⟨hblocks, hnode⟩ | ⟨-, rest, hblocks, -, hstate⟩
  · rw [hblocks, hnode]
    rfl
  · rw [hblocks, ← hstate]
    rfl

/-! ### Agreement -/

/-- On a file the node boots on, the short replay fails exactly if rewards were issued
that do not add up to whole words. -/
theorem resolveOffline_eq (hboot : (Node.boot cfg now_s fs io).1.ok = true)
    (hclock : now_s + maxClockSkewS ≤ clock + maxClockSkewS) (a : Address) :
    resolveOffline fs cfg.datadir clock a =
      if cfg.difficulty = 0 ∨
          2 ^ 63 ∣ ((ChainStore.forDatadir cfg.datadir).load fs).blocks.length - 1 then
        some ((Node.boot cfg now_s fs io).2.1.chain.account a).nonce
      else none := by
  rw [boot_account hboot, resolveOffline]
  rcases boot_ok_cases hboot with ⟨hblocks, -⟩ | ⟨hloaded, rest, hblocks, hreplay, -⟩
  · rw [if_neg (fun h => h.2.1 hblocks), if_pos (.inr (by rw [hblocks]; exact dvd_zero _))]
  · have hshort := short_replay_iff hreplay hclock
    rw [rewards_eq_zero_iff] at hshort
    rw [hblocks]
    by_cases hok : (replayFromGenesis (genesisBlock :: rest) clock 0 0).ok = true
    · rw [if_neg (fun h => h.2.2 hok), if_pos (hshort.mp hok)]
    · rw [if_pos ⟨hloaded, List.cons_ne_nil _ _, hok⟩, if_neg (mt hshort.mpr hok)]

/-- What the wallet signs offline carries the nonce the node reports as confirmed. -/
def AgreesOffline [Signer] (cfg : NodeConfig) (n : Node) (fs : FileSystem) (clock : UInt64) :
    Prop :=
  ∀ (seed : Seed32) («to» : Address) (amount : UInt64) (mempool : Mempool),
    let a := address (Signer.derivePubkey seed)
    ∃ nonce pending, sendOffline fs cfg.datadir clock seed «to» amount =
        some (signTxn seed «to» amount nonce) ∧
      (handleRequest "GET".toList ("/account/".toList ++ toHex a.toList) []
        (n.rpcContext mempool)).1 = ⟨200, accountBody a (n.chain.account a).balance nonce pending⟩

/-- For a chain file that the node boots on, sending offline agrees with the node exactly
without mining, or while the number of blocks after genesis is a multiple of `2 ^ 63`,
such as zero. -/
theorem offline_nonce_agrees_iff [Signer] (hboot : (Node.boot cfg now_s fs io).1.ok = true)
    (hclock : now_s + maxClockSkewS ≤ clock + maxClockSkewS) :
    AgreesOffline cfg (Node.boot cfg now_s fs io).2.1 fs clock ↔
      cfg.difficulty = 0 ∨
        2 ^ 63 ∣ ((ChainStore.forDatadir cfg.datadir).load fs).blocks.length - 1 := by
  constructor
  · intro hagrees
    obtain ⟨nonce, -, hsent, -⟩ := hagrees (Vector.replicate 32 0) (Vector.replicate 20 0) 0 {}
    rw [sendOffline, resolveOffline_eq hboot hclock] at hsent
    by_contra hmined
    rw [if_neg hmined] at hsent
    cases hsent
  · intro hcondition seed «to» amount mempool a
    have hresolved := resolveOffline_eq hboot hclock a
    rw [if_pos hcondition] at hresolved
    generalize (Node.boot cfg now_s fs io).2.1 = n at hresolved ⊢
    refine ⟨(n.chain.account a).nonce, (n.rpcContext mempool).pendingNonce a, ?_, ?_⟩
    · rw [sendOffline, hresolved, Option.map_some]
    · rw [handleRequest_account]
      rfl

end Send

section Samples

/-! ### A chain of one mined block -/

attribute [local instance] sampleKeys Json.picojson walletSigner

/-- The first block after genesis at difficulty 1, mined by oliver. -/
def minedBlock : Block where
  header :=
    { index := 1
      timestamp := genesisTimestamp + 1
      prevHash := genesisBlock.header.hash
      txnsHash := txnsHash [coinbaseTxn oliver 1]
      nonce := 0 }
  txns := [coinbaseTxn oliver 1]

def minedConfig : NodeConfig := { difficulty := 1 }

/-- A datadir with the file of a chain, and nothing else. -/
def chainFiles (cfg : NodeConfig) (blocks : List Block) : FileSystem := fun p =>
  if p = (ChainStore.forDatadir cfg.datadir).path then
    some (Lines.unlines '\n' (blocks.map toJsonLine))
  else none

def minedFiles : FileSystem := chainFiles minedConfig [genesisBlock, minedBlock]

theorem minedBlock_work : meetsDifficulty minedBlock.header.hash 1 = true := by decide +kernel

theorem minedBlock_replays :
    (replayFromGenesis [genesisBlock, minedBlock] genesisTimestamp 1 coinbaseReward).ok = true := by
  have hlater : genesisTimestamp < genesisTimestamp + 1 := by decide
  have hskew : genesisTimestamp + 1 ≤ genesisTimestamp + maxClockSkewS := by decide
  have hlinks : LinksTo 1 genesisBlock.header.hash genesisTimestamp genesisTimestamp 1 minedBlock :=
    ⟨rfl, rfl, hlater, hskew, minedBlock_work, rfl, by decide⟩
  have hsupply : supplySum (applyGenesis.credit oliver coinbaseReward) =
      genesisSupply + coinbaseReward := by decide
  exact replayFromGenesis_pair genesisBlock_ok hlinks
    (applyBlockTxns_coinbase rfl (coinbaseTxn_isCoinbaseAt oliver 1)) hsupply

/-- On the file of a chain of two blocks the node boots, if the replay accepts them. -/
theorem chainFiles_boot {cfg : NodeConfig} {b : Block} {now_s : UInt64} (hrange : b.InRange)
    (hver : ∀ t ∈ b.txns, t.ver = kTxnVersion)
    (hreplay :
      (replayFromGenesis [genesisBlock, b] now_s cfg.difficulty cfg.reward).ok = true) :
    (Node.boot cfg now_s (chainFiles cfg [genesisBlock, b]) .complete).1.ok = true ∧
      ((ChainStore.forDatadir cfg.datadir).load (chainFiles cfg [genesisBlock, b])).blocks =
        [genesisBlock, b] := by
  have hread : ∀ b' ∈ [genesisBlock, b], fromJsonLine (toJsonLine b') = some b' := by
    intro b' hb'
    rcases List.mem_pair.mp hb' with rfl | rfl
    · exact fromJsonLine_toJsonLine (picojson_parsesFaithfully genesisBlock_inRange)
        fun t ht => absurd ht List.not_mem_nil
    · exact fromJsonLine_toJsonLine (picojson_parsesFaithfully hrange) hver
  have hload : (ChainStore.forDatadir cfg.datadir).load (chainFiles cfg [genesisBlock, b]) =
      ⟨{ ok := true }, [genesisBlock, b]⟩ := ChainStore.Holds.load (if_pos rfl) hread
  rw [hload]
  exact ⟨(boot_ok_iff .complete (List.cons_ne_nil _ _) hload).mpr ⟨hreplay, rfl⟩, rfl⟩

/-- On the mined chain the node boots. -/
theorem minedFiles_boot :
    (Node.boot minedConfig genesisTimestamp minedFiles .complete).1.ok = true ∧
      ((ChainStore.forDatadir minedConfig.datadir).load minedFiles).blocks =
        [genesisBlock, minedBlock] := by
  have hrange : minedBlock.InRange :=
    ⟨by decide, by decide, by decide, fun t ht => by rw [List.mem_singleton.mp ht]; decide⟩
  have hver : ∀ t ∈ minedBlock.txns, t.ver = kTxnVersion := by
    intro t ht
    rw [List.mem_singleton.mp ht]
    rfl
  rw [minedFiles]
  exact chainFiles_boot hrange hver minedBlock_replays

def transferFiles : FileSystem := chainFiles {} [genesisBlock, payOliverBlock]

/-- On the chain of one transfer a node that does not mine boots. -/
theorem transferFiles_boot :
    (Node.boot {} (genesisTimestamp + 9) transferFiles .complete).1.ok = true := by
  have hrange : payOliverBlock.InRange :=
    ⟨by decide, by decide, by decide, fun t ht => by rw [List.mem_singleton.mp ht]; decide⟩
  have hver : ∀ t ∈ payOliverBlock.txns, t.ver = kTxnVersion := by
    intro t ht
    rw [List.mem_singleton.mp ht]
    rfl
  have hsettings : ({} : NodeConfig).difficulty = 0 ∧ ({} : NodeConfig).reward = 0 := ⟨rfl, rfl⟩
  have hreplay : (replayFromGenesis [genesisBlock, payOliverBlock] (genesisTimestamp + 9)
      ({} : NodeConfig).difficulty ({} : NodeConfig).reward).ok = true := by
    rw [hsettings.1, hsettings.2]
    exact payOliverBlock_accepted
  rw [transferFiles]
  exact (chainFiles_boot hrange hver hreplay).1

/-- Every wallet is refused offline on a chain that the node mined and boots on. -/
theorem mined_chain_rejected_offline :
    (Node.boot minedConfig genesisTimestamp minedFiles .complete).1.ok = true ∧
      ∀ [Signer] (seed : Seed32) («to» : Address) (amount : UInt64),
        sendOffline minedFiles minedConfig.datadir genesisTimestamp seed «to» amount = none := by
  obtain ⟨hboot, hblocks⟩ := minedFiles_boot
  refine ⟨hboot, ?_⟩
  intro signer seed «to» amount
  have hmined : ¬(minedConfig.difficulty = 0 ∨ 2 ^ 63 ∣ [genesisBlock, minedBlock].length - 1) := by
    decide
  rw [sendOffline, resolveOffline_eq hboot (UInt64.le_refl _), hblocks, if_neg hmined]
  rfl

/-- A minute later the wallet agrees with the node about the transfer, and on the mined chain it
does not. -/
theorem sent_after_transfer_and_mining :
    AgreesOffline {} (Node.boot {} (genesisTimestamp + 9) transferFiles .complete).2.1 transferFiles
        (genesisTimestamp + 69) ∧
      ¬AgreesOffline minedConfig (Node.boot minedConfig genesisTimestamp minedFiles .complete).2.1
        minedFiles genesisTimestamp := by
  constructor
  · exact (offline_nonce_agrees_iff transferFiles_boot (by decide)).mpr (.inl rfl)
  · obtain ⟨hboot, hblocks⟩ := minedFiles_boot
    intro hagrees
    have hcondition := (offline_nonce_agrees_iff hboot (UInt64.le_refl _)).mp hagrees
    rw [hblocks] at hcondition
    exact absurd hcondition (by decide)

end Samples

end TxChain
