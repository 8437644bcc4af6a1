import TxChain.Chain.Supply
import TxChain.Node.Node

/-!
# Restarting a node

While every append succeeds, the file holds exactly the committed chain, and that
chain can be fed to the write path again at any later clock. So a restart returns
the very same node whenever the replay accepts the file. The commit path has no
supply check and the replay has one, so the two part on chains that issue off
schedule, unless the surplus is a multiple of the word size.
-/

namespace TxChain

inductive NodeOp where
  | sealNext (now_s : UInt64) (txns : List Txn)
  | commit (b : Block) (now_s : UInt64)

def NodeOp.clock : NodeOp → UInt64
  | .sealNext now_s _ => now_s
  | .commit _ now_s => now_s

section Restart

variable [Crypto]

/-- The block a call offers to the write path. -/
def NodeOp.block (c : Chain) : NodeOp → Block
  | .sealNext now_s txns => c.nextBlock now_s txns
  | .commit b _ => b

/-- One call on a running node; the append behind it succeeds. -/
def NodeOp.apply (s : Node × FileSystem) : NodeOp → Node × FileSystem
  | .sealNext now_s txns => (s.1.sealNextBlock s.2 now_s txns .complete).2
  | .commit b now_s => (s.1.commitBlock s.2 b now_s .complete).2

theorem NodeOp.apply_chain (s : Node × FileSystem) (op : NodeOp) :
    (NodeOp.apply s op).1.chain = s.1.chain.connect (op.block s.1.chain, op.clock) := by
  cases op with
  | sealNext now_s txns => exact s.1.commitBlock_chain s.2 _ now_s .complete
  | commit b now_s => exact s.1.commitBlock_chain s.2 b now_s .complete

/-- Boot on a datadir and perform a sequence of calls. -/
def runNode [Picojson] (cfg : NodeConfig) (now_s : UInt64) (fs : FileSystem) (ops : List NodeOp) :
    Node × FileSystem :=
  ops.foldl NodeOp.apply (Node.boot cfg now_s fs .complete).2

/-- The file holds the chain, and the chain is what a later clock would rebuild. -/
structure Durable (cfg : NodeConfig) (now_s : UInt64) (s : Node × FileSystem) : Prop where
  config : s.1.cfg = cfg
  store : s.1.store = .forDatadir cfg.datadir
  holds : s.1.store.Holds s.2 s.1.chain.blocks
  fed : ∃ bs, s.1.chain.blocks = genesisBlock :: bs ∧
    feed now_s 1 (Chain.new cfg.difficulty cfg.reward) bs = .ok s.1.chain

variable {cfg : NodeConfig} {now_s : UInt64} {s : Node × FileSystem} {fs : FileSystem}

theorem durable_fresh [Picojson] (hfresh : Fresh cfg fs) (now₀ : UInt64) :
    Durable cfg now_s (Node.boot cfg now₀ fs .complete).2 := by
  rw [boot_fresh hfresh]
  exact ⟨rfl, rfl, ChainStore.holds_first hfresh genesisBlock, [], rfl, rfl⟩

/-- A commit at a clock that is not ahead keeps the file and the chain together. -/
theorem Durable.commit (h : Durable cfg now_s s) (b : Block) (clock : UInt64)
    (hclock : clock + maxClockSkewS ≤ now_s + maxClockSkewS) :
    Durable cfg now_s (s.1.commitBlock s.2 b clock .complete).2 := by
  rcases s.1.commitBlock_cases s.2 b clock .complete with ⟨-, hsame⟩ | ⟨hok, hcommit⟩
  · rw [hsame]
    exact h
  · obtain ⟨bs, hblocks, hfed⟩ := h.fed
    have hlater := Chain.connectBlock_later hok hclock
    have hnext := (Chain.connectBlock_ok hok).blocks
    rw [hcommit]
    refine ⟨h.config, h.store, ?_, bs ++ [b], ?_, ?_⟩
    · show s.1.store.Holds _ (s.1.chain.connectBlock b clock).2.blocks
      rw [hnext]
      exact h.holds.append b
    · show (s.1.chain.connectBlock b clock).2.blocks = _
      rw [hnext, hblocks]
      rfl
    · have hok' : (s.1.chain.connectBlock b now_s).1 = .ok := by
        rw [hlater]
        exact hok
      have hnextFed := feed_concat_ok hfed hok'
      rw [hlater] at hnextFed
      exact hnextFed

theorem Durable.apply (h : Durable cfg now_s s) (op : NodeOp)
    (hclock : op.clock + maxClockSkewS ≤ now_s + maxClockSkewS) :
    Durable cfg now_s (NodeOp.apply s op) := by
  cases op with
  | sealNext clock txns => exact h.commit (s.1.chain.nextBlock clock txns) clock hclock
  | commit b clock => exact h.commit b clock hclock

/-- After a whole run the file holds the chain of the node. -/
theorem durable_run [Picojson] (hfresh : Fresh cfg fs) (now₀ : UInt64) (ops : List NodeOp)
    (hclock : ∀ op ∈ ops, op.clock + maxClockSkewS ≤ now_s + maxClockSkewS) :
    Durable cfg now_s (runNode cfg now₀ fs ops) :=
  List.foldlRecOn ops NodeOp.apply (durable_fresh hfresh now₀)
    fun _ h op hop => h.apply op (hclock op hop)

theorem Durable.replays (h : Durable cfg now_s s) :
    replayBlocks s.1.chain.blocks now_s cfg.difficulty cfg.reward = .ok s.1.chain.cursor := by
  obtain ⟨bs, hblocks, hfed⟩ := h.fed
  have hrun := replayLoop_of_feed now_s (Chain.new_bounded cfg.difficulty cfg.reward) bs
  have hone : (Chain.new cfg.difficulty cfg.reward).blocks.length = 1 := rfl
  rw [hone, hfed] at hrun
  rw [hblocks, replayBlocks_cons genesisBlock bs genesisBlock_ok]
  exact hrun.1

/-- Booting on a file of readable lines ends with the node that wrote it, or with
the verdict of the replay. -/
theorem Durable.boot [Picojson] (h : Durable cfg now_s s)
    (hread : ∀ b ∈ s.1.chain.blocks, fromJsonLine (toJsonLine b) = some b) (io : AppendOutcome) :
    Node.boot cfg now_s s.2 io =
      if (replayFromGenesis s.1.chain.blocks now_s cfg.difficulty cfg.reward).ok then
        ({ ok := true }, s.1, s.2)
      else
        ({ status := replayFromGenesis s.1.chain.blocks now_s cfg.difficulty cfg.reward },
          Node.new cfg, s.2) := by
  obtain ⟨bs, hblocks, hfed⟩ := h.fed
  have hholds := h.holds
  rw [h.store] at hholds
  have hload := hholds.load hread
  have hnonempty : ¬¬((s.2 (Node.new cfg).store.path).getD []).length > 0 := by
    show ¬¬((s.2 (ChainStore.forDatadir cfg.datadir).path).getD []).length > 0
    rw [hholds, hblocks]
    simp [Lines.unlines]
  have hstore : (Node.new cfg).store.load s.2 = ⟨{ ok := true }, genesisBlock :: bs⟩ := by
    rw [← hblocks]
    exact hload
  rw [Node.boot, hblocks]
  simp only [if_neg hnonempty, hstore, not_true_eq_false, if_false, ne_eq]
  by_cases hok : (replayFromGenesis (genesisBlock :: bs) now_s cfg.difficulty cfg.reward).ok = true
  · have hreconnect : reconnect now_s 1 (Node.new cfg).chain bs = (none, s.1.chain) :=
      reconnect_of_feed hfed
    have hnode : { Node.new cfg with chain := s.1.chain } = s.1 := by
      rw [Node.new, ← h.store, ← h.config]
    rw [if_neg (not_not.mpr hok), if_pos hok, hreconnect]
    simp only [hnode]
  · rw [if_pos hok, if_neg hok]

/-- Booting again succeeds and ends with the same chain state. -/
structure Resumes [Picojson] (cfg : NodeConfig) (now_s : UInt64) (io : AppendOutcome)
    (s : Node × FileSystem) : Prop where
  ok : (Node.boot cfg now_s s.2 io).1.ok = true
  height : (Node.boot cfg now_s s.2 io).2.1.chain.height = s.1.chain.height
  tipHash : (Node.boot cfg now_s s.2 io).2.1.chain.tipHash = s.1.chain.tipHash
  cumWork : (Node.boot cfg now_s s.2 io).2.1.chain.cumWork = s.1.chain.cumWork
  account : ∀ a, (Node.boot cfg now_s s.2 io).2.1.chain.account a = s.1.chain.account a

omit [Crypto] in
theorem NodeConfig.reward_cases (cfg : NodeConfig) :
    cfg.reward = 0 ∨ cfg.reward = coinbaseReward := by
  rw [NodeConfig.reward]
  split
  · exact .inr rfl
  · exact .inl rfl

/-- A node resumes exactly when the supply check of the replay lets it. -/
theorem Durable.resumes_iff [Picojson] (h : Durable cfg now_s s)
    (hread : ∀ b ∈ s.1.chain.blocks, fromJsonLine (toJsonLine b) = some b) (io : AppendOutcome) :
    Resumes cfg now_s io s ↔
      2 ^ 64 ∣ offSchedule cfg.reward (chainTxns s.1.chain.blocks.tail) := by
  have hboot := h.boot hread io
  have hverdict : (replayFromGenesis s.1.chain.blocks now_s cfg.difficulty cfg.reward).ok = true ↔
      2 ^ 64 ∣ offSchedule cfg.reward (chainTxns s.1.chain.blocks.tail) := by
    rw [← supplySum_iff cfg.reward_cases h.replays, replayFromGenesis_ok_iff]
    constructor
    · rintro ⟨state, hstate, hsupply⟩
      cases Except.ok.inj (h.replays.symm.trans hstate)
      exact hsupply
    · exact fun hsupply => ⟨_, h.replays, hsupply⟩
  rw [← hverdict]
  constructor
  · intro hresumes
    have hok := hresumes.ok
    by_contra hrefused
    rw [hboot, if_neg hrefused] at hok
    cases hok
  · intro hok
    rw [if_pos hok] at hboot
    constructor <;> simp [hboot]

/-- After any run on a fresh datadir a restart is a no-op exactly when what the
chain issued off schedule is a multiple of the word size. -/
theorem restart_resumes_iff [Picojson] (now₀ : UInt64) {ops : List NodeOp}
    (hfresh : Fresh cfg fs) (hclock : ∀ op ∈ ops, op.clock ≤ now_s)
    (hskew : now_s.toNat + maxClockSkewS.toNat < 2 ^ 64)
    (hver : ∀ b ∈ (runNode cfg now₀ fs ops).1.chain.blocks, ∀ t ∈ b.txns, t.ver = kTxnVersion)
    (hrange : ∀ b ∈ (runNode cfg now₀ fs ops).1.chain.blocks, b.InRange)
    (hparse : ∀ b ∈ (runNode cfg now₀ fs ops).1.chain.blocks, b.InRange → ParsesFaithfully b)
    (io : AppendOutcome) :
    Resumes cfg now_s io (runNode cfg now₀ fs ops) ↔
      2 ^ 64 ∣
        offSchedule cfg.reward (chainTxns (runNode cfg now₀ fs ops).1.chain.blocks.tail) := by
  have hlate : ∀ op ∈ ops, op.clock + maxClockSkewS ≤ now_s + maxClockSkewS := by
    intro op hop
    have hle := UInt64.le_iff_toNat_le.mp (hclock op hop)
    rw [UInt64.le_iff_toNat_le, UInt64.toNat_add, UInt64.toNat_add]
    omega
  have hdurable := durable_run hfresh now₀ ops hlate
  refine hdurable.resumes_iff (fun b hb => ?_) io
  exact fromJsonLine_toJsonLine (hparse b hb (hrange b hb)) (hver b hb)

end Restart

/-! ### One sealed block -/

section Samples

attribute [local instance] sampleKeys

/-- Seal one batch on a fresh datadir, at difficulty zero and the genesis second. -/
def sealedRun [Picojson] (txns : List Txn) : Node × FileSystem :=
  runNode {} genesisTimestamp (fun _ => none) [.sealNext genesisTimestamp txns]

theorem fresh_empty : Fresh {} fun _ => none := rfl

/-- The clock still shows the genesis second, so the sealed block is one second later. -/
theorem nextBlock_genesis (txns : List Txn) :
    (Chain.new 0 0).nextBlock genesisTimestamp txns = (Chain.new 0 0).nextBlock 0 txns := by
  have htip : (Chain.new 0 0).tip.header.timestamp = genesisTimestamp := rfl
  have hlate : genesisTimestamp < (Chain.new 0 0).tip.header.timestamp + 1 := by
    rw [htip]
    decide
  have hzero : 0 < (Chain.new 0 0).tip.header.timestamp + 1 := by
    rw [htip]
    decide
  rw [Chain.nextBlock, Chain.nextBlock, if_pos hlate, if_pos hzero]

theorem sealedRun_chain [Picojson] (txns : List Txn) :
    (sealedRun txns).1.chain = sealedChain [txns] := by
  have hchain : (Node.new {}).chain = Chain.new 0 0 := rfl
  rw [sealedRun, runNode, boot_fresh fresh_empty, List.foldl_cons, List.foldl_nil,
    NodeOp.apply_chain]
  show (Node.new {}).chain.connect
    ((Node.new {}).chain.nextBlock genesisTimestamp txns, genesisTimestamp) = _
  rw [hchain, nextBlock_genesis, sealedChain_single]

/-- The parser on the two lines of `sealedRun`. -/
abbrev sealedParser (txns : List Txn) : Picojson :=
  parserOf [genesisBlock, (Chain.new 0 0).nextBlock 0 txns]

theorem sealedRun_blocks [Picojson] {txns : List Txn} {work : AccountMap}
    (hsize : txns.length ≤ maxTxnsPerBlock) (hmem : ∀ t ∈ txns, t ∈ signedSamples)
    (hspend : [txns].flatten.foldlM spend applyGenesis = some work) :
    (sealedRun txns).1.chain.blocks = [genesisBlock, (Chain.new 0 0).nextBlock 0 txns] ∧
      chainTxns (sealedRun txns).1.chain.blocks.tail = txns := by
  have hbatches : ∀ batch ∈ [txns], batch.length ≤ maxTxnsPerBlock ∧
      ∀ t ∈ batch, t ∈ signedSamples := by
    intro batch hbatch
    rw [List.mem_singleton.mp hbatch]
    exact ⟨hsize, hmem⟩
  obtain ⟨-, hmap, -⟩ := sealedChain_replays [txns] (by simp) hbatches hspend
  rw [sealedRun_chain]
  refine ⟨?_, (chainTxns_of_map hmap).trans (by simp)⟩
  rcases Chain.connect_cases (Chain.new 0 0) ((Chain.new 0 0).nextBlock 0 txns, genesisTimestamp)
    with ⟨-, hcommit⟩ | ⟨-, hsame⟩
  · rw [sealedChain_single, hcommit.blocks]
    rfl
  · rw [sealedChain_single, hsame] at hmap
    cases hmap

theorem signedSamples_inRange : ∀ t ∈ signedSamples,
    t.ver = kTxnVersion ∧ t.amount.toNat < 2 ^ 63 ∧ t.nonce.toNat < 2 ^ 63 := by
  decide

theorem sealedParser_faithful (txns : List Txn) :
    letI := sealedParser txns
    ∀ b ∈ [genesisBlock, (Chain.new 0 0).nextBlock 0 txns], ParsesFaithfully b := by
  have hindex : ((Chain.new 0 0).nextBlock 0 txns).header.index = 1 := rfl
  exact parserOf_pair (toJsonLine_ne_of_index rfl hindex)

/-- The two blocks of `sealedRun` are within the bounds of the file format. -/
theorem sealedRun_readable [Picojson] {txns : List Txn} {work : AccountMap}
    (hparse : ∀ b ∈ [genesisBlock, (Chain.new 0 0).nextBlock 0 txns], ParsesFaithfully b)
    (hsize : txns.length ≤ maxTxnsPerBlock) (hmem : ∀ t ∈ txns, t ∈ signedSamples)
    (hspend : [txns].flatten.foldlM spend applyGenesis = some work) :
    ∀ b ∈ (sealedRun txns).1.chain.blocks,
      ParsesFaithfully b ∧ b.InRange ∧ ∀ t ∈ b.txns, t.ver = kTxnVersion := by
  obtain ⟨hblocks, -⟩ := sealedRun_blocks hsize hmem hspend
  have hindex : ((Chain.new 0 0).nextBlock 0 txns).header.index = 1 := rfl
  have htime : ((Chain.new 0 0).nextBlock 0 txns).header.timestamp = genesisTimestamp + 1 := rfl
  rw [hblocks]
  intro b hb
  refine ⟨hparse b hb, ?_⟩
  rcases List.mem_pair.mp hb with rfl | rfl
  · exact ⟨⟨by decide, by decide, by decide, by simp [genesisBlock]⟩, by simp [genesisBlock]⟩
  · constructor
    · constructor
      · rw [hindex]
        decide
      · rw [htime]
        decide
      · exact Nat.pow_pos (by decide)
      · exact fun t ht => (signedSamples_inRange t (hmem t ht)).2
    · exact fun t ht => (signedSamples_inRange t (hmem t ht)).1

/-- A node that sealed a self-transfer is refused by its own file. -/
theorem restart_refused_after_self_transfer :
    letI := sealedParser [selfPayment 0]
    (∀ b ∈ (sealedRun [selfPayment 0]).1.chain.blocks, ParsesFaithfully b) ∧
      ¬Resumes {} genesisTimestamp .complete (sealedRun [selfPayment 0]) := by
  have hspend : ([[selfPayment 0]].flatten.foldlM spend applyGenesis).isSome := by decide
  obtain ⟨work, hwork⟩ := Option.isSome_iff_exists.mp hspend
  have hmem : ∀ t ∈ [selfPayment 0], t ∈ signedSamples := by
    simpa using selfPayment_mem (i := 0) (by decide)
  have hlate : ∀ op ∈ [NodeOp.sealNext genesisTimestamp [selfPayment 0]],
      op.clock + maxClockSkewS ≤ genesisTimestamp + maxClockSkewS := by
    intro op hop
    rw [List.mem_singleton.mp hop]
    exact UInt64.le_refl _
  have hrun : ∀ [Picojson],
      (∀ b ∈ [genesisBlock, (Chain.new 0 0).nextBlock 0 [selfPayment 0]], ParsesFaithfully b) →
      (∀ b ∈ (sealedRun [selfPayment 0]).1.chain.blocks, ParsesFaithfully b) ∧
        ¬Resumes {} genesisTimestamp .complete (sealedRun [selfPayment 0]) := by
    intro parser hparse
    have hreadable := sealedRun_readable hparse (by decide) hmem hwork
    have hdurable : Durable {} genesisTimestamp (sealedRun [selfPayment 0]) :=
      durable_run fresh_empty genesisTimestamp _ hlate
    refine ⟨fun b hb => (hreadable b hb).1, fun hresumes => ?_⟩
    have hdvd := (hdurable.resumes_iff (fun b hb =>
      fromJsonLine_toJsonLine (hreadable b hb).1 (hreadable b hb).2.2) .complete).mp hresumes
    rw [(sealedRun_blocks (by decide) hmem hwork).2] at hdvd
    exact absurd hdvd (by decide)
  exact @hrun (sealedParser [selfPayment 0]) (sealedParser_faithful [selfPayment 0])

/-- A node that sealed an ordinary transfer resumes. -/
theorem restart_resumes_after_transfer :
    letI := sealedParser [payOliver]
    Resumes {} genesisTimestamp .complete (sealedRun [payOliver]) := by
  have hspend : ([[payOliver]].flatten.foldlM spend applyGenesis).isSome := by decide
  obtain ⟨work, hwork⟩ := Option.isSome_iff_exists.mp hspend
  have hmem : ∀ t ∈ [payOliver], t ∈ signedSamples := by simp [signedSamples]
  have hclock : ∀ op ∈ [NodeOp.sealNext genesisTimestamp [payOliver]],
      op.clock ≤ genesisTimestamp := by
    intro op hop
    rw [List.mem_singleton.mp hop]
    exact UInt64.le_refl _
  have hskew : genesisTimestamp.toNat + maxClockSkewS.toNat < 2 ^ 64 := by decide
  have hrun : ∀ [Picojson],
      (∀ b ∈ [genesisBlock, (Chain.new 0 0).nextBlock 0 [payOliver]], ParsesFaithfully b) →
      Resumes {} genesisTimestamp .complete (sealedRun [payOliver]) := by
    intro parser hparse
    have hreadable := sealedRun_readable hparse (by decide) hmem hwork
    have hdvd : 2 ^ 64 ∣ offSchedule 0 (chainTxns (sealedRun [payOliver]).1.chain.blocks.tail) := by
      rw [(sealedRun_blocks (by decide) hmem hwork).2]
      decide
    unfold sealedRun at hreadable hdvd ⊢
    refine (restart_resumes_iff genesisTimestamp fresh_empty hclock hskew
      (fun b hb => (hreadable b hb).2.2) (fun b hb => (hreadable b hb).2.1)
      (fun b hb _ => (hreadable b hb).1) .complete).mpr ?_
    exact hdvd
  exact @hrun (sealedParser [payOliver]) (sealedParser_faithful [payOliver])

end Samples

end TxChain
