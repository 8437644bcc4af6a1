import TxChain.Chain.Batch
import TxChain.Chain.Supply
import TxChain.Mempool.Mempool
import TxChain.Node.Node

/-!
# The cadence sealer

With mining off, the event loop drains the head of the mempool into a block on a
timer and evicts it once the block is committed, while RPC calls admit further
transactions. Nothing is validated again on the way: the drained batch is valid at
the tip because one slot a sender keeps every pending transaction apart from the
blocks that commit before it.
-/

namespace TxChain

/-- What the event loop and the RPC thread share. -/
structure Sealer where
  node : Node
  fs : FileSystem
  mp : Mempool

inductive SealerOp where
  | admitTxn (t : Txn)
  | drainSeal (now_s : UInt64) (io : AppendOutcome)

/-- Up to a block's worth of admitted transactions, in admission order. -/
def Mempool.batch (mp : Mempool) : List Txn :=
  (mp.sortedBySeq.map MempoolEntry.txn).take maxTxnsPerBlock

section Sealer

variable [Crypto]

/-- The process after booting, with an empty pool. -/
def Sealer.start [Picojson] (cfg : NodeConfig) (now_s : UInt64) (fs : FileSystem)
    (io : AppendOutcome) (cap : ℕ) : Sealer :=
  let booted := Node.boot cfg now_s fs io
  ⟨booted.2.1, booted.2.2, { cap }⟩

/-- One turn of the loop: the verdict of the seal, and the state it leaves. -/
def Sealer.drainSeal (s : Sealer) (now_s : UInt64) (io : AppendOutcome) : Reason × Sealer :=
  let batch := s.mp.batch
  let sealed := s.node.sealNextBlock s.fs now_s batch io
  (sealed.1,
    { node := sealed.2.1
      fs := sealed.2.2
      mp := if sealed.1 = .ok ∧ batch ≠ [] then s.mp.evictIncluded batch else s.mp })

def SealerOp.apply (s : Sealer) : SealerOp → Sealer
  | .admitTxn t => { s with mp := (s.mp.admitTxn s.node.chain.account t).2 }
  | .drainSeal now_s io => (s.drainSeal now_s io).2

theorem SealerOp.admitTxn_node (s : Sealer) (t : Txn) :
    (SealerOp.apply s (.admitTxn t)).node = s.node := rfl

theorem SealerOp.admitTxn_mp (s : Sealer) (t : Txn) :
    (SealerOp.apply s (.admitTxn t)).mp = (s.mp.admitTxn s.node.chain.account t).2 := rfl

theorem Sealer.start_mp [Picojson] (cfg : NodeConfig) (now_s : UInt64) (fs : FileSystem)
    (io : AppendOutcome) (cap : ℕ) : (Sealer.start cfg now_s fs io cap).mp = { cap } := rfl

/-- Every pending transaction is the next one of its sender, and covered. -/
structure Sealer.Ready (s : Sealer) : Prop where
  difficulty : s.node.chain.difficulty = 0
  reward : s.node.chain.reward = 0
  indexed : s.mp.WellIndexed
  spendable : ∀ {id : Digest32} {e : MempoolEntry}, s.mp.byTxid[id]? = some e →
    e.txn.Spendable (s.node.chain.account e.txn.from)

/-- The balances of all accounts fit a word together. -/
def Sealer.Fits (s : Sealer) : Prop :=
  ∑ a, (s.node.chain.account a).balance.toNat < 2 ^ 64

variable {s : Sealer}

omit [Crypto] in
theorem Mempool.batch_sublist (mp : Mempool) :
    mp.batch.Sublist (mp.sortedBySeq.map MempoolEntry.txn) := List.take_sublist _ _

theorem Sealer.start_ready [Picojson] {cfg : NodeConfig} (hD : cfg.difficulty = 0)
    (now_s : UInt64) (fs : FileSystem) (io : AppendOutcome) (cap : ℕ) :
    (Sealer.start cfg now_s fs io cap).Ready := by
  have hcfg := Node.boot_configured cfg now_s fs io
  refine ⟨hcfg.difficulty.trans hD, hcfg.reward.trans ?_, Mempool.wellIndexed_empty cap, ?_⟩
  · rw [NodeConfig.reward, hD]
    rfl
  · intro id e h
    simp [Sealer.start] at h

/-- Each drained transaction is pending under its txid. -/
theorem Sealer.Ready.mem_batch (h : s.Ready) {t : Txn} (ht : t ∈ s.mp.batch) :
    ∃ e, s.mp.byTxid[txid t]? = some e ∧ e.txn = t := by
  obtain ⟨e, he, rfl⟩ := List.mem_map.mp (s.mp.batch_sublist.subset ht)
  obtain ⟨id, hid⟩ := Mempool.mem_sortedBySeq he
  refine ⟨e, ?_, rfl⟩
  rw [(h.indexed.pending hid).content]
  exact hid

/-- The batch is spent in full at the tip, and everyone else keeps what it has. -/
theorem Sealer.Ready.spends (h : s.Ready) (hfits : s.Fits) :
    ∃ work', s.mp.batch.foldlM spend s.node.chain.state = some work' ∧
      ∀ a ∉ s.mp.batch.map Txn.from,
        (s.node.chain.account a).Keeps (work'.lookup a) := by
  have hsenders : (s.mp.batch.map Txn.from).Nodup := by
    have hqueue := h.indexed.senders_nodup
    have hsub := s.mp.batch_sublist.map Txn.from
    rw [List.map_map] at hsub
    exact hqueue.sublist hsub
  have hspend : ∀ t ∈ s.mp.batch, t.Spendable (s.node.chain.state.lookup t.from) := by
    intro t ht
    obtain ⟨e, he, rfl⟩ := h.mem_batch ht
    exact h.spendable he
  have hfit : s.node.chain.state.holdings Finset.univ < 2 ^ 64 := hfits
  obtain ⟨work', hrun, hkeeps⟩ :=
    spend_batch hsenders (fun t _ => Finset.mem_univ t.from) hspend hfit
  exact ⟨work', hrun, fun a ha => hkeeps a (Finset.mem_univ a) ha⟩

/-- The gate accepts the drained batch on the tip, whenever it is drained. -/
theorem Sealer.Ready.gate (h : s.Ready) (hfits : s.Fits) (now_s : UInt64) :
    (applyBlockTxns s.node.chain.state (s.node.chain.nextBlock now_s s.mp.batch)
        s.node.chain.reward).1.reason = .ok ∧
      ∀ a ∉ s.mp.batch.map Txn.from, (s.node.chain.account a).Keeps
        ((applyBlockTxns s.node.chain.state (s.node.chain.nextBlock now_s s.mp.batch)
          s.node.chain.reward).2.lookup a) := by
  obtain ⟨work', hrun, hkeeps⟩ := h.spends hfits
  have hauth : ∀ t ∈ s.mp.batch, t.Authentic := by
    intro t ht
    obtain ⟨e, he, rfl⟩ := h.mem_batch ht
    exact (h.indexed.pending he).authentic
  have happlied : (applyBlockTxns s.node.chain.state (s.node.chain.nextBlock now_s s.mp.batch)
        s.node.chain.reward).1.reason = .ok ∧
      (applyBlockTxns s.node.chain.state (s.node.chain.nextBlock now_s s.mp.batch)
        s.node.chain.reward).2 = work' := by
    refine applyBlockTxns_iff.mpr ⟨(runTxns_signed hauth).trans hrun, fun hpos => ?_⟩
    rw [h.reward] at hpos
    exact absurd hpos (by decide)
  rw [happlied.2]
  exact ⟨happlied.1, hkeeps⟩

/-- So the verdict of a seal is the one of the timestamp rule. -/
theorem Sealer.Ready.verdict (h : s.Ready) (hfits : s.Fits) (now_s : UInt64) (io : AppendOutcome) :
    (s.drainSeal now_s io).1 =
      if s.node.chain.tip.header.timestamp <
            (s.node.chain.nextBlock now_s s.mp.batch).header.timestamp ∧
          (s.node.chain.nextBlock now_s s.mp.batch).header.timestamp ≤ now_s + maxClockSkewS
      then .ok else .badLink := by
  have hsize : s.mp.batch.length ≤ maxTxnsPerBlock := List.length_take_le _ _
  show (s.node.commitBlock s.fs (s.node.chain.nextBlock now_s s.mp.batch) now_s io).1 = _
  rw [Node.commitBlock_reason, Chain.connectBlock_reason, (h.gate hfits now_s).1,
    Chain.nextBlock_reason now_s now_s h.difficulty hsize]
  split <;> rfl

/-- A transaction left in the pool after a drain has a sender the batch did not touch. -/
theorem Sealer.Ready.sender_not_mem (h : s.Ready) {id : Digest32} {e : MempoolEntry}
    (he : s.mp.byTxid[id]? = some e) (hleft : id ∉ s.mp.batch.map txid) :
    e.txn.from ∉ s.mp.batch.map Txn.from := by
  intro hmem
  obtain ⟨t, ht, hfrom⟩ := List.mem_map.mp hmem
  obtain ⟨e', he', rfl⟩ := h.mem_batch ht
  refine h.indexed.sender_ne he' he ?_ hfrom
  rintro rfl
  exact hleft (List.mem_map_of_mem ht)

/-- A drain commits the batch and evicts it, or changes nothing. -/
theorem Sealer.drainSeal_cases (s : Sealer) (now_s : UInt64) (io : AppendOutcome) :
    ((s.drainSeal now_s io).2 = s) ∨
      ∃ fs' c', Chain.Commits s.node.chain (s.node.chain.nextBlock now_s s.mp.batch) now_s c' ∧
        (s.drainSeal now_s io).2 =
          { node := { s.node with chain := c' }, fs := fs',
            mp := s.mp.evictIncluded s.mp.batch } := by
  have hcommit := s.node.commitBlock_cases s.fs (s.node.chain.nextBlock now_s s.mp.batch) now_s io
  rw [Sealer.drainSeal, Node.sealNextBlock]
  rcases hcommit with ⟨hrefused, hsame⟩ | ⟨hok, hnext⟩
  · left
    simp only [hsame, hrefused, false_and, if_false]
  · right
    refine ⟨(s.node.store.appendBlock s.fs io (s.node.chain.nextBlock now_s s.mp.batch)).2, _,
      Chain.connectBlock_ok hok, ?_⟩
    have hevict : (if s.mp.batch ≠ [] then s.mp.evictIncluded s.mp.batch else s.mp) =
        s.mp.evictIncluded s.mp.batch := by
      split
      next => rfl
      next hnil => rw [not_not.mp hnil]; rfl
    simp only [hnext, true_and, hevict]

/-- A seal that succeeds commits the front of the queue and evicts it. -/
theorem Sealer.drainSeal_ok {now_s : UInt64} {io : AppendOutcome}
    (h : (s.drainSeal now_s io).1 = .ok) :
    (s.drainSeal now_s io).2.node.chain.blocks =
        s.node.chain.blocks ++ [s.node.chain.nextBlock now_s s.mp.batch] ∧
      (s.drainSeal now_s io).2.mp = s.mp.evictIncluded s.mp.batch := by
  obtain ⟨hrefused, hsame⟩ | ⟨hok, hcommit⟩ :=
    s.node.commitBlock_cases s.fs (s.node.chain.nextBlock now_s s.mp.batch) now_s io
  · have hverdict : (s.drainSeal now_s io).1 =
        (s.node.chain.connectBlock (s.node.chain.nextBlock now_s s.mp.batch) now_s).1 :=
      congrArg Prod.fst hsame
    exact absurd (hverdict.symm.trans h) hrefused
  · rw [Sealer.drainSeal, Node.sealNextBlock, hcommit]
    refine ⟨(Chain.connectBlock_ok hok).blocks, ?_⟩
    dsimp only
    split
    next => rfl
    next hnil =>
      obtain hnil := not_not.mp fun hne => hnil ⟨rfl, hne⟩
      rw [hnil]
      rfl

theorem Sealer.Ready.drainSeal (h : s.Ready) (hfits : s.Fits) (now_s : UInt64)
    (io : AppendOutcome) : (s.drainSeal now_s io).2.Ready := by
  rcases s.drainSeal_cases now_s io with hsame | ⟨fs', c', hcommit, hnext⟩
  · rw [hsame]
    exact h
  · rw [hnext]
    refine ⟨hcommit.difficulty.trans h.difficulty, hcommit.reward.trans h.reward,
      h.indexed.evictIncluded s.mp.batch, ?_⟩
    intro id e he
    rw [Mempool.evictIncluded_byTxid] at he
    split_ifs at he with hgone
    have hkeeps := (h.gate hfits now_s).2 e.txn.from (h.sender_not_mem he hgone)
    rw [← hcommit.state] at hkeeps
    exact (h.spendable he).mono hkeeps

theorem Sealer.Ready.apply (h : s.Ready) (hfits : s.Fits) (op : SealerOp) :
    (SealerOp.apply s op).Ready := by
  cases op with
  | admitTxn t =>
      refine ⟨h.difficulty, h.reward, h.indexed.admitTxn s.node.chain.account t, ?_⟩
      intro id e he
      rcases s.mp.admitTxn_cases s.node.chain.account t with ⟨hadmits, hok⟩ | ⟨-, hsame⟩
      · rw [SealerOp.apply, hok, Mempool.accept, OrderedMap.getElem?_insert] at he
        split_ifs at he with hnew
        · obtain rfl := Option.some.inj he
          exact hadmits.spendable
        · exact h.spendable he
      · rw [SealerOp.apply, hsame] at he
        exact h.spendable he
  | drainSeal now_s io => exact h.drainSeal hfits now_s io

/-- In every run whose balances always fit a word, every drained batch passes the
gate, a seal is refused by the timestamp rule alone, and every pending transaction
stays valid at the tip. -/
theorem cadence_never_wedges [Picojson] {cfg : NodeConfig} (hD : cfg.difficulty = 0)
    (now₀ : UInt64) (fs : FileSystem) (io₀ : AppendOutcome) (cap : ℕ) (ops : List SealerOp)
    (hsupply : ∀ s ∈ ops.scanl SealerOp.apply (Sealer.start cfg now₀ fs io₀ cap),
      ∑ a, (s.node.chain.account a).balance.toNat < 2 ^ 64) :
    ∀ s ∈ ops.scanl SealerOp.apply (Sealer.start cfg now₀ fs io₀ cap),
      (∀ now_s, (applyBlockTxns s.node.chain.state (s.node.chain.nextBlock now_s s.mp.batch)
        s.node.chain.reward).1.reason = .ok) ∧
      (∀ now_s io, (s.drainSeal now_s io).1 =
        if s.node.chain.tip.header.timestamp <
              (s.node.chain.nextBlock now_s s.mp.batch).header.timestamp ∧
            (s.node.chain.nextBlock now_s s.mp.batch).header.timestamp ≤ now_s + maxClockSkewS
        then .ok else .badLink) ∧
      ∀ (id : Digest32) (e : MempoolEntry), s.mp.byTxid[id]? = some e →
        e.txn.nonce = (s.node.chain.account e.txn.from).nonce ∧
          e.txn.amount ≤ (s.node.chain.account e.txn.from).balance := by
  have hready := Run.invariant_of_always (P := Sealer.Fits) (J := Sealer.Ready)
    (fun _ op hfits h => h.apply hfits op) (Sealer.start_ready hD now₀ fs io₀ cap) hsupply
  intro s hs
  have h := hready s hs
  have hfits := hsupply s hs
  refine ⟨fun now_s => (h.gate hfits now_s).1, h.verdict hfits, ?_⟩
  intro id e he
  exact ⟨(h.spendable he).nonce, (h.spendable he).funds⟩

end Sealer

section Samples

attribute [local instance] sampleKeys

/-- Before the first block a pool admits every sample that genesis covers. -/
theorem sample_admits (D : UInt32) (reward : UInt64) {t : Txn} (hver : t.ver = kTxnVersion)
    (ht : t ∈ signedSamples) (hspend : t.Spendable (applyGenesis.lookup t.from)) :
    ({ cap := 4096 } : Mempool).Admits (Chain.new D reward).account t :=
  Mempool.admits_empty (by decide) hver (signedSamples_authentic t ht) hspend

theorem payOliver_admits_first (D : UInt32) (reward : UInt64) :
    ({ cap := 4096 } : Mempool).Admits (Chain.new D reward).account payOliver :=
  sample_admits D reward rfl (by simp [signedSamples]) payOliver_spendable

theorem payRacheal_admits_first (D : UInt32) (reward : UInt64) :
    ({ cap := 4096 } : Mempool).Admits (Chain.new D reward).account payRacheal :=
  sample_admits D reward rfl (by simp [signedSamples]) ⟨by decide, by decide⟩

/-- The one transfer is also admitted behind the other. -/
theorem payOliver_admits_behind (D : UInt32) (reward : UInt64) :
    (({ cap := 4096 } : Mempool).accept payRacheal).Admits (Chain.new D reward).account payOliver :=
  (payOliver_admits_first D reward).behind (payOliver_txid_ne rfl) (by decide) (by decide)

theorem Sealer.fits_first {s : Sealer} (hchain : s.node.chain = Chain.new 0 0) : s.Fits := by
  have hstate : (Chain.new 0 0).state = applyGenesis := rfl
  rw [Sealer.Fits, Chain.sum_balances, hchain, hstate, applyGenesis_total]
  decide

/-- Whatever is pending before the first block, a seal at the clock of genesis succeeds. -/
theorem Sealer.Ready.drains_first {s : Sealer} (h : s.Ready)
    (hchain : s.node.chain = Chain.new 0 0) :
    (s.drainSeal genesisTimestamp .complete).1 = .ok := by
  have htip : (Chain.new 0 0).tip.header.timestamp = genesisTimestamp := rfl
  rw [h.verdict (Sealer.fits_first hchain), hchain, Chain.nextBlock, htip]
  dsimp only
  exact if_pos (by decide)

/-- A node on a fresh datadir whose pool has admitted one transfer. -/
def waitingSealer [Picojson] : Sealer :=
  [SealerOp.admitTxn payOliver].foldl SealerOp.apply
    (Sealer.start {} genesisTimestamp (fun _ => none) .complete 4096)

theorem waitingSealer_eq [Picojson] :
    (Sealer.start {} genesisTimestamp (fun _ => none) .complete 4096).node.chain = Chain.new 0 0 ∧
      waitingSealer.node.chain = Chain.new 0 0 ∧ waitingSealer.mp.batch = [payOliver] := by
  have hfresh : Fresh {} fun _ => none := rfl
  have hchain : (Node.new {}).chain = Chain.new 0 0 := rfl
  have hstart : (Sealer.start {} genesisTimestamp (fun _ => none) .complete 4096).node.chain =
      Chain.new 0 0 := by
    rw [Sealer.start, boot_fresh hfresh]
    exact hchain
  have hmp : waitingSealer.mp = ({ cap := 4096 } : Mempool).accept payOliver := by
    rw [waitingSealer, List.foldl_cons, List.foldl_nil, SealerOp.admitTxn_mp, Sealer.start_mp,
      hstart, Mempool.admitTxn_ok (payOliver_admits_first 0 0)]
  refine ⟨hstart, ?_, ?_⟩
  · rw [waitingSealer, List.foldl_cons, List.foldl_nil, SealerOp.admitTxn_node]
    exact hstart
  · rw [hmp, Mempool.batch, Mempool.sortedBySeq_accept_empty]
    rfl

theorem waitingSealer_drains [Picojson] :
    (waitingSealer.drainSeal genesisTimestamp .complete).1 = .ok := by
  obtain ⟨hstart, hwaiting, -⟩ := waitingSealer_eq
  have hready := (Sealer.start_ready rfl genesisTimestamp (fun _ => none) .complete 4096).apply
    (Sealer.fits_first hstart) (.admitTxn payOliver)
  exact hready.drains_first hwaiting

/-- The drained transfer is sealed a second after the genesis block. -/
theorem waitingSealer_seals :
    letI := parserOf [genesisBlock]
    waitingSealer.mp.batch = [payOliver] ∧
      (waitingSealer.drainSeal genesisTimestamp .complete).1 = .ok := by
  have hrun : ∀ [Picojson], waitingSealer.mp.batch = [payOliver] ∧
      (waitingSealer.drainSeal genesisTimestamp .complete).1 = .ok := by
    intro parser
    obtain ⟨hstart, hwaiting, hbatch⟩ := waitingSealer_eq
    refine ⟨hbatch, ?_⟩
    have hsupply : ∀ s ∈ [SealerOp.admitTxn payOliver].scanl SealerOp.apply
        (Sealer.start {} genesisTimestamp (fun _ => none) .complete 4096),
        ∑ a, (s.node.chain.account a).balance.toNat < 2 ^ 64 := by
      intro s hs
      have hstates : s = Sealer.start {} genesisTimestamp (fun _ => none) .complete 4096 ∨
          s = waitingSealer := by
        simpa [waitingSealer] using hs
      have hchain : s.node.chain = Chain.new 0 0 := by
        rcases hstates with rfl | rfl
        · exact hstart
        · exact hwaiting
      exact Sealer.fits_first hchain
    have hverdict := (cadence_never_wedges rfl genesisTimestamp (fun _ => none) .complete 4096
      [.admitTxn payOliver] hsupply waitingSealer (by simp [waitingSealer])).2.1
      genesisTimestamp .complete
    have htip : (Chain.new 0 0).tip.header.timestamp = genesisTimestamp := rfl
    rw [hverdict, hwaiting, Chain.nextBlock, htip]
    dsimp only
    refine if_pos ?_
    decide
  exact @hrun (parserOf [genesisBlock])

end Samples

end TxChain
