import TxChain.Node.Cadence
import TxChain.Pow.Candidate

/-!
# Mining and admission side by side

The mining thread snapshots a candidate under the lock, searches without it, and
commits under the lock again if the tip is still the one it saw. RPC calls and drains
of the cadence sealer may run in between. Whatever the order, a transaction leaves the
pool only together with the commit of a block that holds it: eviction follows the
block's own list, and that list was copied from the pool.
-/

namespace TxChain

/-- The state under the lock, and the candidate the mining thread works on. -/
structure Miner where
  shared : Sealer
  inFlight : Option Candidate

inductive MinerOp where
  | admitTxn (t : Txn)
  | drainSeal (now_s : UInt64) (io : AppendOutcome)
  | snapshot (minerAddr : Address) (now_s : UInt64)
  | commitMined (timestamp nonce now_s : UInt64) (io : AppendOutcome)

section Miner

variable [Crypto]

/-- The search ends at some nonce, and at a later timestamp once it has exhausted the
nonces; the block is committed if the tip has not moved. -/
def Miner.commitMined (s : Miner) (timestamp nonce now_s : UInt64) (io : AppendOutcome) :
    Bool × Miner :=
  match s.inFlight with
  | none => (false, s)
  | some cand =>
      let mined : Block := { header := { cand.hdr with timestamp, nonce }, txns := cand.txns }
      let chain := s.shared.node.chain
      if chain.height + 1 = mined.header.index ∧ chain.tipHash = mined.header.prevHash then
        let committed := s.shared.node.commitBlock s.shared.fs mined now_s io
        if committed.1 = .ok then
          (true,
            { shared :=
                { node := committed.2.1
                  fs := committed.2.2
                  mp :=
                    if mined.txns.length > 1 then s.shared.mp.evictIncluded mined.txns.tail
                    else s.shared.mp }
              inFlight := none })
        else (false, { s with inFlight := none })
      else (false, { s with inFlight := none })

def MinerOp.apply (s : Miner) : MinerOp → Miner
  | .admitTxn t => { s with shared := SealerOp.apply s.shared (.admitTxn t) }
  | .drainSeal now_s io => { s with shared := (s.shared.drainSeal now_s io).2 }
  | .snapshot minerAddr now_s =>
      let chain := s.shared.node.chain
      { s with
        inFlight := some (buildCandidate minerAddr chain.height chain.tipHash
          chain.tip.header.timestamp now_s s.shared.mp chain.account) }
  | .commitMined timestamp nonce now_s io => (s.commitMined timestamp nonce now_s io).2

/-- Whether a step that tries to commit a block does. -/
def MinerOp.commits (s : Miner) : MinerOp → Option Bool
  | .admitTxn _ => none
  | .drainSeal now_s io => some (decide ((s.shared.drainSeal now_s io).1 = .ok))
  | .snapshot _ _ => none
  | .commitMined timestamp nonce now_s io => some (s.commitMined timestamp nonce now_s io).1

/-- The process after booting. -/
def Miner.start [Picojson] (cfg : NodeConfig) (now_s : UInt64) (fs : FileSystem)
    (io : AppendOutcome) (cap : ℕ) : Miner :=
  ⟨Sealer.start cfg now_s fs io cap, none⟩

/-- The transaction waits in the pool under its own id. -/
def Miner.Pending (s : Miner) (t : Txn) : Prop :=
  ∃ e, s.shared.mp.byTxid[txid t]? = some e ∧ e.txn = t

/-- Some committed block holds the transaction. -/
def Miner.Committed (s : Miner) (t : Txn) : Prop := ∃ b ∈ s.shared.node.chain.blocks, t ∈ b.txns

/-- The transactions that RPC calls present during a run. -/
def presented (ops : List MinerOp) : List Txn :=
  ops.filterMap fun op =>
    match op with
    | .admitTxn t => some t
    | _ => none

/-! ### One step -/

variable {s : Miner} {ops : List MinerOp}

/-- A mined block is committed and its transfers are evicted, or nothing changes but
that the search is over. -/
theorem Miner.commitMined_cases (s : Miner) (timestamp nonce now_s : UInt64) (io : AppendOutcome) :
    ((s.commitMined timestamp nonce now_s io).1 = false ∧
        (s.commitMined timestamp nonce now_s io).2.shared = s.shared ∧
        ∀ c, (s.commitMined timestamp nonce now_s io).2.inFlight = some c → s.inFlight = some c) ∨
      ∃ cand b, s.inFlight = some cand ∧ b.txns = cand.txns ∧
        (s.commitMined timestamp nonce now_s io).1 = true ∧
        (s.commitMined timestamp nonce now_s io).2.shared.node.chain.blocks =
          s.shared.node.chain.blocks ++ [b] ∧
        (s.commitMined timestamp nonce now_s io).2.shared.mp =
          s.shared.mp.evictIncluded b.txns.tail ∧
        (s.commitMined timestamp nonce now_s io).2.inFlight = none := by
  simp only [Miner.commitMined]
  split
  next hnone => exact .inl ⟨rfl, rfl, fun c hc => hc⟩
  next cand hcand =>
    let mined : Block := { header := { cand.hdr with timestamp, nonce }, txns := cand.txns }
    split
    next htip =>
      rcases s.shared.node.commitBlock_cases s.shared.fs mined now_s io with
        ⟨hrefused, hsame⟩ | ⟨hok, hcommit⟩
      · left
        rw [hsame, if_neg hrefused]
        exact ⟨rfl, rfl, by simp⟩
      · right
        refine ⟨cand, mined, hcand, rfl, ?_⟩
        rw [hcommit, if_pos rfl]
        refine ⟨rfl, (Chain.connectBlock_ok hok).blocks, ?_, rfl⟩
        dsimp only
        split
        next => rfl
        next hshort =>
          -- a block of the coinbase alone has nothing to evict
          have hnil : mined.txns.tail = [] := by
            apply List.eq_nil_of_length_eq_zero
            rw [List.length_tail]
            exact Nat.sub_eq_zero_of_le (Nat.not_lt.mp hshort)
          rw [hnil]
          rfl
    next => exact .inl ⟨rfl, rfl, by simp⟩

/-- A block that is committed is the candidate under the timestamp and the nonce that were found. -/
theorem Miner.commitMined_ok {timestamp nonce now_s : UInt64} {io : AppendOutcome}
    (h : (s.commitMined timestamp nonce now_s io).1 = true) :
    ∃ cand, s.inFlight = some cand ∧
      Chain.Commits s.shared.node.chain
        { header := { cand.hdr with timestamp, nonce }, txns := cand.txns } now_s
        (s.commitMined timestamp nonce now_s io).2.shared.node.chain := by
  simp only [Miner.commitMined] at h ⊢
  split at h
  next => cases h
  next cand hcand =>
    refine ⟨cand, hcand, ?_⟩
    split at h
    next htip =>
      rcases s.shared.node.commitBlock_cases s.shared.fs
          { header := { cand.hdr with timestamp, nonce }, txns := cand.txns } now_s io with
        ⟨hrefused, hsame⟩ | ⟨hok, hcommit⟩
      · rw [hsame, if_neg hrefused] at h
        cases h
      · rw [if_pos htip, hcommit, if_pos rfl]
        exact Chain.connectBlock_ok hok
    next => cases h

/-- The tip check is part of what the gate checks. -/
theorem Miner.commitMined_connects {cand : Candidate} (hcand : s.inFlight = some cand)
    {timestamp nonce now_s : UInt64} (io : AppendOutcome) {b : Block}
    (hb : ({ header := { cand.hdr with timestamp, nonce }, txns := cand.txns } : Block) = b)
    (hok : (s.shared.node.chain.connectBlock b now_s).1 = .ok) :
    (s.commitMined timestamp nonce now_s io).1 = true ∧
      (s.commitMined timestamp nonce now_s io).2.shared.node.chain =
        (s.shared.node.chain.connectBlock b now_s).2 := by
  subst hb
  have hlinks := (Chain.connectBlock_ok_iff.mp hok).1
  have hcommit := s.shared.node.commitBlock_cases s.shared.fs
    { header := { cand.hdr with timestamp, nonce }, txns := cand.txns } now_s io
  obtain ⟨hrefused, -⟩ | ⟨-, hcommit⟩ := hcommit
  · exact absurd hok hrefused
  · simp only [Miner.commitMined, hcand, hcommit]
    rw [if_pos ⟨hlinks.index.symm, hlinks.prevHash.symm⟩]
    exact ⟨rfl, rfl⟩

theorem Sealer.drainSeal_refused {s : Sealer} {now_s : UInt64} {io : AppendOutcome}
    (h : (s.drainSeal now_s io).1 ≠ .ok) : (s.drainSeal now_s io).2 = s := by
  rcases s.node.commitBlock_cases s.fs (s.node.chain.nextBlock now_s s.mp.batch) now_s io with
    ⟨hrefused, hsame⟩ | ⟨hok, hcommit⟩
  · rw [Sealer.drainSeal, Node.sealNextBlock]
    simp only [hsame, hrefused, false_and, if_false]
  · have hverdict : (s.drainSeal now_s io).1 = .ok := congrArg Prod.fst hcommit
    exact absurd hverdict h

/-- A refused commit changes neither the pool nor the chain. -/
theorem MinerOp.apply_refused {op : MinerOp} (h : op.commits s = some false) :
    (op.apply s).shared = s.shared := by
  cases op with
  | admitTxn t => cases h
  | snapshot minerAddr now_s => cases h
  | drainSeal now_s io =>
      apply Sealer.drainSeal_refused
      simpa [MinerOp.commits] using h
  | commitMined timestamp nonce now_s io =>
      rcases s.commitMined_cases timestamp nonce now_s io with
        ⟨-, hsame, -⟩ | ⟨_, _, -, -, hcommitted, -⟩
      · exact hsame
      · rw [MinerOp.commits, hcommitted] at h
        cases h

/-- What a step can do: end a search at most, admit a transaction, start a search, or
commit a block and evict some of its transactions. -/
theorem MinerOp.apply_cases (op : MinerOp) (s : Miner) :
    ((op.apply s).shared = s.shared ∧
        ∀ c, (op.apply s).inFlight = some c → s.inFlight = some c) ∨
      (∃ t, op = .admitTxn t ∧ s.shared.mp.Admits s.shared.node.chain.account t ∧
        op.apply s = { s with shared := { s.shared with mp := s.shared.mp.accept t } }) ∨
      (∃ minerAddr now_s, op.apply s =
        { s with
          inFlight := some (buildCandidate minerAddr s.shared.node.chain.height
            s.shared.node.chain.tipHash s.shared.node.chain.tip.header.timestamp now_s s.shared.mp
            s.shared.node.chain.account) }) ∨
      ∃ b evicted, (op.apply s).shared.node.chain.blocks = s.shared.node.chain.blocks ++ [b] ∧
        (op.apply s).shared.mp = s.shared.mp.evictIncluded evicted ∧
        (∀ c, (op.apply s).inFlight = some c → s.inFlight = some c) ∧
        (∀ t ∈ evicted, t ∈ b.txns) ∧
        (evicted = s.shared.mp.batch ∨ ∃ c, s.inFlight = some c ∧ evicted = c.txns.tail) := by
  cases op with
  | admitTxn t =>
      rcases s.shared.mp.admitTxn_cases s.shared.node.chain.account t with
        ⟨hadmits, hok⟩ | ⟨-, hsame⟩
      · refine .inr (.inl ⟨t, rfl, hadmits, ?_⟩)
        rw [MinerOp.apply, SealerOp.apply, hok]
      · left
        rw [MinerOp.apply, SealerOp.apply, hsame]
        exact ⟨rfl, fun c hc => hc⟩
  | snapshot minerAddr now_s => exact .inr (.inr (.inl ⟨minerAddr, now_s, rfl⟩))
  | drainSeal now_s io =>
      rcases s.shared.drainSeal_cases now_s io with hsame | ⟨fs', c', hcommit, hnext⟩
      · left
        rw [MinerOp.apply, hsame]
        exact ⟨rfl, fun c hc => hc⟩
      · refine .inr (.inr (.inr ⟨s.shared.node.chain.nextBlock now_s s.shared.mp.batch,
          s.shared.mp.batch, ?_, ?_, fun c hc => hc, ?_, .inl rfl⟩))
        · rw [MinerOp.apply, hnext]
          exact hcommit.blocks
        · rw [MinerOp.apply, hnext]
        · exact fun t ht => ht
  | commitMined timestamp nonce now_s io =>
      rcases s.commitMined_cases timestamp nonce now_s io with
        ⟨-, hsame, hflight⟩ | ⟨cand, b, hcand, htxns, -, hblocks, hmp, hflight⟩
      · exact .inl ⟨hsame, hflight⟩
      · refine .inr (.inr (.inr ⟨b, b.txns.tail, hblocks, hmp, ?_, ?_, ?_⟩))
        · intro c hc
          rw [MinerOp.apply, hflight] at hc
          cases hc
        · exact fun t ht => List.mem_of_mem_tail ht
        · exact .inr ⟨cand, hcand, congrArg List.tail htxns⟩

/-! ### Where transactions come from -/

/-- The pool and the candidate hold only transactions that were presented. -/
structure Miner.Sourced (s : Miner) (P : Txn → Prop) : Prop where
  indexed : s.shared.mp.WellIndexed
  pool : ∀ {id : Digest32} {e : MempoolEntry}, s.shared.mp.byTxid[id]? = some e → P e.txn
  candidate : ∀ {c : Candidate}, s.inFlight = some c → ∀ t ∈ c.txns.tail, P t

variable {P : Txn → Prop}

theorem Miner.Sourced.queue (h : s.Sourced P) {t : Txn}
    (ht : t ∈ s.shared.mp.sortedBySeq.map MempoolEntry.txn) : P t := by
  obtain ⟨e, he, rfl⟩ := List.mem_map.mp ht
  obtain ⟨id, hid⟩ := Mempool.mem_sortedBySeq he
  exact h.pool hid

theorem Miner.start_sourced [Picojson] (cfg : NodeConfig) (now_s : UInt64) (fs : FileSystem)
    (io : AppendOutcome) (cap : ℕ) : (Miner.start cfg now_s fs io cap).Sourced P where
  indexed := Mempool.wellIndexed_empty cap
  pool h := by simp [Miner.start, Sealer.start] at h
  candidate h := by cases h

theorem Miner.Sourced.apply (h : s.Sourced P) {op : MinerOp} (hop : ∀ t, op = .admitTxn t → P t) :
    (op.apply s).Sourced P := by
  rcases op.apply_cases s with ⟨hsame, hflight⟩ | ⟨t, rfl, hadmits, hnext⟩ |
    ⟨minerAddr, now_s, hnext⟩ | ⟨b, evicted, -, hmp, hflight, -, -⟩
  · constructor
    · rw [hsame]
      exact h.indexed
    · rw [hsame]
      exact h.pool
    · exact fun hc => h.candidate (hflight _ hc)
  · rw [hnext]
    refine ⟨h.indexed.accept hadmits, ?_, h.candidate⟩
    intro id e he
    rw [Mempool.accept, OrderedMap.getElem?_insert] at he
    split_ifs at he with hnew
    · obtain rfl := Option.some.inj he
      exact hop t rfl
    · exact h.pool he
  · rw [hnext]
    refine ⟨h.indexed, h.pool, ?_⟩
    intro c hc t ht
    obtain ⟨picked, -, htxns, hsub, -⟩ := buildCandidate_txns h.indexed s.shared.node.chain.state
      minerAddr s.shared.node.chain.height s.shared.node.chain.tipHash
      s.shared.node.chain.tip.header.timestamp now_s
    obtain rfl := Option.some.inj hc
    have htail : t ∈ picked := by
      have hlist := congrArg List.tail htxns
      rw [List.tail_cons] at hlist
      rw [← hlist]
      exact ht
    exact h.queue (hsub.subset htail)
  · constructor
    · rw [hmp]
      exact h.indexed.evictIncluded evicted
    · intro id e he
      rw [hmp] at he
      exact h.pool (Mempool.byTxid_of_evictIncluded he)
    · exact fun hc => h.candidate (hflight _ hc)

/-- A step keeps the blocks and every entry of the pool, or it commits a block and
evicts presented transactions of that block. -/
theorem Miner.Sourced.apply_cases (h : s.Sourced P) (op : MinerOp) :
    ((op.apply s).shared.node.chain = s.shared.node.chain ∧
        ∀ {id : Digest32} {e : MempoolEntry}, s.shared.mp.byTxid[id]? = some e →
          (op.apply s).shared.mp.byTxid[id]? = some e) ∨
      ∃ b evicted, (op.apply s).shared.node.chain.blocks = s.shared.node.chain.blocks ++ [b] ∧
        (op.apply s).shared.mp = s.shared.mp.evictIncluded evicted ∧
        ∀ t ∈ evicted, t ∈ b.txns ∧ P t := by
  rcases op.apply_cases s with ⟨hsame, -⟩ | ⟨t, -, hadmits, hnext⟩ | ⟨minerAddr, now_s, hnext⟩ |
    ⟨b, evicted, hblocks, hmp, -, hincluded, hsource⟩
  · left
    rw [hsame]
    exact ⟨rfl, fun he => he⟩
  · left
    rw [hnext]
    refine ⟨rfl, fun {id e} he => ?_⟩
    rw [Mempool.accept, OrderedMap.getElem?_insert, if_neg (hadmits.id_ne he)]
    exact he
  · left
    rw [hnext]
    exact ⟨rfl, fun he => he⟩
  · refine .inr ⟨b, evicted, hblocks, hmp, fun t ht => ⟨hincluded t ht, ?_⟩⟩
    rcases hsource with rfl | ⟨c, hc, rfl⟩
    · exact h.queue (s.shared.mp.batch_sublist.subset ht)
    · exact h.candidate hc t ht

/-- A pending transaction stays pending, or the step commits a block that holds it. -/
theorem Miner.Sourced.leaves (h : s.Sourced P)
    (hids : ∀ t t', P t → P t' → txid t = txid t' → t = t')
    (op : MinerOp) {t : Txn} (ht : s.Pending t) :
    (op.apply s).Pending t ∨
      ∃ b, (op.apply s).shared.node.chain.blocks = s.shared.node.chain.blocks ++ [b] ∧
        t ∈ b.txns := by
  obtain ⟨e, he, rfl⟩ := ht
  rcases h.apply_cases op with ⟨-, hkeeps⟩ | ⟨b, evicted, hblocks, hmp, hevicted⟩
  · exact .inl ⟨e, hkeeps he, rfl⟩
  · by_cases hgone : txid e.txn ∈ evicted.map txid
    · right
      obtain ⟨t', ht', hid⟩ := List.mem_map.mp hgone
      obtain rfl := hids t' e.txn (hevicted t' ht').2 (h.pool he) hid
      exact ⟨b, hblocks, (hevicted _ ht').1⟩
    · left
      refine ⟨e, ?_, rfl⟩
      rw [hmp, Mempool.evictIncluded_byTxid, if_neg hgone]
      exact he

/-- A committed transaction stays committed. -/
theorem Miner.Sourced.stays (h : s.Sourced P) (op : MinerOp) {t : Txn} (ht : s.Committed t) :
    (op.apply s).Committed t := by
  obtain ⟨b, hb, htb⟩ := ht
  refine ⟨b, ?_, htb⟩
  rcases h.apply_cases op with ⟨hsame, -⟩ | ⟨b', -, hblocks, -, -⟩
  · rw [hsame]
    exact hb
  · rw [hblocks]
    exact List.mem_append_left _ hb

/-! ### All interleavings -/

/-- The state after a sequence of steps. -/
def runMiner [Picojson] (cfg : NodeConfig) (now_s : UInt64) (fs : FileSystem) (io : AppendOutcome)
    (cap : ℕ) (ops : List MinerOp) : Miner :=
  ops.foldl MinerOp.apply (Miner.start cfg now_s fs io cap)

omit [Crypto] in
theorem mem_presented {t : Txn} (h : MinerOp.admitTxn t ∈ ops) : t ∈ presented ops :=
  List.mem_filterMap.mpr ⟨_, h, rfl⟩

/-- In the states of a run the pool holds what the run presents. -/
theorem Miner.Sourced.scanl (h : s.Sourced P) (hops : ∀ t, MinerOp.admitTxn t ∈ ops → P t) :
    ∀ s' ∈ ops.scanl MinerOp.apply s, s'.Sourced P := by
  refine Run.invariant_mem (J := fun s : Miner => s.Sourced P) ?_ h
  intro s op hop hs
  apply hs.apply
  rintro t rfl
  exact hops t hop

/-- An accepted admission leaves the transaction pending. -/
theorem pending_of_admitTxn {t : Txn}
    (hok : (s.shared.mp.admitTxn s.shared.node.chain.account t).1 = .ok) :
    (MinerOp.apply s (.admitTxn t)).Pending t := by
  rcases s.shared.mp.admitTxn_cases s.shared.node.chain.account t with
    ⟨-, haccept⟩ | ⟨hrefused, -⟩
  · refine ⟨⟨t, txid t, s.shared.mp.nextSeq⟩, ?_, rfl⟩
    rw [MinerOp.apply, SealerOp.apply, haccept, Mempool.accept, OrderedMap.getElem?_insert,
      if_pos rfl]
  · exact absurd hok hrefused

/-- In every interleaving that presents no two transactions under one id, an admitted
transaction is pending or committed ever after, it leaves the pool only in the step
that commits a block with it, and a refused commit changes neither pool nor chain. -/
theorem no_accepted_transaction_lost [Picojson] (cfg : NodeConfig) (now₀ : UInt64)
    (fs : FileSystem) (io₀ : AppendOutcome) (cap : ℕ) (ops : List MinerOp)
    (hids : ∀ t ∈ presented ops, ∀ t' ∈ presented ops, txid t = txid t' → t = t') :
    (∀ pre t post, ops = pre ++ .admitTxn t :: post →
      let s := runMiner cfg now₀ fs io₀ cap pre
      (s.shared.mp.admitTxn s.shared.node.chain.account t).1 = .ok →
        ∀ s' ∈ post.scanl MinerOp.apply (MinerOp.apply s (.admitTxn t)),
          s'.Pending t ∨ s'.Committed t) ∧
    ∀ m ∈ Run.moves MinerOp.apply (Miner.start cfg now₀ fs io₀ cap) ops,
      (∀ t, m.1.Pending t → ¬(m.2.apply m.1).Pending t →
        ∃ b, (m.2.apply m.1).shared.node.chain.blocks = m.1.shared.node.chain.blocks ++ [b] ∧
          t ∈ b.txns) ∧
      (m.2.commits m.1 = some false →
        (m.2.apply m.1).shared.mp = m.1.shared.mp ∧
          (m.2.apply m.1).shared.node.chain = m.1.shared.node.chain) := by
  have hinj : ∀ t t', t ∈ presented ops → t' ∈ presented ops → txid t = txid t' → t = t' :=
    fun t t' ht ht' => hids t ht t' ht'
  have hstart := Miner.start_sourced (P := (· ∈ presented ops)) cfg now₀ fs io₀ cap
  constructor
  · intro pre t post hsplit s hok
    have hmem : ∀ op ∈ pre ++ .admitTxn t :: post, ∀ u, op = .admitTxn u → u ∈ presented ops := by
      rintro op hop u rfl
      rw [← hsplit] at hop
      exact mem_presented hop
    have hs : s.Sourced (· ∈ presented ops) := by
      apply List.foldlRecOn (motive := fun s : Miner => s.Sourced (· ∈ presented ops)) pre _ hstart
      intro _ h op hop
      exact h.apply (hmem op (List.mem_append_left _ hop))
    have hnext : (MinerOp.apply s (.admitTxn t)).Sourced (· ∈ presented ops) :=
      hs.apply (hmem _ (by simp))
    let K : Miner → Prop := fun s => s.Sourced (· ∈ presented ops) ∧ (s.Pending t ∨ s.Committed t)
    have hrun : ∀ s' ∈ post.scanl MinerOp.apply (MinerOp.apply s (.admitTxn t)), K s' := by
      refine Run.invariant_mem (J := K) ?_ ⟨hnext, .inl (pending_of_admitTxn hok)⟩
      rintro s' op hop ⟨hs', hwhere⟩
      refine ⟨hs'.apply (hmem op (by simp [hop])), ?_⟩
      rcases hwhere with hpending | hcommitted
      · rcases hs'.leaves hinj op hpending with hstill | ⟨b, hblocks, htb⟩
        · exact .inl hstill
        · exact .inr ⟨b, by rw [hblocks]; simp, htb⟩
      · exact .inr (hs'.stays op hcommitted)
    exact fun s' hs' => (hrun s' hs').2
  · intro m hm
    obtain ⟨hstate, -⟩ := Run.mem_of_moves hm
    have hs := hstart.scanl (fun t ht => mem_presented ht) m.1 hstate
    refine ⟨fun t hpending hgone => (hs.leaves hinj m.2 hpending).resolve_left hgone, ?_⟩
    intro hrefused
    rw [MinerOp.apply_refused hrefused]
    exact ⟨rfl, rfl⟩

end Miner

section Samples

attribute [local instance] sampleKeys

/-- A transfer admitted on a fresh datadir is pending, and committed after a drain. -/
theorem transfer_not_lost :
    letI := parserOf [genesisBlock]
    (runMiner {} genesisTimestamp (fun _ => none) .complete 4096 [.admitTxn payOliver]).Pending
        payOliver ∧
      (runMiner {} genesisTimestamp (fun _ => none) .complete 4096
        [.admitTxn payOliver, .drainSeal genesisTimestamp .complete]).Committed payOliver := by
  have hrun : ∀ [Picojson],
      (runMiner {} genesisTimestamp (fun _ => none) .complete 4096 [.admitTxn payOliver]).Pending
          payOliver ∧
        (runMiner {} genesisTimestamp (fun _ => none) .complete 4096
          [.admitTxn payOliver, .drainSeal genesisTimestamp .complete]).Committed payOliver := by
    intro parser
    obtain ⟨hstart, hchain, hbatch⟩ := waitingSealer_eq
    have hok : (({ cap := 4096 } : Mempool).admitTxn
        (Sealer.start {} genesisTimestamp (fun _ => none) .complete 4096).node.chain.account
          payOliver).1 = .ok := by
      rw [hstart, Mempool.admitTxn_ok (payOliver_admits_first 0 0)]
    have hids : ∀ t ∈ presented [.admitTxn payOliver, .drainSeal genesisTimestamp .complete],
        ∀ t' ∈ presented [.admitTxn payOliver, .drainSeal genesisTimestamp .complete],
          txid t = txid t' → t = t' := by
      intro t ht t' ht' _
      rw [List.mem_singleton.mp ht, List.mem_singleton.mp ht']
    have hwhere := (no_accepted_transaction_lost {} genesisTimestamp (fun _ => none) .complete 4096
      [.admitTxn payOliver, .drainSeal genesisTimestamp .complete] hids).1 [] payOliver
      [.drainSeal genesisTimestamp .complete] rfl hok
    constructor
    · -- the chain is still the empty genesis block
      refine (hwhere _ List.mem_cons_self).resolve_right ?_
      rintro ⟨b, hb, ht⟩
      have hgenesis : waitingSealer.node.chain.blocks = [genesisBlock] := by rw [hchain]; rfl
      obtain rfl := List.mem_singleton.mp (hgenesis ▸ hb)
      exact absurd ht List.not_mem_nil
    · -- the drain has evicted it
      refine (hwhere _ (List.mem_cons_of_mem _ (List.mem_singleton_self _))).resolve_left ?_
      rintro ⟨e, he, -⟩
      have hevicted := (Sealer.drainSeal_ok waitingSealer_drains).2
      rw [hbatch] at hevicted
      have hgone : (waitingSealer.drainSeal genesisTimestamp .complete).2.mp.byTxid[txid
          payOliver]? = none := by
        rw [hevicted, Mempool.evictIncluded_byTxid, if_pos (by simp)]
      exact absurd (hgone.symm.trans he) (by simp)
  exact @hrun (parserOf [genesisBlock])

end Samples

end TxChain
