import TxChain.Node.Waiting
import TxChain.Pow.Selection

/-!
# How long a transaction waits to be mined

The mining thread copies the front of the pool into a candidate and commits it later, when
the pool may have grown behind it. With the rewards on a block has room for one transfer
less. No candidate leaves out what it could hold, so a transaction waits for the blocks that
the transfers in front of it fill, and one more, counted from the next candidate on.
-/

namespace TxChain

open BatchQueue

/-- What the process does in mining mode: it never drains. -/
def MinerOp.Pow : MinerOp → Prop
  | .drainSeal _ _ => False
  | _ => True

section Rounds

variable [Crypto] {P : Txn → Prop} {cap n : ℕ} {m : Miner}

def Miner.queue (m : Miner) : List Txn := m.shared.queue

/-- The transfers of the candidate. -/
def Miner.batch (m : Miner) : Option (List Txn) := m.inFlight.map fun c => c.txns.tail

def MinerOp.mines (m : Miner) (op : MinerOp) : Bool := op.commits m = some true

/-- How many blocks a run mines. -/
def mineCount (m : Miner) (ops : List MinerOp) : ℕ := batches MinerOp.apply MinerOp.mines m ops

/-- The balances of all accounts and one more reward fit a word together. -/
def Miner.Roomy (m : Miner) : Prop :=
  ∑ a, (m.shared.node.chain.account a).balance.toNat + coinbaseReward.toNat < 2 ^ 64

/-- The pool is a queue of transactions that are spendable at the tip, and the candidate holds
a reward and the front of that queue. -/
structure Miner.Mining (P : Txn → Prop) (cap n : ℕ) (m : Miner) : Prop where
  lined : m.shared.Lined P cap n
  reward : m.shared.node.chain.reward = coinbaseReward
  indexed : m.shared.mp.WellIndexed
  spendable : ∀ {id : Digest32} {e : MempoolEntry}, m.shared.mp.byTxid[id]? = some e →
    e.txn.Spendable (m.shared.node.chain.account e.txn.from)
  candidate : ∀ {c : Candidate}, m.inFlight = some c →
    (∃ minerAddr, c.txns = coinbaseTxn minerAddr c.hdr.index :: c.txns.tail) ∧
      c.txns.tail <+: m.queue

/-- What a step does to queue and candidate. -/
abbrev MinerOp.Serves (m : Miner) (op : MinerOp) : Prop :=
  Prepared Miner.queue Miner.batch Miner.Committed (maxTxnsPerBlock - 1) (op.mines m) m (op.apply m)

theorem Miner.start_mining [Picojson] {cfg : NodeConfig} (hD : 0 < cfg.difficulty) (now_s : UInt64)
    (fs : FileSystem) (io : AppendOutcome) : (Miner.start cfg now_s fs io cap).Mining P cap 0 where
  lined := Sealer.start_lined cfg now_s fs io
  reward := (Node.boot_configured cfg now_s fs io).reward.trans (if_pos hD)
  indexed := Mempool.wellIndexed_empty cap
  spendable h := by simp [Miner.start, Sealer.start] at h
  candidate h := nomatch h

/-- An entry stands for each transaction of the queue. -/
theorem Miner.Mining.entry (h : m.Mining P cap n) {t : Txn} (ht : t ∈ m.queue) :
    ∃ e, m.shared.mp.byTxid[txid t]? = some e ∧ e.txn = t := by
  obtain ⟨e, he, rfl⟩ := List.mem_map.mp ht
  obtain ⟨id, hid⟩ := Mempool.mem_sortedBySeq he
  refine ⟨e, ?_, rfl⟩
  rw [(h.indexed.pending hid).content]
  exact hid

/-! ### Admission and snapshot -/

theorem MinerOp.admitTxn_node (m : Miner) (t : Txn) :
    (MinerOp.apply m (.admitTxn t)).shared.node = m.shared.node := rfl

theorem MinerOp.snapshot_shared (m : Miner) (minerAddr : Address) (now_s : UInt64) :
    (MinerOp.apply m (.snapshot minerAddr now_s)).shared = m.shared := rfl

theorem MinerOp.commitMined_eq (m : Miner) (timestamp nonce now_s : UInt64) (io : AppendOutcome) :
    MinerOp.apply m (.commitMined timestamp nonce now_s io) =
      (m.commitMined timestamp nonce now_s io).2 := rfl

theorem MinerOp.admitTxn_mp (m : Miner) (t : Txn) :
    (MinerOp.apply m (.admitTxn t)).shared.mp =
      (m.shared.mp.admitTxn m.shared.node.chain.account t).2 := rfl

theorem Miner.Mining.spendable_admitTxn (h : m.Mining P cap n) (t : Txn) {id : Digest32}
    {e : MempoolEntry} (he : (MinerOp.apply m (.admitTxn t)).shared.mp.byTxid[id]? = some e) :
    e.txn.Spendable (m.shared.node.chain.account e.txn.from) := by
  rw [MinerOp.apply, SealerOp.apply] at he
  obtain ⟨hadmits, hok⟩ | ⟨-, hsame⟩ := m.shared.mp.admitTxn_cases m.shared.node.chain.account t
  · rw [hok, Mempool.accept, OrderedMap.getElem?_insert] at he
    split_ifs at he with hnew
    · obtain rfl := Option.some.inj he
      exact hadmits.spendable
    · exact h.spendable he
  · rw [hsame] at he
    exact h.spendable he

theorem Miner.Mining.admitTxn (h : m.Mining P cap n) (hn : n < 2 ^ 64)
    (hids : ∀ t t', P t → P t' → txid t = txid t' → t = t') {t : Txn} (ht : P t) :
    (MinerOp.apply m (.admitTxn t)).Mining P cap (n + 1) ∧ MinerOp.Serves m (.admitTxn t) := by
  obtain ⟨hlined, hserved⟩ := h.lined.apply hn hids (.admitTxn t) fun u hu => by cases hu; exact ht
  have hqueue : m.queue <+: (MinerOp.apply m (.admitTxn t)).queue := hserved.idle rfl
  refine ⟨⟨hlined, h.reward, h.indexed.admitTxn _ t, h.spendable_admitTxn t, fun hc => ?_⟩,
    ⟨fun _ hu => hu, fun _ => ⟨hqueue, .inl rfl⟩, nofun⟩⟩
  obtain ⟨hreward, hfront⟩ := h.candidate hc
  exact ⟨hreward, hfront.trans hqueue⟩

/-- A candidate takes as much of the queue as a block holds beside the reward. -/
theorem Miner.Mining.snapshot_txns (h : m.Mining P cap n) (hroom : m.Roomy) (minerAddr : Address)
    (now_s : UInt64) :
    (buildCandidate minerAddr m.shared.node.chain.height m.shared.node.chain.tipHash
        m.shared.node.chain.tip.header.timestamp now_s m.shared.mp
          m.shared.node.chain.account).txns =
      coinbaseTxn minerAddr (m.shared.node.chain.height + 1) ::
        m.queue.take (maxTxnsPerBlock - 1) := by
  refine buildCandidate_full h.indexed (fun t ht => ?_) hroom _ _ _ _ _
  obtain ⟨e, he, rfl⟩ := h.entry ht
  exact h.spendable he

theorem Miner.Mining.snapshot (h : m.Mining P cap n) (hroom : m.Roomy) (minerAddr : Address)
    (now_s : UInt64) :
    (MinerOp.apply m (.snapshot minerAddr now_s)).Mining P cap n ∧
      (MinerOp.apply m (.snapshot minerAddr now_s)).batch =
        some (m.queue.take (maxTxnsPerBlock - 1)) := by
  have htxns := h.snapshot_txns hroom minerAddr now_s
  constructor
  · refine ⟨h.lined, h.reward, h.indexed, h.spendable, fun hc => ?_⟩
    obtain rfl := Option.some.inj hc
    rw [htxns]
    exact ⟨⟨minerAddr, rfl⟩, List.take_prefix _ _⟩
  · show some (buildCandidate _ _ _ _ _ _ _).txns.tail = _
    rw [htxns]
    rfl

/-! ### A mined block -/

/-- The accounts that sent nothing in a mined block keep what they had. -/
theorem Miner.Mining.keeps (h : m.Mining P cap n) (hroom : m.Roomy) {c : Candidate}
    (hc : m.inFlight = some c) {timestamp nonce now_s : UInt64} {chain : Chain}
    (hcommit : m.shared.node.chain.Commits
      { header := { c.hdr with timestamp, nonce }, txns := c.txns } now_s chain) {a : Address}
    (ha : a ∉ c.txns.tail.map Txn.from) :
    (m.shared.node.chain.account a).Keeps (chain.account a) := by
  obtain ⟨⟨minerAddr, htxns⟩, hfront⟩ := h.candidate hc
  let credited := m.shared.node.chain.state.credit minerAddr coinbaseReward
  have hentry : ∀ t ∈ c.txns.tail, ∃ e, m.shared.mp.byTxid[txid t]? = some e ∧ e.txn = t :=
    fun t ht => h.entry (hfront.subset ht)
  have hauth : ∀ t ∈ c.txns.tail, t.Authentic := by
    intro t ht
    obtain ⟨e, he, rfl⟩ := hentry t ht
    exact (h.indexed.pending he).authentic
  have hspend : ∀ t ∈ c.txns.tail, t.Spendable (credited.lookup t.from) := by
    intro t ht
    obtain ⟨e, he, rfl⟩ := hentry t ht
    exact (h.spendable he).mono (AccountMap.keeps_credit hroom _ _)
  have hsenders : (c.txns.tail.map Txn.from).Nodup := by
    have hqueue := h.indexed.senders_nodup
    have hsub := hfront.sublist.map Txn.from
    rw [Miner.queue, Sealer.queue, List.map_map] at hsub
    exact hqueue.sublist hsub
  -- the gate runs the reward and then the batch
  have hrun := runTxns_of_applyBlockTxns hcommit.applied
  dsimp only at hrun
  rw [← hcommit.state, htxns, runTxns_cons,
    applyTxn_coinbase (coinbaseTxn_isCoinbaseAt minerAddr _), runTxns_signed hauth] at hrun
  obtain ⟨state, hbatch, hkeeps⟩ := spend_batch hsenders (fun t _ => Finset.mem_univ t.from) hspend
    ((m.shared.node.chain.state.holdings_credit_le minerAddr coinbaseReward).trans_lt hroom)
  have hstate : chain.state = state := Option.some.inj (hrun.2.symm.trans hbatch)
  rw [Chain.account, Chain.account, hstate]
  exact (AccountMap.keeps_credit hroom minerAddr a).trans (hkeeps a (Finset.mem_univ a) ha)

/-- What is left in the pool has senders that the block does not name. -/
theorem Miner.Mining.sender_not_mem (h : m.Mining P cap n) {txns : List Txn}
    (hfront : txns <+: m.queue)
    {id : Digest32} {e : MempoolEntry} (he : m.shared.mp.byTxid[id]? = some e)
    (hleft : id ∉ txns.map txid) : e.txn.from ∉ txns.map Txn.from := by
  intro hmem
  obtain ⟨t, ht, hfrom⟩ := List.mem_map.mp hmem
  obtain ⟨e', he', rfl⟩ := h.entry (hfront.subset ht)
  refine h.indexed.sender_ne he' he ?_ hfrom
  rintro rfl
  exact hleft (List.mem_map_of_mem ht)

/-- A step that leaves node and pool alone ends the search at most. -/
theorem Miner.Mining.idle {m' : Miner} (h : m.Mining P cap n) (hsame : m'.shared = m.shared)
    (hflight : ∀ c, m'.inFlight = some c → m.inFlight = some c) :
    m'.Mining P cap n ∧
      Prepared Miner.queue Miner.batch Miner.Committed (maxTxnsPerBlock - 1) false m m' := by
  have hqueue : m'.queue = m.queue := congrArg Sealer.queue hsame
  constructor
  · exact {
      lined := hsame ▸ h.lined
      reward := by rw [hsame]; exact h.reward
      indexed := by rw [hsame]; exact h.indexed
      spendable := by rw [hsame]; exact h.spendable
      candidate := by rw [hqueue]; exact fun hc => h.candidate (hflight _ hc) }
  · refine ⟨fun t ht => ?_, fun _ => ⟨by rw [hqueue], ?_⟩, nofun⟩
    · rw [Miner.Committed, hsame]
      exact ht
    · cases hnext : m'.inFlight with
      | none =>
          rw [Miner.batch, hnext]
          exact .inr (.inl rfl)
      | some c =>
          rw [Miner.batch, Miner.batch, hnext, hflight c hnext]
          exact .inl rfl

/-- A mined block takes its transfers from the front of the queue. -/
theorem Miner.Mining.mined {m' : Miner} (h : m.Mining P cap n) (hroom : m.Roomy) (hn : n ≤ 2 ^ 64)
    (hids : ∀ t t', P t → P t' → txid t = txid t' → t = t')
    {c : Candidate} (hc : m.inFlight = some c)
    {timestamp nonce now_s : UInt64}
    (hcommit : m.shared.node.chain.Commits
      { header := { c.hdr with timestamp, nonce }, txns := c.txns } now_s m'.shared.node.chain)
    (hmp : m'.shared.mp = m.shared.mp.evictIncluded c.txns.tail) (hnone : m'.inFlight = none) :
    m'.Mining P cap n ∧
      Prepared Miner.queue Miner.batch Miner.Committed (maxTxnsPerBlock - 1) true m m' := by
  obtain ⟨-, hfront⟩ := h.candidate hc
  obtain ⟨entries, k, hk, hqueued⟩ := h.lined
  have hqueue : m.queue = entries.map MempoolEntry.txn := queue_of_queued hqueued (hk.trans hn)
  obtain ⟨left, hleft, hrest⟩ := queued_evict_front hqueued hids c.txns.tail.length
  rw [← hqueue, ← List.prefix_iff_eq_take.mp hfront, ← hmp] at hleft
  have hqueue' : m'.queue = left.map MempoolEntry.txn := queue_of_queued hleft (hk.trans hn)
  constructor
  · refine ⟨⟨left, k, hk, hleft⟩, hcommit.reward.trans h.reward, ?_, fun he => ?_, fun hc' => ?_⟩
    · rw [hmp]
      exact h.indexed.evictIncluded _
    · rw [hmp, Mempool.evictIncluded_byTxid] at he
      split_ifs at he with hgone
      exact (h.spendable he).mono (h.keeps hroom hc hcommit (h.sender_not_mem hfront he hgone))
    · rw [hnone] at hc'
      cases hc'
  · refine ⟨fun t ht => ?_, nofun, fun _ => ⟨c.txns.tail, ?_, ?_, ?_, fun t ht => ?_⟩⟩
    · obtain ⟨b, hb, htb⟩ := ht
      exact ⟨b, by rw [hcommit.blocks]; exact List.mem_append_left _ hb, htb⟩
    · rw [Miner.batch, hc]
      rfl
    · rw [Miner.batch, hnone]
      rfl
    · rw [hqueue', hrest, hqueue]
    · exact ⟨_, by rw [hcommit.blocks]; exact List.mem_append_right _ (List.mem_singleton_self _),
        List.mem_of_mem_tail ht⟩

theorem Miner.Mining.commitMined (h : m.Mining P cap n) (hroom : m.Roomy) (hn : n ≤ 2 ^ 64)
    (hids : ∀ t t', P t → P t' → txid t = txid t' → t = t') (timestamp nonce now_s : UInt64)
    (io : AppendOutcome) :
    (MinerOp.apply m (.commitMined timestamp nonce now_s io)).Mining P cap n ∧
      MinerOp.Serves m (.commitMined timestamp nonce now_s io) := by
  obtain ⟨hidle, hsame, hflight⟩ | ⟨c, b, hc, hbtxns, hok, -, hmp, hnone⟩ :=
    m.commitMined_cases timestamp nonce now_s io
  · have hmines : MinerOp.mines m (.commitMined timestamp nonce now_s io) = false := by
      rw [MinerOp.mines, MinerOp.commits, hidle]
      rfl
    rw [MinerOp.Serves, hmines]
    exact h.idle hsame hflight
  · have hmines : MinerOp.mines m (.commitMined timestamp nonce now_s io) = true := by
      rw [MinerOp.mines, MinerOp.commits, hok]
      rfl
    obtain ⟨c', hc', hcommit⟩ := Miner.commitMined_ok hok
    obtain rfl := Option.some.inj (hc.symm.trans hc')
    rw [hbtxns] at hmp
    rw [MinerOp.Serves, hmines]
    exact h.mined hroom hn hids hc hcommit hmp hnone

/-! ### Runs -/

theorem Miner.Mining.mono {n' : ℕ} (h : m.Mining P cap n) (hle : n ≤ n') : m.Mining P cap n' := by
  obtain ⟨entries, k, hk, hqueued⟩ := h.lined
  exact { h with lined := ⟨entries, k, hk.trans hle, hqueued⟩ }

theorem Miner.Mining.apply (h : m.Mining P cap n) (hroom : m.Roomy) (hn : n < 2 ^ 64)
    (hids : ∀ t t', P t → P t' → txid t = txid t' → t = t') (op : MinerOp) (hpow : op.Pow)
    (hop : ∀ t, op = .admitTxn t → P t) :
    (op.apply m).Mining P cap (n + 1) ∧ MinerOp.Serves m op := by
  cases op with
  | admitTxn t => exact h.admitTxn hn hids (hop t rfl)
  | drainSeal now_s io => exact hpow.elim
  | snapshot minerAddr now_s =>
      obtain ⟨hnext, hbatch⟩ := h.snapshot hroom minerAddr now_s
      exact ⟨hnext.mono n.le_succ,
        ⟨fun _ ht => ht, fun _ => ⟨List.prefix_rfl, .inr (.inr hbatch)⟩, nofun⟩⟩
  | commitMined timestamp nonce now_s io =>
      obtain ⟨hnext, hserves⟩ := h.commitMined hroom hn.le hids timestamp nonce now_s io
      exact ⟨hnext.mono n.le_succ, hserves⟩

theorem Miner.Mining.run (h : m.Mining P cap n)
    (hids : ∀ t t', P t → P t' → txid t = txid t' → t = t') (ops : List MinerOp)
    (hn : n + ops.length ≤ 2 ^ 64) (hpow : ∀ op ∈ ops, op.Pow)
    (hops : ∀ t, MinerOp.admitTxn t ∈ ops → P t)
    (hroom : ∀ m' ∈ ops.scanl MinerOp.apply m, m'.Roomy) :
    (ops.foldl MinerOp.apply m).Mining P cap (n + ops.length) ∧
      ∀ move ∈ Run.moves MinerOp.apply m ops, MinerOp.Serves move.1 move.2 := by
  induction ops generalizing m n with
  | nil => exact ⟨h, by simp [Run.moves]⟩
  | cons op ops ih =>
      rw [List.length_cons] at hn ⊢
      rw [List.scanl_cons, List.forall_mem_cons] at hroom
      obtain ⟨hnow, hlater⟩ := hroom
      obtain ⟨hfirst, hrest⟩ := List.forall_mem_cons.mp hpow
      obtain ⟨hnext, hserves⟩ := h.apply hnow (by omega) hids op hfirst fun t ht =>
        hops t (by simp [ht])
      obtain ⟨hlast, hmoves⟩ := ih hnext (by omega) hrest
        (fun t ht => hops t (List.mem_cons_of_mem _ ht)) hlater
      refine ⟨?_, List.forall_mem_cons.mpr ⟨hserves, hmoves⟩⟩
      have hcount : n + (ops.length + 1) = n + 1 + ops.length := by omega
      rw [hcount]
      exact hlast

/-- A transaction at the end of the queue, from the next candidate on. -/
theorem Miner.Mining.waits (h : m.Mining P cap n)
    (hids : ∀ t t', P t → P t' → txid t = txid t' → t = t') (mid post : List MinerOp)
    (minerAddr : Address) (now_s : UInt64) (hn : n + (mid.length + post.length) ≤ 2 ^ 64)
    (hpow : ∀ op ∈ mid ++ post, op.Pow) (hops : ∀ u, MinerOp.admitTxn u ∈ mid ++ post → P u)
    (hroom : ∀ m' ∈ (mid ++ .snapshot minerAddr now_s :: post).scanl MinerOp.apply m, m'.Roomy)
    {front : List Txn} {t : Txn} (hwaits : m.queue = front ++ t :: []) :
    let started := MinerOp.apply (mid.foldl MinerOp.apply m) (.snapshot minerAddr now_s)
    front.length < (maxTxnsPerBlock - 1) * mineCount started post →
      (post.foldl MinerOp.apply started).Committed t := by
  intro started hcount
  have hroomMid := fun m' h => hroom m' (Run.mem_scanl_append (.inl h))
  have hroomBuilt := fun m' h => hroom m' (Run.mem_scanl_append (.inr h))
  rw [List.scanl_cons, List.forall_mem_cons] at hroomBuilt
  obtain ⟨hlater, hmid⟩ := h.run hids mid (by omega)
    (fun op hop => hpow op (List.mem_append_left _ hop))
    (fun u hu => hops u (List.mem_append_left _ hu)) hroomMid
  obtain ⟨hbuilt, hbatch⟩ := hlater.snapshot hroomBuilt.1 minerAddr now_s
  obtain ⟨-, hpost⟩ := hbuilt.run hids post (by omega)
    (fun op hop => hpow op (List.mem_append_right _ hop))
    (fun u hu => hops u (List.mem_append_right _ hu)) hroomBuilt.2
  have hfront : ∀ b, m.batch = some b → b <+: m.queue := by
    intro b hb
    obtain ⟨c, hc, rfl⟩ := Option.map_eq_some_iff.mp hb
    exact (h.candidate hc).2
  obtain hdone | ⟨front', back, hstill, hle⟩ := waits_or_done hmid hwaits hfront
  · exact done_stays (fun move hmove => (hpost move hmove).stays) hdone
  · have hlong : front'.length < (mid.foldl MinerOp.apply m).queue.length := by
      rw [hstill]
      simp
    have hcovers := covers_take hlong (maxTxnsPerBlock - 1)
    rw [← hbatch] at hcovers
    exact done_of_prepared hpost hstill hcovers (hle.trans_lt hcount)

/-- In mining mode, whatever is admitted in between and however often a search ends in vain, a
transaction that is admitted behind `k` others is committed once `k / 7 + 1` blocks have been
mined since the next candidate was built. -/
theorem mined_transaction_waits [Picojson] {cfg : NodeConfig} (hD : 0 < cfg.difficulty)
    (now₀ : UInt64) (fs : FileSystem) (io₀ : AppendOutcome) (cap : ℕ)
    (pre mid post : List MinerOp) (t : Txn) (minerAddr : Address) (now_s : UInt64)
    {ops : List MinerOp}
    (hops : ops = pre ++ .admitTxn t :: (mid ++ .snapshot minerAddr now_s :: post))
    (hpow : ∀ op ∈ ops, op.Pow) (hlength : ops.length ≤ 2 ^ 64)
    (hids : ∀ u ∈ presented ops, ∀ v ∈ presented ops, txid u = txid v → u = v)
    (hroom : ∀ m ∈ ops.scanl MinerOp.apply (Miner.start cfg now₀ fs io₀ cap), m.Roomy) :
    let m := runMiner cfg now₀ fs io₀ cap pre
    let started := MinerOp.apply (mid.foldl MinerOp.apply (MinerOp.apply m (.admitTxn t)))
      (.snapshot minerAddr now_s)
    (m.shared.mp.admitTxn m.shared.node.chain.account t).1 = .ok →
      m.shared.mp.byTxid.size < (maxTxnsPerBlock - 1) * mineCount started post →
        (runMiner cfg now₀ fs io₀ cap ops).Committed t := by
  intro m started hok hcount
  let P : Txn → Prop := (· ∈ presented ops)
  have hinj : ∀ u v, P u → P v → txid u = txid v → u = v := fun u v hu hv => hids u hu v hv
  have hmem : ∀ u, MinerOp.admitTxn u ∈ ops → P u := fun u hu => mem_presented hu
  have hend : runMiner cfg now₀ fs io₀ cap ops = post.foldl MinerOp.apply started := by
    simp only [started, m, runMiner, hops, List.foldl_append, List.foldl_cons]
  have hparts : ∀ op, op ∈ pre ∨ op = .admitTxn t ∨ op ∈ mid ++ post → op ∈ ops := by
    rintro op (hop | rfl | hop)
    · simp [hops, hop]
    · simp [hops]
    · obtain hop | hop := List.mem_append.mp hop
      · simp [hops, hop]
      · simp [hops, hop]
  have hsizes : pre.length + 1 + (mid.length + post.length) ≤ 2 ^ 64 := by
    simp only [hops, List.length_append, List.length_cons] at hlength
    omega
  rw [hops] at hroom
  have hroomPre := fun m' h => hroom m' (Run.mem_scanl_append (.inl h))
  have hroomAdmit := fun m' h => hroom m' (Run.mem_scanl_append (.inr h))
  rw [List.scanl_cons, List.forall_mem_cons] at hroomAdmit
  have hstart : (Miner.start cfg now₀ fs io₀ cap).Mining P cap 0 :=
    Miner.start_mining hD now₀ fs io₀
  obtain ⟨hbefore, -⟩ := hstart.run hinj pre (by omega)
    (fun op hop => hpow op (hparts op (.inl hop)))
    (fun u hu => hmem u (hparts _ (.inl hu))) hroomPre
  rw [Nat.zero_add] at hbefore
  obtain ⟨hadmitted, -⟩ := hbefore.apply hroomAdmit.1 (by omega) hinj (.admitTxn t) trivial
    fun u hu => hmem u (hparts _ (.inr (.inl hu.symm)))
  -- the transaction stands behind the entries of the pool
  obtain ⟨entries, k, hk, hqueued⟩ := hbefore.lined
  have hsize : m.queue.length = m.shared.mp.byTxid.size := by
    have hqueue : m.queue = entries.map MempoolEntry.txn := queue_of_queued hqueued (by omega)
    rw [hqueue, List.length_map]
    exact hqueued.size.symm
  have hjoined : (MinerOp.apply m (.admitTxn t)).queue = m.queue ++ t :: [] :=
    Sealer.admit_joins hqueued (by omega) (hmem t (hparts _ (.inr (.inl rfl)))) hok
  rw [hend]
  exact hadmitted.waits hinj mid post minerAddr now_s hsizes
    (fun op hop => hpow op (hparts op (.inr (.inr hop))))
    (fun u hu => hmem u (hparts _ (.inr (.inr hu)))) hroomAdmit.2 hjoined (hsize ▸ hcount)

end Rounds

section Samples

attribute [local instance] sampleKeys

/-- The first block at difficulty 1, mined by oliver, who pays and is paid in it. -/
def payBlock : Block where
  header :=
    { index := 1
      timestamp := genesisTimestamp + 1
      prevHash := genesisBlock.header.hash
      txnsHash := txnsHash [coinbaseTxn oliver 1, payRacheal, payOliver]
      nonce := 0 }
  txns := [coinbaseTxn oliver 1, payRacheal, payOliver]

theorem payBlock_work : meetsDifficulty payBlock.header.hash 1 = true := by decide +kernel

/-- The ledger behind it. -/
def paidState : AccountMap :=
  ((applyGenesis.credit oliver coinbaseReward).transfer payRacheal).transfer payOliver

theorem paidState_total : paidState.total + coinbaseReward.toNat < 2 ^ 64 := by decide +kernel

theorem payBlock_applied :
    (applyBlockTxns applyGenesis payBlock coinbaseReward).1.reason = .ok ∧
      (applyBlockTxns applyGenesis payBlock coinbaseReward).2 = paidState := by
  have hauth : ∀ t ∈ [payRacheal, payOliver], t.Authentic := by
    intro t ht
    rcases List.mem_pair.mp ht with rfl | rfl <;>
      exact signedSamples_authentic _ (by simp [signedSamples])
  have hcoinbase := coinbaseTxn_isCoinbaseAt oliver 1
  have hfirst : payRacheal.Spendable
      ((applyGenesis.credit oliver coinbaseReward).lookup payRacheal.from) :=
    ⟨by decide, by decide⟩
  have hsecond : payOliver.Spendable
      (((applyGenesis.credit oliver coinbaseReward).transfer payRacheal).lookup payOliver.from) :=
    ⟨by decide, by decide⟩
  apply applyBlockTxns_iff.mpr
  show runTxns 1 0 applyGenesis [coinbaseTxn oliver 1, payRacheal, payOliver] = _ ∧ _
  rw [runTxns_cons, applyTxn_coinbase hcoinbase, runTxns_signed hauth, List.foldlM_cons]
  refine ⟨⟨rfl, ?_⟩, fun _ => ⟨coinbaseTxn oliver 1, by simp [payBlock], hcoinbase.sender⟩⟩
  show (spend (applyGenesis.credit oliver coinbaseReward) payRacheal >>= _) = _
  rw [spend_eq hfirst, Option.bind_eq_bind, Option.bind_some, List.foldlM_cons, spend_eq hsecond]
  rfl

/-- It connects to a fresh chain that pays rewards. -/
theorem payBlock_commits :
    ((Chain.new 1 coinbaseReward).connectBlock payBlock genesisTimestamp).1 = .ok ∧
      ((Chain.new 1 coinbaseReward).connectBlock payBlock genesisTimestamp).2.state =
        paidState := by
  have hlater : genesisTimestamp < genesisTimestamp + 1 := by decide
  have hskew : genesisTimestamp + 1 ≤ genesisTimestamp + maxClockSkewS := by decide
  have hheight : (Chain.new 1 coinbaseReward).height + 1 = 1 := rfl
  have htip : (Chain.new 1 coinbaseReward).tip = genesisBlock := rfl
  have hstate : (Chain.new 1 coinbaseReward).state = applyGenesis := rfl
  have hreward : (Chain.new 1 coinbaseReward).reward = coinbaseReward := rfl
  have hlinks : LinksTo ((Chain.new 1 coinbaseReward).height + 1)
      (Chain.new 1 coinbaseReward).tipHash
      (Chain.new 1 coinbaseReward).tip.header.timestamp genesisTimestamp
        (Chain.new 1 coinbaseReward).difficulty payBlock := by
    rw [hheight, Chain.tipHash, htip]
    exact ⟨rfl, rfl, hlater, hskew, payBlock_work, rfl, by decide⟩
  have happlied : (applyBlockTxns (Chain.new 1 coinbaseReward).state payBlock
      (Chain.new 1 coinbaseReward).reward) =
        applyBlockTxns applyGenesis payBlock coinbaseReward := by
    rw [hstate, hreward]
  have hok : ((Chain.new 1 coinbaseReward).connectBlock payBlock genesisTimestamp).1 = .ok := by
    refine Chain.connectBlock_ok_iff.mpr ⟨hlinks, ?_⟩
    rw [happlied]
    exact payBlock_applied.1
  refine ⟨hok, (Chain.connectBlock_ok hok).state.trans ?_⟩
  rw [happlied]
  exact payBlock_applied.2

/-- A fresh process in mining mode. -/
def miningStart [Picojson] : Miner :=
  Miner.start { difficulty := 1 } genesisTimestamp (fun _ => none) .complete 4096

theorem miningStart_chain [Picojson] :
    miningStart.shared.node.chain = Chain.new 1 coinbaseReward := by
  have hfresh : Fresh { difficulty := 1 } fun _ => none := rfl
  show (Node.boot { difficulty := 1 } genesisTimestamp (fun _ => none) .complete).2.1.chain = _
  rw [boot_fresh hfresh]
  rfl

/-- The process once one transfer waits in the pool, once another waits behind it, and once a
candidate is built. -/
def occupied [Picojson] : Miner := MinerOp.apply miningStart (.admitTxn payRacheal)

def paying [Picojson] : Miner := MinerOp.apply occupied (.admitTxn payOliver)

def searching [Picojson] : Miner := MinerOp.apply paying (.snapshot oliver genesisTimestamp)

theorem miningStart_admits [Picojson] :
    (miningStart.shared.mp.admitTxn miningStart.shared.node.chain.account payRacheal) =
      (.ok, ({ cap := 4096 } : Mempool).accept payRacheal) := by
  rw [miningStart_chain]
  exact Mempool.admitTxn_ok (payRacheal_admits_first 1 coinbaseReward)

theorem occupied_chain [Picojson] : occupied.shared.node.chain = Chain.new 1 coinbaseReward := by
  rw [occupied, MinerOp.admitTxn_node, miningStart_chain]

theorem occupied_pool [Picojson] :
    occupied.shared.mp = ({ cap := 4096 } : Mempool).accept payRacheal := by
  rw [occupied, MinerOp.admitTxn_mp, miningStart_admits]

theorem occupied_size [Picojson] : occupied.shared.mp.byTxid.size = 1 := by
  rw [occupied_pool]
  rfl

theorem occupied_admits [Picojson] :
    (occupied.shared.mp.admitTxn occupied.shared.node.chain.account payOliver).1 = .ok := by
  rw [occupied_chain, occupied_pool]
  exact congrArg Prod.fst (Mempool.admitTxn_ok (payOliver_admits_behind 1 coinbaseReward))

theorem miningStart_roomy [Picojson] : miningStart.Roomy := by
  have htotal : (Chain.new 1 coinbaseReward).state.total = genesisSupply.toNat := applyGenesis_total
  rw [Miner.Roomy, Chain.sum_balances, miningStart_chain, htotal]
  decide

theorem paying_chain [Picojson] : paying.shared.node.chain = Chain.new 1 coinbaseReward := by
  rw [paying, MinerOp.admitTxn_node, occupied_chain]

theorem occupied_roomy [Picojson] : occupied.Roomy := by
  rw [Miner.Roomy, occupied, MinerOp.admitTxn_node]
  exact miningStart_roomy

theorem paying_roomy [Picojson] : paying.Roomy := by
  rw [Miner.Roomy, paying, MinerOp.admitTxn_node]
  exact occupied_roomy

theorem searching_roomy [Picojson] : searching.Roomy := by
  rw [Miner.Roomy, searching, MinerOp.snapshot_shared]
  exact paying_roomy

def miningOps : List MinerOp :=
  [.admitTxn payRacheal, .admitTxn payOliver, .snapshot oliver genesisTimestamp,
    .commitMined (genesisTimestamp + 1) 0 genesisTimestamp .complete]

/-- Those are all the transactions it is sent, under different ids. -/
theorem miningOps_ids {u v : Txn} (hu : u ∈ presented miningOps) (hv : v ∈ presented miningOps)
    (heq : txid u = txid v) : u = v := by
  have htwo : ∀ w ∈ presented miningOps, w ∈ [payOliver, payRacheal] :=
    fun w hw => List.mem_pair.mpr (List.mem_pair.mp hw).symm
  exact two_ids rfl u v (htwo u hu) (htwo v hv) heq

theorem miningOps_mem {u : Txn} (hu : u = payRacheal ∨ u = payOliver) :
    u ∈ presented miningOps := List.mem_pair.mpr hu

/-- Both transfers wait, in the order they came in. -/
theorem paying_queue [Picojson] :
    paying.Mining (· ∈ presented miningOps) 4096 2 ∧ paying.queue = [payRacheal, payOliver] := by
  have hids : ∀ u v, u ∈ presented miningOps → v ∈ presented miningOps → txid u = txid v → u = v :=
    fun _ _ => miningOps_ids
  have hstart : miningStart.Mining (· ∈ presented miningOps) 4096 0 :=
    Miner.start_mining (by decide) genesisTimestamp _ _
  have hoccupied : occupied.Mining (· ∈ presented miningOps) 4096 1 :=
    (hstart.admitTxn (by decide) hids (miningOps_mem (.inl rfl))).1
  have hpaying : paying.Mining (· ∈ presented miningOps) 4096 2 :=
    (hoccupied.admitTxn (by decide) hids (miningOps_mem (.inr rfl))).1
  obtain ⟨entries, n, hn, hqueued⟩ := hoccupied.lined
  have hjoined := Sealer.admit_joins hqueued (by omega) (miningOps_mem (.inr rfl)) occupied_admits
  have hfirst : occupied.shared.queue = [payRacheal] := by
    rw [Sealer.queue, occupied_pool, Mempool.sortedBySeq_accept_empty]
    rfl
  rw [hfirst] at hjoined
  exact ⟨hpaying, hjoined⟩

/-- What the search makes of a candidate. -/
theorem buildCandidate_mined (minerAddr : Address) (tipIndex : UInt64) (tipHash : Hash256)
    (tipTimestamp now_s : UInt64) (mp : Mempool) (accountAt : AccountLookup)
    (timestamp nonce : UInt64) {txns : List Txn}
    (h : (buildCandidate minerAddr tipIndex tipHash tipTimestamp now_s mp accountAt).txns = txns) :
    let c := buildCandidate minerAddr tipIndex tipHash tipTimestamp now_s mp accountAt
    ({ header := { c.hdr with timestamp, nonce }, txns := c.txns } : Block) =
      { header := ⟨tipIndex + 1, timestamp, tipHash, txnsHash txns, nonce⟩, txns } := by
  subst h
  rfl

/-- The candidate that is built from the pool with that transfer. -/
theorem built_candidate [Picojson] :
    ∃ c, searching.inFlight = some c ∧
      ({ header := { c.hdr with timestamp := genesisTimestamp + 1, nonce := 0 }
         txns := c.txns } : Block) =
        payBlock := by
  obtain ⟨hpaying, hqueue⟩ := paying_queue
  have htxns := hpaying.snapshot_txns paying_roomy oliver genesisTimestamp
  rw [hqueue, paying_chain] at htxns
  have hmined := buildCandidate_mined _ _ _ _ _ _ _ (genesisTimestamp + 1) 0 htxns
  refine ⟨_, rfl, ?_⟩
  rw [paying_chain]
  exact hmined.trans rfl

theorem searching_chain [Picojson] : searching.shared.node.chain = Chain.new 1 coinbaseReward := by
  rw [searching, MinerOp.snapshot_shared, paying_chain]

/-- The block that is found is committed. -/
theorem searching_commits [Picojson] :
    (searching.commitMined (genesisTimestamp + 1) 0 genesisTimestamp .complete).1 = true ∧
      (searching.commitMined (genesisTimestamp + 1) 0 genesisTimestamp
        .complete).2.shared.node.chain.state = paidState := by
  obtain ⟨c, hc, hblock⟩ := built_candidate
  have hok : (searching.shared.node.chain.connectBlock payBlock genesisTimestamp).1 = .ok := by
    rw [searching_chain]
    exact payBlock_commits.1
  obtain ⟨hcommitted, hlast⟩ := Miner.commitMined_connects hc .complete hblock hok
  rw [searching_chain] at hlast
  exact ⟨hcommitted, (congrArg Chain.state hlast).trans payBlock_commits.2⟩

/-- The process with that block committed. -/
def committed [Picojson] : Miner :=
  MinerOp.apply searching (.commitMined (genesisTimestamp + 1) 0 genesisTimestamp .complete)

theorem committed_roomy [Picojson] : committed.Roomy := by
  rw [Miner.Roomy, Chain.sum_balances, committed, MinerOp.commitMined_eq, searching_commits.2]
  exact paidState_total

theorem miningOps_roomy [Picojson] : ∀ m ∈ miningOps.scanl MinerOp.apply miningStart, m.Roomy := by
  have hstates : miningOps.scanl MinerOp.apply miningStart =
      [miningStart, occupied, paying, searching, committed] := by
    simp only [miningOps, List.scanl_cons, List.scanl_nil, occupied, paying, searching, committed]
  rw [hstates]
  simp only [List.forall_mem_cons]
  exact ⟨miningStart_roomy, occupied_roomy, paying_roomy, searching_roomy, committed_roomy, nofun⟩

/-- One block suffices for a transfer that another one waits in front of. -/
theorem payOliver_mined :
    letI := parserOf [genesisBlock]
    occupied.shared.mp.byTxid.size = 1 ∧
      (runMiner { difficulty := 1 } genesisTimestamp (fun _ => none) .complete 4096
        miningOps).Committed payOliver := by
  have hrun : ∀ [Picojson], occupied.shared.mp.byTxid.size = 1 ∧
      (runMiner { difficulty := 1 } genesisTimestamp (fun _ => none) .complete 4096
        miningOps).Committed payOliver := by
    intro parser
    refine ⟨occupied_size, ?_⟩
    have hpow : ∀ op ∈ miningOps, op.Pow := by
      intro op hop
      simp only [miningOps, List.mem_cons, List.not_mem_nil, or_false] at hop
      obtain rfl | rfl | rfl | rfl := hop <;> trivial
    have hmines : MinerOp.mines searching
        (.commitMined (genesisTimestamp + 1) 0 genesisTimestamp .complete) = true := by
      rw [MinerOp.mines, MinerOp.commits, searching_commits.1]
      rfl
    have hcount : mineCount searching
        [.commitMined (genesisTimestamp + 1) 0 genesisTimestamp .complete] = 1 := by
      rw [mineCount, batches_cons, if_pos hmines]
      rfl
    refine mined_transaction_waits (by decide) genesisTimestamp (fun _ => none) .complete 4096
      [.admitTxn payRacheal] [] [.commitMined (genesisTimestamp + 1) 0 genesisTimestamp .complete]
      payOliver oliver genesisTimestamp rfl hpow (by decide)
      (fun _ hu _ hv => miningOps_ids hu hv) miningOps_roomy occupied_admits ?_
    have hfront : occupied.shared.mp.byTxid.size < (maxTxnsPerBlock - 1) * mineCount searching
        [.commitMined (genesisTimestamp + 1) 0 genesisTimestamp .complete] := by
      rw [occupied_size, hcount]
      decide
    simpa only [runMiner, List.foldl_cons, List.foldl_nil, searching, paying, occupied, miningStart]
      using hfront
  exact @hrun (parserOf [genesisBlock])

end Samples

end TxChain
