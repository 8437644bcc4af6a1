import TxChain.Chain.Batch
import TxChain.Chain.Supply
import TxChain.Library.Run
import TxChain.Mempool.Mempool

/-!
# Candidate blocks

`buildCandidate` selects pending transactions against a shadow of the ledger that
reads an account from the committed state when it is first touched and then edits
it in place. The gate copies records instead. The two agree on every account that
has not spent yet, and the mempool gives each sender one slot, so each selected
transaction meets the account the gate will see.
-/

namespace TxChain

structure Candidate where
  hdr : BlockHeader
  txns : List Txn

/-! ### The shadow -/

/-- The first touch reads an account from the committed state. -/
def touch (accountAt : AccountLookup) (shadow : AccountMap) (a : Address) : AccountMap :=
  if a ∈ shadow then shadow else shadow.set a (accountAt a)

/-- An account as the shadow has it, touched or not. -/
def peek (accountAt : AccountLookup) (shadow : AccountMap) (a : Address) : AccountState :=
  shadow.getD a (accountAt a)

/-- Both references point into the shadow: when sender and receiver coincide, the
credit reads what the debit wrote. -/
def settle (shadow : AccountMap) (t : Txn) : AccountMap :=
  let sender := shadow.lookup t.from
  (shadow.set t.from { balance := sender.balance - t.amount, nonce := sender.nonce + 1 }).credit
    t.to t.amount

/-- The greedy selection over the queue. -/
def select (accountAt : AccountLookup) : List MempoolEntry → List Txn → AccountMap → List Txn
  | [], txns, _ => txns
  | e :: rest, txns, shadow =>
      if txns.length ≥ maxTxnsPerBlock then txns
      else
        let t := e.txn
        let touched := touch accountAt (touch accountAt shadow t.from) t.to
        if t.nonce ≠ (touched.lookup t.from).nonce then select accountAt rest txns touched
        else if t.amount > (touched.lookup t.from).balance then select accountAt rest txns touched
        else select accountAt rest (txns ++ [t]) (settle touched t)

def buildCandidate [Crypto] (minerAddr : Address) (tipIndex : UInt64) (tipHash : Hash256)
    (tipTimestamp now_s : UInt64) (mp : Mempool) (accountAt : AccountLookup) : Candidate :=
  let height := tipIndex + 1
  let shadow := (touch accountAt ∅ minerAddr).credit minerAddr coinbaseReward
  let txns := select accountAt mp.sortedBySeq [coinbaseTxn minerAddr height] shadow
  { hdr :=
      { index := height
        timestamp := if now_s < tipTimestamp + 1 then tipTimestamp + 1 else now_s
        prevHash := tipHash
        txnsHash := txnsHash txns
        nonce := 0 }
    txns }

section Shadow

variable {accountAt : AccountLookup} {shadow : AccountMap}

theorem peek_set (a b : Address) (s : AccountState) :
    peek accountAt (shadow.set a s) b = if b = a then s else peek accountAt shadow b := by
  simp only [peek, AccountMap.set, Std.TreeMap.getD_insert, Std.LawfulEqCmp.compare_eq_iff_eq,
    eq_comm (a := a)]

theorem peek_credit (a b : Address) (amount : UInt64) :
    peek accountAt (shadow.credit a amount) b =
      if b = a then { shadow.lookup a with balance := (shadow.lookup a).balance + amount }
      else peek accountAt shadow b :=
  peek_set a b _

theorem peek_of_not_mem {a : Address} (h : a ∉ shadow) : peek accountAt shadow a = accountAt a :=
  Std.TreeMap.getD_eq_fallback h

/-- Touching changes no account. -/
@[simp] theorem peek_touch (a b : Address) :
    peek accountAt (touch accountAt shadow a) b = peek accountAt shadow b := by
  rw [touch]
  split
  next => rfl
  next hnew =>
    rw [peek_set]
    split
    next heq => rw [heq, peek_of_not_mem hnew]
    next => rfl

/-- A touched account is in the shadow. -/
theorem lookup_of_mem {a : Address} (h : a ∈ shadow) :
    shadow.lookup a = peek accountAt shadow a := by
  rw [AccountMap.lookup, peek, Std.TreeMap.getD_eq_getD_getElem?, Std.TreeMap.getD_eq_getD_getElem?]
  obtain ⟨s, hs⟩ := Option.isSome_iff_exists.mp (Std.TreeMap.mem_iff_isSome_getElem?.mp h)
  rw [hs]
  rfl

theorem mem_touch_self (a : Address) : a ∈ touch accountAt shadow a := by
  rw [touch]
  split
  next h => exact h
  next => simp [AccountMap.set]

theorem mem_touch {a : Address} (b : Address) (h : a ∈ shadow) : a ∈ touch accountAt shadow b := by
  rw [touch]
  split
  next => exact h
  next => simp [AccountMap.set, h]

/-- Settling a transaction credits the receiver and leaves everyone else but the
sender alone, as the gate does. -/
theorem peek_settle {t : Txn} {a : Address} (hto : t.to ∈ shadow) (ha : a ≠ t.from) :
    peek accountAt (settle shadow t) a =
      if a = t.to then
        { peek accountAt shadow a with balance := (peek accountAt shadow a).balance + t.amount }
      else peek accountAt shadow a := by
  rw [settle, peek_credit]
  split
  next heq =>
    subst heq
    rw [AccountMap.lookup_set, if_neg ha, lookup_of_mem hto]
  next => rw [peek_set, if_neg ha]

/-- An account on which shadow and ledger agree is still one after both settled a
transaction it did not send. -/
theorem peek_settle_eq {work : AccountMap} {t : Txn} {a : Address} (hto : t.to ∈ shadow)
    (ha : a ≠ t.from) (hview : peek accountAt shadow a = work.lookup a) :
    peek accountAt (settle shadow t) a = (work.transfer t).lookup a := by
  rw [peek_settle hto ha, AccountMap.lookup_transfer, if_neg ha, hview]
  split
  next heq => rw [heq]
  next => rfl

end Shadow

/-! ### The selection -/

/-- Over pending transactions with distinct senders, whose accounts the shadow has as
the ledger has them, the selection is a part of the queue the ledger can spend. -/
theorem select_sound (accountAt : AccountLookup) {entries : List MempoolEntry} {txns : List Txn}
    {shadow work : AccountMap} (hsenders : (entries.map fun e => e.txn.from).Nodup)
    (hview : ∀ e ∈ entries, peek accountAt shadow e.txn.from = work.lookup e.txn.from)
    (hsize : txns.length ≤ maxTxnsPerBlock) :
    ∃ picked work', select accountAt entries txns shadow = txns ++ picked ∧
      picked.Sublist (entries.map MempoolEntry.txn) ∧ picked.foldlM spend work = some work' ∧
        (txns ++ picked).length ≤ maxTxnsPerBlock := by
  induction entries generalizing txns shadow work with
  | nil =>
      exact ⟨[], work, (List.append_nil _).symm, List.Sublist.refl _, rfl, by simpa using hsize⟩
  | cons e rest ih =>
      obtain ⟨hfresh, hrest⟩ := List.nodup_cons.mp hsenders
      obtain ⟨he, hothers⟩ := List.forall_mem_cons.mp hview
      rw [select]
      split
      next =>
        exact ⟨[], work, (List.append_nil _).symm, List.nil_sublist _, rfl, by simpa using hsize⟩
      next hroom =>
        let touched := touch accountAt (touch accountAt shadow e.txn.from) e.txn.to
        have htouched : ∀ a, peek accountAt touched a = peek accountAt shadow a := by
          intro a
          rw [peek_touch, peek_touch]
        have hskip : ∃ picked work', select accountAt rest txns touched = txns ++ picked ∧
            picked.Sublist ((e :: rest).map MempoolEntry.txn) ∧
              picked.foldlM spend work = some work' ∧
                (txns ++ picked).length ≤ maxTxnsPerBlock := by
          have hview' : ∀ e' ∈ rest, peek accountAt touched e'.txn.from =
              work.lookup e'.txn.from := fun e' he' => (htouched _).trans (hothers e' he')
          obtain ⟨picked, work', hselect, hsub, hspend, hlength⟩ := ih hrest hview' hsize
          exact ⟨picked, work', hselect, hsub.cons e.txn, hspend, hlength⟩
        have hsender : touched.lookup e.txn.from = work.lookup e.txn.from := by
          rw [lookup_of_mem (mem_touch e.txn.to (mem_touch_self e.txn.from)), htouched, he]
        show ∃ picked work',
          (if e.txn.nonce ≠ (touched.lookup e.txn.from).nonce then
            select accountAt rest txns touched
          else if e.txn.amount > (touched.lookup e.txn.from).balance then
            select accountAt rest txns touched
          else select accountAt rest (txns ++ [e.txn]) (settle touched e.txn)) = txns ++ picked ∧ _
        split
        next => exact hskip
        next hnonce =>
          split
          next => exact hskip
          next hfunds =>
            have hspendable : e.txn.Spendable (work.lookup e.txn.from) := by
              rw [← hsender]
              exact ⟨not_not.mp hnonce, UInt64.not_lt.mp hfunds⟩
            have hnext : ∀ e' ∈ rest, peek accountAt (settle touched e.txn) e'.txn.from =
                (work.transfer e.txn).lookup e'.txn.from := by
              intro e' he'
              refine peek_settle_eq (mem_touch_self e.txn.to) ?_
                ((htouched _).trans (hothers e' he'))
              intro heq
              exact hfresh (List.mem_map.mpr ⟨e', he', heq⟩)
            have hroom' : (txns ++ [e.txn]).length ≤ maxTxnsPerBlock := by
              rw [List.length_append, List.length_singleton]
              omega
            obtain ⟨picked, work', hselect, hsub, hspend, hlength⟩ := ih hrest hnext hroom'
            refine ⟨e.txn :: picked, work', ?_, hsub.cons_cons e.txn, ?_, ?_⟩
            · rw [hselect, List.append_assoc]
              rfl
            · rw [List.foldlM_cons, spend_eq hspendable]
              exact hspend
            · rw [List.append_assoc] at hlength
              exact hlength

/-! ### Mining on an evolving tip -/

section Mining

variable [Crypto]

/-- What can happen to the chain and to the pool that watches its tip. -/
inductive PoolOp where
  | connect (b : Block) (now_s : UInt64)
  | admitTxn (t : Txn)
  | evictIncluded (txns : List Txn)

def PoolOp.apply (s : Chain × Mempool) : PoolOp → Chain × Mempool
  | .connect b now_s => (s.1.connect (b, now_s), s.2)
  | .admitTxn t => (s.1, (s.2.admitTxn s.1.account t).2)
  | .evictIncluded txns => (s.1, s.2.evictIncluded txns)

def runPool (D : UInt32) (cap : ℕ) (ops : List PoolOp) : Chain × Mempool :=
  ops.foldl PoolOp.apply (Chain.new D coinbaseReward, { cap })

/-- Admissions and evictions keep the indexes, whatever the tip does meanwhile. -/
theorem PoolOp.apply_sound {s : Chain × Mempool}
    (h : s.1.reward = coinbaseReward ∧ s.2.WellIndexed) (op : PoolOp) :
    (PoolOp.apply s op).1.reward = coinbaseReward ∧ (PoolOp.apply s op).2.WellIndexed := by
  cases op with
  | connect b now_s =>
      refine ⟨?_, h.2⟩
      rcases Chain.connect_cases s.1 (b, now_s) with ⟨-, hcommit⟩ | ⟨-, hsame⟩
      · exact hcommit.reward.trans h.1
      · exact (congrArg Chain.reward hsame).trans h.1
  | admitTxn t => exact ⟨h.1, h.2.admitTxn s.1.account t⟩
  | evictIncluded txns => exact ⟨h.1, h.2.evictIncluded txns⟩

theorem runPool_sound (D : UInt32) (cap : ℕ) (ops : List PoolOp) :
    (runPool D cap ops).1.reward = coinbaseReward ∧ (runPool D cap ops).2.WellIndexed :=
  Run.invariant (J := fun s : Chain × Mempool => s.1.reward = coinbaseReward ∧ s.2.WellIndexed)
    (fun _ op h => PoolOp.apply_sound h op) ⟨rfl, Mempool.wellIndexed_empty cap⟩ ops

/-- The coinbase first, then a part of the queue in its order, and the ledger can
spend all of it once the coinbase is credited. -/
theorem buildCandidate_txns {mp : Mempool} (hmp : mp.WellIndexed) (state : AccountMap)
    (minerAddr : Address) (tipIndex : UInt64) (tipHash : Hash256) (tipTimestamp now_s : UInt64) :
    ∃ picked work',
      (buildCandidate minerAddr tipIndex tipHash tipTimestamp now_s mp state.lookup).txns =
          coinbaseTxn minerAddr (tipIndex + 1) :: picked ∧
        picked.Sublist (mp.sortedBySeq.map MempoolEntry.txn) ∧
          picked.foldlM spend (state.credit minerAddr coinbaseReward) = some work' ∧
            (coinbaseTxn minerAddr (tipIndex + 1) :: picked).length ≤ maxTxnsPerBlock := by
  let shadow := (touch state.lookup ∅ minerAddr).credit minerAddr coinbaseReward
  have hminer : (touch state.lookup ∅ minerAddr).lookup minerAddr = state.lookup minerAddr := by
    rw [lookup_of_mem (mem_touch_self minerAddr), peek_touch]
    exact peek_of_not_mem Std.TreeMap.not_mem_emptyc
  have hview : ∀ a, peek state.lookup shadow a =
      (state.credit minerAddr coinbaseReward).lookup a := by
    intro a
    show peek state.lookup (AccountMap.credit _ minerAddr coinbaseReward) a = _
    rw [peek_credit, hminer, AccountMap.lookup_credit, peek_touch]
    split
    next => rfl
    next => exact peek_of_not_mem Std.TreeMap.not_mem_emptyc
  exact select_sound state.lookup hmp.senders_nodup (fun e _ => hview e.txn.from)
    (Nat.one_le_iff_ne_zero.mpr (by decide))

/-- While the clock has room behind the tip, a candidate is later than the tip. -/
theorem buildCandidate_later {tipTimestamp : UInt64} (hroom : tipTimestamp.toNat + 1 < 2 ^ 64)
    (minerAddr : Address) (tipIndex : UInt64) (tipHash : Hash256) (now_s : UInt64) (mp : Mempool)
    (accountAt : AccountLookup) :
    tipTimestamp < (buildCandidate minerAddr tipIndex tipHash tipTimestamp now_s mp
      accountAt).hdr.timestamp := by
  have hnext : tipTimestamp < tipTimestamp + 1 := by
    rw [UInt64.lt_iff_toNat_lt, UInt64.toNat_add, UInt64.toNat_one, Nat.mod_eq_of_lt hroom]
    exact Nat.lt_succ_self _
  show _ < if now_s < tipTimestamp + 1 then tipTimestamp + 1 else now_s
  split
  next => exact hnext
  next hlate => exact UInt64.lt_of_lt_of_le hnext (UInt64.not_lt.mp hlate)

/-- A block that extends the tip by a candidate, under any header nonce that meets
the difficulty, is committed at every clock that is not too far behind. -/
theorem candidate_connects (D : UInt32) (cap : ℕ) (ops : List PoolOp) (minerAddr : Address)
    (now_s now' n : UInt64) {chain : Chain} {mp : Mempool} {c : Candidate} {b : Block}
    (hrun : runPool D cap ops = (chain, mp))
    (hc : c = buildCandidate minerAddr chain.height chain.tipHash chain.tip.header.timestamp now_s
      mp chain.account)
    (hb : b = { header := { c.hdr with nonce := n }, txns := c.txns })
    (hpow : meetsDifficulty b.header.hash chain.difficulty = true)
    (hroom : chain.tip.header.timestamp.toNat + 1 < 2 ^ 64)
    (hskew : c.hdr.timestamp ≤ now' + maxClockSkewS) :
    (chain.connectBlock b now').1 = .ok ∧
      ∃ picked, c.txns = coinbaseTxn minerAddr (chain.height + 1) :: picked ∧
        picked.length ≤ maxTxnsPerBlock - 1 ∧
          picked.Sublist (mp.sortedBySeq.map MempoolEntry.txn) := by
  obtain ⟨hreward, hmp⟩ := runPool_sound D cap ops
  rw [hrun] at hreward hmp
  obtain ⟨picked, work', htxns, hsub, hspend, hsize⟩ :=
    buildCandidate_txns hmp chain.state minerAddr
    chain.height chain.tipHash chain.tip.header.timestamp now_s
  have hctxns : c.txns = coinbaseTxn minerAddr (chain.height + 1) :: picked := by
    rw [hc]
    exact htxns
  refine ⟨?_, picked, hctxns, Nat.le_sub_of_add_le hsize, hsub⟩
  have hauth : ∀ t ∈ picked, t.Authentic := by
    intro t ht
    obtain ⟨e, he, rfl⟩ := List.mem_map.mp (hsub.subset ht)
    obtain ⟨id, hid⟩ := Mempool.mem_sortedBySeq he
    exact (hmp.pending hid).authentic
  have hlater : chain.tip.header.timestamp < c.hdr.timestamp := by
    rw [hc]
    exact buildCandidate_later hroom _ _ _ _ _ _
  have hlinks : LinksTo (chain.height + 1) chain.tipHash chain.tip.header.timestamp now'
      chain.difficulty b := by
    subst hb
    refine ⟨by rw [hc]; rfl, by rw [hc]; rfl, hlater, hskew, hpow, by rw [hc]; rfl, ?_⟩
    show c.txns.length ≤ _
    rw [hctxns]
    exact hsize
  have hgate : (applyBlockTxns chain.state b chain.reward).1.reason = .ok := by
    have hbtxns : b.txns = coinbaseTxn minerAddr (chain.height + 1) :: picked := by
      rw [hb]
      exact hctxns
    have hcoinbase := coinbaseTxn_isCoinbaseAt minerAddr (chain.height + 1)
    have happlied : (applyBlockTxns chain.state b chain.reward).1.reason = .ok ∧
        (applyBlockTxns chain.state b chain.reward).2 = work' := by
      refine applyBlockTxns_iff.mpr
        ⟨?_, fun _ => ⟨_, hbtxns ▸ List.mem_cons_self, hcoinbase.sender⟩⟩
      rw [hbtxns, hlinks.index, runTxns_cons, applyTxn_coinbase hcoinbase]
      exact ⟨rfl, (runTxns_signed hauth).trans hspend⟩
    exact happlied.1
  exact Chain.connectBlock_ok_iff.mpr ⟨hlinks, hgate⟩

end Mining

section Samples

attribute [local instance] sampleKeys

/-- A fresh chain with rewards, and a pool that admitted one transfer. -/
def transferPool : Chain × Mempool := runPool 0 4096 [.admitTxn payOliver]

theorem transferPool_eq :
    transferPool = (Chain.new 0 coinbaseReward, ({ cap := 4096 } : Mempool).accept payOliver) := by
  have hauth : payOliver.Authentic := signedSamples_authentic payOliver (by simp [signedSamples])
  have hadmits :
      ({ cap := 4096 } : Mempool).Admits (Chain.new 0 coinbaseReward).account payOliver :=
    Mempool.admits_empty (by decide) rfl hauth payOliver_spendable
  rw [transferPool, runPool, List.foldl_cons, List.foldl_nil, PoolOp.apply,
    Mempool.admitTxn_ok hadmits]

def transferCandidate : Candidate :=
  buildCandidate oliver transferPool.1.height transferPool.1.tipHash
    transferPool.1.tip.header.timestamp genesisTimestamp transferPool.2 transferPool.1.account

def transferBlock : Block :=
  { header := { transferCandidate.hdr with nonce := 7 }, txns := transferCandidate.txns }

/-- The candidate built from that pool is committed at the genesis second. -/
theorem transferBlock_connects :
    transferPool.2.sortedBySeq.map MempoolEntry.txn = [payOliver] ∧
      (transferPool.1.connectBlock transferBlock genesisTimestamp).1 = .ok := by
  refine ⟨by rw [transferPool_eq, Mempool.sortedBySeq_accept_empty]; rfl, ?_⟩
  have hrun : runPool 0 4096 [.admitTxn payOliver] = (transferPool.1, transferPool.2) := by
    rw [← transferPool, Prod.mk.eta]
  have hc : transferCandidate = buildCandidate oliver transferPool.1.height transferPool.1.tipHash
    transferPool.1.tip.header.timestamp genesisTimestamp transferPool.2 transferPool.1.account := by
    rw [transferCandidate]
  have hb : transferBlock =
    { header := { transferCandidate.hdr with nonce := 7 }, txns := transferCandidate.txns } := by
    rw [transferBlock]
  have hD : transferPool.1.difficulty = 0 := by
    rw [transferPool_eq]
    rfl
  have htip : transferPool.1.tip.header.timestamp = genesisTimestamp := by
    rw [transferPool_eq]
    rfl
  have hpow : meetsDifficulty transferBlock.header.hash transferPool.1.difficulty = true := by
    rw [hD]
    simp
  have hroom : transferPool.1.tip.header.timestamp.toNat + 1 < 2 ^ 64 := by
    rw [htip]
    decide
  have hskew : transferCandidate.hdr.timestamp ≤ genesisTimestamp + maxClockSkewS := by
    rw [hc, buildCandidate, htip]
    decide
  exact (candidate_connects 0 4096 [.admitTxn payOliver] oliver genesisTimestamp genesisTimestamp 7
    hrun hc hb hpow hroom hskew).1

end Samples

end TxChain
