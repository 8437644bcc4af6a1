import TxChain.Library.BatchQueue
import TxChain.Mempool.Queue
import TxChain.Node.Miner

/-!
# How long a transaction waits

The cadence sealer drains the pool from the front, a block's worth at a time. Transactions
that are admitted later queue up behind, and a seal that is refused drains nothing. So an
admitted transaction waits for the seals that the ones in front of it fill, and one more.
-/

namespace TxChain

open BatchQueue

section Waiting

variable [Crypto] {P : Txn → Prop} {cap n : ℕ} {s : Sealer}

/-- The pending transactions in admission order. -/
def Sealer.queue (s : Sealer) : List Txn := s.mp.sortedBySeq.map MempoolEntry.txn

/-- Whether a step commits a block. -/
def SealerOp.seals (s : Sealer) : SealerOp → Bool
  | .admitTxn _ => false
  | .drainSeal now_s io => (s.drainSeal now_s io).1 = .ok

/-- Some committed block holds the transaction. -/
def Sealer.Committed (s : Sealer) (t : Txn) : Prop := ∃ b ∈ s.node.chain.blocks, t ∈ b.txns

/-- How many seals of a run succeed. -/
def sealCount (s : Sealer) (ops : List SealerOp) : ℕ := batches SealerOp.apply SealerOp.seals s ops

/-- The transactions that RPC calls present during a run. -/
def sealerPresents (ops : List SealerOp) : List Txn :=
  ops.filterMap fun op =>
    match op with
    | .admitTxn t => some t
    | .drainSeal _ _ => none

/-! ### The queue of a sealer -/

/-- The pool is a queue of transactions of `P`, after at most `n` admissions. -/
def Sealer.Lined (P : Txn → Prop) (cap n : ℕ) (s : Sealer) : Prop :=
  ∃ entries m, m ≤ n ∧ Queued P cap m s.mp entries

variable {entries : List MempoolEntry}

/-- What the sealer drains is the front of that queue. -/
theorem queue_of_queued (h : Queued P cap n s.mp entries) (hn : n ≤ 2 ^ 64) :
    s.queue = entries.map MempoolEntry.txn := by
  rw [Sealer.queue, (h.numbered hn).1.sortedBySeq h.toDescribes]

theorem nodup_of_queued (h : Queued P cap n s.mp entries) :
    (entries.map MempoolEntry.txn).Nodup := by
  have hsenders := h.senders
  have hmap : (entries.map fun e => e.txn.from) = (entries.map MempoolEntry.txn).map Txn.from := by
    rw [List.map_map]
    rfl
  rw [hmap] at hsenders
  exact hsenders.of_map _

omit [Crypto] in
/-- Evicting the first `k` items of a queue leaves the ones behind them. -/
theorem filter_not_mem_take {q : List Txn} (hq : q.Nodup) (k : ℕ) :
    (q.filter fun t => t ∉ q.take k) = q.drop k := by
  have hsplit : (q.take k ++ q.drop k).filter (fun t => t ∉ q.take k) = q.drop k := by
    rw [← List.take_append_drop k q, List.nodup_append] at hq
    rw [List.filter_append, List.filter_eq_nil_iff.mpr, List.nil_append, List.filter_eq_self]
    · intro t ht
      simp only [decide_eq_true_eq]
      exact fun hfront => hq.2.2 t hfront t ht rfl
    · intro t ht
      simp [ht]
  rwa [List.take_append_drop] at hsplit

/-- An eviction of the front leaves what stands behind it. -/
theorem queued_evict_front (h : Queued P cap n s.mp entries)
    (hids : ∀ t t', P t → P t' → txid t = txid t' → t = t') (k : ℕ) :
    ∃ left, Queued P cap n (s.mp.evictIncluded ((entries.map MempoolEntry.txn).take k)) left ∧
      left.map MempoolEntry.txn = (entries.map MempoolEntry.txn).drop k := by
  have hpresented : ∀ t ∈ (entries.map MempoolEntry.txn).take k, P t := by
    intro t ht
    obtain ⟨e, he, rfl⟩ := List.mem_map.mp (List.mem_of_mem_take ht)
    exact h.presented e he
  refine ⟨_, h.evictIncluded hids hpresented, ?_⟩
  rw [← filter_not_mem_take (nodup_of_queued h) k, List.filter_map]
  rfl

/-! ### One step -/

theorem SealerOp.seals_of_ok {now_s : UInt64} {io : AppendOutcome}
    (h : (s.drainSeal now_s io).1 = .ok) :
    (SealerOp.drainSeal now_s io).seals s = true := decide_eq_true h

/-- An admission joins the queue at its end or leaves it as it is. -/
theorem Sealer.admit_served (h : Queued P cap n s.mp entries) (hn : n < 2 ^ 64)
    (hids : ∀ t t', P t → P t' → txid t = txid t' → t = t') {t : Txn} (ht : P t) :
    ((SealerOp.admitTxn t).apply s).Lined P cap (n + 1) ∧
      Served Sealer.queue Sealer.Committed maxTxnsPerBlock false s
        ((SealerOp.admitTxn t).apply s) := by
  have hpresented : ∀ u ∈ (MempoolOp.admitTxn s.node.chain.account t).presented, P u :=
    fun u hu => List.mem_singleton.mp hu ▸ ht
  obtain ⟨entries', hnext, hqueue⟩ := h.apply hids hpresented
  have hle : ∀ b : Bool, n + (if b = true then 1 else 0) ≤ n + 1 := by
    intro b
    cases b <;> simp
  have hsame : ((SealerOp.admitTxn t).apply s).queue = entries'.map MempoolEntry.txn :=
    queue_of_queued (s := (SealerOp.admitTxn t).apply s) hnext ((hle _).trans hn)
  refine ⟨⟨entries', _, hle _, hnext⟩, ⟨fun _ hu => hu, fun _ => ?_, nofun, nofun⟩⟩
  rw [hsame, queue_of_queued h hn.le, hqueue, MempoolOp.onQueue]
  split
  next => exact List.prefix_append _ _
  next => exact List.prefix_rfl

/-- An admission that is accepted waits behind the queue. -/
theorem Sealer.admit_joins (h : Queued P cap n s.mp entries) (hn : n < 2 ^ 64) {t : Txn} (ht : P t)
    (hok : (s.mp.admitTxn s.node.chain.account t).1 = .ok) :
    ((SealerOp.admitTxn t).apply s).queue = s.queue ++ [t] := by
  rcases s.mp.admitTxn_cases s.node.chain.account t with ⟨hadmits, haccept⟩ | ⟨hrefused, -⟩
  · have hnext : ((SealerOp.admitTxn t).apply s).mp = s.mp.accept t := congrArg Prod.snd haccept
    have hqueued := h.accept hadmits ht
    rw [← hnext] at hqueued
    rw [queue_of_queued hqueued hn, queue_of_queued h hn.le, List.map_append]
    rfl
  · exact absurd hok hrefused

/-- A drain serves a batch, or nothing changes. -/
theorem Sealer.drain_served (h : Queued P cap n s.mp entries) (hn : n < 2 ^ 64)
    (hids : ∀ t t', P t → P t' → txid t = txid t' → t = t') (now_s : UInt64) (io : AppendOutcome) :
    (s.drainSeal now_s io).2.Lined P cap (n + 1) ∧
      Served Sealer.queue Sealer.Committed maxTxnsPerBlock ((SealerOp.drainSeal now_s io).seals s) s
        (s.drainSeal now_s io).2 := by
  have hqueue := queue_of_queued h hn.le
  have hbatch : s.mp.batch = (entries.map MempoolEntry.txn).take maxTxnsPerBlock := by
    rw [← hqueue]
    rfl
  by_cases hok : (s.drainSeal now_s io).1 = .ok
  · obtain ⟨hblocks, hmp⟩ := Sealer.drainSeal_ok hok
    obtain ⟨left, hleft, hrest⟩ := queued_evict_front h hids maxTxnsPerBlock
    rw [← hbatch, ← hmp] at hleft
    have hseals := SealerOp.seals_of_ok hok
    refine ⟨⟨left, n, Nat.le_succ n, hleft⟩, ⟨?_, fun hidle => ?_, fun _ => ?_, fun _ t ht => ?_⟩⟩
    · rintro t ⟨b, hb, htb⟩
      exact ⟨b, by rw [hblocks]; exact List.mem_append_left _ hb, htb⟩
    · rw [hseals] at hidle
      cases hidle
    · rw [queue_of_queued hleft hn.le, hqueue, hrest]
    · rw [hqueue, ← hbatch] at ht
      exact ⟨_, by rw [hblocks]; exact List.mem_append_right _ (List.mem_singleton_self _), ht⟩
  · have hidle : (SealerOp.drainSeal now_s io).seals s = false := decide_eq_false hok
    rw [Sealer.drainSeal_refused hok, hidle]
    exact ⟨⟨entries, n, Nat.le_succ n, h⟩, ⟨fun _ ht => ht, fun _ => List.prefix_rfl, nofun, nofun⟩⟩

/-! ### Runs -/

theorem Sealer.Lined.apply (h : s.Lined P cap n) (hn : n < 2 ^ 64)
    (hids : ∀ t t', P t → P t' → txid t = txid t' → t = t') (op : SealerOp)
    (hop : ∀ t, op = .admitTxn t → P t) :
    (op.apply s).Lined P cap (n + 1) ∧
      Served Sealer.queue Sealer.Committed maxTxnsPerBlock (op.seals s) s (op.apply s) := by
  obtain ⟨entries, m, hm, hqueued⟩ := h
  have hgrow : ∀ {s' : Sealer}, s'.Lined P cap (m + 1) → s'.Lined P cap (n + 1) := by
    rintro s' ⟨entries', m', hm', hqueued'⟩
    exact ⟨entries', m', by omega, hqueued'⟩
  cases op with
  | admitTxn t =>
      obtain ⟨hlined, hserved⟩ := Sealer.admit_served hqueued (hm.trans_lt hn) hids (hop t rfl)
      exact ⟨hgrow hlined, hserved⟩
  | drainSeal now_s io =>
      obtain ⟨hlined, hserved⟩ := Sealer.drain_served hqueued (hm.trans_lt hn) hids now_s io
      exact ⟨hgrow hlined, hserved⟩

/-- As long as the admission counter has not wrapped around, every step serves the queue. -/
theorem Sealer.Lined.run (h : s.Lined P cap n)
    (hids : ∀ t t', P t → P t' → txid t = txid t' → t = t') (ops : List SealerOp)
    (hn : n + ops.length ≤ 2 ^ 64) (hops : ∀ t, SealerOp.admitTxn t ∈ ops → P t) :
    (ops.foldl SealerOp.apply s).Lined P cap (n + ops.length) ∧
      ∀ m ∈ Run.moves SealerOp.apply s ops,
        Served Sealer.queue Sealer.Committed maxTxnsPerBlock (m.2.seals m.1) m.1
          (m.2.apply m.1) := by
  induction ops generalizing s n with
  | nil => exact ⟨h, by simp [Run.moves]⟩
  | cons op ops ih =>
      rw [List.length_cons] at hn ⊢
      obtain ⟨hnext, hserved⟩ := h.apply (by omega) hids op fun t ht => hops t (by simp [ht])
      obtain ⟨hlast, hmoves⟩ := ih hnext (by omega) fun t ht => hops t (List.mem_cons_of_mem _ ht)
      refine ⟨?_, List.forall_mem_cons.mpr ⟨hserved, hmoves⟩⟩
      have hcount : n + (ops.length + 1) = n + 1 + ops.length := by omega
      rw [hcount]
      exact hlast

theorem Sealer.start_lined [Picojson] (cfg : NodeConfig) (now_s : UInt64) (fs : FileSystem)
    (io : AppendOutcome) : (Sealer.start cfg now_s fs io cap).Lined P cap 0 :=
  ⟨[], 0, Nat.le_refl 0, queued_empty P cap⟩

omit [Crypto] in
theorem mem_sealerPresents {ops : List SealerOp} {t : Txn} (h : SealerOp.admitTxn t ∈ ops) :
    t ∈ sealerPresents ops :=
  List.mem_filterMap.mpr ⟨_, h, rfl⟩

/-- Whatever is admitted in between and whichever seals are refused, a transaction that is
admitted behind `k` others is committed after `k / 8 + 1` seals that succeed. -/
theorem admitted_transaction_waits [Picojson] (cfg : NodeConfig) (now₀ : UInt64) (fs : FileSystem)
    (io₀ : AppendOutcome) (cap : ℕ) (pre post : List SealerOp) (t : Txn)
    (hids : ∀ u ∈ sealerPresents (pre ++ .admitTxn t :: post),
      ∀ v ∈ sealerPresents (pre ++ .admitTxn t :: post), txid u = txid v → u = v)
    (hlength : (pre ++ .admitTxn t :: post).length ≤ 2 ^ 64) :
    let s := pre.foldl SealerOp.apply (Sealer.start cfg now₀ fs io₀ cap)
    (s.mp.admitTxn s.node.chain.account t).1 = .ok →
      s.mp.byTxid.size < maxTxnsPerBlock * sealCount ((SealerOp.admitTxn t).apply s) post →
        (post.foldl SealerOp.apply ((SealerOp.admitTxn t).apply s)).Committed t := by
  intro s hok hseals
  let P : Txn → Prop := (· ∈ sealerPresents (pre ++ .admitTxn t :: post))
  have hinj : ∀ u v, P u → P v → txid u = txid v → u = v := fun u v hu hv => hids u hu v hv
  have hmem : ∀ u, SealerOp.admitTxn u ∈ pre ++ .admitTxn t :: post → P u := fun u hu =>
    mem_sealerPresents hu
  rw [List.length_append, List.length_cons] at hlength
  have hstart : (Sealer.start cfg now₀ fs io₀ cap).Lined P cap 0 :=
    Sealer.start_lined cfg now₀ fs io₀
  obtain ⟨hbefore, -⟩ := hstart.run hinj pre (by omega) fun u hu =>
    hmem u (List.mem_append_left _ hu)
  obtain ⟨hafter, -⟩ := hbefore.apply (by omega) hinj (.admitTxn t) fun u hu =>
    hmem u (by simp [hu])
  obtain ⟨-, hserved⟩ := hafter.run hinj post (by omega) fun u hu => hmem u (by simp [hu])
  -- the transaction joins the queue behind those that are pending
  obtain ⟨entries, m, hm, hqueued⟩ := hbefore
  have hqueue := queue_of_queued hqueued (by omega)
  have hwaits := Sealer.admit_joins hqueued (by omega) (hmem t (by simp)) hok
  have hfront : s.queue.length <
      maxTxnsPerBlock * sealCount ((SealerOp.admitTxn t).apply s) post := by
    rw [hqueue, List.length_map, ← hqueued.size]
    exact hseals
  exact done_of_batches hserved hwaits hfront

end Waiting

section Samples

attribute [local instance] sampleKeys

/-- A node on a fresh datadir on which another transfer is pending. -/
def occupiedSealer [Picojson] : Sealer :=
  [SealerOp.admitTxn payRacheal].foldl SealerOp.apply
    (Sealer.start {} genesisTimestamp (fun _ => none) .complete 4096)

theorem occupiedSealer_eq [Picojson] :
    occupiedSealer.node.chain = Chain.new 0 0 ∧
      occupiedSealer.mp = ({ cap := 4096 } : Mempool).accept payRacheal := by
  have hstart := waitingSealer_eq.1
  rw [occupiedSealer, List.foldl_cons, List.foldl_nil, SealerOp.admitTxn_node,
    SealerOp.admitTxn_mp, Sealer.start_mp, hstart,
    Mempool.admitTxn_ok (payRacheal_admits_first 0 0)]
  exact ⟨rfl, rfl⟩

theorem occupiedSealer_drains [Picojson] :
    (((SealerOp.admitTxn payOliver).apply occupiedSealer).drainSeal
      genesisTimestamp .complete).1 = .ok := by
  have hstart : (Sealer.start {} genesisTimestamp (fun _ => none) .complete 4096).Ready :=
    Sealer.start_ready rfl genesisTimestamp _ .complete 4096
  have hfirst := hstart.apply (Sealer.fits_first waitingSealer_eq.1) (.admitTxn payRacheal)
  have hsecond := Sealer.Ready.apply (s := occupiedSealer) hfirst
    (Sealer.fits_first occupiedSealer_eq.1) (.admitTxn payOliver)
  exact hsecond.drains_first occupiedSealer_eq.1

/-- One seal commits a transfer that another one waits in front of. -/
theorem payOliver_committed :
    letI := parserOf [genesisBlock]
    occupiedSealer.mp.byTxid.size = 1 ∧
      ([SealerOp.drainSeal genesisTimestamp .complete].foldl SealerOp.apply
        ((SealerOp.admitTxn payOliver).apply occupiedSealer)).Committed payOliver := by
  have hrun : ∀ [Picojson], occupiedSealer.mp.byTxid.size = 1 ∧
      ([SealerOp.drainSeal genesisTimestamp .complete].foldl SealerOp.apply
        ((SealerOp.admitTxn payOliver).apply occupiedSealer)).Committed payOliver := by
    intro parser
    obtain ⟨hchain, hmp⟩ := occupiedSealer_eq
    have hsize : occupiedSealer.mp.byTxid.size = 1 := by
      rw [hmp]
      rfl
    refine ⟨hsize, ?_⟩
    have hok : (occupiedSealer.mp.admitTxn occupiedSealer.node.chain.account payOliver).1 =
        .ok := by
      rw [hchain, hmp, Mempool.admitTxn_ok (payOliver_admits_behind 0 0)]
    have hcount : sealCount ((SealerOp.admitTxn payOliver).apply occupiedSealer)
        [.drainSeal genesisTimestamp .complete] = 1 := by
      have hseals := SealerOp.seals_of_ok occupiedSealer_drains
      rw [sealCount, batches_cons, hseals, if_pos rfl]
      rfl
    refine admitted_transaction_waits {} genesisTimestamp (fun _ => none) .complete 4096
      [.admitTxn payRacheal] [.drainSeal genesisTimestamp .complete] payOliver ?_ (by simp) hok ?_
    · have htwo : ∀ u ∈ sealerPresents ([.admitTxn payRacheal] ++
          .admitTxn payOliver :: [.drainSeal genesisTimestamp .complete]),
          u ∈ [payOliver, payRacheal] := by simp [sealerPresents]
      exact fun u hu v hv => two_ids rfl u v (htwo u hu) (htwo v hv)
    · show occupiedSealer.mp.byTxid.size < maxTxnsPerBlock *
        sealCount ((SealerOp.admitTxn payOliver).apply occupiedSealer)
          [.drainSeal genesisTimestamp .complete]
      rw [hsize, hcount]
      decide
  exact @hrun (parserOf [genesisBlock])

end Samples

end TxChain
