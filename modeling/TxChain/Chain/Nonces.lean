import TxChain.Chain.Supply

/-!
# Nonces

The gate asks every signed transaction for its sender's next nonce and advances
it, except that a self-transfer leaves it where it was. So a sender's nonces count
up without gaps exactly until its first self-transfer, and transactions of one
sender repeat a nonce exactly when something follows a self-transfer.
-/

namespace TxChain

/-- The transactions a sender signed, in inclusion order; coinbases have no sender. -/
def ordinaryFrom (a : Address) (txns : List Txn) : List Txn :=
  txns.filter fun t => t.from ≠ kNullAddr ∧ t.from = a

/-- Nonces of every sender count up from zero, so no signed transaction takes
effect twice. -/
structure NoReplay (txns : List Txn) : Prop where
  inOrder : ∀ a, (ordinaryFrom a txns).map (fun t => t.nonce.toNat) =
    List.range (ordinaryFrom a txns).length
  distinct : (txns.filter fun t => t.from ≠ kNullAddr).Pairwise
    fun t u => ¬(t.from = u.from ∧ t.nonce = u.nonce)

/-- A self-transfer is the last transaction of its sender. -/
def SelfTransfersLast (txns : List Txn) : Prop :=
  txns.Pairwise fun t u => t.IsSelf → u.from ≠ t.from

theorem ordinaryFrom_cons (a : Address) (t : Txn) (txns : List Txn) :
    ordinaryFrom a (t :: txns) =
      if t.from ≠ kNullAddr ∧ t.from = a then t :: ordinaryFrom a txns
      else ordinaryFrom a txns := by
  simp only [ordinaryFrom, List.filter_cons, decide_eq_true_eq]

theorem mem_ordinaryFrom {a : Address} {t : Txn} {txns : List Txn} :
    t ∈ ordinaryFrom a txns ↔ t ∈ txns ∧ t.from ≠ kNullAddr ∧ t.from = a := by
  simp [ordinaryFrom]

section Nonces

variable [Crypto] {work work' : AccountMap} {t : Txn} {txns : List Txn} {a : Address}

/-! ### One transaction -/

theorem Applies.authentic_of_sender (h : Applies work t work') (hsender : t.from ≠ kNullAddr) :
    t.Authentic ∧ t.Spendable (work.lookup t.from) := by
  cases h with
  | coinbase hnull _ => exact absurd hnull hsender
  | signed hauth hspend => exact ⟨hauth, hspend⟩

/-- The gate asks for the sender's next nonce. -/
theorem Applies.sender_nonce (h : Applies work t work') (ht : t.from ≠ kNullAddr ∧ t.from = a) :
    t.nonce = (work.lookup a).nonce := by
  rw [← ht.2]
  exact (h.authentic_of_sender ht.1).2.nonce

/-- An ordinary transfer advances its sender's nonce. -/
theorem Applies.nonce_of_transfer (h : Applies work t work')
    (ht : t.from ≠ kNullAddr ∧ t.from = a) (hself : t.from ≠ t.to)
    (hfit : (work.lookup a).nonce.toNat + 1 < 2 ^ 64) :
    (work'.lookup a).nonce.toNat = (work.lookup a).nonce.toNat + 1 := by
  rw [h.nonce, if_pos (Txn.posting_debit_eq_some.mpr ⟨ht.2, ht.1, hself⟩), UInt64.toNat_add,
    UInt64.toNat_one, Nat.mod_eq_of_lt hfit]

/-- Every other nonce, and every nonce after a self-transfer, stays. -/
theorem Applies.nonce_frame (h : Applies work t work')
    (hframe : ¬(t.from ≠ kNullAddr ∧ t.from = a) ∨ t.from = t.to) :
    (work'.lookup a).nonce = (work.lookup a).nonce := by
  have hdebit : t.posting.debit ≠ some a := by
    intro hdebit
    obtain ⟨hfrom, hsender, hself⟩ := Txn.posting_debit_eq_some.mp hdebit
    exact hframe.elim (fun h => h ⟨hsender, hfrom⟩) hself
  rw [h.nonce, if_neg hdebit]
  exact UInt64.add_zero _

/-- No transaction advances a nonce by more than one. -/
theorem Applies.nonce_le (h : Applies work t work')
    (hfit : (work.lookup a).nonce.toNat + 1 < 2 ^ 64) :
    (work'.lookup a).nonce.toNat ≤ (work.lookup a).nonce.toNat + 1 := by
  by_cases ht : t.from ≠ kNullAddr ∧ t.from = a
  · by_cases hself : t.from = t.to
    · rw [h.nonce_frame (.inr hself)]
      exact Nat.le_succ _
    · exact (h.nonce_of_transfer ht hself hfit).le
  · rw [h.nonce_frame (.inl ht)]
    exact Nat.le_succ _

/-! ### A history -/

/-- The next transaction of a sender carries the committed nonce. -/
theorem History.next_nonce (h : History work txns work') {u : Txn} {rest : List Txn}
    (hfirst : ordinaryFrom a txns = u :: rest) : u.nonce = (work.lookup a).nonce := by
  induction h with
  | nil => exact absurd hfirst (by simp [ordinaryFrom])
  | @cons work mid work' t txns step _ ih =>
      rw [ordinaryFrom_cons] at hfirst
      by_cases ht : t.from ≠ kNullAddr ∧ t.from = a
      · rw [if_pos ht] at hfirst
        obtain ⟨rfl, -⟩ := List.cons_eq_cons.mp hfirst
        exact step.sender_nonce ht
      · rw [if_neg ht] at hfirst
        rw [ih hfirst, step.nonce_frame (.inl ht)]

/-- Nonces of one sender count up as long as self-transfers come last. -/
theorem History.nonces_inOrder (h : History work txns work') (hlast : SelfTransfersLast txns)
    (hfit : (work.lookup a).nonce.toNat + txns.length < 2 ^ 64) :
    (ordinaryFrom a txns).map (fun t => t.nonce.toNat) =
      List.range' (work.lookup a).nonce.toNat (ordinaryFrom a txns).length := by
  induction h with
  | nil => rfl
  | @cons work mid work' t txns step _ ih =>
      obtain ⟨hhead, htail⟩ := List.pairwise_cons.mp hlast
      rw [List.length_cons] at hfit
      rw [ordinaryFrom_cons]
      by_cases ht : t.from ≠ kNullAddr ∧ t.from = a
      · rw [if_pos ht, List.map_cons, List.length_cons, List.range'_succ]
        rw [step.sender_nonce ht]
        by_cases hself : t.from = t.to
        · -- Nothing of this sender follows a self-transfer.
          have hnone : ordinaryFrom a txns = [] := by
            refine List.eq_nil_iff_forall_not_mem.mpr fun u hu => ?_
            obtain ⟨hmem, -, hfrom⟩ := mem_ordinaryFrom.mp hu
            exact hhead u hmem ⟨ht.1, hself⟩ (hfrom.trans ht.2.symm)
          rw [hnone]
          rfl
        · have hnext := step.nonce_of_transfer ht hself (by omega)
          rw [ih htail (by omega), hnext]
      · have hkeep := step.nonce_frame (.inl ht)
        rw [if_neg ht, ih htail (by rw [hkeep]; omega), hkeep]

/-- Conversely, nonces that count up leave no room after a self-transfer. -/
theorem History.selfTransfersLast (h : History work txns work')
    (hfit : ∀ a, (work.lookup a).nonce.toNat + txns.length < 2 ^ 64)
    (horder : ∀ a, (ordinaryFrom a txns).map (fun t => t.nonce.toNat) =
      List.range' (work.lookup a).nonce.toNat (ordinaryFrom a txns).length) :
    SelfTransfersLast txns := by
  induction h with
  | nil => exact List.Pairwise.nil
  | @cons work mid work' t txns step hrest ih =>
      have hnone : t.IsSelf → ordinaryFrom t.from txns = [] := by
        intro hself
        have hlist := horder t.from
        rw [ordinaryFrom_cons, if_pos ⟨hself.1, rfl⟩] at hlist
        cases hfirst : ordinaryFrom t.from txns with
        | nil => rfl
        | cons u rest =>
            -- The next transaction repeats the nonce instead of advancing it.
            have hnonce := hrest.next_nonce hfirst
            rw [step.nonce_frame (.inr hself.2)] at hnonce
            rw [hfirst] at hlist
            simp only [List.map_cons, List.length_cons, List.range'_succ, List.cons.injEq,
              hnonce] at hlist
            omega
      refine List.pairwise_cons.mpr ⟨fun u hu hself hfrom => ?_, ih (fun a => ?_) fun a => ?_⟩
      · have hmem : u ∈ ordinaryFrom t.from txns :=
          mem_ordinaryFrom.mpr ⟨hu, hfrom ▸ hself.1, hfrom⟩
        rw [hnone hself] at hmem
        exact List.not_mem_nil hmem
      · have hlen := hfit a
        rw [List.length_cons] at hlen
        have hnext := step.nonce_le (a := a) (by omega)
        omega
      · have hlist := horder a
        have hlen := hfit a
        rw [List.length_cons] at hlen
        rw [ordinaryFrom_cons] at hlist
        by_cases ht : t.from ≠ kNullAddr ∧ t.from = a
        · by_cases hself : t.from = t.to
          · have hempty := hnone ⟨ht.1, hself⟩
            rw [ht.2] at hempty
            rw [hempty]
            rfl
          · rw [if_pos ht, List.map_cons, List.length_cons, List.range'_succ] at hlist
            rw [step.nonce_of_transfer ht hself (by omega)]
            exact (List.cons_eq_cons.mp hlist).2
        · rw [if_neg ht] at hlist
          rw [step.nonce_frame (.inl ht)]
          exact hlist

/-! ### An accepted chain -/

omit [Crypto] in
/-- Nonces that count up are distinct, sender by sender and hence altogether. -/
theorem distinct_of_inOrder
    (h : ∀ a, (ordinaryFrom a txns).map (fun t => t.nonce.toNat) =
      List.range (ordinaryFrom a txns).length) :
    (txns.filter fun t => t.from ≠ kNullAddr).Pairwise
      fun t u => ¬(t.from = u.from ∧ t.nonce = u.nonce) := by
  have hnodup : ∀ a, ((ordinaryFrom a txns).map fun t => t.nonce.toNat).Nodup := by
    intro a
    rw [h a]
    exact List.nodup_range
  clear h
  induction txns with
  | nil => exact List.Pairwise.nil
  | cons t txns ih =>
      have htail : ∀ a, ((ordinaryFrom a txns).map fun t => t.nonce.toNat).Nodup := by
        intro a
        have hlist := hnodup a
        rw [ordinaryFrom_cons] at hlist
        split_ifs at hlist
        · exact (List.nodup_cons.mp hlist).2
        · exact hlist
      by_cases ht : t.from ≠ kNullAddr
      · rw [List.filter_cons_of_pos (by simpa using ht)]
        refine List.pairwise_cons.mpr ⟨fun u hu heq => ?_, ih htail⟩
        have hlist := hnodup t.from
        rw [ordinaryFrom_cons, if_pos ⟨ht, rfl⟩, List.map_cons] at hlist
        obtain ⟨hmem, hsender⟩ := List.mem_filter.mp hu
        have hu' : u ∈ ordinaryFrom t.from txns :=
          mem_ordinaryFrom.mpr ⟨hmem, of_decide_eq_true hsender, heq.1.symm⟩
        exact (List.nodup_cons.mp hlist).1
          (List.mem_map.mpr ⟨u, hu', congrArg UInt64.toNat heq.2.symm⟩)
      · rw [List.filter_cons_of_neg (by simpa using ht)]
        exact ih htail

/-- An accepted chain takes no signed transaction twice, and every sender's nonces
count up from zero, exactly when no sender signs anything after a self-transfer. -/
theorem noReplay_iff {now_s : UInt64} {D : UInt32} {reward : UInt64} {blocks : List Block}
    (hok : (replayFromGenesis blocks now_s D reward).ok = true)
    (hlength : (chainTxns blocks.tail).length < 2 ^ 64) :
    NoReplay (chainTxns blocks.tail) ↔ SelfTransfersLast (chainTxns blocks.tail) := by
  obtain ⟨s, hs, -⟩ := replayFromGenesis_ok_iff.mp hok
  obtain ⟨b₀, rest, rfl, -, hloop⟩ := replayBlocks_ok_iff.mp hs
  have hhistory : History applyGenesis (chainTxns rest) s.state := history_of_replayLoop hloop
  rw [List.tail_cons] at hlength ⊢
  have hzero : ∀ a, (applyGenesis.lookup a).nonce.toNat = 0 := by
    intro a
    rw [applyGenesis_nonce]
    rfl
  constructor
  · intro h
    refine hhistory.selfTransfersLast (fun a => ?_) fun a => ?_
    · rw [hzero]
      omega
    · rw [hzero, h.inOrder, List.range_eq_range']
  · intro h
    have horder : ∀ a, (ordinaryFrom a (chainTxns rest)).map (fun t => t.nonce.toNat) =
        List.range (ordinaryFrom a (chainTxns rest)).length := by
      intro a
      have hlist := hhistory.nonces_inOrder (a := a) h (by rw [hzero]; omega)
      rwa [hzero, ← List.range_eq_range'] at hlist
    exact ⟨horder, distinct_of_inOrder horder⟩

end Nonces

section Samples

attribute [local instance] sampleKeys

/-- Two copies of one signed self-payment are both committed, with the same nonce. -/
theorem self_transfer_replayed :
    (replayFromGenesis (sealedChain [[payNothing, payNothing]]).blocks genesisTimestamp 0 0).ok =
        true ∧
      (chainTxns (sealedChain [[payNothing, payNothing]]).blocks.tail).length < 2 ^ 64 ∧
        ¬NoReplay (chainTxns (sealedChain [[payNothing, payNothing]]).blocks.tail) := by
  obtain ⟨hok, htxns, -⟩ := sealedChain_accepted [[payNothing, payNothing]] 5000 (by decide)
    (by simp [maxTxnsPerBlock, signedSamples]) (by decide) (by decide)
  rw [htxns]
  refine ⟨hok, by decide, fun h => ?_⟩
  have hsender : payNothing.from ≠ kNullAddr := by decide
  have hpairs := h.distinct
  simp [hsender] at hpairs

/-- A chain of two transfers of one sender replays nothing. -/
theorem noReplay_of_transfer :
    chainTxns (sealedChain [[payOliver], [payOliverAgain]]).blocks.tail =
        [payOliver, payOliverAgain] ∧
      NoReplay (chainTxns (sealedChain [[payOliver], [payOliverAgain]]).blocks.tail) := by
  obtain ⟨hok, htxns, -⟩ := sealedChain_accepted [[payOliver], [payOliverAgain]] 5000 (by decide)
    (by simp [maxTxnsPerBlock, signedSamples]) (by decide) (by decide)
  refine ⟨htxns, (noReplay_iff hok ?_).mpr ?_⟩
  · rw [htxns]
    decide
  · -- neither pays its own sender
    rw [htxns]
    refine List.pairwise_pair.mpr fun hsame => ?_
    exact absurd hsame.2 (by decide)

end Samples

end TxChain
