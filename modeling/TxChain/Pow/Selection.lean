import TxChain.Pow.Candidate

/-!
# A candidate leaves nothing out

The greedy selection skips what the shadow of the ledger cannot spend. Pending transactions
have distinct senders and are spendable at the tip, so as long as the money fits a word there
is nothing to skip, and the candidate holds the coinbase and the front of the queue.
-/

namespace TxChain

/-- Credits before anything is spent. -/
theorem AccountMap.holdings_credit_le (work : AccountMap) (a : Address) (amount : UInt64) :
    (work.credit a amount).holdings Finset.univ ≤ work.holdings Finset.univ + amount.toNat := by
  have hone : ∀ b, ((work.credit a amount).lookup b).balance.toNat ≤
      (work.lookup b).balance.toNat + if b = a then amount.toNat else 0 := by
    intro b
    rw [AccountMap.lookup_credit]
    split
    next heq =>
      rw [heq, UInt64.toNat_add]
      exact Nat.mod_le _ _
    next => exact Nat.le_add_right _ _
  calc (work.credit a amount).holdings Finset.univ
      ≤ ∑ b, ((work.lookup b).balance.toNat + if b = a then amount.toNat else 0) :=
        Finset.sum_le_sum fun b _ => hone b
    _ = work.holdings Finset.univ + amount.toNat := by
        rw [Finset.sum_add_distrib, Finset.sum_ite_eq' Finset.univ a, if_pos (Finset.mem_univ a)]
        rfl

/-- A credit that fits leaves everyone with what they had, or more. -/
theorem AccountMap.keeps_credit {work : AccountMap} {amount : UInt64}
    (hfit : work.holdings Finset.univ + amount.toNat < 2 ^ 64) (a b : Address) :
    (work.lookup b).Keeps ((work.credit a amount).lookup b) := by
  rw [AccountMap.lookup_credit]
  split
  next heq =>
    have hle := work.le_holdings (Finset.mem_univ a)
    subst heq
    refine ⟨rfl, ?_⟩
    rw [UInt64.le_iff_toNat_le, UInt64.toNat_add, Nat.mod_eq_of_lt (by omega)]
    exact Nat.le_add_right _ _
  next => exact .refl _

/-- Spendable transactions are selected one by one until the block is full. -/
theorem select_all (accountAt : AccountLookup) {entries : List MempoolEntry} {txns : List Txn}
    {shadow work : AccountMap} {accounts : Finset Address}
    (hsenders : (entries.map fun e => e.txn.from).Nodup)
    (hview : ∀ e ∈ entries, peek accountAt shadow e.txn.from = work.lookup e.txn.from)
    (hmem : ∀ e ∈ entries, e.txn.from ∈ accounts)
    (hspend : ∀ e ∈ entries, e.txn.Spendable (work.lookup e.txn.from))
    (hfit : work.holdings accounts < 2 ^ 64) :
    select accountAt entries txns shadow =
      txns ++ (entries.map MempoolEntry.txn).take (maxTxnsPerBlock - txns.length) := by
  induction entries generalizing txns shadow work accounts with
  | nil => rw [select, List.map_nil, List.take_nil, List.append_nil]
  | cons e rest ih =>
      obtain ⟨hfresh, hrest⟩ := List.nodup_cons.mp hsenders
      obtain ⟨he, hothers⟩ := List.forall_mem_cons.mp hview
      obtain ⟨hemem, hrestmem⟩ := List.forall_mem_cons.mp hmem
      obtain ⟨hespend, hrestspend⟩ := List.forall_mem_cons.mp hspend
      have hne : ∀ e' ∈ rest, e'.txn.from ≠ e.txn.from := by
        intro e' he' heq
        exact hfresh (List.mem_map.mpr ⟨e', he', heq⟩)
      rw [select]
      split
      next hfull =>
        have hnone : maxTxnsPerBlock - txns.length = 0 := Nat.sub_eq_zero_of_le hfull
        rw [hnone, List.take_zero, List.append_nil]
      next hroom =>
        let touched := touch accountAt (touch accountAt shadow e.txn.from) e.txn.to
        have htouched : ∀ a, peek accountAt touched a = peek accountAt shadow a := by
          intro a
          rw [peek_touch, peek_touch]
        have hsender : touched.lookup e.txn.from = work.lookup e.txn.from := by
          rw [lookup_of_mem (mem_touch e.txn.to (mem_touch_self e.txn.from)), htouched, he]
        have hnonce : ¬e.txn.nonce ≠ (touched.lookup e.txn.from).nonce := by
          rw [hsender]
          exact not_not.mpr hespend.nonce
        have hfunds : ¬e.txn.amount > (touched.lookup e.txn.from).balance := by
          rw [hsender]
          exact UInt64.not_lt.mpr hespend.funds
        have hwaits : ∀ e' ∈ rest, e'.txn.from ∈ accounts.erase e.txn.from :=
          fun e' he' => Finset.mem_erase.mpr ⟨hne e' he', hrestmem e' he'⟩
        have hlater : ∀ e' ∈ rest, peek accountAt (settle touched e.txn) e'.txn.from =
            (work.transfer e.txn).lookup e'.txn.from := fun e' he' =>
          peek_settle_eq (mem_touch_self e.txn.to) (hne e' he')
            ((htouched _).trans (hothers e' he'))
        have hstill : ∀ e' ∈ rest, e'.txn.Spendable ((work.transfer e.txn).lookup e'.txn.from) :=
          fun e' he' => (hrestspend e' he').mono
            (keeps_transfer hemem (hwaits e' he') hespend.funds hfit)
        have hnext : select accountAt rest (txns ++ [e.txn]) (settle touched e.txn) =
            txns ++ [e.txn] ++
              (rest.map MempoolEntry.txn).take (maxTxnsPerBlock - (txns ++ [e.txn]).length) :=
          ih hrest hlater hwaits hstill ((holdings_transfer hemem hespend.funds).trans_lt hfit)
        have hleft : maxTxnsPerBlock - txns.length =
            maxTxnsPerBlock - (txns ++ [e.txn]).length + 1 := by
          rw [List.length_append, List.length_singleton]
          omega
        dsimp only
        rw [if_neg hnonce, if_neg hfunds, hnext, hleft, List.map_cons, List.take_succ_cons,
          List.append_assoc, List.singleton_append]

section Full

variable [Crypto]

/-- With room for the reward, a candidate over spendable transactions is full. -/
theorem buildCandidate_full {mp : Mempool} (hmp : mp.WellIndexed) {state : AccountMap}
    (hspend : ∀ t ∈ mp.sortedBySeq.map MempoolEntry.txn, t.Spendable (state.lookup t.from))
    (hfit : state.holdings Finset.univ + coinbaseReward.toNat < 2 ^ 64)
    (minerAddr : Address) (tipIndex : UInt64) (tipHash : Hash256) (tipTimestamp now_s : UInt64) :
    (buildCandidate minerAddr tipIndex tipHash tipTimestamp now_s mp state.lookup).txns =
      coinbaseTxn minerAddr (tipIndex + 1) ::
        (mp.sortedBySeq.map MempoolEntry.txn).take (maxTxnsPerBlock - 1) := by
  have hminer : (touch state.lookup ∅ minerAddr).lookup minerAddr = state.lookup minerAddr := by
    rw [lookup_of_mem (mem_touch_self minerAddr), peek_touch]
    exact peek_of_not_mem Std.TreeMap.not_mem_emptyc
  have hview : ∀ a,
      peek state.lookup ((touch state.lookup ∅ minerAddr).credit minerAddr coinbaseReward) a =
      (state.credit minerAddr coinbaseReward).lookup a := by
    intro a
    rw [peek_credit, hminer, AccountMap.lookup_credit, peek_touch]
    split
    next => rfl
    next => exact peek_of_not_mem Std.TreeMap.not_mem_emptyc
  have hcredited : ∀ e ∈ mp.sortedBySeq,
      e.txn.Spendable ((state.credit minerAddr coinbaseReward).lookup e.txn.from) :=
    fun e he => (hspend _ (List.mem_map_of_mem he)).mono (AccountMap.keeps_credit hfit _ _)
  rw [buildCandidate]
  dsimp only
  rw [select_all state.lookup hmp.senders_nodup (fun e _ => hview e.txn.from)
    (fun e _ => Finset.mem_univ e.txn.from) hcredited
    ((state.holdings_credit_le minerAddr coinbaseReward).trans_lt hfit)]
  rfl

end Full

end TxChain
