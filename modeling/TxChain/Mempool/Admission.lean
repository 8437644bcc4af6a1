import TxChain.Mempool.Mempool

/-!
# Admission and inclusion

Away from the coinbase the gate looks at the sender's account and at nothing else of
the ledger, neither the block nor the position. That is why admission may run it on a
map of one entry: `gateReason` is the verdict both runs give, and admission puts the
checks of the pool around it without changing its order.
-/

namespace TxChain

variable [Crypto]

/-- The verdict of the gate on a transaction that is no coinbase, given the account
of its sender. -/
def gateReason (account : AccountState) (t : Txn) : Reason :=
  if t.from = kNullAddr then .badTxnsHash
  else if t.from ≠ address t.pubkey then .badAddr
  else if ¬Crypto.verify t.pubkey t.sig (signedPayload t) then .badSig
  else if t.nonce ≠ account.nonce then .staleNonce
  else if t.amount > account.balance then .insufficientFunds
  else .ok

theorem applyTxn_gateReason {work : AccountMap} {t : Txn} {blockIndex : UInt64} {txnIndex : ℕ}
    (h : t.from ≠ kNullAddr ∨ txnIndex ≠ 0) :
    (applyTxn work t blockIndex txnIndex).1 = gateReason (work.lookup t.from) t := by
  rw [applyTxn, gateReason]
  by_cases hnull : t.from = kNullAddr
  · rw [if_pos hnull, if_pos hnull, if_pos (h.resolve_left (not_not.mpr hnull))]
  · simp only [if_neg hnull, addressMatches_iff, ne_eq]
    split_ifs <;> rfl

namespace Mempool

/-- The tests of an admission in their normative order; the first that fails names
the verdict. -/
def verdict (mp : Mempool) (accountAt : AccountLookup) (t : Txn) : AdmitResult :=
  if t.ver ≠ kTxnVersion then .unparseable
  else if mp.byTxid[txid t]? ≠ none then .duplicate
  else if t.from = kNullAddr ∨ t.from ≠ address t.pubkey then .badAddr
  else if ¬Crypto.verify t.pubkey t.sig (signedPayload t) then .badSig
  else if t.nonce ≠ (accountAt t.from).nonce then .staleNonce
  else if mp.bySender[t.from]? ≠ none then .pendingSlotBusy
  else if t.amount > (accountAt t.from).balance then .insufficientFunds
  else if mp.byTxid.size ≥ mp.cap then .mempoolFull
  else .ok

variable (mp : Mempool) (accountAt : AccountLookup) (t : Txn)

theorem admitTxn_verdict : (mp.admitTxn accountAt t).1 = mp.verdict accountAt t := by
  have hgate : (applyTxn (AccountMap.set ∅ t.from (accountAt t.from)) t 0 1).1 =
      gateReason (accountAt t.from) t := by
    rw [applyTxn_gateReason (.inr Nat.one_ne_zero), AccountMap.lookup_set, if_pos rfl]
  simp only [admitTxn, verdict, hgate, gateReason]
  by_cases hver : t.ver ≠ kTxnVersion
  · simp [hver]
  by_cases hdup : mp.byTxid[txid t]? ≠ none
  · simp [hver, hdup]
  rw [if_neg hver, if_neg hdup, if_neg hver, if_neg hdup]
  -- from here on the gate's verdict selects the branch of both sides
  by_cases hnull : t.from = kNullAddr
  · simp [hnull]
  by_cases haddr : t.from ≠ address t.pubkey
  · simp [hnull, haddr, reasonToAdmit]
  by_cases hsig : ¬Crypto.verify t.pubkey t.sig (signedPayload t)
  · simp [hnull, haddr, hsig, reasonToAdmit]
  by_cases hnonce : t.nonce ≠ (accountAt t.from).nonce
  · simp [hnull, haddr, hsig, hnonce, reasonToAdmit]
  by_cases hslot : mp.bySender[t.from]? ≠ none
  · by_cases hfunds : t.amount > (accountAt t.from).balance <;>
      simp [hnull, haddr, hsig, hnonce, hslot, hfunds]
  by_cases hfunds : t.amount > (accountAt t.from).balance
  · simp [hnull, haddr, hsig, hnonce, hslot, hfunds]
  by_cases hfull : mp.byTxid.size ≥ mp.cap <;>
    simp [hnull, haddr, hsig, hnonce, hslot, hfunds, hfull]

/-- On a ledger that agrees with the lookup, a verdict outside the pool's own checks
is the gate's. -/
theorem verdict_of_gate (hver : t.ver = kTxnVersion)
    (hgate : gateReason (accountAt t.from) t = .ok) :
    mp.verdict accountAt t ∈
      [AdmitResult.ok, .duplicate, .pendingSlotBusy, .mempoolFull] := by
  rw [gateReason] at hgate
  split_ifs at hgate with hnull haddr hsig hnonce hfunds
  rw [verdict, if_neg (not_not.mpr hver), if_neg (not_or.mpr ⟨hnull, haddr⟩),
    if_neg (not_not.mpr hsig), if_neg hnonce, if_neg hfunds]
  split_ifs <;> simp

theorem gate_of_verdict (hok : mp.verdict accountAt t = .ok) :
    t.from ≠ kNullAddr ∧ gateReason (accountAt t.from) t = .ok := by
  rw [verdict] at hok
  split_ifs at hok with hver hdup haddr hsig hnonce hslot hfunds hfull
  obtain ⟨hnull, haddr⟩ := not_or.mp haddr
  refine ⟨hnull, ?_⟩
  rw [gateReason, if_neg hnull, if_neg haddr, if_neg (not_not.mpr hsig), if_neg hnonce,
    if_neg hfunds]

/-- Admission answers with the first test that fails and changes the pool on no other
answer than OK; what it admits the gate accepts on every ledger the lookup describes,
at any place, and what the gate accepts there only the pool's own checks refuse. -/
theorem admission_agrees_with_inclusion :
    (mp.admitTxn accountAt t).1 = mp.verdict accountAt t ∧
      ((mp.admitTxn accountAt t).1 ≠ .ok → (mp.admitTxn accountAt t).2 = mp) ∧
      ((mp.admitTxn accountAt t).1 = .ok → ∀ (work : AccountMap) (blockIndex : UInt64)
        (txnIndex : ℕ), (∀ a, work.lookup a = accountAt a) →
          (applyTxn work t blockIndex txnIndex).1 = .ok) ∧
      ∀ (work : AccountMap) (blockIndex : UInt64) (txnIndex : ℕ),
        (∀ a, work.lookup a = accountAt a) → t.ver = kTxnVersion → t.from ≠ kNullAddr →
          (applyTxn work t blockIndex txnIndex).1 = .ok →
            (mp.admitTxn accountAt t).1 ∈
              [AdmitResult.ok, .duplicate, .pendingSlotBusy, .mempoolFull] := by
  refine ⟨mp.admitTxn_verdict accountAt t, ?_, ?_, ?_⟩
  · intro hrefused
    rcases mp.admitTxn_cases accountAt t with ⟨-, hok⟩ | ⟨-, hsame⟩
    · rw [hok] at hrefused
      exact absurd rfl hrefused
    · exact hsame
  · intro hok work blockIndex txnIndex hview
    rw [admitTxn_verdict] at hok
    obtain ⟨hsender, hgate⟩ := mp.gate_of_verdict accountAt t hok
    rw [applyTxn_gateReason (.inl hsender), hview]
    exact hgate
  · intro work blockIndex txnIndex hview hver hsender haccepted
    rw [applyTxn_gateReason (.inl hsender), hview] at haccepted
    rw [admitTxn_verdict]
    exact mp.verdict_of_gate accountAt t hver haccepted

end Mempool

end TxChain
