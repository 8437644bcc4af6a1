import TxChain.Chain.Batch
import TxChain.Chain.Supply

/-!
# Independent transfers commute

Transactions of distinct senders wait for nothing but their own account. In any
order each of them finds its nonce as it was and its balance no smaller, and the
accounts they leave are read off the journal, whose totals do not depend on the
order. The gate writes whole records, so this rests on no credit wrapping.
-/

namespace TxChain

section Commutation

variable [Crypto] {work : AccountMap} {t : Txn} {txns order : List Txn}

/-- Transactions of distinct senders that a map admits one by one, in a world with less money
than a word counts. -/
structure Independent (work : AccountMap) (txns : List Txn) : Prop where
  authentic : ∀ t ∈ txns, t.Authentic
  spendable : ∀ t ∈ txns, t.Spendable (work.lookup t.from)
  distinct : (txns.map Txn.from).Nodup
  fits : work.total + (txns.map fun t => t.amount.toNat).sum < 2 ^ 64

theorem Independent.perm (h : Independent work txns) (horder : order.Perm txns) :
    Independent work order where
  authentic := fun t ht => h.authentic t (horder.mem_iff.mp ht)
  spendable := fun t ht => h.spendable t (horder.mem_iff.mp ht)
  distinct := (horder.map Txn.from).nodup_iff.mpr h.distinct
  fits := by
    rw [(horder.map fun t => t.amount.toNat).sum_eq]
    exact h.fits

omit [Crypto] in
theorem AccountMap.holdings_univ (work : AccountMap) : work.holdings Finset.univ = work.total :=
  work.total_eq.symm

/-- They are accepted one after the other. -/
theorem Independent.runs (h : Independent work txns) (blockIndex : UInt64) (ti : ℕ) :
    ∃ work', runTxns blockIndex ti work txns = some work' := by
  have hfit : work.holdings Finset.univ < 2 ^ 64 := by
    have := h.fits
    rw [work.holdings_univ]
    omega
  obtain ⟨work', hrun, -⟩ :=
    spend_batch h.distinct (fun t _ => Finset.mem_univ t.from) h.spendable hfit
  exact ⟨work', (runTxns_signed h.authentic).trans hrun⟩

omit [Crypto] in
theorem journal_amounts (txns : List Txn) :
    ((journal txns).map Ledger.Posting.amount).sum = (txns.map fun t => t.amount.toNat).sum := by
  rw [journal, List.map_map]
  rfl

/-- No credit wraps, so what an account ends with is read off the journal. -/
theorem Independent.balances (h : Independent work txns) {work' : AccountMap}
    (hhistory : History work txns work') (a : Address) :
    work'.balances a + Ledger.paid (journal txns) a =
      work.balances a + Ledger.received (journal txns) a := by
  obtain ⟨hcovered, hsettle⟩ := hhistory.settles
  have hissued := Ledger.issued_le (journal txns)
  rw [journal_amounts] at hissued
  have hfit := h.fits
  rw [work.total_eq] at hfit
  rw [hsettle]
  exact Ledger.settle_add_paid_of_total work.balances_lt hcovered (by omega) a

/-- Two orders of the same transactions leave every account in the same state. -/
theorem Independent.lookup_eq (h : Independent work txns) (horder : order.Perm txns)
    {w₁ w₂ : AccountMap} (h₁ : History work txns w₁) (h₂ : History work order w₂) (a : Address) :
    w₂.lookup a = w₁.lookup a := by
  have hjournal : (journal order).Perm (journal txns) := horder.map _
  have hbalance : w₂.balances a = w₁.balances a := by
    have hone := h.balances h₁ a
    have htwo := (h.perm horder).balances h₂ a
    rw [Ledger.paid_perm hjournal, Ledger.received_perm hjournal] at htwo
    omega
  have hnonce : (w₂.lookup a).nonce = (w₁.lookup a).nonce := by
    rw [h₂.nonce, h₁.nonce, spends, spends, horder.countP_eq]
  have hword : (w₂.lookup a).balance = (w₁.lookup a).balance := UInt64.toNat_inj.mp hbalance
  calc w₂.lookup a = ⟨(w₂.lookup a).balance, (w₂.lookup a).nonce⟩ := rfl
    _ = ⟨(w₁.lookup a).balance, (w₁.lookup a).nonce⟩ := by rw [hword, hnonce]
    _ = w₁.lookup a := rfl

/-- Transactions of distinct senders that the gate admits one by one, in any order: it admits
them one after the other, and all orders agree on every account. -/
theorem independent_transfers_commute (work : AccountMap) (txns : List Txn)
    (hsenders : ∀ t ∈ txns, t.from ≠ kNullAddr) (hdistinct : (txns.map Txn.from).Nodup)
    (haccepted : ∀ t ∈ txns, ∃ blockIndex txnIndex,
      (applyTxn work t blockIndex txnIndex).1 = .ok)
    (hfit : work.total + (txns.map fun t => t.amount.toNat).sum < 2 ^ 64) :
    ∃ final : Address → AccountState, ∀ order, order.Perm txns → ∀ blockIndex ti,
      ∃ work', runTxns blockIndex ti work order = some work' ∧
        ∀ a, work'.lookup a = final a := by
  have hsigned : ∀ t ∈ txns, t.Authentic ∧ t.Spendable (work.lookup t.from) := by
    intro t ht
    obtain ⟨blockIndex, txnIndex, hok⟩ := haccepted t ht
    rcases applyTxn_cases hok with ⟨-, hcoin, -⟩ | ⟨hauth, hspend, -⟩
    · exact absurd hcoin.sender (hsenders t ht)
    · exact ⟨hauth, hspend⟩
  have h : Independent work txns :=
    ⟨fun t ht => (hsigned t ht).1, fun t ht => (hsigned t ht).2, hdistinct, hfit⟩
  obtain ⟨first, hfirst⟩ := h.runs 0 0
  refine ⟨first.lookup, fun order horder blockIndex ti => ?_⟩
  obtain ⟨work', hrun⟩ := (h.perm horder).runs blockIndex ti
  exact ⟨work', hrun, h.lookup_eq horder (history_of_runTxns hfirst) (history_of_runTxns hrun)⟩

end Commutation

/-! ### Three demo accounts -/

def matthew : Address := bigEndian 0x25b3ab878b412c08679b9d2fd0a30bc528dc070d

/-- Oliver pays half of what racheal pays him. -/
def payBack : Txn where
  «from» := oliver
  «to» := racheal
  amount := 50
  pubkey := oliverKey
  sig := halves 0xb05c3c52e10d7b3365188e13e1cf0427ffe2124eccd9d49e7a701407af0b6cd6
    0x2055e86c7d2ffead688cd8c9cb996137e965ba73c2b2f4b6ddc00e1c06502f00

def paySelf : Txn where
  «from» := matthew
  «to» := matthew
  amount := 30
  pubkey := bigEndian 0x9af125161794766f61863964da18612d713b02440b6c7e29313f94e659008965
  sig := halves 0xf116ce86cd3c2a3acb5604e79c7051838b045daca3dc9b00f41d4f6264690712
    0x0a4545c93aeadf3715474ab69535ac1ede03dd83486d9673faf5d52bf2445201

def threePayments : List Txn := [payOliver, payBack, paySelf]

/-- Real SHA-256, and exactly the three signatures. -/
abbrev threeKeys : Crypto :=
  knownSignatures (threePayments.map fun t => (t.pubkey, t.sig, signedPayload t))

section Samples

attribute [local instance] threeKeys

theorem threePayments_authentic : ∀ t ∈ threePayments, t.Authentic := by
  intro t ht
  have haddress : ∀ t ∈ threePayments, t.from ≠ kNullAddr ∧
      t.from.toList = (address t.pubkey).toList := by decide +kernel
  obtain ⟨hsender, hfrom⟩ := haddress t ht
  exact ⟨hsender, Vector.toList_inj.mp hfrom, decide_eq_true (List.mem_map_of_mem ht)⟩

/-- All six orders end alike. -/
theorem threePayments_commute :
    ∃ final : Address → AccountState, ∀ order, order.Perm threePayments → ∀ blockIndex ti,
      ∃ work', runTxns blockIndex ti applyGenesis order = some work' ∧
        ∀ a, work'.lookup a = final a := by
  have hspend : ∀ t ∈ threePayments, t.nonce = (applyGenesis.lookup t.from).nonce ∧
      t.amount ≤ (applyGenesis.lookup t.from).balance := by decide +kernel
  refine independent_transfers_commute applyGenesis threePayments
    (fun t ht => (threePayments_authentic t ht).sender) (by decide +kernel) (fun t ht => ?_) ?_
  · refine ⟨1, 0, ?_⟩
    rw [applyTxn_signed (threePayments_authentic t ht) ⟨(hspend t ht).1, (hspend t ht).2⟩]
  · rw [applyGenesis_total]
    decide

end Samples

end TxChain
