import TxChain.Chain.Gate

/-!
# Batches with one transaction a sender

Follow a batch with the set of accounts that have not spent yet. What these hold
together never grows: a spender leaves the set with all it has, and at most that
comes back as a credit. So while their money fits a word no credit wraps, an account
that waits for its turn only gains, and its transaction stays spendable.
-/

namespace TxChain

/-- What a set of accounts holds together. -/
def AccountMap.holdings (work : AccountMap) (accounts : Finset Address) : ℕ :=
  ∑ a ∈ accounts, (work.lookup a).balance.toNat

/-- An account that may have gained and has not signed anything. -/
structure AccountState.Keeps (before after : AccountState) : Prop where
  nonce : after.nonce = before.nonce
  balance : before.balance ≤ after.balance

theorem AccountState.Keeps.refl (s : AccountState) : s.Keeps s := ⟨rfl, UInt64.le_refl _⟩

theorem AccountState.Keeps.trans {s₀ s₁ s₂ : AccountState} (h₁ : s₀.Keeps s₁) (h₂ : s₁.Keeps s₂) :
    s₀.Keeps s₂ :=
  ⟨h₂.nonce.trans h₁.nonce, UInt64.le_trans h₁.balance h₂.balance⟩

/-- What an account could spend before it gained, it can still spend. -/
theorem Txn.Spendable.mono {t : Txn} {before after : AccountState} (h : t.Spendable before)
    (hkeeps : before.Keeps after) : t.Spendable after :=
  ⟨h.nonce.trans hkeeps.nonce.symm, UInt64.le_trans h.funds hkeeps.balance⟩

section Batch

variable {work : AccountMap} {t : Txn} {accounts : Finset Address}

theorem AccountMap.le_holdings (work : AccountMap) {a : Address} (ha : a ∈ accounts) :
    (work.lookup a).balance.toNat ≤ work.holdings accounts :=
  Finset.single_le_sum (f := fun b => (work.lookup b).balance.toNat) (fun _ _ => Nat.zero_le _) ha

theorem AccountMap.holdings_erase (work : AccountMap) {a : Address} (ha : a ∈ accounts) :
    (work.lookup a).balance.toNat + work.holdings (accounts.erase a) = work.holdings accounts :=
  Finset.add_sum_erase accounts (fun b => (work.lookup b).balance.toNat) ha

/-- A credit that wraps leaves less than it should, never more. -/
theorem transfer_balance_le {a : Address} (ha : a ≠ t.from) :
    ((work.transfer t).lookup a).balance.toNat ≤
      (work.lookup a).balance.toNat + if a = t.to then t.amount.toNat else 0 := by
  rw [AccountMap.lookup_transfer, if_neg ha]
  split
  next heq =>
    subst heq
    show ((work.lookup t.to).balance + t.amount).toNat ≤ _
    rw [UInt64.toNat_add]
    exact Nat.mod_le _ _
  next => exact Nat.le_add_right _ _

/-- The accounts that wait hold no more after a spender left them. -/
theorem holdings_transfer (hmem : t.from ∈ accounts)
    (hfunds : t.amount ≤ (work.lookup t.from).balance) :
    (work.transfer t).holdings (accounts.erase t.from) ≤ work.holdings accounts := by
  have hle : (work.transfer t).holdings (accounts.erase t.from) ≤
      work.holdings (accounts.erase t.from) + t.amount.toNat := by
    calc (work.transfer t).holdings (accounts.erase t.from)
        ≤ ∑ a ∈ accounts.erase t.from,
            ((work.lookup a).balance.toNat + if a = t.to then t.amount.toNat else 0) :=
          Finset.sum_le_sum fun a ha => transfer_balance_le (Finset.ne_of_mem_erase ha)
      _ = work.holdings (accounts.erase t.from) +
            ∑ a ∈ accounts.erase t.from, if a = t.to then t.amount.toNat else 0 :=
          Finset.sum_add_distrib
      _ ≤ work.holdings (accounts.erase t.from) + t.amount.toNat := by
          rw [Finset.sum_ite_eq']
          split <;> omega
  have hamount := UInt64.le_iff_toNat_le.mp hfunds
  have hsum := work.holdings_erase hmem
  omega

/-- While the money of the waiting accounts fits a word, each of them keeps what it has. -/
theorem keeps_transfer {a : Address} (hmem : t.from ∈ accounts) (ha : a ∈ accounts.erase t.from)
    (hfunds : t.amount ≤ (work.lookup t.from).balance) (hfit : work.holdings accounts < 2 ^ 64) :
    (work.lookup a).Keeps ((work.transfer t).lookup a) := by
  rw [AccountMap.lookup_transfer, if_neg (Finset.ne_of_mem_erase ha)]
  split
  next heq =>
    subst heq
    refine ⟨rfl, ?_⟩
    have hamount := UInt64.le_iff_toNat_le.mp hfunds
    have hsum := work.holdings_erase hmem
    have hone := work.le_holdings ha
    rw [UInt64.le_iff_toNat_le, UInt64.toNat_add, Nat.mod_eq_of_lt (by omega)]
    exact Nat.le_add_right _ _
  next => exact .refl _

/-- A batch of spendable transactions with distinct senders is spent in full, and
whoever did not send one keeps what it has. -/
theorem spend_batch {txns : List Txn} (hsenders : (txns.map Txn.from).Nodup)
    (hmem : ∀ t ∈ txns, t.from ∈ accounts)
    (hspend : ∀ t ∈ txns, t.Spendable (work.lookup t.from))
    (hfit : work.holdings accounts < 2 ^ 64) :
    ∃ work', txns.foldlM spend work = some work' ∧
      ∀ a ∈ accounts, a ∉ txns.map Txn.from → (work.lookup a).Keeps (work'.lookup a) := by
  induction txns generalizing work accounts with
  | nil => exact ⟨work, rfl, fun a _ _ => .refl _⟩
  | cons t rest ih =>
      obtain ⟨hfresh, hdistinct⟩ := List.nodup_cons.mp hsenders
      obtain ⟨htmem, hrestmem⟩ := List.forall_mem_cons.mp hmem
      obtain ⟨ht, hrest⟩ := List.forall_mem_cons.mp hspend
      have hwaits : ∀ t' ∈ rest, t'.from ∈ accounts.erase t.from := by
        intro t' ht'
        refine Finset.mem_erase.mpr ⟨?_, hrestmem t' ht'⟩
        intro heq
        exact hfresh (List.mem_map.mpr ⟨t', ht', heq⟩)
      have hkeeps : ∀ a ∈ accounts.erase t.from,
          (work.lookup a).Keeps ((work.transfer t).lookup a) :=
        fun a ha => keeps_transfer htmem ha ht.funds hfit
      obtain ⟨work', hrun, hothers⟩ := ih hdistinct hwaits
        (fun t' ht' => (hrest t' ht').mono (hkeeps t'.from (hwaits t' ht')))
        ((holdings_transfer htmem ht.funds).trans_lt hfit)
      refine ⟨work', ?_, fun a ha hnot => ?_⟩
      · rw [List.foldlM_cons, spend_eq ht]
        exact hrun
      · obtain ⟨hne, hnotrest⟩ := not_or.mp (List.mem_cons.not.mp hnot)
        have hwaiting := Finset.mem_erase.mpr ⟨hne, ha⟩
        exact (hkeeps a hwaiting).trans (hothers a hwaiting hnotrest)

end Batch

end TxChain
