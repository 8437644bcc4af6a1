import TxChain.Chain.Supply

/-!
# Issuance by one block

The rules on null-from transactions are spread over the loop of `applyBlockTxns`.
Together they leave two kinds of accepted blocks: those without such a transaction,
possible only while issuance is off, and those with one well-formed coinbase in
front. Nothing keeps the second kind out when issuance is off.
-/

namespace TxChain

section Issuance

variable [Crypto] {work : AccountMap} {b : Block} {reward : UInt64}

/-- What the null-from transactions of a block mint. -/
def minted (txns : List Txn) : ℕ :=
  ((txns.filter fun t => t.from = kNullAddr).map fun t => t.amount.toNat).sum

/-- A coinbase of block `idx` comes first and is the only null-from transaction. -/
def CoinbaseFirst (idx : UInt64) (txns : List Txn) : Prop :=
  ∃ t rest, txns = t :: rest ∧ t.IsCoinbaseAt idx ∧ ∀ u ∈ rest, u.from ≠ kNullAddr

/-- The block mints the configured reward, in the way the configuration names. -/
structure IssuesReward (b : Block) (reward : UInt64) : Prop where
  minted : minted b.txns = reward.toNat
  coinbase : reward = coinbaseReward → CoinbaseFirst b.header.index b.txns
  silent : reward = 0 → ∀ t ∈ b.txns, t.from ≠ kNullAddr

omit [Crypto] in
theorem minted_eq_zero {txns : List Txn} (h : ∀ t ∈ txns, t.from ≠ kNullAddr) :
    minted txns = 0 := by
  have hnone : (txns.filter fun t => t.from = kNullAddr) = [] := by
    apply List.filter_eq_nil_iff.mpr
    intro t ht
    simpa using h t ht
  rw [minted, hnone]
  rfl

omit [Crypto] in
theorem CoinbaseFirst.minted {idx : UInt64} {txns : List Txn} (h : CoinbaseFirst idx txns) :
    TxChain.minted txns = coinbaseReward.toNat := by
  obtain ⟨t, rest, rfl, hcoinbase, hrest⟩ := h
  have hothers := minted_eq_zero hrest
  unfold TxChain.minted at hothers ⊢
  rw [List.filter_cons_of_pos (by simpa using hcoinbase.sender), List.map_cons, List.sum_cons,
    hothers, hcoinbase.amount]
  rfl

/-- An accepted block has no null-from transaction, which only a chain without
rewards allows, or one coinbase in front. -/
theorem accepted_cases (hok : (applyBlockTxns work b reward).1.reason = .ok) :
    (¬0 < reward ∧ ∀ t ∈ b.txns, t.from ≠ kNullAddr) ∨ CoinbaseFirst b.header.index b.txns := by
  obtain ⟨hrun, hissue⟩ := applyBlockTxns_iff.mp ⟨hok, rfl⟩
  cases htxns : b.txns with
  | nil =>
      left
      rw [htxns] at hissue
      refine ⟨fun hreward => ?_, by simp⟩
      obtain ⟨t, ht, -⟩ := hissue hreward
      exact absurd ht List.not_mem_nil
  | cons t rest =>
      rw [htxns] at hrun hissue
      obtain ⟨hfirst, hrun'⟩ := runTxns_cons.mp hrun
      have hrest := sender_of_runTxns hrun'
      rcases applyTxn_cases hfirst with ⟨-, hcoinbase, -⟩ | ⟨hauth, -, -⟩
      · exact .inr ⟨t, rest, rfl, hcoinbase, hrest⟩
      · left
        have hall : ∀ u ∈ t :: rest, u.from ≠ kNullAddr :=
          List.forall_mem_cons.mpr ⟨hauth.sender, hrest⟩
        refine ⟨fun hreward => ?_, hall⟩
        obtain ⟨u, hu, hnull⟩ := hissue hreward
        exact hall u hu hnull

/-- An accepted block issues its reward exactly when issuance is on or the block does
not start with a null-from transaction. -/
theorem issues_reward_iff (hreward : reward = 0 ∨ reward = coinbaseReward)
    (hok : (applyBlockTxns work b reward).1.reason = .ok) :
    IssuesReward b reward ↔
      reward = coinbaseReward ∨ ∀ t, b.txns.head? = some t → t.from ≠ kNullAddr := by
  constructor
  · intro hissues
    rcases hreward with hzero | hon
    · right
      intro t ht
      exact hissues.silent hzero t (List.mem_of_mem_head? ht)
    · exact .inl hon
  · intro hcondition
    rcases accepted_cases hok with ⟨hoff, hnone⟩ | hcoinbase
    · have hzero : reward = 0 := by
        rcases hreward with hzero | rfl
        · exact hzero
        · exact absurd (by decide) hoff
      subst hzero
      refine ⟨minted_eq_zero hnone, ?_, fun _ => hnone⟩
      intro hon
      exact absurd hon (by decide)
    · have hon : reward = coinbaseReward := by
        refine hcondition.resolve_right fun hhead => ?_
        obtain ⟨t, rest, htxns, ht, -⟩ := hcoinbase
        exact hhead t (by rw [htxns]; rfl) ht.sender
      subst hon
      refine ⟨hcoinbase.minted, fun _ => hcoinbase, ?_⟩
      intro hzero
      exact absurd hzero (by decide)

/-- A block of one coinbase is accepted under either configuration. -/
theorem coinbase_accepted (dest : Address)
    (htxns : b.txns = [coinbaseTxn dest b.header.index]) :
    (applyBlockTxns work b reward).1.reason = .ok :=
  (applyBlockTxns_coinbase htxns (coinbaseTxn_isCoinbaseAt dest b.header.index)).1

end Issuance

section Samples

attribute [local instance] sampleKeys

/-- The first block after genesis, with a coinbase for oliver and nothing else. -/
def rewardBlock : Block := (Chain.new 0 0).nextBlock genesisTimestamp [coinbaseTxn oliver 1]

theorem rewardBlock_accepted (reward : UInt64) :
    (applyBlockTxns applyGenesis rewardBlock reward).1.reason = .ok :=
  coinbase_accepted oliver rfl

/-- A chain without rewards accepts a coinbase and mints it. -/
theorem coinbase_accepted_without_reward :
    ¬((applyBlockTxns applyGenesis rewardBlock 0).1.reason = .ok → IssuesReward rewardBlock 0) := by
  intro h
  have hissues := h (rewardBlock_accepted 0)
  exact hissues.silent rfl (coinbaseTxn oliver 1) (List.mem_singleton_self _) rfl

/-- With rewards on the same block issues exactly its reward. -/
theorem coinbase_issues_reward : IssuesReward rewardBlock coinbaseReward :=
  (issues_reward_iff (.inr rfl) (rewardBlock_accepted coinbaseReward)).mpr (.inl rfl)

end Samples

end TxChain
