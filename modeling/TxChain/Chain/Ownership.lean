import TxChain.Chain.Nonces

/-!
# Ownership

No coins leave an account without its owner's signature. The coinbase exemption
from the signature check only ever credits, so a balance that fell or a nonce that
moved points to a signed transaction of that account in the block.
-/

namespace TxChain

section Ownership

variable [Crypto] {work work' : AccountMap} {t : Txn} {txns : List Txn} {a : Address}
  {blockIndex : UInt64}

/-- The gate reads the scratch map `w` when it reaches the transaction `t` of a block. -/
def MeetsAt (work : AccountMap) (b : Block) (w : AccountMap) (t : Txn) : Prop :=
  ∃ pre post, b.txns = pre ++ t :: post ∧ runTxns b.header.index 0 work pre = some w

theorem runTxns_append {ti : ℕ} {pre post : List Txn} :
    runTxns blockIndex ti work (pre ++ post) =
      (runTxns blockIndex ti work pre).bind fun w =>
        runTxns blockIndex (ti + pre.length) w post := by
  induction pre generalizing ti work with
  | nil => rfl
  | cons t pre ih =>
      rw [List.cons_append, runTxns, runTxns]
      split
      · rw [ih, List.length_cons, Nat.add_right_comm, Nat.add_assoc]
      · rfl

/-- Credits that fit along the run of the gate fit along the journal. -/
theorem fits_of_runTxns {ti : ℕ} (h : runTxns blockIndex ti work txns = some work')
    (hfit : ∀ pre t post w, txns = pre ++ t :: post → runTxns blockIndex ti work pre = some w →
      w.balances t.to + t.amount.toNat < 2 ^ 64) :
    Ledger.Fits (2 ^ 64) work.balances (journal txns) := by
  induction txns generalizing ti work with
  | nil => trivial
  | cons t rest ih =>
      obtain ⟨hok, hrest⟩ := runTxns_cons.mp h
      have hpost := (applies_of_applyTxn hok).posts.2
      refine ⟨hfit [] t rest work rfl rfl, ?_⟩
      rw [← hpost]
      refine ih hrest fun pre u post w hsplit hw => ?_
      exact hfit (t :: pre) u post w (by rw [hsplit]; rfl) (runTxns_cons.mpr ⟨hok, hw⟩)

/-- Every debit of an accepted block is covered when the gate makes it. -/
theorem debit_covered {b : Block} {reward : UInt64}
    (h : (applyBlockTxns work b reward).1.reason = .ok) {w : AccountMap}
    (hmeets : MeetsAt work b w t) (hsender : t.from ≠ kNullAddr) :
    t.amount ≤ (w.lookup t.from).balance := by
  obtain ⟨pre, post, hsplit, hw⟩ := hmeets
  have hrun := runTxns_of_applyBlockTxns h
  rw [hsplit, runTxns_append, hw, Option.bind_some] at hrun
  have hstep := applies_of_applyTxn (runTxns_cons.mp hrun).1
  exact (hstep.authentic_of_sender hsender).2.funds

/-- A debited account signed for it. -/
theorem History.owner_of_debit (h : History work txns work')
    (hdebit : ∃ t ∈ txns, t.posting.debit = some a) :
    ∃ t ∈ txns, t.from = a ∧ t.Authentic := by
  induction h with
  | nil => exact absurd hdebit (by simp)
  | @cons work mid work' t rest step _ ih =>
      obtain ⟨u, hu, hdebit⟩ := hdebit
      rcases List.mem_cons.mp hu with rfl | hu
      · obtain ⟨hfrom, hsender, -⟩ := Txn.posting_debit_eq_some.mp hdebit
        exact ⟨u, by simp, hfrom, (step.authentic_of_sender hsender).1⟩
      · obtain ⟨v, hv, hauth⟩ := ih ⟨u, hu, hdebit⟩
        exact ⟨v, List.mem_cons_of_mem _ hv, hauth⟩

omit [Crypto] in
theorem exists_debit_of_paid (h : 0 < Ledger.paid (journal txns) a) :
    ∃ t ∈ txns, t.posting.debit = some a := by
  by_contra hnone
  have hzero : ∀ x ∈ (journal txns).map (·.paid a), x = 0 := by
    intro x hx
    obtain ⟨p, hp, rfl⟩ := List.mem_map.mp hx
    obtain ⟨t, ht, rfl⟩ := List.mem_map.mp hp
    exact if_neg fun hdebit => hnone ⟨t, ht, hdebit⟩
  rw [Ledger.paid, List.sum_eq_zero hzero] at h
  exact absurd h (Nat.lt_irrefl 0)

theorem History.exists_debit_of_nonce (h : History work txns work')
    (hnonce : (work'.lookup a).nonce ≠ (work.lookup a).nonce) :
    ∃ t ∈ txns, t.posting.debit = some a := by
  by_contra hnone
  have hspends : spends a txns = 0 := by
    refine List.countP_eq_zero.mpr fun t ht hdebit => hnone ⟨t, ht, of_decide_eq_true hdebit⟩
  have hkeep := h.nonce a
  rw [hspends] at hkeep
  exact hnonce (hkeep.trans (UInt64.add_zero _))

omit [Crypto] in
/-- An account pays out of its own transactions only. -/
theorem paid_le_ordinaryFrom (a : Address) (txns : List Txn) :
    Ledger.paid (journal txns) a ≤ ((ordinaryFrom a txns).map fun t => t.amount.toNat).sum := by
  induction txns with
  | nil => exact Nat.zero_le _
  | cons t rest ih =>
      rw [journal_cons, Ledger.paid_cons, t.posting_paid, ordinaryFrom_cons]
      by_cases hpays : t.from = a ∧ t.from ≠ kNullAddr ∧ t.from ≠ t.to
      · rw [if_pos hpays, if_pos ⟨hpays.2.1, hpays.1⟩, List.map_cons, List.sum_cons]
        omega
      · rw [if_neg hpays]
        split_ifs
        · rw [List.map_cons, List.sum_cons]
          omega
        · omega

/-- An account no transaction names stays exactly as it was. -/
theorem History.frame (h : History work txns work') (hout : ∀ t ∈ txns, t.from ≠ a ∧ t.to ≠ a) :
    work'.lookup a = work.lookup a := by
  induction h with
  | nil => rfl
  | @cons work mid work' t rest step _ ih =>
      obtain ⟨⟨hfrom, hto⟩, hrest⟩ := List.forall_mem_cons.mp hout
      rw [ih hrest]
      cases step with
      | coinbase _ _ => rw [AccountMap.lookup_credit, if_neg (Ne.symm hto)]
      | signed _ _ =>
          rw [AccountMap.lookup_transfer, if_neg (Ne.symm hto), if_neg (Ne.symm hfrom)]

/-- In an accepted block whose credits fit a word, whoever lost coins or advanced a
nonce signed for it, losses are bounded by what was signed, no debit underflows and
nobody else is touched. -/
theorem no_coins_move_without_signature {b : Block} {reward : UInt64}
    (hok : (applyBlockTxns work b reward).1.reason = .ok)
    (hfit : ∀ w t, MeetsAt work b w t →
      (w.lookup t.to).balance.toNat + t.amount.toNat < 2 ^ 64) :
    let work' := (applyBlockTxns work b reward).2
    (∀ a, (work'.lookup a).balance < (work.lookup a).balance ∨
        (work'.lookup a).nonce ≠ (work.lookup a).nonce →
      ∃ t ∈ b.txns, t.from = a ∧ a = address t.pubkey ∧
        Crypto.verify t.pubkey t.sig (signedPayload t) = true) ∧
    (∀ a, (work.lookup a).balance.toNat ≤ (work'.lookup a).balance.toNat +
      ((ordinaryFrom a b.txns).map fun t => t.amount.toNat).sum) ∧
    (∀ w t, MeetsAt work b w t → t.from ≠ kNullAddr → t.amount ≤ (w.lookup t.from).balance) ∧
    (∀ a, (∀ t ∈ b.txns, t.from ≠ a ∧ t.to ≠ a) → work'.lookup a = work.lookup a) := by
  intro work'
  have hhistory : History work b.txns work' := history_of_applyBlockTxns hok
  obtain ⟨hcovered, hsettle⟩ := hhistory.settles
  have hfits := fits_of_runTxns (runTxns_of_applyBlockTxns hok)
    fun pre t post w hsplit hw => hfit w t ⟨pre, post, hsplit, hw⟩
  have hbooks : ∀ a, work'.balances a + Ledger.paid (journal b.txns) a =
      work.balances a + Ledger.received (journal b.txns) a := by
    intro a
    rw [hsettle]
    exact Ledger.settle_add_paid_of_fits work.balances_lt hcovered hfits a
  refine ⟨fun a hmoved => ?_, fun a => ?_, fun w t hmeets hsender => ?_, fun a => hhistory.frame⟩
  · have hdebit : ∃ t ∈ b.txns, t.posting.debit = some a := by
      rcases hmoved with hless | hnonce
      · have hlost : work'.balances a < work.balances a := UInt64.lt_iff_toNat_lt.mp hless
        have := hbooks a
        exact exists_debit_of_paid (by omega)
      · exact hhistory.exists_debit_of_nonce hnonce
    obtain ⟨t, ht, hfrom, hauth⟩ := hhistory.owner_of_debit hdebit
    exact ⟨t, ht, hfrom, hfrom ▸ hauth.address, hauth.signature⟩
  · have hle := paid_le_ordinaryFrom a b.txns
    have := hbooks a
    simp only [AccountMap.balances] at this
    omega
  · exact debit_covered hok hmeets hsender

end Ownership

section Samples

attribute [local instance] sampleKeys

/-- The demo account lost 100 coins in this block, so it signed for them. -/
theorem transfer_needs_signature :
    ∃ t ∈ ((Chain.new 0 0).nextBlock 0 [payOliver]).txns, t.from = racheal ∧
      racheal = address t.pubkey ∧ Crypto.verify t.pubkey t.sig (signedPayload t) = true := by
  have hspend : ([payOliver].foldlM spend applyGenesis).map (fun w => w.lookup racheal) =
      some ⟨900, 1⟩ := by decide
  obtain ⟨w', hrun, hlookup⟩ := Option.map_eq_some_iff.mp hspend
  have happ : (applyBlockTxns applyGenesis ((Chain.new 0 0).nextBlock 0 [payOliver]) 0).1.reason =
      .ok ∧ (applyBlockTxns applyGenesis ((Chain.new 0 0).nextBlock 0 [payOliver]) 0).2 = w' :=
    applyBlockTxns_iff.mpr
      ⟨(runTxns_signed payOliver_signed).trans hrun, fun h => absurd h (by decide)⟩
  refine (no_coins_move_without_signature happ.1 fun w t hmeets => ?_).1 racheal (.inl ?_)
  · obtain ⟨pre, post, hsplit, hw⟩ := hmeets
    have hfirst : pre = [] ∧ t = payOliver := by
      cases pre with
      | nil => exact ⟨rfl, (List.cons_eq_cons.mp hsplit).1.symm⟩
      | cons u pre =>
          have hrest := (List.cons_eq_cons.mp hsplit).2
          exact absurd hrest (by simp)
    obtain ⟨rfl, rfl⟩ := hfirst
    cases hw
    decide
  · rw [happ.2, hlookup]
    decide

end Samples

end TxChain
