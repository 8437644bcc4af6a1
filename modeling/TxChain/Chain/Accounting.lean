import TxChain.Chain.Validate
import TxChain.Library.Ledger

/-!
# The books behind the gate

`History` forgets where an accepted transaction stood in its block and keeps what
it did to the accounts. Its journal is a list of double-entry postings, and the
committed balances are that journal settled at the width of a machine word.

A transfer whose sender is also its receiver is posted as an issue: the gate
writes the receiver's copy of the account last, so the amount is credited and
never debited, and the nonce stays as it was.
-/

namespace TxChain

/-! ### Postings -/

/-- A signed transaction from an account to itself. -/
def Txn.IsSelf (t : Txn) : Prop := t.from ≠ kNullAddr ∧ t.from = t.to

instance : DecidablePred Txn.IsSelf := fun t =>
  inferInstanceAs (Decidable (t.from ≠ kNullAddr ∧ t.from = t.to))

/-- What the gate does with a transaction it accepts. -/
def Txn.posting (t : Txn) : Ledger.Posting Address where
  debit := if t.from = kNullAddr ∨ t.from = t.to then none else some t.from
  credit := t.to
  amount := t.amount.toNat

def journal (txns : List Txn) : List (Ledger.Posting Address) := txns.map Txn.posting

@[simp] theorem journal_nil : journal [] = [] := rfl

@[simp] theorem journal_cons (t : Txn) (txns : List Txn) :
    journal (t :: txns) = t.posting :: journal txns := rfl

@[simp] theorem journal_append (ps qs : List Txn) : journal (ps ++ qs) = journal ps ++ journal qs :=
  List.map_append

theorem Txn.posting_debit_eq_some {t : Txn} {a : Address} :
    t.posting.debit = some a ↔ t.from = a ∧ t.from ≠ kNullAddr ∧ t.from ≠ t.to := by
  simp only [Txn.posting]
  split_ifs with h
  · simp only [false_iff, not_and, not_not]
    intro _ hnull
    exact h.resolve_left hnull
  · simp only [Option.some.injEq, iff_self_and]
    exact fun _ => not_or.mp h

theorem Txn.posting_paid (t : Txn) (a : Address) :
    t.posting.paid a =
      if t.from = a ∧ t.from ≠ kNullAddr ∧ t.from ≠ t.to then t.amount.toNat else 0 := by
  simp only [Ledger.Posting.paid, Txn.posting_debit_eq_some]
  rfl

theorem Txn.posting_received (t : Txn) (a : Address) :
    t.posting.received a = if t.to = a then t.amount.toNat else 0 := rfl

/-- How many transactions advance the nonce of an account. -/
def spends (a : Address) (txns : List Txn) : ℕ := txns.countP fun t => t.posting.debit = some a

/-! ### Histories -/

section Histories

variable [Crypto]

/-- An accepted transaction, whatever its position in a block. -/
inductive Applies (work : AccountMap) (t : Txn) : AccountMap → Prop where
  | coinbase (sender : t.from = kNullAddr) (amount : t.amount = coinbaseReward) :
      Applies work t (work.credit t.to t.amount)
  | signed (authentic : t.Authentic) (spendable : t.Spendable (work.lookup t.from)) :
      Applies work t (work.transfer t)

/-- Accepted transactions one after the other. -/
inductive History : AccountMap → List Txn → AccountMap → Prop where
  | nil (work) : History work [] work
  | cons {work mid work' t rest} :
      Applies work t mid → History mid rest work' → History work (t :: rest) work'

theorem History.append {work mid work' : AccountMap} {ps qs : List Txn} (h₁ : History work ps mid)
    (h₂ : History mid qs work') : History work (ps ++ qs) work' := by
  induction h₁ with
  | nil => exact h₂
  | cons step _ ih => exact .cons step (ih h₂)

/-- Every cut of a history is a history on both sides. -/
theorem History.split {work work' : AccountMap} {ps qs : List Txn}
    (h : History work (ps ++ qs) work') : ∃ mid, History work ps mid ∧ History mid qs work' := by
  induction ps generalizing work with
  | nil => exact ⟨work, .nil work, h⟩
  | cons t ps ih =>
      cases h with
      | cons step hrest =>
          obtain ⟨mid, hpre, hpost⟩ := ih hrest
          exact ⟨mid, .cons step hpre, hpost⟩

theorem applies_of_applyTxn {work : AccountMap} {t : Txn} {blockIndex : UInt64} {txnIndex : ℕ}
    (h : (applyTxn work t blockIndex txnIndex).1 = .ok) :
    Applies work t (applyTxn work t blockIndex txnIndex).2 := by
  rcases applyTxn_cases h with ⟨-, hcoin, hwork⟩ | ⟨hauth, hspend, hwork⟩
  · exact hwork ▸ .coinbase hcoin.sender hcoin.amount
  · exact hwork ▸ .signed hauth hspend

theorem history_of_runTxns {work work' : AccountMap} {blockIndex : UInt64} {ti : ℕ}
    {txns : List Txn} (h : runTxns blockIndex ti work txns = some work') :
    History work txns work' := by
  induction txns generalizing ti work with
  | nil =>
      cases h
      exact .nil _
  | cons t rest ih =>
      obtain ⟨hok, hrest⟩ := runTxns_cons.mp h
      exact .cons (applies_of_applyTxn hok) (ih hrest)

theorem history_of_applyBlockTxns {work : AccountMap} {b : Block} {reward : UInt64}
    (h : (applyBlockTxns work b reward).1.reason = .ok) :
    History work b.txns (applyBlockTxns work b reward).2 :=
  history_of_runTxns (runTxns_of_applyBlockTxns h)

/-- The transactions of consecutive blocks in inclusion order. -/
def chainTxns (blocks : List Block) : List Txn := blocks.flatMap Block.txns

omit [Crypto] in
@[simp] theorem chainTxns_nil : chainTxns [] = [] := rfl

omit [Crypto] in
@[simp] theorem chainTxns_cons (b : Block) (blocks : List Block) :
    chainTxns (b :: blocks) = b.txns ++ chainTxns blocks := rfl

theorem history_of_replayLoop {now_s : UInt64} {D : UInt32} {reward : UInt64}
    {s s' : ReplayState} {blocks : List Block}
    (h : replayLoop now_s D reward s blocks = .ok s') :
    History s.state (chainTxns blocks) s'.state := by
  induction blocks generalizing s with
  | nil =>
      cases h
      exact .nil _
  | cons b rest ih =>
      obtain ⟨next, hstep, hrest⟩ := replayLoop_cons_ok.mp h
      obtain ⟨-, happ, rfl⟩ := replayStep_ok_iff.mp hstep
      exact (history_of_applyBlockTxns happ).append (ih hrest)

/-! ### Balances and nonces of a history -/

/-- Balances as natural numbers; an absent account holds nothing. -/
def AccountMap.balances (work : AccountMap) (a : Address) : ℕ := (work.lookup a).balance.toNat

omit [Crypto] in
theorem AccountMap.balances_lt (work : AccountMap) (a : Address) : work.balances a < 2 ^ 64 :=
  (work.lookup a).balance.toNat_lt

omit [Crypto] in
theorem AccountMap.balances_credit (work : AccountMap) (a b : Address) (amount : UInt64) :
    (work.credit a amount).balances b =
      if b = a then (work.balances a + amount.toNat) % 2 ^ 64 else work.balances b := by
  simp only [AccountMap.balances, AccountMap.lookup_credit]
  split_ifs
  · exact UInt64.toNat_add _ _
  · rfl

omit [Crypto] in
theorem AccountMap.balances_transfer (work : AccountMap) (t : Txn)
    (hfunds : t.amount ≤ (work.lookup t.from).balance) (b : Address) :
    (work.transfer t).balances b =
      if b = t.to then (work.balances t.to + t.amount.toNat) % 2 ^ 64
      else if b = t.from then work.balances t.from - t.amount.toNat
      else work.balances b := by
  simp only [AccountMap.balances, AccountMap.lookup_transfer]
  split_ifs
  · exact UInt64.toNat_add _ _
  · exact UInt64.toNat_sub_of_le _ _ hfunds
  · rfl

variable {work work' : AccountMap} {t : Txn} {txns : List Txn}

/-- An accepted transaction posts one entry, covered by the account it debits. -/
theorem Applies.posts (h : Applies work t work') :
    (∀ a, t.posting.paid a ≤ work.balances a) ∧
      work'.balances = Ledger.post (2 ^ 64) work.balances t.posting := by
  cases h with
  | coinbase sender _ =>
      have hpaid : ∀ a, t.posting.paid a = 0 := by
        intro a
        simp [t.posting_paid, sender]
      refine ⟨fun a => by simp [hpaid a], funext fun a => ?_⟩
      have hlt := work.balances_lt a
      simp only [Ledger.post, hpaid, t.posting_received, AccountMap.balances_credit, Nat.sub_zero]
      by_cases ha : a = t.to
      · simp [ha]
      · rw [if_neg ha, if_neg (Ne.symm ha), Nat.add_zero, Nat.mod_eq_of_lt hlt]
  | signed authentic spendable =>
      have hfunds := UInt64.le_iff_toNat_le.mp spendable.funds
      refine ⟨fun a => ?_, funext fun a => ?_⟩
      · rw [t.posting_paid]
        split_ifs with ha
        · exact ha.1 ▸ hfunds
        · exact Nat.zero_le _
      · have hlt := work.balances_lt a
        simp only [Ledger.post, t.posting_paid, t.posting_received, authentic.sender,
          work.balances_transfer t spendable.funds, ne_eq, not_false_eq_true, true_and]
        by_cases hto : a = t.to
        · -- The receiver's copy is written last, so a self-transfer debits nothing.
          have hkeep : ¬(t.from = a ∧ ¬t.from = t.to) := fun h => h.2 (h.1.trans hto)
          rw [if_pos hto, if_neg hkeep, if_pos hto.symm, hto, Nat.sub_zero]
        · by_cases hfrom : a = t.from
          · subst hfrom
            rw [if_neg hto, if_pos rfl, if_pos ⟨rfl, hto⟩, if_neg (Ne.symm hto), Nat.add_zero,
              Nat.mod_eq_of_lt (by omega)]
          · rw [if_neg hto, if_neg hfrom, if_neg (fun h => hfrom h.1.symm), if_neg (Ne.symm hto),
              Nat.sub_zero, Nat.add_zero, Nat.mod_eq_of_lt hlt]

/-- Only the sender's nonce moves, and not when the sender pays itself. -/
theorem Applies.nonce (h : Applies work t work') (a : Address) :
    (work'.lookup a).nonce =
      (work.lookup a).nonce + if t.posting.debit = some a then 1 else 0 := by
  cases h with
  | coinbase sender _ =>
      rw [AccountMap.lookup_credit]
      split_ifs with ha hdebit hdebit
      · exact absurd sender (Txn.posting_debit_eq_some.mp hdebit).2.1
      · simp [ha]
      · exact absurd sender (Txn.posting_debit_eq_some.mp hdebit).2.1
      · simp
  | signed authentic _ =>
      rw [AccountMap.lookup_transfer]
      simp only [Txn.posting_debit_eq_some, authentic.sender, ne_eq, not_false_eq_true, true_and]
      by_cases hto : a = t.to
      · simp +contextual [hto]
      · by_cases hfrom : a = t.from
        · subst hfrom
          simp [hto]
        · simp [hto, hfrom, Ne.symm hfrom]

/-- The committed balances are the journal settled at the word size. -/
theorem History.settles (h : History work txns work') :
    Ledger.Covered (2 ^ 64) work.balances (journal txns) ∧
      work'.balances = Ledger.settle (2 ^ 64) work.balances (journal txns) := by
  induction h with
  | nil => exact ⟨trivial, rfl⟩
  | cons step _ ih =>
      obtain ⟨hpaid, hpost⟩ := step.posts
      rw [hpost] at ih
      exact ⟨⟨hpaid, ih.1⟩, ih.2⟩

/-- The committed nonce counts the transactions that spent from the account. -/
theorem History.nonce (h : History work txns work') (a : Address) :
    (work'.lookup a).nonce = (work.lookup a).nonce + UInt64.ofNat (spends a txns) := by
  induction h with
  | nil => simp [spends]
  | cons step _ ih =>
      rename_i t rest _
      have hcount : spends a (t :: rest) =
          (if t.posting.debit = some a then 1 else 0) + spends a rest := by
        simp [spends, List.countP_cons, Nat.add_comm]
      rw [ih, step.nonce a, hcount, UInt64.ofNat_add, UInt64.add_assoc]
      congr 2
      split_ifs <;> rfl

/-! ### Issuance -/

/-- What self-transfers credit without a debit. -/
def selfMinted (txns : List Txn) : ℕ :=
  ((txns.filter fun t => t.IsSelf).map fun t => t.amount.toNat).sum

def coinbases (txns : List Txn) : ℕ := txns.countP fun t => t.from = kNullAddr

/-- What transactions issue outside the reward schedule: self-transfers always,
coinbases when the schedule issues none. -/
def offSchedule (reward : UInt64) (txns : List Txn) : ℕ :=
  selfMinted txns + if reward = 0 then coinbaseReward.toNat * coinbases txns else 0

omit [Crypto] in
theorem offSchedule_append (reward : UInt64) (ps qs : List Txn) :
    offSchedule reward (ps ++ qs) = offSchedule reward ps + offSchedule reward qs := by
  simp only [offSchedule, selfMinted, coinbases, List.filter_append, List.map_append,
    List.sum_append, List.countP_append, Nat.mul_add]
  split_ifs <;> omega

/-- Money is issued by coinbases and by self-transfers, and by nothing else. -/
theorem History.issued (h : History work txns work') :
    Ledger.issued (journal txns) = coinbaseReward.toNat * coinbases txns + selfMinted txns := by
  induction h with
  | nil => rfl
  | cons step _ ih =>
      rename_i t rest _
      have hstep : t.posting.issued =
          (if t.from = kNullAddr then coinbaseReward.toNat else 0) +
            if t.IsSelf then t.amount.toNat else 0 := by
        cases step with
        | coinbase sender amount =>
            simp [Ledger.Posting.issued, Txn.posting, Txn.IsSelf, sender, amount]
        | signed authentic _ =>
            by_cases hself : t.from = t.to
            · simp [Ledger.Posting.issued, Txn.posting, Txn.IsSelf, hself,
                hself ▸ authentic.sender]
            · simp [Ledger.Posting.issued, Txn.posting, Txn.IsSelf, authentic.sender, hself]
      have hcoins : coinbaseReward.toNat * coinbases (t :: rest) =
          (if t.from = kNullAddr then coinbaseReward.toNat else 0) +
            coinbaseReward.toNat * coinbases rest := by
        simp only [coinbases, List.countP_cons, decide_eq_true_eq, Nat.mul_add]
        split_ifs <;> omega
      have hself : selfMinted (t :: rest) =
          (if t.IsSelf then t.amount.toNat else 0) + selfMinted rest := by
        simp only [selfMinted, List.filter_cons, decide_eq_true_eq]
        split_ifs <;> simp
      rw [journal_cons, Ledger.issued_cons, ih, hstep, hcoins, hself]
      omega

/-- An accepted block holds at most one coinbase, and one when the schedule asks for it. -/
theorem coinbases_of_applyBlockTxns {b : Block} {reward : UInt64}
    (h : (applyBlockTxns work b reward).1.reason = .ok) :
    coinbases b.txns ≤ 1 ∧ (0 < reward → coinbases b.txns = 1) := by
  obtain ⟨hrun, hissue⟩ := applyBlockTxns_iff.mp ⟨h, rfl⟩
  have hle : coinbases b.txns ≤ 1 := by
    cases htxns : b.txns with
    | nil => simp [coinbases]
    | cons t rest =>
        rw [htxns] at hrun
        have hrest : coinbases rest = 0 := by
          simpa [coinbases, List.countP_eq_zero] using sender_of_runTxns (runTxns_cons.mp hrun).2
        simp only [coinbases, List.countP_cons] at hrest ⊢
        split_ifs <;> omega
  refine ⟨hle, fun hreward => ?_⟩
  obtain ⟨t, ht, hnull⟩ := hissue hreward
  have hpos : 0 < coinbases b.txns := List.countP_pos_iff.mpr ⟨t, ht, by simpa using hnull⟩
  omega

/-- An accepted block issues its reward and whatever it issues off schedule. -/
theorem issued_of_applyBlockTxns {b : Block} {reward : UInt64}
    (hreward : reward = 0 ∨ reward = coinbaseReward)
    (h : (applyBlockTxns work b reward).1.reason = .ok) :
    Ledger.issued (journal b.txns) = reward.toNat + offSchedule reward b.txns := by
  rw [(history_of_applyBlockTxns h).issued, offSchedule]
  rcases hreward with rfl | rfl
  · simp [Nat.add_comm]
  · rw [(coinbases_of_applyBlockTxns h).2 (by decide), if_neg (by decide)]
    omega

/-- Every replayed block issues its reward and whatever it issues off schedule. -/
theorem issued_of_replayLoop {now_s : UInt64} {D : UInt32} {reward : UInt64}
    {s s' : ReplayState} {blocks : List Block} (hreward : reward = 0 ∨ reward = coinbaseReward)
    (h : replayLoop now_s D reward s blocks = .ok s') :
    Ledger.issued (journal (chainTxns blocks)) =
      blocks.length * reward.toNat + offSchedule reward (chainTxns blocks) := by
  induction blocks generalizing s with
  | nil => simp [offSchedule, selfMinted, coinbases]
  | cons b rest ih =>
      obtain ⟨next, hstep, hrest⟩ := replayLoop_cons_ok.mp h
      obtain ⟨-, happ, rfl⟩ := replayStep_ok_iff.mp hstep
      have hb := issued_of_applyBlockTxns hreward happ
      have hrest := ih hrest
      simp only [chainTxns_cons, journal_append, offSchedule_append, List.length_cons,
        Ledger.issued_append, Nat.add_mul] at hb hrest ⊢
      omega

/-! ### Totals -/

/-- The sum of all committed balances. -/
def AccountMap.total (work : AccountMap) : ℕ :=
  (work.toList.map fun kv => kv.2.balance.toNat).sum

omit [Crypto] in
/-- Addresses without an entry hold nothing, so the total is over all addresses. -/
theorem AccountMap.total_eq (work : AccountMap) : work.total = ∑ a, work.balances a :=
  OrderedMap.sum_toList work {} (fun account => account.balance.toNat) rfl

omit [Crypto] in
theorem applyGenesis_total : applyGenesis.total = genesisSupply.toNat := by decide

omit [Crypto] in
/-- The replay's supply check sees the total modulo the word size. -/
theorem supplySum_toNat (state : AccountMap) : (supplySum state).toNat = state.total % 2 ^ 64 := by
  have hfold : ∀ (entries : List (Address × AccountState)) (actual : UInt64),
      (entries.foldl (fun actual kv => actual + kv.2.balance) actual).toNat =
        (actual.toNat + (entries.map fun kv => kv.2.balance.toNat).sum) % 2 ^ 64 := by
    intro entries
    induction entries with
    | nil =>
        intro actual
        simp [Nat.mod_eq_of_lt actual.toNat_lt]
    | cons kv rest ih =>
        intro actual
        rw [List.foldl_cons, ih, UInt64.toNat_add, List.map_cons, List.sum_cons,
          Nat.mod_add_mod, Nat.add_assoc]
  rw [supplySum, hfold, AccountMap.total]
  simp

/-- How often the credits of a list of transactions wrap around the word size. -/
noncomputable def wraps (work : AccountMap) (txns : List Txn) : ℕ :=
  Ledger.overflowed (2 ^ 64) work.balances (journal txns)

/-- The total grows by what is issued and shrinks by whole words where credits wrap. -/
theorem History.total (h : History work txns work') :
    work'.total + 2 ^ 64 * wraps work txns = work.total + Ledger.issued (journal txns) := by
  obtain ⟨hcovered, hsettle⟩ := h.settles
  rw [AccountMap.total_eq, AccountMap.total_eq, hsettle, wraps]
  exact Ledger.sum_settle work.balances_lt hcovered

/-- No credit wraps while the money held and issued fits in a word. -/
theorem History.wraps_eq_zero (h : History work txns work')
    (hfit : work.total + Ledger.issued (journal txns) < 2 ^ 64) : wraps work txns = 0 := by
  rw [AccountMap.total_eq] at hfit
  exact Ledger.overflowed_eq_zero work.balances_lt h.settles.1 hfit

end Histories

end TxChain
