import TxChain.Serialize.Canonical

/-!
# The per-transaction gate

`applyTxn` runs the frozen verification order against a scratch account map and
applies the transaction; `applyBlockTxns` runs it over a block and adds the
coinbase rules. Both the commit path and the from-genesis replay call them.

`applyTxn_cases` says everything an accepted transaction can be, and
`applyBlockTxns_iff` reduces an accepted block to accepted transactions one after
the other, so that later proofs unfold neither function.
-/

namespace TxChain

abbrev Address := Address20
abbrev Hash256 := Digest32

/-- A block timestamp may be at most this far ahead of the clock. -/
def maxClockSkewS : UInt64 := 7200

def maxTxnsPerBlock : ℕ := 8

def coinbaseReward : UInt64 := 50

inductive Reason where
  | ok
  | badLink
  | badTxnsHash
  | badPow
  | badSig
  | badAddr
  | staleNonce
  | insufficientFunds
  | badSupply
  deriving DecidableEq, Repr

/-- Committed per-account state; an absent address is `{0, 0}`. -/
structure AccountState where
  balance : UInt64 := 0
  nonce : UInt64 := 0
  deriving DecidableEq

/-- `std::map<Address, AccountState>`. -/
abbrev AccountMap := Std.TreeMap Address AccountState byteOrder

namespace AccountMap

def lookup (work : AccountMap) (a : Address) : AccountState := work.getD a {}

/-- `work[a] = s`. -/
def set (work : AccountMap) (a : Address) (s : AccountState) : AccountMap := work.insert a s

/-- `work[to].balance += amount`. -/
def credit (work : AccountMap) (a : Address) (amount : UInt64) : AccountMap :=
  work.set a { work.lookup a with balance := (work.lookup a).balance + amount }

/-- Both records are copied before either is written back, so when sender and
receiver coincide the receiver's copy is the one that stays. -/
def transfer (work : AccountMap) (t : Txn) : AccountMap :=
  let fromBefore := work.lookup t.from
  let toBefore := work.lookup t.to
  let fromAfter : AccountState :=
    { balance := fromBefore.balance - t.amount, nonce := fromBefore.nonce + 1 }
  let toAfter : AccountState := { toBefore with balance := toBefore.balance + t.amount }
  (work.set t.from fromAfter).set t.to toAfter

theorem lookup_set (work : AccountMap) (a b : Address) (s : AccountState) :
    (work.set a s).lookup b = if b = a then s else work.lookup b := by
  simp only [lookup, set, Std.TreeMap.getD_insert, Std.LawfulEqCmp.compare_eq_iff_eq,
    eq_comm (a := a)]

theorem lookup_credit (work : AccountMap) (a b : Address) (amount : UInt64) :
    (work.credit a amount).lookup b =
      if b = a then { work.lookup a with balance := (work.lookup a).balance + amount }
      else work.lookup b :=
  lookup_set _ _ _ _

theorem lookup_transfer (work : AccountMap) (t : Txn) (b : Address) :
    (work.transfer t).lookup b =
      if b = t.to then
        { work.lookup t.to with balance := (work.lookup t.to).balance + t.amount }
      else if b = t.from then
        { balance := (work.lookup t.from).balance - t.amount
          nonce := (work.lookup t.from).nonce + 1 }
      else work.lookup b := by
  simp only [transfer, lookup_set]

end AccountMap

/-! ### The gate -/

def kNullAddr : Address := Vector.replicate 20 0
def kNullPub : PubKey32 := Vector.replicate 32 0
def kNullSig : Sig64 := Vector.replicate 64 0

def txnDetail (r : Reason) (ti : ℕ) : String :=
  let suffix := " for txn " ++ toString ti
  match r with
  | .badAddr => "from != SHA-256(pubkey)[:20]" ++ suffix
  | .badSig => "ed25519 verify failed" ++ suffix
  | .staleNonce => "nonce not next-expected" ++ suffix
  | .insufficientFunds => "amount exceeds balance" ++ suffix
  | _ => "txn" ++ suffix

def coinbaseTxn (dest : Address) (height : UInt64) : Txn :=
  { «to» := dest, amount := coinbaseReward, nonce := height }

section Gate

variable [Crypto]

/-- The scratch map is returned as it was unless every check passes. -/
def applyTxn (work : AccountMap) (t : Txn) (blockIndex : UInt64) (txnIndex : ℕ) :
    Reason × AccountMap :=
  if t.from = kNullAddr then
    if txnIndex ≠ 0 then (.badTxnsHash, work)
    else if t.pubkey ≠ kNullPub ∨ t.sig ≠ kNullSig ∨ t.nonce ≠ blockIndex then (.badTxnsHash, work)
    else if t.amount ≠ coinbaseReward then (.badSupply, work)
    else (.ok, work.credit t.to t.amount)
  else if ¬addressMatches t.from t.pubkey then (.badAddr, work)
  else if ¬Crypto.verify t.pubkey t.sig (signedPayload t) then (.badSig, work)
  else if t.nonce ≠ (work.lookup t.from).nonce then (.staleNonce, work)
  else if t.amount > (work.lookup t.from).balance then (.insufficientFunds, work)
  else (.ok, work.transfer t)

structure BlockApplyResult where
  reason : Reason := .ok
  detail : String := ""
  txnIndex : ℕ := 0
  deriving DecidableEq

/-- The loop of `applyBlockTxns` from transaction `ti` on. -/
def applyBlockTxnsFrom (idx reward : UInt64) :
    List Txn → ℕ → ℕ → AccountMap → BlockApplyResult × AccountMap
  | [], ti, coinbaseCount, work =>
      if 0 < reward ∧ coinbaseCount = 0 then (⟨.badSupply, "missing coinbase", ti⟩, work)
      else ({}, work)
  | t :: rest, ti, coinbaseCount, work =>
      if t.from = kNullAddr then
        if coinbaseCount + 1 > 1 then (⟨.badTxnsHash, "duplicate coinbase", ti⟩, work)
        else if ti ≠ 0 then (⟨.badTxnsHash, "coinbase not at tx0", ti⟩, work)
        else if t.pubkey ≠ kNullPub ∨ t.sig ≠ kNullSig ∨ t.nonce ≠ idx then
          (⟨.badTxnsHash, "malformed coinbase", ti⟩, work)
        else if t.amount ≠ coinbaseReward then (⟨.badSupply, "bad coinbase reward", ti⟩, work)
        else applyBlockTxnsFrom idx reward rest (ti + 1) (coinbaseCount + 1)
          (work.credit t.to t.amount)
      else
        let applied := applyTxn work t idx ti
        if applied.1 ≠ .ok then (⟨applied.1, txnDetail applied.1 ti, ti⟩, applied.2)
        else applyBlockTxnsFrom idx reward rest (ti + 1) coinbaseCount applied.2

def applyBlockTxns (work : AccountMap) (b : Block) (reward : UInt64) :
    BlockApplyResult × AccountMap :=
  applyBlockTxnsFrom b.header.index reward b.txns 0 0 work

/-! ### What an accepted transaction is -/

/-- The fixed shape of the coinbase of block `blockIndex`. -/
structure Txn.IsCoinbaseAt (t : Txn) (blockIndex : UInt64) : Prop where
  sender : t.from = kNullAddr
  pubkey : t.pubkey = kNullPub
  sig : t.sig = kNullSig
  nonce : t.nonce = blockIndex
  amount : t.amount = coinbaseReward

/-- The owner of `from` signed the transaction. -/
structure Txn.Authentic (t : Txn) : Prop where
  sender : t.from ≠ kNullAddr
  address : t.from = address t.pubkey
  signature : Crypto.verify t.pubkey t.sig (signedPayload t) = true

/-- The sender's account admits the transaction next. -/
structure Txn.Spendable (t : Txn) (account : AccountState) : Prop where
  nonce : t.nonce = account.nonce
  funds : t.amount ≤ account.balance

omit [Crypto] in
theorem coinbaseTxn_isCoinbaseAt (dest : Address) (height : UInt64) :
    (coinbaseTxn dest height).IsCoinbaseAt height := ⟨rfl, rfl, rfl, rfl, rfl⟩

variable {work work' : AccountMap} {t : Txn} {blockIndex : UInt64} {txnIndex : ℕ}

theorem applyTxn_coinbase (h : t.IsCoinbaseAt blockIndex) :
    applyTxn work t blockIndex 0 = (.ok, work.credit t.to t.amount) := by
  simp [applyTxn, h.sender, h.pubkey, h.sig, h.nonce, h.amount]

theorem applyTxn_signed (ha : t.Authentic) (hs : t.Spendable (work.lookup t.from)) :
    applyTxn work t blockIndex txnIndex = (.ok, work.transfer t) := by
  have hfunds : ¬t.amount > (work.lookup t.from).balance := UInt64.not_lt.mpr hs.funds
  rw [applyTxn, if_neg ha.sender, if_neg (not_not.mpr (addressMatches_iff.mpr ha.address)),
    if_neg (not_not.mpr ha.signature), if_neg (not_not.mpr hs.nonce), if_neg hfunds]

/-- An accepted transaction is the coinbase at position zero or a signed one. -/
theorem applyTxn_cases (h : (applyTxn work t blockIndex txnIndex).1 = .ok) :
    (txnIndex = 0 ∧ t.IsCoinbaseAt blockIndex ∧
      (applyTxn work t blockIndex txnIndex).2 = work.credit t.to t.amount) ∨
    (t.Authentic ∧ t.Spendable (work.lookup t.from) ∧
      (applyTxn work t blockIndex txnIndex).2 = work.transfer t) := by
  by_cases hnull : t.from = kNullAddr
  · left
    rw [applyTxn, if_pos hnull] at h ⊢
    by_cases hindex : txnIndex ≠ 0
    · simp [hindex] at h
    rw [if_neg hindex] at h ⊢
    by_cases hshape : t.pubkey ≠ kNullPub ∨ t.sig ≠ kNullSig ∨ t.nonce ≠ blockIndex
    · simp [hshape] at h
    rw [if_neg hshape] at h ⊢
    by_cases hamount : t.amount ≠ coinbaseReward
    · simp [hamount] at h
    rw [if_neg hamount]
    simp only [not_or, not_not] at hindex hshape hamount
    exact ⟨hindex, ⟨hnull, hshape.1, hshape.2.1, hshape.2.2, hamount⟩, rfl⟩
  · right
    rw [applyTxn, if_neg hnull] at h ⊢
    by_cases haddr : ¬addressMatches t.from t.pubkey
    · simp [haddr] at h
    rw [if_neg haddr] at h ⊢
    by_cases hsig : ¬Crypto.verify t.pubkey t.sig (signedPayload t)
    · simp [hsig] at h
    rw [if_neg hsig] at h ⊢
    by_cases hnonce : t.nonce ≠ (work.lookup t.from).nonce
    · simp [hnonce] at h
    rw [if_neg hnonce] at h ⊢
    by_cases hfunds : t.amount > (work.lookup t.from).balance
    · simp [hfunds] at h
    rw [if_neg hfunds]
    exact ⟨⟨hnull, addressMatches_iff.mp (not_not.mp haddr), not_not.mp hsig⟩,
      ⟨not_not.mp hnonce, UInt64.not_lt.mp hfunds⟩, rfl⟩

/-- A refused transaction leaves the scratch map as it was. -/
theorem applyTxn_refused (h : (applyTxn work t blockIndex txnIndex).1 ≠ .ok) :
    (applyTxn work t blockIndex txnIndex).2 = work := by
  revert h
  simp only [applyTxn]
  split_ifs <;> simp

/-! ### What an accepted block is -/

/-- The transactions applied one after the other, from position `ti` on. -/
def runTxns (blockIndex : UInt64) : ℕ → AccountMap → List Txn → Option AccountMap
  | _, work, [] => some work
  | ti, work, t :: rest =>
      if (applyTxn work t blockIndex ti).1 = .ok then
        runTxns blockIndex (ti + 1) (applyTxn work t blockIndex ti).2 rest
      else none

theorem runTxns_cons {ti : ℕ} {rest : List Txn} :
    runTxns blockIndex ti work (t :: rest) = some work' ↔
      (applyTxn work t blockIndex ti).1 = .ok ∧
        runTxns blockIndex (ti + 1) (applyTxn work t blockIndex ti).2 rest = some work' := by
  rw [runTxns]
  split <;> simp [*]

private theorem applyBlockTxnsFrom_iff {reward : UInt64} {txns : List Txn} {ti count : ℕ}
    (hfirst : ti = 0 → count = 0) :
    ((applyBlockTxnsFrom blockIndex reward txns ti count work).1.reason = .ok ∧
        (applyBlockTxnsFrom blockIndex reward txns ti count work).2 = work') ↔
      runTxns blockIndex ti work txns = some work' ∧
        (0 < reward → count ≠ 0 ∨ ∃ t ∈ txns, t.from = kNullAddr) := by
  induction txns generalizing ti count work with
  | nil =>
      simp only [applyBlockTxnsFrom, runTxns, Option.some.injEq, List.not_mem_nil, false_and,
        exists_false, or_false]
      split
      · rename_i h
        simp [h.1, h.2]
      · rename_i h
        simp only [true_and, iff_self_and]
        exact fun _ hr hc => h ⟨hr, hc⟩
  | cons t rest ih =>
      by_cases hnull : t.from = kNullAddr
      · by_cases hti : ti = 0
        · subst hti
          obtain rfl := hfirst rfl
          rw [applyBlockTxnsFrom, runTxns_cons, if_pos hnull]
          by_cases hshape : t.pubkey ≠ kNullPub ∨ t.sig ≠ kNullSig ∨ t.nonce ≠ blockIndex
          · simp [applyTxn, hnull, hshape]
          by_cases hamount : t.amount ≠ coinbaseReward
          · simp [applyTxn, hnull, hshape, hamount]
          rw [if_neg (by decide), if_neg (by decide), if_neg hshape, if_neg hamount]
          simp only [not_or, not_not] at hshape hamount
          rw [applyTxn_coinbase ⟨hnull, hshape.1, hshape.2.1, hshape.2.2, hamount⟩,
            ih (fun h => absurd h (Nat.succ_ne_zero 0))]
          simp [hnull]
        · rw [applyBlockTxnsFrom, runTxns_cons]
          simp only [if_pos hnull, applyTxn, if_pos hti]
          split_ifs <;> simp
      · rw [applyBlockTxnsFrom, runTxns_cons, if_neg hnull]
        by_cases hok : (applyTxn work t blockIndex ti).1 = .ok
        · simp only [ne_eq, hok, not_true_eq_false, if_false, true_and]
          rw [ih (by simp)]
          simp [hnull]
        · simp [hok]

/-- A block is accepted exactly when its transactions are, one after the other,
and issuance, once on, finds a coinbase among them. -/
theorem applyBlockTxns_iff {b : Block} {reward : UInt64} :
    ((applyBlockTxns work b reward).1.reason = .ok ∧ (applyBlockTxns work b reward).2 = work') ↔
      runTxns b.header.index 0 work b.txns = some work' ∧
        (0 < reward → ∃ t ∈ b.txns, t.from = kNullAddr) := by
  rw [applyBlockTxns, applyBlockTxnsFrom_iff (fun _ => rfl)]
  simp

/-- A coinbase alone makes a block that is accepted, whether issuance is on or not. -/
theorem applyBlockTxns_coinbase {b : Block} {reward : UInt64} (htxns : b.txns = [t])
    (h : t.IsCoinbaseAt b.header.index) :
    (applyBlockTxns work b reward).1.reason = .ok ∧
      (applyBlockTxns work b reward).2 = work.credit t.to t.amount := by
  apply applyBlockTxns_iff.mpr
  rw [htxns, runTxns_cons, applyTxn_coinbase h]
  exact ⟨⟨rfl, rfl⟩, fun _ => ⟨t, List.mem_singleton_self t, h.sender⟩⟩

theorem runTxns_of_applyBlockTxns {b : Block} {reward : UInt64}
    (h : (applyBlockTxns work b reward).1.reason = .ok) :
    runTxns b.header.index 0 work b.txns = some (applyBlockTxns work b reward).2 :=
  (applyBlockTxns_iff.mp ⟨h, rfl⟩).1

/-- The part of the gate that reads accounts, for a transaction known to be signed. -/
def spend (work : AccountMap) (t : Txn) : Option AccountMap :=
  if t.nonce = (work.lookup t.from).nonce ∧ t.amount ≤ (work.lookup t.from).balance then
    some (work.transfer t)
  else none

omit [Crypto] in
theorem spend_eq (h : t.Spendable (work.lookup t.from)) : spend work t = some (work.transfer t) :=
  if_pos ⟨h.nonce, h.funds⟩

/-- Among signed transactions only nonces and funds decide. -/
theorem runTxns_signed {ti : ℕ} {txns : List Txn} (h : ∀ t ∈ txns, t.Authentic) :
    runTxns blockIndex ti work txns = txns.foldlM spend work := by
  induction txns generalizing ti work with
  | nil => rfl
  | cons t rest ih =>
      obtain ⟨ha, hrest⟩ := List.forall_mem_cons.mp h
      rw [runTxns, List.foldlM_cons, spend]
      by_cases hs : t.nonce = (work.lookup t.from).nonce ∧ t.amount ≤ (work.lookup t.from).balance
      · rw [applyTxn_signed ha ⟨hs.1, hs.2⟩, if_pos rfl, if_pos hs]
        exact ih hrest
      · have hrefused : (applyTxn work t blockIndex ti).1 ≠ .ok := by
          intro hok
          rcases applyTxn_cases hok with ⟨-, hcoin, -⟩ | ⟨-, hspend, -⟩
          · exact ha.sender hcoin.sender
          · exact hs ⟨hspend.nonce, hspend.funds⟩
        rw [if_neg hrefused, if_neg hs]
        rfl

/-- Only the first transaction of an accepted block can have no sender. -/
theorem sender_of_runTxns {ti : ℕ} {txns : List Txn}
    (h : runTxns blockIndex (ti + 1) work txns = some work') :
    ∀ t ∈ txns, t.from ≠ kNullAddr := by
  induction txns generalizing ti work with
  | nil => simp
  | cons t rest ih =>
      obtain ⟨hok, hrest⟩ := runTxns_cons.mp h
      rcases applyTxn_cases hok with ⟨hti, -⟩ | ⟨ha, -⟩
      · exact absurd hti (Nat.succ_ne_zero ti)
      · exact List.forall_mem_cons.mpr ⟨ha.sender, ih hrest⟩

end Gate

end TxChain
