import TxChain.Serialize.Lossless

/-!
# The transaction version

Admission, the binary decoder and the chain.jsonl loader take transactions of one
version only. The gate signs off the version byte with the rest of a transaction but
never looks at it, so a chain is readable as far as the blocks it was offered happen
to hold no other version.
-/

namespace TxChain

section Version

variable [Crypto]

/-- Both decoders take the transaction as far as its version is concerned. -/
structure Txn.Decodes (t : Txn) : Prop where
  ver : t.ver = kTxnVersion
  binary : deserializeTxn t.serialize = some t
  json : ∀ num : ℕ → Value,
    (∀ n ∈ [t.ver.toNat, t.amount.toNat, t.nonce.toNat], ReadsLiteral n (num n)) →
      (readTxn (.object (txnFieldsWith num t))).isSome = true

theorem Txn.decodes_iff (t : Txn) : t.Decodes ↔ t.ver = kTxnVersion := by
  refine ⟨Txn.Decodes.ver, fun hver => ⟨hver, ?_, fun num hnum => ?_⟩⟩
  · rw [deserializeTxn_serialize, if_pos hver]
  · have hone := hnum t.ver.toNat (by simp)
    obtain ⟨amount, hamount⟩ := readNumber_isSome (hnum t.amount.toNat (by simp))
    obtain ⟨nonce, hnonce⟩ := readNumber_isSome (hnum t.nonce.toNat (by simp))
    rw [readTxn_txnFieldsWith hver hone, hamount, hnonce]
    rfl

/-- Every transaction of the chain decodes. -/
def Chain.Decodes (c : Chain) : Prop := ∀ b ∈ c.blocks, ∀ t ∈ b.txns, t.Decodes

theorem Chain.new_decodes (D : UInt32) (reward : UInt64) : (Chain.new D reward).Decodes := by
  intro b hb t ht
  rw [List.mem_singleton.mp hb] at ht
  exact absurd ht List.not_mem_nil

/-- One call of the write path adds at most the transactions it is offered. -/
theorem Chain.Decodes.connect {c : Chain} {input : Block × UInt64} (h : c.Decodes)
    (hoffered : ∀ t ∈ input.1.txns, t.ver = kTxnVersion) : (c.connect input).Decodes := by
  rcases Chain.connect_cases c input with ⟨-, hcommit⟩ | ⟨-, hsame⟩
  · intro b hb t ht
    rw [hcommit.blocks, List.mem_append, List.mem_singleton] at hb
    rcases hb with hold | rfl
    · exact h b hold t ht
    · exact t.decodes_iff.mpr (hoffered t ht)
  · rwa [hsame]

/-! ### What the gate makes of the version -/

/-- The second transaction is the first with some version, and signed if the first is. -/
def Txn.Reversioned (t t' : Txn) : Prop :=
  ∃ ver, t' = { t with ver } ∧
    (t.from ≠ kNullAddr →
      Crypto.verify t'.pubkey t'.sig (signedPayload t') =
        Crypto.verify t.pubkey t.sig (signedPayload t))

theorem applyTxn_reversioned {t t' : Txn} (h : t.Reversioned t') (work : AccountMap)
    (blockIndex : UInt64) (txnIndex : ℕ) :
    applyTxn work t' blockIndex txnIndex = applyTxn work t blockIndex txnIndex := by
  obtain ⟨ver, rfl, hsigned⟩ := h
  by_cases hnull : t.from = kNullAddr
  · simp only [applyTxn, if_pos hnull]
  · have hsame := hsigned hnull
    simp only [applyTxn, if_neg hnull]
    rw [hsame]
    rfl

theorem applyBlockTxnsFrom_reversioned {txns txns' : List Txn}
    (h : List.Forall₂ Txn.Reversioned txns txns') (idx reward : UInt64) (ti coinbaseCount : ℕ)
    (work : AccountMap) :
    applyBlockTxnsFrom idx reward txns' ti coinbaseCount work =
      applyBlockTxnsFrom idx reward txns ti coinbaseCount work := by
  induction h generalizing ti coinbaseCount work with
  | nil => rfl
  | cons hfirst _ ih =>
      have happlied := applyTxn_reversioned hfirst work idx ti
      obtain ⟨ver, rfl, -⟩ := hfirst
      simp only [applyBlockTxnsFrom, happlied, ih]

/-- Along every run of the write path on blocks that hold transactions of the one version, the
committed transactions decode in every state. The gate has no part in it: it answers and leaves
the accounts the same whatever the versions are, signatures apart. -/
theorem version_along_runs (D : UInt32) (reward : UInt64) (inputs : List (Block × UInt64)) :
    ((∀ input ∈ inputs, ∀ t ∈ input.1.txns, t.ver = kTxnVersion) →
      ∀ c ∈ inputs.scanl Chain.connect (Chain.new D reward),
        ∀ b ∈ c.blocks, ∀ t ∈ b.txns, t.Decodes) ∧
    ∀ (work : AccountMap) (b : Block) (txns : List Txn),
      List.Forall₂ Txn.Reversioned b.txns txns →
        applyBlockTxns work { b with txns } reward = applyBlockTxns work b reward := by
  constructor
  · intro hoffered
    exact Run.invariant_mem (J := Chain.Decodes)
      (fun c input hinput hc => hc.connect (hoffered input hinput)) (Chain.new_decodes D reward)
  · intro work b txns h
    exact applyBlockTxnsFrom_reversioned h _ _ _ _ _

end Version

section Samples

attribute [local instance] sampleKeys

/-- A coinbase for oliver with version byte 2. -/
def foreignCoinbase : Txn := { coinbaseTxn oliver 1 with ver := 2 }

/-- The first block after genesis on a chain with rewards, holding that coinbase. -/
def foreignBlock : Block := (Chain.new 0 coinbaseReward).nextBlock 0 [foreignCoinbase]

/-- The chain with rewards takes any coinbase for its first block. -/
theorem coinbase_admitted {t : Txn} (h : t.IsCoinbaseAt 1) :
    (Chain.new 0 coinbaseReward).Admits ((Chain.new 0 coinbaseReward).nextBlock 0 [t])
      genesisTimestamp := by
  have htime : (Chain.new 0 coinbaseReward).tip.header.timestamp = genesisTimestamp := rfl
  have hstamp : ((Chain.new 0 coinbaseReward).nextBlock 0 [t]).header.timestamp =
      if 0 < genesisTimestamp + 1 then genesisTimestamp + 1 else 0 := rfl
  constructor
  · apply (Chain.nextBlock_links 0 genesisTimestamp [t] rfl).mpr
    rw [htime, hstamp]
    exact ⟨by decide, by decide, (by decide : 1 ≤ maxTxnsPerBlock)⟩
  · have hindex : ((Chain.new 0 coinbaseReward).nextBlock 0 [t]).header.index = 1 := rfl
    rw [← hindex] at h
    exact (applyBlockTxns_coinbase rfl h).1

/-- A coinbase of the one version is committed and decodes; the gate takes the foreign one alike. -/
theorem native_version_decodes :
    let b := (Chain.new 0 coinbaseReward).nextBlock 0 [coinbaseTxn oliver 1]
    (∃ c ∈ [(b, genesisTimestamp)].scanl Chain.connect (Chain.new 0 coinbaseReward),
      b ∈ c.blocks ∧ ∀ b ∈ c.blocks, ∀ t ∈ b.txns, t.Decodes) ∧
    applyBlockTxns applyGenesis { b with txns := [foreignCoinbase] } coinbaseReward =
      applyBlockTxns applyGenesis b coinbaseReward := by
  intro b
  have hruns := version_along_runs 0 coinbaseReward [(b, genesisTimestamp)]
  have hok := Chain.connectBlock_ok_iff.mpr (coinbase_admitted (coinbaseTxn_isCoinbaseAt oliver 1))
  have hblocks := (Chain.connectBlock_ok hok).blocks
  refine ⟨⟨(Chain.new 0 coinbaseReward).connect (b, genesisTimestamp), by simp, ?_, ?_⟩, ?_⟩
  · rw [Chain.connect, hblocks]
    simp [b]
  · refine hruns.1 ?_ _ (by simp)
    intro input hinput t ht
    rw [List.mem_singleton.mp hinput] at ht
    rw [List.mem_singleton.mp ht]
    rfl
  · refine hruns.2 applyGenesis b _ (.cons ⟨2, rfl, fun hsigned => absurd rfl hsigned⟩ .nil)

/-- A coinbase of version 2 is committed. -/
theorem foreign_version_committed :
    ¬∀ c ∈ [(foreignBlock, genesisTimestamp)].scanl Chain.connect (Chain.new 0 coinbaseReward),
      ∀ b ∈ c.blocks, ∀ t ∈ b.txns, t.ver = kTxnVersion := by
  intro h
  have hcoinbase : foreignCoinbase.IsCoinbaseAt 1 := ⟨rfl, rfl, rfl, rfl, rfl⟩
  have hok : ((Chain.new 0 coinbaseReward).connectBlock foreignBlock genesisTimestamp).1 = .ok :=
    Chain.connectBlock_ok_iff.mpr (coinbase_admitted hcoinbase)
  have hblocks := (Chain.connectBlock_ok hok).blocks
  have hversion := h ((Chain.new 0 coinbaseReward).connect (foreignBlock, genesisTimestamp))
    (by simp) foreignBlock (by rw [Chain.connect, hblocks]; simp) foreignCoinbase
    (List.mem_singleton_self _)
  exact absurd hversion (by decide)

end Samples

end TxChain
