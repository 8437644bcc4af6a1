import TxChain.Serialize.Bijection

/-!
# The wallet

A wallet is its 32-byte seed: the public key and the address are derived from it, and a
transaction is signed over its canonical payload.
-/

namespace TxChain

abbrev Seed32 := Vector Byte 32

/-- The signing half of the primitives: `crypto::derive_pubkey` and `crypto::sign`. -/
class Signer where
  derivePubkey : Seed32 → PubKey32
  sign : Seed32 → List Byte → Sig64

variable [Crypto] [Signer]

/-- Verification accepts what the matching seed signed. -/
def SignaturesVerify : Prop :=
  ∀ (seed : Seed32) (message : List Byte),
    Crypto.verify (Signer.derivePubkey seed) (Signer.sign seed message) message = true

/-- The transaction before it is signed; the payload does not cover the signature. -/
def unsignedTxn (seed : Seed32) («to» : Address20) (amount nonce : UInt64) : Txn where
  ver := kTxnVersion
  «from» := address (Signer.derivePubkey seed)
  «to» := «to»
  amount := amount
  nonce := nonce
  pubkey := Signer.derivePubkey seed
  sig := Vector.replicate 64 0

def signTxn (seed : Seed32) («to» : Address20) (amount nonce : UInt64) : Txn :=
  let t := unsignedTxn seed «to» amount nonce
  { t with sig := Signer.sign seed (signedPayload t) }

variable (seed : Seed32) («to» : Address20) (amount nonce : UInt64)

@[simp] theorem signTxn_ver : (signTxn seed «to» amount nonce).ver = kTxnVersion := rfl

@[simp] theorem signTxn_from :
    (signTxn seed «to» amount nonce).from = address (Signer.derivePubkey seed) := rfl

@[simp] theorem signTxn_amount : (signTxn seed «to» amount nonce).amount = amount := rfl

@[simp] theorem signTxn_nonce : (signTxn seed «to» amount nonce).nonce = nonce := rfl

/-- What the wallet signs is what the node verifies. -/
theorem signTxn_verifies (hsign : SignaturesVerify) :
    Crypto.verify (signTxn seed «to» amount nonce).pubkey (signTxn seed «to» amount nonce).sig
      (signedPayload (signTxn seed «to» amount nonce)) = true := by
  have hpayload : signedPayload (signTxn seed «to» amount nonce) =
      signedPayload (unsignedTxn seed «to» amount nonce) := by
    rw [signedPayload_eq_iff]
    exact ⟨rfl, rfl, rfl, rfl, rfl, rfl⟩
  rw [hpayload]
  exact hsign seed (signedPayload (unsignedTxn seed «to» amount nonce))

end TxChain
