import Mathlib

/-!
# Fixed-width byte arrays and the cryptographic primitives

`std::array<Byte, N>` is a `Vector Byte N`. Arrays are ordered lexicographically,
as `std::map` orders its keys. SHA-256 and Ed25519 verification are parameters:
every result holds for any hash function and any signature check.
-/

namespace TxChain

abbrev Byte := UInt8

abbrev Digest32 := Vector Byte 32
abbrev Address20 := Vector Byte 20
abbrev PubKey32 := Vector Byte 32
abbrev Sig64 := Vector Byte 64

/-- The lexicographic order of `std::array`. -/
def byteOrder {n : ℕ} : Vector Byte n → Vector Byte n → Ordering := compareOn Vector.toList

instance {n : ℕ} : Std.TransCmp (byteOrder (n := n)) :=
  inferInstanceAs (Std.TransCmp (compareOn Vector.toList))

instance {n : ℕ} : Std.LawfulEqCmp (byteOrder (n := n)) where
  eq_of_compare h := Vector.toList_inj.mp (@Std.LawfulEqCmp.eq_of_compare _ compare _ _ _ h)

/-- There are finitely many byte arrays of a given width, so sums over all
addresses are ordinary finite sums. -/
noncomputable instance {n : ℕ} : Fintype (Vector Byte n) :=
  have : Finite Byte := Finite.of_injective UInt8.toFin fun _ _ h => UInt8.toFin_inj.mp h
  have : Finite (Vector Byte n) :=
    Finite.of_injective (fun (v : Vector Byte n) (i : Fin n) => v[i])
      fun _ _ h => Vector.ext fun i hi => congrFun h ⟨i, hi⟩
  Fintype.ofFinite _

/-- The primitives the ledger rests on: `crypto::sha256` and `crypto::verify`. -/
class Crypto where
  sha256 : List Byte → Digest32
  verify : PubKey32 → Sig64 → List Byte → Bool

variable [Crypto]

/-- `address = SHA-256(pubkey)[:20]`. -/
def address (pubkey : PubKey32) : Address20 :=
  let digest := Crypto.sha256 pubkey.toList
  Vector.ofFn fun i : Fin 20 => digest[i.val]

def addressMatches (sender : Address20) (pubkey : PubKey32) : Bool := sender == address pubkey

@[simp] theorem addressMatches_iff {sender : Address20} {pubkey : PubKey32} :
    addressMatches sender pubkey = true ↔ sender = address pubkey := by
  simp [addressMatches]

end TxChain
