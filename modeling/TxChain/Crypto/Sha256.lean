import TxChain.Crypto.Bytes

/-!
# The vendored SHA-256

The streaming context of the C implementation: a partial block, a bit counter and
eight chaining words. Absorbing chunks one after the other digests their
concatenation, so a commitment may be streamed or computed in one shot.
-/

namespace TxChain.Sha256

def rotRight (a b : UInt32) : UInt32 := (a >>> b) ||| (a <<< (32 - b))
def ch (x y z : UInt32) : UInt32 := (x &&& y) ^^^ (~~~x &&& z)
def maj (x y z : UInt32) : UInt32 := (x &&& y) ^^^ (x &&& z) ^^^ (y &&& z)
def ep0 (x : UInt32) : UInt32 := rotRight x 2 ^^^ rotRight x 13 ^^^ rotRight x 22
def ep1 (x : UInt32) : UInt32 := rotRight x 6 ^^^ rotRight x 11 ^^^ rotRight x 25
def sig0 (x : UInt32) : UInt32 := rotRight x 7 ^^^ rotRight x 18 ^^^ (x >>> 3)
def sig1 (x : UInt32) : UInt32 := rotRight x 17 ^^^ rotRight x 19 ^^^ (x >>> 10)

def k : List UInt32 :=
  [0x428a2f98, 0x71374491, 0xb5c0fbcf, 0xe9b5dba5, 0x3956c25b, 0x59f111f1, 0x923f82a4, 0xab1c5ed5,
   0xd807aa98, 0x12835b01, 0x243185be, 0x550c7dc3, 0x72be5d74, 0x80deb1fe, 0x9bdc06a7, 0xc19bf174,
   0xe49b69c1, 0xefbe4786, 0x0fc19dc6, 0x240ca1cc, 0x2de92c6f, 0x4a7484aa, 0x5cb0a9dc, 0x76f988da,
   0x983e5152, 0xa831c66d, 0xb00327c8, 0xbf597fc7, 0xc6e00bf3, 0xd5a79147, 0x06ca6351, 0x14292967,
   0x27b70a85, 0x2e1b2138, 0x4d2c6dfc, 0x53380d13, 0x650a7354, 0x766a0abb, 0x81c2c92e, 0x92722c85,
   0xa2bfe8a1, 0xa81a664b, 0xc24b8b70, 0xc76c51a3, 0xd192e819, 0xd6990624, 0xf40e3585, 0x106aa070,
   0x19a4c116, 0x1e376c08, 0x2748774c, 0x34b0bcb5, 0x391c0cb3, 0x4ed8aa4a, 0x5b9cca4f, 0x682e6ff3,
   0x748f82ee, 0x78a5636f, 0x84c87814, 0x8cc70208, 0x90befffa, 0xa4506ceb, 0xbef9a3f7, 0xc67178f2]

/-- The eight working variables, and the chaining state between blocks. -/
structure Words where
  (a b c d e f g h : UInt32)

structure Context where
  data : List Byte
  bitlen : UInt64
  state : Words

def loadWords : List Byte → List UInt32
  | b₀ :: b₁ :: b₂ :: b₃ :: rest =>
      ((b₀.toUInt32 <<< 24) ||| (b₁.toUInt32 <<< 16) ||| (b₂.toUInt32 <<< 8) ||| b₃.toUInt32) ::
        loadWords rest
  | _ => []

/-- Extend the message schedule; the newest word stands first. -/
def extendSchedule : ℕ → List UInt32 → List UInt32
  | 0, m => m
  | n + 1, m =>
      extendSchedule n
        ((sig1 (m.getD 1 0) + m.getD 6 0 + sig0 (m.getD 14 0) + m.getD 15 0) :: m)

def schedule (data : List Byte) : List UInt32 :=
  (extendSchedule 48 (loadWords data).reverse).reverse

def round (s : Words) (km : UInt32 × UInt32) : Words :=
  let t1 := s.h + ep1 s.e + ch s.e s.f s.g + km.1 + km.2
  let t2 := ep0 s.a + maj s.a s.b s.c
  ⟨t1 + t2, s.a, s.b, s.c, s.d + t1, s.e, s.f, s.g⟩

def transform (s : Words) (data : List Byte) : Words :=
  let r := (k.zip (schedule data)).foldl round s
  ⟨s.a + r.a, s.b + r.b, s.c + r.c, s.d + r.d, s.e + r.e, s.f + r.f, s.g + r.g, s.h + r.h⟩

def init : Context :=
  ⟨[], 0, ⟨0x6a09e667, 0xbb67ae85, 0x3c6ef372, 0xa54ff53a,
    0x510e527f, 0x9b05688c, 0x1f83d9ab, 0x5be0cd19⟩⟩

def absorb (c : Context) (byte : Byte) : Context :=
  let data := c.data ++ [byte]
  if data.length = 64 then ⟨[], c.bitlen + 512, transform c.state data⟩ else { c with data }

def update (c : Context) (chunk : List Byte) : Context := chunk.foldl absorb c

def emitWord (x : UInt32) : List Byte :=
  [(x >>> 24).toUInt8, (x >>> 16).toUInt8, (x >>> 8).toUInt8, x.toUInt8]

def emitLength (x : UInt64) : List Byte :=
  ([56, 48, 40, 32, 24, 16, 8, 0] : List UInt64).map fun i => (x >>> i).toUInt8

/-- Pad the partial block, append the bit length and emit the chaining words. -/
def final (c : Context) : Digest32 :=
  let n := c.data.length
  let length := emitLength (c.bitlen + n.toUInt64 * 8)
  let s :=
    if n < 56 then transform c.state (c.data ++ 0x80 :: List.replicate (55 - n) 0 ++ length)
    else
      transform (transform c.state (c.data ++ 0x80 :: List.replicate (63 - n) 0))
        (List.replicate 56 0 ++ length)
  ⟨([s.a, s.b, s.c, s.d, s.e, s.f, s.g, s.h].flatMap emitWord).toArray, rfl⟩

/-- One-shot digest. -/
def sha256 (data : List Byte) : Digest32 := final (update init data)

/-- Absorbing chunks one by one digests their concatenation. -/
theorem final_update_chunks (chunks : List (List Byte)) :
    final (chunks.foldl update init) = sha256 chunks.flatten := by
  have absorbed : ∀ c : Context, chunks.foldl update c = update c chunks.flatten := by
    induction chunks with
    | nil => exact fun _ => rfl
    | cons chunk chunks ih =>
        intro c
        rw [List.foldl_cons, ih, List.flatten_cons, update, update, update, List.foldl_append]
  rw [absorbed, sha256]

/-- The digest of the empty string, the commitment of an empty block. -/
example : (sha256 []).toList.take 4 = [0xe3, 0xb0, 0xc4, 0x42] := by decide +kernel

end TxChain.Sha256

namespace TxChain

/-- SHA-256 together with an Ed25519 check that accepts exactly the listed
signatures of the listed messages. -/
abbrev knownSignatures (signed : List (PubKey32 × Sig64 × List Byte)) : Crypto where
  sha256 := Sha256.sha256
  verify := fun pubkey sig message => (pubkey, sig, message) ∈ signed

end TxChain
