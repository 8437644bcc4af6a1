import TxChain.Chain.Supply

/-!
# Fork choice

The weight of a chain is a 128-bit product of its number of non-genesis blocks and
the work of one block. `cumulativeWork_toNat` says where that product wraps: below
difficulty 128 the block count is taken modulo `2 ^ (128 - D)`, and from 128 on,
where the work of one block saturates, the product is the negated block count. So
works compare like lengths exactly as far as these counts do.
-/

namespace TxChain

/-! ### The verdict -/

def cumulativeWork (blocks : List Block) (D : UInt32) : Work :=
  if blocks = [] then 0 else BitVec.ofNat 128 (blocks.length - 1) * blockWork D

/-- Strict, so a tie keeps the incumbent. -/
def candidateWins (candidateCumWork activeCumWork : Work) : Bool :=
  candidateCumWork > activeCumWork

structure ImportResult where
  valid : Bool := false
  won : Bool := false
  status : VerifyResult := {}
  active_work : Work := 0
  candidate_work : Work := 0

/-- The challenger is validated first, and then the works are compared. -/
def evaluateImport [Crypto] (active candidate : List Block) (now_s : UInt64) (D : UInt32)
    (reward : UInt64) : ImportResult :=
  let status := replayFromGenesis candidate now_s D reward
  let active_work := cumulativeWork active D
  let candidate_work := cumulativeWork candidate D
  { valid := status.ok
    won := status.ok && candidateWins candidate_work active_work
    status
    active_work
    candidate_work }

/-! ### Work as a number -/

theorem cumulativeWork_eq (blocks : List Block) (D : UInt32) :
    cumulativeWork blocks D = BitVec.ofNat 128 (blocks.length - 1) * blockWork D := by
  rw [cumulativeWork]
  split
  next hnil =>
    rw [hnil]
    exact (BitVec.zero_mul).symm
  next => rfl

/-- The fork-choice work grows by the work of one block, in 128 bits. -/
theorem cumulativeWork_concat {blocks : List Block} (hne : blocks ≠ []) (b : Block) (D : UInt32) :
    cumulativeWork (blocks ++ [b]) D = cumulativeWork blocks D + blockWork D := by
  have hpos := List.length_pos_of_ne_nil hne
  have hcount : (blocks ++ [b]).length - 1 = (blocks.length - 1) + 1 := by
    rw [List.length_append, List.length_singleton]
    omega
  rw [cumulativeWork_eq, cumulativeWork_eq, hcount, BitVec.ofNat_add, BitVec.add_mul]
  exact congrArg _ (BitVec.one_mul _)

/-- Work that counts blocks modulo what the shift leaves of the word. -/
theorem product_toNat {D : UInt32} (hD : D.toNat < 128) (n : ℕ) :
    (BitVec.ofNat 128 n * blockWork D).toNat = n % 2 ^ (128 - D.toNat) * 2 ^ D.toNat := by
  have hword : (2 : ℕ) ^ 128 = 2 ^ (128 - D.toNat) * 2 ^ D.toNat := by
    rw [← Nat.pow_add, Nat.sub_add_cancel hD.le]
  have hone : 1 <<< D.toNat < 2 ^ 128 := by
    rw [Nat.one_shiftLeft]
    exact Nat.pow_lt_pow_right (by decide) hD
  have hblock : (blockWork D).toNat = 2 ^ D.toNat := by
    rw [blockWork, if_neg (Nat.not_le.mpr hD), BitVec.toNat_shiftLeft]
    exact (Nat.mod_eq_of_lt hone).trans (Nat.one_shiftLeft _)
  rw [BitVec.toNat_mul, BitVec.toNat_ofNat, hblock, Nat.mod_mul_mod, hword, Nat.mul_mod_mul_right]

/-- Saturated work makes the product the negated block count. -/
theorem product_toNat_saturated {D : UInt32} (hD : 128 ≤ D.toNat) {n : ℕ} (hn : n < 2 ^ 64) :
    (BitVec.ofNat 128 n * blockWork D).toNat = if n = 0 then 0 else 2 ^ 128 - n := by
  have hblock : blockWork D = -1#128 := by
    rw [blockWork, if_pos hD]
    decide
  have hlt : n < 2 ^ 128 := hn.trans (by decide)
  rw [hblock, BitVec.mul_neg, BitVec.mul_one, BitVec.toNat_neg, BitVec.toNat_ofNat,
    Nat.mod_eq_of_lt hlt]
  split
  next hzero => rw [hzero, Nat.sub_zero, Nat.mod_self]
  next hpos => exact Nat.mod_eq_of_lt (by omega)

/-- Block counts that the product orders as the counts themselves. -/
def WorkOrders (D : UInt32) (n m : ℕ) : Prop :=
  if D.toNat < 128 then n % 2 ^ (128 - D.toNat) < m % 2 ^ (128 - D.toNat) ↔ n < m
  else n = 0 ∨ m = 0 ∨ n = m

/-- Block counts of which the second is not lighter than the first. -/
def WorkGrows (D : UInt32) (n m : ℕ) : Prop :=
  if D.toNat < 128 then n % 2 ^ (128 - D.toNat) ≤ m % 2 ^ (128 - D.toNat)
  else n = 0 ∨ n = m

theorem cumulativeWork_lt_iff (D : UInt32) {active candidate : List Block}
    (hactive : active.length < 2 ^ 64) (hcandidate : candidate.length < 2 ^ 64) :
    (cumulativeWork active D < cumulativeWork candidate D ↔
        active.length - 1 < candidate.length - 1) ↔
      WorkOrders D (active.length - 1) (candidate.length - 1) := by
  rw [BitVec.lt_def, cumulativeWork_eq, cumulativeWork_eq, WorkOrders]
  split
  next hD =>
    rw [product_toNat hD, product_toNat hD, Nat.mul_lt_mul_right (Nat.two_pow_pos D.toNat)]
  next hD =>
    rw [product_toNat_saturated (by omega) (by omega),
      product_toNat_saturated (by omega) (by omega)]
    split_ifs <;> omega

theorem cumulativeWork_le_iff (D : UInt32) {blocks more : List Block}
    (hlength : (blocks ++ more).length < 2 ^ 64) :
    cumulativeWork blocks D ≤ cumulativeWork (blocks ++ more) D ↔
      WorkGrows D (blocks.length - 1) ((blocks ++ more).length - 1) := by
  have hle : blocks.length ≤ (blocks ++ more).length := by
    rw [List.length_append]
    exact Nat.le_add_right _ _
  rw [BitVec.le_def, cumulativeWork_eq, cumulativeWork_eq, WorkGrows]
  split
  next hD =>
    rw [product_toNat hD, product_toNat hD, Nat.mul_le_mul_right_iff (Nat.two_pow_pos D.toNat)]
  next hD =>
    rw [product_toNat_saturated (by omega) (by omega),
      product_toNat_saturated (by omega) (by omega)]
    split_ifs <;> omega

/-- Up to difficulty 64 no product of a 64-bit block count wraps. -/
theorem work_faithful {D : UInt32} {n m : ℕ} (hD : D.toNat ≤ 64) (hn : n < 2 ^ 64)
    (hm : m < 2 ^ 64) : WorkOrders D n m ∧ (n ≤ m → WorkGrows D n m) := by
  have hword : (2 : ℕ) ^ 64 ≤ 2 ^ (128 - D.toNat) := Nat.pow_le_pow_right (by decide) (by omega)
  have hsmall : D.toNat < 128 := by omega
  rw [WorkOrders, WorkGrows, if_pos hsmall, if_pos hsmall, Nat.mod_eq_of_lt (by omega),
    Nat.mod_eq_of_lt (by omega)]
  exact ⟨Iff.rfl, id⟩

/-! ### Fork choice by length -/

section ForkChoice

variable [Crypto]

theorem evaluateImport_won_iff {active candidate : List Block} {now_s : UInt64} {D : UInt32}
    {reward : UInt64} :
    (evaluateImport active candidate now_s D reward).won = true ↔
      (replayFromGenesis candidate now_s D reward).ok = true ∧
        cumulativeWork active D < cumulativeWork candidate D := by
  simp [evaluateImport, candidateWins]

/-- An import follows the length rule exactly when its candidate is refused or the
product orders the two lengths, and an extension is never lighter exactly when the
product grows with it. -/
theorem fork_choice_by_length (now_s : UInt64) (D : UInt32) (reward : UInt64)
    {active candidate : List Block} (hactive : active.length < 2 ^ 64)
    (hcandidate : candidate.length < 2 ^ 64) :
    (((evaluateImport active candidate now_s D reward).won = true ↔
          (replayFromGenesis candidate now_s D reward).ok = true ∧
            active.length - 1 < candidate.length - 1) ↔
        ((replayFromGenesis candidate now_s D reward).ok = true →
          WorkOrders D (active.length - 1) (candidate.length - 1))) ∧
      ∀ more, (active ++ more).length < 2 ^ 64 →
        (cumulativeWork active D ≤ cumulativeWork (active ++ more) D ↔
          WorkGrows D (active.length - 1) ((active ++ more).length - 1)) := by
  refine ⟨?_, fun more hmore => cumulativeWork_le_iff D hmore⟩
  rw [evaluateImport_won_iff, ← cumulativeWork_lt_iff D hactive hcandidate]
  by_cases hvalid : (replayFromGenesis candidate now_s D reward).ok = true
  · simp only [hvalid, true_and, forall_const]
  · simp [hvalid]

end ForkChoice

section Samples

attribute [local instance] sampleKeys

/-- At difficulty 127 the second block takes the whole weight of the first away. -/
theorem extension_lighter_than_chain :
    let b₁ := (Chain.new 0 0).nextBlock 0 []
    let b₂ := ((Chain.new 0 0).connect (b₁, genesisTimestamp)).nextBlock 0 []
    ¬cumulativeWork [genesisBlock, b₁] 127 ≤ cumulativeWork ([genesisBlock, b₁] ++ [b₂]) 127 := by
  intro b₁ b₂ hle
  have hgrows := (cumulativeWork_le_iff 127 (by simp)).mp hle
  have hone : [genesisBlock, b₁].length - 1 = 1 := rfl
  have htwo : ([genesisBlock, b₁] ++ [b₂]).length - 1 = 2 := rfl
  rw [hone, htwo, WorkGrows] at hgrows
  exact absurd hgrows (by decide)

/-- A chain of one transfer wins over the bare genesis block at difficulty zero. -/
theorem transfer_chain_wins :
    (evaluateImport [genesisBlock] (sealedChain [[payOliver]]).blocks genesisTimestamp 0 0).won =
      true := by
  have hlength : (sealedChain [[payOliver]]).blocks.length = 2 := by
    have hmap := congrArg List.length payOliver_sealed
    rwa [List.length_map] at hmap
  have horders := (work_faithful (D := 0) (n := 0) (m := 1) (by decide) (by decide) (by decide)).1
  have hactive : [genesisBlock].length < 2 ^ 64 := by decide
  have hcandidate : (sealedChain [[payOliver]]).blocks.length < 2 ^ 64 := by
    rw [hlength]
    decide
  have hrule := (fork_choice_by_length genesisTimestamp 0 0 hactive hcandidate).1.mpr
    (by rw [hlength]; exact fun _ => horders)
  refine hrule.mpr ⟨payOliver_accepted.1, ?_⟩
  rw [hlength]
  decide

end Samples

end TxChain
