import TxChain.Library.Run
import TxChain.Pow.ForkChoice

/-!
# The structure of a chain

Whatever blocks are offered to the write path, the chain starts at the genesis
block, each block follows the one before it, the running work total is the one fork
choice computes from the block count, and the undo log keeps pace. One committed
block preserves all of it and a refused block changes nothing.
-/

namespace TxChain

variable [Crypto]

/-- What the block at position `i` owes to its predecessor `p`. -/
structure Succeeds (D : UInt32) (i : ℕ) (p b : Block) : Prop where
  index : b.header.index.toNat = i
  prevHash : b.header.prevHash = p.header.hash
  later : p.header.timestamp < b.header.timestamp
  pow : meetsDifficulty b.header.hash D = true
  commitment : b.header.txnsHash = b.computeTxnsHash
  size : b.txns.length ≤ maxTxnsPerBlock

/-- Blocks, work and undo log of a chain fit together. -/
structure Chain.Sound (c : Chain) (D : UInt32) : Prop where
  difficulty : c.difficulty = D
  bounded : c.Bounded
  genesis : c.blocks.head? = some genesisBlock
  linked : ∀ i (h : i + 1 < c.blocks.length), Succeeds D (i + 1) c.blocks[i] c.blocks[i + 1]
  work : c.cumWork = cumulativeWork c.blocks D
  undo : c.undoLog.length + 1 = c.blocks.length

namespace Chain

variable {c c' : Chain} {b : Block} {now_s : UInt64} {D : UInt32}

theorem new_sound (D : UInt32) (reward : UInt64) : (new D reward).Sound D where
  difficulty := rfl
  bounded := new_bounded D reward
  genesis := rfl
  linked i h := absurd h (by simp [new])
  work := by
    rw [cumulativeWork_eq]
    exact BitVec.zero_mul.symm
  undo := rfl

/-- A committed block takes its place after the tip. -/
theorem Commits.succeeds (h : Commits c b now_s c') (hc : c.Sound D) :
    Succeeds D c.blocks.length c.tip b where
  index := by
    have hheight := hc.bounded.height_toNat
    have hlt := c.tip.header.timestamp.toNat_lt
    have hbound := hc.bounded
    have hlater := UInt64.lt_iff_toNat_lt.mp h.links.later
    have hpos := c.length_pos
    unfold Bounded at hbound
    rw [h.links.index, UInt64.toNat_add, hheight, UInt64.toNat_one]
    have htime := b.header.timestamp.toNat_lt
    omega
  prevHash := h.links.prevHash
  later := h.links.later
  pow := hc.difficulty ▸ h.links.pow
  commitment := h.links.commitment.symm
  size := h.links.size

theorem Commits.sound (h : Commits c b now_s c') (hc : c.Sound D) : c'.Sound D where
  difficulty := h.difficulty.trans hc.difficulty
  bounded := h.bounded hc.bounded
  genesis := by
    rw [h.blocks, List.head?_append, hc.genesis]
    rfl
  linked := by
    intro i hi
    have hlength := h.length
    have hlast : c.tip = c.blocks[c.blocks.length - 1] := List.getLast_eq_getElem _
    by_cases hold : i + 1 < c.blocks.length
    · have hlinked := hc.linked i hold
      simp only [h.blocks, List.getElem_append_left hold,
        List.getElem_append_left (Nat.lt_of_succ_lt hold)]
      exact hlinked
    · -- the new block sits right after the tip
      have hpos := c.length_pos
      obtain rfl : i = c.blocks.length - 1 := by omega
      have hnext : c.blocks.length - 1 + 1 = c.blocks.length := Nat.sub_add_cancel hpos
      have hsucceeds := h.succeeds hc
      rw [hlast] at hsucceeds
      simp only [h.blocks, hnext, List.getElem_concat_length,
        List.getElem_append_left (Nat.sub_lt hpos Nat.one_pos)]
      exact hsucceeds
  work := by
    rw [h.cumWork, hc.work, hc.difficulty, h.blocks, cumulativeWork_concat c.blocks_ne_nil]
  undo := by
    rw [h.undoLog, List.length_append, List.length_singleton, h.length, hc.undo]

theorem Sound.connect (hc : c.Sound D) (input : Block × UInt64) : (c.connect input).Sound D := by
  rcases connect_cases c input with ⟨-, hcommit⟩ | ⟨-, hsame⟩
  · exact hcommit.sound hc
  · rw [hsame]
    exact hc

theorem run_sound (D : UInt32) (reward : UInt64) (inputs : List (Block × UInt64)) :
    (inputs.foldl Chain.connect (new D reward)).Sound D :=
  Run.invariant (J := fun c : Chain => c.Sound D) (fun _ input h => h.connect input)
    (new_sound D reward) inputs

end Chain

/-- Every chain that calls of the write path lead to is a well-formed chain on the
genesis block with the work of fork choice, and a refused call changes nothing. -/
theorem chain_structure (D : UInt32) (reward : UInt64) (inputs : List (Block × UInt64)) :
    let c := inputs.foldl Chain.connect (Chain.new D reward)
    c.blocks.head? = some genesisBlock ∧
      (∀ i (h : i + 1 < c.blocks.length), Succeeds D (i + 1) c.blocks[i] c.blocks[i + 1]) ∧
      c.cumWork = cumulativeWork c.blocks D ∧
      c.undoLog.length = c.blocks.length - 1 ∧
      ∀ b now_s, (c.connectBlock b now_s).1 ≠ .ok →
        (c.connectBlock b now_s).2.height = c.height ∧
        (c.connectBlock b now_s).2.tipHash = c.tipHash ∧
        (c.connectBlock b now_s).2.cumWork = c.cumWork ∧
        (∀ a, (c.connectBlock b now_s).2.account a = c.account a) ∧
        (c.connectBlock b now_s).2.undoLog = c.undoLog := by
  intro c
  have hsound : c.Sound D := Chain.run_sound D reward inputs
  refine ⟨hsound.genesis, hsound.linked, hsound.work, ?_, ?_⟩
  · have hundo := hsound.undo
    omega
  · intro b now_s hrefused
    rw [Chain.connectBlock_refused hrefused]
    exact ⟨rfl, rfl, rfl, fun _ => rfl, rfl⟩

end TxChain
