import TxChain.Library.Clock
import TxChain.Node.Restart

/-!
# The stamps of sealed blocks

The sealer stamps a block with the clock reading, or a second behind the tip where the
clock is not later. So seals that outpace the clock, or a clock set back, push the tip
ahead of it, and the skew bound of the write path refuses a block once the tip is too
far ahead. Where the tip stands is a closed form of the readings.
-/

namespace TxChain

section Stamps

variable [Crypto]

/-- A node at difficulty zero whose blocks behind genesis were sealed at these readings.
A restart or a refused seal leaves the chain as it is. -/
inductive SealedAt : Node → List UInt64 → Prop
  | genesis {node : Node} (hchain : node.chain = Chain.new 0 0) : SealedAt node []
  | sealNext {node : Node} {readings : List UInt64} (fs : FileSystem) (now_s : UInt64)
      (txns : List Txn) (io : AppendOutcome) (h : SealedAt node readings)
      (hok : (node.sealNextBlock fs now_s txns io).1 = .ok) :
      SealedAt (node.sealNextBlock fs now_s txns io).2.1 (readings ++ [now_s])
  | reopen {node node' : Node} {readings : List UInt64} (h : SealedAt node readings)
      (hchain : node'.chain = node.chain) : SealedAt node' readings

/-- The genesis stamp and the readings. -/
def history (readings : List UInt64) : List ℕ := (genesisTimestamp :: readings).map UInt64.toNat

variable {c : Chain} {node : Node} {readings : List UInt64} {now_s : UInt64} {txns : List Txn}

/-- The stamp of the next block, as long as a second behind the tip is in range. -/
theorem Chain.nextBlock_stamp (hroom : c.tip.header.timestamp.toNat + 1 < 2 ^ 64) :
    (c.nextBlock now_s txns).header.timestamp.toNat =
      Clock.tick c.tip.header.timestamp.toNat now_s.toNat := by
  have hnext : (c.tip.header.timestamp + 1).toNat = c.tip.header.timestamp.toNat + 1 := by
    rw [UInt64.toNat_add, UInt64.toNat_one, Nat.mod_eq_of_lt hroom]
  rw [Chain.nextBlock, Clock.tick]
  dsimp only
  split
  next hlate =>
    rw [UInt64.lt_iff_toNat_lt, hnext] at hlate
    rw [hnext]
    omega
  next hlate =>
    rw [UInt64.lt_iff_toNat_lt, hnext] at hlate
    omega

/-- At the end of the range no block is later than the tip. -/
theorem Chain.nextBlock_not_later (hfull : 2 ^ 64 ≤ c.tip.header.timestamp.toNat + 1) :
    ¬c.tip.header.timestamp < (c.nextBlock now_s txns).header.timestamp := by
  rw [UInt64.lt_iff_toNat_lt]
  have hbound := (c.nextBlock now_s txns).header.timestamp.toNat_lt
  omega

/-- A block that links is stamped a tick behind the tip. -/
theorem Chain.stamp_of_later
    (hlater : c.tip.header.timestamp < (c.nextBlock now_s txns).header.timestamp) :
    (c.nextBlock now_s txns).header.timestamp.toNat =
      Clock.tick c.tip.header.timestamp.toNat now_s.toNat := by
  by_cases hroom : c.tip.header.timestamp.toNat + 1 < 2 ^ 64
  · exact Chain.nextBlock_stamp hroom
  · exact absurd hlater (Chain.nextBlock_not_later (Nat.le_of_not_lt hroom))

/-- Where the skew bound is in range, the two timestamp rules are one bound on the tip. -/
theorem Chain.clock_rules_iff (hskew : now_s.toNat + maxClockSkewS.toNat < 2 ^ 64) :
    (c.tip.header.timestamp < (c.nextBlock now_s txns).header.timestamp ∧
      (c.nextBlock now_s txns).header.timestamp ≤ now_s + maxClockSkewS) ↔
    c.tip.header.timestamp.toNat + 1 ≤ now_s.toNat + maxClockSkewS.toNat := by
  have hbound : (now_s + maxClockSkewS).toNat = now_s.toNat + maxClockSkewS.toNat := by
    rw [UInt64.toNat_add, Nat.mod_eq_of_lt hskew]
  by_cases hroom : c.tip.header.timestamp.toNat + 1 < 2 ^ 64
  · have hstamp : (c.nextBlock now_s txns).header.timestamp.toNat =
        Clock.tick c.tip.header.timestamp.toNat now_s.toNat := Chain.nextBlock_stamp hroom
    rw [UInt64.lt_iff_toNat_lt, UInt64.le_iff_toNat_le, hstamp, hbound, Clock.tick]
    omega
  · have hnever : ¬c.tip.header.timestamp < (c.nextBlock now_s txns).header.timestamp :=
      Chain.nextBlock_not_later (Nat.le_of_not_lt hroom)
    constructor
    · rintro ⟨hlater, -⟩
      exact absurd hlater hnever
    · intro h
      omega

/-- What a history of seals leaves. -/
structure Node.Stamped (node : Node) (readings : List UInt64) : Prop where
  difficulty : node.chain.difficulty = 0
  length : node.chain.blocks.length = readings.length + 1
  tip : node.chain.tip.header.timestamp.toNat =
    Clock.stamp genesisTimestamp.toNat (readings.map UInt64.toNat)

theorem Node.Stamped.sealNext (h : node.Stamped readings) (fs : FileSystem) (io : AppendOutcome)
    (hok : (node.sealNextBlock fs now_s txns io).1 = .ok) :
    (node.sealNextBlock fs now_s txns io).2.1.Stamped (readings ++ [now_s]) := by
  rw [Node.sealNextBlock] at hok ⊢
  rcases node.commitBlock_cases fs (node.chain.nextBlock now_s txns) now_s io with
    ⟨hrefused, hsame⟩ | ⟨haccepted, hnext⟩
  · rw [hsame] at hok
    exact absurd hok hrefused
  · have hcommit := Chain.connectBlock_ok haccepted
    rw [hnext]
    refine ⟨hcommit.difficulty.trans h.difficulty, ?_, ?_⟩
    · rw [hcommit.length, h.length, List.length_append, List.length_singleton]
    · rw [hcommit.tip, Chain.stamp_of_later hcommit.links.later, h.tip, List.map_append,
        List.map_singleton, Clock.stamp_concat]

theorem SealedAt.stamped (h : SealedAt node readings) : node.Stamped readings := by
  induction h with
  | genesis hchain =>
      refine ⟨?_, ?_, ?_⟩
      · rw [hchain]
        rfl
      · rw [hchain]
        rfl
      · rw [hchain]
        rfl
  | sealNext fs now_s txns io _ hok ih => exact ih.sealNext fs io hok
  | reopen _ hchain ih =>
      refine ⟨?_, ?_, ?_⟩
      · rw [hchain, ih.difficulty]
      · rw [hchain, ih.length]
      · rw [hchain, ih.tip]

/-- A batch that the gate accepts is refused for its stamp alone. -/
theorem Node.Stamped.verdict (h : node.Stamped readings) (fs : FileSystem) (io : AppendOutcome)
    (hskew : now_s.toNat + maxClockSkewS.toNat < 2 ^ 64) (hsize : txns.length ≤ maxTxnsPerBlock)
    (hgate : (applyBlockTxns node.chain.state (node.chain.nextBlock now_s txns)
      node.chain.reward).1.reason = .ok) :
    (node.sealNextBlock fs now_s txns io).1 =
      if node.chain.tip.header.timestamp.toNat + 1 ≤ now_s.toNat + maxClockSkewS.toNat
      then .ok else .badLink := by
  rw [Node.sealNextBlock, Node.commitBlock_reason, Chain.connectBlock_reason, hgate,
    Chain.nextBlock_reason now_s now_s h.difficulty hsize,
    if_congr (Chain.clock_rules_iff hskew) rfl rfl]
  split <;> rfl

/-- A refused seal changes nothing. -/
theorem Node.sealNextBlock_refused (fs : FileSystem) (io : AppendOutcome)
    (hrefused : (node.sealNextBlock fs now_s txns io).1 ≠ .ok) :
    (node.sealNextBlock fs now_s txns io).2 = (node, fs) := by
  rw [Node.sealNextBlock] at hrefused ⊢
  rcases node.commitBlock_cases fs (node.chain.nextBlock now_s txns) now_s io with
    ⟨-, hsame⟩ | ⟨-, hnext⟩
  · rw [hsame]
  · rw [hnext] at hrefused
    exact absurd rfl hrefused

/-- So it is refused exactly if the next stamp is too far ahead, and then for the stamp. -/
theorem Node.Stamped.refused_iff (h : node.Stamped readings) (fs : FileSystem) (io : AppendOutcome)
    (hskew : now_s.toNat + maxClockSkewS.toNat < 2 ^ 64) (hsize : txns.length ≤ maxTxnsPerBlock)
    (hgate : (applyBlockTxns node.chain.state (node.chain.nextBlock now_s txns)
      node.chain.reward).1.reason = .ok) :
    ((node.sealNextBlock fs now_s txns io).1 ≠ .ok ↔
        now_s.toNat + maxClockSkewS.toNat < node.chain.tip.header.timestamp.toNat + 1) ∧
      ((node.sealNextBlock fs now_s txns io).1 ≠ .ok →
        (node.sealNextBlock fs now_s txns io).1 = .badLink) := by
  rw [h.verdict fs io hskew hsize hgate]
  by_cases hnear : node.chain.tip.header.timestamp.toNat + 1 ≤ now_s.toNat + maxClockSkewS.toNat
  · rw [if_pos hnear]
    exact ⟨⟨fun hne => absurd rfl hne, fun hlt => absurd hnear (Nat.not_le.mpr hlt)⟩,
      fun hne => absurd rfl hne⟩
  · rw [if_neg hnear]
    exact ⟨⟨fun _ => Nat.lt_of_not_le hnear, fun _ => by decide⟩, fun _ => rfl⟩

/-- The tip stands at the furthest of the readings with a second for every later block, and a
seal stalls exactly where that is more than the skew ahead of the clock. -/
theorem sealer_stamps (h : SealedAt node readings) :
    node.chain.blocks.length = readings.length + 1 ∧
      IsGreatest (Clock.carried (history readings)) node.chain.tip.header.timestamp.toNat ∧
      ∀ (fs : FileSystem) (now_s : UInt64) (txns : List Txn) (io : AppendOutcome),
        now_s.toNat + maxClockSkewS.toNat < 2 ^ 64 → txns.length ≤ maxTxnsPerBlock →
        (applyBlockTxns node.chain.state (node.chain.nextBlock now_s txns)
          node.chain.reward).1.reason = .ok →
        ((node.sealNextBlock fs now_s txns io).1 ≠ .ok ↔
          ∃ t ∈ Clock.carried (history readings),
            t + 1 > now_s.toNat + maxClockSkewS.toNat) ∧
        ((node.sealNextBlock fs now_s txns io).1 ≠ .ok →
          node.sealNextBlock fs now_s txns io = (.badLink, node, fs)) := by
  have hstamped := h.stamped
  refine ⟨hstamped.length, ?_, ?_⟩
  · rw [hstamped.tip]
    exact Clock.stamp_isGreatest _ _
  · intro fs now_s txns io hskew hsize hgate
    obtain ⟨hrefused, hreason⟩ := hstamped.refused_iff fs io hskew hsize hgate
    rw [hstamped.tip, Clock.exceeds_iff] at hrefused
    exact ⟨hrefused, fun hne => Prod.ext (hreason hne) (Node.sealNextBlock_refused fs io hne)⟩

end Stamps

section Samples

attribute [local instance] sampleKeys

/-- A node that has sealed an empty block at the genesis second, so its tip is a second ahead. -/
def aheadNode : Node :=
  ((Node.new {}).sealNextBlock (fun _ => none) genesisTimestamp [] .complete).2.1

theorem aheadNode_sealed : SealedAt aheadNode [genesisTimestamp] := by
  have hstart : SealedAt (Node.new {}) [] := .genesis rfl
  rw [aheadNode]
  refine .sealNext (fun _ => none) genesisTimestamp [] .complete hstart ?_
  have hskew : genesisTimestamp.toNat + maxClockSkewS.toNat < 2 ^ 64 := by decide
  rw [hstart.stamped.verdict (fun _ => none) .complete hskew (Nat.zero_le _) rfl,
    hstart.stamped.tip]
  exact if_pos (by decide)

theorem aheadNode_gate (now_s : UInt64) :
    (applyBlockTxns aheadNode.chain.state (aheadNode.chain.nextBlock now_s [])
      aheadNode.chain.reward).1.reason = .ok := by
  have hstart : (Node.new {}).chain.ConfiguredBy {} := ⟨rfl, rfl⟩
  have hconf : aheadNode.chain.ConfiguredBy {} := by
    rw [aheadNode, Node.sealNextBlock, Node.commitBlock_chain]
    exact hstart.connect _
  rw [hconf.reward]
  rfl

/-- With the clock set back the next seal stalls, until the clock is a skew behind the next
stamp. -/
theorem aheadNode_stalls :
    aheadNode.sealNextBlock (fun _ => none) (genesisTimestamp - 7199) [] .complete =
        (.badLink, aheadNode, fun _ => none) ∧
      (aheadNode.sealNextBlock (fun _ => none) (genesisTimestamp - 7198) [] .complete).1 = .ok := by
  obtain ⟨-, -, hseal⟩ := sealer_stamps aheadNode_sealed
  obtain ⟨hstalls, hsame⟩ := hseal (fun _ => none) (genesisTimestamp - 7199) [] .complete
    (by decide) (Nat.zero_le _) (aheadNode_gate _)
  obtain ⟨hgoes, -⟩ := hseal (fun _ => none) (genesisTimestamp - 7198) [] .complete
    (by decide) (Nat.zero_le _) (aheadNode_gate _)
  constructor
  · exact hsame (hstalls.mpr ⟨genesisTimestamp.toNat + 1, ⟨0, by decide, rfl⟩, by decide⟩)
  · by_contra hrefused
    obtain ⟨t, ⟨j, hj, rfl⟩, hahead⟩ := hgoes.mp hrefused
    have hcases : j = 0 ∨ j = 1 := by
      have hlength : (history [genesisTimestamp]).length = 2 := rfl
      omega
    rcases hcases with rfl | rfl
    · exact absurd hahead (by decide +revert)
    · exact absurd hahead (by decide +revert)

end Samples

end TxChain
