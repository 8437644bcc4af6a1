import TxChain.Chain.Gate
import TxChain.Crypto.HashUtil
import TxChain.Library.OrderedMap

/-!
# Genesis and the in-memory chain

The genesis table is the only source of initial money. A chain starts at the
deterministic genesis block and grows through `connectBlock` alone, which checks a
block against the tip (V1 to V7) and either commits it or leaves the chain as it
was. `linkReason` is the verdict of the header rules V1 to V6 by themselves.
-/

namespace TxChain

/-! ### Genesis -/

structure GenesisEntry where
  addr : Address
  amount : UInt64

def genesisSupply : UInt64 := 5000
def genesisTimestamp : UInt64 := 1704067200

/-- The order-fixed allocation: racheal, oliver, matthew, sophia, daniel. -/
def genesisAlloc : List GenesisEntry :=
  [⟨#v[0x62, 0x5c, 0x36, 0xc3, 0x4a, 0x65, 0x6b, 0xf2, 0x5a, 0x53,
       0x8f, 0x8c, 0x23, 0xa1, 0x31, 0x86, 0x98, 0x5a, 0xf6, 0x69], 1000⟩,
   ⟨#v[0x70, 0xdc, 0xb6, 0xdd, 0xa5, 0xae, 0xae, 0x7b, 0xfc, 0x6f,
       0x08, 0xc5, 0x90, 0x40, 0x2f, 0x6c, 0x0c, 0x78, 0x97, 0x02], 1000⟩,
   ⟨#v[0x25, 0xb3, 0xab, 0x87, 0x8b, 0x41, 0x2c, 0x08, 0x67, 0x9b,
       0x9d, 0x2f, 0xd0, 0xa3, 0x0b, 0xc5, 0x28, 0xdc, 0x07, 0x0d], 1000⟩,
   ⟨#v[0x32, 0x62, 0xbd, 0x9c, 0x6c, 0xdb, 0xe7, 0x68, 0x05, 0x05,
       0x8f, 0x64, 0x5f, 0x74, 0x1b, 0x8f, 0x15, 0xec, 0x14, 0xfa], 1000⟩,
   ⟨#v[0x99, 0x3b, 0x59, 0x10, 0xd2, 0xfa, 0x78, 0x40, 0x01, 0x75,
       0x98, 0x37, 0x91, 0xf4, 0x53, 0x5d, 0x16, 0x9e, 0xb7, 0xe3], 1000⟩]

/-- Committed state at height 0. -/
def applyGenesis : AccountMap :=
  genesisAlloc.foldl (fun state e => state.set e.addr { balance := e.amount, nonce := 0 }) ∅

/-- Every genesis account starts with nonce zero, and so does every other. -/
theorem applyGenesis_nonce (a : Address) : (applyGenesis.lookup a).nonce = 0 := by
  simp only [applyGenesis, genesisAlloc, List.foldl_cons, List.foldl_nil, AccountMap.lookup_set]
  split_ifs <;> rfl

/-! ### The chain -/

/-- Undo record of one committed block. -/
structure CommitDelta where
  touched : List (Address × AccountState)

structure Chain where
  blocks : List Block
  state : AccountMap
  cumWork : Work
  difficulty : UInt32
  reward : UInt64
  undoLog : List CommitDelta
  blocks_ne_nil : blocks ≠ []

namespace Chain

def tip (c : Chain) : Block := c.blocks.getLast c.blocks_ne_nil

def height (c : Chain) : UInt64 := UInt64.ofNat (c.blocks.length - 1)

def account (c : Chain) (a : Address) : AccountState := c.state.lookup a

/-- The pre-images of every sender and receiver of a block. -/
def preImages (work : AccountMap) (txns : List Txn) : List (Address × AccountState) :=
  txns.flatMap fun t => [(t.from, work.lookup t.from), (t.to, work.lookup t.to)]

theorem length_pos (c : Chain) : 0 < c.blocks.length := List.length_pos_of_ne_nil c.blocks_ne_nil

theorem height_add_one (c : Chain) : c.height + 1 = UInt64.ofNat c.blocks.length := by
  have hpos := c.length_pos
  rw [height, ← UInt64.ofNat_one, ← UInt64.ofNat_add, Nat.sub_add_cancel hpos]

/-- Timestamps grow strictly, so a chain is never longer than its last timestamp. -/
def Bounded (c : Chain) : Prop := c.blocks.length ≤ c.tip.header.timestamp.toNat

/-- The height of a bounded chain does not wrap. -/
theorem Bounded.height_toNat {c : Chain} (h : c.Bounded) :
    c.height.toNat = c.blocks.length - 1 := by
  have hlt := c.tip.header.timestamp.toNat_lt
  have hpos := c.length_pos
  unfold Bounded at h
  rw [height, UInt64.toNat_ofNat', Nat.mod_eq_of_lt (by omega)]

end Chain

variable [Crypto]

def genesisBlock : Block where
  header :=
    { index := 0, timestamp := genesisTimestamp, txnsHash := TxChain.txnsHash [], nonce := 0 }
  txns := []

namespace Chain

/-- The constructor `Chain(difficulty, reward)`. -/
def new (difficulty : UInt32) (reward : UInt64) : Chain where
  blocks := [genesisBlock]
  state := applyGenesis
  cumWork := 0
  difficulty := difficulty
  reward := reward
  undoLog := []
  blocks_ne_nil := by simp

def tipHash (c : Chain) : Hash256 := c.tip.header.hash

/-- The single write path. -/
def connectBlock (c : Chain) (b : Block) (now_s : UInt64) : Reason × Chain :=
  if b.header.index ≠ c.height + 1 then (.badLink, c)
  else if b.header.prevHash ≠ c.tipHash then (.badLink, c)
  else if b.header.timestamp ≤ c.tip.header.timestamp then (.badLink, c)
  else if b.header.timestamp > now_s + maxClockSkewS then (.badLink, c)
  else if ¬meetsDifficulty b.header.hash c.difficulty then (.badPow, c)
  else if b.computeTxnsHash ≠ b.header.txnsHash then (.badTxnsHash, c)
  else if b.txns.length > maxTxnsPerBlock then (.badTxnsHash, c)
  else
    let applied := applyBlockTxns c.state b c.reward
    if applied.1.reason ≠ .ok then (applied.1.reason, c)
    else
      (.ok,
        { c with
          blocks := c.blocks ++ [b]
          state := applied.2
          cumWork := c.cumWork + blockWork c.difficulty
          undoLog := c.undoLog ++ [⟨preImages c.state b.txns⟩]
          blocks_ne_nil := by simp })

/-- One call of the write path as a step of a run, whatever its verdict. -/
def connect (c : Chain) (input : Block × UInt64) : Chain := (c.connectBlock input.1 input.2).2

end Chain

/-! ### The header rules -/

/-- The first of V1 to V6 that a block breaks against its predecessor. -/
def linkReason (index : UInt64) (prevHash : Hash256) (prevTime now_s : UInt64) (D : UInt32)
    (b : Block) : Reason :=
  if b.header.index ≠ index then .badLink
  else if b.header.prevHash ≠ prevHash then .badLink
  else if ¬(prevTime < b.header.timestamp ∧ b.header.timestamp ≤ now_s + maxClockSkewS) then
    .badLink
  else if ¬meetsDifficulty b.header.hash D then .badPow
  else if b.computeTxnsHash ≠ b.header.txnsHash then .badTxnsHash
  else if b.txns.length > maxTxnsPerBlock then .badTxnsHash
  else .ok

/-- A block that keeps every header rule. -/
structure LinksTo (index : UInt64) (prevHash : Hash256) (prevTime now_s : UInt64) (D : UInt32)
    (b : Block) : Prop where
  index : b.header.index = index
  prevHash : b.header.prevHash = prevHash
  later : prevTime < b.header.timestamp
  skew : b.header.timestamp ≤ now_s + maxClockSkewS
  pow : meetsDifficulty b.header.hash D = true
  commitment : b.computeTxnsHash = b.header.txnsHash
  size : b.txns.length ≤ maxTxnsPerBlock

theorem linkReason_ok_iff {index : UInt64} {prevHash : Hash256} {prevTime now_s : UInt64}
    {D : UInt32} {b : Block} :
    linkReason index prevHash prevTime now_s D b = .ok ↔
      LinksTo index prevHash prevTime now_s D b := by
  constructor
  · intro h
    simp only [linkReason] at h
    split_ifs at h with h₁ h₂ h₃ h₄ h₅ h₆
    simp only [not_not] at h₁ h₂ h₃ h₄ h₅
    exact ⟨h₁, h₂, h₃.1, h₃.2, h₄, h₅, not_lt.mp h₆⟩
  · rintro ⟨h₁, h₂, h₃, h₃', h₄, h₅, h₆⟩
    have hsize : ¬b.txns.length > maxTxnsPerBlock := not_lt.mpr h₆
    simp [linkReason, h₁, h₂, h₃, h₃', h₄, h₅, hsize]

namespace Chain

/-- The header rules of the write path are `linkReason` against the tip. -/
theorem connectBlock_eq (c : Chain) (b : Block) (now_s : UInt64) :
    let link := linkReason (c.height + 1) c.tipHash c.tip.header.timestamp now_s c.difficulty b
    let applied := applyBlockTxns c.state b c.reward
    c.connectBlock b now_s =
      if link ≠ .ok then (link, c)
      else if applied.1.reason ≠ .ok then (applied.1.reason, c)
      else
        (.ok,
          { c with
            blocks := c.blocks ++ [b]
            state := applied.2
            cumWork := c.cumWork + blockWork c.difficulty
            undoLog := c.undoLog ++ [⟨preImages c.state b.txns⟩]
            blocks_ne_nil := by simp }) := by
  intro link applied
  simp only [connectBlock, link, linkReason]
  by_cases h₁ : b.header.index ≠ c.height + 1
  · simp [h₁]
  by_cases h₂ : b.header.prevHash ≠ c.tipHash
  · simp [h₁, h₂]
  by_cases h₃ : b.header.timestamp ≤ c.tip.header.timestamp
  · have hnot : ¬(c.tip.header.timestamp < b.header.timestamp ∧
        b.header.timestamp ≤ now_s + maxClockSkewS) := fun h => absurd h.1 (UInt64.not_lt.mpr h₃)
    simp [h₁, h₂, h₃, hnot]
  by_cases h₃' : b.header.timestamp > now_s + maxClockSkewS
  · have hnot : ¬(c.tip.header.timestamp < b.header.timestamp ∧
        b.header.timestamp ≤ now_s + maxClockSkewS) := fun h => absurd h.2 (UInt64.not_le.mpr h₃')
    simp [h₁, h₂, h₃, h₃', hnot]
  have hskew : c.tip.header.timestamp < b.header.timestamp ∧
      b.header.timestamp ≤ now_s + maxClockSkewS :=
    ⟨UInt64.not_le.mp h₃, UInt64.not_lt.mp h₃'⟩
  rw [if_neg h₁, if_neg h₂, if_neg h₃, if_neg h₃', if_neg h₁, if_neg h₂,
    if_neg (not_not.mpr hskew)]
  by_cases h₄ : ¬meetsDifficulty b.header.hash c.difficulty
  · simp [h₄]
  by_cases h₅ : b.computeTxnsHash ≠ b.header.txnsHash
  · simp [h₄, h₅]
  by_cases h₆ : b.txns.length > maxTxnsPerBlock
  · simp [h₄, h₅, h₆]
  simp [h₄, h₅, h₆, applied]

/-- What a committed block satisfied and what committing it changed. -/
structure Commits (c : Chain) (b : Block) (now_s : UInt64) (c' : Chain) : Prop where
  links : LinksTo (c.height + 1) c.tipHash c.tip.header.timestamp now_s c.difficulty b
  applied : (applyBlockTxns c.state b c.reward).1.reason = .ok
  blocks : c'.blocks = c.blocks ++ [b]
  state : c'.state = (applyBlockTxns c.state b c.reward).2
  cumWork : c'.cumWork = c.cumWork + blockWork c.difficulty
  difficulty : c'.difficulty = c.difficulty
  reward : c'.reward = c.reward
  undoLog : c'.undoLog = c.undoLog ++ [⟨preImages c.state b.txns⟩]

variable {c c' : Chain} {b : Block} {now_s : UInt64}

theorem connectBlock_ok (h : (c.connectBlock b now_s).1 = .ok) :
    Commits c b now_s (c.connectBlock b now_s).2 := by
  rw [connectBlock_eq] at h ⊢
  by_cases hlink :
      linkReason (c.height + 1) c.tipHash c.tip.header.timestamp now_s c.difficulty b ≠ .ok
  · simp [hlink] at h
  by_cases happ : (applyBlockTxns c.state b c.reward).1.reason ≠ .ok
  · simp [hlink, happ] at h
  rw [if_neg hlink, if_neg happ]
  exact ⟨linkReason_ok_iff.mp (not_not.mp hlink), not_not.mp happ, rfl, rfl, rfl, rfl, rfl, rfl⟩

/-- The verdict is the first header rule broken, and then the gate's. -/
theorem connectBlock_reason (c : Chain) (b : Block) (now_s : UInt64) :
    (c.connectBlock b now_s).1 =
      if linkReason (c.height + 1) c.tipHash c.tip.header.timestamp now_s c.difficulty b ≠ .ok then
        linkReason (c.height + 1) c.tipHash c.tip.header.timestamp now_s c.difficulty b
      else (applyBlockTxns c.state b c.reward).1.reason := by
  rw [connectBlock_eq]
  by_cases hlink :
      linkReason (c.height + 1) c.tipHash c.tip.header.timestamp now_s c.difficulty b ≠ .ok
  · simp [hlink]
  by_cases happ : (applyBlockTxns c.state b c.reward).1.reason ≠ .ok
  · simp [hlink, happ]
  · simp [hlink, not_not.mp happ]

/-- A refused block leaves the whole chain as it was. -/
theorem connectBlock_refused (h : (c.connectBlock b now_s).1 ≠ .ok) :
    (c.connectBlock b now_s).2 = c := by
  rw [connectBlock_eq] at h ⊢
  by_cases hlink :
      linkReason (c.height + 1) c.tipHash c.tip.header.timestamp now_s c.difficulty b ≠ .ok
  · simp [hlink]
  by_cases happ : (applyBlockTxns c.state b c.reward).1.reason ≠ .ok
  · simp [hlink, happ]
  simp [hlink, happ] at h

/-- The block keeps every rule of the tip. -/
structure Admits (c : Chain) (b : Block) (now_s : UInt64) : Prop where
  links : LinksTo (c.height + 1) c.tipHash c.tip.header.timestamp now_s c.difficulty b
  applied : (applyBlockTxns c.state b c.reward).1.reason = .ok

/-- Header rules and gate together are all that the write path asks for. -/
theorem connectBlock_ok_iff : (c.connectBlock b now_s).1 = .ok ↔ c.Admits b now_s := by
  constructor
  · exact fun h => ⟨(connectBlock_ok h).links, (connectBlock_ok h).applied⟩
  · rintro ⟨hlink, happ⟩
    rw [connectBlock_eq, if_neg (not_not.mpr (linkReason_ok_iff.mpr hlink)),
      if_neg (not_not.mpr happ)]

/-- One step of a run: a block is committed or nothing happens. -/
theorem connect_cases (c : Chain) (input : Block × UInt64) :
    ((c.connectBlock input.1 input.2).1 = .ok ∧ Commits c input.1 input.2 (c.connect input)) ∨
      ((c.connectBlock input.1 input.2).1 ≠ .ok ∧ c.connect input = c) := by
  by_cases h : (c.connectBlock input.1 input.2).1 = .ok
  · exact .inl ⟨h, connectBlock_ok h⟩
  · exact .inr ⟨h, connectBlock_refused h⟩

/-- The block a sealer builds on the tip, with nonce zero. -/
def nextBlock (c : Chain) (now_s : UInt64) (txns : List Txn) : Block where
  header :=
    { index := c.height + 1
      timestamp :=
        if now_s < c.tip.header.timestamp + 1 then c.tip.header.timestamp + 1 else now_s
      prevHash := c.tipHash
      txnsHash := TxChain.txnsHash txns
      nonce := 0 }
  txns := txns

/-- At difficulty zero a sealed block can break only the timestamp and size rules. -/
theorem nextBlock_links (time now_s : UInt64) (txns : List Txn) (hwork : c.difficulty = 0) :
    LinksTo (c.height + 1) c.tipHash c.tip.header.timestamp now_s c.difficulty
        (c.nextBlock time txns) ↔
      c.tip.header.timestamp < (c.nextBlock time txns).header.timestamp ∧
        (c.nextBlock time txns).header.timestamp ≤ now_s + maxClockSkewS ∧
          txns.length ≤ maxTxnsPerBlock := by
  constructor
  · exact fun h => ⟨h.later, h.skew, h.size⟩
  · rintro ⟨hlater, hskew, hsize⟩
    exact ⟨rfl, rfl, hlater, hskew, by simp [hwork], rfl, hsize⟩

/-- So at difficulty zero the header rules come down to the clock. -/
theorem nextBlock_reason (time now_s : UInt64) {txns : List Txn} (hwork : c.difficulty = 0)
    (hsize : txns.length ≤ maxTxnsPerBlock) :
    linkReason (c.height + 1) c.tipHash c.tip.header.timestamp now_s c.difficulty
        (c.nextBlock time txns) =
      if c.tip.header.timestamp < (c.nextBlock time txns).header.timestamp ∧
          (c.nextBlock time txns).header.timestamp ≤ now_s + maxClockSkewS then .ok
      else .badLink := by
  split
  next h =>
    exact linkReason_ok_iff.mpr
      ((nextBlock_links time now_s txns hwork).mpr ⟨h.1, h.2, hsize⟩)
  next h =>
    have hindex : (c.nextBlock time txns).header.index = c.height + 1 := rfl
    have hprev : (c.nextBlock time txns).header.prevHash = c.tipHash := rfl
    rw [linkReason, if_neg (not_not.mpr hindex), if_neg (not_not.mpr hprev), if_pos h]

theorem Commits.tip (h : Commits c b now_s c') : c'.tip = b := by
  simp [Chain.tip, h.blocks]

theorem Commits.length (h : Commits c b now_s c') : c'.blocks.length = c.blocks.length + 1 := by
  simp [h.blocks]

/-! ### Bounds every reachable chain satisfies -/

theorem new_bounded (D : UInt32) (reward : UInt64) : (new D reward).Bounded := by
  change 1 ≤ genesisTimestamp.toNat
  decide

theorem Commits.bounded (h : Commits c b now_s c') (hbound : c.Bounded) : c'.Bounded := by
  have hlater := UInt64.lt_iff_toNat_lt.mp h.links.later
  unfold Bounded at hbound ⊢
  rw [h.length, h.tip]
  omega

theorem Bounded.connect (h : c.Bounded) (input : Block × UInt64) : (c.connect input).Bounded := by
  rcases connect_cases c input with ⟨-, hc⟩ | ⟨-, hc⟩
  · exact hc.bounded h
  · rwa [hc]

end Chain

end TxChain
