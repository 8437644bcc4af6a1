import TxChain.Chain.Store

/-!
# The node

A node owns a chain and appends every block it commits to the store. `boot` either
starts a fresh chain at genesis or loads the file, replays it from genesis and
reconnects its blocks through the write path.
-/

namespace TxChain

structure NodeConfig where
  datadir : String := "./txchain-data"
  difficulty : UInt32 := 0

/-- Issuance is on exactly when mining is. -/
def NodeConfig.reward (cfg : NodeConfig) : UInt64 :=
  if cfg.difficulty > 0 then coinbaseReward else 0

structure BootResult where
  ok : Bool := false
  status : VerifyResult := {}

structure Node where
  cfg : NodeConfig
  store : ChainStore
  chain : Chain

variable [Crypto]

/-- The constructor: the chain starts at the canonical genesis. -/
def Node.new (cfg : NodeConfig) : Node :=
  ⟨cfg, .forDatadir cfg.datadir, .new cfg.difficulty cfg.reward⟩

/-- Reconnect loaded blocks; the first refusal stops the loop. -/
def reconnect (now_s : UInt64) : ℕ → Chain → List Block → Option (ℕ × Reason) × Chain
  | _, c, [] => (none, c)
  | i, c, b :: rest =>
      match c.connectBlock b now_s with
      | (.ok, next) => reconnect now_s (i + 1) next rest
      | (r, same) => (some (i, r), same)

/-- The result, the node and the files after booting; `io` is the outcome of the
append that initialises a fresh datadir. -/
def Node.boot [Picojson] (cfg : NodeConfig) (now_s : UInt64) (fs : FileSystem)
    (io : AppendOutcome) :
    BootResult × Node × FileSystem :=
  let node := Node.new cfg
  let hasBlocks := ((fs node.store.path).getD []).length > 0
  if ¬hasBlocks then ({ ok := true }, node, (node.store.appendBlock fs io genesisBlock).2)
  else
    let lr := node.store.load fs
    if ¬lr.status.ok then ({ status := lr.status }, node, fs)
    else
      match lr.blocks with
      | [] => ({ ok := true }, node, (node.store.appendBlock fs io genesisBlock).2)
      | b₀ :: rest =>
          if b₀ ≠ genesisBlock then
            ({ status := ⟨false, 0, .badLink, "genesis mismatch"⟩ }, node, fs)
          else
            let vr := replayFromGenesis lr.blocks now_s cfg.difficulty cfg.reward
            if ¬vr.ok then ({ status := vr }, node, fs)
            else
              match reconnect now_s 1 node.chain rest with
              | (some (i, r), chain) =>
                  ({ status := ⟨false, UInt64.ofNat i, r, "reconnect failed"⟩ },
                    { node with chain }, fs)
              | (none, chain) => ({ ok := true }, { node with chain }, fs)

/-- Commit through the write path, then append; the append's result is not read. -/
def Node.commitBlock (n : Node) (fs : FileSystem) (b : Block) (now_s : UInt64)
    (io : AppendOutcome) :
    Reason × Node × FileSystem :=
  let connected := n.chain.connectBlock b now_s
  if connected.1 ≠ .ok then (connected.1, n, fs)
  else (.ok, { n with chain := connected.2 }, (n.store.appendBlock fs io b).2)

/-- Build the next block on the tip and commit it at the same clock reading. -/
def Node.sealNextBlock (n : Node) (fs : FileSystem) (now_s : UInt64) (txns : List Txn)
    (io : AppendOutcome) : Reason × Node × FileSystem :=
  n.commitBlock fs (n.chain.nextBlock now_s txns) now_s io

/-- The datadir holds no chain yet: no file, or an empty one. -/
def Fresh (cfg : NodeConfig) (fs : FileSystem) : Prop :=
  (fs (ChainStore.forDatadir cfg.datadir).path).getD [] = []

theorem boot_fresh [Picojson] {cfg : NodeConfig} {fs : FileSystem} (hfresh : Fresh cfg fs)
    (now₀ : UInt64) (io : AppendOutcome) :
    Node.boot cfg now₀ fs io =
      ({ ok := true }, Node.new cfg, ((Node.new cfg).store.appendBlock fs io genesisBlock).2) := by
  have hempty : ¬((fs (Node.new cfg).store.path).getD []).length > 0 := by
    show ¬((fs (ChainStore.forDatadir cfg.datadir).path).getD []).length > 0
    rw [hfresh]
    exact Nat.lt_irrefl 0
  rw [Node.boot]
  exact if_pos hempty

theorem reconnect_of_feed {now_s : UInt64} {i : ℕ} {c c' : Chain} {bs : List Block}
    (h : feed now_s i c bs = .ok c') : reconnect now_s i c bs = (none, c') := by
  induction bs generalizing i c with
  | nil =>
      cases h
      rfl
  | cons b rest ih =>
      by_cases hok : (c.connectBlock b now_s).1 = .ok
      · have hpair : c.connectBlock b now_s = (.ok, (c.connectBlock b now_s).2) := Prod.ext hok rfl
        rw [feed_cons_ok hok] at h
        rw [reconnect, hpair]
        exact ih h
      · rw [feed_cons_refused hok] at h
        cases h

/-- What a commit changed: nothing on a refusal, else the chain and the file. -/
theorem Node.commitBlock_cases (n : Node) (fs : FileSystem) (b : Block) (now_s : UInt64)
    (io : AppendOutcome) :
    ((n.chain.connectBlock b now_s).1 ≠ .ok ∧
        n.commitBlock fs b now_s io = ((n.chain.connectBlock b now_s).1, n, fs)) ∨
      ((n.chain.connectBlock b now_s).1 = .ok ∧
        n.commitBlock fs b now_s io =
          (.ok, { n with chain := (n.chain.connectBlock b now_s).2 },
            (n.store.appendBlock fs io b).2)) := by
  by_cases hok : (n.chain.connectBlock b now_s).1 = .ok
  · exact .inr ⟨hok, if_neg (not_not.mpr hok)⟩
  · exact .inl ⟨hok, if_pos hok⟩

theorem Node.commitBlock_reason (n : Node) (fs : FileSystem) (b : Block) (now_s : UInt64)
    (io : AppendOutcome) : (n.commitBlock fs b now_s io).1 = (n.chain.connectBlock b now_s).1 := by
  rcases n.commitBlock_cases fs b now_s io with ⟨-, hcommit⟩ | ⟨hok, hcommit⟩
  · rw [hcommit]
  · rw [hcommit, hok]

theorem Node.commitBlock_chain (n : Node) (fs : FileSystem) (b : Block) (now_s : UInt64)
    (io : AppendOutcome) :
    (n.commitBlock fs b now_s io).2.1.chain = n.chain.connect (b, now_s) := by
  rcases n.commitBlock_cases fs b now_s io with ⟨hrefused, hcommit⟩ | ⟨-, hcommit⟩
  · rw [hcommit]
    exact (Chain.connectBlock_refused hrefused).symm
  · rw [hcommit]
    rfl

/-! ### The settings of a chain -/

/-- Difficulty and reward of a node's chain are the ones it was configured with. -/
structure Chain.ConfiguredBy (c : Chain) (cfg : NodeConfig) : Prop where
  difficulty : c.difficulty = cfg.difficulty
  reward : c.reward = cfg.reward

variable {cfg : NodeConfig} {c : Chain}

theorem Chain.ConfiguredBy.connect (h : c.ConfiguredBy cfg) (input : Block × UInt64) :
    (c.connect input).ConfiguredBy cfg := by
  rcases c.connect_cases input with ⟨-, hcommit⟩ | ⟨-, hsame⟩
  · exact ⟨hcommit.difficulty.trans h.difficulty, hcommit.reward.trans h.reward⟩
  · rw [hsame]
    exact h

theorem reconnect_configured (h : c.ConfiguredBy cfg) (now_s : UInt64) (i : ℕ) (bs : List Block) :
    (reconnect now_s i c bs).2.ConfiguredBy cfg := by
  induction bs generalizing i c with
  | nil => exact h
  | cons b rest ih =>
      have hnext := h.connect (b, now_s)
      rw [reconnect]
      split
      next next hpair =>
        rw [Chain.connect, hpair] at hnext
        exact ih hnext (i + 1)
      next r same _ hpair =>
        rw [Chain.connect, hpair] at hnext
        exact hnext

/-- Whatever the datadir holds, booting keeps the settings. -/
theorem Node.boot_configured [Picojson] (cfg : NodeConfig) (now_s : UInt64) (fs : FileSystem)
    (io : AppendOutcome) : (Node.boot cfg now_s fs io).2.1.chain.ConfiguredBy cfg := by
  have hnew : (Node.new cfg).chain.ConfiguredBy cfg := ⟨rfl, rfl⟩
  have hreconnect := reconnect_configured hnew now_s 1
  simp only [Node.boot]
  split
  next => exact hnew
  split
  next => exact hnew
  split
  next => exact hnew
  next b₀ rest hblocks =>
    split
    next => exact hnew
    split
    next => exact hnew
    split
    all_goals
      next hpair =>
        have hchain := hreconnect rest
        rw [hpair] at hchain
        exact hchain

end TxChain
