import TxChain.Json.Loaded
import TxChain.Node.Node
import TxChain.Pow.ForkChoice

/-!
# Importing a chain

The verifier and the importer ask the replay alone, which checks the shape of block 0
and not its identity. Booting compares block 0 with the vendored genesis block as well.
So a node takes what they take exactly if it starts with that block, and an import may
leave a datadir that no node boots on. The file an import writes holds loaded blocks, and
these load again.
-/

namespace TxChain

section Import

variable [Crypto] [Picojson]

/-- `txchain import <file>`: the exit code and the files. A datadir without a readable
chain competes with an empty one. -/
def runImport (cfg : NodeConfig) (file : String) (now_s : UInt64) (fs : FileSystem)
    (io : AppendOutcome) : ℕ × FileSystem :=
  let active_store := ChainStore.forDatadir cfg.datadir
  let imported := (ChainStore.mk file).load fs
  if ¬imported.status.ok then (1, fs)
  else
    let active := active_store.load fs
    let result := evaluateImport active.blocks imported.blocks now_s cfg.difficulty cfg.reward
    if ¬result.valid then (1, fs)
    else if ¬result.won then (0, fs)
    else
      let rewritten := active_store.rewrite fs io imported.blocks
      if ¬rewritten.1 then (1, rewritten.2) else (0, rewritten.2)

variable {cfg : NodeConfig} {now_s : UInt64} {fs : FileSystem} {bs : List Block}

omit [Picojson] in
/-- What the replay accepts from the genesis block on, the write path commits again, to
the same accounts. -/
theorem reconnect_of_replay {rest : List Block}
    (h : (replayFromGenesis (genesisBlock :: rest) now_s cfg.difficulty cfg.reward).ok = true) :
    ∃ c, reconnect now_s 1 (Node.new cfg).chain rest = (none, c) ∧
      c.state = replayState (genesisBlock :: rest) := by
  obtain ⟨s, hreplay, -⟩ := replayFromGenesis_ok_iff.mp h
  have hstate := replayState_of_replayBlocks hreplay
  rw [replayBlocks_cons genesisBlock rest genesisBlock_ok] at hreplay
  have hrun := replayLoop_of_feed now_s (Chain.new_bounded cfg.difficulty cfg.reward) rest
  split at hrun
  next i r hfeed =>
    obtain ⟨-, failure, hloop, -⟩ := hrun
    cases hreplay.symm.trans hloop
  next c hfeed =>
    obtain rfl := Except.ok.inj (hreplay.symm.trans hrun.1)
    exact ⟨c, reconnect_of_feed hfeed, hstate.symm⟩

/-- Booting accepts a loaded chain exactly if the replay does and the chain starts with
the genesis block. -/
theorem boot_ok_iff (io : AppendOutcome) (hne : bs ≠ [])
    (hload : (ChainStore.forDatadir cfg.datadir).load fs = ⟨{ ok := true }, bs⟩) :
    (Node.boot cfg now_s fs io).1.ok = true ↔
      (replayFromGenesis bs now_s cfg.difficulty cfg.reward).ok = true ∧
        bs.head? = some genesisBlock := by
  have hstore : (Node.new cfg).store.load fs = ⟨{ ok := true }, bs⟩ := hload
  have hblocks : ¬¬((fs (Node.new cfg).store.path).getD []).length > 0 := by
    intro hempty
    have hnil := List.eq_nil_of_length_eq_zero (Nat.eq_zero_of_not_pos hempty)
    rw [ChainStore.load] at hstore
    cases hfile : fs (Node.new cfg).store.path with
    | none =>
        rw [hfile] at hstore
        cases hstore
    | some text =>
        rw [hfile, Option.getD_some] at hnil
        rw [hfile, hnil] at hstore
        exact hne (congrArg LoadResult.blocks hstore).symm
  cases bs with
  | nil => exact absurd rfl hne
  | cons b₀ rest =>
      rw [Node.boot]
      simp only [if_neg hblocks, hstore, not_true_eq_false, if_false, List.head?_cons,
        Option.some.injEq]
      by_cases hgenesis : b₀ ≠ genesisBlock
      · rw [if_pos hgenesis]
        exact ⟨fun h => (by cases h), fun h => absurd h.2 hgenesis⟩
      · rw [if_neg hgenesis]
        obtain rfl := not_not.mp hgenesis
        by_cases hok : (replayFromGenesis (genesisBlock :: rest) now_s cfg.difficulty
            cfg.reward).ok = true
        · obtain ⟨c, hreconnect, -⟩ := reconnect_of_replay hok
          rw [if_neg (not_not.mpr hok), hreconnect]
          exact ⟨fun _ => ⟨hok, rfl⟩, fun _ => rfl⟩
        · rw [if_pos hok]
          exact ⟨fun h => (by cases h), fun h => absurd h.1 hok⟩

/-- A won import writes the candidate to the datadir. -/
theorem runImport_won {file : String} {io : AppendOutcome}
    (hload : (ChainStore.mk file).load fs = ⟨{ ok := true }, bs⟩)
    (hwon : (evaluateImport ((ChainStore.forDatadir cfg.datadir).load fs).blocks bs now_s
      cfg.difficulty cfg.reward).won = true)
    (hwritten : ((ChainStore.forDatadir cfg.datadir).rewrite fs io bs).1 = true) :
    runImport cfg file now_s fs io =
      (0, ((ChainStore.forDatadir cfg.datadir).rewrite fs io bs).2) := by
  have hvalid : (evaluateImport ((ChainStore.forDatadir cfg.datadir).load fs).blocks bs now_s
      cfg.difficulty cfg.reward).valid = true := (Bool.and_eq_true_iff.mp hwon).1
  simp only [runImport, hload, hvalid, hwon, hwritten, not_true_eq_false, if_false]

end Import

/-- The node takes a loaded chain exactly if the verifier does and the chain starts with
the genesis block. So a candidate that starts with it, and wins an import whose rewrite
succeeds, leaves a datadir that the node boots on. -/
theorem boot_agrees_with_replay [Crypto] (cfg : NodeConfig) (now_s : UInt64) (io : AppendOutcome) :
    (∀ [Picojson], ∀ fs bs, bs ≠ [] →
      (ChainStore.forDatadir cfg.datadir).load fs = ⟨{ ok := true }, bs⟩ →
      ((Node.boot cfg now_s fs io).1.ok = true ↔
        (replayFromGenesis bs now_s cfg.difficulty cfg.reward).ok = true ∧
          bs.head? = some genesisBlock)) ∧
    letI := Json.picojson
    ∀ fs file candidate io', (ChainStore.mk file).load fs = ⟨{ ok := true }, candidate⟩ →
      (evaluateImport ((ChainStore.forDatadir cfg.datadir).load fs).blocks candidate now_s
        cfg.difficulty cfg.reward).won = true →
      candidate.head? = some genesisBlock →
      ((ChainStore.forDatadir cfg.datadir).rewrite fs io' candidate).1 = true →
      (Node.boot cfg now_s (runImport cfg file now_s fs io').2 io).1.ok = true := by
  refine ⟨fun fs bs hne hload => boot_ok_iff io hne hload, ?_⟩
  let := Json.picojson
  intro fs file candidate io' hload hwon hhead hwritten
  have hne : candidate ≠ [] := by
    rintro rfl
    cases hhead
  have hrewritten :=
    (ChainStore.holds_rewrite hwritten).load (ChainStore.load_readable hload)
  rw [runImport_won hload hwon hwritten]
  apply (boot_ok_iff io hne hrewritten).mpr
  exact ⟨(Bool.and_eq_true_iff.mp hwon).1, hhead⟩

section Samples

attribute [local instance] sampleKeys

/-- The empty block one second after a block at the genesis second. -/
def successor (g : Block) : Block where
  header :=
    { index := 1
      timestamp := genesisTimestamp + 1
      prevHash := g.header.hash
      txnsHash := txnsHash []
      nonce := 0 }
  txns := []

/-- The genesis block under another nonce. -/
def foreignGenesis : Block :=
  { genesisBlock with header := { genesisBlock.header with nonce := 1 } }

/-- A file next to an empty datadir. -/
def importFiles (chain : List Block) : FileSystem := fun p =>
  if p = "other.jsonl" then some (Lines.unlines '\n' (chain.map toJsonLine)) else none

variable {g : Block}

theorem pair_replays (hgen : GenesisOk g) (htime : g.header.timestamp = genesisTimestamp) :
    (replayFromGenesis [g, successor g] genesisTimestamp 0 0).ok = true := by
  have hlater : genesisTimestamp < genesisTimestamp + 1 := by decide
  have hskew : genesisTimestamp + 1 ≤ genesisTimestamp + maxClockSkewS := by decide
  have hlinks : LinksTo 1 g.header.hash g.header.timestamp genesisTimestamp 0 (successor g) := by
    rw [htime]
    exact ⟨rfl, rfl, hlater, hskew, meetsDifficulty_zero _, rfl, Nat.zero_le _⟩
  have hsupply : supplySum applyGenesis = genesisSupply + 0 := by decide
  exact replayFromGenesis_pair hgen hlinks ⟨rfl, rfl⟩ hsupply

/-- The importer takes any such pair into an empty datadir. -/
theorem pair_wins [Picojson] (hgen : GenesisOk g)
    (htime : g.header.timestamp = genesisTimestamp) :
    (evaluateImport ((ChainStore.forDatadir "./txchain-data").load
      (importFiles [g, successor g])).blocks [g, successor g] genesisTimestamp 0 0).won = true := by
  have hmissing : importFiles [g, successor g] (ChainStore.forDatadir "./txchain-data").path =
      none := if_neg (by decide)
  have hwork : cumulativeWork [] 0 < cumulativeWork [g, successor g] 0 := by
    have hlength : [g, successor g].length - 1 = 1 := rfl
    rw [cumulativeWork_eq, cumulativeWork_eq, hlength]
    decide
  rw [ChainStore.load, hmissing]
  exact evaluateImport_won_iff.mpr ⟨pair_replays hgen htime, hwork⟩

theorem pair_readable [Picojson] (htxns : g.txns = [])
    (hparse : ∀ b ∈ [g, successor g], ParsesFaithfully b) :
    ∀ b ∈ [g, successor g], fromJsonLine (toJsonLine b) = some b := by
  intro b hb
  apply fromJsonLine_toJsonLine (hparse b hb)
  rcases List.mem_pair.mp hb with rfl | rfl
  · rw [htxns]
    exact fun t ht => absurd ht List.not_mem_nil
  · exact fun t ht => absurd ht List.not_mem_nil

theorem importFiles_load [Picojson] {chain : List Block}
    (hread : ∀ b ∈ chain, fromJsonLine (toJsonLine b) = some b) :
    (ChainStore.mk "other.jsonl").load (importFiles chain) = ⟨{ ok := true }, chain⟩ :=
  ChainStore.Holds.load (if_pos rfl) hread

theorem pair_faithful (hindex : g.header.index = 0) :
    letI := parserOf [g, successor g]
    ∀ b ∈ [g, successor g], ParsesFaithfully b :=
  parserOf_pair (toJsonLine_ne_of_index hindex rfl)

theorem pair_inRange (hg : g.InRange) : ∀ b ∈ [g, successor g], b.InRange := by
  intro b hb
  rcases List.mem_pair.mp hb with rfl | rfl
  · exact hg
  · exact ⟨(by decide : (1 : UInt64).toNat < 2 ^ 63),
      (by decide : (genesisTimestamp + 1).toNat < 2 ^ 63),
      (by decide : (0 : UInt64).toNat < 2 ^ 63), nofun⟩

attribute [local instance] Json.picojson

/-- The importer takes a chain with a foreign block 0, the verifier accepts the datadir
it leaves, and the node refuses to boot on it. -/
theorem foreign_chain_imported :
    let chain := [foreignGenesis, successor foreignGenesis]
    let store := ChainStore.forDatadir "./txchain-data"
    let done := runImport {} "other.jsonl" genesisTimestamp (importFiles chain) .complete
    (evaluateImport (store.load (importFiles chain)).blocks chain genesisTimestamp 0 0).won = true ∧
      done.1 = 0 ∧ store.load done.2 = ⟨{ ok := true }, chain⟩ ∧
      (replayFromGenesis chain genesisTimestamp 0 0).ok = true ∧
      (Node.boot {} genesisTimestamp done.2 .complete).1.ok = false := by
  intro chain store done
  have hgen : GenesisOk foreignGenesis := ⟨rfl, rfl, rfl⟩
  have hrange : foreignGenesis.InRange := ⟨by decide, by decide, by decide, nofun⟩
  have hread : ∀ b ∈ chain, fromJsonLine (toJsonLine b) = some b :=
    pair_readable rfl fun b hb => picojson_parsesFaithfully (pair_inRange hrange b hb)
  have hwon := pair_wins hgen rfl
  have hdone : done = (0, (store.rewrite (importFiles chain) .complete chain).2) :=
    runImport_won (importFiles_load hread) hwon rfl
  have hload : store.load done.2 = ⟨{ ok := true }, chain⟩ := by
    rw [hdone]
    exact (ChainStore.holds_rewrite rfl).load hread
  refine ⟨hwon, ?_, hload, pair_replays hgen rfl, ?_⟩
  · rw [hdone]
  · apply Bool.eq_false_iff.mpr
    intro hbooted
    have hiff : (Node.boot {} genesisTimestamp done.2 .complete).1.ok = true ↔
        _ ∧ chain.head? = some genesisBlock :=
      boot_ok_iff .complete (List.cons_ne_nil _ _) hload
    have hnonce : (1 : UInt64) = 0 := congrArg (fun b : Block => b.header.nonce)
      (Option.some.inj (hiff.mp hbooted).2)
    exact absurd hnonce (by decide)

theorem genesisBlock_inRange : genesisBlock.InRange := by
  have hsmall := genesisBlock_literals
  exact ⟨hsmall _ (by simp [Block.literals]), hsmall _ (by simp [Block.literals]),
    hsmall _ (by simp [Block.literals]), nofun⟩

/-- On top of the genesis block itself the node boots on what was imported. -/
theorem native_chain_boots :
    (Node.boot {} genesisTimestamp (runImport {} "other.jsonl" genesisTimestamp
      (importFiles [genesisBlock, successor genesisBlock]) .complete).2 .complete).1.ok = true := by
  have hread := pair_readable rfl fun b hb =>
    picojson_parsesFaithfully (pair_inRange genesisBlock_inRange b hb)
  exact (boot_agrees_with_replay {} genesisTimestamp .complete).2
    (importFiles [genesisBlock, successor genesisBlock]) "other.jsonl"
    [genesisBlock, successor genesisBlock] .complete (importFiles_load hread)
    (pair_wins genesisBlock_ok rfl) rfl rfl

end Samples

end TxChain
