import TxChain.Chain.StoreFaults
import TxChain.Chain.Structure

/-!
# The life of a datadir

A node commits blocks, its appends may fail or stop anywhere, and it is stopped and booted
again at any moment, with any difficulty. A boot that the file does not let through leaves
the node down. One that goes through finds a front part of the chain that the last node had:
blocks may be lost, but no other history comes up.
-/

namespace TxChain

open Json

/-- The node as it was last seen, whether its process runs, and the files. -/
structure Lifetime where
  node : Node
  up : Bool
  fs : FileSystem

inductive LifeOp where
  | perform (call : NodeOp) (io : AppendOutcome)
  | restart (difficulty : UInt32) (now_s : UInt64) (io : AppendOutcome)

section Lifetime

attribute [local instance] picojson

variable [Crypto]

/-- Before the first boot. -/
def Lifetime.start (cfg : NodeConfig) (fs : FileSystem) : Lifetime := ⟨Node.new cfg, false, fs⟩

/-- A process that is down does nothing, and one that cannot boot exits. -/
def LifeOp.apply (s : Lifetime) : LifeOp → Lifetime
  | .perform call io =>
      if ¬s.up then s
      else
        let done := call.perform s.node s.fs io
        { s with node := done.2.1, fs := done.2.2 }
  | .restart difficulty now_s io =>
      let booted := Node.boot { s.node.cfg with difficulty } now_s s.fs io
      if booted.1.ok then ⟨booted.2.1, true, booted.2.2⟩
      else { s with up := false, fs := booted.2.2 }

/-- A block that the file format can carry. -/
structure Block.Carried (b : Block) : Prop where
  version : ∀ t ∈ b.txns, t.ver = kTxnVersion
  lossless : ∀ n ∈ b.literals, LosslessLiteral n

/-! ### Booting -/

variable {fs : FileSystem} {cfg : NodeConfig} {now_s : UInt64} {io : AppendOutcome} {c c' : Chain}
  {D : UInt32}

/-- Reconnecting all blocks puts them behind the chain. -/
theorem reconnect_all {i : ℕ} {bs : List Block} (h : reconnect now_s i c bs = (none, c'))
    (hsound : c.Sound D) : c'.Sound D ∧ c'.blocks = c.blocks ++ bs := by
  induction bs generalizing i c with
  | nil =>
      obtain ⟨-, rfl⟩ := Prod.mk.inj h
      exact ⟨hsound, (List.append_nil _).symm⟩
  | cons b bs ih =>
      rw [reconnect] at h
      split at h
      next next hpair =>
        have hok : (c.connectBlock b now_s).1 = .ok := by rw [hpair]
        have hcommits := Chain.connectBlock_ok hok
        rw [hpair] at hcommits
        obtain ⟨hnext, hblocks⟩ := ih h (hcommits.sound hsound)
        refine ⟨hnext, ?_⟩
        rw [hblocks, hcommits.blocks, List.append_assoc, List.singleton_append]
      next => cases h

/-- A boot that goes through starts at genesis, where the file has no blocks, or holds the
blocks of the file. -/
theorem boot_ok_files (h : (Node.boot cfg now_s fs io).1.ok = true) :
    (((fs (ChainStore.forDatadir cfg.datadir).path).getD [] = [] ∨
        (ChainStore.forDatadir cfg.datadir).load fs = ⟨{ ok := true }, []⟩) ∧
      (Node.boot cfg now_s fs io).2 =
        (Node.new cfg, ((ChainStore.forDatadir cfg.datadir).appendBlock fs io genesisBlock).2)) ∨
      ∃ rest chain,
        (ChainStore.forDatadir cfg.datadir).load fs = ⟨{ ok := true }, genesisBlock :: rest⟩ ∧
        reconnect now_s 1 (Node.new cfg).chain rest = (none, chain) ∧
        (Node.boot cfg now_s fs io).2 = ({ Node.new cfg with chain }, fs) := by
  simp only [Node.boot] at h ⊢
  split at h
  next hempty =>
    refine .inl ⟨.inl ?_, by rw [if_pos hempty]; rfl⟩
    exact List.eq_nil_of_length_eq_zero (Nat.eq_zero_of_not_pos hempty)
  next hfull =>
    rw [if_neg hfull]
    split at h
    next => cases h
    next hok =>
      rw [if_neg hok]
      have hload := ChainStore.load_of_ok (not_not.mp hok)
      split at h
      next hnone =>
        rw [hnone] at hload
        exact .inl ⟨.inr hload, rfl⟩
      next b₀ rest hsome =>
        rw [hsome] at hload
        split at h
        next => cases h
        next hgenesis =>
          obtain rfl := not_not.mp hgenesis
          rw [if_neg hgenesis]
          split at h
          next => cases h
          next hreplay =>
            rw [if_neg hreplay]
            split at h
            next => cases h
            next chain hreconnect => exact .inr ⟨rest, chain, hload, hreconnect, rfl⟩

/-- A boot that is refused leaves the files alone. -/
theorem boot_refused_files (h : ¬(Node.boot cfg now_s fs io).1.ok = true) :
    (Node.boot cfg now_s fs io).2.2 = fs := by
  simp only [Node.boot] at h ⊢
  split at h
  next => exact absurd rfl h
  next hfull =>
    rw [if_neg hfull]
    split at h
    next hfailed => rw [if_pos hfailed]
    next hok =>
      rw [if_neg hok]
      split at h
      next => exact absurd rfl h
      next =>
        split
        next => rfl
        split
        next => rfl
        split <;> rfl

/-! ### Chains over one another -/

/-- In a sound chain a block is at the position of its index. -/
theorem Chain.Sound.index (h : c.Sound D) {i : ℕ} (hi : i < c.blocks.length) :
    c.blocks[i].header.index.toNat = i := by
  cases i with
  | zero =>
      have hgenesis := h.genesis
      rw [List.head?_eq_getElem?, List.getElem?_eq_getElem hi] at hgenesis
      rw [Option.some.inj hgenesis]
      rfl
  | succ i => exact (h.linked i hi).index

/-- A sound chain that has only blocks of another one is a front part of it. -/
theorem Chain.Sound.prefix_of_subset {D' : UInt32} (h : c.Sound D) (h' : c'.Sound D')
    (hsubset : c.blocks ⊆ c'.blocks) : c.blocks <+: c'.blocks := by
  have hsame : ∀ i (hi : i < c.blocks.length), c'.blocks[i]? = some c.blocks[i] := by
    intro i hi
    obtain ⟨j, hj, hblock⟩ := List.mem_iff_getElem.mp (hsubset (List.getElem_mem hi))
    have hindex := h'.index hj
    rw [hblock, h.index hi] at hindex
    subst hindex
    rw [List.getElem?_eq_getElem hj, hblock]
  rw [List.prefix_iff_getElem?]
  exact hsame

/-! ### What every step keeps -/

/-- The file has only blocks of the node's chain, whatever else is in its text. -/
structure Lifetime.Kept (s : Lifetime) : Prop where
  store : s.node.store = .forDatadir s.node.cfg.datadir
  sound : ∃ D, s.node.chain.Sound D
  record : ∃ r, s.node.store.Denotes s.fs r ∧ (r.getD {}).blocks ⊆ s.node.chain.blocks

variable {s : Lifetime} {op : LifeOp}

theorem Lifetime.start_kept (cfg : NodeConfig) (fs : FileSystem)
    (hfresh : fs (ChainStore.forDatadir cfg.datadir).path = none) :
    (Lifetime.start cfg fs).Kept :=
  ⟨rfl, ⟨_, Chain.new_sound _ _⟩, none, hfresh, fun _ h => absurd h List.not_mem_nil⟩

/-- An append adds at most its block to the record, if that is read back as itself. -/
theorem record_append_subset (r : Option Record) {b : Block} (hb : b.reread = some b)
    (io : AppendOutcome) :
    ((StoreCall.record r ⟨.append b, io⟩).getD {}).blocks ⊆ (r.getD {}).blocks ++ [b] := by
  have hsame : (r.getD {}).blocks ⊆ (r.getD {}).blocks ++ [b] := List.subset_append_left _ _
  rw [StoreCall.record]
  split
  next => exact hsame
  next =>
    rw [Option.getD_some, Record.write]
    split
    next => exact hsame
    next =>
      split
      next => exact hsame
      next => split <;> exact hsame
      next =>
        rw [hb]
        split
        next => exact hsame
        next => exact List.Subset.refl _

theorem Lifetime.Kept.perform (h : s.Kept) (call : NodeOp) (io : AppendOutcome)
    (hcarried : ∀ b ∈ ((LifeOp.perform call io).apply s).node.chain.blocks, b.Carried) :
    ((LifeOp.perform call io).apply s).Kept := by
  by_cases hup : s.up = true
  · have happly : (LifeOp.perform call io).apply s =
        { s with
          node := (call.perform s.node s.fs io).2.1
          fs := (call.perform s.node s.fs io).2.2 } := if_neg (not_not.mpr hup)
    rw [happly] at hcarried ⊢
    rw [NodeOp.perform_eq] at hcarried ⊢
    obtain ⟨-, hsame⟩ | ⟨hok, hcommit⟩ :=
      s.node.commitBlock_cases s.fs (call.block s.node.chain) call.clock io
    · rw [hsame]
      exact h
    · have hcommits := Chain.connectBlock_ok hok
      rw [hcommit] at hcarried ⊢
      obtain ⟨D, hsound⟩ := h.sound
      obtain ⟨r, hdenotes, hsubset⟩ := h.record
      rw [hcommits.blocks] at hcarried
      have hb : (call.block s.node.chain).Carried := hcarried _ (by simp)
      refine ⟨h.store, ⟨D, hcommits.sound hsound⟩,
        StoreCall.record r ⟨.append (call.block s.node.chain), io⟩, ?_, ?_⟩
      · exact hdenotes.apply ⟨.append _, io⟩
      · rw [hcommits.blocks]
        exact List.Subset.trans
          (record_append_subset r (Block.reread_eq hb.version hb.lossless) io)
          (List.append_subset.mpr ⟨List.subset_append_of_subset_left _ hsubset,
            List.subset_append_right _ _⟩)
  · have happly : (LifeOp.perform call io).apply s = s := if_pos hup
    rw [happly]
    exact h

/-- The genesis block can be carried. -/
theorem genesisBlock_carried : genesisBlock.Carried :=
  ⟨fun _ ht => absurd ht List.not_mem_nil, fun n hn => .inl (genesisBlock_literals n hn)⟩

omit [Crypto] in
/-- What a record loads as has its blocks. -/
theorem Record.load_blocks (r : Record) : r.load.blocks = r.blocks := by
  rw [Record.load]
  split <;> rfl

omit [Crypto] in
theorem loadRecord_blocks (r : Option Record) : (loadRecord r).blocks = (r.getD {}).blocks := by
  cases r with
  | none => rfl
  | some r => exact r.load_blocks

/-- Nothing to read means no blocks on record. -/
theorem ChainStore.Denotes.blocks_nil {store : ChainStore} {r : Option Record}
    (h : store.Denotes fs r)
    (hnone : (fs store.path).getD [] = [] ∨ store.load fs = ⟨{ ok := true }, []⟩) :
    (r.getD {}).blocks = [] := by
  obtain hempty | hload := hnone
  · have hload := h.getD.load
    rw [hempty, Lines.records_nil, loadLines] at hload
    rw [← Record.load_blocks, ← hload]
  · rw [h.load] at hload
    rw [← loadRecord_blocks, hload]

/-- After a restart the chain is a front part of what it was. -/
theorem Lifetime.Kept.restart (h : s.Kept) (difficulty now_s) (io : AppendOutcome) :
    ((LifeOp.restart difficulty now_s io).apply s).Kept ∧
      ((LifeOp.restart difficulty now_s io).apply s).node.chain.blocks <+: s.node.chain.blocks := by
  obtain ⟨D, hsound⟩ := h.sound
  obtain ⟨r, hdenotes, hsubset⟩ := h.record
  rw [h.store] at hdenotes
  by_cases hok : (Node.boot { s.node.cfg with difficulty } now_s s.fs io).1.ok = true
  · have happly : (LifeOp.restart difficulty now_s io).apply s =
        ⟨(Node.boot { s.node.cfg with difficulty } now_s s.fs io).2.1, true,
          (Node.boot { s.node.cfg with difficulty } now_s s.fs io).2.2⟩ := if_pos hok
    rw [happly]
    obtain ⟨hnone, hboot⟩ | ⟨rest, chain, hload, hreconnect, hboot⟩ := boot_ok_files hok
    · have hnew := Chain.new_sound difficulty (NodeConfig.reward { s.node.cfg with difficulty })
      have hblocks : (Node.new { s.node.cfg with difficulty }).chain.blocks = [genesisBlock] := rfl
      rw [hboot]
      refine ⟨⟨rfl, ⟨_, hnew⟩, StoreCall.record r ⟨.append genesisBlock, io⟩, ?_, ?_⟩, ?_⟩
      · exact hdenotes.apply ⟨.append _, io⟩
      · have hadded := record_append_subset r
          (Block.reread_eq genesisBlock_carried.version genesisBlock_carried.lossless) io
        rw [hdenotes.blocks_nil hnone, List.nil_append] at hadded
        exact hadded
      · have hgenesis := hsound.genesis
        obtain ⟨tail, htail⟩ := List.head?_eq_some_iff.mp hgenesis
        rw [htail]
        exact ⟨tail, rfl⟩
    · have hnew := Chain.new_sound difficulty (NodeConfig.reward { s.node.cfg with difficulty })
      obtain ⟨hchain, hblocks⟩ := reconnect_all hreconnect hnew
      have hall : chain.blocks = (r.getD {}).blocks := by
        rw [← loadRecord_blocks, ← hdenotes.load, hload, hblocks]
        rfl
      rw [hboot]
      refine ⟨⟨rfl, ⟨_, hchain⟩, r, hdenotes, hall ▸ List.Subset.refl _⟩, ?_⟩
      exact hchain.prefix_of_subset hsound (hall ▸ hsubset)
  · have happly : (LifeOp.restart difficulty now_s io).apply s =
        { s with
          up := false
          fs := (Node.boot { s.node.cfg with difficulty } now_s s.fs io).2.2 } :=
      if_neg hok
    rw [happly, boot_refused_files hok]
    exact ⟨⟨h.store, h.sound, r, by rw [h.store]; exact hdenotes, hsubset⟩, List.prefix_rfl⟩

/-! ### Lifetimes -/

/-- Through every life of a datadir that begins without a file, in which appends fail anywhere
and the node is booted at any moment, each boot ends with a front part of the chain before it. -/
theorem restart_never_diverges (cfg : NodeConfig) (fs : FileSystem)
    (hfresh : fs (ChainStore.forDatadir cfg.datadir).path = none) (ops : List LifeOp)
    (hcarried : ∀ m ∈ Run.moves LifeOp.apply (Lifetime.start cfg fs) ops,
      ∀ b ∈ (m.2.apply m.1).node.chain.blocks, b.Carried) :
    ∀ m ∈ Run.moves LifeOp.apply (Lifetime.start cfg fs) ops, ∀ difficulty now_s io,
      m.2 = .restart difficulty now_s io →
        (m.2.apply m.1).node.chain.blocks <+: m.1.node.chain.blocks := by
  have hkept : ∀ s ∈ ops.scanl LifeOp.apply (Lifetime.start cfg fs), s.Kept := by
    refine Run.invariant_of_moves (J := Lifetime.Kept)
      (C := fun s op => ∀ b ∈ (op.apply s).node.chain.blocks, b.Carried) ?_
      (Lifetime.start_kept cfg fs hfresh) hcarried
    intro s op hblocks h
    cases op with
    | perform call io => exact h.perform call io hblocks
    | restart difficulty now_s io => exact (h.restart difficulty now_s io).1
  intro m hm difficulty now_s io hop
  have hstate := hkept m.1 (Run.mem_of_moves hm).1
  rw [hop]
  exact (hstate.restart difficulty now_s io).2

end Lifetime

section Samples

attribute [local instance] sampleKeys picojson

/-- A boot in which nothing fails. -/
def sampleBoot : LifeOp := .restart 0 genesisTimestamp .complete

/-- A datadir without a file. -/
def emptyStart : Lifetime := Lifetime.start {} fun _ => none

theorem second_boot_keeps_genesis :
    (sampleBoot.apply (sampleBoot.apply emptyStart)).node.chain.blocks <+:
      (sampleBoot.apply emptyStart).node.chain.blocks := by
  have hstart : emptyStart.Kept := Lifetime.start_kept {} (fun _ => none) rfl
  have hgenesis : emptyStart.node.chain.blocks = [genesisBlock] := rfl
  have hboot : LifeOp.restart 0 genesisTimestamp .complete = sampleBoot := rfl
  obtain ⟨hfirst, hprefix⟩ := hstart.restart 0 genesisTimestamp .complete
  rw [hboot] at hfirst hprefix
  obtain ⟨-, hsecond⟩ := hfirst.restart 0 genesisTimestamp .complete
  rw [hboot] at hsecond
  rw [hgenesis] at hprefix
  have hcarried : ∀ {blocks : List Block}, blocks <+: [genesisBlock] → ∀ b ∈ blocks, b.Carried := by
    intro blocks hblocks b hb
    obtain rfl := List.mem_singleton.mp (hblocks.subset hb)
    exact genesisBlock_carried
  have hmoves : Run.moves LifeOp.apply emptyStart [sampleBoot, sampleBoot] =
      [(emptyStart, sampleBoot), (sampleBoot.apply emptyStart, sampleBoot)] := rfl
  have hlife := restart_never_diverges {} (fun _ => none) rfl [sampleBoot, sampleBoot]
  rw [← emptyStart, hmoves] at hlife
  have hblocks : ∀ m ∈ [(emptyStart, sampleBoot), (sampleBoot.apply emptyStart, sampleBoot)],
      ∀ b ∈ (m.2.apply m.1).node.chain.blocks, b.Carried := by
    intro m hm
    obtain rfl | rfl := List.mem_pair.mp hm
    · exact hcarried hprefix
    · dsimp only
      exact hcarried (hsecond.trans hprefix)
  have hlast := hlife hblocks (sampleBoot.apply emptyStart, sampleBoot)
    (List.mem_pair.mpr (.inr rfl))
  dsimp only at hlast
  exact hlast 0 genesisTimestamp .complete hboot.symm

end Samples

end TxChain
