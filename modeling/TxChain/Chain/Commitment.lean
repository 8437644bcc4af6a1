import TxChain.Chain.Nonces
import TxChain.Library.HashChain

/-!
# What the tip commits to, and where tampering shows

An accepted chain is a hash chain of headers, each of which commits to its
transactions, with positions as indices. From that alone the last header hash
determines the whole history up to a SHA-256 collision. A block changed in place
is caught at its own position or, if it stands up there, at the next one, which
still names the hash of the original.
-/

namespace TxChain

section Commitment

variable [Crypto]

/-! ### What the replay has established -/

/-- The hash the next block has to name; a genesis block names none. -/
def parentHash (blocks : List Block) : Hash256 :=
  (blocks.getLast?.map fun b => b.header.hash).getD (Vector.replicate 32 0)

theorem parentHash_concat (pre : List Block) (b : Block) :
    parentHash (pre ++ [b]) = b.header.hash := by
  simp [parentHash]

/-- What holds of one block of an accepted chain after the blocks before it. -/
structure Follows (pre : List Block) (b : Block) : Prop where
  index : b.header.index = UInt64.ofNat pre.length
  prevHash : b.header.prevHash = parentHash pre
  commitment : b.computeTxnsHash = b.header.txnsHash

/-- The replay loop is about to look at the block after `pre`. -/
structure ReplayState.After (s : ReplayState) (pre : List Block) : Prop where
  index : s.index = UInt64.ofNat pre.length
  prevHash : s.prevHash = parentHash pre
  length : pre.length ≤ s.prevTime.toNat + 1
  ne_nil : pre ≠ []
  follows : ∀ front b back, pre = front ++ b :: back → Follows front b

variable {now_s : UInt64} {D : UInt32} {reward : UInt64} {s s' : ReplayState} {b : Block}
  {pre blocks : List Block}

theorem follows_concat (pre : List Block)
    (h : ∀ front b back, pre = front ++ b :: back → Follows front b) (hb : Follows pre b) :
    ∀ front c back, pre ++ [b] = front ++ c :: back → Follows front c := by
  intro front c back heq
  rcases List.append_eq_append_iff.mp heq with ⟨mid, hfront, hback⟩ | ⟨mid, hpre, hback⟩
  · cases mid with
    | nil =>
        obtain ⟨rfl, -⟩ := List.cons_eq_cons.mp hback
        rw [hfront, List.append_nil]
        exact hb
    | cons c' mid =>
        have := congrArg List.length hback
        simp at this
  · cases mid with
    | nil =>
        obtain ⟨rfl, -⟩ := List.cons_eq_cons.mp hback
        rw [List.append_nil] at hpre
        exact hpre ▸ hb
    | cons c' mid =>
        obtain ⟨rfl, -⟩ := List.cons_eq_cons.mp hback
        exact h front _ mid hpre

theorem after_start (h : GenesisOk b) : (ReplayState.start b).After [b] where
  index := rfl
  prevHash := (parentHash_concat [] b).symm
  length := Nat.succ_le_succ (Nat.zero_le _)
  ne_nil := by simp
  follows := by
    refine follows_concat [] (fun front c back heq => ?_) ⟨h.index, h.prevHash, h.commitment⟩
    exact absurd heq.symm (by simp)

theorem ReplayState.After.step (h : s.After pre) (hstep : replayStep now_s D reward s b = .ok s') :
    Follows pre b ∧ s'.After (pre ++ [b]) := by
  obtain ⟨hlink, -, rfl⟩ := replayStep_ok_iff.mp hstep
  have hb : Follows pre b :=
    ⟨hlink.index.trans h.index, hlink.prevHash.trans h.prevHash, hlink.commitment⟩
  refine ⟨hb, ?_, (parentHash_concat pre b).symm, ?_, by simp, follows_concat pre h.follows hb⟩
  · rw [h.index, List.length_append, List.length_singleton, UInt64.ofNat_add]
    rfl
  · have hlater := UInt64.lt_iff_toNat_lt.mp hlink.later
    have hlength := h.length
    simp only [List.length_append, List.length_singleton]
    omega

theorem ReplayState.After.loop (h : s.After pre)
    (hloop : replayLoop now_s D reward s blocks = .ok s') :
    s'.After (pre ++ blocks) := by
  induction blocks generalizing s pre with
  | nil =>
      cases hloop
      rwa [List.append_nil]
  | cons b rest ih =>
      obtain ⟨next, hstep, hrest⟩ := replayLoop_cons_ok.mp hloop
      have hafter := ih (h.step hstep).2 hrest
      rwa [List.append_assoc] at hafter

theorem after_replayBlocks (h : replayBlocks blocks now_s D reward = .ok s) : s.After blocks := by
  obtain ⟨b₀, rest, rfl, hgen, hloop⟩ := replayBlocks_ok_iff.mp h
  exact (after_start hgen).loop hloop

/-- Positions of an accepted chain fit a word, since timestamps grow. -/
theorem ReplayState.After.length_le (h : s.After blocks) : blocks.length ≤ 2 ^ 64 := by
  have hlength := h.length
  have hlt := s.prevTime.toNat_lt
  omega

/-! ### The tip commits to the history -/

/-- Two different byte strings with the same digest. -/
def Collision (x y : List Byte) : Prop := x ≠ y ∧ Crypto.sha256 x = Crypto.sha256 y

/-- Everything a chain hashes: its headers and its transaction lists. -/
def preimages (blocks : List Block) : List (List Byte) :=
  blocks.map (fun b => b.header.serialize) ++ blocks.map fun b => txnBytes b.txns

omit [Crypto] in
theorem header_mem_preimages (h : b ∈ blocks) : b.header.serialize ∈ preimages blocks :=
  List.mem_append_left _ (List.mem_map.mpr ⟨b, h, rfl⟩)

omit [Crypto] in
theorem txns_mem_preimages (h : b ∈ blocks) : txnBytes b.txns ∈ preimages blocks :=
  List.mem_append_right _ (List.mem_map.mpr ⟨b, h, rfl⟩)

theorem collision_of_headers {h₁ h₂ : BlockHeader} (hne : h₁ ≠ h₂) (heq : h₁.hash = h₂.hash) :
    Collision h₁.serialize h₂.serialize :=
  ⟨BlockHeader.serialize_injective.ne hne, heq⟩

theorem collision_of_txns {b b' : Block} (hne : b.txns ≠ b'.txns)
    (heq : b.computeTxnsHash = b'.computeTxnsHash) :
    Collision (txnBytes b.txns) (txnBytes b'.txns) :=
  ⟨txnBytes_injective.ne hne, heq⟩

theorem ReplayState.After.commitment (h : s.After blocks) :
    ∀ b ∈ blocks, b.computeTxnsHash = b.header.txnsHash := by
  intro b hb
  obtain ⟨front, back, heq⟩ := List.append_of_mem hb
  exact (h.follows front b back heq).commitment

theorem ReplayState.After.linked (h : s.After blocks) :
    HashChain.Linked BlockHeader.hash BlockHeader.prevHash (blocks.map Block.header) := by
  refine (List.isChain_map Block.header).mpr
    (List.isChain_iff_forall_rel_of_append_cons_cons.mpr fun b c front back heq => ?_)
  have hfollows := h.follows (front ++ [b]) c back (by simp [heq])
  rw [hfollows.prevHash, parentHash_concat]

/-- Blocks with equal headers have equal transactions, up to a collision. -/
theorem eq_or_txns_collide {xs ys : List Block}
    (hx : ∀ b ∈ xs, b.computeTxnsHash = b.header.txnsHash)
    (hy : ∀ b ∈ ys, b.computeTxnsHash = b.header.txnsHash)
    (hheaders : xs.map Block.header = ys.map Block.header) :
    xs = ys ∨ ∃ b ∈ xs, ∃ b' ∈ ys, Collision (txnBytes b.txns) (txnBytes b'.txns) := by
  induction xs generalizing ys with
  | nil => exact .inl (List.map_eq_nil_iff.mp hheaders.symm).symm
  | cons b xs ih =>
      cases ys with
      | nil => exact absurd hheaders (by simp)
      | cons b' ys =>
          obtain ⟨hhead, htail⟩ := List.cons_eq_cons.mp hheaders
          obtain ⟨hb, hx⟩ := List.forall_mem_cons.mp hx
          obtain ⟨hb', hy⟩ := List.forall_mem_cons.mp hy
          by_cases htxns : b.txns = b'.txns
          · rcases ih hx hy htail with rfl | ⟨c, hc, c', hc', hcollision⟩
            · exact .inl (congrArg (· :: xs) (Block.ext hhead htxns))
            · exact .inr ⟨c, by simp [hc], c', by simp [hc'], hcollision⟩
          · have hdigest : b.computeTxnsHash = b'.computeTxnsHash := by rw [hb, hb', hhead]
            exact .inr ⟨b, by simp, b', by simp, collision_of_txns htxns hdigest⟩

/-- Accepted chains with the same last header hash are the same chain, or two of the
byte strings they hash collide. -/
theorem tip_commits_to_history {now_s now_s' : UInt64} {D D' : UInt32} {reward reward' : UInt64}
    {bs bs' : List Block} (h : (replayFromGenesis bs now_s D reward).ok = true)
    (h' : (replayFromGenesis bs' now_s' D' reward').ok = true)
    (htip : bs.getLast?.map (fun b => b.header.hash) = bs'.getLast?.map fun b => b.header.hash) :
    bs = bs' ∨ ∃ x ∈ preimages bs, ∃ y ∈ preimages bs', Collision x y := by
  obtain ⟨s, hs, -⟩ := replayFromGenesis_ok_iff.mp h
  obtain ⟨s', hs', -⟩ := replayFromGenesis_ok_iff.mp h'
  have hafter := after_replayBlocks hs
  have hafter' := after_replayBlocks hs'
  obtain ⟨pre, b, rfl⟩ := (List.eq_nil_or_concat' bs).resolve_left hafter.ne_nil
  obtain ⟨pre', b', rfl⟩ := (List.eq_nil_or_concat' bs').resolve_left hafter'.ne_nil
  have hlast : b.header.hash = b'.header.hash := by simpa using htip
  by_cases hheader : b.header = b'.header
  swap
  · exact .inr ⟨_, header_mem_preimages (by simp), _, header_mem_preimages (by simp),
      collision_of_headers hheader hlast⟩
  have hlength : (pre ++ [b]).length = (pre' ++ [b']).length := by
    -- The index fields are positions, and positions fit a word.
    have hindex : UInt64.ofNat pre.length = UInt64.ofNat pre'.length := by
      rw [← (hafter.follows pre b [] rfl).index, ← (hafter'.follows pre' b' [] rfl).index, hheader]
    have hle := hafter.length_le
    have hle' := hafter'.length_le
    have hnat := congrArg UInt64.toNat hindex
    simp only [List.length_append, List.length_singleton] at hle hle' ⊢
    rw [UInt64.toNat_ofNat', UInt64.toNat_ofNat', Nat.mod_eq_of_lt (by omega),
      Nat.mod_eq_of_lt (by omega)] at hnat
    omega
  have hheaders := HashChain.eq_or_collides hafter.linked hafter'.linked
    (by simpa using hlength) (by simpa using hlast)
  rcases hheaders with heq | ⟨x, hx, y, hy, hne, hcollides⟩
  · rcases eq_or_txns_collide hafter.commitment hafter'.commitment heq with
      heq | ⟨c, hc, c', hc', hcollision⟩
    · exact .inl heq
    · exact .inr ⟨_, txns_mem_preimages hc, _, txns_mem_preimages hc', hcollision⟩
  · obtain ⟨c, hc, rfl⟩ := List.mem_map.mp hx
    obtain ⟨c', hc', rfl⟩ := List.mem_map.mp hy
    exact .inr ⟨_, header_mem_preimages hc, _, header_mem_preimages hc',
      collision_of_headers hne hcollides⟩

/-! ### Where tampering shows -/

theorem replayBlocks_append {post : List Block} (hpre : pre ≠ []) :
    replayBlocks (pre ++ post) now_s D reward =
      replayBlocks pre now_s D reward >>= fun s => replayLoop now_s D reward s post := by
  cases pre with
  | nil => exact absurd rfl hpre
  | cons b₀ rest =>
      simp only [List.cons_append, replayBlocks]
      split_ifs
      · rfl
      · rfl
      · rfl
      · exact replayLoop_append

/-- A block placed after an accepted front is refused at its own position, or the
replay goes on from it. -/
theorem replayBlocks_at (hpre : pre = [] ∨ ∃ mid, replayBlocks pre now_s D reward = .ok mid)
    (b : Block) (post : List Block) :
    (∃ failure, replayBlocks (pre ++ b :: post) now_s D reward = .error failure ∧
        failure.failIndex = UInt64.ofNat pre.length) ∨
      ∃ s, replayBlocks (pre ++ [b]) now_s D reward = .ok s ∧
        replayBlocks (pre ++ b :: post) now_s D reward = replayLoop now_s D reward s post := by
  rcases hpre with rfl | ⟨mid, hmid⟩
  · by_cases hgen : GenesisOk b
    · exact .inr ⟨.start b, replayBlocks_cons b [] hgen, replayBlocks_cons b post hgen⟩
    · left
      simp only [List.nil_append, replayBlocks]
      split_ifs with h₁ h₂ h₃
      · exact ⟨_, rfl, rfl⟩
      · exact ⟨_, rfl, rfl⟩
      · exact ⟨_, rfl, rfl⟩
      · exact absurd ⟨not_not.mp h₁, not_not.mp h₂, not_not.mp h₃⟩ hgen
  · have hafter := after_replayBlocks hmid
    rw [replayBlocks_append hafter.ne_nil, replayBlocks_append hafter.ne_nil, hmid]
    cases hstep : replayStep now_s D reward mid b with
    | error failure =>
        left
        refine ⟨failure, ?_, (replayStep_error hstep).2.1.trans hafter.index⟩
        change replayLoop now_s D reward mid (b :: post) = _
        rw [replayLoop_cons, hstep]
        rfl
    | ok next =>
        right
        refine ⟨next, replayLoop_cons_ok.mpr ⟨next, hstep, rfl⟩, ?_⟩
        change replayLoop now_s D reward mid (b :: post) = _
        rw [replayLoop_cons, hstep]
        rfl

/-- Only the transactions, or only one of three header fields, differ. -/
inductive SingleChange (b : Block) : Block → Prop where
  | txns (txns : List Txn) : SingleChange b { b with txns }
  | index (index : UInt64) : SingleChange b { b with header := { b.header with index } }
  | prevHash (prevHash : Hash256) : SingleChange b { b with header := { b.header with prevHash } }
  | txnsHash (txnsHash : Hash256) : SingleChange b { b with header := { b.header with txnsHash } }

/-- In the position of an accepted block, no block with the same header stands up,
and none with a single change either. -/
theorem Follows.eq_of_same_header {b b' : Block} (h : Follows pre b) (h' : Follows pre b')
    (htxns : b.computeTxnsHash = b'.computeTxnsHash → b.txns = b'.txns)
    (hheader : b'.header = b.header) : b' = b := by
  refine Block.ext hheader (htxns ?_).symm
  rw [h.commitment, h'.commitment, hheader]

theorem Follows.eq_of_singleChange {b b' : Block} (h : Follows pre b) (h' : Follows pre b')
    (htxns : b.computeTxnsHash = b'.computeTxnsHash → b.txns = b'.txns)
    (hchange : SingleChange b b') : b' = b := by
  refine h.eq_of_same_header h' htxns ?_
  cases hchange with
  | txns => rfl
  | index index =>
      have hindex : index = b.header.index := h'.index.trans h.index.symm
      rw [hindex]
  | prevHash prevHash =>
      have hprev : prevHash = b.header.prevHash := h'.prevHash.trans h.prevHash.symm
      rw [hprev]
  | txnsHash txnsHash =>
      have hcommit : txnsHash = b.header.txnsHash := h'.commitment.symm.trans h.commitment
      rw [hcommit]

/-- A different block in an accepted position fails there, or it has a different
header in more than one field and the block after it fails. -/
theorem replayBlocks_tampered {b b' : Block} {post : List Block}
    (hpre : pre = [] ∨ ∃ mid, replayBlocks pre now_s D reward = .ok mid) (hb : Follows pre b)
    (hpost : ∀ c rest, post = c :: rest → c.header.prevHash = b.header.hash)
    (hheader : b.header.hash = b'.header.hash → b.header = b'.header)
    (htxns : b.computeTxnsHash = b'.computeTxnsHash → b.txns = b'.txns) (hne : b' ≠ b) :
    (∃ failure, replayBlocks (pre ++ b' :: post) now_s D reward = .error failure ∧
        failure.failIndex = UInt64.ofNat pre.length) ∨
      (b'.header ≠ b.header ∧ ¬SingleChange b b' ∧
        (post ≠ [] → ∃ failure, replayBlocks (pre ++ b' :: post) now_s D reward = .error failure ∧
          failure.failIndex = UInt64.ofNat (pre.length + 1))) := by
  rcases replayBlocks_at hpre b' post with hfail | ⟨s, hs, hrest⟩
  · exact .inl hfail
  right
  have hafter := after_replayBlocks hs
  have hb' := hafter.follows pre b' [] rfl
  have hheader' : b'.header ≠ b.header := fun heq => hne (hb.eq_of_same_header hb' htxns heq)
  refine ⟨hheader', fun hchange => hne (hb.eq_of_singleChange hb' htxns hchange), fun hnil => ?_⟩
  rw [hrest]
  cases post with
  | nil => exact absurd rfl hnil
  | cons c rest =>
      rw [replayLoop_cons]
      cases hstep : replayStep now_s D reward s c with
      | error failure =>
          refine ⟨failure, rfl, (replayStep_error hstep).2.1.trans ?_⟩
          simpa using hafter.index
      | ok next =>
          -- The next block still names the hash of the original.
          have hlink := (replayStep_ok_iff.mp hstep).1.prevHash
          rw [hpost c rest rfl, hafter.prevHash, parentHash_concat] at hlink
          exact absurd (hheader hlink).symm hheader'

/-- A block changed in place is reported at its position or at the next one, unless
the change exhibits a collision with the original. -/
theorem tampering_localised {bs : List Block} {k : ℕ} {b b' : Block}
    (hok : (replayFromGenesis bs now_s D reward).ok = true) (hb : bs[k]? = some b) (hne : b' ≠ b) :
    Collision b.header.serialize b'.header.serialize ∨
      Collision (txnBytes b.txns) (txnBytes b'.txns) ∨
      let verdict := replayFromGenesis (bs.set k b') now_s D reward
      (k + 1 < bs.length → verdict.ok = false ∧
          (verdict.failIndex.toNat = k ∨ verdict.failIndex.toNat = k + 1) ∧
          (b'.header = b.header → verdict.failIndex.toNat = k)) ∧
        (k + 1 = bs.length → SingleChange b b' →
          verdict.ok = false ∧ verdict.failIndex.toNat = k) := by
  by_cases hheader : Collision b.header.serialize b'.header.serialize
  · exact .inl hheader
  by_cases htxns : Collision (txnBytes b.txns) (txnBytes b'.txns)
  · exact .inr (.inl htxns)
  refine .inr (.inr ?_)
  have hheader_eq : b.header.hash = b'.header.hash → b.header = b'.header := fun heq =>
    not_not.mp fun hne => hheader (collision_of_headers hne heq)
  have htxns_eq : b.computeTxnsHash = b'.computeTxnsHash → b.txns = b'.txns := fun heq =>
    not_not.mp fun hne => htxns (collision_of_txns hne heq)
  obtain ⟨hk, hget⟩ := List.getElem?_eq_some_iff.mp hb
  obtain ⟨s, hs, -⟩ := replayFromGenesis_ok_iff.mp hok
  have hafter := after_replayBlocks hs
  have hsplit : bs = bs.take k ++ b :: bs.drop (k + 1) := by
    rw [← hget, List.getElem_cons_drop, List.take_append_drop]
  have hset : bs.set k b' = bs.take k ++ b' :: bs.drop (k + 1) := by
    rw [List.set_eq_take_append_cons_drop, if_pos hk]
  have hlength : (bs.take k).length = k := List.length_take_of_le hk.le
  have hfollows := hafter.follows _ _ _ hsplit
  have hfront : bs.take k = [] ∨ ∃ mid, replayBlocks (bs.take k) now_s D reward = .ok mid := by
    by_cases hnil : bs.take k = []
    · exact .inl hnil
    · right
      rw [hsplit, replayBlocks_append hnil] at hs
      cases hmid : replayBlocks (bs.take k) now_s D reward with
      | error failure =>
          rw [hmid] at hs
          exact absurd hs (by simp [bind, Except.bind])
      | ok mid => exact ⟨mid, rfl⟩
  have hback : ∀ c rest, bs.drop (k + 1) = c :: rest → c.header.prevHash = b.header.hash := by
    intro c rest hdrop
    have hnext := hafter.follows (bs.take k ++ [b]) c rest (by
      rw [hsplit, ← hdrop]
      simp [hlength])
    rw [hnext.prevHash, parentHash_concat]
  have hle := hafter.length_le
  have htampered := replayBlocks_tampered hfront hfollows hback hheader_eq htxns_eq hne
  rw [← hset, hlength] at htampered
  rcases htampered with ⟨failure, hfail, hindex⟩ | ⟨hheader', hchange, hnext⟩
  · have hnat : failure.failIndex.toNat = k := by
      rw [hindex, UInt64.toNat_ofNat', Nat.mod_eq_of_lt (by omega)]
    rw [replayFromGenesis_error hfail]
    exact ⟨fun _ => ⟨replayBlocks_error hfail, .inl hnat, fun _ => hnat⟩,
      fun _ _ => ⟨replayBlocks_error hfail, hnat⟩⟩
  · refine ⟨fun hinner => ?_, fun _ hsingle => absurd hsingle hchange⟩
    have hpost : bs.drop (k + 1) ≠ [] := by
      intro hnil
      have := List.drop_eq_nil_iff.mp hnil
      omega
    obtain ⟨failure, hfail, hindex⟩ := hnext hpost
    have hnat : failure.failIndex.toNat = k + 1 := by
      rw [hindex, UInt64.toNat_ofNat', Nat.mod_eq_of_lt (by omega)]
    rw [replayFromGenesis_error hfail]
    exact ⟨replayBlocks_error hfail, .inr hnat, fun heq => absurd heq hheader'⟩

end Commitment

section Samples

attribute [local instance] sampleKeys

/-- The block of the sealed transfer, written out. -/
def payOliverBlock : Block where
  header :=
    { index := 1
      timestamp := genesisTimestamp + 1
      prevHash := genesisBlock.header.hash
      txnsHash := txnsHash [payOliver] }
  txns := [payOliver]

theorem payOliverBlock_accepted :
    (replayFromGenesis [genesisBlock, payOliverBlock] (genesisTimestamp + 9) 0 0).ok = true := by
  have hlater : genesisTimestamp < genesisTimestamp + 1 := by decide
  have hskew : genesisTimestamp + 1 ≤ genesisTimestamp + 9 + maxClockSkewS := by decide
  have hlinks : LinksTo 1 genesisBlock.header.hash genesisTimestamp (genesisTimestamp + 9) 0
      payOliverBlock := ⟨rfl, rfl, hlater, hskew, by simp, rfl, by decide⟩
  have happlied : (applyBlockTxns applyGenesis payOliverBlock 0).1.reason = .ok ∧
      (applyBlockTxns applyGenesis payOliverBlock 0).2 = applyGenesis.transfer payOliver :=
    applyBlockTxns_iff.mpr
      ⟨(runTxns_signed payOliver_signed).trans payOliver_spent, fun h => absurd h (by decide)⟩
  have hsupply : supplySum (applyGenesis.transfer payOliver) = genesisSupply + 0 := by decide
  exact replayFromGenesis_pair genesisBlock_ok hlinks happlied hsupply

/-- Sealing builds that header. -/
theorem payOliver_headers :
    (sealedChain [[payOliver]]).blocks.map Block.header =
      [genesisBlock, payOliverBlock].map Block.header := by
  have hsealed : Chain.Commits (Chain.new 0 0) ((Chain.new 0 0).nextBlock 0 [payOliver])
      genesisTimestamp (sealStep genesisTimestamp (Chain.new 0 0) [payOliver]) :=
    (sealStep_commits rfl rfl (by decide) (by decide) payOliver_signed payOliver_spent).1
  rw [sealedChain, List.foldl_cons, List.foldl_nil, hsealed.blocks]
  rfl

/-- Strings told apart by the first byte of their digests do not collide. -/
theorem not_collision_of_head {x y : List Byte}
    (h : (Sha256.sha256 x).toList.head? = (Sha256.sha256 y).toList.head? → x = y) :
    ¬Collision x y :=
  fun hcollision => hcollision.1 (h (congrArg (fun d : Digest32 => d.toList.head?) hcollision.2))

/-- The sealed chain is the one written out, since their tips have one hash and no two of the
strings they hash collide. -/
theorem tip_commits_to_transfer :
    (sealedChain [[payOliver]]).blocks = [genesisBlock, payOliverBlock] := by
  have hpreimages : preimages (sealedChain [[payOliver]]).blocks =
      preimages [genesisBlock, payOliverBlock] := by
    have hserialized := congrArg (List.map BlockHeader.serialize) payOliver_headers
    have hbytes := congrArg (List.map txnBytes) payOliver_sealed
    rw [List.map_map, List.map_map] at hserialized
    rw [List.map_map] at hbytes
    exact congrArg₂ (· ++ ·) hserialized hbytes
  have htip : (sealedChain [[payOliver]]).blocks.getLast?.map (fun b => b.header.hash) =
      [genesisBlock, payOliverBlock].getLast?.map fun b => b.header.hash := by
    have hlast := congrArg (fun headers => headers.getLast?.map BlockHeader.hash) payOliver_headers
    rw [List.getLast?_map, Option.map_map] at hlast
    exact hlast
  refine (tip_commits_to_history payOliver_accepted.1 payOliverBlock_accepted htip).resolve_right ?_
  rw [hpreimages]
  have hheads : ((preimages [genesisBlock, payOliverBlock]).map fun x =>
      (Sha256.sha256 x).toList.head?).Nodup := by decide +kernel
  rintro ⟨x, hx, y, hy, hcollision⟩
  exact not_collision_of_head (fun h => List.inj_on_of_nodup_map hheads hx hy h) hcollision

/-- The bytes of that transaction list and of the empty one do not collide. -/
theorem payOliver_bytes_apart :
    ¬Collision (txnBytes []) (txnBytes [payOliver]) ∧
      ¬Collision (txnBytes [payOliver]) (txnBytes []) := by
  have hheads : (Sha256.sha256 (txnBytes [])).toList.head? ≠
      (Sha256.sha256 (txnBytes [payOliver])).toList.head? := by decide +kernel
  exact ⟨not_collision_of_head fun h => absurd h hheads,
    not_collision_of_head fun h => absurd h hheads.symm⟩

/-- Moving the transfer into the genesis block is reported there, and dropping it from its own
block at that block. -/
theorem moved_transfer_localised :
    let moved := replayFromGenesis
      ([genesisBlock, payOliverBlock].set 0 { genesisBlock with txns := [payOliver] })
      (genesisTimestamp + 9) 0 0
    let dropped := replayFromGenesis
      ([genesisBlock, payOliverBlock].set 1 { payOliverBlock with txns := [] })
      (genesisTimestamp + 9) 0 0
    (moved.ok = false ∧ moved.failIndex.toNat = 0) ∧
      dropped.ok = false ∧ dropped.failIndex.toNat = 1 := by
  intro moved dropped
  have hsame : ∀ x : List Byte, ¬Collision x x := fun _ hcollision => hcollision.1 rfl
  constructor
  · have hchanged : ({ genesisBlock with txns := [payOliver] } : Block) ≠ genesisBlock := fun heq =>
      absurd (congrArg Block.txns heq) (by simp [genesisBlock])
    obtain hheader | hbytes | ⟨hinner, -⟩ :=
      tampering_localised (k := 0) payOliverBlock_accepted rfl hchanged
    · exact absurd hheader (hsame _)
    · exact absurd hbytes payOliver_bytes_apart.1
    · obtain ⟨hrefused, -, hhere⟩ := hinner (by decide)
      exact ⟨hrefused, hhere rfl⟩
  · have hchanged : ({ payOliverBlock with txns := [] } : Block) ≠ payOliverBlock := fun heq =>
      absurd (congrArg Block.txns heq) (by simp [payOliverBlock])
    obtain hheader | hbytes | ⟨-, hlast⟩ :=
      tampering_localised (k := 1) payOliverBlock_accepted rfl hchanged
    · exact absurd hheader (hsame _)
    · exact absurd hbytes payOliver_bytes_apart.2
    · exact hlast rfl (.txns [])

end Samples

end TxChain
