import TxChain.Chain.Validate

/-!
# The commit path and the replay agree

A chain is read as the loop variables of the replay that would have produced it.
Under that reading one call of `connectBlock` is one replay step: both accept the
same blocks, both refuse with the same reason, and both reach the same state. The
run lemma repeats this block by block, up to the first refusal.
-/

namespace TxChain

variable [Crypto]

/-- Feed blocks to the write path until one is refused; the result is the position
and the reason of the refusal, or the chain that holds them all. -/
def feed (now_s : UInt64) : ℕ → Chain → List Block → Except (ℕ × Reason) Chain
  | _, c, [] => .ok c
  | i, c, b :: rest =>
      match c.connectBlock b now_s with
      | (.ok, next) => feed now_s (i + 1) next rest
      | (r, _) => .error (i, r)

/-- The loop variables of a replay that has just validated the tip. -/
def Chain.cursor (c : Chain) : ReplayState :=
  ⟨UInt64.ofNat c.blocks.length, c.state, c.tipHash, c.tip.header.timestamp⟩

@[simp] theorem Chain.cursor_state (c : Chain) : c.cursor.state = c.state := rfl

theorem Chain.cursor_new (D : UInt32) (reward : UInt64) :
    (Chain.new D reward).cursor = .start genesisBlock := rfl

theorem Chain.Commits.cursor {c c' : Chain} {b : Block} {now_s : UInt64}
    (h : Commits c b now_s c') :
    c'.cursor = ⟨c.cursor.index + 1, (applyBlockTxns c.state b c.reward).2, b.header.hash,
      b.header.timestamp⟩ := by
  have hindex : UInt64.ofNat c'.blocks.length = UInt64.ofNat c.blocks.length + 1 := by
    rw [h.length, UInt64.ofNat_add]
    rfl
  simp only [Chain.cursor, Chain.tipHash, h.tip, h.state, hindex]

/-! ### One block -/

/-- A block the write path commits is a replay step between the two cursors. -/
theorem replayStep_of_connect {c : Chain} {b : Block} {now_s : UInt64}
    (h : (c.connectBlock b now_s).1 = .ok) :
    replayStep now_s c.difficulty c.reward c.cursor b =
      .ok (c.connectBlock b now_s).2.cursor := by
  have hcommit := Chain.connectBlock_ok h
  rw [replayStep_ok_iff, hcommit.cursor]
  have hlinks := hcommit.links
  rw [c.height_add_one] at hlinks
  exact ⟨hlinks, hcommit.applied, rfl⟩

/-- A block the write path refuses fails the replay step for the same reason. -/
theorem replayStep_of_refused {c : Chain} {b : Block} {now_s : UInt64}
    (h : (c.connectBlock b now_s).1 ≠ .ok) :
    ∃ failure, replayStep now_s c.difficulty c.reward c.cursor b = .error failure ∧
      failure.failIndex = UInt64.ofNat c.blocks.length ∧
        failure.reason = (c.connectBlock b now_s).1 := by
  cases hstep : replayStep now_s c.difficulty c.reward c.cursor b with
  | ok next =>
      obtain ⟨hlink, happ, -⟩ := replayStep_ok_iff.mp hstep
      exact absurd (Chain.connectBlock_ok_iff.mpr ⟨c.height_add_one.symm ▸ hlink, happ⟩) h
  | error failure =>
      obtain ⟨-, hindex, hreason, -⟩ := replayStep_error hstep
      refine ⟨failure, rfl, hindex, hreason.trans (Eq.symm ?_)⟩
      rw [Chain.connectBlock_reason, c.height_add_one]
      rfl

/-! ### A list of blocks -/

theorem feed_cons_ok {now_s : UInt64} {i : ℕ} {c : Chain} {b : Block} {rest : List Block}
    (h : (c.connectBlock b now_s).1 = .ok) :
    feed now_s i c (b :: rest) = feed now_s (i + 1) (c.connectBlock b now_s).2 rest := by
  have hpair : c.connectBlock b now_s = (.ok, (c.connectBlock b now_s).2) := Prod.ext h rfl
  rw [feed, hpair]

theorem feed_cons_refused {now_s : UInt64} {i : ℕ} {c : Chain} {b : Block} {rest : List Block}
    (h : (c.connectBlock b now_s).1 ≠ .ok) :
    feed now_s i c (b :: rest) = .error (i, (c.connectBlock b now_s).1) := by
  rw [feed]
  split
  · rename_i next heq
    exact absurd (congrArg Prod.fst heq) h
  · rename_i heq
    rw [heq]

/-- What was committed once is committed at any later clock, with the same result. -/
theorem Chain.connectBlock_later {c : Chain} {b : Block} {clock now_s : UInt64}
    (h : (c.connectBlock b clock).1 = .ok)
    (hclock : clock + maxClockSkewS ≤ now_s + maxClockSkewS) :
    c.connectBlock b now_s = c.connectBlock b clock := by
  have hcommit := connectBlock_ok h
  have hlater : LinksTo (c.height + 1) c.tipHash c.tip.header.timestamp now_s c.difficulty b :=
    { hcommit.links with skew := UInt64.le_trans hcommit.links.skew hclock }
  rw [connectBlock_eq, connectBlock_eq, linkReason_ok_iff.mpr hlater,
    linkReason_ok_iff.mpr hcommit.links]

theorem feed_concat_ok {now_s : UInt64} {i : ℕ} {c c' : Chain} {b : Block} {bs : List Block}
    (h : feed now_s i c bs = .ok c') (hb : (c'.connectBlock b now_s).1 = .ok) :
    feed now_s i c (bs ++ [b]) = .ok (c'.connectBlock b now_s).2 := by
  induction bs generalizing i c with
  | nil =>
      cases h
      rw [List.nil_append, feed_cons_ok hb]
      rfl
  | cons b₁ rest ih =>
      by_cases hok : (c.connectBlock b₁ now_s).1 = .ok
      · rw [feed_cons_ok hok] at h
        rw [List.cons_append, feed_cons_ok hok]
        exact ih h
      · rw [feed_cons_refused hok] at h
        cases h

/-- Feeding blocks to the write path is the replay loop between the cursors. -/
theorem replayLoop_of_feed (now_s : UInt64) {c : Chain} (hbound : c.Bounded) (bs : List Block) :
    match feed now_s c.blocks.length c bs with
    | .error (i, r) => i < 2 ^ 64 ∧ ∃ failure,
        replayLoop now_s c.difficulty c.reward c.cursor bs = .error failure ∧
          failure.failIndex = UInt64.ofNat i ∧ failure.reason = r
    | .ok c' => replayLoop now_s c.difficulty c.reward c.cursor bs = .ok c'.cursor ∧
        c'.Bounded ∧ c'.blocks = c.blocks ++ bs := by
  induction bs generalizing c with
  | nil => exact ⟨rfl, hbound, (List.append_nil _).symm⟩
  | cons b rest ih =>
      by_cases h : (c.connectBlock b now_s).1 = .ok
      · have hcommit := Chain.connectBlock_ok h
        have hnext := ih (hbound.connect (b, now_s))
        rw [Chain.connect, hcommit.length, hcommit.difficulty, hcommit.reward, hcommit.blocks]
          at hnext
        rw [feed_cons_ok h, replayLoop_cons, replayStep_of_connect h]
        split at hnext
        · rename_i i r hfeed
          rw [hfeed]
          exact hnext
        · rename_i c' hfeed
          rw [hfeed]
          exact ⟨hnext.1, hnext.2.1, by simp [hnext.2.2]⟩
      · obtain ⟨failure, hstep, hindex, hreason⟩ := replayStep_of_refused h
        rw [feed_cons_refused h, replayLoop_cons, hstep]
        have hlt := c.tip.header.timestamp.toNat_lt
        unfold Chain.Bounded at hbound
        exact ⟨by omega, failure, rfl, hindex, hreason⟩

/-! ### Reachable chains -/

/-- The chain's blocks pass the replay at the given clock and lead to its state. -/
def Chain.Replays (c : Chain) (now_s : UInt64) : Prop :=
  replayBlocks c.blocks now_s c.difficulty c.reward = .ok c.cursor

theorem Chain.new_replays (D : UInt32) (reward now_s : UInt64) : (new D reward).Replays now_s :=
  replayBlocks_cons genesisBlock [] genesisBlock_ok

/-- A committed block extends the replay, also at a later clock. -/
theorem Chain.Commits.replays {c c' : Chain} {b : Block} {clock now_s : UInt64}
    (h : Commits c b clock c') (hreplays : c.Replays now_s)
    (hclock : clock + maxClockSkewS ≤ now_s + maxClockSkewS) : c'.Replays now_s := by
  obtain ⟨b₀, rest, hblocks, hgen, hloop⟩ := replayBlocks_ok_iff.mp hreplays
  have hlinks := h.links
  rw [c.height_add_one] at hlinks
  have hstep : replayStep now_s c.difficulty c.reward c.cursor b = .ok c'.cursor := by
    rw [replayStep_ok_iff, h.cursor]
    exact ⟨{ hlinks with skew := UInt64.le_trans hlinks.skew hclock }, h.applied, rfl⟩
  refine replayBlocks_ok_iff.mpr ⟨b₀, rest ++ [b], by rw [h.blocks, hblocks]; rfl, hgen, ?_⟩
  rw [h.difficulty, h.reward]
  exact replayLoop_append_ok.mpr ⟨c.cursor, hloop, replayLoop_cons_ok.mpr ⟨_, hstep, rfl⟩⟩

/-- Calls of the write path keep a chain replayable as long as no clock is ahead. -/
theorem Chain.Replays.connect {c : Chain} {now_s : UInt64} (h : c.Replays now_s)
    {input : Block × UInt64} (hclock : input.2 + maxClockSkewS ≤ now_s + maxClockSkewS) :
    (c.connect input).Replays now_s := by
  rcases connect_cases c input with ⟨-, hc⟩ | ⟨-, hc⟩
  · exact hc.replays h hclock
  · rwa [hc]

/-- The replay accepts a replayable chain unless the supply check stops it. -/
theorem Chain.Replays.verdict {c : Chain} {now_s : UInt64} (h : c.Replays now_s) :
    (replayFromGenesis c.blocks now_s c.difficulty c.reward).ok = true ↔
      supplySum c.state = genesisSupply + c.height * c.reward := by
  rw [replayFromGenesis_ok_iff]
  constructor
  · rintro ⟨s, hs, hsupply⟩
    cases Except.ok.inj (h.symm.trans hs)
    exact hsupply
  · exact fun hsupply => ⟨c.cursor, h, hsupply⟩

/-! ### The rebuilt state -/

theorem foldl_of_runTxns {blockIndex : UInt64} {ti : ℕ} {work work' : AccountMap}
    {txns : List Txn} (h : runTxns blockIndex ti work txns = some work') :
    (txns.zipIdx ti).foldl (fun state t => (applyTxn state t.1 blockIndex t.2).2) work = work' := by
  induction txns generalizing ti work with
  | nil => exact Option.some.inj h
  | cons t rest ih => exact ih (runTxns_cons.mp h).2

/-- `replayState` rebuilds the state an accepting replay ends in. -/
theorem replayState_of_replayBlocks {now_s : UInt64} {D : UInt32} {reward : UInt64}
    {blocks : List Block} {s : ReplayState} (h : replayBlocks blocks now_s D reward = .ok s) :
    replayState blocks = s.state := by
  obtain ⟨b₀, rest, rfl, -, hloop⟩ := replayBlocks_ok_iff.mp h
  have hfold : ∀ (s₀ : ReplayState), replayLoop now_s D reward s₀ rest = .ok s →
      rest.foldl (fun state b => (b.txns.zipIdx).foldl
        (fun state t => (applyTxn state t.1 b.header.index t.2).2) state) s₀.state = s.state := by
    clear hloop h
    induction rest with
    | nil =>
        intro s₀ hloop
        cases hloop
        rfl
    | cons b rest ih =>
        intro s₀ hloop
        obtain ⟨next, hstep, hrest⟩ := replayLoop_cons_ok.mp hloop
        obtain ⟨-, happ, rfl⟩ := replayStep_ok_iff.mp hstep
        rw [List.foldl_cons, foldl_of_runTxns (runTxns_of_applyBlockTxns happ)]
        exact ih _ hrest
  exact hfold _ hloop

/-- The incremental commit path and the from-genesis validator give the same
verdict block by block and rebuild the same accounts; only the replay's final
supply check has no counterpart on the commit path. -/
theorem replay_agrees_with_commit (D : UInt32) (reward now_s : UInt64) (bs : List Block) :
    match feed now_s 1 (Chain.new D reward) bs with
    | .error (i, r) =>
        let verdict := replayFromGenesis (genesisBlock :: bs) now_s D reward
        verdict.ok = false ∧ verdict.failIndex.toNat = i ∧ verdict.reason = r
    | .ok c =>
        let verdict := replayFromGenesis (genesisBlock :: bs) now_s D reward
        (verdict.ok = true ∨
          (verdict.ok = false ∧ verdict.reason = .badSupply ∧ verdict.failIndex = c.height)) ∧
        ∀ a, c.account a = (replayState (genesisBlock :: bs)).lookup a := by
  have hrun := replayLoop_of_feed now_s (Chain.new_bounded D reward) bs
  have hblocks : replayBlocks (genesisBlock :: bs) now_s D reward =
      replayLoop now_s D reward (.start genesisBlock) bs :=
    replayBlocks_cons genesisBlock bs genesisBlock_ok
  simp only [Chain.cursor_new] at hrun
  rw [show (Chain.new D reward).blocks.length = 1 from rfl] at hrun
  split at hrun
  · obtain ⟨hlt, failure, hloop, hindex, hreason⟩ := hrun
    have herror := hblocks.trans hloop
    simp only [replayFromGenesis, herror]
    refine ⟨replayBlocks_error herror, ?_, hreason⟩
    rw [hindex, UInt64.toNat_ofNat', Nat.mod_eq_of_lt hlt]
  · rename_i c _
    obtain ⟨hloop, -, hchain⟩ := hrun
    have hok := hblocks.trans hloop
    simp only [replayFromGenesis, hok]
    refine ⟨?_, fun a => by rw [replayState_of_replayBlocks hok]; rfl⟩
    have hheight : c.height = UInt64.ofNat ((genesisBlock :: bs).length - 1) := by
      rw [Chain.height, hchain]
      rfl
    split_ifs
    · exact .inr ⟨rfl, rfl, hheight.symm⟩
    · exact .inl rfl

end TxChain
