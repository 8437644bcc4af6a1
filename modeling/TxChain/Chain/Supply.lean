import TxChain.Chain.Accounting
import TxChain.Chain.Agreement
import TxChain.Crypto.Sha256
import TxChain.Library.Run

/-!
# Supply

The total of all balances follows the reward schedule exactly as long as nothing
is issued off schedule, or everything so issued wraps away again. Two kinds of
accepted transactions issue off schedule: a self-transfer, which is credited and
never debited, and a coinbase in a chain without rewards. The replay's check sees
the total modulo the word size only.
-/

namespace TxChain

/-! ### One block, a run, a replay -/

section Schedule

variable [Crypto]

/-- A chain whose balances add up to the genesis supply and the rewards so far. -/
def Chain.OnSchedule (c : Chain) : Prop :=
  ∑ a, (c.account a).balance.toNat = genesisSupply.toNat + c.height.toNat * c.reward.toNat

omit [Crypto] in
theorem Chain.sum_balances (c : Chain) : ∑ a, (c.account a).balance.toNat = c.state.total :=
  c.state.total_eq.symm

omit [Crypto] in
theorem Chain.onSchedule_iff {c : Chain} :
    c.OnSchedule ↔ c.state.total = genesisSupply.toNat + c.height.toNat * c.reward.toNat := by
  rw [OnSchedule, sum_balances]

theorem Chain.new_onSchedule (D : UInt32) (reward : UInt64) : (new D reward).OnSchedule := by
  rw [onSchedule_iff]
  exact applyGenesis_total.trans (by simp [height, new])

/-- A committed block keeps the schedule exactly when what it issues off schedule
is what its credits lose by wrapping. -/
theorem Chain.Commits.onSchedule_iff {c c' : Chain} {b : Block} {now_s : UInt64}
    (h : Commits c b now_s c') (hbound : c.Bounded)
    (hreward : c.reward = 0 ∨ c.reward = coinbaseReward) (hc : c.OnSchedule) :
    c'.OnSchedule ↔ offSchedule c.reward b.txns = 2 ^ 64 * wraps c.state b.txns := by
  have htotal := (history_of_applyBlockTxns h.applied).total
  have hissued := issued_of_applyBlockTxns hreward h.applied
  have hbound' := h.bounded hbound
  have hheight : c'.height.toNat = c.height.toNat + 1 := by
    have hpos := c.length_pos
    rw [hbound'.height_toNat, hbound.height_toNat, h.length]
    omega
  rw [Chain.onSchedule_iff] at hc ⊢
  rw [h.state, hheight, h.reward, Nat.add_mul]
  omega

/-- Along every run of the write path, the supply is on schedule in every state
exactly when every admitted block loses by wrapping what it issues off schedule. -/
theorem supply_along_runs (D : UInt32) (reward : UInt64)
    (hreward : reward = 0 ∨ reward = coinbaseReward) (inputs : List (Block × UInt64)) :
    (∀ c ∈ inputs.scanl Chain.connect (Chain.new D reward),
      ∑ a, (c.account a).balance.toNat = genesisSupply.toNat + c.height.toNat * reward.toNat) ↔
    ∀ m ∈ Run.moves Chain.connect (Chain.new D reward) inputs,
      m.1.Admits m.2.1 m.2.2 →
        offSchedule reward m.2.1.txns = 2 ^ 64 * wraps m.1.state m.2.1.txns := by
  let J : Chain → Prop := fun c => c.Bounded ∧ c.reward = reward
  let I : Chain → Prop := fun c =>
    ∑ a, (c.account a).balance.toNat = genesisSupply.toNat + c.height.toNat * reward.toNat
  let C : Chain → Block × UInt64 → Prop := fun c input => c.Admits input.1 input.2 →
    offSchedule reward input.1.txns = 2 ^ 64 * wraps c.state input.1.txns
  have hstart : J (Chain.new D reward) := ⟨Chain.new_bounded D reward, rfl⟩
  refine Run.always_iff_moves (J := J) (I := I) (C := C) ?_ ?_ hstart
    (Chain.new_onSchedule D reward) inputs
  · rintro c input ⟨hbound, rfl⟩
    refine ⟨hbound.connect input, ?_⟩
    rcases Chain.connect_cases c input with ⟨-, hc⟩ | ⟨-, hc⟩
    · exact hc.reward
    · rw [hc]
  · rintro c input ⟨hbound, rfl⟩ hI
    rcases Chain.connect_cases c input with ⟨hok, hc⟩ | ⟨hrefused, hc⟩
    · have hstep := hc.onSchedule_iff hbound hreward hI
      rw [Chain.OnSchedule, hc.reward] at hstep
      exact hstep.trans ⟨fun h _ => h, fun h => h (Chain.connectBlock_ok_iff.mp hok)⟩
    · rw [hc]
      exact ⟨fun _ h => absurd (Chain.connectBlock_ok_iff.mpr h) hrefused, fun _ => hI⟩

/-- A replayed history issues the rewards of its blocks and what is off schedule. -/
theorem replayBlocks_total {now_s : UInt64} {D : UInt32} {reward : UInt64} {blocks : List Block}
    {s : ReplayState} (hreward : reward = 0 ∨ reward = coinbaseReward)
    (h : replayBlocks blocks now_s D reward = .ok s) :
    s.state.total + 2 ^ 64 * wraps applyGenesis (chainTxns blocks.tail) =
      genesisSupply.toNat + (blocks.length - 1) * reward.toNat +
        offSchedule reward (chainTxns blocks.tail) := by
  obtain ⟨b₀, rest, rfl, -, hloop⟩ := replayBlocks_ok_iff.mp h
  have htotal := (history_of_replayLoop hloop).total
  have hissued := issued_of_replayLoop hreward hloop
  have hgenesis := applyGenesis_total
  have hstart : (ReplayState.start b₀).state = applyGenesis := rfl
  simp only [List.tail_cons, List.length_cons, Nat.add_sub_cancel]
  rw [hstart] at htotal
  omega

/-- The supply check of the replay passes exactly on whole words off schedule. -/
theorem supplySum_iff {now_s : UInt64} {D : UInt32} {reward : UInt64} {blocks : List Block}
    {s : ReplayState} (hreward : reward = 0 ∨ reward = coinbaseReward)
    (h : replayBlocks blocks now_s D reward = .ok s) :
    supplySum s.state = genesisSupply + UInt64.ofNat (blocks.length - 1) * reward ↔
      2 ^ 64 ∣ offSchedule reward (chainTxns blocks.tail) := by
  have htotal := replayBlocks_total hreward h
  have hexpected : (genesisSupply + UInt64.ofNat (blocks.length - 1) * reward).toNat =
      (genesisSupply.toNat + (blocks.length - 1) * reward.toNat) % 2 ^ 64 := by
    rw [UInt64.toNat_add, UInt64.toNat_mul, UInt64.toNat_ofNat', Nat.mod_mul_mod, Nat.add_mod_mod]
  rw [← UInt64.toNat_inj, supplySum_toNat, hexpected]
  omega

/-- On an accepted chain the integer supply is on schedule exactly when what was
issued off schedule wrapped away; the check itself cannot tell. -/
theorem replay_supply_exact {now_s : UInt64} {D : UInt32} {reward : UInt64} {blocks : List Block}
    (hreward : reward = 0 ∨ reward = coinbaseReward)
    (hok : (replayFromGenesis blocks now_s D reward).ok = true) :
    ∑ a, ((replayState blocks).lookup a).balance.toNat =
        genesisSupply.toNat + (blocks.length - 1) * reward.toNat ↔
      offSchedule reward (chainTxns blocks.tail) =
        2 ^ 64 * wraps applyGenesis (chainTxns blocks.tail) := by
  obtain ⟨s, hs, -⟩ := replayFromGenesis_ok_iff.mp hok
  have htotal := replayBlocks_total hreward hs
  rw [AccountMap.total_eq] at htotal
  rw [replayState_of_replayBlocks hs]
  simp only [AccountMap.balances] at htotal
  omega

/-- No credit of a replayed chain wraps while all the money ever issued fits a word. -/
theorem wraps_of_replayBlocks {now_s : UInt64} {D : UInt32} {reward : UInt64} {blocks : List Block}
    {s : ReplayState} (hreward : reward = 0 ∨ reward = coinbaseReward)
    (h : replayBlocks blocks now_s D reward = .ok s)
    (hfit : genesisSupply.toNat + (blocks.length - 1) * reward.toNat +
      offSchedule reward (chainTxns blocks.tail) < 2 ^ 64) :
    wraps applyGenesis (chainTxns blocks.tail) = 0 := by
  obtain ⟨b₀, rest, rfl, -, hloop⟩ := replayBlocks_ok_iff.mp h
  refine (history_of_replayLoop hloop).wraps_eq_zero ?_
  have hissued := issued_of_replayLoop hreward hloop
  have hgenesis := applyGenesis_total
  have hstart : (ReplayState.start b₀).state = applyGenesis := rfl
  simp only [List.tail_cons, List.length_cons, Nat.add_sub_cancel] at hfit ⊢
  rw [hstart]
  omega

end Schedule

/-! ### Sealing one block after the other -/

section Sealing

variable [Crypto]

/-- Seal a batch on the tip, one second later, and connect it at clock `now_s`. -/
def sealStep (now_s : UInt64) (c : Chain) (txns : List Txn) : Chain :=
  c.connect (c.nextBlock 0 txns, now_s)

/-- Sealed at an early clock, the block is one second later than the tip. -/
theorem nextBlock_zero_timestamp {c : Chain} (txns : List Txn)
    (hroom : c.tip.header.timestamp.toNat + 1 < 2 ^ 64) :
    (c.nextBlock 0 txns).header.timestamp.toNat = c.tip.header.timestamp.toNat + 1 := by
  have hnext : (c.tip.header.timestamp + 1).toNat = c.tip.header.timestamp.toNat + 1 := by
    rw [UInt64.toNat_add, UInt64.toNat_one, Nat.mod_eq_of_lt hroom]
  have hearly : (0 : UInt64) < c.tip.header.timestamp + 1 := by
    rw [UInt64.lt_iff_toNat_lt, hnext]
    exact Nat.succ_pos _
  exact (congrArg UInt64.toNat (if_pos hearly)).trans hnext

/-- At difficulty zero and without rewards, a signed batch that the accounts can spend is
committed. -/
theorem sealStep_commits {now_s : UInt64} {c : Chain} {txns : List Txn} {mid : AccountMap}
    (hD : c.difficulty = 0) (hreward : c.reward = 0)
    (hclock : c.tip.header.timestamp.toNat + 1 ≤ (now_s + maxClockSkewS).toNat)
    (hsize : txns.length ≤ maxTxnsPerBlock) (hauth : ∀ t ∈ txns, t.Authentic)
    (hspend : txns.foldlM spend c.state = some mid) :
    Chain.Commits c (c.nextBlock 0 txns) now_s (sealStep now_s c txns) ∧
      (sealStep now_s c txns).state = mid ∧
      (sealStep now_s c txns).tip.header.timestamp.toNat =
        c.tip.header.timestamp.toNat + 1 := by
  have hbound := (now_s + maxClockSkewS).toNat_lt
  have htime := nextBlock_zero_timestamp (c := c) txns (by omega)
  have hlinks := (Chain.nextBlock_links 0 now_s txns hD).mpr
    ⟨UInt64.lt_iff_toNat_lt.mpr (by omega), UInt64.le_iff_toNat_le.mpr (by omega), hsize⟩
  have happ : (applyBlockTxns c.state (c.nextBlock 0 txns) c.reward).1.reason = .ok ∧
      (applyBlockTxns c.state (c.nextBlock 0 txns) c.reward).2 = mid := by
    refine applyBlockTxns_iff.mpr ⟨?_, fun h => absurd h (by simp [hreward])⟩
    exact (runTxns_signed hauth).trans hspend
  have hcommit := Chain.connectBlock_ok (Chain.connectBlock_ok_iff.mpr ⟨hlinks, happ.1⟩)
  refine ⟨hcommit, hcommit.state.trans happ.2, ?_⟩
  rw [sealStep, Chain.connect, hcommit.tip, htime]

/-- At difficulty zero and without rewards, signed batches that the accounts can
spend are all committed. -/
theorem foldl_sealStep (now_s : UInt64) {c : Chain} {batches : List (List Txn)}
    {work' : AccountMap} (hD : c.difficulty = 0) (hreward : c.reward = 0)
    (hclock : c.tip.header.timestamp.toNat + batches.length ≤ (now_s + maxClockSkewS).toNat)
    (hsize : ∀ txns ∈ batches, txns.length ≤ maxTxnsPerBlock)
    (hauth : ∀ txns ∈ batches, ∀ t ∈ txns, t.Authentic)
    (hspend : batches.flatten.foldlM spend c.state = some work') :
    (batches.foldl (sealStep now_s) c).state = work' ∧
      (batches.foldl (sealStep now_s) c).blocks.map Block.txns =
        c.blocks.map Block.txns ++ batches ∧
        (batches.foldl (sealStep now_s) c).difficulty = 0 ∧
          (batches.foldl (sealStep now_s) c).reward = 0 := by
  induction batches generalizing c with
  | nil => exact ⟨Option.some.inj hspend, (List.append_nil _).symm, hD, hreward⟩
  | cons txns rest ih =>
      rw [List.flatten_cons, List.foldlM_append, Option.bind_eq_bind, Option.bind_eq_some_iff]
        at hspend
      obtain ⟨mid, hmid, hrest⟩ := hspend
      rw [List.length_cons] at hclock
      obtain ⟨hfits, hsizes⟩ := List.forall_mem_cons.mp hsize
      obtain ⟨hsigned, hauths⟩ := List.forall_mem_cons.mp hauth
      have hfirst : c.tip.header.timestamp.toNat + 1 ≤ (now_s + maxClockSkewS).toNat := by omega
      obtain ⟨hcommit, hstate, htip⟩ := sealStep_commits hD hreward hfirst hfits hsigned hmid
      have hlater : (sealStep now_s c txns).tip.header.timestamp.toNat + rest.length ≤
          (now_s + maxClockSkewS).toNat := by
        rw [htip]
        omega
      rw [← hstate] at hrest
      have hrun := ih (hcommit.difficulty.trans hD) (hcommit.reward.trans hreward) hlater hsizes
        hauths hrest
      refine ⟨hrun.1, ?_, hrun.2.2⟩
      rw [List.foldl_cons, hrun.2.1, hcommit.blocks, List.map_append, List.append_assoc]
      rfl

theorem foldl_sealStep_replays {now_s : UInt64} {c : Chain} (h : c.Replays now_s)
    (batches : List (List Txn)) : (batches.foldl (sealStep now_s) c).Replays now_s := by
  refine Run.invariant (J := fun c : Chain => c.Replays now_s) (fun c txns hc => ?_) h batches
  have hclock : now_s + maxClockSkewS ≤ now_s + maxClockSkewS := UInt64.le_refl _
  exact hc.connect hclock

end Sealing

/-! ### Minting by self-transfer -/

def bigEndian {n : ℕ} (value : ℕ) : Vector Byte n :=
  Vector.ofFn fun i => UInt8.ofNat (value >>> (8 * (n - 1 - i.val)))

def racheal : Address := bigEndian 0x625c36c34a656bf25a538f8c23a13186985af669
def oliver : Address := bigEndian 0x70dcb6dda5aeae7bfc6f08c590402f6c0c789702
def rachealKey : PubKey32 :=
  bigEndian 0x9e7afc933df20947fceb286d83f22179500b26347d6cb1b42368ed20e4196e1d
def oliverKey : PubKey32 :=
  bigEndian 0x9786a3b14cf138ccb7809d343af863f233fc73bf2d86ad9322908323e90a612c

/-- The two halves of a signature. -/
def halves (r s : ℕ) : Sig64 := bigEndian (r * 2 ^ 256 + s)

def rachealPays («to» : Address) (amount nonce : UInt64) (sig : Sig64) : Txn where
  «from» := racheal
  «to» := «to»
  amount := amount
  nonce := nonce
  pubkey := rachealKey
  sig := sig

def selfPaymentSigs : List Sig64 :=
  [halves 0x0f7569686bb4b2e4759b885ceb770fe12565021aabe1f5a0d1cd467a235380a6
      0xaf07401ec2effab0c6a5af69fcc3ca55309d1abe340de7db18e11aca57193c01,
    halves 0x976c1317f45cbbb87860618bdd1921a04a1d52336b7c245177d8b41dc993c9f2
      0x1e97823c61a18e7b1ba489cbf0250654a66e49f9d406df2cc4e162aca182530d,
    halves 0x820baad057329c47a02b490289d041d2d307f5cf8a7596d7b6528c4623f3a7b1
      0x449372c3a93817ed29a7fcb80bec4baed1e6485fa3f1634d619c9e291caa670c,
    halves 0x8efc6d39d006c9ba21868616eac51ce220d8d8c545820004592eaa1952954c57
      0x02983069e8f3bcdc738de4f0ddea21d8248821e354a1d9b865d56c37c163b50a,
    halves 0x97d7551c44717d2e1d3a6fbadccf28abb744b5c40216e035bb784fcc8d3a8481
      0x2128de4ef0f31d887212c125c35d964ecca060b95377b28d6caa308138b91408,
    halves 0x92a4a09314572350133c8c0347b2c272e768be36057e83e4b4354f05666d5637
      0x3fd3a5b2e1bd11936e3650c63c9343c0ae359566041e352025326017f8b74701,
    halves 0x0a1de9bba226cd5360788bd4320ba4ed1f5c22fd4b3118dc4405990c3b446cc5
      0x8eb6a1fc90bd65683c78722717bc27b0f531e8ef2b00c5c5b43fa6315ce4780f,
    halves 0xe246d9899de7e2c4b1f201da477bd0bfd866127fd7975b389c2a04338c064006
      0x46902f5a54f49dc4385f545e21bc6cc730c97cf921404d0b373d5a33d2617c07,
    halves 0x0765ea50018c0bbf87f7ee162698e519e37e6de2932b57df4d55a83e0f32eb97
      0xacce0192fbf1477d8cabd0b8db15b9de519e1fbed98de6886d193cc61546010a,
    halves 0x746316d7887a45e5ec855bdddc479d687eada74a2a9b44e2fc23a967fab24c61
      0xb5f7358a6a259c805845f9cc55e9a224edf7bb890bf461700966576fc7f59702,
    halves 0x00c953266717da7e4d0dbe9deb2c883d56ae246f03bfc53fd512d22ddcf7184f
      0x9a9485a28e000d706e4d1ec2a84cf547fd32c25366a7aff2d5262396ecdeb905,
    halves 0xd737e7a8877d039b6ec23c41ba622d02abc6657cf8839952b6105c0a6ec6fea5
      0x8b764e8a7b3304ff20bf9dea97d32599195d4c70172096753ceef464749eaa08,
    halves 0x6d23d7240638b9287f166d69157b66c75b4cd4522106809cfd95e8569e7f0aa2
      0x4853be5b3eb0ba9553acca42cd680c4399f88692f1dc4c166465501045a8ba0d,
    halves 0x13da805bcb377c58d4d44b5f47c05658157eb2a419b6e320bea9232931697552
      0xadab79695a070a8bd6d1f1139bbd0522319b4a0306e34aca7eb895df08ebfb0e,
    halves 0x68809a725125b09275aebf9da6187c6487b73050b4304ba31edc52f069c63b28
      0x90ed4ec687022dc6dcf4a01ea29147801b2069a334a32c8aa509c29856cfe001,
    halves 0x242d3f21fbffaf7f0c0ac66e68e07a878266397136cff27a2278b86b2db33b26
      0x4628df316e42573c065eb3e4466411f1b2e11fbe082e6f563e84d289684ac901,
    halves 0x44bea46d0ac980bf95223488198690bc01d04b880f04b674adc364109cd32289
      0x43ff692e9784e3009cbef42d1c95f1a00e59e79105f31ebac00bafb822224a03]

/-- The demo account pays itself `1000 * 9 ^ i`. -/
def selfPayment (i : ℕ) : Txn :=
  rachealPays racheal (UInt64.ofNat (1000 * 9 ^ i)) 0 (selfPaymentSigs.getD i (halves 0 0))

/-- An ordinary transfer of 100 to another account. -/
def payOliver : Txn :=
  rachealPays oliver 100 0
    (halves 0x67a9a5fe04e8de23754e0fb313efde6931b3af845395a7730961739dda560c6d
      0xd4efa5d9445b62f6a429bc547052fb20951bae27ca002ff0858b84c073302306)

/-- The next transfer of the same sender. -/
def payOliverAgain : Txn :=
  rachealPays oliver 50 1
    (halves 0xb1d19e870d00de61a492371580cb4ed2cb2580fb59ab6c07eb61ea119653aa55
      0xdd48153c07f9503810f6d8673f78e0ed59b9ada65d2e683214789d2655334600)

def moveAside : Txn :=
  rachealPays oliver 1000000000000000000 0
    (halves 0x17f57b3da8695d8537b22ad5e954cd88c92455862eaeac00c965c12ad75c4727
      0xdd598931fd999371adf581ddb5121f3e9163e6ee069495851e4f5b07f0bc6408)

def fillWord : Txn :=
  rachealPays racheal 1769562374042983616 1
    (halves 0x8849cea8e6adfb5213cbbfb9373ec58e072705d3a0597d8bc4c951524fda351b
      0x889e6b0251a78331227f47964d28e528ac27698e5868711b4d13db7ee75f5b0a)

/-- A self-payment of nothing. -/
def payNothing : Txn :=
  rachealPays racheal 0 0
    (halves 0x8f0e4a4d7b2dc3d32a6931a71d02912ddfa8ae86cd8870320d816c8e48152c9c
      0x2c692c5825327ab33cb4523cf4e8e657706a23637d430a72ca782c7c545ec906)

/-- A transfer of 1 in the other direction. -/
def payRacheal : Txn where
  «from» := oliver
  «to» := racheal
  amount := 1
  nonce := 0
  pubkey := oliverKey
  sig := halves 0xf7be7a5f3166f799f051a29fbf15e312f8c76675af3b18efe4b95779a0d06170
    0x8b406d44b655a4741a4e99da4bd2fa514192bb9129c9a6ad91226f19401a7303

def signedSamples : List Txn :=
  (List.range 17).map selfPayment ++
    [payOliver, payOliverAgain, moveAside, fillWord, payNothing, payRacheal]

/-- Real SHA-256, and exactly the signatures above. -/
abbrev sampleKeys : Crypto :=
  knownSignatures (signedSamples.map fun t => (t.pubkey, t.sig, signedPayload t))

/-- With real SHA-256 the key of the demo account has its address. -/
theorem rachealKey_address [Crypto] (hsha : Crypto.sha256 = Sha256.sha256) :
    address rachealKey = racheal := by
  have hbytes : (Vector.ofFn fun i : Fin 20 => (Sha256.sha256 rachealKey.toList)[i.val]).toList =
      racheal.toList := by decide +kernel
  rw [address, hsha]
  exact Vector.toList_inj.mp hbytes

theorem oliverKey_address [Crypto] (hsha : Crypto.sha256 = Sha256.sha256) :
    address oliverKey = oliver := by
  have hbytes : (Vector.ofFn fun i : Fin 20 => (Sha256.sha256 oliverKey.toList)[i.val]).toList =
      oliver.toList := by decide +kernel
  rw [address, hsha]
  exact Vector.toList_inj.mp hbytes

/-- The transfers in the two directions have different ids. -/
theorem payOliver_txid_ne [Crypto] (hsha : Crypto.sha256 = Sha256.sha256) :
    txid payOliver ≠ txid payRacheal := by
  have hfirst : (Sha256.sha256 payOliver.serialize).toList.head? ≠
      (Sha256.sha256 payRacheal.serialize).toList.head? := by decide +kernel
  rw [txid, txid, hsha]
  exact fun heq => hfirst (congrArg (fun id : Digest32 => id.toList.head?) heq)

/-- So among them a transfer is known by its id. -/
theorem two_ids [Crypto] (hsha : Crypto.sha256 = Sha256.sha256) : ∀ t t',
    t ∈ [payOliver, payRacheal] → t' ∈ [payOliver, payRacheal] → txid t = txid t' → t = t' := by
  intro t t' ht ht' heq
  rcases List.mem_pair.mp ht with rfl | rfl <;> rcases List.mem_pair.mp ht' with rfl | rfl
  · rfl
  · exact absurd heq (payOliver_txid_ne hsha)
  · exact absurd heq.symm (payOliver_txid_ne hsha)
  · rfl

section Samples

attribute [local instance] sampleKeys

theorem selfPayment_mem {i : ℕ} (hi : i < 17) : selfPayment i ∈ signedSamples :=
  List.mem_append_left _ (List.mem_map_of_mem (List.mem_range.mpr hi))

theorem signedSamples_authentic : ∀ t ∈ signedSamples, t.Authentic := by
  intro t ht
  have hfields : t.from ≠ kNullAddr ∧ t.from = address t.pubkey := by
    have hmem := ht
    simp only [signedSamples, List.mem_append, List.mem_map, List.mem_cons, List.not_mem_nil,
      or_false] at hmem
    have hracheal : racheal ≠ kNullAddr ∧ racheal = address rachealKey :=
      ⟨by decide, (rachealKey_address rfl).symm⟩
    rcases hmem with ⟨i, -, rfl⟩ | rfl | rfl | rfl | rfl | rfl | rfl
    case inr.inr.inr.inr.inr.inr => exact ⟨by decide, (oliverKey_address rfl).symm⟩
    all_goals exact hracheal
  exact ⟨hfields.1, hfields.2, decide_eq_true (List.mem_map_of_mem ht)⟩

/-- A fresh chain at difficulty zero and without rewards, after sealing batches. -/
def sealedChain (batches : List (List Txn)) : Chain :=
  batches.foldl (sealStep genesisTimestamp) (Chain.new 0 0)

theorem sealedChain_single (txns : List Txn) :
    sealedChain [txns] =
      (Chain.new 0 0).connect ((Chain.new 0 0).nextBlock 0 txns, genesisTimestamp) := by
  rw [sealedChain, List.foldl_cons, List.foldl_nil, sealStep]

theorem sealedChain_mem_scanl (txns : List Txn) :
    sealedChain [txns] ∈ [((Chain.new 0 0).nextBlock 0 txns, genesisTimestamp)].scanl
      Chain.connect (Chain.new 0 0) := by
  rw [sealedChain_single, List.scanl_cons, List.scanl_nil]
  exact List.mem_cons_of_mem _ (List.mem_singleton_self _)

/-- Batches of samples that the accounts can spend are all in the chain, which the
replay accepts up to its supply check. -/
theorem sealedChain_replays (batches : List (List Txn)) {work : AccountMap}
    (hlength : batches.length ≤ 7200)
    (hmem : ∀ txns ∈ batches, txns.length ≤ maxTxnsPerBlock ∧ ∀ t ∈ txns, t ∈ signedSamples)
    (hspend : batches.flatten.foldlM spend applyGenesis = some work) :
    (sealedChain batches).state = work ∧
      (sealedChain batches).blocks.map Block.txns = [] :: batches ∧
        replayBlocks (sealedChain batches).blocks genesisTimestamp 0 0 =
          .ok (sealedChain batches).cursor := by
  have hclock : (Chain.new 0 0).tip.header.timestamp.toNat + batches.length ≤
      (genesisTimestamp + maxClockSkewS).toNat := by
    have hlate : (genesisTimestamp + maxClockSkewS).toNat = genesisTimestamp.toNat + 7200 := by
      decide
    have htip : (Chain.new 0 0).tip.header.timestamp = genesisTimestamp := rfl
    rw [hlate, htip]
    omega
  obtain ⟨hstate, hblocks, hD, hreward⟩ :=
    foldl_sealStep genesisTimestamp (c := Chain.new 0 0) rfl rfl hclock
      (fun txns h => (hmem txns h).1)
      (fun txns h t ht => signedSamples_authentic t ((hmem txns h).2 t ht)) hspend
  have hstart := Chain.new_replays 0 0 genesisTimestamp
  have hreplays : (sealedChain batches).Replays genesisTimestamp :=
    foldl_sealStep_replays hstart batches
  rw [Chain.Replays, sealedChain, hD, hreward] at hreplays
  exact ⟨hstate, hblocks, hreplays⟩

theorem chainTxns_of_map {blocks : List Block} {batches : List (List Txn)}
    (h : blocks.map Block.txns = [] :: batches) : chainTxns blocks.tail = batches.flatten := by
  have htail := congrArg List.tail h
  rw [← List.map_tail] at htail
  rw [chainTxns, List.flatMap_def, htail, List.tail_cons]

/-- The replay accepts sealed batches whose balances add up to the genesis supply
modulo the word size. -/
theorem sealedChain_accepted (batches : List (List Txn)) (total : ℕ)
    (hlength : batches.length ≤ 7200)
    (hmem : ∀ txns ∈ batches, txns.length ≤ maxTxnsPerBlock ∧ ∀ t ∈ txns, t ∈ signedSamples)
    (hspend : (batches.flatten.foldlM spend applyGenesis).map AccountMap.total = some total)
    (htotal : total % 2 ^ 64 = genesisSupply.toNat) :
    (replayFromGenesis (sealedChain batches).blocks genesisTimestamp 0 0).ok = true ∧
      chainTxns (sealedChain batches).blocks.tail = batches.flatten ∧
        ∑ a, ((replayState (sealedChain batches).blocks).lookup a).balance.toNat = total := by
  obtain ⟨work, hwork, hsum⟩ := Option.map_eq_some_iff.mp hspend
  obtain ⟨hstate, hblocks, hreplays⟩ := sealedChain_replays batches hlength hmem hwork
  refine ⟨replayFromGenesis_ok_iff.mpr ⟨_, hreplays, ?_⟩, chainTxns_of_map hblocks, ?_⟩
  · rw [← UInt64.toNat_inj, supplySum_toNat, Chain.cursor_state, hstate, hsum, htotal,
      UInt64.mul_zero, UInt64.add_zero]
  · rw [replayState_of_replayBlocks hreplays, Chain.cursor_state, hstate, ← hsum]
    exact work.total_eq.symm

/-- One accepted self-transfer of 1000 leaves the supply at 6000. -/
theorem supply_off_schedule_after_self_transfer :
    ¬∀ c ∈ [((Chain.new 0 0).nextBlock 0 [selfPayment 0], genesisTimestamp)].scanl
        Chain.connect (Chain.new 0 0),
      ∑ a, (c.account a).balance.toNat =
        genesisSupply.toNat + c.height.toNat * (0 : UInt64).toNat := by
  intro h
  have hspend : ([[selfPayment 0]].flatten.foldlM spend applyGenesis).map AccountMap.total =
      some 6000 := by decide
  obtain ⟨work, hwork, htotal⟩ := Option.map_eq_some_iff.mp hspend
  obtain ⟨hstate, -⟩ := sealedChain_replays [[selfPayment 0]] (by decide)
    (by simpa using ⟨by decide, selfPayment_mem (i := 0) (by decide)⟩) hwork
  have hc := h (sealedChain [[selfPayment 0]]) (sealedChain_mem_scanl [selfPayment 0])
  rw [Chain.sum_balances, hstate, htotal, UInt64.toNat_zero, Nat.mul_zero] at hc
  exact absurd hc (by decide)

/-- An ordinary transfer keeps the supply on schedule. -/
theorem supply_on_schedule_after_transfer :
    ∑ a, ((sealedChain [[payOliver]]).account a).balance.toNat =
      genesisSupply.toNat + (sealedChain [[payOliver]]).height.toNat * (0 : UInt64).toNat := by
  refine (supply_along_runs 0 0 (.inl rfl)
    [((Chain.new 0 0).nextBlock 0 [payOliver], genesisTimestamp)]).mpr ?_ _
    (sealedChain_mem_scanl [payOliver])
  intro m hm hadmits
  cases List.mem_singleton.mp hm
  have hoff : offSchedule 0 [payOliver] = 0 := by decide
  have hfit : applyGenesis.total + Ledger.issued (journal [payOliver]) < 2 ^ 64 := by
    decide
  have hwraps := (history_of_applyBlockTxns hadmits.applied).wraps_eq_zero hfit
  exact hoff.trans (Nat.mul_eq_zero.mpr (.inr hwraps)).symm

/-- Seventeen blocks in which the demo account pays itself all it has eight times
over, and one that lifts the total by exactly one word. -/
def mintBatches : List (List Txn) :=
  ((List.range 17).map fun i => List.replicate 8 (selfPayment i)) ++ [[moveAside, fillWord]]

private theorem mintBatches_mem : ∀ txns ∈ mintBatches,
    txns.length ≤ maxTxnsPerBlock ∧ ∀ t ∈ txns, t ∈ signedSamples := by
  intro txns htxns
  rcases List.mem_append.mp htxns with hself | hlast
  · obtain ⟨i, hi, rfl⟩ := List.mem_map.mp hself
    refine ⟨by simp [maxTxnsPerBlock], fun t ht => ?_⟩
    rw [List.eq_of_mem_replicate ht]
    exact selfPayment_mem (List.mem_range.mp hi)
  · rw [List.mem_singleton.mp hlast]
    exact ⟨by decide, by simp [signedSamples]⟩

/-- The replay accepts a chain whose integer supply exceeds the schedule by a word. -/
theorem replay_accepts_minted_word :
    (replayFromGenesis (sealedChain mintBatches).blocks genesisTimestamp 0 0).ok = true ∧
      ((sealedChain mintBatches).blocks.length - 1) * (0 : UInt64).toNat + genesisSupply.toNat <
        2 ^ 64 ∧
      ∑ a, ((replayState (sealedChain mintBatches).blocks).lookup a).balance.toNat ≠
        genesisSupply.toNat +
          ((sealedChain mintBatches).blocks.length - 1) * (0 : UInt64).toNat := by
  obtain ⟨hok, -, hsum⟩ := sealedChain_accepted mintBatches (2 ^ 64 + 5000) (by decide)
    mintBatches_mem (by decide +kernel) (by decide)
  refine ⟨hok, ?_, ?_⟩
  · rw [UInt64.toNat_zero, Nat.mul_zero]
    decide
  · rw [hsum, UInt64.toNat_zero, Nat.mul_zero]
    decide

theorem payOliver_spendable : payOliver.Spendable (applyGenesis.lookup payOliver.from) :=
  ⟨by decide, by decide⟩

theorem payOliver_signed : ∀ t ∈ [payOliver], t.Authentic := fun t ht =>
  signedSamples_authentic t (by simp [signedSamples, List.mem_singleton.mp ht])

theorem payOliver_spent :
    [payOliver].foldlM spend applyGenesis = some (applyGenesis.transfer payOliver) := by
  rw [List.foldlM_cons, spend_eq payOliver_spendable]
  rfl

theorem payOliver_sealed :
    (sealedChain [[payOliver]]).blocks.map Block.txns = [[], [payOliver]] := by
  have hspend : ([[payOliver]].flatten.foldlM spend applyGenesis).map AccountMap.total =
      some 5000 := by decide
  obtain ⟨work, hwork, -⟩ := Option.map_eq_some_iff.mp hspend
  exact (sealedChain_replays [[payOliver]] (by decide) (by simp [maxTxnsPerBlock, signedSamples])
    hwork).2.1

theorem payOliver_accepted :
    (replayFromGenesis (sealedChain [[payOliver]]).blocks genesisTimestamp 0 0).ok = true ∧
      chainTxns (sealedChain [[payOliver]]).blocks.tail = [payOliver] := by
  obtain ⟨hok, htxns, -⟩ := sealedChain_accepted [[payOliver]] 5000 (by decide)
    (by simp [maxTxnsPerBlock, signedSamples]) (by decide) (by decide)
  exact ⟨hok, htxns⟩

/-- On a chain of one ordinary transfer the integer supply is on schedule. -/
theorem replay_supply_exact_of_transfer :
    ∑ a, ((replayState (sealedChain [[payOliver]]).blocks).lookup a).balance.toNat =
      genesisSupply.toNat +
        ((sealedChain [[payOliver]]).blocks.length - 1) * (0 : UInt64).toNat := by
  obtain ⟨hok, htxns⟩ := payOliver_accepted
  obtain ⟨s, hs, -⟩ := replayFromGenesis_ok_iff.mp hok
  have hoff : offSchedule 0 [payOliver] = 0 := by decide
  refine (replay_supply_exact (.inl rfl) hok).mpr ?_
  have hwraps := wraps_of_replayBlocks (.inl rfl) hs
    (by rw [htxns, hoff, UInt64.toNat_zero, Nat.mul_zero]; decide)
  rw [hwraps, htxns, hoff, Nat.mul_zero]

end Samples

end TxChain
